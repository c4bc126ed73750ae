/-
# Queue.Conservation -- every message in one place, and with one consumer

Runs of one point-to-point queue under any calls of its methods, with any clock
readings; a `dequeue` is a requeue step and a pop step, with other calls between
them or not.  The run remembers which messages were enqueued, acknowledged and
purged.  While the enqueued messages have distinct ids:

* each of them is at exactly one `Place` (`Conserved`);
* a message that was popped is not popped again before it is given back or has
  expired (`Hidden`), and never after it was acknowledged (`Taken`).

The invariant is the balance of the four places; that the id of a ready message
is not in flight follows from it (`Sound.absent`).
-/
import BrokerLite.Queue.PointToPoint
import BrokerLite.Theory.Run

namespace BrokerLite

open Theory

set_option autoImplicit false

/-- A queue, and what became of the messages, newest first. -/
structure QueueRun where
  messages : MessageTable
  queue : PointToPointQueue
  enqueued : List MessageRef := []
  acked : List MessageRef := []
  purged : List MessageRef := []

inductive QueueOp where
  | enqueue (now : Timestamp) (m : MessageRef)
  | requeueTimedOut (now : Timestamp)
  | pop (now : Timestamp) (timeout : Option Timestamp)
  | acknowledge (messageId : String)
  | nack (messageId : String)
  | purge
  deriving DecidableEq

/-- Whether the operation may give back what stands under `id` until `expiry`. -/
def QueueOp.Reveals (id : String) (expiry : Timestamp) : QueueOp → Prop
  | .nack messageId => messageId = id
  | .requeueTimedOut now => expiry ≤ now
  | _ => False

namespace QueueRun

def idOf (r : QueueRun) (m : MessageRef) : String := (r.messages m).id

def step (r : QueueRun) : QueueOp → QueueRun
  | .enqueue now m =>
      match r.queue.enqueue r.messages now m with
      | .error _ => r
      | .ok (messages, queue) => { r with messages, queue, enqueued := m :: r.enqueued }
  | .requeueTimedOut now => { r with queue := (r.queue.requeueTimedOut r.messages now).2 }
  | .pop now timeout => { r with queue := (r.queue.pop r.messages now timeout).2 }
  | .acknowledge messageId =>
      { r with
        queue := (r.queue.acknowledge messageId).2
        acked := ((r.queue.inFlight.get? messageId).map Prod.fst).toList ++ r.acked }
  | .nack messageId => { r with queue := (r.queue.nack r.messages messageId).2 }
  | .purge =>
      match r.queue.purge with
      | none => r
      | some (_, queue) => { r with queue, purged := r.queue.ready ++ r.purged }

/-- A message whose enqueueing succeeds has an id that none before it had. -/
def Fresh (r : QueueRun) : QueueOp → Prop
  | .enqueue now m =>
      (r.queue.enqueue r.messages now m).isOk = true → ∀ n ∈ r.enqueued, r.idOf n ≠ r.idOf m
  | _ => True

instance (r : QueueRun) (op : QueueOp) : Decidable (r.Fresh op) := by
  cases op <;> unfold Fresh <;> infer_instance

/-- An empty queue that nothing has happened to. -/
structure Start (r : QueueRun) : Prop where
  ready : r.queue.ready = []
  inFlight : r.queue.inFlight = .empty
  totalEnqueued : r.queue.totalEnqueued = 0
  totalAcked : ∀ n, r.queue.totalAcked = some n → n = 0
  enqueued : r.enqueued = []
  acked : r.acked = []
  purged : r.purged = []

/-- The messages at each of the four places. -/
def placed (r : QueueRun) : Place → List MessageRef
  | .ready => r.queue.ready
  | .inFlight => r.queue.inFlight.values.map Prod.fst
  | .settled => r.acked
  | .discarded => r.purged

/-- Every message is at exactly one place, and there once; the counters agree. -/
structure Conserved (r : QueueRun) : Prop where
  placed : ∀ m ∈ r.enqueued, ∃! place, m ∈ r.placed place
  once : ∀ place, (r.placed place).Nodup
  only : ∀ place, ∀ m ∈ r.placed place, m ∈ r.enqueued
  counted : ∀ q, r.queue = .fifo q →
    q.totalEnqueued = q.depth + q.inFlightCount + q.totalAcked + r.purged.length

/-- Some pop in this state would return the message with this id. -/
def Pops (r : QueueRun) (id : String) : Prop :=
  ∃ now timeout m, (r.queue.pop r.messages now timeout).1 = some m ∧ r.idOf m = id

/-- A pop returns nothing that is in flight, and a whole `dequeue` nothing that
was in flight before it unless it had expired by the requeue step. -/
def Exclusive (r : QueueRun) : Prop :=
  ∀ m e, r.queue.inFlight.get? (r.idOf m) = some e →
    (∀ now timeout, (r.queue.pop r.messages now timeout).1 ≠ some m) ∧
    ∀ requeueAt now timeout,
      (r.queue.dequeue r.messages requeueAt now timeout).1 = some m → e.2 ≤ requeueAt

/-- The message with this id was acknowledged. -/
def Taken (r : QueueRun) (id : String) : Prop := ∃ m ∈ r.acked, r.idOf m = id

/-- The message with this id is in flight until `expiry`, or was acknowledged. -/
def Hidden (r : QueueRun) (id : String) (expiry : Timestamp) : Prop :=
  (∃ m, r.queue.inFlight.get? id = some (m, expiry)) ∨ r.Taken id

def custody (r : QueueRun) : Custody Place MessageRef := fun place => ↑(r.placed place)

theorem custody_eq (r : QueueRun) : r.custody = r.queue.view.custody ↑r.acked ↑r.purged := by
  funext place
  cases place <;> rfl

/-- The places hold what was enqueued, each message under its own id. -/
structure Sound (r : QueueRun) : Prop where
  balance : r.custody.total = ↑r.enqueued
  distinct : (r.enqueued.map r.idOf).Nodup
  keyed : r.queue.view.Keyed r.idOf
  entered : r.queue.totalEnqueued = r.enqueued.length
  settled : ∀ n, r.queue.totalAcked = some n → n = r.acked.length

variable {r : QueueRun}

theorem Start.sound (start : r.Start) : r.Sound where
  balance := by
    rw [start.enqueued, Multiset.coe_nil, Multiset.eq_zero_iff_forall_notMem]
    intro m held
    obtain ⟨place, here⟩ := Custody.mem_total.mp held
    cases place <;> simp [custody, QueueRun.placed, start.ready, start.inFlight, start.acked,
      start.purged] at here
  distinct := by simp [start.enqueued]
  keyed := by
    intro id e found
    simp [PointToPointQueue.view, start.inFlight] at found
  entered := by simp [start.totalEnqueued, start.enqueued]
  settled n counted := by simp [start.totalAcked n counted, start.acked]

/-! ## What the invariant says about one state -/

theorem Sound.once (sound : r.Sound) : r.custody.total.Nodup := by
  rw [sound.balance]
  exact Multiset.coe_nodup.mpr (sound.distinct.of_map _)

theorem Sound.mem_total (sound : r.Sound) {m : MessageRef} : m ∈ r.custody.total ↔ m ∈ r.enqueued := by
  rw [sound.balance, Multiset.mem_coe]

theorem Sound.apart (sound : r.Sound) {m n : MessageRef} (held : m ∈ r.custody.total)
    (also : n ∈ r.custody.total) (same : r.idOf m = r.idOf n) : m = n :=
  List.inj_on_of_nodup_map sound.distinct (sound.mem_total.mp held) (sound.mem_total.mp also) same

/-- The id of a ready message is not in flight. -/
theorem Sound.absent (sound : r.Sound) {m : MessageRef} (ready : m ∈ r.queue.ready) :
    r.idOf m ∉ r.queue.inFlight.keys := by
  have once := sound.once
  have apart := fun a held b also same => sound.apart (m := a) (n := b) held also same
  rw [custody_eq] at once apart
  exact Visibility.key_not_in_flight sound.keyed once apart (v := r.queue.view) ready

theorem Sound.conserved (sound : r.Sound) : r.Conserved where
  placed m member := Custody.existsUnique_place sound.once (sound.mem_total.mpr member)
  once place := Multiset.coe_nodup.mp (Custody.nodup_place sound.once place)
  only place m here := sound.mem_total.mp (Custody.mem_total.mpr ⟨place, here⟩)
  counted q fifo := by
    have entered := sound.entered
    have settled := sound.settled q.totalAcked (by rw [fifo]; rfl)
    have balance := congrArg Multiset.card sound.balance
    rw [Place.total_eq] at balance
    simp only [custody, QueueRun.placed, fifo, PointToPointQueue.ready, PointToPointQueue.inFlight,
      PointToPointQueue.totalEnqueued, Multiset.card_add, Multiset.coe_card, List.length_map,
      Dict.length_values] at balance entered
    rw [entered, settled, MessageQueue.depth, MessageQueue.inFlightCount]
    omega

theorem ready_of_pop {now : Timestamp} {timeout : Option Timestamp} {m : MessageRef}
    (popped : (r.queue.pop r.messages now timeout).1 = some m) : m ∈ r.queue.ready := by
  rcases PointToPointQueue.pop_spec r.messages now r.queue timeout with
    ⟨nothing, -⟩ | ⟨n, returned, ready, -⟩
  · rw [nothing] at popped
    cases popped
  · rw [returned] at popped
    cases popped
    exact ready

/-! ## One step -/

theorem step_idOf (r : QueueRun) (op : QueueOp) : (r.step op).idOf = r.idOf := by
  cases op with
  | enqueue now m =>
      cases done : r.queue.enqueue r.messages now m with
      | error raised => rw [step, done]
      | ok result =>
          funext n
          have table := (PointToPointQueue.enqueue_spec done).1
          simp only [step, done, idOf, table, MessageTable.stamped_id]
  | purge =>
      rw [step]
      split <;> rfl
  | _ => rfl

/-- An operation that only hands messages on keeps the invariant. -/
theorem Sound.of_kept (sound : r.Sound) {queue : PointToPointQueue} {acked purged : List MessageRef}
    (kept : Custody.Kept Place.Final r.custody
      (custody { r with queue, acked, purged }))
    (still : ∀ id e, queue.inFlight.get? id = some e → r.queue.inFlight.get? id = some e ∨
      r.idOf e.1 = id)
    (counts : queue.counts = (r.queue.totalEnqueued, r.queue.totalAcked.map fun _ => acked.length)) :
    Sound { r with queue, acked, purged } where
  balance := kept.total.trans sound.balance
  distinct := sound.distinct
  keyed id e found := (still id e found).elim (sound.keyed id e) fun named => named
  entered := (congrArg Prod.fst counts).trans sound.entered
  settled n counted := by
    have total : queue.totalAcked = r.queue.totalAcked.map fun _ => acked.length :=
      congrArg Prod.snd counts
    rw [counted] at total
    obtain ⟨-, -, same⟩ := Option.map_eq_some_iff.mp total.symm
    exact same.symm

theorem Sound.counts_of_same (sound : r.Sound) {queue : PointToPointQueue}
    (same : queue.counts = r.queue.counts) :
    queue.counts = (r.queue.totalEnqueued, r.queue.totalAcked.map fun _ => r.acked.length) := by
  rw [same, PointToPointQueue.counts]
  cases counted : r.queue.totalAcked with
  | none => rfl
  | some n => rw [sound.settled n counted]; rfl

theorem requeueTimedOut_kept (r : QueueRun) (now : Timestamp) :
    Custody.Kept Place.Final r.custody (r.step (.requeueTimedOut now)).custody := by
  rw [custody_eq, custody_eq]
  dsimp only [step]
  rw [(PointToPointQueue.requeueTimedOut_spec r.messages now r.queue).1]
  exact Visibility.giveBackAll_kept r.queue.view _ _ _

theorem nack_kept (r : QueueRun) (id : String) :
    Custody.Kept Place.Final r.custody (r.step (.nack id)).custody := by
  rw [custody_eq, custody_eq]
  dsimp only [step]
  rw [(PointToPointQueue.nack_spec r.messages r.queue id).2.1]
  exact Visibility.giveBack_kept r.queue.view id _ _

theorem acknowledge_kept (r : QueueRun) (id : String) :
    Custody.Kept Place.Final r.custody (r.step (.acknowledge id)).custody := by
  rw [custody_eq, custody_eq]
  dsimp only [step]
  rw [(PointToPointQueue.acknowledge_spec r.queue id).2.1]
  cases found : r.queue.inFlight.get? id with
  | none =>
      have absent := Dict.get?_eq_none_iff.mp found
      rw [Visibility.settle, PointToPointQueue.view, Dict.erase_of_absent absent]
      exact .refl _
  | some e => exact (Visibility.settle_moved (v := r.queue.view) found).kept not_false

theorem purge_kept (r : QueueRun) :
    Custody.Kept Place.Final r.custody (r.step .purge).custody := by
  rw [custody_eq, custody_eq]
  dsimp only [step]
  split
  · exact .refl _
  · next removed queue done =>
      dsimp only
      rw [(PointToPointQueue.purge_spec done).2.1]
      exact (Visibility.discard_moved r.queue.view ↑r.acked ↑r.purged).kept not_false

theorem Sound.pop_kept (sound : r.Sound) (now : Timestamp) (timeout : Option Timestamp) :
    Custody.Kept Place.Final r.custody (r.step (.pop now timeout)).custody := by
  rw [custody_eq, custody_eq]
  dsimp only [step]
  rcases PointToPointQueue.pop_spec r.messages now r.queue timeout with
    ⟨nothing, -⟩ | ⟨m, -, ready, view, -⟩
  · rw [nothing]
    exact .refl _
  · rw [view]
    exact (Visibility.deliver_moved (v := r.queue.view) ready (sound.absent ready) _).kept not_false

theorem Sound.enqueue (sound : r.Sound) (now : Timestamp) {m : MessageRef}
    (fresh : r.Fresh (.enqueue now m)) : (r.step (.enqueue now m)).Sound ∧
      ∀ place, r.custody place ≤ (r.step (.enqueue now m)).custody place := by
  cases done : r.queue.enqueue r.messages now m with
  | error raised =>
      rw [step, done]
      exact ⟨sound, fun _ => le_refl _⟩
  | ok result =>
      have ids := step_idOf r (.enqueue now m)
      obtain ⟨table, view, counts⟩ := PointToPointQueue.enqueue_spec done
      rw [step, done] at ids ⊢
      dsimp only at ids ⊢
      have entered : Custody.Entered m .ready r.custody
          (custody ⟨result.1, result.2, m :: r.enqueued, r.acked, r.purged⟩) := by
        rw [custody_eq, custody_eq]
        dsimp only
        rw [view]
        exact Visibility.enter_entered r.queue.view m ↑r.acked ↑r.purged
      refine ⟨⟨?_, ?_, ?_, ?_, ?_⟩, entered.stays⟩
      · rw [entered.total, sound.balance, Multiset.cons_coe]
      · rw [ids, List.map_cons, List.nodup_cons]
        refine ⟨fun member => ?_, sound.distinct⟩
        obtain ⟨n, before, same⟩ := List.mem_map.mp member
        exact fresh (by rw [done]; rfl) n before same
      · rw [ids, view]
        exact sound.keyed
      · have total := congrArg Prod.fst counts
        dsimp only [PointToPointQueue.counts] at total ⊢
        rw [total, sound.entered, List.length_cons]
      · intro n counted
        have total := congrArg Prod.snd counts
        dsimp only [PointToPointQueue.counts] at total counted ⊢
        rw [total] at counted
        exact sound.settled n counted

/-- One step keeps the invariant, and nothing leaves a final place. -/
theorem Sound.purge (sound : r.Sound) : (r.step .purge).Sound ∧
    ∀ place, place.Final → r.custody place ≤ (r.step .purge).custody place := by
  have kept := purge_kept r
  refine ⟨?_, kept.stays⟩
  dsimp only [QueueRun.step] at kept ⊢
  split at kept
  · exact sound
  · next removed queue done =>
      obtain ⟨-, view, counts⟩ := PointToPointQueue.purge_spec done
      refine sound.of_kept kept (fun id e found => .inl ?_) (sound.counts_of_same counts)
      have found : queue.view.inFlight.get? id = some e := found
      rw [view] at found
      exact found

theorem Sound.pop (sound : r.Sound) (now : Timestamp) (timeout : Option Timestamp) :
    (r.step (.pop now timeout)).Sound ∧
      ∀ place, place.Final → r.custody place ≤ (r.step (.pop now timeout)).custody place := by
  have kept := sound.pop_kept now timeout
  refine ⟨sound.of_kept kept (fun id e found => ?_) ?_, kept.stays⟩
  · have found : (r.queue.pop r.messages now timeout).2.view.inFlight.get? id = some e := found
    rcases PointToPointQueue.pop_spec r.messages now r.queue timeout with
      ⟨nothing, -⟩ | ⟨m, -, -, view, -⟩
    · rw [nothing] at found
      exact .inl found
    · rw [view, Visibility.deliver, Dict.get?_set_eq_some_iff] at found
      rcases found with ⟨same, rfl⟩ | ⟨-, found⟩
      · exact .inr same.symm
      · exact .inl found
  · rcases PointToPointQueue.pop_spec r.messages now r.queue timeout with
      ⟨nothing, -⟩ | ⟨m, -, -, -, counts⟩
    · rw [nothing]
      exact sound.counts_of_same rfl
    · exact sound.counts_of_same counts

theorem Sound.step (sound : r.Sound) (op : QueueOp) (fresh : r.Fresh op) : (r.step op).Sound ∧
    ∀ place, place.Final → r.custody place ≤ (r.step op).custody place := by
  cases op with
  | enqueue now m =>
      obtain ⟨after, stays⟩ := sound.enqueue now fresh
      exact ⟨after, fun place _ => stays place⟩
  | requeueTimedOut now =>
      have kept := requeueTimedOut_kept r now
      obtain ⟨view, counts⟩ := PointToPointQueue.requeueTimedOut_spec r.messages now r.queue
      refine ⟨sound.of_kept kept (fun id e found => .inl ?_) (sound.counts_of_same counts), kept.stays⟩
      have found : (r.queue.requeueTimedOut r.messages now).2.view.inFlight.get? id = some e := found
      rw [view] at found
      exact Visibility.get?_of_giveBackAll _ found
  | nack id =>
      have kept := nack_kept r id
      obtain ⟨-, view, counts⟩ := PointToPointQueue.nack_spec r.messages r.queue id
      refine ⟨sound.of_kept kept (fun id' e found => .inl ?_) (sound.counts_of_same counts), kept.stays⟩
      have found : (r.queue.nack r.messages id).2.view.inFlight.get? id' = some e := found
      rw [view] at found
      exact Visibility.get?_of_giveBackAll [id] found
  | acknowledge id =>
      have kept := acknowledge_kept r id
      obtain ⟨-, view, counts⟩ := PointToPointQueue.acknowledge_spec r.queue id
      refine ⟨sound.of_kept kept (fun id' e found => .inl ?_) ?_, kept.stays⟩
      · have found : (r.queue.acknowledge id).2.view.inFlight.get? id' = some e := found
        rw [view] at found
        exact Visibility.get?_of_settle id found
      · rw [counts, Dict.contains]
        cases counted : r.queue.totalAcked with
        | none => rfl
        | some n => cases r.queue.inFlight.get? id <;> simp [sound.settled n counted]
  | purge => exact sound.purge
  | pop now timeout => exact sound.pop now timeout

/-! ## Nobody else gets it -/

theorem Hidden.not_pops {id : String} {expiry : Timestamp} (hidden : r.Hidden id expiry)
    (sound : r.Sound) : ¬ r.Pops id := by
  rintro ⟨now, timeout, m, popped, rfl⟩
  have ready := ready_of_pop popped
  rcases hidden with ⟨n, found⟩ | ⟨n, acked, same⟩
  · rw [Dict.get?_eq_none_iff.mpr (sound.absent ready)] at found
    cases found
  · have here : m ∈ r.custody .ready := ready
    have there : n ∈ r.custody .settled := acked
    have one := sound.apart (Custody.mem_total.mpr ⟨_, there⟩) (Custody.mem_total.mpr ⟨_, here⟩) same
    cases Custody.place_unique sound.once here (one ▸ there)

theorem requeueTimedOut_get? (r : QueueRun) {now : Timestamp} {id : String}
    {e : MessageRef × Timestamp} (found : r.queue.inFlight.get? id = some e) (early : ¬ e.2 ≤ now) :
    (r.queue.requeueTimedOut r.messages now).2.inFlight.get? id = some e := by
  have view := (PointToPointQueue.requeueTimedOut_spec r.messages now r.queue).1
  have still := Visibility.get?_giveBackAll_expired (v := r.queue.view) found early
  rw [show r.queue.view.inFlight = r.queue.inFlight from rfl, ← view] at still
  exact still

theorem Sound.exclusive (sound : r.Sound) : r.Exclusive := by
  intro m e found
  constructor
  · intro now timeout popped
    exact Hidden.not_pops (.inl ⟨e.1, found⟩) sound ⟨now, timeout, m, popped, rfl⟩
  · intro requeueAt now timeout returned
    by_contra early
    rw [PointToPointQueue.dequeue_eq] at returned
    have after := (sound.step (.requeueTimedOut requeueAt) trivial).1
    have still := requeueTimedOut_get? r found early
    exact Hidden.not_pops (.inl ⟨e.1, still⟩) after ⟨now, timeout, m, returned, rfl⟩

theorem Sound.taken_step (sound : r.Sound) {op : QueueOp} (fresh : r.Fresh op) {id : String}
    (taken : r.Taken id) : (r.step op).Taken id := by
  obtain ⟨m, acked, same⟩ := taken
  have stays := (sound.step op fresh).2 .settled trivial
  exact ⟨m, Multiset.mem_of_le stays acked, by rw [step_idOf, same]⟩

theorem Sound.taken_acknowledge (sound : r.Sound) {id : String}
    (acknowledged : (r.queue.acknowledge id).1 = true) : (r.step (.acknowledge id)).Taken id := by
  rw [(PointToPointQueue.acknowledge_spec r.queue id).1] at acknowledged
  obtain ⟨e, found⟩ := Option.isSome_iff_exists.mp acknowledged
  exact ⟨e.1, by simp [QueueRun.step, found], sound.keyed id e found⟩

/-- What is hidden stays hidden until it is given back or its expiry passes. -/
theorem Sound.hidden_step (sound : r.Sound) {op : QueueOp} (fresh : r.Fresh op) {id : String}
    {expiry : Timestamp} (kept : ¬ op.Reveals id expiry) (hidden : r.Hidden id expiry) :
    (r.step op).Hidden id expiry := by
  rcases hidden with ⟨m, found⟩ | taken
  · cases op with
    | enqueue now n =>
        cases done : r.queue.enqueue r.messages now n with
        | error raised => exact .inl ⟨m, by rw [QueueRun.step, done]; exact found⟩
        | ok result =>
            have view := congrArg Visibility.inFlight (PointToPointQueue.enqueue_spec done).2.1
            refine .inl ⟨m, ?_⟩
            rw [QueueRun.step, done]
            exact (congrArg (Dict.get? · id) view).trans found
    | requeueTimedOut now => exact .inl ⟨m, requeueTimedOut_get? r found kept⟩
    | pop now timeout =>
        refine .inl ⟨m, ?_⟩
        rcases PointToPointQueue.pop_spec r.messages now r.queue timeout with
          ⟨nothing, -⟩ | ⟨n, -, ready, view, -⟩
        · rw [QueueRun.step, nothing]
          exact found
        · have other : id ≠ r.idOf n := fun same =>
            sound.absent ready (same ▸ Dict.contains_iff.mp (by simp [Dict.contains, found]))
          exact (congrArg (fun v => Dict.get? v.inFlight id) view).trans
            ((Dict.get?_set_of_ne _ other _).trans found)
    | acknowledge other =>
        by_cases same : other = id
        · subst same
          exact .inr (sound.taken_acknowledge (by
            rw [(PointToPointQueue.acknowledge_spec r.queue other).1]
            simp [Dict.contains, found]))
        · have view := (PointToPointQueue.acknowledge_spec r.queue other).2.1
          exact .inl ⟨m, (congrArg (fun v => Dict.get? v.inFlight id) view).trans
            ((Dict.get?_erase_of_ne _ (Ne.symm same)).trans found)⟩
    | nack other =>
        have view := (PointToPointQueue.nack_spec r.messages r.queue other).2.1
        refine .inl ⟨m, (congrArg (fun v => Dict.get? v.inFlight id) view).trans ?_⟩
        rw [Visibility.get?_giveBack, if_neg fun same => kept same.symm]
        exact found
    | purge =>
        refine .inl ⟨m, ?_⟩
        rw [QueueRun.step]
        split
        · exact found
        · next removed queue done =>
            have view := (PointToPointQueue.purge_spec done).2.1
            exact (congrArg (fun v => Dict.get? v.inFlight id) view).trans found
  · exact .inr (sound.taken_step fresh taken)

theorem hidden_of_pop {now : Timestamp} {timeout : Option Timestamp} {m : MessageRef}
    (popped : (r.queue.pop r.messages now timeout).1 = some m) :
    (r.step (.pop now timeout)).Hidden (r.idOf m)
      (now + orDefault timeout r.queue.visibilityTimeout) := by
  rcases PointToPointQueue.pop_spec r.messages now r.queue timeout with
    ⟨nothing, -⟩ | ⟨n, returned, -, view, -⟩
  · rw [nothing] at popped
    cases popped
  · rw [returned] at popped
    cases popped
    exact .inl ⟨m, (congrArg (fun v => Dict.get? v.inFlight (r.idOf m)) view).trans
      (Dict.get?_set_self _ _ _)⟩

/-! ## Over whole runs -/

/-- **No message is lost, doubled or with two consumers.**  In every state of a
run each enqueued message is at exactly one place and nothing in flight is handed
out; what was acknowledged is never popped again, and what was popped is not
popped again before it is given back or its expiry has passed. -/
theorem run_conserves (start : r.Start) {ops : List QueueOp} (fresh : Guarded step Fresh r ops) :
    (∀ before after, ops = before ++ after →
      (run step r before).Conserved ∧ (run step r before).Exclusive) ∧
    (∀ before id mid after, ops = before ++ .acknowledge id :: (mid ++ after) →
      ((run step r before).queue.acknowledge id).1 = true →
      ¬ (run step r (before ++ .acknowledge id :: mid)).Pops id) ∧
    (∀ before now timeout mid after, ops = before ++ .pop now timeout :: (mid ++ after) →
      let s := run step r before
      ∀ m, (s.queue.pop s.messages now timeout).1 = some m →
        (∀ op ∈ mid, ¬ op.Reveals (s.idOf m) (now + orDefault timeout s.queue.visibilityTimeout)) →
        ¬ (run step r (before ++ .pop now timeout :: mid)).Pops (s.idOf m)) := by
  have preserved : ∀ s op, Sound s → s.Fresh op → (step s op).Sound :=
    fun _ op sound fresh => (sound.step op fresh).1
  refine ⟨?_, ?_, ?_⟩
  · rintro before after rfl
    have sound := run_invariant preserved start.sound ((guarded_append r before after).mp fresh).1
    exact ⟨sound.conserved, sound.exclusive⟩
  · rintro before id mid after rfl acknowledged
    obtain ⟨first, -, later⟩ := (guarded_append r before _).mp fresh
    have sound := run_invariant preserved start.sound first
    have taken : ∀ s op, Sound s ∧ Taken s id → s.Fresh op → (step s op).Sound ∧ (step s op).Taken id :=
      fun _ op both fresh => ⟨(both.1.step op fresh).1, both.1.taken_step fresh both.2⟩
    rw [run_append, run_cons]
    obtain ⟨sound', taken'⟩ := run_invariant taken
      ⟨(sound.step (.acknowledge id) trivial).1, sound.taken_acknowledge acknowledged⟩
      ((guarded_append _ mid after).mp later).1
    have hidden : Hidden _ id 0 := .inr taken'
    exact hidden.not_pops sound'
  · rintro before now timeout mid after rfl s m popped kept
    obtain ⟨first, -, later⟩ := (guarded_append r before _).mp fresh
    have sound : s.Sound := run_invariant preserved start.sound first
    have hidden : ∀ t op, Sound t ∧ t.Hidden (s.idOf m)
          (now + orDefault timeout s.queue.visibilityTimeout) →
        t.Fresh op ∧ ¬ op.Reveals (s.idOf m) (now + orDefault timeout s.queue.visibilityTimeout) →
        (step t op).Sound ∧ (step t op).Hidden (s.idOf m)
          (now + orDefault timeout s.queue.visibilityTimeout) :=
      fun _ op both guard => ⟨(both.1.step op guard.1).1, both.1.hidden_step guard.1 guard.2 both.2⟩
    rw [run_append, run_cons]
    obtain ⟨sound', hidden'⟩ := run_invariant hidden
      ⟨(sound.step (.pop now timeout) trivial).1, hidden_of_pop popped⟩
      (((guarded_append _ mid after).mp later).1.and kept)
    exact hidden'.not_pops sound'

/-- A priority queue; message `n` has priority `n`. -/
def priorityStart : QueueRun where
  messages n := { topic := "t", value := [], id := toString n, priority := n }
  queue := .priority { name := "q" }

theorem priorityStart_start : priorityStart.Start :=
  ⟨rfl, rfl, rfl, fun _ counted => (nomatch counted), rfl, rfl, rfl⟩

/-- Message 1 is taken first, given back, taken again until 7 and put back then;
message 0 is acknowledged. -/
def handedOps : List QueueOp :=
  [.enqueue 0 0, .enqueue 0 1, .pop 1 none, .nack "1", .pop 2 (some 5), .pop 3 none,
    .requeueTimedOut 7, .acknowledge "0", .pop 8 none]

theorem handedOps_conserves :
    (∀ before after, handedOps = before ++ after →
      (run step priorityStart before).Conserved ∧ (run step priorityStart before).Exclusive) ∧
    (∀ before id mid after, handedOps = before ++ .acknowledge id :: (mid ++ after) →
      ((run step priorityStart before).queue.acknowledge id).1 = true →
      ¬ (run step priorityStart (before ++ .acknowledge id :: mid)).Pops id) ∧
    (∀ before now timeout mid after, handedOps = before ++ .pop now timeout :: (mid ++ after) →
      let s := run step priorityStart before
      ∀ m, (s.queue.pop s.messages now timeout).1 = some m →
        (∀ op ∈ mid, ¬ op.Reveals (s.idOf m) (now + orDefault timeout s.queue.visibilityTimeout)) →
        ¬ (run step priorityStart (before ++ .pop now timeout :: mid)).Pops (s.idOf m)) :=
  run_conserves priorityStart_start (by decide +kernel)

example : (run step priorityStart handedOps).queue.inFlight.entries = [("1", 1, 38)] := by
  decide +kernel

end QueueRun

end BrokerLite
