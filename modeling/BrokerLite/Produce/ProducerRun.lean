/-
# Produce.ProducerRun -- runs of a producer

A run makes any calls of `send`, `flush` and `close`, and keeps the messages that
`send` accepted, those that were handed over, and what each of these added to the
totals.  `Moves` is what one call does, and `Steady` what holds after any calls, however
`publish_fn` and the callbacks behave: what is in hand is in the order it was accepted in.

Nothing is lost or counted twice (`NoneLost`) exactly as long as they behave for what
each call hands over (`run_noneLost_iff`).
-/
import BrokerLite.Produce.Recorded
import BrokerLite.Theory.Run

namespace BrokerLite

open Theory

set_option autoImplicit false

/-! ## Calls -/

inductive ProducerOp where
  | send (args : SendArgs)
  | flush
  | close

namespace Producer

variable {σ ε : Type}

/-- What a call leaves, however it ends. -/
def call (env : Environment σ ε) (p : Producer) (s : σ) : ProducerOp → Producer × σ
  | .send args => (p.send env s args).2
  | .flush => (p.flush env s).2
  | .close => (p.close env s).2

/-- The messages that a call sends, and the producer and the world before the first of them. -/
def sending (env : Environment σ ε) (p : Producer) (s : σ) : ProducerOp → Producer × σ × List Message
  | .send args =>
      match p.accept env s args with
      | .error _ => (p, s, [])
      | .ok (message, p, s) =>
          if p.config.batchSize ≤ 1 then (p, s, [message])
          else
            match p.buffer env s message with
            | (true, p, s) => p.taken env s
            | (false, p, s) => (p, s, [])
  | .flush | .close => if p.batch = [] then (p, s, []) else p.taken env s

theorem sending_recorded (env : Environment σ ε) (p : Producer) (s : σ) (before : List Handed)
    (op : ProducerOp) : p.sending env.recorded (s, before) op =
      ((p.sending env s op).1, ((p.sending env s op).2.1, before), (p.sending env s op).2.2) := by
  have taken : ∀ (p : Producer) (s : σ), p.taken env.recorded (s, before) =
      ((p.taken env s).1, ((p.taken env s).2.1, before), (p.taken env s).2.2) := fun _ _ => rfl
  have flushing : (if p.batch = [] then (p, (s, before), []) else p.taken env.recorded (s, before)) =
      ((if p.batch = [] then (p, s, []) else p.taken env s).1,
        ((if p.batch = [] then (p, s, []) else p.taken env s).2.1, before),
        (if p.batch = [] then (p, s, []) else p.taken env s).2.2) := by
    split
    · rfl
    · exact taken p s
  cases op with
  | flush => exact flushing
  | close => exact flushing
  | send args =>
      unfold sending
      dsimp only
      rw [accept_recorded]
      rcases p.accept env s args with e | ⟨message, q, t⟩
      · rfl
      · dsimp only [Except.map]
        split
        · rfl
        · rw [buffer_recorded]
          rcases q.buffer env t message with ⟨_ | _, q', u⟩
          · rfl
          · exact taken q' u

/-- A flush sends what is buffered. -/
theorem flush_sending (env : Environment σ ε) (p : Producer) (s : σ) :
    let (q, t, batch) := p.sending env s .flush
    p.flush env s = if p.batch = [] then (.ok [], p, s) else
      ((q.sendAll env t none batch).1.map Option.toList, (q.sendAll env t none batch).2) := by
  rw [flush_eq]
  by_cases empty : p.batch = []
  · simp [empty]
  · simp only [empty, sending, if_false]
    rfl

/-- **A call is the loop over what it sends**, but for `closed`, which nothing resets. -/
theorem call_eq (env : Environment σ ε) (p : Producer) (s : σ) (op : ProducerOp) :
    let (q, t, batch) := p.sending env s op
    let sent := (q.sendAll env t none batch).2
    ∃ closed, (sent.1.closed = true → closed = true) ∧
      p.call env s op = ({ sent.1 with closed }, sent.2) := by
  have flushed : (p.flush env s).2 = ((p.sending env s .flush).1.sendAll env (p.sending env s .flush).2.1 none
      (p.sending env s .flush).2.2).2 := by
    have same := flush_sending env p s
    dsimp only at same
    rw [same]
    by_cases empty : p.batch = []
    · simp [sending, empty, sendAll]
    · rw [if_neg empty]
  cases op with
  | flush => exact ⟨_, id, flushed⟩
  | close =>
      dsimp only [call]
      rw [show p.sending env s .close = p.sending env s .flush from rfl, ← flushed]
      unfold close
      rcases p.flush env s with ⟨_ | _, q, t⟩
      · exact ⟨_, id, rfl⟩
      · exact ⟨true, fun _ => rfl, rfl⟩
  | send args =>
      refine ⟨_, id, ?_⟩
      dsimp only [call, sending]
      unfold send
      rcases p.accept env s args with e | ⟨message, q, t⟩
      · rfl
      · dsimp only
        split
        · rw [sendAll, raising]
          rcases q.doSend env t message with ⟨_ | _, q', u⟩ <;> rfl
        · rcases q.buffer env t message with ⟨_ | _, q', u⟩ <;> rfl

end Producer

/-! ## Runs -/

structure ProducerRun (σ : Type) where
  producer : Producer
  world : σ
  handed : List Handed := []
  /-- What each message handed over added to the totals. -/
  counts : List (ℕ × ℕ) := []
  /-- The messages of the calls of `send` that got past the checks. -/
  accepted : List Message := []

namespace ProducerRun

variable {σ ε : Type}

/-- The messages that the call accepts. -/
def accepts (env : Environment σ ε) (r : ProducerRun σ) : ProducerOp → List Message
  | .send args =>
      match r.producer.accept env r.world args with
      | .error _ => []
      | .ok (message, _) => [message]
  | .flush | .close => []

theorem mem_accepts_send {env : Environment σ ε} {r : ProducerRun σ} {args : SendArgs} {message : Message} :
    message ∈ r.accepts env (.send args) ↔
      ∃ p s, r.producer.accept env r.world args = .ok (message, p, s) := by
  unfold accepts
  dsimp only
  rcases r.producer.accept env r.world args with e | ⟨made, p, s⟩
  · simp
  · simp [eq_comm]

def step (env : Environment σ ε) (r : ProducerRun σ) (op : ProducerOp) : ProducerRun σ :=
  let (q, w, batch) := r.producer.sending env.recorded (r.world, r.handed) op
  let (p, world, handed) := r.producer.call env.recorded (r.world, r.handed) op
  { producer := p, world, handed, counts := r.counts ++ q.counts env.recorded w batch,
    accepted := r.accepted ++ r.accepts env op }

/-- `publish_fn` and the callbacks behave for what the call sends. -/
def Obliging (env : Environment σ ε) (r : ProducerRun σ) (op : ProducerOp) : Prop :=
  let (_, s, batch) := r.producer.sending env r.world op
  env.Behaves batch s

/-- Every accepted message is buffered or was handed over, each of the latter is counted
once, and `on_error` was called for those only that `publish_fn` refused. -/
structure NoneLost (r : ProducerRun σ) : Prop where
  held : r.accepted.Subperm (r.handed.map Handed.message ++ r.producer.batch)
  counted : r.counts = r.handed.map Handed.once
  sent : r.producer.totalSent = r.handed.countP Handed.returned
  errors : r.producer.totalErrors = r.handed.countP fun h => !h.returned
  onError : ∀ h ∈ r.handed, h.erred = true → h.returned = false

/-! ## What a call does -/

variable {env : Environment σ ε} {r r' : ProducerRun σ} {op : ProducerOp}

/-- The producer has accepted the messages `new`, and is about to send `due`. -/
structure Takes (r : ProducerRun σ) (new : List Message) (p : Producer) (due : List Message) : Prop where
  config : p.config = r.producer.config
  totalSent : p.totalSent = r.producer.totalSent
  totalErrors : p.totalErrors = r.producer.totalErrors
  closed : p.closed = r.producer.closed
  shift : r.producer.batch ++ new = due ++ p.batch
  numbered : r.producer.config.enableIdempotence = true →
    new.map Message.sequenceNumber =
      (List.range new.length).map (fun i : ℕ => r.producer.sequenceNumber + i) ∧
    p.sequenceNumber = r.producer.sequenceNumber + new.length

/-- The buffer stays short. -/
def Bounded (r : ProducerRun σ) (batch : List Message) : Prop :=
  batch = [] ∨ batch = r.producer.batch ∨ batch.length < r.producer.config.batchSize

/-- Nothing is accepted or sent. -/
theorem Takes.nothing (r : ProducerRun σ) : r.Takes [] r.producer [] :=
  ⟨rfl, rfl, rfl, rfl, List.append_nil _, by simp⟩

/-- The buffer is taken out to be sent. -/
theorem Takes.emptied {new : List Message} {p : Producer} (takes : r.Takes new p [])
    (env : Environment σ ε) (s : σ) : r.Takes new (p.taken env s).1 (p.taken env s).2.2 :=
  ⟨takes.config, takes.totalSent, takes.totalErrors, takes.closed,
    takes.shift.trans (List.append_nil p.batch).symm, takes.numbered⟩

/-- **What a call takes**, when a producer that does not batch has nothing buffered. -/
theorem sending_takes (env : Environment σ ε) (r : ProducerRun σ)
    (unbuffered : r.producer.config.batchSize ≤ 1 → r.producer.batch = []) (op : ProducerOp) :
    r.Takes (r.accepts env op) (r.producer.sending env r.world op).1
        (r.producer.sending env r.world op).2.2 ∧
      r.Bounded (r.producer.sending env r.world op).1.batch := by
  have flushing : r.Takes []
      (if r.producer.batch = [] then (r.producer, r.world, []) else r.producer.taken env r.world).1
      (if r.producer.batch = [] then (r.producer, r.world, []) else r.producer.taken env r.world).2.2 ∧
      r.Bounded
        (if r.producer.batch = [] then (r.producer, r.world, []) else r.producer.taken env r.world).1.batch := by
    split
    · exact ⟨.nothing r, .inr (.inl rfl)⟩
    · exact ⟨(Takes.nothing r).emptied env r.world, .inl rfl⟩
  cases op with
  | flush => exact flushing
  | close => exact flushing
  | send args =>
      unfold accepts Producer.sending
      dsimp only
      rcases accepted : r.producer.accept env r.world args with e | ⟨message, p, s⟩
      · exact ⟨.nothing r, .inr (.inl rfl)⟩
      · obtain ⟨-, built, numbers⟩ := Producer.accept_spec accepted
        have config : p.config = r.producer.config := by rw [built]
        have batch : p.batch = r.producer.batch := by rw [built]
        have numbered : r.producer.config.enableIdempotence = true →
            [message].map Message.sequenceNumber =
              (List.range 1).map (fun i : ℕ => r.producer.sequenceNumber + i) ∧
            p.sequenceNumber = r.producer.sequenceNumber + 1 := by
          intro numbering
          obtain ⟨own, next⟩ := numbers numbering
          exact ⟨by simp [own], next⟩
        dsimp only
        split
        · next single =>
            have empty := unbuffered (config ▸ single)
            refine ⟨⟨config, by rw [built], by rw [built], by rw [built], ?_, numbered⟩, .inr (.inl batch)⟩
            rw [batch, empty]
            rfl
        · obtain ⟨grown, short⟩ := Producer.buffer_spec env p s message
          generalize p.buffer env s message = buffered at grown short ⊢
          obtain ⟨due, q, t⟩ := buffered
          obtain rfl : q = { p with batch := p.batch ++ [message] } := grown
          have takes : r.Takes [message] { p with batch := p.batch ++ [message] } [] :=
            ⟨config, by rw [built], by rw [built], by rw [built], by simp [batch], numbered⟩
          cases due with
          | true => exact ⟨takes.emptied env t, .inl rfl⟩
          | false =>
              refine ⟨takes, .inr (.inr ?_)⟩
              rw [← config]
              simpa using short rfl

/-- The call accepts the messages `new`, hands over `hs`, the first of `due`, which add `cs`
to the totals, and leaves the others in the buffer.  Everything went well exactly when
`good` holds. -/
structure Moves (r r' : ProducerRun σ) (good : Prop) (hs : List Handed) (cs : List (ℕ × ℕ))
    (due new : List Message) : Prop where
  config : r'.producer.config = r.producer.config
  handed : r'.handed = r.handed ++ hs
  inOrder : hs.map Handed.message <+: due
  accepted : r'.accepted = r.accepted ++ new
  shift : r.producer.batch ++ new = due ++ r'.producer.batch
  counts : r'.counts = r.counts ++ cs
  sent : r'.producer.totalSent = r.producer.totalSent + (cs.map Prod.fst).sum
  errors : r'.producer.totalErrors = r.producer.totalErrors + (cs.map Prod.snd).sum
  exact_ : good ↔ hs.map Handed.message = due ∧ cs = hs.map Handed.once ∧
    ∀ h ∈ hs, h.erred = true → h.returned = false
  bounded : r.Bounded r'.producer.batch
  numbered : r.producer.config.enableIdempotence = true →
    new.map Message.sequenceNumber =
      (List.range new.length).map (fun i : ℕ => r.producer.sequenceNumber + i) ∧
    r'.producer.sequenceNumber = r.producer.sequenceNumber + new.length
  closed : r.producer.closed = true → r'.producer.closed = true

/-- **What a call does**, when a producer that does not batch has nothing buffered. -/
theorem step_moves (given : env.publishFn ≠ none) (r : ProducerRun σ)
    (unbuffered : r.producer.config.batchSize ≤ 1 → r.producer.batch = []) (op : ProducerOp) :
    ∃ hs cs, r.Moves (r.step env op) (r.Obliging env op) hs cs (r.producer.sending env r.world op).2.2
      (r.accepts env op) := by
  obtain ⟨takes, bounded⟩ := sending_takes env r unbuffered op
  have called := r.producer.call_eq env.recorded (r.world, r.handed) op
  unfold step Obliging
  rw [Producer.sending_recorded] at called ⊢
  generalize r.producer.sending env r.world op = start at takes bounded called ⊢
  obtain ⟨q, t, batch⟩ := start
  dsimp only at takes bounded called ⊢
  obtain ⟨hs, sent⟩ := Producer.sendAll_sent given q t r.handed none batch
  obtain ⟨closed, stays, called⟩ := called
  generalize q.sendAll env.recorded (t, r.handed) none batch = done at sent stays called
  obtain ⟨result, p, w, after⟩ := done
  dsimp only at sent stays called
  rw [called]
  have frame := sent.frame
  subst frame
  exact ⟨hs, _, takes.config, sent.handed, sent.inOrder, rfl, takes.shift, rfl,
    congrArg (· + _) takes.totalSent, congrArg (· + _) takes.totalErrors, sent.exact_, bounded,
    takes.numbered, fun before => stays (takes.closed.trans before)⟩

/-! ## What holds in every run -/

/-- What is in hand is in the order it was accepted in, and the totals are what the messages
added, however `publish_fn` and the callbacks behave. -/
structure Steady (config : ProducerConfig) (r : ProducerRun σ) : Prop where
  configured : r.producer.config = config
  order : (r.handed.map Handed.message ++ r.producer.batch).Sublist r.accepted
  sent : r.producer.totalSent = (r.counts.map Prod.fst).sum
  errors : r.producer.totalErrors = (r.counts.map Prod.snd).sum
  long : 1 < config.batchSize → r.producer.batch.length < config.batchSize
  short : config.batchSize ≤ 1 → r.producer.batch = []
  numbered : config.enableIdempotence = true →
    r.accepted.map Message.sequenceNumber = (List.range r.accepted.length).map (fun i : ℕ => (i : ℤ)) ∧
    r.producer.sequenceNumber = r.accepted.length

/-- A new producer. -/
def start (hex : String) (now : Timestamp) (producerId : Option String) (config : Option ProducerConfig)
    (world : σ) : ProducerRun σ where
  producer := .new hex now producerId config
  world := world

theorem start_steady (hex : String) (now : Timestamp) (producerId : Option String)
    (config : Option ProducerConfig) (world : σ) :
    (start hex now producerId config world).Steady (config.getD {}) where
  configured := rfl
  order := .slnil
  sent := rfl
  errors := rfl
  long large := by
    show ((0 : ℕ) : ℤ) < _
    omega
  short _ := rfl
  numbered _ := ⟨rfl, rfl⟩

variable {config : ProducerConfig}

theorem Steady.moves (steady : r.Steady config) (given : env.publishFn ≠ none) (op : ProducerOp) :
    ∃ hs cs, r.Moves (r.step env op) (r.Obliging env op) hs cs (r.producer.sending env r.world op).2.2
      (r.accepts env op) :=
  step_moves given r (fun single => steady.short (steady.configured ▸ single)) op

theorem Steady.step (steady : r.Steady config) (given : env.publishFn ≠ none) (op : ProducerOp) :
    (r.step env op).Steady config := by
  obtain ⟨hs, cs, moves⟩ := steady.moves given op
  refine ⟨moves.config.trans steady.configured, ?_, ?_, ?_, fun large => ?_, fun small => ?_, fun numbering => ?_⟩
  · have grown : (r.handed.map Handed.message ++ ((r.producer.sending env r.world op).2.2 ++
        (r.step env op).producer.batch)).Sublist (r.accepted ++ r.accepts env op) := by
      rw [← moves.shift, ← List.append_assoc]
      exact steady.order.append (.refl _)
    rw [moves.handed, moves.accepted, List.map_append, List.append_assoc]
    exact ((List.Sublist.refl _).append (moves.inOrder.sublist.append (.refl _))).trans grown
  · rw [moves.sent, moves.counts, List.map_append, List.sum_append, steady.sent]
  · rw [moves.errors, moves.counts, List.map_append, List.sum_append, steady.errors]
  · rcases moves.bounded with empty | same | short
    · rw [empty, List.length_nil]
      omega
    · rw [same]
      exact steady.long large
    · rwa [steady.configured] at short
  · rcases moves.bounded with empty | same | short
    · exact empty
    · rw [same]
      exact steady.short small
    · rw [steady.configured] at short
      exact List.length_eq_zero_iff.mp (by omega)
  · obtain ⟨before, next⟩ := steady.numbered numbering
    obtain ⟨numbers, advanced⟩ := moves.numbered (steady.configured ▸ numbering)
    rw [moves.accepted, List.map_append, before, numbers, next, List.length_append, List.range_add,
      List.map_append, List.map_map]
    refine ⟨?_, by rw [advanced, next]; push_cast; rfl⟩
    congr 1

/-- Counted once each, the messages make up the totals. -/
theorem sum_once (hs : List Handed) :
    ((hs.map Handed.once).map Prod.fst).sum = hs.countP Handed.returned ∧
      ((hs.map Handed.once).map Prod.snd).sum = hs.countP fun h => !h.returned := by
  induction hs with
  | nil => exact ⟨rfl, rfl⟩
  | cons h rest ih =>
      obtain ⟨sent, errors⟩ := ih
      simp only [List.map_cons, List.sum_cons, List.countP_cons, sent, errors, Handed.once]
      cases h.returned <;> simp [Nat.add_comm]

/-- Nothing is lost when all that was accepted is in hand. -/
theorem Steady.noneLost_iff (steady : r.Steady config) : r.NoneLost ↔
    r.accepted = r.handed.map Handed.message ++ r.producer.batch ∧ r.counts = r.handed.map Handed.once ∧
    ∀ h ∈ r.handed, h.erred = true → h.returned = false := by
  constructor
  · intro noneLost
    exact ⟨(steady.order.eq_of_length_le noneLost.held.length_le).symm, noneLost.counted, noneLost.onError⟩
  · rintro ⟨all, counted, onError⟩
    obtain ⟨sent, errors⟩ := sum_once r.handed
    exact ⟨all ▸ List.Subperm.refl _, counted, steady.sent.trans (counted ▸ sent),
      steady.errors.trans (counted ▸ errors), onError⟩

theorem start_noneLost (hex : String) (now : Timestamp) (producerId : Option String)
    (config : Option ProducerConfig) (world : σ) : (start hex now producerId config world).NoneLost :=
  (start_steady hex now producerId config world).noneLost_iff.mpr ⟨rfl, rfl, by simp [start]⟩

/-- **A call loses nothing exactly when `publish_fn` and the callbacks behave.** -/
theorem Steady.step_noneLost_iff (steady : r.Steady config) (given : env.publishFn ≠ none)
    (noneLost : r.NoneLost) (op : ProducerOp) : (r.step env op).NoneLost ↔ r.Obliging env op := by
  obtain ⟨all, counted, onError⟩ := steady.noneLost_iff.mp noneLost
  obtain ⟨hs, cs, moves⟩ := steady.moves given op
  rw [(steady.step given op).noneLost_iff, moves.exact_, moves.accepted, moves.handed, moves.counts, all,
    counted, List.append_assoc, moves.shift, List.map_append, List.map_append, List.append_assoc,
    List.append_cancel_left_eq, List.append_cancel_right_eq, List.append_cancel_left_eq]
  constructor
  · rintro ⟨whole, once, flags⟩
    exact ⟨whole.symm, once, fun h member => flags h (List.mem_append_right _ member)⟩
  · rintro ⟨whole, once, flags⟩
    refine ⟨whole.symm, once, fun h member => ?_⟩
    rcases List.mem_append.mp member with before | here
    · exact onError h before
    · exact flags h here

/-- **No message is lost or counted twice exactly when `publish_fn` and the callbacks behave.** -/
theorem run_noneLost_iff (given : env.publishFn ≠ none) (hex : String) (now : Timestamp)
    (producerId : Option String) (config : Option ProducerConfig) (world : σ) (ops : List ProducerOp) :
    (∀ before, before <+: ops →
        (run (step env) (start hex now producerId config world) before).NoneLost) ↔
      Guarded (step env) (Obliging env) (start hex now producerId config world) ops := by
  have preserved : ∀ (r : ProducerRun σ) op, r.Steady (config.getD {}) →
      (r.step env op).Steady (config.getD {}) := fun _ op steady => steady.step given op
  exact forall_prefix_iff_guarded preserved
    (fun _ op steady noneLost => steady.step_noneLost_iff given noneLost op)
    (start_steady hex now producerId config world) (start_noneLost hex now producerId config world)

theorem obliging_of_quiet (quiet : env.Quiet) (r : ProducerRun σ) (op : ProducerOp) :
    r.Obliging env op :=
  quiet.behaves _ _

/-- What the user functions below raise. -/
inductive Outcry where
  | refused
  | callback
  | keyboardInterrupt

def Outcry.isException : Outcry → Bool
  | .refused | .callback => true
  | .keyboardInterrupt => false

/-- Every message is refused and the error callback raises; the clock stands still. -/
def refusing : Environment ℕ Outcry where
  time s := (0, s)
  uuid4 s := (toString s, s + 1)
  isException := Outcry.isException
  publishFn := some fun message s => (.error .refused, message, s)
  onError := some fun _ _ s => (.error .callback, s)

/-- Every message is taken and the success callback raises. -/
def taking : Environment ℕ Outcry where
  time s := (0, s)
  uuid4 s := (toString s, s + 1)
  isException := Outcry.isException
  publishFn := some fun message s => (.ok ⟨message.topic, 0, s, 0, message.id⟩, message, s)
  onSuccess := some fun _ s => (.error .callback, s)

/-- The user interrupts every publish; there are no callbacks. -/
def interrupted : Environment ℕ Outcry where
  time s := (0, s)
  uuid4 s := (toString s, s + 1)
  isException := Outcry.isException
  publishFn := some fun message s => (.error .keyboardInterrupt, message, s)

/-- Empty messages are refused, the others taken; both callbacks return. -/
def listening : Environment ℕ Outcry where
  time s := (0, s)
  uuid4 s := (toString s, s + 1)
  isException := Outcry.isException
  publishFn := some fun message s =>
    if message.value = [] then (.error .refused, message, s)
    else (.ok ⟨message.topic, 0, s, 0, message.id⟩, message, s)
  onSuccess := some fun _ s => (.ok (), s + 1)
  onError := some fun _ _ s => (.ok (), s + 1)

def twoSends : List ProducerOp :=
  [.send { topic := "t", value := .bytes [0] }, .send { topic := "t", value := .bytes [1] }]

/-- A message that is refused comes between two that are taken. -/
def threeSends : List ProducerOp :=
  [.send { topic := "t", value := .bytes [0] }, .send { topic := "t", value := .bytes [] },
    .send { topic := "t", value := .bytes [1] }, .close]

theorem listening_quiet : listening.Quiet where
  publish publish given message s e raised := by
    cases given
    dsimp only at raised
    split at raised <;> cases raised
    rfl
  success _ _ := rfl
  error _ _ _ := rfl

theorem threeSends_noneLost :
    let r := run (step listening) (start "0" 0 none (some { batchSize := 2 }) 0) threeSends
    r.NoneLost ∧ r.producer.totalSent = 2 ∧ r.producer.totalErrors = 1 :=
  have behaves : Guarded (step listening) (Obliging listening)
      (start "0" 0 none (some { batchSize := 2 }) 0) threeSends :=
    guarded_iff_split.mpr fun _ op _ _ => obliging_of_quiet listening_quiet _ op
  ⟨(run_noneLost_iff (Option.some_ne_none _) "0" 0 none (some { batchSize := 2 }) 0 threeSends).mpr behaves
    threeSends (List.prefix_refl _), by decide +kernel⟩

/-- The second of two buffered messages is gone when `on_error` raises for the first, a
message is counted twice when `on_success` raises for it, and not at all when `publish_fn`
raises what is no `Exception`. -/
theorem callbacks_lose_and_count_twice :
    let lost := run (step refusing) (start "0" 0 none (some { batchSize := 2 }) 0) twoSends
    let twice := run (step taking) (start "0" 0 none (some { batchSize := 1 }) 0) (twoSends.take 1)
    let uncounted := run (step interrupted) (start "0" 0 none (some { batchSize := 2 }) 0) twoSends
    (¬ lost.NoneLost ∧ lost.accepted.length = 2 ∧ lost.handed.length = 1 ∧ lost.producer.batch = []) ∧
    (¬ twice.NoneLost ∧ twice.handed.length = 1 ∧ twice.producer.totalSent = 1 ∧
      twice.producer.totalErrors = 1) ∧
    (¬ uncounted.NoneLost ∧ uncounted.accepted.length = 2 ∧ uncounted.handed.length = 1 ∧
      uncounted.producer.batch = [] ∧ uncounted.producer.totalSent = 0 ∧
      uncounted.producer.totalErrors = 0) := by
  refine ⟨⟨fun noneLost => ?_, by decide +kernel⟩, ⟨fun noneLost => ?_, by decide +kernel⟩,
    fun noneLost => ?_, by decide +kernel⟩
  · have held := noneLost.held.length_le
    rw [List.length_append, List.length_map] at held
    exact absurd held (by decide +kernel)
  · exact absurd noneLost.errors (by decide +kernel)
  · exact absurd noneLost.errors (by decide +kernel)

end ProducerRun

end BrokerLite
