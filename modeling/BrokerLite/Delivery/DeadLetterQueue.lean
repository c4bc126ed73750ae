/-
# Delivery.DeadLetterQueue -- a bounded window of failed messages

A `DeadLetterQueue` keeps the messages that failed for good, with what is known
of the failure, in a `deque` that drops its oldest entry when it is full.  Adding
a message tags its headers; `replay` takes the oldest entries out and removes the
tags.

`DlqRun` numbers the entries as they arrive.  `run_windowed` describes every run
by one `Window` of arrivals: what is stored, what is returned and in which order,
and what the counters add up to.
-/
import BrokerLite.Store.Message
import BrokerLite.Theory.Run
import BrokerLite.Theory.Window

namespace BrokerLite

open Theory

set_option autoImplicit false

structure DLQEntry where
  message : MessageRef
  reason : String
  originalTopic : String
  attempts : ℤ
  deadLetteredAt : Timestamp
  errorDetails : Option String := none
  deriving DecidableEq

structure DeadLetterQueue where
  name : String
  maxSize : ℤ := 10000
  /-- The deque, the oldest entry first. -/
  entries : List DLQEntry := []
  totalReceived : ℕ := 0
  totalReplayed : ℕ := 0
  deriving DecidableEq

/-- `m.headers` has changed. -/
def MessageTable.withHeaders (messages : MessageTable) (m : MessageRef) (headers : Dict String String) :
    MessageTable :=
  Function.update messages m { messages m with headers }

namespace DeadLetterQueue

/-- The three headers that `add` sets. -/
def tagged (headers : Dict String String) (reason topic : String) (attempts : ℤ) : Dict String String :=
  ((headers.set "x-dlq-reason" reason).set "x-dlq-original-topic" topic).set "x-dlq-attempts"
    (toString attempts)

/-- The headers without the three. -/
def untagged (headers : Dict String String) : Dict String String :=
  ((headers.erase "x-dlq-reason").erase "x-dlq-original-topic").erase "x-dlq-attempts"

/-- `append` of the deque: when it is full its oldest entry goes. -/
def append (q : DeadLetterQueue) (entry : DLQEntry) : List DLQEntry :=
  let grown := q.entries ++ [entry]
  if 0 < q.maxSize ∧ q.maxSize < grown.length then grown.tail else grown

def add (now : Timestamp) (messages : MessageTable) (q : DeadLetterQueue) (m : MessageRef)
    (reason : String) (attempts : ℤ) (errorDetails : Option String) :
    DLQEntry × MessageTable × DeadLetterQueue :=
  let entry : DLQEntry :=
    { message := m, reason, originalTopic := (messages m).topic, attempts, deadLetteredAt := now,
      errorDetails }
  (entry,
    messages.withHeaders m (tagged (messages m).headers reason (messages m).topic attempts),
    { q with entries := q.append entry, totalReceived := q.totalReceived + 1 })

def pop (q : DeadLetterQueue) : Option DLQEntry × DeadLetterQueue :=
  match q.entries with
  | [] => (none, q)
  | entry :: entries => (some entry, { q with entries })

/-- The loop of `replay`, for `n` more entries; `replayed` is what it has collected.
It is never asked for more than there are. -/
def replayLoop : ℕ → List MessageRef → MessageTable → DeadLetterQueue →
    List MessageRef × MessageTable × DeadLetterQueue
  | 0, replayed, messages, q => (replayed, messages, q)
  | n + 1, replayed, messages, q =>
      match q.entries with
      | [] => (replayed, messages, q)
      | entry :: entries =>
          replayLoop n (replayed ++ [entry.message])
            (messages.withHeaders entry.message (untagged (messages entry.message).headers))
            { q with entries, totalReplayed := q.totalReplayed + 1 }

/-- How many entries `replay(count)` is asked for. -/
def wanted (q : DeadLetterQueue) (count : ℤ) : ℕ := if 0 < count then count.toNat else q.entries.length

def replay (messages : MessageTable) (q : DeadLetterQueue) (count : ℤ) :
    List MessageRef × MessageTable × DeadLetterQueue :=
  replayLoop (min (q.wanted count) q.entries.length) [] messages q

def purge (q : DeadLetterQueue) : ℕ × DeadLetterQueue := (q.entries.length, { q with entries := [] })

def size (q : DeadLetterQueue) : ℕ := q.entries.length

/-- The next entry that is added pushes the oldest out. -/
def isFull (q : DeadLetterQueue) : Prop := 0 < q.maxSize ∧ q.maxSize ≤ q.size

instance : DecidablePred isFull := fun q =>
  inferInstanceAs (Decidable (0 < q.maxSize ∧ q.maxSize ≤ q.size))

/-! ## Headers -/

theorem filter_set {d : Dict String String} {k v : String} {keep : String → Bool} (dropped : keep k = false) :
    (d.set k v).entries.filter (fun e => keep e.1) = d.entries.filter fun e => keep e.1 := by
  have go : ∀ entries : List (String × String),
      (Dict.setEntries k v entries).filter (fun e => keep e.1) = entries.filter fun e => keep e.1 := by
    intro entries
    induction entries with
    | nil => simp [Dict.setEntries, dropped]
    | cons head rest ih =>
        by_cases hit : head.1 = k
        · simp [Dict.setEntries, hit, dropped]
        · simp [Dict.setEntries, hit, List.filter_cons, ih]
  exact go d.entries

/-- A header that is not one of the three. -/
def isOther (key : String) : Bool :=
  key ≠ "x-dlq-reason" ∧ key ≠ "x-dlq-original-topic" ∧ key ≠ "x-dlq-attempts"

theorem entries_untagged (headers : Dict String String) :
    (untagged headers).entries = headers.entries.filter fun e => isOther e.1 := by
  simp only [untagged, Dict.erase, List.filter_filter]
  refine List.filter_congr fun e _ => ?_
  by_cases h₁ : e.1 = "x-dlq-reason" <;> by_cases h₂ : e.1 = "x-dlq-original-topic" <;>
    by_cases h₃ : e.1 = "x-dlq-attempts" <;> simp [isOther, h₁, h₂, h₃]

@[simp] theorem untagged_tagged (headers : Dict String String) (reason topic : String) (attempts : ℤ) :
    untagged (tagged headers reason topic attempts) = untagged headers := by
  apply Dict.ext
  rw [entries_untagged, entries_untagged, tagged, filter_set (by decide), filter_set (by decide),
    filter_set (by decide)]

@[simp] theorem untagged_untagged (headers : Dict String String) :
    untagged (untagged headers) = untagged headers := by
  apply Dict.ext
  rw [entries_untagged, entries_untagged, List.filter_filter]
  simp

theorem withHeaders_headers (messages : MessageTable) (m n : MessageRef) (headers : Dict String String) :
    (messages.withHeaders m headers n).headers = if n = m then headers else (messages n).headers := by
  by_cases same : n = m
  · subst same
    simp [MessageTable.withHeaders]
  · simp [MessageTable.withHeaders, same]

/-! ## What the operations do -/

/-- The deque after an entry came: all of it, or without its oldest. -/
theorem append_eq (q : DeadLetterQueue) (entry : DLQEntry) :
    q.append entry = (q.entries ++ [entry]).drop (if q.isFull then 1 else 0) := by
  have same : (0 < q.maxSize ∧ q.maxSize < (q.entries ++ [entry]).length) ↔ q.isFull := by
    simp only [isFull, size, List.length_append, List.length_singleton]
    omega
  rw [append]
  by_cases full : q.isFull
  · rw [if_pos (same.mpr full), if_pos full, List.drop_one]
  · rw [if_neg fun long => full (same.mp long), if_neg full, List.drop_zero]

theorem pop_eq (q : DeadLetterQueue) :
    q.pop = (q.entries.head?, { q with entries := q.entries.drop 1 }) := by
  cases stored : q.entries with
  | nil =>
      rw [pop, stored]
      exact congrArg (Prod.mk none) (by rw [List.drop_nil, ← stored])
  | cons entry entries => simp [pop, stored]

theorem replayLoop_eq (n : ℕ) (replayed : List MessageRef) (messages : MessageTable) (q : DeadLetterQueue)
    (enough : n ≤ q.entries.length) :
    (replayLoop n replayed messages q).1 = replayed ++ (q.entries.take n).map DLQEntry.message ∧
      (replayLoop n replayed messages q).2.2 =
        { q with entries := q.entries.drop n, totalReplayed := q.totalReplayed + n } := by
  induction n generalizing replayed messages q with
  | zero => simp [replayLoop]
  | succ n ih =>
      rw [replayLoop]
      split
      · next empty =>
          rw [empty] at enough
          simp at enough
      · next entry entries stored =>
          rw [stored] at enough
          have later := ih (replayed ++ [entry.message])
            (messages.withHeaders entry.message (untagged (messages entry.message).headers))
            { q with entries, totalReplayed := q.totalReplayed + 1 } (by simpa using enough)
          rw [later.1, later.2, stored]
          refine ⟨by simp, ?_⟩
          simp [Nat.add_assoc, Nat.add_comm 1 n]

/-- What the loop does to headers: those of the messages it replays are untagged,
no others change. -/
theorem replayLoop_headers (n : ℕ) (replayed : List MessageRef) (messages : MessageTable)
    (q : DeadLetterQueue) (m : MessageRef) :
    ((replayLoop n replayed messages q).2.1 m).headers =
      if m ∈ (q.entries.take n).map DLQEntry.message then untagged (messages m).headers
      else (messages m).headers := by
  induction n generalizing replayed messages q with
  | zero => simp [replayLoop]
  | succ n ih =>
      rw [replayLoop]
      split
      · next empty => simp [empty]
      · next entry entries stored =>
          rw [ih, stored, withHeaders_headers, List.take_succ_cons, List.map_cons]
          by_cases here : m = entry.message
          · simp [← here]
          · simp [here]

/-- **`replay` returns the oldest entries' messages**, in the order of arrival. -/
theorem replay_eq (messages : MessageTable) (q : DeadLetterQueue) (count : ℤ) :
    (q.replay messages count).1 = (q.entries.take (q.wanted count)).map DLQEntry.message ∧
      (q.replay messages count).2.2 =
        { q with
          entries := q.entries.drop (q.wanted count)
          totalReplayed := q.totalReplayed + min (q.wanted count) q.entries.length } := by
  obtain ⟨returned, after⟩ := replayLoop_eq _ [] messages q (min_le_right (q.wanted count) _)
  rw [replay, returned, after, List.nil_append]
  rcases le_total (q.wanted count) q.entries.length with fewer | all
  · rw [min_eq_left fewer]
    exact ⟨rfl, rfl⟩
  · rw [min_eq_right all, List.take_length, List.take_of_length_le all, List.drop_length,
      List.drop_eq_nil_of_le all]
    exact ⟨rfl, rfl⟩

theorem replay_headers (messages : MessageTable) (q : DeadLetterQueue) (count : ℤ) (m : MessageRef) :
    ((q.replay messages count).2.1 m).headers =
      if m ∈ (q.replay messages count).1 then untagged (messages m).headers
      else (messages m).headers := by
  obtain ⟨returned, -⟩ := replayLoop_eq _ [] messages q (min_le_right (q.wanted count) _)
  rw [replay, replayLoop_headers, returned, List.nil_append]

end DeadLetterQueue

/-! ## Runs -/

structure DlqRun where
  queue : DeadLetterQueue
  messages : MessageTable
  /-- The entries as they came, each with the headers its message had before. -/
  window : Window (DLQEntry × Dict String String) := .empty
  popped : ℕ := 0
  purged : ℕ := 0
  evicted : ℕ := 0
  /-- What `pop` and `replay` returned: the message, and the number of its entry. -/
  returned : List (MessageRef × ℕ) := []

inductive DlqOp where
  | add (now : Timestamp) (m : MessageRef) (reason : String) (attempts : ℤ) (errorDetails : Option String)
  | pop
  | replay (count : ℤ)
  | purge
  /-- What the rest of the program does to message objects. -/
  | modify (change : MessageTable → MessageTable)

namespace DlqRun

open DeadLetterQueue

/-- Entries went, the oldest first, and their messages were returned. -/
def took (r : DlqRun) (returned : List MessageRef) (messages : MessageTable) (queue : DeadLetterQueue) :
    DlqRun :=
  { r with
    queue, messages
    window := r.window.leave returned.length
    returned := r.returned ++ returned.zipIdx r.window.gone }

def step (r : DlqRun) : DlqOp → DlqRun
  | .add now m reason attempts errorDetails =>
      let done := r.queue.add now r.messages m reason attempts errorDetails
      let evicted := if r.queue.isFull then 1 else 0
      { r with
        queue := done.2.2
        messages := done.2.1
        window := (r.window.enter (done.1, (r.messages m).headers)).leave evicted
        evicted := r.evicted + evicted }
  | .pop =>
      let done := r.queue.pop
      let returned := (done.1.map DLQEntry.message).toList
      { r.took returned r.messages done.2 with popped := r.popped + returned.length }
  | .replay count =>
      let done := r.queue.replay r.messages count
      r.took done.1 done.2.1 done.2.2
  | .purge =>
      let done := r.queue.purge
      { r with queue := done.2, window := r.window.leave done.1, purged := r.purged + done.1 }
  | .modify change => { r with messages := change r.messages }

/-- Nobody else writes the headers of a message that is in the queue. -/
def Untouched (r : DlqRun) : DlqOp → Prop
  | .modify change => ∀ e ∈ r.queue.entries, (change r.messages e.message).headers =
      (r.messages e.message).headers
  | _ => True

/-- A queue that nothing has happened to. -/
structure Start (r : DlqRun) : Prop where
  entries : r.queue.entries = []
  counters : r.queue.totalReceived = 0 ∧ r.queue.totalReplayed = 0
  window : r.window = .empty
  nothing : r.popped = 0 ∧ r.purged = 0 ∧ r.evicted = 0 ∧ r.returned = []

/-- The queue is a bounded window of what arrived, and the counters agree. -/
structure Windowed (r : DlqRun) : Prop where
  suffix : r.queue.entries <:+ r.window.arrivals.map Prod.fst
  bounded : 0 < r.queue.maxSize → r.queue.size ≤ r.queue.maxSize
  pops : r.queue.pop.1 = r.queue.entries.head?
  replays : ∀ count, (r.queue.replay r.messages count).1 =
    (r.queue.entries.take (if 0 < count then count.toNat else r.queue.size)).map DLQEntry.message
  /-- No entry was returned twice, and none that is still stored. -/
  once : (r.returned.map Prod.snd).Nodup ∧ ∀ e ∈ r.returned,
    e.2 + r.queue.size < r.window.arrivals.length ∧
      r.window.arrivals[e.2]?.map (fun arrival => arrival.1.message) = some e.1
  counted : r.queue.totalReceived =
    r.queue.size + r.popped + r.queue.totalReplayed + r.purged + r.evicted

/-- What `replay` returns has the headers it had before `add`, without the three. -/
def Untags (r : DlqRun) : Prop :=
  ∀ count, ∀ arrival ∈ r.window.kept.take (r.queue.wanted count),
    arrival.1.message ∈ (r.queue.replay r.messages count).1 ∧
    ((r.queue.replay r.messages count).2.1 arrival.1.message).headers = untagged arrival.2

structure Sound (r : DlqRun) : Prop where
  stored : r.window.kept.map Prod.fst = r.queue.entries
  bounded : 0 < r.queue.maxSize → r.queue.size ≤ r.queue.maxSize
  record : r.window.Taken (fun arrival => arrival.1.message) r.returned
  counted : r.queue.totalReceived =
    r.queue.size + r.popped + r.queue.totalReplayed + r.purged + r.evicted

/-- The messages in the queue have the headers they came with, but for the three. -/
def Tagged (r : DlqRun) : Prop :=
  ∀ arrival ∈ r.window.kept, untagged (r.messages arrival.1.message).headers = untagged arrival.2

variable {r : DlqRun}

theorem Start.sound (start : r.Start) : r.Sound := by
  obtain ⟨popped, purged, evicted, returned⟩ := start.nothing
  obtain ⟨received, replayed⟩ := start.counters
  constructor
  · simp [start.window, start.entries]
  · intro limited
    simp [size, start.entries]
    omega
  · rw [returned]
    exact .nil r.window
  · simp [size, start.entries, popped, purged, evicted, received, replayed]

theorem Start.tagged (start : r.Start) : r.Tagged := by
  intro arrival kept
  rw [start.window] at kept
  cases kept

theorem Sound.length (sound : r.Sound) : r.window.kept.length = r.queue.size := by
  rw [size, ← sound.stored, List.length_map]

/-! ## One step -/

/-- The oldest entries are taken out, and their messages returned. -/
theorem Sound.took (sound : r.Sound) (n : ℕ) (messages : MessageTable) (queue : DeadLetterQueue) :
    (r.took ((r.queue.entries.take n).map DLQEntry.message) messages queue).window.kept.map Prod.fst =
        r.queue.entries.drop n ∧
      (r.took ((r.queue.entries.take n).map DLQEntry.message) messages queue).window.Taken
        (fun arrival => arrival.1.message)
        (r.took ((r.queue.entries.take n).map DLQEntry.message) messages queue).returned := by
  have taken : (r.queue.entries.take n).map DLQEntry.message =
      (r.window.kept.take n).map fun arrival => arrival.1.message := by
    rw [← sound.stored, ← List.map_take, List.map_map]
    rfl
  have same : r.window.leave (r.window.kept.take n).length = r.window.leave n := by
    rw [List.length_take]
    rcases le_total n r.window.kept.length with fewer | all
    · rw [min_eq_left fewer]
    · have total := r.window.gone_add_length
      simp only [Window.leave, min_eq_right all, Window.mk.injEq, true_and]
      omega
  simp only [DlqRun.took, taken, List.length_map, same]
  refine ⟨?_, sound.record.leave n⟩
  rw [Window.kept_leave, List.map_drop, sound.stored]

theorem Sound.add (sound : r.Sound) (now : Timestamp) (m : MessageRef) (reason : String) (attempts : ℤ)
    (errorDetails : Option String) : (r.step (.add now m reason attempts errorDetails)).Sound := by
  have bounded := sound.bounded
  have counted := sound.counted
  have length : ∀ entry, (r.queue.append entry).length =
      r.queue.size + 1 - if r.queue.isFull then 1 else 0 := by
    intro entry
    rw [append_eq, List.length_drop, List.length_append, List.length_singleton, size]
  constructor
  · simp only [DlqRun.step, DeadLetterQueue.add, Window.kept_leave, Window.kept_enter, append_eq]
    rw [List.map_drop, List.map_append, sound.stored]
    rfl
  · intro limited
    have limited : 0 < r.queue.maxSize := limited
    have limit := bounded limited
    show ((r.queue.append _).length : ℤ) ≤ r.queue.maxSize
    rw [length]
    by_cases full : r.queue.isFull
    · rw [if_pos full]
      omega
    · have room : ¬ r.queue.maxSize ≤ r.queue.size := fun reached => full ⟨limited, reached⟩
      rw [if_neg full]
      omega
  · exact (sound.record.enter _).discard _
  · show r.queue.totalReceived + 1 = (r.queue.append _).length + r.popped + r.queue.totalReplayed +
      r.purged + (r.evicted + if r.queue.isFull then 1 else 0)
    rw [length, counted]
    split <;> omega

theorem Sound.pop (sound : r.Sound) : (r.step .pop).Sound := by
  have bounded := sound.bounded
  have counted := sound.counted
  have returned : ((r.queue.pop.1).map DLQEntry.message).toList =
      (r.queue.entries.take 1).map DLQEntry.message := by
    rw [pop_eq]
    cases r.queue.entries <;> rfl
  obtain ⟨stored, record⟩ := sound.took 1 r.messages r.queue.pop.2
  simp only [step, returned]
  rw [pop_eq] at record stored ⊢
  refine ⟨stored, fun limited => ?_, record, ?_⟩
  · have limit := bounded limited
    show ((r.queue.entries.drop 1).length : ℤ) ≤ r.queue.maxSize
    simp only [size] at limit
    rw [List.length_drop]
    omega
  · show r.queue.totalReceived = (r.queue.entries.drop 1).length +
      (r.popped + ((r.queue.entries.take 1).map DLQEntry.message).length) + r.queue.totalReplayed +
        r.purged + r.evicted
    rw [counted, size, List.length_drop, List.length_map, List.length_take]
    omega

theorem Sound.replay (sound : r.Sound) (count : ℤ) : (r.step (.replay count)).Sound := by
  have bounded := sound.bounded
  have counted := sound.counted
  obtain ⟨returned, queue⟩ := replay_eq r.messages r.queue count
  obtain ⟨stored, record⟩ := sound.took (r.queue.wanted count) (r.queue.replay r.messages count).2.1
    (r.queue.replay r.messages count).2.2
  simp only [step, returned]
  rw [queue] at record stored ⊢
  refine ⟨stored, fun limited => ?_, record, ?_⟩
  · have limit := bounded limited
    show ((r.queue.entries.drop (r.queue.wanted count)).length : ℤ) ≤ r.queue.maxSize
    simp only [size] at limit
    rw [List.length_drop]
    omega
  · show r.queue.totalReceived = (r.queue.entries.drop (r.queue.wanted count)).length + r.popped +
      (r.queue.totalReplayed + min (r.queue.wanted count) r.queue.entries.length) + r.purged + r.evicted
    rw [counted, size, List.length_drop]
    omega

theorem Sound.purge (sound : r.Sound) : (r.step .purge).Sound := by
  have counted := sound.counted
  refine ⟨?_, fun limited => ?_, sound.record.discard _, ?_⟩
  · show (r.window.leave r.queue.entries.length).kept.map Prod.fst = []
    have length := sound.length
    rw [size] at length
    rw [Window.kept_leave, ← length, List.drop_length, List.map_nil]
  · have limited : 0 < r.queue.maxSize := limited
    show ((0 : ℕ) : ℤ) ≤ r.queue.maxSize
    omega
  · show r.queue.totalReceived = 0 + r.popped + r.queue.totalReplayed +
      (r.purged + r.queue.entries.length) + r.evicted
    rw [counted, size]
    omega

theorem Sound.step (sound : r.Sound) (op : DlqOp) : (r.step op).Sound := by
  cases op with
  | add now m reason attempts errorDetails => exact sound.add now m reason attempts errorDetails
  | pop => exact sound.pop
  | replay count => exact sound.replay count
  | purge => exact sound.purge
  | modify change => exact ⟨sound.stored, sound.bounded, sound.record, sound.counted⟩

/-- Entries that stay, and headers that stay but for the three. -/
theorem Tagged.of_kept (tagged : r.Tagged) {after : DlqRun}
    (kept : ∀ arrival ∈ after.window.kept, arrival ∈ r.window.kept)
    (same : ∀ m, untagged (after.messages m).headers = untagged (r.messages m).headers) :
    after.Tagged := fun arrival member => (same _).trans (tagged arrival (kept arrival member))

theorem mem_of_mem_leave {n : ℕ} {arrival : DLQEntry × Dict String String}
    (member : arrival ∈ (r.window.leave n).kept) : arrival ∈ r.window.kept := by
  rw [Window.kept_leave] at member
  exact List.mem_of_mem_drop member

theorem Tagged.step (tagged : r.Tagged) (sound : r.Sound) {op : DlqOp} (untouched : r.Untouched op) :
    (r.step op).Tagged := by
  cases op with
  | add now m reason attempts errorDetails =>
      have same : ∀ n, untagged ((r.step (.add now m reason attempts errorDetails)).messages n).headers =
          untagged (r.messages n).headers := by
        intro n
        show untagged (r.messages.withHeaders m _ n).headers = _
        rw [withHeaders_headers]
        split
        · next here => rw [untagged_tagged, here]
        · rfl
      intro arrival member
      rw [same]
      simp only [DlqRun.step, Window.kept_leave, Window.kept_enter] at member
      rcases List.mem_append.mp (List.mem_of_mem_drop member) with old | new
      · exact tagged arrival old
      · rw [List.mem_singleton.mp new]
        rfl
  | pop => exact tagged.of_kept (fun _ member => mem_of_mem_leave member) fun _ => rfl
  | replay count =>
      refine tagged.of_kept (fun _ member => mem_of_mem_leave member) fun m => ?_
      show untagged ((r.queue.replay r.messages count).2.1 m).headers = _
      rw [replay_headers]
      split
      · exact untagged_untagged _
      · rfl
  | purge => exact tagged.of_kept (fun _ member => mem_of_mem_leave member) fun _ => rfl
  | modify change =>
      intro arrival member
      have stored : arrival.1 ∈ r.queue.entries := by
        rw [← sound.stored]
        exact List.mem_map_of_mem member
      show untagged (change r.messages arrival.1.message).headers = _
      rw [untouched arrival.1 stored]
      exact tagged arrival member

/-! ## What the invariants say -/

theorem Sound.windowed (sound : r.Sound) : r.Windowed where
  suffix := by
    rw [← sound.stored]
    exact r.window.kept_suffix.map Prod.fst
  bounded := sound.bounded
  pops := by rw [pop_eq]
  replays count := (replay_eq r.messages r.queue count).1
  once := by
    refine ⟨sound.record.nodup, fun e member => ?_⟩
    obtain ⟨below, value⟩ := sound.record.out e member
    have total := r.window.gone_add_length
    rw [sound.length] at total
    exact ⟨by omega, value⟩
  counted := sound.counted

theorem Tagged.untags (tagged : r.Tagged) (sound : r.Sound) : r.Untags := by
  intro count arrival member
  have returned : arrival.1.message ∈ (r.queue.replay r.messages count).1 := by
    rw [(replay_eq r.messages r.queue count).1, ← sound.stored, ← List.map_take, List.map_map]
    exact List.mem_map_of_mem (f := DLQEntry.message ∘ Prod.fst) member
  refine ⟨returned, ?_⟩
  rw [replay_headers, if_pos returned]
  exact tagged arrival (List.mem_of_mem_take member)

/-! ## Over whole runs -/

/-- **Every run of a dead letter queue is a bounded window of what arrived**, and if
nobody else writes the headers of stored messages, `replay` returns every message
with the headers it came with, but for the three. -/
theorem run_windowed (start : r.Start) (ops : List DlqOp) :
    (run step r ops).Windowed ∧ (Guarded step Untouched r ops → (run step r ops).Untags) := by
  have preserved : ∀ r op, Sound r → Sound (r.step op) := fun _ op sound => sound.step op
  have sound : (run step r ops).Sound := run_preserves preserved start.sound ops
  refine ⟨sound.windowed, fun untouched => ?_⟩
  have both : ∀ r op, Sound r ∧ Tagged r → Untouched r op → Sound (r.step op) ∧ Tagged (r.step op) :=
    fun _ op held untouched => ⟨held.1.step op, held.2.step held.1 untouched⟩
  exact (run_invariant both ⟨start.sound, start.tagged⟩ untouched).2.untags sound

/-- An empty queue with room for two entries. -/
def dlqStart : DlqRun where
  queue := { name := "dlq", maxSize := 2 }
  messages m := { topic := "t", value := [], id := toString m }

/-- Three messages fail, the oldest entry is pushed out, and one of the others is
popped. -/
def dlqOps : List DlqOp :=
  [.add 0 0 "bad" 3 none, .add 1 1 "bad" 3 none, .add 2 2 "worse" 5 (some "trace"), .pop]

theorem dlqOps_windowed : (run step dlqStart dlqOps).Windowed ∧ (run step dlqStart dlqOps).Untags := by
  have described := run_windowed (r := dlqStart) ⟨rfl, ⟨rfl, rfl⟩, rfl, ⟨rfl, rfl, rfl, rfl⟩⟩ dlqOps
  exact ⟨described.1, described.2 ⟨trivial, trivial, trivial, trivial, trivial⟩⟩

end DlqRun

end BrokerLite
