/-
# Delivery.Timeouts -- what one call of `check_timeouts` takes out

The loop of `check_timeouts` takes the expired records out in the order of the
dictionary: a record with attempts left is collected for redelivery, an exhausted
one is handed to the dead letter handler.  `checkTimeouts_of_returns` says what a
call does when the handler returns every time, `checkTimeouts_of_raises` when it
raises on some record: what was collected before is then out of the dictionary
and in no result.

`checkTimeouts_losesNone_iff` says in which states a raising handler loses no
other message.
-/
import BrokerLite.Delivery.AckManager

namespace BrokerLite

open Theory

set_option autoImplicit false

/-- The attempts have reached the maximum. -/
def PendingAck.Exhausted (p : PendingAck) : Prop := p.maxAttempts ≤ p.attempts

instance : DecidablePred PendingAck.Exhausted := fun p =>
  inferInstanceAs (Decidable (p.maxAttempts ≤ p.attempts))

namespace AckManager

/-- The records that have expired, as the loop meets them. -/
def expired (now : Timestamp) (a : AckManager) : List (String × PendingAck) :=
  a.pending.entries.filter fun e => e.2.deadline ≤ now

/-- The messages of `taken` that have attempts left. -/
def redelivered (taken : List (String × PendingAck)) : List MessageRef :=
  (taken.filter fun e => ¬ e.2.Exhausted).map fun e => e.2.message

/-- What the handler is given for the others. -/
def timeoutLetters (a : AckManager) (taken : List (String × PendingAck)) : DeadLetters :=
  if a.onDeadLetter then
    (taken.filter fun e => e.2.Exhausted).map fun e =>
      (e.2.message, .ackTimeout e.2.attempts a.ackTimeout)
  else []

/-- One record is out and counted. -/
def settle (a : AckManager) (e : String × PendingAck) : AckManager :=
  if e.2.Exhausted then
    { a with pending := a.pending.erase e.1, totalDeadLettered := a.totalDeadLettered + 1 }
  else { a with pending := a.pending.erase e.1, totalRedelivered := a.totalRedelivered + 1 }

def settleAll (a : AckManager) (taken : List (String × PendingAck)) : AckManager :=
  taken.foldl settle a

variable {ε : Type} (handler : MessageRef → DeadLetterReason → Option ε)

/-- The handler is called for the record, and raises. -/
def Raises (a : AckManager) (p : PendingAck) : Prop :=
  a.onDeadLetter = true ∧ p.Exhausted ∧ (handler p.message (.ackTimeout p.attempts a.ackTimeout)).isSome

instance (a : AckManager) : DecidablePred (a.Raises handler) := fun p =>
  inferInstanceAs (Decidable (a.onDeadLetter = true ∧ p.Exhausted ∧
    (handler p.message (.ackTimeout p.attempts a.ackTimeout)).isSome))

/-! ## Records that are out -/

section Settled

variable (a : AckManager) (e : String × PendingAck) (taken rest : List (String × PendingAck))

@[simp] theorem settle_pending : (a.settle e).pending = a.pending.erase e.1 := by
  unfold settle
  split <;> rfl

@[simp] theorem settle_ackTimeout : (a.settle e).ackTimeout = a.ackTimeout := by
  unfold settle
  split <;> rfl

@[simp] theorem settle_onDeadLetter : (a.settle e).onDeadLetter = a.onDeadLetter := by
  unfold settle
  split <;> rfl

@[simp] theorem settle_maxAttempts : (a.settle e).maxAttempts = a.maxAttempts := by
  unfold settle
  split <;> rfl

@[simp] theorem settle_totalAcked : (a.settle e).totalAcked = a.totalAcked := by
  unfold settle
  split <;> rfl

@[simp] theorem settleAll_nil : a.settleAll [] = a := rfl

@[simp] theorem settleAll_cons : a.settleAll (e :: rest) = (a.settle e).settleAll rest := rfl

theorem settleAll_append : a.settleAll (taken ++ rest) = (a.settleAll taken).settleAll rest :=
  List.foldl_append

@[simp] theorem settleAll_onDeadLetter : (a.settleAll taken).onDeadLetter = a.onDeadLetter := by
  induction taken generalizing a with
  | nil => rfl
  | cons e rest ih => simp [ih]

@[simp] theorem settleAll_maxAttempts : (a.settleAll taken).maxAttempts = a.maxAttempts := by
  induction taken generalizing a with
  | nil => rfl
  | cons e rest ih => simp [ih]

@[simp] theorem settleAll_ackTimeout : (a.settleAll taken).ackTimeout = a.ackTimeout := by
  induction taken generalizing a with
  | nil => rfl
  | cons e rest ih => simp [ih]

@[simp] theorem settleAll_totalAcked : (a.settleAll taken).totalAcked = a.totalAcked := by
  induction taken generalizing a with
  | nil => rfl
  | cons e rest ih => simp [ih]

theorem settleAll_totalRedelivered : (a.settleAll taken).totalRedelivered =
    a.totalRedelivered + (redelivered taken).length := by
  induction taken generalizing a with
  | nil => rfl
  | cons e rest ih =>
      rw [settleAll_cons, ih]
      by_cases exhausted : e.2.Exhausted
      · simp [settle, redelivered, exhausted]
      · simp [settle, redelivered, exhausted]
        omega

theorem settleAll_totalDeadLettered : (a.settleAll taken).totalDeadLettered =
    a.totalDeadLettered + (taken.filter fun e => e.2.Exhausted).length := by
  induction taken generalizing a with
  | nil => rfl
  | cons e rest ih =>
      rw [settleAll_cons, ih]
      by_cases exhausted : e.2.Exhausted
      · simp [settle, exhausted]
        omega
      · simp [settle, exhausted]

/-- The other records stay where they are. -/
theorem settleAll_get? (id : String) : (a.settleAll taken).pending.get? id =
    if id ∈ taken.map Prod.fst then none else a.pending.get? id := by
  induction taken generalizing a with
  | nil => simp
  | cons e rest ih =>
      rw [settleAll_cons, ih, settle_pending, Dict.get?_erase]
      by_cases here : id = e.1 <;> by_cases later : id ∈ rest.map Prod.fst <;> simp [here, later]

theorem redelivered_append : redelivered (taken ++ rest) = redelivered taken ++ redelivered rest := by
  simp [redelivered]

theorem timeoutLetters_append :
    a.timeoutLetters (taken ++ rest) = a.timeoutLetters taken ++ a.timeoutLetters rest := by
  unfold timeoutLetters
  split <;> simp

theorem redelivered_cons : redelivered (e :: rest) = redelivered [e] ++ redelivered rest :=
  redelivered_append [e] rest

theorem timeoutLetters_cons :
    a.timeoutLetters (e :: rest) = a.timeoutLetters [e] ++ a.timeoutLetters rest :=
  a.timeoutLetters_append [e] rest

theorem timeoutLetters_settle : (a.settle e).timeoutLetters taken = a.timeoutLetters taken := by
  simp only [timeoutLetters, settle_onDeadLetter, settle_ackTimeout]

theorem length_timeoutLetters (set_ : a.onDeadLetter = true) :
    (a.timeoutLetters taken).length = (taken.filter fun e => e.2.Exhausted).length := by
  rw [timeoutLetters, if_pos set_, List.length_map]

end Settled

/-! ## The loop -/

section Loop

variable {handler} {a : AckManager} {taken rest : List (String × PendingAck)}

/-- One record on which the handler does not raise. -/
theorem expire_cons {e : String × PendingAck} (found : a.pending.get? e.1 = some e.2)
    (silent : ¬ a.Raises handler e.2) (later : List String) (timedOut : List MessageRef) :
    expire handler (e.1 :: later) timedOut a =
      let next := expire handler later (timedOut ++ redelivered [e]) (a.settle e)
      (next.1, a.timeoutLetters [e] ++ next.2.1, next.2.2) := by
  rw [expire, found]
  by_cases exhausted : e.2.Exhausted
  · have limit : e.2.maxAttempts ≤ e.2.attempts := exhausted
    have nobody : redelivered [e] = [] := by simp [redelivered, exhausted]
    rw [nobody, List.append_nil, settle, if_pos exhausted]
    dsimp only
    rw [if_pos limit]
    by_cases set_ : a.onDeadLetter = true
    · have returns : handler e.2.message (.ackTimeout e.2.attempts a.ackTimeout) = none := by
        simpa [Raises, set_, exhausted] using silent
      simp only [deadLetter, if_pos set_, returns, timeoutLetters, exhausted, List.filter_singleton,
        decide_true]
      rfl
    · simp only [deadLetter, if_neg set_, timeoutLetters]
  · have left : ¬ e.2.maxAttempts ≤ e.2.attempts := exhausted
    have collected : redelivered [e] = [e.2.message] := by simp [redelivered, exhausted]
    have nothing : a.timeoutLetters [e] = [] := by simp [timeoutLetters, exhausted]
    rw [collected, nothing, settle, if_neg exhausted]
    dsimp only
    rw [if_neg left, List.nil_append]

/-- Records that were there when the loop began, none of them raising. -/
theorem expire_append (there : ∀ e ∈ taken, a.pending.get? e.1 = some e.2)
    (nodup : (taken.map Prod.fst).Nodup) (quiet : ∀ e ∈ taken, ¬ a.Raises handler e.2)
    (later : List String) (timedOut : List MessageRef) :
    expire handler (taken.map Prod.fst ++ later) timedOut a =
      let next := expire handler later (timedOut ++ redelivered taken) (a.settleAll taken)
      (next.1, a.timeoutLetters taken ++ next.2.1, next.2.2) := by
  induction taken generalizing a timedOut with
  | nil => simp [redelivered, timeoutLetters]
  | cons e taken ih =>
      obtain ⟨absent, nodup⟩ := List.nodup_cons.mp nodup
      have others : ∀ e' ∈ taken, (a.settle e).pending.get? e'.1 = some e'.2 := by
        intro e' member
        have other : e'.1 ≠ e.1 := fun same => absent (same ▸ List.mem_map_of_mem member)
        rw [settle_pending, Dict.get?_erase_of_ne _ other]
        exact there e' (List.mem_cons_of_mem e member)
      have quieter : ∀ e' ∈ taken, ¬ (a.settle e).Raises handler e'.2 := by
        intro e' member
        simpa [Raises] using quiet e' (List.mem_cons_of_mem e member)
      rw [List.map_cons, List.cons_append,
        expire_cons (there e List.mem_cons_self) (quiet e List.mem_cons_self),
        ih others nodup quieter, redelivered_cons e taken, a.timeoutLetters_cons e taken,
        timeoutLetters_settle]
      simp only [List.append_assoc, settleAll_cons]

theorem expired_there {now : Timestamp} : ∀ e ∈ a.expired now, a.pending.get? e.1 = some e.2 :=
  fun _ member => Dict.get?_eq_some_iff.mpr (List.mem_filter.mp member).1

theorem expired_nodup (a : AckManager) (now : Timestamp) : ((a.expired now).map Prod.fst).Nodup :=
  a.pending.nodup.sublist (List.filter_sublist.map _)

theorem mem_expired {now : Timestamp} {id : String} {p : PendingAck} :
    (id, p) ∈ a.expired now ↔ a.pending.get? id = some p ∧ p.deadline ≤ now := by
  simp [expired, Dict.get?_eq_some_iff]

/-- **A call whose handler returns every time**: the expired records are out, each
either returned or handed over. -/
theorem checkTimeouts_of_returns {now : Timestamp}
    (quiet : ∀ e ∈ a.expired now, ¬ a.Raises handler e.2) :
    a.checkTimeouts handler now =
      (.ok (redelivered (a.expired now)), a.timeoutLetters (a.expired now),
        a.settleAll (a.expired now)) := by
  have loop := expire_append expired_there (a.expired_nodup now) quiet [] []
  rw [List.append_nil] at loop
  rw [checkTimeouts, ← expired, loop]
  simp [expire]

/-- **A call whose handler raises** at record `q`: the records up to it are out,
and nothing is returned. -/
theorem checkTimeouts_of_raises {now : Timestamp} {before after : List (String × PendingAck)}
    {q : String × PendingAck} (split : a.expired now = before ++ q :: after)
    (quiet : ∀ e ∈ before, ¬ a.Raises handler e.2) (raises : a.Raises handler q.2) :
    ∃ raised, a.checkTimeouts handler now =
      (.error raised, a.timeoutLetters (before ++ [q]), a.settleAll (before ++ [q])) := by
  obtain ⟨set_, exhausted, some_⟩ := raises
  obtain ⟨raised, outcome⟩ := Option.isSome_iff_exists.mp some_
  have nodup := a.expired_nodup now
  have there : ∀ e ∈ a.expired now, a.pending.get? e.1 = some e.2 := expired_there
  rw [split] at nodup there
  rw [List.map_append, List.map_cons, List.nodup_append] at nodup
  have found : (a.settleAll before).pending.get? q.1 = some q.2 := by
    have other : q.1 ∉ before.map Prod.fst := fun member =>
      nodup.2.2 q.1 member q.1 List.mem_cons_self rfl
    rw [settleAll_get?, if_neg other]
    exact there q (by simp)
  have limit : q.2.maxAttempts ≤ q.2.attempts := exhausted
  have loop := expire_append (fun e member => there e (List.mem_append_left _ member)) nodup.1 quiet
    (q.1 :: after.map Prod.fst) []
  refine ⟨raised, ?_⟩
  show expire handler ((a.expired now).map Prod.fst) [] a = _
  rw [split, List.map_append, List.map_cons, loop, expire, found, settleAll_append,
    timeoutLetters_append]
  simp [limit, deadLetter, set_, outcome, timeoutLetters, exhausted, settle]

/-- The handler returns every time, or there is a first record on which it raises. -/
theorem raises_first (handler : MessageRef → DeadLetterReason → Option ε) (a : AckManager)
    (taken : List (String × PendingAck)) : (∀ e ∈ taken, ¬ a.Raises handler e.2) ∨
      ∃ before q after, taken = before ++ q :: after ∧ (∀ e ∈ before, ¬ a.Raises handler e.2) ∧
        a.Raises handler q.2 := by
  cases found : taken.find? fun e => a.Raises handler e.2 with
  | none =>
      left
      simpa using found
  | some q =>
      obtain ⟨raises, before, after, split, quiet⟩ := List.find?_eq_some_iff_append.mp found
      right
      exact ⟨before, q, after, split, by simpa using quiet, by simpa using raises⟩

end Loop

/-! ## What a raising handler loses -/

variable (a : AckManager) (now : Timestamp)

/-- If the call raises, a message that was pending and not handed over is still
pending, and nothing is counted but what was handed over. -/
def LosesNone : Prop :=
  let call := a.checkTimeouts handler now
  ∀ raised, call.1 = .error raised →
    (∀ id p, a.pending.get? id = some p → p.message ∉ call.2.1.map Prod.fst →
      call.2.2.pending.get? id = some p) ∧
    call.2.2.totalRedelivered = a.totalRedelivered ∧
    call.2.2.totalDeadLettered = a.totalDeadLettered + call.2.1.length

/-- No record with attempts left stands among the expired ones before the first
on which the handler raises. -/
def NoneLeftBefore : Prop :=
  ∀ before q after, a.expired now = before ++ q :: after → (∀ e ∈ before, ¬ a.Raises handler e.2) →
    a.Raises handler q.2 → ∀ e ∈ before, e.2.Exhausted

variable {handler a now}

/-- The records up to the raising one, when all of them are exhausted: each was
handed over, and the others are still there. -/
theorem losesNone_of_exhausted {before after : List (String × PendingAck)} {q : String × PendingAck}
    (split : a.expired now = before ++ q :: after) (quiet : ∀ e ∈ before, ¬ a.Raises handler e.2)
    (raises : a.Raises handler q.2) (exhausted : ∀ e ∈ before, e.2.Exhausted) :
    a.LosesNone handler now := by
  have all : ∀ e ∈ before ++ [q], e.2.Exhausted := by
    intro e member
    rcases List.mem_append.mp member with early | last
    · exact exhausted e early
    · rw [List.mem_singleton.mp last]
      exact raises.2.1
  have filtered : (before ++ [q]).filter (fun e => e.2.Exhausted) = before ++ [q] :=
    List.filter_eq_self.mpr fun e member => decide_eq_true (all e member)
  have nobody : redelivered (before ++ [q]) = [] := by
    rw [redelivered, List.filter_eq_nil_iff.mpr, List.map_nil]
    intro e member
    simpa using all e member
  obtain ⟨raised, call⟩ := checkTimeouts_of_raises split quiet raises
  intro _ _
  rw [call]
  refine ⟨fun id p found unhanded => ?_, ?_, ?_⟩
  · rw [settleAll_get?, if_neg, found]
    intro member
    obtain ⟨e, taken, same⟩ := List.mem_map.mp member
    have there : a.pending.get? e.1 = some e.2 := by
      have listed : e ∈ a.expired now := by
        rw [split, List.append_cons]
        exact List.mem_append_left _ taken
      exact expired_there e listed
    rw [same, found, Option.some.injEq] at there
    refine unhanded ?_
    rw [timeoutLetters, if_pos raises.1, filtered, List.map_map, there]
    exact List.mem_map_of_mem taken
  · rw [settleAll_totalRedelivered, nobody, List.length_nil, Nat.add_zero]
  · rw [settleAll_totalDeadLettered, length_timeoutLetters _ _ raises.1]

/-- **When a raising handler loses no other message**: exactly when nothing was
collected for redelivery before it raised. -/
theorem checkTimeouts_losesNone_iff (handler : MessageRef → DeadLetterReason → Option ε) (a : AckManager)
    (now : Timestamp) : a.LosesNone handler now ↔ a.NoneLeftBefore handler now := by
  constructor
  · intro loses before q after split quiet raises e member
    obtain ⟨raised, call⟩ := checkTimeouts_of_raises split quiet raises
    obtain ⟨-, counted, -⟩ := loses raised (by rw [call])
    rw [call, settleAll_totalRedelivered] at counted
    by_contra left
    have collected : e.2.message ∈ redelivered (before ++ [q]) := by
      refine List.mem_map_of_mem (f := fun e : String × PendingAck => e.2.message) ?_
      simp [member, left]
    have := List.length_pos_of_mem collected
    omega
  · intro none_
    rcases raises_first handler a (a.expired now) with quiet | ⟨before, q, after, split, quiet, raises⟩
    · intro raised error
      rw [checkTimeouts_of_returns quiet] at error
      cases error
    · exact losesNone_of_exhausted split quiet raises (none_ before q after split quiet raises)

/-- Message 0 has attempts left and message 1 has none; both have expired. -/
def mixedPending : AckManager where
  onDeadLetter := true
  pending := (Dict.empty.set "0" { message := 0, consumerId := "c", sentAt := 0, deadline := 1 }).set "1"
    { message := 1, consumerId := "c", sentAt := 0, deadline := 1, attempts := 5 }

/-- The handler raises on message 1: message 0 is no longer pending, was handed to
nobody and returned to nobody, and is counted as redelivered. -/
theorem mixedPending_loses :
    let call := mixedPending.checkTimeouts (fun _ _ => some ()) 2
    call.1.toOption = none ∧ call.2.1.map Prod.fst = [1] ∧ call.2.2.pending.keys = [] ∧
      call.2.2.totalRedelivered = 1 ∧ ¬ mixedPending.LosesNone (fun _ _ => some ()) 2 := by
  refine ⟨by decide +kernel, by decide +kernel, by decide +kernel, by decide +kernel, fun loses => ?_⟩
  have raised : (mixedPending.checkTimeouts (fun _ _ => some ()) 2).1 = .error () := by decide +kernel
  exact absurd (loses () raised).2.1 (by decide +kernel)

end AckManager

end BrokerLite
