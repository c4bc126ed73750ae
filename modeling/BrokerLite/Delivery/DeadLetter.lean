/-
# Delivery.DeadLetter -- which messages reach the dead letter handler

Runs of one `AckManager` watched for one message id: that message is tracked
again only after its delivery has failed, and is never acknowledged; anything
may happen to the others.  `Settled` says what a call of `negative_acknowledge`
or `check_timeouts` does to the watched message: if its record goes, the message
is handed to the handler with a maximum of one attempt, and returned with a
larger one.
-/
import BrokerLite.Delivery.AckManager

namespace BrokerLite

open Theory

set_option autoImplicit false

variable {ε : Type} (messages : MessageTable) (watched : String)

/-- How often the watched message was handed to the handler. -/
def handedCount (letters : DeadLetters) : ℕ := letters.countP fun e => (messages e.1).id = watched

/-- How often the watched message was returned for redelivery. -/
def returnedCount (returned : List MessageRef) : ℕ :=
  returned.countP fun m => (messages m).id = watched

namespace AckManager

/-- One if the record of the watched message was there in `a` and is gone in `b`. -/
def ended (a b : AckManager) : ℕ :=
  if a.pending.contains watched ∧ ¬ b.pending.contains watched then 1 else 0

/-- Records stand under the ids of their messages, with the manager's maximum,
and the watched one is at its first attempt. -/
structure Fresh (a : AckManager) : Prop where
  keyed : ∀ id pending, a.pending.get? id = some pending →
    (messages pending.message).id = id ∧ pending.maxAttempts = a.maxAttempts
  first : ∀ pending, a.pending.get? watched = some pending → pending.attempts = 1

/-- From `a` to `b` records were only taken out, and the watched message was
handed over or returned as its record went. -/
structure Settled (a : AckManager) (letters : DeadLetters) (returned : List MessageRef)
    (b : AckManager) : Prop where
  kept : ∀ id pending, b.pending.get? id = some pending → a.pending.get? id = some pending
  limit : b.maxAttempts = a.maxAttempts
  handler : b.onDeadLetter = a.onDeadLetter
  handed : handedCount messages watched letters =
    if a.maxAttempts = 1 ∧ a.onDeadLetter = true then ended watched a b else 0
  returned : returnedCount messages watched returned ≤
    if a.maxAttempts = 1 then 0 else ended watched a b

variable {messages watched} {a b c : AckManager}

theorem Fresh.settled (fresh : a.Fresh messages watched) {letters : DeadLetters}
    {returned : List MessageRef} (settled : a.Settled messages watched letters returned b) :
    b.Fresh messages watched := by
  constructor
  · intro id pending found
    rw [settled.limit]
    exact fresh.keyed id pending (settled.kept id pending found)
  · intro pending found
    exact fresh.first pending (settled.kept watched pending found)

theorem Settled.refl (a : AckManager) : a.Settled messages watched [] [] a :=
  ⟨fun _ _ found => found, rfl, rfl, by simp [handedCount, ended],
    by simp [returnedCount]⟩

theorem contains_of_kept (watched : String) (kept : ∀ id pending, b.pending.get? id = some pending →
    a.pending.get? id = some pending) (there : b.pending.contains watched = true) :
    a.pending.contains watched = true := by
  obtain ⟨pending, found⟩ := Option.isSome_iff_exists.mp there
  simp [Dict.contains, kept watched pending found]

/-- A record ends once. -/
theorem ended_add (watched : String) (first : ∀ id pending, b.pending.get? id = some pending →
    a.pending.get? id = some pending) (second : ∀ id pending, c.pending.get? id = some pending →
    b.pending.get? id = some pending) : ended watched a c = ended watched a b + ended watched b c := by
  have ab := contains_of_kept watched first
  have bc := contains_of_kept watched second
  unfold ended
  cases in_a : a.pending.contains watched <;> cases in_b : b.pending.contains watched <;>
    cases in_c : c.pending.contains watched <;> simp_all

theorem Settled.trans {l₁ l₂ : DeadLetters} {r₁ r₂ : List MessageRef}
    (first : a.Settled messages watched l₁ r₁ b) (second : b.Settled messages watched l₂ r₂ c) :
    a.Settled messages watched (l₁ ++ l₂) (r₁ ++ r₂) c := by
  have split := ended_add watched first.kept second.kept
  refine ⟨fun id pending found => first.kept id pending (second.kept id pending found),
    second.limit.trans first.limit, second.handler.trans first.handler, ?_, ?_⟩
  · have left := first.handed
    have right := second.handed
    rw [first.limit, first.handler] at right
    rw [handedCount, List.countP_append, split]
    unfold handedCount at left right
    rw [left, right]
    split_ifs <;> rfl
  · have left := first.returned
    have right := second.returned
    rw [first.limit] at right
    rw [returnedCount, List.countP_append, split]
    unfold returnedCount at left right
    split_ifs at left right ⊢ <;> omega

/-! ## One record -/

section Record

variable (fresh : a.Fresh messages watched) {id : String} {record : PendingAck}
  (found : a.pending.get? id = some record) (erased : b.pending = a.pending.erase id)
  (limit : b.maxAttempts = a.maxAttempts) (handler : b.onDeadLetter = a.onDeadLetter)

include erased

theorem kept_of_erased {other : String} {pending : PendingAck}
    (there : b.pending.get? other = some pending) : a.pending.get? other = some pending := by
  rw [erased, Dict.get?_erase_eq_some_iff] at there
  exact there.2

include found

theorem ended_of_erased : ended watched a b = if id = watched then 1 else 0 := by
  unfold ended
  rw [erased]
  by_cases same : id = watched
  · subst same
    simp [Dict.contains, found]
  · have other : watched ≠ id := fun h => same h.symm
    simp only [Dict.contains, Dict.get?_erase_of_ne _ other, if_neg same]
    cases a.pending.get? watched <;> simp

include fresh limit handler

/-- A record that has used up its attempts goes to the handler, if there is one. -/
theorem settled_of_exhausted (pos : 1 ≤ a.maxAttempts) (exhausted : record.maxAttempts ≤ record.attempts)
    (reason : DeadLetterReason) : a.Settled messages watched
      (if a.onDeadLetter = true then [(record.message, reason)] else []) [] b := by
  obtain ⟨named, maximum⟩ := fresh.keyed id record found
  refine ⟨fun _ _ => kept_of_erased erased, limit, handler, ?_, by simp [returnedCount]⟩
  rw [ended_of_erased found erased]
  by_cases same : id = watched
  · subst same
    have one : a.maxAttempts = 1 := by
      have attempts := fresh.first record found
      omega
    by_cases set_ : a.onDeadLetter = true <;> simp [handedCount, one, set_, named]
  · by_cases set_ : a.onDeadLetter = true <;> simp [handedCount, set_, named, same]

/-- A record with attempts left is returned. -/
theorem settled_of_left (attempts_left : ¬ record.maxAttempts ≤ record.attempts) :
    a.Settled messages watched [] [record.message] b := by
  obtain ⟨named, maximum⟩ := fresh.keyed id record found
  refine ⟨fun _ _ => kept_of_erased erased, limit, handler, ?_, ?_⟩ <;>
    rw [ended_of_erased found erased]
  · by_cases same : id = watched
    · subst same
      have attempts := fresh.first record found
      have more : a.maxAttempts ≠ 1 := by omega
      simp [handedCount, more]
    · simp [handedCount, same]
  · by_cases same : id = watched
    · subst same
      have attempts := fresh.first record found
      have more : a.maxAttempts ≠ 1 := by omega
      simp [returnedCount, more, named]
    · simp [returnedCount, named, same]

end Record

/-! ## Both failure paths -/

variable {handler : MessageRef → DeadLetterReason → Option ε}

theorem deadLetter_spec (handler : MessageRef → DeadLetterReason → Option ε) (a : AckManager)
    (m : MessageRef) (reason : DeadLetterReason) :
    (a.deadLetter handler m reason).2.1 = (if a.onDeadLetter = true then [(m, reason)] else []) ∧
      (a.deadLetter handler m reason).2.2.pending = a.pending ∧
      (a.deadLetter handler m reason).2.2.maxAttempts = a.maxAttempts ∧
      (a.deadLetter handler m reason).2.2.onDeadLetter = a.onDeadLetter := by
  unfold deadLetter
  dsimp only
  split <;> exact ⟨rfl, rfl, rfl, rfl⟩

/-- What a negative acknowledgement returns for redelivery. -/
def nackReturned : Except ε (Option MessageRef) → List MessageRef
  | .ok (some m) => [m]
  | _ => []

theorem negativeAcknowledge_settled (fresh : a.Fresh messages watched) (pos : 1 ≤ a.maxAttempts)
    (id : String) : a.Settled messages watched (a.negativeAcknowledge handler id).2.1
      (nackReturned (a.negativeAcknowledge handler id).1) (a.negativeAcknowledge handler id).2.2 := by
  unfold negativeAcknowledge
  split
  · exact .refl a
  · next record found =>
      dsimp only
      split
      · next exhausted =>
          obtain ⟨letters, erased, limit, set_⟩ := deadLetter_spec handler
            { a with pending := a.pending.erase id, totalNacked := a.totalNacked + 1 } record.message
            (.attemptsExceeded record.maxAttempts record.attempts)
          have settled := settled_of_exhausted fresh found erased limit set_ pos exhausted
            (.attemptsExceeded record.maxAttempts record.attempts)
          rw [← letters] at settled
          split <;> next outcome => simpa only [nackReturned, outcome] using settled
      · next attempts_left => exact settled_of_left fresh found rfl rfl rfl attempts_left

/-- The loop of `check_timeouts`: it returns what it collected before and what it
takes out now, or the handler raises and nothing is returned. -/
theorem expire_settled (handler : MessageRef → DeadLetterReason → Option ε)
    (fresh : a.Fresh messages watched) (pos : 1 ≤ a.maxAttempts) (ids : List String)
    (timedOut : List MessageRef) :
    ∃ returned, a.Settled messages watched (expire handler ids timedOut a).2.1 returned
        (expire handler ids timedOut a).2.2 ∧
      ((expire handler ids timedOut a).1 = .ok (timedOut ++ returned) ∨
        ∃ raised, (expire handler ids timedOut a).1 = .error raised) := by
  induction ids generalizing a timedOut with
  | nil => exact ⟨[], .refl a, .inl (by simp [expire])⟩
  | cons id rest ih =>
      rw [expire]
      split
      · exact ih fresh pos timedOut
      · next record found =>
          dsimp only
          split
          · next exhausted =>
              obtain ⟨letters, erased, limit, set_⟩ := deadLetter_spec handler
                { a with pending := a.pending.erase id } record.message
                (.ackTimeout record.attempts a.ackTimeout)
              have settled := settled_of_exhausted fresh found erased limit set_ pos exhausted
                (.ackTimeout record.attempts a.ackTimeout)
              rw [← letters] at settled
              split
              · next raised given after outcome =>
                  rw [outcome] at settled
                  exact ⟨[], settled, .inr ⟨raised, rfl⟩⟩
              · next given after outcome =>
                  rw [outcome] at settled
                  obtain ⟨returned, later, result⟩ :=
                    ih (fresh.settled settled) (settled.limit ▸ pos) timedOut
                  exact ⟨returned, settled.trans later, result⟩
          · next attempts_left =>
              have settled : a.Settled messages watched [] [record.message]
                  { a with
                    pending := a.pending.erase id, totalRedelivered := a.totalRedelivered + 1 } :=
                settled_of_left fresh found rfl rfl rfl attempts_left
              obtain ⟨returned, later, result⟩ := ih (fresh.settled settled) pos
                (timedOut ++ [record.message])
              exact ⟨_, settled.trans later, by simpa using result⟩

/-- What `check_timeouts` returns for redelivery. -/
def timeoutsReturned : Except ε (List MessageRef) → List MessageRef
  | .ok timedOut => timedOut
  | .error _ => []

theorem checkTimeouts_settled (fresh : a.Fresh messages watched) (pos : 1 ≤ a.maxAttempts)
    (now : Timestamp) : a.Settled messages watched (a.checkTimeouts handler now).2.1
      (timeoutsReturned (a.checkTimeouts handler now).1) (a.checkTimeouts handler now).2.2 := by
  obtain ⟨returned, settled, result⟩ := expire_settled handler fresh pos
    ((a.pending.entries.filter fun e => e.2.deadline ≤ now).map Prod.fst) []
  refine ⟨settled.kept, settled.limit, settled.handler, settled.handed, le_trans ?_ settled.returned⟩
  unfold checkTimeouts
  rcases result with ok | ⟨raised, error⟩
  · simp [ok, timeoutsReturned]
  · simp [error, timeoutsReturned, returnedCount]

end AckManager

/-! ## Runs -/

/-- A manager, what its handler was given, what it returned for redelivery, and
how many deliveries of the watched message have failed. -/
structure AckRun where
  manager : AckManager
  handed : DeadLetters := []
  returned : List MessageRef := []
  failures : ℕ := 0

inductive AckOp (ε : Type) where
  | track (sentAt now : Timestamp) (m : MessageRef) (consumerId : String) (timeout : Option Timestamp)
  | acknowledge (messageId : String)
  | negativeAcknowledge (handler : MessageRef → DeadLetterReason → Option ε) (messageId : String)
  | checkTimeouts (handler : MessageRef → DeadLetterReason → Option ε) (now : Timestamp)

namespace AckRun

/-- A call that took deliveries back: what it handed over, what it returned, and
the manager after it. -/
def failed (r : AckRun) (letters : DeadLetters) (returned : List MessageRef) (after : AckManager) :
    AckRun where
  manager := after
  handed := r.handed ++ letters
  returned := r.returned ++ returned
  failures := r.failures + AckManager.ended watched r.manager after

def step (r : AckRun) : AckOp ε → AckRun
  | .track sentAt now m consumerId timeout =>
      { r with manager := r.manager.track messages sentAt now m consumerId timeout }
  | .acknowledge messageId => { r with manager := (r.manager.acknowledge messageId).2 }
  | .negativeAcknowledge handler messageId =>
      let called := r.manager.negativeAcknowledge handler messageId
      r.failed watched called.2.1 (AckManager.nackReturned called.1) called.2.2
  | .checkTimeouts handler now =>
      let called := r.manager.checkTimeouts handler now
      r.failed watched called.2.1 (AckManager.timeoutsReturned called.1) called.2.2

/-- The watched message is tracked only when its last delivery has ended, and
never acknowledged. -/
def Failing (r : AckRun) : AckOp ε → Prop
  | .track _ _ m _ _ => (messages m).id = watched → r.manager.pending.contains watched = false
  | .acknowledge messageId => messageId ≠ watched
  | _ => True

instance (r : AckRun) (op : AckOp ε) : Decidable (r.Failing messages watched op) := by
  cases op <;> unfold Failing <;> infer_instance

/-- A manager with nothing pending, and nothing handed over or returned yet. -/
structure Start (r : AckRun) : Prop where
  pending : r.manager.pending = .empty
  handed : r.handed = []
  returned : r.returned = []
  failures : r.failures = 0

/-- The watched message has been handed over by the time all of its attempts
have failed, and was returned for the other attempts at most. -/
def DeadLettered (r : AckRun) : Prop :=
  (r.manager.maxAttempts ≤ r.failures → 0 < handedCount messages watched r.handed) ∧
    returnedCount messages watched r.returned ≤ r.manager.maxAttempts - 1

/-- What holds after every step of a failing run from `start`: with a maximum of
one attempt each failure is handed over, with a larger one each is at most
returned. -/
structure Sound (start r : AckRun) : Prop where
  fresh : r.manager.Fresh messages watched
  limit : r.manager.maxAttempts = start.manager.maxAttempts
  handler : r.manager.onDeadLetter = start.manager.onDeadLetter
  handed : handedCount messages watched r.handed =
    if start.manager.maxAttempts = 1 ∧ start.manager.onDeadLetter = true then r.failures else 0
  returned : returnedCount messages watched r.returned ≤
    if start.manager.maxAttempts = 1 then 0 else r.failures

variable {messages watched} {start r : AckRun}

theorem Start.sound (start : r.Start) : r.Sound messages watched r where
  fresh := by
    constructor <;> intros <;> simp_all [start.pending]
  limit := rfl
  handler := rfl
  handed := by simp [start.handed, start.failures, handedCount]
  returned := by simp [start.returned, returnedCount]

theorem Sound.failed (sound : start.Sound messages watched r) {letters : DeadLetters}
    {returned : List MessageRef} {after : AckManager}
    (settled : r.manager.Settled messages watched letters returned after) :
    start.Sound messages watched (r.failed watched letters returned after) := by
  refine ⟨sound.fresh.settled settled, settled.limit.trans sound.limit,
    settled.handler.trans sound.handler, ?_, ?_⟩
  · have before := sound.handed
    have now := settled.handed
    rw [sound.limit, sound.handler] at now
    unfold handedCount at before now ⊢
    simp only [AckRun.failed, List.countP_append, before, now]
    split_ifs <;> rfl
  · have before := sound.returned
    have now := settled.returned
    rw [sound.limit] at now
    unfold returnedCount at before now ⊢
    simp only [AckRun.failed, List.countP_append]
    split_ifs at before now ⊢ <;> omega

/-- A record that is written while none was there starts at one attempt. -/
theorem Sound.track (sound : start.Sound messages watched r) (sentAt now : Timestamp)
    {m : MessageRef} (consumerId : String) (timeout : Option Timestamp)
    (absent : (messages m).id = watched → r.manager.pending.contains watched = false) :
    start.Sound messages watched
      { r with manager := r.manager.track messages sentAt now m consumerId timeout } := by
  refine ⟨⟨fun id pending found => ?_, fun pending found => ?_⟩, sound.limit, sound.handler,
    sound.handed, sound.returned⟩
  · simp only [AckManager.track, Dict.get?_set] at found
    split at found
    · next same =>
        cases found
        exact ⟨same.symm, rfl⟩
    · exact sound.fresh.keyed id pending found
  · simp only [AckManager.track, Dict.get?_set] at found
    split at found
    · next same =>
        have empty := absent same.symm
        rw [Dict.contains, Option.isSome_eq_false_iff, Option.isNone_iff_eq_none, same] at empty
        cases found
        simp [empty]
    · exact sound.fresh.first pending found

theorem Sound.acknowledge (sound : start.Sound messages watched r) (messageId : String) :
    start.Sound messages watched { r with manager := (r.manager.acknowledge messageId).2 } := by
  unfold AckManager.acknowledge
  split
  · have kept : ∀ id pending, (r.manager.pending.erase messageId).get? id = some pending →
        r.manager.pending.get? id = some pending :=
      fun id pending found => (Dict.get?_erase_eq_some_iff.mp found).2
    exact ⟨⟨fun id pending found => sound.fresh.keyed id pending (kept id pending found),
      fun pending found => sound.fresh.first pending (kept _ pending found)⟩, sound.limit,
      sound.handler, sound.handed, sound.returned⟩
  · exact sound

theorem Sound.step (sound : start.Sound messages watched r) (pos : 1 ≤ start.manager.maxAttempts)
    {op : AckOp ε} (failing : r.Failing messages watched op) :
    start.Sound messages watched (r.step messages watched op) := by
  have pos : 1 ≤ r.manager.maxAttempts := sound.limit ▸ pos
  cases op with
  | track sentAt now m consumerId timeout => exact sound.track sentAt now consumerId timeout failing
  | acknowledge messageId => exact sound.acknowledge messageId
  | negativeAcknowledge handler messageId =>
      exact sound.failed (AckManager.negativeAcknowledge_settled sound.fresh pos messageId)
  | checkTimeouts handler now =>
      exact sound.failed (AckManager.checkTimeouts_settled sound.fresh pos now)

theorem failures_step (r : AckRun) (op : AckOp ε) :
    r.failures ≤ (r.step messages watched op).failures := by
  cases op with
  | negativeAcknowledge | checkTimeouts => exact Nat.le_add_right _ _
  | _ => exact le_refl _

/-! ## Over whole runs -/

theorem Sound.deadLettered_iff (sound : start.Sound messages watched r) :
    r.DeadLettered messages watched ↔ (start.manager.maxAttempts = 1 ∧ start.manager.onDeadLetter = true) ∨
        r.failures < start.manager.maxAttempts := by
  have handed := sound.handed
  have returned := sound.returned
  unfold DeadLettered
  rw [sound.limit, handed]
  constructor
  · rintro ⟨reached, -⟩
    by_contra! neither
    have lost := reached neither.2
    rw [if_neg fun both => neither.1 both.1 both.2] at lost
    exact absurd lost (lt_irrefl 0)
  · rintro (⟨one, set_⟩ | fewer)
    · rw [if_pos one] at returned
      rw [if_pos ⟨one, set_⟩]
      omega
    · split_ifs at returned <;> omega

/-- **A poison message reaches the handler exactly when one attempt is allowed
and a handler is set**, unless the attempts are not used up yet. -/
theorem run_deadLettered_iff (start : r.Start) (pos : 1 ≤ r.manager.maxAttempts)
    {ops : List (AckOp ε)}
    (failing : Guarded (step messages watched) (Failing messages watched) r ops) :
    (∀ before after, ops = before ++ after →
      (run (step messages watched) r before).DeadLettered messages watched) ↔
    (r.manager.maxAttempts = 1 ∧ r.manager.onDeadLetter = true) ∨
      (run (step messages watched) r ops).failures < r.manager.maxAttempts := by
  have preserved : ∀ s (op : AckOp ε), r.Sound messages watched s → s.Failing messages watched op →
      r.Sound messages watched (s.step messages watched op) :=
    fun _ _ sound failing => sound.step pos failing
  constructor
  · intro lettered
    have sound := run_invariant preserved start.sound failing
    exact (sound.deadLettered_iff).mp (lettered ops [] (List.append_nil ops).symm)
  · rintro condition before after rfl
    obtain ⟨first, rest⟩ := (guarded_append r before after).mp failing
    have sound := run_invariant preserved start.sound first
    have fewer : (run (step messages watched) r before).failures ≤
        (run (step messages watched) r (before ++ after)).failures := by
      rw [run_append]
      exact run_mono failures preserved (fun s op _ _ => failures_step s op) sound rest
    rw [sound.deadLettered_iff]
    exact condition.imp_right (lt_of_le_of_lt (Int.ofNat_le.mpr fewer))

/-- A manager with a handler that allows two attempts. -/
def twoAttempts : AckRun where
  manager := { maxAttempts := 2, onDeadLetter := true }

theorem twoAttempts_start : twoAttempts.Start := ⟨rfl, rfl, rfl, rfl⟩

/-- Two messages. -/
def pairMessages : MessageTable := fun m => { topic := "t", value := [], id := toString m }

/-- A delivery of message 0 and its failure. -/
def failedDelivery : List (AckOp Unit) :=
  [.track 0 0 0 "c" none, .negativeAcknowledge (fun _ _ => none) "0"]

/-- Message 0 fails once while message 1 times out and is acknowledged later. -/
def mixedOps : List (AckOp Unit) :=
  [.track 0 0 0 "c" none, .track 0 0 1 "c" (some 5), .negativeAcknowledge (fun _ _ => none) "0",
    .checkTimeouts (fun _ _ => none) 5, .track 6 6 1 "c" none, .acknowledge "1"]

theorem mixedOps_deadLettered_iff :
    (∀ before after, mixedOps = before ++ after →
      (run (step pairMessages "0") twoAttempts before).DeadLettered pairMessages "0") ↔
    (twoAttempts.manager.maxAttempts = 1 ∧ twoAttempts.manager.onDeadLetter = true) ∨
      (run (step pairMessages "0") twoAttempts mixedOps).failures <
        twoAttempts.manager.maxAttempts :=
  run_deadLettered_iff twoAttempts_start (by decide) (by decide +kernel)

/-- With two attempts allowed, both deliveries of message 0 fail: the message is
returned twice and the handler never sees it. -/
theorem second_failure_returned :
    let ops := failedDelivery ++ failedDelivery
    let r := run (step pairMessages "0") twoAttempts ops
    Guarded (step pairMessages "0") (Failing pairMessages "0") twoAttempts ops ∧
      r.failures = 2 ∧ r.manager.maxAttempts = 2 ∧ r.manager.onDeadLetter = true ∧
      r.handed = [] ∧ r.returned = [0, 0] ∧ ¬ r.DeadLettered pairMessages "0" := by
  intro ops r
  have failures : r.failures = 2 := by decide +kernel
  have limit : r.manager.maxAttempts = 2 := by decide +kernel
  have handed : r.handed = [] := by decide +kernel
  refine ⟨by decide +kernel, failures, limit, by decide +kernel, handed, by decide +kernel, ?_⟩
  rintro ⟨reached, -⟩
  rw [failures, limit, handed] at reached
  exact absurd (reached (by decide)) (by decide)

end AckRun

end BrokerLite
