/-
# Produce.Recorded -- what a producer hands over

`Environment.recorded` is an environment that also notes every message handed to
`publish_fn`, whether that call returned, and whether `on_error` was called for it;
`counts` are what each of these messages adds to the two totals.

`Behaves` is what `publish_fn` and the callbacks would have to do for a batch.  The
loop over a batch hands over all of it and counts each message once exactly when they
do (`Sent`).
-/
import BrokerLite.Produce.Producer

namespace BrokerLite

open Theory

set_option autoImplicit false

/-- A call of `publish_fn`. -/
structure Handed where
  message : Message
  returned : Bool
  /-- `on_error` was called for the message. -/
  erred : Bool := false

/-- Counted once, under what `publish_fn` did: what this adds to the two totals. -/
def Handed.once (h : Handed) : ℕ × ℕ :=
  (h.returned.toNat, (!h.returned).toNat)

namespace Environment

variable {σ ε : Type}

/-- `on_error` is called for the message handed over last. -/
def noteError (handed : List Handed) : List Handed :=
  match handed.getLast? with
  | none => handed
  | some last => handed.dropLast ++ [{ last with erred := true }]

/-- The environment, noting what is handed over. -/
def recorded (env : Environment σ ε) : Environment (σ × List Handed) ε where
  time w := ((env.time w.1).1, (env.time w.1).2, w.2)
  uuid4 w := ((env.uuid4 w.1).1, (env.uuid4 w.1).2, w.2)
  encode := env.encode
  isException := env.isException
  publishFn := env.publishFn.map fun publish message w =>
    let done := publish message w.1
    (done.1, done.2.1, done.2.2, w.2 ++ [{ message, returned := done.1.isOk }])
  onSuccess := env.onSuccess.map fun callback metadata w =>
    let done := callback metadata w.1
    (done.1, done.2, w.2)
  onError := env.onError.map fun callback message e w =>
    let done := callback message e w.1
    (done.1, done.2, noteError w.2)

/-- `publish_fn` and the callbacks let a batch through: `publish_fn` raises nothing but an
`Exception`, and then `on_error` returns; otherwise `on_success` does.  For the last message
of the batch `on_error` may raise too, and `on_success` what is no `Exception`. -/
def Behaves (env : Environment σ ε) : List Message → σ → Prop
  | [], _ => True
  | message :: rest, s =>
      match env.publishFn with
      | none => True
      | some publish =>
          match publish message s with
          | (.ok metadata, _, s) =>
              match env.callSuccess s metadata with
              | (.ok _, s) => env.Behaves rest s
              | (.error e, _) => env.isException e = false ∧ rest = []
          | (.error e, message, s) =>
              env.isException e = true ∧
              match env.callError s message e with
              | (.ok _, s) => env.Behaves rest s
              | (.error _, _) => rest = []

variable (env : Environment σ ε) (s : σ) (handed : List Handed)

theorem behaves_cons {publish : Message → σ → Except ε RecordMetadata × Message × σ}
    (given : env.publishFn = some publish) (message : Message) (rest : List Message) :
    env.Behaves (message :: rest) s ↔
      match publish message s with
      | (.ok metadata, _, s) =>
          match env.callSuccess s metadata with
          | (.ok _, s) => env.Behaves rest s
          | (.error e, _) => env.isException e = false ∧ rest = []
      | (.error e, message, s) =>
          env.isException e = true ∧
          match env.callError s message e with
          | (.ok _, s) => env.Behaves rest s
          | (.error _, _) => rest = [] := by
  rw [Behaves, given]

theorem recorded_callSuccess (metadata : RecordMetadata) :
    env.recorded.callSuccess (s, handed) metadata =
      ((env.callSuccess s metadata).1, (env.callSuccess s metadata).2, handed) := by
  unfold callSuccess recorded
  cases env.onSuccess <;> rfl

theorem recorded_callError (last : Handed) (fresh : last.erred = false) (message : Message) (e : ε) :
    env.recorded.callError (s, handed ++ [last]) message e =
      ((env.callError s message e).1, (env.callError s message e).2,
        handed ++ [{ last with erred := env.onError.isSome }]) := by
  unfold callError recorded
  cases env.onError with
  | none =>
      cases last
      simp only at fresh
      simp [fresh]
  | some callback => simp [noteError]

end Environment

/-! ## Callbacks that do not raise -/

namespace Environment

variable {σ ε : Type} {env : Environment σ ε}

/-- `publish_fn` raises nothing but an `Exception`, and no callback raises. -/
structure Quiet (env : Environment σ ε) : Prop where
  publish : ∀ publish, env.publishFn = some publish →
    ∀ message s e, (publish message s).1 = .error e → env.isException e = true
  success : ∀ s metadata, (env.callSuccess s metadata).1 = .ok ()
  error : ∀ s message e, (env.callError s message e).1 = .ok ()

theorem Quiet.behaves (quiet : env.Quiet) (batch : List Message) (s : σ) : env.Behaves batch s := by
  induction batch generalizing s with
  | nil => trivial
  | cons message rest ih =>
      cases given : env.publishFn with
      | none => simp [Behaves, given]
      | some publish =>
          have excepted := quiet.publish publish given message s
          rw [env.behaves_cons s given]
          generalize publish message s = done at excepted ⊢
          rcases done with ⟨e | metadata, left, t⟩
          · have returned := quiet.error t left e
            refine ⟨excepted e rfl, ?_⟩
            rcases called : env.callError t left e with ⟨_ | _, u⟩
            · rw [called] at returned
              cases returned
            · exact ih u
          · have returned := quiet.success t metadata
            dsimp only
            rcases called : env.callSuccess t metadata with ⟨_ | _, u⟩
            · rw [called] at returned
              cases returned
            · exact ih u

theorem Quiet.recorded (quiet : env.Quiet) : env.recorded.Quiet := by
  refine ⟨fun publish given message w e raised => ?_, fun w metadata => ?_, fun w message e => ?_⟩
  · obtain ⟨inner, own, rfl⟩ := Option.map_eq_some_iff.mp given
    exact quiet.publish inner own message w.1 e raised
  · rw [recorded_callSuccess]
    exact quiet.success w.1 metadata
  · have returned := quiet.error w.1 message e
    unfold callError at returned ⊢
    cases callback : env.onError with
    | none => simp [Environment.recorded, callback]
    | some f => simpa [Environment.recorded, callback] using returned

end Environment

namespace Producer

variable {σ ε : Type} {env : Environment σ ε}

/-! ## One message -/

/-- What the messages of a batch add to the two totals, each by itself, as far as the loop gets. -/
def counts (env : Environment σ ε) (p : Producer) (s : σ) : List Message → List (ℕ × ℕ)
  | [] => []
  | message :: rest =>
      match p.doSend env s message with
      | (.error _, q, _) => [(q.totalSent - p.totalSent, q.totalErrors - p.totalErrors)]
      | (.ok _, q, t) =>
          (q.totalSent - p.totalSent, q.totalErrors - p.totalErrors) :: counts env q t rest

/-- The producer after its totals grew. -/
def counting (p : Producer) (cs : List (ℕ × ℕ)) : Producer :=
  { p with totalSent := p.totalSent + (cs.map Prod.fst).sum,
           totalErrors := p.totalErrors + (cs.map Prod.snd).sum }

theorem counting_cons (p : Producer) (c : ℕ × ℕ) (cs : List (ℕ × ℕ)) :
    p.counting (c :: cs) = (p.counting [c]).counting cs := by
  simp [counting, Nat.add_assoc]

theorem failed_recorded (p : Producer) (s : σ) (handed : List Handed) (last : Handed)
    (fresh : last.erred = false) (message : Message) (e : ε) :
    p.failed env.recorded (s, handed ++ [last]) message e =
      if env.isException e then
        ((env.callError s message e).1.map fun _ => none, p.counting [(0, 1)],
          (env.callError s message e).2, handed ++ [{ last with erred := env.onError.isSome }])
      else (.error e, p, s, handed ++ [last]) := by
  unfold failed
  rw [env.recorded_callError s handed last fresh]
  rcases env.callError s message e with ⟨_ | _, t⟩ <;> rfl

/-- **One message is handed over.**  It is counted as sent when `publish_fn` returned, and
as an error when that or the success callback raised an `Exception`. -/
theorem doSend_recorded (given : env.publishFn ≠ none) (p : Producer) (s : σ) (handed : List Handed)
    (message : Message) :
    let done := p.doSend env.recorded (s, handed) message
    ∃ h errors, h.message = message ∧ done.2.1 = p.counting [(h.returned.toNat, errors)] ∧
      done.2.2.2 = handed ++ [h] ∧
      ∀ rest, env.Behaves (message :: rest) s ↔
        (match done.1 with
          | .ok _ => env.Behaves rest done.2.2.1
          | .error _ => rest = []) ∧
        errors = (!h.returned).toNat ∧ (h.erred = true → h.returned = false) := by
  obtain ⟨publish, given⟩ := Option.ne_none_iff_exists'.mp given
  have noted : env.recorded.publishFn = some fun message w => ((publish message w.1).1,
      (publish message w.1).2.1, (publish message w.1).2.2,
      w.2 ++ [⟨message, (publish message w.1).1.isOk, false⟩]) := by
    simp [Environment.recorded, given]
  unfold doSend
  simp only [noted, env.behaves_cons s given]
  rcases publish message s with ⟨e | metadata, left, t⟩
  · -- `publish_fn` raised
    simp only [failed_recorded p t handed ⟨message, Except.isOk (.error e), false⟩ rfl left e]
    cases env.isException e with
    | false => exact ⟨⟨message, false, false⟩, 0, rfl, rfl, rfl, fun rest => by simp⟩
    | true =>
        refine ⟨⟨message, false, env.onError.isSome⟩, 1, rfl, rfl, rfl, fun rest => ?_⟩
        rcases env.callError t left e with ⟨raised | _, u⟩ <;> simp [Except.map]
  · simp only [env.recorded_callSuccess]
    rcases env.callSuccess t metadata with ⟨e | _, u⟩
    · -- the success callback raised
      dsimp only
      rw [failed_recorded _ u handed ⟨message, Except.isOk (.ok metadata), false⟩ rfl left e]
      cases env.isException e with
      | false => exact ⟨⟨message, true, false⟩, 0, rfl, rfl, rfl, fun rest => by simp⟩
      | true => exact ⟨⟨message, true, env.onError.isSome⟩, 1, rfl, rfl, rfl, fun rest => by simp⟩
    · exact ⟨⟨message, true, false⟩, 0, rfl, rfl, rfl, fun rest => by simp⟩

/-! ## A batch -/

/-- A batch was handed over, up to some message: `hs` was noted, and nothing but the totals
of the producer grew, by `cs`.  Everything went well exactly when `good` holds. -/
structure Sent (p : Producer) (before : List Handed) (batch : List Message) (good : Prop) (p' : Producer)
    (after : List Handed) (hs : List Handed) (cs : List (ℕ × ℕ)) : Prop where
  handed : after = before ++ hs
  inOrder : hs.map Handed.message <+: batch
  frame : p' = p.counting cs
  sent : cs.map Prod.fst = hs.map fun h => h.returned.toNat
  exact_ : good ↔ hs.map Handed.message = batch ∧ cs = hs.map Handed.once ∧
    ∀ h ∈ hs, h.erred = true → h.returned = false

namespace Sent

variable {p p' : Producer} {before after hs : List Handed} {batch : List Message} {good : Prop}
  {cs : List (ℕ × ℕ)}

theorem congr {good' : Prop} (sent : Sent p before batch good p' after hs cs) (same : good' ↔ good) :
    Sent p before batch good' p' after hs cs :=
  ⟨sent.handed, sent.inOrder, sent.frame, sent.sent, same.trans sent.exact_⟩

/-- The loop ends here. -/
theorem stop (p : Producer) (before : List Handed) (batch : List Message) :
    Sent p before batch (batch = []) p before [] [] where
  handed := by simp
  inOrder := List.nil_prefix ..
  frame := rfl
  sent := rfl
  exact_ := ⟨fun empty => ⟨empty.symm, rfl, by simp⟩, fun done => done.1.symm⟩

/-- One message before the others: it adds `errors` to the errors. -/
theorem cons (first : Handed) (errors : ℕ)
    (later : Sent (p.counting [(first.returned.toNat, errors)]) (before ++ [first]) batch good p' after hs
      cs) :
    Sent p before (first.message :: batch)
      (good ∧ errors = (!first.returned).toNat ∧ (first.erred = true → first.returned = false))
      p' after (first :: hs) ((first.returned.toNat, errors) :: cs) := by
  refine ⟨?_, ?_, ?_, ?_, ?_⟩
  · rw [later.handed, List.append_assoc, List.singleton_append]
  · simpa using later.inOrder
  · rw [counting_cons]
    exact later.frame
  · simpa using later.sent
  · rw [later.exact_]
    simp only [List.map_cons, List.cons.injEq, true_and, List.forall_mem_cons, Handed.once,
      Prod.mk.injEq]
    constructor
    · rintro ⟨⟨all, exactly, others⟩, one, here⟩
      exact ⟨all, ⟨one, exactly⟩, here, others⟩
    · rintro ⟨all, ⟨one, exactly⟩, here, others⟩
      exact ⟨⟨all, exactly, others⟩, one, here⟩

end Sent

/-- **The loop over a batch.** -/
theorem sendAll_sent (given : env.publishFn ≠ none) (p : Producer) (s : σ) (before : List Handed)
    (last : Option RecordMetadata) (batch : List Message) :
    let done := p.sendAll env.recorded (s, before) last batch
    ∃ hs, Sent p before batch (env.Behaves batch s) done.2.1 done.2.2.2 hs
      (p.counts env.recorded (s, before) batch) := by
  induction batch generalizing p s before last with
  | nil => exact ⟨[], (Sent.stop p before []).congr (by simp [Environment.Behaves])⟩
  | cons message rest ih =>
      obtain ⟨h, errors, rfl, counted, noted, behaves⟩ := doSend_recorded given p s before message
      rw [sendAll, counts]
      generalize p.doSend env.recorded (s, before) h.message = done at counted noted behaves ⊢
      obtain ⟨result, q, t, after⟩ := done
      dsimp only at counted noted behaves
      subst counted noted
      have added : ((p.counting [(h.returned.toNat, errors)]).totalSent - p.totalSent,
          (p.counting [(h.returned.toNat, errors)]).totalErrors - p.totalErrors) =
          (h.returned.toNat, errors) := by simp [counting]
      cases result with
      | error e =>
          dsimp only
          rw [added]
          exact ⟨_, (Sent.cons (p := p) h errors (.stop _ _ rest)).congr (behaves rest)⟩
      | ok result =>
          obtain ⟨hs, later⟩ := ih _ t _ (result.or last)
          dsimp only
          rw [added]
          exact ⟨_, (Sent.cons (p := p) h errors later).congr (behaves rest)⟩

/-! ## A message is accepted -/

theorem accept_recorded (p : Producer) (s : σ) (before : List Handed) (args : SendArgs) :
    p.accept env.recorded (s, before) args =
      (p.accept env s args).map fun taken => (taken.1, taken.2.1, taken.2.2, before) := by
  unfold accept
  split
  · rfl
  · have same : env.recorded.encode = env.encode := rfl
    rw [same]
    cases args.value.encoded env.encode <;> rfl

theorem buffer_recorded (p : Producer) (s : σ) (before : List Handed) (message : Message) :
    p.buffer env.recorded (s, before) message = ((p.buffer env s message).1,
      (p.buffer env s message).2.1, (p.buffer env s message).2.2, before) := by
  unfold buffer
  dsimp only
  split <;> rfl

/-- A message is accepted while the producer is open.  It carries the number that the
producer is at, if it numbers them. -/
theorem accept_spec {p q : Producer} {s t : σ} {args : SendArgs} {message : Message}
    (accepted : p.accept env s args = .ok (message, q, t)) :
    p.closed = false ∧ q = { p with sequenceNumber := q.sequenceNumber } ∧
    (p.config.enableIdempotence = true →
      message.sequenceNumber = p.sequenceNumber ∧ q.sequenceNumber = p.sequenceNumber + 1) := by
  unfold accept numbered at accepted
  split at accepted
  · cases accepted
  · next opened =>
      refine ⟨by simpa using opened, ?_⟩
      split at accepted
      · cases accepted
      · cases numbering : p.config.enableIdempotence <;> simp [numbering] at accepted <;>
          obtain ⟨rfl, rfl, -⟩ := accepted <;> simp

/-- The message names the topic and the partition that the call names. -/
theorem accept_labels {p q : Producer} {s t : σ} {args : SendArgs} {message : Message}
    (accepted : p.accept env s args = .ok (message, q, t)) :
    message.topic = args.topic ∧ message.partition = args.partition := by
  unfold accept numbered at accepted
  split at accepted
  · cases accepted
  · split at accepted
    · cases accepted
    · cases numbering : p.config.enableIdempotence <;> simp [numbering, Producer.message] at accepted <;>
        obtain ⟨rfl, -⟩ := accepted <;> exact ⟨rfl, rfl⟩

/-- The message is behind the others, and if the batch is not due it is not complete. -/
theorem buffer_spec (env : Environment σ ε) (p : Producer) (s : σ) (message : Message) :
    (p.buffer env s message).2.1 = { p with batch := p.batch ++ [message] } ∧
    ((p.buffer env s message).1 = false → p.batch.length + 1 < p.config.batchSize) := by
  unfold buffer
  dsimp only
  split
  · exact ⟨rfl, by simp⟩
  · next short =>
      refine ⟨rfl, fun _ => ?_⟩
      rw [List.length_append, List.length_singleton] at short
      omega

end Producer

end BrokerLite
