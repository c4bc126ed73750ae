/-
# Produce.InOrder -- a producer whose callbacks do not raise

While `publish_fn` raises nothing but an `Exception` and the callbacks do not raise, no
run loses a message, and every `close` closes the producer.
-/
import BrokerLite.Produce.ProducerRun

namespace BrokerLite

open Theory

set_option autoImplicit false

namespace Producer

variable {σ ε : Type} {env : Environment σ ε}

/-! ## Quiet callbacks -/

theorem failed_quiet (quiet : env.Quiet) (p : Producer) (s : σ) (message : Message) {e : ε}
    (excepted : env.isException e = true) : ∃ result, (p.failed env s message e).1 = .ok result := by
  have returned := quiet.error s message e
  unfold failed
  rw [if_pos excepted]
  rcases called : env.callError s message e with ⟨_ | _, t⟩
  · rw [called] at returned
    cases returned
  · exact ⟨none, rfl⟩

theorem doSend_quiet (quiet : env.Quiet) (p : Producer) (s : σ) (message : Message) :
    ∃ result, (p.doSend env s message).1 = .ok result := by
  unfold doSend
  split
  · exact ⟨_, rfl⟩
  · next publish given =>
      have excepted := quiet.publish publish given message s
      generalize publish message s = done at excepted ⊢
      rcases done with ⟨e | metadata, left, t⟩
      · exact failed_quiet quiet p t left (excepted e rfl)
      · have returned := quiet.success t metadata
        rcases called : env.callSuccess t metadata with ⟨_ | _, u⟩
        · rw [called] at returned
          cases returned
        · simp [called]

theorem sendAll_quiet (quiet : env.Quiet) (p : Producer) (s : σ) (last : Option RecordMetadata)
    (batch : List Message) : ∃ result, (p.sendAll env s last batch).1 = .ok result := by
  induction batch generalizing p s last with
  | nil => exact ⟨last, rfl⟩
  | cons message rest ih =>
      obtain ⟨result, returned⟩ := doSend_quiet quiet p s message
      rw [sendAll]
      rcases done : p.doSend env s message with ⟨_ | _, q, t⟩
      · rw [done] at returned
        cases returned
      · exact ih q t _

/-- With quiet callbacks `close` closes. -/
theorem close_quiet (quiet : env.Quiet) (p : Producer) (s : σ) :
    (p.close env s).2.1.closed = true := by
  have flushed : ∃ results, (p.flush env s).1 = .ok results := by
    rw [flush_eq]
    split
    · exact ⟨[], rfl⟩
    · obtain ⟨result, returned⟩ := sendAll_quiet quiet
        { p with batch := [], lastFlush := (env.time s).1 } (env.time s).2 none p.batch
      refine ⟨result.toList, ?_⟩
      show Except.map Option.toList (p.flushBatch env s).1 = _
      rw [show (p.flushBatch env s).1 = .ok result from returned]
      rfl
  unfold close
  obtain ⟨results, returned⟩ := flushed
  rcases done : p.flush env s with ⟨_ | _, q, t⟩
  · rw [done] at returned
    cases returned
  · rfl

end Producer

namespace ProducerRun

variable {σ ε : Type} {env : Environment σ ε} {r : ProducerRun σ} {config : ProducerConfig}

/-! ## Callbacks that do not raise -/

theorem step_closed (quiet : env.Quiet) (r : ProducerRun σ) : (r.step env .close).producer.closed = true :=
  Producer.close_quiet quiet.recorded r.producer (r.world, r.handed)

/-- After a `flush` or `close` nothing is buffered. -/
theorem step_flushed (env : Environment σ ε) (r : ProducerRun σ) {op : ProducerOp}
    (flushes : op = .flush ∨ op = .close) : (r.step env op).producer.batch = [] := by
  have flushed := r.producer.flush_batch env.recorded (r.world, r.handed)
  rcases flushes with rfl | rfl
  · exact flushed
  · show (r.producer.close env.recorded (r.world, r.handed)).2.1.batch = []
    unfold Producer.close
    rcases done : r.producer.flush env.recorded (r.world, r.handed) with ⟨_ | _, p, w⟩ <;>
      · rw [done] at flushed
        exact flushed

theorem run_steady (given : env.publishFn ≠ none) (steady : r.Steady config) (ops : List ProducerOp) :
    (run (step env) r ops).Steady config :=
  have preserved : ∀ (r : ProducerRun σ) op, r.Steady config → (r.step env op).Steady config :=
    fun _ op steady => steady.step given op
  run_preserves preserved steady ops

theorem quiet_noneLost (given : env.publishFn ≠ none) (quiet : env.Quiet) (steady : r.Steady config)
    (noneLost : r.NoneLost) (ops : List ProducerOp) : (run (step env) r ops).NoneLost := by
  have preserved : ∀ (r : ProducerRun σ) op, r.Steady config ∧ r.NoneLost →
      (r.step env op).Steady config ∧ (r.step env op).NoneLost := by
    rintro r op ⟨steady, noneLost⟩
    exact ⟨steady.step given op,
      (steady.step_noneLost_iff given noneLost op).mpr (obliging_of_quiet quiet r op)⟩
  exact (run_preserves preserved ⟨steady, noneLost⟩ ops).2

/-- Once closed, a producer stays closed. -/
theorem run_closed (given : env.publishFn ≠ none) (steady : r.Steady config)
    (closed : r.producer.closed = true) (ops : List ProducerOp) :
    (run (step env) r ops).producer.closed = true := by
  have preserved : ∀ (r : ProducerRun σ) op, r.Steady config ∧ r.producer.closed = true →
      (r.step env op).Steady config ∧ (r.step env op).producer.closed = true := by
    rintro r op ⟨steady, closed⟩
    obtain ⟨hs, cs, moves⟩ := steady.moves given op
    exact ⟨steady.step given op, moves.closed closed⟩
  exact (run_preserves preserved ⟨steady, closed⟩ ops).2

/-- **The producer publishes each accepted message once, in the order of the calls.**  With
callbacks that do not raise, in every run: what was handed to `publish_fn` and what is
buffered are together the accepted messages, in order; each is counted once; the buffer is
shorter than the batch size, and empty without batching and after a flush; the sequence
numbers count from 0; and a closed producer accepts nothing and does not change. -/
theorem run_in_order (given : env.publishFn ≠ none) (quiet : env.Quiet) (hex : String) (now : Timestamp)
    (producerId : Option String) (config : Option ProducerConfig) (world : σ) (ops : List ProducerOp) :
    let r := run (step env) (start hex now producerId config world) ops
    let batchSize := (config.getD {}).batchSize
    r.handed.map Handed.message ++ r.producer.batch = r.accepted ∧
    r.producer.totalSent + r.producer.totalErrors + r.producer.batch.length = r.accepted.length ∧
    (1 < batchSize → r.producer.batch.length < batchSize) ∧
    (batchSize ≤ 1 ∨ ops.getLast? = some .flush ∨ ops.getLast? = some .close → r.producer.batch = []) ∧
    ((config.getD {}).enableIdempotence = true →
      (r.handed.map Handed.message ++ r.producer.batch).map Message.sequenceNumber =
        (List.range r.accepted.length).map fun i : ℕ => (i : ℤ)) ∧
    (ProducerOp.close ∈ ops → ∀ args,
      r.producer.send env r.world args = (.error .closed, r.producer, r.world)) := by
  intro r batchSize
  have begins := start_steady hex now producerId config world
  have steady : r.Steady (config.getD {}) := run_steady given begins ops
  have noneLost : r.NoneLost := quiet_noneLost given quiet begins (start_noneLost ..) ops
  obtain ⟨all, -⟩ := steady.noneLost_iff.mp noneLost
  refine ⟨all.symm, ?_, steady.long, ?_, fun numbering => ?_, fun member args => ?_⟩
  · have size := congrArg List.length all
    have counted := List.length_eq_countP_add_countP Handed.returned (l := r.handed)
    rw [List.length_append, List.length_map] at size
    have refused : r.handed.countP (fun h => ¬ h.returned = true) =
        r.handed.countP fun h => !h.returned := by simp
    have sent := noneLost.sent
    have errors := noneLost.errors
    omega
  · rintro (small | last)
    · exact steady.short small
    · obtain ⟨op, found, flushes⟩ : ∃ op, ops.getLast? = some op ∧ (op = .flush ∨ op = .close) := by
        rcases last with last | last
        · exact ⟨_, last, .inl rfl⟩
        · exact ⟨_, last, .inr rfl⟩
      obtain ⟨before, split⟩ := List.getLast?_eq_some_iff.mp found
      show (run (step env) (start hex now producerId config world) ops).producer.batch = []
      rw [split, run_append]
      exact step_flushed env _ flushes
  · rw [← all]
    exact (steady.numbered numbering).1
  · obtain ⟨before, after, split⟩ := List.append_of_mem member
    have closed : r.producer.closed = true := by
      show (run (step env) (start hex now producerId config world) ops).producer.closed = true
      rw [split, run_append, run_cons]
      have reached := run_steady given begins before
      exact run_closed given (reached.step given .close) (step_closed quiet _) after
    simp [Producer.send, Producer.accept, closed]

/-- Messages with an empty payload are refused, the others taken; there are no callbacks. -/
def choosing : Environment ℕ String where
  time s := (s, s + 1)
  uuid4 s := (toString s, s)
  publishFn := some fun message s =>
    if message.value = [] then (.error "empty", message, s)
    else (.ok ⟨message.topic, 0, s, 0, message.id⟩, message, s)

theorem choosing_in_order :
    let ops := twoSends ++ [.close]
    let r := run (step choosing) (start "0" 0 none none 0) ops
    r.handed.map Handed.message ++ r.producer.batch = r.accepted ∧
    r.producer.totalSent + r.producer.totalErrors + r.producer.batch.length = r.accepted.length ∧
    ((1 : ℤ) < 16 → (r.producer.batch.length : ℤ) < 16) ∧
    ((16 : ℤ) ≤ 1 ∨ ops.getLast? = some .flush ∨ ops.getLast? = some .close → r.producer.batch = []) ∧
    (false = true → (r.handed.map Handed.message ++ r.producer.batch).map Message.sequenceNumber =
      (List.range r.accepted.length).map fun i : ℕ => (i : ℤ)) ∧
    (ProducerOp.close ∈ ops → ∀ args,
      r.producer.send choosing r.world args = (.error .closed, r.producer, r.world)) :=
  run_in_order (Option.some_ne_none _) ⟨fun _ _ _ _ _ _ => rfl, fun _ _ => rfl, fun _ _ _ => rfl⟩ "0" 0 none none 0 (twoSends ++ [.close])

end ProducerRun

end BrokerLite
