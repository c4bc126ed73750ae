/-
# Produce.Upkeep -- what a producer's calls keep of the world

The producer reaches the world only through its `Environment`.  What the clock, the
ids, the callbacks and `publish_fn` keep (`Keeps`), every call of the producer keeps,
as long as the messages it accepted are ones that `publish_fn` may be given.
-/
import BrokerLite.Produce.InOrder

namespace BrokerLite

open Theory

set_option autoImplicit false

variable {σ ε : Type}

/-- All that the producer calls keeps `J`, when it publishes messages with `P` only. -/
structure Environment.Keeps (env : Environment σ ε) (P : Message → Prop) (J : σ → Prop) : Prop where
  time : ∀ s, J s → J (env.time s).2
  uuid4 : ∀ s, J s → J (env.uuid4 s).2
  publish : ∀ publish, env.publishFn = some publish →
    ∀ message s, P message → J s → J (publish message s).2.2
  success : ∀ s metadata, J s → J (env.callSuccess s metadata).2
  error : ∀ s message e, J s → J (env.callError s message e).2

namespace Producer

variable {env : Environment σ ε} {P : Message → Prop} {J : σ → Prop}

theorem failed_keeps (keeps : env.Keeps P J) (p : Producer) {s : σ} (before : J s) (message : Message)
    (e : ε) : J (p.failed env s message e).2.2 := by
  have called := keeps.error s message e before
  unfold failed
  split
  · generalize env.callError s message e = outcome at called ⊢
    rcases outcome with ⟨_ | _, t⟩ <;> exact called
  · exact before

theorem doSend_keeps (keeps : env.Keeps P J) (p : Producer) {s : σ} (before : J s) {message : Message}
    (fine : P message) : J (p.doSend env s message).2.2 := by
  unfold doSend
  split
  · exact keeps.time s before
  · next publish given =>
      have published := keeps.publish publish given message s fine before
      generalize publish message s = done at published ⊢
      rcases done with ⟨e | metadata, left, t⟩
      · exact failed_keeps keeps p published left e
      · have called := keeps.success t metadata published
        dsimp only
        generalize env.callSuccess t metadata = outcome at called ⊢
        rcases outcome with ⟨e | _, u⟩
        · exact failed_keeps keeps _ called left e
        · exact called

theorem sendAll_keeps (keeps : env.Keeps P J) (p : Producer) {s : σ} (before : J s)
    (last : Option RecordMetadata) {batch : List Message} (fine : ∀ message ∈ batch, P message) :
    J (p.sendAll env s last batch).2.2 := by
  induction batch generalizing p s last with
  | nil => exact before
  | cons message rest ih =>
      have sent := doSend_keeps keeps p before (fine message List.mem_cons_self)
      have later : ∀ message ∈ rest, P message := fun _ member => fine _ (List.mem_cons_of_mem _ member)
      rw [sendAll]
      generalize p.doSend env s message = done at sent ⊢
      rcases done with ⟨_ | result, q, t⟩
      · exact sent
      · exact ih q sent _ later

theorem accept_keeps (keeps : env.Keeps P J) {p q : Producer} {s t : σ} (before : J s) {args : SendArgs}
    {message : Message} (accepted : p.accept env s args = .ok (message, q, t)) : J t := by
  have built : J (env.time (env.uuid4 s).2).2 := keeps.time _ (keeps.uuid4 s before)
  unfold accept at accepted
  split at accepted
  · cases accepted
  · split at accepted
    · cases accepted
    · obtain ⟨-, -, rfl⟩ := accepted
      exact built

theorem sending_keeps (keeps : env.Keeps P J) (p : Producer) {s : σ} (before : J s) (op : ProducerOp) :
    J (p.sending env s op).2.1 := by
  have flushing : J (if p.batch = [] then (p, s, []) else p.taken env s).2.1 := by
    split
    · exact before
    · exact keeps.time s before
  cases op with
  | flush => exact flushing
  | close => exact flushing
  | send args =>
      unfold sending
      dsimp only
      rcases accepted : p.accept env s args with e | ⟨message, q, t⟩
      · exact before
      · have clocked : J t := accept_keeps keeps before accepted
        have buffered : J (q.buffer env t message).2.2 := by
          unfold buffer
          dsimp only
          split
          · exact clocked
          · exact keeps.time t clocked
        dsimp only
        split
        · exact clocked
        · generalize q.buffer env t message = left at buffered ⊢
          obtain ⟨_ | _, q', u⟩ := left
          · exact buffered
          · exact keeps.time u buffered

/-- **What the environment keeps, a call keeps.** -/
theorem call_keeps (keeps : env.Keeps P J) (p : Producer) {s : σ} (before : J s) {op : ProducerOp}
    (fine : ∀ message ∈ (p.sending env s op).2.2, P message) : J (p.call env s op).2 := by
  obtain ⟨closed, -, called⟩ := p.call_eq env s op
  rw [called]
  exact sendAll_keeps keeps _ (sending_keeps keeps p before op) none fine

/-- With quiet callbacks `close` returns. -/
theorem close_returns (quiet : env.Quiet) (p : Producer) (s : σ) : (p.close env s).1 = .ok () := by
  obtain ⟨result, sent⟩ := sendAll_quiet quiet { p with batch := [], lastFlush := (env.time s).1 }
    (env.time s).2 none p.batch
  have flushed : ∃ results, (p.flush env s).1 = .ok results := by
    rw [flush_eq]
    split
    · exact ⟨_, rfl⟩
    · exact ⟨_, congrArg (Except.map Option.toList) sent⟩
  obtain ⟨results, flushed⟩ := flushed
  unfold close
  generalize p.flush env s = done at flushed ⊢
  rcases done with ⟨e | _, q, t⟩
  · cases flushed
  · rfl

end Producer

namespace ProducerRun

variable {env : Environment σ ε} {P : Message → Prop} {J : σ × List Handed → Prop} {r : ProducerRun σ}
  {config : ProducerConfig} {op : ProducerOp}

/-- The call accepts messages with `P` only. -/
def Offers (env : Environment σ ε) (P : Message → Prop) (r : ProducerRun σ) (op : ProducerOp) : Prop :=
  ∀ message ∈ r.accepts env op, P message

theorem accepted_step (offers : r.Offers env P op) (fine : ∀ message ∈ r.accepted, P message) :
    ∀ message ∈ (r.step env op).accepted, P message := by
  intro message member
  rcases List.mem_append.mp member with old | new
  · exact fine message old
  · exact offers message new

/-- What the environment keeps, a call keeps, together with what it notes. -/
theorem Steady.step_keeps (steady : r.Steady config) (keeps : env.recorded.Keeps P J)
    (fine : ∀ message ∈ r.accepted, P message) (offers : r.Offers env P op)
    (before : J (r.world, r.handed)) : J ((r.step env op).world, (r.step env op).handed) := by
  obtain ⟨takes, -⟩ := sending_takes env r (fun single => steady.short (steady.configured ▸ single)) op
  refine Producer.call_keeps keeps r.producer before fun message member => ?_
  rw [Producer.sending_recorded] at member
  have here : message ∈ r.producer.batch ++ r.accepts env op :=
    takes.shift ▸ List.mem_append_left _ member
  rcases List.mem_append.mp here with old | new
  · exact fine message (steady.order.mem (List.mem_append_right _ old))
  · exact offers message new

end ProducerRun

end BrokerLite
