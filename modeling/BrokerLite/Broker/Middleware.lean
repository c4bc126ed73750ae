/-
# Broker.Middleware -- publishing through a pipeline, and deduplication

A middleware is any stateful function on messages: it may write message objects
and its own state, raise, drop the message, or pass one on, the same object or
another.  `publishThrough` is `Broker.publish` with its pipeline.

`DeduplicationMiddleware` remembers an id when it lets a message through, before
the later stages and the append have taken it.  `PipelineRun.run_drops_published_iff`
says in which runs it drops only what was published.
-/
import BrokerLite.Broker.Atomicity

namespace BrokerLite

open Theory

set_option autoImplicit false

/-- What a middleware does with a message: its state and the message objects are
read and written, and a message is passed on, or dropped (`none`). -/
abbrev Process (σ : Type) :=
  σ → MessageTable → MessageRef → Except Raised (Option MessageRef) × σ × MessageTable

namespace MiddlewarePipeline

def process {σ : Type} : List (Process σ) → Process σ
  | [], state, messages, m => (.ok (some m), state, messages)
  | middleware :: rest, state, messages, m =>
      match middleware state messages m with
      | (.error raised, state, messages) => (.error raised, state, messages)
      | (.ok none, state, messages) => (.ok none, state, messages)
      | (.ok (some m), state, messages) => process rest state messages m

end MiddlewarePipeline

namespace Broker

def withMessages (b : Broker) (messages : MessageTable) : Broker :=
  { b with toStore := { b.toStore with messages } }

/-- `Broker.publish`: the pipeline, then the topic. -/
def publishThrough {σ : Type} (enc : Encoding) (now : Timestamp) (pipeline : List (Process σ))
    (state : σ) (b : Broker) (m : MessageRef) : Except Raised RecordMetadata × σ × Broker :=
  match MiddlewarePipeline.process pipeline state b.messages m with
  | (.error raised, state, messages) => (.error raised, state, b.withMessages messages)
  | (.ok none, state, messages) =>
      (.error (.valueError .filteredByMiddleware), state, b.withMessages messages)
  | (.ok (some m), state, messages) =>
      let done := (b.withMessages messages).publish enc now m
      (done.1, state, done.2)

end Broker

/-! ## Deduplication -/

structure DeduplicationMiddleware where
  windowSize : ℤ := 10000
  seen : Finset String := ∅
  order : List String := []
  duplicateCount : ℕ := 0

namespace DeduplicationMiddleware

/-- The loop that forgets the oldest ids; it pops from an empty list when the
window size is negative. -/
def trim (windowSize : ℤ) : List String → Finset String →
    Except Raised Unit × List String × Finset String
  | [], seen => (if windowSize < 0 then .error .indexError else .ok (), [], seen)
  | oldId :: order, seen =>
      if windowSize < (oldId :: order).length then trim windowSize order (seen.erase oldId)
      else (.ok (), oldId :: order, seen)

/-- Whether a message of that id is let through. -/
def process (d : DeduplicationMiddleware) (id : String) : Except Raised Bool × DeduplicationMiddleware :=
  if id ∈ d.seen then (.ok false, { d with duplicateCount := d.duplicateCount + 1 })
  else
    let trimmed := trim d.windowSize (d.order ++ [id]) (insert id d.seen)
    (trimmed.1.map fun _ => true, { d with order := trimmed.2.1, seen := trimmed.2.2 })

/-- The order lists what was seen, each once. -/
structure Sound (d : DeduplicationMiddleware) : Prop where
  seen : d.seen = d.order.toFinset
  nodup : d.order.Nodup

theorem trim_spec (windowSize : ℤ) {order : List String} {seen : Finset String}
    (same : seen = order.toFinset) (nodup : order.Nodup) :
    (trim windowSize order seen).2.1 <:+ order ∧
      (trim windowSize order seen).2.2 = (trim windowSize order seen).2.1.toFinset ∧
      (windowSize ≤ 0 → (trim windowSize order seen).2.1 = []) ∧
      (0 < windowSize → (trim windowSize order seen).1 = .ok () ∧
        (order ≠ [] → (trim windowSize order seen).2.1 ≠ [])) := by
  induction order generalizing seen with
  | nil =>
      refine ⟨List.suffix_rfl, same, fun _ => rfl, fun positive => ⟨?_, fun some_ => absurd rfl some_⟩⟩
      exact if_neg (by omega)
  | cons oldId order ih =>
      obtain ⟨absent, nodup⟩ := List.nodup_cons.mp nodup
      have rest : seen.erase oldId = order.toFinset := by
        rw [same, List.toFinset_cons, Finset.erase_insert (by simpa using absent)]
      rw [trim]
      split
      · next long =>
          obtain ⟨suffix, seen', emptied, kept⟩ := ih rest nodup
          refine ⟨suffix.trans (List.suffix_cons ..), seen', emptied, fun positive => ?_⟩
          obtain ⟨ok, nonempty⟩ := kept positive
          refine ⟨ok, fun _ => nonempty ?_⟩
          rintro rfl
          simp at long
          omega
      · next short =>
          refine ⟨List.suffix_rfl, same, fun window => ?_, fun _ => ⟨rfl, fun _ => List.cons_ne_nil _ _⟩⟩
          simp at short
          omega

/-- It drops exactly what it has seen. -/
theorem process_drops_iff {d : DeduplicationMiddleware} {id : String} :
    (d.process id).1 = .ok false ↔ id ∈ d.seen := by
  unfold process
  split
  · next seen => exact iff_of_true rfl seen
  · next new =>
      refine iff_of_false (fun dropped => ?_) new
      cases trimmed : (trim d.windowSize (d.order ++ [id]) (insert id d.seen)).1 <;>
        simp [trimmed, Except.map] at dropped

/-- The order with a new id at its end. -/
theorem Sound.append {d : DeduplicationMiddleware} (sound : d.Sound) {id : String} (new : id ∉ d.seen) :
    insert id d.seen = (d.order ++ [id]).toFinset ∧ (d.order ++ [id]).Nodup := by
  have absent : id ∉ d.order := by simpa [sound.seen] using new
  constructor
  · rw [sound.seen, List.toFinset_append, List.toFinset_cons, List.toFinset_nil, insert_empty_eq,
      Finset.union_comm, Finset.insert_eq]
  · rw [List.nodup_append]
    refine ⟨sound.nodup, List.nodup_singleton id, fun x member y last => ?_⟩
    rw [List.mem_singleton.mp last]
    rintro rfl
    exact absent member

theorem Sound.process {d : DeduplicationMiddleware} (sound : d.Sound) (id : String) :
    (d.process id).2.Sound ∧ (d.process id).2.windowSize = d.windowSize := by
  unfold DeduplicationMiddleware.process
  split
  · exact ⟨⟨sound.seen, sound.nodup⟩, rfl⟩
  · next new =>
      obtain ⟨same, nodup⟩ := sound.append new
      obtain ⟨suffix, seen, -⟩ := trim_spec d.windowSize same nodup
      exact ⟨⟨seen, suffix.sublist.nodup nodup⟩, rfl⟩

/-- What a message of a new id leaves: with room in the window its id is
remembered and the message let through, without room nothing is remembered. -/
theorem process_new {d : DeduplicationMiddleware} (sound : d.Sound) {id : String} (new : id ∉ d.seen) :
    (∀ x ∈ (d.process id).2.seen, x = id ∨ x ∈ d.seen) ∧
      (d.windowSize ≤ 0 → (d.process id).2.seen = ∅) ∧
      (0 < d.windowSize → (d.process id).1 = .ok true ∧ id ∈ (d.process id).2.seen) := by
  obtain ⟨same, nodup⟩ := sound.append new
  obtain ⟨suffix, seen, emptied, kept⟩ := trim_spec d.windowSize same nodup
  rw [process, if_neg new]
  refine ⟨fun x member => ?_, fun window => ?_, fun window => ?_⟩
  · have member : x ∈ (trim d.windowSize (d.order ++ [id]) (insert id d.seen)).2.2 := member
    rw [seen, List.mem_toFinset] at member
    have member := suffix.subset member
    rw [sound.seen, List.mem_toFinset]
    simpa [or_comm] using member
  · show (trim d.windowSize (d.order ++ [id]) (insert id d.seen)).2.2 = ∅
    rw [seen, emptied window, List.toFinset_nil]
  · obtain ⟨ok, nonempty⟩ := kept window
    refine ⟨by simp [ok, Except.map], ?_⟩
    show id ∈ (trim d.windowSize (d.order ++ [id]) (insert id d.seen)).2.2
    rw [seen, List.mem_toFinset]
    -- what is left is a nonempty end of the order, and the new id stands last
    have left := nonempty (List.concat_ne_nil id d.order)
    have last := suffix.getLast left
    rw [List.getLast_append_singleton] at last
    have member := List.getLast_mem left
    rwa [last] at member

end DeduplicationMiddleware

/-! ## Runs of publishing -/

structure PipelineRun (σ : Type) where
  broker : Broker
  deduplication : DeduplicationMiddleware := {}
  /-- The state of all other middlewares. -/
  others : σ
  /-- The ids that passed deduplication in a publish that returned. -/
  published : List String := []

inductive PipelineOp where
  | publish (now : Timestamp) (m : MessageRef)
  /-- Whatever happens to the broker and to message objects between two publishes. -/
  | between (change : Broker → Broker)

namespace PipelineRun

section Stages

variable {σ : Type}

/-- Another middleware of the pipeline. -/
def other (middleware : Process σ) : Process (DeduplicationMiddleware × σ) :=
  fun state messages m =>
    let done := middleware state.2 messages m
    (done.1, (state.1, done.2.1), done.2.2)

def deduplicate : Process (DeduplicationMiddleware × σ) := fun state messages m =>
  let done := state.1.process (messages m).id
  (done.1.map fun passed => if passed then some m else none, (done.2, state.2), messages)

def pipeline (before after : List (Process σ)) : List (Process (DeduplicationMiddleware × σ)) :=
  before.map other ++ deduplicate :: after.map other

theorem process_other (stages : List (Process σ)) (d : DeduplicationMiddleware) (others : σ)
    (messages : MessageTable) (m : MessageRef) :
    MiddlewarePipeline.process (stages.map other) (d, others) messages m =
      let done := MiddlewarePipeline.process stages others messages m
      (done.1, (d, done.2.1), done.2.2) := by
  induction stages generalizing others messages m with
  | nil => rfl
  | cons middleware rest ih =>
      rcases sent : middleware others messages m with ⟨raised | _ | m₁, others₁, messages₁⟩ <;>
        simp [MiddlewarePipeline.process, other, sent, ih]

theorem process_append {τ : Type} (first second : List (Process τ)) (state : τ) (messages : MessageTable)
    (m : MessageRef) : MiddlewarePipeline.process (first ++ second) state messages m =
      match MiddlewarePipeline.process first state messages m with
      | (.error raised, state, messages) => (.error raised, state, messages)
      | (.ok none, state, messages) => (.ok none, state, messages)
      | (.ok (some m), state, messages) => MiddlewarePipeline.process second state messages m := by
  induction first generalizing state messages m with
  | nil => rfl
  | cons middleware rest ih =>
      rcases sent : middleware state messages m with ⟨raised | _ | m₁, state₁, messages₁⟩ <;>
        simp [MiddlewarePipeline.process, sent, ih]

end Stages

section Run

variable {σ : Type} (enc : Encoding) (before after : List (Process σ))

/-- The message as it reaches the deduplication step, if it does. -/
def offered (r : PipelineRun σ) (m : MessageRef) : Option (MessageRef × σ × MessageTable) :=
  match MiddlewarePipeline.process before r.others r.broker.messages m with
  | (.ok (some m), others, messages) => some (m, others, messages)
  | _ => none

def step (r : PipelineRun σ) : PipelineOp → PipelineRun σ
  | .publish now m =>
      let done := r.broker.publishThrough enc now (pipeline before after) (r.deduplication, r.others) m
      { broker := done.2.2
        deduplication := done.2.1.1
        others := done.2.1.2
        published := match done.1, r.offered before m with
          | .ok _, some (m, _, messages) => r.published ++ [(messages m).id]
          | _, _ => r.published }
  | .between change => { r with broker := change r.broker }

/-- Deduplication drops only what was published: a message it would drop now
carries the id of an earlier one whose publish returned. -/
def DropsPublished (r : PipelineRun σ) : Prop :=
  ∀ id, (r.deduplication.process id).1 = .ok false → id ∈ r.published

/-- A message that deduplication is about to remember is passed on by the later
stages and taken by the broker, unless its id was published before. -/
def Carried (r : PipelineRun σ) : PipelineOp → Prop
  | .publish _ m => 0 < r.deduplication.windowSize →
      ∀ m₁ others messages, r.offered before m = some (m₁, others, messages) →
        (messages m₁).id ∉ r.deduplication.seen → (messages m₁).id ∉ r.published →
          ∃ m₂ others' messages',
            MiddlewarePipeline.process after others messages m₁ = (.ok (some m₂), others', messages') ∧
              (r.broker.withMessages messages').Takes enc m₂
  | .between _ => True

variable {enc before after} {r : PipelineRun σ}

theorem dropsPublished_iff : r.DropsPublished ↔ ∀ id ∈ r.deduplication.seen, id ∈ r.published := by
  simp only [DropsPublished, DeduplicationMiddleware.process_drops_iff]

/-- A message that does not reach deduplication leaves it as it is. -/
theorem step_not_offered (enc : Encoding) (after : List (Process σ)) (now : Timestamp)
    {m : MessageRef} (gone : r.offered before m = none) :
    (r.step enc before after (.publish now m)).deduplication = r.deduplication ∧
      (r.step enc before after (.publish now m)).published = r.published := by
  have missing := gone
  unfold offered at missing
  rcases sent : MiddlewarePipeline.process before r.others r.broker.messages m with
    ⟨raised | _ | m₁, others₁, messages₁⟩ <;> rw [sent] at missing
  · simp [step, Broker.publishThrough, pipeline, process_append, process_other, sent]
  · simp [step, Broker.publishThrough, pipeline, process_append, process_other, sent]
  · cases missing

theorem process_of_offered {m m₁ : MessageRef} {others : σ} {messages : MessageTable}
    (reached : r.offered before m = some (m₁, others, messages)) :
    MiddlewarePipeline.process before r.others r.broker.messages m =
      (.ok (some m₁), others, messages) := by
  unfold offered at reached
  split at reached
  · next sent =>
      cases reached
      exact sent
  · cases reached

section Reached

variable (enc after) (now : Timestamp) {m m₁ : MessageRef} {others : σ} {messages : MessageTable}
  (reached : r.offered before m = some (m₁, others, messages))

include reached

/-- A message that reaches deduplication leaves it as its step does. -/
theorem step_deduplication : (r.step enc before after (.publish now m)).deduplication =
    (r.deduplication.process (messages m₁).id).2 := by
  have sent := process_of_offered reached
  rcases passed : r.deduplication.process (messages m₁).id with ⟨raised | _ | _, d⟩ <;>
    simp only [step, Broker.publishThrough, pipeline, process_append, process_other, sent,
      MiddlewarePipeline.process, deduplicate, passed, Except.map, if_true]
  · rfl
  · rcases MiddlewarePipeline.process after others messages m₁ with ⟨raised | _ | m₂, others', messages'⟩ <;>
      rfl

/-- A message that was seen is dropped there. -/
theorem step_seen (seen : (messages m₁).id ∈ r.deduplication.seen) :
    (r.step enc before after (.publish now m)).published = r.published := by
  have sent := process_of_offered reached
  have dropped := DeduplicationMiddleware.process_drops_iff.mpr seen
  simp only [step, Broker.publishThrough, pipeline, process_append, process_other, sent,
    MiddlewarePipeline.process, deduplicate, dropped, Except.map]
  rfl

open Classical in
/-- A message that passes is published exactly when the later stages keep it and
the broker takes it. -/
theorem step_passed (passed : (r.deduplication.process (messages m₁).id).1 = .ok true) :
    (r.step enc before after (.publish now m)).published =
      if ∃ m₂ others' messages',
          MiddlewarePipeline.process after others messages m₁ = (.ok (some m₂), others', messages') ∧
            (r.broker.withMessages messages').Takes enc m₂
      then r.published ++ [(messages m₁).id] else r.published := by
  have sent := process_of_offered reached
  simp only [step, Broker.publishThrough, pipeline, process_append, process_other, sent, reached,
    MiddlewarePipeline.process, deduplicate, passed, Except.map, if_true]
  rcases kept : MiddlewarePipeline.process after others messages m₁ with
    ⟨raised | _ | m₂, others', messages'⟩
  · simp
  · simp
  · have returns := (r.broker.withMessages messages').publish_returns_iff enc now m₂
    rcases outcome : (r.broker.withMessages messages').publish enc now m₂ with ⟨raised | metadata, b'⟩ <;>
      rw [outcome] at returns
    · have refused : ¬ (r.broker.withMessages messages').Takes enc m₂ := fun takes => by
        simpa using returns.mpr takes
      rw [if_neg (by simpa using refused)]
      simp only [outcome]
    · have takes : (r.broker.withMessages messages').Takes enc m₂ := returns.mp (by simp)
      rw [if_pos ⟨m₂, others', messages', rfl, takes⟩]
      simp only [outcome]

end Reached

/-- **One step.**  From a state in which deduplication drops only what was
published, a step leads to another one exactly when it is `Carried`. -/
theorem step_drops_published_iff (sound : r.deduplication.Sound) (drops : r.DropsPublished)
    (op : PipelineOp) :
    (r.step enc before after op).DropsPublished ↔ r.Carried enc before after op := by
  rw [dropsPublished_iff] at drops ⊢
  cases op with
  | between change => exact iff_of_true drops trivial
  | publish now m =>
      cases reached : r.offered before m with
      | none =>
          obtain ⟨same, published⟩ := step_not_offered enc after now reached
          rw [same, published]
          refine iff_of_true drops fun _ m₁ others messages arrives => ?_
          rw [reached] at arrives
          cases arrives
      | some offer =>
          obtain ⟨m₁, others, messages⟩ := offer
          rw [step_deduplication enc after now reached]
          by_cases seen : (messages m₁).id ∈ r.deduplication.seen
          · rw [step_seen enc after now reached seen,
              DeduplicationMiddleware.process, if_pos seen]
            refine iff_of_true drops fun _ m₁' others' messages' arrives new => ?_
            rw [reached] at arrives
            cases arrives
            exact absurd seen new
          · obtain ⟨remembered, without, within⟩ := DeduplicationMiddleware.process_new sound seen
            rcases le_or_gt r.deduplication.windowSize 0 with none_ | window
            · refine iff_of_true (fun id member => ?_) fun window => absurd window (not_lt.mpr none_)
              rw [without none_] at member
              exact absurd member (Finset.notMem_empty id)
            · obtain ⟨passed, here⟩ := within window
              rw [step_passed enc after now reached passed]
              constructor
              · intro good _ m₁' others' messages' arrives _ unpublished
                rw [reached] at arrives
                cases arrives
                by_contra lost
                rw [if_neg lost] at good
                exact unpublished (good _ here)
              · intro carried id member
                by_cases taken : ∃ m₂ others' messages',
                    MiddlewarePipeline.process after others messages m₁ =
                        (.ok (some m₂), others', messages') ∧
                      (r.broker.withMessages messages').Takes enc m₂
                · rw [if_pos taken, List.mem_append, List.mem_singleton]
                  exact (remembered id member).symm.imp_left (drops id)
                · rw [if_neg taken]
                  rcases remembered id member with rfl | old
                  · by_contra unpublished
                    exact taken (carried window m₁ others messages reached seen unpublished)
                  · exact drops id old

theorem step_sound (sound : r.deduplication.Sound) (op : PipelineOp) :
    (r.step enc before after op).deduplication.Sound := by
  cases op with
  | between change => exact sound
  | publish now m =>
      cases reached : r.offered before m with
      | none => rwa [(step_not_offered enc after now reached).1]
      | some offer =>
          obtain ⟨m₁, others, messages⟩ := offer
          rw [step_deduplication enc after now reached]
          exact (sound.process _).1

/-- **In which runs deduplication drops only what was published.** -/
theorem run_drops_published_iff (enc : Encoding) (before after : List (Process σ)) (broker : Broker)
    (windowSize : ℤ) (others : σ) (ops : List PipelineOp) :
    let start : PipelineRun σ := { broker, deduplication := { windowSize }, others }
    (∀ early, early <+: ops → (run (step enc before after) start early).DropsPublished) ↔
      Guarded (step enc before after) (Carried enc before after) start ops := by
  intro start
  have preserved : ∀ (r : PipelineRun σ) op, r.deduplication.Sound →
      (r.step enc before after op).deduplication.Sound := fun _ op sound => step_sound sound op
  have exact_ : ∀ (r : PipelineRun σ) op, r.deduplication.Sound → r.DropsPublished →
      ((r.step enc before after op).DropsPublished ↔ r.Carried enc before after op) :=
    fun _ op sound drops => step_drops_published_iff sound drops op
  have sound : start.deduplication.Sound := ⟨rfl, List.nodup_nil⟩
  have drops : start.DropsPublished := dropsPublished_iff.mpr fun id member =>
    absurd member (Finset.notMem_empty id)
  exact forall_prefix_iff_guarded preserved exact_ sound drops

end Run

/-! ## A publish that fails after deduplication -/

/-- A topic with room for one message, and no other middleware. -/
def fullStart : PipelineRun Unit where
  broker := (PublishRun.publishStart.broker.createTopic "t"
    (some { numPartitions := 1, maxPartitionSize := 1 })).2
  others := ()

/-- The second message is refused by the full partition; with its partition
cleared, its retry is dropped although nothing of that id was ever published. -/
theorem retry_dropped :
    let r := run (step PublishRun.digestOfK [] []) fullStart [.publish 0 0, .publish 1 1]
    let cleared := r.step PublishRun.digestOfK [] [] (.between fun b => b.applyLog (.clear 0))
    let retry := cleared.broker.publishThrough PublishRun.digestOfK 2 (pipeline [] [])
      (cleared.deduplication, ()) 1
    r.published = ["0"] ∧ (cleared.deduplication.process "1").1.toOption = some false ∧
      retry.1.toOption = none ∧ cleared.broker.logOf 0 = [] ∧ ¬ cleared.DropsPublished := by
  refine ⟨by decide +kernel, by decide +kernel, by decide +kernel, by decide +kernel, fun drops => ?_⟩
  have listed := dropsPublished_iff.mp drops "1" (by decide +kernel)
  exact absurd listed (by decide +kernel)

end PipelineRun

end BrokerLite
