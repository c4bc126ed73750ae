/-
# Broker.Republish -- publishing a message object that is already stored

A run publishes message objects to topics, any object any number of times, and
between publishes callers write into the objects they hold (the dead-letter queue
sets and removes headers), but not into `offset`.  `RepublishRun.appended` records
what the appends returned.

The logs share the message objects, and `append` writes the new offset into the
object.  `Intact` is the history the logs should keep, and `Harmless` the
condition under which one operation keeps it: what is appended is in no log, or
happens to get the offset it already has.
-/
import BrokerLite.Broker.Atomicity
import BrokerLite.Store.PartitionRead

namespace BrokerLite

open Theory

set_option autoImplicit false

/-! ## The runs -/

structure RepublishRun where
  store : Store
  topics : ℕ → Topic
  /-- For every append that returned, the partition and the offset, in order. -/
  appended : List (PartitionRef × ℤ) := []

inductive RepublishOp where
  | publish (topic : ℕ) (now : Timestamp) (m : MessageRef)
  /-- The caller writes into an object, its offset apart. -/
  | edit (m : MessageRef) (message : Message)

namespace RepublishRun

def step (enc : Encoding) (r : RepublishRun) : RepublishOp → RepublishRun
  | .publish i now m =>
      let done := (r.topics i).publish enc now r.store m
      { store := done.2.1
        topics := Function.update r.topics i done.2.2
        appended := match done.1, (r.topics i).target enc (r.store.messages m) with
          | .ok offset, some p => r.appended ++ [(p, offset)]
          | _, _ => r.appended }
  | .edit m message =>
      { r with store := r.store.modifyMessage m fun old => { message with offset := old.offset } }

/-- The offsets that the appends to `p` returned, in order. -/
def returned (r : RepublishRun) (p : PartitionRef) : List ℤ :=
  (r.appended.filter fun entry => entry.1 = p).map Prod.snd

/-- The operation appends the object `m` to `p`. -/
def Appends (enc : Encoding) (r : RepublishRun) : RepublishOp → PartitionRef → MessageRef → Prop
  | .publish i _ n, p, m => n = m ∧ (r.topics i).Takes enc r.store (r.store.messages m) ∧
      (r.topics i).target enc (r.store.messages m) = some p
  | .edit .., _, _ => False

/-- What the operation appends, if anything, is in no log, or has the offset it will get. -/
def Harmless (enc : Encoding) (r : RepublishRun) (op : RepublishOp) : Prop :=
  ∀ p m, r.Appends enc op p m →
    r.store.Unstored m ∨ r.store.offsetOf m = (r.store.partitions p).nextOffset

/-- No log has been rewritten. -/
structure Intact (r : RepublishRun) : Prop where
  kept : ∀ p, (r.store.logOf p).map r.store.offsetOf = r.returned p
  ascending : ∀ p, Ascending r.store.offsetOf (r.store.logOf p)
  reads : ∀ p (i : ℕ) offset, (r.returned p)[i]? = some offset → ∀ maxMessages, 0 < maxMessages →
    (r.store.read p offset maxMessages).head? = (r.store.logOf p)[i]?

/-! ## What one operation does -/

variable {enc : Encoding} {r r' : RepublishRun}

/-- No log, offset or record of an append differs. -/
structure Still (r r' : RepublishRun) : Prop where
  logOf : r'.store.logOf = r.store.logOf
  offsetOf : r'.store.offsetOf = r.store.offsetOf
  nextOffset : ∀ p, (r'.store.partitions p).nextOffset = (r.store.partitions p).nextOffset
  appended : r'.appended = r.appended

/-- The object `m` was appended to `p`. -/
structure Extends (r : RepublishRun) (p : PartitionRef) (m : MessageRef) (r' : RepublishRun) : Prop where
  logOf : ∀ q, r'.store.logOf q = if q = p then r.store.logOf p ++ [m] else r.store.logOf q
  offsetOf : ∀ n, r'.store.offsetOf n =
    if n = m then (r.store.partitions p).nextOffset else r.store.offsetOf n
  nextOffset : ∀ q, (r'.store.partitions q).nextOffset =
    if q = p then (r.store.partitions p).nextOffset + 1 else (r.store.partitions q).nextOffset
  appended : r'.appended = r.appended ++ [(p, (r.store.partitions p).nextOffset)]

theorem still_of_retouched {s : Store} {m : MessageRef} (retouched : r.store.Retouched m s)
    (offsets : s.offsetOf = r.store.offsetOf) {topics : ℕ → Topic} :
    r.Still ⟨s, topics, r.appended⟩ where
  logOf := retouched.logOf
  offsetOf := offsets
  nextOffset p := by rw [retouched.partitions]
  appended := rfl

/-- **One operation.**  It appends one object, which then carries the offset it was
given there, or every log and every offset stays. -/
theorem step_cases (enc : Encoding) (r : RepublishRun) (op : RepublishOp) :
    (r.Still (r.step enc op) ∧ ∀ p m, ¬ r.Appends enc op p m) ∨
      ∃ p m, r.Appends enc op p m ∧ r.Extends p m (r.step enc op) := by
  cases op with
  | edit m message =>
      left
      refine ⟨still_of_retouched (r.store.retouched_modifyMessage m _)
        (r.store.modifyMessage_offsetOf m ?_), fun p n appends => appends⟩
      intro old
      rfl
  | publish i now m =>
      rcases (r.topics i).publish_outcome enc now r.store m with
        ⟨refuses, raised, s', t', failed, retouched, offsets⟩ |
        ⟨takes, p, s₁, t', target, retouched, offsets, stored⟩
      · left
        refine ⟨?_, ?_⟩
        · simp only [step, failed]
          exact still_of_retouched retouched offsets
        · rintro p n ⟨rfl, takes, -⟩
          exact refuses takes
      · right
        refine ⟨p, m, ⟨rfl, takes, target⟩, ?_⟩
        simp only [step, stored, target]
        refine ⟨fun q => ?_, fun n => ?_, fun q => ?_, rfl⟩
        · rw [Store.appended_logOf, retouched.logOf]
        · by_cases here : n = m
          · subst here
            rw [Store.appended_offsetOf_self, if_pos rfl, retouched.partitions]
          · rw [Store.appended_offsetOf_of_ne _ _ _ _ _ here, offsets, if_neg here]
        · rw [Store.appended_nextOffset, retouched.partitions]

/-! ## Counting offsets -/

/-- Every partition hands out 0, 1, 2, … -/
structure Counted (r : RepublishRun) : Prop where
  next : ∀ p, (r.store.partitions p).nextOffset = (r.store.logOf p).length
  returned : ∀ p, r.returned p = (List.range (r.store.logOf p).length).map fun i : ℕ => (i : ℤ)

theorem Still.returned (still : r.Still r') (p : PartitionRef) : r'.returned p = r.returned p := by
  simp only [RepublishRun.returned, still.appended]

theorem Extends.returned {p : PartitionRef} {m : MessageRef} (extends_ : r.Extends p m r')
    (q : PartitionRef) : r'.returned q =
      if q = p then r.returned p ++ [(r.store.partitions p).nextOffset] else r.returned q := by
  by_cases here : q = p
  · subst here
    simp [RepublishRun.returned, extends_.appended]
  · have other : p ≠ q := fun same => here same.symm
    simp [RepublishRun.returned, extends_.appended, here, other]

theorem Counted.step (counted : r.Counted) (op : RepublishOp) : (r.step enc op).Counted := by
  rcases r.step_cases enc op with ⟨still, -⟩ | ⟨p, m, -, extends_⟩
  · refine ⟨fun p => ?_, fun p => ?_⟩
    · rw [still.nextOffset, still.logOf]
      exact counted.next p
    · rw [still.returned, still.logOf]
      exact counted.returned p
  · refine ⟨fun q => ?_, fun q => ?_⟩
    · rw [extends_.nextOffset, extends_.logOf]
      split
      · rw [counted.next]
        simp
      · exact counted.next q
    · rw [extends_.returned, extends_.logOf]
      split
      · rw [counted.returned, counted.next, List.length_append, List.length_singleton, List.range_succ]
        simp
      · exact counted.returned q

/-- With the offsets counted, a log that kept them is ascending and is read by offset. -/
theorem Counted.intact_iff (counted : r.Counted) :
    r.Intact ↔ ∀ p, (r.store.logOf p).map r.store.offsetOf = r.returned p := by
  refine ⟨Intact.kept, fun kept => ⟨kept, fun p => ?_, fun p i offset found maxMessages pos => ?_⟩⟩
  · refine List.pairwise_map.mp ?_
    rw [kept, counted.returned]
    exact List.pairwise_map.mpr (List.pairwise_lt_range.imp fun lt => Int.ofNat_lt.mpr lt)
  · rw [counted.returned, List.getElem?_map] at found
    obtain ⟨j, inRange, rfl⟩ := Option.map_eq_some_iff.mp found
    obtain ⟨inside, rfl⟩ := List.getElem?_eq_some_iff.mp inRange
    simp only [List.length_range] at inside
    have first : r.store.earliestOffset p = 0 := by
      rw [Store.earliestOffset_eq (by omega)]
      have at_ := congrArg (·[0]?) (kept p)
      rw [counted.returned] at at_
      have some_ : 0 < (r.store.logOf p).length := by omega
      simpa [some_] using at_
    have start : seek 0 ((List.range (r.store.logOf p).length)[i] : ℤ) = i := by
      simp [seek]
    rw [Store.read_of_nonneg _ (le_of_lt pos), first, start, List.head?_take, List.head?_drop]
    simp [pos]

theorem Appends.unique {op : RepublishOp} {p q : PartitionRef} {m n : MessageRef}
    (first : r.Appends enc op p m) (second : r.Appends enc op q n) : q = p ∧ n = m := by
  cases op with
  | edit m message => exact absurd first id
  | publish i now m =>
      obtain ⟨rfl, -, here⟩ := first
      obtain ⟨rfl, -, there⟩ := second
      exact ⟨Option.some.inj (there.symm.trans here), rfl⟩

/-- After an append the logs have kept their offsets when the stored records have. -/
theorem Extends.kept_iff {p : PartitionRef} {m : MessageRef} (extends_ : r.Extends p m r')
    (kept : ∀ q, (r.store.logOf q).map r.store.offsetOf = r.returned q) :
    (∀ q, (r'.store.logOf q).map r'.store.offsetOf = r'.returned q) ↔
      ∀ q, ∀ n ∈ r.store.logOf q, r'.store.offsetOf n = r.store.offsetOf n := by
  have new : r'.store.offsetOf m = (r.store.partitions p).nextOffset := by
    rw [extends_.offsetOf, if_pos rfl]
  refine forall_congr' fun q => ?_
  rw [← List.map_inj_left, kept, extends_.logOf, extends_.returned]
  split
  · next here =>
      subst here
      rw [List.map_append, List.map_singleton, new, List.append_cancel_right_eq]
  · exact Iff.rfl

/-- **One operation keeps the logs exactly when it is harmless.** -/
theorem Counted.step_intact_iff (counted : r.Counted) (intact : r.Intact) (op : RepublishOp) :
    (r.step enc op).Intact ↔ r.Harmless enc op := by
  rw [(counted.step op).intact_iff]
  rcases r.step_cases enc op with ⟨still, none_⟩ | ⟨p, m, appends, extends_⟩
  · refine iff_of_true (fun p => ?_) fun p m appends => absurd appends (none_ p m)
    rw [still.returned, still.logOf, still.offsetOf]
    exact intact.kept p
  · rw [extends_.kept_iff intact.kept]
    constructor
    · intro same q n other
      obtain ⟨rfl, rfl⟩ := appends.unique other
      by_cases stored : r.store.Unstored n
      · exact .inl stored
      · right
        simp only [Store.Unstored, not_forall, not_not] at stored
        obtain ⟨q', member⟩ := stored
        have moved := same q' n member
        rw [extends_.offsetOf, if_pos rfl] at moved
        exact moved.symm
    · intro harmless q n member
      rw [extends_.offsetOf]
      split
      · next here =>
          subst here
          rcases harmless p n appends with unstored | same
          · exact absurd member (unstored q)
          · exact same.symm
      · rfl

theorem Counted.of_new {s : Store} (new : s.New) (topics : ℕ → Topic) :
    (RepublishRun.mk s topics []).Counted where
  next p := by simp [new p]
  returned p := by simp [new p, RepublishRun.returned]

/-- **Publishing stored objects again.**  In a run of publishes to topics whose
partitions are new, every log keeps at each position the offset that the append
there returned, ascends, and is read by offset, in every state on the way, exactly
when every operation is harmless where it is made. -/
theorem run_intact_iff (enc : Encoding) {s : Store} (new : s.New) (topics : ℕ → Topic)
    (ops : List RepublishOp) :
    (∀ before, before <+: ops → (run (step enc) (.mk s topics []) before).Intact) ↔
      Guarded (step enc) (Harmless enc) (.mk s topics []) ops := by
  have preserved : ∀ (r : RepublishRun) op, r.Counted → (r.step enc op).Counted :=
    fun _ op counted => counted.step op
  refine forall_prefix_iff_guarded preserved
    (fun r op counted intact => counted.step_intact_iff intact op) (.of_new new topics) ?_
  refine (Counted.of_new new topics).intact_iff.mpr fun p => ?_
  simp [new p, RepublishRun.returned]

/-! ## The same object twice -/

/-- New partitions, and messages without keys. -/
def republishStart : Store where
  messages m := { topic := "t", value := [], id := toString m }
  partitions p := { topic := "t", partitionId := p }

/-- One topic with one partition. -/
def republishTopics : ℕ → Topic := fun _ => { name := "t", partitions := [0] }

/-- Object 0 is published twice, as a caller does with what `replay` handed back. -/
def replayedOps : List RepublishOp := [.publish 0 1 0, .publish 0 2 0]

theorem republishStart_new : republishStart.New := fun _ => ⟨rfl, rfl, rfl⟩

theorem replayedOps_intact_iff :
    (∀ before, before <+: replayedOps →
        (run (step PublishRun.digestOfK) (.mk republishStart republishTopics []) before).Intact) ↔
      Guarded (step PublishRun.digestOfK) (Harmless PublishRun.digestOfK) (.mk republishStart republishTopics []) replayedOps :=
  run_intact_iff PublishRun.digestOfK republishStart_new republishTopics replayedOps

/-- The first append returned 0 and the second 1; both positions now say 1, and a
read from offset 0 or 1 starts at the first. -/
theorem replayedOps_rewritten :
    let r := run (step PublishRun.digestOfK) (.mk republishStart republishTopics []) replayedOps
    ¬ r.Intact ∧ r.returned 0 = [0, 1] ∧ (r.store.logOf 0).map r.store.offsetOf = [1, 1] :=
  ⟨fun intact => absurd (intact.kept 0) (by decide +kernel), by decide +kernel, by decide +kernel⟩

end RepublishRun

end BrokerLite
