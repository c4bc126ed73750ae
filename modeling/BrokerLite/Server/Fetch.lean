/-
# Server.Fetch -- what `FETCH` asks of a topic

`get_partition` and `read` are written for integers, and a request may hand them any
JSON value.  They compare, subtract, add and index before they know what they were
given, so that what is raised, and whether anything is, hangs on the log they meet:
an empty log is read with any offset.  `Serves` is the condition under which nothing
but a `ValueError` is raised.
-/
import BrokerLite.Codec.Arithmetic
import BrokerLite.Broker.Errors

namespace BrokerLite

open Theory

set_option autoImplicit false

/-- `get_partition` of any value; `repr` is the language's. -/
def Topic.getPartition (repr : Value → String) (t : Topic) (partitionId : Value) :
    Except Raised PartitionRef :=
  match partitionId.operand with
  | none =>
      .error (.typeError s!"'<' not supported between instances of '{partitionId.typeName}' and 'int'")
  | some id =>
      if id.less (.int 0) || (Operand.int t.partitions.length).atMost id then
        .error (.valueError (.noSuchPartition (repr partitionId) t.name t.partitions.length))
      else
        match id with
        | .int i => (t.partitions[i.toNat]?).elim (.error .indexError) .ok
        | .float _ => .error (.typeError "list indices must be integers or slices, not float")

/-- A start before the log is its start. -/
def Operand.fromStart (startIdx : Operand) : Operand :=
  if startIdx.less (.int 0) then .int 0 else startIdx

/-- `read` of any values. -/
def Partition.readAny (messages : MessageTable) (p : Partition) (offset maxMessages : Value) :
    Except Raised (List MessageRef) :=
  match p.log with
  | [] => .ok []
  | first :: _ => do
      let startIdx ← offset.sub (messages first).offset
      let startIdx := startIdx.fromStart
      if (Operand.int p.log.length).atMost startIdx then .ok []
      else
        let endIdx ← maxMessages.addTo startIdx
        let endIdx := if (Operand.int p.log.length).less endIdx then .int p.log.length else endIdx
        match startIdx, endIdx with
        | .int startIdx, .int endIdx => .ok (slice p.log startIdx endIdx)
        | _, _ => .error (.typeError "slice indices must be integers or None or have an __index__ method")

/-- The body of the handler's `try`. -/
def Topic.fetch (repr : Value → String) (s : Store) (t : Topic) (partitionId offset maxMessages : Value) :
    Except Raised (List MessageRef) := do
  let p ← t.getPartition repr partitionId
  (s.partitions p).readAny s.messages offset maxMessages

/-- On integers it is `read`. -/
theorem Partition.readAny_int (messages : MessageTable) (p : Partition) (offset maxMessages : ℤ) :
    p.readAny messages (.int offset) (.int maxMessages) = .ok (p.read messages offset maxMessages) := by
  unfold readAny read
  cases log : p.log with
  | nil => rfl
  | cons first rest =>
      have start : ∀ i : ℤ, (Operand.int i).fromStart = .int (if i < 0 then 0 else i) := fun i => by
        unfold Operand.fromStart
        simp only [Operand.less_int, decide_eq_true_eq]
        split <;> rfl
      have stop : ∀ i j : ℤ, (if (Operand.int i).less (.int j) = true then Operand.int i else .int j) =
          .int (min j i) := fun i j => by
        simp only [Operand.less_int, decide_eq_true_eq]
        split <;> congr 1 <;> omega
      have added : ∀ i : ℤ, (Value.int maxMessages).addTo (.int i) = .ok (.int (i + maxMessages)) :=
        fun _ => rfl
      simp only [Value.sub, Value.operand, Operand.sub, bind, Except.bind, start, Operand.atMost_int,
        decide_eq_true_eq, added, stop]
      generalize (if offset - (messages first).offset < 0 then 0 else offset - (messages first).offset) =
        startIdx
      split <;> rfl

/-- On integers that name a partition it is `get_partition` and `read`. -/
theorem Topic.fetch_int (repr : Value → String) (s : Store) (t : Topic) (partitionId : ℕ)
    {p : PartitionRef} (found : t.partitions[partitionId]? = some p) (offset maxMessages : ℤ) :
    t.fetch repr s (.int partitionId) (.int offset) (.int maxMessages) =
      .ok ((s.partitions p).read s.messages offset maxMessages) := by
  have inside : partitionId < t.partitions.length := (List.getElem?_eq_some_iff.mp found).1
  have named : t.getPartition repr (.int partitionId) = .ok p := by
    unfold getPartition
    simp only [Value.operand, Operand.less_int, Operand.atMost_int]
    rw [if_neg (by simp; omega), Int.toNat_natCast, found, Option.elim_some]
  unfold fetch
  rw [named]
  exact (s.partitions p).readAny_int s.messages offset maxMessages

/-! ## When nothing but a `ValueError` is raised -/

/-- The computation gives a number with `P`. -/
def Gives (outcome : Except Raised Operand) (P : Operand → Prop) : Prop :=
  match outcome with
  | .ok a => P a
  | .error _ => False

instance (outcome : Except Raised Operand) (P : Operand → Prop) [∀ a, Decidable (P a)] :
    Decidable (Gives outcome P) :=
  match outcome with
  | .ok a => inferInstanceAs (Decidable (P a))
  | .error _ => isFalse id

/-- The log is empty; or the offset has a distance to the first one, which is past the log, or
from which on there is a slice. -/
def Partition.Serves (messages : MessageTable) (p : Partition) (offset maxMessages : Value) : Prop :=
  ∀ first ∈ p.log.head?, Gives (offset.sub (messages first).offset) fun startIdx =>
    (Operand.int p.log.length).atMost startIdx.fromStart = true ∨
    startIdx.fromStart.integer.isSome ∧ Gives (maxMessages.addTo startIdx.fromStart) fun endIdx =>
      (Operand.int p.log.length).less endIdx = true ∨ endIdx.integer.isSome

instance (messages : MessageTable) (p : Partition) (offset maxMessages : Value) :
    Decidable (p.Serves messages offset maxMessages) :=
  inferInstanceAs (Decidable (∀ first ∈ p.log.head?, _))

theorem Partition.readAny_onlyValueErrors_iff (messages : MessageTable) (p : Partition)
    (offset maxMessages : Value) :
    OnlyValueErrors (p.readAny messages offset maxMessages) ↔ p.Serves messages offset maxMessages := by
  unfold readAny Serves
  cases p.log with
  | nil => exact iff_of_true (onlyValueErrors_ok _) nofun
  | cons first rest =>
      simp only [List.head?_cons, Option.mem_def, Option.some.injEq, forall_eq']
      rcases started : offset.sub (messages first).offset with raised | startIdx
      · refine iff_of_false (fun only => ?_) id
        exact absurd (onlyValueErrors_error.mp only) (by simp [Value.sub_error started])
      · show OnlyValueErrors (if _ then _ else _) ↔ (_ ∨ _)
        split
        · next past => exact iff_of_true (onlyValueErrors_ok _) (.inl past)
        · next inside =>
            rw [or_iff_right inside]
            rcases ended : maxMessages.addTo startIdx.fromStart with raised | endIdx
            · refine iff_of_false (fun only => ?_) And.right
              exact absurd (onlyValueErrors_error.mp only) (by simp [Value.addTo_error ended])
            · -- a float on either side of the slice is refused
              dsimp only [Gives, bind, Except.bind]
              generalize startIdx.fromStart = startIdx
              cases beyond : (Operand.int (first :: rest).length).less endIdx <;> cases startIdx <;>
                cases endIdx <;>
                simp [Operand.integer, onlyValueErrors_ok, onlyValueErrors_error, Raised.isValueError]

/-- The number is outside the partitions' range. -/
def Topic.Lacks (t : Topic) (id : Operand) : Prop :=
  id.less (.int 0) = true ∨ (Operand.int t.partitions.length).atMost id = true

instance (t : Topic) (id : Operand) : Decidable (t.Lacks id) := inferInstanceAs (Decidable (_ ∨ _))

/-- The topic has no partition of that number, or it is an integer and its partition serves. -/
def Topic.Serves (s : Store) (t : Topic) (partitionId offset maxMessages : Value) : Prop :=
  ∃ id ∈ partitionId.operand, t.Lacks id ∨
    ∃ i ∈ id.integer, ∃ p ∈ t.partitions[i.toNat]?, (s.partitions p).Serves s.messages offset maxMessages

instance (s : Store) (t : Topic) (partitionId offset maxMessages : Value) :
    Decidable (t.Serves s partitionId offset maxMessages) :=
  inferInstanceAs (Decidable (∃ id ∈ partitionId.operand, _))

theorem Topic.fetch_onlyValueErrors_iff (repr : Value → String) (s : Store) (t : Topic)
    (partitionId offset maxMessages : Value) :
    OnlyValueErrors (t.fetch repr s partitionId offset maxMessages) ↔
      t.Serves s partitionId offset maxMessages := by
  unfold fetch getPartition Serves
  cases operand : partitionId.operand with
  | none => exact iff_of_false (fun only => absurd (only _ rfl) nofun) (by simp)
  | some id =>
      simp only [Option.mem_def, Option.some.injEq, exists_eq_left']
      split
      · next outside =>
          refine iff_of_true (onlyValueErrors_valueError _) (.inl ?_)
          simpa [Lacks] using outside
      · next inside =>
          have inside : ¬ t.Lacks id := by simpa [Lacks] using inside
          rw [or_iff_right inside]
          cases id with
          | float x => exact iff_of_false (fun only => absurd (only _ rfl) nofun) (by simp [Operand.integer])
          | int i =>
              simp only [Lacks, Operand.less_int, Operand.atMost_int, decide_eq_true_eq, not_or, not_lt,
                not_le] at inside
              have found := List.getElem?_eq_getElem (l := t.partitions) (i := i.toNat) (by omega)
              generalize t.partitions[i.toNat] = p at found
              simp only [Operand.integer, Option.some.injEq, exists_eq_left', found, Option.elim_some]
              exact (s.partitions p).readAny_onlyValueErrors_iff s.messages offset maxMessages

end BrokerLite
