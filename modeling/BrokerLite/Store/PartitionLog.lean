/-
# Store.PartitionLog -- the invariant of every partition log

A `LogOp` is one of the operations that change a log: `append` and the three
removals, each on any partition of the store, each with its own clock reading.
`Store.Ordered` is what they all keep: along every log the offsets grow
strictly, lie in `[0, next_offset)`, and every record names its own partition.

An append needs the appended object not to be stored in a log at that moment
(`LogOp.Fresh`), since it rewrites the offset inside the object.
-/
import BrokerLite.Store.Partition
import BrokerLite.Theory.Run

namespace BrokerLite

open Theory

set_option autoImplicit false

inductive LogOp where
  | append (now : Timestamp) (p : PartitionRef) (m : MessageRef)
  | applyRetention (now : Timestamp) (p : PartitionRef)
  | compact (p : PartitionRef)
  | clear (p : PartitionRef)

namespace Store

/-- The store after one operation; what the operation returns is dropped. -/
def applyOp (s : Store) : LogOp → Store
  | .append now p m => (s.append now p m).2
  | .applyRetention now p => (s.applyRetention now p).2
  | .compact p => (s.compact p).2
  | .clear p => s.clear p

/-- No log holds the object. -/
def Unstored (s : Store) (m : MessageRef) : Prop := ∀ p, m ∉ s.logOf p

end Store

/-- The object an operation appends, if any, is in no log. -/
def LogOp.Fresh (s : Store) : LogOp → Prop
  | .append _ _ m => s.Unstored m
  | _ => True

/-- **What an operation can do to a store.** -/
theorem Store.applyOp_cases (s : Store) (op : LogOp) :
    s.Trimmed (s.applyOp op) ∨
      ∃ now p m, op = .append now p m ∧ s.applyOp op = s.appended now p m := by
  cases op with
  | append now p m =>
      rcases s.append_cases now p m with ⟨error, refused⟩ | stored
      · left
        rw [Store.applyOp, refused]
        exact ⟨rfl, fun _ => List.Sublist.refl _, fun _ => rfl, fun _ => rfl, fun _ => rfl⟩
      · exact .inr ⟨now, p, m, rfl, by rw [Store.applyOp, stored]⟩
  | applyRetention now p => exact .inl (s.applyRetention_trimmed now p)
  | compact p => exact .inl (s.compact_trimmed p)
  | clear p => exact .inl (s.clear_trimmed p)

@[simp] theorem Store.applyOp_key (s : Store) (op : LogOp) (p : PartitionRef) :
    ((s.applyOp op).partitions p).key = (s.partitions p).key := by
  rcases s.applyOp_cases op with trimmed | ⟨now, q, m, rfl, stored⟩
  · exact trimmed.key p
  · rw [stored, Store.appended_key]

@[simp] theorem Store.applyOp_committed (s : Store) (op : LogOp) (p : PartitionRef) :
    ((s.applyOp op).partitions p).committedOffsets = (s.partitions p).committedOffsets := by
  rcases s.applyOp_cases op with trimmed | ⟨now, q, m, rfl, stored⟩
  · exact trimmed.committed p
  · rw [stored, Store.appended_committed]

/-- The object an operation may store. -/
def LogOp.stores? : LogOp → Option MessageRef
  | .append _ _ m => some m
  | _ => none

theorem Store.Unstored.applyOp {s : Store} {m : MessageRef} (unstored : s.Unstored m) {op : LogOp}
    (other : op.stores? ≠ some m) : (s.applyOp op).Unstored m := by
  intro p member
  rcases s.applyOp_cases op with trimmed | ⟨now, q, n, rfl, stored⟩
  · exact unstored p ((trimmed.log p).mem member)
  · rw [stored, Store.appended_logOf] at member
    split at member
    · rcases List.mem_append.mp member with old | new
      · exact unstored q old
      · exact other (congrArg some (List.mem_singleton.mp new).symm)
    · exact unstored p member

/-- Operations that store pairwise distinct objects, none of them stored at the
start, are fresh along the whole run. -/
theorem LogOp.fresh_of_distinct {s : Store} {ops : List LogOp}
    (distinct : (ops.filterMap LogOp.stores?).Nodup)
    (unstored : ∀ m ∈ ops.filterMap LogOp.stores?, s.Unstored m) :
    Guarded Store.applyOp (fun s op => op.Fresh s) s ops := by
  induction ops generalizing s with
  | nil => trivial
  | cons op rest ih =>
      have later : ∀ m ∈ rest.filterMap LogOp.stores?, s.Unstored m ∧ op.stores? ≠ some m := by
        intro m member
        cases here : op.stores? with
        | none =>
            rw [List.filterMap_cons_none here] at unstored
            exact ⟨unstored m member, nofun⟩
        | some n =>
            rw [List.filterMap_cons_some here] at unstored distinct
            refine ⟨unstored m (List.mem_cons_of_mem _ member), fun same => ?_⟩
            cases same
            exact (List.nodup_cons.mp distinct).1 member
      refine ⟨?_, ih ?_ fun m member => (later m member).1.applyOp (later m member).2⟩
      · cases op with
        | append now p m => exact unstored m (by simp [LogOp.stores?])
        | _ => trivial
      · cases here : op.stores? with
        | none => rwa [List.filterMap_cons_none here] at distinct
        | some n =>
            rw [List.filterMap_cons_some here] at distinct
            exact (List.nodup_cons.mp distinct).2

/-- The invariant of the logs of a store. -/
structure Store.Ordered (s : Store) : Prop where
  ascending : ∀ p, Ascending s.offsetOf (s.logOf p)
  nonneg : ∀ p, ∀ m ∈ s.logOf p, 0 ≤ s.offsetOf m
  bounded : ∀ p, ∀ m ∈ s.logOf p, s.offsetOf m < (s.partitions p).nextOffset
  next : ∀ p, 0 ≤ (s.partitions p).nextOffset
  stamped : ∀ p, ∀ m ∈ s.logOf p, (s.messages m).partition = (s.partitions p).partitionId

namespace Store.Ordered

variable {s t : Store}

/-- A store whose partitions are new. -/
theorem of_new (logs : ∀ p, s.logOf p = []) (next : ∀ p, (s.partitions p).nextOffset = 0) :
    s.Ordered where
  ascending p := by rw [logs]; exact .nil
  nonneg p := by simp [logs]
  bounded p := by simp [logs]
  next p := by rw [next]
  stamped p := by simp [logs]

/-- The invariant speaks of the logs, the counters and the ids only. -/
theorem congr (ordered : s.Ordered) (same : s.SameLogs t) : t.Ordered := by
  refine ⟨?_, ?_, ?_, ?_, ?_⟩ <;>
    simp only [same.logOf, same.offsetOf, same.nextOffset, same.messages]
  · exact ordered.ascending
  · exact ordered.nonneg
  · exact ordered.bounded
  · exact ordered.next
  · intro p m member
    rw [ordered.stamped p m member]
    exact (congrArg Prod.snd (same.key p)).symm

theorem trimmed (ordered : s.Ordered) (trimmed : s.Trimmed t) : t.Ordered := by
  have offsets : t.offsetOf = s.offsetOf := by
    funext m
    simp only [Store.offsetOf, trimmed.messages]
  exact
    { ascending := fun p => offsets ▸ (ordered.ascending p).sublist (trimmed.log p)
      nonneg := fun p m member => offsets ▸ ordered.nonneg p m ((trimmed.log p).mem member)
      bounded := fun p m member => by
        rw [offsets, trimmed.nextOffset]
        exact ordered.bounded p m ((trimmed.log p).mem member)
      next := fun p => trimmed.nextOffset p ▸ ordered.next p
      stamped := fun p m member => by
        rw [trimmed.messages, ordered.stamped p m ((trimmed.log p).mem member)]
        exact (congrArg Prod.snd (trimmed.key p)).symm }

/-- What is in a log after an append. -/
theorem mem_appended {now : Timestamp} {p q : PartitionRef} {m n : MessageRef}
    (member : n ∈ (s.appended now p m).logOf q) : n ∈ s.logOf q ∨ (q = p ∧ n = m) := by
  rw [Store.appended_logOf] at member
  split at member
  · next same =>
      subst same
      rcases List.mem_append.mp member with old | new
      · exact .inl old
      · exact .inr ⟨rfl, List.mem_singleton.mp new⟩
  · exact .inl member

theorem appended (ordered : s.Ordered) {now : Timestamp} {p : PartitionRef} {m : MessageRef}
    (fresh : s.Unstored m) : (s.appended now p m).Ordered := by
  have old : ∀ {q n}, n ∈ s.logOf q → n ≠ m := fun member same => fresh _ (same ▸ member)
  have kept : ∀ {q n}, n ∈ s.logOf q → (s.appended now p m).offsetOf n = s.offsetOf n :=
    fun member => s.appended_offsetOf_of_ne now p m _ (old member)
  have grows : ∀ q, (s.partitions q).nextOffset ≤ ((s.appended now p m).partitions q).nextOffset := by
    intro q
    rw [Store.appended_nextOffset]
    split
    · next same => subst same; omega
    · exact le_refl _
  refine ⟨fun q => ?_, fun q n member => ?_, fun q n member => ?_, fun q => ?_, fun q n member => ?_⟩
  · have before : Ascending (s.appended now p m).offsetOf (s.logOf q) :=
      (ordered.ascending q).imp_of_mem fun ha hb lt => by rwa [kept ha, kept hb]
    rw [Store.appended_logOf]
    split
    · next same =>
        subst same
        refine List.pairwise_append.mpr ⟨before, List.pairwise_singleton .., fun n here m' last => ?_⟩
        rw [List.mem_singleton.mp last, kept here, Store.appended_offsetOf_self]
        exact ordered.bounded q n here
    · exact before
  · rcases mem_appended member with here | ⟨rfl, rfl⟩
    · exact kept here ▸ ordered.nonneg q n here
    · rw [Store.appended_offsetOf_self]
      exact ordered.next q
  · rcases mem_appended member with here | ⟨rfl, rfl⟩
    · exact kept here ▸ lt_of_lt_of_le (ordered.bounded q n here) (grows q)
    · rw [Store.appended_offsetOf_self, Store.appended_nextOffset, if_pos rfl]
      omega
  · exact le_trans (ordered.next q) (grows q)
  · have named := congrArg Prod.snd (s.appended_key now p q m)
    simp only [Partition.key] at named
    rcases mem_appended member with here | ⟨rfl, rfl⟩
    · rw [Store.appended_messages_of_ne _ _ _ _ _ (old here), ordered.stamped q n here, named]
    · rw [named]
      simp [Store.appended]

/-- One operation keeps the invariant. -/
theorem applyOp (ordered : s.Ordered) {op : LogOp} (fresh : op.Fresh s) : (s.applyOp op).Ordered := by
  rcases s.applyOp_cases op with trimmed | ⟨now, p, m, rfl, stored⟩
  · exact ordered.trimmed trimmed
  · rw [stored]
    exact ordered.appended fresh

/-- A run of operations keeps the invariant. -/
theorem run (ordered : s.Ordered) {ops : List LogOp}
    (fresh : Guarded Store.applyOp (fun s op => op.Fresh s) s ops) :
    (Theory.run Store.applyOp s ops).Ordered :=
  run_invariant (fun _ _ before fresh => before.applyOp fresh) ordered fresh

end Store.Ordered

end BrokerLite
