/-
# Theory.Compaction -- keeping the latest entry of every key

`compacted` is how a program compacts a log: one pass notes the position of the
last entry of every key, a second pass keeps the entries without a key and those
at a noted position.  `latest` is what it means: an entry goes when a later one
has its key (`compacted_eq_latest`).

`leading` counts the entries at the front that go.  The log that is left is a
suffix of the log exactly when no other entry goes (`SupersededFirst`).
-/
import BrokerLite.Theory.Dict

namespace BrokerLite.Theory

set_option autoImplicit false

universe u v w

variable {α : Type u} {κ : Type v} [DecidableEq κ] (key : α → Option κ)

/-! ## The two passes -/

/-- One entry of the first pass, with its position. -/
def noteKey (positions : Dict κ ℕ) (e : α × ℕ) : Dict κ ℕ :=
  match key e.1 with
  | none => positions
  | some k => positions.set k e.2

/-- The position of the last entry of every key. -/
def latestByKey (log : List α) : Dict κ ℕ := log.zipIdx.foldl (noteKey key) .empty

/-- Whether the second pass keeps the entry. -/
def keeps (positions : Dict κ ℕ) (e : α × ℕ) : Bool :=
  match key e.1 with
  | none => true
  | some k => positions.get? k = some e.2

def compacted (log : List α) : List α :=
  (log.zipIdx.filter (keeps key (latestByKey key log))).map Prod.fst

/-! ## What they mean -/

/-- A later entry has the key of `x`. -/
def superseded (x : α) (later : List α) : Bool :=
  match key x with
  | none => false
  | some k => later.any fun y => key y = some k

def latest : List α → List α
  | [] => []
  | x :: rest => if superseded key x rest then latest rest else x :: latest rest

variable {key}

theorem get?_notes_of_absent {log : List α} {k : κ} (absent : ∀ y ∈ log, key y ≠ some k)
    (positions : Dict κ ℕ) (n : ℕ) :
    ((log.zipIdx n).foldl (noteKey key) positions).get? k = positions.get? k := by
  induction log generalizing positions n with
  | nil => rfl
  | cons x rest ih =>
      have head := absent x List.mem_cons_self
      rw [List.zipIdx_cons, List.foldl_cons, ih fun y member => absent y (List.mem_cons_of_mem _ member)]
      cases found : key x with
      | none => simp [noteKey, found]
      | some k' =>
          have other : k ≠ k' := fun same => head (found.trans (congrArg some same.symm))
          simp [noteKey, found, Dict.get?_set_of_ne _ other]

theorem get?_notes_of_present {log : List α} {k : κ} (present : ∃ y ∈ log, key y = some k)
    (positions : Dict κ ℕ) (n : ℕ) :
    ∃ i, n ≤ i ∧ ((log.zipIdx n).foldl (noteKey key) positions).get? k = some i := by
  induction log generalizing positions n with
  | nil => simp at present
  | cons x rest ih =>
      rw [List.zipIdx_cons, List.foldl_cons]
      by_cases later : ∃ y ∈ rest, key y = some k
      · obtain ⟨i, le, found⟩ := ih later (noteKey key positions (x, n)) (n + 1)
        exact ⟨i, by omega, found⟩
      · have absent : ∀ y ∈ rest, key y ≠ some k := fun y member same => later ⟨y, member, same⟩
        obtain ⟨y, member, same⟩ := present
        have head : key x = some k := by
          rcases List.mem_cons.mp member with rfl | inside
          · exact same
          · exact absurd same (absent y inside)
        refine ⟨n, Nat.le_refl n, ?_⟩
        rw [get?_notes_of_absent absent]
        simp [noteKey, head]

/-- The second pass keeps an entry when no later one has its key. -/
theorem keeps_eq (before : List α) (x : α) (after : List α) :
    keeps key (latestByKey key (before ++ x :: after)) (x, before.length) =
      !superseded key x after := by
  cases found : key x with
  | none => simp [keeps, superseded, found]
  | some k =>
      have passed : (latestByKey key (before ++ x :: after)) = (after.zipIdx (before.length + 1)).foldl
          (noteKey key) ((latestByKey key before).set k before.length) := by
        simp [latestByKey, List.zipIdx_append, noteKey, found]
      by_cases later : ∃ y ∈ after, key y = some k
      · obtain ⟨i, le, noted⟩ := get?_notes_of_present later
          ((latestByKey key before).set k before.length) (before.length + 1)
        have differs : i ≠ before.length := by omega
        have gone : superseded key x after = true := by simpa [superseded, found] using later
        simp [keeps, found, passed, noted, differs, gone]
      · have absent : ∀ y ∈ after, key y ≠ some k := fun y member same => later ⟨y, member, same⟩
        have stays : superseded key x after = false := by simpa [superseded, found] using absent
        simp [keeps, found, passed, get?_notes_of_absent absent, stays]

theorem compacted_from (before after : List α) :
    ((after.zipIdx before.length).filter
      (keeps key (latestByKey key (before ++ after)))).map Prod.fst = latest key after := by
  induction after generalizing before with
  | nil => rfl
  | cons x rest ih =>
      have tail := ih (before ++ [x])
      simp only [List.append_assoc, List.singleton_append, List.length_append,
        List.length_singleton] at tail
      rw [List.zipIdx_cons, List.filter_cons, keeps_eq, latest, ← tail]
      cases superseded key x rest <;> simp

/-- **The two passes keep the latest entry of every key.** -/
theorem compacted_eq_latest (log : List α) : compacted key log = latest key log :=
  compacted_from [] log

/-! ## Compacting again -/

variable (key) in
theorem superseded_append (x : α) (front back : List α) :
    superseded key x (front ++ back) = (superseded key x front || superseded key x back) := by
  unfold superseded
  cases key x <;> simp

/-- Compaction loses no key. -/
theorem superseded_latest (x : α) (log : List α) :
    superseded key x (latest key log) = superseded key x log := by
  cases found : key x with
  | none => simp [superseded, found]
  | some k =>
      induction log with
      | nil => rfl
      | cons y rest ih =>
          have split := superseded_append key x [y] rest
          rw [List.singleton_append] at split
          rw [latest, split]
          cases gone : superseded key y rest with
          | false =>
              have kept := superseded_append key x [y] (latest key rest)
              rw [List.singleton_append] at kept
              simp [kept, ih]
          | true =>
              -- The entry that goes has a later one of its key, so it adds nothing.
              cases here : superseded key x [y] with
              | false => simp [ih]
              | true =>
                  have same : key y = some k := by simpa [superseded, found] using here
                  have there : superseded key x rest = true := by
                    simpa [superseded, found, same] using gone
                  simp [ih, there]

variable (key) in
/-- **Compaction is incremental.**  What is appended to a compacted log and compacted with
it leaves what compacting once would. -/
theorem latest_append_latest (front back : List α) :
    latest key (latest key front ++ back) = latest key (front ++ back) := by
  induction front with
  | nil => rfl
  | cons x rest ih =>
      rw [latest, List.cons_append, latest, superseded_append]
      cases gone : superseded key x rest with
      | true => simpa using ih
      | false =>
          rw [if_neg (by simp), List.cons_append, latest, superseded_append, superseded_latest, gone, ih]

theorem latest_latest (log : List α) : latest key (latest key log) = latest key log := by
  have again := latest_append_latest key log []
  rwa [List.append_nil, List.append_nil] at again

/-- Nothing without a key goes. -/
theorem filter_latest_keyless (log : List α) :
    (latest key log).filter (fun x => key x = none) = log.filter fun x => key x = none := by
  induction log with
  | nil => rfl
  | cons x rest ih =>
      rw [latest]
      cases found : key x with
      | none => simp [superseded, found, ih]
      | some k =>
          cases gone : superseded key x rest <;> simp [found, ih]

/-- Of every key the last entry is left. -/
theorem filter_latest_keyed (log : List α) (k : κ) :
    (latest key log).filter (fun x => key x = some k) =
      (log.filter fun x => key x = some k).getLast?.toList := by
  induction log with
  | nil => rfl
  | cons x rest ih =>
      rw [latest]
      by_cases same : key x = some k
      · have later : superseded key x rest = true ↔ rest.filter (fun y => key y = some k) ≠ [] := by
          simp [superseded, same]
        cases gone : superseded key x rest with
        | true =>
            have some_ := later.mp gone
            rw [if_pos rfl, ih, List.filter_cons_of_pos (by simpa using same), List.getLast?_cons]
            cases found : (rest.filter fun y => key y = some k).getLast? with
            | none => exact absurd (List.getLast?_eq_none_iff.mp found) some_
            | some y => rfl
        | false =>
            have none_ : rest.filter (fun y => key y = some k) = [] := by
              by_contra some_
              rw [later.mpr some_] at gone
              cases gone
            rw [if_neg (by simp), List.filter_cons_of_pos (by simpa using same),
              List.filter_cons_of_pos (by simpa using same), ih, none_]
            rfl
      · cases gone : superseded key x rest <;> simp [same, ih]

variable (key) in
/-- Compaction only looks at the keys. -/
theorem latest_map {β : Type w} (f : β → α) (log : List β) :
    latest key (log.map f) = (latest (key ∘ f) log).map f := by
  have seen : ∀ (x : β) later, superseded key (f x) (later.map f) = superseded (key ∘ f) x later := by
    intro x later
    simp only [superseded, Function.comp_apply]
    cases key (f x) <;> simp [List.any_map, Function.comp_def]
  induction log with
  | nil => rfl
  | cons x rest ih =>
      rw [List.map_cons, latest, latest, seen, ih]
      split <;> simp

/-! ## Where the log that is left starts -/

variable (key)

/-- The number of entries at the front that go. -/
def leading : List α → ℕ
  | [] => 0
  | x :: rest => if superseded key x rest then leading rest + 1 else 0

/-- No entry goes. -/
def NoneSuperseded : List α → Prop
  | [] => True
  | x :: rest => superseded key x rest = false ∧ NoneSuperseded rest

/-- Every entry that goes stands before every entry that stays. -/
def SupersededFirst : List α → Prop
  | [] => True
  | x :: rest => if superseded key x rest then SupersededFirst rest else NoneSuperseded key rest

instance NoneSuperseded.decidable : ∀ log : List α, Decidable (NoneSuperseded key log)
  | [] => isTrue trivial
  | x :: rest =>
      have := NoneSuperseded.decidable rest
      inferInstanceAs (Decidable (superseded key x rest = false ∧ NoneSuperseded key rest))

instance SupersededFirst.decidable : ∀ log : List α, Decidable (SupersededFirst key log)
  | [] => isTrue trivial
  | x :: rest =>
      have := SupersededFirst.decidable rest
      inferInstanceAs (Decidable
        (if superseded key x rest then SupersededFirst key rest else NoneSuperseded key rest))

variable {key}

variable (key) in
theorem latest_sublist (log : List α) : (latest key log).Sublist log := by
  induction log with
  | nil => exact .slnil
  | cons x rest ih =>
      rw [latest]
      split
      · exact ih.cons x
      · exact ih.cons_cons x

theorem latest_eq_self_iff {log : List α} : latest key log = log ↔ NoneSuperseded key log := by
  induction log with
  | nil => simp [latest, NoneSuperseded]
  | cons x rest ih =>
      cases gone : superseded key x rest with
      | false => simp [latest, NoneSuperseded, gone, ih]
      | true =>
          have shorter : (latest key rest).length ≤ rest.length := (latest_sublist key rest).length_le
          have differs : latest key rest ≠ x :: rest := by
            intro same
            rw [same, List.length_cons] at shorter
            omega
          simp [latest, NoneSuperseded, gone, differs]

variable (key) in
theorem leading_le (log : List α) : leading key log ≤ log.length := by
  induction log with
  | nil => exact Nat.le_refl 0
  | cons x rest ih =>
      rw [leading, List.length_cons]
      split <;> omega

variable (key) in
/-- Behind the entries that go at the front, the log left begins where the log does. -/
theorem head?_latest (log : List α) : (latest key log).head? = (log.drop (leading key log)).head? := by
  induction log with
  | nil => rfl
  | cons x rest ih =>
      rw [latest, leading]
      split
      · rw [ih, List.drop_succ_cons]
      · rfl

variable (key) in
theorem latest_sublist_drop (log : List α) :
    (latest key log).Sublist (log.drop (leading key log)) := by
  induction log with
  | nil => exact .slnil
  | cons x rest ih =>
      rw [latest, leading]
      split
      · rwa [List.drop_succ_cons]
      · exact (latest_sublist key rest).cons_cons x

/-- **The log left is a suffix when the entries that go stand first.** -/
theorem latest_eq_drop_iff {log : List α} :
    latest key log = log.drop (leading key log) ↔ SupersededFirst key log := by
  induction log with
  | nil => simp [latest, SupersededFirst]
  | cons x rest ih =>
      cases gone : superseded key x rest with
      | true => simp [latest, leading, SupersededFirst, gone, ih]
      | false => simp [latest, leading, SupersededFirst, gone, latest_eq_self_iff]

theorem latest_eq_nil_iff {log : List α} : latest key log = [] ↔ log = [] := by
  constructor
  · intro empty
    induction log with
    | nil => rfl
    | cons x rest ih =>
        cases gone : superseded key x rest with
        | false => simp [latest, gone] at empty
        | true =>
            have none : rest = [] := ih (by simpa [latest, gone] using empty)
            rw [none] at gone
            unfold superseded at gone
            split at gone <;> simp at gone
  · rintro rfl
    rfl

end BrokerLite.Theory
