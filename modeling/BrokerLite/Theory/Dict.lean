/-
# Theory.Dict -- a dictionary that remembers insertion order

`Dict α β` is a finite map kept as its list of entries in the order the keys
were first inserted, with the fact that no key occurs twice as a field.  Setting
a present key rewrites the value in place; setting a new key appends; erasing
and inserting again moves a key to the end.  Iteration order is therefore part
of the value, which matters to every loop over a dictionary.

Reading is membership (`get?_eq_some_iff`); writing and erasing are described
twice, by what a lookup then returns (`get?_set`, `get?_erase`) and by what the
entries then are (`mem_set`, `entries_set_of_absent`, `perm_erase`).
-/
import Mathlib.Data.List.Nodup
import Mathlib.Data.List.Perm.Basic

namespace BrokerLite.Theory

set_option autoImplicit false

universe u v w

/-- A finite map, its keys in order of first insertion. -/
structure Dict (α : Type u) (β : Type v) where
  entries : List (α × β)
  nodup : (entries.map Prod.fst).Nodup

namespace Dict

variable {α : Type u} {β : Type v}

@[ext] theorem ext {d e : Dict α β} (same : d.entries = e.entries) : d = e := by
  cases d; cases e; cases same; rfl

instance [DecidableEq α] [DecidableEq β] : DecidableEq (Dict α β) := fun d e =>
  decidable_of_iff (d.entries = e.entries) ⟨ext, congrArg entries⟩

def empty : Dict α β := ⟨[], List.nodup_nil⟩

def keys (d : Dict α β) : List α := d.entries.map Prod.fst

def values (d : Dict α β) : List β := d.entries.map Prod.snd

def length (d : Dict α β) : Nat := d.entries.length

@[simp] theorem entries_empty : (empty : Dict α β).entries = [] := rfl
@[simp] theorem keys_empty : (empty : Dict α β).keys = [] := rfl
@[simp] theorem values_empty : (empty : Dict α β).values = [] := rfl
@[simp] theorem length_values (d : Dict α β) : d.values.length = d.length := List.length_map ..
@[simp] theorem length_keys (d : Dict α β) : d.keys.length = d.length := List.length_map ..

theorem mem_keys {d : Dict α β} {k : α} : k ∈ d.keys ↔ ∃ v, (k, v) ∈ d.entries := by
  simp [keys]

theorem mem_values {d : Dict α β} {v : β} : v ∈ d.values ↔ ∃ k, (k, v) ∈ d.entries := by
  simp [values]

theorem keys_nodup (d : Dict α β) : d.keys.Nodup := d.nodup

/-- One key, one value. -/
theorem value_unique {d : Dict α β} {k : α} {v w : β}
    (here : (k, v) ∈ d.entries) (there : (k, w) ∈ d.entries) : v = w :=
  congrArg Prod.snd (List.inj_on_of_nodup_map d.nodup here there rfl)

variable [DecidableEq α]

/-! ## Reading -/

def get? (d : Dict α β) (k : α) : Option β := d.entries.lookup k

def getD (d : Dict α β) (k : α) (default : β) : β := (d.get? k).getD default

def contains (d : Dict α β) (k : α) : Bool := (d.get? k).isSome

theorem mem_of_lookup {entries : List (α × β)} {k : α} {v : β}
    (found : entries.lookup k = some v) : (k, v) ∈ entries := by
  induction entries with
  | nil => simp at found
  | cons e rest ih =>
      obtain ⟨k', v'⟩ := e
      by_cases hit : k = k'
      · subst hit
        simp only [List.lookup_cons_self, Option.some.injEq] at found
        simp [found]
      · rw [List.lookup_cons, beq_false_of_ne hit] at found
        exact List.mem_cons_of_mem _ (ih found)

theorem lookup_of_mem {entries : List (α × β)} (nodup : (entries.map Prod.fst).Nodup) {k : α} {v : β}
    (member : (k, v) ∈ entries) : entries.lookup k = some v := by
  induction entries with
  | nil => simp at member
  | cons e rest ih =>
      obtain ⟨k', v'⟩ := e
      simp only [List.map_cons, List.nodup_cons] at nodup
      rcases List.mem_cons.mp member with same | later
      · cases same; exact List.lookup_cons_self
      · have other : k ≠ k' := by
          rintro rfl
          exact nodup.1 (List.mem_map.mpr ⟨_, later, rfl⟩)
        rw [List.lookup_cons, beq_false_of_ne other]
        exact ih nodup.2 later

theorem get?_eq_some_iff {d : Dict α β} {k : α} {v : β} :
    d.get? k = some v ↔ (k, v) ∈ d.entries :=
  ⟨mem_of_lookup, lookup_of_mem d.nodup⟩

theorem get?_eq_none_iff {d : Dict α β} {k : α} : d.get? k = none ↔ k ∉ d.keys := by
  rw [← not_iff_not, not_not, ← ne_eq, Option.ne_none_iff_exists', mem_keys]
  simp only [get?_eq_some_iff]

theorem contains_iff {d : Dict α β} {k : α} : d.contains k = true ↔ k ∈ d.keys := by
  rw [contains, Option.isSome_iff_exists, mem_keys]
  simp only [get?_eq_some_iff]

@[simp] theorem get?_empty (k : α) : (empty : Dict α β).get? k = none := rfl

@[simp] theorem getD_empty (k : α) (x : β) : (empty : Dict α β).getD k x = x := rfl

theorem getD_of_get? {d : Dict α β} {k : α} {v : β} (found : d.get? k = some v) (x : β) :
    d.getD k x = v := by simp [getD, found]

/-! ## Writing -/

/-- Rewrite the value of `k` where it stands, or append the new entry. -/
def setEntries (k : α) (v : β) : List (α × β) → List (α × β)
  | [] => [(k, v)]
  | e :: rest => if e.1 = k then (k, v) :: rest else e :: setEntries k v rest

theorem mem_setEntries {entries : List (α × β)} (nodup : (entries.map Prod.fst).Nodup)
    {k : α} {v : β} {e : α × β} :
    e ∈ setEntries k v entries ↔ e = (k, v) ∨ (e.1 ≠ k ∧ e ∈ entries) := by
  induction entries with
  | nil => simp [setEntries]
  | cons head rest ih =>
      simp only [List.map_cons, List.nodup_cons] at nodup
      have absent : ∀ e' ∈ rest, e'.1 ≠ head.1 := fun e' member same =>
        nodup.1 (same ▸ List.mem_map_of_mem member)
      by_cases hit : head.1 = k
      · simp only [setEntries, hit, if_true, List.mem_cons]
        constructor
        · rintro (same | later)
          · exact .inl same
          · exact .inr ⟨hit ▸ absent e later, .inr later⟩
        · rintro (same | ⟨other, same | later⟩)
          · exact .inl same
          · exact absurd (same ▸ hit) other
          · exact .inr later
      · simp only [setEntries, hit, if_false, List.mem_cons, ih nodup.2]
        constructor
        · rintro (same | same | ⟨other, later⟩)
          · exact .inr ⟨same ▸ hit, .inl same⟩
          · exact .inl same
          · exact .inr ⟨other, .inr later⟩
        · rintro (same | ⟨other, same | later⟩)
          · exact .inr (.inl same)
          · exact .inl same
          · exact .inr (.inr ⟨other, later⟩)

theorem setEntries_keys_nodup {entries : List (α × β)} (nodup : (entries.map Prod.fst).Nodup)
    (k : α) (v : β) : ((setEntries k v entries).map Prod.fst).Nodup := by
  induction entries with
  | nil => simp [setEntries]
  | cons head rest ih =>
      have later := nodup
      simp only [List.map_cons, List.nodup_cons] at later
      by_cases hit : head.1 = k
      · subst hit
        simp only [setEntries, if_true]
        exact nodup
      · simp only [setEntries, hit, if_false, List.map_cons, List.nodup_cons]
        refine ⟨?_, ih later.2⟩
        simp only [List.mem_map, mem_setEntries later.2]
        rintro ⟨e, same | ⟨-, member⟩, keyed⟩
        · exact hit (by rw [← keyed, same])
        · exact later.1 (List.mem_map.mpr ⟨e, member, keyed⟩)

def set (d : Dict α β) (k : α) (v : β) : Dict α β :=
  ⟨setEntries k v d.entries, setEntries_keys_nodup d.nodup k v⟩

theorem mem_set {d : Dict α β} {k : α} {v : β} {e : α × β} :
    e ∈ (d.set k v).entries ↔ e = (k, v) ∨ (e.1 ≠ k ∧ e ∈ d.entries) :=
  mem_setEntries d.nodup

@[simp] theorem get?_set_self (d : Dict α β) (k : α) (v : β) : (d.set k v).get? k = some v :=
  get?_eq_some_iff.mpr (mem_set.mpr (.inl rfl))

theorem get?_set_of_ne (d : Dict α β) {k k' : α} (other : k' ≠ k) (v : β) :
    (d.set k v).get? k' = d.get? k' := by
  ext w
  simp [get?_eq_some_iff, mem_set, other]

theorem get?_set (d : Dict α β) (k k' : α) (v : β) :
    (d.set k v).get? k' = if k' = k then some v else d.get? k' := by
  split
  · next hit => rw [hit, get?_set_self]
  · next other => exact get?_set_of_ne d other v

/-- What is found after `set`. -/
theorem get?_set_eq_some_iff {d : Dict α β} {k k' : α} {v w : β} :
    (d.set k v).get? k' = some w ↔ (k' = k ∧ w = v) ∨ (k' ≠ k ∧ d.get? k' = some w) := by
  rw [get?_set]
  by_cases hit : k' = k
  · simp [hit, eq_comm]
  · simp [hit]

@[simp] theorem getD_set_self (d : Dict α β) (k : α) (v x : β) : (d.set k v).getD k x = v := by
  simp [getD]

theorem getD_set_of_ne (d : Dict α β) {k k' : α} (other : k' ≠ k) (v x : β) :
    (d.set k v).getD k' x = d.getD k' x := by
  simp [getD, get?_set_of_ne d other]

theorem mem_keys_set {d : Dict α β} {k k' : α} {v : β} :
    k' ∈ (d.set k v).keys ↔ k' = k ∨ k' ∈ d.keys := by
  simp only [mem_keys, mem_set, Prod.mk.injEq]
  by_cases hit : k' = k <;> simp [hit]

theorem mem_values_set {d : Dict α β} {k : α} {v w : β} (member : w ∈ (d.set k v).values) :
    w = v ∨ w ∈ d.values := by
  obtain ⟨k', entry⟩ := mem_values.mp member
  rcases mem_set.mp entry with new | old
  · exact .inl (congrArg Prod.snd new)
  · exact .inr (mem_values.mpr ⟨k', old.2⟩)

/-- A value that writing `k` removed stood under `k`. -/
theorem get?_of_not_mem_set {d : Dict α β} {k : α} {v w : β} (before : w ∈ d.values)
    (after : w ∉ (d.set k v).values) : d.get? k = some w := by
  obtain ⟨k', entry⟩ := mem_values.mp before
  by_cases here : k' = k
  · exact get?_eq_some_iff.mpr (here ▸ entry)
  · exact absurd (mem_values.mpr ⟨k', mem_set.mpr (.inr ⟨here, entry⟩)⟩) after

/-- A new key goes to the end. -/
theorem entries_set_of_absent {d : Dict α β} {k : α} (absent : k ∉ d.keys) (v : β) :
    (d.set k v).entries = d.entries ++ [(k, v)] := by
  have go : ∀ entries : List (α × β), k ∉ entries.map Prod.fst →
      setEntries k v entries = entries ++ [(k, v)] := by
    intro entries
    induction entries with
    | nil => intro _; rfl
    | cons head rest ih =>
        intro absent
        simp only [List.map_cons, List.mem_cons, not_or] at absent
        simp [setEntries, Ne.symm absent.1, ih absent.2]
  exact go d.entries absent

/-- Setting one key after the other, none of them twice, lists them in that order. -/
theorem entries_foldl_set {κ : Type w} (key : κ → α) (value : κ → β) {items : List κ} {d : Dict α β}
    (nodup : (items.map key).Nodup) (absent : ∀ x ∈ items, key x ∉ d.keys) :
    (items.foldl (fun d x => d.set (key x) (value x)) d).entries =
      d.entries ++ items.map fun x => (key x, value x) := by
  induction items generalizing d with
  | nil => simp
  | cons x rest ih =>
      rw [List.map_cons, List.nodup_cons] at nodup
      have entries := entries_set_of_absent (absent x (List.mem_cons_self ..)) (value x)
      rw [List.foldl_cons, ih nodup.2, entries, List.append_assoc]
      · rfl
      · intro y member listed
        rcases mem_keys_set.mp listed with same | before
        · exact nodup.1 (same ▸ List.mem_map_of_mem member)
        · exact absent y (List.mem_cons_of_mem x member) before

/-- Writing what is there changes nothing. -/
theorem set_of_get? {d : Dict α β} {k : α} {v : β} (found : d.get? k = some v) : d.set k v = d := by
  have go : ∀ entries : List (α × β), entries.lookup k = some v → setEntries k v entries = entries := by
    intro entries
    induction entries with
    | nil => intro found; cases found
    | cons head rest ih =>
        intro found
        obtain ⟨k', v'⟩ := head
        by_cases hit : k' = k
        · subst hit
          rw [List.lookup_cons_self, Option.some.injEq] at found
          simp [setEntries, found]
        · rw [List.lookup_cons, beq_false_of_ne (Ne.symm hit)] at found
          simp [setEntries, hit, ih found]
  exact ext (go d.entries found)

/-- A rewritten value that counts for the same leaves the images of the entries as they are. -/
theorem map_entries_set {γ : Type w} (f : α × β → γ) {d : Dict α β} {k : α} {v w : β}
    (found : d.get? k = some v) (same : f (k, w) = f (k, v)) :
    (d.set k w).entries.map f = d.entries.map f := by
  have go : ∀ entries : List (α × β), entries.lookup k = some v →
      (setEntries k w entries).map f = entries.map f := by
    intro entries
    induction entries with
    | nil => intro found; cases found
    | cons head rest ih =>
        intro found
        obtain ⟨k', v'⟩ := head
        by_cases hit : k' = k
        · subst hit
          rw [List.lookup_cons_self, Option.some.injEq] at found
          simp [setEntries, same, found]
        · rw [List.lookup_cons, beq_false_of_ne (Ne.symm hit)] at found
          simp [setEntries, hit, ih found]
  exact go d.entries found

/-! ## Erasing -/

def erase (d : Dict α β) (k : α) : Dict α β :=
  ⟨d.entries.filter fun e => e.1 ≠ k, (List.Sublist.map _ List.filter_sublist).nodup d.nodup⟩

theorem mem_erase {d : Dict α β} {k : α} {e : α × β} :
    e ∈ (d.erase k).entries ↔ e ∈ d.entries ∧ e.1 ≠ k := by
  simp [erase]

@[simp] theorem get?_erase_self (d : Dict α β) (k : α) : (d.erase k).get? k = none := by
  simp [get?_eq_none_iff, mem_keys, mem_erase]

theorem get?_erase_of_ne (d : Dict α β) {k k' : α} (other : k' ≠ k) :
    (d.erase k).get? k' = d.get? k' := by
  ext v
  simp [get?_eq_some_iff, mem_erase, other]

/-- What stands under the other keys, in their order. -/
theorem filterMap_get?_erase (d : Dict α β) {k : α} {keys : List α} (absent : k ∉ keys)
    {γ : Type*} (f : β → γ) : (keys.filterMap fun k' => ((d.erase k).get? k').map f) =
      keys.filterMap fun k' => (d.get? k').map f := by
  apply List.filterMap_congr
  intro k' member
  rw [get?_erase_of_ne d (ne_of_mem_of_not_mem member absent)]

theorem get?_erase (d : Dict α β) (k k' : α) :
    (d.erase k).get? k' = if k' = k then none else d.get? k' := by
  split
  · next hit => rw [hit, get?_erase_self]
  · next other => exact get?_erase_of_ne d other

/-- What is found after `erase`. -/
theorem get?_erase_eq_some_iff {d : Dict α β} {k k' : α} {v : β} :
    (d.erase k).get? k' = some v ↔ k' ≠ k ∧ d.get? k' = some v := by
  rw [get?_erase]
  by_cases hit : k' = k
  · simp [hit]
  · simp [hit]

theorem mem_keys_erase {d : Dict α β} {k k' : α} :
    k' ∈ (d.erase k).keys ↔ k' ∈ d.keys ∧ k' ≠ k := by
  simp only [mem_keys, mem_erase]
  exact ⟨fun ⟨v, member, other⟩ => ⟨⟨v, member⟩, other⟩, fun ⟨⟨v, member⟩, other⟩ => ⟨v, member, other⟩⟩

theorem mem_values_erase {d : Dict α β} {k : α} {w : β} (member : w ∈ (d.erase k).values) :
    w ∈ d.values := by
  obtain ⟨k', entry⟩ := mem_values.mp member
  exact mem_values.mpr ⟨k', (mem_erase.mp entry).1⟩

/-- A value that erasing `k` removed stood under `k`. -/
theorem get?_of_not_mem_erase {d : Dict α β} {k : α} {w : β} (before : w ∈ d.values)
    (after : w ∉ (d.erase k).values) : d.get? k = some w := by
  obtain ⟨k', entry⟩ := mem_values.mp before
  by_cases here : k' = k
  · exact get?_eq_some_iff.mpr (here ▸ entry)
  · exact absurd (mem_values.mpr ⟨k', mem_erase.mpr ⟨entry, here⟩⟩) after

theorem values_erase_sublist (d : Dict α β) (k : α) : (d.erase k).values.Sublist d.values :=
  List.filter_sublist.map Prod.snd

theorem erase_of_absent {d : Dict α β} {k : α} (absent : k ∉ d.keys) : d.erase k = d := by
  refine ext (List.filter_eq_self.mpr fun e member => ?_)
  simp only [ne_eq, decide_not, Bool.not_eq_eq_eq_not, Bool.not_true, decide_eq_false_iff_not]
  rintro rfl
  exact absent (mem_keys.mpr ⟨_, member⟩)

/-- Erasing a present key takes exactly its entry out. -/
theorem perm_erase {d : Dict α β} {k : α} {v : β} (found : d.get? k = some v) :
    d.entries.Perm ((k, v) :: (d.erase k).entries) := by
  have member := get?_eq_some_iff.mp found
  have pairwise : d.entries.Nodup := d.nodup.of_map
  have absent : (k, v) ∉ (d.erase k).entries := fun here => (mem_erase.mp here).2 rfl
  have rest : (d.erase k).entries.Nodup := (d.erase k).nodup.of_map
  refine (List.perm_ext_iff_of_nodup pairwise (List.nodup_cons.mpr ⟨absent, rest⟩)).mpr ?_
  rintro ⟨k', v'⟩
  rw [List.mem_cons, mem_erase, Prod.mk.injEq]
  constructor
  · intro here
    by_cases hit : k' = k
    · subst hit
      exact .inl ⟨rfl, value_unique here member⟩
    · exact .inr ⟨here, hit⟩
  · rintro (⟨rfl, rfl⟩ | ⟨here, -⟩)
    · exact member
    · exact here

/-! ## All values at once -/

/-- Every value is replaced, under its key. -/
def mapValues {γ : Type w} (f : α → β → γ) (d : Dict α β) : Dict α γ where
  entries := d.entries.map fun e => (e.1, f e.1 e.2)
  nodup := by
    rw [List.map_map]
    exact d.nodup

omit [DecidableEq α] in
@[simp] theorem keys_mapValues {γ : Type w} (f : α → β → γ) (d : Dict α β) :
    (d.mapValues f).keys = d.keys := List.map_map

theorem get?_mapValues {γ : Type w} (f : α → β → γ) (d : Dict α β) (k : α) :
    (d.mapValues f).get? k = (d.get? k).map (f k) := by
  cases found : d.get? k with
  | none => exact get?_eq_none_iff.mpr ((keys_mapValues f d).symm ▸ get?_eq_none_iff.mp found)
  | some v => exact get?_eq_some_iff.mpr (List.mem_map.mpr ⟨_, get?_eq_some_iff.mp found, rfl⟩)

end Dict

end BrokerLite.Theory
