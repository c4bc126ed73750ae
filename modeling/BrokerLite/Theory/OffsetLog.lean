/-
# Theory.OffsetLog -- reading an ascending log by position

A log is a list whose records carry strictly ascending integer offsets.  A
reader that wants the records from offset `o` on may look for them by value
(`since`) or compute a position from the first record's offset
(`seek base o`).  This module relates the two.

* Offsets ascend at least by one per position (`Ascending.getElem_add_le`), so
  the position `seek` computes never lies before the wanted record
  (`Ascending.below_le_seek`) and what stands from it on is never too old
  (`Ascending.le_of_mem_drop_seek`).
* The two agree exactly when no offset between the first record and `o` is
  missing, or `o` is past the last record (`Ascending.below_eq_seek_iff`).
-/
import Mathlib.Data.List.Nodup
import Mathlib.Data.List.Pairwise
import Mathlib.Data.Int.Interval
import Mathlib.Tactic.Common

namespace BrokerLite.Theory

set_option autoImplicit false

universe u

variable {α : Type u} (f : α → ℤ)

/-- The offsets of the records grow strictly along the log. -/
def Ascending (l : List α) : Prop := l.Pairwise fun a b => f a < f b

/-- The records whose offset is at least `o`. -/
def since (o : ℤ) (l : List α) : List α := l.filter fun x => o ≤ f x

/-- The records with an offset from `lo` up to, but not including, `hi`. -/
def window (lo hi : ℤ) (l : List α) : List α := l.filter fun x => lo ≤ f x ∧ f x < hi

/-- How many records have an offset below `o`. -/
def below (o : ℤ) (l : List α) : ℕ := l.countP fun x => f x < o

/-- The position of offset `o` counted from a first record at offset `base`. -/
def seek (base o : ℤ) : ℕ := (o - base).toNat

/-- Every offset from `base` up to, but not including, `o` is in the log. -/
def NoHole (base o : ℤ) (l : List α) : Prop := ∀ x, base ≤ x → x < o → x ∈ l.map f

variable {f}

theorem below_le_length (o : ℤ) (l : List α) : below f o l ≤ l.length := List.countP_le_length

theorem below_eq_length_iff {o : ℤ} {l : List α} :
    below f o l = l.length ↔ ∀ x ∈ l, f x < o := by
  simp [below, List.countP_eq_length]

/-- With no hole below `o` there are as many records below it as offsets. -/
theorem NoHole.seek_le_below {base o : ℤ} {l : List α} (complete : NoHole f base o l) :
    seek base o ≤ below f o l := by
  have covered : Finset.Ico base o ⊆ ((l.filter fun x => f x < o).map f).toFinset := by
    intro x member
    obtain ⟨low, high⟩ := Finset.mem_Ico.mp member
    obtain ⟨y, here, rfl⟩ := List.mem_map.mp (complete x low high)
    simp only [List.mem_toFinset, List.mem_map, List.mem_filter, decide_eq_true_eq]
    exact ⟨y, ⟨here, high⟩, rfl⟩
  have counted := Finset.card_le_card covered
  rw [Int.card_Ico] at counted
  refine le_trans counted (le_trans (List.toFinset_card_le _) ?_)
  simp [below, List.countP_eq_length_filter]

/-- A predicate that holds up to a cut and not beyond filters at the cut. -/
theorem filter_eq_take {l : List α} {k : ℕ} {q : α → Bool} (upTo : ∀ x ∈ l.take k, q x = true)
    (past : ∀ x ∈ l.drop k, q x = false) : l.filter q = l.take k := by
  conv_lhs => rw [← List.take_append_drop k l]
  rw [List.filter_append, List.filter_eq_self.mpr upTo,
    List.filter_eq_nil_iff.mpr fun x member => by simp [past x member], List.append_nil]

theorem filter_eq_drop {l : List α} {k : ℕ} {q : α → Bool} (upTo : ∀ x ∈ l.take k, q x = true)
    (past : ∀ x ∈ l.drop k, q x = false) : (l.filter fun x => !q x) = l.drop k := by
  conv_lhs => rw [← List.take_append_drop k l]
  rw [List.filter_append, List.filter_eq_nil_iff.mpr fun x member => by simp [upTo x member],
    List.filter_eq_self.mpr fun x member => by simp [past x member], List.nil_append]

theorem window_eq_nil {lo hi : ℤ} {l : List α} (outside : ∀ x ∈ l, f x < lo ∨ hi ≤ f x) :
    window f lo hi l = [] := by
  refine List.filter_eq_nil_iff.mpr fun x member => ?_
  have := outside x member
  simp only [decide_eq_true_eq]
  omega

/-- A record appended outside the window does not enter it. -/
theorem window_append_single {lo hi : ℤ} (l : List α) {x : α} (outside : f x < lo ∨ hi ≤ f x) :
    window f lo hi (l ++ [x]) = window f lo hi l := by
  have none_ := window_eq_nil (f := f) (l := [x]) (by simpa using outside)
  unfold window at none_ ⊢
  rw [List.filter_append, none_, List.append_nil]

theorem window_congr {g : α → ℤ} {lo hi : ℤ} {l : List α} (same : ∀ x ∈ l, f x = g x) :
    window f lo hi l = window g lo hi l :=
  List.filter_congr fun x member => by rw [same x member]

namespace Ascending

variable {l : List α}

theorem map (ascending : Ascending f l) : (l.map f).Pairwise (· < ·) :=
  List.pairwise_map.mpr ascending

theorem nodup_map (ascending : Ascending f l) : (l.map f).Nodup :=
  ascending.map.imp fun h => ne_of_lt h

theorem nodup (ascending : Ascending f l) : l.Nodup := ascending.nodup_map.of_map

theorem sublist {l' : List α} (ascending : Ascending f l) (sub : l'.Sublist l) : Ascending f l' :=
  List.Pairwise.sublist sub ascending

/-- One position further is at least one offset further. -/
theorem getElem_add_le (ascending : Ascending f l) {i j : ℕ} (le : i ≤ j) (bound : j < l.length) :
    f l[i] + (j - i : ℕ) ≤ f l[j] := by
  induction j, le using Nat.le_induction with
  | base => simp
  | succ j le ih =>
      have next := List.pairwise_iff_getElem.mp ascending j (j + 1) (by omega) bound (by omega)
      have := ih (by omega)
      omega

theorem head_add_le (ascending : Ascending f l) {i : ℕ} (nonempty : 0 < l.length)
    (bound : i < l.length) : f l[0] + i ≤ f l[i] := by
  simpa using ascending.getElem_add_le (Nat.zero_le i) bound

/-- Nothing after a record that is not below `o` is below `o` either. -/
theorem young_of_head {x : α} {rest : List α} (ascending : Ascending f (x :: rest)) {o : ℤ}
    (young : ¬ f x < o) : ∀ y ∈ x :: rest, ¬ f y < o := by
  intro y member
  rcases List.mem_cons.mp member with rfl | member
  · exact young
  · have := (List.pairwise_cons.mp ascending).1 y member
    omega

theorem below_eq_zero_of_head {x : α} {rest : List α} (ascending : Ascending f (x :: rest)) {o : ℤ}
    (young : ¬ f x < o) : below f o (x :: rest) = 0 := by
  rw [below, List.countP_eq_zero]
  simpa using ascending.young_of_head young

/-- The records below `o` come first. -/
theorem getElem_lt_iff (ascending : Ascending f l) (o : ℤ) {i : ℕ} (bound : i < l.length) :
    f l[i] < o ↔ i < below f o l := by
  induction l generalizing i with
  | nil => simp at bound
  | cons x rest ih =>
      obtain ⟨first, later⟩ := List.pairwise_cons.mp ascending
      by_cases old : f x < o
      · cases i with
        | zero => simp [below, old]
        | succ i => simp [below, old, ih later (by simpa using bound)]
      · have young := ascending.young_of_head old
        simp [ascending.below_eq_zero_of_head old, young _ (List.getElem_mem bound)]

/-- The record at offset `o` stands right after the records below `o`. -/
theorem getElem?_eq_some_iff (ascending : Ascending f l) {o : ℤ} {x : α} (at_ : f x = o) {i : ℕ} :
    l[i]? = some x ↔ x ∈ l ∧ i = below f o l := by
  have placed : ∀ j, l[j]? = some x → j = below f o l := by
    intro j found
    obtain ⟨bound, rfl⟩ := List.getElem?_eq_some_iff.mp found
    have notBelow := (ascending.getElem_lt_iff o bound).not.mp (by omega)
    rcases Nat.eq_zero_or_pos j with rfl | pos
    · omega
    · have before := (ascending.getElem_lt_iff o (by omega : j - 1 < l.length)).mp (by
        have := ascending.getElem_add_le (Nat.sub_le j 1) bound
        omega)
      omega
  constructor
  · exact fun found => ⟨List.mem_of_getElem? found, placed i found⟩
  · rintro ⟨member, rfl⟩
    obtain ⟨j, found⟩ := List.mem_iff_getElem?.mp member
    exact placed j found ▸ found

/-- Looking by value is dropping the records below `o`. -/
theorem since_eq_drop (ascending : Ascending f l) (o : ℤ) :
    since f o l = l.drop (below f o l) := by
  induction l with
  | nil => rfl
  | cons x rest ih =>
      obtain ⟨first, later⟩ := List.pairwise_cons.mp ascending
      by_cases old : f x < o
      · have kept := ih later
        simp only [since, below] at kept ⊢
        simp [old, kept]
      · have young := ascending.young_of_head old
        rw [ascending.below_eq_zero_of_head old, List.drop_zero, since, List.filter_eq_self]
        simpa using young

/-- Two adjoining windows make one. -/
theorem window_append (ascending : Ascending f l) {a b c : ℤ} (ab : a ≤ b) (bc : b ≤ c) :
    window f a b l ++ window f b c l = window f a c l := by
  induction l with
  | nil => rfl
  | cons x rest ih =>
      obtain ⟨first, later⟩ := List.pairwise_cons.mp ascending
      have joined := ih later
      rcases lt_or_ge (f x) b with old | young
      · have notLater : ¬ b ≤ f x := by omega
        have beforeEnd : f x < c := by omega
        simp only [window, List.filter_cons, old, notLater, beforeEnd, and_true,
          decide_false, Bool.false_eq_true, if_false] at joined ⊢
        split
        · rw [List.cons_append, joined]
        · exact joined
      · have none_ : window f a b rest = [] :=
          window_eq_nil fun y member => .inr (le_trans young (le_of_lt (first y member)))
        have notEarlier : ¬ f x < b := by omega
        have inside : a ≤ f x := by omega
        rw [none_, List.nil_append] at joined
        simp only [window] at none_ joined ⊢
        simp only [List.filter_cons, young, notEarlier, inside, true_and, and_false, decide_false,
          Bool.false_eq_true, if_false, none_, List.nil_append, joined]

/-- The first `k` records from `o` on are a window, up to one past the last. -/
theorem window_take_since (ascending : Ascending f l) (o : ℤ) (k : ℕ) {x : α}
    (last : ((since f o l).take k).getLast? = some x) :
    window f o (f x + 1) l = (since f o l).take k ∧
      since f (f x + 1) l = (since f o l).drop k := by
  have taken := List.mem_of_getLast? last
  have sorted : Ascending f (since f o l) := ascending.sublist List.filter_sublist
  have low : o ≤ f x := by
    have := (List.mem_filter.mp (List.mem_of_mem_take taken)).2
    simpa using this
  have upTo : ∀ y ∈ (since f o l).take k, f y < f x + 1 := by
    intro y member
    obtain ⟨init, shape⟩ := List.getLast?_eq_some_iff.mp last
    have inner : Ascending f (init ++ [x]) := shape ▸ sorted.sublist (List.take_sublist _ _)
    rw [shape] at member
    rcases List.mem_append.mp member with before | here
    · have := (List.pairwise_append.mp inner).2.2 y before x (List.mem_singleton_self x)
      omega
    · rw [List.mem_singleton.mp here]
      omega
  have past : ∀ y ∈ (since f o l).drop k, ¬ f y < f x + 1 := by
    intro y member
    rw [← List.take_append_drop k (since f o l)] at sorted
    have := (List.pairwise_append.mp sorted).2.2 x taken y member
    omega
  have narrowed : window f o (f x + 1) l = (since f o l).filter fun y => f y < f x + 1 := by
    simp only [window, since, List.filter_filter]
    exact List.filter_congr fun y _ => by simp [Bool.and_comm]
  have advanced : since f (f x + 1) l = (since f o l).filter fun y => !decide (f y < f x + 1) := by
    simp only [since, List.filter_filter]
    refine List.filter_congr fun y _ => ?_
    rcases lt_or_ge (f y) (f x + 1) with old | young
    · simp [old, not_le.mpr old]
    · simp [young, not_lt.mpr young, le_trans low (show f x ≤ f y by omega)]
  rw [narrowed, advanced]
  exact ⟨filter_eq_take (by simpa using upTo) (by simpa using past),
    filter_eq_drop (by simpa using upTo) (by simpa using past)⟩

/-- The computed position is never before the wanted record. -/
theorem below_le_seek (ascending : Ascending f l) (o : ℤ) (nonempty : 0 < l.length) :
    below f o l ≤ seek (f l[0]) o := by
  rcases Nat.eq_zero_or_pos (below f o l) with none_ | some_
  · omega
  · have bound := below_le_length (f := f) o l
    have last : below f o l - 1 < l.length := by omega
    have old := (ascending.getElem_lt_iff o last).mpr (by omega)
    have spread := ascending.head_add_le nonempty last
    unfold seek
    omega

/-- What stands at or after the computed position is not below `o`. -/
theorem le_of_mem_drop_seek (ascending : Ascending f l) (o : ℤ) (nonempty : 0 < l.length) {x : α}
    (member : x ∈ l.drop (seek (f l[0]) o)) : o ≤ f x := by
  have later : x ∈ since f o l := by
    rw [ascending.since_eq_drop]
    exact (List.drop_sublist_drop_left l (ascending.below_le_seek o nonempty)).mem member
  simpa [since] using (List.mem_filter.mp later).2

/-- Below the computed position the log is consecutive once the two agree. -/
theorem noHole_of_below_eq_seek (ascending : Ascending f l) (o : ℤ) (nonempty : 0 < l.length)
    (agree : below f o l = seek (f l[0]) o) : NoHole f (f l[0]) o l := by
  intro x low high
  have bound := below_le_length (f := f) o l
  unfold seek at agree
  have inside : (x - f l[0]).toNat < l.length := by omega
  have last : below f o l - 1 < l.length := by omega
  have old := (ascending.getElem_lt_iff o last).mpr (by omega)
  have spread := ascending.getElem_add_le (i := (x - f l[0]).toNat) (j := below f o l - 1)
    (by omega) last
  have lower := ascending.head_add_le nonempty inside
  exact List.mem_map.mpr ⟨_, List.getElem_mem inside, by omega⟩

/-- **Position and value agree** exactly when no offset before `o` is missing,
or the whole log lies below `o`. -/
theorem below_eq_seek_iff (ascending : Ascending f l) (o : ℤ) (nonempty : 0 < l.length) :
    below f o l = min (seek (f l[0]) o) l.length ↔
      (∀ x ∈ l, f x < o) ∨ NoHole f (f l[0]) o l := by
  have bound := below_le_length (f := f) o l
  have reach := ascending.below_le_seek o nonempty
  constructor
  · intro agree
    rcases Nat.le_total (seek (f l[0]) o) l.length with inside | outside
    · exact .inr (ascending.noHole_of_below_eq_seek o nonempty (by omega))
    · exact .inl (below_eq_length_iff.mp (by omega))
  · rintro (past | complete)
    · have all := below_eq_length_iff.mpr past
      omega
    · have := complete.seek_le_below
      omega

end Ascending

end BrokerLite.Theory
