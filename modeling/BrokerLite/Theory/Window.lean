/-
# Theory.Window -- what is left of a sequence of arrivals

A `Window` is a sequence of arrivals and how many of them have gone, the oldest
first; what is kept is the rest, in the order of arrival.  Things enter at the
end and leave at the front.  `slide` lets one thing in and as many out as a limit
demands: a window that only slides keeps the last `limit` arrivals
(`kept_slide_last`).  `Taken` is a record of things that went and were noted.

`Spaced n l` says that no `n` things in a row of `l` repeat.
-/
import Mathlib.Data.List.DropRight
import Mathlib.Data.List.Infix
import Mathlib.Data.List.Nodup

namespace BrokerLite.Theory

set_option autoImplicit false

universe u v

/-- The last `n` of what follows the last `n` are the last `n` of all. -/
theorem rtake_concat_rtake {α : Type u} (l : List α) (a : α) (n : ℕ) :
    (l.rtake n ++ [a]).rtake n = (l ++ [a]).rtake n := by
  rw [List.rtake, List.rtake, List.rtake, List.length_append, List.length_append,
    ← List.drop_append_of_le_length (Nat.sub_le ..), List.drop_drop]
  congr 1
  simp only [List.length_drop, List.length_singleton]
  omega

structure Window (α : Type u) where
  arrivals : List α
  gone : ℕ
  inside : gone ≤ arrivals.length

namespace Window

variable {α : Type u}

def empty : Window α := ⟨[], 0, le_refl 0⟩

/-- What has not gone. -/
def kept (w : Window α) : List α := w.arrivals.drop w.gone

def enter (w : Window α) (a : α) : Window α where
  arrivals := w.arrivals ++ [a]
  gone := w.gone
  inside := by
    have inside := w.inside
    rw [List.length_append]
    omega

/-- The oldest `n` go, or all that are left. -/
def leave (w : Window α) (n : ℕ) : Window α where
  arrivals := w.arrivals
  gone := min (w.gone + n) w.arrivals.length
  inside := min_le_right ..

/-- One thing enters, and the oldest go until at most `limit` are left. -/
def slide (limit : ℕ) (w : Window α) (a : α) : Window α :=
  (w.enter a).leave (w.kept.length + 1 - limit)

variable (w : Window α) (a : α) (n limit : ℕ)

@[simp] theorem kept_empty : (empty : Window α).kept = [] := rfl

@[simp] theorem arrivals_enter : (w.enter a).arrivals = w.arrivals ++ [a] := rfl

@[simp] theorem arrivals_slide : (w.slide limit a).arrivals = w.arrivals ++ [a] := rfl

@[simp] theorem kept_enter : (w.enter a).kept = w.kept ++ [a] :=
  List.drop_append_of_le_length w.inside

@[simp] theorem kept_leave : (w.leave n).kept = w.kept.drop n := by
  simp only [kept, leave, List.drop_drop]
  rcases le_total (w.gone + n) w.arrivals.length with fewer | all
  · rw [min_eq_left fewer]
  · rw [min_eq_right all, List.drop_length, List.drop_eq_nil_of_le all]

theorem gone_add_length : w.gone + w.kept.length = w.arrivals.length := by
  have inside := w.inside
  rw [kept, List.length_drop]
  omega

theorem kept_suffix : w.kept <:+ w.arrivals := List.drop_suffix ..

theorem kept_getElem? (i : ℕ) : w.kept[i]? = w.arrivals[w.gone + i]? := List.getElem?_drop

theorem kept_slide : (w.slide limit a).kept = (w.kept ++ [a]).rtake limit := by
  rw [slide, kept_leave, kept_enter, List.rtake, List.length_append, List.length_singleton]

/-- A window that has only slid keeps the last arrivals. -/
theorem kept_slide_last (last : w.kept = w.arrivals.rtake limit) :
    (w.slide limit a).kept = (w.slide limit a).arrivals.rtake limit := by
  rw [kept_slide, last, arrivals_slide, rtake_concat_rtake]

theorem gone_le_leave : w.gone ≤ (w.leave n).gone := by
  have inside := w.inside
  show w.gone ≤ min (w.gone + n) w.arrivals.length
  omega

/-! ## What was taken out -/

variable {β : Type v} (f : α → β)

/-- A record of things taken out, each with its number of arrival and what `f` shows
of it: they came out in the order of arrival, and none of them is kept. -/
structure Taken (w : Window α) (taken : List (β × ℕ)) : Prop where
  increasing : (taken.map Prod.snd).Pairwise (· < ·)
  out : ∀ e ∈ taken, e.2 < w.gone ∧ w.arrivals[e.2]?.map f = some e.1

variable {w} {f} {taken : List (β × ℕ)}

theorem Taken.nil (w : Window α) : w.Taken f [] := ⟨List.Pairwise.nil, nofun⟩

theorem Taken.nodup (record : w.Taken f taken) : (taken.map Prod.snd).Nodup :=
  record.increasing.imp fun lower => ne_of_lt lower

theorem Taken.enter (record : w.Taken f taken) (a : α) : (w.enter a).Taken f taken := by
  refine ⟨record.increasing, fun e member => ?_⟩
  obtain ⟨below, value⟩ := record.out e member
  refine ⟨below, ?_⟩
  rw [arrivals_enter, List.getElem?_append_left (lt_of_lt_of_le below w.inside)]
  exact value

/-- Things go unrecorded. -/
theorem Taken.discard (record : w.Taken f taken) (n : ℕ) : (w.leave n).Taken f taken :=
  ⟨record.increasing, fun e member =>
    ⟨lt_of_lt_of_le (record.out e member).1 (w.gone_le_leave n), (record.out e member).2⟩⟩

/-- The oldest `n` go, and are recorded under their numbers. -/
theorem Taken.leave (record : w.Taken f taken) (n : ℕ) :
    (w.leave n).Taken f (taken ++ ((w.kept.take n).map f).zipIdx w.gone) := by
  have total := w.gone_add_length
  have numbers : ∀ e ∈ ((w.kept.take n).map f).zipIdx w.gone, w.gone ≤ e.2 :=
    fun e member => List.le_snd_of_mem_zipIdx member
  constructor
  · rw [List.map_append, List.zipIdx_map_snd, List.pairwise_append]
    refine ⟨record.increasing, List.pairwise_lt_range', ?_⟩
    intro i early j late
    obtain ⟨e, member, rfl⟩ := List.mem_map.mp early
    exact lt_of_lt_of_le (record.out e member).1 (List.mem_range'_1.mp late).1
  · intro e member
    rcases List.mem_append.mp member with early | late
    · exact (record.discard n).out e early
    · obtain ⟨low, value⟩ := List.mem_zipIdx_iff_le_and_getElem?_sub.mp late
      have high := List.snd_lt_add_of_mem_zipIdx late
      rw [List.length_map, List.length_take] at high
      refine ⟨?_, ?_⟩
      · show e.2 < min (w.gone + n) w.arrivals.length
        omega
      · have first : e.2 - w.gone < n := by omega
        rw [List.getElem?_map, List.getElem?_take_of_lt first, kept_getElem?,
          Nat.add_sub_cancel' low] at value
        exact value

end Window

/-! ## No repetition nearby -/

variable {α : Type u}

/-- No `n` things in a row repeat. -/
def Spaced (n : ℕ) (l : List α) : Prop := ∀ block, block <:+: l → block.length ≤ n → block.Nodup

theorem spaced_nil (n : ℕ) : Spaced n ([] : List α) := by
  intro block infix_ _
  rw [List.infix_nil.mp infix_]
  exact List.nodup_nil

/-- An end of a list that is not longer than `n` is within its last `n`. -/
theorem mem_rtake_of_suffix {block l : List α} {n : ℕ} (suffix : block <:+ l) (short : block.length ≤ n)
    {a : α} (member : a ∈ block) : a ∈ l.rtake n := by
  obtain ⟨front, rfl⟩ := suffix
  rw [List.rtake, List.length_append, List.drop_append]
  apply List.mem_append_right
  rw [show front.length + block.length - n - front.length = 0 by omega, List.drop_zero]
  exact member

/-- A thing that is not among the last `n` may follow. -/
theorem Spaced.concat {n : ℕ} {l : List α} {a : α} (spaced : Spaced (n + 1) l) (new : a ∉ l.rtake n) :
    Spaced (n + 1) (l ++ [a]) := by
  intro block infix_ short
  rcases List.infix_concat_iff.mp infix_ with last | earlier
  · rcases List.suffix_concat_iff.mp last with rfl | ⟨block, rfl, suffix⟩
    · exact List.nodup_nil
    · rw [List.length_append, List.length_singleton] at short
      have before : block.Nodup := spaced block suffix.isInfix (by omega)
      have absent : a ∉ block := fun member => new (mem_rtake_of_suffix suffix (by omega) member)
      rw [List.nodup_append]
      refine ⟨before, List.nodup_singleton a, fun x member y here same => absent ?_⟩
      rw [← List.mem_singleton.mp here, ← same]
      exact member
  · exact spaced block earlier short

end BrokerLite.Theory
