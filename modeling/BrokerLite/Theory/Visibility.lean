/-
# Theory.Visibility -- handing things out, each to one taker at a time

A store with visibility timeouts: things are ready, or in flight under their key
until an expiry.  Handing one out hides it; it comes back when it is given back
or its expiry passes, and it goes for good when it is settled.

`Visibility` is that store without an order on what is ready, so that a first-in
first-out queue and a priority queue are both instances.  With what was settled
and what was thrown away it is a `Custody` over the four `Place`s; every
operation hands things on in it (`deliver_moved`, `giveBack_moved`,
`settle_moved`, `discard_moved`).
-/
import BrokerLite.Theory.Custody
import BrokerLite.Theory.Dict
import Mathlib.Order.Basic

namespace BrokerLite.Theory

set_option autoImplicit false

universe u v w

/-- What is ready, and what is in flight under which key until when. -/
structure Visibility (α : Type u) (κ : Type v) (τ : Type w) where
  ready : Multiset α
  inFlight : Dict κ (α × τ)

inductive Place where
  | ready
  | inFlight
  | settled
  | discarded
  deriving DecidableEq

instance : Fintype Place where
  elems := {.ready, .inFlight, .settled, .discarded}
  complete := by rintro ⟨⟩ <;> decide

theorem Place.total_eq {α : Type u} (c : Custody Place α) :
    c.total = c .ready + (c .inFlight + (c .settled + c .discarded)) := by
  simp [Custody.total, Finset.univ, Fintype.elems]

/-- The places that nothing leaves. -/
def Place.Final : Place → Prop
  | .settled | .discarded => True
  | _ => False

namespace Visibility

variable {α : Type u} {κ : Type v} {τ : Type w}

/-- The things in flight. -/
def held (v : Visibility α κ τ) : Multiset α := ↑(v.inFlight.values.map Prod.fst)

/-- Where everything is, with what was settled and thrown away so far. -/
def custody (v : Visibility α κ τ) (settled discarded : Multiset α) : Custody Place α
  | .ready => v.ready
  | .inFlight => v.held
  | .settled => settled
  | .discarded => discarded

/-- Keys of the things in flight that have expired, in the order of delivery. -/
def expired [LE τ] [DecidableLE τ] (now : τ) (inFlight : Dict κ (α × τ)) : List κ :=
  (inFlight.entries.filter fun e => e.2.2 ≤ now).map Prod.fst

variable [DecidableEq κ] (key : α → κ)

def enter (v : Visibility α κ τ) (a : α) : Visibility α κ τ := { v with ready := a ::ₘ v.ready }

def deliver [DecidableEq α] (v : Visibility α κ τ) (a : α) (expiry : τ) : Visibility α κ τ where
  ready := v.ready.erase a
  inFlight := v.inFlight.set (key a) (a, expiry)

/-- Take what stands under `k` out for good. -/
def settle (v : Visibility α κ τ) (k : κ) : Visibility α κ τ :=
  { v with inFlight := v.inFlight.erase k }

/-- Put what stands under `k` back. -/
def giveBack (v : Visibility α κ τ) (k : κ) : Visibility α κ τ :=
  match v.inFlight.get? k with
  | none => v
  | some e => { ready := e.1 ::ₘ v.ready, inFlight := v.inFlight.erase k }

def giveBackAll (v : Visibility α κ τ) (ks : List κ) : Visibility α κ τ := ks.foldl giveBack v

/-- Throw away what is ready. -/
def discard (v : Visibility α κ τ) : Visibility α κ τ := { v with ready := 0 }

/-- Everything in flight stands under its own key. -/
def Keyed (v : Visibility α κ τ) : Prop := ∀ k e, v.inFlight.get? k = some e → key e.1 = k

variable {key} {v : Visibility α κ τ} {a : α} {k : κ} {e : α × τ} {settled discarded : Multiset α}

theorem mem_held : a ∈ v.held ↔ ∃ k t, v.inFlight.get? k = some (a, t) := by
  simp only [held, Dict.get?_eq_some_iff, Multiset.mem_coe, List.mem_map, Dict.mem_values]
  constructor
  · rintro ⟨⟨_, t⟩, ⟨k, entry⟩, rfl⟩
    exact ⟨k, t, entry⟩
  · rintro ⟨k, t, entry⟩
    exact ⟨(a, t), ⟨k, entry⟩, rfl⟩

theorem giveBack_of_absent (absent : v.inFlight.get? k = none) : v.giveBack k = v := by
  simp [giveBack, absent]

theorem giveBack_of_found (found : v.inFlight.get? k = some e) :
    v.giveBack k = { ready := e.1 ::ₘ v.ready, inFlight := v.inFlight.erase k } := by
  simp [giveBack, found]

theorem held_erase (found : v.inFlight.get? k = some e) :
    v.held = e.1 ::ₘ ↑((v.inFlight.erase k).values.map Prod.fst) :=
  Multiset.coe_eq_coe.mpr (((Dict.perm_erase found).map Prod.snd).map Prod.fst)

/-! ## Every operation hands things on -/

omit [DecidableEq κ] in
theorem enter_entered (v : Visibility α κ τ) (a : α) (settled discarded : Multiset α) :
    Custody.Entered a .ready (v.custody settled discarded) ((v.enter a).custody settled discarded) := by
  rintro ⟨⟩ <;> simp [custody, enter, held, add_comm _ {a}]

theorem deliver_moved [DecidableEq α] (ready : a ∈ v.ready) (absent : key a ∉ v.inFlight.keys)
    (expiry : τ) : Custody.Moved {a} .ready .inFlight (v.custody settled discarded)
      ((v.deliver key a expiry).custody settled discarded) := by
  rintro ⟨⟩
  · simp [custody, deliver, add_comm _ {a}, Multiset.cons_erase ready]
  · simp only [custody, held, deliver, Dict.values, Dict.entries_set_of_absent absent]
    simp [← Multiset.coe_add]
  · simp [custody]
  · simp [custody]

theorem settle_moved (found : v.inFlight.get? k = some e) :
    Custody.Moved {e.1} .inFlight .settled (v.custody settled discarded)
      ((v.settle k).custody (e.1 ::ₘ settled) discarded) := by
  rintro ⟨⟩
  · simp [custody, settle]
  · simp only [custody, held_erase found]
    simp [held, settle, add_comm _ {e.1}]
  · simp [custody, add_comm _ {e.1}]
  · simp [custody]

theorem giveBack_moved (found : v.inFlight.get? k = some e) :
    Custody.Moved {e.1} .inFlight .ready (v.custody settled discarded)
      ((v.giveBack k).custody settled discarded) := by
  rintro ⟨⟩
  · simp [custody, giveBack, found, add_comm _ {e.1}]
  · simp only [custody, held_erase found]
    simp [held, giveBack, found, add_comm _ {e.1}]
  · simp [custody]
  · simp [custody]

omit [DecidableEq κ] in
theorem discard_moved (v : Visibility α κ τ) (settled discarded : Multiset α) :
    Custody.Moved v.ready .ready .discarded (v.custody settled discarded)
      (v.discard.custody settled (v.ready + discarded)) := by
  rintro ⟨⟩ <;> simp [custody, discard, held, add_comm]

theorem giveBack_kept (v : Visibility α κ τ) (k : κ) (settled discarded : Multiset α) :
    Custody.Kept Place.Final (v.custody settled discarded) ((v.giveBack k).custody settled discarded) := by
  cases found : v.inFlight.get? k with
  | none =>
      rw [giveBack_of_absent found]
      exact .refl _
  | some e => exact (giveBack_moved found).kept not_false

theorem giveBackAll_kept (v : Visibility α κ τ) (ks : List κ) (settled discarded : Multiset α) :
    Custody.Kept Place.Final (v.custody settled discarded)
      ((v.giveBackAll ks).custody settled discarded) := by
  induction ks generalizing v with
  | nil => exact .refl _
  | cons k rest ih => exact (giveBack_kept v k settled discarded).trans (ih (v.giveBack k))

/-! ## What is in flight -/

theorem get?_giveBack (v : Visibility α κ τ) (k k' : κ) :
    (v.giveBack k).inFlight.get? k' = if k' = k then none else v.inFlight.get? k' := by
  cases found : v.inFlight.get? k with
  | none =>
      rw [giveBack_of_absent found]
      split
      · next same => rw [same, found]
      · rfl
  | some e => rw [giveBack_of_found found, Dict.get?_erase]

theorem get?_giveBackAll (v : Visibility α κ τ) (ks : List κ) (k : κ) :
    (v.giveBackAll ks).inFlight.get? k = if k ∈ ks then none else v.inFlight.get? k := by
  induction ks generalizing v with
  | nil => simp [giveBackAll]
  | cons first rest ih =>
      have later := ih (v.giveBack first)
      rw [get?_giveBack] at later
      simp only [giveBackAll, List.foldl_cons, List.mem_cons] at later ⊢
      rw [later]
      by_cases here : k = first <;> simp [here]

/-- A key is among the expired ones exactly if it has expired. -/
theorem mem_expired [LE τ] [DecidableLE τ] {now : τ} {inFlight : Dict κ (α × τ)} :
    k ∈ expired now inFlight ↔ ∃ e, inFlight.get? k = some e ∧ e.2 ≤ now := by
  simp only [expired, List.mem_map, List.mem_filter, decide_eq_true_eq, Dict.get?_eq_some_iff]
  constructor
  · rintro ⟨⟨k', e⟩, ⟨member, due⟩, rfl⟩
    exact ⟨e, member, due⟩
  · rintro ⟨e, member, due⟩
    exact ⟨(k, e), ⟨member, due⟩, rfl⟩

omit [DecidableEq κ] in
theorem expired_nodup [LE τ] [DecidableLE τ] (now : τ) (inFlight : Dict κ (α × τ)) :
    (expired now inFlight).Nodup :=
  inFlight.nodup.sublist (List.filter_sublist.map Prod.fst)

/-- What has not expired stays in flight. -/
theorem get?_giveBackAll_expired [Preorder τ] [DecidableLE τ] {now : τ}
    (found : v.inFlight.get? k = some e) (early : ¬ e.2 ≤ now) :
    (v.giveBackAll (expired now v.inFlight)).inFlight.get? k = some e := by
  rw [get?_giveBackAll, if_neg, found]
  rintro due
  obtain ⟨e', found', due⟩ := mem_expired.mp due
  rw [found] at found'
  cases found'
  exact early due

theorem giveBack_inFlight (v : Visibility α κ τ) (k : κ) :
    (v.giveBack k).inFlight = v.inFlight.erase k := by
  cases found : v.inFlight.get? k with
  | none => rw [giveBack_of_absent found, Dict.erase_of_absent (Dict.get?_eq_none_iff.mp found)]
  | some e => rw [giveBack_of_found found]

theorem entries_giveBackAll (v : Visibility α κ τ) (ks : List κ) :
    (v.giveBackAll ks).inFlight.entries = v.inFlight.entries.filter fun e => e.1 ∉ ks := by
  induction ks generalizing v with
  | nil => simp [giveBackAll]
  | cons k rest ih =>
      have later := ih (v.giveBack k)
      rw [giveBack_inFlight, Dict.erase, List.filter_filter] at later
      rw [giveBackAll, List.foldl_cons]
      show (giveBackAll _ rest).inFlight.entries = _
      rw [later]
      apply List.filter_congr
      intro e _
      simp [Bool.and_comm]

/-- What has expired is taken out of flight, and nothing else. -/
theorem entries_giveBackAll_expired [LE τ] [DecidableLE τ] (v : Visibility α κ τ) (now : τ) :
    (v.giveBackAll (expired now v.inFlight)).inFlight.entries =
      v.inFlight.entries.filter fun e => ¬ e.2.2 ≤ now := by
  rw [entries_giveBackAll]
  apply List.filter_congr
  intro e member
  have found := Dict.get?_eq_some_iff.mpr member
  have due : e.1 ∈ expired now v.inFlight ↔ e.2.2 ≤ now := by
    rw [mem_expired]
    simp [found]
  simp [due]

/-- As many things are given back as have expired. -/
theorem card_giveBackAll_expired [LE τ] [DecidableLE τ] (v : Visibility α κ τ) (now : τ) :
    (v.giveBackAll (expired now v.inFlight)).ready.card =
      v.ready.card + (expired now v.inFlight).length := by
  have total := congrArg Multiset.card (giveBackAll_kept v (expired now v.inFlight) 0 0).total
  have left := congrArg List.length (entries_giveBackAll_expired v now)
  have split := List.length_eq_length_filter_add (l := v.inFlight.entries) fun e => e.2.2 ≤ now
  rw [Place.total_eq, Place.total_eq] at total
  simp only [custody, held, Dict.values, Multiset.card_add, Multiset.coe_card, List.length_map,
    Multiset.card_zero] at total
  simp only [expired, List.length_map, decide_not] at left ⊢
  rw [expired] at total
  omega

/-- The keys that have expired, looked up. -/
theorem filterMap_expired [LE τ] [DecidableLE τ] (now : τ) (inFlight : Dict κ (α × τ)) :
    (expired now inFlight).filterMap (fun k => (inFlight.get? k).map Prod.fst) =
      (inFlight.entries.filter fun e => e.2.2 ≤ now).map fun e => e.2.1 := by
  rw [expired, List.filterMap_map, ← List.filterMap_eq_map]
  apply List.filterMap_congr
  intro e member
  have found := Dict.get?_eq_some_iff.mpr (List.mem_of_mem_filter member)
  simp [found]

/-! ## The key of a thing in flight -/

theorem get?_of_settle (k : κ) {k' : κ} (found : (v.settle k).inFlight.get? k' = some e) :
    v.inFlight.get? k' = some e :=
  (Dict.get?_erase_eq_some_iff.mp found).2

theorem get?_of_giveBackAll (ks : List κ) {k' : κ}
    (found : (v.giveBackAll ks).inFlight.get? k' = some e) : v.inFlight.get? k' = some e := by
  rw [get?_giveBackAll] at found
  split at found
  · cases found
  · exact found

/-- While everything is there once and keys tell things apart, the key of a
ready thing is not in flight. -/
theorem key_not_in_flight (keyed : v.Keyed key)
    (once : (v.custody settled discarded).total.Nodup)
    (apart : ∀ a ∈ (v.custody settled discarded).total, ∀ b ∈ (v.custody settled discarded).total,
      key a = key b → a = b) (ready : a ∈ v.ready) : key a ∉ v.inFlight.keys := by
  intro present
  obtain ⟨e, entry⟩ := Dict.mem_keys.mp present
  have found := Dict.get?_eq_some_iff.mpr entry
  have held : e.1 ∈ v.held := mem_held.mpr ⟨_, _, found⟩
  have same : e.1 = a := apart _ (Custody.mem_total.mpr ⟨.inFlight, held⟩) _
    (Custody.mem_total.mpr ⟨.ready, ready⟩) (keyed _ _ found)
  have place := Custody.place_unique once (i := .inFlight) (j := .ready) held (same ▸ ready)
  cases place

end Visibility

end BrokerLite.Theory
