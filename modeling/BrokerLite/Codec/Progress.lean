/-
# Codec.Progress -- decoding ends, whatever the input claims

The counts and lengths of the format are up to `2 ^ 32 - 1`, and lists nest.  Every
call of `_unpack` reads a tag, which has to be there: a call at the end of the data
fails, and one that succeeds has moved on.  So calls do not nest more deeply than there
are bytes, and a limit above that number is never reached (`unpack_not_recursionError`).

`unpackMetered` is `unpack` with a count of the values that calls have returned,
the nested ones and those before an error included.
-/
import BrokerLite.Codec.Truncation
import BrokerLite.Theory.Metering

namespace BrokerLite

open Theory Theory.Cursor

set_option autoImplicit false

namespace Value

mutual

/-- The value and everything in it. -/
def nodes : Value → ℕ
  | .list items | .tuple items => 1 + itemNodes items
  | .dict entries => 1 + entryNodes entries
  | _ => 1

def itemNodes : List Value → ℕ
  | [] => 0
  | v :: rest => v.nodes + itemNodes rest

def entryNodes : List (Value × Value) → ℕ
  | [] => 0
  | (k, v) :: rest => k.nodes + v.nodes + entryNodes rest

end

theorem itemNodes_concat (items : List Value) (v : Value) :
    itemNodes (items ++ [v]) = itemNodes items + v.nodes := by
  induction items with
  | nil => simp [itemNodes]
  | cons first rest ih => rw [List.cons_append, itemNodes, ih, itemNodes, Nat.add_assoc]

/-- A key that is there already loses its value, and the new key is dropped. -/
theorem entryNodes_setItem (entries : List (Value × Value)) (k v : Value) :
    entryNodes (setItem entries k v) ≤ entryNodes entries + (k.nodes + v.nodes) := by
  induction entries with
  | nil => simp [setItem, entryNodes]
  | cons e rest ih =>
      rw [setItem]
      split
      · simp only [entryNodes]
        omega
      · simp only [entryNodes]
        omega

end Value

namespace BinarySerializer

/-! ## The limit -/

theorem avoids_byte (data : List UInt8) (start : ℕ) : Avoids .recursionError data start byte := by
  intro offset _ raised
  unfold byte at raised
  split at raised <;> cases raised

theorem avoids_field (width : ℕ) (data : List UInt8) (start : ℕ) :
    Avoids .recursionError data start (field width) := by
  intro offset _ raised
  unfold field at raised
  split at raised <;> cases raised

theorem avoids_taken (length : ℕ) (data : List UInt8) (start : ℕ) :
    Avoids .recursionError data start (taken length) := by
  intro offset _ raised
  cases raised

theorem avoids_unpackTagged {next : Cursor UInt8 Raised Value} {data : List UInt8} {start : ℕ}
    (avoids : Avoids .recursionError data start next) (forward : Forward next data) (tag : UInt8) :
    Avoids .recursionError data start (unpackTagged next tag) := by
  have item : ∀ items, Avoids .recursionError data start (unpackItem next items) := fun items =>
    avoids.map nofun
  have entry : ∀ result, Avoids .recursionError data start (unpackEntry next result) := fun result =>
    avoids.bind forward fun key => avoids.map fun value => by split <;> simp
  have count := avoids_field 4 data start
  have counted := forward_field 4 data
  have payload : Avoids .recursionError data start ((field 4).bind fun length => taken (natOf length)) :=
    count.bind counted fun length => avoids_taken _ data start
  have text : ∀ val, (decodeUtf8 val).map Value.str ≠ .error .recursionError := fun val => by
    unfold decodeUtf8
    split <;> simp [Except.map]
  unfold unpackTagged
  -- one goal for each tag, in the order of the source
  refine .ite ?_ (.ite ?_ (.ite ?_ (.ite ?_ (.ite ?_ (.ite ?_ (.ite ?_ (.ite ?_ ?_)))))))
  · exact avoids_here _
  · exact (avoids_byte data start).map nofun
  · exact (avoids_field 8 data start).map nofun
  · exact (avoids_field 8 data start).map nofun
  · exact payload.map text
  · exact payload.map nofun
  · exact (count.bind counted fun _ => avoids_rounds item (fun _ => forward.map _) _ _).map nofun
  · exact (count.bind counted fun _ =>
      avoids_rounds entry (fun _ => forward.bind fun _ => forward.map _) _ _).map nofun
  · intro offset _ raised
    cases raised

/-- A limit that covers what is left of the data is not reached. -/
theorem avoids_unpack (data : List UInt8) (limit : ℕ) :
    Avoids .recursionError data (data.length - limit) (unpack (limit + 1)) := by
  induction limit with
  | zero =>
      intro offset late raised
      have absent : data[offset]? = none := List.getElem?_eq_none (by omega)
      simp [unpack, Cursor.bind, byte, absent] at raised
  | succ limit ih =>
      have later := ih.mono (show data.length - limit ≤ data.length - (limit + 1) + 1 by omega)
      have forward := (advances_unpack (limit + 1) data).forward
      exact (avoids_byte data _).after (advances_byte data) fun tag =>
        avoids_unpackTagged later forward tag

theorem unpack_not_recursionError (data : List UInt8) (offset : ℕ) :
    unpack (data.length + 1) data offset ≠ .error .recursionError :=
  avoids_unpack data data.length offset (by omega)

/-! ## The values -/

open Metered

/-- One round of the loop over a list. -/
def meteredItem (next : Metered UInt8 Raised Value) (items : List Value) :
    Metered UInt8 Raised (List Value) :=
  next.map fun value => .ok (items ++ [value])

/-- One round of the loop over a dict. -/
def meteredEntry (next : Metered UInt8 Raised Value) (result : List (Value × Value)) :
    Metered UInt8 Raised (List (Value × Value)) :=
  next.bind fun key => next.map fun value =>
    if key.hashable then .ok (Value.setItem result key value)
    else .error (.typeError s!"unhashable type: '{key.typeName}'")

/-- Only behind the tags of a list and a dict something is nested. -/
def meteredTagged (next : Metered UInt8 Raised Value) (tag : UInt8) : Metered UInt8 Raised Value :=
  if tag = tagList then
    ((free (field 4)).bind fun count => Metered.rounds (meteredItem next) (natOf count) []).map fun items =>
      .ok (.list items)
  else if tag = tagDict then
    ((free (field 4)).bind fun count => Metered.rounds (meteredEntry next) (natOf count) []).map fun result =>
      .ok (.dict result)
  else free (unpackTagged next.erase tag)

/-- `_unpack`, and how many values it and the calls it makes return. -/
def unpackMetered : ℕ → Metered UInt8 Raised Value
  | 0 => free fun _ _ => .error .recursionError
  | limit + 1 => ((free byte).bind (meteredTagged (unpackMetered limit))).tick

theorem erase_meteredItem (next : Metered UInt8 Raised Value) (items : List Value) :
    (meteredItem next items).erase = unpackItem next.erase items := rfl

theorem erase_meteredEntry (next : Metered UInt8 Raised Value) (result : List (Value × Value)) :
    (meteredEntry next result).erase = unpackEntry next.erase result := by
  rw [meteredEntry, erase_bind]
  rfl

theorem erase_meteredTagged (next : Metered UInt8 Raised Value) (tag : UInt8) :
    (meteredTagged next tag).erase = unpackTagged next.erase tag := by
  unfold meteredTagged
  split
  · next list =>
      simp only [list, unpackTagged_list, erase_map, erase_bind, erase_free, erase_rounds,
        erase_meteredItem]
  · split
    · next dict =>
        simp only [dict, unpackTagged_dict, erase_map, erase_bind, erase_free, erase_rounds,
          erase_meteredEntry]
    · rfl

/-- Without the count it is the same. -/
theorem erase_unpackMetered (limit : ℕ) : (unpackMetered limit).erase = unpack limit := by
  induction limit with
  | zero => rfl
  | succ limit ih =>
      rw [unpackMetered, erase_tick, erase_bind, erase_free, unpack]
      congr 1
      funext tag
      rw [erase_meteredTagged, ih]

theorem pays_byte (data : List UInt8) : Pays 1 (free byte) data where
  ok offset n b next done := by
    obtain ⟨rfl, found⟩ := Prod.mk.inj done
    unfold byte at found
    split at found
    · next inside =>
        cases found
        obtain ⟨short, -⟩ := List.getElem?_eq_some_iff.mp inside
        omega
    · cases found
  error offset n e raised := by
    obtain ⟨rfl, -⟩ := Prod.mk.inj raised
    omega

theorem pays_meteredTagged {next : Metered UInt8 Raised Value} {data : List UInt8}
    (pays : Pays 0 next data) (forward : Forward next.erase data) (tag : UInt8) :
    Pays 0 (meteredTagged next tag) data := by
  have count : Pays 0 (free (field 4)) data := pays_free (forward_field 4 data)
  have item : ∀ items, Pays 0 (meteredItem next items) data := fun _ => pays.map _
  have entry : ∀ result, Pays 0 (meteredEntry next result) data := fun _ => pays.bind fun _ => pays.map _
  refine .ite ?_ (.ite ?_ ?_)
  · exact (count.bind fun _ => pays_rounds item _ _).map _
  · exact (count.bind fun _ => pays_rounds entry _ _).map _
  · exact pays_free (forward_unpackTagged forward tag)

/-- The byte of its tag pays for a value. -/
theorem pays_unpackMetered (limit : ℕ) (data : List UInt8) : Pays 0 (unpackMetered limit) data := by
  induction limit with
  | zero => exact pays_free fun _ _ _ done => by cases done
  | succ limit ih =>
      have forward : Forward (unpackMetered limit).erase data := by
        rw [erase_unpackMetered]
        exact (advances_unpack limit data).forward
      exact ((pays_byte data).bind fun tag => pays_meteredTagged ih forward tag).tick

/-! ## The values that are returned -/

/-- Behind the other tags there is a value without parts. -/
theorem nodes_of_unpackTagged {next : Cursor UInt8 Raised Value} {tag : UInt8} (list : tag ≠ tagList)
    (dict : tag ≠ tagDict) {data : List UInt8} {offset stop : ℕ} {v : Value}
    (done : unpackTagged next tag data offset = .ok (v, stop)) : v.nodes = 1 := by
  have leaf : ∀ {β : Type} {read : Cursor UInt8 Raised β} {f : β → Except Raised Value},
      (∀ b c, f b = .ok c → c.nodes = 1) → read.map f data offset = .ok (v, stop) → v.nodes = 1 := by
    intro β read f made done
    obtain ⟨b, -, value⟩ := map_eq_ok (show (free read).map f data offset = (0, .ok (v, stop)) from
      Prod.ext rfl done)
    exact made b v value
  unfold unpackTagged at done
  split_ifs at done
  · cases done
    rfl
  · exact leaf (fun b c made => by cases made; rfl) done
  · exact leaf (fun b c made => by cases made; rfl) done
  · exact leaf (fun b c made => by cases made; rfl) done
  · refine leaf (fun b c made => ?_) done
    cases text : decodeUtf8 b with
    | error e =>
        rw [text] at made
        cases made
    | ok s =>
        rw [text] at made
        cases made
        rfl
  · exact leaf (fun b c made => by cases made; rfl) done

theorem measures_meteredTagged {next : Metered UInt8 Raised Value} {data : List UInt8}
    (measures : Measures Value.nodes 0 next data) (tag : UInt8) :
    Measures Value.nodes 1 (meteredTagged next tag) data := by
  have count : Measures (fun _ => 0) 0 (free (field 4)) data := fun _ _ _ _ _ => Nat.zero_le _
  have item : ∀ items, Measures Value.itemNodes (Value.itemNodes items) (meteredItem next items) data := by
    intro items
    apply measures.map
    intro value items' made
    cases made
    exact (Value.itemNodes_concat items value).le
  have entry : ∀ result,
      Measures Value.entryNodes (Value.entryNodes result) (meteredEntry next result) data := by
    intro result
    refine (measures.add (Value.entryNodes result)).bind fun key => measures.map fun value result' made => ?_
    split at made
    · cases made
      show _ ≤ Value.entryNodes result + key.nodes + value.nodes
      rw [Nat.add_assoc]
      exact Value.entryNodes_setItem result key value
    · cases made
  unfold meteredTagged
  split
  · refine (count.bind fun length => measures_rounds item (natOf length) []).map fun items v made => ?_
    cases made
    simp [Value.nodes]
  · split
    · refine (count.bind fun length => measures_rounds entry (natOf length) []).map fun result v made => ?_
      cases made
      simp [Value.nodes]
    · next list dict =>
        intro offset n v stop done
        obtain ⟨rfl, found⟩ := Prod.mk.inj done
        exact (nodes_of_unpackTagged list dict found).le

/-- Every part of the value that is returned was counted. -/
theorem measures_unpackMetered (limit : ℕ) (data : List UInt8) :
    Measures Value.nodes 0 (unpackMetered limit) data := by
  induction limit with
  | zero =>
      intro offset n v stop done
      cases done
  | succ limit ih =>
      have tag : Measures (fun _ => 1) 1 (free byte) data := fun _ _ _ _ _ => Nat.le_add_right 1 _
      exact (tag.bind fun tag => measures_meteredTagged ih tag).tick

/-- **Decoding ends: no recursion limit beyond the length of the data makes a
difference, and whatever the limit, a call that succeeds has moved on, none succeeds at the end of the
data, and no more values are decoded than there are bytes left.** -/
theorem unpack_progress (data : List UInt8) (offset : ℕ) :
    (∀ limit, data.length < limit → unpack limit data offset = unpack (data.length + 1) data offset) ∧
      unpack (data.length + 1) data offset ≠ .error .recursionError ∧
      ∀ limit,
        (∀ value next, unpack limit data offset = .ok (value, next) →
          offset < next ∧ value.nodes ≤ (unpackMetered limit data offset).1) ∧
        (data.length ≤ offset → ∃ raised, unpack limit data offset = .error raised) ∧
        (unpackMetered limit data offset).2 = unpack limit data offset ∧
        (unpackMetered limit data offset).1 ≤ data.length - offset := by
  have same : ∀ limit, (unpackMetered limit data offset).2 = unpack limit data offset :=
    fun limit => congrFun (congrFun (erase_unpackMetered limit) data) offset
  refine ⟨fun limit enough => unpack_eq_of_lt enough offset, unpack_not_recursionError data offset,
    fun limit => ⟨fun value next done => ⟨?_, ?_⟩, ?_, same limit, ?_⟩⟩
  · exact advances_unpack limit data offset value next done
  · rw [← same limit] at done
    have bound := measures_unpackMetered limit data offset _ value next (Prod.ext rfl done)
    rwa [Nat.zero_add] at bound
  · exact hungry_unpack limit data offset
  · exact (pays_unpackMetered limit data).count_le offset

end BinarySerializer

end BrokerLite
