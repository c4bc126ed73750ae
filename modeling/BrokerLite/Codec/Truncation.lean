/-
# Codec.Truncation -- packed values that end early

The reader notices a missing tag, number, length or part: `struct.unpack_from` raises.
It does not notice that a text or a bytes object is short, since a slice behind the end
of the data is no error.  `deserialize_cut_iff` says which cuts go unnoticed: those inside
the object that was written last, if what is left of a text is a text.

A value with a dict that has a list, a tuple or a dict as a key is not read at all
(`legible`): the key is packed, but what is read for it cannot be a key.  Nor is one that is
nested more deeply than the reader's recursion limit.
-/
import BrokerLite.Codec.BinarySerializer
import BrokerLite.Theory.Truncation

namespace BrokerLite

open Theory Theory.Cursor

set_option autoImplicit false

namespace Value

/-- Induction over a value, the parts of a list, a tuple or a dict first. -/
theorem induction {motive : Value → Prop} (none : motive .none) (bool : ∀ b, motive (.bool b))
    (int : ∀ i, motive (.int i)) (float : ∀ bits, motive (.float bits))
    (str : ∀ s, motive (.str s)) (bytes : ∀ b, motive (.bytes b))
    (list : ∀ items, (∀ v ∈ items, motive v) → motive (.list items))
    (tuple : ∀ items, (∀ v ∈ items, motive v) → motive (.tuple items))
    (dict : ∀ entries, (∀ e ∈ entries, motive e.1 ∧ motive e.2) → motive (.dict entries))
    (other : ∀ typeName, motive (.other typeName)) (v : Value) : motive v := by
  refine @Value.rec motive (fun items => ∀ v ∈ items, motive v)
    (fun entries => ∀ e ∈ entries, motive e.1 ∧ motive e.2) (fun e => motive e.1 ∧ motive e.2)
    none bool int float str bytes list tuple dict other ?_ ?_ ?_ ?_ ?_ v
  · exact fun v member => absurd member List.not_mem_nil
  · exact fun v rest head tail => List.forall_mem_cons.mpr ⟨head, tail⟩
  · exact fun e member => absurd member List.not_mem_nil
  · exact fun e rest head tail => List.forall_mem_cons.mpr ⟨head, tail⟩
  · exact fun k v key value => ⟨key, value⟩

/-- A list, a tuple or a dict. -/
def compound : Value → Bool
  | .list _ | .tuple _ | .dict _ => true
  | _ => false

mutual

/-- No dict in the value has a compound key. -/
def legible : Value → Bool
  | .list items | .tuple items => allLegible items
  | .dict entries => entriesLegible entries
  | _ => true

def allLegible : List Value → Bool
  | [] => true
  | v :: rest => v.legible && allLegible rest

def entriesLegible : List (Value × Value) → Bool
  | [] => true
  | (k, v) :: rest => !k.compound && v.legible && entriesLegible rest

end

mutual

/-- The last value without parts that is written, or an empty compound. -/
def writtenLast : Value → Value
  | .list items => lastOfItems (.list []) items
  | .tuple items => lastOfItems (.list []) items
  | .dict entries => lastOfEntries (.dict []) entries
  | v => v

def lastOfItems : Value → List Value → Value
  | last, [] => last
  | _, v :: rest => lastOfItems v.writtenLast rest

def lastOfEntries : Value → List (Value × Value) → Value
  | last, [] => last
  | _, (_, v) :: rest => lastOfEntries v.writtenLast rest

end

end Value

namespace BinarySerializer

/-- `missing` bytes can be cut from the end of a packed text or bytes object without notice. -/
def Unnoticed : Value → ℕ → Prop
  | .str s, missing =>
      missing ≤ (utf8 s).length ∧ ∃ t, utf8 t = (utf8 s).take ((utf8 s).length - missing)
  | .bytes b, missing => missing ≤ b.length
  | _, _ => False

/-- How many bytes of the packed value may be missing, if calls nest up to `limit`. -/
def Cuts (limit : ℕ) (v : Value) (missing : ℕ) : Prop :=
  v.nesting ≤ limit ∧ v.legible = true ∧ (missing = 0 ∨ Unnoticed v.writtenLast missing)

theorem nesting_ne_zero (v : Value) : v.nesting ≠ 0 := by
  cases v <;> simp [Value.nesting]

theorem not_cuts_zero (v : Value) (missing : ℕ) : ¬ Cuts 0 v missing :=
  fun cuts => nesting_ne_zero v (Nat.le_zero.mp cuts.1)

/-! ## What is read -/

theorem decodeUtf8_eq_ok_iff {bytes : List UInt8} {s : String} :
    decodeUtf8 bytes = .ok s ↔ utf8 s = bytes := by
  constructor
  · intro done
    unfold decodeUtf8 String.fromUTF8? at done
    split at done
    · next text found =>
        cases done
        split at found
        · cases found
          simp [utf8, String.fromUTF8]
        · cases found
    · cases done
  · rintro rfl
    exact decodeUtf8_utf8 s

theorem bears_byte (b : UInt8) : Bears byte [b] (· = 0) (· = b) := by
  constructor
  · rintro n rfl
    exact Nat.zero_le _
  · intro before kept missing after whole ended
    cases kept with
    | nil =>
        obtain rfl : missing = [b] := whole.symm
        obtain rfl := ended.resolve_left (by simp)
        exact .inr ⟨by simp, .structError, by simp [byte]⟩
    | cons b' rest =>
        obtain ⟨rfl, none⟩ := List.cons.inj whole
        obtain ⟨rfl, rfl⟩ := List.append_eq_nil_iff.mp none.symm
        exact .inl ⟨rfl, b, by simp [byte], rfl⟩

theorem bears_field (bytes : List UInt8) :
    Bears (field bytes.length) bytes (· = 0) (· = bytes) := by
  constructor
  · rintro n rfl
    exact Nat.zero_le _
  · intro before kept missing after whole ended
    cases missing with
    | nil =>
        obtain rfl : bytes = kept := by simpa using whole
        exact .inl ⟨rfl, bytes, by simp [field], rfl⟩
    | cons b missing =>
        obtain rfl := ended.resolve_left (by simp)
        exact .inr ⟨by simp, .structError, by simp [field, whole]⟩

/-- A slice is not checked for its length; what is made of it may be. -/
theorem bears_payload (payload : List UInt8) {f : List UInt8 → Except Raised Value}
    {post : Value → Prop} (has : ∀ bytes v, f bytes = .ok v → post v) :
    Bears ((taken payload.length).map f) payload
      (fun n => n ≤ payload.length ∧ ∃ v, f (payload.take (payload.length - n)) = .ok v) post := by
  refine ⟨fun n both => both.1, ?_⟩
  intro before kept missing after whole ended
  have slice : ((before ++ kept ++ after).drop before.length).take payload.length = kept := by
    rcases ended with rfl | rfl
    · simp [whole]
    · simp [whole, List.take_of_length_le]
  have left : payload.take (payload.length - missing.length) = kept := by simp [whole]
  have short : missing.length ≤ payload.length := by simp [whole]
  rw [left, Cursor.map, taken, slice]
  cases made : f kept with
  | ok v => exact .inl ⟨⟨short, v, rfl⟩, v, by simp only [made], has kept v made⟩
  | error e => exact .inr ⟨fun both => by simp at both, e, by simp only [made]⟩

/-- A count or a length has to be there as a whole. -/
theorem bears_count {β : Type} (next : ℕ → Cursor UInt8 Raised β) {n : ℕ} (fits : n < 256 ^ 4)
    {rest : List UInt8} {cuts : ℕ → Prop} {post : β → Prop} (bears : Bears (next n) rest cuts post) :
    Bears ((field 4).bind fun count => next (natOf count)) (bytesOf 4 n ++ rest) cuts post := by
  have count := bears_field (bytesOf 4 n)
  rw [length_bytesOf] at count
  refine count.bind_whole (fun read same => ?_) bears.inside
  rwa [same, natOf_bytesOf fits]

theorem bears_tagged {tag : UInt8} {rest : List UInt8} {v : Value} {post : Value → Prop}
    (bears : ∀ limit, Bears (unpackTagged (unpack limit) tag) rest (Cuts (limit + 1) v) post)
    (limit : ℕ) : Bears (unpack limit) (tag :: rest) (Cuts limit v) post := by
  cases limit with
  | zero =>
      refine ⟨fun n cuts => absurd cuts (not_cuts_zero v n), fun _ _ missing _ _ _ => ?_⟩
      exact .inr ⟨not_cuts_zero v missing.length, .recursionError, rfl⟩
  | succ limit =>
      have behind := bears limit
      refine (bears_byte tag).bind_whole (fun read same => ?_) behind.inside
      rwa [same]

theorem hungry_unpack (limit : ℕ) : Hungry (unpack limit) := by
  intro data offset late
  cases limit with
  | zero => exact ⟨.recursionError, rfl⟩
  | succ limit =>
      have absent : data[offset]? = none := List.getElem?_eq_none late
      exact ⟨.structError, by simp [unpack, Cursor.bind, byte, absent]⟩

/-! ## What was packed -/

theorem bind_eq_ok_iff {α β : Type} {x : Except Raised α} {f : α → Except Raised β} {b : β} :
    x >>= f = .ok b ↔ ∃ a, x = .ok a ∧ f a = .ok b := by
  cases x with
  | error e => simp [Bind.bind, Except.bind]
  | ok a => simp [Bind.bind, Except.bind]

theorem packCount_eq_ok_iff {tag : UInt8} {n : ℕ} {bytes : List UInt8} :
    packCount tag n = .ok bytes ↔ n < 256 ^ 4 ∧ bytes = tag :: bytesOf 4 n := by
  unfold packCount
  split
  · next fits => exact ⟨fun done => ⟨fits, (Except.ok.inj done).symm⟩, fun both => by rw [both.2]⟩
  · next many => exact ⟨fun done => (nomatch done), fun both => absurd both.1 many⟩

theorem packItems_forall₂ {next : Value → Except Raised (List UInt8)} {items : List Value}
    {parts : List (List UInt8)} (packed : packItems next items = .ok parts) :
    List.Forall₂ (fun part item => next item = .ok part) parts items := by
  induction items generalizing parts with
  | nil =>
      cases packed
      exact .nil
  | cons item rest ih =>
      obtain ⟨part, head, packed⟩ := bind_eq_ok_iff.mp packed
      obtain ⟨others, tail, packed⟩ := bind_eq_ok_iff.mp packed
      cases packed
      exact .cons head (ih tail)

/-- `part` is the key of the entry with its value behind it, each packed. -/
def EntryPacked (next : Value → Except Raised (List UInt8)) (part : List UInt8) (e : Value × Value) :
    Prop :=
  ∃ key value, part = key ++ value ∧ next e.1 = .ok key ∧ next e.2 = .ok value

theorem packEntries_forall₂ {next : Value → Except Raised (List UInt8)}
    {entries : List (Value × Value)} {parts : List (List UInt8)}
    (packed : packEntries next entries = .ok parts) :
    List.Forall₂ (EntryPacked next) parts entries := by
  induction entries generalizing parts with
  | nil =>
      cases packed
      exact .nil
  | cons e rest ih =>
      obtain ⟨key, first, packed⟩ := bind_eq_ok_iff.mp packed
      obtain ⟨value, second, packed⟩ := bind_eq_ok_iff.mp packed
      obtain ⟨others, tail, packed⟩ := bind_eq_ok_iff.mp packed
      cases packed
      exact .cons ⟨key, value, rfl, first, second⟩ (ih tail)

/-! ## What is missed -/

/-- Of a list only the last item may be cut, and all have to be legible and within the limit. -/
theorem lastCuts_items (limit : ℕ) (items : List Value) (n : ℕ) :
    lastCuts (items.map (Cuts limit)) n ↔ Cuts (limit + 1) (.list items) n := by
  simp only [Cuts, Value.nesting, Nat.add_le_add_iff_right, Value.legible, Value.writtenLast]
  induction items with
  | nil => simp [lastCuts, Value.itemsNesting, Value.allLegible, Value.lastOfItems, Unnoticed]
  | cons v rest ih =>
      cases rest with
      | nil => simp [lastCuts, Cuts, Value.itemsNesting, Value.allLegible, Value.lastOfItems]
      | cons v' rest =>
          rw [List.map_cons, List.map_cons, lastCuts, ← List.map_cons, ih]
          simp only [Cuts, Value.itemsNesting, Value.allLegible, Value.lastOfItems, max_le_iff,
            Bool.and_eq_true, true_or, and_true]
          tauto

/-- What an entry bears: its value's end, if its key is one. -/
def EntryCuts (limit : ℕ) (e : Value × Value) (n : ℕ) : Prop :=
  (e.1.nesting ≤ limit ∧ e.1.compound = false) ∧ Cuts limit e.2 n

theorem lastCuts_entries (limit : ℕ) (entries : List (Value × Value)) (n : ℕ) :
    lastCuts (entries.map (EntryCuts limit)) n ↔ Cuts (limit + 1) (.dict entries) n := by
  simp only [Cuts, Value.nesting, Nat.add_le_add_iff_right, Value.legible, Value.writtenLast]
  induction entries with
  | nil => simp [lastCuts, Value.entriesNesting, Value.entriesLegible, Value.lastOfEntries, Unnoticed]
  | cons e rest ih =>
      obtain ⟨k, v⟩ := e
      cases rest with
      | nil =>
          simp only [List.map_cons, List.map_nil, lastCuts, EntryCuts, Cuts, Value.entriesNesting,
            Value.entriesLegible, Value.lastOfEntries, max_le_iff, Bool.and_eq_true, Bool.not_eq_true',
            Nat.zero_le, and_true]
          tauto
      | cons e' rest =>
          rw [List.map_cons, List.map_cons, lastCuts, ← List.map_cons, ih]
          simp only [EntryCuts, Cuts, Value.entriesNesting, Value.entriesLegible, Value.lastOfEntries,
            max_le_iff, Bool.and_eq_true, Bool.not_eq_true', true_or, and_true]
          tauto

/-! ## The reader on data that end early -/

/-- What `pack` made of the value is read with what it bears, whatever the reader's limit. -/
def Borne (v : Value) : Prop :=
  ∀ limit bytes, pack limit v = .ok bytes → ∀ limit',
    Bears (unpack limit') bytes (Cuts limit' v) fun w => w.hashable = !v.compound

/-- The same of an entry. -/
def EntryBorne (e : Value × Value) : Prop := Borne e.1 ∧ Borne e.2

theorem bears_items {items : List Value} {limit : ℕ} {parts : List (List UInt8)}
    (packed : packItems (pack limit) items = .ok parts) (borne : ∀ v ∈ items, Borne v) (limit' : ℕ) :
    Bears (rounds (unpackItem (unpack limit')) items.length []) parts.flatten
      (Cuts (limit' + 1) (.list items)) fun _ => True := by
  have all := packItems_forall₂ packed
  have each : List.Forall₂
      (fun part cuts => ∀ s, Bears (unpackItem (unpack limit') s) part cuts fun _ => True) parts
      (items.map (Cuts limit')) := by
    rw [List.forall₂_map_right_iff]
    apply ((List.forall₂_and_left _ _).mpr ⟨borne, all.flip⟩).flip.imp
    rintro part v ⟨borne, packed⟩ done
    exact (borne limit part packed limit').map fun value _ => ⟨_, rfl, trivial⟩
  have loop := bears_rounds (fun s => (hungry_unpack limit').map _) each []
  rw [all.length_eq] at loop
  exact loop.congr (lastCuts_items limit' items)

/-- A leaf has no compound key. -/
theorem legible_of_leaf {k : Value} (leaf : k.compound = false) : k.legible = true := by
  cases k <;> first | rfl | cases leaf

theorem bears_entry {e : Value × Value} {limit : ℕ} {part : List UInt8}
    (packed : EntryPacked (pack limit) part e) (borne : EntryBorne e) (limit' : ℕ)
    (done : List (Value × Value)) :
    Bears (unpackEntry (unpack limit') done) part (EntryCuts limit' e) fun _ => True := by
  obtain ⟨k, v⟩ := e
  obtain ⟨key, value, rfl, keyPacked, valuePacked⟩ := packed
  have first := borne.1 limit key keyPacked limit'
  have second := borne.2 limit value valuePacked limit'
  have stored : ∀ read, read.hashable = !k.compound →
      Bears ((unpack limit').map fun other =>
        if read.hashable then .ok (Value.setItem done read other)
        else .error (.typeError s!"unhashable type: '{read.typeName}'")) value
        (fun n => k.compound = false ∧ Cuts limit' v n) fun _ => True := by
    intro read same
    refine second.check (fun leaf other _ => ?_) fun compound other _ => ?_
    · exact ⟨Value.setItem done read other, by simp [same, leaf], trivial⟩
    · exact ⟨_, if_neg (by simpa [same] using compound)⟩
  have both := first.bind stored (fun n cut => second.inside n cut.2)
    fun _ _ => (hungry_unpack limit').map _
  refine both.congr fun n => ?_
  -- the key is there as a whole, and one that is no leaf cannot be a key
  constructor
  · rintro ⟨⟨shallow, -⟩, leaf, cut⟩
    exact ⟨⟨shallow, leaf⟩, cut⟩
  · rintro ⟨⟨shallow, leaf⟩, cut⟩
    exact ⟨⟨shallow, legible_of_leaf leaf, .inl rfl⟩, leaf, cut⟩

theorem bears_entries {entries : List (Value × Value)} {limit : ℕ} {parts : List (List UInt8)}
    (packed : packEntries (pack limit) entries = .ok parts) (borne : ∀ e ∈ entries, EntryBorne e)
    (limit' : ℕ) :
    Bears (rounds (unpackEntry (unpack limit')) entries.length []) parts.flatten
      (Cuts (limit' + 1) (.dict entries)) fun _ => True := by
  have all := packEntries_forall₂ packed
  have each : List.Forall₂
      (fun part cuts => ∀ s, Bears (unpackEntry (unpack limit') s) part cuts fun _ => True) parts
      (entries.map (EntryCuts limit')) := by
    rw [List.forall₂_map_right_iff]
    apply ((List.forall₂_and_left _ _).mpr ⟨borne, all.flip⟩).flip.imp
    rintro part e ⟨borne, packed⟩ done
    exact bears_entry packed borne limit' done
  have loop := bears_rounds (fun s => (hungry_unpack limit').bind _) each []
  rw [all.length_eq] at loop
  exact loop.congr (lastCuts_entries limit' entries)

/-- A count, and then the loop over the parts. -/
theorem bears_counted {β : Type} {tag : UInt8} {n : ℕ} {parts : Except Raised (List (List UInt8))}
    (loop : ℕ → ℕ → Cursor UInt8 Raised β) (make : β → Value) {v : Value}
    (tagged : ∀ limit, unpackTagged (unpack limit) tag =
      ((field 4).bind fun count => loop limit (natOf count)).map fun read => .ok (make read))
    (compound : ∀ read, (make read).hashable = false)
    (loops : ∀ done, parts = .ok done → ∀ limit,
      Bears (loop limit n) done.flatten (Cuts (limit + 1) v) fun _ => True) {bytes : List UInt8}
    (packed : (do
      let header ← packCount tag n
      return (header :: (← parts)).flatten) = Except.ok bytes) (limit : ℕ) :
    Bears (unpack limit) bytes (Cuts limit v) fun w => w.hashable = false := by
  obtain ⟨header, counted, packed⟩ := bind_eq_ok_iff.mp packed
  obtain ⟨done, packedParts, packed⟩ := bind_eq_ok_iff.mp packed
  obtain ⟨fits, rfl⟩ := packCount_eq_ok_iff.mp counted
  cases packed
  refine bears_tagged (fun limit => ?_) limit
  have rest := loops done packedParts limit
  rw [tagged]
  exact (bears_count (loop limit) fits rest).map fun read _ => ⟨_, rfl, compound read⟩

/-- A list; a tuple is packed as one. -/
theorem bears_list {items : List Value} (borne : ∀ v ∈ items, Borne v) {limit : ℕ}
    {bytes : List UInt8} (packed : packBody (pack limit) (.list items) = .ok bytes) :
    ∀ limit', Bears (unpack limit') bytes (Cuts limit' (.list items)) fun w => w.hashable = false := by
  rw [packBody] at packed
  apply bears_counted (fun limit' n => rounds (unpackItem (unpack limit')) n []) Value.list
    (fun limit' => unpackTagged_list _) (fun _ => rfl) _ packed
  intro parts done limit'
  exact bears_items done borne limit'

theorem bears_dict {entries : List (Value × Value)} (borne : ∀ e ∈ entries, EntryBorne e) {limit : ℕ}
    {bytes : List UInt8} (packed : packBody (pack limit) (.dict entries) = .ok bytes) :
    ∀ limit', Bears (unpack limit') bytes (Cuts limit' (.dict entries)) fun w => w.hashable = false := by
  rw [packBody] at packed
  apply bears_counted (fun limit' n => rounds (unpackEntry (unpack limit')) n []) Value.dict
    (fun limit' => unpackTagged_dict _) (fun _ => rfl) _ packed
  intro parts done limit'
  exact bears_entries done borne limit'

theorem nesting_of_leaf {v : Value} (leaf : v.compound = false) : v.nesting = 1 := by
  cases v <;> first | rfl | cases leaf

theorem writtenLast_of_leaf {v : Value} (leaf : v.compound = false) : v.writtenLast = v := by
  cases v <;> first | rfl | cases leaf

/-- A leaf is within any limit that allows a call. -/
theorem cuts_leaf_iff {v : Value} (leaf : v.compound = false) {limit n : ℕ} :
    Cuts (limit + 1) v n ↔ n = 0 ∨ Unnoticed v n := by
  simp [Cuts, nesting_of_leaf leaf, legible_of_leaf leaf, writtenLast_of_leaf leaf]

/-- A number is read as a whole or not at all. -/
theorem cuts_fixed {v : Value} (leaf : v.compound = false) (closed : ∀ n, ¬ Unnoticed v n)
    (limit n : ℕ) : n = 0 ↔ Cuts (limit + 1) v n := by
  simp [cuts_leaf_iff leaf, closed]

/-- The bytes of a text or a bytes object. -/
theorem bears_text {v : Value} {tag : UInt8} {payload : List UInt8}
    {f : List UInt8 → Except Raised Value}
    (tagged : ∀ next, unpackTagged next tag =
      ((field 4).bind fun length => taken (natOf length)).map f)
    (has : ∀ bytes w, f bytes = .ok w → w.hashable = !v.compound)
    (same : ∀ limit n, (n ≤ payload.length ∧ ∃ w, f (payload.take (payload.length - n)) = .ok w) ↔
      Cuts (limit + 1) v n)
    {bytes : List UInt8}
    (packed : (do return (← packCount tag payload.length) ++ payload) = Except.ok bytes) (limit : ℕ) :
    Bears (unpack limit) bytes (Cuts limit v) fun w => w.hashable = !v.compound := by
  obtain ⟨header, counted, packed⟩ := bind_eq_ok_iff.mp packed
  obtain ⟨fits, rfl⟩ := packCount_eq_ok_iff.mp counted
  cases packed
  refine bears_tagged (fun limit => ?_) limit
  rw [tagged, bind_map]
  have read := bears_count (fun n => (taken n).map f) fits (bears_payload payload has)
  exact read.congr (same limit)

theorem cuts_text {v : Value} (leaf : v.compound = false) (whole : Unnoticed v 0) {limit n : ℕ} :
    Unnoticed v n ↔ Cuts (limit + 1) v n := by
  rw [cuts_leaf_iff leaf]
  constructor
  · exact .inr
  · rintro (rfl | unnoticed)
    · exact whole
    · exact unnoticed

theorem decoded_iff {bytes : List UInt8} :
    (∃ w, (decodeUtf8 bytes).map Value.str = .ok w) ↔ ∃ t, utf8 t = bytes := by
  simp only [← decodeUtf8_eq_ok_iff]
  cases decodeUtf8 bytes with
  | error e => simp [Except.map]
  | ok t => simp [Except.map]

/-- A number has to be there as a whole. -/
theorem bears_number {v : Value} {tag : UInt8} {f : List UInt8 → Value}
    (tagged : ∀ next, unpackTagged next tag = (field 8).map fun val => .ok (f val))
    (has : ∀ val, (f val).hashable = !v.compound) (fixed : ∀ limit n, n = 0 ↔ Cuts (limit + 1) v n)
    {payload : List UInt8} (eight : payload.length = 8) (limit : ℕ) :
    Bears (unpack limit) (tag :: payload) (Cuts limit v) fun w => w.hashable = !v.compound := by
  refine bears_tagged (fun limit => ?_) limit
  rw [tagged]
  have read := bears_field payload
  rw [eight] at read
  exact (read.congr (fixed limit)).map fun val _ => ⟨_, rfl, has val⟩

/-- A call that packs something is within the limit. -/
theorem borne_of_body {v : Value}
    (bears : ∀ limit bytes, packBody (pack limit) v = .ok bytes → ∀ limit',
      Bears (unpack limit') bytes (Cuts limit' v) fun w => w.hashable = !v.compound) : Borne v := by
  intro limit bytes packed
  cases limit with
  | zero => cases packed
  | succ limit => exact bears limit bytes packed

theorem borne (v : Value) : Borne v := by
  induction v using Value.induction with
  | none =>
      refine borne_of_body fun limit bytes packed => ?_
      cases packed
      refine bears_tagged fun limit' => ?_
      rw [unpackTagged_none]
      refine Bears.congr ?_ (cuts_fixed (v := .none) rfl (fun n => id) limit')
      exact bears_here rfl
  | bool b =>
      refine borne_of_body fun limit bytes packed => ?_
      cases packed
      refine bears_tagged fun limit' => ?_
      rw [unpackTagged_bool]
      have fixed := cuts_fixed (v := .bool b) rfl (fun n => id) limit'
      exact ((bears_byte (if b then 1 else 0)).congr fixed).map fun val _ => ⟨_, rfl, rfl⟩
  | int i =>
      refine borne_of_body fun limit bytes packed => ?_
      rw [packBody, packInt] at packed
      split at packed
      · cases packed
        apply bears_number unpackTagged_int (fun val => rfl) _ (length_bytesOf 8 _)
        exact cuts_fixed rfl fun n => id
      · cases packed
  | float bits =>
      refine borne_of_body fun limit bytes packed => ?_
      cases packed
      apply bears_number unpackTagged_float (fun val => rfl) _ (length_bytesOf 8 _)
      exact cuts_fixed rfl fun n => id
  | str s =>
      refine borne_of_body fun limit bytes packed => ?_
      refine bears_text unpackTagged_str ?_ ?_ packed
      · intro read w made
        cases decoded : decodeUtf8 read with
        | error e => simp [decoded, Except.map] at made
        | ok t =>
            rw [decoded] at made
            cases made
            rfl
      · intro limit' n
        rw [← cuts_text (v := .str s) rfl ⟨Nat.zero_le _, s, by simp⟩, Unnoticed]
        simp only [decoded_iff]
  | bytes b =>
      refine borne_of_body fun limit bytes packed => ?_
      refine bears_text unpackTagged_bytes ?_ ?_ packed
      · intro read w made
        cases made
        rfl
      · intro limit' n
        rw [← cuts_text (v := .bytes b) rfl (Nat.zero_le _), Unnoticed]
        exact and_iff_left ⟨_, rfl⟩
  | list items ih => exact borne_of_body fun limit bytes packed => bears_list ih packed
  | tuple items ih => exact borne_of_body fun limit bytes packed => bears_list ih packed
  | dict entries ih => exact borne_of_body fun limit bytes packed => bears_dict ih packed
  | other typeName =>
      refine borne_of_body fun limit bytes packed => ?_
      cases packed

/-- **Which cuts are noticed.**  A proper prefix of what was serialized is refused, unless
only the end of the text or bytes object written last is missing and a text was cut between
two characters. -/
theorem deserialize_cut_iff {v : Value} {limit : ℕ} {kept missing : List UInt8}
    (serialized : serialize limit v = .ok (kept ++ missing)) (short : missing ≠ []) (limit' : ℕ) :
    (∃ raised, deserialize limit' kept = .error raised) ↔
      ¬ (v.nesting ≤ limit' ∧ v.legible = true ∧ Unnoticed v.writtenLast missing.length) := by
  have read := (borne v limit _ serialized limit').ends [] kept missing [] rfl (.inr rfl)
  have lacks : missing.length ≠ 0 := by simpa using short
  simp only [List.nil_append, List.append_nil, List.length_nil] at read
  have cut : Cuts limit' v missing.length ↔
      v.nesting ≤ limit' ∧ v.legible = true ∧ Unnoticed v.writtenLast missing.length := by
    simp [Cuts, lacks]
  rw [cut] at read
  unfold deserialize
  obtain ⟨unnoticed, w, done, -⟩ | ⟨noticed, raised, refused⟩ := read
  · rw [done]
    exact iff_of_false (by simp) (not_not_intro unnoticed)
  · rw [refused]
    exact iff_of_true ⟨raised, rfl⟩ noticed

/-- A flag behind a text, without the byte of the flag. -/
theorem cutFlag_noticed :
    serialize 2 (.list [.str "a", .bool true]) =
        .ok ([6, 0, 0, 0, 2, 4, 0, 0, 0, 1, 97, 1] ++ [1]) ∧
      ∃ raised, deserialize 2 [6, 0, 0, 0, 2, 4, 0, 0, 0, 1, 97, 1] = .error raised := by
  have packed : serialize 2 (.list [.str "a", .bool true]) =
      .ok ([6, 0, 0, 0, 2, 4, 0, 0, 0, 1, 97, 1] ++ [1]) := rfl
  exact ⟨packed, (deserialize_cut_iff packed (by simp) 2).mpr fun both => both.2.2⟩

/-- The last byte of a text is cut off, and a shorter text is returned. -/
theorem cutText_unnoticed :
    serialize 1000 (.str "abc") = .ok ([4, 0, 0, 0, 3, 97, 98] ++ [99]) ∧
      deserialize 1000 [4, 0, 0, 0, 3, 97, 98] = .ok (.str "ab") :=
  ⟨rfl, rfl⟩

end BinarySerializer

end BrokerLite
