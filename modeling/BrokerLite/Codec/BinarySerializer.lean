/-
# Codec.BinarySerializer -- tagged values as bytes

`pack` writes a tag and the value behind it; lists and dicts write a count and
then their parts, packed the same way.  `struct.pack` raises when a number does
not fit its field.  `unpack` reads a value at an offset and returns the offset
behind it.  Both call themselves for what is nested, and the interpreter's recursion
limit bounds how many of these calls there are at a time: it is their first argument.
A text here is one that has a UTF-8 encoding.

`roundTrip` is the result: what `pack` wrote is read back wherever it stands, as long as
the value is not nested more deeply than either limit allows (`nesting`).
-/
import BrokerLite.Codec.Value
import BrokerLite.Store.Message
import BrokerLite.Theory.BigEndian
import BrokerLite.Theory.Cursor

namespace BrokerLite

open Theory Theory.Cursor

set_option autoImplicit false

namespace Value

mutual

/-- How many calls are nested at a time when the value is packed or read. -/
def nesting : Value → ℕ
  | .list items | .tuple items => itemsNesting items + 1
  | .dict entries => entriesNesting entries + 1
  | _ => 1

def itemsNesting : List Value → ℕ
  | [] => 0
  | v :: rest => max v.nesting (itemsNesting rest)

def entriesNesting : List (Value × Value) → ℕ
  | [] => 0
  | (k, v) :: rest => max (max k.nesting v.nesting) (entriesNesting rest)

end

theorem nesting_le_items {items : List Value} {v : Value} (member : v ∈ items) :
    v.nesting ≤ itemsNesting items := by
  induction items with
  | nil => cases member
  | cons first rest ih =>
      rw [itemsNesting]
      rcases List.mem_cons.mp member with rfl | later
      · exact le_max_left _ _
      · exact (ih later).trans (le_max_right _ _)

theorem nesting_le_entries {entries : List (Value × Value)} {e : Value × Value} (member : e ∈ entries) :
    e.1.nesting ≤ entriesNesting entries ∧ e.2.nesting ≤ entriesNesting entries := by
  induction entries with
  | nil => cases member
  | cons first rest ih =>
      obtain ⟨k, v⟩ := first
      rw [entriesNesting]
      rcases List.mem_cons.mp member with rfl | later
      · exact ⟨(le_max_left _ _).trans (le_max_left _ _), (le_max_right _ _).trans (le_max_left _ _)⟩
      · obtain ⟨key, value⟩ := ih later
        exact ⟨key.trans (le_max_right _ _), value.trans (le_max_right _ _)⟩

end Value

namespace BinarySerializer

def tagNone : UInt8 := 0
def tagBool : UInt8 := 1
def tagInt : UInt8 := 2
def tagFloat : UInt8 := 3
def tagStr : UInt8 := 4
def tagBytes : UInt8 := 5
def tagList : UInt8 := 6
def tagDict : UInt8 := 7

/-! ## Packing -/

/-- `struct.pack("!Bq", tag, i)`. -/
def packInt (tag : UInt8) (i : ℤ) : Except Raised (List UInt8) :=
  if -(256 ^ 8 / 2) ≤ i ∧ i < 256 ^ 8 / 2 then .ok (tag :: bytesOf 8 (i % 256 ^ 8).toNat)
  else .error .structError

/-- `struct.pack("!BI", tag, n)`. -/
def packCount (tag : UInt8) (n : ℕ) : Except Raised (List UInt8) :=
  if n < 256 ^ 4 then .ok (tag :: bytesOf 4 n) else .error .structError

theorem packCount_of_lt (tag : UInt8) {n : ℕ} (fits : n < 256 ^ 4) :
    packCount tag n = .ok (tag :: bytesOf 4 n) := if_pos fits

/-- The parts a list adds. -/
def packItems (next : Value → Except Raised (List UInt8)) :
    List Value → Except Raised (List (List UInt8))
  | [] => return []
  | item :: rest => do
      let part ← next item
      return part :: (← packItems next rest)

/-- The parts a dict adds: each key with its value behind it. -/
def packEntries (next : Value → Except Raised (List UInt8)) :
    List (Value × Value) → Except Raised (List (List UInt8))
  | [] => return []
  | (k, v) :: rest => do
      let key ← next k
      let value ← next v
      return (key ++ value) :: (← packEntries next rest)

/-- The body of `_pack`; `next` packs what is nested.  A bool is tested for before an int,
which it also is. -/
def packBody (next : Value → Except Raised (List UInt8)) : Value → Except Raised (List UInt8)
  | .none => .ok [tagNone]
  | .bool b => .ok [tagBool, if b then 1 else 0]
  | .int i => packInt tagInt i
  | .float bits => .ok (tagFloat :: bytesOf 8 bits.toNat)
  | .str s => do
      let encoded := utf8 s
      return (← packCount tagStr encoded.length) ++ encoded
  | .bytes b => return (← packCount tagBytes b.length) ++ b
  | .list items => do
      let header ← packCount tagList items.length
      return (header :: (← packItems next items)).flatten
  | .tuple items => do
      let header ← packCount tagList items.length
      return (header :: (← packItems next items)).flatten
  | .dict entries => do
      let header ← packCount tagDict entries.length
      return (header :: (← packEntries next entries)).flatten
  | .other typeName => .error (.typeError s!"Cannot serialize type: {typeName}")

/-- `_pack`, where at most `limit` calls may be nested. -/
def pack : ℕ → Value → Except Raised (List UInt8)
  | 0, _ => .error .recursionError
  | limit + 1, value => packBody (pack limit) value

def serialize (limit : ℕ) (data : Value) : Except Raised (List UInt8) := pack limit data

/-! ## Unpacking -/

/-- `struct.unpack_from("B", data, offset)[0]`. -/
def byte : Cursor UInt8 Raised UInt8 := fun data offset =>
  match data[offset]? with
  | some b => .ok (b, offset + 1)
  | none => .error .structError

/-- The `width` bytes that `struct.unpack_from` reads. -/
def field (width : ℕ) : Cursor UInt8 Raised (List UInt8) := fun data offset =>
  if offset + width ≤ data.length then .ok ((data.drop offset).take width, offset + width)
  else .error .structError

/-- `data[offset:offset + length]`, which may be shorter, with the offset behind it. -/
def taken (length : ℕ) : Cursor UInt8 Raised (List UInt8) := fun data offset =>
  .ok ((data.drop offset).take length, offset + length)

/-- One round of the loop over a list. -/
def unpackItem (next : Cursor UInt8 Raised Value) (items : List Value) :
    Cursor UInt8 Raised (List Value) :=
  next.map fun value => .ok (items ++ [value])

/-- One round of the loop over a dict. -/
def unpackEntry (next : Cursor UInt8 Raised Value) (result : List (Value × Value)) :
    Cursor UInt8 Raised (List (Value × Value)) :=
  next.bind fun key => next.map fun value =>
    if key.hashable then .ok (Value.setItem result key value)
    else .error (.typeError s!"unhashable type: '{key.typeName}'")

/-- `_unpack` behind the tag; `next` reads what is nested. -/
def unpackTagged (next : Cursor UInt8 Raised Value) (tag : UInt8) : Cursor UInt8 Raised Value :=
  if tag = tagNone then here .none
  else if tag = tagBool then byte.map fun val => .ok (.bool (val ≠ 0))
  else if tag = tagInt then (field 8).map fun val => .ok (.int (intOf val))
  else if tag = tagFloat then (field 8).map fun val => .ok (.float (BitVec.ofNat 64 (natOf val)))
  else if tag = tagStr then
    ((field 4).bind fun length => taken (natOf length)).map fun val =>
      (decodeUtf8 val).map Value.str
  else if tag = tagBytes then
    ((field 4).bind fun length => taken (natOf length)).map fun val => .ok (.bytes val)
  else if tag = tagList then
    ((field 4).bind fun count => rounds (unpackItem next) (natOf count) []).map fun items =>
      .ok (.list items)
  else if tag = tagDict then
    ((field 4).bind fun count => rounds (unpackEntry next) (natOf count) []).map fun result =>
      .ok (.dict result)
  else fun _ _ => .error (.valueError (.unknownTypeTag tag.toNat))

section Tags

variable (next : Cursor UInt8 Raised Value)

theorem unpackTagged_none : unpackTagged next tagNone = here .none := rfl

theorem unpackTagged_bool :
    unpackTagged next tagBool = byte.map fun val => .ok (.bool (val ≠ 0)) := rfl

theorem unpackTagged_int :
    unpackTagged next tagInt = (field 8).map fun val => .ok (.int (intOf val)) := rfl

theorem unpackTagged_float : unpackTagged next tagFloat =
    (field 8).map fun val => .ok (.float (BitVec.ofNat 64 (natOf val))) := rfl

theorem unpackTagged_str : unpackTagged next tagStr =
    ((field 4).bind fun length => taken (natOf length)).map fun val =>
      (decodeUtf8 val).map Value.str := rfl

theorem unpackTagged_bytes : unpackTagged next tagBytes =
    ((field 4).bind fun length => taken (natOf length)).map fun val => .ok (.bytes val) := rfl

theorem unpackTagged_list : unpackTagged next tagList =
    ((field 4).bind fun count => rounds (unpackItem next) (natOf count) []).map fun items =>
      .ok (.list items) := rfl

theorem unpackTagged_dict : unpackTagged next tagDict =
    ((field 4).bind fun count => rounds (unpackEntry next) (natOf count) []).map fun result =>
      .ok (.dict result) := rfl

end Tags

/-- `_unpack`, where at most `limit` calls may be nested. -/
def unpack : ℕ → Cursor UInt8 Raised Value
  | 0 => fun _ _ => .error .recursionError
  | limit + 1 => byte.bind (unpackTagged (unpack limit))

def deserialize (limit : ℕ) (data : List UInt8) : Except Raised Value :=
  match unpack limit data 0 with
  | .error raised => .error raised
  | .ok (value, _) => .ok value

/-! ## A limit above the data makes no difference -/

theorem advances_byte (data : List UInt8) : Advances byte data := by
  intro offset b next done
  unfold byte at done
  split at done
  · cases done
    exact Nat.lt_succ_self offset
  · cases done

theorem forward_field (width : ℕ) (data : List UInt8) : Forward (field width) data := by
  intro offset b next done
  unfold field at done
  split at done
  · cases done
    exact Nat.le_add_right offset width
  · cases done

theorem forward_taken (length : ℕ) (data : List UInt8) : Forward (taken length) data := by
  intro offset b next done
  cases done
  exact Nat.le_add_right offset length

theorem forward_unpackTagged {next : Cursor UInt8 Raised Value} {data : List UInt8}
    (forward : Forward next data) (tag : UInt8) : Forward (unpackTagged next tag) data := by
  have item : ∀ items, Forward (unpackItem next items) data := fun _ => forward.map _
  have entry : ∀ result, Forward (unpackEntry next result) data := fun _ =>
    forward.bind fun _ => forward.map _
  unfold unpackTagged
  -- one goal for each tag, in the order of the source
  refine .ite ?_ (.ite ?_ (.ite ?_ (.ite ?_ (.ite ?_ (.ite ?_ (.ite ?_ (.ite ?_ ?_)))))))
  · exact forward_here _ data
  · exact (advances_byte data).forward.map _
  · exact (forward_field 8 data).map _
  · exact (forward_field 8 data).map _
  · exact ((forward_field 4 data).bind fun _ => forward_taken _ data).map _
  · exact ((forward_field 4 data).bind fun _ => forward_taken _ data).map _
  · exact ((forward_field 4 data).bind fun _ => forward_rounds item _ _).map _
  · exact ((forward_field 4 data).bind fun _ => forward_rounds entry _ _).map _
  · intro offset b next done
    cases done

theorem advances_unpack (limit : ℕ) (data : List UInt8) : Advances (unpack limit) data := by
  induction limit with
  | zero =>
      intro offset b next done
      cases done
  | succ limit ih => exact (advances_byte data).bind (forward_unpackTagged ih.forward)

theorem unpackTagged_agrees {next next' : Cursor UInt8 Raised Value} {data : List UInt8} {start : ℕ}
    (agree : AgreesFrom data start next next') (forward : Forward next data) (tag : UInt8) :
    AgreesFrom data start (unpackTagged next tag) (unpackTagged next' tag) := by
  have item : ∀ items, AgreesFrom data start (unpackItem next items) (unpackItem next' items) :=
    fun _ => agree.map _
  have entry : ∀ result,
      AgreesFrom data start (unpackEntry next result) (unpackEntry next' result) :=
    fun _ => agree.bind forward fun _ => agree.map _
  have count : AgreesFrom data start (field 4) (field 4) := .refl _ data start
  have counted := forward_field 4 data
  unfold unpackTagged
  refine .ite ?_ (.ite ?_ (.ite ?_ (.ite ?_ (.ite ?_ (.ite ?_ (.ite ?_ (.ite ?_ ?_)))))))
  iterate 6 exact .refl _ data start
  · exact (count.bind counted fun _ => .rounds item (fun _ => forward.map _) _ _).map _
  · exact (count.bind counted fun _ =>
      .rounds entry (fun _ => forward.bind fun _ => forward.map _) _ _).map _
  · exact .refl _ data start

/-- **A limit that covers what is left of the data makes no difference.** -/
theorem unpack_of_enough (data : List UInt8) (limit : ℕ) :
    AgreesFrom data (data.length - limit) (unpack (limit + 1)) (unpack (limit + 2)) := by
  induction limit with
  | zero =>
      intro offset late
      have absent : data[offset]? = none := List.getElem?_eq_none (by omega)
      simp [unpack, Cursor.bind, byte, absent]
  | succ limit ih =>
      have forward := (advances_unpack (limit + 1) data).forward
      have agree := ih.mono (show data.length - limit ≤ data.length - (limit + 1) + 1 by omega)
      exact .after (advances_byte data) fun tag => unpackTagged_agrees agree forward tag

theorem unpack_eq_of_lt {data : List UInt8} {limit : ℕ} (enough : data.length < limit) (offset : ℕ) :
    unpack limit data offset = unpack (data.length + 1) data offset := by
  induction limit, enough using Nat.le_induction with
  | base => rfl
  | succ limit enough ih =>
      obtain ⟨rest, rfl⟩ := Nat.exists_eq_succ_of_ne_zero (show limit ≠ 0 by omega)
      rw [← ih]
      exact (unpack_of_enough data rest offset (by omega)).symm

/-! ## What the serializer is for -/

/-- A dict key that the format reads back as the same key. -/
def plainKey : Value → Prop
  | .none | .bool _ | .int _ | .str _ | .bytes _ => True
  | _ => False

/-- The values the serializer is for; `counted` bounds the length of a list or a dict. -/
inductive Storable (counted : ℕ → Prop) : Value → Prop
  | none : Storable counted .none
  | bool (b : Bool) : Storable counted (.bool b)
  | int {i : ℤ} (low : -2 ^ 63 ≤ i) (high : i < 2 ^ 63) : Storable counted (.int i)
  | float (bits : BitVec 64) : Storable counted (.float bits)
  | str {s : String} (short : (utf8 s).length < 2 ^ 32) : Storable counted (.str s)
  | bytes {b : List UInt8} (short : b.length < 2 ^ 32) : Storable counted (.bytes b)
  | list {items : List Value} (count : counted items.length)
      (each : ∀ v ∈ items, Storable counted v) : Storable counted (.list items)
  | dict {entries : List (Value × Value)} (count : counted entries.length)
      (distinct : Value.DistinctKeys entries) (plain : ∀ e ∈ entries, plainKey e.1)
      (keys : ∀ e ∈ entries, Storable counted e.1) (values : ∀ e ∈ entries, Storable counted e.2) :
      Storable counted (.dict entries)

theorem plainKey.hashable {k : Value} (plain : plainKey k) : k.hashable = true := by
  cases k <;> first | rfl | exact plain.elim

/-! ## Round trip -/

/-- `bytes` is what `pack` makes of `v` within any limit from `limit` on, and within any such
limit they are read back. -/
def Packs (limit : ℕ) (v : Value) (bytes : List UInt8) : Prop :=
  ∀ limit', limit ≤ limit' → pack limit' v = .ok bytes ∧ Reads (unpack limit') bytes v

theorem reads_byte (b : UInt8) : Reads byte [b] b := by
  intro before after
  simp [byte]

theorem reads_field (bytes : List UInt8) : Reads (field bytes.length) bytes bytes := by
  intro before after
  simp [field]

theorem reads_taken (bytes : List UInt8) : Reads (taken bytes.length) bytes bytes := by
  intro before after
  simp [taken]

/-- A four-byte count is read back as the number it was made of. -/
theorem reads_count {β : Type} (next : ℕ → Cursor UInt8 Raised β) {n : ℕ} (fits : n < 256 ^ 4)
    {rest : List UInt8} {b : β} (reads : Reads (next n) rest b) :
    Reads ((field 4).bind fun count => next (natOf count)) (bytesOf 4 n ++ rest) b := by
  have count : Reads (field 4) (bytesOf 4 n) (bytesOf 4 n) := by
    simpa using reads_field (bytesOf 4 n)
  apply count.bind
  rwa [natOf_bytesOf fits]

theorem foldl_append_single {α : Type} (done items : List α) :
    items.foldl (fun done item => done ++ [item]) done = done ++ items := by
  induction items generalizing done with
  | nil => simp
  | cons item rest ih => simp [ih]

theorem packs_items {items : List Value} {limit : ℕ} (each : ∀ v ∈ items, ∃ bytes, Packs limit v bytes) :
    ∃ parts, (∀ limit', limit ≤ limit' → packItems (pack limit') items = .ok parts) ∧
      List.Forall₂ (fun part item => Packs limit item part) parts items := by
  induction items with
  | nil => exact ⟨[], fun _ _ => rfl, .nil⟩
  | cons item rest ih =>
      obtain ⟨part, packed⟩ := each item List.mem_cons_self
      obtain ⟨parts, done, all⟩ := ih fun v member => each v (List.mem_cons_of_mem _ member)
      refine ⟨part :: parts, fun limit' enough => ?_, .cons packed all⟩
      rw [packItems, (packed limit' enough).1, done limit' enough]
      rfl

/-- `part` is what `packEntries` makes of the entry `e`. -/
def EntryPacks (limit : ℕ) (part : List UInt8) (e : Value × Value) : Prop :=
  plainKey e.1 ∧ ∃ key value, part = key ++ value ∧ Packs limit e.1 key ∧ Packs limit e.2 value

theorem packs_entries {entries : List (Value × Value)} {limit : ℕ}
    (plain : ∀ e ∈ entries, plainKey e.1) (keys : ∀ e ∈ entries, ∃ bytes, Packs limit e.1 bytes)
    (values : ∀ e ∈ entries, ∃ bytes, Packs limit e.2 bytes) :
    ∃ parts, (∀ limit', limit ≤ limit' → packEntries (pack limit') entries = .ok parts) ∧
      List.Forall₂ (EntryPacks limit) parts entries := by
  induction entries with
  | nil => exact ⟨[], fun _ _ => rfl, .nil⟩
  | cons e rest ih =>
      obtain ⟨k, v⟩ := e
      obtain ⟨key, keyPacked⟩ := keys (k, v) List.mem_cons_self
      obtain ⟨value, valuePacked⟩ := values (k, v) List.mem_cons_self
      obtain ⟨parts, done, all⟩ := ih (fun e member => plain e (List.mem_cons_of_mem _ member))
        (fun e member => keys e (List.mem_cons_of_mem _ member))
        fun e member => values e (List.mem_cons_of_mem _ member)
      have head : EntryPacks limit (key ++ value) (k, v) :=
        ⟨plain (k, v) List.mem_cons_self, key, value, rfl, keyPacked, valuePacked⟩
      refine ⟨(key ++ value) :: parts, fun limit' enough => ?_, .cons head all⟩
      rw [packEntries, (keyPacked limit' enough).1, (valuePacked limit' enough).1, done limit' enough]
      rfl

/-- The loop of a list reads the parts. -/
theorem reads_items {parts : List (List UInt8)} {items : List Value} {limit : ℕ}
    (packed : List.Forall₂ (fun part item => Packs limit item part) parts items) {limit' : ℕ}
    (enough : limit ≤ limit') :
    Reads (rounds (unpackItem (unpack limit')) items.length []) parts.flatten items := by
  have each : List.Forall₂
      (fun part item => ∀ done, Reads (unpackItem (unpack limit') done) part (done ++ [item]))
      parts items := by
    apply packed.imp
    intro part item both done
    exact (both limit' enough).2.map rfl
  have reads := reads_rounds each []
  rwa [foldl_append_single, List.nil_append] at reads

/-- The same for the loop of a dict. -/
theorem reads_entries {parts : List (List UInt8)} {entries : List (Value × Value)} {limit : ℕ}
    (packed : List.Forall₂ (EntryPacks limit) parts entries) (distinct : Value.DistinctKeys entries)
    {limit' : ℕ} (enough : limit ≤ limit') :
    Reads (rounds (unpackEntry (unpack limit')) entries.length []) parts.flatten entries := by
  have each : List.Forall₂
      (fun part e => ∀ done,
        Reads (unpackEntry (unpack limit') done) part (Value.setItem done e.1 e.2))
      parts entries := by
    apply packed.imp
    rintro _ e ⟨plain, key, value, rfl, keyPacked, valuePacked⟩ done
    have keyReads := (keyPacked limit' enough).2
    have valueReads := (valuePacked limit' enough).2
    exact keyReads.bind (valueReads.map (by simp [plain.hashable]))
  have reads := reads_rounds each []
  rwa [Value.foldl_setItem (by simpa using distinct), List.nil_append] at reads

theorem packs_tagged {limit : ℕ} {v : Value} {tag : UInt8} {rest : List UInt8}
    (both : ∀ limit', limit ≤ limit' → packBody (pack limit') v = .ok (tag :: rest) ∧
      Reads (unpackTagged (unpack limit') tag) rest v) :
    Packs (limit + 1) v (tag :: rest) := by
  intro limit' enough
  obtain ⟨inner, rfl⟩ := Nat.exists_eq_succ_of_ne_zero (show limit' ≠ 0 by omega)
  obtain ⟨packed, reads⟩ := both inner (Nat.le_of_succ_le_succ enough)
  exact ⟨packed, (reads_byte tag).bind reads⟩

/-- A number of eight bytes. -/
theorem packs_number {v : Value} {tag : UInt8} {bytes : List UInt8} {f : List UInt8 → Except Raised Value}
    (eight : bytes.length = 8) (packed : ∀ next, packBody next v = .ok (tag :: bytes))
    (tagged : ∀ next, unpackTagged next tag = (field 8).map f) (made : f bytes = .ok v) :
    ∃ bytes, Packs 1 v bytes := by
  refine ⟨_, packs_tagged fun limit' _ => ⟨packed _, ?_⟩⟩
  have read := reads_field bytes
  rw [eight] at read
  rw [tagged]
  exact read.map made

/-- A length and as many bytes. -/
theorem packs_payload {v : Value} {tag : UInt8} {payload : List UInt8}
    {f : List UInt8 → Except Raised Value} (short : payload.length < 2 ^ 32)
    (packed : ∀ next, packBody next v = .ok (tag :: (bytesOf 4 payload.length ++ payload)))
    (tagged : ∀ next, unpackTagged next tag =
      ((field 4).bind fun length => taken (natOf length)).map f)
    (made : f payload = .ok v) : ∃ bytes, Packs 1 v bytes := by
  refine ⟨_, packs_tagged fun limit' _ => ⟨packed _, ?_⟩⟩
  rw [tagged]
  exact (reads_count taken short (reads_taken payload)).map made

/-- A count and as many parts, which a loop reads. -/
theorem packs_counted {β : Type} {limit : ℕ} {v : Value} {tag : UInt8} {n : ℕ}
    {parts : List (List UInt8)} {step : Cursor UInt8 Raised Value → β → Cursor UInt8 Raised β}
    {start result : β} {f : β → Except Raised Value} (count : n < 2 ^ 32)
    (packed : ∀ limit', limit ≤ limit' →
      packBody (pack limit') v = .ok (tag :: (bytesOf 4 n ++ parts.flatten)))
    (tagged : ∀ next, unpackTagged next tag =
      ((field 4).bind fun count => rounds (step next) (natOf count) start).map f)
    (loop : ∀ limit', limit ≤ limit' → Reads (rounds (step (unpack limit')) n start) parts.flatten result)
    (made : f result = .ok v) : ∃ bytes, Packs (limit + 1) v bytes := by
  refine ⟨_, packs_tagged fun limit' enough => ⟨packed limit' enough, ?_⟩⟩
  rw [tagged]
  have read := loop limit' enough
  exact (reads_count (fun n => rounds (step (unpack limit')) n start) count read).map made

theorem Packs.mono {limit limit' : ℕ} {v : Value} {bytes : List UInt8} (packs : Packs limit v bytes)
    (enough : limit ≤ limit') : Packs limit' v bytes :=
  fun _ more => packs _ (enough.trans more)

/-- **A storable value is packed, and its bytes are read back**, within any limit that its
nesting stays in. -/
theorem Storable.packs {v : Value} (storable : Storable (· < 2 ^ 32) v) :
    ∃ bytes, Packs v.nesting v bytes := by
  induction storable with
  | none =>
      refine ⟨_, packs_tagged fun limit' _ => ⟨rfl, ?_⟩⟩
      rw [unpackTagged_none]
      exact reads_here _
  | bool b =>
      refine ⟨_, packs_tagged fun limit' _ => ⟨rfl, ?_⟩⟩
      rw [unpackTagged_bool]
      apply (reads_byte _).map
      cases b <;> rfl
  | @int i low high =>
      have fits : -(256 ^ 8 / 2) ≤ i ∧ i < 256 ^ 8 / 2 := by omega
      have packed : ∀ next, packBody next (.int i) = .ok (tagInt :: bytesOf 8 (i % 256 ^ 8).toNat) :=
        fun _ => if_pos fits
      apply packs_number (length_bytesOf 8 _) packed unpackTagged_int
      rw [intOf_bytesOf fits.1 fits.2]
  | float bits =>
      have fits : bits.toNat < 256 ^ 8 := bits.isLt
      apply packs_number (length_bytesOf 8 bits.toNat) (fun _ => rfl) unpackTagged_float
      rw [natOf_bytesOf fits, BitVec.ofNat_toNat, BitVec.setWidth_eq]
  | @str s short =>
      apply packs_payload short _ unpackTagged_str
      · rw [decodeUtf8_utf8]
        rfl
      · intro next
        rw [packBody, packCount_of_lt tagStr short]
        rfl
  | @bytes b short =>
      apply packs_payload short _ unpackTagged_bytes rfl
      intro next
      rw [packBody, packCount_of_lt tagBytes short]
      rfl
  | @list items count _ ih =>
      obtain ⟨parts, done, packed⟩ := packs_items fun v member =>
        (ih v member).imp fun _ packs => packs.mono (Value.nesting_le_items member)
      apply packs_counted count _ unpackTagged_list (fun _ => reads_items packed) rfl
      intro limit' enough
      rw [packBody, packCount_of_lt tagList count, done limit' enough]
      rfl
  | @dict entries count distinct plain _ _ keys values =>
      obtain ⟨parts, done, packed⟩ := packs_entries plain
        (fun e member => (keys e member).imp fun _ packs => packs.mono (Value.nesting_le_entries member).1)
        fun e member => (values e member).imp fun _ packs => packs.mono (Value.nesting_le_entries member).2
      apply packs_counted count _ unpackTagged_dict (fun _ => reads_entries packed distinct) rfl
      intro limit' enough
      rw [packBody, packCount_of_lt tagDict count, done limit' enough]
      rfl

/-- **What `pack` wrote is read back wherever it stands**, so that `serialize` tells
storable values apart and `deserialize` undoes it.  Neither call may have a lower limit
than the value is nested. -/
theorem roundTrip {v : Value} (storable : Storable (· < 2 ^ 32) v) {limit limit' : ℕ}
    (packable : v.nesting ≤ limit) (readable : v.nesting ≤ limit') :
    ∃ bytes, pack limit v = .ok bytes ∧
      (∀ before after, unpack limit' (before ++ bytes ++ after) before.length =
        .ok (v, before.length + bytes.length)) ∧
      (serialize limit v = .ok bytes ∧ deserialize limit' bytes = .ok v) ∧
      ∀ w, Storable (· < 2 ^ 32) w → w.nesting ≤ limit → serialize limit w = serialize limit v → w = v := by
  obtain ⟨bytes, packs⟩ := storable.packs
  obtain ⟨packed, -⟩ := packs limit packable
  obtain ⟨-, back⟩ := packs limit' readable
  have undone : ∀ {w : Value}, Reads (unpack limit') bytes w → deserialize limit' bytes = .ok w := by
    intro w reads
    have read := reads [] []
    simp only [List.nil_append, List.append_nil, List.length_nil] at read
    rw [deserialize, read]
  refine ⟨bytes, packed, back, ⟨packed, undone back⟩, fun w storable' shallow same => ?_⟩
  obtain ⟨bytes', packs'⟩ := storable'.packs
  have equal : bytes' = bytes := by
    have chain : Except.ok bytes' = .ok bytes := (packs' limit shallow).1.symm.trans (same.trans packed)
    exact Except.ok.inj chain
  subst equal
  -- both are read back from the same bytes within a limit that is above both
  have first := (packs (max limit limit') (packable.trans (le_max_left _ _))).2 [] []
  have second := (packs' (max limit limit') (shallow.trans (le_max_left _ _))).2 [] []
  exact (Prod.mk.inj (Except.ok.inj (second.symm.trans first))).1

/-- A nested value: keys of two types, a list, a negative number. -/
def mixedValue : Value :=
  .dict [(.str "id", .int (-7)), (.bool true, .list [.none, .float 1, .bytes [0, 255]])]

theorem mixedValue_storable : Storable (· < 2 ^ 32) mixedValue := by
  have items : ∀ v ∈ [Value.none, .float 1, .bytes [0, 255]], Storable (· < 2 ^ 32) v := by
    simp only [List.forall_mem_cons, List.not_mem_nil, false_implies, implies_true, and_true]
    exact ⟨.none, .float 1, .bytes (by decide)⟩
  refine .dict (by decide) (List.pairwise_pair.mpr rfl) ?_ ?_ ?_ <;>
    simp only [List.forall_mem_cons, List.not_mem_nil, false_implies, implies_true, and_true]
  · exact ⟨trivial, trivial⟩
  · exact ⟨.str (by decide), .bool true⟩
  · exact ⟨.int (by decide) (by decide), .list (by decide) items⟩

theorem mixedValue_roundTrip :
    ∃ bytes, serialize 3 mixedValue = .ok bytes ∧ deserialize 3 bytes = .ok mixedValue := by
  obtain ⟨bytes, _, _, both, _⟩ :=
    roundTrip mixedValue_storable (show mixedValue.nesting ≤ 3 by decide) (show mixedValue.nesting ≤ 3 by decide)
  exact ⟨bytes, both⟩

/-! ## What is not serialized -/

/-- A list whose length does not fit the count field. -/
theorem serialize_too_many {items : List Value} (many : 2 ^ 32 ≤ items.length) (limit : ℕ) :
    serialize (limit + 1) (.list items) = .error .structError := by
  have refused : packCount tagList items.length = .error .structError := if_neg (by omega)
  rw [serialize, pack, packBody, refused]
  rfl

/-- A list in as many lists. -/
def nestedList : ℕ → Value
  | 0 => .list []
  | n + 1 => .list [nestedList n]

theorem nestedList_storable (n : ℕ) : Storable (· < 2 ^ 32) (nestedList n) := by
  induction n with
  | zero =>
      refine .list (show 0 < 2 ^ 32 by decide) fun v member => ?_
      cases member
  | succ n ih =>
      refine .list (show 1 < 2 ^ 32 by decide) fun v member => ?_
      rw [List.mem_singleton.mp member]
      exact ih

/-- A value that is nested more deeply than the limit allows. -/
theorem serialize_too_deep (limit : ℕ) : serialize limit (nestedList limit) = .error .recursionError := by
  induction limit with
  | zero => rfl
  | succ limit ih =>
      have ih : pack limit (nestedList limit) = .error .recursionError := ih
      have count : packCount tagList [nestedList limit].length = .ok (tagList :: bytesOf 4 1) := rfl
      rw [serialize, pack, nestedList, packBody, count, packItems, ih]
      rfl

/-- A list of too many items, and one that is nested too deeply for the usual limit. -/
theorem longList_refused :
    (Storable (fun _ => True) (.list (List.replicate (2 ^ 32) .none)) ∧
      serialize 1000 (.list (List.replicate (2 ^ 32) .none)) = .error .structError) ∧
    Storable (· < 2 ^ 32) (nestedList 1000) ∧ serialize 1000 (nestedList 1000) = .error .recursionError := by
  refine ⟨⟨.list trivial fun v member => ?_, serialize_too_many (by rw [List.length_replicate]) 999⟩,
    nestedList_storable 1000, serialize_too_deep 1000⟩
  rw [List.eq_of_mem_replicate member]
  exact .none

end BinarySerializer

end BrokerLite
