/-
# Codec.MessageCodec -- messages as dicts and as bytes

`to_dict` lists the thirteen fields of a message under their names; `from_dict` reads
them back, each with its default.  The payload is text on the way: `to_dict` decodes
it with replacement and `from_dict` encodes it again.  `json.dumps` and `json.loads`
are a `Json`; of them it is only assumed that the one undoes the other.

A message is read back exactly when its payload is text (`codec_iff`): the other
twelve fields always are.
-/
import BrokerLite.Codec.BinarySerializer
import BrokerLite.Theory.Utf8

namespace BrokerLite

open Theory

set_option autoImplicit false

/-- A value in the dict of a message; `other` is of a type that no field has. -/
inductive FieldValue where
  | none
  | str (s : String)
  | int (i : ℤ)
  | float (q : ℚ)
  | bytes (b : List UInt8)
  | dict (entries : Dict String String)
  | other (typeName : String)
  deriving DecidableEq

/-- What is written as JSON: a message or a batch. -/
inductive JsonDocument where
  | object (fields : Dict String FieldValue)
  | array (items : List (Dict String FieldValue))
  deriving DecidableEq

structure Json where
  dumps : JsonDocument → Except Raised String
  loads : String → Except Raised JsonDocument

/-- `json.loads` undoes `json.dumps` on the document. -/
def Json.Undoes (json : Json) (document : JsonDocument) : Prop :=
  ∃ text, json.dumps document = .ok text ∧ json.loads text = .ok document

inductive CodecError where
  | raised (raised : Raised)
  | keyError (key : String)
  /-- The program goes on with a field of another type than the one declared. -/
  | untyped (field : String)
  deriving DecidableEq

namespace FieldValue

/-! ## Fields -/

def asStr (field : String) : FieldValue → Except CodecError String
  | .str s => .ok s
  | _ => .error (.untyped field)

def asOptionalStr (field : String) : FieldValue → Except CodecError (Option String)
  | .none => .ok Option.none
  | .str s => .ok (some s)
  | _ => .error (.untyped field)

def asInt (field : String) : FieldValue → Except CodecError ℤ
  | .int i => .ok i
  | _ => .error (.untyped field)

def asNumber (field : String) : FieldValue → Except CodecError ℚ
  | .int i => .ok i
  | .float q => .ok q
  | _ => .error (.untyped field)

/-- `MessageHeaders.from_dict`. -/
def asHeaders (field : String) : FieldValue → Except CodecError (Dict String String)
  | .none => .ok .empty
  | .dict entries => .ok entries
  | _ => .error (.untyped field)

/-- A string is encoded. -/
def asValue (field : String) : FieldValue → Except CodecError (List UInt8)
  | .str s => .ok (utf8 s)
  | .bytes b => .ok b
  | _ => .error (.untyped field)

end FieldValue

/-- `bytes.decode("utf-8", errors="replace")`. -/
def decodeReplace (bytes : List UInt8) : String := Utf8.decode bytes

namespace Message

open FieldValue

def toDict (m : Message) : Dict String FieldValue where
  entries := [("id", .str m.id), ("topic", .str m.topic),
    ("key", m.key.elim .none .str), ("value", .str (decodeReplace m.value)),
    ("headers", .dict m.headers), ("timestamp", .float m.timestamp),
    ("broker_timestamp", .float m.brokerTimestamp), ("partition", .int m.partition),
    ("offset", .int m.offset), ("ttl", .int m.ttl), ("priority", .int m.priority),
    ("producer_id", .str m.producerId), ("sequence_number", .int m.sequenceNumber)]
  nodup := by simp

/-- `from_dict`; `fresh` is the id and `now` the clock reading it takes, needed or not. -/
def fromDict (fresh : String) (now : Timestamp) (data : Dict String FieldValue) :
    Except CodecError Message := do
  let headers ← asHeaders "headers" (data.getD "headers" (.dict .empty))
  let value ← asValue "value" (data.getD "value" (.str ""))
  let id ← asStr "id" (data.getD "id" (.str fresh))
  let topic ← match data.get? "topic" with
    | Option.none => .error (.keyError "topic")
    | some topic => asStr "topic" topic
  let key ← asOptionalStr "key" (data.getD "key" .none)
  let timestamp ← asNumber "timestamp" (data.getD "timestamp" (.float now))
  let brokerTimestamp ← asNumber "broker_timestamp" (data.getD "broker_timestamp" (.float 0))
  let partition ← asInt "partition" (data.getD "partition" (.int (-1)))
  let offset ← asInt "offset" (data.getD "offset" (.int (-1)))
  let ttl ← asInt "ttl" (data.getD "ttl" (.int 0))
  let priority ← asInt "priority" (data.getD "priority" (.int 0))
  let producerId ← asStr "producer_id" (data.getD "producer_id" (.str ""))
  let sequenceNumber ← asInt "sequence_number" (data.getD "sequence_number" (.int (-1)))
  return { topic, value, key, id, headers, timestamp, brokerTimestamp, partition, offset, ttl, priority,
           producerId, sequenceNumber }

def toBytes (json : Json) (m : Message) : Except Raised (List UInt8) := do
  return utf8 (← json.dumps (.object m.toDict))

def fromBytes (json : Json) (fresh : String) (now : Timestamp) (data : List UInt8) :
    Except CodecError Message := do
  let text ← (decodeUtf8 data).mapError .raised
  match ← (json.loads text).mapError .raised with
  | .object fields => fromDict fresh now fields
  | .array _ => .error (.raised (.attributeError "'list' object has no attribute 'get'"))

def clone (fresh : String) (now : Timestamp) (m : Message) (overrides : Dict String FieldValue) :
    Except CodecError Message :=
  let d := overrides.entries.foldl (fun d e => d.set e.1 e.2) m.toDict
  let d := match overrides.get? "value" with
    | some (.bytes b) => d.set "value" (.str (decodeReplace b))
    | _ => d
  fromDict fresh now d

end Message

/-! ## Batches -/

/-- The messages of a batch. -/
abbrev MessageBatch := List Message

namespace MessageBatch

def toBytes (json : Json) (b : MessageBatch) : Except Raised (List UInt8) := do
  return utf8 (← json.dumps (.array (b.map Message.toDict)))

/-- The items of a batch, each with the id and the clock reading that `from_dict` takes. -/
def fromDicts (fresh : ℕ → String) (now : ℕ → Timestamp) (items : List (Dict String FieldValue)) :
    Except CodecError MessageBatch :=
  items.zipIdx.mapM fun item => Message.fromDict (fresh item.2) (now item.2) item.1

def fromBytes (json : Json) (fresh : ℕ → String) (now : ℕ → Timestamp) (data : List UInt8) :
    Except CodecError MessageBatch := do
  let text ← (decodeUtf8 data).mapError .raised
  match ← (json.loads text).mapError .raised with
  | .array items => fromDicts fresh now items
  | .object fields =>
      if fields.entries = [] then return []
      else .error (.raised (.attributeError "'str' object has no attribute 'get'"))

end MessageBatch

/-! ## Reading back -/

namespace Message

/-- The dict of a message gives back every field, and the payload as text. -/
theorem fromDict_toDict (fresh : String) (now : Timestamp) (m : Message) :
    fromDict fresh now m.toDict = .ok { m with value := utf8 (decodeReplace m.value) } := by
  unfold fromDict toDict
  cases m with
  | mk topic value key =>
      cases key <;> rfl

/-- A message whose payload is text is given back. -/
theorem decoded_iff {m : Message} {value : List UInt8} :
    ({ m with value := utf8 (decodeReplace value) } : Message) = { m with value } ↔ Utf8.Valid value := by
  rw [← Utf8.encode_decode_iff]
  cases m
  simp [utf8, decodeReplace, Utf8.encode]

theorem fromBytes_toBytes (json : Json) (fresh : String) (now : Timestamp) (m : Message)
    (undoes : json.Undoes (.object m.toDict)) : ∃ data, m.toBytes json = .ok data ∧
      fromBytes json fresh now data = .ok { m with value := utf8 (decodeReplace m.value) } := by
  obtain ⟨text, dumped, loaded⟩ := undoes
  refine ⟨utf8 text, by rw [toBytes, dumped]; rfl, ?_⟩
  simp only [fromBytes, decodeUtf8_utf8, Except.mapError, bind, Except.bind, loaded]
  exact fromDict_toDict fresh now m

theorem clone_nothing (fresh : String) (now : Timestamp) (m : Message) :
    m.clone fresh now .empty = .ok { m with value := utf8 (decodeReplace m.value) } :=
  fromDict_toDict fresh now m

/-- A clone with another payload is the clone of the message with that payload. -/
theorem clone_value (fresh : String) (now : Timestamp) (m : Message) (v : List UInt8) :
    m.clone fresh now (Dict.empty.set "value" (.bytes v)) =
      .ok { m with value := utf8 (decodeReplace v) } := by
  have replaced : (m.toDict.set "value" (.bytes v)).set "value" (.str (decodeReplace v)) =
      ({ m with value := v } : Message).toDict := Dict.ext rfl
  show fromDict fresh now ((m.toDict.set "value" (.bytes v)).set "value" (.str (decodeReplace v))) = _
  rw [replaced, fromDict_toDict]

end Message

namespace MessageBatch

theorem fromDicts_toDict (fresh : ℕ → String) (now : ℕ → Timestamp) (b : MessageBatch) :
    fromDicts fresh now (b.map Message.toDict) =
      .ok (b.map fun m => { m with value := utf8 (decodeReplace m.value) }) := by
  have from_ : ∀ n, ((b.map Message.toDict).zipIdx n).mapM (fun item =>
      Message.fromDict (fresh item.2) (now item.2) item.1) =
        .ok (b.map fun m => { m with value := utf8 (decodeReplace m.value) }) := by
    induction b with
    | nil => exact fun _ => rfl
    | cons m rest ih =>
        intro n
        rw [List.map_cons, List.zipIdx_cons, List.mapM_cons, Message.fromDict_toDict, ih (n + 1)]
        rfl
  exact from_ 0

theorem fromBytes_toBytes (json : Json) (fresh : ℕ → String) (now : ℕ → Timestamp) (b : MessageBatch)
    (undoes : json.Undoes (.array (b.map Message.toDict))) : ∃ data, b.toBytes json = .ok data ∧
      fromBytes json fresh now data =
        .ok (b.map fun m => { m with value := utf8 (decodeReplace m.value) }) := by
  obtain ⟨text, dumped, loaded⟩ := undoes
  refine ⟨utf8 text, by rw [toBytes, dumped]; rfl, ?_⟩
  simp only [fromBytes, decodeUtf8_utf8, Except.mapError, bind, Except.bind, loaded]
  exact fromDicts_toDict fresh now b

end MessageBatch

/-- **When a message survives its codec.**  Writing a message and reading it back, and a
clone without overrides, give the message exactly when its payload is text; a batch comes
back exactly when every payload in it is; and a clone with another payload has that
payload exactly when that is. -/
theorem Message.codec_iff (json : Json) (m : Message) (b : MessageBatch) (v : List UInt8)
    (fresh : ℕ → String) (now : ℕ → Timestamp) (message : json.Undoes (.object m.toDict))
    (batch : json.Undoes (.array (b.map toDict))) :
    ((∃ data, m.toBytes json = .ok data ∧ fromBytes json (fresh 0) (now 0) data = .ok m) ↔
      Utf8.Valid m.value) ∧
    ((∃ data, b.toBytes json = .ok data ∧ MessageBatch.fromBytes json fresh now data = .ok b) ↔
      ∀ m ∈ b, Utf8.Valid m.value) ∧
    (m.clone (fresh 0) (now 0) .empty = .ok m ↔ Utf8.Valid m.value) ∧
    (m.clone (fresh 0) (now 0) (Dict.empty.set "value" (.bytes v)) = .ok { m with value := v } ↔
      Utf8.Valid v) := by
  obtain ⟨data, written, read⟩ := fromBytes_toBytes json (fresh 0) (now 0) m message
  obtain ⟨data', written', read'⟩ := MessageBatch.fromBytes_toBytes json fresh now b batch
  refine ⟨?_, ?_, ?_, ?_⟩
  · rw [written]
    simp only [Except.ok.injEq, exists_eq_left']
    rw [read, Except.ok.injEq]
    exact decoded_iff
  · rw [written']
    simp only [Except.ok.injEq, exists_eq_left']
    rw [read', Except.ok.injEq]
    conv_lhs => rhs; rw [← List.map_id b]
    rw [List.map_inj_left]
    exact forall₂_congr fun m _ => decoded_iff
  · rw [clone_nothing, Except.ok.injEq]
    exact decoded_iff
  · rw [clone_value, Except.ok.injEq]
    exact decoded_iff

/-! ## Payloads that are no text -/

/-- A `Json` that knows some documents and their texts. -/
def Json.ofTable (table : List (JsonDocument × String)) : Json where
  dumps document := match table.find? fun e => e.1 = document with
    | some e => .ok e.2
    | none => .error (.typeError "Object of type bytes is not JSON serializable")
  loads text := match table.find? fun e => e.2 = text with
    | some e => .ok e.1
    | none => .error .jsonDecodeError

theorem Json.ofTable_undoes (document : JsonDocument) (text : String)
    (rest : List (JsonDocument × String)) : (ofTable ((document, text) :: rest)).Undoes document :=
  ⟨text, by simp [ofTable], by simp [ofTable]⟩

namespace Message

def textMessage : Message := { topic := "t", value := [0x76], id := "1" }

/-- The payload is the byte 0xff. -/
def binaryMessage : Message := { topic := "t", value := [0xFF], id := "1" }

/-- The JSON text of such a message, with the text of its payload. -/
def textJson (value : String) : String :=
  "\x7b\"id\": \"1\", \"topic\": \"t\", \"key\": null, \"value\": \"" ++ value ++
    "\", \"headers\": \x7b\x7d, \"timestamp\": 0.0, \"broker_timestamp\": 0.0, \"partition\": -1, " ++
    "\"offset\": -1, \"ttl\": 0, \"priority\": 0, \"producer_id\": \"\", \"sequence_number\": -1\x7d"

def textTable : Json := .ofTable [(.object textMessage.toDict, textJson "v"),
  (.array [textMessage.toDict], "[" ++ textJson "v" ++ "]")]

theorem textTable_array : textTable.Undoes (.array [textMessage.toDict]) := by
  have differs : textJson "v" ≠ "[" ++ textJson "v" ++ "]" := by decide +kernel
  exact ⟨"[" ++ textJson "v" ++ "]", by simp [textTable, Json.ofTable],
    by simp [textTable, Json.ofTable, differs]⟩

theorem textMessage_codec :
    ((∃ data, textMessage.toBytes textTable = .ok data ∧
        fromBytes textTable "2" 1 data = .ok textMessage) ↔ Utf8.Valid textMessage.value) ∧
    ((∃ data, MessageBatch.toBytes textTable [textMessage] = .ok data ∧
        MessageBatch.fromBytes textTable (fun _ => "2") (fun _ => 1) data = .ok [textMessage]) ↔
      ∀ m ∈ [textMessage], Utf8.Valid m.value) ∧
    (textMessage.clone "2" 1 .empty = .ok textMessage ↔ Utf8.Valid textMessage.value) ∧
    (textMessage.clone "2" 1 (Dict.empty.set "value" (.bytes [0xFF])) =
        .ok { textMessage with value := [0xFF] } ↔ Utf8.Valid [0xFF]) :=
  codec_iff textTable textMessage [textMessage] [0xFF] (fun _ => "2") (fun _ => 1)
    (Json.ofTable_undoes ..) textTable_array

/-- The byte 0xff comes back as the three bytes of U+FFFD, through bytes and in a clone. -/
theorem binaryMessage_replaced :
    let json := Json.ofTable [(.object binaryMessage.toDict, textJson "\\ufffd")]
    let replaced : Message := { binaryMessage with value := [0xEF, 0xBF, 0xBD] }
    json.Undoes (.object binaryMessage.toDict) ∧
    (∃ data, binaryMessage.toBytes json = .ok data ∧ fromBytes json "2" 1 data = .ok replaced) ∧
    binaryMessage.clone "2" 1 .empty = .ok replaced ∧ replaced ≠ binaryMessage := by
  intro json replaced
  have undoes : json.Undoes (.object binaryMessage.toDict) := Json.ofTable_undoes ..
  have bytes : utf8 (decodeReplace [0xFF]) = [0xEF, 0xBF, 0xBD] := by decide +kernel
  have given : ({ binaryMessage with value := utf8 (decodeReplace binaryMessage.value) } : Message) =
      replaced := by
    rw [show binaryMessage.value = [0xFF] from rfl, bytes]
  refine ⟨undoes, ?_, ?_, by decide +kernel⟩
  · rw [← given]
    exact fromBytes_toBytes json "2" 1 binaryMessage undoes
  · rw [← given]
    exact clone_nothing "2" 1 binaryMessage

end Message

end BrokerLite
