/-
# Wire.Protocol -- frames and their bytes

A `Frame` is an api key, a version, a correlation id and a payload; on the wire a
header of twelve bytes (`!IHHi`: the length of what follows the length field, the
key, the version, the id) stands before the payload.  `struct.pack` raises when a
number does not fit its field, so `toBytes` succeeds on the frames that `Fits`.

`readFromBuffer` takes a frame off the front of a buffer when the length field
says that it is there.  On the encodings of frames that fit it is a `Reader`.
-/
import BrokerLite.Store.Message
import BrokerLite.Theory.BigEndian
import BrokerLite.Theory.Framing

namespace BrokerLite

open Theory

set_option autoImplicit false

inductive ApiKey where
  | produce
  | fetch
  | listOffsets
  | metadata
  | offsetCommit
  | offsetFetch
  | createTopics
  | deleteTopics
  | heartbeat
  | joinGroup
  | leaveGroup
  | syncGroup
  | listGroups
  | createQueue
  | enqueue
  | dequeue
  | ack
  | nack
  | metrics
  deriving DecidableEq

namespace ApiKey

def value : ApiKey → ℕ
  | .produce => 0
  | .fetch => 1
  | .listOffsets => 2
  | .metadata => 3
  | .offsetCommit => 4
  | .offsetFetch => 5
  | .createTopics => 6
  | .deleteTopics => 7
  | .heartbeat => 8
  | .joinGroup => 9
  | .leaveGroup => 10
  | .syncGroup => 11
  | .listGroups => 12
  | .createQueue => 13
  | .enqueue => 14
  | .dequeue => 15
  | .ack => 16
  | .nack => 17
  | .metrics => 18

/-- `ApiKey(value)`. -/
def ofValue : ℕ → Except Raised ApiKey
  | 0 => .ok .produce
  | 1 => .ok .fetch
  | 2 => .ok .listOffsets
  | 3 => .ok .metadata
  | 4 => .ok .offsetCommit
  | 5 => .ok .offsetFetch
  | 6 => .ok .createTopics
  | 7 => .ok .deleteTopics
  | 8 => .ok .heartbeat
  | 9 => .ok .joinGroup
  | 10 => .ok .leaveGroup
  | 11 => .ok .syncGroup
  | 12 => .ok .listGroups
  | 13 => .ok .createQueue
  | 14 => .ok .enqueue
  | 15 => .ok .dequeue
  | 16 => .ok .ack
  | 17 => .ok .nack
  | 18 => .ok .metrics
  | value => .error (.valueError (.notAnApiKey value))

theorem ofValue_value (key : ApiKey) : ofValue key.value = .ok key := by cases key <;> rfl

theorem value_of_ofValue {n : ℕ} {key : ApiKey} (known : ofValue n = .ok key) : key.value = n := by
  unfold ofValue at known
  split at known <;> cases known <;> rfl

theorem value_lt (key : ApiKey) : key.value < 19 := by cases key <;> decide

end ApiKey

inductive ErrorCode where
  | none
  | unknown
  | unknownTopic
  | invalidMessage
  | unknownPartition
  | offsetOutOfRange
  | groupNotFound
  | queueFull
  | queueNotFound
  | messageTooLarge
  | topicAlreadyExists
  | invalidRequest
  | brokerNotAvailable
  deriving DecidableEq

def ErrorCode.value : ErrorCode → ℤ
  | none => 0
  | unknown => -1
  | unknownTopic => 3
  | invalidMessage => 4
  | unknownPartition => 6
  | offsetOutOfRange => 1
  | groupNotFound => 15
  | queueFull => 50
  | queueNotFound => 51
  | messageTooLarge => 10
  | topicAlreadyExists => 36
  | invalidRequest => 42
  | brokerNotAvailable => 8

/-- `struct.calcsize("!IHHi")`. -/
def headerSize : ℕ := 12

/-- `struct.pack("!IHHi", …)`; the first two numbers are never negative. -/
def packHeader (frameLength apiKey : ℕ) (apiVersion correlationId : ℤ) : Except Raised (List UInt8) :=
  if frameLength < 256 ^ 4 ∧ apiKey < 256 ^ 2 ∧ (0 ≤ apiVersion ∧ apiVersion < 256 ^ 2) ∧
      (-(256 ^ 4 / 2) ≤ correlationId ∧ correlationId < 256 ^ 4 / 2) then
    .ok (bytesOf 4 frameLength ++ (bytesOf 2 apiKey ++ (bytesOf 2 apiVersion.toNat ++
      bytesOf 4 (correlationId % 256 ^ 4).toNat)))
  else .error .structError

structure Frame where
  apiKey : ApiKey
  apiVersion : ℤ
  correlationId : ℤ
  payload : List UInt8
  deriving DecidableEq

namespace Frame

/-- What the length field says: the length of everything after it. -/
def frameLength (f : Frame) : ℕ := headerSize - 4 + f.payload.length

def toBytes (f : Frame) : Except Raised (List UInt8) :=
  match packHeader f.frameLength f.apiKey.value f.apiVersion f.correlationId with
  | .error raised => .error raised
  | .ok header => .ok (header ++ f.payload)

def fromBytes (data : List UInt8) : Except Raised Frame :=
  if data.length < headerSize then .error (.valueError (.frameTooShort data.length))
  else
    let header := data.take headerSize
    match ApiKey.ofValue (natOf ((header.drop 4).take 2)) with
    | .error raised => .error raised
    | .ok apiKey => .ok {
        apiKey
        apiVersion := natOf ((header.drop 6).take 2)
        correlationId := intOf (header.drop 8)
        payload := data.drop headerSize }

def readFromBuffer (buffer : List UInt8) : Except Raised (Option Frame × List UInt8) :=
  if buffer.length < 4 then .ok (none, buffer)
  else
    let totalLength := 4 + natOf (buffer.take 4)
    if buffer.length < totalLength then .ok (none, buffer)
    else
      match fromBytes (buffer.take totalLength) with
      | .error raised => .error raised
      | .ok frame => .ok (some frame, buffer.drop totalLength)

/-! ## Frames that fit their fields -/

/-- Every number of the frame fits its field. -/
structure Fits (f : Frame) : Prop where
  length : f.frameLength < 256 ^ 4
  version : 0 ≤ f.apiVersion ∧ f.apiVersion < 256 ^ 2
  correlation : -(256 ^ 4 / 2) ≤ f.correlationId ∧ f.correlationId < 256 ^ 4 / 2

instance (f : Frame) : Decidable f.Fits :=
  decidable_of_iff (f.frameLength < 256 ^ 4 ∧ (0 ≤ f.apiVersion ∧ f.apiVersion < 256 ^ 2) ∧
      (-(256 ^ 4 / 2) ≤ f.correlationId ∧ f.correlationId < 256 ^ 4 / 2))
    ⟨fun h => ⟨h.1, h.2.1, h.2.2⟩, fun h => ⟨h.length, h.version, h.correlation⟩⟩

/-- The bytes of a frame that fits. -/
def encoding (f : Frame) : List UInt8 :=
  bytesOf 4 f.frameLength ++ (bytesOf 2 f.apiKey.value ++ (bytesOf 2 f.apiVersion.toNat ++
    (bytesOf 4 (f.correlationId % 256 ^ 4).toNat ++ f.payload)))

theorem length_encoding (f : Frame) : f.encoding.length = 4 + f.frameLength := by
  simp only [encoding, List.length_append, length_bytesOf, frameLength, headerSize]
  omega

theorem encoding_ne_nil (f : Frame) : f.encoding ≠ [] := by
  rw [← List.length_pos_iff, length_encoding]
  omega

/-- The length field, and as much as it says. -/
theorem encoding_split (f : Frame) :
    ∃ body, f.encoding = bytesOf 4 f.frameLength ++ body ∧ body.length = f.frameLength := by
  refine ⟨_, rfl, ?_⟩
  have length := f.length_encoding
  rw [encoding, List.length_append, length_bytesOf] at length
  omega

/-- No frame is there before its first byte. -/
theorem complete_zero (frames : List Frame) : complete encoding 0 frames = [] := by
  cases frames with
  | nil => rfl
  | cons f rest => exact complete_cons_of_lt (by rw [length_encoding]; omega) rest

/-- `to_bytes` succeeds on exactly the frames that fit. -/
theorem toBytes_eq_ok_iff {f : Frame} {bytes : List UInt8} :
    f.toBytes = .ok bytes ↔ f.Fits ∧ bytes = f.encoding := by
  unfold toBytes packHeader
  constructor
  · intro done
    split at done
    · cases done
    · next header packed =>
        split at packed
        · next fits =>
            cases packed
            cases done
            exact ⟨⟨fits.1, fits.2.2.1, fits.2.2.2⟩, by simp only [encoding, List.append_assoc]⟩
        · cases packed
  · rintro ⟨fits, rfl⟩
    have key : f.apiKey.value < 256 ^ 2 := lt_trans f.apiKey.value_lt (by decide)
    rw [if_pos ⟨fits.length, key, fits.version, fits.correlation⟩]
    simp only [encoding, List.append_assoc]

/-- What stands behind the length field. -/
def body (f : Frame) : List UInt8 :=
  bytesOf 2 f.apiKey.value ++ (bytesOf 2 f.apiVersion.toNat ++
    (bytesOf 4 (f.correlationId % 256 ^ 4).toNat ++ f.payload))

/-- An unsigned 16-bit version, a signed 32-bit correlation id. -/
structure InRange (f : Frame) : Prop where
  version : 0 ≤ f.apiVersion ∧ f.apiVersion < 2 ^ 16
  correlation : -(2 ^ 31) ≤ f.correlationId ∧ f.correlationId < 2 ^ 31

theorem length_body (f : Frame) : f.body.length = f.frameLength := by
  simp only [body, List.length_append, length_bytesOf, frameLength, headerSize]
  omega

theorem encoding_eq (f : Frame) : f.encoding = bytesOf 4 f.frameLength ++ f.body := rfl

/-- A frame fits if its payload is not too long for the length field. -/
theorem fits_iff {f : Frame} : f.Fits ↔ f.frameLength < 256 ^ 4 ∧ f.InRange := by
  constructor
  · intro fits
    have version := fits.version
    have correlation := fits.correlation
    exact ⟨fits.length, by omega, by omega⟩
  · rintro ⟨length, version, correlation⟩
    exact ⟨length, by omega, by omega⟩

variable {f : Frame}

/-- The length field of an encoding. -/
theorem natOf_take_encoding (fits : f.Fits) (rest : List UInt8) :
    natOf ((f.encoding ++ rest).take 4) = f.frameLength := by
  have field : (f.encoding ++ rest).take 4 = bytesOf 4 f.frameLength := by
    rw [encoding, List.append_assoc, List.take_left' (length_bytesOf 4 _)]
  rw [field, natOf_bytesOf fits.length]

/-- What `from_bytes` reads where. -/
theorem fromBytes_fields {length key version correlation : List UInt8} (payload : List UInt8)
    (four : length.length = 4) (two : key.length = 2) (next : version.length = 2)
    (last : correlation.length = 4) :
    fromBytes (length ++ (key ++ (version ++ (correlation ++ payload)))) =
      match ApiKey.ofValue (natOf key) with
      | .error raised => .error raised
      | .ok apiKey => .ok {
          apiKey, apiVersion := natOf version, correlationId := intOf correlation, payload } := by
  have split : length ++ (key ++ (version ++ (correlation ++ payload))) =
      (length ++ (key ++ (version ++ correlation))) ++ payload := by simp only [List.append_assoc]
  have size : (length ++ (key ++ (version ++ correlation))).length = headerSize := by
    simp [four, two, next, last, headerSize]
  have after_length : (length ++ (key ++ (version ++ correlation))).drop 4 =
      key ++ (version ++ correlation) := List.drop_left' four
  have after_key : (length ++ (key ++ (version ++ correlation))).drop (4 + 2) =
      version ++ correlation := by
    rw [← List.drop_drop, after_length, List.drop_left' two]
  have after_version : (length ++ (key ++ (version ++ correlation))).drop (6 + 2) = correlation := by
    rw [← List.drop_drop, after_key, List.drop_left' next]
  unfold fromBytes
  rw [split, if_neg (by rw [List.length_append]; omega), List.take_left' size, List.drop_left' size]
  dsimp only
  rw [after_length, after_key, after_version, List.take_left' two, List.take_left' next]

/-- Behind any four bytes a frame is read from its body. -/
theorem fromBytes_body (range : f.InRange) {length : List UInt8} (four : length.length = 4) :
    fromBytes (length ++ f.body) = .ok f := by
  have key : natOf (bytesOf 2 f.apiKey.value) = f.apiKey.value :=
    natOf_bytesOf (lt_trans f.apiKey.value_lt (by decide))
  have version : (natOf (bytesOf 2 f.apiVersion.toNat) : ℤ) = f.apiVersion := by
    have range := range.version
    rw [natOf_bytesOf (by omega), Int.toNat_of_nonneg range.1]
  have correlation : intOf (bytesOf 4 (f.correlationId % 256 ^ 4).toNat) = f.correlationId := by
    have range := range.correlation
    exact intOf_bytesOf (by omega) (by omega)
  rw [body, fromBytes_fields f.payload four (length_bytesOf 2 _) (length_bytesOf 2 _)
    (length_bytesOf 4 _), key, version, correlation, ApiKey.ofValue_value]

theorem fromBytes_encoding (fits : f.Fits) : fromBytes f.encoding = .ok f := by
  rw [encoding_eq]
  exact fromBytes_body (fits_iff.mp fits).2 (length_bytesOf 4 _)

theorem readFromBuffer_reader : Reader encoding Fits readFromBuffer where
  whole f rest fits := by
    have length := length_encoding f
    unfold readFromBuffer
    rw [if_neg (by rw [List.length_append]; omega)]
    dsimp only
    rw [natOf_take_encoding fits, ← length, if_neg (by rw [List.length_append]; omega),
      List.take_left' rfl, fromBytes_encoding fits, List.drop_left' rfl]
  part f arrived missing fits more whole := by
    have length := length_encoding f
    have positive := List.length_pos_iff.mpr more
    rw [whole, List.length_append] at length
    unfold readFromBuffer
    split
    · rfl
    · next long =>
        have field := natOf_take_encoding fits []
        rw [List.append_nil, whole, List.take_append_of_le_length (by omega)] at field
        dsimp only
        rw [field, if_pos (by omega)]

end Frame

end BrokerLite
