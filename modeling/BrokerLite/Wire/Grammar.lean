/-
# Wire.Grammar -- which bytes are frames

`from_bytes` takes the four bytes in front of a frame for whatever they are
(`fromBytes_eq_ok_iff`): they need not say how long the rest is.  `readFromBuffer`
cuts the buffer where they say, so that it finds a frame exactly where its own bytes
stand (`readFromBuffer_grammar`).  The decoders of requests and responses are handed
bytes that were cut off that way, and do not look at the length either
(`fromBytes_lengthChecked_iff`).
-/
import BrokerLite.Wire.Client

namespace BrokerLite

open Theory

set_option autoImplicit false

namespace ApiKey

theorem ofValue_known {n : ℕ} : (∃ key, ofValue n = .ok key) ↔ ∃ key : ApiKey, key.value = n := by
  constructor
  · rintro ⟨key, known⟩
    exact ⟨key, value_of_ofValue known⟩
  · rintro ⟨key, rfl⟩
    exact ⟨key, ofValue_value key⟩

theorem ofValue_error {n : ℕ} {raised : Raised} (unknown : ofValue n = .error raised) :
    raised = .valueError (.notAnApiKey n) := by
  unfold ofValue at unknown
  split at unknown <;> cases unknown
  rfl

end ApiKey

namespace Frame

/-- Any twelve bytes are the four fields of a header. -/
theorem header_fields {data : List UInt8} (long : headerSize ≤ data.length) :
    ∃ length key version correlation payload : List UInt8,
      data = length ++ (key ++ (version ++ (correlation ++ payload))) ∧ length.length = 4 ∧
        key.length = 2 ∧ version.length = 2 ∧ correlation.length = 4 := by
  refine ⟨data.take 4, (data.drop 4).take 2, ((data.drop 4).drop 2).take 2,
    (((data.drop 4).drop 2).drop 2).take 4, (((data.drop 4).drop 2).drop 2).drop 4, ?_, ?_⟩
  · simp only [List.take_append_drop]
  · simp only [List.length_take, List.length_drop]
    unfold headerSize at long
    omega

/-- **What `from_bytes` accepts**: any four bytes, and behind them the rest of a frame. -/
theorem fromBytes_eq_ok_iff {data : List UInt8} {f : Frame} :
    fromBytes data = .ok f ↔
      f.InRange ∧ ∃ length : List UInt8, length.length = 4 ∧ data = length ++ f.body := by
  constructor
  · intro done
    have long : headerSize ≤ data.length := by
      by_contra short
      rw [fromBytes, if_pos (by omega)] at done
      cases done
    obtain ⟨length, key, version, correlation, payload, rfl, four, two, next, last⟩ :=
      header_fields long
    rw [fromBytes_fields payload four two next last] at done
    split at done
    · cases done
    · next apiKey known =>
        cases done
        have number := ApiKey.value_of_ofValue known
        have small := natOf_lt version
        have signed := intOf_range last
        rw [next] at small
        refine ⟨⟨?_, ?_⟩, length, four, ?_⟩
        · show 0 ≤ (natOf version : ℤ) ∧ (natOf version : ℤ) < 2 ^ 16
          omega
        · show -(2 ^ 31) ≤ intOf correlation ∧ intOf correlation < 2 ^ 31
          omega
        have writes_key := bytesOf_natOf key
        have writes_version := bytesOf_natOf version
        have writes_correlation := bytesOf_intOf correlation
        rw [two] at writes_key
        rw [next] at writes_version
        rw [last] at writes_correlation
        simp only [body, number, Int.toNat_natCast, writes_key, writes_version, writes_correlation]
  · rintro ⟨range, length, four, rfl⟩
    exact fromBytes_body range four

/-- It accepts twelve bytes or more with a known key. -/
theorem fromBytes_accepts_iff {data : List UInt8} : (∃ f, fromBytes data = .ok f) ↔
    headerSize ≤ data.length ∧ ∃ key : ApiKey, key.value = natOf ((data.drop 4).take 2) := by
  by_cases long : headerSize ≤ data.length
  · obtain ⟨length, key, version, correlation, payload, rfl, four, two, next, last⟩ :=
      header_fields long
    rw [fromBytes_fields payload four two next last, List.drop_left' four, List.take_left' two,
      ← ApiKey.ofValue_known]
    cases known : ApiKey.ofValue (natOf key) with
    | ok apiKey => exact iff_of_true ⟨_, rfl⟩ ⟨long, apiKey, rfl⟩
    | error raised => simp
  · rw [fromBytes, if_pos (Nat.not_le.mp long)]
    simp [long]

theorem fromBytes_error {data : List UInt8} {raised : Raised} (failed : fromBytes data = .error raised) :
    ∃ error, raised = .valueError error := by
  unfold fromBytes at failed
  split at failed
  · cases failed
    exact ⟨_, rfl⟩
  · dsimp only at failed
    split at failed
    · next unknown =>
        cases failed
        exact ⟨_, ApiKey.ofValue_error unknown⟩
    · cases failed

/-! ## Frames at the front of a buffer -/

/-- The length field, or what it says, has not arrived whole. -/
def Incomplete (buffer : List UInt8) : Prop :=
  buffer.length < 4 ∨ buffer.length < 4 + natOf (buffer.take 4)

theorem readFromBuffer_of_incomplete {buffer : List UInt8} (missing : Incomplete buffer) :
    readFromBuffer buffer = .ok (none, buffer) := by
  unfold readFromBuffer
  split
  · rfl
  · next long =>
      dsimp only
      rw [if_pos (missing.resolve_left long)]

theorem readFromBuffer_of_complete {buffer : List UInt8} (whole : ¬ Incomplete buffer) :
    readFromBuffer buffer =
      match fromBytes (buffer.take (4 + natOf (buffer.take 4))) with
      | .error raised => .error raised
      | .ok frame => .ok (some frame, buffer.drop (4 + natOf (buffer.take 4))) := by
  unfold Incomplete at whole
  unfold readFromBuffer
  rw [if_neg (by omega)]
  dsimp only
  refine (if_neg (by omega)).trans ?_
  rfl

/-- What stands where the length field says is a frame if it has room for a header with a known key. -/
theorem fromBytes_take_accepts_iff {buffer : List UInt8} (whole : ¬ Incomplete buffer) :
    (∃ f, fromBytes (buffer.take (4 + natOf (buffer.take 4))) = .ok f) ↔
      8 ≤ natOf (buffer.take 4) ∧ ∃ key : ApiKey, key.value = natOf ((buffer.drop 4).take 2) := by
  unfold Incomplete at whole
  rw [fromBytes_accepts_iff, List.length_take_of_le (by omega)]
  by_cases room : 8 ≤ natOf (buffer.take 4)
  · have key : ((buffer.take (4 + natOf (buffer.take 4))).drop 4).take 2 = (buffer.drop 4).take 2 := by
      rw [List.drop_take, List.take_take]
      congr 1
      omega
    rw [key]
    exact and_congr_left fun _ => iff_of_true (by unfold headerSize; omega) room
  · have small : ¬ headerSize ≤ 4 + natOf (buffer.take 4) := by
      unfold headerSize
      omega
    simp [room, small]

/-- A frame is taken off a buffer that starts with its bytes, and off no other. -/
theorem readFromBuffer_some_iff {buffer rest : List UInt8} {f : Frame} :
    readFromBuffer buffer = .ok (some f, rest) ↔
      f.InRange ∧ ∃ bytes, f.toBytes = .ok bytes ∧ buffer = bytes ++ rest := by
  constructor
  · intro read
    have whole : ¬ Incomplete buffer := by
      intro missing
      rw [readFromBuffer_of_incomplete missing] at read
      cases read
    rw [readFromBuffer_of_complete whole] at read
    split at read
    · cases read
    · next frame done =>
        cases read
        obtain ⟨range, length, four, cut⟩ := fromBytes_eq_ok_iff.mp done
        have size := congrArg List.length cut
        have field := congrArg (List.take 4) cut
        unfold Incomplete at whole
        rw [List.length_append, length_body, four, List.length_take_of_le (by omega)] at size
        rw [List.take_left' four, List.take_take, Nat.min_eq_left (by omega)] at field
        have stated : natOf length = f.frameLength := by
          rw [← field]
          omega
        have writes := bytesOf_natOf length
        rw [four, stated] at writes
        have small := natOf_lt length
        rw [four, stated] at small
        refine ⟨range, _, toBytes_eq_ok_iff.mpr ⟨fits_iff.mpr ⟨small, range⟩, rfl⟩, ?_⟩
        rw [encoding_eq, writes, ← cut, List.take_append_drop]
  · rintro ⟨-, bytes, written, rfl⟩
    obtain ⟨fits, rfl⟩ := toBytes_eq_ok_iff.mp written
    exact readFromBuffer_reader.whole f rest fits

theorem readFromBuffer_none_iff {buffer rest : List UInt8} :
    readFromBuffer buffer = .ok (none, rest) ↔ rest = buffer ∧ Incomplete buffer := by
  by_cases missing : Incomplete buffer
  · rw [readFromBuffer_of_incomplete missing]
    constructor
    · intro same
      cases same
      exact ⟨rfl, missing⟩
    · rintro ⟨rfl, -⟩
      rfl
  · rw [readFromBuffer_of_complete missing]
    refine iff_of_false ?_ fun both => missing both.2
    split <;> simp

/-- Nothing but `from_bytes` raises. -/
theorem readFromBuffer_raises {buffer : List UInt8} {raised : Raised}
    (failed : readFromBuffer buffer = .error raised) :
    (∃ error, raised = .valueError error) ∧ ¬ Incomplete buffer ∧
      ¬ ∃ f, fromBytes (buffer.take (4 + natOf (buffer.take 4))) = .ok f := by
  by_cases missing : Incomplete buffer
  · rw [readFromBuffer_of_incomplete missing] at failed
    cases failed
  · rw [readFromBuffer_of_complete missing] at failed
    split at failed
    · next refused =>
        cases failed
        refine ⟨fromBytes_error refused, missing, ?_⟩
        rw [refused]
        simp
    · cases failed

theorem readFromBuffer_raises_iff {buffer : List UInt8} :
    (∃ error, readFromBuffer buffer = .error (.valueError error)) ↔ ¬ Incomplete buffer ∧
      ¬ (8 ≤ natOf (buffer.take 4) ∧ ∃ key : ApiKey, key.value = natOf ((buffer.drop 4).take 2)) := by
  constructor
  · rintro ⟨error, failed⟩
    obtain ⟨-, whole, refused⟩ := readFromBuffer_raises failed
    rw [fromBytes_take_accepts_iff whole] at refused
    exact ⟨whole, refused⟩
  · rintro ⟨whole, unacceptable⟩
    rw [← fromBytes_take_accepts_iff whole] at unacceptable
    rw [readFromBuffer_of_complete whole]
    cases done : fromBytes (buffer.take (4 + natOf (buffer.take 4))) with
    | error raised =>
        obtain ⟨error, rfl⟩ := fromBytes_error done
        exact ⟨error, rfl⟩
    | ok f => exact absurd ⟨f, done⟩ unacceptable

/-- **`read_from_buffer` accepts exactly the frames.**  A frame is found where its own bytes stand in
front, which determines it and the rest; nothing is found where bytes are missing; and everything
else raises a `ValueError`: a length that has no room for the header, or an unknown key. -/
theorem readFromBuffer_grammar (buffer : List UInt8) :
    (∀ f rest, readFromBuffer buffer = .ok (some f, rest) ↔
      f.InRange ∧ ∃ bytes, f.toBytes = .ok bytes ∧ buffer = bytes ++ rest) ∧
    (∀ (f f' : Frame) rest rest' bytes bytes', f.toBytes = .ok bytes → f'.toBytes = .ok bytes' →
      buffer = bytes ++ rest → buffer = bytes' ++ rest' → f = f' ∧ rest = rest') ∧
    (∀ rest, readFromBuffer buffer = .ok (none, rest) ↔ rest = buffer ∧
      (buffer.length < 4 ∨ buffer.length < 4 + natOf (buffer.take 4))) ∧
    ((∃ error, readFromBuffer buffer = .error (.valueError error)) ↔
      4 ≤ buffer.length ∧ 4 + natOf (buffer.take 4) ≤ buffer.length ∧
        (natOf (buffer.take 4) < 8 ∨ ∀ key : ApiKey, key.value ≠ natOf ((buffer.drop 4).take 2))) ∧
    ∀ raised, readFromBuffer buffer = .error raised → ∃ error, raised = .valueError error := by
  have found : ∀ f rest bytes, f.toBytes = .ok bytes → buffer = bytes ++ rest →
      readFromBuffer buffer = .ok (some f, rest) := by
    rintro f rest bytes written rfl
    obtain ⟨fits, rfl⟩ := toBytes_eq_ok_iff.mp written
    exact readFromBuffer_reader.whole f rest fits
  refine ⟨fun f rest => readFromBuffer_some_iff, ?_, fun rest => readFromBuffer_none_iff, ?_, ?_⟩
  · intro f f' rest rest' bytes bytes' written written' here there
    have same := (found f rest bytes written here).symm.trans (found f' rest' bytes' written' there)
    cases same
    exact ⟨rfl, rfl⟩
  · rw [readFromBuffer_raises_iff, Incomplete, not_or, not_and_or, not_exists, and_assoc]
    simp only [Nat.not_lt, Nat.not_le]
  · intro raised failed
    exact (readFromBuffer_raises failed).1

/-! ## The length field of what is decoded -/

/-- **A decoded frame has the bytes it came from exactly if the length field says how many they are.** -/
theorem toBytes_fromBytes_iff {data : List UInt8} {f : Frame} (done : fromBytes data = .ok f) :
    f.toBytes = .ok data ↔ 4 + natOf (data.take 4) = data.length := by
  obtain ⟨range, length, four, rfl⟩ := fromBytes_eq_ok_iff.mp done
  rw [toBytes_eq_ok_iff, encoding_eq, List.take_left' four, List.length_append, four, length_body]
  have writes := bytesOf_natOf length
  have small := natOf_lt length
  rw [four] at writes small
  constructor
  · rintro ⟨fits, same⟩
    rw [List.append_cancel_right same, natOf_bytesOf fits.length]
  · intro stated
    have equal : natOf length = f.frameLength := by omega
    rw [equal] at writes small
    exact ⟨fits_iff.mpr ⟨small, range⟩, by rw [writes]⟩

end Frame

structure Request where
  apiKey : ApiKey
  apiVersion : ℤ := 1
  correlationId : ℤ := 0
  data : Value

/-- With its `__post_init__`. -/
def Request.new (apiKey : ApiKey) (apiVersion correlationId : ℤ) : Value → Request
  | .none => { apiKey, apiVersion, correlationId, data := .dict [] }
  | data => { apiKey, apiVersion, correlationId, data }

section Decode

/- `loads` is `json.loads` of the text with these bytes. -/
variable (loads : List UInt8 → Except Raised Value) (repr : Value → String)

def decodeRequest (data : List UInt8) : Except Raised Request := do
  let frame ← Frame.fromBytes data
  let payload ← if frame.payload = [] then .ok (.dict []) else loads frame.payload
  return .new frame.apiKey frame.apiVersion frame.correlationId payload

variable {loads repr} {data : List UInt8}

/-- What decodes is a frame. -/
theorem fromBytes_of_decodeRequest {request : Request} (done : decodeRequest loads data = .ok request) :
    ∃ f, Frame.fromBytes data = .ok f := by
  cases read : Frame.fromBytes data with
  | error raised =>
      rw [decodeRequest, read] at done
      cases done
  | ok f => exact ⟨f, rfl⟩

theorem fromBytes_of_decodeResponse {response : Response}
    (done : decodeResponse loads repr data = .ok response) : ∃ f, Frame.fromBytes data = .ok f := by
  cases read : Frame.fromBytes data with
  | error raised =>
      rw [decodeResponse, read] at done
      cases done
  | ok f => exact ⟨f, rfl⟩

/-- The bytes that are accepted as a frame are the bytes of that frame. -/
def LengthChecked (data : List UInt8) : Prop :=
  ∀ f, Frame.fromBytes data = .ok f → f.toBytes = .ok data

theorem lengthChecked_of_frame {f : Frame} (read : Frame.fromBytes data = .ok f) :
    LengthChecked data ↔ 4 + natOf (data.take 4) = data.length := by
  rw [← Frame.toBytes_fromBytes_iff read]
  constructor
  · intro checked
    exact checked f read
  · intro same f' read'
    cases read.symm.trans read'
    exact same

/-- **When the length field is checked.**  What `from_bytes` accepts is what it would be written as,
exactly if it accepts nothing (the bytes have no room for a header, or the key is unknown) or the length
field says how many bytes follow; and so with a request or a response that is decoded. -/
theorem lengthChecked_iff (loads : List UInt8 → Except Raised Value) (repr : Value → String)
    (data : List UInt8) :
    (LengthChecked data ↔ data.length < headerSize ∨
      (∀ key : ApiKey, key.value ≠ natOf ((data.drop 4).take 2)) ∨
      4 + natOf (data.take 4) = data.length) ∧
    (∀ request, decodeRequest loads data = .ok request →
      (LengthChecked data ↔ 4 + natOf (data.take 4) = data.length)) ∧
    ∀ response, decodeResponse loads repr data = .ok response →
      (LengthChecked data ↔ 4 + natOf (data.take 4) = data.length) := by
  refine ⟨?_, fun request done => ?_, fun response done => ?_⟩
  · by_cases accepted : ∃ f, Frame.fromBytes data = .ok f
    · obtain ⟨long, key, same⟩ := Frame.fromBytes_accepts_iff.mp accepted
      obtain ⟨f, read⟩ := accepted
      rw [lengthChecked_of_frame read]
      constructor
      · exact fun stated => .inr (.inr stated)
      · rintro (short | unknown | stated)
        · omega
        · exact absurd same (unknown key)
        · exact stated
    · refine iff_of_true (fun f read => absurd ⟨f, read⟩ accepted) ?_
      rw [Frame.fromBytes_accepts_iff] at accepted
      by_cases long : headerSize ≤ data.length
      · exact .inr (.inl fun key same => accepted ⟨long, key, same⟩)
      · exact .inl (by omega)
  · obtain ⟨f, read⟩ := fromBytes_of_decodeRequest done
    exact lengthChecked_of_frame read
  · obtain ⟨f, read⟩ := fromBytes_of_decodeResponse done
    exact lengthChecked_of_frame read

end Decode

/-- A heartbeat frame without payload, and a byte behind it. -/
def trailingBytes : List UInt8 := [0, 0, 0, 8, 0, 8, 0, 1, 0, 0, 0, 5, 7]

theorem trailingBytes_not_lengthChecked : ¬ LengthChecked trailingBytes := by
  intro checked
  have read : Frame.fromBytes trailingBytes =
      .ok { apiKey := .heartbeat, apiVersion := 1, correlationId := 5, payload := [7] } := by
    decide +kernel
  have same := checked _ read
  revert same
  decide +kernel

end BrokerLite
