/-
# Wire.Client -- requests over one connection, and whose answers they return

Several threads use one client.  A request takes its id, then waits for the lock;
with the lock held it is sent and its response is read.  The server answers the
requests in the order they came in, and its bytes arrive in any portions.  A
receive may time out: the lock is released, what was received is lost, and what
was not stays in the stream.

`_send_request` does not look at the id of the response it decodes.
`run_ownAnswers` says in which runs a request returns the data of its own response.
-/
import BrokerLite.Theory.Run
import BrokerLite.Codec.Value
import BrokerLite.Wire.Stream

namespace BrokerLite

open Theory

set_option autoImplicit false

/-! ## Decoding a response -/

def ErrorCode.members : List ErrorCode :=
  [none, unknown, unknownTopic, invalidMessage, unknownPartition, offsetOutOfRange, groupNotFound,
    queueFull, queueNotFound, messageTooLarge, topicAlreadyExists, invalidRequest, brokerNotAvailable]

/-- `ErrorCode(value)`: the member that equals it. -/
def ErrorCode.ofValue (repr : Value → String) (value : Value) : Except Raised ErrorCode :=
  match members.find? fun code => (Value.int code.value).sameKey value with
  | some code => .ok code
  | .none => .error (.valueError (.notAnErrorCode (repr value)))

structure Response where
  correlationId : ℤ
  errorCode : ErrorCode := .none
  data : Value

/-- With its `__post_init__`. -/
def Response.new (correlationId : ℤ) (errorCode : ErrorCode) : Value → Response
  | .none => { correlationId, errorCode, data := .dict [] }
  | data => { correlationId, errorCode, data }

section Decode

/- `loads` is `json.loads` of the text with these bytes. -/
variable (loads : List UInt8 → Except Raised Value) (repr : Value → String)

/-- `value.get(key, default)`, which only a dict has. -/
def Value.getOr (value : Value) (key : String) (default : Value) : Except Raised Value :=
  match value with
  | .dict entries => .ok ((getItem entries (.str key)).getD default)
  | value => .error (.attributeError s!"'{value.typeName}' object has no attribute 'get'")

def decodeResponse (data : List UInt8) : Except Raised Response := do
  let frame ← Frame.fromBytes data
  let payload ← if frame.payload = [] then .ok (.dict []) else loads frame.payload
  let errorCode ← ErrorCode.ofValue repr (← payload.getOr "error_code" (.int 0))
  let data ← payload.getOr "data" (.dict [])
  return .new frame.correlationId errorCode data

/-- What `_send_request` raises besides a timeout. -/
inductive RequestError where
  | raised (raised : Raised)
  | brokerError (errorCode : ErrorCode) (message : Value)

namespace BrokerClient

/-- The end of `_send_request`, with the bytes of the response. -/
def answerOf (responseData : List UInt8) : Except RequestError Value :=
  match decodeResponse loads repr responseData with
  | .error raised => .error (.raised raised)
  | .ok response =>
      if response.errorCode = .none then .ok response.data
      else
        match response.data.getOr "error" (.str s!"Error code: {response.errorCode.value}") with
        | .error raised => .error (.raised raised)
        | .ok message => .error (.brokerError response.errorCode message)

end BrokerClient

end Decode

/-! ## Reading a response in portions -/

namespace BrokerClient

/-- What `_recv_exactly` still asks the socket for when this much of a response
has been received: the rest of the length field, or of what follows it. -/
def wanted (received : List UInt8) : ℕ :=
  if received.length < 4 then 4 - received.length
  else 4 + natOf (received.take 4) - received.length

/-- Never more than that was received. -/
def Within (received : List UInt8) : Prop :=
  received.length ≤ 4 ∨ received.length ≤ 4 + natOf (received.take 4)

theorem Within.append {received : List UInt8} (within : Within received) {more : List UInt8}
    (asked : more.length ≤ wanted received) : Within (received ++ more) := by
  unfold wanted at asked
  split at asked
  · next short =>
      left
      rw [List.length_append]
      omega
  · next long =>
      right
      rw [List.length_append, List.take_append_of_le_length (by omega)]
      unfold Within at within
      omega

/-- When less than `n` bytes are there, `_recv_exactly` goes on receiving. -/
theorem recvLoop_short {n : ℕ} {data bytes : List UInt8} {incoming : Incoming}
    (carries : Carries incoming bytes) (short : data.length + bytes.length < n) :
    recvLoop n data incoming = .error (.connectionError "Connection closed by broker") := by
  induction missing : bytes.length using Nat.strong_induction_on generalizing data bytes incoming with
  | _ k ih =>
      rw [recvLoop, dif_pos (by omega)]
      dsimp only
      by_cases nothing : bytes = []
      · subst nothing
        rw [carries.eq_nil]
        exact dif_pos rfl
      · obtain ⟨first, later, rfl, some_, -, received, carries'⟩ :=
          carries.recv (by omega : 0 < n - data.length) nothing
        have positive := List.length_pos_iff.mpr some_
        rw [List.length_append] at missing short
        rw [received, dif_neg some_]
        exact ih later.length (by omega) carries' (by rw [List.length_append]; omega) rfl

/-- `_read_response` on the portions received so far: it has read them all when
nothing more is wanted, and otherwise goes on receiving. -/
theorem readResponse_of_within {received : List UInt8} (within : Within received) {incoming : Incoming}
    (carries : Carries incoming received) :
    readResponse incoming = if wanted received = 0 then .ok (received, [])
      else .error (.connectionError "Connection closed by broker") := by
  unfold readResponse wanted
  by_cases short : received.length < 4
  · rw [if_pos short, if_neg (by omega), recvExactly,
      recvLoop_short carries (by rw [List.length_nil, Nat.zero_add]; exact short)]
  · have split : received = received.take 4 ++ received.drop 4 := (List.take_append_drop 4 _).symm
    have field : (received.take 4).length = 4 := List.length_take_of_le (by omega)
    have rest := carries
    rw [split] at rest
    obtain ⟨left, header, carries'⟩ := recvExactly_spec rest field
    rw [if_neg short, header]
    dsimp only
    by_cases all : received.length = 4 + natOf (received.take 4)
    · have body : (received.drop 4).length = natOf (received.take 4) := by
        rw [List.length_drop]
        omega
      rw [← List.append_nil (received.drop 4)] at carries'
      obtain ⟨left', done, last⟩ := recvExactly_spec carries' body
      rw [done, if_pos (by omega), last.eq_nil]
      dsimp only
      rw [← split]
    · have missing : received.length < 4 + natOf (received.take 4) := by
        unfold Within at within
        omega
      have short : ([] : List UInt8).length + (received.drop 4).length < natOf (received.take 4) := by
        rw [List.length_nil, List.length_drop]
        omega
      rw [recvExactly, recvLoop_short carries' short, if_neg (by omega)]

end BrokerClient

end BrokerLite
