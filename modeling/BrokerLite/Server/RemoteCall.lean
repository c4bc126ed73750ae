/-
# Server.RemoteCall -- calling the broker over a connection

`Remote` is a client and the handler of its connection: a call is encoded, cut
into pieces on its way, buffered, dispatched and answered, and the answer is cut
again, read and decoded.  `Direct` is the plain path: the handler of the call's
request is run on the broker, and its reply is the result.

`remote_calls_are_direct`: as long as every request is accepted and the texts fit
into frames, a run of calls returns the same results on both paths and leaves the
same broker.
-/
import BrokerLite.Server.ClientCalls
import BrokerLite.Server.Responses
import BrokerLite.Wire.CorrelationIds

namespace BrokerLite

open Theory

set_option autoImplicit false

/-! ## The data of a response -/

section Data

/- The 64-bit pattern of a clock reading, and the dict of `Broker.snapshot`. -/
variable (float : Timestamp → BitVec 64) (snapshotDict : BrokerSnapshot → List (Value × Value))

def FieldValue.toValue : FieldValue → Value
  | .none => .none
  | .str s => .str s
  | .int i => .int i
  | .float q => .float (float q)
  | .bytes b => .bytes b
  | .dict entries => BrokerClient.headersDict entries
  | .other typeName => .other typeName

def Message.dict (m : Message) : Value :=
  .dict (m.toDict.entries.map fun e => (.str e.1, e.2.toValue float))

def strings (items : List String) : Value := .list (items.map .str)

def QueueAnswer.data : QueueAnswer → List (Value × Value)
  | .error text => [(.str "error", .str text)]
  | .enqueued => [(.str "enqueued", .bool true)]
  | .message m => [(.str "message", m.elim .none (Message.dict float))]
  | .acknowledged acked => [(.str "acknowledged", .bool acked)]

def Answer.data : Answer → List (Value × Value)
  | .error text => [(.str "error", .str text)]
  | .produced record =>
      [(.str "topic", .str record.topic), (.str "partition", .int record.partition),
        (.str "offset", .int record.offset), (.str "message_id", .str record.messageId)]
  | .messages read =>
      [(.str "messages", .list (read.map (Message.dict float))), (.str "count", .int read.length)]
  | .metadata topics queues =>
      [(.str "topics", .dict (topics.map fun e =>
          (.str e.1, .dict [(.str "partitions", .int e.2.1), (.str "messages", .int e.2.2)]))),
        (.str "queues", strings queues)]
  | .topicCreated name | .queueCreated name => [(.str "name", .str name), (.str "created", .bool true)]
  | .topicDeleted name deleted => [(.str "name", name), (.str "deleted", .bool deleted)]
  | .groups ids => [(.str "groups", strings ids)]
  | .joined groupId consumerId assignedPartitions =>
      [(.str "group_id", .str groupId), (.str "consumer_id", .str consumerId),
        (.str "assigned_partitions", strings assignedPartitions)]
  | .left => [(.str "left", .bool true)]
  | .offsets positions =>
      [(.str "offsets", .dict (positions.entries.map fun e => (.str e.1, .int e.2)))]
  | .alive => [(.str "status", .str "alive")]
  | .queue answer => answer.data float
  | .snapshot taken => snapshotDict taken

/-- What `Response.to_frame` writes. -/
def responseData (reply : Reply) : Value :=
  .dict [(.str "error_code", .int reply.1.value), (.str "data", .dict (reply.2.data float snapshotDict))]

end Data

/-! ## JSON -/

/-- `json.dumps(…).encode("utf-8")` and `json.loads(….decode("utf-8"))`. -/
structure JsonText where
  dumps : Value → Except Raised (List UInt8)
  loads : List UInt8 → Except Raised Value

/-- The value has a text, which is not empty, is read back as that value, and is
short enough for a frame. -/
def JsonText.Carries (json : JsonText) (value : Value) : Prop :=
  ∃ text, json.dumps value = .ok text ∧ json.loads text = .ok value ∧ text ≠ [] ∧
    text.length + 8 < 256 ^ 4

/-- What the two ends of a connection have in common. -/
structure Speech where
  json : JsonText
  float : Timestamp → BitVec 64
  snapshotDict : BrokerSnapshot → List (Value × Value)
  repr : Value → String

/-- The server reads and writes JSON as the client does. -/
structure Server.Speaks {σ : Type} (server : Server σ) (speech : Speech) : Prop where
  loads : server.loads = speech.json.loads
  dumps : ∀ reply text, speech.json.dumps (responseData speech.float speech.snapshotDict reply) = .ok text →
    server.dumps reply.1 reply.2 = text

/-! ## Bytes on their way -/

/-- A way of cutting bytes into the pieces that arrive. -/
structure Cut where
  pieces : List UInt8 → List (List UInt8)
  whole : ∀ bytes, (pieces bytes).flatten = bytes
  nonempty : ∀ bytes, ∀ piece ∈ pieces bytes, piece ≠ []

/-- Every byte on its own. -/
def Cut.bytewise : Cut where
  pieces bytes := bytes.map fun b => [b]
  whole bytes := by induction bytes <;> simp_all
  nonempty bytes piece member := by
    obtain ⟨b, -, rfl⟩ := List.mem_map.mp member
    exact List.cons_ne_nil _ _

structure Network where
  toServer : Cut
  toClient : Cut

/-! ## The two paths -/

open BrokerClient

section Paths

variable {σ : Type} (server : Server σ) (speech : Speech)

/-- A client, and the handler of its connection. -/
structure Remote (σ : Type) where
  correlationId : ℕ := 0
  handler : ClientHandler (Session σ)
  /-- The loop of the handler has ended. -/
  stopped : Bool := false
  /-- What has arrived at the client and was not read. -/
  unread : List UInt8 := []
  results : List (Except RequestError Value) := []

namespace Remote

/-- The bytes of a request arrive: the handler, whether its loop has ended, and the
bytes it sends. -/
def serve (r : Remote σ) (chunks : List (List UInt8)) : ClientHandler (Session σ) × Bool × List UInt8 :=
  if r.stopped then (r.handler, true, [])
  else
    let fed := ClientHandler.feed (Session.dispatch server) r.handler chunks
    let sent := fed.2.state.sent.drop r.handler.state.sent.length
    (fed.2, fed.1.isSome, sent.flatMap Frame.encoding)

/-- A request method of the client, with `_send_request`. -/
def call (r : Remote σ) (c : Call) (network : Network) : Remote σ :=
  let correlationId := r.correlationId + 1
  match encodeRequest speech.json.dumps c.apiKey correlationId (.dict c.payload) with
  | .error raised => { r with correlationId, results := r.results ++ [.error (.raised raised)] }
  | .ok bytes =>
      let (handler, stopped, sent) := r.serve server (network.toServer.pieces bytes)
      match readResponse (network.toClient.pieces (r.unread ++ sent)) with
      | .error raised =>
          { r with
            correlationId, handler, stopped
            unread := []
            results := r.results ++ [.error (.raised raised)] }
      | .ok (data, left) =>
          let result := match answerOf speech.json.loads speech.repr data with
            | .error e => .error e
            | .ok data => (c.returned data).mapError .raised
          { r with correlationId, handler, stopped, unread := left.flatten, results := r.results ++ [result] }

def step (r : Remote σ) (input : Call × Network) : Remote σ := r.call server speech input.1 input.2

end Remote

/-- A client that calls the handlers. -/
structure Direct (σ : Type) where
  session : Session σ
  results : List (Except RequestError Value) := []

namespace Direct

/-- What a reply means to the caller. -/
def result (c : Call) (reply : Reply) : Except RequestError Value :=
  let data := Value.dict (reply.2.data speech.float speech.snapshotDict)
  if reply.1 = .none then (c.returned data).mapError .raised
  else
    match data.getOr "error" (.str s!"Error code: {reply.1.value}") with
    | .error raised => .error (.raised raised)
    | .ok message => .error (.brokerError reply.1 message)

def handled (d : Direct σ) (c : Call) : Handled σ :=
  let at_ := server.circumstances d.session.served
  (d.session.meet at_).handle server at_ c.request

def step (d : Direct σ) (input : Call × Network) : Direct σ :=
  let done := d.handled server input.1
  { session := done.session, results := d.results ++ done.replies.map (result speech input.1) }

/-- The request is accepted, its value can be encoded, and the texts of the request and
the response fit. -/
structure Served (d : Direct σ) (input : Call × Network) : Prop where
  encodable : input.1.Encodable server.encoding.encode
  accepted : (d.session.meet (server.circumstances d.session.served)).Accepts server
    (server.circumstances d.session.served) input.1.request
  request : speech.json.Carries (.dict input.1.payload)
  response : ∀ reply ∈ (d.handled server input.1).replies,
    speech.json.Carries (responseData speech.float speech.snapshotDict reply)

end Direct

end Paths

/-! ## Handlers do not look at what was sent -/

namespace Session

variable {σ : Type} {server : Server σ} {at_ : Circumstances}

/-- The session with other responses sent. -/
def withSent (s : Session σ) (sent : List Frame) : Session σ := { s with sent }

/-- The same with what a handler did. -/
def sentBefore (h : Handled σ) (sent : List Frame) : Handled σ :=
  { h with session := h.session.withSent sent }

variable (s : Session σ) (sent : List Frame)

@[simp] theorem withSent_broker : (s.withSent sent).broker = s.broker := rfl
@[simp] theorem withSent_queues : (s.withSent sent).queues = s.queues := rfl
@[simp] theorem withSent_consumer : (s.withSent sent).consumer = s.consumer := rfl
@[simp] theorem withSent_served : (s.withSent sent).served = s.served := rfl

theorem caught_withSent (errorCode : ErrorCode) (raised : Raised) :
    (s.withSent sent).caught server errorCode raised = sentBefore (s.caught server errorCode raised) sent := by
  unfold caught
  split
  · rfl
  · split <;> rfl

theorem handle_withSent (request : ServerRequest) :
    (s.withSent sent).handle server at_ request = sentBefore (s.handle server at_ request) sent := by
  cases request with
  | produce topic value key headers =>
      simp only [handle, handleProduce]
      rw [show (s.withSent sent).withProduced at_ topic value key headers =
        s.withProduced at_ topic value key headers from rfl,
        show (s.withSent sent).middleware = s.middleware from rfl]
      rcases (s.withProduced at_ topic value key headers).publishThrough server.encoding at_.now
        server.pipeline s.middleware at_.message with ⟨raised | metadata, middleware, broker⟩
      · exact caught_withSent { s with broker, middleware } sent .unknownTopic raised
      · rfl
  | createTopics name partitions =>
      simp only [handle, handleCreateTopics, withSent_broker]
      split
      · next raised broker _ => exact caught_withSent { s with broker } sent .topicAlreadyExists raised
      · split <;> rfl
  | joinGroup groupId topic consumerId =>
      simp only [handle, handleJoinGroup, withSent_broker]
      split
      · rfl
      · next raised broker _ => exact caught_withSent { s with broker } sent .groupNotFound raised
  | createQueue name maxSize priority =>
      simp only [handle, handleCreateQueue, withSent_queues]
      split
      · next raised queues _ => exact caught_withSent { s with queues } sent .invalidRequest raised
      · split <;> rfl
  | fetch topic partition offset maxMessages =>
      simp only [handle, handleFetch, withSent_broker]
      split
      · rfl
      · split
        · rfl
        · exact caught_withSent s sent .unknownPartition _
  | metrics =>
      simp only [handle, handleMetrics, withSent_broker, withSent_queues]
      split <;> rfl
  | enqueue queue value key priority =>
      simp only [handle, handleEnqueue, withSent_queues]
      split
      · split
        · split <;> rfl
        · rfl
      · rfl
  | leaveGroup groupId =>
      simp only [handle, handleLeaveGroup, withSent_broker, withSent_consumer]
      split <;> rfl
  | offsetCommit =>
      simp only [handle, handleOffsetCommit, withSent_consumer]
      split <;> rfl
  | offsetFetch =>
      simp only [handle, handleOffsetFetch, withSent_consumer]
      split <;> rfl
  | ack queue messageId =>
      simp only [handle, handleAck, withSent_queues]
      split
      · split
        · rfl
        · next _ name _ _ =>
            by_cases asked : (s.queues.getQueue name).any PointToPointQueue.isTrue = true
            · simp only [asked, if_true]
              split <;> rfl
            · simp only [asked]
              rfl
      · rfl
  | deleteTopics name => cases name <;> rfl
  | dequeue queue => cases queue <;> rfl
  | _ => rfl

theorem accepts_withSent (request : ServerRequest) :
    (s.withSent sent).Accepts server at_ request ↔ s.Accepts server at_ request := by
  cases request <;> exact Iff.rfl

end Session

/-! ## One call -/

/-- A code is read back from its number. -/
theorem ErrorCode.ofValue_value (repr : Value → String) (code : ErrorCode) :
    ErrorCode.ofValue repr (.int code.value) = .ok code := by
  have found : (members.find? fun other => (Value.int other.value).sameKey (.int code.value)) =
      some code := by
    cases code <;> decide +kernel
  rw [ofValue, found]

section OneCall

variable {σ : Type} {server : Server σ} {speech : Speech}

/-- **A request frame with the text of a call is handled as the call's request**, and
answered with the text of its reply. -/
theorem Session.dispatch_call (speaks : server.Speaks speech) {s : Session σ} {c : Call}
    {text : List UInt8} (loaded : speech.json.loads text = .ok (.dict c.payload)) (some_ : text ≠ [])
    (correlationId : ℤ) {reply : Reply} {answer : List UInt8}
    (encodable : c.Encodable server.encoding.encode)
    (accepted : (s.meet (server.circumstances s.served)).Accepts server (server.circumstances s.served)
      c.request)
    (replied : ((s.meet (server.circumstances s.served)).handle server (server.circumstances s.served)
      c.request).replies = [reply])
    (written : speech.json.dumps (responseData speech.float speech.snapshotDict reply) = .ok answer)
    (short : answer.length + 8 < 256 ^ 4) {f : Frame} (fits : f.Fits)
    (frame : f = { apiKey := c.apiKey, apiVersion := 1, correlationId, payload := text }) :
    dispatch server s f = (((s.meet (server.circumstances s.served)).handle server
      (server.circumstances s.served) c.request).session.withSent
        (s.sent ++ [{ f with payload := answer }]), none) := by
  obtain ⟨escaped, -, sent⟩ := (handle_answered_iff c.request).mpr accepted
  have responded : respond server (server.circumstances s.served)
      (s.meet (server.circumstances s.served)) f =
        (s.meet (server.circumstances s.served)).handle server (server.circumstances s.served) c.request := by
    subst frame
    simp only [respond, if_neg some_, speaks.loads, loaded, requestOf_payload encodable]
  have response : responseFrame server f reply = { f with payload := answer } := by
    rw [responseFrame, speaks.dumps reply answer written]
    subst frame
    rfl
  have fits' : (responseFrame server f reply).Fits :=
    responseFrame_fits fits (by rw [speaks.dumps reply answer written]; exact short)
  have encoded := Frame.toBytes_eq_ok_iff.mpr ⟨fits', rfl⟩
  rw [response] at encoded
  unfold dispatch
  simp only [responded, replied, send, response, encoded, escaped, sent]
  rfl

/-- **The client reads the reply** off its response. -/
theorem BrokerClient.answerOf_response {f : Frame} {reply : Reply} {c : Call} (fits : f.Fits)
    (some_ : f.payload ≠ [])
    (loaded : speech.json.loads f.payload = .ok (responseData speech.float speech.snapshotDict reply)) :
    (match answerOf speech.json.loads speech.repr f.encoding with
      | .error e => .error e
      | .ok data => (c.returned data).mapError .raised) = Direct.result speech c reply := by
  have decoded : decodeResponse speech.json.loads speech.repr f.encoding =
      .ok { correlationId := f.correlationId, errorCode := reply.1
            data := .dict (reply.2.data speech.float speech.snapshotDict) } := by
    have code : (responseData speech.float speech.snapshotDict reply).getOr "error_code" (.int 0) =
        .ok (.int reply.1.value) := rfl
    have data : (responseData speech.float speech.snapshotDict reply).getOr "data" (.dict []) =
        .ok (.dict (reply.2.data speech.float speech.snapshotDict)) := rfl
    simp [decodeResponse, Frame.fromBytes_encoding fits, some_, loaded, code, data,
      ErrorCode.ofValue_value, Response.new, bind, Except.bind, pure, Except.pure]
  unfold answerOf Direct.result
  rw [decoded]
  dsimp only
  by_cases fine : reply.1 = .none
  · simp [fine]
  · simp only [if_neg fine]
    cases Value.getOr _ "error" _ <;> rfl

/-! ## Runs of calls -/

/-- Nothing is on its way, and both paths have come to the same broker with the same
results. -/
structure Remote.Follows (r : Remote σ) (d : Direct σ) : Prop where
  session : ∃ sent, r.handler.state = d.session.withSent sent
  running : r.stopped = false
  buffer : r.handler.buffer = []
  unread : r.unread = []
  results : r.results = d.results

/-- The bytes of one request make the handler dispatch it; what it sends is its response. -/
theorem Remote.serve_frame {r : Remote σ} (running : r.stopped = false) (buffer : r.handler.buffer = [])
    {f response : Frame} {after : Session σ} (fits : f.Fits)
    (dispatched : Session.dispatch server r.handler.state f = (after, none))
    (sent : after.sent = r.handler.state.sent ++ [response]) (cut : Cut) :
    ∃ handler, r.serve server (cut.pieces f.encoding) = (handler, false, response.encoding) ∧
      handler.state = after ∧ handler.buffer = [] := by
  have all : [f].flatMap Frame.encoding = f.encoding := by simp
  have arrived : r.handler.buffer ++ (cut.pieces f.encoding).flatten = [f].flatMap Frame.encoding := by
    rw [buffer, cut.whole, all, List.nil_append]
  have frames : ∀ g ∈ [f], g.Fits := fun g member => List.mem_singleton.mp member ▸ fits
  have pending : complete Frame.encoding r.handler.buffer.length [f] = [] := by
    rw [buffer]
    exact Frame.complete_zero [f]
  obtain ⟨⟨outcome, state, -⟩, left⟩ := ClientHandler.feed_spec (Session.dispatch server) r.handler frames
    pending (by rw [arrived])
  rw [arrived, complete_all] at outcome state left
  simp only [ClientHandler.dispatchAll, dispatched] at outcome state
  refine ⟨_, ?_, state, ?_⟩
  · unfold serve
    rw [running]
    simp only [Bool.false_eq_true, if_false, outcome, state, sent, List.drop_left]
    simp
  · have kept := left outcome
    simpa using kept

theorem Remote.Follows.step (speaks : server.Speaks speech) {r : Remote σ} {d : Direct σ}
    (follows : r.Follows d) (few : r.correlationId + 1 < 2 ^ 31) (input : Call × Network)
    (served : d.Served server speech input) :
    (r.step server speech input).Follows (d.step server speech input) ∧
      (r.step server speech input).correlationId = r.correlationId + 1 := by
  obtain ⟨c, network⟩ := input
  obtain ⟨⟨sent, session⟩, running, buffer, unread, results⟩ := follows
  obtain ⟨encodable, accepted, ⟨text, dumped, loaded, some_, short⟩, response⟩ := served
  obtain ⟨-, ⟨reply, replied⟩, -⟩ := (Session.handle_answered_iff c.request).mpr accepted
  obtain ⟨answer, written, read, answer_some, answer_short⟩ := response reply (by
    show reply ∈ (d.handled server c).replies
    rw [Direct.handled, replied]
    exact List.mem_singleton_self _)
  -- the request goes out
  let f : Frame := { apiKey := c.apiKey, apiVersion := 1, correlationId := ↑(r.correlationId + 1), payload := text }
  have fits : f.Fits := by
    refine ⟨?_, ?_, ?_⟩
    · show 12 - 4 + text.length < _
      omega
    · show (0 : ℤ) ≤ 1 ∧ (1 : ℤ) < 256 ^ 2
      omega
    · show -(256 ^ 4 / 2) ≤ ((r.correlationId + 1 : ℕ) : ℤ) ∧ ((r.correlationId + 1 : ℕ) : ℤ) < 256 ^ 4 / 2
      omega
  have encoded : encodeRequest speech.json.dumps c.apiKey ↑(r.correlationId + 1) (.dict c.payload) =
      .ok f.encoding := by
    rw [encodeRequest_of_text dumped]
    exact Frame.toBytes_eq_ok_iff.mpr ⟨fits, rfl⟩
  -- the handler answers it
  have accepted' : (r.handler.state.meet (server.circumstances r.handler.state.served)).Accepts server
      (server.circumstances r.handler.state.served) c.request := by
    rw [session]
    exact (Session.accepts_withSent _ sent _).mpr accepted
  have handled : (r.handler.state.meet (server.circumstances r.handler.state.served)).handle server
      (server.circumstances r.handler.state.served) c.request =
        Session.sentBefore (d.handled server c) sent := by
    rw [session]
    exact Session.handle_withSent (d.session.meet (server.circumstances d.session.served)) sent c.request
  have dispatched := Session.dispatch_call speaks loaded some_ ↑(r.correlationId + 1) encodable accepted'
    (by rw [handled]; exact replied) written answer_short fits rfl
  obtain ⟨handler, served, state, empty⟩ := r.serve_frame running buffer fits dispatched rfl network.toServer
  -- and the answer is read
  have fits' : Frame.Fits { f with payload := answer } := by
    refine ⟨?_, fits.version, fits.correlation⟩
    show 12 - 4 + answer.length < _
    omega
  have carries : Carries (network.toClient.pieces (Frame.encoding { f with payload := answer }))
      (Frame.encoding { f with payload := answer } ++ []) := by
    refine ⟨?_, network.toClient.nonempty _⟩
    rw [network.toClient.whole, List.append_nil]
  obtain ⟨left, received, nothing⟩ := readResponse_spec fits' carries
  have result := answerOf_response (c := c) fits' answer_some read
  have stepped : r.step server speech (c, network) =
      { correlationId := r.correlationId + 1, handler, results := r.results ++ [Direct.result speech c reply] } := by
    simp only [Remote.step, Remote.call, encoded, served, unread, List.nil_append, received, result,
      nothing.eq_nil]
    rfl
  have direct : d.step server speech (c, network) =
      { session := (d.handled server c).session, results := d.results ++ [Direct.result speech c reply] } := by
    have one : (d.handled server c).replies = [reply] := replied
    simp only [Direct.step, one]
    rfl
  rw [stepped, direct]
  have session' : handler.state = (d.handled server c).session.withSent
      (r.handler.state.sent ++ [{ f with payload := answer }]) := by
    rw [state, handled]
    rfl
  exact ⟨⟨⟨_, session'⟩, rfl, empty, rfl, by rw [results]⟩, rfl⟩

/-- **A call over the connection is a call of the handler.**  As long as each request
is accepted in the state it meets, and the texts of requests and responses are read
back and fit into frames, a client of any number of calls, cut up in any way on both
directions, is given the results that the handlers of its requests give, leaves the
broker as they leave it, and uses the ids from one on. -/
theorem remote_calls_are_direct (speaks : server.Speaks speech) (start : Session σ)
    {calls : List (Call × Network)} (few : calls.length < 2 ^ 31)
    (served : Guarded (fun d c => d.step server speech c) (Direct.Served server speech) { session := start }
      calls) :
    let remote := run (fun r c => r.step server speech c) ({ handler := { state := start } } : Remote σ) calls
    let direct := run (fun d c => d.step server speech c) ({ session := start } : Direct σ) calls
    remote.results = direct.results ∧ (∃ sent, remote.handler.state = direct.session.withSent sent) ∧
      remote.correlationId = calls.length := by
  intro remote direct
  have both : ∀ (r : Remote σ) (d : Direct σ), r.Follows d → r.correlationId + calls.length < 2 ^ 31 →
      Guarded (fun d c => d.step server speech c) (Direct.Served server speech) d calls →
      (run (fun r c => r.step server speech c) r calls).Follows
          (run (fun d c => d.step server speech c) d calls) ∧
        (run (fun r c => r.step server speech c) r calls).correlationId = r.correlationId + calls.length := by
    clear remote direct few served
    induction calls with
    | nil => exact fun r d follows _ _ => ⟨follows, rfl⟩
    | cons input rest ih =>
        intro r d follows few ⟨here, later⟩
        rw [List.length_cons] at few
        obtain ⟨next, id⟩ := follows.step speaks (by omega) input here
        obtain ⟨last, ids⟩ := ih _ _ next (by omega) later
        refine ⟨last, ?_⟩
        rw [run_cons, ids, id, List.length_cons]
        omega
  have started : Remote.Follows ({ handler := { state := start } } : Remote σ) { session := start } :=
    ⟨⟨start.sent, rfl⟩, rfl, rfl, rfl, rfl⟩
  obtain ⟨follows, id⟩ := both _ _ started (by rw [Nat.zero_add]; exact few) served
  exact ⟨follows.results, follows.session, id.trans (Nat.zero_add _)⟩

end OneCall

/-! ## Three calls -/

mutual

/-- A text of a value, without escapes. -/
def jsonText : Value → String
  | .none => "null"
  | .bool b => if b then "true" else "false"
  | .int i => toString i
  | .float bits => toString bits.toNat
  | .str s => "\"" ++ s ++ "\""
  | .list items | .tuple items => "[" ++ jsonItems items ++ "]"
  | .dict entries => "\x7b" ++ jsonEntries entries ++ "\x7d"
  | .bytes _ | .other _ => ""

def jsonItems : List Value → String
  | [] => ""
  | v :: rest => jsonText v ++ ", " ++ jsonItems rest

def jsonEntries : List (Value × Value) → String
  | [] => ""
  | (k, v) :: rest => jsonText k ++ ": " ++ jsonText v ++ ", " ++ jsonEntries rest

end

/-- A topic, a message for it, and the topics. -/
def threeCalls : List (Call × Network) :=
  [.createTopic "t" 1, .produce "t" (.text "v") none none, .listTopics].map fun c =>
    (c, ⟨.bytewise, .bytewise⟩)

def threeAnswers : List Answer :=
  [.topicCreated "t", .produced ⟨"t", 0, 0, 1, "m"⟩, .metadata [("t", 1, 1)] []]

/-- The texts that are read. -/
def threeTexts : List Value :=
  threeCalls.map (fun c => .dict c.1.payload) ++
    threeAnswers.map fun answer => responseData (fun _ => 0) (fun _ => []) (.none, answer)

def threeSpeech : Speech where
  json := {
    dumps v := .ok (utf8 (jsonText v))
    loads text := match threeTexts.find? fun v => utf8 (jsonText v) = text with
      | some v => .ok v
      | none => .error .jsonDecodeError }
  float _ := 0
  snapshotDict _ := []
  repr _ := ""

def threeServer : Server Unit where
  loads := threeSpeech.json.loads
  dumps errorCode answer := utf8 (jsonText (responseData (fun _ => 0) (fun _ => []) (errorCode, answer)))
  repr _ := ""
  describe _ := ""
  encoding := .total fun _ => 0
  pipeline := []
  circumstances n := { now := n, requeueAt := n, message := n, messageId := "m", consumer := n, consumerUuid := "c" }

theorem threeTexts_carried {v : Value} (i : ℕ) (found : threeTexts[i]? = some v)
    (first : ∀ w ∈ threeTexts.take i, utf8 (jsonText w) ≠ utf8 (jsonText v))
    (some_ : utf8 (jsonText v) ≠ []) (short : (utf8 (jsonText v)).length + 8 < 256 ^ 4) :
    threeSpeech.json.Carries v := by
  refine ⟨utf8 (jsonText v), rfl, ?_, some_, short⟩
  have here : threeTexts.find? (fun w => utf8 (jsonText w) = utf8 (jsonText v)) = some v := by
    rw [List.find?_eq_some_iff_append]
    obtain ⟨inside, rfl⟩ := List.getElem?_eq_some_iff.mp found
    refine ⟨by simp, threeTexts.take i, threeTexts.drop (i + 1), ?_, fun w member => by simpa using first w member⟩
    rw [List.getElem_cons_drop, List.take_append_drop]
  simp only [threeSpeech]
  rw [here]

theorem threeCalls_direct :
    let remote := run (fun r c => r.step threeServer threeSpeech c)
      ({ handler := { state := smallStart } } : Remote Unit) threeCalls
    let direct := run (fun d c => d.step threeServer threeSpeech c) ({ session := smallStart } : Direct Unit) threeCalls
    remote.results = direct.results ∧ (∃ sent, remote.handler.state = direct.session.withSent sent) ∧
      remote.correlationId = threeCalls.length := by
  have served : Guarded (fun d c => d.step threeServer threeSpeech c) (Direct.Served threeServer threeSpeech)
      ({ session := smallStart } : Direct Unit) threeCalls := by
    refine ⟨⟨fun _ _ => rfl, ?_, ?_, ?_⟩, ⟨fun _ _ => rfl, ?_, ?_, ?_⟩, ⟨fun _ _ => rfl, ?_, ?_, ?_⟩, trivial⟩
    · decide +kernel
    · exact threeTexts_carried 0 rfl (by decide +kernel) (by decide +kernel) (by decide +kernel)
    · intro reply member
      have one : reply = (.none, .topicCreated "t") := List.mem_singleton.mp member
      subst one
      exact threeTexts_carried 3 rfl (by decide +kernel) (by decide +kernel) (by decide +kernel)
    · decide +kernel
    · exact threeTexts_carried 1 rfl (by decide +kernel) (by decide +kernel) (by decide +kernel)
    · intro reply member
      have one : reply = (.none, .produced ⟨"t", 0, 0, 1, "m"⟩) := List.mem_singleton.mp member
      subst one
      exact threeTexts_carried 4 rfl (by decide +kernel) (by decide +kernel) (by decide +kernel)
    · decide +kernel
    · exact threeTexts_carried 2 rfl (by decide +kernel) (by decide +kernel) (by decide +kernel)
    · intro reply member
      have one : reply = (.none, .metadata [("t", 1, 1)] []) := List.mem_singleton.mp member
      subst one
      exact threeTexts_carried 5 rfl (by decide +kernel) (by decide +kernel) (by decide +kernel)
  have speaks : threeServer.Speaks threeSpeech := by
    refine ⟨rfl, fun reply text written => ?_⟩
    cases written
    rfl
  exact remote_calls_are_direct speaks smallStart (by decide) served

end BrokerLite
