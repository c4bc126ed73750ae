/-
# Server.Exchange -- many clients of one broker

Every client has a connection, and every connection a handler.  A client sends a
request and waits; the bytes of requests and responses arrive in portions of any size,
and the handlers take turns in any way.  A frame that has arrived whole is dispatched in
one step of its handler.

`exchange_linearized`: whatever the order of the portions is, the clients could as well
have called the handlers one after the other, each call at a moment between its request
and its response.
-/
import BrokerLite.Server.RemoteCall
import BrokerLite.Theory.Atomic
import BrokerLite.Wire.ClientRun

namespace BrokerLite

open Theory
open Theory.Atomic (Event CallPhase Act Machine Linearized row)
open BrokerClient

set_option autoImplicit false

/-! ## The object that is called -/

/-- What the handlers work on: the broker and its middlewares, and for each connection
the consumer that it joined a group with. -/
structure World (ι σ : Type) where
  broker : Broker
  queues : Queues
  middleware : σ
  consumers : ι → Option ConsumerRef := fun _ => none
  served : ℕ := 0

namespace World

variable {ι σ : Type} [DecidableEq ι] (server : Server σ) (speech : Speech)

/-- What the handler of a connection works on. -/
def session (w : World ι σ) (i : ι) : Session σ where
  broker := w.broker
  queues := w.queues
  middleware := w.middleware
  consumer := w.consumers i
  served := w.served

def withSession (w : World ι σ) (i : ι) (s : Session σ) : World ι σ where
  broker := s.broker
  queues := s.queues
  middleware := s.middleware
  consumers := Function.update w.consumers i s.consumer
  served := s.served

@[simp] theorem withSession_session (w : World ι σ) (i : ι) : w.withSession i (w.session i) = w := by
  simp [withSession, session]

def handled (w : World ι σ) (i : ι) (c : Call) : Handled σ :=
  Direct.handled server { session := w.session i } c

/-- A call of the handler, without a connection. -/
def call (w : World ι σ) (i : ι) (c : Call) : Except RequestError Value × World ι σ :=
  let done := w.handled server i c
  let result := match done.replies with
    | [] => .error (.raised (.connectionError "Connection closed by broker"))
    | reply :: _ => Direct.result speech c reply
  (result, w.withSession i done.session)

/-- The request is accepted, its value can be encoded, and the text of the response fits. -/
structure Answers (w : World ι σ) (i : ι) (c : Call) : Prop where
  encodable : c.Encodable server.encoding.encode
  accepted : ((w.session i).meet (server.circumstances w.served)).Accepts server
    (server.circumstances w.served) c.request
  response : ∀ reply ∈ (w.handled server i c).replies,
    speech.json.Carries (responseData speech.float speech.snapshotDict reply)

end World

/-! ## The clients and their connections -/

/-- A client, its connection and the buffer of the handler. -/
structure Link where
  correlationId : ℕ := 0
  /-- The call whose response the client waits for, and what it has received of it. -/
  current : Option (Call × List UInt8) := none
  /-- The bytes on their way. -/
  toServer : List UInt8 := []
  toClient : List UInt8 := []
  buffer : List UInt8 := []
  /-- The handler has ended and closed the connection. -/
  stopped : Bool := false

structure Exchange (ι σ : Type) where
  world : World ι σ
  links : ι → Link := fun _ => {}
  /-- What the clients have called and were given. -/
  history : List (Event ι Call (Except RequestError Value)) := []

inductive ExchangeOp (ι : Type) where
  /-- A request method, up to the sending. -/
  | call (i : ι) (c : Call)
  /-- The handler's `recv` returns that many bytes. -/
  | serve (i : ι) (size : ℕ)
  /-- The client's `recv` does. -/
  | receive (i : ι) (size : ℕ)

namespace Exchange

section Model

variable {ι σ : Type} [DecidableEq ι] (server : Server σ) (speech : Speech)

/-- What a request method makes of the bytes of the response. -/
def resultOf (c : Call) (responseData : List UInt8) : Except RequestError Value :=
  match answerOf speech.json.loads speech.repr responseData with
  | .error e => .error e
  | .ok data => (c.returned data).mapError .raised

def setLink (e : Exchange ι σ) (i : ι) (link : Link) : Exchange ι σ :=
  { e with links := Function.update e.links i link }

/-- The call returns or raises. -/
def return_ (e : Exchange ι σ) (i : ι) (c : Call) (result : Except RequestError Value) : Exchange ι σ :=
  { e with history := e.history ++ [.returned i c result] }

def call (e : Exchange ι σ) (i : ι) (c : Call) : Exchange ι σ :=
  let link := e.links i
  -- the lock is held until the response is there
  if link.current.isSome then e
  else
    let correlationId := link.correlationId + 1
    let called : Exchange ι σ := { e with history := e.history ++ [.called i c] }
    match encodeRequest speech.json.dumps c.apiKey correlationId (.dict c.payload) with
    | .error raised =>
        (called.setLink i { link with correlationId }).return_ i c (.error (.raised raised))
    | .ok bytes =>
        called.setLink i
          { link with correlationId, current := some (c, []), toServer := link.toServer ++ bytes }

def serve (e : Exchange ι σ) (i : ι) (size : ℕ) : Exchange ι σ :=
  let link := e.links i
  if link.stopped = false ∧ 0 < size ∧ size ≤ link.toServer.length then
    let handler : ClientHandler (Session σ) := { buffer := link.buffer, state := e.world.session i }
    let done := handler.receive (Session.dispatch server) (link.toServer.take size)
    { e with world := e.world.withSession i done.2.state }.setLink i
      { link with
        toServer := link.toServer.drop size
        toClient := link.toClient ++ done.2.state.sent.flatMap Frame.encoding
        buffer := done.2.buffer
        stopped := done.1.isSome }
  else e

def receive (e : Exchange ι σ) (i : ι) (size : ℕ) : Exchange ι σ :=
  let link := e.links i
  match link.current with
  | none => e
  | some (c, received) =>
      if 0 < size ∧ size ≤ wanted received ∧ size ≤ link.toClient.length then
        let received := received ++ link.toClient.take size
        let toClient := link.toClient.drop size
        if wanted received = 0 then
          (e.setLink i { link with current := none, toClient }).return_ i c (resultOf speech c received)
        else e.setLink i { link with current := some (c, received), toClient }
      else if link.stopped ∧ link.toClient = [] then
        (e.setLink i { link with current := none }).return_ i c
          (.error (.raised (.connectionError "Connection closed by broker")))
      else e

def step (e : Exchange ι σ) : ExchangeOp ι → Exchange ι σ
  | .call i c => e.call speech i c
  | .serve i size => e.serve server i size
  | .receive i size => e.receive speech i size

/-- The text of a request fits; a request that has arrived whole is accepted, and the
text of its response fits. -/
def Fits (e : Exchange ι σ) : ExchangeOp ι → Prop
  | .call i c => speech.json.Carries (.dict c.payload) ∧ (e.links i).correlationId + 1 < 2 ^ 31
  | .serve i size => ∀ c received, (e.links i).current = some (c, received) →
      (e.links i).toServer.length ≤ size → e.world.Answers server speech i c
  | .receive .. => True

end Model

/-! ## What is on the way -/

section Follow

variable {ι σ : Type} [DecidableEq ι] {server : Server σ} {speech : Speech}

/-- A request frame with the text of the call. -/
structure Asks (speech : Speech) (c : Call) (f : Frame) : Prop where
  frame : f.apiKey = c.apiKey ∧ f.apiVersion = 1
  fits : f.Fits
  loaded : speech.json.loads f.payload = .ok (.dict c.payload)
  some_ : f.payload ≠ []

/-- Where the bytes of a link are: nowhere when its client is idle, between the client
and the handler until the call takes effect, and between the handler and the client
afterwards. -/
inductive At (speech : Speech) (link : Link) : CallPhase Call (Except RequestError Value) → Prop
  | idle (current : link.current = none) (toServer : link.toServer = []) (toClient : link.toClient = [])
      (buffer : link.buffer = []) : At speech link .idle
  | waiting {c : Call} {f : Frame} (asks : Asks speech c f) (current : link.current = some (c, []))
      (toClient : link.toClient = []) (missing : link.toServer ≠ [])
      (request : link.buffer ++ link.toServer = f.encoding) : At speech link (.waiting c)
  | done {c : Call} {f : Frame} {received : List UInt8} (fits : f.Fits)
      (current : link.current = some (c, received)) (toServer : link.toServer = [])
      (buffer : link.buffer = []) (missing : link.toClient ≠ [])
      (response : f.encoding = received ++ link.toClient) :
      At speech link (.done c (resultOf speech c f.encoding))

/-- The machine that the exchange is compared with. -/
abbrev Calls (ι σ : Type) := Machine (World ι σ) ι Call (Except RequestError Value)

/-- The machine has the same object, has been seen to do the same, and knows where the
bytes are. -/
structure Follows (speech : Speech) (e : Exchange ι σ) (a : Calls ι σ) : Prop where
  object : a.object = e.world
  seen : a.history.filter Event.seen = e.history
  links : ∀ i, At speech (e.links i) (a.phase i) ∧ (e.links i).stopped = false

variable {e : Exchange ι σ} {a : Calls ι σ}

/-- A step of one link, which the machine follows by one act of its process. -/
theorem Follows.enter (follows : Follows speech e a) {i : ι} {e' : Exchange ι σ} {a' : Calls ι σ} {link : Link}
    {phase : CallPhase Call (Except RequestError Value)} {event : Event ι Call (Except RequestError Value)}
    (links : e'.links = Function.update e.links i link)
    (phases : a'.phase = Function.update a.phase i phase) (at_ : At speech link phase)
    (running : link.stopped = false) (object : a'.object = e'.world)
    (grown : a'.history = a.history ++ [event])
    (seen : e'.history = e.history ++ [event].filter Event.seen) : Follows speech e' a' where
  object := object
  seen := by rw [grown, List.filter_append, follows.seen, seen]
  links j := by
    rw [links, phases]
    by_cases same : j = i
    · subst same
      rw [Function.update_self, Function.update_self]
      exact ⟨at_, running⟩
    · rw [Function.update_of_ne same, Function.update_of_ne same]
      exact follows.links j

/-- A step of one link that the machine does not notice. -/
theorem Follows.rest (follows : Follows speech e a) {i : ι} {link : Link}
    (at_ : At speech link (a.phase i)) (running : link.stopped = false) :
    Follows speech (e.setLink i link) a where
  object := follows.object
  seen := follows.seen
  links j := by
    show At speech (Function.update e.links i link j) (a.phase j) ∧
      (Function.update e.links i link j).stopped = false
    by_cases same : j = i
    · subst same
      rw [Function.update_self]
      exact ⟨at_, running⟩
    · rw [Function.update_of_ne same]
      exact follows.links j

/-! ## The steps -/

/-- The frame of a call whose text fits. -/
theorem asks_of_carries {c : Call} (carries : speech.json.Carries (.dict c.payload)) {correlationId : ℕ}
    (few : correlationId < 2 ^ 31) :
    ∃ f, Asks speech c f ∧
      encodeRequest speech.json.dumps c.apiKey correlationId (.dict c.payload) = .ok f.encoding := by
  obtain ⟨text, dumped, loaded, some_, short⟩ := carries
  let f : Frame := { apiKey := c.apiKey, apiVersion := 1, correlationId := correlationId, payload := text }
  have fits : f.Fits := by
    refine ⟨?_, ?_, ?_⟩
    · show 12 - 4 + text.length < _
      omega
    · show (0 : ℤ) ≤ 1 ∧ (1 : ℤ) < 256 ^ 2
      omega
    · show -(256 ^ 4 / 2) ≤ (correlationId : ℤ) ∧ (correlationId : ℤ) < 256 ^ 4 / 2
      omega
  refine ⟨f, ⟨⟨rfl, rfl⟩, fits, loaded, some_⟩, ?_⟩
  rw [encodeRequest_of_text dumped]
  exact Frame.toBytes_eq_ok_iff.mpr ⟨fits, rfl⟩

theorem Follows.call (follows : Follows speech e a) {i : ι} {c : Call}
    (carries : speech.json.Carries (.dict c.payload)) (few : (e.links i).correlationId + 1 < 2 ^ 31) :
    ∃ acts, Follows speech (e.call speech i c) (run (Machine.step (World.call server speech)) a acts) := by
  obtain ⟨at_, running⟩ := follows.links i
  unfold Exchange.call
  cases phase : a.phase i with
  | idle =>
      rw [phase] at at_
      obtain ⟨current, toServer, toClient, buffer⟩ := at_
      obtain ⟨f, asks, encoded⟩ := asks_of_carries carries few
      refine ⟨[.call i c], ?_⟩
      rw [run_cons, run_nil, Machine.step, phase]
      simp only [current, Option.isSome_none, Bool.false_eq_true, if_false, encoded]
      have missing : (e.links i).toServer ++ f.encoding ≠ [] := by simp [Frame.encoding_ne_nil]
      have request : (e.links i).buffer ++ ((e.links i).toServer ++ f.encoding) = f.encoding := by
        simp [buffer, toServer]
      exact follows.enter rfl rfl (.waiting asks rfl toClient missing request) running follows.object rfl rfl
  | waiting c' =>
      rw [phase] at at_
      cases at_ with
      | waiting asks current toClient missing request =>
          rw [if_pos (by rw [current]; rfl)]
          exact ⟨[], follows⟩
  | done c' r =>
      rw [phase] at at_
      cases at_ with
      | done fits current toServer buffer missing response =>
          rw [if_pos (by rw [current]; rfl)]
          exact ⟨[], follows⟩

omit [DecidableEq ι] in
/-- The handler of the call, as dispatching its frame runs it. -/
theorem dispatch_asks (speaks : server.Speaks speech) {w : World ι σ} {i : ι} {c : Call} {f : Frame}
    (asks : Asks speech c f) (answers : w.Answers server speech i c) :
    ∃ (g : Frame) (reply : Reply),
      Session.dispatch server (w.session i) f = ((w.handled server i c).session.withSent [g], none) ∧
        (w.handled server i c).replies = [reply] ∧ g.Fits ∧
        resultOf speech c g.encoding = Direct.result speech c reply := by
  obtain ⟨-, ⟨reply, replied⟩, -⟩ := (Session.handle_answered_iff c.request).mpr answers.accepted
  have replied : (w.handled server i c).replies = [reply] := replied
  obtain ⟨answer, written, read, some_, short⟩ := answers.response reply (by rw [replied]; simp)
  have fits : Frame.Fits { f with payload := answer } := by
    refine ⟨?_, asks.fits.version, asks.fits.correlation⟩
    show 12 - 4 + answer.length < _
    omega
  have frame : f = { apiKey := c.apiKey, apiVersion := 1, correlationId := f.correlationId, payload := f.payload } := by
    obtain ⟨key, version⟩ := asks.frame
    rw [← key, ← version]
  refine ⟨{ f with payload := answer }, reply, ?_, replied, fits, answerOf_response fits some_ read⟩
  exact Session.dispatch_call speaks asks.loaded asks.some_ f.correlationId answers.encodable answers.accepted
    replied written short asks.fits frame

/-- **The last bytes of a request make its call take effect**, and the response is sent. -/
theorem serve_whole (speaks : server.Speaks speech) {w : World ι σ} {i : ι} {c : Call} {f : Frame}
    (asks : Asks speech c f) (answers : w.Answers server speech i c) {buffer data : List UInt8}
    (whole : buffer ++ data = f.encoding) :
    ∃ (g : Frame) (handler : ClientHandler (Session σ)),
      ClientHandler.receive (Session.dispatch server) { buffer, state := w.session i } data = (none, handler) ∧
        handler.buffer = [] ∧ handler.state.sent = [g] ∧ g.Fits ∧
        w.withSession i handler.state = (w.call server speech i c).2 ∧
        resultOf speech c g.encoding = (w.call server speech i c).1 := by
  obtain ⟨g, reply, dispatched, replied, fits, result⟩ := dispatch_asks speaks asks answers
  have all : [f].flatMap Frame.encoding = f.encoding := by simp
  obtain ⟨⟨outcome, state, -⟩, left⟩ := ClientHandler.receive_spec (Session.dispatch server)
    { buffer, state := w.session i } (fun h member => List.mem_singleton.mp member ▸ asks.fits)
    (by rw [all, whole])
  rw [whole, ← all, complete_all] at outcome state left
  simp only [ClientHandler.dispatchAll, dispatched, Option.map_none] at outcome state
  refine ⟨g, _, Prod.ext outcome rfl, ?_, ?_, fits, ?_, ?_⟩
  · simpa using left outcome
  · rw [state]
    rfl
  · rw [state]
    rfl
  · rw [World.call, replied, result]

omit [DecidableEq ι] in
/-- Before the last byte the handler only collects. -/
theorem serve_part {w : World ι σ} {i : ι} {f : Frame} (fits : f.Fits) {buffer data more : List UInt8}
    (split_ : buffer ++ data ++ more = f.encoding) (missing : more ≠ []) :
    ClientHandler.receive (Session.dispatch server) { buffer, state := w.session i } data =
      (none, { buffer := buffer ++ data, state := w.session i }) := by
  have read := Frame.readFromBuffer_reader.part f (buffer ++ data) more fits missing split_.symm
  rw [ClientHandler.receive, ClientHandler.processBuffer_of_none read]

theorem Follows.serve (speaks : server.Speaks speech) (follows : Follows speech e a) {i : ι} {size : ℕ}
    (answered : ∀ c received, (e.links i).current = some (c, received) →
      (e.links i).toServer.length ≤ size → e.world.Answers server speech i c) :
    ∃ acts, Follows speech (e.serve server i size) (run (Machine.step (World.call server speech)) a acts) := by
  obtain ⟨at_, running⟩ := follows.links i
  unfold Exchange.serve
  dsimp only
  split
  · next enabled =>
      obtain ⟨-, some_, there⟩ := enabled
      cases phase : a.phase i with
      | idle =>
          rw [phase] at at_
          obtain ⟨current, toServer, toClient, buffer⟩ := at_
          rw [toServer, List.length_nil] at there
          omega
      | done c r =>
          rw [phase] at at_
          cases at_ with
          | done fits current toServer buffer missing response =>
              rw [toServer, List.length_nil] at there
              omega
      | waiting c =>
          rw [phase] at at_
          cases at_ with
          | @waiting _ f asks current toClient missing request =>
              by_cases last : (e.links i).toServer.length ≤ size
              · have exactly : (e.links i).toServer.take size = (e.links i).toServer := List.take_of_length_le last
                obtain ⟨g, handler, received, buffer, sent, fits, object, result⟩ :=
                  serve_whole speaks asks (answered c [] current last) request
                refine ⟨[.effect i], ?_⟩
                rw [run_cons, run_nil, Machine.step, phase, follows.object, exactly, received]
                dsimp only
                rw [← result, ← object, toClient, sent, List.nil_append, List.flatMap_singleton]
                have at_ : At speech { (e.links i) with
                    toServer := (e.links i).toServer.drop size
                    toClient := g.encoding
                    buffer := handler.buffer
                    stopped := false } (.done c (resultOf speech c g.encoding)) :=
                  .done fits current (List.drop_of_length_le last) buffer (Frame.encoding_ne_nil g) rfl
                exact follows.enter rfl rfl at_ rfl rfl rfl (List.append_nil _).symm
              · have rest : (e.links i).toServer.drop size ≠ [] := by
                  simpa using last
                have request : (e.links i).buffer ++ (e.links i).toServer.take size ++
                    (e.links i).toServer.drop size = f.encoding := by
                  rw [List.append_assoc, List.take_append_drop, request]
                refine ⟨[], ?_⟩
                rw [serve_part asks.fits request rest, World.withSession_session, World.session]
                have at_ : At speech { (e.links i) with
                    toServer := (e.links i).toServer.drop size
                    buffer := (e.links i).buffer ++ (e.links i).toServer.take size
                    stopped := false } (a.phase i) := by
                  rw [phase]
                  exact .waiting asks current toClient rest request
                simpa using follows.rest at_ rfl
  · exact ⟨[], follows⟩

theorem Follows.receive (follows : Follows speech e a) (i : ι) (size : ℕ) :
    ∃ acts, Follows speech (e.receive speech i size) (run (Machine.step (World.call server speech)) a acts) := by
  obtain ⟨at_, running⟩ := follows.links i
  unfold Exchange.receive
  dsimp only
  cases phase : a.phase i with
  | idle =>
      rw [phase] at at_
      obtain ⟨current, toServer, toClient, buffer⟩ := at_
      rw [current]
      exact ⟨[], follows⟩
  | waiting c =>
      rw [phase] at at_
      cases at_ with
      | waiting asks current toClient missing request =>
          rw [current]
          have nothing : ¬ (0 < size ∧ size ≤ wanted [] ∧ size ≤ (e.links i).toClient.length) := by
            rw [toClient, List.length_nil]
            omega
          have open_ : ¬ ((e.links i).stopped = true ∧ (e.links i).toClient = []) := by
            rw [running]
            simp
          dsimp only
          rw [if_neg nothing, if_neg open_]
          exact ⟨[], follows⟩
  | done c r =>
      rw [phase] at at_
      cases at_ with
      | @done _ f received fits current toServer buffer missing response =>
          rw [current]
          dsimp only
          split
          · next enabled =>
              rw [← List.take_append_drop size (e.links i).toClient, ← List.append_assoc] at response
              have ends := ClientRun.wanted_eq_zero_iff fits response
              split
              · next last =>
                  refine ⟨[.return_ i], ?_⟩
                  have rest := ends.mp last
                  rw [rest, List.append_nil] at response
                  rw [run_cons, run_nil, Machine.step, phase, ← response]
                  dsimp only
                  exact follows.enter rfl rfl (.idle rfl toServer rest buffer) running follows.object rfl rfl
              · next more =>
                  refine ⟨[], follows.rest ?_ running⟩
                  rw [phase]
                  exact .done fits rfl toServer buffer (mt ends.mpr more) response
          · rw [if_neg (by rw [running]; simp)]
            exact ⟨[], follows⟩

theorem Follows.step (speaks : server.Speaks speech) (follows : Follows speech e a) (op : ExchangeOp ι)
    (fits : e.Fits server speech op) :
    ∃ acts, Follows speech (e.step server speech op) (run (Machine.step (World.call server speech)) a acts) := by
  cases op with
  | call i c => exact follows.call fits.1 fits.2
  | serve i size => exact follows.serve speaks fits
  | receive i size => exact follows.receive i size

end Follow

end Exchange

end BrokerLite
