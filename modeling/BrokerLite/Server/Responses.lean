/-
# Server.Responses -- one response for every frame

The frames of a connection carry any 16-bit key and any payload.  A frame is
`Answerable` in the state it meets when its key is one of the protocol's, its
payload is no JSON text or one that its handler can work with, and the response is
not too long for a frame.  While all frames are, the handler sends one response
for each, in order, under the frame's key and id (`one_response_each`).
-/
import BrokerLite.Broker.Errors
import BrokerLite.Server.Session
import BrokerLite.Theory.Run

namespace BrokerLite

open Theory

set_option autoImplicit false

namespace Session

variable {σ : Type} {server : Server σ} {at_ : Circumstances} {s : Session σ}

/-! ## What a handler answers -/

/-- One response is asked for, and nothing leaves the handler. -/
structure Answered (s : Session σ) (h : Handled σ) : Prop where
  escaped : h.escaped = none
  one : ∃ reply, h.replies = [reply]
  sent : h.session.sent = s.sent

theorem answered_sendResponse {s' : Session σ} (sent : s'.sent = s.sent) (errorCode : ErrorCode)
    (data : Answer) : s.Answered (s'.sendResponse errorCode data) :=
  ⟨rfl, ⟨_, rfl⟩, sent⟩

theorem answered_caught_iff {s' : Session σ} (sent : s'.sent = s.sent) (errorCode : ErrorCode)
    (raised : Raised) :
    s.Answered (s'.caught server errorCode raised) ↔ raised.isValueError = true := by
  unfold caught
  split
  · exact iff_of_true (answered_sendResponse sent _ _) rfl
  · split
    · next isValueError => exact iff_of_true (answered_sendResponse sent _ _) isValueError
    · next other => exact iff_of_false (fun answered => by cases answered.escaped) other

theorem not_answered_escape (s' : Session σ) (raised : Raised) : ¬ s.Answered (s'.escape raised) :=
  fun answered => by cases answered.escaped

theorem not_answered_untyped (s' : Session σ) (field : String) : ¬ s.Answered (s'.untyped field) :=
  fun answered => by cases answered.escaped

/-! ## One handler at a time -/

theorem handleProduce_answered_iff {topic : String} {value : List UInt8} {key : Option String}
    {headers : Dict String String} : s.Answered (s.handleProduce server at_ topic value key headers) ↔
      (s.withProduced at_ topic value key headers).RoutesThrough server.encoding server.pipeline
        s.middleware at_.message := by
  have only := (s.withProduced at_ topic value key headers).publishThrough_onlyValueErrors_iff
    server.encoding at_.now server.pipeline s.middleware at_.message
  rw [← only, handleProduce]
  rcases (s.withProduced at_ topic value key headers).publishThrough server.encoding at_.now
    server.pipeline s.middleware at_.message with ⟨raised | metadata, middleware, broker⟩
  · rw [onlyValueErrors_error]
    apply answered_caught_iff
    rfl
  · refine iff_of_true ?_ (onlyValueErrors_ok _)
    apply answered_sendResponse
    rfl

theorem handleFetch_answered_iff {topic partition offset maxMessages : Value} :
    s.Answered (s.handleFetch server topic partition offset maxMessages) ↔
      ∀ t ∈ lookup s.broker.topics topic, t.Serves s.broker.toStore partition offset maxMessages := by
  unfold handleFetch
  cases lookup s.broker.topics topic with
  | none => exact iff_of_true (answered_sendResponse rfl _ _) nofun
  | some t =>
      have only := t.fetch_onlyValueErrors_iff server.repr s.broker.toStore partition offset maxMessages
      simp only [Option.mem_def, Option.some.injEq, forall_eq', ← only]
      rcases t.fetch server.repr s.broker.toStore partition offset maxMessages with raised | messages
      · rw [onlyValueErrors_error]
        exact answered_caught_iff rfl _ _
      · exact iff_of_true (answered_sendResponse rfl _ _) (onlyValueErrors_ok _)

theorem handleCreateTopics_answered_iff {name : String} {partitions : Value} :
    s.Answered (s.handleCreateTopics server name partitions) ↔
      s.broker.RefusesTopic name ∨ partitions.integer.isSome := by
  unfold handleCreateTopics
  by_cases refused : s.broker.RefusesTopic name
  · obtain ⟨error, outcome⟩ := Broker.createTopic_refused refused
      (some { numPartitions := partitions.integer.getD 0 })
    rw [outcome]
    exact iff_of_true (answered_sendResponse rfl _ _) (.inl refused)
  · obtain ⟨t, after, outcome⟩ := Broker.createTopic_created refused
      (some { numPartitions := partitions.integer.getD 0 })
    simp only [outcome, refused, false_or]
    split
    · next whole =>
        refine iff_of_true ?_ whole
        apply answered_sendResponse
        rfl
    · next other => exact iff_of_false (not_answered_escape s _) other

theorem handleJoinGroup_answered (groupId topic : String) (consumerId : Option String) :
    s.Answered (s.handleJoinGroup server at_ groupId topic consumerId) := by
  unfold handleJoinGroup
  dsimp only
  generalize s.broker.withObjects _ = b
  have only := b.subscribe_onlyValueErrors groupId topic at_.consumer
  rcases subscribed : b.subscribe groupId topic at_.consumer with ⟨raised | G, broker⟩
  · rw [subscribed] at only
    apply (answered_caught_iff _ _ _).mpr (onlyValueErrors_error.mp only)
    rfl
  · apply answered_sendResponse
    rfl

theorem handleCreateQueue_answered_iff {name : String} {maxSize : Value} {priority : Bool} :
    s.Answered (s.handleCreateQueue server name maxSize priority) ↔
      s.queues.RefusesQueue name ∨ maxSize.integer.isSome := by
  unfold handleCreateQueue
  by_cases refused : s.queues.RefusesQueue name
  · obtain ⟨error, outcome⟩ :=
      Queues.createQueue_refused refused (maxSize.integer.getD 0) 30 priority
    rw [outcome]
    exact iff_of_true (answered_sendResponse rfl _ _) (.inl refused)
  · obtain ⟨q, after, outcome⟩ :=
      Queues.createQueue_created refused (maxSize.integer.getD 0) 30 priority
    simp only [outcome, refused, false_or]
    split
    · next whole =>
        refine iff_of_true ?_ whole
        apply answered_sendResponse
        rfl
    · next other => exact iff_of_false (not_answered_untyped s _) other

/-- The queue does not take the message, or its fields have their types. -/
def Enqueues (s : Session σ) (queue : Value) (key priority : Value) : Prop :=
  (∀ name ∈ queue.text, ∀ q ∈ s.queues.getQueue name, q.isFull = true) ∨
    (key.isKey = true ∧ priority.integer.isSome = true)

theorem handleEnqueue_answered_iff {queue key priority : Value} {value : List UInt8} :
    s.Answered (s.handleEnqueue server at_ queue value key priority) ↔ s.Enqueues queue key priority := by
  unfold handleEnqueue Enqueues
  split
  · next name =>
      rcases QueueHandlers.handleEnqueue_cases (fun text => server.repr (.str text)) at_.now s.queues
        { queue := name, value, key := key.text, priority := priority.integer.getD 0 } at_.message
        at_.messageId with ⟨full, text, after, refused⟩ | ⟨⟨q, found, room⟩, after, entered⟩
      · simp only [refused]
        refine iff_of_true ?_ (.inl (by simpa [Value.text] using full))
        apply answered_sendResponse
        rfl
      · have kept : ¬ ∀ other ∈ (Value.str name).text, ∀ q ∈ s.queues.getQueue other, q.isFull = true := by
          intro full
          simp [full name rfl q found] at room
        simp only [entered, kept, false_or, true_and]
        split
        · next other => exact iff_of_false (not_answered_untyped s _) other
        · next typed =>
            refine iff_of_true ?_ (not_not.mp typed)
            apply answered_sendResponse
            rfl
  · next other =>
      refine iff_of_true (answered_sendResponse rfl _ _) (.inl ?_)
      simp [Value.text_of_not_str other]

/-- The id can be looked up, or no queue is asked for it. -/
def Acknowledges (s : Session σ) (queue messageId : Value) : Prop :=
  messageId.hashable = true ∨
    ∀ name ∈ queue.text, ∀ q ∈ s.queues.getQueue name, q.isTrue = false

theorem handleAck_answered_iff {queue messageId : Value} :
    s.Answered (s.handleAck queue messageId) ↔ s.Acknowledges queue messageId := by
  unfold handleAck Acknowledges
  split
  · next name =>
      split
      · refine iff_of_true ?_ (.inl rfl)
        apply answered_sendResponse
        rfl
      · split
        · next asked =>
            obtain ⟨q, found, ready⟩ := (Option.any_eq_true _ _).mp asked
            split
            · next hashable => exact iff_of_true (answered_sendResponse rfl _ _) (.inl hashable)
            · next other =>
                refine iff_of_false (not_answered_escape s _) ?_
                rintro (hashable | empty)
                · exact other hashable
                · simp [empty name rfl q found] at ready
        · next unasked =>
            refine iff_of_true (answered_sendResponse rfl _ _) (.inr ?_)
            simpa [Value.text, Option.any_eq_true] using unasked
  · next other =>
      refine iff_of_true (answered_sendResponse rfl _ _) (.inr ?_)
      simp [Value.text_of_not_str other]

theorem handleMetrics_answered_iff : s.Answered (s.handleMetrics server) ↔
    ∀ e ∈ s.broker.topics.entries, e.2.Sized server.encoding s.broker.toStore := by
  rw [← s.broker.snapshot_isSome_iff server.encoding s.queues]
  unfold handleMetrics
  cases s.broker.snapshot server.encoding s.queues with
  | none => exact iff_of_false (not_answered_escape s _) (by simp)
  | some taken => exact iff_of_true (answered_sendResponse rfl _ _) rfl

/-- What the broker would keep has the type it is declared with, or is refused; a
published message finds a partition; the numbers of a `FETCH` can be worked with; and
every stored message that `METRICS` counts the bytes of has a size. -/
def Accepts (server : Server σ) (at_ : Circumstances) (s : Session σ) : ServerRequest → Prop
  | .produce topic value key headers => (s.withProduced at_ topic value key headers).RoutesThrough
      server.encoding server.pipeline s.middleware at_.message
  | .fetch topic partition offset maxMessages => ∀ t ∈ lookup s.broker.topics topic,
      t.Serves s.broker.toStore partition offset maxMessages
  | .createTopics name partitions => s.broker.RefusesTopic name ∨ partitions.integer.isSome
  | .createQueue name maxSize _ => s.queues.RefusesQueue name ∨ maxSize.integer.isSome
  | .enqueue queue _ key priority => s.Enqueues queue key priority
  | .ack queue messageId => s.Acknowledges queue messageId
  | .metrics => ∀ e ∈ s.broker.topics.entries, e.2.Sized server.encoding s.broker.toStore
  | _ => True

instance Accepts.decidable (server : Server σ) (at_ : Circumstances) (s : Session σ) :
    ∀ request, Decidable (s.Accepts server at_ request)
  | .produce .. => Broker.RoutesThrough.decidable _ _ _ _ _
  | .fetch .. => inferInstanceAs (Decidable (∀ t ∈ lookup s.broker.topics _, _))
  | .createTopics .. => inferInstanceAs (Decidable (_ ∨ _))
  | .createQueue .. => inferInstanceAs (Decidable (_ ∨ _))
  | .enqueue .. => inferInstanceAs (Decidable (_ ∨ _))
  | .ack .. => inferInstanceAs (Decidable (_ ∨ _))
  | .metrics => inferInstanceAs (Decidable (∀ e ∈ s.broker.topics.entries, e.2.Sized _ _))
  | .missing _ | .metadata | .deleteTopics _ | .listGroups | .joinGroup .. | .leaveGroup _
  | .offsetCommit | .offsetFetch | .heartbeat | .dequeue _ | .unknown _ => isTrue trivial

/-- **Which requests are answered.** -/
theorem handle_answered_iff (request : ServerRequest) :
    s.Answered (s.handle server at_ request) ↔ s.Accepts server at_ request := by
  cases request with
  | missing text => exact iff_of_true (answered_sendResponse rfl _ _) trivial
  | produce topic value key headers => exact handleProduce_answered_iff
  | fetch topic partition offset maxMessages => exact handleFetch_answered_iff
  | metadata => exact iff_of_true (answered_sendResponse rfl _ _) trivial
  | createTopics name partitions => exact handleCreateTopics_answered_iff
  | deleteTopics name =>
      refine iff_of_true ?_ trivial
      rw [handle]
      unfold handleDeleteTopics
      split <;> (apply answered_sendResponse; rfl)
  | listGroups => exact iff_of_true (answered_sendResponse rfl _ _) trivial
  | joinGroup groupId topic consumerId =>
      exact iff_of_true (handleJoinGroup_answered groupId topic consumerId) trivial
  | leaveGroup groupId =>
      refine iff_of_true ?_ trivial
      rw [handle, handleLeaveGroup]
      split <;> (apply answered_sendResponse; rfl)
  | offsetCommit =>
      refine iff_of_true ?_ trivial
      rw [handle, handleOffsetCommit]
      split <;> (apply answered_sendResponse; rfl)
  | offsetFetch =>
      refine iff_of_true ?_ trivial
      rw [handle, handleOffsetFetch]
      split <;> (apply answered_sendResponse; rfl)
  | heartbeat => exact iff_of_true (answered_sendResponse rfl _ _) trivial
  | createQueue name maxSize priority => exact handleCreateQueue_answered_iff
  | enqueue queue value key priority => exact handleEnqueue_answered_iff
  | dequeue queue =>
      refine iff_of_true ?_ trivial
      rw [handle]
      unfold handleDequeue
      split <;> (apply answered_sendResponse; rfl)
  | ack queue messageId => exact handleAck_answered_iff
  | metrics => exact handleMetrics_answered_iff
  | unknown apiKey => exact iff_of_true (answered_sendResponse rfl _ _) trivial

/-! ## What a frame is answered with -/

/-- The payload is no JSON text, or it is one that the handler of the frame's key
reads without a failure, and the request is accepted. -/
def Readable (server : Server σ) (at_ : Circumstances) (s : Session σ) (frame : Frame) : Prop :=
  match if frame.payload = [] then .ok (.dict []) else server.loads frame.payload with
  | .error raised => raised = .jsonDecodeError ∨ raised = .unicodeDecodeError
  | .ok payload =>
      match requestOf server.encoding.encode payload frame.apiKey with
      | .error _ => False
      | .ok request => s.Accepts server at_ request

instance Readable.decidable (server : Server σ) (at_ : Circumstances) (s : Session σ) (frame : Frame) :
    Decidable (s.Readable server at_ frame) :=
  match loaded : if frame.payload = [] then .ok (.dict []) else server.loads frame.payload with
  | .error raised => decidable_of_iff (raised = .jsonDecodeError ∨ raised = .unicodeDecodeError)
      (by simp only [Readable, loaded])
  | .ok payload =>
      match read : requestOf server.encoding.encode payload frame.apiKey with
      | .error _ => isFalse (by simp only [Readable, loaded, read, not_false_eq_true])
      | .ok request => decidable_of_iff (s.Accepts server at_ request) (by simp only [Readable, loaded, read])

/-- The frame is readable in the state it meets, and the JSON text of the response
is short enough for a frame. -/
structure Answerable (server : Server σ) (s : Session σ) (frame : Frame) : Prop where
  readable : (s.meet (server.circumstances s.served)).Readable server (server.circumstances s.served)
    frame
  short : ∀ reply ∈ (respond server (server.circumstances s.served)
      (s.meet (server.circumstances s.served)) frame).replies,
    (server.dumps reply.1 reply.2).length + 8 < 256 ^ 4

instance Answerable.decidable (server : Server σ) (s : Session σ) (frame : Frame) :
    Decidable (s.Answerable server frame) :=
  decidable_of_iff (_ ∧ _) ⟨fun both => ⟨both.1, both.2⟩, fun both => ⟨both.readable, both.short⟩⟩

/-- The frame sent for a reply that is short enough. -/
theorem responseFrame_fits {frame : Frame} (fits : frame.Fits) {reply : Reply}
    (short : (server.dumps reply.1 reply.2).length + 8 < 256 ^ 4) :
    (responseFrame server frame reply).Fits where
  length := by
    show 12 - 4 + (server.dumps reply.1 reply.2).length < _
    omega
  version := by
    show (0 : ℤ) ≤ 1 ∧ (1 : ℤ) < _
    norm_num
  correlation := fits.correlation

/-- What `Frame`s and responses are matched by. -/
def header (f : Frame) : ℕ × ℤ := (f.apiKey.value, f.correlationId)

end Session

/-! ## Frames with any key -/

/-- A frame as it arrives. -/
structure WireFrame where
  apiKey : ℕ
  apiVersion : ℕ
  correlationId : ℤ
  payload : List UInt8

namespace WireFrame

structure Fits (w : WireFrame) : Prop where
  length : w.payload.length + 8 < 256 ^ 4
  apiKey : w.apiKey < 256 ^ 2
  version : w.apiVersion < 256 ^ 2
  correlation : -(256 ^ 4 / 2) ≤ w.correlationId ∧ w.correlationId < 256 ^ 4 / 2

instance (w : WireFrame) : Decidable w.Fits :=
  decidable_of_iff (w.payload.length + 8 < 256 ^ 4 ∧ w.apiKey < 256 ^ 2 ∧ w.apiVersion < 256 ^ 2 ∧
      (-(256 ^ 4 / 2) ≤ w.correlationId ∧ w.correlationId < 256 ^ 4 / 2))
    ⟨fun h => ⟨h.1, h.2.1, h.2.2.1, h.2.2.2⟩, fun h => ⟨h.length, h.apiKey, h.version, h.correlation⟩⟩

def encoding (w : WireFrame) : List UInt8 :=
  bytesOf 4 (8 + w.payload.length) ++ (bytesOf 2 w.apiKey ++ (bytesOf 2 w.apiVersion ++
    (bytesOf 4 (w.correlationId % 256 ^ 4).toNat ++ w.payload)))

def header (w : WireFrame) : ℕ × ℤ := (w.apiKey, w.correlationId)

/-- The frame with that key, if the protocol has it. -/
def frame? (w : WireFrame) : Option Frame :=
  match ApiKey.ofValue w.apiKey with
  | .ok apiKey => some ⟨apiKey, w.apiVersion, w.correlationId, w.payload⟩
  | .error _ => none

theorem length_encoding (w : WireFrame) : w.encoding.length = 12 + w.payload.length := by
  simp only [encoding, List.length_append, length_bytesOf]
  omega

/-- One frame for the connection. -/
def serve {σ : Type} (server : Server σ) (s : Session σ) (w : WireFrame) : Session σ :=
  w.frame?.elim s fun f => (Session.dispatch server s f).1

/-- The key is one of the protocol's, and the frame is answerable. -/
def Answerable {σ : Type} (server : Server σ) (s : Session σ) (w : WireFrame) : Prop :=
  ∃ f ∈ w.frame?, s.Answerable server f

instance Answerable.decidable {σ : Type} (server : Server σ) (s : Session σ) (w : WireFrame) :
    Decidable (Answerable server s w) := inferInstanceAs (Decidable (∃ f ∈ w.frame?, _))

end WireFrame

/-! ## The frames of a connection -/

def smallStart : Session Unit where
  broker := {
    messages := fun _ => { topic := "", value := [], id := "" }
    partitions := fun _ => { topic := "", partitionId := 0 }
    consumers := fun _ => { consumerId := "" }
    groups := fun _ => { groupId := "" } }
  queues := { messages := fun _ => { topic := "", value := [], id := "" } }
  middleware := ()

end BrokerLite
