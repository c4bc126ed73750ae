/-
# Wire.ClientRun -- runs of requests over one connection

Several threads use one client.  A request takes its id, then waits for the lock;
with the lock held it is sent and its response is read.  The server answers the
requests in the order they came in, and its bytes arrive in any portions.  A
receive may time out: the lock is released, what was received is lost, and what
was not stays in the stream.

`_send_request` does not look at the id of the response it decodes.  A request
returns the data of its own response when it is sent on a connection that is
`Synced` (`run_ownAnswers`).
-/
import BrokerLite.Theory.Run
import BrokerLite.Wire.Client
import Mathlib.Data.List.Nodup

namespace BrokerLite

open Theory

set_option autoImplicit false

/-- A client, its connection and the server at the other end. -/
structure ClientRun where
  correlationId : ℕ := 0
  /-- The requests that have their id and wait for the lock. -/
  waiting : List Frame := []
  /-- The request whose thread holds the lock, and what it has received. -/
  current : Option (Frame × List UInt8) := none
  /-- The requests that the server has not answered. -/
  requests : List Frame := []
  /-- The bytes that the server has sent and the client has not received. -/
  responses : List UInt8 := []
  answered : List Frame := []
  /-- The data that `_send_request` returned, with its request. -/
  returned : List (Frame × Value) := []

/-- A payload is the bytes of the text that `json.dumps` makes. -/
inductive ClientOp where
  /-- `_next_correlation_id` and `encode_request`. -/
  | start (apiKey : ApiKey) (payload : List UInt8)
  /-- The thread of the `i`-th waiting request gets the lock and sends. -/
  | send (i : ℕ)
  | answer (payload : List UInt8)
  /-- `recv` returns that many bytes. -/
  | receive (size : ℕ)
  | timeout

namespace ClientRun

open BrokerClient

variable (loads : List UInt8 → Except Raised Value) (repr : Value → String)

/-- The request whose response has these bytes is over. -/
def conclude (r : ClientRun) (request : Frame) (responseData : List UInt8) : ClientRun :=
  match answerOf loads repr responseData with
  | .error _ => { r with current := none }
  | .ok data => { r with current := none, returned := r.returned ++ [(request, data)] }

/-- The thread that holds the lock has received `received`. -/
def proceed (r : ClientRun) (request : Frame) (received : List UInt8) : ClientRun :=
  if wanted received = 0 then r.conclude loads repr request received
  else { r with current := some (request, received) }

def step (r : ClientRun) : ClientOp → ClientRun
  | .start apiKey payload =>
      let correlationId := r.correlationId + 1
      let request : Frame := { apiKey, apiVersion := 1, correlationId, payload }
      match request.toBytes with
      | .error _ => { r with correlationId }
      | .ok _ => { r with correlationId, waiting := r.waiting ++ [request] }
  | .send i =>
      match r.current, r.waiting[i]? with
      | none, some request =>
          { r with
            waiting := r.waiting.eraseIdx i
            current := some (request, [])
            requests := r.requests ++ [request] }
      | _, _ => r
  | .answer payload =>
      match r.requests with
      | [] => r
      | request :: requests =>
          let response : Frame :=
            { apiKey := request.apiKey, apiVersion := 1, correlationId := request.correlationId, payload }
          match response.toBytes with
          | .error _ => r
          | .ok bytes =>
              { r with
                requests
                responses := r.responses ++ bytes
                answered := r.answered ++ [response] }
  | .receive size =>
      match r.current with
      | none => r
      | some (request, received) =>
          if 0 < size ∧ size ≤ wanted received ∧ size ≤ r.responses.length then
            proceed loads repr { r with responses := r.responses.drop size } request
              (received ++ r.responses.take size)
          else r
  | .timeout => { r with current := none }

/-- The data returned for a request is that of the response that carries its id. -/
def OwnAnswers (r : ClientRun) : Prop :=
  ∀ e ∈ r.returned,
    (∃ response ∈ r.answered, response.correlationId = e.1.correlationId) ∧
    ∀ response ∈ r.answered, response.correlationId = e.1.correlationId →
      answerOf loads repr response.encoding = .ok e.2

/-- A request is sent only when the server has answered every earlier one and the
client has received all of the answers. -/
def Synced (r : ClientRun) : ClientOp → Prop
  | .send i => r.current = none → i < r.waiting.length → r.requests = [] ∧ r.responses = []
  | _ => True

/-! ## The ids -/

/-- The ids of all requests that got one and were not refused. -/
def ids (r : ClientRun) : List ℤ :=
  (r.answered ++ r.requests ++ r.waiting).map Frame.correlationId

/-- No two requests have the same id. -/
structure Distinct (r : ClientRun) : Prop where
  nodup : r.ids.Nodup
  below : ∀ id ∈ r.ids, id ≤ r.correlationId

variable {loads repr} {r : ClientRun}

@[simp] theorem proceed_ids (request : Frame) (received : List UInt8) :
    (proceed loads repr r request received).ids = r.ids := by
  unfold proceed conclude
  split
  · split <;> rfl
  · rfl

@[simp] theorem proceed_correlationId (request : Frame) (received : List UInt8) :
    (proceed loads repr r request received).correlationId = r.correlationId := by
  unfold proceed conclude
  split
  · split <;> rfl
  · rfl

theorem Distinct.of_perm (distinct : r.Distinct) {r' : ClientRun} (perm : r'.ids.Perm r.ids)
    (later : r.correlationId ≤ r'.correlationId) : r'.Distinct where
  nodup := perm.nodup_iff.mpr distinct.nodup
  below id member := by
    have old := distinct.below id (perm.subset member)
    omega

/-- The id of a new request is above all others. -/
theorem Distinct.start (distinct : r.Distinct) {request : Frame}
    (id_eq : request.correlationId = (r.correlationId + 1 : ℕ)) :
    Distinct { r with correlationId := r.correlationId + 1, waiting := r.waiting ++ [request] } := by
  have ids_eq : ClientRun.ids
      { r with correlationId := r.correlationId + 1, waiting := r.waiting ++ [request] } =
        r.ids ++ [request.correlationId] := by
    simp [ids]
  constructor
  · rw [ids_eq, List.nodup_append]
    refine ⟨distinct.nodup, List.nodup_singleton _, fun id member new last => ?_⟩
    have old := distinct.below id member
    rw [List.mem_singleton] at last
    omega
  · rw [ids_eq]
    intro id member
    rcases List.mem_append.mp member with member | last
    · have old := distinct.below id member
      push_cast
      omega
    · rw [List.mem_singleton.mp last, id_eq]

theorem Distinct.step (distinct : r.Distinct) (op : ClientOp) : (r.step loads repr op).Distinct := by
  cases op with
  | start apiKey payload =>
      rw [ClientRun.step]
      split
      · exact distinct.of_perm (List.Perm.refl _) (Nat.le_succ _)
      · exact distinct.start rfl
  | send i =>
      rw [ClientRun.step]
      split
      · next request _ found =>
          obtain ⟨inside, rfl⟩ := List.getElem?_eq_some_iff.mp found
          refine distinct.of_perm (List.Perm.map _ ?_) le_rfl
          rw [← List.append_assoc, List.append_assoc (r.answered ++ r.requests)]
          exact List.Perm.append_left _ (List.getElem_cons_eraseIdx_perm inside)
      · exact distinct
  | answer payload =>
      rw [ClientRun.step]
      split
      · exact distinct
      · next request requests pending =>
          dsimp only
          split
          · exact distinct
          · refine distinct.of_perm (List.Perm.of_eq ?_) le_rfl
            simp [ids, pending]
  | receive size =>
      rw [ClientRun.step]
      split
      · exact distinct
      · split
        · refine distinct.of_perm (List.Perm.of_eq (proceed_ids _ _)) ?_
          rw [proceed_correlationId]
        · exact distinct
  | timeout => exact distinct.of_perm (List.Perm.refl _) le_rfl

/-! ## What the client reads -/

theorem step_within (within : ∀ request received, r.current = some (request, received) → Within received)
    (op : ClientOp) (request : Frame) (received : List UInt8)
    (current : (r.step loads repr op).current = some (request, received)) : Within received := by
  cases op with
  | start apiKey payload =>
      rw [step] at current
      split at current <;> exact within request received current
  | send i =>
      rw [step] at current
      split at current
      · cases current
        exact .inl (Nat.zero_le _)
      · exact within request received current
  | answer payload =>
      rw [step] at current
      split at current
      · exact within request received current
      · dsimp only at current
        split at current <;> exact within request received current
  | receive size =>
      rw [step] at current
      split at current
      · next none_ =>
          rw [none_] at current
          cases current
      · next _ before reading =>
          split at current
          · next enabled =>
              unfold proceed conclude at current
              have portion : (r.responses.take size).length ≤ wanted before := by
                rw [List.length_take]
                omega
              split at current
              · split at current <;> cases current
              · cases current
                exact (within _ before reading).append portion
          · exact within request received current
  | timeout => cases current

/-- In every run the client goes on as `_read_response` does on the bytes it has
received of a response, in whatever portions they came. -/
theorem run_readResponse (loads : List UInt8 → Except Raised Value) (repr : Value → String)
    (ops : List ClientOp) (size : ℕ) {request : Frame} {received : List UInt8} {incoming : Incoming}
    (current : (run (step loads repr) {} ops).current = some (request, received))
    (asked : size ≤ wanted received)
    (carries : Carries incoming (received ++ (run (step loads repr) {} ops).responses.take size)) :
    ∀ r : ClientRun, proceed loads repr r request incoming.flatten =
      match readResponse incoming with
      | .error _ => { r with current := some (request, incoming.flatten) }
      | .ok (responseData, _) => r.conclude loads repr request responseData := by
  intro r
  have preserved : ∀ (r : ClientRun) op,
      (∀ request received, r.current = some (request, received) → Within received) →
      ∀ request received, (r.step loads repr op).current = some (request, received) → Within received :=
    fun _ op within => step_within within op
  have start : ∀ request received, ({} : ClientRun).current = some (request, received) → Within received :=
    fun _ _ none_ => by cases none_
  have within := run_preserves preserved start ops request received current
  have portion : ((run (step loads repr) {} ops).responses.take size).length ≤ wanted received := by
    rw [List.length_take]
    omega
  rw [carries.bytes, readResponse_of_within (within.append portion) carries, proceed]
  split <;> rfl

/-! ## Synced runs -/

/-- A response is received to its end and no further. -/
theorem wanted_eq_zero_iff {f : Frame} (fits : f.Fits) {received more : List UInt8}
    (split_ : f.encoding = received ++ more) : wanted received = 0 ↔ more = [] := by
  have length := congrArg List.length split_
  rw [Frame.length_encoding, List.length_append] at length
  rw [← List.length_eq_zero_iff]
  by_cases short : received.length < 4
  · have header : f.frameLength = 8 + f.payload.length := rfl
    rw [wanted, if_pos short]
    omega
  · have field := Frame.natOf_take_encoding fits []
    rw [List.append_nil, split_, List.take_append_of_le_length (by omega)] at field
    rw [wanted, if_neg short, field]
    omega

section Proceed

variable {f request : Frame} {received : List UInt8}

theorem proceed_of_part (fits : f.Fits) {more : List UInt8} (split_ : f.encoding = received ++ more)
    (missing : more ≠ []) :
    proceed loads repr r request received = { r with current := some (request, received) } := by
  rw [proceed, if_neg (mt (wanted_eq_zero_iff fits split_).mp missing)]

theorem proceed_of_whole (fits : f.Fits) :
    proceed loads repr r request f.encoding = r.conclude loads repr request f.encoding := by
  rw [proceed, if_pos ((wanted_eq_zero_iff fits (List.append_nil f.encoding).symm).mpr rfl)]

end Proceed

/-- The request whose response is being read is the last one: either it has not
been answered, or what is left of its answer is all that is still to be received. -/
def Reading (r : ClientRun) (request : Frame) (received : List UInt8) : Prop :=
  (r.requests = [request] ∧ r.responses = [] ∧ received = []) ∨
  (r.requests = [] ∧ r.responses ≠ [] ∧ ∃ response ∈ r.answered, response.Fits ∧
    response.correlationId = request.correlationId ∧ response.encoding = received ++ r.responses)

instance (r : ClientRun) : ∀ op, Decidable (r.Synced op)
  | .send i => inferInstanceAs
      (Decidable (r.current = none → i < r.waiting.length → r.requests = [] ∧ r.responses = []))
  | .start _ _ | .answer _ | .receive _ | .timeout => isTrue trivial

structure Sound (loads : List UInt8 → Except Raised Value) (repr : Value → String) (r : ClientRun) :
    Prop where
  distinct : r.Distinct
  reading : ∀ request received, r.current = some (request, received) → r.Reading request received
  own : r.OwnAnswers loads repr

theorem sound_empty : Sound loads repr {} where
  distinct := ⟨List.nodup_nil, fun id member => absurd member List.not_mem_nil⟩
  reading request received holds := by cases holds
  own e member := absurd member List.not_mem_nil

section Answers

variable (distinct : r.Distinct)

include distinct

/-- The answer to a pending request is the only response with its id. -/
theorem Distinct.not_answered {request : Frame} (pending : request ∈ r.requests) {response : Frame}
    (answered : response ∈ r.answered) : response.correlationId ≠ request.correlationId := by
  have nodup := distinct.nodup
  rw [ids, List.append_assoc, List.map_append, List.nodup_append] at nodup
  have later : request.correlationId ∈ (r.requests ++ r.waiting).map Frame.correlationId :=
    List.mem_map_of_mem (List.mem_append_left _ pending)
  exact nodup.2.2 _ (List.mem_map_of_mem answered) _ later

theorem Distinct.answered_eq {f g : Frame} (first : f ∈ r.answered) (second : g ∈ r.answered)
    (same : f.correlationId = g.correlationId) : f = g := by
  have nodup := distinct.nodup
  rw [ids, List.append_assoc, List.map_append, List.nodup_append] at nodup
  exact List.inj_on_of_nodup_map nodup.1 first second same

end Answers

theorem OwnAnswers.answer (own : r.OwnAnswers loads repr) {response : Frame} {requests : List Frame}
    {responses : List UInt8}
    (new : ∀ answered ∈ r.answered, answered.correlationId ≠ response.correlationId) :
    OwnAnswers loads repr { r with requests, responses, answered := r.answered ++ [response] } := by
  intro e member
  obtain ⟨⟨first, answered, same⟩, all⟩ := own e member
  refine ⟨⟨first, List.mem_append_left _ answered, same⟩, fun other member id_eq => ?_⟩
  rcases List.mem_append.mp member with member | last
  · exact all other member id_eq
  · rw [List.mem_singleton.mp last] at id_eq
    exact absurd (same.trans id_eq.symm) (new first answered)

theorem OwnAnswers.return_ (own : r.OwnAnswers loads repr) (distinct : r.Distinct)
    {request response : Frame} (answered : response ∈ r.answered)
    (same : response.correlationId = request.correlationId) {data : Value}
    (outcome : answerOf loads repr response.encoding = .ok data) {responses : List UInt8} :
    OwnAnswers loads repr { r with
      responses, current := none, returned := r.returned ++ [(request, data)] } := by
  intro e member
  rcases List.mem_append.mp member with member | last
  · exact own e member
  · obtain rfl := List.mem_singleton.mp last
    refine ⟨⟨response, answered, same⟩, fun other member id_eq => ?_⟩
    rw [distinct.answered_eq member answered (id_eq.trans same.symm)]
    exact outcome

/-- A portion of the response that is being read. -/
theorem Sound.receive (sound : r.Sound loads repr) {size : ℕ} {request : Frame} {received : List UInt8}
    (reading : r.Reading request received) (some_ : 0 < size) (there : size ≤ r.responses.length) :
    let r' := proceed loads repr { r with responses := r.responses.drop size } request
      (received ++ r.responses.take size)
    (∀ request received, r'.current = some (request, received) → r'.Reading request received) ∧
      r'.OwnAnswers loads repr := by
  intro r'
  rcases reading with ⟨-, nothing, -⟩ | ⟨answered_all, -, response, answered, fits, same, split_⟩
  · rw [nothing, List.length_nil] at there
    omega
  · rw [← List.take_append_drop size r.responses, ← List.append_assoc] at split_
    by_cases whole : r.responses.drop size = []
    · -- the last portion: what has been received is the response
      rw [whole, List.append_nil] at split_
      have result : r' = proceed loads repr { r with responses := r.responses.drop size } request
          response.encoding := by rw [split_]
      rw [result, proceed_of_whole fits, conclude]
      cases outcome : answerOf loads repr response.encoding with
      | error raised => exact ⟨fun _ _ none_ => (by cases none_), sound.own⟩
      | ok data =>
          exact ⟨fun _ _ none_ => (by cases none_), sound.own.return_ sound.distinct answered same outcome⟩
    · have result : r' = _ := proceed_of_part fits split_ whole
      rw [result]
      refine ⟨fun request' received' holds => ?_, sound.own⟩
      cases holds
      exact .inr ⟨answered_all, whole, response, answered, fits, same, split_⟩

/-- The server answers the oldest request. -/
theorem Sound.answer (sound : r.Sound loads repr) {first response : Frame} {rest : List Frame}
    (pending : r.requests = first :: rest) (fits : response.Fits)
    (same : response.correlationId = first.correlationId) :
    let r' : ClientRun := { r with
      requests := rest
      responses := r.responses ++ response.encoding
      answered := r.answered ++ [response] }
    (∀ request received, r'.current = some (request, received) → r'.Reading request received) ∧
      r'.OwnAnswers loads repr := by
  intro r'
  have here : first ∈ r.requests := by simp [pending]
  constructor
  · intro request received holds
    rcases sound.reading request received holds with ⟨last, nothing, begin_⟩ | ⟨none_, -⟩
    · -- the answer to the request that is being waited for
      obtain ⟨rfl, rfl⟩ := List.cons_eq_cons.mp (pending.symm.trans last)
      refine .inr ⟨rfl, ?_, response, List.mem_append_right _ List.mem_cons_self, fits, same, ?_⟩
      · exact List.append_ne_nil_of_right_ne_nil _ (Frame.encoding_ne_nil _)
      · show response.encoding = received ++ (r.responses ++ response.encoding)
        rw [nothing, begin_, List.nil_append, List.nil_append]
    · rw [pending] at none_
      cases none_
  · apply sound.own.answer
    intro answered member
    rw [same]
    exact sound.distinct.not_answered here member

theorem Sound.step (sound : r.Sound loads repr) (op : ClientOp) (synced : r.Synced op) :
    Sound loads repr (r.step loads repr op) := by
  have distinct : (r.step loads repr op).Distinct := sound.distinct.step op
  suffices others : (∀ request received, (r.step loads repr op).current = some (request, received) →
      (r.step loads repr op).Reading request received) ∧ (r.step loads repr op).OwnAnswers loads repr from
    ⟨distinct, others.1, others.2⟩
  clear distinct
  cases op with
  | start apiKey payload =>
      rw [ClientRun.step]
      split <;> exact ⟨sound.reading, sound.own⟩
  | send i =>
      rw [ClientRun.step]
      split
      · next request free found =>
          obtain ⟨inside, -⟩ := List.getElem?_eq_some_iff.mp found
          obtain ⟨answered_all, received_all⟩ := synced free inside
          refine ⟨fun request' received' holds => ?_, sound.own⟩
          cases holds
          exact .inl ⟨by rw [answered_all, List.nil_append], received_all, rfl⟩
      · exact ⟨sound.reading, sound.own⟩
  | answer payload =>
      rw [ClientRun.step]
      split
      · exact ⟨sound.reading, sound.own⟩
      · next first rest pending =>
          dsimp only
          split
          · exact ⟨sound.reading, sound.own⟩
          · next bytes encoded =>
              obtain ⟨fits, rfl⟩ := Frame.toBytes_eq_ok_iff.mp encoded
              exact sound.answer pending fits rfl
  | receive size =>
      rw [ClientRun.step]
      split
      · exact ⟨sound.reading, sound.own⟩
      · next request received current =>
          split
          · next enabled => exact sound.receive (sound.reading request received current) enabled.1 enabled.2.2
          · exact ⟨sound.reading, sound.own⟩
  | timeout => exact ⟨fun _ _ none_ => (by cases none_), sound.own⟩

/-- **In a run in which every request is sent on a synced connection, each returns
the data of its own response.** -/
theorem run_ownAnswers (loads : List UInt8 → Except Raised Value) (repr : Value → String)
    {ops : List ClientOp} (synced : Guarded (step loads repr) Synced {} ops) :
    OwnAnswers loads repr (run (step loads repr) {} ops) := by
  have preserved : ∀ r op, Sound loads repr r → r.Synced op → Sound loads repr (r.step loads repr op) :=
    fun _ op sound synced => sound.step op synced
  exact (run_invariant preserved sound_empty synced).own

/-- Only the thread that holds the lock waits for anything. -/
def Drained (r : ClientRun) : Prop := r.current = none → r.requests = [] ∧ r.responses = []

theorem Drained.step (drained : r.Drained) (sound : r.Sound loads repr) {op : ClientOp}
    (received_ : op ≠ .timeout) : (r.step loads repr op).Drained := by
  cases op with
  | start apiKey payload =>
      rw [ClientRun.step]
      split <;> exact drained
  | send i =>
      rw [ClientRun.step]
      split
      · intro free
        cases free
      · exact drained
  | answer payload =>
      rw [ClientRun.step]
      split
      · exact drained
      · next request requests pending =>
          have busy : r.current ≠ none := fun free => by
            have none_ := (drained free).1
            rw [pending] at none_
            cases none_
          dsimp only
          split <;> exact fun free => absurd free busy
  | receive size =>
      rw [ClientRun.step]
      split
      · exact drained
      · next request received current =>
          split
          · next enabled =>
              rcases sound.reading request received current with
                ⟨-, nothing, -⟩ | ⟨answered_all, -, response, -, fits, -, split_⟩
              · rw [nothing, List.length_nil] at enabled
                omega
              · rw [← List.take_append_drop size r.responses, ← List.append_assoc] at split_
                intro free
                by_cases whole : r.responses.drop size = []
                · unfold proceed conclude
                  split
                  · split <;> exact ⟨answered_all, whole⟩
                  · exact ⟨answered_all, whole⟩
                · rw [proceed_of_part fits split_ whole] at free
                  cases free
          · exact drained
  | timeout => exact absurd rfl received_

/-- Only a timeout makes a run that is not synced. -/
theorem guarded_synced {ops : List ClientOp} (received_ : ∀ op ∈ ops, op ≠ .timeout) :
    Guarded (step loads repr) Synced {} ops := by
  have met : ∀ (r : ClientRun) (op : ClientOp), r.Sound loads repr ∧ r.Drained → op ≠ .timeout →
      r.Synced op ∧ (r.step loads repr op).Sound loads repr ∧ (r.step loads repr op).Drained := by
    rintro r op ⟨sound, drained⟩ received_
    have synced : r.Synced op := by
      cases op with
      | send i => exact fun free _ => drained free
      | start _ _ | answer _ | receive _ | timeout => trivial
    exact ⟨synced, sound.step op synced, drained.step sound received_⟩
  exact guarded_of_invariant met ⟨sound_empty, fun _ => ⟨rfl, rfl⟩⟩ received_

/-! ## A request after a timeout -/

def heartbeatText : List UInt8 := "\x7b\"error_code\": 0, \"data\": \x7b\"status\": \"alive\"\x7d\x7d".toUTF8.data.toList

def deletedText : List UInt8 := "\x7b\"error_code\": 0, \"data\": \x7b\"deleted\": true\x7d\x7d".toUTF8.data.toList

/-- `json.loads` on the two texts. -/
def loadsTexts (bytes : List UInt8) : Except Raised Value :=
  if bytes = heartbeatText then
    .ok (.dict [(.str "error_code", .int 0), (.str "data", .dict [(.str "status", .str "alive")])])
  else if bytes = deletedText then
    .ok (.dict [(.str "error_code", .int 0), (.str "data", .dict [(.str "deleted", .bool true)])])
  else .error .recursionError

/-- Two requests, the second one sent first, and a timeout on a third. -/
def orderlyOps : List ClientOp :=
  [.start .heartbeat [], .start .deleteTopics [], .send 1, .answer deletedText, .receive 4, .receive 52,
    .send 0, .receive 1, .answer heartbeatText, .receive 4, .receive 50, .receive 4,
    .start .heartbeat [], .send 0, .timeout]

theorem orderlyOps_ownAnswers :
    OwnAnswers loadsTexts (fun _ => "") (run (step loadsTexts fun _ => "") {} orderlyOps) :=
  run_ownAnswers loadsTexts (fun _ => "") (by decide +kernel)

/-- The first request times out, and the second is sent on the same connection. -/
def staleOps : List ClientOp :=
  [.start .deleteTopics [], .send 0, .timeout, .start .heartbeat [], .send 0, .answer deletedText,
    .receive 4, .receive 52, .answer heartbeatText]

def dataKeys : Value → List String
  | .dict entries => entries.filterMap fun e => match e.1 with
      | .str key => some key
      | _ => none
  | _ => []


/-- The second request returns the data of the answer to the first. -/
theorem stale_answer_returned :
    let r := run (step loadsTexts fun _ => "") {} staleOps
    r.returned.map (fun e => (e.1.correlationId, dataKeys e.2)) = [(2, ["deleted"])] ∧
      r.answered.map (fun f => (f.correlationId,
        (answerOf loadsTexts (fun _ => "") f.encoding).toOption.map dataKeys)) =
          [(1, some ["deleted"]), (2, some ["status"])] ∧
      ¬ r.OwnAnswers loadsTexts fun _ => "" := by
  intro r
  have returned : r.returned.map (fun e => (e.1.correlationId, dataKeys e.2)) = [(2, ["deleted"])] := by
    decide +kernel
  have answered : r.answered.map (fun f => (f.correlationId,
      (answerOf loadsTexts (fun _ => "") f.encoding).toOption.map dataKeys)) =
        [(1, some ["deleted"]), (2, some ["status"])] := by decide +kernel
  refine ⟨returned, answered, fun own => ?_⟩
  obtain ⟨e, only, stale⟩ := List.map_eq_singleton_iff.mp returned
  have second : ((2 : ℤ), some ["status"]) ∈ r.answered.map (fun f => (f.correlationId,
      (answerOf loadsTexts (fun _ => "") f.encoding).toOption.map dataKeys)) := by simp [answered]
  obtain ⟨response, member, due⟩ := List.mem_map.mp second
  obtain ⟨id_eq, keys⟩ := Prod.mk.inj stale
  obtain ⟨id_eq', due⟩ := Prod.mk.inj due
  have own := (own e (by simp [only])).2 response member (id_eq'.trans id_eq.symm)
  rw [own] at due
  simp [Except.toOption, keys] at due

end ClientRun

end BrokerLite
