/-
# Wire.CorrelationIds -- the ids that a client gives to its requests

A client counts its requests from one for as long as it lives, over any number of
connections, and hands the count to `encode_request`.  The count has no bound; the
field of the header that carries it is a signed number of 32 bits.

A thread that sends a request looks for a connection first and takes its id later,
so the connection may be closed in between.
-/
import BrokerLite.Wire.ClientRun
import BrokerLite.Wire.Grammar

namespace BrokerLite

open Theory

set_option autoImplicit false

section Encode

/- `dumps` is `json.dumps(data).encode("utf-8")`. -/
variable (dumps : Value → Except Raised (List UInt8))

def Request.toFrame (r : Request) : Except Raised Frame := do
  let payload ← dumps r.data
  return { apiKey := r.apiKey, apiVersion := r.apiVersion, correlationId := r.correlationId, payload }

def encodeRequest (apiKey : ApiKey) (correlationId : ℤ) (data : Value) (apiVersion : ℤ := 1) :
    Except Raised (List UInt8) := do
  let req := Request.new apiKey apiVersion correlationId data
  (← req.toFrame dumps).toBytes

variable {dumps} {data : Value} {payload : List UInt8}

/-- A request of a dict that has a text is the frame of that text. -/
theorem encodeRequest_of_text {entries : List (Value × Value)} (text : dumps (.dict entries) = .ok payload)
    (apiKey : ApiKey) (correlationId : ℤ) :
    encodeRequest dumps apiKey correlationId (.dict entries) =
      Frame.toBytes { apiKey, apiVersion := 1, correlationId, payload } := by
  simp [encodeRequest, Request.toFrame, Request.new, text, bind, Except.bind, pure, Except.pure]

end Encode

/-! ## The requests of a client -/

/-- A request that has its id, and what `encode_request` made of it. -/
structure IssuedRequest where
  apiKey : ApiKey
  data : List (Value × Value)
  correlationId : ℤ
  encoded : Except Raised (List UInt8)

/-- The fields of a client that a request reads before it waits for the lock. -/
structure RequestIds where
  correlationId : ℕ := 0
  connected : Bool := false
  socket : Bool := false
  /-- The threads that have found a connection and take their id next. -/
  entered : ℕ := 0
  /-- The requests in the order of their ids. -/
  issued : List IssuedRequest := []

inductive ClientCall where
  /-- The broker accepts the connection, or `connect` raises. -/
  | connect (accepted : Bool)
  | close
  /-- `_send_request` begins; without a connection it ends here. -/
  | enter
  /-- A thread that has entered takes an id and encodes its request. -/
  | issue (apiKey : ApiKey) (data : List (Value × Value))

namespace RequestIds

/-- `_next_correlation_id`: the id, and the client afterwards. -/
def nextCorrelationId (r : RequestIds) : ℕ × RequestIds :=
  (r.correlationId + 1, { r with correlationId := r.correlationId + 1 })

def step (dumps : Value → Except Raised (List UInt8)) (r : RequestIds) : ClientCall → RequestIds
  | .connect accepted => { r with socket := true, connected := accepted || r.connected }
  | .close => { r with connected := false, socket := false }
  | .enter => if !r.connected || !r.socket then r else { r with entered := r.entered + 1 }
  | .issue apiKey data =>
      if r.entered = 0 then r
      else
        let (cid, r) := r.nextCorrelationId
        let encoded := encodeRequest dumps apiKey cid (.dict data)
        { r with
          entered := r.entered - 1
          issued := r.issued ++ [{ apiKey, data, correlationId := cid, encoded }] }

end RequestIds

variable {dumps : Value → Except Raised (List UInt8)}

/-! ## One request -/

namespace IssuedRequest

/-- The data has a text, and the text is not too long for a frame. -/
def WithinLimit (dumps : Value → Except Raised (List UInt8)) (e : IssuedRequest) : Prop :=
  ∃ payload, dumps (.dict e.data) = .ok payload ∧ 8 + payload.length < 2 ^ 32

/-- The request is encoded, and its frame carries its id. -/
def RoundTrips (e : IssuedRequest) : Prop :=
  ∃ bytes f, e.encoded = .ok bytes ∧ Frame.fromBytes bytes = .ok f ∧ f.correlationId = e.correlationId

/-- The `n`-th request of a client. -/
structure IsNth (dumps : Value → Except Raised (List UInt8)) (n : ℕ) (e : IssuedRequest) : Prop where
  id_eq : e.correlationId = n
  encoded_eq : e.encoded = encodeRequest dumps e.apiKey e.correlationId (.dict e.data)

variable {e : IssuedRequest} {n : ℕ}

/-- The `n`-th request is the frame of its text with `n` for an id. -/
theorem IsNth.encoded_of_text (nth : e.IsNth dumps n) {payload : List UInt8}
    (text : dumps (.dict e.data) = .ok payload) :
    e.encoded = Frame.toBytes { apiKey := e.apiKey, apiVersion := 1, correlationId := n, payload } := by
  rw [nth.encoded_eq, encodeRequest_of_text text, nth.id_eq]

/-- A frame of a request that is not too long fits unless its id is too large. -/
theorem fits_iff_id {apiKey : ApiKey} {payload : List UInt8} (short : 8 + payload.length < 2 ^ 32) :
    Frame.Fits { apiKey, apiVersion := 1, correlationId := n, payload } ↔ n ≤ 2 ^ 31 - 1 := by
  rw [Frame.fits_iff]
  have length : Frame.frameLength { apiKey, apiVersion := 1, correlationId := n, payload } =
      8 + payload.length := rfl
  constructor
  · rintro ⟨-, range⟩
    have correlation := range.correlation
    dsimp only at correlation
    omega
  · intro small
    refine ⟨by omega, ?_, ?_⟩ <;> dsimp only <;> omega

theorem IsNth.roundTrips_iff (nth : e.IsNth dumps n) (within : e.WithinLimit dumps) :
    e.RoundTrips ↔ n ≤ 2 ^ 31 - 1 := by
  obtain ⟨payload, text, short⟩ := within
  rw [← fits_iff_id short]
  have encoded := nth.encoded_of_text text
  constructor
  · rintro ⟨bytes, f, done, -, -⟩
    rw [encoded] at done
    exact (Frame.toBytes_eq_ok_iff.mp done).1
  · intro fits
    refine ⟨_, _, ?_, Frame.fromBytes_encoding fits, nth.id_eq.symm⟩
    rw [encoded]
    exact Frame.toBytes_eq_ok_iff.mpr ⟨fits, rfl⟩

/-- Past the field, `struct.pack` raises. -/
theorem IsNth.structError (nth : e.IsNth dumps n) (within : e.WithinLimit dumps) (large : 2 ^ 31 ≤ n) :
    e.encoded = .error .structError := by
  obtain ⟨payload, text, -⟩ := within
  rw [nth.encoded_of_text text, Frame.toBytes, packHeader, if_neg]
  rintro ⟨-, -, -, -, below⟩
  dsimp only at below
  omega

end IssuedRequest

/-- On one connection a request is started as it is issued here: with the next id,
and to wait for the lock if `encode_request` gives its bytes. -/
theorem ClientRun.step_start (loads : List UInt8 → Except Raised Value) (repr : Value → String)
    (r : ClientRun) {apiKey : ApiKey} {data : List (Value × Value)} {payload : List UInt8}
    (text : dumps (.dict data) = .ok payload) :
    match encodeRequest dumps apiKey (r.correlationId + 1) (.dict data) with
    | .error _ => r.step loads repr (.start apiKey payload) =
        { r with correlationId := r.correlationId + 1 }
    | .ok bytes => ∃ request : Frame, request.encoding = bytes ∧
        r.step loads repr (.start apiKey payload) =
          { r with correlationId := r.correlationId + 1, waiting := r.waiting ++ [request] } := by
  rw [encodeRequest_of_text text, ClientRun.step]
  push_cast
  split
  · next raised refused => rw [refused]
  · next bytes encoded =>
      rw [encoded]
      exact ⟨_, (Frame.toBytes_eq_ok_iff.mp encoded).2.symm, rfl⟩

/-! ## Runs -/

namespace RequestIds

/-- The requests have the ids from one on. -/
structure Counted (dumps : Value → Except Raised (List UInt8)) (r : RequestIds) : Prop where
  length : r.issued.length = r.correlationId
  nth : ∀ i (e : IssuedRequest), r.issued[i]? = some e → e.IsNth dumps (i + 1)

theorem counted_empty : Counted dumps {} where
  length := rfl
  nth i e found := by simp at found

theorem Counted.step {r : RequestIds} (counted : r.Counted dumps) (call : ClientCall) :
    (r.step dumps call).Counted dumps := by
  cases call with
  | connect accepted => exact ⟨counted.length, counted.nth⟩
  | close => exact ⟨counted.length, counted.nth⟩
  | enter =>
      rw [RequestIds.step]
      split <;> exact ⟨counted.length, counted.nth⟩
  | issue apiKey data =>
      rw [RequestIds.step]
      split
      · exact counted
      · constructor
        · simp [nextCorrelationId, counted.length]
        · intro i e found
          simp only [nextCorrelationId] at found
          rcases lt_trichotomy i r.issued.length with old | here | outside
          · rw [List.getElem?_append_left old] at found
            exact counted.nth i e found
          · -- the request that is new has the length of the list for its index
            subst here
            rw [List.getElem?_concat_length] at found
            cases found
            rw [counted.length]
            exact ⟨rfl, rfl⟩
          · rw [List.getElem?_eq_none (by simp; omega)] at found
            cases found

theorem counted_run (dumps : Value → Except Raised (List UInt8)) (calls : List ClientCall) :
    Counted dumps (run (step dumps) {} calls) :=
  run_preserves (fun _ call counted => counted.step call) counted_empty calls

/-- **The `n`-th request of a client has the id `n`, and it goes out with that id
exactly if the id fits a signed field of 32 bits.** -/
theorem run_roundTrips_iff (dumps : Value → Except Raised (List UInt8)) (calls : List ClientCall) {n : ℕ}
    (positive : 1 ≤ n) {e : IssuedRequest} (nth : (run (step dumps) {} calls).issued[n - 1]? = some e)
    (within : e.WithinLimit dumps) :
    e.correlationId = n ∧ (e.RoundTrips ↔ n ≤ 2 ^ 31 - 1) ∧
      (2 ^ 31 ≤ n → e.encoded = .error .structError) := by
  have isNth := (counted_run dumps calls).nth (n - 1) e nth
  rw [Nat.sub_add_cancel positive] at isNth
  exact ⟨isNth.id_eq, isNth.roundTrips_iff within, isNth.structError within⟩

/-- Two requests, and a connection that is closed after the second has entered. -/
def shortCalls : List ClientCall :=
  [.connect true, .enter, .enter, .issue .heartbeat [], .close, .issue .heartbeat [], .enter]

/-- `json.dumps` on an empty dict: two braces. -/
def dumpsEmpty : Value → Except Raised (List UInt8)
  | .dict [] => .ok [0x7b, 0x7d]
  | _ => .error (.typeError "")

theorem shortCalls_roundTrips : ∃ e, (run (step dumpsEmpty) {} shortCalls).issued[2 - 1]? = some e ∧
    e.correlationId = 2 ∧ e.RoundTrips := by
  obtain ⟨e, nth⟩ : ∃ e, (run (step dumpsEmpty) {} shortCalls).issued[2 - 1]? = some e := ⟨_, rfl⟩
  have within : e.WithinLimit dumpsEmpty := by
    cases nth
    exact ⟨_, rfl, by decide⟩
  obtain ⟨id_eq, iff, -⟩ := run_roundTrips_iff dumpsEmpty shortCalls (by decide : 1 ≤ 2) nth within
  exact ⟨e, nth, id_eq, iff.mpr (by decide)⟩

/-- A client that connects and asks for the topics so many times. -/
def listTopicsCalls (n : ℕ) : List ClientCall :=
  .connect true :: (List.replicate n [.enter, .issue .metadata []]).flatten

/-- A connected client issues a request. -/
theorem run_enter_issue (dumps : Value → Except Raised (List UInt8)) {r : RequestIds}
    (connected : r.connected = true) (socket : r.socket = true) (apiKey : ApiKey)
    (data : List (Value × Value)) :
    ∃ e : IssuedRequest, e.data = data ∧ run (step dumps) r [.enter, .issue apiKey data] =
      { r with correlationId := r.correlationId + 1, issued := r.issued ++ [e] } := by
  have entered : r.step dumps .enter = { r with entered := r.entered + 1 } := by
    simp [step, connected, socket]
  rw [run_cons, entered]
  exact ⟨_, rfl, rfl⟩

theorem run_listTopics (dumps : Value → Except Raised (List UInt8)) (n : ℕ) {r : RequestIds}
    (connected : r.connected = true) (socket : r.socket = true) (empty : ∀ e ∈ r.issued, e.data = []) :
    let r' := run (step dumps) r (List.replicate n [ClientCall.enter, .issue .metadata []]).flatten
    r'.issued.length = r.issued.length + n ∧ ∀ e ∈ r'.issued, e.data = [] := by
  induction n generalizing r with
  | zero => exact ⟨rfl, empty⟩
  | succ n ih =>
      obtain ⟨e, data, one⟩ := run_enter_issue dumps connected socket .metadata []
      rw [List.replicate_succ, List.flatten_cons, run_append, one]
      have empty' : ∀ e' ∈ r.issued ++ [e], e'.data = [] := by
        intro e' member
        rcases List.mem_append.mp member with old | last
        · exact empty e' old
        · rw [List.mem_singleton.mp last, data]
      obtain ⟨length, all⟩ := ih (r := { r with
        correlationId := r.correlationId + 1, issued := r.issued ++ [e] }) connected socket empty'
      refine ⟨?_, all⟩
      rw [length, List.length_append, List.length_singleton]
      omega

/-- A client that has asked for the topics often enough has an `n`-th request. -/
theorem nth_listTopics {n times : ℕ} (inside : n < times) :
    ∃ e, (run (step dumpsEmpty) {} (listTopicsCalls times)).issued[n]? = some e ∧
      e.IsNth dumpsEmpty (n + 1) ∧ e.WithinLimit dumpsEmpty := by
  obtain ⟨length, empty⟩ := run_listTopics dumpsEmpty times
    (r := ({} : RequestIds).step dumpsEmpty (.connect true)) rfl rfl fun e member => by cases member
  rw [← run_cons] at length empty
  have short : n < (run (step dumpsEmpty) {} (listTopicsCalls times)).issued.length := by
    rw [listTopicsCalls, length]
    exact Nat.lt_add_left _ inside
  have nth := List.getElem?_eq_getElem short
  refine ⟨_, nth, (counted_run dumpsEmpty _).nth n _ nth, ?_⟩
  rw [IssuedRequest.WithinLimit, empty _ (List.getElem_mem short)]
  exact ⟨_, rfl, by decide⟩

/-- The request number `2 ^ 31` of a client is not encoded. -/
theorem listTopics_not_encoded :
    ∃ e, (run (step dumpsEmpty) {} (listTopicsCalls (2 ^ 31))).issued[2 ^ 31 - 1]? = some e ∧
      e.WithinLimit dumpsEmpty ∧ e.encoded = .error .structError ∧ ¬ e.RoundTrips := by
  obtain ⟨e, nth, isNth, within⟩ := nth_listTopics (by decide : 2 ^ 31 - 1 < 2 ^ 31)
  refine ⟨e, nth, within, isNth.structError within le_rfl, ?_⟩
  rw [isNth.roundTrips_iff within]
  decide

end RequestIds

end BrokerLite
