/-
# Wire.Stream -- both readers of a byte stream that arrives in chunks

The server keeps a buffer: a chunk is appended, then every complete frame is
taken off and dispatched (`receive`).  The client asks the socket for exactly the
bytes it needs (`recvExactly`), first a length field and then that many bytes.

What `_dispatch` does is a parameter: it reads and writes a state of the
connection and the broker, and may raise.  `dispatchAll` is the meaning of a list
of frames: they are dispatched one after another until one raises.  Whatever the
chunks are, the server does just that with the frames that have arrived whole
(`feed_spec`), and the client reads the frames back (`readFrames_spec`).
-/
import BrokerLite.Wire.Protocol

namespace BrokerLite

open Theory

set_option autoImplicit false

/-! ## The server -/

/-- Why the handler's loop ended: a frame could not be read, or its dispatch raised. -/
inductive Stopped (ε : Type) where
  | read (raised : Raised)
  | dispatch (raised : ε)

/-- A handler, with the frames it has dispatched. -/
structure ClientHandler (σ : Type) where
  buffer : List UInt8 := []
  state : σ
  dispatched : List Frame := []

theorem Frame.readFromBuffer_shrinks {buffer rest : List UInt8} {f : Frame}
    (read : readFromBuffer buffer = .ok (some f, rest)) : rest.length < buffer.length := by
  unfold readFromBuffer at read
  split at read
  · cases read
  · dsimp only at read
    split at read
    · cases read
    · split at read
      · cases read
      · cases read
        rw [List.length_drop]
        omega

namespace ClientHandler

variable {σ ε : Type} (dispatch : σ → Frame → σ × Option ε)

/-- `_process_buffer`. -/
def processBuffer (h : ClientHandler σ) : Option (Stopped ε) × ClientHandler σ :=
  match read : Frame.readFromBuffer h.buffer with
  | .error raised => (some (.read raised), h)
  | .ok (none, rest) => (none, { h with buffer := rest })
  | .ok (some frame, rest) =>
      match dispatch h.state frame with
      | (state, some raised) => (some (.dispatch raised), ⟨rest, state, h.dispatched ++ [frame]⟩)
      | (state, none) =>
          have := Frame.readFromBuffer_shrinks read
          processBuffer ⟨rest, state, h.dispatched ++ [frame]⟩
termination_by h.buffer.length

/-- The body of the loop of `handle`, for data that was received. -/
def receive (h : ClientHandler σ) (data : List UInt8) : Option (Stopped ε) × ClientHandler σ :=
  processBuffer dispatch { h with buffer := h.buffer ++ data }

/-- The loop of `handle` over the data received while the connection is active;
an exception ends it. -/
def feed : ClientHandler σ → List (List UInt8) → Option (Stopped ε) × ClientHandler σ
  | h, [] => (none, h)
  | h, data :: rest =>
      match h.receive dispatch data with
      | (some stopped, h) => (some stopped, h)
      | (none, h) => feed h rest

/-- Dispatching the frames in order until one raises: what it raised, the state,
and the frames dispatched. -/
def dispatchAll : σ → List Frame → Option ε × σ × List Frame
  | state, [] => (none, state, [])
  | state, frame :: rest =>
      match dispatch state frame with
      | (state, some raised) => (some raised, state, [frame])
      | (state, none) =>
          let later := dispatchAll state rest
          (later.1, later.2.1, frame :: later.2.2)

theorem dispatchAll_of_raised {state after : σ} {f : Frame} {raised : ε}
    (outcome : dispatch state f = (after, some raised)) (rest : List Frame) :
    dispatchAll dispatch state (f :: rest) = (some raised, after, [f]) := by
  rw [dispatchAll, outcome]

theorem dispatchAll_of_returned {state after : σ} {f : Frame}
    (outcome : dispatch state f = (after, none)) (rest : List Frame) :
    dispatchAll dispatch state (f :: rest) = ((dispatchAll dispatch after rest).1,
      (dispatchAll dispatch after rest).2.1, f :: (dispatchAll dispatch after rest).2.2) := by
  rw [dispatchAll, outcome]

theorem dispatchAll_append (state : σ) (before after : List Frame) :
    dispatchAll dispatch state (before ++ after) =
      match dispatchAll dispatch state before with
      | (some raised, state, dispatched) => (some raised, state, dispatched)
      | (none, state, dispatched) =>
          let later := dispatchAll dispatch state after
          (later.1, later.2.1, dispatched ++ later.2.2) := by
  induction before generalizing state with
  | nil => simp [dispatchAll]
  | cons f rest ih =>
      rw [List.cons_append]
      rcases outcome : dispatch state f with ⟨next, _ | raised⟩
      · rw [dispatchAll_of_returned dispatch outcome, dispatchAll_of_returned dispatch outcome, ih]
        rcases dispatchAll dispatch next rest with ⟨_ | raised, final, dispatched⟩ <;> rfl
      · rw [dispatchAll_of_raised dispatch outcome, dispatchAll_of_raised dispatch outcome]

/-- When nothing raises, every frame is dispatched. -/
theorem dispatchAll_all {state : σ} {frames : List Frame}
    (returned : (dispatchAll dispatch state frames).1 = none) :
    (dispatchAll dispatch state frames).2.2 = frames := by
  induction frames generalizing state with
  | nil => rfl
  | cons f rest ih =>
      rcases outcome : dispatch state f with ⟨after, _ | raised⟩
      · rw [dispatchAll_of_returned dispatch outcome] at returned ⊢
        rw [ih returned]
      · rw [dispatchAll_of_raised dispatch outcome] at returned
        cases returned

theorem dispatchAll_returned (state : σ) {frames : List Frame}
    (returns : ∀ s, ∀ f ∈ frames, (dispatch s f).2 = none) :
    (dispatchAll dispatch state frames).1 = none := by
  induction frames generalizing state with
  | nil => rfl
  | cons f rest ih =>
      have outcome : dispatch state f = ((dispatch state f).1, none) :=
        Prod.ext rfl (returns state f List.mem_cons_self)
      rw [dispatchAll_of_returned dispatch outcome]
      exact ih _ fun s g member => returns s g (List.mem_cons_of_mem f member)

/-! ## What the server does with a stream of frames -/

/-- From `h` exactly the frames `due` were dispatched, in order and each once,
until one raised; reading them raised nothing. -/
structure Dispatched (h : ClientHandler σ) (due : List Frame)
    (done : Option (Stopped ε) × ClientHandler σ) : Prop where
  outcome : done.1 = (dispatchAll dispatch h.state due).1.map .dispatch
  state : done.2.state = (dispatchAll dispatch h.state due).2.1
  frames : done.2.dispatched = h.dispatched ++ (dispatchAll dispatch h.state due).2.2

section Server

variable {dispatch} {h : ClientHandler σ} {frames : List Frame}

theorem Dispatched.nil (h : ClientHandler σ) : Dispatched dispatch h [] (none, h) :=
  ⟨rfl, rfl, (List.append_nil _).symm⟩

theorem Dispatched.all {due : List Frame} {done : Option (Stopped ε) × ClientHandler σ}
    (dispatched : Dispatched dispatch h due done) (returned : done.1 = none) :
    done.2.dispatched = h.dispatched ++ due := by
  have outcome := dispatched.outcome.symm.trans returned
  rw [dispatched.frames, dispatchAll_all dispatch (Option.map_eq_none_iff.mp outcome)]

theorem Dispatched.stopped {before : List Frame} {stop : Stopped ε} {after : ClientHandler σ}
    (first : Dispatched dispatch h before (some stop, after)) (rest : List Frame) :
    Dispatched dispatch h (before ++ rest) (some stop, after) := by
  have result := dispatchAll_append dispatch h.state before rest
  obtain ⟨outcome, state, frames⟩ := first
  rcases all : dispatchAll dispatch h.state before with ⟨_ | raised, last, dispatched⟩
  · rw [all] at outcome
    cases outcome
  · rw [all] at result outcome state frames
    exact ⟨by rw [result]; exact outcome, by rw [result]; exact state, by rw [result]; exact frames⟩

theorem Dispatched.append {before due : List Frame} {mid : ClientHandler σ}
    {done : Option (Stopped ε) × ClientHandler σ} (first : Dispatched dispatch h before (none, mid))
    (second : Dispatched dispatch mid due done) : Dispatched dispatch h (before ++ due) done := by
  have result := dispatchAll_append dispatch h.state before due
  obtain ⟨outcome, state, frames⟩ := first
  rcases all : dispatchAll dispatch h.state before with ⟨_ | raised, last, dispatched⟩
  · rw [all] at result state frames
    obtain rfl : mid.state = last := state
    refine ⟨by rw [result]; exact second.outcome, by rw [result]; exact second.state, ?_⟩
    rw [result, second.frames, frames, List.append_assoc]
  · rw [all] at outcome
    cases outcome

theorem processBuffer_of_none (read : Frame.readFromBuffer h.buffer = .ok (none, h.buffer)) :
    processBuffer dispatch h = (none, h) := by
  rw [processBuffer]
  split <;> simp_all

theorem processBuffer_of_some {f : Frame} {rest : List UInt8}
    (read : Frame.readFromBuffer h.buffer = .ok (some f, rest)) :
    processBuffer dispatch h =
      match dispatch h.state f with
      | (state, some raised) => (some (.dispatch raised), ⟨rest, state, h.dispatched ++ [f]⟩)
      | (state, none) => processBuffer dispatch ⟨rest, state, h.dispatched ++ [f]⟩ := by
  rw [processBuffer]
  split <;> simp_all

/-- The frames that are in the buffer are dispatched, and taken off it. -/
theorem processBuffer_spec (dispatch : σ → Frame → σ × Option ε) (h : ClientHandler σ)
    (fits : ∀ f ∈ frames, f.Fits)
    (prefixed : h.buffer <+: frames.flatMap Frame.encoding) :
    Dispatched dispatch h (complete Frame.encoding h.buffer.length frames) (processBuffer dispatch h) ∧
      ((processBuffer dispatch h).1 = none → h.buffer =
        (complete Frame.encoding h.buffer.length frames).flatMap Frame.encoding ++
          (processBuffer dispatch h).2.buffer) := by
  induction frames generalizing h with
  | nil =>
      have empty : h.buffer = [] := List.prefix_nil.mp prefixed
      have read : Frame.readFromBuffer h.buffer = .ok (none, h.buffer) := by rw [empty]; rfl
      rw [processBuffer_of_none read]
      exact ⟨.nil h, fun _ => rfl⟩
  | cons f rest ih =>
      have fit := fits f List.mem_cons_self
      rcases prefix_cases prefixed with ⟨more, buffer, later⟩ | ⟨missing, awaited, whole⟩
      · have read := Frame.readFromBuffer_reader.whole f more fit
        rw [← buffer] at read
        have due : complete Frame.encoding h.buffer.length (f :: rest) =
            f :: complete Frame.encoding more.length rest := by
          rw [complete_cons_of_le (by simp [buffer]), buffer, List.length_append,
            Nat.add_sub_cancel_left]
        rw [due, processBuffer_of_some read]
        rcases outcome : dispatch h.state f with ⟨state, _ | raised⟩
        · have one : Dispatched dispatch h [f] (none, ⟨more, state, h.dispatched ++ [f]⟩) := by
            constructor <;> simp [dispatchAll, outcome]
          obtain ⟨dispatched, left⟩ := ih ⟨more, state, h.dispatched ++ [f]⟩
            (fun g member => fits g (List.mem_cons_of_mem f member)) later
          refine ⟨one.append dispatched, fun returned => ?_⟩
          rw [buffer, List.flatMap_cons, List.append_assoc]
          exact congrArg (f.encoding ++ ·) (left returned)
        · have one : Dispatched dispatch h [f]
              (some (.dispatch raised), ⟨more, state, h.dispatched ++ [f]⟩) := by
            constructor <;> simp [dispatchAll, outcome]
          exact ⟨one.stopped _, fun returned => by cases returned⟩
      · have read := Frame.readFromBuffer_reader.part f h.buffer missing fit awaited whole
        have short : h.buffer.length < f.encoding.length := by
          have positive := List.length_pos_iff.mpr awaited
          rw [whole, List.length_append]
          omega
        rw [complete_cons_of_lt short, processBuffer_of_none read]
        exact ⟨.nil h, fun _ => rfl⟩

/-- One chunk: what it completes is dispatched. -/
theorem receive_spec (dispatch : σ → Frame → σ × Option ε) (h : ClientHandler σ)
    (fits : ∀ f ∈ frames, f.Fits) {data : List UInt8}
    (prefixed : h.buffer ++ data <+: frames.flatMap Frame.encoding) :
    Dispatched dispatch h (complete Frame.encoding (h.buffer ++ data).length frames)
        (receive dispatch h data) ∧
      ((receive dispatch h data).1 = none → h.buffer ++ data =
        (complete Frame.encoding (h.buffer ++ data).length frames).flatMap Frame.encoding ++
          (receive dispatch h data).2.buffer) := by
  obtain ⟨⟨outcome, state, dispatched⟩, left⟩ := processBuffer_spec dispatch
    { h with buffer := h.buffer ++ data } fits prefixed
  exact ⟨⟨outcome, state, dispatched⟩, left⟩

/-- **Whatever the chunks are, the frames that have arrived whole are dispatched**
and taken off the buffer, in order, until a dispatch raises. -/
theorem feed_spec (dispatch : σ → Frame → σ × Option ε) (h : ClientHandler σ)
    (fits : ∀ f ∈ frames, f.Fits) {chunks : List (List UInt8)}
    (pending : complete Frame.encoding h.buffer.length frames = [])
    (prefixed : h.buffer ++ chunks.flatten <+: frames.flatMap Frame.encoding) :
    Dispatched dispatch h (complete Frame.encoding (h.buffer ++ chunks.flatten).length frames)
        (feed dispatch h chunks) ∧
      ((feed dispatch h chunks).1 = none → h.buffer ++ chunks.flatten =
        (complete Frame.encoding (h.buffer ++ chunks.flatten).length frames).flatMap Frame.encoding ++
          (feed dispatch h chunks).2.buffer) := by
  induction chunks generalizing h frames with
  | nil =>
      rw [List.flatten_nil, List.append_nil, pending]
      exact ⟨.nil h, fun _ => rfl⟩
  | cons data later ih =>
      rw [List.flatten_cons, ← List.append_assoc] at prefixed ⊢
      obtain ⟨rest, frames_eq⟩ := prefix_complete Frame.encoding (h.buffer ++ data).length
        frames
      obtain ⟨now, left⟩ := receive_spec dispatch h fits
        ((List.prefix_append _ _).trans prefixed)
      rw [feed]
      rcases done : receive dispatch h data with ⟨_ | stop, after⟩
      · rw [done] at now left
        have taken := left rfl
        obtain ⟨more, kept⟩ := ih after
          (fun f member => fits f (frames_eq ▸ List.mem_append_right _ member))
          (complete_left frames_eq.symm taken) (prefix_left frames_eq.symm taken prefixed)
        have due := complete_later frames_eq.symm taken later.flatten
        dsimp only at due ⊢
        rw [due]
        refine ⟨now.append more, fun returned => ?_⟩
        have joined := congrArg (· ++ later.flatten) taken
        refine (joined.trans (List.append_assoc ..)).trans ?_
        rw [List.flatMap_append, List.append_assoc]
        exact congrArg (_ ++ ·) (kept returned)
      · rw [done] at now
        obtain ⟨others, due⟩ := complete_mono Frame.encoding
          (by simp : (h.buffer ++ data).length ≤ (h.buffer ++ data ++ later.flatten).length) frames
        rw [← due]
        exact ⟨now.stopped others, fun returned => by cases returned⟩

end Server

end ClientHandler

/-! ## The client -/

/-- What is still to be received: the chunks that have not been taken yet. -/
abbrev Incoming := List (List UInt8)

/-- `recv(n)`: at most `n` bytes of the next chunk, and nothing when the
connection is closed. -/
def recv (n : ℕ) : Incoming → List UInt8 × Incoming
  | [] => ([], [])
  | chunk :: rest => (chunk.take n, if chunk.length ≤ n then rest else chunk.drop n :: rest)

namespace BrokerClient

/-- The loop of `_recv_exactly`, with what it has received so far. -/
def recvLoop (n : ℕ) (data : List UInt8) (incoming : Incoming) : Except Raised (List UInt8 × Incoming) :=
  if short : data.length < n then
    let received := recv (n - data.length) incoming
    if closed : received.1 = [] then .error (.connectionError "Connection closed by broker")
    else
      have : n - (data ++ received.1).length < n - data.length := by
        have positive := List.length_pos_iff.mpr closed
        rw [List.length_append]
        omega
      recvLoop n (data ++ received.1) received.2
  else .ok (data, incoming)
termination_by n - data.length
decreasing_by exact this

def recvExactly (n : ℕ) (incoming : Incoming) : Except Raised (List UInt8 × Incoming) :=
  recvLoop n [] incoming

def readResponse (incoming : Incoming) : Except Raised (List UInt8 × Incoming) :=
  match recvExactly 4 incoming with
  | .error raised => .error raised
  | .ok (header, incoming) =>
      match recvExactly (natOf header) incoming with
      | .error raised => .error raised
      | .ok (body, incoming) => .ok (header ++ body, incoming)

/-- `_read_response` and `Frame.from_bytes`, `count` times. -/
def readFrames : ℕ → Incoming → Except Raised (List Frame × Incoming)
  | 0, incoming => .ok ([], incoming)
  | count + 1, incoming =>
      match readResponse incoming with
      | .error raised => .error raised
      | .ok (data, incoming) =>
          match Frame.fromBytes data with
          | .error raised => .error raised
          | .ok frame =>
              match readFrames count incoming with
              | .error raised => .error raised
              | .ok (frames, incoming) => .ok (frame :: frames, incoming)

/-- The bytes that are to come are `bytes`, in chunks that are not empty. -/
structure Carries (incoming : Incoming) (bytes : List UInt8) : Prop where
  bytes : incoming.flatten = bytes
  nonempty : ∀ chunk ∈ incoming, chunk ≠ []

/-- Nothing is to come. -/
theorem Carries.eq_nil {incoming : Incoming} (carries : Carries incoming []) : incoming = [] :=
  List.eq_nil_iff_forall_not_mem.mpr fun chunk member =>
    carries.nonempty chunk member (List.flatten_eq_nil_iff.mp carries.bytes chunk member)

theorem Carries.recv {incoming : Incoming} {bytes : List UInt8} (carries : Carries incoming bytes)
    {n : ℕ} (pos : 0 < n) (some_ : bytes ≠ []) : ∃ first rest, bytes = first ++ rest ∧ first ≠ [] ∧
      first.length ≤ n ∧ (recv n incoming).1 = first ∧ Carries (recv n incoming).2 rest := by
  obtain ⟨rfl, nonempty⟩ := carries
  cases incoming with
  | nil => exact absurd rfl some_
  | cons chunk later =>
      have full := nonempty chunk List.mem_cons_self
      have others : ∀ c ∈ later, c ≠ [] := fun c member => nonempty c (List.mem_cons_of_mem _ member)
      refine ⟨chunk.take n, chunk.drop n ++ later.flatten, ?_, ?_, List.length_take_le n chunk, rfl, ?_⟩
      · rw [← List.append_assoc, List.take_append_drop, List.flatten_cons]
      · simp [full, pos.ne']
      · rw [BrokerLite.recv]
        dsimp only
        split
        · next short => exact ⟨by simp [List.drop_of_length_le short], others⟩
        · next long =>
            refine ⟨List.flatten_cons, fun c member => ?_⟩
            rcases List.mem_cons.mp member with rfl | later
            · simpa using long
            · exact others c later

/-- `_recv_exactly` takes the next `n` bytes, whatever the chunks are. -/
theorem recvLoop_spec {n : ℕ} {data wanted rest : List UInt8} {incoming : Incoming}
    (carries : Carries incoming (wanted ++ rest)) (size : data.length + wanted.length = n) :
    ∃ left, recvLoop n data incoming = .ok (data ++ wanted, left) ∧ Carries left rest := by
  induction missing : wanted.length using Nat.strong_induction_on generalizing data wanted incoming with
  | _ k ih =>
      rw [BrokerClient.recvLoop]
      by_cases short : data.length < n
      · have pos : 0 < n - data.length := by omega
        have more : wanted ≠ [] := by
          rintro rfl
          simp at size
          omega
        obtain ⟨first, later, split, some_, fits, received, carries'⟩ :=
          carries.recv pos (by simp [more])
        have whole : first <+: wanted ++ rest := ⟨later, split.symm⟩
        have inside : first <+: wanted :=
          List.prefix_of_prefix_length_le whole (List.prefix_append _ _) (by omega)
        obtain ⟨wanted', rfl⟩ := inside
        rw [List.append_assoc, List.append_cancel_left_eq] at split
        rw [dif_pos short]
        dsimp only
        rw [received, dif_neg some_]
        have positive := List.length_pos_iff.mpr some_
        rw [List.length_append] at missing size
        have size' : (data ++ first).length + wanted'.length = n := by
          rw [List.length_append]
          omega
        obtain ⟨left, done, carried⟩ := ih wanted'.length (by omega) (split ▸ carries') size' rfl
        exact ⟨left, by rw [done, List.append_assoc], carried⟩
      · have nothing : wanted = [] := List.length_eq_zero_iff.mp (by omega)
        subst nothing
        exact ⟨incoming, by rw [dif_neg short, List.append_nil], by simpa using carries⟩

theorem recvExactly_spec {n : ℕ} {wanted rest : List UInt8} {incoming : Incoming}
    (carries : Carries incoming (wanted ++ rest)) (size : wanted.length = n) :
    ∃ left, recvExactly n incoming = .ok (wanted, left) ∧ Carries left rest :=
  recvLoop_spec carries (by rw [List.length_nil, size, Nat.zero_add])

theorem readResponse_spec {f : Frame} (fits : f.Fits) {incoming : Incoming} {rest : List UInt8}
    (carries : Carries incoming (f.encoding ++ rest)) :
    ∃ left, readResponse incoming = .ok (f.encoding, left) ∧ Carries left rest := by
  obtain ⟨body, split, size⟩ := f.encoding_split
  rw [split, List.append_assoc] at carries
  obtain ⟨after, header, carries⟩ := recvExactly_spec carries (length_bytesOf 4 _)
  obtain ⟨left, all, carries⟩ := recvExactly_spec carries size
  refine ⟨left, ?_, carries⟩
  rw [readResponse, header]
  dsimp only
  rw [natOf_bytesOf fits.length, all, split]

/-- **The client reads the frames of a stream back, whatever the chunks are.** -/
theorem readFrames_spec {frames : List Frame} (fits : ∀ f ∈ frames, f.Fits) {incoming : Incoming}
    (carries : Carries incoming (frames.flatMap Frame.encoding)) :
    readFrames frames.length incoming = .ok (frames, []) := by
  induction frames generalizing incoming with
  | nil =>
      have empty : incoming = [] := carries.eq_nil
      rw [empty]
      rfl
  | cons f rest ih =>
      have fit := fits f List.mem_cons_self
      obtain ⟨left, response, carries⟩ := readResponse_spec fit carries
      rw [List.length_cons, readFrames, response]
      dsimp only
      rw [Frame.fromBytes_encoding fit]
      dsimp only
      rw [ih (fun g member => fits g (List.mem_cons_of_mem f member)) carries]

end BrokerClient

/-! ## Both readers -/

theorem Frame.mapM_toBytes {frames : List Frame} (fits : ∀ f ∈ frames, f.Fits) :
    frames.mapM toBytes = .ok (frames.map encoding) := by
  induction frames with
  | nil => rfl
  | cons f rest ih =>
      have first := toBytes_eq_ok_iff.mpr ⟨fits f List.mem_cons_self, rfl⟩
      have others := ih fun g member => fits g (List.mem_cons_of_mem f member)
      simp only [List.mapM_cons, first, others]
      rfl

/-- **Both readers take a stream of frames apart again, however it was cut.**
After every chunk the server has dispatched the frames that have arrived whole,
in order and each once, and keeps the rest of what arrived, unless a dispatch
raised; at the end these are all frames and its buffer is empty.  The client
reads the same frames. -/
theorem stream_reassembled {σ ε : Type} (dispatch : σ → Frame → σ × Option ε) (state : σ)
    {frames : List Frame} (fits : ∀ f ∈ frames, f.Fits) :
    ∃ pieces, frames.mapM Frame.toBytes = .ok pieces ∧
      ∀ chunks : List (List UInt8), (∀ chunk ∈ chunks, chunk ≠ []) →
        chunks.flatten = pieces.flatten →
        (∀ arrived later, chunks = arrived ++ later →
          let due := complete Frame.encoding arrived.flatten.length frames
          let fed := ClientHandler.feed dispatch { state } arrived
          ClientHandler.Dispatched dispatch { state } due fed ∧
            (fed.1 = none → fed.2.dispatched = due ∧
              arrived.flatten = due.flatMap Frame.encoding ++ fed.2.buffer ∧
              (later = [] → due = frames ∧ fed.2.buffer = [])) ∧
            ((∀ s, ∀ f ∈ frames, (dispatch s f).2 = none) → fed.1 = none)) ∧
        BrokerClient.readFrames frames.length chunks = .ok (frames, []) := by
  refine ⟨frames.map Frame.encoding, Frame.mapM_toBytes fits, fun chunks nonempty cut => ?_⟩
  rw [← List.flatMap_def] at cut
  refine ⟨?_, BrokerClient.readFrames_spec fits ⟨cut, nonempty⟩⟩
  rintro arrived later rfl due fed
  have prefixed : arrived.flatten <+: frames.flatMap Frame.encoding :=
    ⟨later.flatten, by rw [← cut, List.flatten_append]⟩
  obtain ⟨dispatched, left⟩ := ClientHandler.feed_spec dispatch { state } fits
    (Frame.complete_zero frames) prefixed
  refine ⟨dispatched, fun returned => ⟨dispatched.all returned, left returned, ?_⟩, fun returns => ?_⟩
  · rintro rfl
    have arrived_all : arrived.flatten = frames.flatMap Frame.encoding := by simpa using cut
    have all : due = frames := by
      simp only [due, arrived_all]
      exact complete_all Frame.encoding frames
    have buffer := left returned
    rw [List.nil_append, show complete Frame.encoding arrived.flatten.length frames = frames from all,
      arrived_all] at buffer
    exact ⟨all, List.self_eq_append_right.mp buffer⟩
  · rw [dispatched.outcome, ClientHandler.dispatchAll_returned dispatch state fun s f member =>
      returns s f ((prefix_complete _ _ frames).subset member)]
    rfl

/-- A request and a heartbeat without a payload. -/
def pairFrames : List Frame :=
  [⟨.produce, 1, 7, [123, 125]⟩, ⟨.heartbeat, 65535, -2147483648, []⟩]

/-- With a dispatch that counts, on any cut of the two frames. -/
theorem pairFrames_reassembled :
    let dispatch : ℕ → Frame → ℕ × Option Unit := fun served _ => (served + 1, none)
    ∃ pieces, pairFrames.mapM Frame.toBytes = .ok pieces ∧
      ∀ chunks : List (List UInt8), (∀ chunk ∈ chunks, chunk ≠ []) →
        chunks.flatten = pieces.flatten →
        (∀ arrived later, chunks = arrived ++ later →
          let due := complete Frame.encoding arrived.flatten.length pairFrames
          let fed := ClientHandler.feed dispatch { state := 0 } arrived
          ClientHandler.Dispatched dispatch { state := 0 } due fed ∧
            (fed.1 = none → fed.2.dispatched = due ∧
              arrived.flatten = due.flatMap Frame.encoding ++ fed.2.buffer ∧
              (later = [] → due = pairFrames ∧ fed.2.buffer = [])) ∧
            ((∀ s, ∀ f ∈ pairFrames, (dispatch s f).2 = none) → fed.1 = none)) ∧
        BrokerClient.readFrames pairFrames.length chunks = .ok (pairFrames, []) :=
  stream_reassembled _ 0 (by decide)

end BrokerLite
