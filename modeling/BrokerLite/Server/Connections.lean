/-
# Server.Connections -- the accept loop, the handlers' threads, and stopping

A `BrokerServer` has one thread that accepts connections and one for every handler,
and any other thread may call `stop`.  An action is the next step of one thread, up
to where it takes a lock, tests a flag or waits; the threads take turns in any
order.  The capacity check and the append are two actions, with the lock released
in between.

`connections_exact` is what the list of handlers is in every interleaving;
`stop_winds_down` is what may still happen once `stop` has cleared the flag.
-/
import BrokerLite.Theory.Run
import Mathlib.Data.List.Nodup
import Mathlib.Logic.Function.Basic
import Mathlib.Order.Basic
import Mathlib.Algebra.Order.Ring.Int
import Mathlib.Tactic.Common

namespace BrokerLite

open Theory

set_option autoImplicit false

abbrev HandlerRef := ℕ

/-- Where the loop of `_accept_loop` is. -/
inductive Accepting where
  /-- Before the test of `_running`. -/
  | looping
  /-- In `accept`. -/
  | waiting
  /-- With a connection, before the capacity check. -/
  | accepted
  /-- Behind the check, before the handler is appended. -/
  | admitted
  | starting (h : HandlerRef)
  | ended
  deriving DecidableEq

/-- Where the loop of a handler is. -/
inductive Phase where
  | unstarted
  | looping
  | receiving
  | processing
  | cleaning
  | ended
  deriving DecidableEq

structure HandlerThread where
  phase : Phase := .unstarted
  active : Bool := true
  /-- Its connection is not closed. -/
  connected : Bool := true
  /-- How often it has received data. -/
  chunks : ℕ := 0

/-- The chunks that a handler has received or is still waiting for. -/
def HandlerThread.due (t : HandlerThread) : ℕ := t.chunks + if t.phase = .receiving then 1 else 0

structure BrokerServer where
  maxConnections : ℤ := 100
  running : Bool := true
  accepting : Accepting := .looping
  handlers : List HandlerRef := []
  threads : HandlerRef → HandlerThread := fun _ => {}
  /-- The handlers made so far are those below. -/
  made : ℕ := 0

inductive ServerAction where
  | testRunning
  | acceptTimeout
  /-- An `OSError`. -/
  | acceptFails
  | accept
  | checkCapacity
  | appendHandler
  | startThread
  /-- The condition of the handler's loop. -/
  | test (h : HandlerRef)
  /-- `recv` returns data, or nothing, or fails. -/
  | receive (h : HandlerRef) (data : Bool)
  /-- `_process_buffer`; a response may not go out, an exception may leave it. -/
  | process (h : HandlerRef) (sendFails raises : Bool)
  | cleanup (h : HandlerRef)
  /-- The first step of `stop`, and its loop over the handlers. -/
  | stop
  | closeHandlers

namespace BrokerServer

variable (s : BrokerServer)

def setThread (h : HandlerRef) (t : HandlerThread) : BrokerServer :=
  { s with threads := Function.update s.threads h t }

def step : ServerAction → BrokerServer
  | .testRunning =>
      if s.accepting = .looping then { s with accepting := if s.running then .waiting else .ended } else s
  | .acceptTimeout => if s.accepting = .waiting then { s with accepting := .looping } else s
  | .acceptFails => if s.accepting = .waiting then { s with accepting := .ended } else s
  | .accept => if s.accepting = .waiting then { s with accepting := .accepted } else s
  | .checkCapacity =>
      if s.accepting = .accepted then
        { s with accepting := if s.maxConnections ≤ s.handlers.length then .looping else .admitted }
      else s
  | .appendHandler =>
      if s.accepting = .admitted then
        { s with handlers := s.handlers ++ [s.made], made := s.made + 1, accepting := .starting s.made }
      else s
  | .startThread =>
      match s.accepting with
      | .starting h =>
          { s.setThread h { s.threads h with phase := .looping } with accepting := .looping }
      | _ => s
  | .test h =>
      let t := s.threads h
      if t.phase = .looping then
        s.setThread h { t with phase := if t.active && s.running then .receiving else .cleaning }
      else s
  | .receive h data =>
      let t := s.threads h
      if t.phase = .receiving then
        s.setThread h (if data then { t with phase := .processing, chunks := t.chunks + 1 }
          else { t with phase := .cleaning })
      else s
  | .process h sendFails raises =>
      let t := s.threads h
      if t.phase = .processing then
        s.setThread h
          { t with active := t.active && !sendFails, phase := if raises then .cleaning else .looping }
      else s
  | .cleanup h =>
      let t := s.threads h
      if t.phase = .cleaning then
        { s.setThread h { t with connected := false, phase := .ended } with handlers := s.handlers.erase h }
      else s
  | .stop => { s with running := false }
  | .closeHandlers =>
      if s.running then s
      else
        { s with
          threads := fun h =>
            if h ∈ s.handlers then { s.threads h with active := false, connected := false } else s.threads h
          handlers := [] }

/-! ## The list of handlers -/

/-- The list has only handlers that have not ended, each once, and never too many;
while the server runs it has all of them. -/
structure Sound : Prop where
  bounded : (s.handlers.length : ℤ) ≤ max 0 s.maxConnections
  reserved : s.accepting = .admitted → (s.handlers.length : ℤ) < s.maxConnections
  nodup : s.handlers.Nodup
  listed : ∀ h ∈ s.handlers, h < s.made ∧ (s.threads h).phase ≠ .ended
  complete : s.running = true → ∀ h < s.made, (s.threads h).phase ≠ .ended → h ∈ s.handlers
  starting : ∀ h, s.accepting = .starting h → h < s.made ∧ (s.threads h).phase = .unstarted
  unmade : ∀ h, s.made ≤ h → (s.threads h).phase = .unstarted
  unstarted : ∀ h < s.made, (s.threads h).phase = .unstarted → s.accepting = .starting h
  closed : ∀ h, (s.threads h).phase = .ended → (s.threads h).connected = false
  untouched : ∀ h, (s.threads h).phase = .unstarted → (s.threads h).chunks = 0

variable {s}

section SetThread

variable (s) (h : HandlerRef) (t : HandlerThread)

@[simp] theorem setThread_threads (h' : HandlerRef) :
    (s.setThread h t).threads h' = if h' = h then t else s.threads h' := Function.update_apply ..

@[simp] theorem setThread_handlers : (s.setThread h t).handlers = s.handlers := rfl
@[simp] theorem setThread_made : (s.setThread h t).made = s.made := rfl
@[simp] theorem setThread_running : (s.setThread h t).running = s.running := rfl
@[simp] theorem setThread_accepting : (s.setThread h t).accepting = s.accepting := rfl

end SetThread

/-- A thread that runs goes on running. -/
theorem Sound.setThread (sound : s.Sound) {h : HandlerRef} {t : HandlerThread}
    (begun : (s.threads h).phase ≠ .unstarted) (running : (s.threads h).phase ≠ .ended)
    (begun' : t.phase ≠ .unstarted) (running' : t.phase ≠ .ended) : (s.setThread h t).Sound := by
  obtain ⟨bounded, reserved, nodup, listed, complete, starting, unmade, unstarted, closed, untouched⟩ := sound
  refine ⟨bounded, reserved, nodup, ?_, ?_, ?_, ?_, ?_, ?_, ?_⟩ <;> simp <;> grind

/-- The accept loop goes on, away from a handler that it starts. -/
theorem Sound.setAccepting (sound : s.Sound) {at_ : Accepting} (before : ∀ h, s.accepting ≠ .starting h)
    (free : at_ = .admitted → (s.handlers.length : ℤ) < s.maxConnections) (other : ∀ h, at_ ≠ .starting h) :
    { s with accepting := at_ }.Sound := by
  obtain ⟨bounded, reserved, nodup, listed, complete, starting, unmade, unstarted, closed, untouched⟩ := sound
  refine ⟨bounded, free, nodup, listed, complete, ?_, unmade, ?_, closed, untouched⟩
  · exact fun h starts => absurd starts (other h)
  · exact fun h below new => absurd (unstarted h below new) (before h)

/-- The new handler is the last of the list; there was room for it, as nothing but
this loop makes the list longer. -/
theorem Sound.append (sound : s.Sound) (admitted : s.accepting = .admitted) :
    { s with handlers := s.handlers ++ [s.made], made := s.made + 1, accepting := .starting s.made }.Sound := by
  have free := sound.reserved admitted
  have new : s.made ∉ s.handlers := fun member => absurd (sound.listed _ member).1 (lt_irrefl _)
  have nodup : (s.handlers ++ [s.made]).Nodup := by
    rw [List.nodup_append]
    refine ⟨sound.nodup, List.nodup_singleton _, fun h member h' last => ?_⟩
    rw [List.mem_singleton.mp last]
    rintro rfl
    exact new member
  obtain ⟨bounded, reserved, -, listed, complete, starting, unmade, unstarted, closed, untouched⟩ := sound
  refine ⟨?_, nofun, nodup, ?_, ?_, ?_, ?_, ?_, closed, untouched⟩ <;> simp <;> grind

theorem Sound.start (sound : s.Sound) {h : HandlerRef} (starts : s.accepting = .starting h) :
    { s.setThread h { s.threads h with phase := .looping } with accepting := .looping }.Sound := by
  obtain ⟨bounded, reserved, nodup, listed, complete, starting, unmade, unstarted, closed, untouched⟩ := sound
  refine ⟨bounded, nofun, nodup, ?_, ?_, nofun, ?_, ?_, ?_, ?_⟩ <;> simp <;> grind

/-- A handler that ends takes itself off the list. -/
theorem Sound.cleanup (sound : s.Sound) {h : HandlerRef} (cleaning : (s.threads h).phase = .cleaning) :
    { s.setThread h { s.threads h with connected := false, phase := .ended } with
      handlers := s.handlers.erase h }.Sound := by
  have fewer : ((s.handlers.erase h).length : ℤ) ≤ s.handlers.length := by
    exact_mod_cast List.length_erase_le
  have member : ∀ h', h' ∈ s.handlers.erase h ↔ h' ≠ h ∧ h' ∈ s.handlers :=
    fun h' => sound.nodup.mem_erase_iff
  obtain ⟨bounded, reserved, nodup, listed, complete, starting, unmade, unstarted, closed, untouched⟩ := sound
  refine ⟨fewer.trans bounded, fun admitted => lt_of_le_of_lt fewer (reserved admitted), nodup.erase h,
    ?_, ?_, ?_, ?_, ?_, ?_, ?_⟩ <;> simp [member] <;> grind

theorem Sound.closeHandlers (sound : s.Sound) (stopped : s.running = false) :
    { s with
      threads := fun h =>
        if h ∈ s.handlers then { s.threads h with active := false, connected := false } else s.threads h
      handlers := [] }.Sound := by
  obtain ⟨bounded, reserved, nodup, listed, complete, starting, unmade, unstarted, closed, untouched⟩ := sound
  refine ⟨le_max_left _ _, ?_, List.nodup_nil, nofun, ?_, ?_, ?_, ?_, ?_, ?_⟩ <;> simp <;> grind

/-- **Any next step of any thread.** -/
theorem Sound.step (sound : s.Sound) (a : ServerAction) : (s.step a).Sound := by
  cases a with
  | testRunning =>
      rw [BrokerServer.step]
      split
      · next here => exact sound.setAccepting (by simp [here]) (by split <;> simp) (by split <;> simp)
      · exact sound
  | acceptTimeout =>
      rw [BrokerServer.step]
      split
      · next here => exact sound.setAccepting (by simp [here]) nofun nofun
      · exact sound
  | acceptFails =>
      rw [BrokerServer.step]
      split
      · next here => exact sound.setAccepting (by simp [here]) nofun nofun
      · exact sound
  | accept =>
      rw [BrokerServer.step]
      split
      · next here => exact sound.setAccepting (by simp [here]) nofun nofun
      · exact sound
  | checkCapacity =>
      rw [BrokerServer.step]
      split
      · next here =>
          refine sound.setAccepting (by simp [here]) ?_ (by split <;> simp)
          split
          · exact fun impossible => by cases impossible
          · next room => exact fun _ => not_le.mp room
      · exact sound
  | appendHandler =>
      rw [BrokerServer.step]
      split
      · next here => exact sound.append here
      · exact sound
  | startThread =>
      rw [BrokerServer.step]
      split
      · next h here => exact sound.start here
      · exact sound
  | test h =>
      rw [BrokerServer.step]
      split
      · next here =>
          exact sound.setThread (by simp [here]) (by simp [here]) (by split <;> simp) (by split <;> simp)
      · exact sound
  | receive h data =>
      rw [BrokerServer.step]
      split
      · next here =>
          exact sound.setThread (by simp [here]) (by simp [here]) (by split <;> simp) (by split <;> simp)
      · exact sound
  | process h sendFails raises =>
      rw [BrokerServer.step]
      split
      · next here =>
          exact sound.setThread (by simp [here]) (by simp [here]) (by cases raises <;> simp)
            (by cases raises <;> simp)
      · exact sound
  | cleanup h =>
      rw [BrokerServer.step]
      split
      · next here => exact sound.cleanup here
      · exact sound
  | stop =>
      obtain ⟨bounded, reserved, nodup, listed, complete, starting, unmade, unstarted, closed, untouched⟩ := sound
      exact ⟨bounded, reserved, nodup, listed, nofun, starting, unmade, unstarted, closed, untouched⟩
  | closeHandlers =>
      rw [BrokerServer.step]
      split
      · exact sound
      · next stopped => exact sound.closeHandlers (by simpa using stopped)

theorem sound_start (maxConnections : ℤ) : Sound { maxConnections } where
  bounded := le_max_left _ _
  reserved := nofun
  nodup := List.nodup_nil
  listed := nofun
  complete := nofun
  starting := nofun
  unmade _ _ := rfl
  unstarted := nofun
  closed := nofun
  untouched _ _ := rfl

theorem sound_run (maxConnections : ℤ) (actions : List ServerAction) :
    (run BrokerServer.step { maxConnections } actions).Sound :=
  run_preserves (fun _ a sound => sound.step a) (sound_start maxConnections) actions

/-- **The handlers of a server.**  In whatever order the threads take their turns, there
are never more handlers than `max_connections`; each is listed once and has not ended;
until `stop` clears the flag these are all handlers that have not ended; and when all
threads have ended the list is empty and every handler's connection is closed. -/
theorem connections_exact (maxConnections : ℤ) (actions : List ServerAction) :
    let s := run step { maxConnections } actions
    (s.handlers.length : ℤ) ≤ max 0 maxConnections ∧ s.handlers.Nodup ∧
      (∀ h ∈ s.handlers, h < s.made ∧ (s.threads h).phase ≠ .ended) ∧
      (s.running = true → ∀ h, h ∈ s.handlers ↔ h < s.made ∧ (s.threads h).phase ≠ .ended) ∧
      ((∀ h < s.made, (s.threads h).phase = .ended) →
        s.handlers = [] ∧ ∀ h < s.made, (s.threads h).connected = false) := by
  intro s
  have sound := sound_run maxConnections actions
  have limit : s.maxConnections = maxConnections := by
    have kept : ∀ (s : BrokerServer) a, s.maxConnections = maxConnections →
        (s.step a).maxConnections = maxConnections := by
      intro s a same
      cases a <;> simp only [step] <;> (try split) <;> exact same
    exact run_preserves kept rfl actions
  refine ⟨limit ▸ sound.bounded, sound.nodup, sound.listed, fun running h => ?_, fun ended => ?_⟩
  · exact ⟨sound.listed h, fun alive => sound.complete running h alive.1 alive.2⟩
  · refine ⟨List.eq_nil_iff_forall_not_mem.mpr fun h member => ?_, fun h below => sound.closed h (ended h below)⟩
    obtain ⟨below, alive⟩ := sound.listed h member
    exact alive (ended h below)

/-! ## Stopping -/

/-- The handlers that were made or still may be, by a loop that has passed its test. -/
def due (s : BrokerServer) : ℕ :=
  s.made + match s.accepting with
    | .waiting | .accepted | .admitted => 1
    | .looping | .starting _ | .ended => 0

/-- Once the flag is cleared, no thread takes on more than it already had to do. -/
theorem step_due (stopped : s.running = false) (a : ServerAction) :
    (s.step a).running = false ∧ (s.step a).due ≤ s.due ∧
      ∀ h, ((s.step a).threads h).due ≤ (s.threads h).due := by
  have thread : ∀ (h : HandlerRef) (t : HandlerThread), t.due ≤ (s.threads h).due →
      ∀ h', ((s.setThread h t).threads h').due ≤ (s.threads h').due := by
    intro h t less h'
    rw [setThread_threads]
    split
    · next same => exact same ▸ less
    · exact le_rfl
  cases a with
  | test h =>
      rw [step]
      split
      · next here =>
          refine ⟨stopped, le_rfl, thread h _ ?_⟩
          simp [HandlerThread.due, stopped]
      · exact ⟨stopped, le_rfl, fun _ => le_rfl⟩
  | receive h data =>
      rw [step]
      split
      · next here =>
          refine ⟨stopped, le_rfl, thread h _ ?_⟩
          cases data <;> simp [HandlerThread.due, here]
      · exact ⟨stopped, le_rfl, fun _ => le_rfl⟩
  | process h sendFails raises =>
      rw [step]
      split
      · next here =>
          refine ⟨stopped, le_rfl, thread h _ ?_⟩
          cases raises <;> simp [HandlerThread.due]
      · exact ⟨stopped, le_rfl, fun _ => le_rfl⟩
  | cleanup h =>
      rw [step]
      split
      · next here =>
          refine ⟨stopped, le_rfl, thread h _ ?_⟩
          simp [HandlerThread.due]
      · exact ⟨stopped, le_rfl, fun _ => le_rfl⟩
  | startThread =>
      rw [step]
      split
      · next h here =>
          refine ⟨stopped, by simp [due, here], thread h _ ?_⟩
          simp [HandlerThread.due]
      · exact ⟨stopped, le_rfl, fun _ => le_rfl⟩
  | closeHandlers =>
      rw [step, if_neg (by simp [stopped])]
      refine ⟨stopped, le_rfl, fun h => ?_⟩
      dsimp only
      split
      · exact le_rfl
      · exact le_rfl
  | stop => exact ⟨rfl, le_rfl, fun _ => le_rfl⟩
  | testRunning =>
      rw [step]
      split
      · next here => exact ⟨stopped, by simp [due, stopped], fun _ => le_rfl⟩
      · exact ⟨stopped, le_rfl, fun _ => le_rfl⟩
  | acceptTimeout | acceptFails =>
      rw [step]
      split
      · next here => exact ⟨stopped, by simp [due], fun _ => le_rfl⟩
      · exact ⟨stopped, le_rfl, fun _ => le_rfl⟩
  | accept =>
      rw [step]
      split
      · next here => exact ⟨stopped, by simp [due, here], fun _ => le_rfl⟩
      · exact ⟨stopped, le_rfl, fun _ => le_rfl⟩
  | checkCapacity =>
      rw [step]
      split
      · next here => exact ⟨stopped, by simp only [due, here]; split <;> simp_all, fun _ => le_rfl⟩
      · exact ⟨stopped, le_rfl, fun _ => le_rfl⟩
  | appendHandler =>
      rw [step]
      split
      · next here => exact ⟨stopped, by simp [due, here], fun _ => le_rfl⟩
      · exact ⟨stopped, le_rfl, fun _ => le_rfl⟩

/-- **Stopping winds the server down.**  From any state in which `stop` has cleared the
flag, in whatever order the threads go on: a handler receives one more chunk only if it
was waiting for it, at most one more handler is made, only if the accept loop was past
its test, and a handler made after that receives nothing. -/
theorem stop_winds_down (maxConnections : ℤ) (before after : List ServerAction) :
    let s := run step { maxConnections } before
    let s' := run step s after
    s.running = false →
      (∀ h, (s'.threads h).chunks ≤ (s.threads h).chunks +
        if (s.threads h).phase = .receiving then 1 else 0) ∧
      s'.made ≤ s.due ∧ ∀ h, s.made ≤ h → (s'.threads h).chunks = 0 := by
  intro s s' stopped
  have sound : s.Sound := sound_run maxConnections before
  have kept : ∀ (t : BrokerServer) a,
      (t.running = false ∧ t.due ≤ s.due ∧ ∀ h, (t.threads h).due ≤ (s.threads h).due) →
      (t.step a).running = false ∧ (t.step a).due ≤ s.due ∧
        ∀ h, ((t.step a).threads h).due ≤ (s.threads h).due := by
    rintro t a ⟨flag, fewer, less⟩
    obtain ⟨flag', fewer', less'⟩ := step_due flag a
    exact ⟨flag', fewer'.trans fewer, fun h => (less' h).trans (less h)⟩
  obtain ⟨-, fewer, less⟩ := run_preserves kept ⟨stopped, le_rfl, fun _ => le_rfl⟩ after
  have chunks : ∀ h, (s'.threads h).chunks ≤ (s.threads h).due :=
    fun h => (Nat.le_add_right _ _).trans (less h)
  refine ⟨chunks, (Nat.le_add_right _ _).trans fewer, fun h above => ?_⟩
  have unstarted := sound.unmade h above
  have nothing : (s.threads h).due = 0 := by
    simp [HandlerThread.due, unstarted, sound.untouched h unstarted]
  exact Nat.le_zero.mp (nothing ▸ chunks h)

/-- A handler waits for data when the server is stopped, and a connection comes in. -/
def stoppedWhileReceiving : List ServerAction :=
  [.testRunning, .accept, .checkCapacity, .appendHandler, .startThread, .test 0, .testRunning, .accept, .stop]

theorem stoppedWhileReceiving_winds_down :
    let s := run step { maxConnections := 2 } stoppedWhileReceiving
    let s' := run step s [.receive 0 true, .closeHandlers, .checkCapacity, .appendHandler, .startThread]
    (∀ h, (s'.threads h).chunks ≤ (s.threads h).chunks +
        if (s.threads h).phase = .receiving then 1 else 0) ∧
      s'.made ≤ s.due ∧ ∀ h, s.made ≤ h → (s'.threads h).chunks = 0 :=
  stop_winds_down 2 stoppedWhileReceiving
    [.receive 0 true, .closeHandlers, .checkCapacity, .appendHandler, .startThread] (by decide)

/-- There the handler receives once more, and the second handler is made and listed after
the list was cleared. -/
example :
    let s := run step { maxConnections := 2 }
      (stoppedWhileReceiving ++ [.receive 0 true, .closeHandlers, .checkCapacity, .appendHandler])
    (s.threads 0).chunks = 1 ∧ s.made = 2 ∧ s.handlers = [1] := by decide

end BrokerServer

end BrokerLite
