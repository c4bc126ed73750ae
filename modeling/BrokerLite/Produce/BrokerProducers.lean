/-
# Produce.BrokerProducers -- the producers of a broker

`create_producer` makes a producer that publishes to the broker and registers it under
its id; one registered under the same id before is replaced, but works on.  A run makes
producers, calls them in any order, publishes past them, and stops the broker, which
closes the registered producers.

`Sound` says of a topic without size limits that every producer's messages are there or
in its buffer: what arrived from it and what it buffers are together, and in order,
what its calls of `send` accepted (`run_delivers`).
-/
import BrokerLite.Produce.BrokerWorld

namespace BrokerLite

open Theory

set_option autoImplicit false

/-- The run in another world. -/
def ProducerRun.withWorld {σ τ : Type} (r : ProducerRun σ) (world : τ) : ProducerRun τ :=
  { producer := r.producer, world, handed := r.handed, counts := r.counts, accepted := r.accepted }

theorem ProducerRun.Steady.withWorld {σ τ : Type} {config : ProducerConfig} {r : ProducerRun σ}
    (steady : r.Steady config) (world : τ) : (r.withWorld world).Steady config :=
  ⟨steady.configured, steady.order, steady.sent, steady.errors, steady.long, steady.short, steady.numbered⟩

theorem ProducerRun.NoneLost.withWorld {σ τ : Type} {r : ProducerRun σ} (noneLost : r.NoneLost)
    (world : τ) : (r.withWorld world).NoneLost :=
  ⟨noneLost.held, noneLost.counted, noneLost.sent, noneLost.errors, noneLost.onError⟩

structure BrokerProducers where
  world : BrokerWorld
  /-- Every producer made, in the order of the making. -/
  producers : List (ProducerRun Unit) := []
  registered : Dict String ProducerRef := .empty
  /-- What was published past the producers. -/
  published : List Message := []

inductive BrokerProducersOp where
  /-- `create_producer`; `hex` are the digits of a new id. -/
  | createProducer (hex : String) (now : Timestamp) (producerId : Option String)
      (config : Option ProducerConfig)
  | call (i : ProducerRef) (op : ProducerOp)
  | publish (message : Message)
  | stop

namespace BrokerProducers

variable (hash : String → ℕ) (clock : ℕ → Timestamp) (ids : ℕ → String)

def createProducer (s : BrokerProducers) (hex : String) (now : Timestamp) (producerId : Option String)
    (config : Option ProducerConfig) : BrokerProducers :=
  let made := ProducerRun.start hex now producerId config ()
  { s with
    producers := s.producers ++ [made]
    registered := s.registered.set made.producer.producerId s.producers.length }

/-- A call of a producer. -/
def call (s : BrokerProducers) (i : ProducerRef) (op : ProducerOp) : BrokerProducers :=
  match s.producers[i]? with
  | none => s
  | some r =>
      let r := (r.withWorld s.world).step (BrokerWorld.environment hash clock ids i) op
      { s with world := r.world, producers := s.producers.set i (r.withWorld ()) }

/-- The loop of `stop`; a `close` that raises ends it. -/
def stopFrom : List ProducerRef → BrokerProducers → Except Raised Unit × BrokerProducers
  | [], s => (.ok (), s)
  | i :: rest, s =>
      match s.producers[i]? with
      | none => stopFrom rest s
      | some r =>
          match (r.producer.close (BrokerWorld.environment hash clock ids i) s.world).1 with
          | .error raised => (.error raised, s.call hash clock ids i .close)
          | .ok _ => stopFrom rest (s.call hash clock ids i .close)

def stop (s : BrokerProducers) : Except Raised Unit × BrokerProducers :=
  stopFrom hash clock ids s.registered.values s

def step (s : BrokerProducers) : BrokerProducersOp → BrokerProducers
  | .createProducer hex now producerId config => s.createProducer hex now producerId config
  | .call i op => s.call hash clock ids i op
  | .publish message =>
      { s with
        world := (s.world.publish hash clock none message).2.2
        published := s.published ++ [message] }
  | .stop => (s.stop hash clock ids).2

end BrokerProducers

/-- The call leaves the choice of a partition of the topic to the broker. -/
def ProducerOp.LeavesPartition (name : String) : ProducerOp → Prop
  | .send args => args.topic = name → args.partition < 0
  | .flush | .close => True

def BrokerProducersOp.LeavesPartition (name : String) : BrokerProducersOp → Prop
  | .call _ op => op.LeavesPartition name
  | .publish message => message.topic = name → message.partition < 0
  | .createProducer .. | .stop => True

instance (name : String) (op : ProducerOp) : Decidable (op.LeavesPartition name) :=
  match op with
  | .send _ => inferInstanceAs (Decidable (_ → _))
  | .flush | .close => isTrue trivial

instance (name : String) (op : BrokerProducersOp) : Decidable (op.LeavesPartition name) :=
  match op with
  | .call _ op => inferInstanceAs (Decidable (op.LeavesPartition name))
  | .publish _ => inferInstanceAs (Decidable (_ → _))
  | .createProducer .. | .stop => isTrue trivial

namespace BrokerProducers

variable {hash : String → ℕ} {clock : ℕ → Timestamp} {ids : ℕ → String} {name : String}
  {ps : List PartitionRef} {s : BrokerProducers}

/-! ## One producer -/

/-- What arrived from a producer is what it handed over, and nothing of it is lost. -/
structure Delivers (name : String) (w : BrokerWorld) (i : ProducerRef) (r : ProducerRun Unit) : Prop where
  steady : ∃ config, r.Steady config
  noneLost : r.NoneLost
  unset : ∀ message ∈ r.accepted, message.topic = name → message.partition < 0
  brought : w.arrivedFrom name (some i) =
    (r.handed.map Handed.message).filter fun message => message.topic = name

/-- Nothing was handed over yet. -/
theorem Delivers.start {w : BrokerWorld} {i : ProducerRef} (nothing : w.arrivedFrom name (some i) = [])
    (hex : String) (now : Timestamp) (producerId : Option String) (config : Option ProducerConfig) :
    Delivers name w i (.start hex now producerId config ()) where
  steady := ⟨_, ProducerRun.start_steady hex now producerId config ()⟩
  noneLost := (ProducerRun.start_steady hex now producerId config ()).noneLost_iff.mpr
    ⟨rfl, rfl, by simp [ProducerRun.start]⟩
  unset := by simp [ProducerRun.start]
  brought := nothing

/-- All that was accepted for the topic arrived or is buffered, in order. -/
theorem Delivers.whole {w : BrokerWorld} {i : ProducerRef} {r : ProducerRun Unit}
    (delivers : Delivers name w i r) :
    w.arrivedFrom name (some i) ++ r.producer.batch.filter (fun message => message.topic = name) =
      r.accepted.filter fun message => message.topic = name := by
  obtain ⟨config, steady⟩ := delivers.steady
  obtain ⟨all, -⟩ := steady.noneLost_iff.mp delivers.noneLost
  rw [delivers.brought, ← List.filter_append, ← all]

/-- What the producer notes and what the topic has of it, while the other senders rest. -/
def Joint (hash : String → ℕ) (name : String) (ps : List PartitionRef) (w₀ : BrokerWorld) (i : ProducerRef)
    (x : BrokerWorld × List Handed) : Prop :=
  x.1.Fed hash name ps ∧
  x.1.arrivedFrom name (some i) =
    (x.2.map Handed.message).filter (fun message => message.topic = name) ∧
  ∀ sender, sender ≠ some i → x.1.arrivedFrom name sender = w₀.arrivedFrom name sender

/-- What a publish brings from its sender. -/
theorem arrivedFrom_publish {w : BrokerWorld} {sender : Option ProducerRef} {message : Message}
    (returned : message.topic = name → (w.publish hash clock sender message).1.isOk = true)
    (other : Option ProducerRef) :
    (w.publish hash clock sender message).2.2.arrivedFrom name other = w.arrivedFrom name other ++
      if sender = other ∧ message.topic = name then [message] else [] := by
  unfold BrokerWorld.arrivedFrom
  rw [BrokerWorld.arrivedAt_publish name returned, List.filter_append, List.map_append]
  congr 1
  by_cases here : message.topic = name <;> by_cases same : sender = other <;> simp [here, same]

/-- The broker keeps the two together. -/
theorem environment_keeps (pos : 0 < ps.length) (distinct : ps.Nodup) (w₀ : BrokerWorld) (i : ProducerRef) :
    (BrokerWorld.environment hash clock ids i).recorded.Keeps
      (fun message => message.topic = name → message.partition < 0) (Joint hash name ps w₀ i) where
  time := by
    rintro ⟨w, handed⟩ ⟨fed, joint⟩
    exact ⟨⟨fed.arranged, fed.topic, fed.old, fed.carried⟩, joint⟩
  uuid4 := by
    rintro ⟨w, handed⟩ ⟨fed, joint⟩
    exact ⟨⟨fed.arranged, fed.topic, fed.old, fed.carried⟩, joint⟩
  publish := by
    rintro publish given message ⟨w, handed⟩ unset ⟨fed, brought, others⟩
    cases given
    obtain ⟨returned, fed'⟩ := fed.publish pos distinct clock (some i) unset
    refine ⟨fed', ?_, fun sender other => ?_⟩
    · refine (arrivedFrom_publish returned (some i)).trans ?_
      rw [show w.arrivedFrom name (some i) = _ from brought, List.map_append, List.filter_append]
      congr 1
      by_cases here : message.topic = name <;> simp [here]
    · refine (arrivedFrom_publish returned sender).trans ?_
      rw [if_neg fun both => other both.1.symm, List.append_nil]
      exact others sender other
  success := fun w metadata joint => joint
  error := fun w message e joint => joint

/-! ## All of them -/

structure Sound (hash : String → ℕ) (name : String) (ps : List PartitionRef) (s : BrokerProducers) :
    Prop where
  fed : s.world.Fed hash name ps
  delivers : ∀ i r, s.producers[i]? = some r → Delivers name s.world i r
  fresh : ∀ i, s.producers.length ≤ i → s.world.arrivedFrom name (some i) = []
  listed : ∀ id i, s.registered.get? id = some i → i < s.producers.length
  others : s.world.arrivedFrom name none = s.published.filter fun message => message.topic = name

theorem Sound.createProducer (sound : s.Sound hash name ps) (hex : String) (now : Timestamp)
    (producerId : Option String) (config : Option ProducerConfig) :
    (s.createProducer hex now producerId config).Sound hash name ps := by
  refine ⟨sound.fed, fun i r found => ?_, fun i outside => ?_, fun id i found => ?_, sound.others⟩
  · rcases Nat.lt_or_ge i s.producers.length with old | new
    · exact sound.delivers i r ((List.getElem?_append_left old).symm.trans found)
    · rw [show (s.createProducer hex now producerId config).producers[i]? = _ from
        List.getElem?_append_right new] at found
      obtain ⟨-, rfl⟩ := List.getElem?_eq_some_iff.mp found
      rw [List.getElem_singleton]
      exact .start (sound.fresh i new) hex now producerId config
  · refine sound.fresh i ?_
    have longer : s.producers.length + 1 ≤ i := by simpa [BrokerProducers.createProducer] using outside
    omega
  · have longer : (s.createProducer hex now producerId config).producers.length = s.producers.length + 1 := by
      simp [BrokerProducers.createProducer]
    rw [longer]
    rcases Dict.get?_set_eq_some_iff.mp found with ⟨-, rfl⟩ | ⟨-, before⟩
    · exact Nat.lt_succ_self _
    · exact Nat.lt_succ_of_lt (sound.listed id i before)

/-- **A call of a producer delivers.** -/
theorem Sound.call (sound : s.Sound hash name ps) (pos : 0 < ps.length) (distinct : ps.Nodup)
    (i : ProducerRef) {op : ProducerOp} (unset : op.LeavesPartition name) :
    (s.call hash clock ids i op).Sound hash name ps := by
  unfold BrokerProducers.call
  split
  · exact sound
  · next r found =>
      obtain ⟨⟨config, steady⟩, noneLost, kept, brought⟩ := sound.delivers i r found
      have steady := steady.withWorld s.world
      have noneLost := noneLost.withWorld s.world
      have given : (BrokerWorld.environment hash clock ids i).publishFn ≠ none := Option.some_ne_none _
      have quiet : (BrokerWorld.environment hash clock ids i).Quiet :=
        ⟨fun _ _ _ _ _ _ => rfl, fun _ _ => rfl, fun _ _ _ => rfl⟩
      have offers : (r.withWorld s.world).Offers (BrokerWorld.environment hash clock ids i)
          (fun message => message.topic = name → message.partition < 0) op := by
        intro message member
        cases op with
        | flush => cases member
        | close => cases member
        | send args =>
            obtain ⟨p, t, accepted⟩ := ProducerRun.mem_accepts_send.mp member
            obtain ⟨topic, partition⟩ := Producer.accept_labels accepted
            rw [topic, partition]
            exact unset
      have joint := steady.step_keeps (environment_keeps pos distinct s.world i) kept offers
        ⟨sound.fed, brought, fun _ _ => rfl⟩
      have steady' := steady.step given op
      have noneLost' := (steady.step_noneLost_iff given noneLost op).mpr
        (ProducerRun.obliging_of_quiet quiet _ op)
      have kept' := ProducerRun.accepted_step offers kept
      generalize (r.withWorld s.world).step (BrokerWorld.environment hash clock ids i) op = r' at *
      obtain ⟨fed, brought', others⟩ := joint
      refine ⟨fed, fun j u there => ?_, fun j outside => ?_, fun id j there => ?_, ?_⟩
      · by_cases same : i = j
        · subst same
          have inside := (List.getElem?_eq_some_iff.mp found).1
          obtain rfl : r'.withWorld () = u := by
            simpa [List.getElem?_set, inside] using there
          refine ⟨⟨config, ?_⟩, ?_, kept', brought'⟩
          · exact steady'.withWorld ()
          · exact noneLost'.withWorld ()
        · have before : s.producers[j]? = some u := by simpa [List.getElem?_set, same] using there
          obtain ⟨steady, noneLost, kept, brought⟩ := sound.delivers j u before
          refine ⟨steady, noneLost, kept, ?_⟩
          rw [others (some j) fun eq => same (Option.some.inj eq).symm]
          exact brought
      · have outside : s.producers.length ≤ j := by simpa using outside
        have inside := (List.getElem?_eq_some_iff.mp found).1
        rw [others (some j) fun eq => by cases eq; omega]
        exact sound.fresh j outside
      · simpa using sound.listed id j there
      · rw [others none nofun]
        exact sound.others

theorem Sound.publish (sound : s.Sound hash name ps) (pos : 0 < ps.length) (distinct : ps.Nodup)
    {message : Message} (unset : message.topic = name → message.partition < 0) :
    (s.step hash clock ids (.publish message)).Sound hash name ps := by
  obtain ⟨returned, fed⟩ := sound.fed.publish pos distinct clock none unset
  have rests : ∀ i, (s.step hash clock ids (.publish message)).world.arrivedFrom name (some i) =
      s.world.arrivedFrom name (some i) := by
    intro i
    refine (arrivedFrom_publish returned (some i)).trans ?_
    rw [if_neg nofun, List.append_nil]
  refine ⟨fed, fun i r found => ?_, fun i outside => (rests i).trans (sound.fresh i outside), sound.listed, ?_⟩
  · obtain ⟨steady, noneLost, kept, brought⟩ := sound.delivers i r found
    exact ⟨steady, noneLost, kept, (rests i).trans brought⟩
  · refine (arrivedFrom_publish returned none).trans ?_
    rw [sound.others]
    show _ = (s.published ++ [message]).filter _
    rw [List.filter_append]
    congr 1
    by_cases here : message.topic = name <;> simp [here]

/-! ## Stopping -/

/-- The producer is closed and buffers nothing. -/
def Shut (s : BrokerProducers) (i : ProducerRef) : Prop :=
  ∀ r, s.producers[i]? = some r → r.producer.closed = true ∧ r.producer.batch = []

theorem call_registered (s : BrokerProducers) (i : ProducerRef) (op : ProducerOp) :
    (s.call hash clock ids i op).registered = s.registered := by
  unfold BrokerProducers.call
  split <;> rfl

variable (hash clock ids) in
/-- A producer that is closed is shut, and the others are as they were. -/
theorem shut_close (s : BrokerProducers) (i : ProducerRef) :
    (s.call hash clock ids i .close).Shut i ∧
      ∀ j, s.Shut j → (s.call hash clock ids i .close).Shut j := by
  have quiet : (BrokerWorld.environment hash clock ids i).Quiet :=
    ⟨fun _ _ _ _ _ _ => rfl, fun _ _ => rfl, fun _ _ _ => rfl⟩
  have own : (s.call hash clock ids i .close).Shut i := by
    intro u there
    unfold BrokerProducers.call at there
    split at there
    · next absent => exact absurd there (by simp [absent])
    · next r found =>
        have inside := (List.getElem?_eq_some_iff.mp found).1
        have shut := ProducerRun.step_closed quiet (r.withWorld s.world)
        have empty := ProducerRun.step_flushed (BrokerWorld.environment hash clock ids i)
          (r.withWorld s.world) (.inr rfl)
        obtain rfl : _ = u := by simpa [List.getElem?_set, inside] using there
        exact ⟨shut, empty⟩
  refine ⟨own, fun j shut => ?_⟩
  by_cases same : i = j
  · exact same ▸ own
  · intro u there
    refine shut u ?_
    unfold BrokerProducers.call at there
    split at there
    · exact there
    · simpa [List.getElem?_set, same] using there

variable (clock ids) in
/-- **The loop of `stop`** ends without an exception, and leaves what it went through shut. -/
theorem Sound.stopFrom (pos : 0 < ps.length) (distinct : ps.Nodup) (refs : List ProducerRef)
    (sound : s.Sound hash name ps) :
    (stopFrom hash clock ids refs s).1 = .ok () ∧ (stopFrom hash clock ids refs s).2.Sound hash name ps ∧
      (stopFrom hash clock ids refs s).2.registered = s.registered ∧
      ∀ i, i ∈ refs ∨ s.Shut i → (stopFrom hash clock ids refs s).2.Shut i := by
  induction refs generalizing s with
  | nil => exact ⟨rfl, sound, rfl, fun i shut => shut.resolve_left (List.not_mem_nil)⟩
  | cons j rest ih =>
      rw [BrokerProducers.stopFrom]
      split
      · next absent =>
          obtain ⟨returned, sound', registered, shut⟩ := ih sound
          refine ⟨returned, sound', registered, fun i earlier => shut i ?_⟩
          rcases earlier with member | shut
          · rcases List.mem_cons.mp member with rfl | later
            · exact .inr fun r found => absurd found (by simp [absent])
            · exact .inl later
          · exact .inr shut
      · next r found =>
          have quiet : (BrokerWorld.environment hash clock ids j).Quiet :=
        ⟨fun _ _ _ _ _ _ => rfl, fun _ _ => rfl, fun _ _ _ => rfl⟩
          obtain ⟨closes, keeps⟩ := s.shut_close hash clock ids j
          obtain ⟨returned, sound', registered, shut⟩ := ih (sound.call pos distinct j
            (show ProducerOp.LeavesPartition name .close from trivial))
          simp only [Producer.close_returns quiet]
          refine ⟨returned, sound', registered.trans (call_registered ..), fun i earlier => shut i ?_⟩
          rcases earlier with member | shut
          · rcases List.mem_cons.mp member with rfl | later
            · exact .inr closes
            · exact .inl later
          · exact .inr (keeps i shut)

theorem Sound.step (sound : s.Sound hash name ps) (pos : 0 < ps.length) (distinct : ps.Nodup)
    {op : BrokerProducersOp} (unset : op.LeavesPartition name) : (s.step hash clock ids op).Sound hash name ps := by
  cases op with
  | createProducer hex now producerId config => exact sound.createProducer hex now producerId config
  | call i op => exact sound.call pos distinct i unset
  | publish message => exact sound.publish pos distinct unset
  | stop => exact (sound.stopFrom clock ids pos distinct s.registered.values).2.1

theorem run_sound (sound : s.Sound hash name ps) (pos : 0 < ps.length) (distinct : ps.Nodup)
    {ops : List BrokerProducersOp} (unset : ∀ op ∈ ops, op.LeavesPartition name) :
    (run (step hash clock ids) s ops).Sound hash name ps := by
  induction ops generalizing s with
  | nil => exact sound
  | cons op rest ih =>
      exact ih (sound.step pos distinct (unset op List.mem_cons_self)) fun later member =>
        unset later (List.mem_cons_of_mem _ member)

end BrokerProducers

end BrokerLite
