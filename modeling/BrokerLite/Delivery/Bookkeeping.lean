/-
# Delivery.Bookkeeping -- every tracked delivery is counted once

A delivery begins when a message is tracked whose id is not pending; tracking it
again while it is pending goes on with the same delivery.  A `DeliveryLedger`
numbers the deliveries and notes what the manager lets the outside see of them:
that `acknowledge` answered yes, which messages were returned for redelivery,
and which the handler was given.  Where the deliveries are is a `Custody` over
four places, and every operation hands deliveries on in it.

The handler returns normally: there is nothing it could raise.
-/
import BrokerLite.Delivery.DeadLetter
import BrokerLite.Delivery.Timeouts
import BrokerLite.Theory.Custody
import Mathlib.Tactic.Abel

namespace BrokerLite

open Theory

set_option autoImplicit false

inductive DeliveryPlace where
  | pending
  | acknowledged
  | returned
  | deadLettered
  deriving DecidableEq

instance : Fintype DeliveryPlace where
  elems := {.pending, .acknowledged, .returned, .deadLettered}
  complete := by rintro ⟨⟩ <;> decide

theorem DeliveryPlace.total_eq {α : Type} (c : Custody DeliveryPlace α) :
    c.total = c .pending + (c .acknowledged + (c .returned + c .deadLettered)) := by
  simp [Custody.total, Finset.univ, Fintype.elems]

/-- The places that nothing leaves. -/
def DeliveryPlace.Final (place : DeliveryPlace) : Prop := place ≠ .pending

structure DeliveryLedger where
  manager : AckManager
  /-- The number of the last delivery of a message id. -/
  number : String → ℕ := fun _ => 0
  /-- How often an id was tracked that was not pending. -/
  opened : ℕ := 0
  acknowledged : List ℕ := []
  returned : List ℕ := []
  deadLettered : List ℕ := []

namespace DeliveryLedger

variable (messages : MessageTable)

/-- A call that took deliveries back: what it handed over, what it returned, and
the manager after it. -/
def failed (r : DeliveryLedger) (letters : DeadLetters) (returned : List MessageRef)
    (after : AckManager) : DeliveryLedger :=
  { r with
    manager := after
    returned := r.returned ++ returned.map fun m => r.number (messages m).id
    deadLettered := r.deadLettered ++ letters.map fun e => r.number (messages e.1).id }

def step (r : DeliveryLedger) : AckOp Empty → DeliveryLedger
  | .track sentAt now m consumerId timeout =>
      let tracked := { r with manager := r.manager.track messages sentAt now m consumerId timeout }
      if r.manager.pending.contains (messages m).id then tracked
      else
        { tracked with
          number := Function.update r.number (messages m).id r.opened, opened := r.opened + 1 }
  | .acknowledge messageId =>
      let answered := r.manager.acknowledge messageId
      { r with
        manager := answered.2
        acknowledged := r.acknowledged ++ if answered.1 then [r.number messageId] else [] }
  | .negativeAcknowledge handler messageId =>
      let called := r.manager.negativeAcknowledge handler messageId
      r.failed messages called.2.1 (AckManager.nackReturned called.1) called.2.2
  | .checkTimeouts handler now =>
      let called := r.manager.checkTimeouts handler now
      r.failed messages called.2.1 (AckManager.timeoutsReturned called.1) called.2.2

/-- The deliveries at each place. -/
def placed (r : DeliveryLedger) : DeliveryPlace → List ℕ
  | .pending => r.manager.pending.keys.map r.number
  | .acknowledged => r.acknowledged
  | .returned => r.returned
  | .deadLettered => r.deadLettered

def custody (r : DeliveryLedger) : Custody DeliveryPlace ℕ := fun place => ↑(r.placed place)

/-- A manager with a handler, nothing pending and nothing counted yet. -/
structure Start (r : DeliveryLedger) : Prop where
  handler : r.manager.onDeadLetter = true
  pending : r.manager.pending = .empty
  counters : r.manager.totalAcked = 0 ∧ r.manager.totalRedelivered = 0 ∧ r.manager.totalDeadLettered = 0
  opened : r.opened = 0
  nothing : r.acknowledged = [] ∧ r.returned = [] ∧ r.deadLettered = []

/-- The operation is a failure of the pending record `p` of `id`: a negative
acknowledgement, or a check of the timeouts after its deadline. -/
def Fails (id : String) (p : PendingAck) : AckOp Empty → Prop
  | .negativeAcknowledge _ messageId => messageId = id
  | .checkTimeouts _ now => p.deadline ≤ now
  | _ => False

/-- Every delivery is at exactly one place, and there once; the counters agree; and
a record that fails goes to the handler when its attempts have reached the
maximum, and back to the caller otherwise. -/
structure Exact (r : DeliveryLedger) : Prop where
  counted : r.opened = r.manager.pending.length + r.manager.totalAcked + r.manager.totalRedelivered +
    r.manager.totalDeadLettered
  placed : ∀ n < r.opened, ∃! place, n ∈ r.placed place
  once : ∀ place, (r.placed place).Nodup
  failing : ∀ op id p, r.manager.pending.get? id = some p → Fails id p op →
    let after := r.step messages op
    after.manager.pending.get? id = none ∧
      (r.number id ∈ after.deadLettered ↔ r.manager.maxAttempts ≤ p.attempts) ∧
      (r.number id ∈ after.returned ↔ p.attempts < r.manager.maxAttempts)

/-- The places hold the deliveries that were opened, and records stand under the
ids of their messages with the manager's maximum. -/
structure Sound (r : DeliveryLedger) : Prop where
  handler : r.manager.onDeadLetter = true
  keyed : ∀ id p, r.manager.pending.get? id = some p →
    (messages p.message).id = id ∧ p.maxAttempts = r.manager.maxAttempts
  balance : r.custody.total = Multiset.range r.opened
  acked : r.manager.totalAcked = r.acknowledged.length
  redelivered : r.manager.totalRedelivered = r.returned.length
  lettered : r.manager.totalDeadLettered = r.deadLettered.length

variable {messages} {r : DeliveryLedger}

theorem Start.sound (start : r.Start) : r.Sound messages where
  handler := start.handler
  keyed id p found := by simp [start.pending] at found
  balance := by
    obtain ⟨acknowledged, returned, lettered⟩ := start.nothing
    rw [DeliveryPlace.total_eq, start.opened]
    simp [custody, DeliveryLedger.placed, start.pending, acknowledged, returned, lettered]
  acked := by simp [start.counters.1, start.nothing.1]
  redelivered := by simp [start.counters.2.1, start.nothing.2.1]
  lettered := by simp [start.counters.2.2, start.nothing.2.2]

/-! ## Records that are taken out -/

/-- What stays pending, and what was taken out. -/
theorem settleAll_keys_perm {a : AckManager} {taken : List (String × PendingAck)}
    (there : ∀ e ∈ taken, a.pending.get? e.1 = some e.2) (nodup : (taken.map Prod.fst).Nodup) :
    a.pending.keys.Perm (taken.map Prod.fst ++ (a.settleAll taken).pending.keys) := by
  induction taken generalizing a with
  | nil => exact List.Perm.refl _
  | cons e rest ih =>
      obtain ⟨absent, nodup⟩ := List.nodup_cons.mp nodup
      have others : ∀ e' ∈ rest, (a.settle e).pending.get? e'.1 = some e'.2 := by
        intro e' member
        have other : e'.1 ≠ e.1 := fun same => absent (same ▸ List.mem_map_of_mem member)
        rw [AckManager.settle_pending, Dict.get?_erase_of_ne _ other]
        exact there e' (List.mem_cons_of_mem e member)
      have first := (Dict.perm_erase (there e List.mem_cons_self)).map Prod.fst
      have later := ih others nodup
      rw [AckManager.settle_pending] at later
      exact first.trans (later.cons e.1)

/-- Records that fail: what is returned and handed over are their messages, and the
manager has settled them. -/
structure Failed (r : DeliveryLedger) (taken : List (String × PendingAck)) (letters : DeadLetters)
    (returned : List MessageRef) (after : AckManager) : Prop where
  there : ∀ e ∈ taken, r.manager.pending.get? e.1 = some e.2
  nodup : (taken.map Prod.fst).Nodup
  letters : letters.map Prod.fst = (taken.filter fun e => e.2.Exhausted).map fun e => e.2.message
  returned : returned = AckManager.redelivered taken
  settled : ∃ nacked, after = { r.manager.settleAll taken with totalNacked := nacked }

section Failed

variable {taken : List (String × PendingAck)} {letters : DeadLetters} {returned : List MessageRef}
  {after : AckManager}

/-- Numbers of records, read off their messages. -/
theorem Sound.numbers (sound : r.Sound messages) {some_ : List (String × PendingAck)}
    (there : ∀ e ∈ some_, r.manager.pending.get? e.1 = some e.2) :
    (some_.map fun e => e.2.message).map (fun m => r.number (messages m).id) =
      some_.map fun e => r.number e.1 := by
  rw [List.map_map]
  refine List.map_congr_left fun e member => ?_
  show r.number (messages e.2.message).id = r.number e.1
  rw [(sound.keyed e.1 e.2 (there e member)).1]

/-- The exhausted records go to the handler, the others back to the caller. -/
theorem Failed.places (sound : r.Sound messages) (failed : r.Failed taken letters returned after) :
    (r.failed messages letters returned after).returned =
        r.returned ++ (taken.filter fun e => ¬ e.2.Exhausted).map (fun e => r.number e.1) ∧
      (r.failed messages letters returned after).deadLettered =
        r.deadLettered ++ (taken.filter fun e => e.2.Exhausted).map fun e => r.number e.1 := by
  have there : ∀ (P : String × PendingAck → Bool), ∀ e ∈ taken.filter P,
      r.manager.pending.get? e.1 = some e.2 := fun P e member =>
    failed.there e (List.mem_filter.mp member).1
  constructor
  · show r.returned ++ returned.map _ = _
    rw [failed.returned, AckManager.redelivered, sound.numbers (there _)]
  · show r.deadLettered ++ letters.map _ = _
    have named : letters.map (fun e => r.number (messages e.1).id) =
        (letters.map Prod.fst).map fun m => r.number (messages m).id := by
      rw [List.map_map]
      rfl
    rw [named, failed.letters, sound.numbers (there _)]

theorem Failed.keys (failed : r.Failed taken letters returned after) :
    r.manager.pending.keys.Perm (taken.map Prod.fst ++ after.pending.keys) := by
  obtain ⟨nacked, rfl⟩ := failed.settled
  exact settleAll_keys_perm failed.there failed.nodup

theorem Failed.kept (sound : r.Sound messages) (failed : r.Failed taken letters returned after) :
    Custody.Kept DeliveryPlace.Final r.custody (r.failed messages letters returned after).custody := by
  obtain ⟨back, handed⟩ := failed.places sound
  constructor
  · have keys : (↑(r.manager.pending.keys.map r.number) : Multiset ℕ) =
        ↑(taken.map fun e => r.number e.1) + ↑(after.pending.keys.map r.number) := by
      have renamed := Multiset.coe_eq_coe.mpr (failed.keys.map r.number)
      rw [List.map_append, List.map_map] at renamed
      exact renamed
    have both : (↑(taken.map fun e => r.number e.1) : Multiset ℕ) =
        ↑((taken.filter fun e => e.2.Exhausted).map fun e => r.number e.1) +
          ↑((taken.filter fun e => ¬ e.2.Exhausted).map fun e => r.number e.1) := by
      rw [Multiset.coe_add, ← List.map_append]
      refine Multiset.coe_eq_coe.mpr (List.Perm.map _ ?_)
      simpa using (List.filter_append_perm (fun e => decide e.2.Exhausted) taken).symm
    rw [DeliveryPlace.total_eq, DeliveryPlace.total_eq]
    show (↑(after.pending.keys.map r.number) : Multiset ℕ) + (↑r.acknowledged +
        (↑(r.failed messages letters returned after).returned +
          ↑(r.failed messages letters returned after).deadLettered)) =
      ↑(r.manager.pending.keys.map r.number) + (↑r.acknowledged + (↑r.returned + ↑r.deadLettered))
    rw [back, handed, keys, both, ← Multiset.coe_add, ← Multiset.coe_add]
    abel
  · intro place final
    cases place with
    | pending => exact absurd rfl final
    | acknowledged => exact le_refl _
    | returned =>
        show (↑r.returned : Multiset ℕ) ≤ ↑(r.failed messages letters returned after).returned
        rw [back, ← Multiset.coe_add]
        exact Multiset.le_add_right _ _
    | deadLettered =>
        show (↑r.deadLettered : Multiset ℕ) ≤ ↑(r.failed messages letters returned after).deadLettered
        rw [handed, ← Multiset.coe_add]
        exact Multiset.le_add_right _ _

theorem Failed.sound (sound : r.Sound messages) (failed : r.Failed taken letters returned after) :
    (r.failed messages letters returned after).Sound messages := by
  obtain ⟨back, handed⟩ := failed.places sound
  have balance := (failed.kept sound).total.trans sound.balance
  obtain ⟨nacked, rfl⟩ := failed.settled
  constructor
  · show (r.manager.settleAll taken).onDeadLetter = true
    rw [AckManager.settleAll_onDeadLetter]
    exact sound.handler
  · intro id p found
    show (messages p.message).id = id ∧ p.maxAttempts = (r.manager.settleAll taken).maxAttempts
    have found : (r.manager.settleAll taken).pending.get? id = some p := found
    rw [AckManager.settleAll_get?] at found
    rw [AckManager.settleAll_maxAttempts]
    split at found
    · cases found
    · exact sound.keyed id p found
  · exact balance
  · show (r.manager.settleAll taken).totalAcked = r.acknowledged.length
    rw [AckManager.settleAll_totalAcked]
    exact sound.acked
  · rw [back, List.length_append]
    show (r.manager.settleAll taken).totalRedelivered = _
    rw [AckManager.settleAll_totalRedelivered, sound.redelivered]
    simp [AckManager.redelivered]
  · rw [handed, List.length_append]
    show (r.manager.settleAll taken).totalDeadLettered = _
    rw [AckManager.settleAll_totalDeadLettered, sound.lettered]
    simp

end Failed

/-! ## The operations -/

/-- A handler that can raise nothing returns. -/
theorem not_raises (handler : MessageRef → DeadLetterReason → Option Empty) (a : AckManager)
    (p : PendingAck) : ¬ a.Raises handler p := by
  rintro ⟨-, -, some_⟩
  obtain ⟨raised, -⟩ := Option.isSome_iff_exists.mp some_
  exact raised.elim

theorem checkTimeouts_eq (handler : MessageRef → DeadLetterReason → Option Empty) (a : AckManager)
    (now : Timestamp) : a.checkTimeouts handler now =
      (.ok (AckManager.redelivered (a.expired now)), a.timeoutLetters (a.expired now),
        a.settleAll (a.expired now)) :=
  AckManager.checkTimeouts_of_returns fun e _ => not_raises handler a e.2

theorem Sound.checkTimeouts_failed (sound : r.Sound messages)
    (handler : MessageRef → DeadLetterReason → Option Empty) (now : Timestamp) :
    let called := r.manager.checkTimeouts handler now
    r.Failed (r.manager.expired now) called.2.1 (AckManager.timeoutsReturned called.1) called.2.2 := by
  rw [checkTimeouts_eq]
  refine ⟨AckManager.expired_there, r.manager.expired_nodup now, ?_, rfl, ⟨_, rfl⟩⟩
  rw [AckManager.timeoutLetters, if_pos sound.handler, List.map_map]
  rfl

theorem Sound.nack_failed (sound : r.Sound messages)
    (handler : MessageRef → DeadLetterReason → Option Empty) {id : String} {p : PendingAck}
    (found : r.manager.pending.get? id = some p) :
    let called := r.manager.negativeAcknowledge handler id
    r.Failed [(id, p)] called.2.1 (AckManager.nackReturned called.1) called.2.2 := by
  have there : ∀ e ∈ [(id, p)], r.manager.pending.get? e.1 = some e.2 := by simpa using found
  simp only [AckManager.negativeAcknowledge, found]
  by_cases exhausted : p.Exhausted
  · have limit : p.maxAttempts ≤ p.attempts := exhausted
    have returns : ∀ reason, handler p.message reason = none := fun _ => Subsingleton.elim _ _
    simp only [if_pos limit, AckManager.deadLetter, if_pos sound.handler, returns]
    refine ⟨there, List.nodup_singleton id, ?_, ?_, r.manager.totalNacked + 1, ?_⟩
    · simp [exhausted]
    · simp [AckManager.nackReturned, AckManager.redelivered, exhausted]
    · simp [AckManager.settle, exhausted]
  · have left : ¬ p.maxAttempts ≤ p.attempts := exhausted
    simp only [if_neg left]
    refine ⟨there, List.nodup_singleton id, ?_, ?_, r.manager.totalNacked + 1, ?_⟩
    · simp [exhausted]
    · simp [AckManager.nackReturned, AckManager.redelivered, exhausted]
    · simp [AckManager.settle, exhausted]

/-- An id that is not pending: a negative acknowledgement changes nothing. -/
theorem nack_absent (handler : MessageRef → DeadLetterReason → Option Empty) {id : String}
    (absent : r.manager.pending.get? id = none) :
    r.step messages (.negativeAcknowledge handler id) = r := by
  simp [step, AckManager.negativeAcknowledge, absent, failed, AckManager.nackReturned]

theorem keys_set_of_present {d : Dict String PendingAck} {k : String} {v w : PendingAck}
    (found : d.get? k = some v) : (d.set k w).keys.Perm d.keys := by
  refine (List.perm_ext_iff_of_nodup (d.set k w).keys_nodup d.keys_nodup).mpr fun k' => ?_
  rw [Dict.mem_keys_set]
  refine ⟨fun either => either.elim (fun same => ?_) id, .inr⟩
  rw [same, ← Dict.contains_iff, Dict.contains, found]
  rfl

theorem Sound.track (sound : r.Sound messages) (sentAt now : Timestamp) (m : MessageRef)
    (consumerId : String) (timeout : Option Timestamp) :
    let after := r.step messages (.track sentAt now m consumerId timeout)
    after.Sound messages ∧ ∀ place, place.Final → r.placed place = after.placed place := by
  intro after
  have stays : ∀ place, place.Final → r.placed place = after.placed place := by
    intro place final
    cases place with
    | pending => exact absurd rfl final
    | _ =>
        simp only [after, step]
        split <;> rfl
  have keyed : ∀ id p, (r.manager.track messages sentAt now m consumerId timeout).pending.get? id =
      some p → (messages p.message).id = id ∧ p.maxAttempts = r.manager.maxAttempts := by
    intro id p found
    simp only [AckManager.track, Dict.get?_set] at found
    split at found
    · next same =>
        cases found
        exact ⟨same.symm, rfl⟩
    · exact sound.keyed id p found
  refine ⟨?_, stays⟩
  by_cases there : r.manager.pending.contains (messages m).id = true
  · obtain ⟨p, found⟩ := Option.isSome_iff_exists.mp there
    simp only [after, step, if_pos there]
    refine ⟨sound.handler, keyed, ?_, sound.acked, sound.redelivered, sound.lettered⟩
    rw [← sound.balance, DeliveryPlace.total_eq, DeliveryPlace.total_eq]
    refine congrArg (· + _) (Multiset.coe_eq_coe.mpr (List.Perm.map _ ?_))
    exact keys_set_of_present found
  · simp only [after, step, if_neg there]
    refine ⟨sound.handler, keyed, ?_, sound.acked, sound.redelivered, sound.lettered⟩
    have absent : (messages m).id ∉ r.manager.pending.keys := fun member =>
      there (Dict.contains_iff.mpr member)
    have keys : (r.manager.track messages sentAt now m consumerId timeout).pending.keys =
        r.manager.pending.keys ++ [(messages m).id] := by
      rw [Dict.keys, AckManager.track, Dict.entries_set_of_absent absent, List.map_append]
      rfl
    -- the other pending deliveries keep their numbers
    have others : r.manager.pending.keys.map (Function.update r.number (messages m).id r.opened) =
        r.manager.pending.keys.map r.number := by
      refine List.map_congr_left fun id member => ?_
      rw [Function.update_of_ne (ne_of_mem_of_not_mem member absent)]
    rw [Multiset.range_succ, ← sound.balance, DeliveryPlace.total_eq, DeliveryPlace.total_eq]
    show (↑((r.manager.track messages sentAt now m consumerId timeout).pending.keys.map
        (Function.update r.number (messages m).id r.opened)) : Multiset ℕ) + _ = _
    rw [keys, List.map_append, others, List.map_singleton, Function.update_self, ← Multiset.coe_add,
      Multiset.coe_singleton, Multiset.add_comm (↑_) {r.opened}, add_assoc, Multiset.singleton_add]
    rfl

/-- What an acknowledgement of a pending id does. -/
theorem acknowledge_step {messageId : String} (there : r.manager.pending.contains messageId = true) :
    r.step messages (.acknowledge messageId) =
      { r with
        manager := { r.manager with
          pending := r.manager.pending.erase messageId, totalAcked := r.manager.totalAcked + 1 }
        acknowledged := r.acknowledged ++ [r.number messageId] } := by
  rw [step, AckManager.acknowledge, if_pos there]
  rfl

theorem acknowledge_moved {messageId : String}
    (there : r.manager.pending.contains messageId = true) :
    Custody.Moved {r.number messageId} .pending .acknowledged r.custody
      (r.step messages (.acknowledge messageId)).custody := by
  obtain ⟨p, found⟩ := Option.isSome_iff_exists.mp there
  intro place
  rw [acknowledge_step there]
  cases place with
  | pending =>
      have keys := ((Dict.perm_erase found).map Prod.fst).map r.number
      have keys := Multiset.coe_eq_coe.mpr keys
      rw [List.map_cons, List.map_cons, ← Multiset.cons_coe, ← Multiset.singleton_add] at keys
      rw [if_pos rfl, if_neg (by decide), add_zero, add_comm]
      exact keys.symm
  | acknowledged =>
      rw [if_neg (by decide), if_pos rfl, add_zero]
      exact (Multiset.coe_add _ _).symm
  | returned => rfl
  | deadLettered => rfl

theorem Sound.acknowledge (sound : r.Sound messages) (messageId : String) :
    let after := r.step messages (.acknowledge messageId)
    after.Sound messages ∧ Custody.Kept DeliveryPlace.Final r.custody after.custody := by
  intro after
  by_cases there : r.manager.pending.contains messageId = true
  · have moved : Custody.Moved _ _ _ r.custody after.custody := acknowledge_moved there
    have kept : Custody.Kept DeliveryPlace.Final r.custody after.custody :=
      moved.kept fun final => final rfl
    refine ⟨?_, kept⟩
    have balance := kept.total.trans sound.balance
    simp only [after] at balance ⊢
    rw [acknowledge_step there] at balance ⊢
    refine ⟨sound.handler, fun id p found => ?_, balance, ?_, sound.redelivered, sound.lettered⟩
    · exact sound.keyed id p (Dict.get?_erase_eq_some_iff.mp found).2
    · rw [List.length_append]
      exact congrArg (· + 1) sound.acked
  · have same : after = r := by
      simp [after, DeliveryLedger.step, AckManager.acknowledge, there]
    rw [same]
    exact ⟨sound, .refl _⟩

/-- **One step** keeps the invariant, and what has left stays where it is. -/
theorem Sound.step (sound : r.Sound messages) (op : AckOp Empty) :
    (r.step messages op).Sound messages ∧
      ∀ place, place.Final → ∀ n ∈ r.placed place, n ∈ (r.step messages op).placed place := by
  have stays : ∀ {after : DeliveryLedger}, Custody.Kept DeliveryPlace.Final r.custody after.custody →
      ∀ place, place.Final → ∀ n ∈ r.placed place, n ∈ after.placed place :=
    fun kept place final n here => Multiset.mem_of_le (kept.stays place final) here
  cases op with
  | track sentAt now m consumerId timeout =>
      obtain ⟨tracked, same⟩ := sound.track sentAt now m consumerId timeout
      exact ⟨tracked, fun place final n here => same place final ▸ here⟩
  | acknowledge messageId => exact (sound.acknowledge messageId).imp_right stays
  | negativeAcknowledge handler messageId =>
      cases found : r.manager.pending.get? messageId with
      | none =>
          rw [nack_absent handler found]
          exact ⟨sound, fun _ _ _ here => here⟩
      | some p =>
          have failed := sound.nack_failed handler found
          exact ⟨failed.sound sound, stays (failed.kept sound)⟩
  | checkTimeouts handler now =>
      have failed := sound.checkTimeouts_failed handler now
      exact ⟨failed.sound sound, stays (failed.kept sound)⟩

/-! ## What the invariant says -/

theorem Sound.once (sound : r.Sound messages) : r.custody.total.Nodup := by
  rw [sound.balance]
  exact Multiset.nodup_range r.opened

/-- A record that fails leaves, to the place its attempts say. -/
theorem Failed.failing (sound : r.Sound messages) {taken : List (String × PendingAck)}
    {letters : DeadLetters} {returned : List MessageRef} {after : AckManager}
    (failed : r.Failed taken letters returned after) {id : String} {p : PendingAck}
    (member : (id, p) ∈ taken) :
    (r.failed messages letters returned after).manager.pending.get? id = none ∧
      (r.number id ∈ (r.failed messages letters returned after).deadLettered ↔
        r.manager.maxAttempts ≤ p.attempts) ∧
      (r.number id ∈ (r.failed messages letters returned after).returned ↔
        p.attempts < r.manager.maxAttempts) := by
  have found := failed.there _ member
  obtain ⟨back, handed⟩ := failed.places sound
  have next := failed.sound sound
  have limit : p.Exhausted ↔ r.manager.maxAttempts ≤ p.attempts := by
    rw [PendingAck.Exhausted, (sound.keyed id p found).2]
  refine ⟨?_, ?_⟩
  · obtain ⟨nacked, rfl⟩ := failed.settled
    show (r.manager.settleAll taken).pending.get? id = none
    rw [AckManager.settleAll_get?, if_pos (List.mem_map_of_mem (f := Prod.fst) member)]
  · by_cases exhausted : p.Exhausted
    · have handed : r.number id ∈ (r.failed messages letters returned after).deadLettered := by
        rw [handed]
        refine List.mem_append_right _ (List.mem_map.mpr ⟨(id, p), ?_, rfl⟩)
        simp [member, exhausted]
      have elsewhere : r.number id ∉ (r.failed messages letters returned after).returned := fun here =>
        nomatch Custody.place_unique next.once (i := .deadLettered) (j := .returned) handed here
      have reached := limit.mp exhausted
      exact ⟨iff_of_true handed reached, iff_of_false elsewhere (not_lt.mpr reached)⟩
    · have given : r.number id ∈ (r.failed messages letters returned after).returned := by
        rw [back]
        refine List.mem_append_right _ (List.mem_map.mpr ⟨(id, p), ?_, rfl⟩)
        simp [member, exhausted]
      have elsewhere : r.number id ∉ (r.failed messages letters returned after).deadLettered :=
        fun here => nomatch Custody.place_unique next.once (i := .returned) (j := .deadLettered) given here
      have fewer : p.attempts < r.manager.maxAttempts := not_le.mp fun reached =>
        exhausted (limit.mpr reached)
      exact ⟨iff_of_false elsewhere (not_le.mpr fewer), iff_of_true given fewer⟩

theorem Sound.exact (sound : r.Sound messages) : r.Exact messages where
  counted := by
    have balance := congrArg Multiset.card sound.balance
    rw [DeliveryPlace.total_eq, Multiset.card_range] at balance
    simp only [custody, DeliveryLedger.placed, Multiset.card_add, Multiset.coe_card, List.length_map,
      Dict.length_keys] at balance
    rw [sound.acked, sound.redelivered, sound.lettered]
    omega
  placed n below := by
    refine Custody.existsUnique_place sound.once ?_
    rw [sound.balance]
    exact Multiset.mem_range.mpr below
  once place := Multiset.coe_nodup.mp (Custody.nodup_place sound.once place)
  failing op id p found fails := by
    cases op with
    | track | acknowledge => exact fails.elim
    | negativeAcknowledge handler messageId =>
        obtain rfl : messageId = id := fails
        exact (sound.nack_failed handler found).failing sound (List.mem_singleton.mpr rfl)
    | checkTimeouts handler now =>
        exact (sound.checkTimeouts_failed handler now).failing sound
          (AckManager.mem_expired.mpr ⟨found, fails⟩)

/-! ## Over whole runs -/

/-- **The bookkeeping is exact in every run**, and a delivery that was acknowledged,
returned or handed over stays that. -/
theorem run_exact (start : r.Start) (ops : List (AckOp Empty)) :
    let after := run (DeliveryLedger.step messages) r ops
    after.Exact messages ∧ ∀ before, before <+: ops → ∀ place, place.Final →
      ∀ n ∈ (run (DeliveryLedger.step messages) r before).placed place, n ∈ after.placed place := by
  intro after
  have preserved : ∀ s op, Sound messages s → Sound messages (s.step messages op) :=
    fun s op sound => (sound.step op).1
  refine ⟨(run_preserves preserved start.sound ops).exact, ?_⟩
  rintro before ⟨rest, rfl⟩ place final n here
  have there : (run (DeliveryLedger.step messages) r before).Sound messages :=
    run_preserves preserved start.sound before
  show n ∈ (run (DeliveryLedger.step messages) r (before ++ rest)).placed place
  rw [run_append]
  have both : ∀ s op, Sound messages s ∧ n ∈ s.placed place →
      Sound messages (s.step messages op) ∧ n ∈ (s.step messages op).placed place :=
    fun s op held => ⟨(held.1.step op).1, (held.1.step op).2 place final n held.2⟩
  exact (run_preserves both ⟨there, here⟩ rest).2

/-- A manager with a handler that allows two attempts. -/
def ledgerStart : DeliveryLedger where
  manager := { maxAttempts := 2, onDeadLetter := true }

/-- Message 0 is tracked twice and times out, message 1 is tracked twice with a
failure in between and acknowledged. -/
def ledgerOps : List (AckOp Empty) :=
  [.track 0 0 0 "c" none, .track 0 0 1 "c" (some 5), .track 1 1 0 "c" none,
    .negativeAcknowledge (fun _ _ => none) "1", .track 6 6 1 "d" none,
    .checkTimeouts (fun _ _ => none) 31, .acknowledge "1"]

theorem ledgerOps_exact :
    let after := run (DeliveryLedger.step AckRun.pairMessages) ledgerStart ledgerOps
    after.Exact AckRun.pairMessages ∧ ∀ before, before <+: ledgerOps → ∀ place, place.Final →
      ∀ n ∈ (run (DeliveryLedger.step AckRun.pairMessages) ledgerStart before).placed place,
        n ∈ after.placed place :=
  run_exact ⟨rfl, rfl, ⟨rfl, rfl, rfl⟩, rfl, ⟨rfl, rfl, rfl⟩⟩ ledgerOps

end DeliveryLedger

end BrokerLite
