/-
# Delivery.AckManager -- attempts, redelivery and dead letters

An `AckManager` keeps one record for every message that was delivered and not
answered yet; the record counts the delivery attempts.  A negative
acknowledgement or a timeout takes the record out and either returns the message
for redelivery or hands it to the dead letter handler, once the attempts have
reached the maximum.

The count lives in the record that the failure takes out.  A message that is
tracked again after each failure therefore starts at one attempt every time
(`AckRun.Sound.fresh`): with a maximum of one it is handed over at its first
failure, with any larger maximum never.

What the handler does at a call is a parameter of the call: it returns, or it
raises something.
-/
import BrokerLite.Store.Message
import BrokerLite.Theory.Run

namespace BrokerLite

open Theory

set_option autoImplicit false

structure PendingAck where
  message : MessageRef
  consumerId : String
  sentAt : Timestamp
  deadline : Timestamp
  attempts : ℤ := 1
  maxAttempts : ℤ := 5

/-- Why a message went to the dead letter handler. -/
inductive DeadLetterReason where
  | attemptsExceeded (limit attempts : ℤ)
  | ackTimeout (attempts : ℤ) (timeout : Timestamp)
  deriving DecidableEq

/-- The text the handler is given; `str` prints a number of seconds. -/
def DeadLetterReason.text (str : Timestamp → String) : DeadLetterReason → String
  | .attemptsExceeded limit attempts =>
      s!"Max attempts ({limit}) exceeded after {attempts} deliveries"
  | .ackTimeout attempts timeout => s!"Ack timeout after {attempts} attempts (timeout={str timeout}s)"

structure AckManager where
  ackTimeout : Timestamp := 30
  maxAttempts : ℤ := 5
  /-- Whether a dead letter handler is set. -/
  onDeadLetter : Bool := false
  pending : Dict String PendingAck := .empty
  totalAcked : ℕ := 0
  totalNacked : ℕ := 0
  totalDeadLettered : ℕ := 0
  totalRedelivered : ℕ := 0

/-- What the dead letter handler was given. -/
abbrev DeadLetters := List (MessageRef × DeadLetterReason)

namespace AckManager

variable {ε : Type} (messages : MessageTable) (handler : MessageRef → DeadLetterReason → Option ε)

/-- `track`; the clock is read for the sending time and again for the deadline. -/
def track (sentAt now : Timestamp) (a : AckManager) (m : MessageRef) (consumerId : String)
    (timeout : Option Timestamp) : AckManager :=
  let attempts := match a.pending.get? (messages m).id with
    | some existing => existing.attempts + 1
    | none => 1
  { a with
    pending := a.pending.set (messages m).id
      { message := m, consumerId, sentAt, deadline := now + orDefault timeout a.ackTimeout, attempts,
        maxAttempts := a.maxAttempts } }

def acknowledge (a : AckManager) (messageId : String) : Bool × AckManager :=
  if a.pending.contains messageId then
    (true, { a with
      pending := a.pending.erase messageId, totalAcked := a.totalAcked + 1 })
  else (false, a)

/-- Route a record that has used up its attempts: what the handler raised and
what it was given. -/
def deadLetter (a : AckManager) (m : MessageRef) (reason : DeadLetterReason) :
    Option ε × DeadLetters × AckManager :=
  let a := { a with totalDeadLettered := a.totalDeadLettered + 1 }
  if a.onDeadLetter then (handler m reason, [(m, reason)], a) else (none, [], a)

def negativeAcknowledge (a : AckManager) (messageId : String) :
    Except ε (Option MessageRef) × DeadLetters × AckManager :=
  match a.pending.get? messageId with
  | none => (.ok none, [], a)
  | some pending =>
      let a := { a with pending := a.pending.erase messageId, totalNacked := a.totalNacked + 1 }
      if pending.maxAttempts ≤ pending.attempts then
        match a.deadLetter handler pending.message
          (.attemptsExceeded pending.maxAttempts pending.attempts) with
        | (some raised, letters, a) => (.error raised, letters, a)
        | (none, letters, a) => (.ok none, letters, a)
      else (.ok (some pending.message), [], { a with totalRedelivered := a.totalRedelivered + 1 })

/-- The loop of `check_timeouts` over the expired ids; `timedOut` is what it has
collected so far. -/
def expire : List String → List MessageRef → AckManager →
    Except ε (List MessageRef) × DeadLetters × AckManager
  | [], timedOut, a => (.ok timedOut, [], a)
  | id :: rest, timedOut, a =>
      match a.pending.get? id with
      | none => expire rest timedOut a
      | some pending =>
          let a := { a with pending := a.pending.erase id }
          if pending.maxAttempts ≤ pending.attempts then
            match a.deadLetter handler pending.message (.ackTimeout pending.attempts a.ackTimeout) with
            | (some raised, letters, a) => (.error raised, letters, a)
            | (none, letters, a) =>
                let later := expire rest timedOut a
                (later.1, letters ++ later.2.1, later.2.2)
          else
            expire rest (timedOut ++ [pending.message])
              { a with totalRedelivered := a.totalRedelivered + 1 }

def checkTimeouts (now : Timestamp) (a : AckManager) :
    Except ε (List MessageRef) × DeadLetters × AckManager :=
  expire handler ((a.pending.entries.filter fun e => e.2.deadline ≤ now).map Prod.fst) [] a

end AckManager

end BrokerLite
