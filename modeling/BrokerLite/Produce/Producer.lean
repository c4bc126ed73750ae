/-
# Produce.Producer -- batching, sending and counting

A producer builds a message for every `send` and hands it to the function it was
given, `publish_fn`, at once or with the batch it buffers.  That function, the two
callbacks and the clock belong to others: an `Environment` has them as functions on
a state `σ` of its own, which may raise any `ε`.  None of them calls the producer.

`send_all` is the loop of `_flush_batch`.  An exception that a callback raises while
an exception is handled ends the loop, and with it the call.
-/
import BrokerLite.Broker.Broker
import BrokerLite.Codec.BinarySerializer

namespace BrokerLite

open Theory

set_option autoImplicit false

structure ProducerConfig where
  batchSize : ℤ := 16
  lingerMs : ℤ := 100
  enableIdempotence : Bool := false

structure Producer where
  producerId : String
  config : ProducerConfig := {}
  batch : List Message := []
  sequenceNumber : ℤ := 0
  totalSent : ℕ := 0
  totalErrors : ℕ := 0
  lastFlush : Timestamp
  closed : Bool := false

/-! ## What the producer calls -/

structure Environment (σ ε : Type) where
  time : σ → Timestamp × σ
  uuid4 : σ → String × σ
  /-- `str.encode("utf-8")`, where it does not raise. -/
  encode : String → Option (List UInt8) := fun text => some (utf8 text)
  /-- `isinstance(e, Exception)`. -/
  isException : ε → Bool := fun _ => true
  /-- Returns or raises, and leaves the message object as given. -/
  publishFn : Option (Message → σ → Except ε RecordMetadata × Message × σ) := none
  onSuccess : Option (RecordMetadata → σ → Except ε Unit × σ) := none
  onError : Option (Message → ε → σ → Except ε Unit × σ) := none

namespace Environment

variable {σ ε : Type}

/-- The success callback, if there is one. -/
def callSuccess (env : Environment σ ε) (s : σ) (metadata : RecordMetadata) : Except ε Unit × σ :=
  match env.onSuccess with
  | none => (.ok (), s)
  | some callback => callback metadata s

/-- The error callback, if there is one. -/
def callError (env : Environment σ ε) (s : σ) (message : Message) (e : ε) : Except ε Unit × σ :=
  match env.onError with
  | none => (.ok (), s)
  | some callback => callback message e s

end Environment

/-! ## The calls -/

/-- `bytes | str`. -/
inductive BytesOrStr where
  | bytes (value : List UInt8)
  | text (value : String)

def BytesOrStr.encoded (encode : String → Option (List UInt8)) : BytesOrStr → Option (List UInt8)
  | .bytes value => some value
  | .text value => encode value

/-- The arguments of `send`. -/
structure SendArgs where
  topic : String
  value : BytesOrStr
  key : Option String := none
  headers : Option (Dict String String) := none
  partition : ℤ := -1
  priority : ℤ := 0
  ttl : ℤ := 0

inductive SendError (ε : Type) where
  /-- `RuntimeError("Producer is closed")`. -/
  | closed
  /-- The value has no encoding. -/
  | unicodeEncodeError
  | raised (e : ε)

namespace Producer

variable {σ ε : Type}

/-- The constructor; `hex` are the digits of a new id. -/
def new (hex : String) (now : Timestamp) (producerId : Option String) (config : Option ProducerConfig) :
    Producer where
  producerId := match producerId with
    | some id => if id = "" then "producer-" ++ hex else id
    | none => "producer-" ++ hex
  config := config.getD {}
  lastFlush := now

/-- The `except Exception` branch of `_do_send`. -/
def failed (env : Environment σ ε) (p : Producer) (s : σ) (message : Message) (e : ε) :
    Except ε (Option RecordMetadata) × Producer × σ :=
  if env.isException e then
    let p := { p with totalErrors := p.totalErrors + 1 }
    match env.callError s message e with
    | (.ok _, s) => (.ok none, p, s)
    | (.error e, s) => (.error e, p, s)
  else (.error e, p, s)

def doSend (env : Environment σ ε) (p : Producer) (s : σ) (message : Message) :
    Except ε (Option RecordMetadata) × Producer × σ :=
  match env.publishFn with
  | none =>
      let (now, s) := env.time s
      let metadata : RecordMetadata :=
        { topic := message.topic, partition := message.partition, offset := -1, timestamp := now,
          messageId := message.id }
      (.ok (some metadata), { p with totalSent := p.totalSent + 1 }, s)
  | some publish =>
      match publish message s with
      | (.error e, message, s) => p.failed env s message e
      | (.ok metadata, message, s) =>
          let p := { p with totalSent := p.totalSent + 1 }
          match env.callSuccess s metadata with
          | (.ok _, s) => (.ok (some metadata), p, s)
          | (.error e, s) => p.failed env s message e

/-- The loop of `_flush_batch`, with the metadata it returns if nothing follows. -/
def sendAll (env : Environment σ ε) (p : Producer) (s : σ) (last : Option RecordMetadata) :
    List Message → Except ε (Option RecordMetadata) × Producer × σ
  | [] => (.ok last, p, s)
  | message :: rest =>
      match p.doSend env s message with
      | (.error e, p, s) => (.error e, p, s)
      | (.ok result, p, s) => sendAll env p s (result.or last) rest

/-- The buffer is taken out to be sent. -/
def taken (env : Environment σ ε) (p : Producer) (s : σ) : Producer × σ × List Message :=
  let batch := p.batch
  let (now, s) := env.time s
  ({ p with batch := [], lastFlush := now }, s, batch)

def flushBatch (env : Environment σ ε) (p : Producer) (s : σ) :
    Except ε (Option RecordMetadata) × Producer × σ :=
  let (p, s, batch) := p.taken env s
  sendAll env p s none batch

section Frame

variable (env : Environment σ ε) (p : Producer) (s : σ)

theorem failed_batch (message : Message) (e : ε) : (p.failed env s message e).2.1.batch = p.batch := by
  unfold failed
  split
  · dsimp only
    split <;> rfl
  · rfl

theorem doSend_batch (message : Message) : (p.doSend env s message).2.1.batch = p.batch := by
  unfold doSend
  split
  · rfl
  · split
    · exact failed_batch ..
    · dsimp only
      split
      · rfl
      · exact failed_batch ..

theorem sendAll_batch (last : Option RecordMetadata) (batch : List Message) :
    (p.sendAll env s last batch).2.1.batch = p.batch := by
  induction batch generalizing p s last with
  | nil => rfl
  | cons message rest ih =>
      have kept := p.doSend_batch env s message
      rw [sendAll]
      split
      · next e q t done => rwa [done] at kept
      · next result q t done =>
          rw [done] at kept
          rw [ih]
          exact kept

/-- The buffer is emptied before the loop starts. -/
theorem flushBatch_batch : (p.flushBatch env s).2.1.batch = [] :=
  sendAll_batch env { p with batch := [], lastFlush := (env.time s).1 } (env.time s).2 none p.batch

end Frame

/-- The loop of `flush`, with the results so far. -/
def flushFrom (env : Environment σ ε) (results : List RecordMetadata) (p : Producer) (s : σ) :
    Except ε (List RecordMetadata) × Producer × σ :=
  if p.batch = [] then (.ok results, p, s)
  else
    match _done : p.flushBatch env s with
    | (.error e, q, t) => (.error e, q, t)
    | (.ok result, q, t) => flushFrom env (results ++ result.toList) q t
termination_by p.batch.length
decreasing_by
  have empty := p.flushBatch_batch env s
  rw [_done] at empty
  rw [empty]
  exact List.length_pos_iff.mpr ‹_›

def flush (env : Environment σ ε) (p : Producer) (s : σ) :
    Except ε (List RecordMetadata) × Producer × σ :=
  flushFrom env [] p s

/-- The message object that `send` makes. -/
def message (env : Environment σ ε) (p : Producer) (s : σ) (args : SendArgs) (value : List UInt8) :
    Message × σ :=
  let (id, s) := env.uuid4 s
  let (now, s) := env.time s
  ({ topic := args.topic, value, key := args.key, id,
     headers := args.headers.getD .empty, timestamp := now, partition := args.partition,
     priority := args.priority, ttl := args.ttl, producerId := p.producerId }, s)

/-- The message gets the next sequence number, if the producer gives any. -/
def numbered (p : Producer) (message : Message) : Message × Producer :=
  if p.config.enableIdempotence then
    ({ message with sequenceNumber := p.sequenceNumber },
      { p with sequenceNumber := p.sequenceNumber + 1 })
  else (message, p)

/-- `send` up to the choice of the path: the message and what it leaves, or why there is none. -/
def accept (env : Environment σ ε) (p : Producer) (s : σ) (args : SendArgs) :
    Except (SendError ε) (Message × Producer × σ) :=
  if p.closed then .error .closed
  else
    match args.value.encoded env.encode with
    | none => .error .unicodeEncodeError
    | some value =>
        let (message, s) := p.message env s args value
        let (message, p) := p.numbered message
        .ok (message, p, s)

/-- The message is put into the buffer; is the batch due? -/
def buffer (env : Environment σ ε) (p : Producer) (s : σ) (message : Message) : Bool × Producer × σ :=
  let p := { p with batch := p.batch ++ [message] }
  if p.config.batchSize ≤ p.batch.length then (true, p, s)
  else
    let (now, s) := env.time s
    (decide (p.config.lingerMs ≤ (now - p.lastFlush) * 1000), p, s)

/-- The exception leaves `send`. -/
def raising (done : Except ε (Option RecordMetadata) × Producer × σ) :
    Except (SendError ε) (Option RecordMetadata) × Producer × σ :=
  (done.1.mapError .raised, done.2)

def send (env : Environment σ ε) (p : Producer) (s : σ) (args : SendArgs) :
    Except (SendError ε) (Option RecordMetadata) × Producer × σ :=
  match p.accept env s args with
  | .error e => (.error e, p, s)
  | .ok (message, p, s) =>
      if p.config.batchSize ≤ 1 then raising (p.doSend env s message)
      else
        match p.buffer env s message with
        | (true, p, s) => raising (p.flushBatch env s)
        | (false, p, s) => (.ok none, p, s)

def close (env : Environment σ ε) (p : Producer) (s : σ) : Except ε Unit × Producer × σ :=
  match p.flush env s with
  | (.error e, p, s) => (.error e, p, s)
  | (.ok _, p, s) => (.ok (), { p with closed := true }, s)

/-! ## What a flush is -/

/-- The loop of `flush` runs once. -/
theorem flush_eq (env : Environment σ ε) (p : Producer) (s : σ) :
    p.flush env s = if p.batch = [] then (.ok [], p, s) else
      (((p.flushBatch env s).1.map Option.toList), (p.flushBatch env s).2) := by
  rw [flush, flushFrom]
  split
  · rfl
  · have empty := p.flushBatch_batch env s
    split
    · next e q t done => simp [done, Except.map]
    · next result q t done =>
        rw [done] at empty
        rw [flushFrom, if_pos empty]
        simp [done, Except.map]

theorem flush_batch (env : Environment σ ε) (p : Producer) (s : σ) : (p.flush env s).2.1.batch = [] := by
  rw [flush_eq]
  split
  · next empty => exact empty
  · exact p.flushBatch_batch env s

end Producer

end BrokerLite
