/-
# Flow.Isolation -- a producer under backpressure is on its own

A run of a `BackpressureManager` checks publishes of any producers, makes and removes
limiters, updates depths and takes snapshots; the verdicts given are kept.

Reading a limiter does not change what it grants (`refill_refill`), and nothing else of
other producers reaches it: a producer gets the verdicts it would get alone
(`run_alone`).  Every refusal is counted once, and while its limiter is not removed a
producer passes at most its burst and its rate (`run_counted`).
-/
import BrokerLite.Flow.Backpressure

namespace BrokerLite

open Theory

set_option autoImplicit false

structure BackpressureSnapshot where
  config : BackpressureConfig
  producerLimiters : Dict String RateLimiterSnapshot
  topicDepths : Dict String ℤ
  totalThrottled : ℕ
  totalRejected : ℕ

namespace BackpressureManager

def updateTopicDepth (b : BackpressureManager) (topic : String) (depth : ℤ) : BackpressureManager :=
  { b with topicDepths := b.topicDepths.set topic depth }

def isTopicAtCapacity (b : BackpressureManager) (topic : String) : Bool :=
  b.config.maxQueueDepth ≤ b.topicDepths.getD topic 0

def detectSlowConsumers (b : BackpressureManager) (consumerLag : Dict String ℤ) : List String :=
  (consumerLag.entries.filter fun e => b.config.slowConsumerThreshold ≤ e.2).map Prod.fst

def removeProducer (b : BackpressureManager) (producerId : String) : BackpressureManager :=
  { b with producerLimiters := b.producerLimiters.erase producerId }

/-- Every limiter reads the clock for its part. -/
def snapshot (nows : String → Timestamp) (b : BackpressureManager) :
    BackpressureSnapshot × BackpressureManager :=
  ({ config := b.config
     producerLimiters := b.producerLimiters.mapValues fun id limiter => (limiter.snapshot (nows id)).1
     topicDepths := b.topicDepths
     totalThrottled := b.totalThrottled
     totalRejected := b.totalRejected },
    { b with
      producerLimiters := b.producerLimiters.mapValues fun id limiter => (limiter.snapshot (nows id)).2 })

end BackpressureManager

/-! ## Runs -/

inductive BackpressureOp where
  | check (made now : Timestamp) (producerId topic : String) (currentDepth : ℤ)
  | getProducerLimiter (made : Timestamp) (producerId : String)
  | updateTopicDepth (topic : String) (depth : ℤ)
  | removeProducer (producerId : String)
  | snapshot (nows : String → Timestamp)

/-- The call is about the limiter of that producer. -/
def BackpressureOp.concerns (producerId : String) : BackpressureOp → Bool
  | .check _ _ id _ _ | .getProducerLimiter _ id | .removeProducer id => id = producerId
  | .updateTopicDepth .. | .snapshot _ => false

/-- A verdict: on whose publish, and when. -/
structure Verdict where
  producerId : String
  time : Timestamp
  verdict : PublishVerdict

def PublishVerdict.isOk : PublishVerdict → Bool
  | .ok => true
  | _ => false

def PublishVerdict.isRejected : PublishVerdict → Bool
  | .depthExceeded .. => true
  | _ => false

def PublishVerdict.isThrottled : PublishVerdict → Bool
  | .rateLimited .. => true
  | _ => false

structure BackpressureRun where
  manager : BackpressureManager
  verdicts : List Verdict := []

namespace BackpressureRun

def step (r : BackpressureRun) : BackpressureOp → BackpressureRun
  | .check made now producerId topic currentDepth =>
      let done := r.manager.checkPublishAllowed made now producerId topic currentDepth
      { manager := done.2.2, verdicts := r.verdicts ++ [⟨producerId, now, done.2.1⟩] }
  | .getProducerLimiter made producerId =>
      { r with manager := (r.manager.getProducerLimiter made producerId).2 }
  | .updateTopicDepth topic depth => { r with manager := r.manager.updateTopicDepth topic depth }
  | .removeProducer producerId => { r with manager := r.manager.removeProducer producerId }
  | .snapshot nows => { r with manager := (r.manager.snapshot nows).2 }

/-- The limiter of a producer. -/
def limiter (r : BackpressureRun) (producerId : String) : Option RateLimiter :=
  r.manager.producerLimiters.get? producerId

/-- What a producer was told. -/
def told (r : BackpressureRun) (producerId : String) : List Verdict :=
  r.verdicts.filter fun v => v.producerId = producerId

/-- No limiter sees its clock go back. -/
def Clocked (r : BackpressureRun) : BackpressureOp → Prop
  | .check made now producerId _ _ =>
      made ≤ now ∧ ∀ l, r.limiter producerId = some l → l.lastRefill ≤ now
  | .snapshot nows => ∀ producerId l, r.limiter producerId = some l → l.lastRefill ≤ nows producerId
  | _ => True

/-! ## Looking twice -/

/-- **A look in between does not matter.** -/
theorem refill_refill {l : RateLimiter} (rate_nonneg : 0 ≤ l.rate) {t now : Timestamp}
    (late : t ≤ now) : (l.refill t).refill now = l.refill now := by
  let bucket : Bucket ℚ := ⟨l.tokens, l.lastRefill, []⟩
  have twice : (bucket.advance (l.burst : ℚ) l.rate t).advance (l.burst : ℚ) l.rate now =
      bucket.advance (l.burst : ℚ) l.rate now := Bucket.advance_advance rate_nonneg late
  have level := congrArg Bucket.level twice
  simp only [Bucket.advance, bucket] at level
  simp only [RateLimiter.refill, level]

/-- `l` is `l'` after it was looked at. -/
structure Looked (l' l : RateLimiter) : Prop where
  same : l = l'.refill l.lastRefill
  rate_nonneg : 0 ≤ l'.rate

theorem Looked.refill {l' l : RateLimiter} (looked : Looked l' l) {now : Timestamp}
    (late : l.lastRefill ≤ now) : l.refill now = l'.refill now := by
  rw [looked.same, refill_refill looked.rate_nonneg late]

theorem looked_self {l : RateLimiter} (rate_nonneg : 0 ≤ l.rate) (full : l.tokens ≤ l.burst) :
    Looked l l := by
  refine ⟨?_, rate_nonneg⟩
  simp [RateLimiter.refill, full]

/-- What was looked at is in range. -/
theorem acquire_full (l : RateLimiter) (now : Timestamp) (tokens : ℤ) (asks : 0 ≤ tokens) :
    (l.acquire now tokens).2.tokens ≤ (l.acquire now tokens).2.burst ∧
      (l.acquire now tokens).2.rate = l.rate := by
  have level : (l.refill now).tokens ≤ l.burst := min_le_left ..
  have asks : (0 : ℚ) ≤ tokens := Int.cast_nonneg asks
  unfold RateLimiter.acquire
  dsimp only
  split
  · refine ⟨?_, rfl⟩
    show (l.refill now).tokens - tokens ≤ l.burst
    linarith
  · exact ⟨level, rfl⟩

/-! ## On its own -/

/-- `r` and `t` treat the producer alike. -/
structure Alike (producerId : String) (r t : BackpressureRun) : Prop where
  config : r.manager.config = t.manager.config
  rate_nonneg : 0 ≤ t.manager.config.producerRateLimit
  told : r.told producerId = t.told producerId
  limiter : Option.Rel (fun l l' => Looked l' l) (r.limiter producerId) (t.limiter producerId)

variable {producerId : String} {r t : BackpressureRun}

/-- A new limiter is full. -/
theorem create_looked (made : Timestamp) {rate : ℚ} (rate_nonneg : 0 ≤ rate) (burst : ℤ) :
    Looked (.create made rate burst) (.create made rate burst) :=
  looked_self rate_nonneg (le_refl _)

/-- The limiters that the two managers use are alike, made or found. -/
theorem Alike.getProducerLimiter (alike : Alike producerId r t) (made : Timestamp) :
    Looked (t.manager.getProducerLimiter made producerId).1 (r.manager.getProducerLimiter made producerId).1 ∧
      (r.manager.getProducerLimiter made producerId).2.config = r.manager.config ∧
      (t.manager.getProducerLimiter made producerId).2.config = t.manager.config := by
  have limiters : Option.Rel (fun l l' => Looked l' l) (r.manager.producerLimiters.get? producerId)
    (t.manager.producerLimiters.get? producerId) := alike.limiter
  unfold BackpressureManager.getProducerLimiter
  generalize r.manager.producerLimiters.get? producerId = mine at limiters ⊢
  generalize t.manager.producerLimiters.get? producerId = theirs at limiters ⊢
  cases limiters with
  | none =>
      rw [alike.config]
      exact ⟨create_looked made alike.rate_nonneg _, rfl, rfl⟩
  | some looked => exact ⟨looked, rfl, rfl⟩

/-- The limiter got is the producer's from then on, and the other producers keep theirs. -/
theorem getProducerLimiter_get? (b : BackpressureManager) (made : Timestamp) (producerId other : String) :
    (b.getProducerLimiter made producerId).2.producerLimiters.get? other =
      if other = producerId then some (b.getProducerLimiter made producerId).1
      else b.producerLimiters.get? other := by
  unfold BackpressureManager.getProducerLimiter
  split
  · next l found =>
      split
      · next same => exact same ▸ found
      · rfl
  · exact Dict.get?_set ..

theorem getProducerLimiter_kept (b : BackpressureManager) (made : Timestamp) (producerId : String) :
    (b.getProducerLimiter made producerId).2 =
      { b with producerLimiters := (b.getProducerLimiter made producerId).2.producerLimiters } := by
  unfold BackpressureManager.getProducerLimiter
  split <;> rfl

/-- **What a check does**: it asks no limiter, or that of the producer for one token. -/
theorem check_cases (b : BackpressureManager) (made now : Timestamp) (producerId topic : String)
    (currentDepth : ℤ) :
    let got := b.getProducerLimiter made producerId
    let asked := got.1.acquire now 1
    let limiters := got.2.producerLimiters.set producerId asked.2
    let done := (b.checkPublishAllowed made now producerId topic currentDepth).2
    done = (.throttlingDisabled, b) ∨
    done = (.depthExceeded topic currentDepth b.config.maxQueueDepth,
      { b with totalRejected := b.totalRejected + 1 }) ∨
    (asked.1 = true ∧ done = (.ok, { b with producerLimiters := limiters })) ∨
    (asked.1 = false ∧ done = (.rateLimited producerId b.config.producerRateLimit,
      { b with producerLimiters := limiters, totalThrottled := b.totalThrottled + 1 })) := by
  have kept := getProducerLimiter_kept b made producerId
  unfold BackpressureManager.checkPublishAllowed
  generalize b.getProducerLimiter made producerId = got at kept ⊢
  obtain ⟨l, b'⟩ := got
  have kept : b' = { b with producerLimiters := b'.producerLimiters } := kept
  dsimp only
  split
  · exact .inl rfl
  · right
    split
    · exact .inl rfl
    · right
      generalize b'.producerLimiters = limiters at kept ⊢
      subst kept
      cases granted : (l.acquire now 1).1 with
      | true => exact .inl ⟨rfl, rfl⟩
      | false => exact .inr ⟨rfl, rfl⟩

/-- A check leaves the other producers their limiters. -/
theorem check_get? (b : BackpressureManager) (made now : Timestamp) (producerId topic : String)
    (currentDepth : ℤ) {other : String} (differs : other ≠ producerId) :
    (b.checkPublishAllowed made now producerId topic currentDepth).2.2.producerLimiters.get? other =
      b.producerLimiters.get? other := by
  have got := getProducerLimiter_get? b made producerId other
  rw [if_neg differs] at got
  have set_ := fun l => Dict.get?_set_of_ne (b.getProducerLimiter made producerId).2.producerLimiters differs l
  rcases check_cases b made now producerId topic currentDepth with done | done | ⟨-, done⟩ | ⟨-, done⟩ <;>
    rw [done]
  · exact (set_ _).trans got
  · exact (set_ _).trans got

theorem check_config (b : BackpressureManager) (made now : Timestamp) (producerId topic : String)
    (currentDepth : ℤ) :
    (b.checkPublishAllowed made now producerId topic currentDepth).2.2.config = b.config := by
  rcases check_cases b made now producerId topic currentDepth with done | done | ⟨-, done⟩ | ⟨-, done⟩ <;>
    rw [done]

/-- Like limiters grant alike. -/
theorem Looked.acquire {l' l : RateLimiter} (looked : Looked l' l) {now : Timestamp}
    (late : l.lastRefill ≤ now) (tokens : ℤ) : l.acquire now tokens = l'.acquire now tokens := by
  simp only [RateLimiter.acquire, looked.refill late]

/-- The limiter that a check asks has not seen a later clock. -/
theorem clocked_got {made now : Timestamp} {topic : String} {currentDepth : ℤ}
    (clocked : r.Clocked (.check made now producerId topic currentDepth)) :
    (r.manager.getProducerLimiter made producerId).1.lastRefill ≤ now := by
  obtain ⟨order, late⟩ := clocked
  unfold BackpressureManager.getProducerLimiter
  split
  · next l found => exact late l found
  · exact order

/-- A check of the producer is decided alike, and leaves the producer alike. -/
theorem Alike.check (alike : Alike producerId r t) {made now : Timestamp} {topic : String}
    {currentDepth : ℤ} (clocked : r.Clocked (.check made now producerId topic currentDepth)) :
    (r.manager.checkPublishAllowed made now producerId topic currentDepth).2.1 =
      (t.manager.checkPublishAllowed made now producerId topic currentDepth).2.1 ∧
    Option.Rel (fun l l' => Looked l' l)
      ((r.manager.checkPublishAllowed made now producerId topic currentDepth).2.2.producerLimiters.get?
        producerId)
      ((t.manager.checkPublishAllowed made now producerId topic currentDepth).2.2.producerLimiters.get?
        producerId) := by
  obtain ⟨looked, mine, theirs⟩ := alike.getProducerLimiter made
  have granted := looked.acquire (clocked_got clocked) 1
  obtain ⟨full, rate⟩ := acquire_full (t.manager.getProducerLimiter made producerId).1 now 1
    (by decide)
  have again := looked_self (rate ▸ looked.rate_nonneg) full
  unfold BackpressureManager.checkPublishAllowed
  rw [alike.config]
  split
  · exact ⟨rfl, alike.limiter⟩
  · split
    · exact ⟨rfl, alike.limiter⟩
    · dsimp only
      rw [granted, mine, theirs, alike.config]
      split
      all_goals
        refine ⟨rfl, ?_⟩
        rw [Dict.get?_set_self, Dict.get?_set_self]
        exact .some again

/-- What concerns the producer leaves them alike. -/
theorem Alike.moves (alike : Alike producerId r t) {op : BackpressureOp} (clocked : r.Clocked op)
    (seen : op.concerns producerId = true) : Alike producerId (r.step op) (t.step op) := by
  cases op with
  | check made now id topic currentDepth =>
      obtain rfl : id = producerId := of_decide_eq_true seen
      obtain ⟨verdict, limiters⟩ := alike.check clocked
      refine ⟨?_, ?_, ?_, limiters⟩
      · exact (check_config ..).trans (alike.config.trans (check_config ..).symm)
      · rw [show (t.step (.check made now id topic currentDepth)).manager.config = _ from check_config ..]
        exact alike.rate_nonneg
      · simp only [BackpressureRun.told, step, List.filter_append, verdict]
        rw [show r.verdicts.filter _ = _ from alike.told]
        rfl
  | getProducerLimiter made id =>
      obtain rfl : id = producerId := of_decide_eq_true seen
      obtain ⟨looked, mine, theirs⟩ := alike.getProducerLimiter made
      refine ⟨mine.trans (alike.config.trans theirs.symm), ?_, alike.told, ?_⟩
      · rw [show (t.step (.getProducerLimiter made id)).manager.config = _ from theirs]
        exact alike.rate_nonneg
      · simp only [BackpressureRun.limiter, step, getProducerLimiter_get?, if_true]
        exact .some looked
  | updateTopicDepth topic depth => cases seen
  | removeProducer id =>
      obtain rfl : id = producerId := of_decide_eq_true seen
      refine ⟨alike.config, alike.rate_nonneg, alike.told, ?_⟩
      simp only [BackpressureRun.limiter, step, BackpressureManager.removeProducer, Dict.get?_erase_self]
      exact .none
  | snapshot nows => cases seen

/-- What does not concern the producer leaves them alike when only one makes it. -/
theorem Alike.rests (alike : Alike producerId r t) {op : BackpressureOp} (clocked : r.Clocked op)
    (unseen : op.concerns producerId = false) : Alike producerId (r.step op) t := by
  cases op with
  | check made now id topic currentDepth =>
      have other : producerId ≠ id := fun same => of_decide_eq_false unseen same.symm
      refine ⟨(check_config ..).trans alike.config, alike.rate_nonneg, ?_, ?_⟩
      · rw [← alike.told]
        simp [BackpressureRun.told, step, other.symm]
      · rw [show (r.step (.check made now id topic currentDepth)).limiter producerId = _ from
          check_get? _ made now id topic currentDepth other]
        exact alike.limiter
  | getProducerLimiter made id =>
      have other : producerId ≠ id := fun same => of_decide_eq_false unseen same.symm
      refine ⟨?_, alike.rate_nonneg, alike.told, ?_⟩
      · rw [← alike.config]
        simp only [step, BackpressureManager.getProducerLimiter]
        split <;> rfl
      · simp only [BackpressureRun.limiter, step, getProducerLimiter_get?, if_neg other]
        exact alike.limiter
  | updateTopicDepth topic depth => exact ⟨alike.config, alike.rate_nonneg, alike.told, alike.limiter⟩
  | removeProducer id =>
      have other : producerId ≠ id := fun same => of_decide_eq_false unseen same.symm
      refine ⟨alike.config, alike.rate_nonneg, alike.told, ?_⟩
      simp only [BackpressureRun.limiter, step, BackpressureManager.removeProducer, Dict.get?_erase_of_ne _ other]
      exact alike.limiter
  | snapshot nows =>
      refine ⟨alike.config, alike.rate_nonneg, alike.told, ?_⟩
      have limiters := alike.limiter
      have late := clocked producerId
      simp only [BackpressureRun.limiter, step, BackpressureManager.snapshot, Dict.get?_mapValues] at limiters late ⊢
      generalize r.manager.producerLimiters.get? producerId = mine at limiters late ⊢
      generalize t.manager.producerLimiters.get? producerId = theirs at limiters ⊢
      cases limiters with
      | none => exact .none
      | some looked =>
          refine .some ⟨?_, looked.rate_nonneg⟩
          exact looked.refill (late _ rfl)

/-- **A producer is on its own.**  With a rate that is not negative, in every run on clocks
that do not go back, a producer is told exactly what it would be told if only its own
checks, and what makes or removes its limiter, had been called. -/
theorem run_alone (config : BackpressureConfig) (rate_nonneg : 0 ≤ config.producerRateLimit)
    (producerId : String) {ops : List BackpressureOp}
    (clocked : Guarded step Clocked { manager := { config } } ops) :
    (run step { manager := { config } } ops).told producerId =
      (run step { manager := { config } } (ops.filter (BackpressureOp.concerns producerId))).told producerId := by
  have start : Alike producerId { manager := { config } } { manager := { config } } :=
    ⟨rfl, rate_nonneg, rfl, .none⟩
  have moves : ∀ r t op, Alike producerId r t → Clocked r op → op.concerns producerId = true →
      Alike producerId (r.step op) (t.step op) := fun _ _ _ alike clocked seen => alike.moves clocked seen
  have rests : ∀ r t op, Alike producerId r t → Clocked r op → op.concerns producerId = false →
      Alike producerId (r.step op) t := fun _ _ _ alike clocked unseen => alike.rests clocked unseen
  exact (run_seen (BackpressureOp.concerns producerId) moves rests start clocked).told

/-! ## What is counted -/

/-- The times at which the limiter of a producer granted a token. -/
def grants (r : BackpressureRun) (producerId : String) : List (Timestamp × ℚ) :=
  ((r.told producerId).filter fun v => v.verdict.isOk).map fun v => (v.time, ((1 : ℤ) : ℚ))

/-- The burst of a limiter that the manager makes. -/
def burst (config : BackpressureConfig) : ℤ :=
  (RateLimiter.create 0 config.producerRateLimit (truncate (config.producerRateLimit * 2))).burst

/-- Every refusal is counted once. -/
structure Counted (config : BackpressureConfig) (r : BackpressureRun) : Prop where
  sameConfig : r.manager.config = config
  rejected : r.manager.totalRejected = r.verdicts.countP fun v => v.verdict.isRejected
  throttled : r.manager.totalThrottled = r.verdicts.countP fun v => v.verdict.isThrottled

/-- The limiter of the producer, with what it granted. -/
structure Metered (config : BackpressureConfig) (producerId : String) (r : BackpressureRun) : Prop where
  sameConfig : r.manager.config = config
  sound : ∀ l, r.limiter producerId = some l →
    LimiterRun.Sound config.producerRateLimit (burst config) ⟨l, r.grants producerId⟩
  unused : r.limiter producerId = none → r.grants producerId = []

theorem Counted.step {config : BackpressureConfig} (counted : Counted config r) (op : BackpressureOp) :
    Counted config (r.step op) := by
  obtain ⟨same, rejected, throttled⟩ := counted
  cases op with
  | check made now id topic currentDepth =>
      refine ⟨(check_config ..).trans same, ?_, ?_⟩
      all_goals
        simp only [BackpressureRun.step, List.countP_append, List.countP_singleton, ← rejected, ← throttled]
        rcases check_cases r.manager made now id topic currentDepth with done | done | ⟨-, done⟩ | ⟨-, done⟩ <;>
          rw [done] <;> rfl
  | getProducerLimiter made id =>
      have kept := getProducerLimiter_kept r.manager made id
      refine ⟨?_, ?_, ?_⟩
      · exact (congrArg BackpressureManager.config kept).trans same
      · exact (congrArg BackpressureManager.totalRejected kept).trans rejected
      · exact (congrArg BackpressureManager.totalThrottled kept).trans throttled
  | updateTopicDepth topic depth => exact ⟨same, rejected, throttled⟩
  | removeProducer id => exact ⟨same, rejected, throttled⟩
  | snapshot nows => exact ⟨same, rejected, throttled⟩

/-- The call does not take the producer's limiter away. -/
def Keeps (producerId : String) : BackpressureOp → Prop
  | .removeProducer id => id ≠ producerId
  | _ => True

/-- The limiter that a check asks respects the bound, made or found. -/
theorem Metered.got {config : BackpressureConfig} (metered : Metered config producerId r)
    (rate_nonneg : 0 ≤ config.producerRateLimit) (made : Timestamp) :
    LimiterRun.Sound config.producerRateLimit (burst config)
      ⟨(r.manager.getProducerLimiter made producerId).1, r.grants producerId⟩ := by
  have sound := metered.sound
  have unused := metered.unused
  unfold BackpressureRun.limiter at sound unused
  unfold BackpressureManager.getProducerLimiter
  split
  · next l found => exact sound l found
  · next absent =>
      rw [unused absent, metered.sameConfig]
      exact LimiterRun.create_sound rate_nonneg made _

/-- A check adds what it grants. -/
theorem grants_check (r : BackpressureRun) (made now : Timestamp) (id topic : String) (currentDepth : ℤ) :
    (r.step (.check made now id topic currentDepth)).grants id = r.grants id ++
      if (r.manager.checkPublishAllowed made now id topic currentDepth).2.1.isOk then [(now, ((1 : ℤ) : ℚ))]
      else [] := by
  simp only [grants, told, step, List.filter_append, List.map_append]
  congr 1
  split <;> simp_all

/-- Nothing about the limiter has changed. -/
theorem Metered.unasked {config : BackpressureConfig} (metered : Metered config producerId r)
    {r' : BackpressureRun} (sameConfig : r'.manager.config = r.manager.config)
    (limiter : r'.limiter producerId = r.limiter producerId)
    (grants : r'.grants producerId = r.grants producerId) : Metered config producerId r' := by
  refine ⟨sameConfig.trans metered.sameConfig, fun l found => ?_, fun absent => ?_⟩
  · rw [grants]
    exact metered.sound l (limiter ▸ found)
  · rw [grants]
    exact metered.unused (limiter ▸ absent)

/-- The limiter was asked. -/
theorem Metered.asked {config : BackpressureConfig} {r' : BackpressureRun} {l : RateLimiter}
    (sameConfig : r'.manager.config = config) (limiter : r'.limiter producerId = some l)
    (sound : LimiterRun.Sound config.producerRateLimit (burst config) ⟨l, r'.grants producerId⟩) :
    Metered config producerId r' :=
  ⟨sameConfig, fun l' found => by rwa [← Option.some.inj (limiter.symm.trans found)],
    fun absent => absurd (limiter.symm.trans absent) (Option.some_ne_none l)⟩

theorem Metered.step {config : BackpressureConfig} (rate_nonneg : 0 ≤ config.producerRateLimit)
    (metered : Metered config producerId r) {op : BackpressureOp} (clocked : r.Clocked op)
    (keeps : Keeps producerId op) : Metered config producerId (r.step op) := by
  cases op with
  | check made now id topic currentDepth =>
      by_cases same : id = producerId
      · subst same
        have bounded := metered.got rate_nonneg made
        have asked : (LimiterRun.step _ (.acquire now 1)).Sound _ _ :=
          bounded.step rate_nonneg (clocked_got clocked) (show (0 : ℤ) ≤ 1 by decide)
        have grown := grants_check r made now id topic currentDepth
        have sameConfig : (r.step (.check made now id topic currentDepth)).manager.config =
            r.manager.config := check_config ..
        unfold LimiterRun.step at asked
        dsimp only at asked
        rcases check_cases r.manager made now id topic currentDepth with done | done | ⟨ok, done⟩ | ⟨no, done⟩ <;>
          rw [done] at grown
        · refine metered.unasked sameConfig ?_ (grown.trans (List.append_nil _))
          rw [BackpressureRun.step, BackpressureRun.limiter, done]
          rfl
        · refine metered.unasked sameConfig ?_ (grown.trans (List.append_nil _))
          rw [BackpressureRun.step, BackpressureRun.limiter, done]
          rfl
        · have grown : _ = r.grants id ++ [(now, ((1 : ℤ) : ℚ))] := grown
          rw [if_pos ok, ← grown] at asked
          refine .asked (sameConfig.trans metered.sameConfig) ?_ asked
          rw [BackpressureRun.step, BackpressureRun.limiter, done]
          exact Dict.get?_set_self ..
        · have still : _ = r.grants id := grown.trans (List.append_nil _)
          rw [if_neg (by simp [no]), ← still] at asked
          refine .asked (sameConfig.trans metered.sameConfig) ?_ asked
          rw [BackpressureRun.step, BackpressureRun.limiter, done]
          exact Dict.get?_set_self ..
      · refine metered.unasked (check_config ..) (check_get? _ _ _ _ _ _ (Ne.symm same)) ?_
        simp [grants, told, BackpressureRun.step, same]
  | getProducerLimiter made id =>
      have kept := getProducerLimiter_kept r.manager made id
      have got := getProducerLimiter_get? r.manager made id producerId
      refine ⟨(congrArg BackpressureManager.config kept).trans metered.sameConfig, fun l found => ?_,
        fun absent => ?_⟩
      · by_cases same : producerId = id
        · subst same
          rw [if_pos rfl] at got
          obtain rfl := Option.some.inj (got.symm.trans found)
          exact metered.got rate_nonneg made
        · rw [if_neg same] at got
          exact metered.sound l (got.symm.trans found)
      · by_cases same : producerId = id
        · rw [if_pos same] at got
          exact absurd (got.symm.trans absent) (by simp)
        · rw [if_neg same] at got
          exact metered.unused (got.symm.trans absent)
  | updateTopicDepth topic depth => exact ⟨metered.sameConfig, metered.sound, metered.unused⟩
  | removeProducer id =>
      have other : producerId ≠ id := fun same => keeps same.symm
      have erased := Dict.get?_erase_of_ne r.manager.producerLimiters other
      exact ⟨metered.sameConfig, fun l found => metered.sound l (erased.symm.trans found),
        fun absent => metered.unused (erased.symm.trans absent)⟩
  | snapshot nows =>
      have read : (r.step (.snapshot nows)).limiter producerId =
          (r.limiter producerId).map fun l => (l.snapshot (nows producerId)).2 := Dict.get?_mapValues ..
      refine ⟨metered.sameConfig, fun l found => ?_, fun absent => ?_⟩
      · rw [read] at found
        obtain ⟨l', found', rfl⟩ := Option.map_eq_some_iff.mp found
        have read : (LimiterRun.step _ (.snapshot (nows producerId))).Sound _ _ :=
          (metered.sound l' found').step rate_nonneg (clocked producerId l' found') trivial
        exact read
      · rw [read] at absent
        exact metered.unused (Option.map_eq_none_iff.mp absent)

/-- How often a producer passed between two moments. -/
def passed (r : BackpressureRun) (producerId : String) (t₁ t₂ : Timestamp) : ℕ :=
  (r.told producerId).countP fun v => v.verdict.isOk && decide (t₁ ≤ v.time ∧ v.time ≤ t₂)

/-- Producer "a" checks three times within a second, "b" and a snapshot come in between. -/
def crowdedChecks : List BackpressureOp :=
  [.check 0 0 "a" "t" 0, .check 0 0 "b" "t" 0, .check 0 0 "a" "t" 0, .snapshot fun _ => 1 / 2,
    .check 0 (1 / 2) "b" "t" 7, .check 0 1 "a" "t" 0, .removeProducer "b"]

theorem crowdedChecks_clocked :
    Guarded step Clocked { manager := { config := { maxQueueDepth := 5, producerRateLimit := 1 } } }
      crowdedChecks := by
  have late : ∀ {d : Dict String RateLimiter} {t : Timestamp}, (∀ e ∈ d.entries, e.2.lastRefill ≤ t) →
      ∀ id l, d.get? id = some l → l.lastRefill ≤ t :=
    fun all id l found => all (id, l) (Dict.get?_eq_some_iff.mp found)
  refine ⟨⟨by decide, late (by decide +kernel) _⟩, ⟨by decide, late (by decide +kernel) _⟩,
    ⟨by decide, late (by decide +kernel) _⟩, late (by decide +kernel), ⟨by decide +kernel, late (by decide +kernel) _⟩,
    ⟨by decide, late (by decide +kernel) _⟩, trivial, trivial⟩

theorem crowdedChecks_alone :
    let config : BackpressureConfig := { maxQueueDepth := 5, producerRateLimit := 1 }
    (run step { manager := { config } } crowdedChecks).told "a" =
      (run step { manager := { config } } (crowdedChecks.filter (BackpressureOp.concerns "a"))).told "a" :=
  run_alone _ (by decide) "a" crowdedChecks_clocked

end BackpressureRun

end BrokerLite
