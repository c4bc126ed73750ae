/-
# Broker.Deduplication -- the window of remembered ids

Runs of one `DeduplicationMiddleware` with a window that is not negative, by the
ids of the messages it is given.  Its list of ids is a `Window` of the ids it let
pass, which only slides: it holds the last `window_size` of them, and the set
beside it holds the same ids.
-/
import BrokerLite.Broker.Middleware
import BrokerLite.Theory.Window

namespace BrokerLite

open Theory

set_option autoImplicit false

namespace DeduplicationMiddleware

/-- The loop that forgets leaves the last ids, and the set of these. -/
theorem trim_eq {windowSize : ℤ} (window : 0 ≤ windowSize) {order : List String} {seen : Finset String}
    (same : seen = order.toFinset) (nodup : order.Nodup) :
    trim windowSize order seen =
      (.ok (), order.rtake windowSize.toNat, (order.rtake windowSize.toNat).toFinset) := by
  induction order generalizing seen with
  | nil => simp [trim, same, not_lt.mpr window]
  | cons oldId order ih =>
      obtain ⟨absent, nodup⟩ := List.nodup_cons.mp nodup
      have rest : seen.erase oldId = order.toFinset := by
        rw [same, List.toFinset_cons, Finset.erase_insert (by simpa using absent)]
      rw [trim]
      split
      · next long =>
          have shorter : (oldId :: order).rtake windowSize.toNat = order.rtake windowSize.toNat := by
            rw [List.length_cons] at long
            rw [List.rtake, List.rtake, List.length_cons, Nat.succ_sub (by omega), List.drop_succ_cons]
          rw [ih rest nodup, shorter]
      · next short =>
          have all : (oldId :: order).rtake windowSize.toNat = oldId :: order := by
            rw [List.rtake, Nat.sub_eq_zero_of_le (by omega), List.drop_zero]
          rw [all, same]

/-- A message of a new id passes, and the window slides. -/
theorem process_of_new {d : DeduplicationMiddleware} (window : 0 ≤ d.windowSize) (sound : d.Sound)
    {id : String} (new : id ∉ d.seen) :
    d.process id = (.ok true, { d with
      order := (d.order ++ [id]).rtake d.windowSize.toNat
      seen := ((d.order ++ [id]).rtake d.windowSize.toNat).toFinset }) := by
  obtain ⟨same, nodup⟩ := sound.append new
  rw [process, if_neg new, trim_eq window same nodup]
  rfl

end DeduplicationMiddleware

structure DedupRun where
  middleware : DeduplicationMiddleware
  /-- The ids that passed. -/
  passed : Window String := .empty
  dropped : ℕ := 0

namespace DedupRun

def step (r : DedupRun) (id : String) : DedupRun :=
  match r.middleware.process id with
  | (.ok true, middleware) =>
      { r with middleware, passed := r.passed.slide middleware.windowSize.toNat id }
  | (.ok false, middleware) => { r with middleware, dropped := r.dropped + 1 }
  | (.error _, middleware) => { r with middleware }

variable (windowSize : ℤ)

/-- The middleware drops what is among the last `windowSize` ids it let pass. -/
structure Deduplicates (r : DedupRun) : Prop where
  process : ∀ id, (r.middleware.process id).1 = .ok (id ∉ r.passed.arrivals.rtake windowSize.toNat)
  spaced : ∀ block, block <:+: r.passed.arrivals → block.length ≤ windowSize → block.Nodup
  seen : r.middleware.seen = r.middleware.order.toFinset
  nodup : r.middleware.order.Nodup
  short : r.middleware.order.length ≤ windowSize
  counted : r.middleware.duplicateCount = r.dropped

/-- The order is what the sliding window keeps. -/
structure Sound (r : DedupRun) : Prop where
  size : r.middleware.windowSize = windowSize
  middleware : r.middleware.Sound
  order : r.middleware.order = r.passed.kept
  last : r.passed.kept = r.passed.arrivals.rtake windowSize.toNat
  spaced : Spaced (windowSize.toNat + 1) r.passed.arrivals
  counted : r.middleware.duplicateCount = r.dropped

variable {windowSize} {r : DedupRun}

theorem Sound.seen_iff (sound : r.Sound windowSize) {id : String} :
    id ∈ r.middleware.seen ↔ id ∈ r.passed.arrivals.rtake windowSize.toNat := by
  rw [sound.middleware.seen, List.mem_toFinset, sound.order, sound.last]

theorem Sound.step (window : 0 ≤ windowSize) (sound : r.Sound windowSize) (id : String) :
    (r.step id).Sound windowSize := by
  obtain rfl := sound.size
  by_cases seen : id ∈ r.middleware.seen
  · have dropped : r.step id = { r with
        middleware := { r.middleware with duplicateCount := r.middleware.duplicateCount + 1 }
        dropped := r.dropped + 1 } := by
      simp only [DedupRun.step, DeduplicationMiddleware.process, if_pos seen]
    rw [dropped]
    exact ⟨rfl, ⟨sound.middleware.seen, sound.middleware.nodup⟩, sound.order, sound.last,
      sound.spaced, congrArg (· + 1) sound.counted⟩
  · have passes := DeduplicationMiddleware.process_of_new window sound.middleware seen
    have passed : r.step id = { r with
        middleware := (r.middleware.process id).2
        passed := r.passed.slide r.middleware.windowSize.toNat id } := by
      simp only [DedupRun.step, passes]
    have next := (sound.middleware.process id).1
    rw [passed]
    rw [passes] at next ⊢
    refine ⟨rfl, next, ?_, ?_, ?_, sound.counted⟩
    · show (r.middleware.order ++ [id]).rtake _ = _
      rw [Window.kept_slide, sound.order]
    · exact Window.kept_slide_last _ _ _ sound.last
    · exact sound.spaced.concat fun recent => seen (sound.seen_iff.mpr recent)

theorem Sound.deduplicates (window : 0 ≤ windowSize) (sound : r.Sound windowSize) :
    r.Deduplicates windowSize where
  process id := by
    by_cases seen : id ∈ r.middleware.seen
    · rw [DeduplicationMiddleware.process_drops_iff.mpr seen]
      simp [sound.seen_iff.mp seen]
    · rw [DeduplicationMiddleware.process_of_new (sound.size ▸ window) sound.middleware seen]
      have old : id ∉ r.passed.arrivals.rtake windowSize.toNat := fun recent =>
        seen (sound.seen_iff.mpr recent)
      simp [old]
  spaced block inside short := sound.spaced block inside (by omega)
  seen := sound.middleware.seen
  nodup := sound.middleware.nodup
  short := by
    rw [sound.order, sound.last, List.rtake, List.length_drop]
    omega
  counted := sound.counted

/-- **Deduplication is a sliding window**, whatever messages it is given. -/
theorem run_deduplicates {windowSize : ℤ} (window : 0 ≤ windowSize) (ids : List String) :
    (run step { middleware := { windowSize } } ids).Deduplicates windowSize := by
  have start : Sound windowSize { middleware := { windowSize } } :=
    ⟨rfl, ⟨rfl, List.nodup_nil⟩, rfl, (List.rtake_nil _).symm, spaced_nil _, rfl⟩
  have preserved : ∀ r id, Sound windowSize r → Sound windowSize (r.step id) :=
    fun _ id sound => sound.step window id
  exact (run_preserves preserved start ids).deduplicates window

/-- A window of two: "a" is dropped while it is among the last two, and passes again
after it has left. -/
theorem window_of_two_deduplicates :
    (run step { middleware := { windowSize := 2 } } ["a", "b", "a", "c", "a"]).Deduplicates 2 :=
  run_deduplicates (by decide) _

end DedupRun

end BrokerLite
