/-
# Storage.SegmentTruncation -- what truncation does to the offsets of a segment

A `LogSegment` finds an entry by the difference of its offset from the base, and
takes the next offset from the last entry, or from the base if there is none.
`truncate` removes entries at the front and leaves the base where it is: the
entries that remain are then found under other offsets, and a segment that has lost
all of them assigns its offsets again.

`run_keeps_iff` says which runs are spared: those that never truncate beyond the
base, and those without an entry.
-/
import BrokerLite.Storage.Rotation

namespace BrokerLite

open Theory

set_option autoImplicit false

namespace LogSegment

/-- The entry at the exact offset. -/
def readAt (s : LogSegment) (offset : ℤ) : Option LogEntry :=
  let idx := offset - s.baseOffset
  if 0 ≤ idx ∧ idx < s.entries.length then s.entries[idx.toNat]? else none

/-- The entries before the offset are to go; the result is how many went. -/
def truncate (s : LogSegment) (offset : ℤ) : ℕ × LogSegment :=
  let idx := offset - s.baseOffset
  if idx ≤ 0 then (0, s)
  else
    let removed := s.entries.take idx.toNat
    (removed.length, { s with
      entries := s.entries.drop idx.toNat
      sizeBytes := s.sizeBytes - bytesOfEntries removed })

variable {s : LogSegment}

theorem readAt_eq (s : LogSegment) (offset : ℤ) : s.readAt offset =
    if s.baseOffset ≤ offset then s.entries[(offset - s.baseOffset).toNat]? else none := by
  unfold readAt
  dsimp only
  split
  · next inside => rw [if_pos (by omega)]
  · next outside =>
      split
      · rw [List.getElem?_eq_none (by omega)]
      · rfl

/-- An entry of a numbered segment is found under its offset, and nothing else is. -/
theorem readAt_eq_some_iff (numbered : s.Numbered) {offset : ℤ} {e : LogEntry} :
    s.readAt offset = some e ↔ e ∈ s.entries ∧ e.offset = offset := by
  rw [readAt_eq]
  constructor
  · intro found
    split at found
    · next late =>
        have number := Theory.Numbered.at_position numbered found
        exact ⟨List.mem_of_getElem? found, by omega⟩
    · cases found
  · rintro ⟨member, rfl⟩
    obtain ⟨i, found⟩ := List.mem_iff_getElem?.mp member
    have number := Theory.Numbered.at_position numbered found
    rw [if_pos (by omega), show (e.offset - s.baseOffset).toNat = i by omega, found]

theorem nextOffset_append (now : Timestamp) (s : LogSegment) (key : Option String) (value : List UInt8) :
    (s.append now key value).2.nextOffset = s.nextOffset + 1 := by
  simp [append, nextOffset]

theorem read_zero (s : LogSegment) (offset : ℤ) : s.read offset 0 = [] := by
  unfold read
  split
  · rfl
  · have nonneg : 0 ≤ if offset - s.baseOffset < 0 then 0 else offset - s.baseOffset := by
      split <;> omega
    dsimp only
    generalize (if offset - s.baseOffset < 0 then 0 else offset - s.baseOffset) = startIdx at nonneg
    split
    · rfl
    · have none_ : (min (startIdx + 0) (s.entries.length : ℤ) - startIdx).toNat = 0 := by omega
      rw [slice_of_nonneg _ nonneg (by omega), none_, List.take_zero]

/-- A read of a numbered segment, also of no entries. -/
theorem read_eq_take (numbered : s.Numbered) (offset : ℤ) (n : ℕ) :
    s.read offset n = (since LogEntry.offset offset s.entries).take n := by
  rcases Nat.eq_zero_or_pos n with rfl | positive
  · exact read_zero s offset
  · rw [read_eq numbered offset (by omega), Int.toNat_natCast]

/-- Up to the base nothing is truncated. -/
theorem truncate_of_le {offset : ℤ} (early : offset ≤ s.baseOffset) : s.truncate offset = (0, s) := by
  rw [truncate]
  exact if_pos (by omega)

theorem truncate_of_empty (empty : s.entries = []) (offset : ℤ) : s.truncate offset = (0, s) := by
  unfold truncate
  dsimp only
  split
  · rfl
  · obtain ⟨baseOffset, maxBytes, entries, sizeBytes⟩ := s
    cases empty
    simp

/-- Beyond the base as many entries go as the offset is beyond it. -/
theorem truncate_entries {offset : ℤ} (late : s.baseOffset < offset) :
    (s.truncate offset).2.entries = s.entries.drop (offset - s.baseOffset).toNat := by
  rw [truncate]
  dsimp only
  rw [if_neg (by omega)]

theorem truncate_baseOffset (offset : ℤ) : (s.truncate offset).2.baseOffset = s.baseOffset := by
  unfold truncate
  dsimp only
  split <;> rfl

end LogSegment

/-! ## Runs of one segment -/

inductive SegmentCall where
  | append (now : Timestamp) (key : Option String) (value : List UInt8)
  | truncate (offset : ℤ)

/-- A segment and what was done to it. -/
structure SegmentRun where
  segment : LogSegment
  /-- What was appended, with the offsets that were returned. -/
  appended : List LogEntry := []
  /-- The offsets that it was truncated at. -/
  points : List ℤ := []
  /-- The greatest next offset so far. -/
  reached : ℤ
  /-- The offset of the last call, if that was a truncation. -/
  last : Option ℤ := none

namespace SegmentRun

def new (baseOffset maxBytes : ℤ) : SegmentRun where
  segment := { baseOffset, maxBytes }
  reached := baseOffset

def step (r : SegmentRun) : SegmentCall → SegmentRun
  | .append now key value =>
      let done := r.segment.append now key value
      { r with
        segment := done.2
        appended := r.appended ++ [{ offset := done.1, timestamp := now, key, value }]
        reached := max r.reached done.2.nextOffset
        last := none }
  | .truncate offset =>
      let segment := (r.segment.truncate offset).2
      { r with
        segment
        points := r.points ++ [offset]
        reached := max r.reached segment.nextOffset
        last := some offset }

/-- What was appended and is not below a truncation. -/
def remaining (r : SegmentRun) : List LogEntry :=
  r.appended.filter fun e => ∀ o ∈ r.points, o ≤ e.offset

/-- The entries that remain are found under their offsets, and no offset comes twice. -/
structure Keeps (r : SegmentRun) : Prop where
  readAt : ∀ x e, r.segment.readAt x = some e ↔ e ∈ r.remaining ∧ e.offset = x
  read : ∀ x (n : ℕ), r.segment.read x n = (since LogEntry.offset x r.remaining).take n
  monotone : r.reached ≤ r.segment.nextOffset
  once : (r.appended.map LogEntry.offset).Nodup
  size : r.segment.sizeBytes = bytesOfEntries r.remaining
  repeated : ∀ o, r.last = some o → (r.segment.truncate o).1 = 0

/-- Nothing that was appended has gone. -/
structure Intact (r : SegmentRun) : Prop where
  entries : r.segment.entries = r.appended
  numbered : r.segment.Numbered
  size : r.segment.sizeBytes = bytesOfEntries r.appended
  reached : r.reached = r.segment.nextOffset
  points : r.appended = [] ∨ ∀ o ∈ r.points, o ≤ r.segment.baseOffset
  last : ∀ o, r.last = some o → o ∈ r.points

/-- The call leaves every entry where it is found. -/
def Spares (r : SegmentRun) : SegmentCall → Prop
  | .append _ _ _ => ∀ o ∈ r.points, o ≤ r.segment.baseOffset
  | .truncate offset => offset ≤ r.segment.baseOffset ∨ r.appended = []

variable {r : SegmentRun}

theorem new_intact (baseOffset maxBytes : ℤ) : (new baseOffset maxBytes).Intact where
  entries := rfl
  numbered := trivial
  size := rfl
  reached := rfl
  points := .inl rfl
  last o none_ := by cases none_

namespace Intact

variable (intact : r.Intact)

include intact

theorem offset_bounds {e : LogEntry} (member : e ∈ r.appended) :
    r.segment.baseOffset ≤ e.offset ∧ e.offset < r.segment.nextOffset := by
  rw [← intact.entries] at member
  rw [LogSegment.nextOffset_eq intact.numbered]
  exact Theory.Numbered.bounds intact.numbered member

theorem remaining_eq : r.remaining = r.appended := by
  rcases intact.points with none_ | early
  · simp [remaining, none_]
  · apply List.filter_eq_self.mpr
    intro e member
    have bounds := intact.offset_bounds member
    have above : ∀ o ∈ r.points, o ≤ e.offset := fun o point => le_trans (early o point) bounds.1
    simpa using above

theorem keeps : r.Keeps where
  readAt x e := by
    rw [intact.remaining_eq, ← intact.entries]
    exact LogSegment.readAt_eq_some_iff intact.numbered
  read x n := by
    rw [intact.remaining_eq, ← intact.entries]
    exact LogSegment.read_eq_take intact.numbered x n
  monotone := intact.reached.le
  once := by
    rw [← intact.entries, intact.numbered.map_eq_range]
    exact List.nodup_range.map fun i j same => by simpa using same
  size := by rw [intact.remaining_eq, intact.size]
  repeated o last := by
    have point := intact.last o last
    rcases intact.points with none_ | early
    · rw [LogSegment.truncate_of_empty (intact.entries.trans none_)]
    · rw [LogSegment.truncate_of_le (early o point)]

/-- An append that spares the entries. -/
theorem append (early : ∀ o ∈ r.points, o ≤ r.segment.baseOffset) (now : Timestamp) (key : Option String)
    (value : List UInt8) : (r.step (.append now key value)).Intact := by
  obtain ⟨-, -, entries, numbered⟩ := LogSegment.append_spec now intact.numbered key value
  constructor
  · show (r.segment.append now key value).2.entries = _
    rw [entries, intact.entries]
    rfl
  · exact numbered
  · show (r.segment.append now key value).2.sizeBytes = bytesOfEntries (r.appended ++ [_])
    rw [bytesOfEntries_append, bytesOfEntries_singleton, ← intact.size]
    rfl
  · show max r.reached (r.segment.append now key value).2.nextOffset = _
    rw [intact.reached, LogSegment.nextOffset_append, max_eq_right (by omega)]
    exact (LogSegment.nextOffset_append ..).symm
  · exact .inr early
  · intro o none_
    cases none_

/-- A truncation that removes nothing. -/
theorem truncate {offset : ℤ} (spares : offset ≤ r.segment.baseOffset ∨ r.appended = []) :
    (r.step (.truncate offset)).Intact := by
  have same : (r.segment.truncate offset).2 = r.segment := by
    rcases spares with early | none_
    · rw [LogSegment.truncate_of_le early]
    · rw [LogSegment.truncate_of_empty (intact.entries.trans none_)]
  have segment : (r.step (.truncate offset)).segment = r.segment := same
  constructor
  · rw [segment]
    exact intact.entries
  · rw [segment]
    exact intact.numbered
  · rw [segment]
    exact intact.size
  · show max r.reached (r.segment.truncate offset).2.nextOffset = _
    rw [segment, same, intact.reached, max_self]
  · rw [segment]
    rcases spares with early | none_
    · refine intact.points.imp_right fun before o point => ?_
      rcases List.mem_append.mp point with old | new
      · exact before o old
      · rw [List.mem_singleton.mp new]
        exact early
    · exact .inl none_
  · intro o last
    cases last
    exact List.mem_append_right _ (List.mem_singleton_self _)

theorem step (call : SegmentCall) (spares : r.Spares call) : (r.step call).Intact := by
  cases call with
  | append now key value => exact intact.append spares now key value
  | truncate offset => exact intact.truncate spares

/-- Below an earlier truncation an entry is found that should not be there. -/
theorem append_breaks {o : ℤ} (point : o ∈ r.points) (late : r.segment.baseOffset < o) (now : Timestamp)
    (key : Option String) (value : List UInt8) : ¬ (r.step (.append now key value)).Keeps := by
  intro keeps
  have none_ : r.appended = [] := intact.points.resolve_right fun early => absurd (early o point) (by omega)
  have first : r.segment.nextOffset = r.segment.baseOffset := by
    rw [LogSegment.nextOffset_eq intact.numbered, intact.entries, none_]
    simp
  obtain ⟨-, -, entries, numbered⟩ := LogSegment.append_spec now intact.numbered key value
  have found : (r.segment.append now key value).2.readAt r.segment.baseOffset =
      some { offset := r.segment.nextOffset, timestamp := now, key, value } := by
    rw [LogSegment.readAt_eq_some_iff numbered, entries]
    exact ⟨List.mem_append_right _ (List.mem_singleton_self _), first⟩
  obtain ⟨remains, -⟩ := (keeps.readAt _ _).mp found
  have above : ∀ o ∈ r.points, o ≤ r.segment.nextOffset := of_decide_eq_true (List.mem_filter.mp remains).2
  have bound := above o point
  omega

/-- A truncation beyond the base leaves an entry under another offset, or gives its
offset back. -/
theorem truncate_breaks {o : ℤ} (some_ : r.appended ≠ []) (late : r.segment.baseOffset < o) :
    ¬ (r.step (.truncate o)).Keeps := by
  intro keeps
  have entries := LogSegment.truncate_entries late
  have base := r.segment.truncate_baseOffset o
  have nonempty : 0 < r.segment.entries.length := by
    rw [intact.entries]
    exact List.length_pos_iff.mpr some_
  cases rest : r.segment.entries.drop (o - r.segment.baseOffset).toNat with
  | nil =>
      have next : (r.segment.truncate o).2.nextOffset = r.segment.baseOffset := by
        rw [LogSegment.nextOffset, entries, rest, base]
        rfl
      have fallen : max r.reached (r.segment.truncate o).2.nextOffset ≤ (r.segment.truncate o).2.nextOffset :=
        keeps.monotone
      rw [intact.reached, LogSegment.nextOffset_eq intact.numbered, next] at fallen
      omega
  | cons e _ =>
      have found : (r.segment.truncate o).2.readAt r.segment.baseOffset = some e := by
        rw [LogSegment.readAt_eq, base, entries, rest, if_pos le_rfl, Int.sub_self]
        rfl
      have offset : e.offset = r.segment.baseOffset := ((keeps.readAt _ _).mp found).2
      have position : r.segment.entries[(o - r.segment.baseOffset).toNat]? = some e := by
        have head := congrArg List.head? rest
        rwa [List.head?_drop, List.head?_cons] at head
      have number := Theory.Numbered.at_position intact.numbered position
      omega

/-- A call keeps the offsets exactly if it spares the entries. -/
theorem keeps_step_iff (call : SegmentCall) : (r.step call).Keeps ↔ r.Spares call := by
  constructor
  · intro keeps
    by_contra breaks
    cases call with
    | append now key value =>
        simp only [Spares, not_forall, not_le] at breaks
        obtain ⟨o, point, late⟩ := breaks
        exact intact.append_breaks point late now key value keeps
    | truncate offset =>
        simp only [Spares, not_or, not_le] at breaks
        exact intact.truncate_breaks breaks.2 breaks.1 keeps
  · intro spares
    exact (intact.step call spares).keeps

end Intact

/-! ## Which runs spare every entry -/

@[simp] theorem step_baseOffset (call : SegmentCall) :
    (r.step call).segment.baseOffset = r.segment.baseOffset := by
  cases call with
  | append now key value => rfl
  | truncate offset => exact r.segment.truncate_baseOffset offset

theorem run_baseOffset (r : SegmentRun) (calls : List SegmentCall) :
    (run step r calls).segment.baseOffset = r.segment.baseOffset := by
  induction calls generalizing r with
  | nil => rfl
  | cons call rest ih => rw [run_cons, ih, step_baseOffset]

theorem mem_points_run {calls : List SegmentCall} {o : ℤ} (called : .truncate o ∈ calls) (r : SegmentRun) :
    o ∈ (run step r calls).points := by
  obtain ⟨before, after, rfl⟩ := List.append_of_mem called
  rw [run_append, run_cons]
  have preserved : ∀ (r : SegmentRun) call, o ∈ r.points → o ∈ (r.step call).points := by
    intro r call point
    cases call with
    | append now key value => exact point
    | truncate offset => exact List.mem_append_left _ point
  exact run_preserves preserved (List.mem_append_right _ (List.mem_singleton_self o)) after

theorem appended_run_ne_nil {calls : List SegmentCall} {now : Timestamp} {key : Option String}
    {value : List UInt8} (called : .append now key value ∈ calls) (r : SegmentRun) :
    (run step r calls).appended ≠ [] := by
  obtain ⟨before, after, rfl⟩ := List.append_of_mem called
  rw [run_append, run_cons]
  have preserved : ∀ (r : SegmentRun) call, r.appended ≠ [] → (r.step call).appended ≠ [] := by
    intro r call some_
    cases call with
    | append now key value => exact List.append_ne_nil_of_left_ne_nil some_ _
    | truncate offset => exact some_
  exact run_preserves preserved (List.append_ne_nil_of_right_ne_nil _ (List.cons_ne_nil _ _)) after

variable {baseOffset : ℤ} {calls : List SegmentCall}

/-- A run that truncates at the base or before it. -/
theorem guarded_spares_of_early (early : ∀ o, .truncate o ∈ calls → o ≤ baseOffset) (maxBytes : ℤ) :
    Guarded step Spares (new baseOffset maxBytes) calls := by
  have met : ∀ (r : SegmentRun) call,
      (r.segment.baseOffset = baseOffset ∧ ∀ o ∈ r.points, o ≤ baseOffset) →
      (∀ o, call = .truncate o → o ≤ baseOffset) →
      r.Spares call ∧ (r.step call).segment.baseOffset = baseOffset ∧
        ∀ o ∈ (r.step call).points, o ≤ baseOffset := by
    rintro r call ⟨base, points⟩ early
    rw [step_baseOffset, base]
    cases call with
    | append now key value =>
        refine ⟨?_, rfl, points⟩
        rw [Spares, base]
        exact points
    | truncate offset =>
        refine ⟨.inl ?_, rfl, fun o point => ?_⟩
        · rw [base]
          exact early offset rfl
        · rcases List.mem_append.mp point with old | new
          · exact points o old
          · rw [List.mem_singleton.mp new]
            exact early offset rfl
  exact guarded_of_invariant met ⟨rfl, nofun⟩ fun call member o same => early o (same ▸ member)

/-- A run that never appends. -/
theorem guarded_spares_of_no_append (none_ : ∀ now key value, .append now key value ∉ calls) (maxBytes : ℤ) :
    Guarded step Spares (new baseOffset maxBytes) calls := by
  have met : ∀ (r : SegmentRun) call, r.appended = [] →
      (∀ now key value, call ≠ .append now key value) →
      r.Spares call ∧ (r.step call).appended = [] := by
    intro r call empty truncates
    cases call with
    | append now key value => exact absurd rfl (truncates now key value)
    | truncate offset => exact ⟨.inr empty, empty⟩
  exact guarded_of_invariant met rfl fun call member now key value same =>
    none_ now key value (same ▸ member)

/-- Of an append and a truncation beyond the base, the later one does not spare the entries. -/
theorem guarded_spares_iff (baseOffset maxBytes : ℤ) (calls : List SegmentCall) :
    Guarded step Spares (new baseOffset maxBytes) calls ↔
      (∀ o, .truncate o ∈ calls → o ≤ baseOffset) ∨
        ∀ now key value, .append now key value ∉ calls := by
  constructor
  · intro guarded
    have each := guarded_iff_split.mp guarded
    have base : ∀ calls, (run step (new baseOffset maxBytes) calls).segment.baseOffset = baseOffset :=
      run_baseOffset _
    by_contra both
    simp only [not_or, not_forall, not_le, not_not] at both
    obtain ⟨⟨o, truncated, late⟩, now, key, value, called⟩ := both
    obtain ⟨before, after, rfl⟩ := List.append_of_mem called
    rcases List.mem_append.mp truncated with earlier | later
    · have spared := each before _ after rfl o (mem_points_run earlier _)
      rw [base] at spared
      omega
    · obtain ⟨between, rest, rfl⟩ := List.append_of_mem ((List.mem_cons.mp later).resolve_left nofun)
      have split : before ++ .append now key value :: (between ++ .truncate o :: rest) =
          (before ++ .append now key value :: between) ++ .truncate o :: rest := by simp
      rcases each _ _ rest split with early | none_
      · rw [base] at early
        omega
      · exact appended_run_ne_nil (List.mem_append_right _ List.mem_cons_self) _ none_
  · rintro (early | none_)
    · exact guarded_spares_of_early early maxBytes
    · exact guarded_spares_of_no_append none_ maxBytes

/-- **A segment keeps its offsets in exactly the runs that never truncate beyond its
base or never append.** -/
theorem run_keeps_iff (baseOffset maxBytes : ℤ) (calls : List SegmentCall) :
    (∀ before, before <+: calls → (run step (new baseOffset maxBytes) before).Keeps) ↔
      (∀ o, .truncate o ∈ calls → o ≤ baseOffset) ∨
        ∀ now key value, .append now key value ∉ calls := by
  rw [← guarded_spares_iff baseOffset maxBytes]
  have preserved : ∀ (r : SegmentRun) call, r.Intact → r.Spares call → (r.step call).Intact :=
    fun _ call intact spares => intact.step call spares
  have exact_ : ∀ (r : SegmentRun) call, r.Intact → ((r.step call).Keeps ↔ r.Spares call) :=
    fun _ call intact => intact.keeps_step_iff call
  have start := new_intact baseOffset maxBytes
  exact forall_prefix_iff_guarded_of_invariant preserved exact_ start start.keeps

/-- Five entries, of which the first three are truncated. -/
def fiveCalls : List SegmentCall :=
  List.replicate 5 (.append 0 none [118]) ++ [.truncate 3]

/-- The entries 3 and 4 remain: 3 is found under 0, 4 not at all, and doing the same
again removes both. -/
theorem fiveCalls_lost :
    let r := run step (new 0 (1024 * 1024)) fiveCalls
    r.remaining.map LogEntry.offset = [3, 4] ∧ r.segment.readAt 4 = none ∧
      (r.segment.readAt 0).map LogEntry.offset = some 3 ∧ (r.segment.truncate 3).1 = 2 ∧
      ((r.step (.truncate 3)).segment.append 0 none [118]).1 = 0 ∧ ¬ r.Keeps := by
  intro r
  have remaining : r.remaining.map LogEntry.offset = [3, 4] := by decide +kernel
  have lost : r.segment.readAt 4 = none := by decide +kernel
  refine ⟨remaining, lost, by decide +kernel, by decide +kernel, by decide +kernel, fun keeps => ?_⟩
  have fourth : (4 : ℤ) ∈ r.remaining.map LogEntry.offset := by simp [remaining]
  obtain ⟨e, member, offset⟩ := List.mem_map.mp fourth
  rw [(keeps.readAt 4 e).mpr ⟨member, offset⟩] at lost
  cases lost

end SegmentRun

end BrokerLite
