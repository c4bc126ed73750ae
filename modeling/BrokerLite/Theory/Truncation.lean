/-
# Theory.Truncation -- cursors on data that end early

`Bears read bytes cuts post` says what a cursor makes of `bytes` when the data end
before they do: where `cuts` holds of the number of missing elements it goes on as if
they were there, elsewhere it raises.  On data that do not end early it is the case of
no missing element.

A sequence bears what its last part bears, if the others are whole: a cursor that went
on behind the end of the data leaves nothing to a `Hungry` one (`Bears.bind`).  For a
loop this is `bears_rounds`.
-/
import BrokerLite.Theory.Cursor

namespace BrokerLite.Theory.Cursor

set_option autoImplicit false

universe u v w x

variable {α : Type u} {ε : Type v} {β : Type w} {γ : Type x}

/-- At the end of the data the cursor raises. -/
def Hungry (read : Cursor α ε β) : Prop :=
  ∀ data offset, data.length ≤ offset → ∃ e, read data offset = .error e

theorem Hungry.bind {read : Cursor α ε β} (hungry : Hungry read) (next : β → Cursor α ε γ) :
    Hungry (read.bind next) := by
  intro data offset late
  obtain ⟨e, raised⟩ := hungry data offset late
  exact ⟨e, by rw [Cursor.bind, raised]⟩

theorem Hungry.map {read : Cursor α ε β} (hungry : Hungry read) (f : β → Except ε γ) :
    Hungry (read.map f) := by
  intro data offset late
  obtain ⟨e, raised⟩ := hungry data offset late
  exact ⟨e, by rw [Cursor.map, raised]⟩

theorem bind_map (read : Cursor α ε β) (next : β → Cursor α ε γ) {δ : Type*} (f : γ → Except ε δ) :
    (read.bind next).map f = read.bind fun b => (next b).map f := by
  funext data offset
  cases found : read data offset <;> simp only [Cursor.bind, Cursor.map, found]

theorem bind_here (read : Cursor α ε β) : read.bind here = read := by
  funext data offset
  rw [Cursor.bind]
  split
  · next raised => exact raised.symm
  · next done => exact done.symm

/-- A run that goes on at `stop` with a value that has `post` if `good`, and raises if not. -/
def Ends (result : Except ε (β × ℕ)) (stop : ℕ) (good : Prop) (post : β → Prop) : Prop :=
  (good ∧ ∃ b, result = .ok (b, stop) ∧ post b) ∨ (¬ good ∧ ∃ e, result = .error e)

/-- The cursor on `bytes` of which the last may be missing, if the data end there. -/
structure Bears (read : Cursor α ε β) (bytes : List α) (cuts : ℕ → Prop) (post : β → Prop) :
    Prop where
  inside : ∀ n, cuts n → n ≤ bytes.length
  ends : ∀ before kept missing after, bytes = kept ++ missing → (missing = [] ∨ after = []) →
    Ends (read (before ++ kept ++ after) before.length) (before.length + bytes.length)
      (cuts missing.length) post

section Rules

variable {read : Cursor α ε β} {bytes : List α} {cuts cuts' : ℕ → Prop} {post : β → Prop}

theorem Bears.congr (bears : Bears read bytes cuts post) (same : ∀ n, cuts n ↔ cuts' n) :
    Bears read bytes cuts' post := by
  have equal : cuts = cuts' := funext fun n => propext (same n)
  rwa [← equal]

theorem bears_here {b : β} (has : post b) : Bears (here b : Cursor α ε β) [] (· = 0) post := by
  constructor
  · rintro n rfl
    exact Nat.le_refl 0
  · intro before kept missing after whole _
    obtain ⟨rfl, rfl⟩ := List.append_eq_nil_iff.mp whole.symm
    exact .inl ⟨rfl, b, by simp [here], has⟩

/-- What is made of the value, where this fails for all values or for none. -/
theorem Bears.check {good : Prop} {f : β → Except ε γ} {post' : γ → Prop}
    (bears : Bears read bytes cuts post) (made : good → ∀ b, post b → ∃ c, f b = .ok c ∧ post' c)
    (refused : ¬ good → ∀ b, post b → ∃ e, f b = .error e) :
    Bears (read.map f) bytes (fun n => good ∧ cuts n) post' := by
  refine ⟨fun n both => bears.inside n both.2, ?_⟩
  intro before kept missing after whole ended
  rw [Cursor.map]
  obtain ⟨cut, b, done, has⟩ | ⟨uncut, e, raised⟩ := bears.ends before kept missing after whole ended
  · rw [done]
    by_cases holds : good
    · obtain ⟨c, made, has'⟩ := made holds b has
      exact .inl ⟨⟨holds, cut⟩, c, by simp only [made], has'⟩
    · obtain ⟨e, refused⟩ := refused holds b has
      exact .inr ⟨fun both => holds both.1, e, by simp only [refused]⟩
  · exact .inr ⟨fun both => uncut both.2, e, by rw [raised]⟩

theorem Bears.map {f : β → Except ε γ} {post' : γ → Prop} (bears : Bears read bytes cuts post)
    (made : ∀ b, post b → ∃ c, f b = .ok c ∧ post' c) : Bears (read.map f) bytes cuts post' := by
  have checked := bears.check (fun _ : True => made) (fun no => absurd trivial no)
  exact checked.congr fun n => Iff.of_eq (true_and _)

/-- Behind a first part that is there as a whole the second one may end early. -/
theorem Bears.ends_bind {next : β → Cursor α ε γ} {second : List α} {post' : γ → Prop}
    (bears : Bears read bytes cuts post)
    (continues : ∀ b, post b → Bears (next b) second cuts' post') (before : List α)
    {rest missing after : List α} (split : second = rest ++ missing)
    (ended : missing = [] ∨ after = []) :
    Ends (read.bind next (before ++ (bytes ++ rest) ++ after) before.length)
      (before.length + (bytes ++ second).length) (cuts 0 ∧ cuts' missing.length) post' := by
  rw [Cursor.bind, show before ++ (bytes ++ rest) ++ after = before ++ bytes ++ (rest ++ after) by
    simp only [List.append_assoc]]
  obtain ⟨cut, b, done, has⟩ | ⟨uncut, e, raised⟩ :=
    bears.ends before bytes [] (rest ++ after) (List.append_nil bytes).symm (.inl rfl)
  · rw [done]
    have tail := (continues b has).ends (before ++ bytes) rest missing after split ended
    simp only [List.append_assoc, List.length_append, ← Nat.add_assoc] at tail ⊢
    obtain ⟨cut', c, done', has'⟩ | ⟨uncut', e, raised'⟩ := tail
    · exact .inl ⟨⟨cut, cut'⟩, c, done', has'⟩
    · exact .inr ⟨fun both => uncut' both.2, e, raised'⟩
  · exact .inr ⟨fun both => uncut both.1, e, by rw [raised]⟩

/-- A sequence bears what its second part bears; a first part that does without its end
leaves the second one nothing. -/
theorem Bears.bind {next : β → Cursor α ε γ} {second : List α} {post' : γ → Prop}
    (bears : Bears read bytes cuts post)
    (continues : ∀ b, post b → Bears (next b) second cuts' post')
    (inside : ∀ n, cuts' n → n ≤ second.length)
    (hungry : (∃ n, cuts (n + 1)) → ∀ b, Hungry (next b)) :
    Bears (read.bind next) (bytes ++ second) (fun n => cuts 0 ∧ cuts' n) post' := by
  constructor
  · intro n both
    have short := inside n both.2
    rw [List.length_append]
    omega
  intro before kept missing after whole ended
  obtain ⟨rest, rfl, split⟩ | ⟨lost, first, rfl⟩ := List.append_eq_append_iff.mp whole
  · exact bears.ends_bind continues before split ended
  · cases lost with
    | nil =>
        obtain rfl : kept = bytes ++ [] := by simpa using first.symm
        exact bears.ends_bind continues before (List.nil_append second).symm ended
    | cons a lost =>
        -- Some of the first part is missing, and all of the second.
        obtain rfl := ended.resolve_left (by simp)
        have outside : ¬ cuts' (a :: lost ++ second).length := by
          intro cut
          have short := inside _ cut
          rw [List.length_append, List.length_cons] at short
          omega
        refine .inr ⟨fun both => outside both.2, ?_⟩
        rw [Cursor.bind]
        obtain ⟨cut, b, done, has⟩ | ⟨uncut, e, raised⟩ :=
          bears.ends before kept (a :: lost) [] first (.inr rfl)
        · rw [done]
          apply hungry ⟨lost.length, cut⟩ b
          simp [first]
        · exact ⟨e, by rw [raised]⟩

/-- The first part has to be there as a whole. -/
theorem Bears.bind_whole {next : β → Cursor α ε γ} {second : List α} {post' : γ → Prop}
    (bears : Bears read bytes (· = 0) post)
    (continues : ∀ b, post b → Bears (next b) second cuts post')
    (inside : ∀ n, cuts n → n ≤ second.length) :
    Bears (read.bind next) (bytes ++ second) cuts post' := by
  have both := bears.bind continues inside fun ⟨n, more⟩ => absurd more (Nat.succ_ne_zero n)
  exact both.congr fun n => and_iff_right rfl

end Rules

/-! ## Loops -/

/-- What a loop bears: all parts but the last have to be whole. -/
def lastCuts : List (ℕ → Prop) → ℕ → Prop
  | [], n => n = 0
  | [cuts], n => cuts n
  | cuts :: next :: rest, n => cuts 0 ∧ lastCuts (next :: rest) n

theorem bears_rounds {step : β → Cursor α ε β} (hungry : ∀ s, Hungry (step s))
    {parts : List (List α)} {cuts : List (ℕ → Prop)}
    (each : List.Forall₂ (fun part cuts => ∀ s, Bears (step s) part cuts fun _ => True) parts cuts) :
    ∀ s, Bears (rounds step parts.length s) parts.flatten (lastCuts cuts) fun _ => True := by
  induction each with
  | nil =>
      intro s
      exact bears_here trivial
  | @cons part cuts parts rest head tail ih =>
      intro s
      cases tail with
      | nil =>
          have only := head s
          rwa [← bind_here (step s), ← List.append_nil part] at only
      | cons next others =>
          exact (head s).bind (fun s' _ => ih s') (ih s).inside fun _ s' => (hungry s').bind _

end BrokerLite.Theory.Cursor
