import Mathlib

/-!
# Readers of a stream

A reader takes something from the front of a stream, or fails.  A stream is what has
arrived so far: a reader for which that is too little fails as well, and is tried
again when there is more.

* `Reads`, `Answers` — what the reader makes of these elements, whatever is behind
  them.
* `Stable` — what the reader has answered does not change when more arrives, unless
  it has failed for want of it.
* `times` — one value after the other.
* `fix` — a recursive reader.  The recursion is on the stream, of which the body has
  to take something before it calls itself (`Guarded`).

## What has arrived so far

A reader that waits for more elements could be modelled as a process that is
suspended.  Trying again from the start is simpler, and gives the same result if the
reader is stable: what it has taken from a part of the stream, it takes from the
whole.  `Stable` has two halves, for what is read and for what is refused, and the
second one is about the errors that are `final` only, since a failure for want of
elements is none.

Everything that a connection receives is then described by `Answers`: the elements
that make up a value are answered with it, whatever follows.  The two theorems
`Stable.answered` and `Stable.refused` say what a reader does on some first part of
such elements, and with them it does not matter in which portions they arrive.

## Recursion

A reply may contain replies, to any depth.  The body of such a reader is a function
of the reader for what is nested, and `fix` applies it as often as there are
elements in the stream.  That is enough if the body takes an element before each
nested call, which is what `Guarded` asks for, and `Guarded.fix_eq` is the equation
that one would like to have written down.
-/

namespace Streams

/-- What is read from the front of a stream. -/
abbrev Reader (β ε α : Type) := StateT (List β) (Except ε) α

namespace Reader

variable {β ε α γ : Type} {x y : Reader β ε α} {f : α → Reader β ε γ} {s s' : List β} {a : α}

theorem bind_ok (read : x s = .ok (a, s')) : (x >>= f) s = f a s' := by
  simp [bind, StateT.bind, read, Except.bind]

theorem bind_error {e : ε} (failed : x s = .error e) : (x >>= f) s = .error e := by
  simp [bind, StateT.bind, failed, Except.bind]

/-- What a sequence of two readers has read. -/
theorem bind_eq_ok {c : γ} {s'' : List β} (read : (x >>= f) s = .ok (c, s'')) :
    ∃ a s', x s = .ok (a, s') ∧ f a s' = .ok (c, s'') := by
  cases first : x s with
  | error e => rw [bind_error first] at read; cases read
  | ok result =>
      rw [bind_ok (show x s = .ok (result.1, result.2) from first)] at read
      exact ⟨result.1, result.2, rfl, read⟩

/-- Where a sequence of two readers has failed. -/
theorem bind_eq_error {e : ε} (failed : (x >>= f) s = .error e) :
    x s = .error e ∨ ∃ a s', x s = .ok (a, s') ∧ f a s' = .error e := by
  cases first : x s with
  | error e' =>
      rw [bind_error first] at failed
      cases failed
      exact .inl rfl
  | ok result =>
      rw [bind_ok (show x s = .ok (result.1, result.2) from first)] at failed
      exact .inr ⟨result.1, result.2, rfl, failed⟩

/-! ## Reading back -/

/-- The reader takes `a` from `s`, and leaves what is behind it. -/
def Reads (x : Reader β ε α) (s : List β) (a : α) : Prop := ∀ rest, x (s ++ rest) = .ok (a, rest)

theorem reads_pure (a : α) : Reads (pure a : Reader β ε α) [] a := fun _ => rfl

/-- One value after another. -/
theorem Reads.bind {t : List β} {c : γ} (first : Reads x s a) (second : Reads (f a) t c) :
    Reads (x >>= f) (s ++ t) c := by
  intro rest
  rw [List.append_assoc, bind_ok (first (t ++ rest))]
  exact second rest

theorem reads_liftM {read : Except ε α} (known : read = .ok a) :
    Reads (liftM read : Reader β ε α) [] a := by
  intro rest
  subst known
  rfl

/-- Read `n` values, one after the other. -/
def times (x : Reader β ε α) : ℕ → Reader β ε (List α)
  | 0 => pure []
  | n + 1 => do
      let a ← x
      let others ← times x n
      return a :: others

/-- The reader takes `s` as `result` says, or fails on it, whatever is behind it. -/
def Answers (x : Reader β ε α) (s : List β) (result : Except ε α) : Prop :=
  ∀ rest, x (s ++ rest) = result.map fun a => (a, rest)

theorem Reads.answers (reads : Reads x s a) : Answers x s (.ok a) := reads

theorem answers_throw (e : ε) (s : List β) : Answers (throw e : Reader β ε α) s (.error e) :=
  fun _ => rfl

theorem Reads.bind_answers {t : List β} {result : Except ε γ} (first : Reads x s a)
    (second : Answers (f a) t result) : Answers (x >>= f) (s ++ t) result := by
  intro rest
  rw [List.append_assoc, bind_ok (first (t ++ rest))]
  exact second rest

/-- A value, and what is made of it. -/
theorem Answers.bind {t : List β} {first : Except ε α} {g : α → Except ε γ}
    (answers : Answers x s first) (second : ∀ a, first = .ok a → Answers (f a) t (g a)) :
    Answers (x >>= f) (s ++ t) (first >>= g) := by
  cases first with
  | error e =>
      intro rest
      rw [List.append_assoc, bind_error (answers (t ++ rest))]
      rfl
  | ok a => exact Reads.bind_answers answers (second a rfl)

/-- Several values, up to the first that fails. -/
theorem Answers.times {τ : Type} {encode : τ → List β} {value : τ → Except ε α} {items : List τ}
    (each : ∀ item ∈ items, Answers x (encode item) (value item)) :
    Answers (x.times items.length) (items.flatMap encode) (items.mapM value) := by
  induction items with
  | nil => exact reads_pure []
  | cons item rest ih =>
      rw [List.flatMap_cons, List.mapM_cons, ← List.append_nil (rest.flatMap encode)]
      refine (each item (by simp)).bind fun a _ => ?_
      refine (ih fun other member => each other (by simp [member])).bind fun others _ => ?_
      exact reads_pure _

/-! ## Stability -/

/-- More elements behind the stream change neither what has been read nor a failure that is
`final`. -/
structure Stable (final : ε → Prop) (x : Reader β ε α) : Prop where
  ok : ∀ s a s', x s = .ok (a, s') → ∃ used, s = used ++ s' ∧ Reads x used a
  error : ∀ s e, x s = .error e → final e → ∀ rest, x (s ++ rest) = .error e

variable {final : ε → Prop}

/-- **What is read before everything has arrived** is what is read from the whole. -/
theorem Stable.answered (stable : Stable final x) {t used rest : List β} {result : Except ε α}
    (whole : s ++ t = used ++ rest) (answers : Answers x used result)
    (read : x s = .ok (a, s')) : result = .ok a ∧ s = used ++ s' ∧ s' ++ t = rest := by
  obtain ⟨used', rfl, back⟩ := stable.ok s a s' read
  have both := answers rest
  rw [← whole, List.append_assoc, back (s' ++ t)] at both
  cases result with
  | error e => cases both
  | ok b =>
      obtain ⟨rfl, rfl⟩ : a = b ∧ s' ++ t = rest := by simpa [Except.map] using both
      rw [List.append_assoc] at whole
      exact ⟨rfl, by rw [List.append_cancel_right whole], rfl⟩

/-- The same for what is refused. -/
theorem Stable.refused (stable : Stable final x) {t used rest : List β} {result : Except ε α}
    (whole : s ++ t = used ++ rest) (answers : Answers x used result) {e : ε}
    (failed : x s = .error e) (isFinal : final e) : result = .error e := by
  have both := answers rest
  rw [← whole, stable.error s e failed isFinal t] at both
  cases result with
  | error e' => simpa [Except.map] using both.symm
  | ok b => cases both

/-- A stable reader does not put anything back. -/
theorem Stable.length_le (stable : Stable final x) (read : x s = .ok (a, s')) :
    s'.length ≤ s.length := by
  obtain ⟨used, rfl, -⟩ := stable.ok s a s' read
  simp

/-- A reader that takes nothing is stable. -/
theorem stable_pure (a : α) : Stable final (pure a : Reader β ε α) where
  ok s a' s' read := by
    obtain ⟨rfl, rfl⟩ : a = a' ∧ s = s' := by simpa [pure, StateT.pure, Except.pure] using read
    exact ⟨[], rfl, reads_pure a⟩
  error s e failed := by simp [pure, StateT.pure, Except.pure] at failed

/-- So is one that always fails. -/
theorem stable_throw (e : ε) : Stable final (throw e : Reader β ε α) where
  ok s a s' read := by cases read
  error s e' failed isFinal rest := by
    cases failed
    rfl

theorem stable_liftM (read : Except ε α) : Stable final (liftM read : Reader β ε α) := by
  cases read with
  | error e => exact stable_throw e
  | ok a => exact stable_pure a

/-- **Two stable readers** one after the other are stable. -/
theorem Stable.bind (first : Stable final x) (second : ∀ a, Stable final (f a)) :
    Stable final (x >>= f) where
  ok s c s'' read := by
    obtain ⟨a, s', readFirst, readSecond⟩ := bind_eq_ok read
    obtain ⟨used, rfl, back⟩ := first.ok s a s' readFirst
    obtain ⟨used', rfl, back'⟩ := (second a).ok s' c s'' readSecond
    exact ⟨used ++ used', by simp, back.bind back'⟩
  error s e failed isFinal rest := by
    rcases bind_eq_error failed with early | ⟨a, s', read, late⟩
    · exact bind_error (first.error s e early isFinal rest)
    · obtain ⟨used, rfl, back⟩ := first.ok s a s' read
      rw [List.append_assoc, bind_ok (back (s' ++ rest))]
      exact (second a).error s' e late isFinal rest

/-- Two readers that agree on what is left of a stream read the same values from it. -/
theorem Stable.times_congr (stable : Stable final x)
    (same : ∀ t : List β, t.length ≤ s.length → x t = y t) (n : ℕ) :
    x.times n s = y.times n s := by
  induction n generalizing s with
  | zero => rfl
  | succ n ih =>
      simp only [times]
      cases first : x s with
      | error e => rw [bind_error first, bind_error ((same s le_rfl).symm.trans first)]
      | ok result =>
          obtain ⟨a, s'⟩ := result
          rw [bind_ok first, bind_ok ((same s le_rfl).symm.trans first)]
          have shorter := stable.length_le first
          have rest := ih fun t short => same t (le_trans short shorter)
          cases others : x.times n s' with
          | error e => rw [bind_error others, bind_error (rest.symm.trans others)]
          | ok result => rw [bind_ok others, bind_ok (rest.symm.trans others)]

/-- So is a stable reader that is called several times. -/
theorem Stable.times (stable : Stable final x) (n : ℕ) : Stable final (x.times n) := by
  induction n with
  | zero => exact stable_pure []
  | succ n ih => exact stable.bind fun a => ih.bind fun others => stable_pure _

/-! ## Recursion -/

/-- The body `step`, nested as deep as `fuel` says.  Below that depth it fails with
`out`. -/
def nest (step : Reader β ε α → Reader β ε α) (out : ε) : ℕ → Reader β ε α
  | 0 => throw out
  | fuel + 1 => step (nest step out fuel)

/-- A recursive reader: there are not more nested calls than there are elements to
take. -/
def fix (step : Reader β ε α → Reader β ε α) (out : ε) : Reader β ε α :=
  fun s => nest step out (s.length + 1) s

/-- The body keeps stability, and it takes something from the stream before it calls
itself: two readers that agree on shorter streams are the same to it. -/
structure Guarded (final : ε → Prop) (step : Reader β ε α → Reader β ε α) : Prop where
  stable : ∀ x, Stable final x → Stable final (step x)
  congr : ∀ x y s, Stable final x → (∀ t, t.length < s.length → x t = y t) → step x s = step y s

variable {step : Reader β ε α → Reader β ε α} {out : ε}

/-- A body that is nested to some depth is stable. -/
theorem Guarded.stable_nest (guarded : Guarded final step) (fuel : ℕ) :
    Stable final (nest step out fuel) := by
  induction fuel with
  | zero => exact stable_throw out
  | succ fuel ih => exact guarded.stable _ ih

/-- With enough fuel it does not matter how much there is. -/
theorem Guarded.nest_eq (guarded : Guarded final step) {fuel fuel' : ℕ}
    (enough : s.length < fuel) (enough' : s.length < fuel') :
    nest step out fuel s = nest step out fuel' s := by
  induction fuel generalizing fuel' s with
  | zero => omega
  | succ fuel ih =>
      cases fuel' with
      | zero => omega
      | succ fuel' =>
          exact guarded.congr _ _ s (guarded.stable_nest fuel)
            fun t shorter => ih (by omega) (by omega)

/-- Enough fuel is as good as the recursion. -/
theorem Guarded.nest_eq_fix (guarded : Guarded final step) {fuel : ℕ}
    (enough : s.length < fuel) : nest step out fuel s = fix step out s :=
  guarded.nest_eq enough (Nat.lt_succ_self _)

/-- **A guarded reader is a solution of its equation.** -/
theorem Guarded.fix_eq (guarded : Guarded final step) :
    fix step out = step (fix step out) := by
  funext s
  exact guarded.congr _ _ s (guarded.stable_nest s.length)
    fun t shorter => guarded.nest_eq_fix shorter

/-- A guarded reader is stable. -/
theorem Guarded.stable_fix (guarded : Guarded final step) : Stable final (fix step out) := by
  constructor
  · intro s a s' read
    obtain ⟨used, rfl, -⟩ := (guarded.stable_nest _).ok s a s' read
    refine ⟨used, rfl, fun rest => ?_⟩
    -- One level that is deep enough for both streams.
    set fuel := (used ++ s').length + (used ++ rest).length + 1
    rw [← guarded.nest_eq_fix (by omega : (used ++ s').length < fuel)] at read
    rw [← guarded.nest_eq_fix (by omega : (used ++ rest).length < fuel)]
    obtain ⟨used', same, back⟩ := (guarded.stable_nest fuel).ok _ a s' read
    obtain rfl := List.append_cancel_right same
    exact back rest
  · intro s e failed isFinal rest
    have deep : s.length < (s ++ rest).length + 1 := by
      rw [List.length_append]
      omega
    rw [← guarded.nest_eq_fix deep] at failed
    exact (guarded.stable_nest _).error s e failed isFinal rest

end Reader

end Streams
