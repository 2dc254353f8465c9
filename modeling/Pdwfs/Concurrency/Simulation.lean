import Pdwfs.Concurrency.Pool

/-!
# Programs on two stores

A program that runs on two stores with the same schedule does the same on both, if
the stores are related in a way that the requests keep, and if the program makes
nothing of the differences between the replies.

* `Program.Respects` — the program makes the same of replies that are alike.
* `Program.Respects.lockstep` — its runs on one store are runs on the other.

## What the relation is for

The relation is chosen by what may differ and must not be noticed: keys that are
left over, an empty string in the place of a missing one.  Such a difference can
show in a single reply, and is gone in what the function makes of it.  So replies
are only asked to be *alike*, and it is the program that has to treat alike replies
alike.

The rule asks nothing of whole functions.  `Respects` is shown construct by
construct, and `Keeps` for each kind of request; how the function is put together is
not looked at a second time.
-/

namespace Concurrency

universe u w z

variable {κ : Type u} {ρ α β : Type w} {σ : Type z}

namespace Program

/-- The program goes on in the same way after replies that are `alike`.  Only
programs that are given replies in the same order are compared, so this is a
property of the continuation of each fork. -/
def Respects (alike : ρ → ρ → Prop) : Program κ ρ α → Prop
  | .ret _ => True
  | .panic => True
  | .fork _ _ _ next =>
      (∀ rs rs', List.Forall₂ alike rs rs' → next rs = next rs') ∧
        ∀ rs, Respects alike (next rs)

variable {alike : ρ → ρ → Prop}

@[simp] theorem respects_ret (value : α) : Respects alike (.ret value : Program κ ρ α) := trivial

@[simp] theorem respects_panic : Respects alike (.panic : Program κ ρ α) := trivial

/-- Goroutines whose replies are alike, if the rest of the program makes the same of
them. -/
theorem respects_forkAll_bind {tasks : List κ} {f : List ρ → Program κ ρ α}
    (same : ∀ rs rs', List.Forall₂ alike rs rs' → f rs = f rs')
    (continued : ∀ rs, Respects alike (f rs)) : Respects alike (forkAll tasks >>= f) := by
  rw [forkAll, resume_bind]
  cases tasks with
  | nil => exact continued []
  | cons q rest => exact ⟨same, continued⟩

/-- The same for a single request. -/
theorem respects_request_bind {q : κ} {f : ρ → Program κ ρ α}
    (same : ∀ r r', alike r r' → f r = f r') (continued : ∀ r, Respects alike (f r)) :
    Respects alike (request q >>= f) := by
  rw [request, fork_bind]
  refine ⟨fun rs rs' pairs => ?_, fun rs => ?_⟩
  · cases pairs with
    | nil => rfl
    | cons first others => exact same _ _ first
  · cases rs with
    | nil => trivial
    | cons r others => exact continued r

/-- Both parts of a composition. -/
theorem Respects.bind {program : Program κ ρ α} {f : α → Program κ ρ β}
    (first : Respects alike program) (second : ∀ value, Respects alike (f value)) :
    Respects alike (program >>= f) := by
  induction program with
  | ret value => exact second value
  | panic => trivial
  | fork waiting nonempty replies next ih =>
      refine ⟨fun rs rs' pairs => ?_, fun rs => ih rs (first.2 rs)⟩
      exact congrArg (Program.bind · f) (first.1 rs rs' pairs)

section Lockstep

variable {exec : κ → σ → σ × ρ} {related : σ → σ → Prop}

/-- A request keeps the stores related, and is answered alike. -/
def Keeps (exec : κ → σ → σ × ρ) (related : σ → σ → Prop) (alike : ρ → ρ → Prop) (q : κ) : Prop :=
  ∀ s t, related s t → related (exec q s).1 (exec q t).1 ∧ alike (exec q s).2 (exec q t).2

/-- Requests that are executed one after the other on both stores. -/
theorem runAll_lockstep {tasks : List κ} {s t : σ}
    (each : ∀ q ∈ tasks, Keeps exec related alike q) (start : related s t) :
    related (runAll exec tasks s).1 (runAll exec tasks t).1 ∧
      List.Forall₂ alike (runAll exec tasks s).2 (runAll exec tasks t).2 := by
  induction tasks generalizing s t with
  | nil => exact ⟨start, .nil⟩
  | cons q rest ih =>
      obtain ⟨kept, answered⟩ := each q (by simp) s t start
      obtain ⟨finally', others⟩ := ih (fun q' member => each q' (by simp [member])) kept
      exact ⟨finally', .cons answered others⟩

/-- **The lockstep rule.**  Each run of the program on one store is a run on every
related store, with the same schedule and the same outcome. -/
theorem Respects.lockstep (refl : ∀ r, alike r r) {program : Program κ ρ α} {s t s' : σ}
    {outcome : Option α} (respects : Respects alike program)
    (issues : Issues (Keeps exec related alike) program) (start : related s t)
    (performed : Exec exec program s s' outcome) :
    ∃ t', Exec exec program t t' outcome ∧ related s' t' := by
  -- Induction on the program; a fork is served on both stores in the same order.
  induction program generalizing s t with
  | ret value =>
      obtain ⟨rfl, rfl⟩ := exec_ret_iff.mp performed
      exact ⟨t, .ret value t, start⟩
  | panic =>
      obtain ⟨rfl, rfl⟩ := exec_panic_iff.mp performed
      exact ⟨t, .panic t, start⟩
  | fork waiting nonempty replies next ih =>
      rw [← resume_of_ne_nil nonempty] at performed ⊢
      obtain ⟨order, perm, rest⟩ := exec_resume_iff.mp performed
      obtain ⟨kept, answered⟩ := runAll_lockstep
        (fun q member => issues.1 q (perm.mem_iff.mp member)) start
      obtain ⟨t', continued, finally'⟩ := ih _ (respects.2 _) (issues.2 _) kept rest
      refine ⟨t', exec_resume_iff.mpr ⟨order, perm, ?_⟩, finally'⟩
      have pairs : List.Forall₂ alike (replies ++ (runAll exec order s).2)
          (replies ++ (runAll exec order t).2) :=
        List.rel_append (List.forall₂_same.mpr fun r _ => refl r) answered
      rwa [respects.1 _ _ pairs] at continued

end Lockstep

end Program

end Concurrency
