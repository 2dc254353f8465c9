import Pdwfs.Concurrency.Pool

/-!
# Taking runs apart

What one client has done in a run is a trace of its own program; what the others
have done shows in the replies only.

* `Program.Trace.of_bind` — the trace of a sequential composition.
* `Pool.Run.split` — a run, before and after one of its requests.
* `Pool.Run.safe` — what safe programs keep in a run.
* `Pool.Run.answered_between` — when the stores of a run only go up in a preorder,
  every answer is that of a store between the first and the last.
* `Pool.Run.fact_iff` — what becomes true in a run, and by which requests.
* `Pool.play` — the run of a schedule, as a function.

## Facts of a run

An invariant says what is always so.  Where clients race, the question is what has
happened before what: who has seen that something was missing, and who has created
it.  Such statements are about the requests of a run and not about its state, and
what they need is a way to say that something holds from one request on.

`Run.fact_iff` is that: a property of the store that some requests make true and
none makes false holds at the end if and only if it held at the start or one of
these requests has been executed.  It is used for one fact at a time, so that a race
is described by the facts that matter and not by the whole store.
-/

namespace Concurrency

universe u w x z

variable {κ : Type u} {ρ α β : Type w} {σ : Type z} {ι : Type x}

namespace Program

/-- **The trace of a sequential composition** that has stopped is one of the first part
followed by one of the second, unless the first part aborts. -/
theorem Trace.of_bind [Nonempty ρ] {program : Program κ ρ α} {f : α → Program κ ρ β}
    {trace : List (κ × ρ)} {final : Program κ ρ β} (stopped : Stopped final)
    (performed : Trace (program >>= f) trace final) :
    (∃ value first rest, trace = first ++ rest ∧ Trace program first (.ret value) ∧
      Trace (f value) rest final) ∨ Trace program trace .panic ∧ final = .panic := by
  induction trace generalizing program with
  | nil =>
      cases program with
      | ret value => exact .inl ⟨value, [], [], rfl, .nil _, performed⟩
      | panic => exact .inr ⟨.nil _, (Trace.of_panic performed).2⟩
      | fork waiting nonempty replies next =>
          cases performed
          rw [fork_bind, ← resume_of_ne_nil nonempty] at stopped
          exact absurd stopped (not_stopped_resume nonempty _ _)
  | cons entry rest ih =>
      cases program with
      | ret value => exact .inl ⟨value, [], entry :: rest, rfl, .nil _, performed⟩
      | panic => exact absurd (Trace.of_panic performed).1 (by simp)
      | fork waiting nonempty replies next =>
          cases performed with
          | cons step others =>
              obtain ⟨after, first, rfl⟩ := step_bind_inv (by nofun) step
              rcases ih others with ⟨value, early, late, rfl, done, continued⟩ | ⟨aborted, rfl⟩
              · exact .inl ⟨value, _ :: early, late, rfl, .cons first done, continued⟩
              · exact .inr ⟨.cons first aborted, rfl⟩

/-- The same for a composition that has returned. -/
theorem Trace.of_bind_ret [Nonempty ρ] {program : Program κ ρ α} {f : α → Program κ ρ β}
    {trace : List (κ × ρ)} {result : β} (performed : Trace (program >>= f) trace (.ret result)) :
    ∃ value first rest, trace = first ++ rest ∧ Trace program first (.ret value) ∧
      Trace (f value) rest (.ret result) :=
  (performed.of_bind (stopped_ret result)).resolve_right fun aborted => nomatch aborted.2

/-- What a program yields does not depend on a store: it is determined by the
replies. -/
theorem Yields.of_trace {good : α → Prop} {program : Program κ ρ α} {trace : List (κ × ρ)}
    {value : α} (yields : Yields good program) (performed : Trace program trace (.ret value)) :
    good value := by
  generalize same : Program.ret value = final at performed
  induction performed with
  | nil program =>
      subst same
      exact yields
  | cons first others ih =>
      refine ih ?_ same
      cases first with
      | answer before after q r replies next nonempty =>
          cases before ++ after with
          | nil => exact yields _
          | cons q' rest => exact yields

/-- A safe program that has stopped has returned something good. -/
theorem Safe.of_stopped [Nonempty ρ] {exec : κ → σ → σ × ρ} {invariant : σ → Prop}
    {good : α → Prop} {program : Program κ ρ α}
    (safe : Safe exec invariant False good program) (stopped : Stopped program) :
    ∃ value, program = .ret value ∧ good value := by
  cases program with
  | ret value => exact ⟨value, rfl, safe⟩
  | panic => exact safe.elim
  | fork waiting nonempty replies next =>
      rw [← resume_of_ne_nil nonempty] at stopped
      exact absurd stopped (not_stopped_resume nonempty _ _)

end Program

namespace Pool

variable [DecidableEq ι] {exec : κ → σ → σ × ρ} {pool middle final : Pool ι κ ρ α σ}

/-- **A run, split at one of its requests**, which is answered by the store that is reached
there. -/
theorem Run.split {before after : List (ι × κ × ρ)} {label : ι × κ × ρ}
    (run : Run exec pool (before ++ label :: after) final) :
    ∃ middle rest, Run exec pool before middle ∧ Run exec rest after final ∧
      label.2.2 = (exec label.2.1 middle.store).2 ∧
      rest.store = (exec label.2.1 middle.store).1 := by
  induction before generalizing pool with
  | nil =>
      cases run with
      | cons first others =>
          cases first with
          | mk answered => exact ⟨_, _, .nil _, others, rfl, rfl⟩
  | cons head tail ih =>
      cases run with
      | cons first others =>
          obtain ⟨middle, rest, early, late, replied, store⟩ := ih others
          exact ⟨middle, rest, .cons first early, late, replied, store⟩

/-- **Safe programs in a run** keep the invariant, and stay safe. -/
theorem Run.safe {invariant : σ → Prop} {abort : Prop} {good : ι → α → Prop}
    {labels : List (ι × κ × ρ)} (run : Run exec pool labels final)
    (safe : ∀ i, Program.Safe exec invariant abort (good i) (pool.threads i))
    (holds : invariant pool.store) :
    invariant final.store ∧
      ∀ i, Program.Safe exec invariant abort (good i) (final.threads i) := by
  induction run with
  | nil pool => exact ⟨holds, safe⟩
  | cons first others ih =>
      cases first with
      | mk answered =>
          rename_i j q after
          obtain ⟨kept, safeRest⟩ := (safe j).step answered holds
          refine ih (fun i => ?_) kept
          by_cases same : i = j
          · subst same
            simpa using safeRest
          · simpa [Function.update_of_ne same] using safe i

/-- **Answers between two stores.**  When every request keeps the invariant and goes
up in a preorder of the stores, each request of a run is answered by a store between
the first and the last.  A client that asks several times is answered by several
stores, all of them between the two. -/
theorem Run.answered_between {invariant : σ → Prop} {le : σ → σ → Prop}
    (refl : ∀ s, le s s) (trans : ∀ {s t u}, le s t → le t u → le s u)
    {labels : List (ι × κ × ρ)} (run : Run exec pool labels final)
    (issues : ∀ i, Program.Issues
      (fun q => ∀ s, invariant s → invariant (exec q s).1 ∧ le s (exec q s).1) (pool.threads i))
    (holds : invariant pool.store) :
    invariant final.store ∧ le pool.store final.store ∧
      ∀ label ∈ labels, ∃ s, invariant s ∧ le pool.store s ∧ le s final.store ∧
        (exec label.2.1 s).2 = label.2.2 := by
  induction run with
  | nil pool => exact ⟨holds, refl _, by simp⟩
  | cons first others ih =>
      cases first with
      | mk answered =>
          rename_i i q after
          obtain ⟨keeps, issues'⟩ := (issues i).step answered
          obtain ⟨kept, up⟩ := keeps _ holds
          obtain ⟨kept', up', replied⟩ := ih
            (fun j => by
              by_cases same : j = i
              · subst same
                simpa using issues'
              · simpa [Function.update_of_ne same] using issues j)
            kept
          refine ⟨kept', trans up up', fun label member => ?_⟩
          rcases List.mem_cons.mp member with rfl | later
          · exact ⟨_, holds, refl _, trans up up', rfl⟩
          · obtain ⟨s, holds', above, below, reply⟩ := replied label later
            exact ⟨s, holds', trans up above, below, reply⟩

/-- What every request of a run keeps, the run keeps.  Only the requests that are in
the run are asked. -/
theorem Run.preserved {labels : List (ι × κ × ρ)} (run : Run exec pool labels final)
    (invariant : σ → Prop)
    (keeps : ∀ label ∈ labels, ∀ s, invariant s → invariant (exec label.2.1 s).1)
    (holds : invariant pool.store) : invariant final.store := by
  induction run with
  | nil pool => exact holds
  | cons first others ih =>
      have here := keeps _ List.mem_cons_self _ holds
      cases first with
      | mk answered => exact ih (fun label member => keeps label (by simp [member])) here

/-- **Once and from then on.**  A fact that a request either makes true or leaves as it is
holds after a run if it has held before, or if one of the requests that make it true is in
the run. -/
theorem Run.fact_iff {invariant : σ → Prop} {labels : List (ι × κ × ρ)}
    (run : Run exec pool labels final) (fact : σ → Prop) (trigger : κ → Prop)
    (step : ∀ label ∈ labels, ∀ s, invariant s → invariant (exec label.2.1 s).1 ∧
      (fact (exec label.2.1 s).1 ↔ fact s ∨ trigger label.2.1))
    (holds : invariant pool.store) :
    fact final.store ↔ fact pool.store ∨ ∃ label ∈ labels, trigger label.2.1 := by
  induction run with
  | nil pool => simp
  | cons first others ih =>
      obtain ⟨kept, here⟩ := step _ List.mem_cons_self _ holds
      cases first with
      | mk answered =>
          rw [ih (fun label member => step label (by simp [member])) kept]
          simp only at here
          rw [here, or_assoc]
          simp

/-- Each request of a run is one that its client may issue. -/
theorem Run.issued {labels : List (ι × κ × ρ)} (run : Run exec pool labels final)
    (allowed : ι → κ → Prop) (issues : ∀ i, Program.Issues (allowed i) (pool.threads i)) :
    ∀ label ∈ labels, allowed label.1 label.2.1 := by
  intro label member
  apply ((issues label.1).trace (run.trace label.1)).1 label.2
  exact List.mem_map.mpr ⟨label, List.mem_filter.mpr ⟨member, by simp⟩, rfl⟩

/-- What a client has performed, with the replies that it was given. -/
abbrev ownOf (labels : List (ι × κ × ρ)) (i : ι) : List (κ × ρ) :=
  (labels.filter fun label => label.1 = i).map Prod.snd

/-- What a client has performed is in the run. -/
theorem mem_of_mem_own {labels : List (ι × κ × ρ)} {i : ι} {entry : κ × ρ}
    (member : entry ∈ ownOf labels i) : (i, entry) ∈ labels := by
  obtain ⟨label, inFilter, rfl⟩ := List.mem_map.mp member
  obtain ⟨inLabels, owner⟩ := List.mem_filter.mp inFilter
  rw [← of_decide_eq_true owner]
  exact inLabels

/-- What is in a run, its client has performed. -/
theorem mem_own {labels : List (ι × κ × ρ)} {i : ι} {entry : κ × ρ}
    (member : (i, entry) ∈ labels) : entry ∈ ownOf labels i :=
  List.mem_map.mpr ⟨_, List.mem_filter.mpr ⟨member, by simp⟩, rfl⟩

/-- A run, split where one client has performed something.  What the client has done
before and afterwards is divided in the same way, and the others may have been
anywhere. -/
theorem exists_split_of_own {labels : List (ι × κ × ρ)} {i : ι} {first rest : List (κ × ρ)}
    {entry : κ × ρ} (own : ownOf labels i = first ++ entry :: rest) :
    ∃ before after, labels = before ++ (i, entry) :: after ∧ ownOf before i = first ∧
      ownOf after i = rest := by
  induction labels generalizing first with
  | nil =>
      cases first <;> simp [ownOf] at own
  | cons label others ih =>
      by_cases mine : label.1 = i
      · obtain ⟨i', entry'⟩ := label
        obtain rfl : i' = i := mine
        simp only [ownOf, decide_true, List.filter_cons_of_pos, List.map_cons] at own
        cases first with
        | nil =>
            obtain ⟨rfl, same⟩ := List.cons.inj own
            exact ⟨[], others, rfl, rfl, same⟩
        | cons head tail =>
            obtain ⟨rfl, same⟩ := List.cons.inj own
            obtain ⟨before, after, rfl, early, late⟩ := ih same
            exact ⟨(i', entry') :: before, after, rfl, by simpa [ownOf] using early, late⟩
      · simp only [ownOf, mine, decide_false, Bool.false_eq_true, not_false_eq_true,
          List.filter_cons_of_neg] at own
        obtain ⟨before, after, rfl, early, late⟩ := ih own
        exact ⟨label :: before, after, rfl, by simpa [ownOf, mine] using early, late⟩

/-! ## Schedules -/

section Play

variable (exec)

/-- The first waiting request of client `i` is answered. -/
def serveFirst (pool : Pool ι κ ρ α σ) (i : ι) :
    Option ((ι × κ × ρ) × Pool ι κ ρ α σ) :=
  match pool.threads i with
  | .fork (q :: rest) _ replies next =>
      let answered := exec q pool.store
      some ((i, q, answered.2), ⟨answered.1, Function.update pool.threads i
        (Program.resume rest (replies ++ [answered.2]) next)⟩)
  | _ => none

/-- The run in which the clients take their turns as scheduled, or `none` if a
client is to take a turn and waits for nothing.  A schedule of interest is computed
with it and turned into a run by `run_of_play`. -/
def play : List ι → Pool ι κ ρ α σ → Option (List (ι × κ × ρ) × Pool ι κ ρ α σ)
  | [], pool => some ([], pool)
  | i :: schedule, pool =>
      match serveFirst exec pool i with
      | none => none
      | some (label, next) =>
          (play schedule next).map fun (labels, final) => (label :: labels, final)

variable {exec}

/-- To serve the first request that waits is one of the steps. -/
theorem step_of_serveFirst {i : ι} {label : ι × κ × ρ} {next : Pool ι κ ρ α σ}
    (served : serveFirst exec pool i = some (label, next)) : Step exec pool label next := by
  rw [serveFirst] at served
  split at served
  · rename_i q rest nonempty replies continuation current
    obtain ⟨rfl, rfl⟩ := by simpa using served
    refine .mk ?_
    rw [current]
    exact .answer [] rest q _ replies continuation nonempty
  · simp at served

/-- What has been computed is a run. -/
theorem run_of_play {schedule : List ι} {labels : List (ι × κ × ρ)}
    (played : play exec schedule pool = some (labels, final)) : Run exec pool labels final := by
  induction schedule generalizing pool labels with
  | nil =>
      obtain ⟨rfl, rfl⟩ := by simpa [play] using played
      exact .nil pool
  | cons i schedule ih =>
      rw [play] at played
      split at played
      · simp at played
      · rename_i label next served
        obtain ⟨⟨labels', final'⟩, later, same⟩ := Option.map_eq_some_iff.mp played
        obtain ⟨rfl, rfl⟩ := Prod.ext_iff.mp same
        exact .cons (step_of_serveFirst served) (ih later)

/-- The clients have taken their turns as scheduled. -/
theorem turns_of_play {schedule : List ι} {labels : List (ι × κ × ρ)}
    (played : play exec schedule pool = some (labels, final)) :
    labels.map Prod.fst = schedule := by
  induction schedule generalizing pool labels with
  | nil =>
      obtain ⟨rfl, -⟩ := by simpa [play] using played
      rfl
  | cons i schedule ih =>
      rw [play] at played
      split at played
      · simp at played
      · rename_i label next served
        obtain ⟨⟨labels', final'⟩, later, same⟩ := Option.map_eq_some_iff.mp played
        obtain ⟨rfl, rfl⟩ := Prod.ext_iff.mp same
        have turn : label.1 = i := by
          rw [serveFirst] at served
          split at served
          · obtain ⟨rfl, -⟩ := by simpa using served
            rfl
          · simp at served
        rw [List.map_cons, turn, ih later]

end Play

end Pool

end Concurrency
