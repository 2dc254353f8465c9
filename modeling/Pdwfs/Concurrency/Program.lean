import Mathlib

/-!
# Fork-join programs over a shared store

A client of a shared store is a sequential program whose only effects are *requests*
to the store, and which may hand several requests at once to as many workers and
wait for all of them.  The store executes each request atomically; between two
requests of one client, requests of anybody else may be executed.

* `Program` — the syntax: a result, an abort, or a fork of requests together with
  the continuation that is entered when the last reply has arrived.
* `Program.Step` — one request of the program is answered, whichever of the waiting
  ones it is.
* `Program.Exec` — a whole run of a program that has the store for itself, for every
  order in which the workers may be served.
* `Program.run` — the run that serves the workers in the order they were started.
  It is the executable instance of `Exec` (`exec_run`).

## Why a fork and not a parallel composition

A parallel composition of two programs would be more general, but no worker here
does more than one request, and a fork of requests keeps every proof an induction on
one program.  It also says the two things that matter about workers: they are served
in any order, and what the program does next may depend on the order in which their
replies have arrived.

The store is abstract: `exec : κ → σ → σ × ρ` is the meaning of a request.  Replies
reach the continuation in the order in which they were received, so a program whose
result depends on that order has several runs.

## What the rules are for

`Exec` is a relation, and all reasoning about it goes through a handful of
equivalences, one for each way to build a program: `exec_ret_iff`, `exec_panic_iff`,
`exec_bind_iff`, `exec_forkAll_bind_iff` and `exec_request_bind_iff`.  A proof about
a program rewrites with the one for its first construct and goes on with the rest;
it never has to take a `Step` apart.  `exec_forkAll_map_bind_iff` is the form for
workers that are given the entries of a list: the order is one of the entries then,
which is what a statement about them wants.
-/

namespace Concurrency

universe u w z

/-- A program issuing requests in `κ`, receiving replies in `ρ` and returning a
value in `α`.  A `fork` always has a waiting worker: a join with nothing left to
wait for is not a state of a program (see `Program.resume`). -/
inductive Program (κ : Type u) (ρ α : Type w) : Type (max u w)
  | ret (value : α)
  /-- The program is aborted. -/
  | panic
  /-- The requests `waiting` are not answered yet, `replies` have arrived (in
  this order) and `next` is entered once `waiting` is exhausted. -/
  | fork (waiting : List κ) (nonempty : waiting ≠ []) (replies : List ρ)
      (next : List ρ → Program κ ρ α)

namespace Program

variable {κ : Type u} {ρ α β : Type w} {σ : Type z}

/-- Wait for `waiting`, or continue at once when there is nothing to wait for.  This
is how a fork is entered and how it goes on after an answer, so that a fork with no
worker left never occurs. -/
def resume (waiting : List κ) (replies : List ρ)
    (next : List ρ → Program κ ρ α) : Program κ ρ α :=
  match waiting with
  | [] => next replies
  | q :: rest => .fork (q :: rest) (by simp) replies next

@[simp] theorem resume_nil (replies : List ρ) (next : List ρ → Program κ ρ α) :
    resume [] replies next = next replies := rfl

theorem resume_of_ne_nil {waiting : List κ} (nonempty : waiting ≠ [])
    (replies : List ρ) (next : List ρ → Program κ ρ α) :
    resume waiting replies next = .fork waiting nonempty replies next := by
  cases waiting with
  | nil => exact absurd rfl nonempty
  | cons q rest => rfl

/-- Sequential composition; an abort of the first program is an abort. -/
protected def bind : Program κ ρ α → (α → Program κ ρ β) → Program κ ρ β
  | .ret value, f => f value
  | .panic, _ => .panic
  | .fork waiting nonempty replies next, f =>
      .fork waiting nonempty replies fun rs => (next rs).bind f

instance : Monad (Program κ ρ) where
  pure := .ret
  bind := Program.bind

@[simp] theorem pure_eq (value : α) : (pure value : Program κ ρ α) = .ret value := rfl

@[simp] theorem ret_bind (value : α) (f : α → Program κ ρ β) :
    (.ret value : Program κ ρ α) >>= f = f value := rfl

@[simp] theorem panic_bind (f : α → Program κ ρ β) :
    (.panic : Program κ ρ α) >>= f = .panic := rfl

/-- What follows a program is entered after its last fork. -/
theorem fork_bind (waiting : List κ) (nonempty : waiting ≠ []) (replies : List ρ)
    (next : List ρ → Program κ ρ α) (f : α → Program κ ρ β) :
    (.fork waiting nonempty replies next : Program κ ρ α) >>= f =
      .fork waiting nonempty replies fun rs => next rs >>= f := rfl

@[simp] theorem resume_bind (waiting : List κ) (replies : List ρ)
    (next : List ρ → Program κ ρ α) (f : α → Program κ ρ β) :
    resume waiting replies next >>= f =
      resume waiting replies fun rs => next rs >>= f := by
  cases waiting <;> rfl

/-- To return what has been returned is nothing. -/
@[simp] theorem bind_ret (program : Program κ ρ α) :
    program >>= (fun value => .ret value) = program := by
  induction program with
  | ret value => rfl
  | panic => rfl
  | fork waiting nonempty replies next ih =>
      rw [fork_bind]
      congr 1
      exact funext ih

/-- Sequential composition is associative, which lets a proof move to the first
request of a program. -/
theorem bind_assoc {γ : Type w} (program : Program κ ρ α) (f : α → Program κ ρ β)
    (g : β → Program κ ρ γ) :
    program >>= f >>= g = program >>= fun value => f value >>= g := by
  induction program with
  | ret value => rfl
  | panic => rfl
  | fork waiting nonempty replies next ih =>
      simp only [fork_bind]
      congr 1
      exact funext ih

/-- Issue the requests `tasks`, one worker each, and collect the replies in the
order of their arrival. -/
def forkAll (tasks : List κ) : Program κ ρ (List ρ) :=
  resume tasks [] .ret

/-- Issue one request and wait for its reply.  It is a fork with a single worker, so
that everything that is proved of forks is proved of it; the branch without a reply
is never entered. -/
def request (q : κ) : Program κ ρ ρ :=
  .fork [q] (by simp) [] fun replies =>
    match replies with
    | r :: _ => .ret r
    | [] => .panic

/-! ## Steps -/

/-- One waiting request `q` of the program is answered by `r`.  What `r` is does not
matter here: it is the store that relates a request to its reply, in `Exec` for a
program that has it for itself and in `Pool.Step` for several programs. -/
inductive Step : Program κ ρ α → κ → ρ → Program κ ρ α → Prop
  | answer (before after : List κ) (q : κ) (r : ρ) (replies : List ρ)
      (next : List ρ → Program κ ρ α) (nonempty : before ++ q :: after ≠ []) :
      Step (.fork (before ++ q :: after) nonempty replies next) q r
        (resume (before ++ after) (replies ++ [r]) next)

theorem not_step_ret {value : α} {q : κ} {r : ρ} {after : Program κ ρ α} :
    ¬ Step (.ret value) q r after := nofun

theorem not_step_panic {q : κ} {r : ρ} {after : Program κ ρ α} :
    ¬ Step (.panic : Program κ ρ α) q r after := nofun

/-- What a step of a fork can be: any waiting request may be the one answered. -/
theorem step_fork_inv {waiting : List κ} {nonempty : waiting ≠ []}
    {replies : List ρ} {next : List ρ → Program κ ρ α} {q : κ} {r : ρ}
    {program : Program κ ρ α}
    (step : Step (.fork waiting nonempty replies next) q r program) :
    ∃ before after, waiting = before ++ q :: after ∧
      program = resume (before ++ after) (replies ++ [r]) next := by
  generalize source : Program.fork waiting nonempty replies next = origin at step
  cases step with
  | answer before after q r replies' next' nonempty' =>
      injection source with sameWaiting sameReplies sameNext
      subst sameReplies sameNext
      exact ⟨before, after, sameWaiting, rfl⟩

/-- What a step of a possibly empty join can be. -/
theorem step_resume_inv {waiting : List κ} {replies : List ρ}
    {next : List ρ → Program κ ρ α} {q : κ} {r : ρ} {program : Program κ ρ α}
    (nonempty : waiting ≠ [])
    (step : Step (resume waiting replies next) q r program) :
    ∃ before after, waiting = before ++ q :: after ∧
      program = resume (before ++ after) (replies ++ [r]) next := by
  rw [resume_of_ne_nil nonempty] at step
  exact step_fork_inv step

/-- A step of a sequential composition whose first part is not finished is a step of
the first part.  With `ret_bind` this is all that the rules for sequential
composition rest on. -/
theorem step_bind_inv {program : Program κ ρ α} {f : α → Program κ ρ β} {q : κ} {r : ρ}
    {after : Program κ ρ β} (unfinished : ∀ value, program ≠ .ret value)
    (step : Step (program >>= f) q r after) :
    ∃ rest, Step program q r rest ∧ after = rest >>= f := by
  cases program with
  | ret value => exact absurd rfl (unfinished value)
  | panic => exact absurd step not_step_panic
  | fork waiting nonempty replies next =>
      rw [fork_bind] at step
      obtain ⟨before, rest, rfl, rfl⟩ := step_fork_inv step
      exact ⟨resume (before ++ rest) (replies ++ [r]) next,
        .answer before rest q r replies next nonempty, by simp⟩

/-! ## Runs that have the store for themselves -/

section Exec

variable (exec : κ → σ → σ × ρ)

/-- A run of the program from store `s` to store `s'`, with outcome `some value`
when it returns and `none` when it aborts.  Nobody else touches the store during the
run. -/
inductive Exec : Program κ ρ α → σ → σ → Option α → Prop
  | ret (value : α) (s : σ) : Exec (.ret value) s s (some value)
  | panic (s : σ) : Exec .panic s s none
  | step {program rest : Program κ ρ α} {q : κ} {s s' : σ} {outcome : Option α}
      (first : Step program q (exec q s).2 rest)
      (remaining : Exec rest (exec q s).1 s' outcome) :
      Exec program s s' outcome

/-- Execute requests one after the other, collecting the replies. -/
def runAll : List κ → σ → σ × List ρ
  | [], s => (s, [])
  | q :: rest, s =>
      let answered := exec q s
      let others := runAll rest answered.1
      (others.1, answered.2 :: others.2)

/-- The run that serves the workers of every fork in the order of the list.  It is a
function, so that a program can be tried on a store. -/
def run : Program κ ρ α → σ → σ × Option α
  | .ret value, s => (s, some value)
  | .panic, s => (s, none)
  | .fork waiting _ replies next, s =>
      let answered := runAll exec waiting s
      run (next (replies ++ answered.2)) answered.1

variable {exec}

@[simp] theorem runAll_nil (s : σ) : runAll exec ([] : List κ) s = (s, []) := rfl

@[simp] theorem runAll_cons (q : κ) (rest : List κ) (s : σ) :
    runAll exec (q :: rest) s =
      ((runAll exec rest (exec q s).1).1,
        (exec q s).2 :: (runAll exec rest (exec q s).1).2) := rfl

/-- A program that returns does nothing else. -/
@[simp] theorem exec_ret_iff {value : α} {s s' : σ} {outcome : Option α} :
    Exec exec (.ret value) s s' outcome ↔ s' = s ∧ outcome = some value := by
  constructor
  · intro h
    cases h with
    | ret => exact ⟨rfl, rfl⟩
    | step first => exact absurd first not_step_ret
  · rintro ⟨rfl, rfl⟩
    exact .ret value s'

/-- A program that panics leaves the store as it is. -/
@[simp] theorem exec_panic_iff {s s' : σ} {outcome : Option α} :
    Exec exec (.panic : Program κ ρ α) s s' outcome ↔ s' = s ∧ outcome = none := by
  constructor
  · intro h
    cases h with
    | panic => exact ⟨rfl, rfl⟩
    | step first => exact absurd first not_step_panic
  · rintro ⟨rfl, rfl⟩
    exact .panic s'

/-- **A fork is served in some order.**  Every run of a join answers the waiting
requests in the order of one of their permutations, and continues with the
replies in that order; and every permutation is the order of a run. -/
theorem exec_resume_iff {waiting : List κ} {replies : List ρ}
    {next : List ρ → Program κ ρ α} {s s' : σ} {outcome : Option α} :
    Exec exec (resume waiting replies next) s s' outcome ↔
      ∃ order, order.Perm waiting ∧
        Exec exec (next (replies ++ (runAll exec order s).2)) (runAll exec order s).1
          s' outcome := by
  -- Induction on the number of waiting requests: one step removes one of them.
  induction count : waiting.length generalizing waiting replies s with
  | zero =>
      have empty : waiting = [] := List.length_eq_zero_iff.mp count
      subst empty
      simp
  | succ n ih =>
      have nonempty : waiting ≠ [] := by
        rintro rfl
        simp at count
      constructor
      · intro h
        rw [resume_of_ne_nil nonempty] at h
        cases h with
        | step first remaining =>
            rename_i rest q
            obtain ⟨before, after, rfl, rfl⟩ := step_fork_inv first
            have fewer : (before ++ after).length = n := by
              simp only [List.length_append, List.length_cons] at count ⊢
              omega
            obtain ⟨order, perm, continued⟩ := (ih fewer).mp remaining
            refine ⟨q :: order, (perm.cons q).trans List.perm_middle.symm, ?_⟩
            simpa using continued
      · rintro ⟨order, perm, continued⟩
        cases order with
        | nil =>
            rw [List.nil_perm] at perm
            exact absurd perm nonempty
        | cons q order =>
            obtain ⟨before, after, rfl⟩ : ∃ before after, waiting = before ++ q :: after :=
              List.append_of_mem (perm.mem_iff.mp (by simp))
            have rest : order.Perm (before ++ after) :=
              (List.perm_cons q).mp (perm.trans List.perm_middle)
            have fewer : (before ++ after).length = n := by
              simp only [List.length_append, List.length_cons] at count ⊢
              omega
            rw [resume_of_ne_nil nonempty]
            refine .step (.answer before after q (exec q s).2 replies next nonempty) ?_
            refine (ih fewer).mpr ⟨order, rest, ?_⟩
            simpa using continued

/-- The in-order run is a run.  In particular every program has one from every
store. -/
theorem exec_run (exec : κ → σ → σ × ρ) (program : Program κ ρ α) (s : σ) :
    Exec exec program s (run exec program s).1 (run exec program s).2 := by
  induction program generalizing s with
  | ret value => exact .ret value s
  | panic => exact .panic s
  | fork waiting nonempty replies next ih =>
      rw [← resume_of_ne_nil nonempty, exec_resume_iff]
      refine ⟨waiting, .refl _, ?_⟩
      rw [resume_of_ne_nil nonempty]
      exact ih _ _

/-- A run of a sequential composition is a run of the first part followed by one
of the second, unless the first part aborts. -/
theorem exec_bind_iff {program : Program κ ρ α} {f : α → Program κ ρ β} {s s' : σ}
    {outcome : Option β} :
    Exec exec (program >>= f) s s' outcome ↔
      (∃ value middle, Exec exec program s middle (some value) ∧
        Exec exec (f value) middle s' outcome) ∨
      (Exec exec program s s' none ∧ outcome = none) := by
  induction program generalizing s with
  | ret value => simp
  | panic => simp
  | fork waiting nonempty replies next ih =>
      rw [fork_bind, ← resume_of_ne_nil nonempty, exec_resume_iff]
      simp only [ih, ← resume_of_ne_nil nonempty, exec_resume_iff]
      constructor
      · rintro ⟨order, perm, ⟨value, middle, first, second⟩ | ⟨aborted, rfl⟩⟩
        · exact .inl ⟨value, middle, ⟨order, perm, first⟩, second⟩
        · exact .inr ⟨⟨order, perm, aborted⟩, rfl⟩
      · rintro (⟨value, middle, ⟨order, perm, first⟩, second⟩ | ⟨⟨order, perm, aborted⟩, rfl⟩)
        · exact ⟨order, perm, .inl ⟨value, middle, first, second⟩⟩
        · exact ⟨order, perm, .inr ⟨aborted, rfl⟩⟩

/-- A sequential composition returns if and only if both of its parts do. -/
theorem exec_bind_some_iff {program : Program κ ρ α} {f : α → Program κ ρ β} {s s' : σ}
    {result : β} :
    Exec exec (program >>= f) s s' (some result) ↔ ∃ value middle,
      Exec exec program s middle (some value) ∧ Exec exec (f value) middle s' (some result) := by
  rw [exec_bind_iff]
  exact or_iff_left fun aborted => by simp at aborted

/-- An abort returns nothing. -/
theorem not_exec_panic_some {s s' : σ} {result : α} :
    ¬Exec exec (.panic : Program κ ρ α) s s' (some result) := by
  simp

/-- Behind a program that always returns the same and changes nothing: it can be
passed over. -/
theorem exec_bind_of_returns {program : Program κ ρ α} {f : α → Program κ ρ β} {s s' : σ}
    {outcome : Option β} {value : α}
    (returns : ∀ s' result, Exec exec program s s' result → s' = s ∧ result = some value)
    (performed : Exec exec (program >>= f) s s' outcome) : Exec exec (f value) s s' outcome := by
  rcases exec_bind_iff.mp performed with ⟨value', middle, first, last⟩ | ⟨aborted, -⟩
  · obtain ⟨rfl, same⟩ := returns _ _ first
    rwa [← Option.some.inj same]
  · have impossible := (returns _ _ aborted).2
    simp at impossible

/-- A program whose result is only wrapped. -/
theorem exec_bind_ret_iff {program : Program κ ρ α} {f : α → β} {s s' : σ}
    {outcome : Option β} :
    Exec exec (program >>= fun value => .ret (f value)) s s' outcome ↔
      ∃ result, Exec exec program s s' result ∧ outcome = result.map f := by
  rw [exec_bind_iff]
  constructor
  · rintro (⟨value, middle, first, last⟩ | ⟨aborted, rfl⟩)
    · obtain ⟨rfl, rfl⟩ := exec_ret_iff.mp last
      exact ⟨_, first, rfl⟩
    · exact ⟨_, aborted, rfl⟩
  · rintro ⟨_ | value, performed, rfl⟩
    · exact .inr ⟨performed, rfl⟩
    · exact .inl ⟨value, s', performed, .ret _ _⟩

/-- **A join of many workers**, and what follows it: the requests are executed in
some order, and what follows is given the replies in this order. -/
theorem exec_forkAll_bind_iff {tasks : List κ} {f : List ρ → Program κ ρ α} {s s' : σ}
    {outcome : Option α} :
    Exec exec (forkAll tasks >>= f) s s' outcome ↔
      ∃ order, order.Perm tasks ∧
        Exec exec (f (runAll exec order s).2) (runAll exec order s).1 s' outcome := by
  rw [forkAll, resume_bind, exec_resume_iff]
  simp

/-- An order of the requests of some jobs is the order of the requests of the jobs in some
order. -/
theorem exists_map_of_perm_map {J : Type w} {jobs : List J} {task : J → κ} {tasks : List κ}
    (perm : tasks.Perm (jobs.map task)) :
    ∃ order : List J, order.map task = tasks ∧ order.Perm jobs := by
  obtain ⟨order, rfl, perm'⟩ :=
    (iff_of_eq (congrFun₂ (List.eq_map_comp_perm task) tasks jobs)).mpr perm
  exact ⟨order, rfl, perm'⟩

/-- The same for the requests of a list of jobs: the order is one of the jobs. -/
theorem exec_forkAll_map_bind_iff {J : Type w} {jobs : List J} {task : J → κ}
    {f : List ρ → Program κ ρ α} {s s' : σ} {outcome : Option α} :
    Exec exec (forkAll (jobs.map task) >>= f) s s' outcome ↔
      ∃ order : List J, order.Perm jobs ∧
        Exec exec (f (runAll exec (order.map task) s).2) (runAll exec (order.map task) s).1
          s' outcome := by
  rw [exec_forkAll_bind_iff]
  constructor
  · rintro ⟨tasks, perm, rest⟩
    obtain ⟨order, rfl, perm'⟩ := exists_map_of_perm_map perm
    exact ⟨order, perm', rest⟩
  · rintro ⟨order, perm, rest⟩
    exact ⟨order.map task, perm.map task, rest⟩

/-- One request is executed on the current store. -/
@[simp] theorem exec_request_bind_iff {q : κ} {f : ρ → Program κ ρ α} {s s' : σ}
    {outcome : Option α} :
    Exec exec (request q >>= f) s s' outcome ↔
      Exec exec (f (exec q s).2) (exec q s).1 s' outcome := by
  rw [request, fork_bind, ← resume_of_ne_nil, exec_resume_iff]
  simp [List.perm_singleton]

/-- Requests that leave the store as it is are answered from one and the same
store, whatever their order. -/
theorem runAll_of_readOnly {tasks : List κ} {s : σ}
    (readOnly : ∀ q ∈ tasks, (exec q s).1 = s) :
    runAll exec tasks s = (s, tasks.map fun q => (exec q s).2) := by
  induction tasks with
  | nil => rfl
  | cons q rest ih =>
      rw [runAll_cons, readOnly q (by simp), ih fun q' member => readOnly q' (by simp [member])]
      rfl

/-- What requests preserve, their sequence preserves, and what holds of each
reply holds of all of them. -/
theorem runAll_preserves (invariant : σ → Prop) (good : ρ → Prop) {tasks : List κ} {s : σ}
    (each : ∀ q ∈ tasks, ∀ s, invariant s → invariant (exec q s).1 ∧ good (exec q s).2)
    (start : invariant s) :
    invariant (runAll exec tasks s).1 ∧ ∀ r ∈ (runAll exec tasks s).2, good r := by
  induction tasks generalizing s with
  | nil => exact ⟨start, by simp⟩
  | cons q rest ih =>
      obtain ⟨kept, goodReply⟩ := each q (by simp) s start
      obtain ⟨finally', goodRest⟩ := ih (fun q' member => each q' (by simp [member])) kept
      refine ⟨finally', ?_⟩
      intro r member
      rw [runAll_cons, List.mem_cons] at member
      rcases member with rfl | member
      · exact goodReply
      · exact goodRest r member

end Exec

end Program

end Concurrency
