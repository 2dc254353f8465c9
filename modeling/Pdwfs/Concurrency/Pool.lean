import Pdwfs.Concurrency.Program

/-!
# Interleaved programs

A `Pool` is a store together with the program every client is executing.  A step of
the pool answers one waiting request of one client, so a `Pool.Run` is an
interleaving of the runs of its clients at the granularity of single requests.

Two ways of reasoning about it are provided.

* **By invariant.**  `Program.Safe` says that a program keeps an invariant of the
  store at each of its requests whatever the others do in between, provided that
  they keep it as well.  `Session.invariant` is the conclusion for clients which
  start one safe program after the other, in any number and at any time.
* **By trace.**  `Pool.Run.trace` and `Pool.Run.replay` take a run apart: each
  client has performed a run of its own program (`Program.Trace`), and the replies
  are those of the store to the interleaved requests.  `Pool.exists_run` says that
  there are finished runs.

## Three properties of a program

`Issues`, `Yields` and `Safe` are defined by recursion on the program, and none of
them mentions a run.  They differ in what they assume of the replies.

* `Issues allowed` assumes nothing: whatever the replies, every request is one of
  `allowed`.
* `Yields good` assumes nothing either, and is about the value that is returned.
* `Safe` assumes of the replies to a fork what the invariant guarantees of them.
  This is needed where the next request depends on a reply: what is read is well
  formed because the store was when it was read, and not because it still is.

Each of them has a rule for each construct, and a rule for sequential composition in
which the second part only has to be looked at for the values that the first may
return.  So a property of a program is proved along its text, once for each function
and not once for each interleaving.
-/

namespace Concurrency

universe u w x z

variable {κ : Type u} {ρ α β : Type w} {σ : Type z} {ι : Type x}

namespace Program

/-! ## Traces of one program -/

/-- The program performs the requests of the trace, in this order and with these
replies. -/
inductive Trace : Program κ ρ α → List (κ × ρ) → Program κ ρ α → Prop
  | nil (program : Program κ ρ α) : Trace program [] program
  | cons {program middle final : Program κ ρ α} {q : κ} {r : ρ} {rest : List (κ × ρ)}
      (first : Step program q r middle) (others : Trace middle rest final) :
      Trace program ((q, r) :: rest) final

/-- A program that has returned performs nothing. -/
theorem Trace.of_ret {value : α} {trace : List (κ × ρ)} {final : Program κ ρ α}
    (performed : Trace (.ret value) trace final) : trace = [] ∧ final = .ret value := by
  cases performed with
  | nil => exact ⟨rfl, rfl⟩
  | cons first => exact absurd first not_step_ret

/-- Nor does one that is aborted. -/
theorem Trace.of_panic {trace : List (κ × ρ)} {final : Program κ ρ α}
    (performed : Trace .panic trace final) : trace = [] ∧ final = .panic := by
  cases performed with
  | nil => exact ⟨rfl, rfl⟩
  | cons first => exact absurd first not_step_panic

/-- No request of the program is waiting: it has returned, or it is aborted.  It is
stated by the absence of steps so that it is the same notion for a program and for a
pool. -/
def Stopped (program : Program κ ρ α) : Prop :=
  ∀ q r after, ¬Step program q r after

theorem stopped_ret (value : α) : Stopped (.ret value : Program κ ρ α) :=
  fun _ _ _ => not_step_ret

theorem stopped_panic : Stopped (.panic : Program κ ρ α) := fun _ _ _ => not_step_panic

/-- A program that waits for a worker has not stopped, as long as there are replies
at all. -/
theorem not_stopped_resume [Nonempty ρ] {waiting : List κ} (nonempty : waiting ≠ [])
    (replies : List ρ) (next : List ρ → Program κ ρ α) :
    ¬Stopped (resume waiting replies next) := by
  intro stopped
  obtain ⟨q, rest, rfl⟩ := List.exists_cons_of_ne_nil nonempty
  obtain ⟨r⟩ := ‹Nonempty ρ›
  exact stopped q r _ (.answer [] rest q r replies next nonempty)

/-- **The trace of a join.**  A join that has been completed has performed its
waiting requests in some order, and then what its continuation performs. -/
theorem Trace.of_resume [Nonempty ρ] {waiting : List κ} {replies : List ρ}
    {next : List ρ → Program κ ρ α} {trace : List (κ × ρ)} {final : Program κ ρ α}
    (stopped : Stopped final) (performed : Trace (resume waiting replies next) trace final) :
    ∃ first rest, trace = first ++ rest ∧ (first.map Prod.fst).Perm waiting ∧
      Trace (next (replies ++ first.map Prod.snd)) rest final := by
  induction count : waiting.length generalizing waiting replies trace with
  | zero =>
      have empty : waiting = [] := List.length_eq_zero_iff.mp count
      subst empty
      exact ⟨[], trace, by simpa using performed⟩
  | succ n ih =>
      have nonempty : waiting ≠ [] := by
        rintro rfl
        simp at count
      cases performed with
      | nil => exact absurd stopped (not_stopped_resume nonempty replies next)
      | cons step others =>
          rename_i middle q r tail
          obtain ⟨before, after, rfl, rfl⟩ := step_resume_inv nonempty step
          have fewer : (before ++ after).length = n := by
            simp only [List.length_append, List.length_cons] at count ⊢
            omega
          obtain ⟨first, rest, rfl, perm, continued⟩ := ih others fewer
          refine ⟨(q, r) :: first, rest, rfl, ?_, by simpa using continued⟩
          exact (perm.cons q).trans List.perm_middle.symm

/-- The trace of one request is that request. -/
theorem Trace.of_request_bind [Nonempty ρ] {q : κ} {f : ρ → Program κ ρ α}
    {trace : List (κ × ρ)} {final : Program κ ρ α} (stopped : Stopped final)
    (performed : Trace (request q >>= f) trace final) :
    ∃ r rest, trace = (q, r) :: rest ∧ Trace (f r) rest final := by
  rw [request, fork_bind, ← resume_of_ne_nil] at performed
  obtain ⟨first, rest, rfl, perm, continued⟩ := performed.of_resume stopped
  obtain ⟨⟨q', r⟩, rfl, rfl⟩ := List.map_eq_singleton_iff.mp (List.perm_singleton.mp perm)
  exact ⟨r, rest, rfl, continued⟩

/-! ## Programs that issue requests of one kind -/

/-- Every request that the program may issue is one of `allowed`, whatever the
replies.  The replies are not restricted, so what is allowed must not depend on what
is stored. -/
def Issues (allowed : κ → Prop) : Program κ ρ α → Prop
  | .ret _ => True
  | .panic => True
  | .fork waiting _ _ next => (∀ q ∈ waiting, allowed q) ∧ ∀ rs, Issues allowed (next rs)

section Issues

variable {allowed : κ → Prop}

@[simp] theorem issues_ret (value : α) : Issues allowed (.ret value : Program κ ρ α) := trivial

@[simp] theorem issues_panic : Issues allowed (.panic : Program κ ρ α) := trivial

theorem issues_resume {waiting : List κ} {replies : List ρ} {next : List ρ → Program κ ρ α}
    (each : ∀ q ∈ waiting, allowed q) (continued : ∀ rs, Issues allowed (next rs)) :
    Issues allowed (resume waiting replies next) := by
  cases waiting with
  | nil => exact continued replies
  | cons q rest => exact ⟨each, continued⟩

theorem issues_forkAll {tasks : List κ} (each : ∀ q ∈ tasks, allowed q) :
    Issues allowed (forkAll tasks : Program κ ρ (List ρ)) :=
  issues_resume each fun _ => trivial

theorem issues_request {q : κ} (here : allowed q) :
    Issues allowed (request q : Program κ ρ ρ) := by
  refine ⟨by simpa using here, fun rs => ?_⟩
  cases rs <;> trivial

/-- Both parts of a composition issue allowed requests. -/
theorem Issues.bind {program : Program κ ρ α} {f : α → Program κ ρ β}
    (first : Issues allowed program) (second : ∀ value, Issues allowed (f value)) :
    Issues allowed (program >>= f) := by
  induction program with
  | ret value => exact second value
  | panic => trivial
  | fork waiting nonempty replies next ih => exact ⟨first.1, fun rs => ih rs (first.2 rs)⟩

/-- A larger set of requests may be allowed. -/
theorem Issues.mono {allowed' : κ → Prop} {program : Program κ ρ α}
    (issues : Issues allowed program) (weaker : ∀ q, allowed q → allowed' q) :
    Issues allowed' program := by
  induction program with
  | ret value => trivial
  | panic => trivial
  | fork waiting nonempty replies next ih =>
      exact ⟨fun q member => weaker q (issues.1 q member), fun rs => ih rs (issues.2 rs)⟩

/-- What is left of a program issues allowed requests as well. -/
theorem Issues.step {program after : Program κ ρ α} {q : κ} {r : ρ}
    (issues : Issues allowed program) (step : Step program q r after) :
    allowed q ∧ Issues allowed after := by
  cases step with
  | answer before after q r replies next nonempty =>
      refine ⟨issues.1 q (by simp), issues_resume (fun q' member => ?_) issues.2⟩
      exact issues.1 q' (by simp at member ⊢; tauto)

/-- Every request of a trace is one that the program may issue, and so are those that are
left after it. -/
theorem Issues.trace {program final : Program κ ρ α} {trace : List (κ × ρ)}
    (issues : Issues allowed program) (performed : Trace program trace final) :
    (∀ answered ∈ trace, allowed answered.1) ∧ Issues allowed final := by
  induction performed with
  | nil program => exact ⟨by simp, issues⟩
  | cons first others ih =>
      obtain ⟨here, rest⟩ := issues.step first
      simpa [here] using ih rest

/-- Every value that the program may return is `good`, whatever the replies. -/
def Yields (good : α → Prop) : Program κ ρ α → Prop
  | .ret value => good value
  | .panic => True
  | .fork _ _ _ next => ∀ rs, Yields good (next rs)

theorem yields_of_forall {good : α → Prop} (program : Program κ ρ α) (all : ∀ value, good value) :
    Yields good program := by
  induction program with
  | ret value => exact all value
  | panic => trivial
  | fork waiting nonempty replies next ih => exact fun rs => ih rs

theorem yields_true (program : Program κ ρ α) : Yields (fun _ => True) program :=
  yields_of_forall program fun _ => trivial

/-- What the second part yields, of what the first part has yielded. -/
theorem Yields.bind {good : α → Prop} {goodResult : β → Prop} {program : Program κ ρ α}
    {f : α → Program κ ρ β} (first : Yields good program)
    (second : ∀ value, good value → Yields goodResult (f value)) :
    Yields goodResult (program >>= f) := by
  induction program with
  | ret value => exact second value first
  | panic => trivial
  | fork waiting nonempty replies next ih => exact fun rs => ih rs (first rs)

/-- Two facts about what is returned are one. -/
theorem Yields.and {good good' : α → Prop} {program : Program κ ρ α}
    (first : Yields good program) (second : Yields good' program) :
    Yields (fun value => good value ∧ good' value) program := by
  induction program with
  | ret value => exact ⟨first, second⟩
  | panic => trivial
  | fork waiting nonempty replies next ih => exact fun rs => ih rs (first rs) (second rs)

/-- What a run returns is a value that the program may return. -/
theorem Yields.of_exec {good : α → Prop} {exec : κ → σ → σ × ρ} {program : Program κ ρ α}
    {s s' : σ} {outcome : Option α} (yields : Yields good program)
    (performed : Exec exec program s s' outcome) : ∀ value ∈ outcome, good value := by
  induction performed with
  | ret value s =>
      rintro _ ⟨⟩
      exact yields
  | panic s => simp
  | step first remaining ih =>
      apply ih
      cases first with
      | answer before after q replies next nonempty =>
          cases before ++ after with
          | nil => exact yields _
          | cons q' rest => exact yields

/-- The second part only has to be looked at for the values that the first may return. -/
theorem Issues.bind_yields {good : α → Prop} {program : Program κ ρ α} {f : α → Program κ ρ β}
    (first : Issues allowed program) (yields : Yields good program)
    (second : ∀ value, good value → Issues allowed (f value)) :
    Issues allowed (program >>= f) := by
  induction program with
  | ret value => exact second value yields
  | panic => trivial
  | fork waiting nonempty replies next ih =>
      exact ⟨first.1, fun rs => ih rs (first.2 rs) (yields rs)⟩

/-- What all requests of a program preserve, its runs preserve, aborted or not. -/
theorem Issues.preserved {exec : κ → σ → σ × ρ} {invariant : σ → Prop}
    {program : Program κ ρ α} {s s' : σ} {outcome : Option α}
    (issues : Issues (fun q => ∀ s, invariant s → invariant (exec q s).1) program)
    (holds : invariant s) (performed : Exec exec program s s' outcome) : invariant s' := by
  induction performed with
  | ret value s => exact holds
  | panic s => exact holds
  | step first remaining ih =>
      obtain ⟨keeps, rest⟩ := issues.step first
      exact ih rest (keeps _ holds)

/-- The runs of a program do not depend on how requests are answered that it never issues. -/
theorem Issues.exec_congr {exec exec' : κ → σ → σ × ρ} {program : Program κ ρ α} {s s' : σ}
    {outcome : Option α} (issues : Issues (fun q => ∀ s, exec q s = exec' q s) program)
    (performed : Exec exec program s s' outcome) : Exec exec' program s s' outcome := by
  induction performed with
  | ret value s => exact .ret value s
  | panic s => exact .panic s
  | step first remaining ih =>
      obtain ⟨same, rest⟩ := issues.step first
      have later := ih rest
      rw [same] at first later
      exact .step first later

end Issues

/-! ## Safe programs -/

section Safe

variable (exec : κ → σ → σ × ρ) (invariant : σ → Prop) (abort : Prop)

/-- Every request of the program keeps the invariant from every store that has it,
so whatever is executed between two requests; the program returns only values with
the property `good`, and it aborts only if `abort` holds.

About the replies to the requests of one fork the continuation may use any property
`reply` that the invariant guarantees.  It is chosen fork by fork, so that a
continuation can be given what the requests of its own fork say of the store, and
nothing about the requests before it has to be remembered. -/
def Safe (good : α → Prop) : Program κ ρ α → Prop
  | .ret value => good value
  | .panic => abort
  | .fork waiting _ replies next =>
      ∃ reply : ρ → Prop,
        (∀ q ∈ waiting, ∀ s, invariant s → invariant (exec q s).1 ∧ reply (exec q s).2) ∧
        ∀ rs : List ρ, rs.length = waiting.length → (∀ r ∈ rs, reply r) →
          Safe good (next (replies ++ rs))

variable {exec invariant abort} {good : α → Prop}

@[simp] theorem safe_ret_iff {value : α} :
    Safe exec invariant abort good (.ret value) ↔ good value := Iff.rfl

@[simp] theorem safe_panic_iff :
    Safe exec invariant abort good (.panic : Program κ ρ α) ↔ abort := Iff.rfl

/-- Goroutines that are served in any order, and the rest of the program.  The
induction is on those that wait. -/
theorem safe_resume {waiting : List κ} {replies : List ρ} {next : List ρ → Program κ ρ α}
    (reply : ρ → Prop)
    (each : ∀ q ∈ waiting, ∀ s, invariant s → invariant (exec q s).1 ∧ reply (exec q s).2)
    (continued : ∀ rs : List ρ, rs.length = waiting.length → (∀ r ∈ rs, reply r) →
      Safe exec invariant abort good (next (replies ++ rs))) :
    Safe exec invariant abort good (resume waiting replies next) := by
  cases waiting with
  | nil => simpa using continued [] rfl (by simp)
  | cons q rest => exact ⟨reply, each, continued⟩

/-- A safe program stays safe when one of its requests is answered by a store that has
the invariant. -/
theorem Safe.step {program after : Program κ ρ α} {q : κ} {s : σ}
    (safe : Safe exec invariant abort good program)
    (step : Step program q (exec q s).2 after) (holds : invariant s) :
    invariant (exec q s).1 ∧ Safe exec invariant abort good after := by
  generalize same : (exec q s).2 = r at step
  cases step with
  | answer before after q r replies next nonempty =>
      obtain ⟨reply, each, continued⟩ := safe
      obtain ⟨kept, goodReply⟩ := each q (by simp) s holds
      refine ⟨kept, safe_resume reply ?_ ?_⟩
      · intro q' member
        exact each q' (by simp at member ⊢; tauto)
      · intro rs count replied
        have all := continued (r :: rs)
          (by simp only [List.length_cons, List.length_append] at count ⊢; omega)
          (by simpa [← same] using ⟨goodReply, replied⟩)
        simpa using all

/-- A safe program stays safe along a trace whose requests are answered by stores that
have the invariant, each by one of its own. -/
theorem Safe.trace {program final : Program κ ρ α} {trace : List (κ × ρ)}
    (safe : Safe exec invariant abort good program) (performed : Trace program trace final)
    (answered : ∀ entry ∈ trace, ∃ s, invariant s ∧ (exec entry.1 s).2 = entry.2) :
    Safe exec invariant abort good final := by
  induction performed with
  | nil program => exact safe
  | cons first others ih =>
      obtain ⟨s, holds, replied⟩ := answered _ (List.mem_cons_self ..)
      simp only at replied
      subst replied
      exact ih (safe.step first holds).2 fun entry member => answered entry (by simp [member])

/-- Sequential composition: what follows is safe for the good values of the first
part. -/
theorem Safe.bind {program : Program κ ρ α} {f : α → Program κ ρ β} {goodResult : β → Prop}
    (first : Safe exec invariant abort good program)
    (second : ∀ value, good value → Safe exec invariant abort goodResult (f value)) :
    Safe exec invariant abort goodResult (program >>= f) := by
  induction program with
  | ret value => exact second value first
  | panic => exact first
  | fork waiting nonempty replies next ih =>
      obtain ⟨reply, each, continued⟩ := first
      exact ⟨reply, each, fun rs count replied => ih _ (continued rs count replied)⟩

/-- A weaker property of the result. -/
theorem Safe.mono {abort' : Prop} {good' : α → Prop} {program : Program κ ρ α}
    (safe : Safe exec invariant abort good program) (weakerAbort : abort → abort')
    (weaker : ∀ value, good value → good' value) :
    Safe exec invariant abort' good' program := by
  induction program with
  | ret value => exact weaker value safe
  | panic => exact weakerAbort safe
  | fork waiting nonempty replies next ih =>
      obtain ⟨reply, each, continued⟩ := safe
      exact ⟨reply, each, fun rs count replied => ih _ (continued rs count replied)⟩

/-- A program whose requests keep the invariant is safe, but it may abort. -/
theorem Issues.safe {program : Program κ ρ α}
    (issues : Issues (fun q => ∀ s, invariant s → invariant (exec q s).1) program) :
    Safe exec invariant True (fun _ => True) program := by
  induction program with
  | ret value => trivial
  | panic => trivial
  | fork waiting nonempty replies next ih =>
      exact ⟨fun _ => True, fun q member s holds => ⟨issues.1 q member s holds, trivial⟩,
        fun rs _ _ => ih _ (issues.2 _)⟩

/-- What a program may return anyway is good as well. -/
theorem Safe.yields {good' : α → Prop} {program : Program κ ρ α}
    (safe : Safe exec invariant abort good program) (yields : Yields good' program) :
    Safe exec invariant abort (fun value => good value ∧ good' value) program := by
  induction program with
  | ret value => exact ⟨safe, yields⟩
  | panic => exact safe
  | fork waiting nonempty replies next ih =>
      obtain ⟨reply, each, continued⟩ := safe
      exact ⟨reply, each, fun rs count replied => ih _ (continued rs count replied) (yields _)⟩

/-- A second invariant that every request of the program keeps. -/
theorem Safe.and {other : σ → Prop} {program : Program κ ρ α}
    (safe : Safe exec invariant abort good program)
    (issues : Issues (fun q => ∀ s, other s → other (exec q s).1) program) :
    Safe exec (fun s => invariant s ∧ other s) abort good program := by
  induction program with
  | ret value => exact safe
  | panic => exact safe
  | fork waiting nonempty replies next ih =>
      obtain ⟨reply, each, continued⟩ := safe
      refine ⟨reply, fun q member s holds => ?_,
        fun rs count replied => ih _ (continued rs count replied) (issues.2 _)⟩
      obtain ⟨kept, replied⟩ := each q member s holds.1
      exact ⟨⟨kept, issues.1 q member s holds.2⟩, replied⟩

theorem safe_forkAll {tasks : List κ} (reply : ρ → Prop)
    (each : ∀ q ∈ tasks, ∀ s, invariant s → invariant (exec q s).1 ∧ reply (exec q s).2) :
    Safe exec invariant abort (fun rs => rs.length = tasks.length ∧ ∀ r ∈ rs, reply r)
      (forkAll tasks) :=
  safe_resume reply each fun rs count replied => by simpa using ⟨count, replied⟩

theorem safe_request {q : κ} (reply : ρ → Prop)
    (keeps : ∀ s, invariant s → invariant (exec q s).1 ∧ reply (exec q s).2) :
    Safe exec invariant abort reply (request q) := by
  refine ⟨reply, by simpa using keeps, fun rs count replied => ?_⟩
  obtain ⟨r, rfl⟩ := List.length_eq_one_iff.mp count
  simpa using replied

/-- A safe program that has the store for itself keeps the invariant. -/
theorem Safe.preserved {program : Program κ ρ α} {s s' : σ} {outcome : Option α}
    (safe : Safe exec invariant abort good program) (holds : invariant s)
    (performed : Exec exec program s s' outcome) :
    invariant s' ∧ (∀ value ∈ outcome, good value) ∧ (outcome = none → abort) := by
  induction performed with
  | ret value s => exact ⟨holds, by simpa using safe, by simp⟩
  | panic s => exact ⟨holds, by simp, fun _ => safe⟩
  | step first remaining ih =>
      obtain ⟨kept, safeRest⟩ := safe.step first holds
      exact ih safeRest kept

end Safe

end Program

/-! ## Pools -/

/-- A store and what every client is executing on it.  The clients are indexed by a
type, which is infinite where any number of them is meant. -/
structure Pool (ι : Type x) (κ : Type u) (ρ α : Type w) (σ : Type z) where
  store : σ
  threads : ι → Program κ ρ α

namespace Pool

variable [DecidableEq ι]

/-- Client `i` is executing nothing. -/
def Idle (pool : Pool ι κ ρ α σ) (i : ι) : Prop :=
  ∃ value, pool.threads i = .ret value

/-- One waiting request of one client is executed: the label is the client, the
request and its reply.  The reply is determined by the store, but which client is
served, and which of its workers, is not. -/
inductive Step (exec : κ → σ → σ × ρ) : Pool ι κ ρ α σ → ι × κ × ρ → Pool ι κ ρ α σ → Prop
  | mk {pool : Pool ι κ ρ α σ} {i : ι} {q : κ} {after : Program κ ρ α}
      (answered : Program.Step (pool.threads i) q (exec q pool.store).2 after) :
      Step exec pool (i, q, (exec q pool.store).2)
        ⟨(exec q pool.store).1, Function.update pool.threads i after⟩

/-- An interleaved run, with the requests that have been executed in the order of
their execution. -/
inductive Run (exec : κ → σ → σ × ρ) :
    Pool ι κ ρ α σ → List (ι × κ × ρ) → Pool ι κ ρ α σ → Prop
  | nil (pool : Pool ι κ ρ α σ) : Run exec pool [] pool
  | cons {pool middle final : Pool ι κ ρ α σ} {label : ι × κ × ρ}
      {rest : List (ι × κ × ρ)} (first : Step exec pool label middle)
      (others : Run exec middle rest final) : Run exec pool (label :: rest) final

/-- The store answers the requests of a trace, executed in this order from `s`,
with the replies of the trace, and is `s'` afterwards. -/
def Replay (exec : κ → σ → σ × ρ) : σ → List (κ × ρ) → σ → Prop
  | s, [], s' => s' = s
  | s, (q, r) :: rest, s' => (exec q s).2 = r ∧ Replay exec (exec q s).1 rest s'

variable {exec : κ → σ → σ × ρ}

@[simp] theorem replay_nil {s s' : σ} : Replay exec s [] s' ↔ s' = s := Iff.rfl

@[simp] theorem replay_cons {s s' : σ} {q : κ} {r : ρ} {rest : List (κ × ρ)} :
    Replay exec s ((q, r) :: rest) s' ↔
      (exec q s).2 = r ∧ Replay exec (exec q s).1 rest s' := Iff.rfl

/-- The store after a run is the one reached by its requests. -/
theorem Replay.store_eq {s s' : σ} {trace : List (κ × ρ)} (replayed : Replay exec s trace s') :
    s' = (Program.runAll exec (trace.map Prod.fst) s).1 := by
  induction trace generalizing s with
  | nil => exact replayed
  | cons head tail ih => exact ih replayed.2

/-- A run seen from the store: its requests have been executed one after the other.
-/
theorem Run.replay {pool final : Pool ι κ ρ α σ} {labels : List (ι × κ × ρ)}
    (run : Run exec pool labels final) :
    Replay exec pool.store (labels.map Prod.snd) final.store := by
  induction run with
  | nil pool => rfl
  | cons first others ih =>
      cases first with
      | mk answered => exact ⟨rfl, ih⟩

/-- What client `i` has performed in a run is a trace of its own program.  The
others show in the replies only. -/
theorem Run.trace {pool final : Pool ι κ ρ α σ} {labels : List (ι × κ × ρ)}
    (run : Run exec pool labels final) (i : ι) :
    Program.Trace (pool.threads i) ((labels.filter fun label => label.1 = i).map Prod.snd)
      (final.threads i) := by
  induction run with
  | nil pool => exact .nil _
  | cons first others ih =>
      cases first with
      | mk answered =>
          rename_i j q after
          by_cases same : j = i
          · subst same
            simp only [Function.update_self] at ih
            simpa using Program.Trace.cons answered ih
          · simp only [Function.update_of_ne (Ne.symm same)] at ih
            simpa [same] using ih

/-- When every client only issues requests that keep the invariant, each request of a run
is answered by a store that has it. -/
theorem Run.answered {invariant : σ → Prop} {pool final : Pool ι κ ρ α σ}
    {labels : List (ι × κ × ρ)} (run : Run exec pool labels final)
    (issues : ∀ i, Program.Issues (fun q => ∀ s, invariant s → invariant (exec q s).1)
      (pool.threads i)) (holds : invariant pool.store) :
    invariant final.store ∧
      ∀ label ∈ labels, ∃ s, invariant s ∧ (exec label.2.1 s).2 = label.2.2 := by
  induction run with
  | nil pool => exact ⟨holds, by simp⟩
  | cons first others ih =>
      cases first with
      | mk answered =>
          rename_i i q after
          obtain ⟨keeps, issues'⟩ := (issues i).step answered
          obtain ⟨kept, replied⟩ := ih
            (fun j => by
              by_cases same : j = i
              · subst same
                simpa using issues'
              · simpa [Function.update_of_ne same] using issues j)
            (keeps _ holds)
          refine ⟨kept, fun label member => ?_⟩
          rcases List.mem_cons.mp member with rfl | later
          · exact ⟨_, holds, rfl⟩
          · exact replied label later

/-- Two runs one after the other. -/
theorem Run.trans {pool middle final : Pool ι κ ρ α σ} {first rest : List (ι × κ × ρ)}
    (run : Run exec pool first middle) (run' : Run exec middle rest final) :
    Run exec pool (first ++ rest) final := by
  induction run with
  | nil pool => exact run'
  | cons step others ih => exact .cons step (ih run')

/-- A client that has the store for itself can go on until it stops. -/
theorem exists_run_of_exec {i : ι} {s : σ} {outcome : Option α} {pool : Pool ι κ ρ α σ}
    (performed : Program.Exec exec (pool.threads i) pool.store s outcome) :
    ∃ labels after, Run exec pool labels ⟨s, Function.update pool.threads i after⟩ ∧
      after.Stopped ∧ ∀ value ∈ outcome, after = .ret value := by
  generalize current : pool.threads i = program at performed
  generalize content : pool.store = store at performed
  induction performed generalizing pool with
  | ret value s =>
      subst content
      refine ⟨[], _, ?_, Program.stopped_ret value, by simp⟩
      rw [← current, Function.update_eq_self]
      exact .nil pool
  | panic s =>
      subst content
      refine ⟨[], _, ?_, Program.stopped_panic, by simp⟩
      rw [← current, Function.update_eq_self]
      exact .nil pool
  | step first remaining ih =>
      rename_i program' rest q s0 s1 outcome'
      subst current content
      obtain ⟨labels, after, run, stopped⟩ := @ih
        ⟨(exec q pool.store).1, Function.update pool.threads i rest⟩ (by simp) rfl
      rw [Function.update_idem] at run
      exact ⟨_, after, .cons (.mk first) run, stopped⟩

/-- **Every pool of finitely many clients has a finished run.**  So a statement
about all finished runs is never an empty one. -/
theorem exists_run [Finite ι] (exec : κ → σ → σ × ρ) (pool : Pool ι κ ρ α σ) :
    ∃ labels final, Run exec pool labels final ∧ ∀ i, (final.threads i).Stopped := by
  -- One client after the other, in the order of a list of all of them.
  have each : ∀ clients : List ι, ∃ labels final, Run exec pool labels final ∧
      ∀ i ∈ clients, (final.threads i).Stopped := by
    intro clients
    induction clients with
    | nil => exact ⟨[], pool, .nil pool, by simp⟩
    | cons i rest ih =>
        obtain ⟨first, middle, run, stopped⟩ := ih
        obtain ⟨labels, after, run', stopped', -⟩ :=
          exists_run_of_exec (i := i) (Program.exec_run exec (middle.threads i) middle.store)
        refine ⟨first ++ labels, _, run.trans run', fun j member => ?_⟩
        by_cases same : j = i
        · subst same
          simpa using stopped'
        · have later : j ∈ rest := (List.mem_cons.mp member).resolve_left same
          simpa [Function.update_of_ne same] using stopped j later
  cases nonempty_fintype ι
  obtain ⟨labels, final, run, stopped⟩ := each Finset.univ.toList
  exact ⟨labels, final, run, fun i => stopped i (by simp)⟩

end Pool

/-! ## Sessions -/

/-- The configurations reached from the store `start` by clients that, each as soon
as it is idle, start some program in `calls`, with the requests of all of them
interleaved in any order.

There is no bound on the number of programs, and a configuration is reached in the
middle of programs as well as between them. -/
inductive Session [DecidableEq ι] (exec : κ → σ → σ × ρ) (calls : Program κ ρ α → Prop)
    (start : σ) : Pool ι κ ρ α σ → Prop
  | init (threads : ι → Program κ ρ α) (idle : ∀ i, Pool.Idle ⟨start, threads⟩ i) :
      Session exec calls start ⟨start, threads⟩
  | call {pool : Pool ι κ ρ α σ} {i : ι} {program : Program κ ρ α}
      (reached : Session exec calls start pool) (idle : pool.Idle i)
      (allowed : calls program) :
      Session exec calls start ⟨pool.store, Function.update pool.threads i program⟩
  | step {pool after : Pool ι κ ρ α σ} {label : ι × κ × ρ}
      (reached : Session exec calls start pool) (step : Pool.Step exec pool label after) :
      Session exec calls start after

namespace Session

variable [DecidableEq ι] {exec : κ → σ → σ × ρ} {calls : Program κ ρ α → Prop}
  {start : σ} {pool : Pool ι κ ρ α σ}

/-- **The invariant rule.**  When every program the clients may start is safe, the
store has the invariant in every configuration that is reached, finished or not.

What is carried along the session is more than the invariant: what is left of each
client's program is safe as well, which is what the next step needs. -/
theorem invariant {invariant : σ → Prop} (holds : invariant start)
    (safe : ∀ program, calls program →
      Program.Safe exec invariant True (fun _ => True) program)
    (reached : Session exec calls start pool) :
    invariant pool.store ∧
      ∀ i, Program.Safe exec invariant True (fun _ => True) (pool.threads i) := by
  induction reached with
  | init threads idle =>
      refine ⟨holds, fun i => ?_⟩
      obtain ⟨value, returned⟩ := idle i
      change threads i = .ret value at returned
      show Program.Safe exec _ _ _ (threads i)
      rw [returned]
      trivial
  | call reached idle allowed ih =>
      rename_i pool' j program
      refine ⟨ih.1, fun i => ?_⟩
      by_cases same : i = j
      · subst same
        simpa using safe program allowed
      · simpa [Function.update_of_ne same] using ih.2 i
  | step reached step ih =>
      cases step with
      | mk answered =>
          rename_i pool' j q after
          obtain ⟨kept, safeRest⟩ := (ih.2 j).step answered ih.1
          refine ⟨kept, fun i => ?_⟩
          by_cases same : i = j
          · subst same
            simpa using safeRest
          · simpa [Function.update_of_ne same] using ih.2 i

/-- A client that has the store for itself can finish what it is executing. -/
theorem finish {i : ι} {s : σ} {value : α} (reached : Session exec calls start pool)
    (performed : Program.Exec exec (pool.threads i) pool.store s (some value)) :
    Session exec calls start
      (⟨s, Function.update pool.threads i (.ret value)⟩ : Pool ι κ ρ α σ) := by
  generalize current : pool.threads i = program at performed
  generalize content : pool.store = store at performed
  generalize result : some value = outcome at performed
  induction performed generalizing pool with
  | ret value' s =>
      obtain rfl := Option.some.inj result
      subst content
      rw [← current, Function.update_eq_self]
      exact reached
  | panic s => cases result
  | step first remaining ih =>
      rename_i program' rest q s0 s1 outcome'
      subst current content
      have next := Session.step reached (.mk first)
      simpa using ih next (by simp) rfl result

/-- What an idle client reaches by a program of its own, with the store for
itself, is reached. -/
theorem perform {i : ι} {program : Program κ ρ α} {s : σ} {value : α}
    (reached : Session exec calls start pool) (idle : pool.Idle i)
    (allowed : calls program)
    (performed : Program.Exec exec program pool.store s (some value)) :
    Session exec calls start
      (⟨s, Function.update pool.threads i (.ret value)⟩ : Pool ι κ ρ α σ) := by
  have started := Session.call reached idle allowed
  simpa using started.finish (i := i) (by simpa using performed)

end Session

end Concurrency
