import Pdwfs.Concurrency.Pool
import Mathlib

/-!
# Schedules

Clients that only wait for what they have forked at once.  Their runs are the
interleavings of their requests, all of them.

* `part` — what one client has to do in a schedule.
* `exists_lift` — schedules of requests come from schedules of the jobs behind the
  requests.
* `Run.part_perm` — a finished run performs the requests of each client in some
  order.
* `exists_run_of_schedule` — every interleaving of them is performed by some run.
* `perm_flatMap_filter` — sorting what one client has to do by a key.

## From runs to lists

A statement about what such clients can leave behind quantifies over runs, and what
is proved of it is about lists.  The two theorems about runs are the way from one to
the other, one for each direction: `Run.part_perm` says that a run gives a list in
which each client has its requests in some order, and `exists_run_of_schedule` that
every such list comes from a run.  With both, a set of possible results is described
exactly, and not only bounded.

Requests that have been executed do not say which job of a client they were for when
two jobs have the same request.  `exists_lift` therefore goes back to the jobs:
there is a schedule of jobs behind the schedule of requests, with the jobs of each
client in the order in which they were served.
-/

namespace Concurrency

universe u w x z

variable {κ : Type u} {ρ α : Type w} {σ : Type z} {ι : Type x} {J : Type*}

namespace Schedule

variable [DecidableEq ι]

/-- What client `i` has to do, in the order of the schedule.  The jobs of the other
clients are left out, so a schedule is an interleaving of its parts. -/
def part (tasks : List (ι × J)) (i : ι) : List J :=
  (tasks.filter fun task => task.1 = i).map Prod.snd

@[simp] theorem part_nil (i : ι) : part ([] : List (ι × J)) i = [] := rfl

@[simp] theorem part_cons_self (i : ι) (job : J) (rest : List (ι × J)) :
    part ((i, job) :: rest) i = job :: part rest i := by
  simp [part]

theorem part_cons_of_ne {i j : ι} (other : j ≠ i) (job : J) (rest : List (ι × J)) :
    part ((j, job) :: rest) i = part rest i := by
  simp [part, other]

theorem mem_part {tasks : List (ι × J)} {i : ι} {job : J} :
    job ∈ part tasks i ↔ (i, job) ∈ tasks := by
  simp [part]

/-- The parts of a schedule of requests are the requests of its parts. -/
theorem part_map (task : J → κ) (tasks : List (ι × J)) (i : ι) :
    part (tasks.map (Prod.map id task)) i = (part tasks i).map task := by
  simp [part, List.filter_map, Function.comp_def]

theorem part_flatMap {K : Type*} (keys : List K) (f : K → List (ι × J)) (i : ι) :
    part (keys.flatMap f) i = keys.flatMap fun k => part (f k) i := by
  simp [part, List.filter_flatMap, List.map_flatMap]

/-- Each client does its jobs when it is its turn, and all of them: the schedule
that serves the clients one after the other has the given jobs as parts. -/
theorem part_turns (jobs : ι → List J) {turns : List ι} (nodup : turns.Nodup) {i : ι}
    (member : i ∈ turns) :
    part (turns.flatMap fun j => (jobs j).map fun job => (j, job)) i = jobs i := by
  have mine (j : ι) : part ((jobs j).map fun job => (j, job)) i = if j = i then jobs i else [] := by
    split
    · subst i
      simp [part, List.filter_map, Function.comp_def]
    · simp [part, List.filter_map, Function.comp_def, *]
  obtain ⟨before, after, rfl⟩ := List.append_of_mem member
  obtain ⟨-, nodup', apart⟩ := List.nodup_append.mp nodup
  have earlier : ∀ j ∈ before, j ≠ i := fun j inside => apart j inside i (by simp)
  have later : ∀ j ∈ after, j ≠ i := fun j inside same =>
    (List.nodup_cons.mp nodup').1 (same ▸ inside)
  have none {others : List ι} (apart : ∀ j ∈ others, j ≠ i) :
      (others.flatMap fun j => if j = i then jobs i else []) = [] := by
    simpa using fun j inside same => absurd same (apart j inside)
  rw [part_flatMap]
  simp only [mine, List.flatMap_append, List.flatMap_cons, if_true, none earlier, none later,
    List.nil_append, List.append_nil]

/-- A schedule of requests, given which jobs the requests of each client come from,
is that of a schedule of jobs. -/
theorem exists_lift {task : J → κ} {labels : List (ι × κ)} {jobs : ι → List J}
    (each : ∀ i, (jobs i).map task = part labels i) :
    ∃ tasks : List (ι × J), tasks.map (Prod.map id task) = labels ∧
      ∀ i, part tasks i = jobs i := by
  induction labels generalizing jobs with
  | nil => exact ⟨[], rfl, fun i => (List.map_eq_nil_iff.mp (each i)).symm⟩
  | cons label rest ih =>
      obtain ⟨j, q⟩ := label
      have mine := each j
      rw [part_cons_self] at mine
      obtain ⟨job, later, split, rfl, same⟩ := List.map_eq_cons_iff.mp mine
      have others : ∀ i, (Function.update jobs j later i).map task = part rest i := by
        intro i
        by_cases here : i = j
        · subst here
          simpa using same
        · rw [Function.update_of_ne here, each i, part_cons_of_ne (Ne.symm here)]
      obtain ⟨tasks, rfl, parts⟩ := ih others
      refine ⟨(j, job) :: tasks, rfl, fun i => ?_⟩
      by_cases here : i = j
      · subst here
        rw [part_cons_self, parts, Function.update_self, split]
      · rw [part_cons_of_ne (Ne.symm here), parts, Function.update_of_ne here]

/-- Sorting a list by a key: the jobs with the first key, then those with the
second, and so on.  What jobs with different keys do to a store commutes, so a
schedule can be sorted in this way. -/
theorem perm_flatMap_filter {K : Type*} [DecidableEq K] (key : J → K) {keys : List K}
    (nodup : keys.Nodup) {jobs : List J} (each : ∀ job ∈ jobs, key job ∈ keys) :
    (keys.flatMap fun k => jobs.filter fun job => key job = k).Perm jobs := by
  induction keys generalizing jobs with
  | nil =>
      obtain rfl : jobs = [] := List.eq_nil_iff_forall_not_mem.mpr fun job member => by
        simpa using each job member
      rfl
  | cons k rest ih =>
      obtain ⟨fresh, nodup'⟩ := List.nodup_cons.mp nodup
      have others : (rest.flatMap fun k' => jobs.filter fun job => key job = k') =
          rest.flatMap fun k' => (jobs.filter fun job => ¬key job = k).filter
            fun job => key job = k' := by
        refine List.flatMap_congr fun k' member => ?_
        rw [List.filter_filter]
        refine List.filter_congr fun job _ => ?_
        by_cases same : key job = k'
        · have other : k' ≠ k := fun meets => fresh (meets ▸ member)
          simp [same, other]
        · simp [same]
      rw [List.flatMap_cons, others]
      refine .trans (.append_left _ (ih nodup' fun job member => ?_)) ?_
      · obtain ⟨inJobs, other⟩ := List.mem_filter.mp member
        exact (List.mem_cons.mp (each job inJobs)).resolve_left (by simpa using other)
      · simpa using List.filter_append_perm (fun job => decide (key job = k)) jobs

omit [DecidableEq ι] in
/-- Only one of the keys does something, so going through all of them does it once.
-/
theorem foldl_pick {K β : Type*} [DecidableEq K] (k : K) (f : β → β) {keys : List K}
    (nodup : keys.Nodup) (b : β) :
    keys.foldl (fun b k' => if k' = k then f b else b) b = if k ∈ keys then f b else b := by
  induction keys generalizing b with
  | nil => rfl
  | cons k' rest ih =>
      obtain ⟨fresh, nodup'⟩ := List.nodup_cons.mp nodup
      rw [List.foldl_cons, ih nodup']
      by_cases same : k' = k
      · subst same
        simp [fresh]
      · simp [same, Ne.symm same]

end Schedule

/-- A program that has stopped performs nothing. -/
theorem Program.Trace.of_stopped {program final : Program κ ρ α} {trace : List (κ × ρ)}
    (stopped : program.Stopped) (performed : Program.Trace program trace final) : trace = [] := by
  cases performed with
  | nil => rfl
  | cons step others => exact absurd step (stopped _ _ _)

namespace Pool

open Schedule

variable [DecidableEq ι] {exec : κ → σ → σ × ρ}

/-- The requests of a run, with the clients that have issued them and without the
replies. -/
def requestsOf (labels : List (ι × κ × ρ)) : List (ι × κ) :=
  labels.map fun label => (label.1, label.2.1)

/-- **A finished run** performs what each client has forked, in some order. -/
theorem Run.part_perm [Nonempty ρ] {waiting : ι → List κ} {next : ι → List ρ → Program κ ρ α}
    (returns : ∀ i rs, (next i rs).Stopped) {s : σ} {labels : List (ι × κ × ρ)}
    {final : Pool ι κ ρ α σ}
    (run : Run exec ⟨s, fun i => Program.resume (waiting i) [] (next i)⟩ labels final)
    (finished : ∀ i, (final.threads i).Stopped) (i : ι) :
    (part (requestsOf labels) i).Perm (waiting i) := by
  obtain ⟨first, rest, split, perm, continued⟩ := (run.trace i).of_resume (finished i)
  have none := continued.of_stopped (returns i _)
  have same : part (requestsOf labels) i = first.map Prod.fst := by
    rw [none, List.append_nil] at split
    rw [← split, part, requestsOf, List.filter_map, List.map_map, List.map_map]
    rfl
  rw [same]
  exact perm

/-- **Every schedule is performed by some run.**  The clients have forked everything
at the start, so whichever of the requests is next, its worker is waiting. -/
theorem exists_run_of_schedule (exec : κ → σ → σ × ρ) {waiting : ι → List κ}
    (next : ι → List ρ → Program κ ρ α) {tasks : List (ι × κ)}
    (each : ∀ i, (part tasks i).Perm (waiting i)) (s : σ) :
    ∃ labels final, Run exec ⟨s, fun i => Program.resume (waiting i) [] (next i)⟩ labels final ∧
      requestsOf labels = tasks ∧ ∀ i, ∃ rs, final.threads i = next i rs := by
  -- The replies that have arrived do not matter.
  suffices general : ∀ (replies : ι → List ρ), ∃ labels final,
      Run exec ⟨s, fun i => Program.resume (waiting i) (replies i) (next i)⟩ labels final ∧
        requestsOf labels = tasks ∧ ∀ i, ∃ rs, final.threads i = next i rs from general fun _ => []
  induction tasks generalizing waiting s with
  | nil =>
      intro replies
      have none : ∀ i, waiting i = [] := fun i => (each i).symm.eq_nil
      exact ⟨[], _, .nil _, rfl, fun i => ⟨replies i, by simp [none]⟩⟩
  | cons task rest ih =>
      intro replies
      obtain ⟨j, q⟩ := task
      have mine := each j
      rw [part_cons_self] at mine
      obtain ⟨before, after, split⟩ := List.append_of_mem (mine.subset (List.mem_cons_self ..))
      have left : ∀ i, (part rest i).Perm (Function.update waiting j (before ++ after) i) := by
        intro i
        by_cases here : i = j
        · subst here
          rw [Function.update_self]
          rw [split] at mine
          exact (mine.trans List.perm_middle).cons_inv
        · rw [Function.update_of_ne here, ← part_cons_of_ne (Ne.symm here) q]
          exact each i
      have answered : Program.Step (Program.resume (waiting j) (replies j) (next j)) q (exec q s).2
          (Program.resume (before ++ after) (replies j ++ [(exec q s).2]) (next j)) := by
        rw [split, Program.resume_of_ne_nil (by simp)]
        exact .answer before after q _ (replies j) (next j) (by simp)
      have moved : Function.update (fun i => Program.resume (waiting i) (replies i) (next i)) j
            (Program.resume (before ++ after) (replies j ++ [(exec q s).2]) (next j)) =
          fun i => Program.resume (Function.update waiting j (before ++ after) i)
            (Function.update replies j (replies j ++ [(exec q s).2]) i) (next i) := by
        funext i
        by_cases here : i = j
        · subst here
          simp
        · simp [here]
      have first : Step exec
          ⟨s, fun i => Program.resume (waiting i) (replies i) (next i)⟩ (j, q, (exec q s).2)
          ⟨(exec q s).1, _⟩ := .mk answered
      rw [moved] at first
      obtain ⟨labels, final, run, same, returned⟩ := ih left (exec q s).1
        (Function.update replies j (replies j ++ [(exec q s).2]))
      exact ⟨_, final, .cons first run, by rw [← same, requestsOf, requestsOf, List.map_cons],
        returned⟩

end Pool

end Concurrency
