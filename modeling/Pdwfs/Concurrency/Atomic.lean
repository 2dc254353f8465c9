import Pdwfs.Concurrency.Histories

/-!
# Services that look atomic

Callers invoke requests of a service and get its answers.  The service is atomic if
each request takes effect at one moment between its invocation and its answer.

* `Trace` — what can be seen of a run: some of its steps are silent.
* `Trace.simulate` — **simulation**: what can be seen of one system can be seen of
  another one, if every step of the first has counterparts in the second.
* `Atomic` — the service that executes each request in one step, at any time before
  it answers.
* `Atomic.exists_order` — what such a service has answered, it has executed once, in
  one order.

## Atomicity as a simulation

That a service looks atomic could be stated of its histories: there is an order of
the requests that respects the invocations and answers, and of which the answers are
those of a sequential execution.  It is stated here by a system, `Atomic`, whose
execution steps are silent.  A service looks atomic if everything that can be seen
of it can be seen of `Atomic`.

The two say the same, by `Atomic.exists_order`: the silent steps of a run are the
order.  The system is the better one to prove things with, since a simulation is
shown step by step, and the better one to use, since what is above the service can
be put on top of `Atomic` without looking at an order at all.
-/

namespace Concurrency

universe u w x z

/-! ## Traces -/

section Trace

variable {S S' E : Type*}

/-- A run, and its visible events.  A step with the label `none` is silent and
leaves no event. -/
inductive Trace (step : S → Option E → S → Prop) : S → List E → S → Prop
  | nil (s : S) : Trace step s [] s
  | cons {s s' s'' : S} {event : Option E} {events : List E} (first : step s event s')
      (others : Trace step s' events s'') : Trace step s (event.toList ++ events) s''

variable {step : S → Option E → S → Prop} {step' : S' → Option E → S' → Prop}

/-- A run of one step. -/
theorem Trace.single {s s' : S} {event : Option E} (first : step s event s') :
    Trace step s event.toList s' := by
  simpa using Trace.cons first (.nil s')

/-- Two runs one after the other. -/
theorem Trace.trans {s s' s'' : S} {events later : List E} (run : Trace step s events s')
    (run' : Trace step s' later s'') : Trace step s (events ++ later) s'' := by
  induction run with
  | nil s => exact run'
  | cons first others ih =>
      rw [List.append_assoc]
      exact .cons first (ih run')

/-- **Simulation.**  If every step of one system is answered by a run of the other
one with the same visible events, and both end in related states, then every run is.
A silent step can be answered by no step at all. -/
theorem Trace.simulate {related : S → S' → Prop}
    (each : ∀ s event s' t, step s event s' → related s t →
      ∃ t', Trace step' t event.toList t' ∧ related s' t')
    {s s' : S} {events : List E} (run : Trace step s events s') {t : S'} (start : related s t) :
    ∃ t', Trace step' t events t' ∧ related s' t' := by
  induction run generalizing t with
  | nil s => exact ⟨t, .nil t, start⟩
  | cons first others ih =>
      obtain ⟨middle, here, kept⟩ := each _ _ _ t first start
      obtain ⟨final, there, related'⟩ := ih kept
      exact ⟨final, here.trans there, related'⟩

/-- What every step keeps of a state and what has been seen before it, a run keeps.
This is the rule for invariants that relate a state to its past. -/
theorem Trace.history {keeps : List E → S → Prop}
    (each : ∀ past s event s', step s event s' → keeps past s → keeps (past ++ event.toList) s')
    {s s' : S} {events : List E} (run : Trace step s events s') {past : List E}
    (start : keeps past s) : keeps (past ++ events) s' := by
  induction run generalizing past with
  | nil s => rwa [List.append_nil]
  | cons first others ih =>
      rw [← List.append_assoc]
      exact ih (each _ _ _ _ first start)

end Trace

/-! ## The atomic service -/

variable {κ : Type u} {ρ υ : Type w} {σ : Type z} {ι : Type x}

/-- What can be seen of a caller. -/
inductive Event (ι : Type x) (κ : Type u) (υ : Type w)
  | invoke (i : ι) (q : κ)
  | respond (i : ι) (view : υ)

/-- Where a caller is: it has nothing to wait for, its request has not been
executed, or its request has been executed and the answer has not been given to it
yet. -/
inductive Caller (κ : Type u) (ρ : Type w)
  | idle
  | called (q : κ)
  | answered (r : ρ)

/-- The store and the callers of a service. -/
structure Atomic (ι : Type x) (κ : Type u) (ρ : Type w) (σ : Type z) where
  store : σ
  callers : ι → Caller κ ρ

namespace Atomic

/-- A service that nobody has called yet. -/
def start (s : σ) : Atomic ι κ ρ σ := ⟨s, fun _ => .idle⟩

variable [DecidableEq ι]

/-- Each request is executed in one step.  A caller is shown some `view` of the
answer: what the layers between the caller and the store make of it. -/
inductive Step (exec : κ → σ → σ × ρ) (shows : ρ → υ → Prop) :
    Atomic ι κ ρ σ → Option (Event ι κ υ) → Atomic ι κ ρ σ → Prop
  | invoke {a : Atomic ι κ ρ σ} (i : ι) (q : κ) (free : a.callers i = .idle) :
      Step exec shows a (some (.invoke i q))
        ⟨a.store, Function.update a.callers i (.called q)⟩
  | execute {a : Atomic ι κ ρ σ} (i : ι) (q : κ) (called : a.callers i = .called q) :
      Step exec shows a none
        ⟨(exec q a.store).1, Function.update a.callers i (.answered (exec q a.store).2)⟩
  | respond {a : Atomic ι κ ρ σ} (i : ι) (r : ρ) (view : υ) (answered : a.callers i = .answered r)
      (shown : shows r view) :
      Step exec shows a (some (.respond i view)) ⟨a.store, Function.update a.callers i .idle⟩

/-- The requests that caller `i` has invoked. -/
def invokedBy (i : ι) (events : List (Event ι κ υ)) : List κ :=
  events.filterMap fun event =>
    match event with
    | .invoke j q => if j = i then some q else none
    | .respond _ _ => none

/-- What caller `i` has been shown. -/
def shownTo (i : ι) (events : List (Event ι κ υ)) : List υ :=
  events.filterMap fun event =>
    match event with
    | .invoke _ _ => none
    | .respond j view => if j = i then some view else none

/-- What a caller has invoked and been shown, compared with what the service has executed for
it: everything but the request that is waiting, and shown but for the last answer. -/
def Accounted (shows : ρ → υ → Prop) (invoked : List κ) (shown : List υ) (own : List (κ × ρ)) :
    Caller κ ρ → Prop
  | .idle => invoked = own.map Prod.fst ∧ List.Forall₂ shows (own.map Prod.snd) shown
  | .called q => invoked = own.map Prod.fst ++ [q] ∧ List.Forall₂ shows (own.map Prod.snd) shown
  | .answered r => invoked = own.map Prod.fst ∧
      ∃ before, own.map Prod.snd = before ++ [r] ∧ List.Forall₂ shows before shown

section Order

variable {exec : κ → σ → σ × ρ} {shows : ρ → υ → Prop}

theorem invokedBy_append (i : ι) (past events : List (Event ι κ υ)) :
    invokedBy i (past ++ events) = invokedBy i past ++ invokedBy i events :=
  List.filterMap_append

theorem shownTo_append (i : ι) (past events : List (Event ι κ υ)) :
    shownTo i (past ++ events) = shownTo i past ++ shownTo i events :=
  List.filterMap_append

/-- The event of another caller. -/
theorem accounted_of_other {i j : ι} (other : i ≠ j) {past : List (Event ι κ υ)}
    {labels : List (ι × κ × ρ)} {callers : ι → Caller κ ρ} (events : List (Event ι κ υ))
    (labels' : List (ι × κ × ρ)) (caller : Caller κ ρ) (invoked : invokedBy i events = [])
    (shown : shownTo i events = [])
    (own : Pool.ownOf labels' i = [])
    (accounted : Accounted shows (invokedBy i past) (shownTo i past) (Pool.ownOf labels i)
      (callers i)) :
    Accounted shows (invokedBy i (past ++ events)) (shownTo i (past ++ events))
      (Pool.ownOf (labels ++ labels') i) (Function.update callers j caller i) := by
  rw [invokedBy_append, shownTo_append, invoked, shown, Function.update_of_ne other]
  simp only [Pool.ownOf, List.filter_append, List.map_append] at own ⊢
  rw [own]
  simpa [Pool.ownOf] using accounted

omit [DecidableEq ι] in
/-- A history with one more request at its end. -/
theorem replay_snoc {s s' : σ} {trace : List (κ × ρ)} (replayed : Pool.Replay exec s trace s')
    (q : κ) : Pool.Replay exec s (trace ++ [(q, (exec q s').2)]) (exec q s').1 := by
  induction trace generalizing s with
  | nil =>
      obtain rfl : s' = s := replayed
      exact ⟨rfl, rfl⟩
  | cons head tail ih => exact ⟨replayed.1, ih replayed.2⟩

/-- **One order.**  In every run of an atomic service the requests have been executed in one
order, each with the reply of the store to what was executed before it.  What a caller has
invoked has been executed once and in the caller's order, except for a request that is still
waiting; and it has been shown these replies. -/
theorem exists_order {s : σ} {events : List (Event ι κ υ)} {a : Atomic ι κ ρ σ}
    (run : Trace (Step exec shows) (start s) events a) :
    ∃ labels : List (ι × κ × ρ), Pool.Replay exec s (labels.map Prod.snd) a.store ∧
      ∀ i, Accounted shows (invokedBy i events) (shownTo i events) (Pool.ownOf labels i)
        (a.callers i) := by
  let keeps (past : List (Event ι κ υ)) (a : Atomic ι κ ρ σ) : Prop :=
    ∃ labels : List (ι × κ × ρ), Pool.Replay exec s (labels.map Prod.snd) a.store ∧
      ∀ i, Accounted shows (invokedBy i past) (shownTo i past) (Pool.ownOf labels i)
        (a.callers i)
  have nothing : keeps [] (start s) :=
    ⟨[], Pool.replay_nil.mpr rfl, fun i => by simp [Accounted, start, invokedBy, shownTo]⟩
  show keeps ([] ++ events) a
  refine run.history ?_ nothing
  rintro past a event a' step ⟨labels, replayed, accounted⟩
  cases step with
  | invoke j q free =>
      refine ⟨labels, replayed, fun i => ?_⟩
      by_cases same : i = j
      · subst same
        have mine := accounted i
        rw [free] at mine
        simp only [invokedBy_append, shownTo_append, Function.update_self]
        refine ⟨?_, ?_⟩
        · simpa [invokedBy] using mine.1
        · simpa [shownTo] using mine.2
      · have others := accounted_of_other same [.invoke j q] [] (.called q)
          (by simp [invokedBy, Ne.symm same]) (by simp [shownTo]) rfl (accounted i)
        simpa using others
  | execute j q called =>
      refine ⟨labels ++ [(j, q, (exec q a.store).2)], by simpa using replay_snoc replayed q,
        fun i => ?_⟩
      by_cases same : i = j
      · subst same
        have mine := accounted i
        rw [called] at mine
        simp only [Option.toList_none, List.append_nil, Function.update_self]
        refine ⟨?_, (Pool.ownOf labels i).map Prod.snd, ?_, mine.2⟩
        · rw [mine.1]
          simp [Pool.ownOf]
        · simp [Pool.ownOf]
      · exact accounted_of_other same [] _ _ rfl rfl (by simp [Pool.ownOf, Ne.symm same])
          (accounted i)
  | respond j r view answered shown =>
      refine ⟨labels, replayed, fun i => ?_⟩
      by_cases same : i = j
      · subst same
        have mine := accounted i
        rw [answered] at mine
        obtain ⟨invoked, before, own, shown'⟩ := mine
        simp only [invokedBy_append, shownTo_append, Function.update_self]
        refine ⟨?_, ?_⟩
        · simpa [invokedBy] using invoked
        · rw [own]
          simpa [shownTo] using List.rel_append shown' (List.Forall₂.cons shown .nil)
      · have others := accounted_of_other same [.respond j view] [] .idle (by simp [invokedBy])
          (by simp [shownTo, Ne.symm same]) rfl (accounted i)
        simpa using others

end Order

end Atomic

end Concurrency
