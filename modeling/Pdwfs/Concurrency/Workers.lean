import Pdwfs.Concurrency.Atomic

/-!
# Programs over a service

A program does not see the store: its workers call a service, and are shown
something of the replies.  If the service is atomic, the program can be replaced by
one that is over the store.

* `Client`, `Clients.Step` — programs with workers in flight.
* `Program.Renders` — a program does with what its workers are shown what another
  program does with the replies, whatever the order of their arrival.
* `Clients.exists_run` — **replacement**: what the clients of an atomic service do,
  the other programs do over the store.

## Two orders

A worker of a program is in flight from its invocation until it comes back.  Its
request is executed at some moment in between, and the workers of one fork do not
come back in the order in which their requests have been executed.  A program over
the store has no such gap: a request is executed and answered in one step.  So the
program over the store is *ahead* of the client, by the requests that have been
executed for workers that are still in flight (`Program.Ahead`), and the replies
have reached it in another order.

This is why `Renders` quantifies over the order of the replies: the result of a fork
must not depend on it.  That is the case where replies are added up, or fill parts
of a buffer that do not overlap.

## Two views of a reply

What a worker brings back is not the reply of the store but what the layers below
make of it: a number that has been parsed, a buffer that has been filled.  A reply
may be shown in more than one way, and two replies in the same way.  `possible`
relates the two, and what a program may rely on is only what is possible.
-/

namespace Concurrency

universe u x z

variable {κ ρ υ α β : Type u} {σ : Type z} {ι ω : Type x}

/-! ## Clients -/

/-- The requests that the program is waiting for. -/
def Program.waiting : Program κ ρ α → List κ
  | .fork waiting _ _ _ => waiting
  | _ => []

@[simp] theorem Program.waiting_ret (value : α) :
    (.ret value : Program κ ρ α).waiting = [] := rfl

@[simp] theorem Program.waiting_panic : (.panic : Program κ ρ α).waiting = [] := rfl

@[simp] theorem Program.waiting_fork (waiting : List κ) (nonempty : waiting ≠ [])
    (replies : List ρ) (next : List ρ → Program κ ρ α) :
    (Program.fork waiting nonempty replies next).waiting = waiting := rfl

/-- What else the program is waiting for, it is still waiting for after an answer. -/
theorem Program.Step.subperm_waiting {program after : Program κ ρ α} {q : κ} {r : ρ}
    (step : Program.Step program q r after) {others : List κ}
    (waits : (q :: others).Subperm program.waiting) : others.Subperm after.waiting := by
  cases step with
  | answer before later q r replies next nonempty =>
      have fewer : others.Subperm (before ++ later) :=
        List.subperm_cons q |>.mp (waits.trans List.perm_middle.subperm)
      cases left : before ++ later with
      | nil =>
          rw [left, List.subperm_nil] at fewer
          rw [fewer]
          exact List.nil_subperm
      | cons q' rest => rwa [left] at fewer

/-- A program, and its workers that are in flight.  A worker knows its request,
since what it brings back is put together with it. -/
structure Client (ω : Type x) (κ υ α : Type u) where
  program : Program κ (κ × υ) α
  flying : List (ω × κ) := []

namespace Clients

variable [DecidableEq ι] (owner : ω → ι)

/-- A worker sets off, or it comes back.  The program waits for all of its workers,
and they may set off in any order and at any time after the fork. -/
inductive Step : (ι → Client ω κ υ α) → Event ω κ υ → (ι → Client ω κ υ α) → Prop
  | invoke {clients : ι → Client ω κ υ α} (i : ω) (q : κ)
      (waits : (q :: (clients (owner i)).flying.map Prod.snd).Subperm
        (clients (owner i)).program.waiting) :
      Step clients (.invoke i q) (Function.update clients (owner i)
        ⟨(clients (owner i)).program, (i, q) :: (clients (owner i)).flying⟩)
  | respond {clients : ι → Client ω κ υ α} (i : ω) (q : κ) (view : υ)
      (before later : List (ω × κ))
      (mine : (clients (owner i)).flying = before ++ (i, q) :: later)
      {after : Program κ (κ × υ) α}
      (given : Program.Step (clients (owner i)).program q (q, view) after) :
      Step clients (.respond i view)
        (Function.update clients (owner i) ⟨after, before ++ later⟩)

/-- The clients make these calls, and are given these answers. -/
inductive Run : (ι → Client ω κ υ α) → List (Event ω κ υ) → (ι → Client ω κ υ α) → Prop
  | nil (clients : ι → Client ω κ υ α) : Run clients [] clients
  | cons {clients middle final : ι → Client ω κ υ α} {event : Event ω κ υ}
      {events : List (Event ω κ υ)} (first : Step owner clients event middle)
      (others : Run middle events final) : Run clients (event :: events) final

end Clients

/-! ## The same with other replies -/

/-- A request, its reply, and what is shown of it. -/
structure Answer (κ ρ υ : Type u) where
  request : κ
  reply : ρ
  view : υ

/-- What the worker brings back. -/
def Answer.shown (answer : Answer κ ρ υ) : κ × υ := (answer.request, answer.view)

namespace Program

section Renders

variable (allowed : κ → Prop) (possible : Answer κ ρ υ → Prop)

/-- **The same program over other replies.**  Both fork the same requests, which are `allowed`, and
go on in the same way for all `possible` answers, until they return a `good` value.  The replies
may have arrived in another order than the workers have come back in. -/
def Renders (good : α → Prop) : Program κ (κ × υ) α → Program κ ρ α → Prop
  | .ret value, program => good value ∧ program = .ret value
  | .panic, program => program = .panic
  | .fork waiting _ views next, program =>
      views = [] ∧ (∀ q ∈ waiting, allowed q) ∧ ∃ next', program = resume waiting [] next' ∧
        ∀ (answers : List (Answer κ ρ υ)) (replies : List ρ),
          (answers.map Answer.request).Perm waiting → (∀ answer ∈ answers, possible answer) →
            replies.Perm (answers.map Answer.reply) →
              Renders good (next (answers.map Answer.shown)) (next' replies)

variable {allowed possible} {good : α → Prop} {goodResult : β → Prop}

theorem renders_ret {value : α} (here : good value) :
    Renders allowed possible good (.ret value : Program κ (κ × υ) α) (.ret value) := ⟨here, rfl⟩

theorem renders_panic :
    Renders allowed possible good (.panic : Program κ (κ × υ) α) .panic := rfl

/-- Sequential composition. -/
theorem Renders.bind {program : Program κ (κ × υ) α} {program' : Program κ ρ α}
    {f : α → Program κ (κ × υ) β} {f' : α → Program κ ρ β}
    (first : Renders allowed possible good program program')
    (second : ∀ value, good value → Renders allowed possible goodResult (f value) (f' value)) :
    Renders allowed possible goodResult (program >>= f) (program' >>= f') := by
  induction program generalizing program' with
  | ret value =>
      obtain ⟨here, rfl⟩ := first
      exact second value here
  | panic =>
      obtain rfl := first
      exact renders_panic
  | fork waiting nonempty views next ih =>
      obtain ⟨rfl, all, next', rfl, continues⟩ := first
      rw [resume_bind]
      refine ⟨rfl, all, _, rfl, fun answers replies asked known arrived => ?_⟩
      exact ih _ (continues answers replies asked known arrived)

/-- A weaker property of the result. -/
theorem Renders.mono {program : Program κ (κ × υ) α} {program' : Program κ ρ α}
    {good' : α → Prop} (renders : Renders allowed possible good program program')
    (weaker : ∀ value, good value → good' value) :
    Renders allowed possible good' program program' := by
  have bound := renders.bind fun value here => renders_ret (weaker value here)
  simpa using bound

/-- **A join.**  What follows is shown for all answers that are possible and for all
orders of the replies. -/
theorem renders_forkAll_bind {tasks : List κ} {f : List (κ × υ) → Program κ (κ × υ) α}
    {f' : List ρ → Program κ ρ α} (all : ∀ q ∈ tasks, allowed q)
    (continues : ∀ (answers : List (Answer κ ρ υ)) (replies : List ρ),
      (answers.map Answer.request).Perm tasks → (∀ answer ∈ answers, possible answer) →
        replies.Perm (answers.map Answer.reply) →
          Renders allowed possible good (f (answers.map Answer.shown)) (f' replies)) :
    Renders allowed possible good (forkAll tasks >>= f) (forkAll tasks >>= f') := by
  simp only [forkAll, resume_bind, ret_bind]
  cases tasks with
  | nil => exact continues [] [] .nil (by simp) .nil
  | cons q rest => exact ⟨rfl, all, f', rfl, continues⟩

/-- **A single request.** -/
theorem renders_request_bind {q : κ} {f : κ × υ → Program κ (κ × υ) α} {f' : ρ → Program κ ρ α}
    (asked : allowed q)
    (continues : ∀ r view, possible ⟨q, r, view⟩ →
      Renders allowed possible good (f (q, view)) (f' r)) :
    Renders allowed possible good (request q >>= f) (request q >>= f') := by
  refine ⟨rfl, by simpa using asked, _, rfl, fun answers replies same known arrived => ?_⟩
  obtain ⟨⟨q', r, view⟩, rfl, rfl⟩ :=
    List.map_eq_singleton_iff.mp (List.perm_singleton.mp same)
  obtain rfl := List.perm_singleton.mp arrived
  exact continues r view (known _ (by simp))

end Renders

/-! ## Ahead of the workers -/

section Ahead

variable (allowed : κ → Prop) (possible : Answer κ ρ υ → Prop)

/-- **Ahead of the workers.**  The other program has been given the replies to the
requests `done`, of which the workers have not come back yet.

Both are at the same fork.  What the client waits for is what the other one waits
for and what is done; what the other one has been given is what has come back and
what is done, in some order.  When the last worker comes back both are behind the
fork, and `Renders` takes over. -/
def Ahead (done : List (κ × ρ)) : Program κ (κ × υ) α → Program κ ρ α → Prop
  | .ret value, program => done = [] ∧ program = .ret value
  | .panic, program => done = [] ∧ program = .panic
  | .fork waiting _ views next, program =>
      (∀ q ∈ waiting, allowed q) ∧ ∃ (remaining : List κ) (answers : List (Answer κ ρ υ))
        (replies : List ρ) (next' : List ρ → Program κ ρ α),
        program = resume remaining replies next' ∧
        waiting.Perm (remaining ++ done.map Prod.fst) ∧
        replies.Perm (answers.map Answer.reply ++ done.map Prod.snd) ∧
        views = answers.map Answer.shown ∧ (∀ answer ∈ answers, possible answer) ∧
        ∀ (all : List (Answer κ ρ υ)) (replies : List ρ),
          (all.map Answer.request).Perm (answers.map Answer.request ++ waiting) →
            (∀ answer ∈ all, possible answer) → replies.Perm (all.map Answer.reply) →
              Renders allowed possible (fun _ => True) (next (all.map Answer.shown))
                (next' replies)

variable {allowed possible} {program : Program κ (κ × υ) α} {program' : Program κ ρ α}
  {done done' : List (κ × ρ)} {q : κ} {r : ρ}

/-- Before a fork is entered, nothing is done. -/
theorem Renders.ahead {good : α → Prop} (renders : Renders allowed possible good program program') :
    Ahead allowed possible [] program program' := by
  replace renders := renders.mono fun _ _ => trivial
  cases program with
  | ret value => exact ⟨rfl, renders.2⟩
  | panic => exact ⟨rfl, renders⟩
  | fork waiting nonempty views next =>
      obtain ⟨rfl, all, next', rfl, continues⟩ := renders
      exact ⟨all, waiting, [], [], next', rfl, by simp, by simp, rfl, by simp, continues⟩

/-- The order in which the answers have arrived does not matter. -/
theorem Ahead.perm (ahead : Ahead allowed possible done program program')
    (same : done.Perm done') : Ahead allowed possible done' program program' := by
  cases program with
  | ret value => exact ⟨by simpa [ahead.1] using same, ahead.2⟩
  | panic => exact ⟨by simpa [ahead.1] using same, ahead.2⟩
  | fork waiting nonempty views next =>
      obtain ⟨all, remaining, answers, replies, next', rfl, asked, arrived, rest⟩ := ahead
      exact ⟨all, remaining, answers, replies, next', rfl,
        asked.trans ((same.map Prod.fst).append_left _),
        arrived.trans ((same.map Prod.snd).append_left _), rest⟩

theorem Ahead.allowed_of_waiting (ahead : Ahead allowed possible done program program')
    (waits : q ∈ program.waiting) : allowed q := by
  cases program with
  | ret value => simp at waits
  | panic => simp at waits
  | fork waiting nonempty views next => exact ahead.1 q waits

/-- **A request is executed**, of which the worker has not come back.  Only the
other program goes on. -/
theorem Ahead.execute (ahead : Ahead allowed possible done program program')
    (waits : (q :: done.map Prod.fst).Subperm program.waiting) (r : ρ) :
    ∃ after, Step program' q r after ∧ Ahead allowed possible ((q, r) :: done) program after := by
  cases program with
  | ret value => simp at waits
  | panic => simp at waits
  | fork waiting nonempty views next =>
      obtain ⟨all, remaining, answers, replies, next', rfl, asked, arrived, rest⟩ := ahead
      have open' : q ∈ remaining := by
        have within := waits.trans asked.subperm
        rw [← List.perm_append_comm.subperm_left, ← List.singleton_append,
          ← List.perm_append_comm.subperm_right, List.subperm_append_left] at within
        exact List.singleton_subperm_iff.mp within
      obtain ⟨before, later, rfl⟩ := List.append_of_mem open'
      refine ⟨resume (before ++ later) (replies ++ [r]) next', ?_, all, before ++ later, answers,
        replies ++ [r], next', rfl, ?_, ?_, rest⟩
      · rw [resume_of_ne_nil (by simp)]
        exact .answer before later q r replies next' _
      · exact (asked.trans (List.perm_middle.append_right _)).trans List.perm_middle.symm
      · refine (List.perm_append_singleton r replies).trans ?_
        exact (arrived.cons r).trans List.perm_middle.symm

/-- **A worker comes back.**  The other program has been given its reply already, so
it does nothing. -/
theorem Ahead.respond (ahead : Ahead allowed possible ((q, r) :: done) program program') {view : υ}
    (shown : possible ⟨q, r, view⟩) {after : Program κ (κ × υ) α}
    (given : Step program q (q, view) after) : Ahead allowed possible done after program' := by
  cases given with
  | answer before later q _ views next nonempty =>
      obtain ⟨all, remaining, answers, replies, next', rfl, asked, arrived, rfl, known,
        continues⟩ := ahead
      have asked' : (before ++ later).Perm (remaining ++ done.map Prod.fst) :=
        (List.perm_middle.symm.trans (asked.trans List.perm_middle)).cons_inv
      set answers' := answers ++ [⟨q, r, view⟩] with extended
      have arrived' : replies.Perm (answers'.map Answer.reply ++ done.map Prod.snd) := by
        simpa [extended] using arrived
      have shown' : answers.map Answer.shown ++ [(q, view)] = answers'.map Answer.shown := by
        simp [extended, Answer.shown]
      have known' : ∀ answer ∈ answers', possible answer := by
        simpa [extended, or_imp, forall_and] using ⟨known, shown⟩
      have total : (answers.map Answer.request ++ (before ++ q :: later)).Perm
          (answers'.map Answer.request ++ (before ++ later)) := by
        simpa [extended] using List.perm_middle.append_left (answers.map Answer.request)
      rw [shown']
      cases left : before ++ later with
      | nil =>
          rw [left] at asked' total
          obtain ⟨rfl, nothing⟩ := List.append_eq_nil_iff.mp asked'.nil_eq.symm
          obtain rfl := List.map_eq_nil_iff.mp nothing
          refine (continues answers' replies ?_ known' ?_).ahead
          · rw [List.append_nil] at total
            exact total.symm
          · simpa using arrived'
      | cons q' rest =>
          rw [left] at asked' total
          have all' : ∀ p ∈ q' :: rest, allowed p := by
            rw [← left]
            exact fun p member => all p (List.perm_middle.symm.subset (.tail q member))
          refine ⟨all', remaining, answers', replies, next', rfl, asked', arrived', rfl, known',
            fun all replies same => continues all replies (same.trans total.symm)⟩

end Ahead

end Program

/-! ## Replacement -/

section Replacement

variable (exec : κ → σ → σ × ρ) (shows : ρ → υ → Prop) (good : σ → Prop)

/-- The store may reply to the request in this way, from one of the states that are
reached. -/
def Replies (q : κ) (r : ρ) : Prop := ∃ s, good s ∧ (exec q s).2 = r

/-- An answer that the service may give. -/
def Answer.Possible (answer : Answer κ ρ υ) : Prop :=
  Replies exec good answer.request answer.reply ∧ shows answer.reply answer.view

/-- What has been executed for a worker. -/
def Caller.done (callers : ω → Caller κ ρ) (flight : ω × κ) : Option (κ × ρ) :=
  match callers flight.1 with
  | .answered r => some (flight.2, r)
  | _ => none

/-- What a caller of the service is doing for the request of a worker. -/
def Caller.Serves (q : κ) : Caller κ ρ → Prop
  | .idle => False
  | .called q' => q' = q
  | .answered r => Replies exec good q r

/-- **The other programs are ahead of the clients**, by the requests that have been
executed.  What the service knows of its callers and what the clients know of their
workers is the same, seen from both ends. -/
structure Follows (allowed : κ → Prop) (owner : ω → ι) (clients : ι → Client ω κ υ α)
    (callers : ω → Caller κ ρ) (threads : ι → Program κ ρ α) : Prop where
  nodup : ∀ j, ((clients j).flying.map Prod.fst).Nodup
  owned : ∀ j, ∀ flight ∈ (clients j).flying,
    owner flight.1 = j ∧ (callers flight.1).Serves exec good flight.2
  known : ∀ i, callers i ≠ .idle → ∃ q, (i, q) ∈ (clients (owner i)).flying
  waits : ∀ j, ((clients j).flying.map Prod.snd).Subperm (clients j).program.waiting
  ahead : ∀ j, Program.Ahead allowed (Answer.Possible exec shows good)
    ((clients j).flying.filterMap (Caller.done callers)) (clients j).program (threads j)

variable {exec shows good} {allowed : κ → Prop} {owner : ω → ι}
  {clients clients' : ι → Client ω κ υ α} {callers : ω → Caller κ ρ}
  {threads : ι → Program κ ρ α}

/-- A worker that has no request in flight is not asked. -/
theorem Caller.done_congr [DecidableEq ω] {flying : List (ω × κ)} {i : ω}
    (other : i ∉ flying.map Prod.fst) (caller : Caller κ ρ) :
    flying.filterMap (Caller.done (Function.update callers i caller)) =
      flying.filterMap (Caller.done callers) := by
  refine List.filterMap_congr fun flight member => ?_
  have apart : flight.1 ≠ i := by
    rintro rfl
    exact other (List.mem_map_of_mem member)
  rw [Caller.done, Function.update_of_ne apart, ← Caller.done]

/-- Those that have been answered are among those in flight. -/
theorem Caller.done_sublist (callers : ω → Caller κ ρ) (flying : List (ω × κ)) :
    ((flying.filterMap (Caller.done callers)).map Prod.fst).Sublist (flying.map Prod.snd) := by
  induction flying with
  | nil => exact .slnil
  | cons flight rest ih =>
      cases caller : Caller.done callers flight with
      | none =>
          rw [List.filterMap_cons_none caller]
          exact ih.cons _
      | some entry =>
          rw [List.filterMap_cons_some caller, List.map_cons, List.map_cons]
          have same : entry.1 = flight.2 := by
            unfold Caller.done at caller
            split at caller
            · obtain rfl := Option.some.inj caller
              rfl
            · cases caller
          rw [same]
          exact ih.cons_cons _

/-- At the start nobody is in flight. -/
theorem follows_start {programs : ι → Program κ (κ × υ) α}
    {result : ι → α → Prop} (renders : ∀ j,
      (programs j).Renders allowed (Answer.Possible exec shows good) (result j) (threads j)) :
    Follows exec shows good allowed owner (fun j => ⟨programs j, []⟩) (fun _ : ω => .idle)
      threads where
  nodup _ := List.nodup_nil
  owned _ _ member := absurd member List.not_mem_nil
  known _ busy := absurd rfl busy
  waits _ := List.nil_subperm
  ahead j := (renders j).ahead

namespace Follows

variable [DecidableEq ι] [DecidableEq ω] {s : σ} {i : ω} {q : κ} {r : ρ}

omit [DecidableEq ι] [DecidableEq ω] in
/-- A worker is in flight for its owner only. -/
theorem not_mem_of_other (follows : Follows exec shows good allowed owner clients callers threads)
    {j : ι} (other : j ≠ owner i) : i ∉ (clients j).flying.map Prod.fst := by
  intro member
  obtain ⟨flight, here, rfl⟩ := List.mem_map.mp member
  exact other (follows.owned j flight here).1.symm

omit [DecidableEq ι] [DecidableEq ω] in
/-- A worker is in flight once. -/
theorem not_mem_of_split (follows : Follows exec shows good allowed owner clients callers threads)
    {before later : List (ω × κ)}
    (mine : (clients (owner i)).flying = before ++ (i, q) :: later) :
    i ∉ before.map Prod.fst ∧ i ∉ later.map Prod.fst := by
  have nodup := follows.nodup (owner i)
  rw [mine, List.map_append, List.map_cons, List.nodup_append] at nodup
  obtain ⟨-, later', apart⟩ := nodup
  exact ⟨fun member => apart i member i (by simp) rfl, (List.nodup_cons.mp later').1⟩

/-- **A worker is given a request** that its program waits for.  The store does
nothing. -/
theorem invoke (follows : Follows exec shows good allowed owner clients callers threads)
    (free : callers i = .idle)
    (waits : (q :: (clients (owner i)).flying.map Prod.snd).Subperm
      (clients (owner i)).program.waiting) :
    Follows exec shows good allowed owner
      (Function.update clients (owner i)
        ⟨(clients (owner i)).program, (i, q) :: (clients (owner i)).flying⟩)
      (Function.update callers i (.called q)) threads := by
  -- A worker that is free carries nobody's request.
  have unknown : ∀ j, i ∉ (clients j).flying.map Prod.fst := by
    intro j member
    obtain ⟨flight, here, rfl⟩ := List.mem_map.mp member
    have serves := (follows.owned j flight here).2
    rw [free] at serves
    exact serves
  have others : ∀ j, ∀ flight ∈ (clients j).flying, owner flight.1 = j ∧
      (Function.update callers i (.called q) flight.1).Serves exec good flight.2 := by
    intro j flight here
    have apart : flight.1 ≠ i := fun same => unknown j (same ▸ List.mem_map_of_mem here)
    rw [Function.update_of_ne apart]
    exact follows.owned j flight here
  -- Only the client of this worker has changed: each field of the invariant is split on
  -- whether it is about that client.
  constructor
  · intro j
    by_cases mine : j = owner i
    · subst mine
      rw [Function.update_self]
      exact List.nodup_cons.mpr ⟨unknown _, follows.nodup _⟩
    · rw [Function.update_of_ne mine]
      exact follows.nodup j
  · intro j flight here
    by_cases mine : j = owner i
    · subst mine
      rw [Function.update_self] at here
      rcases List.mem_cons.mp here with rfl | old
      · exact ⟨rfl, by simp [Caller.Serves]⟩
      · exact others _ flight old
    · rw [Function.update_of_ne mine] at here
      exact others j flight here
  · intro k busy
    by_cases acted : k = i
    · subst acted
      exact ⟨q, by simp⟩
    · rw [Function.update_of_ne acted] at busy
      obtain ⟨q', here⟩ := follows.known k busy
      refine ⟨q', ?_⟩
      by_cases mine : owner k = owner i
      · rw [mine, Function.update_self]
        exact List.mem_cons_of_mem _ (mine ▸ here)
      · rwa [Function.update_of_ne mine]
  · intro j
    by_cases mine : j = owner i
    · subst mine
      rwa [Function.update_self]
    · rw [Function.update_of_ne mine]
      exact follows.waits j
  · intro j
    by_cases mine : j = owner i
    · subst mine
      rw [Function.update_self, List.filterMap_cons_none (by simp [Caller.done]),
        Caller.done_congr (unknown _)]
      exact follows.ahead _
    · rw [Function.update_of_ne mine, Caller.done_congr (unknown _)]
      exact follows.ahead j

/-- **A request is executed**: the program of requests makes the step, and the
worker has not been told yet. -/
theorem execute (follows : Follows exec shows good allowed owner clients callers threads)
    (holds : good s) (called : callers i = .called q) :
    ∃ after, Program.Step (threads (owner i)) q (exec q s).2 after ∧ allowed q ∧
      Follows exec shows good allowed owner clients
        (Function.update callers i (.answered (exec q s).2))
        (Function.update threads (owner i) after) := by
  -- A worker carries one request, so whatever list it is found in, it is `q`.
  have request : ∀ j, ∀ flight ∈ (clients j).flying, flight.1 = i → flight.2 = q := by
    rintro j flight here rfl
    have serves := (follows.owned j flight here).2
    rw [called] at serves
    exact serves.symm
  obtain ⟨q', here⟩ := follows.known i (by rw [called]; simp)
  obtain rfl : q' = q := request _ _ here rfl
  obtain ⟨before, later, mine⟩ := List.append_of_mem here
  obtain ⟨unbefore, unlater⟩ := follows.not_mem_of_split mine
  have ahead := follows.ahead (owner i)
  have waits := follows.waits (owner i)
  rw [mine, List.filterMap_append,
    List.filterMap_cons_none (by simp [Caller.done, called])] at ahead
  rw [mine, List.map_append, List.map_cons] at waits
  -- The program of requests has been given the replies of the workers that have answered,
  -- so `q` is among those it waits for.
  have waits' : (q' :: (before.filterMap (Caller.done callers) ++
      later.filterMap (Caller.done callers)).map Prod.fst).Subperm
        (clients (owner i)).program.waiting := by
    rw [List.map_append]
    refine (List.Sublist.subperm ?_).trans (List.perm_middle.symm.subperm.trans waits)
    exact ((Caller.done_sublist callers before).append
      (Caller.done_sublist callers later)).cons_cons _
  obtain ⟨after, step, ahead'⟩ := ahead.execute waits' (exec q' s).2
  refine ⟨after, step, ahead.allowed_of_waiting (waits'.subset (by simp)), follows.nodup, ?_, ?_,
    follows.waits, ?_⟩
  · intro j flight member
    refine ⟨(follows.owned j flight member).1, ?_⟩
    by_cases acted : flight.1 = i
    · rw [acted, Function.update_self, request j flight member acted]
      exact ⟨s, holds, rfl⟩
    · rw [Function.update_of_ne acted]
      exact (follows.owned j flight member).2
  · intro k busy
    by_cases acted : k = i
    · subst acted
      exact ⟨q', here⟩
    · rw [Function.update_of_ne acted] at busy
      exact follows.known k busy
  · intro j
    by_cases other : j = owner i
    · subst other
      rw [Function.update_self, mine, List.filterMap_append, Caller.done_congr unbefore,
        List.filterMap_cons_some (b := (q', (exec q' s).2)) (by simp [Caller.done]),
        Caller.done_congr unlater]
      exact ahead'.perm List.perm_middle.symm
    · rw [Function.update_of_ne other, Caller.done_congr (follows.not_mem_of_other other)]
      exact follows.ahead j

/-- **A worker is told its answer**, and its program goes on if all goroutines have
come back. -/
theorem respond (follows : Follows exec shows good allowed owner clients callers threads)
    {view : υ} (answered : callers i = .answered r) (shown : shows r view)
    {before later : List (ω × κ)}
    (mine : (clients (owner i)).flying = before ++ (i, q) :: later)
    {after : Program κ (κ × υ) α}
    (given : Program.Step (clients (owner i)).program q (q, view) after) :
    Follows exec shows good allowed owner
      (Function.update clients (owner i) ⟨after, before ++ later⟩)
      (Function.update callers i .idle) threads := by
  obtain ⟨unbefore, unlater⟩ := follows.not_mem_of_split mine
  have ahead := follows.ahead (owner i)
  have waits := follows.waits (owner i)
  have replies : Replies exec good q r := by
    have serves := (follows.owned (owner i) (i, q) (by simp [mine])).2
    rwa [answered] at serves
  rw [mine, List.filterMap_append, List.filterMap_cons_some
    (show Caller.done callers (i, q) = some (q, r) by simp [Caller.done, answered])] at ahead
  rw [mine, List.map_append, List.map_cons] at waits
  -- The flight is taken out of the list of its client, and the worker is free again.
  constructor
  · intro j
    by_cases own : j = owner i
    · subst own
      have nodup := follows.nodup (owner i)
      rw [mine] at nodup
      rw [Function.update_self]
      exact nodup.sublist ((List.sublist_cons_self _ _).append_left _ |>.map _)
    · rw [Function.update_of_ne own]
      exact follows.nodup j
  · intro j flight here
    by_cases own : j = owner i
    · subst own
      rw [Function.update_self] at here
      have apart : flight.1 ≠ i := by
        rintro rfl
        rcases List.mem_append.mp here with here | here
        · exact unbefore (List.mem_map_of_mem here)
        · exact unlater (List.mem_map_of_mem here)
      rw [Function.update_of_ne apart]
      refine follows.owned _ flight ?_
      rw [mine]
      exact ((List.sublist_cons_self _ _).append_left _).subset here
    · rw [Function.update_of_ne own] at here
      have apart : flight.1 ≠ i := by
        rintro rfl
        exact follows.not_mem_of_other own (List.mem_map_of_mem here)
      rw [Function.update_of_ne apart]
      exact follows.owned j flight here
  · intro k busy
    by_cases acted : k = i
    · subst acted
      simp at busy
    · rw [Function.update_of_ne acted] at busy
      obtain ⟨q', here⟩ := follows.known k busy
      refine ⟨q', ?_⟩
      by_cases own : owner k = owner i
      · rw [own, mine] at here
        rw [own, Function.update_self]
        simpa [acted] using here
      · rwa [Function.update_of_ne own]
  · intro j
    by_cases own : j = owner i
    · subst own
      rw [Function.update_self, List.map_append]
      exact given.subperm_waiting (List.perm_middle.symm.subperm.trans waits)
    · rw [Function.update_of_ne own]
      exact follows.waits j
  · intro j
    by_cases own : j = owner i
    -- The program of requests has made this step already: here the client draws level
    -- with it in one more reply.
    · subst own
      rw [Function.update_self, List.filterMap_append, Caller.done_congr unbefore,
        Caller.done_congr unlater]
      exact (ahead.perm List.perm_middle).respond ⟨replies, shown⟩ given
    · rw [Function.update_of_ne own, Caller.done_congr (follows.not_mem_of_other own)]
      exact follows.ahead j

/-- What a run of the service and of its clients keeps.  An invocation and an answer
are steps of the clients, an execution is one of the other programs. -/
theorem run (preserved : ∀ q s, allowed q → good s → good (exec q s).1)
    {a a' : Atomic ω κ ρ σ}
    (follows : Follows exec shows good allowed owner clients a.callers threads)
    (holds : good a.store) {events : List (Event ω κ υ)}
    (served : Trace (Atomic.Step exec shows) a events a')
    (run : Clients.Run owner clients events clients') :
    ∃ (labels : List (ι × κ × ρ)) (final : ι → Program κ ρ α),
      Pool.Run exec ⟨a.store, threads⟩ labels ⟨a'.store, final⟩ ∧
        Follows exec shows good allowed owner clients' a'.callers final := by
  induction served generalizing clients threads with
  | nil a =>
      cases run
      exact ⟨[], threads, .nil _, follows⟩
  | cons first others ih =>
      cases first with
      | invoke i q free =>
          cases run with
          | cons event rest =>
              cases event with
              | invoke _ _ waits => exact ih (follows.invoke free waits) holds rest
      | execute i q called =>
          obtain ⟨after, step, asked, follows'⟩ := follows.execute holds called
          obtain ⟨labels, final, performed, kept⟩ := ih follows' (preserved q _ asked holds) run
          exact ⟨_, final, .cons (.mk step) performed, kept⟩
      | respond i r view answered shown =>
          cases run with
          | cons event rest =>
              cases event with
              | respond _ q _ before later mine given =>
                  exact ih (follows.respond answered shown mine given) holds rest

end Follows

/-- **Replacement.**  The clients of an atomic service are given what the other programs are given
over the store: when a client has returned or is aborted, so is the other program, in a run over
the store that ends in the same state. -/
theorem Clients.exists_run [DecidableEq ι] [DecidableEq ω]
    {programs : ι → Program κ (κ × υ) α} {s : σ}
    (preserved : ∀ q s, allowed q → good s → good (exec q s).1) (holds : good s)
    {result : ι → α → Prop} (renders : ∀ j,
      (programs j).Renders allowed (Answer.Possible exec shows good) (result j) (threads j))
    {events : List (Event ω κ υ)} {a : Atomic ω κ ρ σ}
    (served : Trace (Atomic.Step exec shows) (Atomic.start s) events a)
    (run : Clients.Run owner (fun j => ⟨programs j, []⟩) events clients) :
    ∃ (labels : List (ι × κ × ρ)) (final : ι → Program κ ρ α),
      Pool.Run exec ⟨s, threads⟩ labels ⟨a.store, final⟩ ∧
      ∀ j, (∀ value, (clients j).program = .ret value → final j = .ret value) ∧
        ((clients j).program = .panic → final j = .panic) := by
  have follows : Follows exec shows good allowed owner (fun j => ⟨programs j, []⟩)
      (Atomic.start s : Atomic ω κ ρ σ).callers threads := follows_start renders
  obtain ⟨labels, final, performed, follows'⟩ := follows.run preserved holds served run
  refine ⟨labels, final, performed, fun j => ⟨fun value returned => ?_, fun aborted => ?_⟩⟩
  · have ahead := follows'.ahead j
    rw [returned] at ahead
    exact ahead.2
  · have ahead := follows'.ahead j
    rw [aborted] at ahead
    exact ahead.2

end Replacement

end Concurrency
