import Pdwfs.Redisfs.Conversations
import Pdwfs.Redisfs.Exchanges

/-!
# Round trips are atomic

Whatever goroutines of whatever clients have in flight, and however the bytes
arrive: what they are given is what `serve` gives, which executes each request in
one step.

* `At` — what is on the connection of a goroutine, stage by stage.
* `Related` — the system, and the service in which each request is one step.
* `Related.step` — the simulation: a request takes effect when its instance answers
  the command that executes it.
* `Net.run_linearizable`, `Net.run_executed_once` — whole runs.

## What the other modules take for granted

The calls of the file system are programs that issue requests, and a request is one
step of the store.  This is an abstraction, and here it is shown to be right.  The
service `Atomic` has the requests that are called and not yet executed, those that
are executed and not yet answered, and one store.  Each step of the network is no
step of the service, or one step: a request is called, is executed, or is answered.

## The invariant

`Related` has to say who uses which connection, since two goroutines on one
connection would read each other's replies.  That there is only one is a property of
pools (`Exclusive`).  A connection that nobody uses is as good as new, or it will
not be handed out again; so a goroutine starts its conversation on an empty
connection.  For a goroutine that has one, `At` says what is on it.

A step concerns one goroutine and its connection.  The frame is the same for all of
them: the others keep their connections, and nothing is said about them that depends
on this one (`Related.own`).

## Runs

The runs at the end of the module have two goroutines.  One of them writes and is in
the middle of reading its replies, with the first of them split, while the other one
reads on a connection of its own and is answered (`exists_run_overlap`).
-/

namespace Pdwfs

open Concurrency

variable {ρ ω : Type} (sha1 : Redigo.Bytes → Redigo.Bytes)

/-- What a stage says about the connection of the goroutine and about its request.
Between the stages in which it uses a connection the request is executed, and the
caller in the service changes. -/
def At (r : ρ) (links : Line ρ → Link) (caller : Caller Request ConnReply) : Stage → Prop
  | .idle => caller = .idle
  | .connecting q => q.Sendable sha1 ∧ caller = .called q
  | .sending q c todo retried =>
      let link := links ⟨⟨r, q.addr⟩, c⟩
      q.Sendable sha1 ∧ todo ≠ [] ∧ ∃ waiting unread,
        Conversation sha1 q retried link todo [] caller waiting [] unread ∧
        link.pending = waiting.length + unread.length
  | .receiving q c left got retried =>
      let link := links ⟨⟨r, q.addr⟩, c⟩
      q.Sendable sha1 ∧ ∃ waiting seen unread,
        Conversation sha1 q retried link [] got caller waiting seen unread ∧
        left = waiting.length + unread.length ∧ link.pending = 0
  | .leaving q c outcome =>
      let link := links ⟨⟨r, q.addr⟩, c⟩
      (∃ reply, caller = .answered reply ∧ Delivers reply outcome) ∧ link.Quiet ∧
        link.pending = 0 ∧ link.state = {} ∧ (link.failed = false → link.Fresh)
  | .returning _ outcome => ∃ reply, caller = .answered reply ∧ Delivers reply outcome

variable {sha1} in
/-- Only the connection of the goroutine matters. -/
theorem At.congr {r : ρ} {links links' : Line ρ → Link} {caller : Caller Request ConnReply}
    {stage : Stage} (here : At sha1 r links caller stage)
    (same : ∀ line, stage.line? r = some line → links' line = links line) :
    At sha1 r links' caller stage := by
  cases stage with
  | idle => exact here
  | connecting q => exact here
  | returning q outcome => exact here
  | sending q c todo retried =>
      have link := same _ rfl
      simpa only [At, link] using here
  | receiving q c left got retried =>
      have link := same _ rfl
      simpa only [At, link] using here
  | leaving q c outcome =>
      have link := same _ rfl
      simpa only [At, link] using here

variable (ring : ω → ρ)

/-- **The system and the service.**  The instances hold what the service holds; a
goroutine uses a connection that it has taken from the pool; and what is on the
connections is what the stages of their goroutines say, or nothing. -/
structure Related (n : Net ρ ω) (a : Atomic ω Request ConnReply Cluster) : Prop where
  holds : ∀ addr, Holds sha1 (a.store addr) (n.instances addr)
  exclusive : ∀ client, (n.pools client).Exclusive
  held : ∀ i line, (n.stages i).line? (ring i) = some line →
    (n.pools line.client).phase i = .holding line.conn
  quiet : ∀ line, (∀ i, (n.stages i).line? (ring i) ≠ some line) → (n.links line).Quiet
  fresh : ∀ line, (∀ i, (n.stages i).line? (ring i) ≠ some line) →
    ¬(n.pools line.client).Spoiled line.conn → (n.links line).Fresh
  workers : ∀ i, At sha1 (ring i) n.links (a.callers i) (n.stages i)

/-- At the beginning nothing is on any connection. -/
theorem related_start {cluster : Cluster} {instances : Addr → Redigo.Instance}
    (holds : ∀ addr, Holds sha1 (cluster addr) (instances addr)) :
    Related sha1 ring (Net.start instances : Net ρ ω) (Atomic.start cluster) where
  holds := holds
  exclusive := fun _ => Redigo.Pool.exclusive_new _
  held := fun _ _ used => nomatch used
  quiet := fun _ _ => ⟨rfl, rfl, rfl⟩
  fresh := fun _ _ _ => rfl
  workers := fun _ => rfl

namespace Related

variable {sha1 ring} {n : Net ρ ω} {a : Atomic ω Request ConnReply Cluster}

/-- Two goroutines do not use one connection. -/
theorem owner_unique (related : Related sha1 ring n a) {i j : ω} {line : Line ρ}
    (held : (n.pools line.client).phase i = .holding line.conn)
    (used : (n.stages j).line? (ring j) = some line) : j = i := by
  have other := related.held j line used
  exact (related.exclusive line.client).once j i line.conn (by rw [other]; rfl)
    (by rw [held]; rfl)

variable [DecidableEq ρ] [DecidableEq ω]

/-- **A step on the connection of a goroutine.**  It concerns nobody else. -/
theorem own (related : Related sha1 ring n a) {i : ω} {line : Line ρ}
    (held : (n.pools line.client).phase i = .holding line.conn) {stage : Stage}
    (before : ∀ other, (n.stages i).line? (ring i) = some other → other = line)
    (after : stage.line? (ring i) = some line) {link : Link} {caller : Caller Request ConnReply}
    (here : At sha1 (ring i) (Function.update n.links line link) caller stage)
    {instances : Addr → Redigo.Instance} {store : Cluster}
    (holds : ∀ addr, Holds sha1 (store addr) (instances addr)) :
    Related sha1 ring
      { n with
        instances := instances
        stages := Function.update n.stages i stage
        links := Function.update n.links line link }
      ⟨store, Function.update a.callers i caller⟩ := by
  have unused : ∀ other, (∀ j, (Function.update n.stages i stage j).line? (ring j) ≠ some other) →
      other ≠ line ∧ ∀ j, (n.stages j).line? (ring j) ≠ some other := by
    intro other nobody
    have notMine : other ≠ line := by
      rintro rfl
      exact nobody i (by simpa using after)
    refine ⟨notMine, fun j used => ?_⟩
    by_cases same : j = i
    · subst same
      exact notMine (before other used)
    · exact nobody j (by simpa [same] using used)
  constructor
  · exact holds
  · exact related.exclusive
  · intro j other used
    by_cases same : j = i
    · subst same
      obtain rfl : line = other := by simpa [after] using used
      exact held
    · exact related.held j other (by simpa [same] using used)
  · intro other nobody
    obtain ⟨notMine, nobody'⟩ := unused other nobody
    simpa [notMine] using related.quiet other nobody'
  · intro other nobody unspoiled
    obtain ⟨notMine, nobody'⟩ := unused other nobody
    simpa [notMine] using related.fresh other nobody' unspoiled
  · intro j
    by_cases same : j = i
    · subst same
      simpa using here
    · simp only [Function.update_of_ne same]
      refine (related.workers j).congr fun other used => Function.update_of_ne ?_ _ _
      rintro rfl
      exact same (related.owner_unique held used)

/-- The same, if the service does nothing. -/
theorem silent (related : Related sha1 ring n a) {i : ω} {line : Line ρ}
    (held : (n.pools line.client).phase i = .holding line.conn) {stage : Stage}
    (before : ∀ other, (n.stages i).line? (ring i) = some other → other = line)
    (after : stage.line? (ring i) = some line) {link : Link}
    (here : At sha1 (ring i) (Function.update n.links line link) (a.callers i) stage) :
    Related sha1 ring ((n.go i stage).relink line link) a := by
  have own := related.own held before after here related.holds
  rwa [Function.update_eq_self] at own

omit [DecidableEq ρ] [DecidableEq ω] in
/-- The connection that a goroutine uses. -/
theorem line_eq {i : ω} {stage : Stage} (here : n.stages i = stage) {line : Line ρ}
    (mine : stage.line? (ring i) = some line) (other : Line ρ)
    (used : (n.stages i).line? (ring i) = some other) : other = line := by
  rw [here, mine] at used
  exact (Option.some.inj used).symm

omit [DecidableEq ρ] [DecidableEq ω] in
theorem held_of_stage (related : Related sha1 ring n a) {i : ω} {stage : Stage}
    (here : n.stages i = stage) {line : Line ρ} (mine : stage.line? (ring i) = some line) :
    (n.pools line.client).phase i = .holding line.conn :=
  related.held i line (by rw [here, mine])

omit [DecidableEq ρ] [DecidableEq ω] in
/-- What the stage of a goroutine says. -/
theorem at_stage (related : Related sha1 ring n a) {i : ω} {stage : Stage}
    (here : n.stages i = stage) : At sha1 (ring i) n.links (a.callers i) stage :=
  here ▸ related.workers i

/-! ## The steps of a goroutine -/

omit [DecidableEq ρ] in
/-- A goroutine without a connection goes on to a stage without one. -/
theorem away (related : Related sha1 ring n a) {i : ω} {stage stage' : Stage}
    (here : n.stages i = stage) (before : stage.line? (ring i) = none)
    (after : stage'.line? (ring i) = none) {caller : Caller Request ConnReply}
    (there : At sha1 (ring i) n.links caller stage') :
    Related sha1 ring (n.go i stage') ⟨a.store, Function.update a.callers i caller⟩ := by
  have used (j : ω) (line : Line ρ) :
      ((n.go i stage').stages j).line? (ring j) = some line ↔
        (n.stages j).line? (ring j) = some line := by
    by_cases same : j = i
    · subst same
      simp [Net.go, after, here, before]
    · simp [Net.go, same]
  constructor
  · exact related.holds
  · exact related.exclusive
  · exact fun j line mine => related.held j line ((used j line).mp mine)
  · exact fun line nobody => related.quiet line fun j mine => nobody j ((used j line).mpr mine)
  · exact fun line nobody => related.fresh line fun j mine => nobody j ((used j line).mpr mine)
  · intro j
    by_cases same : j = i
    · subst same
      simpa [Net.go] using there
    · simpa [Net.go, same] using related.workers j

/-- `Get` has returned a connection that nobody uses. -/
theorem acquire (related : Related sha1 ring n a) {i : ω} {q : Request} {c : Redigo.ConnId}
    (here : n.stages i = .connecting q)
    (held : (n.pools ⟨ring i, q.addr⟩).phase i = .holding c) :
    Related sha1 ring ((n.go i (.sending q c (callsOf sha1 q.body) false)).relink
      ⟨⟨ring i, q.addr⟩, c⟩ ((n.links ⟨⟨ring i, q.addr⟩, c⟩).acquire q.dst)) a := by
  obtain ⟨sendable, called⟩ := related.at_stage here
  have nobody : ∀ j, (n.stages j).line? (ring j) ≠ some ⟨⟨ring i, q.addr⟩, c⟩ := by
    intro j used
    obtain rfl : j = i := related.owner_unique held used
    rw [here] at used
    cases used
  have unspoiled : ¬(n.pools ⟨ring i, q.addr⟩).Spoiled c := by
    have exclusive := related.exclusive ⟨ring i, q.addr⟩
    rintro (closed | ⟨j, there⟩)
    · exact (exclusive.held i c (by rw [held]; rfl)).2.1 closed
    · have same : j = i := exclusive.once j i c
        (by rcases there with there | there <;> rw [there] <;> rfl)
        (by rw [held]; rfl)
      subst same
      rcases there with there | there <;> rw [held] at there <;> cases there
  have fresh := related.fresh ⟨⟨ring i, q.addr⟩, c⟩ nobody unspoiled
  refine related.silent held (fun other used => by rw [here] at used; cases used) rfl ?_
  simp only [At, Function.update_self, called]
  refine ⟨sendable, callsOf_ne_nil sha1 q.body, [], [], .acquire fresh sendable, ?_⟩
  rw [Link.Fresh] at fresh
  rw [fresh]
  rfl

/-- A command is written into the buffer of the connection; nothing has happened
yet. -/
theorem send (related : Related sha1 ring n a) {i : ω} {q : Request} {c : Redigo.ConnId}
    {call next : Call} {rest : List Call} {retried : Bool}
    (here : n.stages i = .sending q c (call :: next :: rest) retried) :
    Related sha1 ring ((n.go i (.sending q c (next :: rest) retried)).relink
      ⟨⟨ring i, q.addr⟩, c⟩ ((n.links ⟨⟨ring i, q.addr⟩, c⟩).send call)) a := by
  obtain ⟨sendable, -, waiting, unread, talk, pending⟩ := related.at_stage here
  refine related.silent (related.held_of_stage here rfl) (line_eq here rfl) rfl ?_
  simp only [At, Function.update_self]
  refine ⟨sendable, List.cons_ne_nil _ _, _, _, talk.send, ?_⟩
  simp only [Link.send, pending, List.length_append, List.length_singleton]
  omega

/-- The last command is written and the buffer is flushed: from now on there are as
many replies to come as commands have been sent. -/
theorem flush (related : Related sha1 ring n a) {i : ω} {q : Request} {c : Redigo.ConnId}
    {call : Call} {retried : Bool} (here : n.stages i = .sending q c [call] retried) :
    Related sha1 ring ((n.go i (.receiving q c ((n.links ⟨⟨ring i, q.addr⟩, c⟩).pending + 1) []
      retried)).relink ⟨⟨ring i, q.addr⟩, c⟩ ((n.links ⟨⟨ring i, q.addr⟩, c⟩).flush call)) a := by
  obtain ⟨sendable, -, waiting, unread, talk, pending⟩ := related.at_stage here
  refine related.silent (related.held_of_stage here rfl) (line_eq here rfl) rfl ?_
  simp only [At, Function.update_self]
  refine ⟨sendable, _, _, _, talk.flush, ?_, rfl⟩
  simp only [pending, List.length_append, List.length_singleton]
  omega

/-- One more reply is read, which is the next one of the instance. -/
theorem read (related : Related sha1 ring n a) {i : ω} {q : Request} {c : Redigo.ConnId}
    {left : ℕ} {got : List Redigo.Value} {retried : Bool}
    (here : n.stages i = .receiving q c (left + 1) got retried)
    {v : Redigo.Value} {rest : Redigo.Bytes}
    (arrived : Redigo.readReply (n.links ⟨⟨ring i, q.addr⟩, c⟩).dst.size?
      (n.links ⟨⟨ring i, q.addr⟩, c⟩).br = .ok (v, rest)) :
    Related sha1 ring ((n.go i (.receiving q c left (got ++ [v]) retried)).relink
      ⟨⟨ring i, q.addr⟩, c⟩ { n.links ⟨⟨ring i, q.addr⟩, c⟩ with br := rest }) a := by
  obtain ⟨sendable, waiting, seen, unread, talk, count, settled⟩ := related.at_stage here
  obtain ⟨reply, unread', rfl, talk'⟩ := talk.read arrived
  refine related.silent (related.held_of_stage here rfl) (line_eq here rfl) rfl ?_
  simp only [At, Function.update_self]
  refine ⟨sendable, _, _, _, talk', ?_, settled⟩
  simp only [List.length_cons] at count
  omega

/-- A reply cannot be read.  The request has taken effect all the same, and the
connection will not be used again. -/
theorem readError (related : Related sha1 ring n a) {i : ω} {q : Request} {c : Redigo.ConnId}
    {left : ℕ} {got : List Redigo.Value} {retried : Bool}
    (here : n.stages i = .receiving q c (left + 1) got retried) {e : Redigo.ReadError}
    (final : e.Final) (arrived : Redigo.readReply (n.links ⟨⟨ring i, q.addr⟩, c⟩).dst.size?
      (n.links ⟨⟨ring i, q.addr⟩, c⟩).br = .error e) :
    Related sha1 ring ((n.go i (.leaving q c (.error e))).relink ⟨⟨ring i, q.addr⟩, c⟩
      ({ n.links ⟨⟨ring i, q.addr⟩, c⟩ with failed := true }.release q.dst)) a := by
  obtain ⟨sendable, waiting, seen, unread, talk, count, settled⟩ := related.at_stage here
  obtain ⟨rfl, outcome⟩ := talk.readError final arrived
  have empty := talk.sent
  refine related.silent (related.held_of_stage here rfl) (line_eq here rfl) rfl ?_
  simp only [At, Function.update_self]
  refine ⟨outcome, ?_, settled, talk.state, fun opened => by simp [Link.release] at opened⟩
  simp only [List.flatMap_nil, List.append_eq_nil_iff] at empty
  exact ⟨empty.1, empty.2.1, empty.2.2⟩

omit [DecidableEq ρ] [DecidableEq ω] in
/-- In the stage in which all replies have been read. -/
theorem conversation_finished (related : Related sha1 ring n a) {i : ω} {q : Request}
    {c : Redigo.ConnId} {got : List Redigo.Value} {retried : Bool}
    (here : n.stages i = .receiving q c 0 got retried) :
    q.Sendable sha1 ∧ (n.links ⟨⟨ring i, q.addr⟩, c⟩).pending = 0 ∧ ∃ seen,
      Conversation sha1 q retried (n.links ⟨⟨ring i, q.addr⟩, c⟩) [] got (a.callers i) [] seen
        [] := by
  obtain ⟨sendable, waiting, seen, unread, talk, count, settled⟩ := related.at_stage here
  obtain ⟨rfl, rfl⟩ : waiting = [] ∧ unread = [] :=
    ⟨List.length_eq_zero_iff.mp (by omega), List.length_eq_zero_iff.mp (by omega)⟩
  exact ⟨sendable, settled, seen, talk⟩

/-- The script is about to be sent once more.  Nothing has happened yet, since the
instance did not know it. -/
theorem retry (related : Related sha1 ring n a) {i : ω} {q : Request} {c : Redigo.ConnId}
    {got : List Redigo.Value} {retried : Bool}
    (here : n.stages i = .receiving q c 0 got retried) {call : Call}
    (again : retryFor q.body retried (doResult got) = some call) :
    Related sha1 ring (n.go i (.sending q c [call] true)) a := by
  obtain ⟨sendable, settled, seen, talk⟩ := related.conversation_finished here
  rcases talk.finished with ⟨call', first, script, again', called⟩ | ⟨last, -⟩
  · obtain rfl : call' = call := Option.some.inj (again'.symm.trans again)
    have resent : At sha1 (ring i) (Function.update n.links ⟨⟨ring i, q.addr⟩, c⟩
        (n.links ⟨⟨ring i, q.addr⟩, c⟩)) (a.callers i) (.sending q c [call'] true) := by
      simp only [At, Function.update_self, called]
      exact ⟨sendable, List.cons_ne_nil _ _, [], [], talk.again script sendable, settled⟩
    have unchanged := related.silent (related.held_of_stage here rfl) (line_eq here rfl) rfl resent
    rwa [Net.relink, Net.go, Function.update_eq_self] at unchanged
  · rw [last] at again
    cases again

/-- All replies have been read, and the connection is as good as new. -/
theorem finish (related : Related sha1 ring n a) {i : ω} {q : Request} {c : Redigo.ConnId}
    {got : List Redigo.Value} {retried : Bool}
    (here : n.stages i = .receiving q c 0 got retried)
    (last : retryFor q.body retried (doResult got) = none) :
    Related sha1 ring ((n.go i (.leaving q c (.ok (doResult got)))).relink ⟨⟨ring i, q.addr⟩, c⟩
      ((n.links ⟨⟨ring i, q.addr⟩, c⟩).release q.dst)) a := by
  obtain ⟨sendable, settled, seen, talk⟩ := related.conversation_finished here
  rcases talk.finished with ⟨call, -, -, again, -⟩ | ⟨-, outcome⟩
  · rw [last] at again
    cases again
  · have fresh := talk.fresh_release settled
    refine related.silent (related.held_of_stage here rfl) (line_eq here rfl) rfl ?_
    simp only [At, Function.update_self]
    exact ⟨outcome, fresh.quiet, settled, talk.state, fun _ => fresh⟩

/-- The connection is given back. -/
theorem close (related : Related sha1 ring n a) {i : ω} {q : Request} {c : Redigo.ConnId}
    {outcome : Outcome} (here : n.stages i = .leaving q c outcome) :
    Related sha1 ring ((n.go i (.returning q outcome)).repool ⟨ring i, q.addr⟩
      ((n.pools ⟨ring i, q.addr⟩).move i
        (.putting c (n.links ⟨⟨ring i, q.addr⟩, c⟩).failed))) a := by
  obtain ⟨outcome', quiet, -, -, fresh⟩ := related.at_stage here
  have held : (n.pools ⟨ring i, q.addr⟩).phase i = .holding c := related.held_of_stage here rfl
  have put : Redigo.Pool.Step clientPool (n.pools ⟨ring i, q.addr⟩) _ :=
    .put i held (n.links ⟨⟨ring i, q.addr⟩, c⟩).failed
  -- Who uses a connection now has used it before, and is not `i`.
  have used (j : ω) (line : Line ρ) :
      (Function.update n.stages i (.returning q outcome) j).line? (ring j) = some line ↔
        j ≠ i ∧ (n.stages j).line? (ring j) = some line := by
    by_cases same : j = i
    · subst same
      simp [Stage.line?]
    · simp [same]
  have unused (line : Line ρ) (nobody : ∀ j, (Function.update n.stages i (.returning q outcome)
      j).line? (ring j) ≠ some line) (other : line ≠ ⟨⟨ring i, q.addr⟩, c⟩) :
      ∀ j, (n.stages j).line? (ring j) ≠ some line := by
    intro j mine
    by_cases same : j = i
    · subst same
      exact other (line_eq here rfl line mine)
    · exact nobody j ((used j line).mpr ⟨same, mine⟩)
  constructor
  · exact related.holds
  · intro client
    by_cases same : client = ⟨ring i, q.addr⟩
    · subst same
      simpa [Net.repool, Net.go] using (related.exclusive _).step put
    · simpa [Net.repool, Net.go, same] using related.exclusive client
  -- The others still hold the connections they use: the pool has only moved `i`.
  · intro j line mine
    obtain ⟨other, before⟩ := (used j line).mp mine
    have old := related.held j line before
    by_cases same : line.client = ⟨ring i, q.addr⟩
    · rw [same] at old
      simpa [Net.repool, Net.go, same, Redigo.Pool.move_phase, other] using old
    · simpa [Net.repool, Net.go, same] using old
  -- The connection that is given back is quiet, and so are those that nobody used before.
  · intro line nobody
    by_cases same : line = ⟨⟨ring i, q.addr⟩, c⟩
    · subst same
      exact quiet
    · exact related.quiet line (unused line nobody same)
  -- It is fresh as well, unless it has failed, and then the pool closes it.
  · intro line nobody unspoiled
    by_cases same : line = ⟨⟨ring i, q.addr⟩, c⟩
    · subst same
      apply fresh
      by_contra failed
      refine unspoiled (.inr ⟨i, .inl ?_⟩)
      simpa [Net.repool, Net.go, Redigo.Pool.move_phase] using failed
    · refine related.fresh line (unused line nobody same) fun spoiled => unspoiled ?_
      by_cases mine : line.client = ⟨ring i, q.addr⟩
      · rw [mine] at spoiled
        simpa [Net.repool, Net.go, mine] using spoiled.step put
      · simpa [Net.repool, Net.go, mine] using spoiled
  · intro j
    by_cases same : j = i
    · subst same
      simpa [Net.repool, Net.go, At] using outcome'
    · simpa [Net.repool, Net.go, same] using related.workers j

/-! ## The steps of the others -/

/-- Goroutines in the pool. -/
theorem pool (related : Related sha1 ring n a) {client : ClientId ρ} {p : Redigo.Pool ω}
    (step : Redigo.Pool.Step clientPool (n.pools client) p)
    (who : ∀ i, p.phase i ≠ (n.pools client).phase i → n.InPool ring i client) :
    Related sha1 ring (n.repool client p) a := by
  constructor
  · exact related.holds
  · intro other
    by_cases same : other = client
    · subst same
      simpa [Net.repool] using (related.exclusive other).step step
    · simpa [Net.repool, same] using related.exclusive other
  · intro i line used
    have old := related.held i line used
    by_cases same : line.client = client
    · subst same
      have still : p.phase i = (n.pools line.client).phase i := by
        by_contra moved
        have stage : (n.stages i).line? (ring i) = some line := used
        rcases who i moved with ⟨q, here, -⟩ | ⟨q, outcome, here, -⟩ <;>
          rw [here] at stage <;> cases stage
      simpa [Net.repool, still] using old
    · simpa [Net.repool, same] using old
  · exact related.quiet
  · intro line nobody unspoiled
    refine related.fresh line nobody fun spoiled => unspoiled ?_
    by_cases same : line.client = client
    · subst same
      simpa [Net.repool] using spoiled.step step
    · simpa [Net.repool, same] using spoiled
  · exact related.workers

end Related

variable {sha1} in
/-- Bytes move on the connection of a goroutine. -/
theorem At.carry [DecidableEq ρ] {r : ρ} {links : Line ρ → Link}
    {caller : Caller Request ConnReply} {stage : Stage} (here : At sha1 r links caller stage)
    {line : Line ρ} (mine : stage.line? r = some line) {link : Link}
    (carried : (links line).Carry link) :
    At sha1 r (Function.update links line link) caller stage := by
  have pending : link.pending = (links line).pending := by cases carried <;> rfl
  cases stage with
  | idle => cases mine
  | connecting q => cases mine
  | returning q outcome => cases mine
  | sending q c todo retried =>
      obtain rfl := Option.some.inj mine
      obtain ⟨sendable, some, waiting, unread, talk, count⟩ := here
      simp only [At, Function.update_self, pending]
      exact ⟨sendable, some, waiting, unread, talk.carry carried, count⟩
  | receiving q c left got retried =>
      obtain rfl := Option.some.inj mine
      obtain ⟨sendable, waiting, seen, unread, talk, count, settled⟩ := here
      simp only [At, Function.update_self, pending]
      exact ⟨sendable, waiting, seen, unread, talk.carry carried, count, settled⟩
  | leaving q c outcome =>
      obtain rfl := Option.some.inj mine
      obtain ⟨delivered, quiet, settled, state, fresh⟩ := here
      have state' : link.state = (links ⟨⟨r, q.addr⟩, c⟩).state := by cases carried <;> rfl
      have failed : link.failed = (links ⟨⟨r, q.addr⟩, c⟩).failed := by cases carried <;> rfl
      simp only [At, Function.update_self, pending, state', failed]
      refine ⟨delivered, carried.quiet quiet, settled, state, fun opened => ?_⟩
      rw [carried.eq_of_fresh (fresh opened)]
      exact fresh opened

variable {sha1} in
/-- **The instance answers a command** of a goroutine. -/
theorem At.answer [DecidableEq ρ] {r : ρ} {links : Line ρ → Link}
    {caller : Caller Request ConnReply} {stage : Stage} (here : At sha1 r links caller stage)
    {line : Line ρ} (mine : stage.line? r = some line) {db : Redis.Database GoString GoString}
    {inst : Redigo.Instance} (holds : Holds sha1 db inst) {cmd : Redigo.Command}
    {rest : Redigo.Bytes} (arrived : Redigo.readCommand (links line).inbox = .ok (cmd, rest))
    (sendable : (inst.handle sha1 (links line).session cmd).2.2.Sendable) :
    ∃ caller' db', At sha1 r (Function.update links line { links line with
          inbox := rest
          session := (inst.handle sha1 (links line).session cmd).2.1
          down := (links line).down ++ (inst.handle sha1 (links line).session cmd).2.2.encode })
        caller' stage ∧
      Holds sha1 db' (inst.handle sha1 (links line).session cmd).1 ∧
      (caller' = caller ∧ db' = db ∨ ∃ q, line.client.addr = q.addr ∧ caller = .called q ∧
        caller' = .answered (q.body.exec q.dst db).2 ∧ db' = (q.body.exec q.dst db).1) := by
  cases stage with
  | idle => cases mine
  | connecting q => cases mine
  | returning q outcome => cases mine
  | sending q c todo retried =>
      obtain rfl := Option.some.inj mine
      obtain ⟨requested, some, waiting, unread, talk, count⟩ := here
      obtain ⟨waiting', rfl, caller', db', talk', holds', effect⟩ :=
        talk.answer requested holds arrived sendable
      refine ⟨caller', db', ?_, holds', effect.imp_right fun effect => ⟨q, rfl, effect⟩⟩
      simp only [At, Function.update_self]
      refine ⟨requested, some, _, _, talk', ?_⟩
      simp only [count, List.length_cons, List.length_append, List.length_nil]
      omega
  | receiving q c left got retried =>
      obtain rfl := Option.some.inj mine
      obtain ⟨requested, waiting, seen, unread, talk, count, settled⟩ := here
      obtain ⟨waiting', rfl, caller', db', talk', holds', effect⟩ :=
        talk.answer requested holds arrived sendable
      refine ⟨caller', db', ?_, holds', effect.imp_right fun effect => ⟨q, rfl, effect⟩⟩
      simp only [At, Function.update_self]
      refine ⟨requested, _, _, _, talk', ?_, settled⟩
      simp only [count, List.length_cons, List.length_append, List.length_nil]
      omega
  | leaving q c outcome =>
      obtain rfl := Option.some.inj mine
      obtain ⟨-, quiet, -⟩ := here
      rw [quiet.inbox] at arrived
      cases arrived

namespace Related

variable {sha1 ring} {n : Net ρ ω} {a : Atomic ω Request ConnReply Cluster}
  [DecidableEq ρ] [DecidableEq ω]

/-- Bytes move. -/
theorem carry (related : Related sha1 ring n a) {line : Line ρ} {link : Link}
    (carried : (n.links line).Carry link) : Related sha1 ring (n.relink line link) a := by
  by_cases used : ∃ i, (n.stages i).line? (ring i) = some line
  · obtain ⟨i, mine⟩ := used
    have own := related.silent (related.held i line mine)
      (fun other same => Option.some.inj (same.symm.trans mine)) mine
      ((related.workers i).carry mine carried)
    rwa [Net.go, Function.update_eq_self] at own
  · simp only [not_exists] at used
    constructor
    · exact related.holds
    · exact related.exclusive
    · exact related.held
    · intro other nobody
      by_cases same : other = line
      · subst same
        simpa [Net.relink] using carried.quiet (related.quiet other nobody)
      · simpa [Net.relink, same] using related.quiet other nobody
    · intro other nobody unspoiled
      have fresh := related.fresh other nobody unspoiled
      by_cases same : other = line
      · subst same
        simpa [Net.relink, carried.eq_of_fresh fresh] using fresh
      · simpa [Net.relink, same] using fresh
    · intro i
      refine (related.workers i).congr fun other mine => Function.update_of_ne ?_ _ _
      rintro rfl
      exact used i mine

/-- **An instance answers a command**: the service executes the request, or does nothing. -/
theorem answer (related : Related sha1 ring n a) {line : Line ρ} {cmd : Redigo.Command}
    {rest : Redigo.Bytes}
    (arrived : Redigo.readCommand (n.links line).inbox = .ok (cmd, rest))
    (sendable : ((n.instances line.client.addr).handle sha1 (n.links line).session
      cmd).2.2.Sendable) :
    ∃ a', Trace (Atomic.Step serve Delivers) a [] a' ∧
      Related sha1 ring (n.answer sha1 line cmd rest) a' := by
  by_cases used : ∃ i, (n.stages i).line? (ring i) = some line
  · obtain ⟨i, mine⟩ := used
    obtain ⟨caller', db', here, holds, effect⟩ := (related.workers i).answer mine
      (related.holds line.client.addr) arrived sendable
    have all : ∀ addr, Holds sha1 (Function.update a.store line.client.addr db' addr)
        (Function.update n.instances line.client.addr
          ((n.instances line.client.addr).handle sha1 (n.links line).session cmd).1 addr) := by
      intro addr
      by_cases same : addr = line.client.addr
      · subst same
        simpa using holds
      · simpa [same] using related.holds addr
    have own := related.own (related.held i line mine)
      (fun other same => Option.some.inj (same.symm.trans mine)) mine here all
    rw [Function.update_eq_self] at own
    refine ⟨_, ?_, own⟩
    rcases effect with ⟨rfl, rfl⟩ | ⟨q, addr, called, rfl, rfl⟩
    · simp only [Function.update_eq_self]
      exact .nil a
    · have executed : Trace (Atomic.Step serve Delivers) a [] _ :=
        .single (Atomic.Step.execute i q called)
      rw [addr]
      exact executed
  · simp only [not_exists] at used
    rw [(related.quiet line used).inbox] at arrived
    cases arrived

/-- **The simulation.**  Each step of the network is one step of the service, or
none. -/
theorem step (related : Related sha1 ring n a) {event : Option (Event ω Request Outcome)}
    {n' : Net ρ ω} (step : n.Step sha1 ring event n') :
    ∃ a', Trace (Atomic.Step serve Delivers) a event.toList a' ∧ Related sha1 ring n' a' := by
  cases step with
  | invoke i q free sendable =>
      have idle := related.at_stage free
      refine ⟨_, .single (.invoke i q idle), related.away free rfl rfl ⟨sendable, rfl⟩⟩
  | respond i here out =>
      obtain ⟨reply, answered, delivers⟩ := related.at_stage here
      exact ⟨_, .single (.respond i reply _ answered delivers), related.away here rfl rfl rfl⟩
  | answer line arrived sendable => exact related.answer arrived sendable
  | forget addr =>
      refine ⟨a, .nil a, { related with holds := fun other => ?_ }⟩
      by_cases same : other = addr
      · subst same
        constructor
        · simpa [Net.reinstance] using (related.holds other).renames
        · simp [Net.reinstance]
      · simpa [Net.reinstance, same] using related.holds other
  | pool client step who => exact ⟨a, .nil a, related.pool step who⟩
  | acquire i here held => exact ⟨a, .nil a, related.acquire here held⟩
  | send i here => exact ⟨a, .nil a, related.send here⟩
  | flush i here => exact ⟨a, .nil a, related.flush here⟩
  | carry line carried => exact ⟨a, .nil a, related.carry carried⟩
  | read i here arrived => exact ⟨a, .nil a, related.read here arrived⟩
  | readError i here final arrived => exact ⟨a, .nil a, related.readError here final arrived⟩
  | retry i here again => exact ⟨a, .nil a, related.retry here again⟩
  | finish i here last => exact ⟨a, .nil a, related.finish here last⟩
  | close i here settled clean => exact ⟨a, .nil a, related.close here⟩

/-- The same for a run. -/
theorem run (related : Related sha1 ring n a) {events : List (Event ω Request Outcome)}
    {n' : Net ρ ω} (run : Trace (Net.Step sha1 ring) n events n') :
    ∃ a', Trace (Atomic.Step serve Delivers) a events a' ∧ Related sha1 ring n' a' :=
  run.simulate (fun _ _ _ _ first related => related.step first) related

end Related

namespace Net

/-! ## Two goroutines -/

section Overlap

/-- A goroutine that writes, and one that reads. -/
inductive Goroutine
  | writer
  | reader
  deriving DecidableEq

/-- Write a byte of a stripe, and register the stripe. -/
def writing : Request where
  addr := ['a']
  body := .multi [.setrange ['k'] 0 [7], .sadd ['s'] ['0']]

/-- Read the byte. -/
def reading : Request where
  addr := ['a']
  body := .single (.getrange ['k'] 0 0)
  dst := { bytes := [0] }

/-- Empty instances. -/
def emptyInstances : Addr → Redigo.Instance := fun _ => ⟨fun _ => none, fun _ => none⟩

theorem holds_emptyInstances (addr : Addr) :
    Holds id ((fun _ _ => none : Cluster) addr) (emptyInstances addr) where
  renames := fun _ => rfl
  scripts := fun _ found => nomatch found

/-- The instance, once it has executed the transaction. -/
def writtenInstance : Redigo.Instance :=
  (handleAll id (emptyInstances ['a']) none ((callsOf id writing.body).map Call.strings)).1

/-- What the instance makes of the writer's commands. -/
theorem answered_writing : Answered id (emptyInstances ['a']) writing writtenInstance
    [.simple (Redigo.ascii "OK"), .simple (Redigo.ascii "QUEUED"), .simple (Redigo.ascii "QUEUED"),
      .array [.integer 1, .integer 1]]
    [.status (Redigo.ascii "OK"), .status (Redigo.ascii "QUEUED"),
      .status (Redigo.ascii "QUEUED"), .array [.int64 1, .int64 1]] where
  sendable := {
    calls := by decide +kernel
    retry := fun _ member => nomatch member
    ranged := List.forall_mem_cons.mpr ⟨(by decide : Wrapping.InRange 0), by simp [RangedCmd]⟩
    dst := rfl }
  clean := rfl
  handled := Prod.ext rfl rfl
  fits := Redigo.allSendable_iff.mp ⟨(by decide : Redigo.lf ∉ Redigo.ascii "OK"),
    (by decide : Redigo.lf ∉ Redigo.ascii "QUEUED"),
    (by decide : Redigo.lf ∉ Redigo.ascii "QUEUED"),
    ⟨by decide, (by decide : Wrapping.InRange 1), (by decide : Wrapping.InRange 1), trivial⟩,
    trivial⟩
  values := rfl
  last := rfl

/-- What it makes of the reader's, when the writer's have been executed. -/
theorem answered_reading : Answered id writtenInstance reading writtenInstance
    [.bulk [7]] [.read [7]] where
  sendable := {
    calls := by decide +kernel
    retry := fun _ member => nomatch member
    ranged := ⟨by decide, by decide⟩
    dst := trivial }
  clean := rfl
  handled := rfl
  fits := Redigo.allSendable_iff.mp ⟨(by decide : [7].length < 2 ^ 63), trivial⟩
  values := rfl
  last := rfl

/-- What is seen of the two until the reader has returned: the transaction has been executed and
some bytes of its replies have arrived when the reader begins. -/
def overlapping : List (Event Goroutine Request Outcome) :=
  [.invoke .writer writing, .invoke .reader reading, .respond .reader (.ok (.read [7], none))]

/-- What the writer is given. -/
def written : Outcome := .ok (.array [.int64 1, .int64 1], none)

/-- There is such a run.  The writer has some bytes of its replies when the reader
begins, and it reads the others when the reader has returned. -/
theorem exists_run_overlap : ∃ (c : Redigo.ConnId) (middle n : Net Unit Goroutine),
    Trace (Step id fun _ => ()) (start emptyInstances) overlapping middle ∧
    middle.stages .writer = .receiving writing c 4 [] false ∧
    Trace (Step id fun _ => ()) (start emptyInstances)
      (overlapping ++ [.respond .writer written]) n ∧ c ∈ (n.pools ⟨(), ['a']⟩).idle := by
  obtain ⟨c, middle, n, first, here, later, -, idle, -⟩ :=
    @exists_overlap Unit Goroutine _ _ id (fun _ => ()) (start emptyInstances) .writer writing
      .reader reading 48 (by decide) rfl rfl rfl rfl rfl
      (stocked_start emptyInstances ⟨(), ['a']⟩) _ _ _ _ _ _ answered_writing answered_reading 9
  exact ⟨c, middle, n, first, here, first.trans later, idle⟩

end Overlap

/-! ## Whole runs -/

section Runs

variable {sha1 ring} [DecidableEq ρ] [DecidableEq ω] {cluster : Cluster}
  {instances : Addr → Redigo.Instance}

/-- **Round trips are atomic.**  Whatever goroutines of whatever clients have in flight, on as many
connections as their pools open, and however the bytes arrive: what they have been given is what
a service gives that executes each request in one step, between its invocation and its outcome.
The instances hold what that service holds. -/
theorem run_linearizable (holds : ∀ addr, Holds sha1 (cluster addr) (instances addr))
    {events : List (Event ω Request Outcome)} {n : Net ρ ω}
    (run : Trace (Step sha1 ring) (start instances) events n) :
    ∃ a, Trace (Atomic.Step serve Delivers) (Atomic.start cluster) events a ∧
      ∀ addr, Holds sha1 (a.store addr) (n.instances addr) := by
  obtain ⟨a, trace, related⟩ := (related_start sha1 ring holds).run run
  exact ⟨a, trace, related.holds⟩

/-- The atomic service has executed the transaction before it is read. -/
theorem run_linearizable_overlap : ∃ a, Trace (Atomic.Step serve Delivers)
    (Atomic.start fun _ _ => none) (overlapping ++ [.respond .writer written]) a := by
  obtain ⟨c, middle, n, -, -, run, -⟩ := exists_run_overlap
  obtain ⟨a, trace, -⟩ := run_linearizable holds_emptyInstances run
  exact ⟨a, trace⟩

/-- **No request is lost, and none is executed twice.**  In every run there is an order in which
the requests have been executed one after the other.  In this order stands each request that a
goroutine has invoked, once and in the order of the goroutine, but possibly not the last one,
which may still be on its way; and the goroutine has been given the replies that stand there. -/
theorem run_executed_once (holds : ∀ addr, Holds sha1 (cluster addr) (instances addr))
    {events : List (Event ω Request Outcome)} {n : Net ρ ω}
    (run : Trace (Step sha1 ring) (start instances) events n) :
    ∃ (labels : List (ω × Request × ConnReply)) (final : Cluster)
      (callers : ω → Caller Request ConnReply),
      Pool.Replay serve cluster (labels.map Prod.snd) final ∧
      (∀ addr, Holds sha1 (final addr) (n.instances addr)) ∧
      ∀ i, Atomic.Accounted Delivers (Atomic.invokedBy i events) (Atomic.shownTo i events)
        (Pool.ownOf labels i) (callers i) := by
  obtain ⟨a, trace, related⟩ := (related_start sha1 ring holds).run run
  obtain ⟨labels, replayed, accounted⟩ := Atomic.exists_order trace
  exact ⟨labels, a.store, a.callers, replayed, related.holds, accounted⟩

/-- While the writer waits for its replies, both requests have their place in the order. -/
theorem run_executed_once_overlap : ∃ (labels : List (Goroutine × Request × ConnReply))
    (callers : Goroutine → Caller Request ConnReply),
    Atomic.Accounted Delivers [writing] [] (Pool.ownOf labels .writer) (callers .writer) ∧
    Atomic.Accounted Delivers [reading] [.ok (.read [7], none)] (Pool.ownOf labels .reader)
      (callers .reader) := by
  obtain ⟨c, middle, n, run, -⟩ := exists_run_overlap
  obtain ⟨labels, final, callers, -, -, accounted⟩ :=
    run_executed_once holds_emptyInstances run
  exact ⟨labels, callers, accounted .writer, accounted .reader⟩

/-- **Connections come back clean.**  In every state of a run a connection that is in the idle list
of its pool is as it has been dialed, but for the state that `Get` resets: nothing is pending or
unread, the instance is not in a transaction, and no destination buffer is set.  A goroutine that
is about to close its connection never finds it waiting for something, so that `Close` does not
have to clean up. -/
theorem run_clean (holds : ∀ addr, Holds sha1 (cluster addr) (instances addr))
    {events : List (Event ω Request Outcome)} {n : Net ρ ω}
    (run : Trace (Step sha1 ring) (start instances) events n) :
    (∀ client, ∀ c ∈ (n.pools client).idle,
      n.links ⟨client, c⟩ = { state := (n.links ⟨client, c⟩).state }) ∧
    ∀ i q c outcome, n.stages i = .leaving q c outcome →
      (n.links ⟨⟨ring i, q.addr⟩, c⟩).pending = 0 ∧
        (n.links ⟨⟨ring i, q.addr⟩, c⟩).state = {} := by
  obtain ⟨a, -, related⟩ := (related_start sha1 ring holds).run run
  refine ⟨fun client c idle => related.fresh ⟨client, c⟩ (fun i used => ?_) ?_,
    fun i q c outcome here => ?_⟩
  · have held := related.held i _ used
    exact ((related.exclusive client).held i c (by rw [held]; rfl)).2.2 idle
  · have exclusive := related.exclusive client
    rintro (closed | ⟨i, there⟩)
    · exact (exclusive.idle c idle).2 closed
    · refine (exclusive.held i c ?_).2.2 idle
      rcases there with there | there <;> rw [there] <;> rfl
  · obtain ⟨-, -, settled, state, -⟩ := related.at_stage here
    exact ⟨settled, state⟩

/-- The connection on which the replies have arrived in two pieces. -/
theorem run_clean_overlap : ∃ (c : Redigo.ConnId) (middle n : Net Unit Goroutine),
    middle.stages .writer = .receiving writing c 4 [] false ∧ c ∈ (n.pools ⟨(), ['a']⟩).idle ∧
    n.links ⟨⟨(), ['a']⟩, c⟩ = { state := (n.links ⟨⟨(), ['a']⟩, c⟩).state } := by
  obtain ⟨c, middle, n, -, here, run, idle⟩ := exists_run_overlap
  obtain ⟨clean, -⟩ := run_clean holds_emptyInstances run
  exact ⟨c, middle, n, here, idle, clean _ c idle⟩

end Runs

end Net

end Pdwfs
