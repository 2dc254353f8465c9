import Pdwfs.Redisfs.Linearizable

/-!
# Round trips come to an end

A goroutine never waits for a reply that does not come: it waits for as many replies
as it has sent commands, and each command is answered.  So from every state of a run
it can finish its request, without anything happening that is visible to the others.

* `Net.Blocked` — an instance is at a command whose reply does not fit into memory.
* `Related.advance` — the next step of a conversation.
* `Net.run_completes` — a goroutine that has a connection can finish.

## Progress instead of fairness

A goroutine that waits for bytes comes to its end only if the bytes move.  Nothing
in the model forces them to, and an assumption on schedules that does would be one
more thing to get right.  What is shown here is that the goroutine can finish from
wherever it is, by steps that nobody else sees.  This excludes that it waits for
something that will never happen, such as a reply too many, and that two goroutines
wait for each other.

## What gets less

A conversation has a next step as long as a reply is missing, and the work left on
the connection gets less with it (`Link.work`).  It is ordered lexicographically:
bytes on their way to the instance count more the farther they have to go, and when
the instance answers there are more bytes on the way back, but fewer on the way
there.

Taking a connection is left out.  A goroutine in `Get` may have to wait for others
to give a connection back, and each of them can.
-/

namespace Pdwfs

open Concurrency

variable {ρ ω : Type} [DecidableEq ρ] [DecidableEq ω] (sha1 : Redigo.Bytes → Redigo.Bytes)
  (ring : ω → ρ)

/-- The instance cannot send the reply to the command that has arrived. -/
def Net.Blocked (n : Net ρ ω) (line : Line ρ) : Prop :=
  ∃ cmd rest, Redigo.readCommand (n.links line).inbox = .ok (cmd, rest) ∧
    ¬((n.instances line.client.addr).handle sha1 (n.links line).session cmd).2.2.Sendable

/-- What can be reached without anything visible. -/
def Net.Reaches (n : Net ρ ω) (goal : Net ρ ω → Prop) : Prop :=
  ∃ n', Trace (Net.Step sha1 ring) n [] n' ∧ goal n'

/-- How much there is to be done on a connection before the next reply can be read: the bytes
that are on their way to the instance, and those that come back. -/
def Link.work (link : Link) : ℕ ×ₗ ℕ :=
  toLex (3 * link.bw.length + 2 * link.up.length + link.inbox.length, link.down.length)

section Reaches

variable {sha1 ring} {n : Net ρ ω} {a : Atomic ω Request ConnReply Cluster}
  {goal goal' : Net ρ ω → Prop}

theorem Net.Reaches.here (reached : goal n) : n.Reaches sha1 ring goal := ⟨n, .nil n, reached⟩

/-- One silent step, and then the goal. -/
theorem Related.reaches_step (related : Related sha1 ring n a) {n' : Net ρ ω}
    (step : n.Step sha1 ring none n')
    (later : ∀ a', Related sha1 ring n' a' → n'.Reaches sha1 ring goal) :
    n.Reaches sha1 ring goal := by
  obtain ⟨a', -, related'⟩ := related.step step
  obtain ⟨final, trace, reached⟩ := later a' related'
  exact ⟨final, .cons step trace, reached⟩

/-- One goal after the other.  The system stays related to the service on the way.
-/
theorem Related.reaches_trans (related : Related sha1 ring n a)
    (first : n.Reaches sha1 ring goal)
    (later : ∀ n' a', Related sha1 ring n' a' → goal n' → n'.Reaches sha1 ring goal') :
    n.Reaches sha1 ring goal' := by
  obtain ⟨n', trace, reached⟩ := first
  obtain ⟨a', -, related'⟩ := related.run trace
  obtain ⟨final, trace', reached'⟩ := later n' a' related' reached
  exact ⟨final, trace.trans trace', reached'⟩

end Reaches

namespace Related

variable {sha1 ring} {n : Net ρ ω} {a : Atomic ω Request ConnReply Cluster} {i : ω} {q : Request}
  {c : Redigo.ConnId} {left : ℕ} {got : List Redigo.Value} {todo : List Call} {retried : Bool}

/-- **The next step of a conversation**: bytes move, the instance answers, or a reply is read. -/
theorem advance (related : Related sha1 ring n a)
    (here : n.stages i = .receiving q c (left + 1) got retried) :
    n.Blocked sha1 ⟨⟨ring i, q.addr⟩, c⟩ ∨ ∃ n', n.Step sha1 ring none n' ∧
      ((∃ v, n'.stages i = .receiving q c left (got ++ [v]) retried) ∨
        (∃ outcome, n'.stages i = .leaving q c outcome) ∨
        n'.stages i = .receiving q c (left + 1) got retried ∧
          (n'.links ⟨⟨ring i, q.addr⟩, c⟩).work < (n.links ⟨⟨ring i, q.addr⟩, c⟩).work) := by
  obtain ⟨-, waiting, seen, unread, talk, count, -⟩ := related.at_stage here
  set line : Line ρ := ⟨⟨ring i, q.addr⟩, c⟩ with isLine
  have sent := talk.sent
  have received := talk.received
  -- What the client has written still has to leave its buffer.
  by_cases written : (n.links line).bw = []
  swap
  · have some := List.length_pos_iff.mpr written
    refine .inr ⟨_, .carry line (.overflow (n.links line).bw.length), .inr (.inr ⟨here, ?_⟩)⟩
    simp only [Net.relink, Function.update_self, Link.work, Prod.Lex.toLex_lt_toLex]
    simp only [List.take_length, List.length_append, List.drop_length, List.length_nil]
    omega
  -- What has left the buffer still has to arrive.
  by_cases flying : (n.links line).up = []
  swap
  · have some := List.length_pos_iff.mpr flying
    refine .inr ⟨_, .carry line (.arrive (n.links line).up.length), .inr (.inr ⟨here, ?_⟩)⟩
    simp only [Net.relink, Function.update_self, Link.work, Prod.Lex.toLex_lt_toLex]
    simp only [List.take_length, List.length_append, List.drop_length, List.length_nil]
    omega
  -- All that was sent has arrived, so either a command is complete or all have been
  -- answered.
  rw [written, flying, List.append_nil, List.append_nil] at sent
  cases waiting with
  | cons cmd waiting =>
      have arrived : Redigo.readCommand (n.links line).inbox =
          .ok (cmd, waiting.flatMap Redigo.encodeCommand) := by
        rw [sent, List.flatMap_cons]
        exact Redigo.reads_readCommand (talk.sendable cmd (by simp)) _
      -- The instance answers, unless its answer cannot be written as a reply.
      by_cases sendable : ((n.instances line.client.addr).handle sha1 (n.links line).session
          cmd).2.2.Sendable
      · refine .inr ⟨_, .answer line arrived sendable, .inr (.inr ⟨here, ?_⟩)⟩
        have shorter : (waiting.flatMap Redigo.encodeCommand).length <
            (n.links line).inbox.length := by
          have some : 0 < (Redigo.encodeCommand cmd).length := by
            simp [Redigo.encodeCommand, Redigo.Resp.encode]
          rw [sent, List.flatMap_cons, List.length_append]
          omega
        simp only [Net.answer, Net.relink, Function.update_self, Link.work,
          Prod.Lex.toLex_lt_toLex]
        omega
      · exact .inl ⟨cmd, _, arrived, sendable⟩
  | nil =>
      -- All commands have been answered, and the replies may have to come back.
      by_cases returning : (n.links line).down = []
      swap
      · have some := List.length_pos_iff.mpr returning
        refine .inr ⟨_, .carry line (.comeBack (n.links line).down.length), .inr (.inr ⟨here, ?_⟩)⟩
        simp only [Net.relink, Function.update_self, Link.work, Prod.Lex.toLex_lt_toLex]
        refine .inr ⟨trivial, ?_⟩
        rw [List.length_drop]
        omega
      rw [returning, List.append_nil] at received
      cases unread with
      | nil => simp at count
      | cons reply unread =>
          -- A whole reply has arrived, so it is read, or the reading fails for good.
          have answers := Redigo.answers_encode (n.links line).dst.size? reply
            (talk.replies reply (by simp)) (unread.flatMap Redigo.Resp.encode)
          rw [List.flatMap_cons] at received
          rw [← received] at answers
          cases value : reply.value (n.links line).dst.size? with
          | ok v =>
              rw [value] at answers
              exact .inr ⟨_, .read i here answers, .inl ⟨v, by simp [Net.relink, Net.go]⟩⟩
          | error e =>
              rw [value] at answers
              have final : e.Final := Redigo.final_of_value_eq_error value
              exact .inr ⟨_, .readError i here final answers,
                .inr (.inl ⟨.error e, by simp [Net.relink, Net.go]⟩)⟩

/-- One more reply is read, or the reading fails. -/
theorem reaches_reply (related : Related sha1 ring n a)
    (here : n.stages i = .receiving q c (left + 1) got retried) :
    n.Reaches sha1 ring fun n' => n'.Blocked sha1 ⟨⟨ring i, q.addr⟩, c⟩ ∨
      (∃ v, n'.stages i = .receiving q c left (got ++ [v]) retried) ∨
      ∃ outcome, n'.stages i = .leaving q c outcome := by
  -- The bytes that are on their way become fewer.
  generalize remaining : (n.links ⟨⟨ring i, q.addr⟩, c⟩).work = work
  induction work using WellFoundedLT.induction generalizing n a with
  | ind work ih =>
      subst remaining
      rcases related.advance here with blocked | ⟨n', step, next⟩
      · exact .here (.inl blocked)
      · refine related.reaches_step step fun a' related' => ?_
        rcases next with read | outcome | ⟨still, less⟩
        · exact .here (.inr (.inl read))
        · exact .here (.inr (.inr outcome))
        · exact ih _ less related' still rfl

/-- All replies are read, or the reading fails. -/
theorem reaches_replies (related : Related sha1 ring n a)
    (here : n.stages i = .receiving q c left got retried) :
    n.Reaches sha1 ring fun n' => n'.Blocked sha1 ⟨⟨ring i, q.addr⟩, c⟩ ∨
      (∃ all, n'.stages i = .receiving q c 0 all retried) ∨
      ∃ outcome, n'.stages i = .leaving q c outcome := by
  induction left generalizing n a got with
  | zero => exact .here (.inr (.inl ⟨got, here⟩))
  | succ left ih =>
      refine related.reaches_trans (related.reaches_reply here) fun n' a' related' next => ?_
      rcases next with blocked | ⟨v, there⟩ | outcome
      · exact .here (.inl blocked)
      · exact ih related' there
      · exact .here (.inr (.inr outcome))

/-- Everything is sent. -/
theorem reaches_flush (related : Related sha1 ring n a)
    (here : n.stages i = .sending q c todo retried) :
    n.Reaches sha1 ring fun n' => ∃ left, n'.stages i = .receiving q c left [] retried := by
  induction todo generalizing n a with
  | nil => exact absurd rfl (related.at_stage here).2.1
  | cons call rest ih =>
      cases rest with
      | nil =>
          exact related.reaches_step (.flush i here) fun a' related' =>
            .here ⟨(n.links ⟨⟨ring i, q.addr⟩, c⟩).pending + 1, by simp [Net.relink, Net.go]⟩
      | cons next rest =>
          exact related.reaches_step (.send i here) fun a' related' =>
            ih related' (by simp [Net.relink, Net.go])

/-- The commands that are sent the second time are not sent again. -/
theorem reaches_leaving_of_retried (related : Related sha1 ring n a)
    (here : (∃ todo, n.stages i = .sending q c todo true) ∨
      ∃ left got, n.stages i = .receiving q c left got true) :
    n.Reaches sha1 ring fun n' => n'.Blocked sha1 ⟨⟨ring i, q.addr⟩, c⟩ ∨
      ∃ outcome, n'.stages i = .leaving q c outcome := by
  have receiving {m : Net ρ ω} {b : Atomic ω Request ConnReply Cluster} {left : ℕ}
      {got : List Redigo.Value} (related : Related sha1 ring m b)
      (here : m.stages i = .receiving q c left got true) :
      m.Reaches sha1 ring fun n' => n'.Blocked sha1 ⟨⟨ring i, q.addr⟩, c⟩ ∨
        ∃ outcome, n'.stages i = .leaving q c outcome := by
    refine related.reaches_trans (related.reaches_replies here) fun n' a' related' next => ?_
    rcases next with blocked | ⟨all, there⟩ | outcome
    · exact .here (.inl blocked)
    · have last : retryFor q.body true (doResult all) = none := by
        unfold retryFor
        split <;> simp
      exact related'.reaches_step (.finish i there last) fun _ _ =>
        .here (.inr ⟨.ok (doResult all), by simp [Net.relink, Net.go]⟩)
    · exact .here (.inr outcome)
  rcases here with ⟨todo, sending⟩ | ⟨left, got, there⟩
  · refine related.reaches_trans (related.reaches_flush sending) fun n' a' related' sent => ?_
    obtain ⟨left, there⟩ := sent
    exact receiving related' there
  · exact receiving related there

/-- A goroutine that uses a connection comes to its end.  The script may be sent a
second time, and not a third. -/
theorem reaches_leaving (related : Related sha1 ring n a) {line : Line ρ}
    (busy : (n.stages i).line? (ring i) = some line) :
    n.Reaches sha1 ring fun n' => n'.Blocked sha1 line ∨
      ∃ q c outcome, n'.stages i = .leaving q c outcome := by
  have receiving {m : Net ρ ω} {b : Atomic ω Request ConnReply Cluster} {q : Request}
      {c : Redigo.ConnId} {left : ℕ} {got : List Redigo.Value} {retried : Bool}
      (related : Related sha1 ring m b)
      (here : m.stages i = .receiving q c left got retried) :
      m.Reaches sha1 ring fun n' => n'.Blocked sha1 ⟨⟨ring i, q.addr⟩, c⟩ ∨
        ∃ q c outcome, n'.stages i = .leaving q c outcome := by
    refine related.reaches_trans (related.reaches_replies here) fun n' a' related' next => ?_
    rcases next with blocked | ⟨all, there⟩ | ⟨outcome, there⟩
    · exact .here (.inl blocked)
    · cases again : retryFor q.body retried (doResult all) with
      | none =>
          exact related'.reaches_step (.finish i there again) fun _ _ =>
            .here (.inr ⟨q, c, .ok (doResult all), by simp [Net.relink, Net.go]⟩)
      | some call =>
          refine related'.reaches_step (.retry i there again) fun a'' related'' => ?_
          have sending : ∃ todo, (n'.go i (.sending q c [call] true)).stages i =
              .sending q c todo true := ⟨[call], by simp [Net.go]⟩
          refine related''.reaches_trans (related''.reaches_leaving_of_retried (.inl sending))
            fun final _ _ reached => ?_
          rcases reached with blocked | ⟨outcome, there⟩
          · exact .here (.inl blocked)
          · exact .here (.inr ⟨q, c, outcome, there⟩)
    · exact .here (.inr ⟨q, c, outcome, there⟩)
  cases here : n.stages i with
  | idle => rw [here] at busy; cases busy
  | connecting q => rw [here] at busy; cases busy
  | returning q outcome => rw [here] at busy; cases busy
  | leaving q c outcome => exact .here (.inr ⟨q, c, outcome, here⟩)
  | sending q c todo retried =>
      rw [here] at busy
      obtain rfl := Option.some.inj busy
      refine related.reaches_trans (related.reaches_flush here) fun n' a' related' sent => ?_
      obtain ⟨left, there⟩ := sent
      exact receiving related' there
  | receiving q c left got retried =>
      rw [here] at busy
      obtain rfl := Option.some.inj busy
      exact receiving related here

/-! ## Giving the connection back -/

/-- The connection is closed. -/
theorem reaches_out_of_closing (related : Related sha1 ring n a) {outcome : Outcome}
    (here : n.stages i = .returning q outcome) {d : Redigo.ConnId}
    (closing : (n.pools ⟨ring i, q.addr⟩).phase i = .closing d) :
    n.Reaches sha1 ring fun n' => n'.stages i = .returning q outcome ∧
      (n'.pools ⟨ring i, q.addr⟩).phase i = .out := by
  have inside : n.InPool ring i ⟨ring i, q.addr⟩ :=
    .inr ⟨q, outcome, here, rfl, by simp [closing]⟩
  refine related.reaches_step (.pool _ (.close i closing) (Net.inPool_of_move (by simp) inside))
    fun _ _ => .here ⟨here, ?_⟩
  simp [Net.repool, Redigo.Pool.move_phase]

/-- `put` comes to an end. -/
theorem reaches_out (related : Related sha1 ring n a) {outcome : Outcome}
    (here : n.stages i = .returning q outcome) {forceClose : Bool}
    (putting : (n.pools ⟨ring i, q.addr⟩).phase i = .putting c forceClose) :
    n.Reaches sha1 ring fun n' => n'.stages i = .returning q outcome ∧
      (n'.pools ⟨ring i, q.addr⟩).phase i = .out := by
  have inside : n.InPool ring i ⟨ring i, q.addr⟩ :=
    .inr ⟨q, outcome, here, rfl, by simp [putting]⟩
  by_cases why : (n.pools ⟨ring i, q.addr⟩).closed = true ∨ forceClose = true
  · refine related.reaches_step (.pool _ (.discard i putting why) (Net.inPool_of_move rfl inside))
      fun a' related' => related'.reaches_out_of_closing here (d := c) ?_
    simp [Net.repool, Redigo.Pool.move_phase]
  · obtain ⟨opened, rfl⟩ : (n.pools ⟨ring i, q.addr⟩).closed = false ∧ forceClose = false := by
      simpa using why
    by_cases room : (c :: (n.pools ⟨ring i, q.addr⟩).idle).length ≤ clientPool.maxIdle
    · refine related.reaches_step
        (.pool _ (.pushFront i putting opened room) (Net.inPool_of_move (by simp) inside))
        fun _ _ => .here ⟨here, ?_⟩
      simp [Net.repool, Redigo.Pool.move_phase]
    · refine related.reaches_step (.pool _ (.popBack i putting opened (by omega))
        (Net.inPool_of_move rfl inside)) fun a' related' => related'.reaches_out_of_closing here
          (d := (c :: (n.pools ⟨ring i, q.addr⟩).idle).getLast (List.cons_ne_nil _ _)) ?_
      simp [Net.repool, Redigo.Pool.move_phase]

/-- A goroutine that is done with its connection gives its caller the outcome. -/
theorem respond_of_leaving (related : Related sha1 ring n a) {outcome : Outcome}
    (here : n.stages i = .leaving q c outcome) :
    ∃ n', Trace (Net.Step sha1 ring) n [.respond i outcome] n' ∧ n'.stages i = .idle := by
  obtain ⟨-, -, settled, clean, -⟩ := related.at_stage here
  have returned : n.Reaches sha1 ring fun n' => n'.stages i = .returning q outcome ∧
      (n'.pools ⟨ring i, q.addr⟩).phase i = .out :=
    related.reaches_step (.close i here settled clean) fun a' related' =>
      related'.reaches_out (by simp [Net.repool, Net.go])
        (show _ = Redigo.Phase.putting c (n.links ⟨⟨ring i, q.addr⟩, c⟩).failed by
          simp [Net.repool, Redigo.Pool.move_phase])
  obtain ⟨n', trace, there, out⟩ := returned
  exact ⟨n'.go i .idle, trace.trans (.single (Net.Step.respond i there out)), by simp [Net.go]⟩

end Related

/-- **A goroutine that has a connection can finish its request**, from every state of a run,
without anything else that is visible: the replies it waits for are those that come.  The only
exception is an instance whose reply does not fit into memory. -/
theorem Net.run_completes {cluster : Cluster} {instances : Addr → Redigo.Instance}
    (holds : ∀ addr, Holds sha1 (cluster addr) (instances addr))
    {events : List (Event ω Request Outcome)} {n : Net ρ ω}
    (run : Trace (Step sha1 ring) (start instances) events n) {i : ω} {line : Line ρ}
    (busy : (n.stages i).line? (ring i) = some line) :
    (∃ n', Trace (Step sha1 ring) n [] n' ∧ n'.Blocked sha1 line) ∨
      ∃ n' outcome, Trace (Step sha1 ring) n [.respond i outcome] n' ∧ n'.stages i = .idle := by
  obtain ⟨a, -, related⟩ := (related_start sha1 ring holds).run run
  obtain ⟨n', trace, blocked | ⟨q, c, outcome, there⟩⟩ := related.reaches_leaving busy
  · exact .inl ⟨n', trace, blocked⟩
  · obtain ⟨a', -, related'⟩ := related.run trace
    obtain ⟨final, responded, idle⟩ := related'.respond_of_leaving there
    exact .inr ⟨final, outcome, trace.trans responded, idle⟩

/-- The writer waits for the rest of its replies, while the reader has been
answered. -/
theorem Net.run_completes_overlap : ∃ (c : Redigo.ConnId) (middle : Net Unit Goroutine),
    middle.stages .writer = .receiving writing c 4 [] false ∧
    ((∃ n', Trace (Step id fun _ => ()) middle [] n' ∧ n'.Blocked id ⟨⟨(), ['a']⟩, c⟩) ∨
      ∃ n' outcome, Trace (Step id fun _ => ()) middle [.respond .writer outcome] n' ∧
        n'.stages .writer = .idle) := by
  obtain ⟨c, middle, n, run, here, -⟩ := exists_run_overlap
  have busy : (middle.stages .writer).line? () = some ⟨⟨(), ['a']⟩, c⟩ := by
    rw [here]
    rfl
  exact ⟨c, middle, here, run_completes id (fun _ => ()) holds_emptyInstances run busy⟩

end Pdwfs
