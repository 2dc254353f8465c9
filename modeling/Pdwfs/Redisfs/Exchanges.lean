import Pdwfs.Redisfs.RoundTrips

/-!
# Undisturbed exchanges

What a goroutine is given when it has a connection to itself: it takes the connection from the
pool, sends its commands, reads what the instance answers to them one after the other, and gives
the connection back.  `Step` says what may happen; these are runs in which it does happen, from any
state in which the pool is stocked and whatever the other goroutines have in flight.

## One shape for the state

Each step of an exchange changes the goroutine, its connection and the instance.  A chain of such
changes is hard to read, and two chains that do the same are not equal by definition.  So the state
is kept in one shape, `Net.during`: everything is as in a state `n`, except for these three.  The
lemmas `during_go`, `during_relink` and `during_reinstance` bring every step back into the shape,
and each part of the exchange is then one lemma about the connection alone.

* `handleAll`, `Answered` — the replies to the commands of a request.
* `trace_sends`, `trace_arrive`, `trace_answers`, `trace_comeBack`, `trace_reads` — the parts.
* `trace_asked`, `trace_told` — up to the first bytes of the replies, and from there on.

## What others may rely on

A pool is `Stocked` if it has tokens and room, and if all connections in its idle list are as good
as new ones.  A connection that is taken leaves the others so (`Stocked.taken`), and it is as good
as new when it is given back (`Stocked.given`).  `RoundTrip` says what a round trip leaves as it is;
above all a connection that somebody else has in use.

* `exists_round_trip`, `exists_round_trips` — requests of one goroutine.
* `exists_overlap` — a round trip inside of another one.
-/

namespace Pdwfs

open Concurrency

namespace Net

variable {ρ ω : Type} [DecidableEq ρ] [DecidableEq ω] {sha1 : Redigo.Bytes → Redigo.Bytes}
  {ring : ω → ρ} {n : Net ρ ω} {i : ω} {q : Request} {c : Redigo.ConnId} {line : Line ρ}
  {stage : Stage} {link : Link} {inst : Redigo.Instance} {retried : Bool}

/-- The commands are handled one after the other. -/
def handleAll (sha1 : Redigo.Bytes → Redigo.Bytes) (inst : Redigo.Instance)
    (session : Option Redigo.Transaction) :
    List Redigo.Command → Redigo.Instance × Option Redigo.Transaction × List Redigo.Resp
  | [] => (inst, session, [])
  | cmd :: rest =>
      let answered := inst.handle sha1 session cmd
      let others := handleAll sha1 answered.1 answered.2.1 rest
      (others.1, others.2.1, answered.2.2 :: others.2.2)

theorem length_handleAll {inst : Redigo.Instance} {session : Option Redigo.Transaction}
    {cmds : List Redigo.Command} : (handleAll sha1 inst session cmds).2.2.length = cmds.length := by
  induction cmds generalizing inst session with
  | nil => rfl
  | cons cmd rest ih => simp [handleAll, ih]

/-- The state of a connection after the commands. -/
def stateAfter (state : Redigo.ConnState) (calls : List Call) : Redigo.ConnState :=
  calls.foldl (fun state call => state.after call.cmd) state

/-! ## A goroutine and its connection -/

/-- The goroutine `i` is at `stage`, its connection is `link`, and the instance
there is `inst`; everything else is as in `n`. -/
def during (n : Net ρ ω) (i : ω) (line : Line ρ) (stage : Stage) (link : Link)
    (inst : Redigo.Instance) : Net ρ ω :=
  ((n.reinstance line.client.addr inst).relink line link).go i stage

@[simp] theorem during_stages : (n.during i line stage link inst).stages i = stage :=
  Function.update_self ..

@[simp] theorem during_links : (n.during i line stage link inst).links line = link :=
  Function.update_self ..

@[simp] theorem during_instances :
    (n.during i line stage link inst).instances line.client.addr = inst :=
  Function.update_self ..

@[simp] theorem during_pools : (n.during i line stage link inst).pools = n.pools := rfl

@[simp] theorem during_go {stage' : Stage} :
    (n.during i line stage link inst).go i stage' = n.during i line stage' link inst := by
  simp [during, go]

@[simp] theorem during_relink {link' : Link} :
    (n.during i line stage link inst).relink line link' = n.during i line stage link' inst := by
  simp [during, go, relink]

@[simp] theorem during_reinstance {inst' : Redigo.Instance} :
    (n.during i line stage link inst).reinstance line.client.addr inst' =
      n.during i line stage link inst' := by
  simp [during, go, relink, reinstance]

theorem eq_during (here : n.stages i = stage) (connected : n.links line = link)
    (there : n.instances line.client.addr = inst) : n = n.during i line stage link inst := by
  subst here connected there
  simp [during, go, relink, reinstance]

/-! ## The parts of an exchange -/

/-- All commands are sent. -/
theorem trace_sends {todo : List Call} (nonempty : todo ≠ []) :
    Trace (Step sha1 ring)
      (n.during i ⟨⟨ring i, q.addr⟩, c⟩ (.sending q c todo retried) link inst) []
      (n.during i ⟨⟨ring i, q.addr⟩, c⟩ (.receiving q c (link.pending + todo.length) [] retried)
        { link with
          pending := 0
          state := stateAfter link.state todo
          bw := []
          up := link.up ++ (link.bw ++ todo.flatMap Call.write) } inst) := by
  induction todo generalizing link with
  | nil => exact absurd rfl nonempty
  | cons call rest ih =>
      cases rest with
      | nil =>
          have step : Step sha1 ring
              (n.during i ⟨⟨ring i, q.addr⟩, c⟩ (.sending q c [call] retried) link inst) none _ :=
            .flush i during_stages
          simpa [Link.flush, stateAfter] using Trace.single step
      | cons next rest =>
          have step : Step sha1 ring (n.during i ⟨⟨ring i, q.addr⟩, c⟩
              (.sending q c (call :: next :: rest) retried) link inst) none _ :=
            .send i during_stages
          simp only [during_go, during_relink, during_links] at step
          have both := Trace.cons step (ih (List.cons_ne_nil next rest))
          simpa [Link.send, stateAfter, Nat.add_assoc, Nat.add_comm 1] using both

/-- The commands arrive. -/
theorem trace_arrive : Trace (Step sha1 ring) (n.during i line stage link inst) []
    (n.during i line stage { link with inbox := link.inbox ++ link.up, up := [] } inst) := by
  have carried : ((n.during i line stage link inst).links line).Carry
      { link with inbox := link.inbox ++ link.up, up := [] } := by
    rw [during_links]
    simpa using @Link.Carry.arrive link link.up.length
  have step : Step sha1 ring (n.during i line stage link inst) none _ := .carry line carried
  simpa using Trace.single step

/-- Some bytes of the replies come back. -/
theorem trace_comeBack (k : ℕ) : Trace (Step sha1 ring) (n.during i line stage link inst) []
    (n.during i line stage
      { link with br := link.br ++ link.down.take k, down := link.down.drop k } inst) := by
  have carried : ((n.during i line stage link inst).links line).Carry
      { link with br := link.br ++ link.down.take k, down := link.down.drop k } := by
    rw [during_links]
    exact .comeBack k
  have step : Step sha1 ring (n.during i line stage link inst) none _ := .carry line carried
  simpa using Trace.single step

/-- The commands that have arrived are answered. -/
theorem trace_answers {cmds : List Redigo.Command} (sendable : ∀ cmd ∈ cmds, cmd.Sendable)
    (arrived : link.inbox = cmds.flatMap Redigo.encodeCommand)
    (fits : ∀ reply ∈ (handleAll sha1 inst link.session cmds).2.2, reply.Sendable) :
    Trace (Step sha1 ring) (n.during i line stage link inst) []
      (n.during i line stage { link with
        inbox := []
        session := (handleAll sha1 inst link.session cmds).2.1
        down := link.down ++
          (handleAll sha1 inst link.session cmds).2.2.flatMap Redigo.Resp.encode }
        (handleAll sha1 inst link.session cmds).1) := by
  induction cmds generalizing link inst with
  | nil =>
      obtain ⟨_, _, _, _, _, _, _, _, _, _⟩ := link
      simp only [List.flatMap_nil] at arrived
      subst arrived
      simpa [handleAll] using Trace.nil _
  | cons cmd rest ih =>
      have read : Redigo.readCommand ((n.during i line stage link inst).links line).inbox =
          .ok (cmd, rest.flatMap Redigo.encodeCommand) := by
        rw [during_links, arrived, List.flatMap_cons]
        exact Redigo.reads_readCommand (sendable cmd (by simp)) _
      have step : Step sha1 ring (n.during i line stage link inst) none _ :=
        .answer line read (by simpa using fits _ (.head _))
      simp only [answer, during_instances, during_links, during_reinstance, during_relink] at step
      have both := Trace.cons step (ih (fun cmd member => sendable cmd (.tail _ member)) rfl
        fun reply member => fits reply (.tail _ member))
      simpa [handleAll] using both

/-- The replies that have arrived are read. -/
theorem trace_reads {replies : List Redigo.Resp} {got vs : List Redigo.Value}
    (fits : ∀ reply ∈ replies, reply.Sendable)
    (values : replies.mapM (Redigo.Resp.value link.dst.size?) = .ok vs)
    (arrived : link.br = replies.flatMap Redigo.Resp.encode) :
    Trace (Step sha1 ring) (n.during i ⟨⟨ring i, q.addr⟩, c⟩
        (.receiving q c replies.length got retried) link inst) []
      (n.during i ⟨⟨ring i, q.addr⟩, c⟩ (.receiving q c 0 (got ++ vs) retried)
        { link with br := [] } inst) := by
  induction replies generalizing link got vs with
  | nil =>
      obtain ⟨_, _, _, _, _, _, _, _, _, _⟩ := link
      simp only [List.flatMap_nil] at arrived
      subst arrived
      obtain rfl : [] = vs := by simpa [pure, Except.pure] using values
      simpa using Trace.nil _
  | cons reply rest ih =>
      rw [List.mapM_cons] at values
      cases first : reply.value link.dst.size? with
      | error e => simp [first, bind, Except.bind] at values
      | ok v =>
      cases others : rest.mapM (Redigo.Resp.value link.dst.size?) with
      | error e => simp [first, others, bind, Except.bind] at values
      | ok vs' =>
      obtain rfl : v :: vs' = vs := by
        simpa [first, others, bind, Except.bind, pure, Except.pure] using values
      have read := Redigo.answers_encode link.dst.size? reply (fits _ (.head _))
        (rest.flatMap Redigo.Resp.encode)
      rw [first, ← List.flatMap_cons, ← arrived] at read
      have step : Step sha1 ring (n.during i ⟨⟨ring i, q.addr⟩, c⟩
          (.receiving q c (rest.length + 1) got retried) link inst) none _ :=
        .read i during_stages (by rw [during_links]; exact read)
      simp only [during_go, during_relink, during_links] at step
      have both := Trace.cons step (ih (fun reply member => fits reply (.tail _ member)) others rfl)
      simpa using both

/-- What the request comes to when nothing else happens to the connection and the
instance.  It can be decided by computation for a given request. -/
structure Answered (sha1 : Redigo.Bytes → Redigo.Bytes) (inst : Redigo.Instance) (q : Request)
    (inst' : Redigo.Instance) (replies : List Redigo.Resp) (vs : List Redigo.Value) : Prop where
  sendable : q.Sendable sha1
  /-- `MULTI` is followed by `EXEC`. -/
  clean : stateAfter {} (callsOf sha1 q.body) = {}
  handled : handleAll sha1 inst none ((callsOf sha1 q.body).map Call.strings) =
    (inst', none, replies)
  fits : ∀ reply ∈ replies, reply.Sendable
  values : replies.mapM (Redigo.Resp.value q.dst.size?) = .ok vs
  last : retryFor q.body false (doResult vs) = none

/-- The connection when `k` bytes of the replies have arrived.  They may end in the
middle of a reply. -/
def replying (dst : Slice) (replies : List Redigo.Resp) (k : ℕ) : Link where
  dst := dst
  down := (replies.flatMap Redigo.Resp.encode).drop k
  br := (replies.flatMap Redigo.Resp.encode).take k

section Answered

variable {inst' : Redigo.Instance} {replies : List Redigo.Resp} {vs : List Redigo.Value}
  {dst : Slice}

/-- From the first command to the first bytes of the replies. -/
theorem trace_asked (answered : Answered sha1 inst q inst' replies vs) (k : ℕ) :
    Trace (Step sha1 ring)
      (n.during i ⟨⟨ring i, q.addr⟩, c⟩ (.sending q c (callsOf sha1 q.body) false)
        { dst := dst } inst) []
      (n.during i ⟨⟨ring i, q.addr⟩, c⟩ (.receiving q c replies.length [] false)
        (replying dst replies k) inst') := by
  have clean := answered.clean
  have handled := answered.handled
  have sendable := answered.sendable.calls
  have nonempty : callsOf sha1 q.body ≠ [] := by cases q.body <;> simp [callsOf]
  generalize callsOf sha1 q.body = calls at clean handled sendable nonempty
  have written : calls.flatMap Call.write =
      (calls.map Call.strings).flatMap Redigo.encodeCommand := by
    rw [List.flatMap_map]
    exact List.flatMap_congr fun call _ => call.write_eq
  have each : ∀ cmd ∈ calls.map Call.strings, cmd.Sendable := by
    intro cmd member
    obtain ⟨call, called, rfl⟩ := List.mem_map.mp member
    exact sendable call called
  have count : calls.length = replies.length := by
    have length := @length_handleAll sha1 inst none (calls.map Call.strings)
    rw [handled, List.length_map] at length
    exact length.symm
  have sent : Trace (Step sha1 ring) (n.during i ⟨⟨ring i, q.addr⟩, c⟩
      (.sending q c calls false) { dst := dst } inst) [] _ := trace_sends nonempty
  simp only [clean, List.nil_append, Nat.zero_add, count] at sent
  have arrived : Trace (Step sha1 ring) (n.during i ⟨⟨ring i, q.addr⟩, c⟩
      (.receiving q c replies.length [] false) { dst := dst, up := calls.flatMap Call.write } inst)
      [] _ := trace_arrive
  simp only [List.nil_append] at arrived
  have answers : Trace (Step sha1 ring) (n.during i ⟨⟨ring i, q.addr⟩, c⟩
      (.receiving q c replies.length [] false)
      { dst := dst, inbox := calls.flatMap Call.write } inst) [] _ :=
    trace_answers each written (by simpa only [handled] using answered.fits)
  simp only [handled, List.nil_append] at answers
  have back : Trace (Step sha1 ring) (n.during i ⟨⟨ring i, q.addr⟩, c⟩
      (.receiving q c replies.length [] false)
      { dst := dst, down := replies.flatMap Redigo.Resp.encode } inst') [] _ := trace_comeBack k
  simp only [List.nil_append] at back
  exact sent.trans (arrived.trans (answers.trans back))

/-- From there to the last of the replies. -/
theorem trace_told (answered : Answered sha1 inst q inst' replies vs)
    (sized : dst.size? = q.dst.size?) (k : ℕ) {later : Redigo.Instance} :
    Trace (Step sha1 ring)
      (n.during i ⟨⟨ring i, q.addr⟩, c⟩ (.receiving q c replies.length [] false)
        (replying dst replies k) later) []
      (n.during i ⟨⟨ring i, q.addr⟩, c⟩ (.leaving q c (.ok (doResult vs)))
        (Link.release { dst := dst } q.dst) later) := by
  have values := answered.values
  rw [← sized] at values
  have back : Trace (Step sha1 ring) (n.during i ⟨⟨ring i, q.addr⟩, c⟩
      (.receiving q c replies.length [] false) (replying dst replies k) later) [] _ :=
    trace_comeBack ((replies.flatMap Redigo.Resp.encode).drop k).length
  simp only [replying, List.take_length, List.drop_length, List.take_append_drop] at back
  have reads : Trace (Step sha1 ring) (n.during i ⟨⟨ring i, q.addr⟩, c⟩
      (.receiving q c replies.length [] false)
      { dst := dst, br := replies.flatMap Redigo.Resp.encode } later) [] _ :=
    trace_reads answered.fits values rfl
  simp only [List.nil_append] at reads
  have finish : Step sha1 ring (n.during i ⟨⟨ring i, q.addr⟩, c⟩
      (.receiving q c 0 vs false) { dst := dst } later) none _ :=
    .finish i during_stages answered.last
  simp only [during_go, during_relink, during_links] at finish
  exact back.trans (reads.trans (.single finish))

end Answered

/-! ## The pool -/

omit [DecidableEq ρ] in
/-- Only one goroutine moves. -/
theorem inPool_of_move {client : ClientId ρ} {p : Redigo.Pool ω} {phase : Redigo.Phase}
    (phases : p.phase = (n.pools client).phase) (inside : n.InPool ring i client) :
    ∀ j, (p.move i phase).phase j ≠ (n.pools client).phase j → n.InPool ring j client := by
  intro j moved
  by_cases same : j = i
  · subst same
    exact inside
  · simp [Redigo.Pool.move_phase, same, phases] at moved

omit [DecidableEq ω] in
@[simp] theorem repool_repool {client : ClientId ρ} {p p' : Redigo.Pool ω} :
    (n.repool client p).repool client p' = n.repool client p' := by
  simp [repool]

omit [DecidableEq ω] in
@[simp] theorem repool_pools {client : ClientId ρ} {p : Redigo.Pool ω} :
    (n.repool client p).pools client = p :=
  Function.update_self ..

/-- One step in a pool that has changed already. -/
theorem step_pool {client : ClientId ρ} {p p' : Redigo.Pool ω} {phase : Redigo.Phase}
    (step : Redigo.Pool.Step clientPool p (p'.move i phase)) (phases : p'.phase = p.phase)
    (inside : (n.repool client p).InPool ring i client) :
    (n.repool client p).Step sha1 ring none (n.repool client (p'.move i phase)) := by
  have moved : Step sha1 ring (n.repool client p) none _ :=
    .pool client (by rwa [repool_pools]) (inPool_of_move (by rwa [repool_pools]) inside)
  rwa [repool_repool] at moved

/-- What has become of a pool from which the goroutine `i` has taken the connection
`c`: it was the first one of the idle list, or it has been dialed. -/
structure Taken (p p' : Redigo.Pool ω) (i : ω) (c : Redigo.ConnId) : Prop where
  phase : p'.phase = Function.update p.phase i (.holding c)
  opened : p'.closed = p.closed
  token : p'.ch + 1 = p.ch
  idle : p.idle = c :: p'.idle ∧ p'.dialed = p.dialed ∨
    p.idle = [] ∧ p'.idle = [] ∧ c = p.dialed ∧ p'.dialed = p.dialed + 1

omit [DecidableEq ρ] in
/-- The idle list gets shorter, unless it was empty. -/
theorem Taken.length_lt {p p' : Redigo.Pool ω} (taken : Taken p p' i c) :
    p'.idle.length + 1 ≤ max 1 p.idle.length := by
  rcases taken.idle with ⟨idle, -⟩ | ⟨-, none, -⟩
  · rw [idle, List.length_cons]
    exact le_max_right _ _
  · rw [none]
    exact le_max_left _ _

/-- `Get` finds a connection. -/
theorem exists_trace_get (here : n.stages i = .connecting q) {p : Redigo.Pool ω}
    (same : n.pools ⟨ring i, q.addr⟩ = p) (out : p.phase i = .out) (opened : p.closed = false)
    (token : 0 < p.ch) :
    ∃ c p', Trace (Step sha1 ring) n [] (n.repool ⟨ring i, q.addr⟩ p') ∧ Taken p p' i c := by
  set client : ClientId ρ := ⟨ring i, q.addr⟩ with isClient
  have unchanged : n.repool client p = n := by
    rw [repool, ← same, Function.update_eq_self]
  have inside {p' : Redigo.Pool ω} (free : ∀ c, p'.phase i ≠ .holding c) :
      (n.repool client p').InPool ring i client :=
    .inl ⟨q, here, isClient, by simpa using free⟩
  have get : Step sha1 ring (n.repool client p) none (n.repool client (p.move i .waiting)) :=
    step_pool (.get i out) rfl (inside (by simp [out]))
  have receive : Step sha1 ring (n.repool client (p.move i .waiting)) none
      (n.repool client ({ p.move i .waiting with ch := p.ch - 1 }.move i .entered)) :=
    step_pool (.receive i (by simp [Redigo.Pool.move_phase]) (by decide) token) rfl
      (inside (by simp [Redigo.Pool.move_phase]))
  set entered := { p.move i .waiting with ch := p.ch - 1 }.move i .entered with isEntered
  have arrived : entered.phase i = .entered := by simp [isEntered, Redigo.Pool.move_phase]
  have phases : ∀ c, Function.update entered.phase i (.holding c) =
      Function.update p.phase i (.holding c) := by
    intro c
    simp [isEntered, Redigo.Pool.move_phase]
  have enter : Trace (Step sha1 ring) n [] (n.repool client entered) := by
    rw [unchanged] at get
    exact .cons get (.cons receive (.nil _))
  cases idle : p.idle with
  | cons c rest =>
      have pop : Step sha1 ring (n.repool client entered) none
          (n.repool client ({ entered with idle := rest }.move i (.holding c))) :=
        step_pool (.popFront i arrived idle) rfl (inside (by simp [arrived]))
      refine ⟨c, _, enter.trans (.single pop), ?_⟩
      exact ⟨phases c, rfl, Nat.sub_add_cancel token, .inl ⟨idle, rfl⟩⟩
  | nil =>
      have dial : Step sha1 ring (n.repool client entered) none
          (n.repool client ({ entered with active := entered.active + 1 }.move i .dialing)) :=
        step_pool (.dial i arrived idle opened (by simp [clientPool])) rfl
          (inside (by simp [arrived]))
      set dialing := { entered with active := entered.active + 1 }.move i .dialing with isDialing
      have calling : dialing.phase i = .dialing := by simp [isDialing, Redigo.Pool.move_phase]
      have dialed : Step sha1 ring (n.repool client dialing) none (n.repool client
          ({ dialing with dialed := dialing.dialed + 1 }.move i (.holding dialing.dialed))) :=
        step_pool (.dialed i calling) rfl (inside (by simp [calling]))
      refine ⟨dialing.dialed, _, enter.trans (.cons dial (.single dialed)), ?_⟩
      refine ⟨?_, rfl, Nat.sub_add_cancel token, .inr ⟨idle, idle, rfl, rfl⟩⟩
      rw [← phases]
      simp [isDialing, Redigo.Pool.move_phase]

/-- A connection that is as good as a new one is prepared for the request, and is as good as new
once it is released. -/
theorem exists_acquire (here : n.stages i = .connecting q)
    (held : (n.pools ⟨ring i, q.addr⟩).phase i = .holding c) {state : Redigo.ConnState}
    (fresh : n.links ⟨⟨ring i, q.addr⟩, c⟩ = { state := state }) :
    ∃ dst : Slice, dst.size? = q.dst.size? ∧ Link.release { dst := dst } q.dst = {} ∧
      Step sha1 ring n none (n.during i ⟨⟨ring i, q.addr⟩, c⟩
        (.sending q c (callsOf sha1 q.body) false) { dst := dst } (n.instances q.addr)) := by
  refine ⟨if q.dst.isNil then Slice.nil else q.dst, ?_, ?_, ?_⟩
  · cases unset : q.dst.isNil with
    | true =>
        rw [if_pos rfl, Slice.size?, Slice.size?, if_pos unset]
        rfl
    | false => rfl
  · rw [Link.release]
    cases q.dst.isNil <;> rfl
  · have step : Step sha1 ring n none _ := .acquire i here held
    have same : Link.acquire { state := state } q.dst =
        { dst := if q.dst.isNil then Slice.nil else q.dst } := rfl
    rw [fresh, same] at step
    simpa [during, go, relink, reinstance] using step

/-- A pool that has been given the connection `c` back. -/
def given (p : Redigo.Pool ω) (i : ω) (c : Redigo.ConnId) : Redigo.Pool ω :=
  ({ p.move i (.putting c false) with idle := c :: p.idle }.giveBack clientPool).move i .out

section Given

variable (p : Redigo.Pool ω)

@[simp] theorem given_closed : (given p i c).closed = p.closed := by simp [given]

@[simp] theorem given_idle : (given p i c).idle = c :: p.idle := by simp [given]

@[simp] theorem given_dialed : (given p i c).dialed = p.dialed := by simp [given]

@[simp] theorem given_phase : (given p i c).phase i = .out := by
  simp [given, Redigo.Pool.move_phase]

theorem given_ch (opened : p.closed = false) : (given p i c).ch = p.ch + 1 :=
  Redigo.Pool.giveBack_ch clientPool _ (by decide) opened

end Given

/-- The connection is given back, and the caller is given the outcome. -/
theorem trace_put {outcome : Outcome} (here : n.stages i = .leaving q c outcome)
    {p : Redigo.Pool ω} (same : n.pools ⟨ring i, q.addr⟩ = p) (opened : p.closed = false)
    (room : (c :: p.idle).length ≤ clientPool.maxIdle)
    (fresh : n.links ⟨⟨ring i, q.addr⟩, c⟩ = {}) :
    Trace (Step sha1 ring) n [.respond i outcome]
      ((n.repool ⟨ring i, q.addr⟩ (given p i c)).go i .idle) := by
  set client : ClientId ρ := ⟨ring i, q.addr⟩ with isClient
  have close : Step sha1 ring n none _ := .close i here (by rw [fresh]) (by rw [fresh])
  rw [fresh, ← isClient, same] at close
  have returning : (n.go i (.returning q outcome)).stages i = .returning q outcome := by
    simp [go]
  have put : Step sha1 ring
      ((n.go i (.returning q outcome)).repool client (p.move i (.putting c false))) none
      ((n.go i (.returning q outcome)).repool client (given p i c)) :=
    step_pool (.pushFront i (by simp [Redigo.Pool.move_phase]) opened room) (by simp)
      (.inr ⟨q, outcome, returning, isClient, by simp [Redigo.Pool.move_phase]⟩)
  have respond : Step sha1 ring ((n.go i (.returning q outcome)).repool client (given p i c))
      (some (.respond i outcome)) _ :=
    .respond i returning (by rw [← isClient, repool_pools, given_phase])
  have final : ((n.go i (.returning q outcome)).repool client (given p i c)).go i .idle =
      (n.repool client (given p i c)).go i .idle := by
    simp [go, repool]
  rw [final] at respond
  exact .cons close (.cons put (.single respond))

/-! ## Round trips -/

/-- The pool has tokens and room, and connections that are as good as new ones. -/
structure Stocked (n : Net ρ ω) (client : ClientId ρ) (tokens : ℕ) : Prop where
  opened : (n.pools client).closed = false
  tokens : tokens ≤ (n.pools client).ch
  room : (n.pools client).idle.length ≤ clientPool.maxIdle
  nodup : (n.pools client).idle.Nodup
  dialed : ∀ c ∈ (n.pools client).idle, c < (n.pools client).dialed
  fresh : ∀ c ∈ (n.pools client).idle, ∃ state, n.links ⟨client, c⟩ = { state := state }
  undialed : ∀ c, (n.pools client).dialed ≤ c → n.links ⟨client, c⟩ = {}

omit [DecidableEq ρ] [DecidableEq ω] in
/-- At the beginning all tokens are there. -/
theorem stocked_start (instances : Addr → Redigo.Instance) (client : ClientId ρ) :
    (start instances : Net ρ ω).Stocked client 50 where
  opened := rfl
  tokens := le_rfl
  room := Nat.zero_le 5
  nodup := List.nodup_nil
  dialed := fun c idle => by simp [start, Redigo.Pool.new] at idle
  fresh := fun c idle => by simp [start, Redigo.Pool.new] at idle
  undialed := fun _ _ => rfl

/-- A connection that has been dialed and is not in the idle list. -/
def InUse (n : Net ρ ω) (line : Line ρ) : Prop :=
  line.conn ∉ (n.pools line.client).idle ∧ line.conn < (n.pools line.client).dialed

section Stocked

variable {client : ClientId ρ} {tokens : ℕ} {p' : Redigo.Pool ω}

omit [DecidableEq ρ] in
/-- The connection that has been taken is in use. -/
theorem Stocked.inUse (stocked : n.Stocked client tokens) (taken : Taken (n.pools client) p' i c) :
    c ∉ p'.idle ∧ c < p'.dialed := by
  rcases taken.idle with ⟨idle, dialed⟩ | ⟨-, none, rfl, dialed⟩
  · have nodup := stocked.nodup
    rw [idle] at nodup
    rw [dialed]
    exact ⟨(List.nodup_cons.mp nodup).1, stocked.dialed c (by simp [idle])⟩
  · rw [none, dialed]
    exact ⟨List.not_mem_nil, Nat.lt_succ_self _⟩

omit [DecidableEq ρ] in
/-- There is room for it. -/
theorem Stocked.room_of_taken (stocked : n.Stocked client tokens)
    (taken : Taken (n.pools client) p' i c) : p'.idle.length < clientPool.maxIdle := by
  have shorter := taken.length_lt
  have room := stocked.room
  simp only [clientPool] at room ⊢
  omega

/-- The others are as before. -/
theorem Stocked.taken (stocked : n.Stocked client (tokens + 1))
    (taken : Taken (n.pools client) p' i c) :
    ((n.repool client p').during i ⟨client, c⟩ stage link inst).Stocked client tokens := by
  obtain ⟨notIdle, lower⟩ := stocked.inUse taken
  have pool : ((n.repool client p').during i ⟨client, c⟩ stage link inst).pools client = p' := by
    rw [during_pools, repool_pools]
  have links : ∀ d, d ≠ c → ((n.repool client p').during i ⟨client, c⟩ stage link inst).links
      ⟨client, d⟩ = n.links ⟨client, d⟩ := by
    intro d other
    exact Function.update_of_ne (by simpa using other) _ _
  have subset : p'.idle.Sublist (n.pools client).idle := by
    rcases taken.idle with ⟨idle, -⟩ | ⟨-, none, -⟩
    · rw [idle]
      exact List.sublist_cons_self _ _
    · rw [none]
      exact List.nil_sublist _
  have grows : (n.pools client).dialed ≤ p'.dialed := by
    rcases taken.idle with ⟨-, dialed⟩ | ⟨-, -, -, dialed⟩
    · exact dialed.ge
    · exact dialed ▸ Nat.le_succ _
  constructor
  · rw [pool, taken.opened, stocked.opened]
  · rw [pool]
    have token := taken.token
    have tokens := stocked.tokens
    omega
  · rw [pool]
    exact subset.length_le.trans stocked.room
  · rw [pool]
    exact stocked.nodup.sublist subset
  · rw [pool]
    exact fun d idle => (stocked.dialed d (subset.subset idle)).trans_le grows
  · rw [pool]
    intro d idle
    rw [links d (ne_of_mem_of_not_mem idle notIdle)]
    exact stocked.fresh d (subset.subset idle)
  · rw [pool]
    intro d beyond
    rw [links d (lower.trans_le beyond).ne']
    exact stocked.undialed d (grows.trans beyond)

omit [DecidableEq ω] in
/-- What happens on a connection that is in use does not matter to the others. -/
theorem Stocked.relink (stocked : n.Stocked client tokens) (inUse : n.InUse ⟨client, c⟩) :
    (n.relink ⟨client, c⟩ link).Stocked client tokens := by
  have links : ∀ d, d ≠ c → (n.relink ⟨client, c⟩ link).links ⟨client, d⟩ =
      n.links ⟨client, d⟩ := by
    intro d other
    exact Function.update_of_ne (by simpa using other) _ _
  refine ⟨stocked.opened, stocked.tokens, stocked.room, stocked.nodup, stocked.dialed,
    fun d idle => ?_, fun d beyond => ?_⟩
  · rw [links d (ne_of_mem_of_not_mem idle inUse.1)]
    exact stocked.fresh d idle
  · rw [links d (inUse.2.trans_le beyond).ne']
    exact stocked.undialed d beyond

/-- It may be given back as a new one. -/
theorem Stocked.given (stocked : n.Stocked client tokens) (inUse : n.InUse ⟨client, c⟩)
    (room : (n.pools client).idle.length < clientPool.maxIdle)
    (fresh : n.links ⟨client, c⟩ = {}) :
    ((n.repool client (given (n.pools client) i c)).go i stage).Stocked client (tokens + 1) := by
  have pool : ((n.repool client (Net.given (n.pools client) i c)).go i stage).pools client =
      Net.given (n.pools client) i c := repool_pools
  constructor
  · rw [pool, given_closed, stocked.opened]
  · rw [pool, given_ch _ stocked.opened]
    exact Nat.succ_le_succ stocked.tokens
  · rw [pool, given_idle]
    exact room
  · rw [pool, given_idle]
    exact List.nodup_cons.mpr ⟨inUse.1, stocked.nodup⟩
  · rw [pool, given_idle, given_dialed]
    exact List.forall_mem_cons.mpr ⟨inUse.2, stocked.dialed⟩
  · rw [pool, given_idle]
    exact List.forall_mem_cons.mpr ⟨⟨{}, fresh⟩, stocked.fresh⟩
  · rw [pool, given_dialed]
    exact stocked.undialed

end Stocked

/-- A goroutine takes a connection for its request, and the request is answered; some bytes of the
replies have arrived. -/
theorem exists_asked {k : ℕ} (idle : n.stages i = .idle)
    (out : (n.pools ⟨ring i, q.addr⟩).phase i = .out)
    (stocked : n.Stocked ⟨ring i, q.addr⟩ (k + 1)) {inst' : Redigo.Instance}
    {replies : List Redigo.Resp} {vs : List Redigo.Value}
    (answered : Answered sha1 (n.instances q.addr) q inst' replies vs) (arrived : ℕ) :
    ∃ c p' dst, Taken (n.pools ⟨ring i, q.addr⟩) p' i c ∧ dst.size? = q.dst.size? ∧
      Link.release { dst := dst } q.dst = {} ∧ Trace (Step sha1 ring) n [.invoke i q]
        ((n.repool ⟨ring i, q.addr⟩ p').during i ⟨⟨ring i, q.addr⟩, c⟩
          (.receiving q c replies.length [] false) (replying dst replies arrived) inst') := by
  set client : ClientId ρ := ⟨ring i, q.addr⟩ with isClient
  have invoke : Step sha1 ring n (some (.invoke i q)) (n.go i (.connecting q)) :=
    .invoke i q idle answered.sendable
  have connecting : (n.go i (.connecting q)).stages i = .connecting q := by simp [go]
  obtain ⟨c, p', got, taken⟩ : ∃ c p', Trace (Step sha1 ring) (n.go i (.connecting q)) []
      ((n.go i (.connecting q)).repool client p') ∧ Taken (n.pools client) p' i c :=
    exists_trace_get connecting rfl out stocked.opened
      ((Nat.succ_pos k).trans_le stocked.tokens)
  obtain ⟨state, fresh⟩ : ∃ state, n.links ⟨client, c⟩ = { state := state } := by
    rcases taken.idle with ⟨idle, -⟩ | ⟨-, -, rfl, -⟩
    · exact stocked.fresh c (by simp [idle])
    · exact ⟨{}, stocked.undialed _ le_rfl⟩
  obtain ⟨m, isConnected⟩ : ∃ m, m = (n.go i (.connecting q)).repool client p' := ⟨_, rfl⟩
  have links : m.links = n.links := by rw [isConnected]; rfl
  have here : m.stages i = .connecting q := by rw [isConnected]; exact connecting
  have held : (m.pools client).phase i = .holding c := by
    rw [isConnected, repool_pools, taken.phase, Function.update_self]
  obtain ⟨dst, sized, released, acquire⟩ : ∃ dst : Slice, dst.size? = q.dst.size? ∧
      Link.release { dst := dst } q.dst = {} ∧ Step sha1 ring m none (m.during i ⟨client, c⟩
        (.sending q c (callsOf sha1 q.body) false) { dst := dst } (m.instances q.addr)) :=
    exists_acquire here held (by rw [links]; exact fresh)
  have same : m.during i ⟨client, c⟩ (.sending q c (callsOf sha1 q.body) false) { dst := dst }
      (m.instances q.addr) = (n.repool client p').during i ⟨client, c⟩
        (.sending q c (callsOf sha1 q.body) false) { dst := dst } (n.instances q.addr) := by
    rw [isConnected]
    simp [during, go, repool, relink, reinstance]
  rw [← isConnected] at got
  rw [same] at acquire
  exact ⟨c, p', dst, taken, sized, released,
    .cons invoke (got.trans (.cons acquire (trace_asked answered arrived)))⟩

/-- A goroutine reads what is left of its replies, gives the connection back and returns. -/
theorem trace_complete {inst₀ inst' : Redigo.Instance} {replies : List Redigo.Resp}
    {vs : List Redigo.Value} (answered : Answered sha1 inst₀ q inst' replies vs) {dst : Slice}
    (sized : dst.size? = q.dst.size?) (released : Link.release { dst := dst } q.dst = {}) {k : ℕ}
    (here : n.stages i = .receiving q c replies.length [] false)
    (connected : n.links ⟨⟨ring i, q.addr⟩, c⟩ = replying dst replies k)
    (opened : (n.pools ⟨ring i, q.addr⟩).closed = false)
    (room : (n.pools ⟨ring i, q.addr⟩).idle.length < clientPool.maxIdle) :
    Trace (Step sha1 ring) n [.respond i (.ok (doResult vs))]
      (((n.relink ⟨⟨ring i, q.addr⟩, c⟩ {}).repool ⟨ring i, q.addr⟩
        (given (n.pools ⟨ring i, q.addr⟩) i c)).go i .idle) := by
  have told : Trace (Step sha1 ring) (n.during i ⟨⟨ring i, q.addr⟩, c⟩
      (.receiving q c replies.length [] false) (replying dst replies k) (n.instances q.addr)) []
      _ := trace_told answered sized k
  rw [← eq_during here connected rfl, released] at told
  have put : Trace (Step sha1 ring) (n.during i ⟨⟨ring i, q.addr⟩, c⟩
      (.leaving q c (.ok (doResult vs))) {} (n.instances q.addr)) _ _ :=
    trace_put during_stages rfl opened room during_links
  have all := told.trans put
  simpa [during, go, repool, relink, reinstance] using all

/-- What a round trip leaves as it is, and what it does to the instance. -/
structure RoundTrip (n n' : Net ρ ω) (client : ClientId ρ) (tokens : ℕ)
    (inst' : Redigo.Instance) : Prop where
  stages : n'.stages = n.stages
  phase : (n'.pools client).phase = (n.pools client).phase
  stocked : n'.Stocked client tokens
  room : (n'.pools client).idle.length ≤ max 1 (n.pools client).idle.length
  inUse : ∀ c, n.InUse ⟨client, c⟩ → n'.InUse ⟨client, c⟩ ∧
    n'.links ⟨client, c⟩ = n.links ⟨client, c⟩
  instances : n'.instances = Function.update n.instances client.addr inst'

/-- A goroutine that has taken a connection has given it back. -/
theorem roundTrip_of_taken {client : ClientId ρ} {k : ℕ} {p' : Redigo.Pool ω}
    (idle : n.stages i = .idle) (out : (n.pools client).phase i = .out)
    (stocked : n.Stocked client (k + 1)) (taken : Taken (n.pools client) p' i c) :
    RoundTrip n ((((n.repool client p').during i ⟨client, c⟩ stage {} inst).repool client
      (given p' i c)).go i .idle) client (k + 1) inst := by
  obtain ⟨notIdle, lower⟩ := stocked.inUse taken
  obtain ⟨m, isReset⟩ : ∃ m, m = (n.repool client p').during i ⟨client, c⟩ stage {} inst :=
    ⟨_, rfl⟩
  have pool : m.pools client = p' := by rw [isReset, during_pools, repool_pools]
  have stocked' : m.Stocked client k := by
    rw [isReset]
    exact stocked.taken taken
  have shorter := taken.length_lt
  rw [← isReset]
  refine ⟨?_, ?_, ?_, ?_, fun d inUse => ?_, ?_⟩
  · funext j
    by_cases same : j = i
    · rw [same, idle]
      exact Function.update_self ..
    · simp [go, repool, same, isReset, during, relink, reinstance]
  · funext j
    by_cases same : j = i
    · rw [same, out]
      simp [go, repool]
    · simp [go, repool, given, Redigo.Pool.move_phase, same, taken.phase]
  · rw [← pool] at notIdle lower ⊢
    refine stocked'.given ⟨notIdle, lower⟩ ?_ (by rw [isReset, during_links])
    rw [pool]
    exact stocked.room_of_taken taken
  · simp only [go, repool, Function.update_self, given_idle, List.length_cons]
    exact shorter
  · have other : d ≠ c := by
      rintro rfl
      rcases taken.idle with ⟨idle, -⟩ | ⟨-, -, new, -⟩
      · exact inUse.1 (by simp [idle])
      · exact absurd inUse.2 (by simp [new])
    have stillInUse : d ∉ p'.idle ∧ d < p'.dialed := by
      rcases taken.idle with ⟨idle, dialed⟩ | ⟨-, none, -, dialed⟩
      · rw [dialed]
        exact ⟨fun member => inUse.1 (by simp [idle, member]), inUse.2⟩
      · rw [none, dialed]
        exact ⟨List.not_mem_nil, inUse.2.trans (Nat.lt_succ_self _)⟩
    refine ⟨⟨?_, ?_⟩, ?_⟩
    · simpa [go, repool] using ⟨other, stillInUse.1⟩
    · simpa [go, repool] using stillInUse.2
    · simp [go, repool, isReset, during, relink, reinstance, other]
  · simp [go, repool, isReset, during, relink, reinstance]

/-- **An undisturbed round trip.**  A goroutine that has nothing to do is given what the instance
answers to its commands. -/
theorem exists_round_trip {k : ℕ} (idle : n.stages i = .idle)
    (out : (n.pools ⟨ring i, q.addr⟩).phase i = .out)
    (stocked : n.Stocked ⟨ring i, q.addr⟩ (k + 1)) {inst' : Redigo.Instance}
    {replies : List Redigo.Resp} {vs : List Redigo.Value}
    (answered : Answered sha1 (n.instances q.addr) q inst' replies vs) :
    ∃ n', Trace (Step sha1 ring) n [.invoke i q, .respond i (.ok (doResult vs))] n' ∧
      RoundTrip n n' ⟨ring i, q.addr⟩ (k + 1) inst' := by
  set client : ClientId ρ := ⟨ring i, q.addr⟩ with isClient
  obtain ⟨c, p', dst, taken, sized, released, asked⟩ : ∃ c p' dst, Taken (n.pools client) p' i c ∧
      dst.size? = q.dst.size? ∧ Link.release { dst := dst } q.dst = {} ∧
      Trace (Step sha1 ring) n [.invoke i q] ((n.repool client p').during i ⟨client, c⟩
        (.receiving q c replies.length [] false) (replying dst replies 0) inst') :=
    exists_asked idle out stocked answered 0
  have pool : ((n.repool client p').during i ⟨client, c⟩
      (.receiving q c replies.length [] false) (replying dst replies 0) inst').pools client =
      p' := by
    rw [during_pools, repool_pools]
  have completed : Trace (Step sha1 ring) ((n.repool client p').during i ⟨client, c⟩
      (.receiving q c replies.length [] false) (replying dst replies 0) inst')
      [.respond i (.ok (doResult vs))] _ :=
    trace_complete answered sized released during_stages during_links
      (by rw [pool, taken.opened, stocked.opened]) (by rw [pool]; exact stocked.room_of_taken taken)
  refine ⟨_, asked.trans completed, ?_⟩
  rw [pool, during_relink]
  exact roundTrip_of_taken idle out stocked taken

/-- What requests to one instance come to, one after the other. -/
inductive AllAnswered (sha1 : Redigo.Bytes → Redigo.Bytes) (addr : Addr) :
    Redigo.Instance → List (Request × List Redigo.Value) → Redigo.Instance → Prop
  | nil (inst : Redigo.Instance) : AllAnswered sha1 addr inst [] inst
  | cons {inst inst' inst'' : Redigo.Instance} {q : Request} {replies : List Redigo.Resp}
      {vs : List Redigo.Value} {turns : List (Request × List Redigo.Value)}
      (there : q.addr = addr) (answered : Answered sha1 inst q inst' replies vs)
      (others : AllAnswered sha1 addr inst' turns inst'') :
      AllAnswered sha1 addr inst ((q, vs) :: turns) inst''

/-- A goroutine makes its requests one after the other. -/
theorem exists_round_trips {addr : Addr} {k : ℕ} {inst' : Redigo.Instance}
    {turns : List (Request × List Redigo.Value)} (idle : n.stages i = .idle)
    (out : (n.pools ⟨ring i, addr⟩).phase i = .out)
    (stocked : n.Stocked ⟨ring i, addr⟩ (k + 1))
    (all : AllAnswered sha1 addr (n.instances addr) turns inst') :
    ∃ n', Trace (Step sha1 ring) n (turns.flatMap fun turn =>
        [.invoke i turn.1, .respond i (.ok (doResult turn.2))]) n' ∧
      n'.instances addr = inst' := by
  generalize started : n.instances addr = inst at all
  induction all generalizing n with
  | nil inst => exact ⟨n, .nil n, started⟩
  | @cons inst inst' inst'' q replies vs turns there answered others ih =>
      subst there started
      obtain ⟨n₁, trip, round⟩ : ∃ n₁, Trace (Step sha1 ring) n
          [.invoke i q, .respond i (.ok (doResult vs))] n₁ ∧
          RoundTrip n n₁ ⟨ring i, q.addr⟩ (k + 1) inst' :=
        exists_round_trip idle out stocked answered
      have instances : n₁.instances q.addr = inst' := by
        rw [round.instances, Function.update_self]
      obtain ⟨n', trips, ended⟩ := ih (by rw [round.stages, idle]) (by rw [round.phase, out])
        round.stocked instances
      exact ⟨n', trip.trans trips, ended⟩

/-- **A round trip inside of another one.**  The request of `i` has been answered, and some bytes of
the replies have arrived, when `j` begins; `j` returns before `i` does. -/
theorem exists_overlap {j : ω} {r : Request} {k : ℕ} (others : j ≠ i)
    (together : (⟨ring j, r.addr⟩ : ClientId ρ) = ⟨ring i, q.addr⟩)
    (idle : n.stages i = .idle) (idle' : n.stages j = .idle)
    (out : (n.pools ⟨ring i, q.addr⟩).phase i = .out)
    (out' : (n.pools ⟨ring i, q.addr⟩).phase j = .out)
    (stocked : n.Stocked ⟨ring i, q.addr⟩ (k + 2)) {inst' inst'' : Redigo.Instance}
    {replies replies' : List Redigo.Resp} {vs vs' : List Redigo.Value}
    (answered : Answered sha1 (n.instances q.addr) q inst' replies vs)
    (answered' : Answered sha1 inst' r inst'' replies' vs') (arrived : ℕ) :
    ∃ c middle n', Trace (Step sha1 ring) n
        [.invoke i q, .invoke j r, .respond j (.ok (doResult vs'))] middle ∧
      middle.stages i = .receiving q c replies.length [] false ∧
      Trace (Step sha1 ring) middle [.respond i (.ok (doResult vs))] n' ∧
      n'.Stocked ⟨ring i, q.addr⟩ (k + 2) ∧ c ∈ (n'.pools ⟨ring i, q.addr⟩).idle ∧
      n'.instances = Function.update n.instances q.addr inst'' := by
  set client : ClientId ρ := ⟨ring i, q.addr⟩ with isClient
  -- The first goroutine takes a connection, and its request is answered; its replies stay
  -- on their way.
  obtain ⟨c, p', dst, taken, sized, released, asked⟩ : ∃ c p' dst, Taken (n.pools client) p' i c ∧
      dst.size? = q.dst.size? ∧ Link.release { dst := dst } q.dst = {} ∧
      Trace (Step sha1 ring) n [.invoke i q] ((n.repool client p').during i ⟨client, c⟩
        (.receiving q c replies.length [] false) (replying dst replies arrived) inst') :=
    exists_asked idle out stocked answered arrived
  obtain ⟨m, isAsked⟩ : ∃ m, m = (n.repool client p').during i ⟨client, c⟩
    (.receiving q c replies.length [] false) (replying dst replies arrived) inst' := ⟨_, rfl⟩
  rw [← isAsked] at asked
  have pool : m.pools client = p' := by rw [isAsked, during_pools, repool_pools]
  have stocked₁ : m.Stocked client (k + 1) := by
    rw [isAsked]
    exact stocked.taken taken
  have inUse : m.InUse ⟨client, c⟩ := by
    rw [InUse, pool]
    exact stocked.inUse taken
  -- The other goroutine finds another connection.
  have addr : r.addr = q.addr := congrArg ClientId.addr together
  have waiting : m.stages j = .idle := by
    rw [isAsked]
    exact (Function.update_of_ne others _ _).trans idle'
  have outside : (m.pools client).phase j = .out := by
    rw [pool, taken.phase, Function.update_of_ne others, out']
  have there : m.instances r.addr = inst' := by
    rw [isAsked, addr]
    exact during_instances
  -- The second one makes a whole round trip meanwhile, and leaves the connection of the
  -- first alone.
  obtain ⟨n₁, trip, round⟩ : ∃ n₁, Trace (Step sha1 ring) m
      [.invoke j r, .respond j (.ok (doResult vs'))] n₁ ∧
      RoundTrip m n₁ ⟨ring j, r.addr⟩ (k + 1) inst'' :=
    exists_round_trip waiting (by rwa [together]) (by rwa [together]) (by rwa [there])
  rw [together] at round
  obtain ⟨inUse₁, connected⟩ := round.inUse c inUse
  have here : n₁.stages i = .receiving q c replies.length [] false := by
    rw [round.stages, isAsked, during_stages]
  rw [isAsked, during_links] at connected
  have room : (n₁.pools client).idle.length < clientPool.maxIdle := by
    have room := stocked.room_of_taken taken
    have room₁ := round.room
    rw [pool] at room₁
    simp only [clientPool] at room ⊢
    omega
  -- Then the first one reads its replies and gives its connection back.
  have completed : Trace (Step sha1 ring) n₁ [.respond i (.ok (doResult vs))] _ :=
    trace_complete answered sized released here connected round.stocked.opened room
  refine ⟨c, n₁, _, asked.trans trip, here, completed, ?_, ?_, ?_⟩
  · exact (round.stocked.relink inUse₁).given inUse₁ room (Function.update_self ..)
  · simp [go, repool, ← isClient]
  · have instances : m.instances = Function.update n.instances q.addr inst' := by
      rw [isAsked]
      rfl
    have final := round.instances
    rw [instances, isClient, Function.update_idem] at final
    exact final

end Net

end Pdwfs
