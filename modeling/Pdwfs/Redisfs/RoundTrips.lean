import Pdwfs.Concurrency.Atomic
import Pdwfs.Redigo.ActiveConn
import Pdwfs.Redigo.Pool
import Pdwfs.Redisfs.Messages

/-!
# Round trips over connections

What a request is under the hood.  A goroutine takes a connection from the pool of
the client, writes the commands into its buffer, flushes it, reads the replies and
gives the connection back.  The bytes arrive at the instance in pieces, at any time;
the instance answers the commands of all of its connections in any order of the
connections; and what it answers arrives in pieces as well.

* `Link` — a connection, from the buffers of the client to those of the instance.
* `Stage` — how far a goroutine is with its request.
* `Net.Step` — the next thing that happens anywhere.

A `Get` that fails leaves its goroutine where it is, and the network does not lose
anything.

## What is concurrent

Everything in `Net` may be in progress at once: goroutines of all clients, each in
some stage of its request, several connections to one instance, and bytes in all
buffers.  A step is as small as it can be seen from outside: one command is written,
some bytes move on, one command is answered, one reply is read.  What is taken as
one step is what only the goroutine itself can see, like the parsing of a reply that
has arrived.

A pool is shared by the goroutines of a client, and has steps of its own.  `InPool`
ties the two together: it is the goroutines in `Get` and in `put` that move there.

## What is left out

Connections do not break, and there are no timeouts.  An instance may forget the
scripts it has executed, which is what happens when it is restarted without its
memory, or is told to.  The steps of the retry after that are in the model.  A reply
that an instance cannot send, because it does not fit into memory, is one that is
never sent.
-/

namespace Pdwfs

open Concurrency

/-- One of the clients of a ring. -/
structure ClientId (ρ : Type) where
  ring : ρ
  addr : Addr
  deriving DecidableEq

/-- A connection of a client.  The pool numbers them as they are dialed. -/
structure Line (ρ : Type) where
  client : ClientId ρ
  conn : Redigo.ConnId
  deriving DecidableEq

/-- The pool of a client. -/
def clientPool : Redigo.PoolConfig := { maxIdle := 5, maxActive := 50, wait := true }

/-- What a goroutine is given for its commands. -/
abbrev Outcome := Except Redigo.ReadError (Redigo.Value × Option Redigo.Bytes)

/-! ## Connections -/

/-- A connection and the bytes on it.  They are in one of five places, in the order
of the fields. -/
structure Link where
  /-- The commands whose replies have not been asked for. -/
  pending : ℕ := 0
  /-- Whether there has been an error, so that the connection is not used again. -/
  failed : Bool := false
  state : Redigo.ConnState := {}
  dst : Slice := Slice.nil
  /-- Written and not flushed. -/
  bw : Redigo.Bytes := []
  /-- On the way to the instance. -/
  up : Redigo.Bytes := []
  /-- Arrived at the instance. -/
  inbox : Redigo.Bytes := []
  /-- What the instance knows about the connection. -/
  session : Option Redigo.Transaction := none
  /-- On the way to the client. -/
  down : Redigo.Bytes := []
  /-- Arrived at the client. -/
  br : Redigo.Bytes := []

namespace Link

/-- The connection at the beginning of a request. -/
def acquire (link : Link) (dst : Slice) : Link :=
  { link with state := {}, dst := if dst.isNil then link.dst else dst }

/-- `Send`. -/
def send (link : Link) (call : Call) : Link :=
  { link with
    pending := link.pending + 1
    state := link.state.after call.cmd
    bw := link.bw ++ call.write }

/-- The first half of `Do`: write the command, and flush. -/
def flush (link : Link) (call : Call) : Link :=
  { link with
    pending := 0
    state := link.state.after call.cmd
    bw := []
    up := link.up ++ (link.bw ++ call.write) }

/-- The connection at the end of a request. -/
def release (link : Link) (dst : Slice) : Link :=
  { link with dst := if dst.isNil then link.dst else Slice.nil }

/-- Some of the bytes move on. -/
inductive Carry : Link → Link → Prop
  /-- The buffer of the client is full. -/
  | overflow {link : Link} (n : ℕ) :
      Carry link { link with up := link.up ++ link.bw.take n, bw := link.bw.drop n }
  | arrive {link : Link} (n : ℕ) :
      Carry link { link with inbox := link.inbox ++ link.up.take n, up := link.up.drop n }
  | comeBack {link : Link} (n : ℕ) :
      Carry link { link with br := link.br ++ link.down.take n, down := link.down.drop n }

end Link

/-! ## Goroutines -/

/-- How far a goroutine is.  Each stage carries what the goroutine has in its local
variables. -/
inductive Stage
  | idle
  /-- In `Get`. -/
  | connecting (q : Request)
  /-- The last of the commands is sent by `Do`, the others by `Send`. -/
  | sending (q : Request) (c : Redigo.ConnId) (todo : List Call) (retried : Bool)
  /-- In `Do`, with so many replies to read. -/
  | receiving (q : Request) (c : Redigo.ConnId) (left : ℕ) (got : List Redigo.Value)
      (retried : Bool)
  /-- In front of the `Close` of the connection. -/
  | leaving (q : Request) (c : Redigo.ConnId) (outcome : Outcome)
  /-- In `put`. -/
  | returning (q : Request) (outcome : Outcome)

/-- The connection that a goroutine uses for its request. -/
def Stage.line? {ρ : Type} (ring : ρ) : Stage → Option (Line ρ)
  | .sending q c _ _ => some ⟨⟨ring, q.addr⟩, c⟩
  | .receiving q c _ _ _ => some ⟨⟨ring, q.addr⟩, c⟩
  | .leaving q c _ => some ⟨⟨ring, q.addr⟩, c⟩
  | _ => none

/-- The command that is sent once more: a script is sent by its text if the instance
does not know its digest. -/
def retryFor (body : Body) (retried : Bool) (answered : Redigo.Value × Option Redigo.Bytes) :
    Option Call :=
  match answered.2 with
  | some text =>
      if retried = false ∧ Redigo.ascii "NOSCRIPT " <+: text then retryOf body else none
  | none => none

/-- What the types promise of a request: its integers have 64 bits, and its strings
fit into memory.  Only a command that replies with a string is given a destination
buffer. -/
structure Request.Sendable (sha1 : Redigo.Bytes → Redigo.Bytes) (q : Request) : Prop where
  calls : ∀ call ∈ callsOf sha1 q.body, call.strings.Sendable
  retry : ∀ call ∈ retryOf q.body, call.strings.Sendable
  ranged : match q.body with
    | .single cmd => RangedCmd cmd
    | .multi cmds => ∀ cmd ∈ cmds, RangedCmd cmd
    | .trimStripeScript _ stop => Wrapping.InRange stop
  dst : match q.body with
    | .single (.get _) => True
    | .single (.getrange _ _ _) => True
    | _ => q.dst.isNil = true

/-! ## The system -/

/-- The instances, the clients with their pools and connections, and the goroutines.
Each goroutine uses the clients of one ring. -/
structure Net (ρ ω : Type) where
  instances : Addr → Redigo.Instance
  pools : ClientId ρ → Redigo.Pool ω
  links : Line ρ → Link
  stages : ω → Stage

namespace Net

variable {ρ ω : Type}

/-- The beginning: no connection has been dialed. -/
def start (instances : Addr → Redigo.Instance) : Net ρ ω where
  instances := instances
  pools := fun _ => .new clientPool
  links := fun _ => {}
  stages := fun _ => .idle

variable [DecidableEq ρ] [DecidableEq ω]

/-- The goroutine `i` goes on to `stage`. -/
def go (n : Net ρ ω) (i : ω) (stage : Stage) : Net ρ ω :=
  { n with stages := Function.update n.stages i stage }

/-- Something happens to a connection. -/
def relink (n : Net ρ ω) (line : Line ρ) (link : Link) : Net ρ ω :=
  { n with links := Function.update n.links line link }

/-- Something happens in a pool. -/
def repool (n : Net ρ ω) (client : ClientId ρ) (p : Redigo.Pool ω) : Net ρ ω :=
  { n with pools := Function.update n.pools client p }

/-- Something happens to an instance. -/
def reinstance (n : Net ρ ω) (addr : Addr) (inst : Redigo.Instance) : Net ρ ω :=
  { n with instances := Function.update n.instances addr inst }

variable (sha1 : Redigo.Bytes → Redigo.Bytes) (ring : ω → ρ)

/-- The goroutine is inside of `Get` or `put` of the pool. -/
def InPool (n : Net ρ ω) (i : ω) (client : ClientId ρ) : Prop :=
  (∃ q, n.stages i = .connecting q ∧ client = ⟨ring i, q.addr⟩ ∧
      ∀ c, (n.pools client).phase i ≠ .holding c) ∨
    ∃ q outcome, n.stages i = .returning q outcome ∧ client = ⟨ring i, q.addr⟩ ∧
      (n.pools client).phase i ≠ .out

/-- One command that has arrived is answered. -/
def answer (n : Net ρ ω) (line : Line ρ) (cmd : Redigo.Command) (rest : Redigo.Bytes) :
    Net ρ ω :=
  let link := n.links line
  let answered := (n.instances line.client.addr).handle sha1 link.session cmd
  (n.reinstance line.client.addr answered.1).relink line { link with
    inbox := rest
    session := answered.2.1
    down := link.down ++ answered.2.2.encode }

/-- What happens next.  Only the requests and their outcomes are visible, and
everything else is silent. -/
inductive Step : Net ρ ω → Option (Event ω Request Outcome) → Net ρ ω → Prop
  | invoke {n : Net ρ ω} (i : ω) (q : Request) (free : n.stages i = .idle)
      (sendable : q.Sendable sha1) : Step n (some (.invoke i q)) (n.go i (.connecting q))
  /-- In one of the pools. -/
  | pool {n : Net ρ ω} (client : ClientId ρ) {p : Redigo.Pool ω}
      (step : Redigo.Pool.Step clientPool (n.pools client) p)
      (who : ∀ i, p.phase i ≠ (n.pools client).phase i → n.InPool ring i client) :
      Step n none (n.repool client p)
  /-- `Get` has returned. -/
  | acquire {n : Net ρ ω} (i : ω) {q : Request} {c : Redigo.ConnId}
      (here : n.stages i = .connecting q)
      (held : (n.pools ⟨ring i, q.addr⟩).phase i = .holding c) :
      Step n none ((n.go i (.sending q c (callsOf sha1 q.body) false)).relink
        ⟨⟨ring i, q.addr⟩, c⟩ ((n.links ⟨⟨ring i, q.addr⟩, c⟩).acquire q.dst))
  | send {n : Net ρ ω} (i : ω) {q : Request} {c : Redigo.ConnId} {call next : Call}
      {rest : List Call} {retried : Bool}
      (here : n.stages i = .sending q c (call :: next :: rest) retried) :
      Step n none ((n.go i (.sending q c (next :: rest) retried)).relink
        ⟨⟨ring i, q.addr⟩, c⟩ ((n.links ⟨⟨ring i, q.addr⟩, c⟩).send call))
  | flush {n : Net ρ ω} (i : ω) {q : Request} {c : Redigo.ConnId} {call : Call}
      {retried : Bool} (here : n.stages i = .sending q c [call] retried) :
      Step n none ((n.go i (.receiving q c ((n.links ⟨⟨ring i, q.addr⟩, c⟩).pending + 1) []
        retried)).relink ⟨⟨ring i, q.addr⟩, c⟩ ((n.links ⟨⟨ring i, q.addr⟩, c⟩).flush call))
  | carry {n : Net ρ ω} (line : Line ρ) {link : Link} (carried : (n.links line).Carry link) :
      Step n none (n.relink line link)
  /-- The instance answers a command, with a reply that fits into memory. -/
  | answer {n : Net ρ ω} (line : Line ρ) {cmd : Redigo.Command} {rest : Redigo.Bytes}
      (arrived : Redigo.readCommand (n.links line).inbox = .ok (cmd, rest))
      (sendable : ((n.instances line.client.addr).handle sha1 (n.links line).session
        cmd).2.2.Sendable) :
      Step n none (n.answer sha1 line cmd rest)
  | read {n : Net ρ ω} (i : ω) {q : Request} {c : Redigo.ConnId} {left : ℕ}
      {got : List Redigo.Value} {retried : Bool}
      (here : n.stages i = .receiving q c (left + 1) got retried)
      {v : Redigo.Value} {rest : Redigo.Bytes}
      (arrived : Redigo.readReply (n.links ⟨⟨ring i, q.addr⟩, c⟩).dst.size?
        (n.links ⟨⟨ring i, q.addr⟩, c⟩).br = .ok (v, rest)) :
      Step n none ((n.go i (.receiving q c left (got ++ [v]) retried)).relink
        ⟨⟨ring i, q.addr⟩, c⟩ { n.links ⟨⟨ring i, q.addr⟩, c⟩ with br := rest })
  /-- A reply cannot be read: the connection is closed. -/
  | readError {n : Net ρ ω} (i : ω) {q : Request} {c : Redigo.ConnId} {left : ℕ}
      {got : List Redigo.Value} {retried : Bool}
      (here : n.stages i = .receiving q c (left + 1) got retried) {e : Redigo.ReadError}
      (final : e.Final) (arrived : Redigo.readReply (n.links ⟨⟨ring i, q.addr⟩, c⟩).dst.size?
        (n.links ⟨⟨ring i, q.addr⟩, c⟩).br = .error e) :
      Step n none ((n.go i (.leaving q c (.error e))).relink ⟨⟨ring i, q.addr⟩, c⟩
        ({ n.links ⟨⟨ring i, q.addr⟩, c⟩ with failed := true }.release q.dst))
  /-- The script is sent once more. -/
  | retry {n : Net ρ ω} (i : ω) {q : Request} {c : Redigo.ConnId} {got : List Redigo.Value}
      {retried : Bool} (here : n.stages i = .receiving q c 0 got retried) {call : Call}
      (again : retryFor q.body retried (doResult got) = some call) :
      Step n none (n.go i (.sending q c [call] true))
  | finish {n : Net ρ ω} (i : ω) {q : Request} {c : Redigo.ConnId} {got : List Redigo.Value}
      {retried : Bool} (here : n.stages i = .receiving q c 0 got retried)
      (last : retryFor q.body retried (doResult got) = none) :
      Step n none ((n.go i (.leaving q c (.ok (doResult got)))).relink ⟨⟨ring i, q.addr⟩, c⟩
        ((n.links ⟨⟨ring i, q.addr⟩, c⟩).release q.dst))
  /-- `Close` of a connection that waits for nothing. -/
  | close {n : Net ρ ω} (i : ω) {q : Request} {c : Redigo.ConnId} {outcome : Outcome}
      (here : n.stages i = .leaving q c outcome)
      (settled : (n.links ⟨⟨ring i, q.addr⟩, c⟩).pending = 0)
      (clean : (n.links ⟨⟨ring i, q.addr⟩, c⟩).state = {}) :
      Step n none ((n.go i (.returning q outcome)).repool ⟨ring i, q.addr⟩
        ((n.pools ⟨ring i, q.addr⟩).move i
          (.putting c (n.links ⟨⟨ring i, q.addr⟩, c⟩).failed)))
  | respond {n : Net ρ ω} (i : ω) {q : Request} {outcome : Outcome}
      (here : n.stages i = .returning q outcome)
      (out : (n.pools ⟨ring i, q.addr⟩).phase i = .out) :
      Step n (some (.respond i outcome)) (n.go i .idle)
  /-- An instance forgets the scripts that it has executed. -/
  | forget {n : Net ρ ω} (addr : Addr) :
      Step n none (n.reinstance addr { n.instances addr with scripts := fun _ => none })

end Net

end Pdwfs
