import Pdwfs.Concurrency.Pool
import Pdwfs.Redis.Commands
import Pdwfs.Util.ConsistentHash

/-!
# Clients of several Redis instances

The clients of the Redis instances, the ring that gives each key to one of them, and
the requests the program sends.

A `Request` is one round trip: a command, a pipelined transaction (`MULTI`…`EXEC`)
or the script of `trimStripe`.  Each is executed atomically by its instance.  A
request may carry a destination buffer, into which the connection reads a bulk reply
(`SetReadBuffer`).

The instances have no limit on the length of a string: it is the configuration that
keeps stripes below it.  `serveWithin` is an instance that has one.

## Round trips

The functions of the file system are programs (`Prog`) whose requests are round
trips, and `serve` says what a round trip does to the instances.  Below it there are
connections, pools and bytes.  They are modelled on their own, and
`Net.run_linearizable` says that round trips over them are what they are taken for
here: each of them is executed in one step, between its invocation and its answer.

A transaction is one request for the same reason: nobody else's commands are
executed between its own.  `Flush` looks only at the reply to `EXEC`, so an error of
one of the commands stays inside of the array and is seen by nobody; what the others
did is not undone.

## Destination buffers

The caller of a `GET` or a `GETRANGE` may give the connection a buffer for the bytes
of the reply.  Then the reply is a count, a reply that does not fit is a protocol
error, and the null reply of a missing key is no error at all.  The slices that are
given in this way are parts of one buffer and do not overlap, so what is filled is
remembered with its position in that buffer (`Slice.pos`), and the caller puts it
there.
-/

namespace Pdwfs

open Concurrency

/-- The address of a Redis instance. -/
abbrev Addr := GoString

/-- The contents of all instances, by their addresses. -/
abbrev Cluster := Addr → Redis.Database GoString GoString

/-- A byte slice: its bytes and, when it was cut from a longer slice, the index of
its first byte there.  The zero value `Slice.nil` is told apart from an empty slice
by the connection, see `readReply`. -/
structure Slice where
  bytes : List UInt8
  pos : ℕ := 0
  isNil : Bool := false
  deriving DecidableEq

/-- The zero value of a slice. -/
def Slice.nil : Slice := { bytes := [], isNil := true }

/-- `data[lo:hi]`. -/
def Slice.sub (data : List UInt8) (lo hi : ℕ) : Slice :=
  { bytes := (data.drop lo).take (hi - lo), pos := lo }

/-- A client to a single Redis instance. -/
structure RedisClient where
  addr : Addr
  deriving DecidableEq

/-- What is sent to an instance in one round trip. -/
inductive Body
  | single (cmd : Redis.Cmd GoString GoString)
  | multi (cmds : List (Redis.Cmd GoString GoString))
  /-- `GETRANGE key 0 stop`, then `SET key` to the reply. -/
  | trimStripeScript (key : GoString) (stop : ℤ)
  deriving DecidableEq

/-- One round trip to an instance, with the read buffer of the connection. -/
structure Request where
  addr : Addr
  body : Body
  dst : Slice := Slice.nil
  deriving DecidableEq

/-- What the connection hands to the caller. -/
inductive ConnReply
  | server (reply : Redis.Reply GoString)
  | array (replies : List (Redis.Reply GoString))
  /-- `bytes` have been read into the destination buffer, which starts at `pos`. -/
  | filled (pos : ℕ) (bytes : List UInt8)
  /-- The destination buffer is too small. -/
  | protocolError
  deriving DecidableEq

/-- Read the reply of a single command.  Only a bulk reply goes into the destination
buffer, and only if there is one; an empty slice is a buffer, and is too small for
any byte. -/
def readReply (dst : Slice) (reply : Redis.Reply GoString) : ConnReply :=
  match reply with
  | .bulk bytes =>
      if dst.isNil then .server reply
      else if dst.bytes.length < bytes.length then .protocolError
      else .filled dst.pos bytes
  | _ => .server reply

/-- The effect of a request on its instance, and what the instance replies.  The
replies of a transaction are not read into a buffer. -/
def Body.exec (body : Body) (dst : Slice) (db : Redis.Database GoString GoString) :
    Redis.Database GoString GoString × ConnReply :=
  match body with
  | .single cmd =>
      let answered := Redis.exec cmd db
      (answered.1, readReply dst answered.2)
  | .multi cmds =>
      let answered := Redis.execAll cmds db
      (answered.1, .array answered.2)
  | .trimStripeScript key stop =>
      match Redis.exec (.getrange key 0 stop) db with
      | (read, .bulk str) =>
          let written := Redis.exec (.set key str) read
          (written.1, readReply dst written.2)
      | (read, reply) => (read, readReply dst reply)

/-- **One round trip**: the request is executed by the instance it is sent to. -/
def serve (q : Request) (cluster : Cluster) : Cluster × ConnReply :=
  let answered := q.body.exec q.dst (cluster q.addr)
  (Function.update cluster q.addr answered.1, answered.2)

/-- A program of the file system: it sends requests to the instances. -/
abbrev Prog (α : Type) := Program Request ConnReply α

/-- A run of a program that has the instances for itself. -/
abbrev Exec {α : Type} (program : Prog α) (cluster cluster' : Cluster)
    (outcome : Option α) : Prop :=
  Program.Exec serve program cluster cluster' outcome

/-- The run that serves the goroutines of every fork in the order of their start. -/
def run {α : Type} (program : Prog α) (cluster : Cluster) : Cluster × Option α :=
  Program.run serve program cluster

namespace RedisClient

/-- Send one command and wait for its reply. -/
def send (client : RedisClient) (cmd : Redis.Cmd GoString GoString) : Prog ConnReply :=
  Program.request { addr := client.addr, body := .single cmd }

/-- Send a pipelined transaction.  `Flush` only looks at the reply to `EXEC`: the
errors of the single commands stay inside of it. -/
def pipeline (client : RedisClient) (cmds : List (Redis.Cmd GoString GoString)) : Prog Unit := do
  let _ ← Program.request { addr := client.addr, body := .multi cmds }
  return ()

/-- `EXISTS`; an error reply aborts the program. -/
def «exists» (client : RedisClient) (key : GoString) : Prog Bool := do
  match ← client.send (.exists key) with
  | .server (.int n) => return n ≠ 0
  | _ => .panic

/-- `SADD`; an error reply aborts the program (every caller wraps it in `Try`). -/
def sAdd (client : RedisClient) (key member : GoString) : Prog Unit := do
  match ← client.send (.sadd key member) with
  | .server .err => .panic
  | _ => return ()

/-- `SREM`, in the same way. -/
def sRem (client : RedisClient) (key member : GoString) : Prog Unit := do
  match ← client.send (.srem key member) with
  | .server .err => .panic
  | _ => return ()

/-- `SMEMBERS`; an error reply aborts the program. -/
def sMembers (client : RedisClient) (key : GoString) : Prog (List GoString) := do
  match ← client.send (.smembers key) with
  | .server (.members members) => return members
  | _ => .panic

/-- `UNLINK`. -/
def unlink (client : RedisClient) (keys : List GoString) : Prog Unit := do
  match ← client.send (.unlink keys) with
  | .server .err => .panic
  | _ => return ()

/-- `STRLEN`; an error reply aborts the program. -/
def strlen (client : RedisClient) (key : GoString) : Prog ℤ := do
  match ← client.send (.strlen key) with
  | .server (.int n) => return n
  | _ => .panic

end RedisClient

/-! ## The ring -/

/-- The part of a key that is hashed: what stands between its first `{` and the next
`}` if that is not empty, otherwise the whole key.  All keys of one path have the
path there, and so they are on one instance. -/
def hashedPart (key : GoString) : GoString :=
  let s := key.idxOf '{'
  if s < key.length then
    let rest := key.drop (s + 1)
    let e := rest.idxOf '}'
    if 0 < e ∧ e < rest.length then rest.take e else key
  else key

/-- The clients by their identifier, and the hash that picks an identifier.  The
hash only answers with identifiers of the ring, so that picking a client never
fails: a ring for which it could cannot be built. -/
structure RedisRing where
  clients : List (GoString × RedisClient)
  hash : ConsistentHash
  get_isSome : ∀ key, (clients.lookup (hash.get key)).isSome

namespace RedisRing

/-- The client of a key. -/
def getClient (r : RedisRing) (key : GoString) : RedisClient :=
  (r.clients.lookup (r.hash.get (hashedPart key))).get (r.get_isSome (hashedPart key))

/-- The client of a key is one of the clients of the ring. -/
theorem getClient_mem (r : RedisRing) (key : GoString) :
    ∃ id, (id, r.getClient key) ∈ r.clients := by
  have found : r.clients.lookup (r.hash.get (hashedPart key)) = some (r.getClient key) := by
    simp [getClient]
  obtain ⟨before, after, split, -⟩ := List.lookup_eq_some_iff.mp found
  exact ⟨r.hash.get (hashedPart key), by rw [split]; simp⟩

/-- An identifier of the list has a client. -/
theorem lookup_isSome_of_mem {β : Type} {id : GoString} {entries : List (GoString × β)}
    (member : id ∈ entries.map Prod.fst) : (entries.lookup id).isSome := by
  induction entries with
  | nil => simp at member
  | cons entry rest ih =>
      obtain ⟨id', value⟩ := entry
      by_cases same : id = id'
      · simp [List.lookup, same]
      · have later : id ∈ rest.map Prod.fst := by simpa [same] using member
        simpa [List.lookup, beq_false_of_ne same] using ih later

/-- The clients of a list of addresses, identified by their index. -/
def clientsOf (addrs : List Addr) : List (GoString × RedisClient) :=
  addrs.zipIdx.map fun entry => (formatInt entry.2, { addr := entry.1 })

/-- The ring over a non-empty list of addresses, with 100 replicas of each client. -/
def new (addrs : List Addr) (fn : GoString → ℕ) (nonempty : addrs ≠ []) : RedisRing where
  clients := clientsOf addrs
  hash := (ConsistentHash.new 100 fn).add ((clientsOf addrs).map Prod.fst)
  get_isSome := by
    intro key
    refine lookup_isSome_of_mem (ConsistentHash.get_add_new_mem (by decide) fn ?_ key)
    simpa [clientsOf] using nonempty

end RedisRing

end Pdwfs
