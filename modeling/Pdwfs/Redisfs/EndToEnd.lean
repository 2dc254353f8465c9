import Pdwfs.Redisfs.Linearizable
import Pdwfs.Redisfs.Observations
import Pdwfs.Redisfs.Wired

/-!
# File calls, end to end

Clients that make calls on files, over connections.

* `Wire.perform`, `Wire.performAll` — the calls of a client.
* `Wire.performAtomic` — the same calls, given the replies themselves.
* `Wire.clients_refine` — **end to end**: clients over connections, buffers and
  pools, and clients over a store that executes each request in one step.

## How it is put together

There are two refinements, and this module composes them.  One is about requests:
the network executes each of them in one step (`Linearizable`).  The other one is
about operations: what they make of the values they are given is what the operations
of the data store make of the replies (`Wired`).  The clients are programs that
start goroutines, so that there is one more layer, in which a goroutine of a program
is a goroutine of the network; it is a matter of programs in general, and not of
this one.

So what is proved about the calls on files in the model of requests holds of the
bytes on the connections.

## One client

The run at the end is computed step by step.  The client writes a byte behind a gap,
asks for the size, and reads the gap and the byte, and what it is given by the
network is what the store would have given it.
-/

namespace Pdwfs

open Concurrency

namespace Wire

variable {s : DataStore}

/-! ## Calls -/

/-- What the callers promise of a call: offsets and sizes are not negative, and the
bytes of a file have numbers of 64 bits. -/
def Ranged : FileCall → Prop
  | .writeAt off data => 0 ≤ off ∧ off + data.length ≤ 2 ^ 63
  | .readAt off _ => 0 ≤ off
  | .resize newSize => 0 ≤ newSize ∧ newSize < 2 ^ 63
  | _ => True

/-- One call. -/
def perform (s : DataStore) (name : GoString) : FileCall → WireProg FileReturn
  | .writeAt off data => do
      writeAt s name off data
      return .done
  | .readAt off dst => do
      let (n, dst) ← readAt s name off dst
      return .read n dst
  | .getSize => do
      let n ← getSize s name
      return .size n
  | .resize newSize => do
      resize s name newSize
      return .done
  | .remove => do
      remove s name
      return .done

/-- A sequence of calls on files. -/
def performAll (s : DataStore) : List (GoString × FileCall) → WireProg (List FileReturn)
  | [] => return []
  | call :: rest => do
      let returned ← perform s call.1 call.2
      let others ← performAll s rest
      return returned :: others

/-- The same over the store. -/
def performAtomic (s : DataStore) : List (GoString × FileCall) → Prog (List FileReturn)
  | [] => return []
  | call :: rest => do
      let returned ← s.perform call.1 call.2
      let others ← performAtomic s rest
      return returned :: others

/-- One call over connections does what the call does. -/
theorem renders_perform (name : GoString) {call : FileCall} (ranged : Ranged call) :
    Renders s (fun _ => True) (perform s name call) (s.perform name call) := by
  cases call with
  | writeAt off data =>
      exact (renders_writeAt name ranged.1 ranged.2).bind fun _ _ => Program.renders_ret trivial
  | readAt off dst =>
      exact (renders_readAt name ranged dst).bind fun _ _ => Program.renders_ret trivial
  | getSize => exact (renders_getSize name).bind fun _ _ => Program.renders_ret trivial
  | resize newSize =>
      exact (renders_resize name ranged.2).bind fun _ _ => Program.renders_ret trivial
  | remove => exact (renders_remove name).bind fun _ _ => Program.renders_ret trivial

/-- So does a sequence of calls. -/
theorem renders_performAll {calls : List (GoString × FileCall)}
    (ranged : ∀ call ∈ calls, Ranged call.2) :
    Renders s (fun _ => True) (performAll s calls) (performAtomic s calls) := by
  induction calls with
  | nil => exact Program.renders_ret trivial
  | cons call rest ih =>
      refine (renders_perform call.1 (ranged call (by simp))).bind fun returned _ => ?_
      refine (ih fun call' member => ranged call' (.tail call member)).bind fun others _ => ?_
      exact Program.renders_ret trivial

/-- A call with arguments in range is not aborted. -/
theorem safe_perform (name : GoString) {call : FileCall} (ranged : Ranged call) :
    s.Safe False (fun _ => True) (s.perform name call) := by
  cases call with
  | writeAt off data => exact (DataStore.safe_writeAt s name ranged.1 data).bind fun _ _ => trivial
  | readAt off dst => exact (DataStore.safe_readAt s name ranged dst).bind fun _ _ => trivial
  | getSize => exact (DataStore.safe_getSize s name).bind fun _ _ => trivial
  | resize newSize =>
      exact (DataStore.safe_resize_of_nonneg s name ranged.1).bind fun _ _ => trivial
  | remove => exact (DataStore.safe_remove s name).bind fun _ _ => trivial

/-- Nor is a sequence of them. -/
theorem safe_performAtomic {calls : List (GoString × FileCall)}
    (ranged : ∀ call ∈ calls, Ranged call.2) :
    s.Safe False (fun _ => True) (performAtomic s calls) := by
  induction calls with
  | nil => trivial
  | cons call rest ih =>
      refine (safe_perform call.1 (ranged call (by simp))).bind fun returned _ => ?_
      exact (ih fun call' member => ranged call' (.tail call member)).bind fun _ _ => trivial

/-! ## End to end -/

/-- At first there are no files. -/
theorem within_empty (s : DataStore) : Within s fun _ _ => none where
  inv name := DataStore.fileInv_empty s name
  id_lt name id registered := by
    simp [DataStore.Registered, DataStore.idsAt, Redis.membersAt, Redis.setAt?] at registered

section Runs

variable {ρ ω ι : Type} [DecidableEq ρ] [DecidableEq ω] [DecidableEq ι]
  {sha1 : Redigo.Bytes → Redigo.Bytes} {ring : ω → ρ} {owner : ω → ι} {cluster : Cluster}
  {instances : Addr → Redigo.Instance}

/-- **The file calls, end to end.**  Clients make calls on files.  Each call starts goroutines,
which take connections from pools, send commands as bytes, parse the bytes of the replies, and
convert them.  However all this is interleaved, there is a run of the same calls in which the
store executes each request in one step, that ends with what the instances hold, and in which each
client that has returned has been returned the same.  No call of a client is aborted. -/
theorem clients_refine (holds : ∀ addr, Holds sha1 (cluster addr) (instances addr))
    (within : Within s cluster) {calls : ι → List (GoString × FileCall)}
    (ranged : ∀ j, ∀ call ∈ calls j, Ranged call.2)
    {events : List (Event ω Request Outcome)} {n : Net ρ ω}
    {clients : ι → Client ω Request Outcome (List FileReturn)}
    (run : Trace (Net.Step sha1 ring) (Net.start instances) events n)
    (made : Clients.Run owner (fun j => ⟨performAll s (calls j), []⟩) events clients) :
    ∃ (labels : List (ι × Request × ConnReply)) (c : Cluster)
      (final : ι → Prog (List FileReturn)),
      Pool.Run serve ⟨cluster, fun j => performAtomic s (calls j)⟩ labels ⟨c, final⟩ ∧
      (∀ addr, Holds sha1 (c addr) (n.instances addr)) ∧
      ∀ j, (∀ returned, (clients j).program = .ret returned → final j = .ret returned) ∧
        (clients j).program ≠ .panic := by
  obtain ⟨a, trace, related⟩ := (related_start sha1 ring holds).run run
  obtain ⟨labels, final, performed, same⟩ := Clients.exists_run
    (fun q c allowed inside => allowed c inside) within
    (fun j => renders_performAll (ranged j)) trace made
  have safe := (performed.safe (fun j => safe_performAtomic (ranged j)) within.inv).2
  refine ⟨labels, a.store, final, performed, related.holds, fun j => ⟨(same j).1, ?_⟩⟩
  intro aborted
  have stopped : s.Safe False (fun _ => True) (final j) := safe j
  rwa [(same j).2 aborted] at stopped

end Runs

/-! ## One client -/

section OneClient

/-- A client that writes a byte behind a gap, asks for the size of the file, and reads it. -/
def clientCalls : List (GoString × FileCall) :=
  [(['f'], .writeAt 1 [7]), (['f'], .getSize), (['f'], .readAt 0 [0, 0])]

/-! What it asks of the only instance. -/

/-- The byte, which is written behind the gap. -/
def clientWrite : Request :=
  (smallStore 2).writeStripe ['f'] { id := 0, off := 1, data := Slice.sub [7] 0 1 }

/-- The stripes of the file. -/
def clientMembers : Request := DataStore.membersRequest ['f'] (['0'], ⟨['a']⟩)

/-- The length of the last one. -/
def clientStrlen : Request := { addr := ['a'], body := .single (.strlen (key ['f'] 0)) }

/-- The two bytes, which are read into the buffer. -/
def clientRead : Request :=
  (smallStore 2).readStripe ['f'] { id := 0, off := 0, data := Slice.sub [0, 0] 0 2 }

/-- The requests, and what it reads from the connection. -/
def clientTurns : List (Request × List Redigo.Value) :=
  [(clientWrite, [.status (Redigo.ascii "OK"), .status (Redigo.ascii "QUEUED"),
    .status (Redigo.ascii "QUEUED"), .array [.int64 1, .int64 2]]),
  (clientMembers, [.array [.bytes (Redigo.ascii "0")]]),
  (clientStrlen, [.int64 2]),
  (clientRead, [.read [0, 7]])]

/-- The events of the client. -/
def clientEvents : List (Event Unit Request Outcome) :=
  clientTurns.flatMap fun turn => [.invoke () turn.1, .respond () (.ok (doResult turn.2))]

/-- A client with one worker makes a request and is given the answer. -/
theorem run_turn {program program' : WireProg (List FileReturn)} {q : Request} {view : Outcome}
    {nonempty : [q] ≠ []} {next : List (Request × Outcome) → WireProg (List FileReturn)}
    (forked : program = .fork [q] nonempty [] next) {events : List (Event Unit Request Outcome)}
    (later : Clients.Run (fun _ : Unit => ()) (fun _ => ⟨next [(q, view)], []⟩) events
      (fun _ => ⟨program', []⟩)) :
    Clients.Run (fun _ : Unit => ()) (fun _ => ⟨program, []⟩)
      (.invoke () q :: .respond () view :: events) (fun _ => ⟨program', []⟩) := by
  subst forked
  have waits : ([q] : List Request).Subperm [q] := List.Subperm.refl _
  refine .cons (.invoke () q waits) (.cons (.respond () q view [] [] rfl
    (.answer [] [] q (q, view) [] next nonempty)) ?_)
  simp only [Function.update_eq_const_of_subsingleton, List.append_nil, List.nil_append]
  exact later

theorem run_client : Clients.Run (fun _ : Unit => ())
    (fun _ => ⟨performAll (smallStore 2) clientCalls, []⟩) clientEvents
    (fun _ => ⟨.ret [.done, .size 2, .read 2 [0, 7]], []⟩) :=
  run_turn rfl (run_turn rfl (run_turn rfl (run_turn rfl (.nil _))))

/-- The instance, once the byte has been written. -/
def clientInstance : Redigo.Instance := (Net.handleAll id (Net.emptyInstances ['a']) none
  ((callsOf id clientWrite.body).map Call.strings)).1

/-- The transaction is answered: the string has two bytes, and the set one member.
-/
theorem answered_clientWrite : Net.Answered id (Net.emptyInstances ['a']) clientWrite
    clientInstance
    [.simple (Redigo.ascii "OK"), .simple (Redigo.ascii "QUEUED"),
      .simple (Redigo.ascii "QUEUED"), .array [.integer 1, .integer 2]]
    [.status (Redigo.ascii "OK"), .status (Redigo.ascii "QUEUED"),
      .status (Redigo.ascii "QUEUED"), .array [.int64 1, .int64 2]] where
  sendable := {
    calls := by decide +kernel
    retry := fun _ member => nomatch member
    ranged := List.forall_mem_cons.mpr ⟨trivial,
      List.forall_mem_singleton.mpr (by decide : Wrapping.InRange 1)⟩
    dst := rfl }
  clean := rfl
  handled := Prod.ext rfl rfl
  fits := Redigo.allSendable_iff.mp ⟨(by decide : Redigo.lf ∉ Redigo.ascii "OK"),
    (by decide : Redigo.lf ∉ Redigo.ascii "QUEUED"),
    (by decide : Redigo.lf ∉ Redigo.ascii "QUEUED"),
    ⟨by decide, (by decide : Wrapping.InRange 1), (by decide : Wrapping.InRange 2), trivial⟩,
    trivial⟩
  values := rfl
  last := rfl

/-- There is one stripe. -/
theorem answered_clientMembers : Net.Answered id clientInstance clientMembers clientInstance
    [.array [.bulk (Redigo.ascii "0")]] [.array [.bytes (Redigo.ascii "0")]] where
  sendable := {
    calls := by decide +kernel
    retry := fun _ member => nomatch member
    ranged := trivial
    dst := rfl }
  clean := rfl
  handled := rfl
  fits := Redigo.allSendable_iff.mp
    ⟨⟨by decide, (by decide : (Redigo.ascii "0").length < 2 ^ 63), trivial⟩, trivial⟩
  values := rfl
  last := rfl

/-- It has two bytes, the gap and the byte that has been written. -/
theorem answered_clientStrlen : Net.Answered id clientInstance clientStrlen clientInstance
    [.integer 2] [.int64 2] where
  sendable := {
    calls := by decide +kernel
    retry := fun _ member => nomatch member
    ranged := trivial
    dst := rfl }
  clean := rfl
  handled := rfl
  fits := Redigo.allSendable_iff.mp ⟨(by decide : Wrapping.InRange 2), trivial⟩
  values := rfl
  last := rfl

/-- They are sent as a bulk string, which is read into the buffer. -/
theorem answered_clientRead : Net.Answered id clientInstance clientRead clientInstance
    [.bulk [0, 7]] [.read [0, 7]] where
  sendable := {
    calls := by decide +kernel
    retry := fun _ member => nomatch member
    ranged := trivial
    dst := trivial }
  clean := rfl
  handled := rfl
  fits := Redigo.allSendable_iff.mp ⟨(by decide : [0, 7].length < 2 ^ 63), trivial⟩
  values := rfl
  last := rfl

/-- The client is given what the store gives that executes each request in one step. -/
theorem clients_refine_writeAndRead : ∃ (labels : List (Unit × Request × ConnReply)) (c : Cluster)
    (final : Unit → Prog (List FileReturn)),
    Pool.Run serve ⟨fun _ _ => none, fun _ => performAtomic (smallStore 2) clientCalls⟩ labels
      ⟨c, final⟩ ∧ final () = .ret [.done, .size 2, .read 2 [0, 7]] := by
  have answered : Net.AllAnswered id ['a'] (Net.emptyInstances ['a']) clientTurns clientInstance :=
    .cons rfl answered_clientWrite (.cons rfl answered_clientMembers
      (.cons rfl answered_clientStrlen (.cons rfl answered_clientRead (.nil _))))
  obtain ⟨n, run, -⟩ : ∃ n : Net Unit Unit, Trace (Net.Step id fun _ => ())
      (Net.start Net.emptyInstances) clientEvents n ∧ n.instances ['a'] = clientInstance :=
    Net.exists_round_trips rfl rfl (Net.stocked_start Net.emptyInstances ⟨(), ['a']⟩) answered
  obtain ⟨labels, c, final, performed, -, same⟩ := clients_refine Net.holds_emptyInstances
    (within_empty (smallStore 2)) (fun _ => by simp [clientCalls, Ranged]) run run_client
  exact ⟨labels, c, final, performed, (same ()).1 _ rfl⟩

end OneClient

end Wire

end Pdwfs
