import Pdwfs.Redigo.Server
import Pdwfs.Redis.Renaming
import Pdwfs.Redisfs.Redis

/-!
# The messages of a request

What a client sends for a request, and how what comes back is the reply to it.

* `utf8` — the bytes of a string of the program.
* `callOf`, `callsOf`, `retryOf` — the commands a client sends, in order.
* `Delivers` — what the caller of the connection is given for a reply.
* `handle_callOf` — an instance executes the command that has been sent.

## Two ways to say what a request is

To the data store a request is a value: an address, one command or a few, and a
place for the reply.  On a connection it is a list of strings for each command, and
the reply is a value of the protocol.  The second is made from the first by the
methods of the client, and the instance makes the first out of the second again when
it parses the strings.

Three things have to fit for this to be a round trip.  The strings of a command are
parsed as this command, which needs integers of 64 bits (`RangedCmd`).  The keys of
the instance are bytes, and those of the data store are strings; the encoding is
injective, so that one is the other with keys renamed.  And the reply of the
instance, parsed by the client, is what the caller expects, where a reply that goes
into a buffer is another one than the reply that does not (`Delivers`).

## The script

A script is sent by its digest, and once more by its text if the instance does not
know it.  The digest is a parameter, since nothing depends on which function it is.
-/

namespace Pdwfs

open Concurrency

/-- The bytes of a string. -/
def utf8 (s : GoString) : List UInt8 := s.flatMap String.utf8EncodeChar

theorem utf8_injective : Function.Injective utf8 := by
  intro s t same
  apply String.ofList_injective
  rw [← String.toByteArray_inj, String.toByteArray_ofList, String.toByteArray_ofList]
  exact congrArg List.toByteArray same

theorem utf8EncodeChar_of_ascii {c : Char} (small : c.toNat ≤ 127) :
    String.utf8EncodeChar c = [Redigo.byte c] := by
  simp only [String.utf8EncodeChar, if_pos (show c.val.toNat ≤ 0x7f from small)]
  rfl

/-- A number is sent as its decimal notation, as a string or not. -/
theorem utf8_formatInt (n : ℤ) : utf8 (formatInt n) = Redigo.decimal n := by
  rw [Redigo.decimal, List.map_eq_flatMap, utf8]
  refine List.flatMap_congr fun c member => utf8EncodeChar_of_ascii ?_
  rcases isDigit_or_minus_of_mem_formatInt member with digit | rfl
  · have bounds := Redigo.toNat_of_isDigit digit
    omega
  · decide

/-! ## What is sent -/

/-- A command, as it is handed to a connection. -/
structure Call where
  cmd : Redigo.Bytes
  args : List Redigo.Arg
  deriving DecidableEq

/-- What is written for a command. -/
def Call.write (call : Call) : Redigo.Bytes := Redigo.writeCommand call.cmd call.args

/-- The strings of a command. -/
def Call.strings (call : Call) : Redigo.Command :=
  call.cmd :: call.args.map Redigo.Arg.payload

theorem Call.write_eq (call : Call) : call.write = Redigo.encodeCommand call.strings :=
  Redigo.writeCommand_eq call.cmd call.args

/-- The arguments of the methods of a client.  Only `UNLINK` takes more than one
key. -/
def callOf : Redis.Cmd GoString GoString → Call
  | .sadd key member => ⟨Redigo.ascii "SADD", [.string (utf8 key), .string (utf8 member)]⟩
  | .srem key member => ⟨Redigo.ascii "SREM", [.string (utf8 key), .string (utf8 member)]⟩
  | .smembers key => ⟨Redigo.ascii "SMEMBERS", [.string (utf8 key)]⟩
  | .set key value => ⟨Redigo.ascii "SET", [.string (utf8 key), .bytes value]⟩
  | .setnx key value => ⟨Redigo.ascii "SETNX", [.string (utf8 key), .bytes value]⟩
  | .setrange key offset value =>
      ⟨Redigo.ascii "SETRANGE", [.string (utf8 key), .int64 offset, .bytes value]⟩
  | .get key => ⟨Redigo.ascii "GET", [.string (utf8 key)]⟩
  | .getrange key start stop =>
      ⟨Redigo.ascii "GETRANGE", [.string (utf8 key), .int64 start, .int64 stop]⟩
  | .strlen key => ⟨Redigo.ascii "STRLEN", [.string (utf8 key)]⟩
  | .exists key => ⟨Redigo.ascii "EXISTS", [.string (utf8 key)]⟩
  | .unlink keys => ⟨Redigo.ascii "UNLINK", keys.map fun key => .string (utf8 key)⟩

/-- What the types of the arguments promise: integers have 64 bits.  `UNLINK` is never called
without a key. -/
def RangedCmd : Redis.Cmd GoString GoString → Prop
  | .setrange _ offset _ => Wrapping.InRange offset
  | .getrange _ start stop => Wrapping.InRange start ∧ Wrapping.InRange stop
  | .unlink keys => keys ≠ []
  | _ => True

section Script

variable (sha1 : Redigo.Bytes → Redigo.Bytes)

/-- The script by its digest, and by its text. -/
def evalSha (key : GoString) (stop : ℤ) : Call :=
  ⟨Redigo.ascii "EVALSHA",
    [.string (sha1 Redigo.trimStripeScript), .int 1, .string (utf8 key), .int64 stop]⟩

def eval (key : GoString) (stop : ℤ) : Call :=
  ⟨Redigo.ascii "EVAL",
    [.string Redigo.trimStripeScript, .int 1, .string (utf8 key), .int64 stop]⟩

/-- The commands that are sent for a request.  A transaction is put between `MULTI`
and `EXEC`. -/
def callsOf (body : Body) : List Call :=
  match body with
  | .single cmd => [callOf cmd]
  | .multi cmds =>
      ⟨Redigo.ascii "MULTI", []⟩ :: (cmds.map callOf ++ [⟨Redigo.ascii "EXEC", []⟩])
  | .trimStripeScript key stop => [evalSha sha1 key stop]

/-- The command that is sent if the instance does not know the script. -/
def retryOf (body : Body) : Option Call :=
  match body with
  | .trimStripeScript key stop => some (eval key stop)
  | _ => none

end Script

/-! ## What comes back -/

/-- The text of an error reply. -/
def errorOf : Redigo.Value → Option Redigo.Bytes
  | .error s => some s
  | _ => none

/-- What `Do` returns for the replies it has read: the last one, and the first error. -/
def doResult (values : List Redigo.Value) : Redigo.Value × Option Redigo.Bytes :=
  (values.getLast?.getD .nil, values.findSome? errorOf)

/-- The reply that a value is.  The text of an error is not looked at. -/
inductive Shows : Redis.Reply GoString → Redigo.Value → Prop
  | ok : Shows .ok (.status (Redigo.ascii "OK"))
  | nil : Shows .nil .nil
  | int (n : ℤ) : Shows (.int n) (.int64 n)
  | bulk (p : List UInt8) : Shows (.bulk p) (.bytes p)
  | members (ms : List GoString) :
      Shows (.members ms) (.array (ms.map fun m => .bytes (utf8 m)))
  | err (text : Redigo.Bytes) : Shows .err (.error text)

/-- What the caller is given for the reply of a request: a value and the first
error, or an error of the reading. -/
inductive Delivers : ConnReply → Except Redigo.ReadError (Redigo.Value × Option Redigo.Bytes) → Prop
  | server {reply : Redis.Reply GoString} {v : Redigo.Value} (shows : Shows reply v) :
      Delivers (.server reply) (.ok (v, errorOf v))
  | array {replies : List (Redis.Reply GoString)} {vs : List Redigo.Value}
      (shows : List.Forall₂ Shows replies vs) : Delivers (.array replies) (.ok (.array vs, none))
  | filled (pos : ℕ) (p : List UInt8) : Delivers (.filled pos p) (.ok (.read p, none))
  | protocolError (e : Redigo.ReadError) : Delivers .protocolError (.error e)

/-- The length of a destination buffer, if one is set. -/
def Slice.size? (dst : Slice) : Option ℕ := if dst.isNil then none else some dst.bytes.length

/-- A reply of an instance, parsed without a destination buffer, is the reply of the
command. -/
theorem shows_respOf (cmd : Redis.Cmd Redigo.Bytes Redigo.Bytes)
    (reply : Redis.Reply GoString) :
    ∃ v, (Redigo.respOf cmd (reply.rename utf8)).value none = .ok v ∧ Shows reply v := by
  cases reply with
  | ok => exact ⟨_, rfl, .ok⟩
  | nil => exact ⟨_, rfl, .nil⟩
  | int n => exact ⟨_, rfl, .int n⟩
  | bulk p => exact ⟨_, rfl, .bulk p⟩
  | members ms =>
      refine ⟨_, ?_, .members ms⟩
      have bulks := Redigo.value_bulks (ms.map utf8)
      rw [List.map_map, List.map_map] at bulks
      rw [Redis.Reply.rename, Redigo.respOf, List.map_map]
      exact bulks
  | err => exact ⟨_, rfl, .err _⟩

/-- **A reply to a single command**, with or without a destination buffer.  No buffer is set for
a command that replies with the members of a set. -/
theorem delivers_respOf (cmd : Redis.Cmd Redigo.Bytes Redigo.Bytes) (dst : Slice)
    {reply : Redis.Reply GoString} (plain : ∀ ms, reply = .members ms → dst.isNil = true) :
    Delivers (readReply dst reply)
      (((Redigo.respOf cmd (reply.rename utf8)).value dst.size?).map fun v => doResult [v]) := by
  cases reply with
  | ok => exact .server .ok
  | nil => exact .server .nil
  | int n => exact .server (.int n)
  | err => exact .server (.err _)
  | members ms =>
      obtain ⟨v, value, shows⟩ := shows_respOf cmd (.members ms)
      have noError : errorOf v = none := by
        cases shows
        rfl
      have result : doResult [v] = (v, errorOf v) := by simp [doResult, noError]
      rw [Slice.size?, if_pos (plain ms rfl), value, Except.map, result]
      exact .server shows
  | bulk p =>
      simp only [readReply, Redis.Reply.rename, Redigo.respOf, Slice.size?]
      by_cases unset : dst.isNil = true
      · simp only [unset, ite_true]
        exact .server (.bulk p)
      · simp only [unset, ite_false, Bool.false_eq_true, Redigo.Resp.value]
        by_cases small : dst.bytes.length < p.length
        · rw [if_pos small, if_pos small]
          exact .protocolError _
        · rw [if_neg small, if_neg small]
          exact .filled _ p

/-- The replies to the commands of a transaction. -/
theorem shows_zipWith (cmds : List (Redis.Cmd Redigo.Bytes Redigo.Bytes))
    {replies : List (Redis.Reply GoString)} (count : replies.length = cmds.length) :
    ∃ vs, (Redigo.Resp.array (List.zipWith Redigo.respOf cmds
        (replies.map (Redis.Reply.rename utf8)))).value none = .ok (.array vs) ∧
      List.Forall₂ Shows replies vs := by
  have each : ∃ vs, (List.zipWith Redigo.respOf cmds
      (replies.map (Redis.Reply.rename utf8))).mapM (Redigo.Resp.value none) = .ok vs ∧
      List.Forall₂ Shows replies vs := by
    induction replies generalizing cmds with
    | nil => exact ⟨[], by simp; rfl, .nil⟩
    | cons reply rest ih =>
        cases cmds with
        | nil => simp at count
        | cons cmd others =>
            obtain ⟨vs, values, shows⟩ := ih others (by simpa using count)
            obtain ⟨v, value, shown⟩ := shows_respOf cmd reply
            refine ⟨v :: vs, ?_, .cons shown shows⟩
            rw [List.map_cons, List.zipWith_cons_cons, List.mapM_cons, value, values]
            rfl
  obtain ⟨vs, values, shows⟩ := each
  refine ⟨vs, ?_, shows⟩
  rw [Redigo.Resp.value, Redigo.values_eq, values]
  rfl

/-! ## What an instance does -/

/-- **A command is parsed** as what it has been made from. -/
theorem parseCmd_callOf {cmd : Redis.Cmd GoString GoString} (ranged : RangedCmd cmd) :
    Redigo.parseCmd (callOf cmd).strings = some (cmd.rename utf8 utf8) := by
  cases cmd with
  | setrange key offset value =>
      have known : Redigo.parseInt (Redigo.decimal offset) = .ok offset :=
        Redigo.parseInt_decimal ranged
      simp [callOf, Call.strings, Redigo.parseCmd, Redigo.ascii, Redigo.byte, Redigo.Arg.payload,
        known, Redis.Cmd.rename, Except.toOption]
  | getrange key start stop =>
      have known : Redigo.parseInt (Redigo.decimal start) = .ok start :=
        Redigo.parseInt_decimal ranged.1
      have known' : Redigo.parseInt (Redigo.decimal stop) = .ok stop :=
        Redigo.parseInt_decimal ranged.2
      simp [callOf, Call.strings, Redigo.parseCmd, Redigo.ascii, Redigo.byte, Redigo.Arg.payload,
        known, known', Redis.Cmd.rename, Except.toOption]
  | unlink keys =>
      obtain ⟨key, rest, rfl⟩ := List.exists_cons_of_ne_nil ranged
      simp [callOf, Call.strings, Redigo.parseCmd, Redigo.ascii, Redigo.byte, Redigo.Arg.payload,
        Redis.Cmd.rename, Function.comp_def]
  | sadd key member => rfl
  | srem key member => rfl
  | smembers key => rfl
  | set key value => rfl
  | setnx key value => rfl
  | get key => rfl
  | strlen key => rfl
  | «exists» key => rfl

/-- No method of a client sends one of the commands that change the state of a connection, or
one that executes a script, by this way. -/
theorem callOf_cmd_ne (cmd : Redis.Cmd GoString GoString) :
    (callOf cmd).cmd ≠ Redigo.ascii "MULTI" ∧ (callOf cmd).cmd ≠ Redigo.ascii "EXEC" ∧
      (callOf cmd).cmd ≠ Redigo.ascii "DISCARD" ∧ (callOf cmd).cmd ≠ Redigo.ascii "EVAL" ∧
        (callOf cmd).cmd ≠ Redigo.ascii "EVALSHA" := by
  cases cmd <;> simp only [callOf] <;> decide

section Handle

variable (sha1 : Redigo.Bytes → Redigo.Bytes)

/-- A command outside of transactions. -/
theorem handle_callOf {cmd : Redis.Cmd GoString GoString} (ranged : RangedCmd cmd)
    (inst : Redigo.Instance) :
    inst.handle sha1 none (callOf cmd).strings =
      ({ inst with db := (Redis.exec (cmd.rename utf8 utf8) inst.db).1 }, none,
        Redigo.respOf (cmd.rename utf8 utf8) (Redis.exec (cmd.rename utf8 utf8) inst.db).2) := by
  obtain ⟨multi, exec, discard, eval, evalSha⟩ := callOf_cmd_ne cmd
  rw [Call.strings, Redigo.Instance.handle_none multi exec discard,
    Redigo.Instance.exec_of_parseCmd eval evalSha inst (parseCmd_callOf ranged)]

/-- A command between `MULTI` and `EXEC`. -/
theorem handle_queued {cmd : Redis.Cmd GoString GoString} (ranged : RangedCmd cmd)
    (inst : Redigo.Instance) (queued : Redigo.Transaction) :
    inst.handle sha1 (some queued) (callOf cmd).strings =
      (inst, some { queued with cmds := queued.cmds ++ [cmd.rename utf8 utf8] },
        .simple (Redigo.ascii "QUEUED")) := by
  obtain ⟨multi, exec, discard, -, -⟩ := callOf_cmd_ne cmd
  exact Redigo.Instance.handle_some multi exec discard inst queued (parseCmd_callOf ranged)

/-- `MULTI` opens a transaction. -/
theorem handle_multi (inst : Redigo.Instance) :
    inst.handle sha1 none [Redigo.ascii "MULTI"] =
      (inst, some ⟨[], false⟩, .simple (Redigo.ascii "OK")) := by
  simp only [Redigo.Instance.handle, ite_true]

/-- `EXEC` executes what has been queued, in one step. -/
theorem handle_exec (inst : Redigo.Instance) (cmds : List (Redis.Cmd Redigo.Bytes Redigo.Bytes)) :
    inst.handle sha1 (some ⟨cmds, false⟩) [Redigo.ascii "EXEC"] =
      ({ inst with db := (Redis.execAll cmds inst.db).1 }, none,
        .array (List.zipWith Redigo.respOf cmds (Redis.execAll cmds inst.db).2)) := by
  have other : ¬[Redigo.ascii "EXEC"] = [Redigo.ascii "MULTI"] := by decide
  simp only [Redigo.Instance.handle, other, ite_true, ite_false, Bool.false_eq_true]

/-- The script is executed if the instance knows it, and refused otherwise. -/
theorem handle_evalSha (inst : Redigo.Instance) (key : GoString) (stop : ℤ) :
    inst.handle sha1 none (evalSha sha1 key stop).strings =
      match inst.scripts (sha1 Redigo.trimStripeScript) with
      | none => (inst, none, .error (Redigo.ascii "NOSCRIPT No matching script. Please use EVAL."))
      | some src =>
          ((inst.eval src [Redigo.decimal 1, utf8 key, Redigo.decimal stop]).1, none,
            (inst.eval src [Redigo.decimal 1, utf8 key, Redigo.decimal stop]).2) := by
  have byText : ¬Redigo.ascii "EVALSHA" = Redigo.ascii "EVAL" := by decide
  have multi : Redigo.ascii "EVALSHA" ≠ Redigo.ascii "MULTI" := by decide
  have exec : Redigo.ascii "EVALSHA" ≠ Redigo.ascii "EXEC" := by decide
  have discard : Redigo.ascii "EVALSHA" ≠ Redigo.ascii "DISCARD" := by decide
  rw [Call.strings, evalSha, Redigo.Instance.handle_none multi exec discard]
  simp only [Redigo.Instance.exec, byText, ite_true, ite_false, List.map_cons, List.map_nil,
    Redigo.Arg.payload]
  cases inst.scripts (sha1 Redigo.trimStripeScript) <;> rfl

/-- An instance that has been sent the script knows it. -/
def withScript (inst : Redigo.Instance) : Redigo.Instance :=
  { inst with
    scripts := Function.update inst.scripts (sha1 Redigo.trimStripeScript)
      (some Redigo.trimStripeScript) }

/-- A script that is sent by its text is executed, and known from then on. -/
theorem handle_eval (inst : Redigo.Instance) (key : GoString) (stop : ℤ) :
    inst.handle sha1 none (eval key stop).strings =
      (((withScript sha1 inst).eval Redigo.trimStripeScript
          [Redigo.decimal 1, utf8 key, Redigo.decimal stop]).1, none,
        ((withScript sha1 inst).eval Redigo.trimStripeScript
          [Redigo.decimal 1, utf8 key, Redigo.decimal stop]).2) := by
  have multi : Redigo.ascii "EVAL" ≠ Redigo.ascii "MULTI" := by decide
  have exec : Redigo.ascii "EVAL" ≠ Redigo.ascii "EXEC" := by decide
  have discard : Redigo.ascii "EVAL" ≠ Redigo.ascii "DISCARD" := by decide
  rw [Call.strings, eval, Redigo.Instance.handle_none multi exec discard]
  simp only [Redigo.Instance.exec, ite_true, List.map_cons, List.map_nil, Redigo.Arg.payload]
  rfl

end Handle

/-- What the script does to an instance is what its request does. -/
theorem eval_trimStripe {db : Redis.Database GoString GoString} {inst : Redigo.Instance}
    (renames : Redis.Renames utf8 utf8 db inst.db) (key : GoString) {stop : ℤ}
    (ranged : Wrapping.InRange stop) :
    let request := (Body.trimStripeScript key stop).exec Slice.nil db
    let answered := inst.eval Redigo.trimStripeScript
      [Redigo.decimal 1, utf8 key, Redigo.decimal stop]
    Redis.Renames utf8 utf8 request.1 answered.1.db ∧ answered.1.scripts = inst.scripts ∧
      ∃ cmd reply, answered.2 = Redigo.respOf cmd (reply.rename utf8) ∧
        request.2 = readReply Slice.nil reply ∧ ∀ ms, reply ≠ .members ms := by
  have known : (Redigo.parseInt (Redigo.decimal stop)).toOption = some stop := by
    rw [Redigo.parseInt_decimal ranged]
    rfl
  obtain ⟨read, replied⟩ := renames.exec utf8_injective utf8_injective (.getrange key 0 stop)
  simp only [Redis.Cmd.rename] at read replied
  have kinds : (∃ str, (Redis.exec (.getrange key 0 stop) db).2 = .bulk str) ∨
      (Redis.exec (.getrange key 0 stop) db).2 = .err := by
    simp only [Redis.exec]
    split
    · exact .inr rfl
    · exact .inl ⟨_, rfl⟩
  simp only [Body.exec, Redigo.Instance.eval, and_self, ite_true, known]
  generalize Redis.exec (.getrange key 0 stop) db = answered at read replied kinds ⊢
  obtain ⟨db', reply⟩ := answered
  simp only at read replied kinds ⊢
  rcases kinds with ⟨str, rfl⟩ | rfl
  · obtain ⟨written, done⟩ := read.exec utf8_injective utf8_injective (.set key str)
    simp only [Redis.Cmd.rename] at written done
    simp only [replied, Redis.Reply.rename]
    refine ⟨written, trivial, .set (utf8 key) str, (Redis.exec (.set key str) db').2, ?_, rfl,
      by simp [Redis.exec]⟩
    rw [done]
    rfl
  · simp only [replied, Redis.Reply.rename]
    exact ⟨read, trivial, .getrange (utf8 key) 0 stop, .err, rfl, rfl, by simp⟩

end Pdwfs
