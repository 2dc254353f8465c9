import Pdwfs.Redigo.Replies
import Pdwfs.Redis.Commands

/-!
# An instance and its connections

What an instance does with the commands that arrive on a connection, as far as the
program uses it.

* `readCommand` — an instance reads a command as an array of bulk strings, which is
  what a connection writes (`writeCommand_eq`).
* `parseCmd` — the command that these strings are.
* `Instance.handle` — its execution.  Between `MULTI` and `EXEC` commands are
  queued; a script is executed by its digest if it has been executed before.

Scripts are only known to the extent that the program needs one, and not inside of
transactions.

## The other side

An instance is not part of the repository, and is modelled by what its documentation
says about the commands that the program sends.  It is here because a statement
about what the client receives is empty without a word about what is sent back.
What it does with the data is the model of the other modules (`Redis.exec`); this
one adds how a command arrives and how it is answered, and the state that a
connection has at the instance.

A command is an array of bulk strings in the notation of replies.  So it is read by
the same reader, and that several commands in a row are read as they have been
written follows from the round trip for replies.

## Errors

A command that is refused is answered with an error, and changes nothing.  Inside of
a transaction it is not queued, and the transaction is discarded at its end.  The
program never sends such a command, which is shown where the commands of a request
are known.
-/

namespace Redigo

open Pdwfs Streams

/-- The bytes of an ASCII string. -/
def ascii (s : String) : Bytes := s.toList.map byte

/-- The strings of a command. -/
abbrev Command := List Bytes

/-- A command on the wire. -/
def encodeCommand (c : Command) : Bytes := (Resp.array (c.map .bulk)).encode

/-- **What a connection writes is an array of bulk strings.** -/
theorem writeCommand_eq (cmd : Bytes) (args : List Arg) :
    writeCommand cmd args = encodeCommand (cmd :: args.map Arg.payload) := by
  have string (s : Bytes) : writeString s = (Resp.bulk s).encode := by
    simp [writeString, writeLen_eq, Resp.encode]
  have strings : args.flatMap writeArg =
      ((args.map Arg.payload).map Resp.bulk).flatMap Resp.encode := by
    rw [List.map_map, List.flatMap_map]
    exact List.flatMap_congr fun arg _ => by rw [writeArg_eq, string]; rfl
  have count : ((1 + args.length : ℕ) : ℤ) = ((args.length + 1 : ℕ) : ℤ) := by
    rw [Nat.add_comm]
  simp [writeCommand, encodeCommand, Resp.encode, encodeAll_eq, string, strings, writeLen_eq,
    Nat.add_comm]

/-- No memory holds a string or an array of `2 ^ 63` elements. -/
def Command.Sendable (c : Command) : Prop := c.length < 2 ^ 63 ∧ ∀ p ∈ c, p.length < 2 ^ 63

instance (c : Command) : Decidable c.Sendable :=
  inferInstanceAs (Decidable (c.length < 2 ^ 63 ∧ ∀ p ∈ c, p.length < 2 ^ 63))

/-- The string that has to be an element of a command. -/
def bulkOf : Value → Except ReadError Bytes
  | .bytes p => .ok p
  | _ => .error (.protocolError "expected a bulk string")

/-- Read a command. -/
def readCommand : Read Command := do
  let value ← readReply none
  match value with
  | .array values => liftM (values.mapM bulkOf)
  | _ => throw (.protocolError "expected an array")

theorem stable_readCommand : Reader.Stable ReadError.Final readCommand := by
  refine (stable_readReply none).bind fun value => ?_
  cases value with
  | array values => exact Reader.stable_liftM _
  | _ => exact Reader.stable_throw _

/-- An array of bulk strings, to a caller without a destination buffer. -/
theorem value_bulks (ps : List Bytes) :
    (Resp.array (ps.map .bulk)).value none = .ok (.array (ps.map .bytes)) := by
  have each : (ps.map Resp.bulk).mapM (Resp.value none) = .ok (ps.map Value.bytes) := by
    induction ps with
    | nil => rfl
    | cons p rest ih =>
        rw [List.map_cons, List.mapM_cons, ih]
        rfl
  rw [Resp.value, values_eq, each]
  rfl

/-- **A command is read as it has been written**, whatever follows it. -/
theorem reads_readCommand {c : Command} (sendable : c.Sendable) :
    Reader.Reads readCommand (encodeCommand c) c := by
  have array : (Resp.array (c.map .bulk)).Sendable := by
    refine ⟨by simpa using sendable.1, allSendable_iff.mpr fun reply member => ?_⟩
    obtain ⟨p, inCommand, rfl⟩ := List.mem_map.mp member
    exact sendable.2 p inCommand
  have known : (c.map Value.bytes).mapM bulkOf = .ok c := by
    clear sendable array
    induction c with
    | nil => rfl
    | cons p rest ih =>
        rw [List.map_cons, List.mapM_cons, ih]
        rfl
  have read := answers_encode none _ array
  rw [value_bulks] at read
  rw [encodeCommand, ← List.append_nil (Resp.encode _)]
  exact Reader.Reads.bind read (Reader.reads_liftM known)

/-- **Several commands in a row are read as they have been written**, up to the last byte: no
argument is taken for the end of a command or the beginning of another one. -/
theorem readCommands_write (calls : List (Bytes × List Arg))
    (sendable : ∀ call ∈ calls, Command.Sendable (call.1 :: call.2.map Arg.payload))
    (rest : Bytes) :
    readCommand.times calls.length
        ((calls.flatMap fun call => writeCommand call.1 call.2) ++ rest) =
      .ok (calls.map fun call => call.1 :: call.2.map Arg.payload, rest) := by
  have each : ∀ call ∈ calls, Reader.Answers readCommand (writeCommand call.1 call.2)
      (.ok (call.1 :: call.2.map Arg.payload)) := by
    intro call member
    rw [writeCommand_eq]
    exact (reads_readCommand (sendable call member)).answers
  have all : ∀ calls : List (Bytes × List Arg), calls.mapM (fun call =>
      (.ok (call.1 :: call.2.map Arg.payload) : Except ReadError Command)) =
      .ok (calls.map fun call => call.1 :: call.2.map Arg.payload) := by
    intro calls
    induction calls with
    | nil => rfl
    | cons call others ih =>
        rw [List.mapM_cons, ih]
        rfl
  have read := Reader.Answers.times each rest
  rw [all] at read
  exact read

theorem readCommands_write_multi : readCommand.times 2
    ((writeCommand (ascii "MULTI") [] ++ writeCommand (ascii "GET") [.string (ascii "k")]) ++ []) =
      .ok ([[ascii "MULTI"], [ascii "GET", ascii "k"]], []) := by
  have read := readCommands_write
    [(ascii "MULTI", []), (ascii "GET", [.string (ascii "k")])] (by decide) []
  simpa [Arg.payload] using read

/-! ## Execution -/

/-- The command on keys and values, with its name in upper case, which is how the
client writes it. -/
def parseCmd (c : Command) : Option (Redis.Cmd Bytes Bytes) :=
  match c with
  | [] => none
  | name :: args =>
      if name = ascii "SADD" then
        match args with
        | [key, member] => some (.sadd key member)
        | _ => none
      else if name = ascii "SREM" then
        match args with
        | [key, member] => some (.srem key member)
        | _ => none
      else if name = ascii "SMEMBERS" then
        match args with
        | [key] => some (.smembers key)
        | _ => none
      else if name = ascii "SET" then
        match args with
        | [key, value] => some (.set key value)
        | _ => none
      else if name = ascii "SETNX" then
        match args with
        | [key, value] => some (.setnx key value)
        | _ => none
      else if name = ascii "SETRANGE" then
        match args with
        | [key, offset, value] =>
            (parseInt offset).toOption.map fun offset => .setrange key offset value
        | _ => none
      else if name = ascii "GET" then
        match args with
        | [key] => some (.get key)
        | _ => none
      else if name = ascii "GETRANGE" then
        match args with
        | [key, start, stop] =>
            (parseInt start).toOption.bind fun start =>
              (parseInt stop).toOption.map fun stop => .getrange key start stop
        | _ => none
      else if name = ascii "STRLEN" then
        match args with
        | [key] => some (.strlen key)
        | _ => none
      else if name = ascii "EXISTS" then
        match args with
        | [key] => some (.exists key)
        | _ => none
      else if name = ascii "UNLINK" then
        match args with
        | [] => none
        | keys => some (.unlink keys)
      else none

/-- The error that a command answers. -/
def errorText : Redis.Cmd Bytes Bytes → Bytes
  | .setrange _ offset _ =>
      if offset < 0 then ascii "ERR offset is out of range"
      else ascii "WRONGTYPE Operation against a key holding the wrong kind of value"
  | _ => ascii "WRONGTYPE Operation against a key holding the wrong kind of value"

/-- The reply to a command. -/
def respOf (cmd : Redis.Cmd Bytes Bytes) : Redis.Reply Bytes → Resp
  | .ok => .simple (ascii "OK")
  | .nil => .nullBulk
  | .int n => .integer n
  | .bulk p => .bulk p
  | .members ms => .array (ms.map .bulk)
  | .err => .error (errorText cmd)

/-- The commands of a connection that is between `MULTI` and `EXEC`, and whether one
of them has been refused. -/
structure Transaction where
  cmds : List (Redis.Cmd Bytes Bytes)
  refused : Bool

/-- An instance: its data, and the scripts that have been executed, by their
digests. -/
structure Instance where
  db : Redis.Database Bytes Bytes
  scripts : Bytes → Option Bytes

/-- The script that cuts a stripe, byte for byte.  It is known by its digest, to
which the white space matters. -/
def trimStripeScript : Bytes :=
  ascii "\n\t\tlocal str = redis.call(\"GETRANGE\", KEYS[1], 0, ARGV[1])" ++
    ascii "\n\t\treturn redis.call(\"SET\", KEYS[1], str)\n\t"

namespace Instance

variable (sha1 : Bytes → Bytes)

/-- Execute a script.  It is the one that the program uses, or it does not compile.
-/
def eval (inst : Instance) (src : Bytes) (args : List Bytes) : Instance × Resp :=
  match args with
  | [count, key, stop] =>
      if src = trimStripeScript ∧ count = decimal 1 then
        match (parseInt stop).toOption with
        | none => (inst, .error (ascii "ERR value is not an integer or out of range"))
        | some stop =>
            let read := Redis.exec (.getrange key 0 stop) inst.db
            match read.2 with
            | .bulk str =>
                let written := Redis.exec (.set key str) read.1
                ({ inst with db := written.1 }, respOf (.set key str) written.2)
            | reply => ({ inst with db := read.1 }, respOf (.getrange key 0 stop) reply)
      else (inst, .error (ascii "ERR Error compiling script"))
  | _ => (inst, .error (ascii "ERR wrong number of arguments"))

/-- Execute a command outside of transactions.  A script that is sent by its text is
remembered. -/
def exec (inst : Instance) (c : Command) : Instance × Resp :=
  match c with
  | [] => (inst, .error (ascii "ERR unknown command"))
  | name :: args =>
      if name = ascii "EVAL" then
        match args with
        | [] => (inst, .error (ascii "ERR wrong number of arguments"))
        | src :: args =>
            let loaded := Function.update inst.scripts (sha1 src) (some src)
            { inst with scripts := loaded }.eval src args
      else if name = ascii "EVALSHA" then
        match args with
        | [] => (inst, .error (ascii "ERR wrong number of arguments"))
        | digest :: args =>
            match inst.scripts digest with
            | none => (inst, .error (ascii "NOSCRIPT No matching script. Please use EVAL."))
            | some src => inst.eval src args
      else
        match parseCmd c with
        | none => (inst, .error (ascii "ERR unknown command"))
        | some cmd =>
            let answered := Redis.exec cmd inst.db
            ({ inst with db := answered.1 }, respOf cmd answered.2)

/-- **One command of a connection**: what becomes of the instance and of the transaction of the
connection, and the reply. -/
def handle (inst : Instance) (session : Option Transaction) (c : Command) :
    Instance × Option Transaction × Resp :=
  match session with
  | none =>
      if c = [ascii "MULTI"] then (inst, some ⟨[], false⟩, .simple (ascii "OK"))
      else if c = [ascii "EXEC"] then (inst, none, .error (ascii "ERR EXEC without MULTI"))
      else if c = [ascii "DISCARD"] then (inst, none, .error (ascii "ERR DISCARD without MULTI"))
      else
        let answered := inst.exec sha1 c
        (answered.1, none, answered.2)
  | some queued =>
      if c = [ascii "MULTI"] then
        (inst, some queued, .error (ascii "ERR MULTI calls can not be nested"))
      else if c = [ascii "EXEC"] then
        if queued.refused then
          (inst, none,
            .error (ascii "EXECABORT Transaction discarded because of previous errors."))
        else
          let answered := Redis.execAll queued.cmds inst.db
          ({ inst with db := answered.1 }, none,
            .array (List.zipWith respOf queued.cmds answered.2))
      else if c = [ascii "DISCARD"] then (inst, none, .simple (ascii "OK"))
      else
        match parseCmd c with
        | some cmd =>
            (inst, some { queued with cmds := queued.cmds ++ [cmd] }, .simple (ascii "QUEUED"))
        | none =>
            (inst, some { queued with refused := true }, .error (ascii "ERR unknown command"))

variable {sha1}

/-- A command that does not change the state of the connection, outside of transactions. -/
theorem handle_none {name : Bytes} (multi : name ≠ ascii "MULTI") (exec : name ≠ ascii "EXEC")
    (discard : name ≠ ascii "DISCARD") (inst : Instance) (args : List Bytes) :
    inst.handle sha1 none (name :: args) =
      ((inst.exec sha1 (name :: args)).1, none, (inst.exec sha1 (name :: args)).2) := by
  simp [handle, multi, exec, discard]

/-- The same between `MULTI` and `EXEC`, if it is a command that the instance accepts. -/
theorem handle_some {name : Bytes} (multi : name ≠ ascii "MULTI") (exec : name ≠ ascii "EXEC")
    (discard : name ≠ ascii "DISCARD") (inst : Instance) (queued : Transaction)
    {args : List Bytes} {cmd : Redis.Cmd Bytes Bytes}
    (parsed : parseCmd (name :: args) = some cmd) :
    inst.handle sha1 (some queued) (name :: args) =
      (inst, some { queued with cmds := queued.cmds ++ [cmd] }, .simple (ascii "QUEUED")) := by
  simp [handle, multi, exec, discard, parsed]

/-- A command on the data of the instance. -/
theorem exec_of_parseCmd {name : Bytes} (eval : name ≠ ascii "EVAL")
    (evalSha : name ≠ ascii "EVALSHA") (inst : Instance) {args : List Bytes}
    {cmd : Redis.Cmd Bytes Bytes} (parsed : parseCmd (name :: args) = some cmd) :
    inst.exec sha1 (name :: args) =
      ({ inst with db := (Redis.exec cmd inst.db).1 }, respOf cmd (Redis.exec cmd inst.db).2) := by
  simp [exec, eval, evalSha, parsed]

end Instance

end Redigo
