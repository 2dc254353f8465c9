import Pdwfs.Redisfs.RoundTrips

/-!
# Conversations

What is on a connection while a goroutine uses it, and how much of its request has
happened.

* `Holds` — an instance, and what the requests take it for.
* `Progress` — the commands that the instance has not answered yet, and its replies
  so far. A request takes effect with one of them.
* `Conversation` — the bytes on the connection are these commands and replies.
* `Conversation.answer`, `Conversation.read` — the steps of the two sides.

## One connection, two sides

A conversation is an invariant of a connection that is in use.  It says what the
bytes mean: those on the way to the instance, through all buffers, are the encoding
of the commands that wait; those on the way back are the encoding of the replies
that have not been read.  In the middle of a step there is no more to know, since a
command that has arrived in part cannot be parsed yet, and the rest of it is behind
it.

The steps of the module are the lemmas that a command is added at one end and taken
off at the other, and the same with replies.  That what is taken off is what has
been put on is where the parsers come in: they read back what has been written,
whatever is behind it.

## The moment of effect

`Progress` says which of the commands of the request have been answered, and with it
whether the request has taken effect.  A transaction takes effect with its `EXEC`
and not before.  A script takes effect with the first `EVALSHA` or with the `EVAL`
after it.  Every other request is one command.  So in each conversation there is
exactly one answer with which the instance changes, and the caller is as good as
answered from then on.
-/

namespace Pdwfs

open Concurrency Streams

variable (sha1 : Redigo.Bytes → Redigo.Bytes)

/-- An instance holds the data of the requests under the bytes of its keys, and
knows no other script under the digest of `trimStripe`. -/
structure Holds (db : Redis.Database GoString GoString) (inst : Redigo.Instance) : Prop where
  renames : Redis.Renames utf8 utf8 db inst.db
  scripts : ∀ src, inst.scripts (sha1 Redigo.trimStripeScript) = some src →
    src = Redigo.trimStripeScript

section Replies

theorem size?_of_isNil {dst : Slice} (unset : dst.isNil = true) : dst.size? = none := by
  rw [Slice.size?, if_pos unset]

/-- Without a destination buffer it does not matter which one it is. -/
theorem exec_of_isNil {dst : Slice} (unset : dst.isNil = true) (body : Body)
    (db : Redis.Database GoString GoString) : body.exec dst db = body.exec Slice.nil db := by
  have plain (reply : Redis.Reply GoString) : readReply dst reply = readReply Slice.nil reply := by
    cases reply <;> simp [readReply, unset, Slice.nil]
  cases body <;> simp only [Body.exec, plain]

/-- No command answers that it does not know a script. -/
theorem noscript_not_prefix_errorText (cmd : Redis.Cmd Redigo.Bytes Redigo.Bytes) :
    ¬Redigo.ascii "NOSCRIPT " <+: Redigo.errorText cmd := by
  cases cmd with
  | setrange key offset value =>
      simp only [Redigo.errorText]
      split <;> decide
  | _ => exact of_decide_eq_true rfl

/-- A command that has been answered is not sent again. -/
theorem retryFor_respOf (body : Body) (retried : Bool)
    (cmd : Redis.Cmd Redigo.Bytes Redigo.Bytes) {reply : Redis.Reply Redigo.Bytes}
    {dst : Option ℕ} {v : Redigo.Value}
    (value : (Redigo.respOf cmd reply).value dst = .ok v) :
    retryFor body retried (doResult [v]) = none := by
  have noError : ∀ text, errorOf v = some text → ¬Redigo.ascii "NOSCRIPT " <+: text := by
    intro text isError
    cases v with
    | error s =>
        obtain rfl : s = text := by simpa [errorOf] using isError
        cases reply with
        | err =>
            obtain rfl : Redigo.errorText cmd = s := by
              simpa [Redigo.respOf, Redigo.Resp.value] using value
            exact noscript_not_prefix_errorText cmd
        | members ms =>
            simp only [Redigo.respOf, Redigo.Resp.value] at value
            cases vs : Redigo.Resp.values dst (ms.map Redigo.Resp.bulk) with
            | error e => simp [vs, Except.map] at value
            | ok vs' => simp [vs, Except.map] at value
        | bulk p =>
            simp only [Redigo.respOf, Redigo.Resp.value] at value
            split at value
            · cases value
            · split at value <;> cases value
        | ok => simp [Redigo.respOf, Redigo.Resp.value] at value
        | nil => simp [Redigo.respOf, Redigo.Resp.value] at value
        | int n => simp [Redigo.respOf, Redigo.Resp.value] at value
    | _ => simp [errorOf] at isError
  have result : (doResult [v]).2 = errorOf v := by
    simp only [doResult, List.findSome?_cons, List.findSome?_nil]
    cases errorOf v <;> rfl
  rw [retryFor, result]
  cases isError : errorOf v with
  | none => rfl
  | some text =>
      simp only
      rw [if_neg fun both => noError text isError both.2]

end Replies

/-! ## How far the instance is -/

/-- Something is sent for every request. -/
theorem callsOf_ne_nil (body : Body) : callsOf sha1 body ≠ [] := by
  cases body <;> simp [callsOf]

/-- The replies to `MULTI` and to `n` commands behind it. -/
def queuedReplies (n : ℕ) : List Redigo.Resp :=
  .simple (Redigo.ascii "OK") :: List.replicate n (.simple (Redigo.ascii "QUEUED"))

/-- The commands that are still to be answered, the state of the connection at the
instance, the replies so far, and whether the request has taken effect. -/
inductive Progress (q : Request) (retried : Bool) :
    List Redigo.Command → Option Redigo.Transaction → List Redigo.Resp →
      Caller Request ConnReply → Prop
  | called (first : retried = false) :
      Progress q retried ((callsOf sha1 q.body).map Call.strings) none [] (.called q)
  | again (second : retried = true) {call : Call} (script : retryOf q.body = some call) :
      Progress q retried [call.strings] none [] (.called q)
  /-- Between `MULTI` and `EXEC`. -/
  | queueing {done left : List (Redis.Cmd GoString GoString)}
      (body : q.body = .multi (done ++ left)) :
      Progress q retried (left.map (fun cmd => (callOf cmd).strings) ++ [[Redigo.ascii "EXEC"]])
        (some ⟨done.map (Redis.Cmd.rename utf8 utf8), false⟩) (queuedReplies done.length)
        (.called q)
  /-- The instance does not know the script. -/
  | refused (first : retried = false) {call : Call} (script : retryOf q.body = some call)
      {text : Redigo.Bytes} (noscript : Redigo.ascii "NOSCRIPT " <+: text) :
      Progress q retried [] none [.error text] (.called q)
  | answered {replies : List Redigo.Resp} {r : ConnReply}
      (delivers : Delivers r
        ((replies.mapM (Redigo.Resp.value q.dst.size?)).map doResult))
      (last : ∀ vs, replies.mapM (Redigo.Resp.value q.dst.size?) = .ok vs →
        retryFor q.body retried (doResult vs) = none) :
      Progress q retried [] none replies (.answered r)

section Handle

variable {sha1} {q : Request} {retried : Bool} {db : Redis.Database GoString GoString}
  {inst : Redigo.Instance}

/-- What the instance has done with a command: the request has taken effect, or
nothing has happened yet. -/
def Progress.Advances (sha1 : Redigo.Bytes → Redigo.Bytes) (q : Request) (retried : Bool)
    (db : Redis.Database GoString GoString) (rest : List Redigo.Command)
    (replies : List Redigo.Resp) (caller : Caller Request ConnReply)
    (answered : Redigo.Instance × Option Redigo.Transaction × Redigo.Resp) : Prop :=
  Progress sha1 q retried rest answered.2.1 (replies ++ [answered.2.2]) caller ∧
      Holds sha1 db answered.1 ∨
    caller = .called q ∧
      Progress sha1 q retried rest answered.2.1 (replies ++ [answered.2.2])
        (.answered (q.body.exec q.dst db).2) ∧
      Holds sha1 (q.body.exec q.dst db).1 answered.1

/-- The one reply of a command. -/
theorem mapM_value_singleton (resp : Redigo.Resp) (dst : Option ℕ) :
    [resp].mapM (Redigo.Resp.value dst) = (resp.value dst).map fun v => [v] := by
  cases value : resp.value dst <;> simp [value, Except.map]

/-- A request of one command is done with the reply to it. -/
theorem progress_of_respOf {cmd : Redis.Cmd Redigo.Bytes Redigo.Bytes}
    {reply : Redis.Reply GoString} (plain : ∀ ms, reply = .members ms → q.dst.isNil = true) :
    Progress sha1 q retried [] none [Redigo.respOf cmd (reply.rename utf8)]
      (.answered (readReply q.dst reply)) := by
  refine .answered ?_ fun vs values => ?_
  · have delivers := delivers_respOf cmd q.dst plain
    rw [mapM_value_singleton]
    cases value : (Redigo.respOf cmd (reply.rename utf8)).value q.dst.size? with
    | error e => simpa [value, Except.map] using delivers
    | ok v => simpa [value, Except.map] using delivers
  · rw [mapM_value_singleton] at values
    cases value : (Redigo.respOf cmd (reply.rename utf8)).value q.dst.size? with
    | error e => simp [value, Except.map] at values
    | ok v =>
        obtain rfl : [v] = vs := by simpa [value, Except.map] using values
        exact retryFor_respOf q.body retried cmd value

/-- The command of a request that is one command. -/
theorem Progress.handle_single {cmd : Redis.Cmd GoString GoString} (body : q.body = .single cmd)
    (sendable : q.Sendable sha1) (holds : Holds sha1 db inst) :
    Advances sha1 q retried db [] [] (.called q) (inst.handle sha1 none (callOf cmd).strings) := by
  have ranged : RangedCmd cmd := by simpa [body] using sendable.ranged
  obtain ⟨renames, replied⟩ := holds.renames.exec utf8_injective utf8_injective cmd
  have plain : ∀ ms, (Redis.exec cmd db).2 = .members ms → q.dst.isNil = true := by
    intro ms members
    have dst := sendable.dst
    rw [body] at dst
    cases cmd with
    | get key =>
        simp only [Redis.exec] at members
        split at members <;> cases members
    | getrange key start stop =>
        simp only [Redis.exec] at members
        split at members <;> cases members
    | _ => exact dst
  rw [handle_callOf sha1 ranged, replied]
  refine .inr ⟨rfl, ?_, ?_⟩
  · simpa [body, Body.exec] using progress_of_respOf plain
  · simp only [body, Body.exec]
    exact ⟨renames, holds.scripts⟩

/-- The script, once the instance knows it. -/
theorem Progress.handle_script {key : GoString} {stop : ℤ}
    (body : q.body = .trimStripeScript key stop) (sendable : q.Sendable sha1)
    (holds : Holds sha1 db inst) :
    Advances sha1 q retried db [] [] (.called q)
      ((inst.eval Redigo.trimStripeScript [Redigo.decimal 1, utf8 key, Redigo.decimal stop]).1,
        none,
        (inst.eval Redigo.trimStripeScript
          [Redigo.decimal 1, utf8 key, Redigo.decimal stop]).2) := by
  have ranged : Wrapping.InRange stop := by simpa [body] using sendable.ranged
  have unset : q.dst.isNil = true := by simpa [body] using sendable.dst
  obtain ⟨renames, scripts, cmd, reply, replied, delivered, plain⟩ :=
    eval_trimStripe holds.renames key ranged
  refine .inr ⟨rfl, ?_, ?_⟩
  · rw [body, exec_of_isNil unset, delivered, replied]
    have same : readReply Slice.nil reply = readReply q.dst reply := by
      cases reply <;> simp [readReply, unset, Slice.nil]
    rw [same]
    exact progress_of_respOf fun ms members => absurd members (plain ms)
  · rw [body, exec_of_isNil unset]
    exact ⟨renames, by rw [scripts]; exact holds.scripts⟩

/-- The first command of the request. -/
theorem Progress.handle_called {cmd : Redigo.Command} {rest : List Redigo.Command}
    (todo : (callsOf sha1 q.body).map Call.strings = cmd :: rest) (first : retried = false)
    (sendable : q.Sendable sha1) (holds : Holds sha1 db inst) :
    Advances sha1 q retried db rest [] (.called q) (inst.handle sha1 none cmd) := by
  cases body : q.body with
  | single one =>
      obtain ⟨rfl, rfl⟩ : (callOf one).strings = cmd ∧ [] = rest := by
        simpa [body, callsOf] using todo
      exact handle_single body sendable holds
  | multi cmds =>
      obtain ⟨rfl, rfl⟩ : [Redigo.ascii "MULTI"] = cmd ∧
          cmds.map (fun cmd => (callOf cmd).strings) ++ [[Redigo.ascii "EXEC"]] = rest := by
        simpa [body, callsOf, Call.strings, Function.comp_def] using todo
      rw [handle_multi]
      exact .inl ⟨.queueing (show q.body = .multi ([] ++ cmds) from body), holds⟩
  | trimStripeScript key stop =>
      obtain ⟨rfl, rfl⟩ : (evalSha sha1 key stop).strings = cmd ∧ [] = rest := by
        simpa [body, callsOf] using todo
      rw [handle_evalSha]
      cases known : inst.scripts (sha1 Redigo.trimStripeScript) with
      | none =>
          have script : retryOf q.body = some (eval key stop) := by rw [body, retryOf]
          refine .inl ⟨.refused first script ?_, holds⟩
          · decide
      | some src =>
          obtain rfl := holds.scripts src known
          exact handle_script body sendable holds

/-- The script, sent by its text. -/
theorem Progress.handle_again {call : Call} (script : retryOf q.body = some call)
    (sendable : q.Sendable sha1) (holds : Holds sha1 db inst) :
    Advances sha1 q retried db [] [] (.called q) (inst.handle sha1 none call.strings) := by
  cases body : q.body with
  | trimStripeScript key stop =>
      obtain rfl : eval key stop = call := by simpa [body, retryOf] using script
      have known : Holds sha1 db (withScript sha1 inst) :=
        ⟨holds.renames, fun src found => by simpa [withScript] using found.symm⟩
      rw [handle_eval]
      exact handle_script body sendable known
  | single cmd => simp [body, retryOf] at script
  | multi cmds => simp [body, retryOf] at script

/-- The same, as they are read. -/
def queuedValues (n : ℕ) : List Redigo.Value :=
  .status (Redigo.ascii "OK") :: List.replicate n (.status (Redigo.ascii "QUEUED"))

/-- The replies in front of the last one of a transaction are read as they are. -/
theorem mapM_value_queued (n : ℕ) (dst : Option ℕ) :
    (queuedReplies n).mapM (Redigo.Resp.value dst) = .ok (queuedValues n) := by
  have queued : (List.replicate n (Redigo.Resp.simple (Redigo.ascii "QUEUED"))).mapM
      (Redigo.Resp.value dst) =
      .ok (List.replicate n (.status (Redigo.ascii "QUEUED"))) := by
    induction n with
    | zero => rfl
    | succ n ih =>
        rw [List.replicate_succ, List.mapM_cons, ih]
        rfl
  rw [queuedReplies, List.mapM_cons, queued]
  rfl

/-- The replies of a transaction, as they are read. -/
theorem mapM_value_multi (n : ℕ) {dst : Option ℕ} {resp : Redigo.Resp} {v : Redigo.Value}
    (value : resp.value dst = .ok v) :
    (queuedReplies n ++ [resp]).mapM (Redigo.Resp.value dst) = .ok (queuedValues n ++ [v]) := by
  rw [List.mapM_append, mapM_value_queued, mapM_value_singleton, value]
  rfl

/-- What `Do` returns for a transaction is the reply to `EXEC`. -/
theorem doResult_multi (n : ℕ) (vs : List Redigo.Value) :
    doResult (queuedValues n ++ [.array vs]) = (.array vs, none) := by
  have noError : (queuedValues n).findSome? errorOf = none := by
    rw [List.findSome?_eq_none_iff]
    intro v member
    rcases List.mem_cons.mp member with rfl | queued
    · rfl
    · rw [List.eq_of_mem_replicate queued]
      rfl
  rw [doResult, List.findSome?_append, noError, List.getLast?_append]
  rfl

/-- A command of a transaction, or the `EXEC` at its end. -/
theorem Progress.handle_queueing {done left : List (Redis.Cmd GoString GoString)}
    (body : q.body = .multi (done ++ left)) {cmd : Redigo.Command} {rest : List Redigo.Command}
    (todo : left.map (fun cmd => (callOf cmd).strings) ++ [[Redigo.ascii "EXEC"]] = cmd :: rest)
    (sendable : q.Sendable sha1) (holds : Holds sha1 db inst) :
    Advances sha1 q retried db rest (queuedReplies done.length) (.called q)
      (inst.handle sha1 (some ⟨done.map (Redis.Cmd.rename utf8 utf8), false⟩) cmd) := by
  cases left with
  | nil =>
      obtain ⟨rfl, rfl⟩ : [Redigo.ascii "EXEC"] = cmd ∧ [] = rest := by simpa using todo
      rw [List.append_nil] at body
      have unset : q.dst.isNil = true := by simpa [body] using sendable.dst
      obtain ⟨renames, replied⟩ := holds.renames.execAll utf8_injective utf8_injective done
      have count : (Redis.execAll done db).2.length =
          (done.map (Redis.Cmd.rename utf8 utf8)).length := by
        rw [Redis.Renames.length_execAll, List.length_map]
      obtain ⟨vs, value, shows⟩ := shows_zipWith (done.map (Redis.Cmd.rename utf8 utf8)) count
      have values := mapM_value_multi done.length value
      rw [handle_exec, replied]
      refine .inr ⟨rfl, ?_, ?_⟩
      · refine .answered ?_ fun vs' values' => ?_
        · rw [size?_of_isNil unset, values, Except.map, doResult_multi]
          simp only [body, Body.exec]
          exact .array shows
        · rw [size?_of_isNil unset, values] at values'
          cases values'
          rw [doResult_multi]
          rfl
      · simp only [body, Body.exec]
        exact ⟨renames, holds.scripts⟩
  | cons next left =>
      obtain ⟨rfl, rfl⟩ : (callOf next).strings = cmd ∧
          left.map (fun cmd => (callOf cmd).strings) ++ [[Redigo.ascii "EXEC"]] = rest := by
        simpa using todo
      have ranged : RangedCmd next := by
        have all := sendable.ranged
        simp only [body] at all
        exact all next (by simp)
      rw [handle_queued sha1 ranged]
      have longer := @Progress.queueing sha1 q retried (done ++ [next]) left (by simpa using body)
      refine .inl ⟨?_, holds⟩
      simpa [queuedReplies, List.replicate_add] using longer

/-- **A command of the request is answered.**  Either it is the one the request
takes effect with, or it changes nothing. -/
theorem Progress.handle {cmd : Redigo.Command} {rest : List Redigo.Command}
    {session : Option Redigo.Transaction} {replies : List Redigo.Resp}
    {caller : Caller Request ConnReply}
    (progress : Progress sha1 q retried (cmd :: rest) session replies caller)
    (sendable : q.Sendable sha1) (holds : Holds sha1 db inst) :
    Advances sha1 q retried db rest replies caller (inst.handle sha1 session cmd) := by
  generalize todo : cmd :: rest = commands at progress
  cases progress with
  | called first => exact handle_called todo.symm first sendable holds
  | again second script =>
      obtain ⟨rfl, rfl⟩ := List.cons.inj todo
      exact handle_again script sendable holds
  | queueing body => exact handle_queueing body todo.symm sendable holds
  | refused => cases todo
  | answered => cases todo

end Handle

/-! ## What is on the connection -/

/-- Nothing is on its way to the instance. -/
structure Link.Quiet (link : Link) : Prop where
  inbox : link.inbox = []
  up : link.up = []
  bw : link.bw = []

/-- A connection that nobody uses: it is as it has been dialed, apart from its
state. -/
def Link.Fresh (link : Link) : Prop := link = { state := link.state }

theorem Link.Fresh.quiet {link : Link} (fresh : link.Fresh) : link.Quiet := by
  rw [fresh]
  exact ⟨rfl, rfl, rfl⟩

theorem Link.Carry.quiet {link link' : Link} (carried : link.Carry link') (quiet : link.Quiet) :
    link'.Quiet := by
  obtain ⟨inbox, up, bw⟩ := quiet
  cases carried <;> constructor <;> simp [inbox, up, bw]

/-- There is nothing to be moved on a connection that nobody uses. -/
theorem Link.Carry.eq_of_fresh {link link' : Link} (carried : link.Carry link')
    (fresh : link.Fresh) : link' = link := by
  rw [Link.Fresh] at fresh
  generalize link.state = state at fresh
  subst fresh
  cases carried <;> simp

/-- **A conversation.**  The instance has not answered `waiting` yet, and the
goroutine has not sent `todo`; it has read `got`, which are the replies `seen`, but
not `unread`. -/
structure Conversation (q : Request) (retried : Bool) (link : Link) (todo : List Call)
    (got : List Redigo.Value) (caller : Caller Request ConnReply)
    (waiting : List Redigo.Command) (seen unread : List Redigo.Resp) : Prop where
  progress : Progress sha1 q retried (waiting ++ todo.map Call.strings) link.session
    (seen ++ unread) caller
  sendable : ∀ cmd ∈ waiting ++ todo.map Call.strings, cmd.Sendable
  sent : link.inbox ++ (link.up ++ link.bw) = waiting.flatMap Redigo.encodeCommand
  received : link.br ++ link.down = unread.flatMap Redigo.Resp.encode
  replies : ∀ reply ∈ unread, reply.Sendable
  values : seen.mapM (Redigo.Resp.value q.dst.size?) = .ok got
  opened : link.failed = false
  dst : link.dst = if q.dst.isNil then Slice.nil else q.dst
  state : todo.foldl (fun state call => state.after call.cmd) link.state = {}

namespace Conversation

variable {sha1} {q : Request} {retried : Bool} {link : Link} {todo : List Call}
  {got : List Redigo.Value} {caller : Caller Request ConnReply} {waiting : List Redigo.Command}
  {seen unread : List Redigo.Resp}

/-- The connection has the buffer of the request, as far as its length is concerned.
-/
theorem size? (talk : Conversation sha1 q retried link todo got caller waiting seen unread) :
    link.dst.size? = q.dst.size? := by
  rw [talk.dst]
  split
  · rename_i unset
    rw [size?_of_isNil unset, size?_of_isNil rfl]
  · rfl

/-- Moving bytes does not change what they are. -/
theorem carry (talk : Conversation sha1 q retried link todo got caller waiting seen unread)
    {link' : Link} (carried : link.Carry link') :
    Conversation sha1 q retried link' todo got caller waiting seen unread := by
  have sent := talk.sent
  have received := talk.received
  cases carried with
  | overflow n => exact { talk with sent := by simpa using sent }
  | arrive n =>
      refine { talk with sent := ?_ }
      rw [← sent, List.append_assoc, ← List.append_assoc (link.up.take n), List.take_append_drop]
  | comeBack n => exact { talk with received := by simpa using received }

/-- The beginning of a request, on a connection that nobody uses. -/
theorem acquire (fresh : link.Fresh) (sendable : q.Sendable sha1) :
    Conversation sha1 q false (link.acquire q.dst) (callsOf sha1 q.body) [] (.called q)
      [] [] [] := by
  have restored : (callsOf sha1 q.body).foldl (fun state call => state.after call.cmd) {} =
      ({} : Redigo.ConnState) := by
    cases q.body with
    | single cmd => cases cmd <;> exact of_decide_eq_true rfl
    | multi cmds =>
        have kept : ∀ state : Redigo.ConnState, cmds.foldl
            (fun state cmd => state.after (callOf cmd).cmd) state = state := by
          induction cmds with
          | nil => exact fun state => rfl
          | cons cmd rest ih =>
              intro state
              have plain : state.after (callOf cmd).cmd = state := by
                have info : Redigo.lookupCommandInfo (callOf cmd).cmd = {} := by
                  cases cmd <;> exact of_decide_eq_true rfl
                simp [Redigo.ConnState.after, info]
              rw [List.foldl_cons, plain]
              exact ih state
        simp only [callsOf, List.foldl_cons, List.foldl_append, List.foldl_map, List.foldl_nil,
          kept]
        exact of_decide_eq_true rfl
    | trimStripeScript key stop => exact of_decide_eq_true rfl
  rw [Link.Fresh] at fresh
  generalize link.state = state at fresh
  subst fresh
  constructor
  · simpa [Link.acquire] using .called rfl
  · simpa using sendable.calls
  · rfl
  · rfl
  · simp
  · rfl
  · rfl
  · rfl
  · simpa [Link.acquire] using restored

/-- A command is written into the buffer. -/
theorem send {call : Call} {rest : List Call}
    (talk : Conversation sha1 q retried link (call :: rest) got caller waiting seen unread) :
    Conversation sha1 q retried (link.send call) rest got caller (waiting ++ [call.strings]) seen
      unread := by
  refine { talk with
    progress := by simpa [Link.send] using talk.progress
    sendable := by simpa using talk.sendable
    sent := ?_ }
  have sent := talk.sent
  simp only [Link.send, List.flatMap_append, ← sent, Call.write_eq, List.append_assoc]
  simp

/-- The same, and the buffer is flushed. -/
theorem flush {call : Call} {rest : List Call}
    (talk : Conversation sha1 q retried link (call :: rest) got caller waiting seen unread) :
    Conversation sha1 q retried (link.flush call) rest got caller (waiting ++ [call.strings]) seen
      unread :=
  { talk.send with sent := by simpa [Link.send, Link.flush] using talk.send.sent }

/-- **The instance answers a command**, which is the next one of the request. -/
theorem answer (talk : Conversation sha1 q retried link todo got caller waiting seen unread)
    (requested : q.Sendable sha1) {db : Redis.Database GoString GoString}
    {inst : Redigo.Instance} (holds : Holds sha1 db inst) {cmd : Redigo.Command}
    {rest : Redigo.Bytes} (arrived : Redigo.readCommand link.inbox = .ok (cmd, rest))
    (sendable : (inst.handle sha1 link.session cmd).2.2.Sendable) :
    ∃ waiting', waiting = cmd :: waiting' ∧ ∃ caller' db',
      Conversation sha1 q retried { link with
          inbox := rest
          session := (inst.handle sha1 link.session cmd).2.1
          down := link.down ++ (inst.handle sha1 link.session cmd).2.2.encode }
        todo got caller' waiting' seen (unread ++ [(inst.handle sha1 link.session cmd).2.2]) ∧
      Holds sha1 db' (inst.handle sha1 link.session cmd).1 ∧
      (caller' = caller ∧ db' = db ∨ caller = .called q ∧
        caller' = .answered (q.body.exec q.dst db).2 ∧ db' = (q.body.exec q.dst db).1) := by
  have sent := talk.sent
  cases waiting with
  | nil =>
      have empty : link.inbox = [] := (List.append_eq_nil_iff.mp sent).1
      rw [empty] at arrived
      cases arrived
  | cons first waiting' =>
      -- What the instance has read is the first command that it still has to answer.
      have whole : link.inbox ++ (link.up ++ link.bw) = Redigo.encodeCommand first ++
          waiting'.flatMap Redigo.encodeCommand := by simpa using sent
      obtain ⟨same, -, left⟩ := Redigo.stable_readCommand.answered whole
        (Redigo.reads_readCommand (talk.sendable first (by simp))).answers arrived
      obtain rfl : first = cmd := by simpa using same
      -- The instance answers it, and its reply is put behind the others.
      have step := Progress.handle (by simpa using talk.progress) requested holds
      have replies : ∀ reply ∈ unread ++ [(inst.handle sha1 link.session first).2.2],
          reply.Sendable := by
        intro reply member
        rcases List.mem_append.mp member with old | new
        · exact talk.replies reply old
        · obtain rfl := List.mem_singleton.mp new
          exact sendable
      have received : link.br ++ (link.down ++ (inst.handle sha1 link.session first).2.2.encode) =
          (unread ++ [(inst.handle sha1 link.session first).2.2]).flatMap Redigo.Resp.encode := by
        rw [← List.append_assoc, talk.received]
        simp
      have fits : ∀ cmd ∈ waiting' ++ todo.map Call.strings, cmd.Sendable :=
        fun cmd member => talk.sendable cmd (by simp_all)
      refine ⟨waiting', rfl, ?_⟩
      -- A transaction takes effect with its last command only, so the store may still be
      -- the same.
      rcases step with ⟨progress, holds'⟩ | ⟨called, progress, holds'⟩
      · exact ⟨caller, db, { talk with
          progress := by simpa using progress
          sendable := fits
          sent := left
          received := received
          replies := replies }, holds', .inl ⟨rfl, rfl⟩⟩
      · exact ⟨_, _, { talk with
          progress := by simpa using progress
          sendable := fits
          sent := left
          received := received
          replies := replies }, holds', .inr ⟨called, rfl, rfl⟩⟩

/-- **A reply is read**, which is the next one of the instance. -/
theorem read (talk : Conversation sha1 q retried link todo got caller waiting seen unread)
    {v : Redigo.Value} {rest : Redigo.Bytes}
    (arrived : Redigo.readReply link.dst.size? link.br = .ok (v, rest)) :
    ∃ reply unread', unread = reply :: unread' ∧
      Conversation sha1 q retried { link with br := rest } todo (got ++ [v]) caller waiting
        (seen ++ [reply]) unread' := by
  have received := talk.received
  cases unread with
  | nil =>
      have empty : link.br = [] := (List.append_eq_nil_iff.mp received).1
      rw [empty] at arrived
      cases arrived
  | cons reply unread' =>
      have whole : link.br ++ link.down = reply.encode ++
          unread'.flatMap Redigo.Resp.encode := by simpa using received
      obtain ⟨value, -, left⟩ := (Redigo.stable_readReply _).answered whole
        (Redigo.answers_encode link.dst.size? reply (talk.replies reply (by simp))) arrived
      refine ⟨reply, unread', rfl, { talk with
        progress := by simpa using talk.progress
        received := left
        replies := fun other member => talk.replies other (by simp [member])
        values := ?_ }⟩
      rw [List.mapM_append, talk.values, mapM_value_singleton, ← talk.size?, value]
      rfl

/-- **A reply cannot be read**: the request has taken effect, and this is what its caller is
given. -/
theorem readError (talk : Conversation sha1 q retried link todo got caller waiting seen unread)
    {e : Redigo.ReadError} (final : e.Final)
    (arrived : Redigo.readReply link.dst.size? link.br = .error e) :
    waiting = [] ∧ ∃ r, caller = .answered r ∧ Delivers r (.error e) := by
  have received := talk.received
  cases unread with
  | nil =>
      have empty : link.br = [] := (List.append_eq_nil_iff.mp received).1
      rw [empty] at arrived
      cases arrived
      exact final.elim
  | cons reply unread' =>
      have whole : link.br ++ link.down = reply.encode ++
          unread'.flatMap Redigo.Resp.encode := by simpa using received
      have value := (Redigo.stable_readReply _).refused whole
        (Redigo.answers_encode link.dst.size? reply (talk.replies reply (by simp))) arrived final
      rw [talk.size?] at value
      have values : (seen ++ reply :: unread').mapM (Redigo.Resp.value q.dst.size?) = .error e := by
        rw [List.mapM_append, talk.values, List.mapM_cons, value]
        rfl
      have progress := talk.progress
      generalize todo' : waiting ++ todo.map Call.strings = commands at progress
      generalize given : seen ++ reply :: unread' = replies at progress values
      generalize link.session = session at progress
      cases progress with
      | called => simp at given
      | again => simp at given
      | queueing => rw [mapM_value_queued] at values; cases values
      | refused =>
          simp only [List.mapM_cons, List.mapM_nil] at values
          cases values
      | answered delivers =>
          rw [values] at delivers
          exact ⟨(List.append_eq_nil_iff.mp todo').1, _, rfl, delivers⟩

/-- **All replies have been read**: the script is sent once more, or the request has taken effect
and this is what its caller is given. -/
theorem finished (talk : Conversation sha1 q retried link [] got caller [] seen []) :
    (∃ call, retried = false ∧ retryOf q.body = some call ∧
        retryFor q.body retried (doResult got) = some call ∧ caller = .called q) ∨
      retryFor q.body retried (doResult got) = none ∧
        ∃ r, caller = .answered r ∧ Delivers r (.ok (doResult got)) := by
  have progress := talk.progress
  have values := talk.values
  simp only [List.append_nil, List.map_nil] at progress
  generalize todo : ([] : List Redigo.Command) = commands at progress
  generalize link.session = session at progress
  cases progress with
  | called first => exact absurd (List.map_eq_nil_iff.mp todo.symm) (callsOf_ne_nil sha1 q.body)
  | again => cases todo
  | queueing => simp at todo
  | refused first script noscript =>
      rename_i call text
      obtain rfl : [Redigo.Value.error text] = got := by
        rw [mapM_value_singleton] at values
        simpa [Redigo.Resp.value, Except.map] using values
      refine .inl ⟨call, first, script, ?_, rfl⟩
      simp only [retryFor, doResult, List.findSome?_cons, errorOf]
      rw [if_pos ⟨first, noscript⟩, script]
  | answered delivers last =>
      rw [values] at delivers
      exact .inr ⟨last got values, _, rfl, delivers⟩

/-- The instance is outside of a transaction when it has answered everything. -/
theorem session_eq_none (talk : Conversation sha1 q retried link [] got caller [] seen unread) :
    link.session = none := by
  have progress := talk.progress
  generalize todo : [] ++ [].map Call.strings = commands at progress
  generalize link.session = session at progress
  generalize seen ++ unread = replies at progress
  cases progress with
  | called first => exact absurd (List.map_eq_nil_iff.mp todo.symm) (callsOf_ne_nil sha1 q.body)
  | queueing => simp at todo
  | _ => rfl

/-- The script is about to be sent once more. -/
theorem again (talk : Conversation sha1 q retried link [] got caller [] seen [])
    {call : Call} (script : retryOf q.body = some call) (requested : q.Sendable sha1) :
    Conversation sha1 q true link [call] [] (.called q) [] [] [] := by
  have kept : ({} : Redigo.ConnState).after call.cmd = {} := by
    cases body : q.body with
    | trimStripeScript key stop =>
        obtain rfl : eval key stop = call := by simpa [body, retryOf] using script
        exact of_decide_eq_true rfl
    | _ => simp [body, retryOf] at script
  refine { talk with
    progress := ?_
    sendable := by simpa using requested.retry call script
    values := rfl
    state := ?_ }
  · rw [talk.session_eq_none]
    exact .again rfl script
  · have state : link.state = {} := talk.state
    rw [state]
    exact kept

/-- What remains of a conversation is a connection that nobody uses. -/
theorem fresh_release (talk : Conversation sha1 q retried link [] got caller [] seen [])
    (settled : link.pending = 0) : (link.release q.dst).Fresh := by
  obtain ⟨inbox, up, bw⟩ : link.inbox = [] ∧ link.up = [] ∧ link.bw = [] := by
    simpa using talk.sent
  obtain ⟨br, down⟩ : link.br = [] ∧ link.down = [] := by simpa using talk.received
  have dst : (link.release q.dst).dst = Slice.nil := by
    rw [Link.release, talk.dst]
    cases q.dst.isNil <;> rfl
  have session := talk.session_eq_none
  have opened := talk.opened
  obtain ⟨pending, failed, state, buffer, bw', up', inbox', session', down', br'⟩ := link
  simp only [Link.Fresh, Link.release] at *
  simp [*]

end Conversation

end Pdwfs
