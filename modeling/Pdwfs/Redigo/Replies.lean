import Pdwfs.Redigo.Wire
import Pdwfs.Util.Streams

/-!
# Replies on the wire

How a connection reads the reply of a server: lines, lengths, integers, bulk strings
and arrays of replies.

* `readLine`, `parseLen`, `parseInt`, `readBulkString`, `readReply` — as the
  connection reads them.  A destination buffer that is set receives the bulk
  strings.
* `Resp`, `Resp.encode` — the replies of a server, and their notation.
* `answers_encode` — **round trip**: the notation of a reply is read back, whatever
  follows it.
* `stable_readReply` — a reply does not depend on how its bytes arrive.

## Recursion

A reply may be an array of replies, so the reader calls itself.  The bytes that are
there get fewer with each line, which bounds the recursion (`Reader.fix`).  This is
not how the source sees it, where a reader waits for more bytes; a reader that would
have to wait ends here with the error that nothing more has arrived.

## Waiting

Bytes arrive in pieces, and what is read from some of them must not change when more
arrive.  This is so for what has been read, and for protocol errors, but not for the
errors at the end of what is there (`ReadError.Final`).  A stable reader can be run
on the bytes that are there as soon as they are enough, and it does not matter how
often it has been tried before.

## A destination buffer

A bulk string goes into the buffer of the caller if one is set and is large enough.
The caller is then given the number of bytes instead of a string, and the strings of
an array would overwrite each other; the data store sets a buffer only where one
string is expected.
-/

namespace Redigo

open Pdwfs Wrapping Streams

/-- What a reply cannot be read for. -/
inductive ReadError
  /-- Nothing more has arrived. -/
  | eof
  /-- Nothing more has arrived, in the middle of a bulk string. -/
  | unexpectedEOF
  | protocolError (text : String)
  deriving DecidableEq

/-- A failure for which it does not matter what arrives later. -/
def ReadError.Final : ReadError → Prop
  | .protocolError _ => True
  | _ => False

/-- What is read from a connection. -/
abbrev Read := Reader UInt8 ReadError

/-- A line, without its end. -/
def readLine : Read Bytes := fun br =>
  match br.span (· ≠ lf) with
  | (_, []) => .error .eof
  | (line, _ :: rest) =>
      if line.getLast? = some cr then .ok (line.dropLast, rest)
      else .error (.protocolError "bad response line terminator")

/-- One more digit of a number.  The source multiplies before it looks at the byte,
and checks no range. -/
def digitStep (n : ℤ) (b : UInt8) : Except ReadError ℤ :=
  let n := wrap (n * 10)
  if b < byte '0' ∨ byte '9' < b then .error (.protocolError "illegal bytes in length")
  else .ok (wrap (n + (b.toNat - (byte '0').toNat : ℤ)))

/-- The length of a bulk string or of an array, `-1` for a null reply. -/
def parseLen (p : Bytes) : Except ReadError ℤ :=
  if p = [] then .error (.protocolError "malformed length")
  else if p = [byte '-', byte '1'] then .ok (-1)
  else p.foldlM digitStep 0

/-- An integer reply. -/
def parseInt (p : Bytes) : Except ReadError ℤ :=
  match p with
  | [] => .error (.protocolError "malformed integer")
  | b :: digits =>
      if b = byte '-' then
        if digits = [] then .error (.protocolError "malformed integer")
        else do
          let n ← digits.foldlM digitStep 0
          return wrap (-n)
      else (b :: digits).foldlM digitStep 0

/-- `n` bytes and the end of their line. -/
def readBulkString (n : ℕ) : Read Bytes := do
  let read ← fun br =>
    if n ≤ br.length then .ok (br.take n, br.drop n)
    else if br = [] then .error .eof
    else .error .unexpectedEOF
  let line ← readLine
  if line = [] then return read
  else throw (.protocolError "bad bulk string format")

/-- What a reply is to the caller.  A simple string is handed over as a string, a
bulk string as a slice of bytes. -/
inductive Value
  | status (s : Bytes)
  | error (s : Bytes)
  | int64 (n : ℤ)
  | bytes (p : Bytes)
  | nil
  | array (values : List Value)
  /-- `p` has been read into the destination buffer; the caller is given its length. -/
  | read (p : Bytes)

/-- The reply that begins with a line; if it is an array, `readReply` reads its
elements.  `dst` is the length of the destination buffer. -/
def replyOf (dst : Option ℕ) (readReply : Read Value) (line : Bytes) : Read Value := do
  match line with
  | [] => throw (.protocolError "short response line")
  | kind :: text =>
      if kind = byte '+' then return .status text
      else if kind = byte '-' then return .error text
      else if kind = byte ':' then
        let n ← liftM (parseInt text)
        return .int64 n
      else if kind = byte '$' then
        let n ← liftM (parseLen text)
        if n < 0 then return .nil
        else
          match dst with
          | none =>
              let p ← readBulkString n.toNat
              return .bytes p
          | some size =>
              if size < n then throw (.protocolError "destination buffer is too small")
              else
                let p ← readBulkString n.toNat
                return .read p
      else if kind = byte '*' then
        let n ← liftM (parseLen text)
        if n < 0 then return .nil
        else
          let values ← readReply.times n.toNat
          return .array values
      else throw (.protocolError "unexpected response line")

/-- Read a reply. -/
def readReply (dst : Option ℕ) : Read Value :=
  Reader.fix (fun readReply => readLine >>= replyOf dst readReply) .eof

/-! ## The notation of replies -/

/-- A reply of a server, as a tree. -/
inductive Resp
  | simple (s : Bytes)
  | error (s : Bytes)
  | integer (n : ℤ)
  | bulk (p : Bytes)
  | nullBulk
  | nullArray
  | array (replies : List Resp)

mutual

/-- The notation of a reply. -/
def Resp.encode : Resp → Bytes
  | .simple s => byte '+' :: (s ++ crlf)
  | .error s => byte '-' :: (s ++ crlf)
  | .integer n => byte ':' :: (decimal n ++ crlf)
  | .bulk p => byte '$' :: (decimal p.length ++ crlf ++ p ++ crlf)
  | .nullBulk => byte '$' :: (decimal (-1) ++ crlf)
  | .nullArray => byte '*' :: (decimal (-1) ++ crlf)
  | .array replies => byte '*' :: (decimal replies.length ++ crlf ++ Resp.encodeAll replies)

/-- The notation of the elements of an array. -/
def Resp.encodeAll : List Resp → Bytes
  | [] => []
  | reply :: rest => reply.encode ++ Resp.encodeAll rest

end

mutual

/-- What a reply is to the caller, depending on the destination buffer. -/
def Resp.value (dst : Option ℕ) : Resp → Except ReadError Value
  | .simple s => .ok (.status s)
  | .error s => .ok (.error s)
  | .integer n => .ok (.int64 n)
  | .bulk p =>
      match dst with
      | none => .ok (.bytes p)
      | some size =>
          if size < p.length then .error (.protocolError "destination buffer is too small")
          else .ok (.read p)
  | .nullBulk => .ok .nil
  | .nullArray => .ok .nil
  | .array replies => (Resp.values dst replies).map .array

/-- What the elements of an array are. -/
def Resp.values (dst : Option ℕ) : List Resp → Except ReadError (List Value)
  | [] => .ok []
  | reply :: rest => do
      let first ← reply.value dst
      let others ← Resp.values dst rest
      return first :: others

end

mutual

/-- What a server can send: simple strings are on one line, integers have 64 bits, and no
memory holds a string or an array of `2 ^ 63` elements. -/
def Resp.Sendable : Resp → Prop
  | .simple s => lf ∉ s
  | .error s => lf ∉ s
  | .integer n => InRange n
  | .bulk p => p.length < 2 ^ 63
  | .nullBulk => True
  | .nullArray => True
  | .array replies => replies.length < 2 ^ 63 ∧ Resp.AllSendable replies

/-- All elements of an array can be sent. -/
def Resp.AllSendable : List Resp → Prop
  | [] => True
  | reply :: rest => reply.Sendable ∧ Resp.AllSendable rest

end

theorem encodeAll_eq (replies : List Resp) :
    Resp.encodeAll replies = replies.flatMap Resp.encode := by
  induction replies with
  | nil => rfl
  | cons reply rest ih => rw [Resp.encodeAll, ih, List.flatMap_cons]

theorem values_eq (dst : Option ℕ) (replies : List Resp) :
    Resp.values dst replies = replies.mapM (Resp.value dst) := by
  induction replies with
  | nil => rfl
  | cons reply rest ih => rw [Resp.values, ih, List.mapM_cons]

theorem allSendable_iff {replies : List Resp} :
    Resp.AllSendable replies ↔ ∀ reply ∈ replies, reply.Sendable := by
  induction replies with
  | nil => simp [Resp.AllSendable]
  | cons reply rest ih => simp [Resp.AllSendable, ih]

/-! ## Lines and numbers -/

/-- A line ends at the first line feed. -/
theorem span_line {line : Bytes} (oneLine : lf ∉ line) (rest : Bytes) :
    (line ++ lf :: rest).span (· ≠ lf) = (line, lf :: rest) := by
  have here : ∀ b ∈ line, decide (b ≠ lf) = true := by
    intro b member
    simpa using ne_of_mem_of_not_mem member oneLine
  rw [List.span_eq_takeWhile_dropWhile, List.takeWhile_append_of_pos here,
    List.dropWhile_append_of_pos here]
  simp

/-- Where a stream is split into its first line and the rest. -/
theorem of_span_eq {br line rest : Bytes} {b : UInt8}
    (split : br.span (· ≠ lf) = (line, b :: rest)) : br = line ++ lf :: rest ∧ lf ∉ line := by
  rw [List.span_eq_takeWhile_dropWhile] at split
  obtain ⟨before, behind⟩ := Prod.ext_iff.mp split
  have joined := List.takeWhile_append_dropWhile (p := fun b => decide (b ≠ lf)) (l := br)
  simp only at before behind
  have first := List.head?_dropWhile_not (fun b => decide (b ≠ lf)) br
  rw [behind] at first joined
  have isEnd : b = lf := by simpa using first
  rw [before, isEnd] at joined
  refine ⟨joined.symm, fun member => ?_⟩
  rw [← before] at member
  simpa using List.mem_takeWhile_imp member

/-- A line is read back if it holds no line feed. -/
theorem reads_readLine {line : Bytes} (oneLine : lf ∉ line) :
    Reader.Reads readLine (line ++ crlf) line := by
  intro rest
  have whole : lf ∉ line ++ [cr] := by simpa using ⟨oneLine, by decide⟩
  have split := span_line whole rest
  simp only [crlf, List.append_assoc, List.cons_append, List.nil_append] at split ⊢
  simp only [readLine, split]
  simp

/-- A line does not depend on what arrives behind it, and neither does the failure
of one that ends in the wrong way. -/
theorem stable_readLine : Reader.Stable ReadError.Final readLine where
  ok br line rest read := by
    unfold readLine at read
    split at read
    · cases read
    · rename_i text b rest' split
      obtain ⟨rfl, oneLine⟩ := of_span_eq split
      split at read
      · rename_i ended
        cases read
        obtain ⟨text', rfl⟩ := List.getLast?_eq_some_iff.mp ended
        have inner : lf ∉ text' := fun member => oneLine (by simp [member])
        refine ⟨text' ++ crlf, by simp [crlf], ?_⟩
        simpa using reads_readLine inner
      · cases read
  error br e failed isFinal rest := by
    unfold readLine at failed
    split at failed
    · cases failed
      exact isFinal.elim
    · rename_i text b rest' split
      obtain ⟨rfl, oneLine⟩ := of_span_eq split
      split at failed
      · cases failed
      · rename_i bad
        cases failed
        rw [List.append_assoc, List.cons_append]
        simp only [readLine, span_line oneLine, bad, ite_false]

/-- A line takes something from the stream. -/
theorem length_lt_of_readLine {br line rest : Bytes} (read : readLine br = .ok (line, rest)) :
    rest.length < br.length := by
  unfold readLine at read
  split at read
  · cases read
  · rename_i text b rest' split
    obtain ⟨rfl, -⟩ := of_span_eq split
    split at read
    · cases read
      simp
      omega
    · cases read

theorem wrap_digits (m d : ℤ) : wrap (wrap (wrap m * 10) + d) = wrap (m * 10 + d) := by
  unfold wrap
  omega

theorem digitStep_digit (m : ℤ) {d : ℕ} (small : d < 10) :
    digitStep (wrap m) (byte d.digitChar) = .ok (wrap (m * 10 + d)) := by
  rw [← wrap_digits]
  interval_cases d <;> rfl

/-- The digits of a number are read back, up to the range of the integers. -/
theorem foldlM_digits (n : ℕ) :
    ((Nat.toDigits 10 n).map byte).foldlM digitStep 0 = .ok (wrap n) := by
  induction n using Nat.strongRecOn with
  | _ n ih =>
      by_cases single : n < 10
      · rw [Nat.toDigits_of_lt_base single]
        simpa [show wrap 0 = 0 by decide] using digitStep_digit 0 single
      · have value : ((n / 10 : ℕ) : ℤ) * 10 + (n % 10 : ℕ) = n := by omega
        have last := digitStep_digit (n / 10 : ℕ) (Nat.mod_lt n (by decide : 0 < 10))
        rw [value] at last
        rw [Nat.toDigits_of_base_le (by decide) (by omega), List.map_append, List.foldlM_append,
          ih (n / 10) (by omega), List.map_singleton]
        simp only [bind, Except.bind, List.foldlM_cons, List.foldlM_nil, last]
        rfl

theorem digits_ne_nil (n : ℕ) : (Nat.toDigits 10 n).map byte ≠ [] := by
  simp [Nat.toDigits_ne_nil]

/-- A length is read back. -/
theorem parseLen_decimal {n : ℕ} (small : n < 2 ^ 63) : parseLen (decimal n) = .ok (n : ℤ) := by
  have value : wrap n = n := wrap_of_nonneg (by omega) (by exact_mod_cast small)
  have digits : decimal n = (Nat.toDigits 10 n).map byte := rfl
  have notNull : decimal n ≠ [byte '-', byte '1'] := by
    intro null
    apply minus_not_mem_digits n
    rw [← digits, null]
    simp
  rw [parseLen, if_neg (digits ▸ digits_ne_nil n), if_neg notNull, digits, foldlM_digits, value]

/-- The smallest integer is read back as well: it is its own negative. -/
theorem parseInt_decimal {n : ℤ} (inRange : InRange n) : parseInt (decimal n) = .ok n := by
  cases n with
  | ofNat n =>
      have value : wrap n = n := wrap_eq_self_iff.mpr inRange
      have minus := minus_not_mem_digits n
      have read := foldlM_digits n
      rw [value] at read
      simp only [decimal, formatInt]
      cases digits : (Nat.toDigits 10 n).map byte with
      | nil => exact absurd digits (digits_ne_nil n)
      | cons b rest =>
          rw [digits] at minus read
          have first : b ≠ byte '-' := by
            rintro rfl
            simp at minus
          rw [parseInt, if_neg first]
          exact read
  | negSucc n =>
      have value : wrap (-wrap ((n + 1 : ℕ) : ℤ)) = Int.negSucc n := by
        rw [← wrap_eq_self_iff.mpr inRange]
        unfold wrap
        omega
      simp only [decimal, formatInt, List.map_cons, parseInt, ite_true]
      rw [if_neg (digits_ne_nil _), foldlM_digits]
      exact congrArg Except.ok value

/-! ## Reading replies back -/

/-- A bulk string is read back, whatever bytes are in it. -/
theorem reads_readBulkString (p : Bytes) :
    Reader.Reads (readBulkString p.length) (p ++ crlf) p := by
  unfold readBulkString
  refine Reader.Reads.bind (a := p) (fun rest => by simp) ?_
  rw [← List.append_nil crlf]
  have emptyLine : Reader.Reads readLine ([] ++ crlf) [] := reads_readLine (by simp)
  exact emptyLine.bind (Reader.reads_pure p)

/-- It does not depend on what arrives behind it either. -/
theorem stable_readBulkString (n : ℕ) : Reader.Stable ReadError.Final (readBulkString n) := by
  refine Reader.Stable.bind ⟨fun br p rest read => ?_, fun br e failed isFinal => ?_⟩ fun p =>
    stable_readLine.bind fun line => ?_
  · split at read
    · rename_i enough
      cases read
      refine ⟨br.take n, (List.take_append_drop n br).symm, fun rest => ?_⟩
      have whole : (br.take n).length = n := List.length_take_of_le enough
      simp [whole]
    · split at read <;> cases read
  · split at failed
    · cases failed
    · split at failed
      · cases failed
        exact isFinal.elim
      · cases failed
        exact isFinal.elim
  · split
    · exact Reader.stable_pure p
    · exact Reader.stable_throw _

/-- The rest of a reply, once its first line has been read. -/
theorem stable_replyOf (dst : Option ℕ) {read : Read Value}
    (stable : Reader.Stable ReadError.Final read) (line : Bytes) :
    Reader.Stable ReadError.Final (replyOf dst read line) := by
  unfold replyOf
  split
  · exact Reader.stable_throw _
  split_ifs
  · exact Reader.stable_pure _
  · exact Reader.stable_pure _
  · exact (Reader.stable_liftM _).bind fun n => Reader.stable_pure _
  · refine (Reader.stable_liftM _).bind fun n => ?_
    split
    · exact Reader.stable_pure _
    cases dst with
    | none => exact (stable_readBulkString _).bind fun p => Reader.stable_pure _
    | some size =>
        simp only
        split
        · exact Reader.stable_throw _
        · exact (stable_readBulkString _).bind fun p => Reader.stable_pure _
  · refine (Reader.stable_liftM _).bind fun n => ?_
    split
    · exact Reader.stable_pure _
    · exact (stable.times _).bind fun values => Reader.stable_pure _
  · exact Reader.stable_throw _

/-- What follows the first line is read by calls on less of the stream. -/
theorem replyOf_congr (dst : Option ℕ) {read read' : Read Value} {br : Bytes}
    (stable : Reader.Stable ReadError.Final read)
    (same : ∀ t : Bytes, t.length ≤ br.length → read t = read' t) (line : Bytes) :
    replyOf dst read line br = replyOf dst read' line br := by
  unfold replyOf
  split
  · rfl
  split_ifs
  · rfl
  · rfl
  · rfl
  · rfl
  · rename_i kind text _ _ _ _ _
    cases parsed : parseLen text with
    | error e => rfl
    | ok n =>
        have parsed' :
            (Except.ok n : Except ReadError ℤ).map (fun m => (m, br)) = .ok (n, br) := rfl
        rw [Reader.bind_ok parsed', Reader.bind_ok parsed']
        split
        · rfl
        · have elements := stable.times_congr same n.toNat
          simp only [bind, StateT.bind, elements]
  · rfl

/-- The reader is stable and recurses on less, so that it has a fixed point. -/
theorem guarded_readReply (dst : Option ℕ) :
    Reader.Guarded ReadError.Final fun read => readLine >>= replyOf dst read where
  stable read stable := stable_readLine.bind fun line => stable_replyOf dst stable line
  congr read read' br stable same := by
    cases first : readLine br with
    | error e => rw [Reader.bind_error first, Reader.bind_error first]
    | ok result =>
        have first' : readLine br = .ok (result.1, result.2) := first
        rw [Reader.bind_ok first', Reader.bind_ok first']
        have shorter := length_lt_of_readLine first'
        exact replyOf_congr dst stable (fun t short => same t (lt_of_le_of_lt short shorter)) _

/-- The equation of `readReply`. -/
theorem readReply_eq (dst : Option ℕ) :
    readReply dst = readLine >>= replyOf dst (readReply dst) :=
  (guarded_readReply dst).fix_eq

/-- **A reply does not depend on how its bytes arrive**: what has been read from the bytes that
are there, or a protocol error, stays when more bytes arrive. -/
theorem stable_readReply (dst : Option ℕ) : Reader.Stable ReadError.Final (readReply dst) :=
  (guarded_readReply dst).stable_fix

/-- A reply is its first line and what that line announces. -/
theorem answers_readReply {dst : Option ℕ} {line body : Bytes} {result : Except ReadError Value}
    (oneLine : lf ∉ line)
    (rest : Reader.Answers (replyOf dst (readReply dst) line) body result) :
    Reader.Answers (readReply dst) (line ++ crlf ++ body) result := by
  rw [readReply_eq]
  exact (reads_readLine oneLine).bind_answers rest

/-- A header is one line. -/
theorem lf_not_mem_header {kind : UInt8} (printable : kind ≠ lf) (n : ℤ) :
    lf ∉ kind :: decimal n := by
  simpa using ⟨printable.symm, not_mem_decimal (by decide) n⟩

section Kinds

variable (dst : Option ℕ) (read : Read Value) (text : Bytes)

theorem replyOf_status : replyOf dst read (byte '+' :: text) = pure (.status text) := by
  simp only [replyOf, ite_true]

theorem replyOf_error : replyOf dst read (byte '-' :: text) = pure (.error text) := by
  simp only [replyOf, show ¬byte '-' = byte '+' by decide, ite_true, ite_false]

theorem replyOf_int64 :
    replyOf dst read (byte ':' :: text) = liftM (parseInt text) >>= fun n => pure (.int64 n) := by
  simp only [replyOf, show ¬byte ':' = byte '+' by decide, show ¬byte ':' = byte '-' by decide,
    ite_true, ite_false]

theorem replyOf_bulk :
    replyOf none read (byte '$' :: text) = liftM (parseLen text) >>= fun n =>
      if n < 0 then pure .nil
      else readBulkString n.toNat >>= fun p => pure (.bytes p) := by
  simp only [replyOf, show ¬byte '$' = byte '+' by decide, show ¬byte '$' = byte '-' by decide,
    show ¬byte '$' = byte ':' by decide, ite_true, ite_false]

/-- A bulk string for a destination buffer, branch by branch. -/
theorem replyOf_bulk_into (size : ℕ) :
    replyOf (some size) read (byte '$' :: text) = liftM (parseLen text) >>= fun n =>
      if n < 0 then pure .nil
      else if size < n then throw (.protocolError "destination buffer is too small")
      else readBulkString n.toNat >>= fun p => pure (.read p) := by
  simp only [replyOf, show ¬byte '$' = byte '+' by decide, show ¬byte '$' = byte '-' by decide,
    show ¬byte '$' = byte ':' by decide, ite_true, ite_false]

theorem replyOf_array :
    replyOf dst read (byte '*' :: text) = liftM (parseLen text) >>= fun n =>
      if n < 0 then pure .nil
      else read.times n.toNat >>= fun values => pure (.array values) := by
  simp only [replyOf, show ¬byte '*' = byte '+' by decide, show ¬byte '*' = byte '-' by decide,
    show ¬byte '*' = byte ':' by decide, show ¬byte '*' = byte '$' by decide, ite_true, ite_false]

end Kinds

/-- A reply that is a single line. -/
theorem answers_line {dst : Option ℕ} {line : Bytes} {value : Value} (oneLine : lf ∉ line)
    (known : Reader.Reads (replyOf dst (readReply dst) line) [] value) :
    Reader.Answers (readReply dst) (line ++ crlf) (.ok value) := by
  rw [← List.append_nil (line ++ crlf)]
  exact answers_readReply oneLine known.answers

/-- The first line of a null reply. -/
theorem parseLen_null : parseLen (decimal (-1)) = .ok (-1) := by decide

/-- A bulk string, into a destination buffer or not. -/
theorem answers_bulk (dst : Option ℕ) {p : Bytes} (small : p.length < 2 ^ 63) :
    Reader.Answers (readReply dst) (Resp.bulk p).encode ((Resp.bulk p).value dst) := by
  have whole : (Resp.bulk p).encode =
      byte '$' :: decimal p.length ++ crlf ++ ([] ++ ((p ++ crlf) ++ [])) := by
    simp [Resp.encode]
  rw [whole]
  apply answers_readReply (lf_not_mem_header (by decide) _)
  cases dst with
  | none =>
      rw [replyOf_bulk]
      refine (Reader.reads_liftM (parseLen_decimal small)).bind_answers ?_
      rw [if_neg (by omega)]
      exact (reads_readBulkString p).bind (Reader.reads_pure _)
  | some size =>
      rw [replyOf_bulk_into]
      refine (Reader.reads_liftM (parseLen_decimal small)).bind_answers ?_
      rw [if_neg (by omega), Resp.value]
      by_cases large : size < p.length
      · rw [if_pos (by exact_mod_cast large), if_pos large]
        exact Reader.answers_throw _ _
      · rw [if_neg (by exact_mod_cast large), if_neg large]
        exact (reads_readBulkString p).bind (Reader.reads_pure _)

/-- The elements of an array, one after the other. -/
theorem answers_array {dst : Option ℕ} {replies : List Resp} (small : replies.length < 2 ^ 63)
    (each : ∀ reply ∈ replies, Reader.Answers (readReply dst) reply.encode (reply.value dst)) :
    Reader.Answers (readReply dst) (Resp.array replies).encode
      ((Resp.array replies).value dst) := by
  have whole : (Resp.array replies).encode =
      byte '*' :: decimal replies.length ++ crlf ++
        ([] ++ (replies.flatMap Resp.encode ++ [])) := by
    simp [Resp.encode, encodeAll_eq]
  have result : (Resp.array replies).value dst =
      replies.mapM (Resp.value dst) >>= fun values => .ok (.array values) := by
    rw [Resp.value, values_eq]
    cases replies.mapM (Resp.value dst) <;> rfl
  rw [whole, result]
  apply answers_readReply (lf_not_mem_header (by decide) _)
  rw [replyOf_array]
  refine (Reader.reads_liftM (parseLen_decimal small)).bind_answers ?_
  rw [if_neg (by omega)]
  exact (Reader.Answers.times each).bind fun values _ => Reader.reads_pure _

/-- **Round trip**: the notation of a reply is read back, whatever follows it.  The
reading only fails for a bulk string that is longer than the destination buffer. -/
theorem answers_encode (dst : Option ℕ) (reply : Resp) (sendable : reply.Sendable) :
    Reader.Answers (readReply dst) reply.encode (reply.value dst) := by
  match reply with
  | .simple s =>
      have oneLine : lf ∉ byte '+' :: s := by simpa using ⟨by decide, sendable⟩
      apply answers_line oneLine
      rw [replyOf_status]
      exact Reader.reads_pure _
  | .error s =>
      have oneLine : lf ∉ byte '-' :: s := by simpa using ⟨by decide, sendable⟩
      apply answers_line oneLine
      rw [replyOf_error]
      exact Reader.reads_pure _
  | .integer n =>
      apply answers_line (lf_not_mem_header (by decide) n)
      rw [replyOf_int64]
      exact (Reader.reads_liftM (parseInt_decimal sendable)).bind (Reader.reads_pure _)
  | .bulk p => exact answers_bulk dst sendable
  | .nullBulk =>
      apply answers_line (lf_not_mem_header (by decide) (-1))
      cases dst with
      | none =>
          rw [replyOf_bulk]
          exact (Reader.reads_liftM parseLen_null).bind (Reader.reads_pure _)
      | some size =>
          rw [replyOf_bulk_into]
          exact (Reader.reads_liftM parseLen_null).bind (Reader.reads_pure _)
  | .nullArray =>
      apply answers_line (lf_not_mem_header (by decide) (-1))
      rw [replyOf_array]
      exact (Reader.reads_liftM parseLen_null).bind (Reader.reads_pure _)
  | .array replies =>
      exact answers_array sendable.1 fun inner member =>
        answers_encode dst inner (allSendable_iff.mp sendable.2 inner member)

/-- A list of which an element has failed. -/
theorem exists_error_of_mapM {α β ε : Type} {f : α → Except ε β} {items : List α} {e : ε}
    (failed : items.mapM f = .error e) : ∃ item ∈ items, f item = .error e := by
  induction items with
  | nil => cases failed
  | cons item rest ih =>
      rw [List.mapM_cons] at failed
      cases first : f item with
      | error e' =>
          rw [first] at failed
          cases failed
          exact ⟨item, by simp, first⟩
      | ok b =>
          rw [first] at failed
          cases others : rest.mapM f with
          | ok bs => rw [others] at failed; cases failed
          | error e' =>
              rw [others] at failed
              cases failed
              obtain ⟨later, member, here⟩ := ih others
              exact ⟨later, by simp [member], here⟩

/-- A reply that cannot be handed over is refused for good. -/
theorem final_of_value_eq_error {dst : Option ℕ} {reply : Resp} {e : ReadError}
    (refused : reply.value dst = .error e) : e.Final := by
  match reply with
  | .bulk p =>
      cases dst with
      | none => cases refused
      | some size =>
          rw [Resp.value] at refused
          split at refused
          · cases refused
            exact trivial
          · cases refused
  | .array replies =>
      rw [Resp.value, values_eq] at refused
      cases values : replies.mapM (Resp.value dst) with
      | ok vs => simp [values, Except.map] at refused
      | error e' =>
          obtain rfl : e' = e := by simpa [values, Except.map] using refused
          obtain ⟨inner, member, failed⟩ := exists_error_of_mapM values
          exact final_of_value_eq_error failed
  | .simple s => simp [Resp.value] at refused
  | .error s => simp [Resp.value] at refused
  | .integer n => simp [Resp.value] at refused
  | .nullBulk => simp [Resp.value] at refused
  | .nullArray => simp [Resp.value] at refused

/-! ## Replies that arrive in pieces -/

/-- **A reply is read once it has arrived**, whatever follows it and however much of that is there
already; before, more is waited for, or the reading fails as it does in the end. -/
theorem readReply_arrived (dst : Option ℕ) {reply : Resp} (sendable : reply.Sendable)
    {seen later rest : Bytes} (whole : seen ++ later = reply.encode ++ rest) :
    (reply.encode.length ≤ seen.length → ∃ left, left ++ later = rest ∧
      readReply dst seen = (reply.value dst).map fun v => (v, left)) ∧
    (seen.length < reply.encode.length → ∃ e, readReply dst seen = .error e ∧
      (¬e.Final ∨ reply.value dst = .error e)) := by
  have answers := answers_encode dst reply sendable
  constructor
  · intro arrived
    obtain ⟨left, rfl⟩ : reply.encode <+: seen :=
      List.prefix_of_prefix_length_le ⟨rest, rfl⟩ ⟨later, whole⟩ arrived
    rw [List.append_assoc] at whole
    exact ⟨left, List.append_cancel_left whole, answers left⟩
  · intro early
    cases read : readReply dst seen with
    | ok result =>
        obtain ⟨v, left⟩ := result
        obtain ⟨-, rfl, -⟩ := (stable_readReply dst).answered whole answers read
        simp only [List.length_append] at early
        omega
    | error e =>
        refine ⟨e, rfl, ?_⟩
        by_cases isFinal : e.Final
        · exact .inr ((stable_readReply dst).refused whole answers read isFinal)
        · exact .inl isFinal

/-- What a transaction of three commands may answer: a number, a string and nothing. -/
def transactionReply : Resp := .array [.integer 3, .bulk [97, 98], .nullBulk]

/-- The reply arrives in two pieces, the second with the first byte of the next reply: after the
first piece more is waited for. -/
theorem readReply_arrived_transaction :
    (∃ e, readReply none (transactionReply.encode.take 7) = .error e ∧ ¬e.Final) ∧
    readReply none (transactionReply.encode.take 7 ++ transactionReply.encode.drop 7 ++ [43]) =
      .ok (.array [.int64 3, .bytes [97, 98], .nil], [43]) := by
  have sendable : transactionReply.Sendable :=
    ⟨by decide, (by decide : InRange 3), (by decide : [97, 98].length < 2 ^ 63), trivial, trivial⟩
  have value : transactionReply.value none = .ok (.array [.int64 3, .bytes [97, 98], .nil]) := rfl
  constructor
  · have whole : transactionReply.encode.take 7 ++ transactionReply.encode.drop 7 =
        transactionReply.encode ++ [] := by simp
    obtain ⟨e, failed, waits | refused⟩ :=
      (readReply_arrived none sendable whole).2 (by decide +kernel)
    · exact ⟨e, failed, waits⟩
    · simp [value] at refused
  · have whole : transactionReply.encode.take 7 ++ transactionReply.encode.drop 7 ++ [43] ++ [] =
        transactionReply.encode ++ [43] := by simp
    obtain ⟨left, same, read⟩ := (readReply_arrived none sendable whole).1 (by simp)
    obtain rfl : left = [43] := by simpa using same
    rw [read, value]
    rfl

end Redigo
