import Pdwfs.Redis.Commands

/-!
# The longest string of a server

A server accepts strings up to a certain length.

* `Cmd.value` — the string that a command sends.  When it is too long the server
  answers with a protocol error and closes the connection; that is left to the users
  of this module.
* `execWithin` — the execution of a command that has arrived.  A `SETRANGE` that
  would make a string too long is rejected as any other wrong command is: it answers
  an error and changes nothing.
* `Short` — no string is too long; all commands keep it.
* `Cmd.Fits` — the limit does not matter to the command.

The limit is a parameter, and it is applied in two places of a server: to what
arrives, and to what a range would make of a string.  The other modules take
`Redis.exec`, without a limit.  `execWithin_of_fits` is what connects the two: as
long as all commands fit, nothing has to be proved again, and a command that does
not fit is one whose reply is an error.
-/

namespace Redis

variable {K M : Type} (limit : ℕ)

/-- The string that a command sends.  It has to be accepted before the command is
looked at. -/
def Cmd.value : Cmd K M → List UInt8
  | .set _ value => value
  | .setnx _ value => value
  | .setrange _ _ value => value
  | _ => []

/-- A `SETRANGE` behind the limit: the string would be longer than the limit,
whatever is stored now.  An empty value is accepted at any offset. -/
def Cmd.Beyond : Cmd K M → Prop
  | .setrange _ offset value => value ≠ [] ∧ limit < offset + value.length
  | _ => False

instance (cmd : Cmd K M) : Decidable (cmd.Beyond limit) := by
  cases cmd <;> unfold Cmd.Beyond <;> infer_instance

/-- The limit does not matter to the command: the server accepts what is sent, and
it does what it would do without a limit. -/
structure Cmd.Fits (cmd : Cmd K M) : Prop where
  length_le : cmd.value.length ≤ limit
  within : ¬cmd.Beyond limit

variable [DecidableEq K] [DecidableEq M]

/-- Execute one command on a server with the limit. -/
def execWithin (cmd : Cmd K M) (db : Database K M) : Database K M × Reply M :=
  if cmd.Beyond limit then (db, .err) else exec cmd db

/-- Execute the commands of a transaction, in the same way as without the limit. -/
def execAllWithin : List (Cmd K M) → Database K M → Database K M × List (Reply M)
  | [], db => (db, [])
  | cmd :: rest, db =>
      let first := execWithin limit cmd db
      let others := execAllWithin rest first.1
      (others.1, first.2 :: others.2)

variable {limit}

/-- A command that fits is executed as if there were no limit. -/
theorem execWithin_of_fits {cmd : Cmd K M} (fits : cmd.Fits limit) (db : Database K M) :
    execWithin limit cmd db = exec cmd db :=
  if_neg fits.within

/-- The limit does not matter to a transaction in which nothing gets too long. -/
theorem execAllWithin_of_fits {cmds : List (Cmd K M)} (fits : ∀ cmd ∈ cmds, cmd.Fits limit)
    (db : Database K M) : execAllWithin limit cmds db = execAll cmds db := by
  induction cmds generalizing db with
  | nil => rfl
  | cons cmd rest ih =>
      rw [execAllWithin, execWithin_of_fits (fits cmd (by simp)),
        ih fun cmd' member => fits cmd' (by simp [member])]
      rfl

/-! ## Strings within the limit -/

/-- No string is longer than the limit. -/
def Short (limit : ℕ) (db : Database K M) : Prop := ∀ key, (stringAt db key).length ≤ limit

omit [DecidableEq K] [DecidableEq M] in
/-- An empty instance has no long string. -/
theorem short_empty : Short limit (fun _ => none : Database K M) := by
  intro key
  rw [stringAt_of_none rfl]
  exact Nat.zero_le _

omit [DecidableEq M] in
/-- One key is given another value. -/
theorem Short.update {db : Database K M} (short : Short limit db) (key : K)
    {value : Option (Value M)}
    (bounded : ∀ bytes, value = some (.str bytes) → bytes.length ≤ limit) :
    Short limit (Function.update db key value) := by
  intro key'
  by_cases same : key' = key
  · subst same
    have stored := Function.update_self key' value db
    cases value with
    | none => rw [stringAt_of_none stored]; exact Nat.zero_le _
    | some value =>
        cases value with
        | str bytes =>
            rw [(stringAt_of_str stored).1]
            exact bounded bytes rfl
        | set members => simp [stringAt, strAt?]
  · rw [stringAt_congr (Function.update_of_ne same _ _)]
    exact short key'

/-- **No command makes a string too long.** -/
theorem Short.execWithin {db : Database K M} (short : Short limit db) {cmd : Cmd K M}
    (length_le : cmd.value.length ≤ limit) : Short limit (execWithin limit cmd db).1 := by
  by_cases beyond : cmd.Beyond limit
  · rw [Redis.execWithin, if_pos beyond]
    exact short
  rw [Redis.execWithin, if_neg beyond]
  cases cmd with
  | sadd key member =>
      simp only [exec]
      split
      · exact short
      · split
        · exact short
        · exact short.update key (by simp)
  | srem key member =>
      simp only [exec]
      split
      · exact short
      · split
        · refine short.update key fun bytes same => ?_
          split at same <;> simp at same
        · exact short
  | smembers key => rwa [exec_eq_self rfl]
  | set key value => exact short.update key (by simpa [Cmd.value] using length_le)
  | setnx key value =>
      simp only [exec]
      split
      · exact short
      · exact short.update key (by simpa [Cmd.value] using length_le)
  | setrange key offset value =>
      simp only [exec]
      split
      · exact short
      · split
        · exact short
        · rename_i nonneg bytes stored
          split
          · exact short
          · refine short.update key fun bytes' same => ?_
            have old : stringAt db key = bytes := by simp [stringAt, stored]
            -- `SETRANGE` makes the string as long as it was, or up to the end of what it
            -- writes, which the service has checked.
            have before := short key
            rw [old] at before
            obtain rfl := Value.str.inj (Option.some.inj same)
            rw [length_setRange]
            have within : ¬(limit : ℤ) < offset + value.length :=
              fun above => beyond ⟨by assumption, above⟩
            omega
  | get key => rwa [exec_eq_self rfl]
  | getrange key start stop => rwa [exec_eq_self rfl]
  | strlen key => rwa [exec_eq_self rfl]
  | «exists» key => rwa [exec_eq_self rfl]
  | unlink keys =>
      -- A key that is deleted holds nothing, and the others are left alone.
      intro key
      by_cases deleted : key ∈ keys
      · rw [stringAt_of_none (exec_unlink deleted)]
        exact Nat.zero_le _
      · have same : (exec (.unlink keys) db).1 key = db key := exec_of_not_mem_writes deleted
        rw [stringAt_congr same]
        exact short key

/-- A transaction leaves no string that is too long. -/
theorem Short.execAllWithin {db : Database K M} (short : Short limit db) {cmds : List (Cmd K M)}
    (length_le : ∀ cmd ∈ cmds, cmd.value.length ≤ limit) :
    Short limit (execAllWithin limit cmds db).1 := by
  induction cmds generalizing db with
  | nil => exact short
  | cons cmd rest ih =>
      exact ih (short.execWithin (length_le cmd (by simp)))
        fun cmd' member => length_le cmd' (by simp [member])

end Redis
