import Pdwfs.Redigo.Server

/-!
# The state of a connection that is in use

A connection remembers whether the commands that have been sent on it leave the
server in a transaction, watching, subscribed or monitoring.

* `ConnState` — these four states.
* `lookupCommandInfo` — what a command sets and clears.
* `ConnState.after` — the state once a command has been sent.

## What the state is for

A connection that is given back to the pool in one of these states would take the
next goroutine by surprise, and it is put right when it is closed, by the commands
that undo them.  The data store sends `MULTI` and `EXEC` together, so that there is
nothing to undo.  That this is so is proved where the commands of a request are
known; here it is only said what the client library keeps account of.  It does so by
the name of the command, in whatever case it is written, and without looking at the
reply.
-/

namespace Redigo

/-- The states that commands set and clear. -/
structure ConnState where
  watch : Bool := false
  multi : Bool := false
  subscribe : Bool := false
  monitor : Bool := false
  deriving DecidableEq

/-- What a command sets and clears.  A command that is not in the table does
neither. -/
structure CommandInfo where
  set : ConnState := {}
  clear : ConnState := {}
  deriving DecidableEq

/-- An ASCII letter in upper case. -/
def toUpper (b : UInt8) : UInt8 := if byte 'a' ≤ b ∧ b ≤ byte 'z' then b - 32 else b

/-- The commands that set or clear a state.  The source looks the name up as it is
and in upper case. -/
def lookupCommandInfo (commandName : Bytes) : CommandInfo :=
  let name := commandName.map toUpper
  if name = ascii "WATCH" then { set := { watch := true } }
  else if name = ascii "UNWATCH" then { clear := { watch := true } }
  else if name = ascii "MULTI" then { set := { multi := true } }
  else if name = ascii "EXEC" then { clear := { watch := true, multi := true } }
  else if name = ascii "DISCARD" then { clear := { watch := true, multi := true } }
  else if name = ascii "PSUBSCRIBE" then { set := { subscribe := true } }
  else if name = ascii "SUBSCRIBE" then { set := { subscribe := true } }
  else if name = ascii "MONITOR" then { set := { monitor := true } }
  else {}

/-- The state once a command has been sent, whether it will be refused or not. -/
def ConnState.after (state : ConnState) (commandName : Bytes) : ConnState :=
  let ci := lookupCommandInfo commandName
  { watch := (state.watch || ci.set.watch) && !ci.clear.watch
    multi := (state.multi || ci.set.multi) && !ci.clear.multi
    subscribe := (state.subscribe || ci.set.subscribe) && !ci.clear.subscribe
    monitor := (state.monitor || ci.set.monitor) && !ci.clear.monitor }

end Redigo
