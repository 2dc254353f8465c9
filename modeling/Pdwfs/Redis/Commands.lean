import Pdwfs.Redis.Bytes

/-!
# Redis commands

The documented semantics of the Redis commands on strings and sets, over arbitrary
types of keys and of set members.

* `Database` — one instance: a partial function from keys to values.  A set is never
  empty: the key of a set whose last member is removed is deleted.
* `Cmd`, `exec` — commands and their atomic execution, replies included.
* `stringAt`, `membersAt` — what an instance holds under a key when a missing key is
  read as the empty string or the empty set.
* `Proper` — no key holds an empty set; all commands keep it.

## Missing keys and wrong types

For a command on strings a missing key is the empty string, for one on sets it is
the empty set, and only `EXISTS`, `SETNX` and the null reply of `GET` can tell the
difference.  So nearly everything is stated about `stringAt` and `membersAt`, which
do not tell it either, and those three commands are the only places where a proof
has to look at the key itself.

A command on a key of the wrong type answers an error and changes nothing; the
lemmas about `stringAt` and `membersAt` therefore carry the hypothesis that the key
is free of the other type (`NoSet`, `NoString`).  Which keys are free of which type
is up to the users of this module, and follows from how they name their keys.

## One lemma for each command

`exec_set`, `exec_setrange`, … say what a command does to strings and sets and what
it answers, in these terms.  `exec` itself is not unfolded outside of this module,
and the frame lemma `exec_of_not_mem_writes` says for all commands together that
other keys stay as they are.
-/

namespace Redis

/-- A Redis value. -/
inductive Value (M : Type)
  | str (bytes : List UInt8)
  | set (members : List M)
  deriving DecidableEq

/-- One Redis instance.  Expiry, other types and the order of the members of a set
are left out. -/
abbrev Database (K M : Type) := K → Option (Value M)

/-- The commands on strings, sets and keys. -/
inductive Cmd (K M : Type)
  | sadd (key : K) (member : M)
  | srem (key : K) (member : M)
  | smembers (key : K)
  | set (key : K) (value : List UInt8)
  | setnx (key : K) (value : List UInt8)
  | setrange (key : K) (offset : ℤ) (value : List UInt8)
  | get (key : K)
  | getrange (key : K) (start stop : ℤ)
  | strlen (key : K)
  | exists (key : K)
  | unlink (keys : List K)
  deriving DecidableEq

/-- The reply to a command. -/
inductive Reply (M : Type)
  | ok
  /-- The null reply, to a `GET` of a missing key. -/
  | nil
  | int (n : ℤ)
  | bulk (bytes : List UInt8)
  | members (members : List M)
  | err
  deriving DecidableEq

variable {K M : Type}

/-! ## Strings and sets under a key -/

/-- The members of the set under `key`, none of them when the key is missing; `none`
when the key holds a string, for which every command on sets answers an error. -/
def setAt? (db : Database K M) (key : K) : Option (List M) :=
  match db key with
  | none => some []
  | some (.set members) => some members
  | some (.str _) => none

/-- The string under `key`, empty when the key is missing; `none` when the key
holds a set. -/
def strAt? (db : Database K M) (key : K) : Option (List UInt8) :=
  match db key with
  | none => some []
  | some (.str bytes) => some bytes
  | some (.set _) => none

/-- The string under a key, empty when there is none. -/
def stringAt (db : Database K M) (key : K) : List UInt8 := (strAt? db key).getD []

/-- The members of the set under a key, none when there is no set. -/
def membersAt (db : Database K M) (key : K) : List M := (setAt? db key).getD []

/-- The key does not hold a set. -/
def NoSet (db : Database K M) (key : K) : Prop := strAt? db key = some (stringAt db key)

/-- The key does not hold a string. -/
def NoString (db : Database K M) (key : K) : Prop := setAt? db key = some (membersAt db key)

theorem stringAt_congr {db db' : Database K M} {key : K} (same : db' key = db key) :
    stringAt db' key = stringAt db key := by
  simp only [stringAt, strAt?, same]

theorem membersAt_congr {db db' : Database K M} {key : K} (same : db' key = db key) :
    membersAt db' key = membersAt db key := by
  simp only [membersAt, setAt?, same]

theorem noSet_congr {db db' : Database K M} {key : K} (same : db' key = db key) :
    NoSet db' key ↔ NoSet db key := by
  simp only [NoSet, stringAt, strAt?, same]

theorem noString_congr {db db' : Database K M} {key : K} (same : db' key = db key) :
    NoString db' key ↔ NoString db key := by
  simp only [NoString, membersAt, setAt?, same]

@[simp] theorem stringAt_of_none {db : Database K M} {key : K} (missing : db key = none) :
    stringAt db key = [] := by
  simp [stringAt, strAt?, missing]

@[simp] theorem membersAt_of_none {db : Database K M} {key : K} (missing : db key = none) :
    membersAt db key = [] := by
  simp [membersAt, setAt?, missing]

theorem noSet_of_none {db : Database K M} {key : K} (missing : db key = none) :
    NoSet db key := by
  simp [NoSet, stringAt, strAt?, missing]

theorem noString_of_none {db : Database K M} {key : K} (missing : db key = none) :
    NoString db key := by
  simp [NoString, membersAt, setAt?, missing]

theorem stringAt_of_str {db : Database K M} {key : K} {bytes : List UInt8}
    (stored : db key = some (.str bytes)) : stringAt db key = bytes ∧ NoSet db key := by
  simp [NoSet, stringAt, strAt?, stored]

theorem membersAt_of_set {db : Database K M} {key : K} {members : List M}
    (stored : db key = some (.set members)) :
    membersAt db key = members ∧ NoString db key := by
  simp [NoString, membersAt, setAt?, stored]

/-! ## Execution -/

variable [DecidableEq K] [DecidableEq M]

/-- Execute one command.

A set is kept as a list without repetitions, since its members are read in some
order that does not matter.  The key of a set goes when its last member does.
`SETRANGE` with an empty value leaves a missing key missing, and with a negative
offset it answers an error. -/
def exec : Cmd K M → Database K M → Database K M × Reply M
  | .sadd key member, db =>
      match setAt? db key with
      | none => (db, .err)
      | some members =>
          if member ∈ members then (db, .int 0)
          else (Function.update db key (some (.set (members ++ [member]))), .int 1)
  | .srem key member, db =>
      match setAt? db key with
      | none => (db, .err)
      | some members =>
          if member ∈ members then
            let rest := members.filter (· ≠ member)
            (Function.update db key (if rest = [] then none else some (.set rest)), .int 1)
          else (db, .int 0)
  | .smembers key, db =>
      match setAt? db key with
      | none => (db, .err)
      | some members => (db, .members members)
  | .set key value, db => (Function.update db key (some (.str value)), .ok)
  | .setnx key value, db =>
      if (db key).isSome then (db, .int 0)
      else (Function.update db key (some (.str value)), .int 1)
  | .setrange key offset value, db =>
      if offset < 0 then (db, .err)
      else
        match strAt? db key with
        | none => (db, .err)
        | some bytes =>
            if value = [] then (db, .int bytes.length)
            else
              let result := setRange bytes offset.toNat value
              (Function.update db key (some (.str result)), .int result.length)
  | .get key, db =>
      match db key with
      | none => (db, .nil)
      | some (.str bytes) => (db, .bulk bytes)
      | some (.set _) => (db, .err)
  | .getrange key start stop, db =>
      match strAt? db key with
      | none => (db, .err)
      | some bytes => (db, .bulk (getRange bytes start stop))
  | .strlen key, db =>
      match strAt? db key with
      | none => (db, .err)
      | some bytes => (db, .int bytes.length)
  | .exists key, db => (db, .int (if (db key).isSome then 1 else 0))
  | .unlink keys, db =>
      (fun key => if key ∈ keys then none else db key,
        .int (keys.countP fun key => (db key).isSome))

/-- Execute the commands of a transaction, collecting the replies.  A command
that answers an error does not undo the others. -/
def execAll : List (Cmd K M) → Database K M → Database K M × List (Reply M)
  | [], db => (db, [])
  | cmd :: rest, db =>
      let first := exec cmd db
      let others := execAll rest first.1
      (others.1, first.2 :: others.2)

@[simp] theorem execAll_nil (db : Database K M) : execAll [] db = (db, []) := rfl

@[simp] theorem execAll_cons (cmd : Cmd K M) (rest : List (Cmd K M)) (db : Database K M) :
    execAll (cmd :: rest) db =
      ((execAll rest (exec cmd db).1).1, (exec cmd db).2 :: (execAll rest (exec cmd db).1).2) :=
  rfl

/-! ## Frames -/

/-- The keys a command may write.  A command that writes none of them leaves the
instance as it is, so this is also what makes a command one that only looks. -/
def Cmd.writes : Cmd K M → List K
  | .sadd key _ => [key]
  | .srem key _ => [key]
  | .set key _ => [key]
  | .setnx key _ => [key]
  | .setrange key _ _ => [key]
  | .unlink keys => keys
  | .smembers _ => []
  | .get _ => []
  | .getrange _ _ _ => []
  | .strlen _ => []
  | .exists _ => []

/-- A command leaves the keys it does not write as they are. -/
theorem exec_of_not_mem_writes {cmd : Cmd K M} {db : Database K M} {key : K}
    (notWritten : key ∉ cmd.writes) : (exec cmd db).1 key = db key := by
  cases cmd with
  | sadd k member =>
      have other : key ≠ k := by simpa [Cmd.writes] using notWritten
      simp only [exec]
      split
      · rfl
      · split
        · rfl
        · exact Function.update_of_ne other _ _
  | srem k member =>
      have other : key ≠ k := by simpa [Cmd.writes] using notWritten
      simp only [exec]
      split
      · rfl
      · split
        · exact Function.update_of_ne other _ _
        · rfl
  | smembers k => simp only [exec]; split <;> rfl
  | set k value =>
      have other : key ≠ k := by simpa [Cmd.writes] using notWritten
      exact Function.update_of_ne other _ _
  | setnx k value =>
      have other : key ≠ k := by simpa [Cmd.writes] using notWritten
      simp only [exec]
      split
      · rfl
      · exact Function.update_of_ne other _ _
  | setrange k offset value =>
      have other : key ≠ k := by simpa [Cmd.writes] using notWritten
      simp only [exec]
      split
      · rfl
      · split
        · rfl
        · split
          · rfl
          · exact Function.update_of_ne other _ _
  | get k => simp only [exec]; split <;> rfl
  | getrange k start stop => simp only [exec]; split <;> rfl
  | strlen k => simp only [exec]; split <;> rfl
  | «exists» k => rfl
  | unlink keys => simp [exec, show key ∉ keys from notWritten]

/-- The same for a transaction. -/
theorem execAll_of_not_mem_writes {cmds : List (Cmd K M)} {db : Database K M} {key : K}
    (notWritten : ∀ cmd ∈ cmds, key ∉ cmd.writes) : (execAll cmds db).1 key = db key := by
  induction cmds generalizing db with
  | nil => rfl
  | cons cmd rest ih =>
      rw [execAll_cons, ih fun cmd' member => notWritten cmd' (by simp [member])]
      exact exec_of_not_mem_writes (notWritten cmd (by simp))

/-- A command that writes no key changes nothing. -/
theorem exec_eq_self {cmd : Cmd K M} (readOnly : cmd.writes = []) (db : Database K M) :
    (exec cmd db).1 = db :=
  funext fun _ => exec_of_not_mem_writes (by simp [readOnly])

/-! ## What the commands do -/

theorem exec_set (db : Database K M) (key : K) (value : List UInt8) :
    stringAt (exec (.set key value) db).1 key = value ∧
      NoSet (exec (.set key value) db).1 key :=
  stringAt_of_str (Function.update_self _ _ _)

/-- `SETRANGE` overwrites the string, and answers its new length. -/
theorem exec_setrange {db : Database K M} {key : K} {offset : ℤ} (value : List UInt8)
    (typed : NoSet db key) (nonneg : 0 ≤ offset) :
    stringAt (exec (.setrange key offset value) db).1 key =
        (if value = [] then stringAt db key
         else setRange (stringAt db key) offset.toNat value) ∧
      NoSet (exec (.setrange key offset value) db).1 key := by
  have inRange : ¬offset < 0 := by omega
  simp only [exec, inRange, ite_false, show strAt? db key = some (stringAt db key) from typed]
  by_cases empty : value = []
  · simp only [empty, ite_true]
    exact ⟨trivial, typed⟩
  · simp only [empty, ite_false]
    exact stringAt_of_str (Function.update_self _ _ _)

/-- `UNLINK` empties the keys, whatever they hold. -/
theorem exec_unlink {db : Database K M} {key : K} {keys : List K} (deleted : key ∈ keys) :
    (exec (.unlink keys) db).1 key = none := by
  simp [exec, deleted]

/-- `SADD` adds a member, and leaves every string as it is. -/
theorem exec_sadd {db : Database K M} {key : K} (member : M) (typed : NoString db key) :
    (∀ m, m ∈ membersAt (exec (.sadd key member) db).1 key ↔
        m ∈ membersAt db key ∨ m = member) ∧
      NoString (exec (.sadd key member) db).1 key := by
  simp only [exec, show setAt? db key = some (membersAt db key) from typed]
  by_cases present : member ∈ membersAt db key
  · simp only [present, ite_true]
    refine ⟨fun m => ⟨.inl, ?_⟩, typed⟩
    rintro (old | rfl)
    · exact old
    · exact present
  · simp only [present, ite_false]
    obtain ⟨members, typed'⟩ := membersAt_of_set
      (Function.update_self key (some (Value.set (membersAt db key ++ [member]))) db)
    exact ⟨fun m => by simp [members], typed'⟩

/-- `SREM` removes a member, and leaves every string as it is. -/
theorem exec_srem {db : Database K M} {key : K} (member : M) (typed : NoString db key) :
    (∀ m, m ∈ membersAt (exec (.srem key member) db).1 key ↔
        m ∈ membersAt db key ∧ m ≠ member) ∧
      NoString (exec (.srem key member) db).1 key := by
  simp only [exec, show setAt? db key = some (membersAt db key) from typed]
  by_cases present : member ∈ membersAt db key
  · simp only [present, ite_true]
    by_cases last : (membersAt db key).filter (· ≠ member) = []
    · have missing := Function.update_self key (none : Option (Value M)) db
      simp only [last, ite_true]
      refine ⟨fun m => ?_, noString_of_none missing⟩
      rw [membersAt_of_none missing]
      have := List.filter_eq_nil_iff.mp last m
      simp at this ⊢
      exact this
    · obtain ⟨members, typed'⟩ := membersAt_of_set
        (Function.update_self key
          (some (Value.set ((membersAt db key).filter (· ≠ member)))) db)
      simp only [last, ite_false]
      exact ⟨fun m => by rw [members]; simp, typed'⟩
  · simp only [present, ite_false]
    refine ⟨fun m => ⟨fun old => ⟨old, ?_⟩, And.left⟩, typed⟩
    rintro rfl
    exact present old

theorem exec_smembers {db : Database K M} {key : K} (typed : NoString db key) :
    exec (.smembers key) db = (db, .members (membersAt db key)) := by
  simp only [exec, show setAt? db key = some (membersAt db key) from typed]

theorem exec_strlen {db : Database K M} {key : K} (typed : NoSet db key) :
    exec (.strlen key) db = (db, .int (stringAt db key).length) := by
  simp only [exec, show strAt? db key = some (stringAt db key) from typed]

theorem exec_getrange {db : Database K M} {key : K} (start stop : ℤ) (typed : NoSet db key) :
    exec (.getrange key start stop) db =
      (db, .bulk (getRange (stringAt db key) start stop)) := by
  simp only [exec, show strAt? db key = some (stringAt db key) from typed]

/-- A `GET` of a key without a set: the string, or the null reply. -/
theorem exec_get {db : Database K M} {key : K} (typed : NoSet db key) :
    exec (.get key) db = (db, .bulk (stringAt db key)) ∨
      exec (.get key) db = (db, .nil) ∧ stringAt db key = [] := by
  cases stored : db key with
  | none =>
      refine .inr ⟨?_, stringAt_of_none stored⟩
      simp only [exec, stored]
  | some value =>
      cases value with
      | str bytes =>
          refine .inl ?_
          simp only [exec, stored, (stringAt_of_str stored).1]
      | set members => simp [NoSet, strAt?, stored] at typed

/-! ## No empty sets -/

/-- No key holds an empty set. -/
def Proper (db : Database K M) : Prop := ∀ key, db key ≠ some (.set [])

omit [DecidableEq M] in
/-- A key may be given any value but an empty set. -/
theorem Proper.update {db : Database K M} (proper : Proper db) (key : K) {value : Option (Value M)}
    (nonempty : value ≠ some (.set [])) : Proper (Function.update db key value) := by
  intro key'
  by_cases same : key' = key
  · subst same
    simpa using nonempty
  · simpa [same] using proper key'

/-- **The key of a set goes with its last member.** -/
theorem Proper.exec {db : Database K M} (proper : Proper db) (cmd : Cmd K M) :
    Proper (exec cmd db).1 := by
  cases cmd with
  | sadd key member =>
      simp only [Redis.exec]
      split
      · exact proper
      · split
        · exact proper
        · exact proper.update key (by simp)
  | srem key member =>
      simp only [Redis.exec]
      split
      · exact proper
      · split
        · apply proper.update key
          split
          · simp
          · rename_i nonempty
            simpa using nonempty
        · exact proper
  | smembers key => rwa [exec_eq_self rfl]
  | set key value => exact proper.update key (by simp)
  | setnx key value =>
      simp only [Redis.exec]
      split
      · exact proper
      · exact proper.update key (by simp)
  | setrange key offset value =>
      simp only [Redis.exec]
      split
      · exact proper
      · split
        · exact proper
        · split
          · exact proper
          · exact proper.update key (by simp)
  | get key => rwa [exec_eq_self rfl]
  | getrange key start stop => rwa [exec_eq_self rfl]
  | strlen key => rwa [exec_eq_self rfl]
  | «exists» key => rwa [exec_eq_self rfl]
  | unlink keys =>
      intro key
      simp only [Redis.exec]
      split
      · simp
      · exact proper key

theorem Proper.execAll {db : Database K M} (proper : Proper db) (cmds : List (Cmd K M)) :
    Proper (execAll cmds db).1 := by
  induction cmds generalizing db with
  | nil => exact proper
  | cons cmd rest ih => exact ih (proper.exec cmd)

end Redis
