import Pdwfs.Redis.Commands

/-!
# What the commands can tell of a database

A missing key is read as the empty string by the commands on strings, and as the
empty set by those on sets.  Two instances that only differ in that are the same to
every program that uses each key for one of the types.

* `Sorting` — which keys hold strings, and which sets.
* `SameView` — the two instances hold the same under these keys.
* `SameView.exec`, `SameView.execAll` — commands keep it, and are answered alike.

This is needed where a state is compared with another one that has been reached in a
different way: keys that are left over and hold an empty string are no difference,
and neither are keys that no command ever names.  Two commands could tell, `SETNX`
and `EXISTS`, and are excluded by `Cmd.Sorted`.  The reply of `UNLINK` could tell as
well, since it counts the keys that existed; it is left out of `SameView.reply`, and
its users have to ignore it.
-/

namespace Redis

variable {K M : Type}

/-- The use of the keys.  No key is used for both types; a key may be used for
neither, and then nothing is said about it. -/
structure Sorting (K : Type) where
  strings : K → Prop
  sets : K → Prop
  disjoint : ∀ {key}, strings key → ¬sets key

/-- The command is one on strings or on sets, and its keys are used for that.
`SETNX` and `EXISTS` are not among them, since they can tell a missing key from an
empty one. -/
def Cmd.Sorted (S : Sorting K) : Cmd K M → Prop
  | .sadd key _ => S.sets key
  | .srem key _ => S.sets key
  | .smembers key => S.sets key
  | .set key _ => S.strings key
  | .setrange key _ _ => S.strings key
  | .get key => S.strings key
  | .getrange key _ _ => S.strings key
  | .strlen key => S.strings key
  | .unlink keys => ∀ key ∈ keys, S.strings key
  | .setnx _ _ => False
  | .exists _ => False

/-- The two instances hold the same strings and the same sets, up to missing keys. -/
structure SameView (S : Sorting K) (db db' : Database K M) : Prop where
  strings : ∀ key, S.strings key → strAt? db key = strAt? db' key
  sets : ∀ key, S.sets key → setAt? db key = setAt? db' key

/-- The replies are the same, up to that of a `GET` of a missing key.  It is the
null reply on one side, and an empty string on the other. -/
inductive SameReply : Reply M → Reply M → Prop
  | refl (reply : Reply M) : SameReply reply reply
  | missing : SameReply .nil (.bulk [])
  | empty : SameReply (.bulk []) .nil

variable {S : Sorting K} {db db' : Database K M}

namespace SameView

/-- An instance looks like itself. -/
theorem refl (S : Sorting K) (db : Database K M) : SameView S db db :=
  ⟨fun _ _ => rfl, fun _ _ => rfl⟩

/-- Looking the same is symmetric. -/
theorem symm (same : SameView S db db') : SameView S db' db :=
  ⟨fun key here => (same.strings key here).symm, fun key here => (same.sets key here).symm⟩

variable [DecidableEq K]

/-- The string of a key, when a key has been written. -/
theorem strAt?_update {key key' : K} {value : Option (Value M)} :
    strAt? (Function.update db key value) key' =
      if key' = key then strAt? (fun _ => value) key else strAt? db key' := by
  by_cases same : key' = key
  · subst same
    simp [strAt?]
  · simp [strAt?, same]

/-- The same for sets. -/
theorem setAt?_update {key key' : K} {value : Option (Value M)} :
    setAt? (Function.update db key value) key' =
      if key' = key then setAt? (fun _ => value) key else setAt? db key' := by
  by_cases same : key' = key
  · subst same
    simp [setAt?]
  · simp [setAt?, same]

/-- Both instances change in the same way under one key. -/
theorem update (same : SameView S db db') (key : K) (value : Option (Value M)) :
    SameView S (Function.update db key value) (Function.update db' key value) where
  strings key' here := by
    rw [strAt?_update, strAt?_update]
    split
    · rfl
    · exact same.strings key' here
  sets key' here := by
    rw [setAt?_update, setAt?_update]
    split
    · rfl
    · exact same.sets key' here

variable [DecidableEq M]

/-- **A command** on two instances that look the same keeps them so. -/
theorem exec (same : SameView S db db') {cmd : Cmd K M} (sorted : cmd.Sorted S) :
    SameView S (Redis.exec cmd db).1 (Redis.exec cmd db').1 := by
  cases cmd with
  | sadd key member =>
      simp only [Redis.exec, ← same.sets key sorted]
      split
      · exact same
      · split
        · exact same
        · exact same.update _ _
  | srem key member =>
      simp only [Redis.exec, ← same.sets key sorted]
      split
      · exact same
      · split
        · exact same.update _ _
        · exact same
  | smembers key => rwa [exec_eq_self rfl, exec_eq_self rfl]
  | set key value => exact same.update _ _
  | setnx key value => exact sorted.elim
  | setrange key offset value =>
      simp only [Redis.exec, ← same.strings key sorted]
      split
      · exact same
      · split
        · exact same
        · split
          · exact same
          · exact same.update _ _
  | get key => rwa [exec_eq_self rfl, exec_eq_self rfl]
  | getrange key start stop => rwa [exec_eq_self rfl, exec_eq_self rfl]
  | strlen key => rwa [exec_eq_self rfl, exec_eq_self rfl]
  | «exists» key => exact sorted.elim
  | unlink keys =>
      refine ⟨fun key here => ?_, fun key here => ?_⟩
      · by_cases deleted : key ∈ keys
        · simp [Redis.exec, strAt?, deleted]
        · have old := same.strings key here
          simpa [Redis.exec, strAt?, deleted] using old
      · have kept : key ∉ keys := fun deleted => S.disjoint (sorted key deleted) here
        have old := same.sets key here
        simpa [Redis.exec, setAt?, kept] using old

/-- The same for a transaction. -/
theorem execAll (same : SameView S db db') {cmds : List (Cmd K M)}
    (sorted : ∀ cmd ∈ cmds, cmd.Sorted S) :
    SameView S (Redis.execAll cmds db).1 (Redis.execAll cmds db').1 := by
  induction cmds generalizing db db' with
  | nil => exact same
  | cons cmd rest ih =>
      exact ih (same.exec (sorted cmd (by simp))) fun cmd' member => sorted cmd' (by simp [member])

/-- A command is answered alike by both.  `UNLINK` counts the keys that exist, so its
reply is left out. -/
theorem reply (same : SameView S db db') {cmd : Cmd K M} (sorted : cmd.Sorted S)
    (counts : ∀ keys, cmd ≠ .unlink keys) :
    SameReply (Redis.exec cmd db).2 (Redis.exec cmd db').2 := by
  cases cmd with
  | sadd key member =>
      simp only [Redis.exec, ← same.sets key sorted]
      split
      · exact .refl _
      · split <;> exact .refl _
  | srem key member =>
      simp only [Redis.exec, ← same.sets key sorted]
      split
      · exact .refl _
      · split <;> exact .refl _
  | smembers key =>
      simp only [Redis.exec, ← same.sets key sorted]
      split <;> exact .refl _
  | set key value => exact .refl _
  | setnx key value => exact sorted.elim
  | setrange key offset value =>
      simp only [Redis.exec, ← same.strings key sorted]
      split
      · exact .refl _
      · split
        · exact .refl _
        · split <;> exact .refl _
  -- `GET` tells a missing key from an empty string, which the two views do not; so the
  -- replies are the same up to that.
  | get key =>
      have strings := same.strings key sorted
      simp only [strAt?] at strings
      simp only [Redis.exec]
      cases here : db key with
      | none =>
          rw [here] at strings
          cases there : db' key with
          | none => exact .refl _
          | some value =>
              rw [there] at strings
              cases value with
              | str bytes =>
                  obtain rfl : [] = bytes := by simpa using strings
                  exact .missing
              | set members => simp at strings
      | some value =>
          rw [here] at strings
          cases value with
          | str bytes =>
              cases there : db' key with
              | none =>
                  rw [there] at strings
                  obtain rfl : bytes = [] := by simpa using strings
                  exact .empty
              | some value =>
                  rw [there] at strings
                  cases value with
                  | str bytes' =>
                      obtain rfl : bytes = bytes' := by simpa using strings
                      exact .refl _
                  | set members => simp at strings
          | set members =>
              cases there : db' key with
              | none => simp [there] at strings
              | some value =>
                  cases value with
                  | str bytes => simp [there] at strings
                  | set members' => exact .refl _
  | getrange key start stop =>
      -- `GETRANGE` and `STRLEN` take a missing key for an empty string.
      simp only [Redis.exec, ← same.strings key sorted]
      split <;> exact .refl _
  | strlen key =>
      simp only [Redis.exec, ← same.strings key sorted]
      split <;> exact .refl _
  | «exists» key => exact sorted.elim
  | unlink keys => exact absurd rfl (counts keys)

end SameView

end Redis
