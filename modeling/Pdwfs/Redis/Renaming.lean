import Pdwfs.Redis.Commands

/-!
# Renaming keys and members

The commands only compare keys and members: they do the same under other names, as
long as different keys and different members have different names.

* `Cmd.rename`, `Reply.rename`, `Value.rename` — a command, a reply and a value
  under the names that `key` and `member` give.
* `Renames` — an instance holds the values of another one under the new names.  What
  it holds besides does not matter.
* `Renames.exec`, `Renames.execAll` — the commands keep it, and their replies
  correspond.

A client has names made of characters, and a server has names made of the bytes of
their encoding.  The encoding is injective, so this module says all that there is to
say about the difference: a client may be thought of as one of an instance with its
own names.  Only one direction is needed, from the client to the server, and so
`Renames` leaves open what the server holds under names that are no encoding.
-/

namespace Redis

variable {K M K' M' : Type} (key : K → K') (member : M → M')

/-- A value, its members renamed. -/
def Value.rename : Value M → Value M'
  | .str bytes => .str bytes
  | .set members => .set (members.map member)

/-- A command under new names. -/
def Cmd.rename : Cmd K M → Cmd K' M'
  | .sadd k m => .sadd (key k) (member m)
  | .srem k m => .srem (key k) (member m)
  | .smembers k => .smembers (key k)
  | .set k value => .set (key k) value
  | .setnx k value => .setnx (key k) value
  | .setrange k offset value => .setrange (key k) offset value
  | .get k => .get (key k)
  | .getrange k start stop => .getrange (key k) start stop
  | .strlen k => .strlen (key k)
  | .exists k => .exists (key k)
  | .unlink keys => .unlink (keys.map key)

/-- A reply, its members renamed. -/
def Reply.rename : Reply M → Reply M'
  | .ok => .ok
  | .nil => .nil
  | .int n => .int n
  | .bulk bytes => .bulk bytes
  | .members ms => .members (ms.map member)
  | .err => .err

/-- `raw` holds the values of `db` under the new names.  Under other names it may
hold anything. -/
def Renames (db : Database K M) (raw : Database K' M') : Prop :=
  ∀ k, raw (key k) = (db k).map (Value.rename member)

namespace Renames

variable {key member} {db : Database K M} {raw : Database K' M'}

/-- The set under a key has the members of the other one, renamed. -/
theorem setAt? (renames : Renames key member db raw) (k : K) :
    Redis.setAt? raw (key k) = (Redis.setAt? db k).map (List.map member) := by
  simp only [Redis.setAt?, renames k]
  cases db k with
  | none => rfl
  | some value => cases value <;> rfl

/-- The string under a key is the same. -/
theorem strAt? (renames : Renames key member db raw) (k : K) :
    Redis.strAt? raw (key k) = Redis.strAt? db k := by
  simp only [Redis.strAt?, renames k]
  cases db k with
  | none => rfl
  | some value => cases value <;> rfl

variable [DecidableEq K] [DecidableEq K']

/-- A write under the old and the new name.  Injectivity is used here: another key
has another name, and is left as it is on both sides. -/
theorem update (renames : Renames key member db raw) (injective : Function.Injective key) (k : K)
    {value : Option (Value M)} {value' : Option (Value M')}
    (same : value' = value.map (Value.rename member)) :
    Renames key member (Function.update db k value) (Function.update raw (key k) value') := by
  intro j
  by_cases here : j = k
  · subst here
    simp [same]
  · rw [Function.update_of_ne here, Function.update_of_ne (injective.ne here)]
    exact renames j

variable [DecidableEq M] [DecidableEq M']

/-- **A command does the same under the new names.** -/
theorem exec (renames : Renames key member db raw) (keys : Function.Injective key)
    (members : Function.Injective member) (cmd : Cmd K M) :
    Renames key member (Redis.exec cmd db).1 (Redis.exec (cmd.rename key member) raw).1 ∧
      (Redis.exec (cmd.rename key member) raw).2 = (Redis.exec cmd db).2.rename member := by
  cases cmd with
  | sadd k m =>
      simp only [Cmd.rename, Redis.exec, renames.setAt? k]
      cases Redis.setAt? db k with
      | none => exact ⟨renames, rfl⟩
      | some old =>
          simp only [Option.map_some, List.mem_map_of_injective members]
          split
          · exact ⟨renames, rfl⟩
          · exact ⟨renames.update keys k (by simp [Value.rename]), rfl⟩
  | srem k m =>
      simp only [Cmd.rename, Redis.exec, renames.setAt? k]
      cases Redis.setAt? db k with
      | none => exact ⟨renames, rfl⟩
      | some old =>
          simp only [Option.map_some, List.mem_map_of_injective members]
          -- Taking out a member commutes with the renaming, since two members have two
          -- names.
          have rest : (old.map member).filter (· ≠ member m) = (old.filter (· ≠ m)).map member := by
            rw [List.filter_map]
            congr 1
            exact List.filter_congr fun m' _ => by simp [members.eq_iff]
          split
          · refine ⟨renames.update keys k ?_, rfl⟩
            rw [rest]
            generalize old.filter (· ≠ m) = kept
            simp only [List.map_eq_nil_iff]
            split <;> rfl
          · exact ⟨renames, rfl⟩
  | smembers k =>
      simp only [Cmd.rename, Redis.exec, renames.setAt? k]
      cases Redis.setAt? db k <;> exact ⟨renames, rfl⟩
  | set k value => exact ⟨renames.update keys k rfl, rfl⟩
  | setnx k value =>
      simp only [Cmd.rename, Redis.exec, renames k, Option.isSome_map]
      split
      · exact ⟨renames, rfl⟩
      · exact ⟨renames.update keys k rfl, rfl⟩
  | setrange k offset value =>
      simp only [Cmd.rename, Redis.exec, renames.strAt? k]
      split
      · exact ⟨renames, rfl⟩
      · cases Redis.strAt? db k with
        | none => exact ⟨renames, rfl⟩
        | some old =>
            simp only
            split
            · exact ⟨renames, rfl⟩
            · exact ⟨renames.update keys k rfl, rfl⟩
  | get k =>
      simp only [Cmd.rename, Redis.exec, renames k]
      cases db k with
      | none => exact ⟨renames, rfl⟩
      | some value => cases value <;> exact ⟨renames, rfl⟩
  | getrange k start stop =>
      simp only [Cmd.rename, Redis.exec, renames.strAt? k]
      cases Redis.strAt? db k <;> exact ⟨renames, rfl⟩
  | strlen k =>
      simp only [Cmd.rename, Redis.exec, renames.strAt? k]
      cases Redis.strAt? db k <;> exact ⟨renames, rfl⟩
  | «exists» k =>
      simp only [Cmd.rename, Redis.exec, renames k, Option.isSome_map]
      exact ⟨renames, rfl⟩
  | unlink ks =>
      simp only [Cmd.rename, Redis.exec]
      refine ⟨fun k => ?_, ?_⟩
      · simp only [List.mem_map_of_injective keys]
        split
        · rfl
        · exact renames k
      -- `UNLINK` answers how many of the keys were there, and as many were there under
      -- the new names.
      · have alike : (fun k => (raw k).isSome) ∘ key = fun k => (db k).isSome := by
          funext k
          simp [renames k]
        rw [List.countP_map, alike]
        rfl

omit [DecidableEq K'] [DecidableEq M'] in
/-- Each command of a transaction is replied to. -/
theorem length_execAll (cmds : List (Cmd K M)) (db : Database K M) :
    (Redis.execAll cmds db).2.length = cmds.length := by
  induction cmds generalizing db with
  | nil => rfl
  | cons cmd rest ih => simp [ih]

/-- The same for a transaction. -/
theorem execAll (renames : Renames key member db raw) (keys : Function.Injective key)
    (members : Function.Injective member) (cmds : List (Cmd K M)) :
    Renames key member (Redis.execAll cmds db).1
        (Redis.execAll (cmds.map (Cmd.rename key member)) raw).1 ∧
      (Redis.execAll (cmds.map (Cmd.rename key member)) raw).2 =
        (Redis.execAll cmds db).2.map (Reply.rename member) := by
  induction cmds generalizing db raw with
  | nil => exact ⟨renames, rfl⟩
  | cons cmd rest ih =>
      obtain ⟨here, reply⟩ := renames.exec keys members cmd
      obtain ⟨there, replies⟩ := ih here
      exact ⟨there, by simp [reply, replies]⟩

end Renames

end Redis
