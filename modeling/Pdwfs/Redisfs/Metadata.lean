import Pdwfs.Redisfs.Fs
import Pdwfs.Redisfs.Reachable
import Pdwfs.Redisfs.Requests

/-!
# Metadata in Redis

What the instances hold about paths, apart from the content of files, and what the
requests of the inodes do to it.

* `Entry`, `DataStore.entry` — the two metadata keys of a path.
* `Entry.created`, `Entry.withChild`, `Entry.withoutChild` — the effect of a request
  on the entry of the path it is about; `entry_initRequest`, `entry_addRequest`,
  `entry_remRequest` and `entry_unlinkRequest` say that it has no other.
* `MetaOf`, `DataOf` — requests that write nothing but metadata, or nothing but
  content.  Neither kind can be seen by the other (`StoreInv.metaOf`,
  `entry_dataOf`).
* `exec_isDir_bind`, … — the functions of an inode, run on a store that nobody else
  uses, in front of any continuation.
* `issues_remove`, `issues_openFile`, … — the programs that only work on content.

## Two keys

A path has a mode and a set of children, which are keys of their own, and nothing in
Redis ties one to the other.  That a path exists means that it has a mode, and that
it is a directory means that it has a set of children, so four cases are possible,
and all of them occur.  A directory without a mode is left behind when a directory
is removed while a file is created in it.

Redis deletes a set that gets empty.  So that a directory stays one without entries,
its set holds the empty string, which no path is equal to; `Lists` leaves it out and
`Entry.members` does not.

## Entries

All keys of a path are on the same instance, and a request for its metadata is sent
to that instance.  What such a request does is an operation on a pair of values, for
any configuration.  The modules on the namespace work with entries, and use clusters
only through the equations of this module.
-/

namespace Pdwfs

open Concurrency Redis

/-- The metadata keys of a path.  The values are what Redis holds, so that a key can
also hold a value of the wrong type. -/
structure Entry where
  mode : Option (Value GoString)
  children : Option (Value GoString)
  deriving DecidableEq

namespace Entry

variable (e : Entry)

/-- Neither key exists. -/
def missing : Entry := ⟨none, none⟩

def «exists» : Bool := e.mode.isSome

/-- The path has a set of children. -/
def isDir : Bool := e.children.isSome

/-- The members of the set of children, the empty string among them. -/
def members : List GoString :=
  match e.children with
  | some (.set members) => members
  | _ => []

/-- The key of the children does not hold a string.  Otherwise `SADD` is answered
with an error, and the program is aborted. -/
def Typed : Prop := ∀ bytes, e.children ≠ some (.str bytes)

/-- The entry with one more member.  A set that does not exist is created. -/
def withChild (x : GoString) : Entry :=
  match e.children with
  | none => { e with children := some (.set [x]) }
  | some (.set members) =>
      if x ∈ members then e else { e with children := some (.set (members ++ [x])) }
  | some (.str _) => e

/-- The entry with one member less.  A set that gets empty is deleted. -/
def withoutChild (x : GoString) : Entry :=
  match e.children with
  | some (.set members) =>
      if x ∈ members then
        let rest := members.filter (· ≠ x)
        { e with children := if rest = [] then none else some (.set rest) }
      else e
  | _ => e

/-- The entry after a creation.  The mode of an inode that exists stays as it is,
since it is written by `SETNX`; a set of children is created in any case. -/
def created (dir : Bool) (mode : FileMode) : Entry :=
  let e := if dir then e.withChild [] else e
  { e with mode := if e.exists then e.mode else some (.str (decimalBytes mode.toNat)) }

variable {e} {x y : GoString}

@[simp] theorem exists_missing : missing.exists = false := rfl
@[simp] theorem isDir_missing : missing.isDir = false := rfl
@[simp] theorem members_missing : missing.members = [] := rfl

theorem typed_missing : missing.Typed := by simp [Typed, missing]

theorem isDir_of_mem_members (member : x ∈ e.members) : e.isDir = true := by
  rw [members] at member
  split at member
  · rename_i stored
    simp [isDir, stored]
  · simp at member

theorem members_of_not_isDir (file : e.isDir = false) : e.members = [] := by
  unfold members
  split
  · rename_i stored
    simp [isDir, stored] at file
  · rfl

/-- An entry as the program writes them. -/
theorem Typed.cases (typed : e.Typed) :
    e.children = none ∧ e.isDir = false ∧ e.members = [] ∨
      ∃ ms, e.children = some (.set ms) ∧ e.isDir = true ∧ e.members = ms := by
  cases stored : e.children with
  | none => exact .inl ⟨rfl, by simp [isDir, stored], by simp [members, stored]⟩
  | some value =>
      cases value with
      | str bytes => exact absurd stored (typed bytes)
      | set ms => exact .inr ⟨ms, rfl, by simp [isDir, stored], by simp [members, stored]⟩

@[simp] theorem mode_withChild : (e.withChild x).mode = e.mode := by
  simp only [withChild]
  split
  · rfl
  · split <;> rfl
  · rfl

@[simp] theorem exists_withChild : (e.withChild x).exists = e.exists := by
  rw [«exists», mode_withChild, «exists»]

/-- With a member there is a set. -/
@[simp] theorem isDir_withChild : (e.withChild x).isDir = true := by
  simp only [withChild]
  split
  · rfl
  · rename_i stored
    split
    · simp [isDir, stored]
    · rfl
  · rename_i stored
    simp [isDir, stored]

theorem Typed.withChild (typed : e.Typed) : (e.withChild x).Typed := by
  rcases typed.cases with ⟨stored, -, -⟩ | ⟨ms, stored, -, -⟩
  · simp [Entry.withChild, stored, Typed]
  · by_cases present : x ∈ ms
    · simpa [Entry.withChild, stored, present] using typed
    · simp [Entry.withChild, stored, present, Typed]

/-- The members are those from before and the new one. -/
theorem Typed.mem_withChild (typed : e.Typed) :
    y ∈ (e.withChild x).members ↔ y ∈ e.members ∨ y = x := by
  rcases typed.cases with ⟨stored, -, none⟩ | ⟨ms, stored, -, same⟩
  · rw [none]
    simp [Entry.withChild, stored, members]
  · by_cases present : x ∈ ms
    · rw [same]
      simp only [Entry.withChild, stored, present, ite_true, members]
      refine ⟨.inl, ?_⟩
      rintro (old | rfl)
      · exact old
      · exact present
    · rw [same]
      simp [Entry.withChild, stored, present, members]

@[simp] theorem mode_withoutChild : (e.withoutChild x).mode = e.mode := by
  simp only [withoutChild]
  split
  · split <;> rfl
  · rfl

@[simp] theorem exists_withoutChild : (e.withoutChild x).exists = e.exists := by
  rw [«exists», mode_withoutChild, «exists»]

/-- No string comes into being. -/
theorem Typed.withoutChild (typed : e.Typed) : (e.withoutChild x).Typed := by
  rcases typed.cases with ⟨stored, -, -⟩ | ⟨ms, stored, -, -⟩
  · simpa [Entry.withoutChild, stored] using typed
  · by_cases present : x ∈ ms
    · simp only [Entry.withoutChild, stored, present, ite_true, Typed]
      split <;> simp
    · simpa [Entry.withoutChild, stored, present] using typed

/-- The members are those from before without the one.  This also holds if the set
is deleted because it gets empty. -/
theorem Typed.mem_withoutChild (typed : e.Typed) :
    y ∈ (e.withoutChild x).members ↔ y ∈ e.members ∧ y ≠ x := by
  rcases typed.cases with ⟨stored, -, none⟩ | ⟨ms, stored, -, same⟩
  · simp only [Entry.withoutChild, stored, none]
    simp
  · by_cases present : x ∈ ms
    · rw [same]
      simp only [Entry.withoutChild, stored, present, ite_true, members]
      by_cases last : ms.filter (· ≠ x) = []
      · have := List.filter_eq_nil_iff.mp last y
        simp only [last, ite_true, List.not_mem_nil, false_iff]
        simpa using this
      · simp only [last, ite_false]
        simp
    · rw [same]
      simp only [Entry.withoutChild, stored, present, ite_false, same]
      refine ⟨fun old => ⟨old, ?_⟩, And.left⟩
      rintro rfl
      exact present old

/-- No directory comes into being by the removal of a child. -/
theorem isDir_of_isDir_withoutChild (dir : (e.withoutChild x).isDir = true) :
    e.isDir = true := by
  simp only [withoutChild] at dir
  split at dir
  · rename_i stored
    simp [isDir, stored]
  · exact dir

/-- What has been created exists. -/
@[simp] theorem exists_created {dir : Bool} {mode : FileMode} :
    (e.created dir mode).exists = true := by
  have stored : ∀ old new : Option (Value GoString), new.isSome = true →
      (if old.isSome then old else new).isSome = true := by
    intro old new some
    by_cases present : old.isSome = true <;> simp [present, some]
  exact stored _ _ rfl

/-- The mode of an inode that exists stays as it is. -/
theorem mode_created (present : e.exists = true) {dir : Bool} {mode : FileMode} :
    (e.created dir mode).mode = e.mode := by
  cases dir <;> simp [created, present]

theorem mode_created_of_absent (absent : e.exists = false) {dir : Bool} {mode : FileMode} :
    (e.created dir mode).mode = some (.str (decimalBytes mode.toNat)) := by
  cases dir <;> simp [created, absent]

theorem isDir_created {dir : Bool} {mode : FileMode} :
    (e.created dir mode).isDir = (dir || e.isDir) := by
  cases dir with
  | false => rfl
  | true => exact isDir_withChild

theorem Typed.created (typed : e.Typed) {dir : Bool} {mode : FileMode} :
    (e.created dir mode).Typed := by
  cases dir with
  | false => exact typed
  | true => exact typed.withChild

/-- A creation adds no child, but the empty string if a directory is created. -/
theorem Typed.mem_created (typed : e.Typed) {dir : Bool} {mode : FileMode} :
    y ∈ (e.created dir mode).members ↔ y ∈ e.members ∨ dir = true ∧ y = [] := by
  cases dir with
  | false => exact (or_iff_left (by simp)).symm
  | true =>
      rw [show y ∈ (e.created true mode).members ↔ y ∈ (e.withChild []).members from Iff.rfl,
        typed.mem_withChild]
      simp

/-- To create a directory that exists changes nothing. -/
theorem Typed.created_eq_self (typed : e.Typed) (present : e.exists = true)
    (member : [] ∈ e.members) (mode : FileMode) : e.created true mode = e := by
  have kept : e.withChild [] = e := by
    rcases typed.cases with ⟨-, -, none⟩ | ⟨ms, stored, -, same⟩
    · simp [none] at member
    · rw [Entry.withChild, stored]
      exact if_pos (same ▸ member)
  simp [Entry.created, kept, present]

/-! A set of children does not hold a path twice. -/

/-- A member that is there is not added again. -/
theorem Typed.nodup_withChild (typed : e.Typed) (nodup : e.members.Nodup) :
    (e.withChild x).members.Nodup := by
  rcases typed.cases with ⟨stored, -, none⟩ | ⟨ms, stored, -, same⟩
  · simp [Entry.withChild, members, stored]
  · rw [Entry.withChild, stored]
    by_cases present : x ∈ ms
    · simpa only [present, ite_true] using nodup
    · rw [same] at nodup
      simp [present, members, List.nodup_append, nodup]
      exact fun y member same => present (same ▸ member)

/-- To leave one out keeps the others apart. -/
theorem Typed.nodup_withoutChild (typed : e.Typed) (nodup : e.members.Nodup) :
    (e.withoutChild x).members.Nodup := by
  rcases typed.cases with ⟨stored, -, none⟩ | ⟨ms, stored, -, same⟩
  · simp [Entry.withoutChild, members, stored]
  · rw [Entry.withoutChild, stored]
    by_cases present : x ∈ ms
    · rw [same] at nodup
      simp only [present, ite_true, members]
      split
      · rename_i stored'
        split at stored'
        · simp at stored'
        · rw [← (Value.set.inj (Option.some.inj stored'))]
          exact nodup.filter _
      · simp
    · simpa only [present, ite_false] using nodup

theorem Typed.nodup_created (typed : e.Typed) (nodup : e.members.Nodup) {dir : Bool}
    {mode : FileMode} : (e.created dir mode).members.Nodup := by
  cases dir with
  | false => exact nodup
  | true => exact typed.nodup_withChild nodup

end Entry

/-! ## Requests for metadata -/

/-- The request writes nothing but the metadata of `path`.  A request that reads
only is among them. -/
def MetaOf (path : GoString) (q : Request) : Prop :=
  ∀ k ∈ q.writes, k = modeKey path ∨ k = childrenKey path

/-- The request writes nothing but the content of `name`: its stripes and the set of
their numbers. -/
def DataOf (name : GoString) (q : Request) : Prop :=
  ∀ k ∈ q.writes, k = stripesKey name ∨ ∃ id, k = key name id

theorem metaOf_of_readOnly {q : Request} (readOnly : q.writes = []) (path : GoString) :
    MetaOf path q := by
  simp [MetaOf, readOnly]

theorem dataOf_of_readOnly {q : Request} (readOnly : q.writes = []) (name : GoString) :
    DataOf name q := by
  simp [DataOf, readOnly]

namespace DataStore

theorem dataOf_removeStripe (s : DataStore) (name : GoString) (id : ℤ) :
    DataOf name (s.removeStripe name id) := fun _ member =>
  (mem_writes_removeStripe.mp member).imp_right fun same => ⟨id, same⟩

variable (s : DataStore)

/-- The instance that stores the metadata of a path. -/
def metaAddr (path : GoString) : Addr := (s.metaClient path).addr

/-- What the instances hold about a path. -/
def entry (c : Cluster) (path : GoString) : Entry where
  mode := c (s.metaAddr path) (modeKey path)
  children := c (s.metaAddr path) (childrenKey path)

/-- `EXISTS {path}:mode`. -/
def existsRequest (path : GoString) : Request where
  addr := s.metaAddr path
  body := .single (.exists (modeKey path))

/-- `EXISTS {path}:children`. -/
def isDirRequest (path : GoString) : Request where
  addr := s.metaAddr path
  body := .single (.exists (childrenKey path))

/-- The transaction of `initMeta`.  The set of children and the mode are written
together, so that no other client sees a directory with one of them. -/
def initRequest (path : GoString) (isDir : Bool) (mode : FileMode) : Request where
  addr := s.metaAddr path
  body := .multi ((if isDir then [.sadd (childrenKey path) []] else []) ++
    [.setnx (modeKey path) (decimalBytes mode.toNat)])

/-- `SADD {parent}:children path`. -/
def addRequest (parent path : GoString) : Request where
  addr := s.metaAddr parent
  body := .single (.sadd (childrenKey parent) path)

/-- `SREM {parent}:children path`. -/
def remRequest (parent path : GoString) : Request where
  addr := s.metaAddr parent
  body := .single (.srem (childrenKey parent) path)

/-- `SMEMBERS {path}:children`. -/
def listRequest (path : GoString) : Request where
  addr := s.metaAddr path
  body := .single (.smembers (childrenKey path))

/-- `UNLINK {path}:children {path}:mode`.  Both keys go at once. -/
def unlinkRequest (path : GoString) : Request where
  addr := s.metaAddr path
  body := .single (.unlink [childrenKey path, modeKey path])

variable {s} {c : Cluster} {path : GoString}

theorem metaOf_initRequest {isDir : Bool} {mode : FileMode} :
    MetaOf path (s.initRequest path isDir mode) := by
  intro k member
  cases isDir <;>
    simp [Request.writes, Body.writes, initRequest, Cmd.writes] at member <;> tauto

theorem metaOf_addRequest {child : GoString} : MetaOf path (s.addRequest path child) := by
  intro k member
  simp [Request.writes, Body.writes, addRequest, Cmd.writes] at member
  exact .inr member

theorem metaOf_remRequest {child : GoString} : MetaOf path (s.remRequest path child) := by
  intro k member
  simp [Request.writes, Body.writes, remRequest, Cmd.writes] at member
  exact .inr member

theorem metaOf_unlinkRequest : MetaOf path (s.unlinkRequest path) := by
  intro k member
  simp [Request.writes, Body.writes, unlinkRequest, Cmd.writes] at member
  tauto

/-- A request for the metadata of one path leaves the entries of the others. -/
theorem entry_metaOf {q : Request} (metaOf : MetaOf path q) (c : Cluster) {other : GoString}
    (ne : other ≠ path) : s.entry (serve q c).1 other = s.entry c other := by
  have kept : ∀ k, (k = modeKey other ∨ k = childrenKey other) → k ∉ q.writes := by
    rintro k (rfl | rfl) member
    · rcases metaOf _ member with same | same
      · exact ne (modeKey_inj.mp same)
      · exact modeKey_ne_childrenKey other path same
    · rcases metaOf _ member with same | same
      · exact modeKey_ne_childrenKey path other same.symm
      · exact ne (childrenKey_inj.mp same)
  rw [entry, entry, serve_of_not_mem_writes (kept _ (.inl rfl)),
    serve_of_not_mem_writes (kept _ (.inr rfl))]

/-- A request for content leaves all entries. -/
theorem entry_dataOf {name : GoString} {q : Request} (dataOf : DataOf name q) (c : Cluster) :
    s.entry (serve q c).1 = s.entry c := by
  funext path
  have kept : ∀ k, (k = modeKey path ∨ k = childrenKey path) → k ∉ q.writes := by
    rintro k (rfl | rfl) member
    · rcases dataOf _ member with same | ⟨id, same⟩
      · exact stripesKey_ne_modeKey name path same.symm
      · exact key_ne_modeKey name path id same.symm
    · rcases dataOf _ member with same | ⟨id, same⟩
      · exact stripesKey_ne_childrenKey name path same.symm
      · exact key_ne_childrenKey name path id same.symm
  rw [entry, entry, serve_of_not_mem_writes (kept _ (.inl rfl)),
    serve_of_not_mem_writes (kept _ (.inr rfl))]

/-- A request for metadata leaves all content. -/
theorem content_metaOf {q : Request} (metaOf : MetaOf path q) (c : Cluster) (a : Addr)
    (name : GoString) :
    (∀ id, (serve q c).1 a (key name id) = c a (key name id)) ∧
      (serve q c).1 a (stripesKey name) = c a (stripesKey name) := by
  constructor
  · intro id
    refine serve_of_not_mem_writes (fun member => ?_) c a
    rcases metaOf _ member with same | same
    · exact key_ne_modeKey name path id same
    · exact key_ne_childrenKey name path id same
  · refine serve_of_not_mem_writes (fun member => ?_) c a
    rcases metaOf _ member with same | same
    · exact stripesKey_ne_modeKey name path same
    · exact stripesKey_ne_childrenKey name path same

theorem StoreInv.metaOf {q : Request} (inv : s.StoreInv c) (metaOf : MetaOf path q) :
    s.StoreInv (Pdwfs.serve q c).1 := fun name =>
  (inv name).congr (fun a id => (content_metaOf metaOf c a name).1 id)
    fun a => (content_metaOf metaOf c a name).2

/-! ## What the requests do to the entry of their path -/

theorem serve_existsRequest :
    serve (s.existsRequest path) c =
      (c, .server (.int (if (s.entry c path).exists then 1 else 0))) := by
  apply Prod.ext (serve_readOnly rfl c)
  rfl

theorem serve_isDirRequest :
    serve (s.isDirRequest path) c =
      (c, .server (.int (if (s.entry c path).isDir then 1 else 0))) := by
  apply Prod.ext (serve_readOnly rfl c)
  rfl

/-- The set of children of a path, from its entry. -/
theorem setAt?_childrenKey (typed : (s.entry c path).Typed) :
    setAt? (c (s.metaAddr path)) (childrenKey path) = some (s.entry c path).members := by
  rcases typed.cases with ⟨stored, -, none⟩ | ⟨ms, stored, -, same⟩
  · rw [none, setAt?, show c (s.metaAddr path) (childrenKey path) = Option.none from stored]
  · rw [same, setAt?, show c (s.metaAddr path) (childrenKey path) = some (.set ms) from stored]

theorem serve_listRequest (typed : (s.entry c path).Typed) :
    serve (s.listRequest path) c = (c, .server (.members (s.entry c path).members)) := by
  apply Prod.ext (serve_readOnly rfl c)
  simp only [serve, listRequest, Body.exec, Redis.exec, setAt?_childrenKey typed]
  rfl

/-- The entry of the path of a request for metadata, from the instance that executes it. -/
theorem entry_serve_self {q : Request} (here : q.addr = s.metaAddr path) (c : Cluster) :
    s.entry (serve q c).1 path =
      ⟨(q.body.exec q.dst (c (s.metaAddr path))).1 (modeKey path),
        (q.body.exec q.dst (c (s.metaAddr path))).1 (childrenKey path)⟩ := by
  rw [entry, serve_apply, here, if_pos rfl]

/-- An equation for the entry of the path of a request is one for all entries. -/
theorem entry_serve_eq {q : Request} {e : Entry} (metaOf : MetaOf path q) (c : Cluster)
    (self : s.entry (serve q c).1 path = e) :
    s.entry (serve q c).1 = Function.update (s.entry c) path e := by
  funext other
  by_cases same : other = path
  · subst same
    rw [self, Function.update_self]
  · rw [Function.update_of_ne same, entry_metaOf metaOf c same]

/-- Commands on the set of children leave the mode. -/
theorem exec_childrenKey_mode {cmd : Cmd GoString GoString} {path' : GoString}
    (writes : cmd.writes = [childrenKey path']) (db : Database GoString GoString) :
    (Redis.exec cmd db).1 (modeKey path) = db (modeKey path) := by
  apply exec_of_not_mem_writes
  rw [writes, List.mem_singleton]
  exact modeKey_ne_childrenKey path path'

/-- `SADD` on the set of children. -/
theorem exec_sadd_children (typed : (s.entry c path).Typed) (child : GoString) :
    (Redis.exec (.sadd (childrenKey path) child) (c (s.metaAddr path))).1 (childrenKey path) =
        ((s.entry c path).withChild child).children ∧
      (Redis.exec (.sadd (childrenKey path) child) (c (s.metaAddr path))).2 ≠ .err := by
  have found := setAt?_childrenKey typed
  simp only [Redis.exec, found]
  rcases typed.cases with ⟨stored, -, none⟩ | ⟨ms, stored, -, same⟩
  · simp [none, Entry.withChild, stored]
  · by_cases present : child ∈ ms
    · simp only [same, Entry.withChild, stored, present, ite_true]
      exact ⟨stored, by simp⟩
    · simp [same, Entry.withChild, stored, present]

/-- `SREM` on the set of children. -/
theorem exec_srem_children (typed : (s.entry c path).Typed) (child : GoString) :
    (Redis.exec (.srem (childrenKey path) child) (c (s.metaAddr path))).1 (childrenKey path) =
        ((s.entry c path).withoutChild child).children ∧
      (Redis.exec (.srem (childrenKey path) child) (c (s.metaAddr path))).2 ≠ .err := by
  have found := setAt?_childrenKey typed
  simp only [Redis.exec, found]
  rcases typed.cases with ⟨stored, -, none⟩ | ⟨ms, stored, -, same⟩
  · simp only [none, Entry.withoutChild, stored, List.not_mem_nil, ite_false]
    exact ⟨stored, by simp⟩
  · by_cases present : child ∈ ms
    · simp [same, Entry.withoutChild, stored, present]
    · simp only [same, Entry.withoutChild, stored, present, ite_false]
      exact ⟨stored, by simp⟩

/-- A command on the set of children, as a request of its own. -/
theorem entry_serve_single {addr : Addr} {cmd : Cmd GoString GoString} {e : Entry}
    (here : addr = s.metaAddr path) (writes : cmd.writes = [childrenKey path])
    (mode : e.mode = (s.entry c path).mode)
    (children : (Redis.exec cmd (c (s.metaAddr path))).1 (childrenKey path) = e.children) :
    s.entry (serve { addr := addr, body := .single cmd } c).1 =
      Function.update (s.entry c) path e := by
  subst here
  refine entry_serve_eq (fun k member => ?_) c ?_
  · rw [Request.writes, Body.writes, writes, List.mem_singleton] at member
    exact .inr member
  · rw [entry_serve_self rfl]
    cases e
    exact congrArg₂ Entry.mk ((exec_childrenKey_mode writes _).trans mode.symm) children

theorem entry_addRequest (typed : (s.entry c path).Typed) (child : GoString) :
    s.entry (serve (s.addRequest path child) c).1 =
      Function.update (s.entry c) path ((s.entry c path).withChild child) := by
  exact entry_serve_single rfl rfl Entry.mode_withChild (exec_sadd_children typed child).1

theorem entry_remRequest (typed : (s.entry c path).Typed) (child : GoString) :
    s.entry (serve (s.remRequest path child) c).1 =
      Function.update (s.entry c) path ((s.entry c path).withoutChild child) := by
  exact entry_serve_single rfl rfl Entry.mode_withoutChild (exec_srem_children typed child).1

/-- The reply to a command that is sent without a read buffer. -/
theorem serve_single_reply (addr : Addr) (cmd : Cmd GoString GoString) :
    (serve { addr := addr, body := .single cmd } c).2 =
      .server (Redis.exec cmd (c addr)).2 := by
  simp only [serve, Body.exec, readReply]
  split <;> rfl

theorem addRequest_ne_err (typed : (s.entry c path).Typed) (child : GoString) :
    (serve (s.addRequest path child) c).2 ≠ .server .err := by
  rw [addRequest, serve_single_reply]
  simpa using (exec_sadd_children typed child).2

theorem remRequest_ne_err (typed : (s.entry c path).Typed) (child : GoString) :
    (serve (s.remRequest path child) c).2 ≠ .server .err := by
  rw [remRequest, serve_single_reply]
  simpa using (exec_srem_children typed child).2

theorem entry_unlinkRequest :
    s.entry (serve (s.unlinkRequest path) c).1 = Function.update (s.entry c) path .missing := by
  apply entry_serve_eq metaOf_unlinkRequest c
  rw [entry_serve_self rfl]
  exact congrArg₂ Entry.mk (exec_unlink (by simp)) (exec_unlink (by simp))

/-- **The transaction of a creation**, on the entry of its path.  The two commands
write different keys, so the reply to one does not depend on the other. -/
theorem entry_initRequest (typed : (s.entry c path).Typed) (isDir : Bool) (mode : FileMode) :
    s.entry (serve (s.initRequest path isDir mode) c).1 =
      Function.update (s.entry c) path ((s.entry c path).created isDir mode) := by
  apply entry_serve_eq metaOf_initRequest c
  rw [entry_serve_self rfl]
  set db := c (s.metaAddr path)
  have setnx : ∀ db : Database GoString GoString,
      (Redis.exec (.setnx (modeKey path) (decimalBytes mode.toNat)) db).1 (modeKey path) =
        if (db (modeKey path)).isSome then db (modeKey path)
        else some (.str (decimalBytes mode.toNat)) := by
    intro db
    simp only [Redis.exec]
    split
    · rfl
    · simp
  have keeps : ∀ db : Database GoString GoString,
      (Redis.exec (.setnx (modeKey path) (decimalBytes mode.toNat)) db).1 (childrenKey path) =
        db (childrenKey path) := fun db =>
    exec_of_not_mem_writes (by
      simpa [Cmd.writes] using (modeKey_ne_childrenKey path path).symm)
  cases isDir with
  | false => exact congrArg₂ Entry.mk (setnx db) (keeps db)
  | true =>
      have added := (exec_sadd_children typed []).1
      have untouched : (Redis.exec (.sadd (childrenKey path) []) db).1 (modeKey path) =
          db (modeKey path) := exec_childrenKey_mode rfl db
      have same : ((s.entry c path).withChild []).mode = db (modeKey path) :=
        Entry.mode_withChild
      refine congrArg₂ Entry.mk ?_ ((keeps _).trans added)
      apply (setnx _).trans
      rw [untouched]
      simp only [ite_true, Entry.exists, same]

end DataStore

/-! ## The functions of an inode -/

namespace Inode

variable {s : DataStore} {c c' : Cluster} {i : Inode} {α : Type} {outcome : Option α}

/-- What `isDir` answers.  An inode that has been asked before remembers the answer,
right or wrong. -/
def dirAt (s : DataStore) (c : Cluster) (i : Inode) : Bool :=
  i.isDir?.getD (s.entry c i.path).isDir

/-- The inode after it has been asked. -/
def seen (s : DataStore) (c : Cluster) (i : Inode) : Inode :=
  { i with isDir? := some (i.dirAt s c) }

@[simp] theorem path_seen : (i.seen s c).path = i.path := rfl

@[simp] theorem dirAt_seen : (i.seen s c).dirAt s c' = i.dirAt s c := rfl

@[simp] theorem seen_seen : (i.seen s c).seen s c' = i.seen s c := rfl

/-! The functions as requests with a continuation. -/

theorem exists_eq : i.exists s = Program.request (s.existsRequest i.path) >>= fun reply =>
    match reply with
    | .server (.int n) => .ret (n ≠ 0)
    | _ => .panic := rfl

theorem isDir_of_some {isDir : Bool} (known : i.isDir? = some isDir) :
    i.isDir s = .ret (i, isDir) := by
  rw [Inode.isDir, known]
  rfl

/-- An inode that does not know asks Redis, and remembers the answer. -/
theorem isDir_of_none (unknown : i.isDir? = none) :
    i.isDir s = Program.request (s.isDirRequest i.path) >>= fun reply =>
      match reply with
      | .server (.int n) => .ret ({ i with isDir? := some (n ≠ 0 : Bool) }, (n ≠ 0 : Bool))
      | _ => .panic := by
  rw [Inode.isDir, unknown]
  show (Program.request (s.isDirRequest i.path) >>= _) >>= _ = _
  rw [Program.bind_assoc]
  congr 1
  funext reply
  rcases reply with reply | _ | _ | _
  · cases reply <;> rfl
  all_goals rfl

theorem initMeta_eq {isDir : Bool} {mode : FileMode} :
    i.initMeta s isDir mode = Program.request (s.initRequest i.path isDir mode) >>=
      fun _ => .ret () := rfl

theorem setChild_eq {child : Inode} :
    i.setChild s child = Program.request (s.addRequest i.path child.path) >>= fun reply =>
      match reply with
      | .server .err => .panic
      | _ => .ret () := rfl

theorem removeChild_eq {child : Inode} :
    i.removeChild s child = Program.request (s.remRequest i.path child.path) >>= fun reply =>
      match reply with
      | .server .err => .panic
      | _ => .ret () := rfl

theorem delMeta_eq : i.delMeta s = Program.request (s.unlinkRequest i.path) >>= fun reply =>
    match reply with
    | .server .err => .panic
    | _ => .ret () := rfl

/-! The same on a store that nobody else uses. -/

theorem exec_exists_bind {f : Bool → Prog α} :
    Exec (i.exists s >>= f) c c' outcome ↔
      Exec (f (s.entry c i.path).exists) c c' outcome := by
  rw [exists_eq, Program.bind_assoc, Exec, Program.exec_request_bind_iff,
    DataStore.serve_existsRequest]
  cases (s.entry c i.path).exists <;> rfl

/-- On a store that nobody else uses, the answer is the one of the entry, and
nothing changes. -/
theorem exec_isDir_bind {f : Inode × Bool → Prog α} :
    Exec (i.isDir s >>= f) c c' outcome ↔ Exec (f (i.seen s c, i.dirAt s c)) c c' outcome := by
  obtain ⟨path, isDir?, mode?⟩ := i
  cases isDir? with
  | some isDir => rfl
  | none =>
      rw [isDir_of_none rfl, Program.bind_assoc, Exec, Program.exec_request_bind_iff,
        DataStore.serve_isDirRequest]
      simp only [seen, dirAt, Option.getD_none]
      cases (s.entry c path).isDir <;> rfl

theorem exec_initMeta_bind {isDir : Bool} {mode : FileMode} {f : Unit → Prog α} :
    Exec (i.initMeta s isDir mode >>= f) c c' outcome ↔
      Exec (f ()) (serve (s.initRequest i.path isDir mode) c).1 c' outcome := by
  rw [initMeta_eq, Program.bind_assoc, Exec, Program.exec_request_bind_iff]
  rfl

/-- A request whose error reply aborts the program, answered without an error.  The
functions that write metadata have this shape. -/
theorem exec_try_bind {q : Request} {f : Unit → Prog α}
    (answered : (serve q c).2 ≠ .server .err) :
    Exec ((Program.request q >>= fun reply =>
        match reply with
        | .server .err => .panic
        | _ => .ret ()) >>= f) c c' outcome ↔
      Exec (f ()) (serve q c).1 c' outcome := by
  rw [Program.bind_assoc, Exec, Program.exec_request_bind_iff]
  split
  · rename_i failed
    exact absurd failed answered
  · rfl

theorem exec_delMeta_bind {f : Unit → Prog α} :
    Exec (i.delMeta s >>= f) c c' outcome ↔
      Exec (f ()) (serve (s.unlinkRequest i.path) c).1 c' outcome := by
  rw [delMeta_eq]
  exact exec_try_bind (by simp [serve, DataStore.unlinkRequest, Body.exec, Redis.exec, readReply])

theorem exec_setChild_bind (typed : (s.entry c i.path).Typed) {child : Inode}
    {f : Unit → Prog α} :
    Exec (i.setChild s child >>= f) c c' outcome ↔
      Exec (f ()) (serve (s.addRequest i.path child.path) c).1 c' outcome := by
  rw [setChild_eq]
  exact exec_try_bind (DataStore.addRequest_ne_err typed child.path)

theorem exec_removeChild_bind (typed : (s.entry c i.path).Typed) {child : Inode}
    {f : Unit → Prog α} :
    Exec (i.removeChild s child >>= f) c c' outcome ↔
      Exec (f ()) (serve (s.remRequest i.path child.path) c).1 c' outcome := by
  rw [removeChild_eq]
  exact exec_try_bind (DataStore.remRequest_ne_err typed child.path)

/-- The inodes of the children, as they are listed.  They are new, so that nothing
is known about any of them. -/
def listed (s : DataStore) (c : Cluster) (i : Inode) : List Inode :=
  ((s.entry c i.path).members.filter (· ≠ [])).map fun path => { path := path }

theorem isDir?_of_mem_listed {child : Inode} (member : child ∈ i.listed s c) :
    child.isDir? = none := by
  obtain ⟨path, -, rfl⟩ := List.mem_map.mp member
  rfl

/-- To list a directory changes nothing.  It is aborted if the set is gone, since
then the reply has no members. -/
theorem exec_getChildren_bind (typed : (s.entry c i.path).Typed)
    {f : Inode × Except FsError (List Inode) → Prog α} :
    Exec (i.getChildren s >>= f) c c' outcome ↔
      if i.dirAt s c then
        if (s.entry c i.path).members = [] then c' = c ∧ outcome = none
        else Exec (f (i.seen s c, .ok (i.listed s c))) c c' outcome
      else Exec (f (i.seen s c, .error .notDirectory)) c c' outcome := by
  rw [Inode.getChildren, Program.bind_assoc, exec_isDir_bind]
  by_cases dir : i.dirAt s c = true
  · simp only [dir, ite_true, RedisClient.sMembers, RedisClient.send, Program.bind_assoc]
    show Exec (Program.request (s.listRequest i.path) >>= _) c c' outcome ↔ _
    rw [Exec, Program.exec_request_bind_iff, DataStore.serve_listRequest typed]
    by_cases empty : (s.entry c i.path).members = []
    · simp [empty]
    · simp [empty, listed]
  · simp only [dir, Bool.false_eq_true, ite_false]
    rfl

/-- What is asked of an inode only depends on its path, apart from what is known already. -/
theorem dirAt_congr {c₁ : Cluster}
    (same : (s.entry c₁ i.path).isDir = (s.entry c i.path).isDir) :
    i.dirAt s c₁ = i.dirAt s c := by
  rw [dirAt, dirAt, same]

/-- Two inode objects of one path, which give the same answer, are removed alike.
What is below the path is looked up by name, and not by object. -/
theorem exec_remove_congr {j : Inode} (typed : (s.entry c i.path).Typed) (same : i.path = j.path)
    (dirs : i.dirAt s c = j.dirAt s c) {depth : ℕ} {f : Unit → Prog α} :
    Exec (i.remove s depth >>= f) c c' outcome ↔ Exec (j.remove s depth >>= f) c c' outcome := by
  cases depth with
  | zero => rfl
  | succ depth =>
      have unlink : (i.seen s c).delMeta s = (j.seen s c).delMeta s := by
        rw [delMeta_eq, delMeta_eq, path_seen, path_seen, same]
      simp only [Inode.remove, Program.bind_assoc]
      rw [exec_isDir_bind, exec_isDir_bind]
      simp only [unlink, removeContent, dirs, path_seen, same]
      split
      · simp only [Program.bind_assoc]
        rw [exec_getChildren_bind (by simpa using typed),
          exec_getChildren_bind (by simpa [same] using typed)]
        simp only [dirAt_seen, dirs, path_seen, same, listed]
        rfl
      · rfl

/-- The file of an inode is opened if the inode is taken for one. -/
theorem exec_getFile_bind {flag : Flags} {f : Inode × Except FsError File → Prog α} :
    Exec (i.getFile s flag >>= f) c c' outcome ↔
      if i.dirAt s c then Exec (f (i.seen s c, .error .isDirectory)) c c' outcome
      else Exec (s.openFile i.path flag >>= fun file => f (i.seen s c, .ok file)) c c' outcome := by
  rw [Inode.getFile, Program.bind_assoc, exec_isDir_bind]
  by_cases dir : i.dirAt s c = true
  · simp only [dir, ite_true]
    rfl
  · simp only [dir, Bool.false_eq_true, ite_false, Program.bind_assoc]
    rfl

end Inode

/-! ## Programs that only work on content -/

namespace DataStore

variable {s : DataStore} {c c' : Cluster} {name : GoString} {α : Type} {outcome : Option α}

theorem issues_searchLastStripe :
    Program.Issues (fun q => q.writes = []) (s.searchLastStripe name) := by
  refine (Program.issues_forkAll fun q member => ?_).bind fun replies => ?_
  · obtain ⟨client, -, rfl⟩ := List.mem_map.mp member
    rfl
  · split <;> trivial

/-- The programs that only read. -/
theorem issues_getSize : Program.Issues (fun q => q.writes = []) (s.getSize name) := by
  refine issues_searchLastStripe.bind fun ilast => ?_
  split
  · trivial
  · refine Program.Issues.bind ?_ fun _ => trivial
    rw [RedisClient.strlen, RedisClient.send]
    refine Program.Issues.bind (Program.issues_request ?_) fun reply => ?_
    · rfl
    · split <;> trivial

theorem issues_remove : Program.Issues (DataOf name) (s.remove name) :=
  requests_remove.mono fun _ request => request.writes

theorem issues_writeAt {off : ℤ} {data : List UInt8} :
    Program.Issues (DataOf name) (s.writeAt name off data) :=
  requests_writeAt.mono fun _ request => request.writes

theorem issues_resize {newSize : ℤ} :
    Program.Issues (DataOf name) (s.resize name newSize) :=
  requests_resize.mono fun _ request => request.writes

theorem issues_readAt {off : ℤ} {dst : List UInt8} :
    Program.Issues (fun q => q.writes = []) (s.readAt name off dst) := by
  unfold readAt
  split
  · trivial
  · refine (Program.issues_forkAll fun q member => ?_).bind fun replies => ?_
    · obtain ⟨piece, -, rfl⟩ := List.mem_map.mp member
      exact writes_readStripe s name piece
    · split <;> trivial

theorem issues_seek {f : MemFile} {off : ℤ} {whence : MemFile.Whence} :
    Program.Issues (fun q => q.writes = []) (f.seek off whence) := by
  refine Program.Issues.bind ?_ fun abs => ?_
  · cases whence with
    | seekEnd => exact issues_getSize.bind fun _ => trivial
    | _ => trivial
  · split
    · trivial
    · split <;> trivial

/-- To open a file is work on its content, since it may be truncated. -/
theorem issues_openFile {flag : Flags} :
    Program.Issues (DataOf name) (s.openFile name flag) := by
  refine Program.Issues.bind ?_ fun _ => Program.Issues.bind ?_ fun _ => trivial
  · unfold truncateOnOpen
    split
    · exact issues_remove
    · trivial
  · exact issues_seek.mono fun q readOnly => dataOf_of_readOnly readOnly name

/-- Work on content leaves the namespace as it is.  This is how all operations of a
handle are dealt with at once. -/
theorem entry_of_issues {program : Prog α} (issues : Program.Issues (DataOf name) program)
    (performed : Exec program c c' outcome) : s.entry c' = s.entry c :=
  (issues.mono fun _ dataOf d (same : s.entry d = s.entry c) =>
    (entry_dataOf dataOf d).trans same).preserved rfl performed

end DataStore

end Pdwfs
