import Pdwfs.Redisfs.Activity
import Pdwfs.Redisfs.Handles

/-!
# Access modes

`OpenFile` wraps a file that is opened for reading or for writing only.  A wrapper
disables one method, and has all the others of the file inside of it.

* `RedisFS.handleFor_of_exec` — the handle that `OpenFile` returns.
* `Uses` — sequences of operations of one handle.
* `Harmless`, `hasBytes_of_uses` — what a handle for reading must not be asked for.
* `Blind`, `buffers_of_uses` — what a handle for writing must not be asked for.
* `sealed_of_uses` — handles that are not asked for it keep to their access mode.

## What the wrappers leave open

The wrapper for reading overrides `Write`, and the one for writing overrides `Read`.
The interface of a file has also `WriteAt`, `WriteVec`, `WriteVecAt` and `Truncate`,
and the reads that go with them, and these are passed on to the file inside.  So
whether a handle keeps to its access mode is up to those who use it.

The condition is on each operation when it is called.  A handle for reading may be
asked for any `Write`, which is refused; and for other writes only of what is there
already, or of nothing.  It looks at the store, since whether a write changes the
file is a matter of what is in it.  Reads and seeks are not restricted.

## Both directions of a handle

The two halves are proved alike.  What an operation does to the content and to the
buffers of its caller is known from `File.Performs`, for any handle, so that a
sequence of operations is one induction (`hasBytes_of_uses`, `buffers_of_uses`).
`small.useHandle` computes sequences, and the ones at the end of the module have
operations of every kind in them: some that are refused, some that are let through
and do no harm, and one that does.
-/

namespace Pdwfs

open Concurrency Redis Striping

/-! ## The handle that is returned -/

/-- The handle is one of the file `path`, with the wrapper that the flags ask for.
-/
structure File.For (f : File) (s : DataStore) (path : GoString) (flag : Flags) : Prop where
  store : f.file.store = s
  here : f.file.path = path
  access : f.access = accessOf flag

/-- A `Seek` keeps the file that the handle is for. -/
theorem MemFile.yields_seek {f : MemFile} {off : ℤ} {whence : MemFile.Whence} :
    Program.Yields (fun answer : MemFile × ℤ × Option FileError =>
      answer.1.store = f.store ∧ answer.1.path = f.path) (f.seek off whence) := by
  refine (Program.yields_true _).bind fun abs _ => ?_
  cases abs with
  | none => exact ⟨rfl, rfl⟩
  | some abs =>
      simp only
      split <;> exact ⟨rfl, rfl⟩

/-- So does the opening, which may seek to the end. -/
theorem DataStore.yields_openFile {s : DataStore} {path : GoString} {flag : Flags} :
    Program.Yields (fun f : File => f.For s path flag) (s.openFile path flag) := by
  refine (Program.yields_true _).bind fun _ _ => ?_
  exact MemFile.yields_seek.bind fun _ same => ⟨same.1, same.2, rfl⟩

namespace RedisFS

variable {fs : RedisFS} {inodes inodes' : Inodes} {cwd : Filepath.WorkingDir} {name : GoString}
  {flag : Flags} {perm : FileMode} {c c' : Cluster} {f : File}

/-- What an inode returns is a handle of its path. -/
theorem yields_getFile {i : Inode} : Program.Yields (fun opened : Inode × Except FsError File =>
    ∀ f, opened.2 = .ok f → f.For fs.dataStore i.path flag) (i.getFile fs.dataStore flag) := by
  refine yields_isDir.bind fun (asked, dir) same => ?_
  simp only at same ⊢
  split
  · nofun
  · refine DataStore.yields_openFile.bind fun f opened => ?_
    rintro f' result
    obtain rfl := Except.ok.inj result
    rwa [← same]

/-- What `OpenFile` returns is one of the path that has been asked for: every inode
that it gets hold of on the way has this path. -/
theorem yields_openFile : Program.Yields (fun opened : Inodes × Except FsError File =>
    ∀ f, opened.2 = .ok f → f.For fs.dataStore (Filepath.abs cwd name) flag)
    (fs.openFile inodes cwd name flag perm) := by
  unfold openFile
  cases valid : fs.validatePath cwd name with
  | some err => nofun
  | none =>
      refine yields_node.bind fun (inodes, info) isNode => ?_
      rcases info with err | ⟨fiParent, _ | fiNode⟩
      · nofun
      · simp only
        split
        · refine yields_createInode.bind fun (inodes, fiNode) same => ?_
          refine yields_getFile.bind fun (fiNode, file) opened => ?_
          rwa [← same]
        · nofun
      · have here := isNode _ _ rfl
        simp only
        split
        · nofun
        · refine yields_isDir.bind fun (asked, dir) same => ?_
          simp only at same ⊢
          split
          · nofun
          · refine yields_getFile.bind fun (fiNode, file) opened => ?_
            rwa [← here, ← same]

/-- **The handle that `OpenFile` returns.** -/
theorem handleFor_of_exec
    (opened : Exec (fs.call inodes cwd (.openFile name flag perm)) c c'
      (some (inodes', .handle f))) :
    f.For fs.dataStore (Filepath.abs cwd name) flag := by
  obtain ⟨answer, opening, same⟩ := Program.exec_bind_ret_iff.mp opened
  rcases answer with _ | ⟨inodes₁, err | file⟩
  · simp at same
  · simp [Result.ofExcept] at same
  · obtain ⟨rfl, rfl⟩ := by simpa [Result.ofExcept] using same
    exact yields_openFile.of_exec opening _ rfl _ rfl

end RedisFS

/-! ## Sequences of operations of one handle -/

/-- The handle `f` is used on the store `c`, by operations each of which is
`allowed` when it is made, and that return.  The list has what was asked and what
has come back. -/
inductive Uses (allowed : Cluster → File → FileOp → Prop) :
    Cluster → File → List (FileOp × FileResult) → Cluster → File → Prop
  | nil (c : Cluster) (f : File) : Uses allowed c f [] c f
  | cons {c c' c'' : Cluster} {f f' f'' : File} {op : FileOp} {result : FileResult}
      {rest : List (FileOp × FileResult)} (asked : allowed c f op)
      (performed : Exec (f.call op) c c' (some (f', result)))
      (later : Uses allowed c' f' rest c'' f'') : Uses allowed c f ((op, result) :: rest) c'' f''

variable {c c' : Cluster} {f f' : File} {op : FileOp} {result : FileResult}
  {steps : List (FileOp × FileResult)}

/-- Use the handle for the operations, one after the other. -/
def File.useAll (f : File) : List FileOp → Prog (List (FileOp × FileResult))
  | [] => return []
  | op :: ops => do
      let (f, result) ← f.call op
      let steps ← useAll f ops
      return (op, result) :: steps

/-- What `useAll` returns has been done. -/
theorem uses_of_exec_useAll {allowed : Cluster → File → FileOp → Prop} {ops : List FileOp}
    (asked : ∀ op ∈ ops, ∀ c f, allowed c f op)
    (performed : Exec (f.useAll ops) c c' (some steps)) :
    steps.map (·.1) = ops ∧ ∃ f', Uses allowed c f steps c' f' := by
  induction ops generalizing c f steps with
  | nil =>
      obtain ⟨rfl, same⟩ := Program.exec_ret_iff.mp performed
      obtain rfl := Option.some.inj same
      exact ⟨rfl, f, .nil _ f⟩
  | cons op ops ih =>
      obtain ⟨⟨f₁, result⟩, c₁, called, rest⟩ := Program.exec_bind_some_iff.mp performed
      obtain ⟨steps', using', same⟩ := Program.exec_bind_ret_iff.mp rest
      cases steps' with
      | none => simp at same
      | some steps' =>
          obtain rfl := Option.some.inj same
          obtain ⟨ops', f', uses⟩ := ih (fun op member => asked op (.tail _ member)) using'
          exact ⟨by rw [List.map_cons, ops'], f', .cons (asked op (.head _) c f) called uses⟩

/-- The bytes that the operation writes are there already, and the size that it sets
is the one of the file. -/
structure Harmless (c : Cluster) (f : File) (op : FileOp) : Prop where
  writes : ∀ bytes off data, f.file.store.HasBytes c f.file.path bytes →
    f.writesAt op = some (off, data) → ∀ i < data.length,
      0 ≤ off ∧ off + i < bytes.length ∧ bytes.getD (off + i).toNat 0 = data.getD i 0
  truncates : ∀ bytes size, f.file.store.HasBytes c f.file.path bytes → op = .truncate size →
    size < 0 ∨ size = bytes.length

/-- One operation. -/
theorem File.Performs.hasBytes (inv : f.file.store.FileInv c f.file.path)
    (harmless : Harmless c f op) (performs : f.Performs c op c' result) {bytes : List UInt8}
    (has : f.file.store.HasBytes c f.file.path bytes) :
    f.file.store.HasBytes c' f.file.path bytes := by
  cases performs with
  | reads here same delivers => rwa [same]
  | writes here count noError noBuffers puts =>
      exact puts.hasBytes_same has (harmless.writes bytes _ _ has here)
  | truncates here noBuffers resized =>
      have same : c' = c := by
        rcases MemFile.exec_truncate inv has.isSize resized with ⟨-, same, -⟩ | ⟨nonneg, -, -, same⟩
        · exact same
        · exact same ((harmless.truncates bytes _ has here).resolve_left (by omega))
      rwa [same]
  | idle noRead noWrite noTruncate same untouched => rwa [same]

/-- What a handle for reading is asked for, if it is to keep to that: `Write`, which is
disabled, and what is harmless anyway. -/
def KeepsToReading (c : Cluster) (f : File) (op : FileOp) : Prop :=
  (∃ data, op = .write data) ∨ Harmless c f op

theorem KeepsToReading.harmless (keeps : KeepsToReading c f op) (readOnly : f.access = .readOnly) :
    Harmless c f op := by
  rcases keeps with ⟨data, rfl⟩ | harmless
  · exact ⟨fun _ _ _ _ here => by simp [File.writesAt, readOnly] at here, nofun⟩
  · exact harmless

/-- **A handle for reading** leaves the content and the size of the file as they are. -/
theorem hasBytes_of_uses (uses : Uses KeepsToReading c f steps c' f')
    (readOnly : f.access = .readOnly) (inv : f.file.store.FileInv c f.file.path)
    {bytes : List UInt8} (has : f.file.store.HasBytes c f.file.path bytes) :
    f.file.store.HasBytes c' f.file.path bytes := by
  induction uses with
  | nil c f => exact has
  | cons asked performed later ih =>
      obtain ⟨alike, performs⟩ := File.performs_of_exec inv performed
      have inv' := performs.inv inv
      have has' := performs.hasBytes inv (asked.harmless readOnly) has
      rw [← alike.store, ← alike.path] at inv' has' ⊢
      exact ih (alike.access.trans readOnly) inv' has'

/-- Nothing is stored where the operation reads, or it has been given empty buffers
only. -/
def Blind (c : Cluster) (f : File) (op : FileOp) : Prop :=
  ∀ off, f.readsAt op = some off → (∀ dst ∈ op.buffers, dst = []) ∨
    ∀ p, off ≤ p → ¬f.file.store.Stores c f.file.path p

/-- Empty buffers stay as they are. -/
theorem DataStore.DeliversVec.buffers_eq_of_nil {s : DataStore} {name : GoString} {off n : ℤ}
    {dstv dstv' : List (List UInt8)} {err : Option FileError}
    (delivers : s.DeliversVec c name off dstv n dstv' err) (empty : ∀ dst ∈ dstv, dst = []) :
    dstv' = dstv := by
  induction delivers with
  | nil off => rfl
  | stop rest delivers =>
      have same := delivers.buffer_eq fun i inside => by
        rw [empty _ List.mem_cons_self] at inside
        simp at inside
      simp only at same
      rw [same]
  | next delivers others ih =>
      have same := delivers.buffer_eq fun i inside => by
        rw [empty _ List.mem_cons_self] at inside
        simp at inside
      simp only at same
      rw [same, ih fun dst member => empty dst (List.mem_cons_of_mem _ member)]

/-- One operation that is blind leaves the buffers as they are: at the positions
that it reads there is nothing to be delivered. -/
theorem File.Performs.buffers_eq (blind : Blind c f op) (performs : f.Performs c op c' result) :
    result.buffers = op.buffers := by
  cases performs with
  | reads here same delivers =>
      rcases blind _ here with empty | nothing
      · exact delivers.buffers_eq_of_nil empty
      · exact delivers.buffers_eq nothing
  | writes here count noError noBuffers puts =>
      rw [noBuffers]
      cases op with
      | write | writeAt | writeVec | writeVecAt | truncate | seek => rfl
      | read | readAt | readVec | readVecAt => simp [File.writesAt] at here
  | truncates here noBuffers resized =>
      rw [noBuffers, here]
      rfl
  | idle noRead noWrite noTruncate same untouched => exact untouched

/-- What a handle for writing is asked for, if it is to keep to that. -/
def KeepsToWriting (c : Cluster) (f : File) (op : FileOp) : Prop :=
  (∃ dst, op = .read dst) ∨ Blind c f op

theorem KeepsToWriting.blind (keeps : KeepsToWriting c f op) (writeOnly : f.access = .writeOnly) :
    Blind c f op := by
  rcases keeps with ⟨dst, rfl⟩ | blind
  · intro off here
    simp [File.readsAt, writeOnly] at here
  · exact blind

/-- **A handle for writing** leaves the buffers of its callers as they are. -/
theorem buffers_of_uses (uses : Uses KeepsToWriting c f steps c' f')
    (writeOnly : f.access = .writeOnly) (inv : f.file.store.FileInv c f.file.path) :
    ∀ step ∈ steps, step.2.buffers = step.1.buffers := by
  induction uses with
  | nil c f => simp
  | cons asked performed later ih =>
      obtain ⟨alike, performs⟩ := File.performs_of_exec inv performed
      have inv' := performs.inv inv
      rw [← alike.store, ← alike.path] at inv'
      intro step member
      rcases List.mem_cons.mp member with rfl | rest
      · exact performs.buffers_eq (asked.blind writeOnly)
      · exact ih (alike.access.trans writeOnly) inv' step rest

namespace RedisFS

variable {fs : RedisFS} {inodes inodes' : Inodes} {cwd : Filepath.WorkingDir} {name : GoString}
  {flag : Flags} {perm : FileMode}

/-- **Access modes.**  A handle that has been opened for reading only never changes
the file, and one that has been opened for writing only never delivers a byte of it,
if they are not asked for that by one of the methods that the wrappers do not
disable.  The sequences may be of any length, and the conditions are on each
operation in the state in which it is called.  A handle that is opened for both has
no wrapper, and the theorem does not speak of it. -/
theorem sealed_of_uses (intact : fs.Intact c)
    (opened : Exec (fs.call inodes cwd (.openFile name flag perm)) c c'
      (some (inodes', .handle f))) :
    (hasFlag oWRONLY flag = false → hasFlag oRDWR flag = false →
      ∀ {steps c'' f'}, Uses KeepsToReading c' f steps c'' f' → ∀ bytes,
        fs.dataStore.HasBytes c' (Filepath.abs cwd name) bytes →
          fs.dataStore.HasBytes c'' (Filepath.abs cwd name) bytes) ∧
    (hasFlag oWRONLY flag = true → hasFlag oRDWR flag = false →
      ∀ {steps c'' f'}, Uses KeepsToWriting c' f steps c'' f' →
        ∀ step ∈ steps, step.2.buffers = step.1.buffers) := by
  have handle := handleFor_of_exec opened
  have inv := ((safe_call.preserved intact opened).1.1) (Filepath.abs cwd name)
  rw [← handle.store, ← handle.here] at inv ⊢
  refine ⟨fun notWriting notBoth steps c'' f' uses bytes has => ?_,
    fun writing notBoth steps c'' f' uses => ?_⟩
  · have readOnly : f.access = .readOnly := by simp [handle.access, accessOf, notWriting, notBoth]
    exact hasBytes_of_uses uses readOnly inv has
  · have writeOnly : f.access = .writeOnly := by simp [handle.access, accessOf, writing, notBoth]
    exact buffers_of_uses uses writeOnly inv

/-! ## Handles of a file in a small store -/

/-- A file with one byte is opened with the flags, and the handle used for the operations; what is
in the buffers afterwards. -/
def small.useHandle (flag : Flags) (ops : List FileOp) : Prog (List (List (List UInt8))) := do
  match ← small.call small.rootOnly small.home (.openFile ['/', 'f'] (oCREATE ||| oRDWR) 0) with
  | (inodes, .handle f) => do
      let _ ← f.call (.write [1])
      match ← small.call inodes small.home (.openFile ['/', 'f'] flag 0) with
      | (_, .handle g) => do
          let steps ← g.useAll ops
          return steps.map fun step => step.2.buffers
      | _ => .panic
  | _ => .panic

/-- A sequence of operations that runs to its end is a use of the handle. -/
theorem small.exists_uses {allowed : Cluster → File → FileOp → Prop} {ops : List FileOp}
    {buffers : List (List (List UInt8))} (asked : ∀ op ∈ ops, ∀ c f, allowed c f op)
    (ran : (run (small.useHandle flag ops) small.start.1).2 = some buffers) :
    ∃ c c' inodes inodes' f, small.Intact c ∧
      Exec (small.call inodes small.home (.openFile ['/', 'f'] flag 0)) c c'
        (some (inodes', .handle f)) ∧
      ∃ steps c'' f', Uses allowed c' f steps c'' f' ∧ steps.map (·.1) = ops ∧
        steps.map (·.2.buffers) = buffers := by
  have performed := Program.exec_run serve (small.useHandle flag ops) small.start.1
  rw [show (Program.run serve (small.useHandle flag ops) small.start.1).2 = _ from ran]
    at performed
  obtain ⟨⟨inodes, opened⟩, c₁, opening, rest⟩ := Program.exec_bind_some_iff.mp performed
  cases opened with
  | handle f =>
      have handle := handleFor_of_exec opening
      have intact := (safe_call.preserved small.intact_start opening).1
      obtain ⟨_, c, wrote, rest⟩ := Program.exec_bind_some_iff.mp rest
      have intact' := ((File.safe_call handle.store).preserved intact wrote).1
      obtain ⟨⟨inodes', opened⟩, c', opening', rest⟩ := Program.exec_bind_some_iff.mp rest
      cases opened with
      | handle g =>
          obtain ⟨answer, used, same⟩ := Program.exec_bind_ret_iff.mp rest
          cases answer with
          | none => simp at same
          | some steps =>
              obtain ⟨same', f', uses⟩ := uses_of_exec_useAll asked used
              exact ⟨c, c', inodes, inodes', g, intact', opening', steps, _, f', uses, same',
                (Option.some.inj same).symm⟩
      | _ => exact absurd rest Program.not_exec_panic_some
  | _ => exact absurd rest Program.not_exec_panic_some

/-- The handle for reading, computed. -/
theorem small.run_sealedForReading : (run (small.useHandle 0 [.write [9], .writeAt [] 5,
    .seek 0 .seekSet, .read [0], .truncate (-1)]) small.start.1).2 =
      some [[], [], [], [[1]], []] := by
  decide +kernel

/-- The handle for writing. -/
theorem small.run_sealedForWriting : (run (small.useHandle oWRONLY [.write [9], .read [7],
    .readVecAt [[], []] 0, .seek 0 .seekEnd]) small.start.1).2 =
      some [[], [[7]], [[], []], []] := by
  decide +kernel

/-- A handle for reading, of a file with one byte: it is asked for a `Write`, for a write of no
bytes, for the byte and for a negative size.  A handle for writing is asked for a `Write`, for a
`Read` and for a read into empty buffers. -/
theorem sealed_handles :
    (∃ c c' inodes inodes' f, small.Intact c ∧
      Exec (small.call inodes small.home (.openFile ['/', 'f'] 0 0)) c c'
        (some (inodes', .handle f)) ∧
      ∃ steps c'' f', Uses KeepsToReading c' f steps c'' f' ∧ steps.map (·.1) =
          [.write [9], .writeAt [] 5, .seek 0 .seekSet, .read [0], .truncate (-1)] ∧
        steps.map (·.2.buffers) = [[], [], [], [[1]], []] ∧
        ∀ bytes, small.dataStore.HasBytes c' ['/', 'f'] bytes →
          small.dataStore.HasBytes c'' ['/', 'f'] bytes) ∧
    ∃ c c' inodes inodes' f, small.Intact c ∧
      Exec (small.call inodes small.home (.openFile ['/', 'f'] oWRONLY 0)) c c'
        (some (inodes', .handle f)) ∧
      ∃ steps c'' f', Uses KeepsToWriting c' f steps c'' f' ∧ steps.map (·.1) =
          [.write [9], .read [7], .readVecAt [[], []] 0, .seek 0 .seekEnd] ∧
        ∀ step ∈ steps, step.2.buffers = step.1.buffers := by
  constructor
  · have asked : ∀ op ∈ [FileOp.write [9], .writeAt [] 5, .seek 0 .seekSet, .read [0],
        .truncate (-1)], ∀ c f, KeepsToReading c f op := by
      intro op member c f
      simp only [List.mem_cons, List.not_mem_nil, or_false] at member
      rcases member with rfl | rfl | rfl | rfl | rfl
      · exact .inl ⟨_, rfl⟩
      · refine .inr ⟨fun bytes off data has here i inside => ?_, by simp⟩
        obtain ⟨-, rfl⟩ := by simpa [File.writesAt] using here
        simp at inside
      all_goals exact .inr ⟨by simp [File.writesAt], by simp⟩
    obtain ⟨c, c', inodes, inodes', f, intact, opened, steps, c'', f', uses, ops, buffers⟩ :=
      small.exists_uses asked small.run_sealedForReading
    exact ⟨c, c', inodes, inodes', f, intact, opened, steps, c'', f', uses, ops, buffers,
      (sealed_of_uses intact opened).1 (by decide) (by decide) uses⟩
  · have asked : ∀ op ∈ [FileOp.write [9], .read [7], .readVecAt [[], []] 0, .seek 0 .seekEnd],
        ∀ c f, KeepsToWriting c f op := by
      intro op member c f
      simp only [List.mem_cons, List.not_mem_nil, or_false] at member
      rcases member with rfl | rfl | rfl | rfl
      · exact .inr fun off here => by simp [File.readsAt] at here
      · exact .inl ⟨_, rfl⟩
      · exact .inr fun off here => .inl (by simp [FileOp.buffers])
      · exact .inr fun off here => by simp [File.readsAt] at here
    obtain ⟨c, c', inodes, inodes', f, intact, opened, steps, c'', f', uses, ops, -⟩ :=
      small.exists_uses asked small.run_sealedForWriting
    exact ⟨c, c', inodes, inodes', f, intact, opened, steps, c'', f', uses, ops,
      (sealed_of_uses intact opened).2 (by decide) (by decide) uses⟩

/-- A file is created and opened for reading, and written through the handle; its sizes. -/
def small.writeForReading : Prog (ℤ × ℤ) := do
  match ← small.call small.rootOnly small.home (.openFile ['/', 'f'] oCREATE 0) with
  | (_, .handle f) => do
      let before ← small.dataStore.getSize ['/', 'f']
      let _ ← f.call (.writeAt [1] 0)
      let after ← small.dataStore.getSize ['/', 'f']
      return (before, after)
  | _ => .panic

/-- A byte gets into a file that is open for reading. -/
theorem small.run_writeForReading :
    (run small.writeForReading small.start.1).2 = some (0, 1) := by
  decide +kernel

/-- A byte gets out of one that is open for writing. -/
theorem small.run_readForWriting :
    (run (small.useHandle oWRONLY [.readAt [0] 0]) small.start.1).2 = some [[[1]]] := by
  decide +kernel

/-- `WriteAt` changes a file that is open for reading only, and `ReadAt` delivers the content of
one that is open for writing only. -/
theorem not_sealed_writeForReading :
    (∃ c inodes f, Exec (small.call small.rootOnly small.home (.openFile ['/', 'f'] oCREATE 0))
      small.start.1 c (some (inodes, .handle f)) ∧
      ∃ c' f' result, Exec (f.call (.writeAt [1] 0)) c c' (some (f', result)) ∧
        Exec (small.dataStore.getSize ['/', 'f']) c c (some 0) ∧
        Exec (small.dataStore.getSize ['/', 'f']) c' c' (some 1)) ∧
    ∃ c c' inodes inodes' f, small.Intact c ∧
      Exec (small.call inodes small.home (.openFile ['/', 'f'] oWRONLY 0)) c c'
        (some (inodes', .handle f)) ∧
      ∃ c'' f' result, Exec (f.call (.readAt [0] 0)) c' c'' (some (f', result)) ∧
        result.buffers = [[1]] := by
  constructor
  · have performed := Program.exec_run serve small.writeForReading small.start.1
    rw [show (Program.run serve small.writeForReading small.start.1).2 = _ from
      small.run_writeForReading] at performed
    obtain ⟨⟨inodes, answer⟩, c, opened, rest⟩ := Program.exec_bind_some_iff.mp performed
    cases answer with
    | handle f =>
        have handle := handleFor_of_exec opened
        have intact := (safe_call.preserved small.intact_start opened).1
        refine ⟨c, inodes, f, opened, ?_⟩
        obtain ⟨before, c₂, sized, rest⟩ := Program.exec_bind_some_iff.mp rest
        obtain ⟨⟨f', result⟩, c₃, wrote, rest⟩ := Program.exec_bind_some_iff.mp rest
        obtain ⟨after, sized', same⟩ := Program.exec_bind_ret_iff.mp rest
        obtain ⟨rfl, -⟩ := (DataStore.exec_getSize_iff (intact.1 _)).mp sized
        have inv' := ((File.safe_call handle.store).preserved intact wrote).1.1
        obtain ⟨rfl, n, rfl, -⟩ := (DataStore.exec_getSize_iff (inv' _)).mp sized'
        obtain ⟨rfl, rfl⟩ := by simpa using same
        exact ⟨_, _, _, wrote, sized, sized'⟩
    | _ => exact absurd rest Program.not_exec_panic_some
  · obtain ⟨c, c', inodes, inodes', f, intact, opened, steps, c'', f', uses, ops, buffers⟩ :=
      @small.exists_uses oWRONLY (fun _ _ _ => True) [.readAt [0] 0] [[[1]]]
        (fun _ _ _ _ => trivial) small.run_readForWriting
    cases uses with
    | nil => simp at ops
    | cons _ performed later =>
        obtain ⟨rfl, -⟩ := by simpa using ops
        exact ⟨c, c', inodes, inodes', f, intact, opened, _, _, _, performed,
          (List.cons.inj buffers).1⟩

end RedisFS

end Pdwfs
