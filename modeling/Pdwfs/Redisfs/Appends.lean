import Pdwfs.Redisfs.Handles

/-!
# Handles opened to append

A handle that is opened with `O_APPEND` starts at the end of the file.  This is a `Seek` in
`getFile`, and the flag is forgotten then: `Write` and `WriteVec` take the offset of the handle for
the end of the file, whatever has happened since.

Two things happen.  The end moves when another handle writes, and the handle moves when it seeks or
reads.  A read at the end delivers nothing and should leave the handle there, but a read of more
than 100 stripes counts the first stripe of the file over and over, and takes the handle behind the
end.  `AppendHandle.undisturbed` keeps account of this, from nothing but the operations that have
been called; a handle that is `undisturbed` is at the end (`Appended`), because it has been opened
there or has been taken there by a `Seek`.

* `File.offset_of_exec` — where an operation leaves the offset of its handle.
* `Appending` — a process with any number of handles for appending on one file.
* `Appended`, `Appended.use` — what holds of its states, and what one operation keeps.
* `hasBytes_of_undisturbed` — if nothing disturbs a handle before it writes, the file is what it
  was, followed by everything that has been written.
-/

namespace Pdwfs

open Concurrency Redis Striping

/-! ## Where an operation leaves the handle -/

namespace File

variable {f f' : File} {op : FileOp} {c c' : Cluster} {result : FileResult}

/-- Where an operation leaves the offset of the handle, in a file of `size` bytes.
What has been read is part of the result. -/
def movedTo (f : File) (size : ℤ) (result : FileResult) : FileOp → ℤ
  | .read _ => if f.access = .writeOnly then f.file.offset else f.file.offset + result.n
  | .readVec _ => f.file.offset + result.n
  | .write data => if f.access = .readOnly then f.file.offset else f.file.offset + data.length
  | .writeVec datav => f.file.offset + datav.flatten.length
  | .seek off whence =>
      match f.file.seekTo size off whence with
      | none => f.file.offset
      | some abs => if abs < 0 then f.file.offset else abs
  | _ => f.file.offset

/-- **Where an operation leaves the handle**: it is known from the size of the file
and from what the operation has returned.  Only reads, writes and seeks move it, and
only those that are at its offset. -/
theorem offset_of_exec (inv : f.file.store.FileInv c f.file.path) {size : ℤ}
    (isSize : IsSize f.file.store.stripeSize (f.file.store.stripe c f.file.path) size)
    (performed : Exec (f.call op) c c' (some (f', result))) :
    f'.file.offset = f.movedTo size result op := by
  cases op with
  -- A handle that is closed for the operation does nothing and stays where it is.
  | read dst =>
      by_cases disabled : f.access = .writeOnly
      · simp only [call, disabled] at performed
        obtain ⟨-, same⟩ := Program.exec_ret_iff.mp performed
        obtain ⟨rfl, rfl⟩ := Prod.mk.inj (Option.some.inj same)
        rw [movedTo, if_pos disabled]
      · rw [call_read disabled] at performed
        obtain ⟨answer, reading, same⟩ := Program.exec_bind_ret_iff.mp performed
        obtain ⟨-, ⟨-, rfl⟩ | ⟨-, returned, rfl, -⟩⟩ := MemFile.exec_read inv reading
        · simp at same
        obtain ⟨rfl, rfl⟩ := by simpa using same
        rw [movedTo, if_neg disabled]
  | write data =>
      by_cases disabled : f.access = .readOnly
      · simp only [call, disabled] at performed
        obtain ⟨-, same⟩ := Program.exec_ret_iff.mp performed
        obtain ⟨rfl, rfl⟩ := Prod.mk.inj (Option.some.inj same)
        rw [movedTo, if_pos disabled]
      · rw [call_write disabled] at performed
        obtain ⟨answer, writing, same⟩ := Program.exec_bind_ret_iff.mp performed
        rcases MemFile.exec_write inv writing with ⟨-, -, rfl⟩ | ⟨-, rfl, -⟩
        · simp at same
        obtain ⟨rfl, rfl⟩ := by simpa using same
        rw [movedTo, if_neg disabled]
  -- The operations on several buffers are not checked by the handle, so they always move
  -- it.
  | readVec dstv =>
      obtain ⟨answer, reading, same⟩ := Program.exec_bind_ret_iff.mp performed
      obtain ⟨-, ⟨-, -, rfl⟩ | ⟨-, n, dstv', err, rfl, -⟩⟩ := MemFile.exec_readVec inv reading
      · simp at same
      obtain ⟨rfl, rfl⟩ := by simpa using same
      rfl
  | writeVec datav =>
      obtain ⟨answer, writing, same⟩ := Program.exec_bind_ret_iff.mp performed
      rcases MemFile.exec_writeVec inv writing with ⟨-, -, -, rfl⟩ | ⟨-, rfl, -⟩
      · simp at same
      obtain ⟨rfl, rfl⟩ := Prod.mk.inj (Option.some.inj same)
      rfl
  | seek off whence =>
      obtain ⟨answer, sought, same⟩ := Program.exec_bind_ret_iff.mp performed
      obtain ⟨-, rfl⟩ := MemFile.exec_seek inv isSize sought
      obtain ⟨rfl, rfl⟩ := Prod.mk.inj (Option.some.inj same)
      rw [movedTo]
      cases f.file.seekTo size off whence with
      | none => rfl
      | some abs =>
          simp only
          split <;> rfl
  -- The other operations do not use the offset of the handle.
  | readAt | readVecAt | writeAt | writeVecAt | truncate =>
      obtain ⟨answer, -, same⟩ := Program.exec_bind_ret_iff.mp performed
      cases answer with
      | none => simp at same
      | some answer =>
          obtain ⟨rfl, -⟩ := Prod.mk.inj (Option.some.inj same)
          rfl

end File

/-! ## Reads at the end -/

/-- So few bytes touch at most 100 stripes, wherever they are. -/
theorem touchedStripes_le_of_narrow {S off : ℤ} (positive : 0 < S) {len : ℕ}
    (narrow : (len : ℤ) ≤ 99 * S + 1) : touchedStripes S off len ≤ 100 := by
  rw [touchedStripes]
  split
  · norm_num
  · have last : (off + len - 1) / S ≤ (off + 99 * S) / S :=
      Int.ediv_le_ediv positive (by omega)
    rw [Int.add_mul_ediv_right _ _ positive.ne'] at last
    omega

namespace DataStore

variable {s : DataStore} {c : Cluster} {name : GoString} {off size : ℤ}

/-- A buffer that is filled from at most 100 stripes, wherever it is read. -/
def Narrow (s : DataStore) (dst : List UInt8) : Prop := (dst.length : ℤ) ≤ 99 * s.stripeSize + 1

instance (s : DataStore) (dst : List UInt8) : Decidable (s.Narrow dst) :=
  inferInstanceAs (Decidable (_ ≤ _))

/-- A read at the end counts nothing. -/
theorem Delivers.count_at_end {dst : List UInt8} {result : MemFile.ReadResult}
    (delivers : s.Delivers c name size dst result) (inv : s.FileInv c name)
    (isSize : IsSize s.stripeSize (s.stripe c name) size) (narrow : s.Narrow dst) :
    result.1 = 0 := by
  rw [delivers.count_of_few (touchedStripes_le_of_narrow s.stripeSize_pos narrow), storedCount]
  norm_cast
  rw [Nat.count_iff_forall_not]
  intro i _ stored
  have := isSize.lt_of_stored inv.wellFormed stored
  omega

/-- Reads at the end count nothing, and the first buffer that there is room in is the last
one. -/
theorem DeliversVec.count_at_end {dstv dstv' : List (List UInt8)} {n : ℤ} {err : Option FileError}
    (delivers : s.DeliversVec c name size dstv n dstv' err) (inv : s.FileInv c name)
    (isSize : IsSize s.stripeSize (s.stripe c name) size) (narrow : ∀ dst ∈ dstv, s.Narrow dst) :
    n = 0 := by
  generalize same : size = off at delivers
  induction delivers with
  | nil off => rfl
  | stop rest delivers =>
      subst same
      exact delivers.count_at_end inv isSize (narrow _ (by simp))
  | next delivers others ih =>
      subst same
      have none := delivers.count_at_end inv isSize (narrow _ (by simp))
      simp only at none
      rw [none, ih (fun dst member => narrow dst (by simp [member])) (by rw [none, add_zero]),
        add_zero]

end DataStore

/-! ## The handles of a process -/

/-- What an operation of a handle writes. -/
def FileOp.data : FileOp → List UInt8
  | .write data => data
  | .writeVec datav => datav.flatten
  | _ => []

/-- The operations at the offset of the handle, and those that do not write. -/
def FileOp.Sequential : FileOp → Prop
  | .writeAt _ _ => False
  | .writeVecAt _ _ => False
  | .truncate _ => False
  | _ => True

/-- A handle, and whether it has been undisturbed since it has been at the end of
the file: no other handle has written, and it has not been moved.  The second
component is computed from the operations and not from the store. -/
structure AppendHandle where
  file : File
  undisturbed : Bool

namespace AppendHandle

/-- Whether a handle is undisturbed after an operation of its own that writes nothing. -/
def staysUndisturbed (h : AppendHandle) : FileOp → Bool
  | .seek off .seekEnd => off = 0
  | .seek off .seekCur => h.undisturbed && off = 0
  | .seek _ .seekSet => false
  | .read dst => h.undisturbed && (h.file.file.store.Narrow dst || h.file.access = .writeOnly)
  | .readVec dstv => h.undisturbed && dstv.all fun dst => h.file.file.store.Narrow dst
  | _ => h.undisturbed

/-- The handles after the operation `op` of the handle `h`, which is the one at `i`: when it has
written, it disturbs all others. -/
def afterUse (handles : List AppendHandle) (i : ℕ) (h : AppendHandle) (f' : File) (op : FileOp) :
    List AppendHandle :=
  if op.data = [] then handles.set i ⟨f', h.staysUndisturbed op⟩
  else (handles.map fun g => ⟨g.file, false⟩).set i ⟨f', h.undisturbed⟩

/-- A handle that has anything to write is undisturbed. -/
def InPlace (h : AppendHandle) (op : FileOp) : Prop := op.data ≠ [] → h.undisturbed = true

end AppendHandle

namespace DataStore

/-- The states of a process that works on one file through handles for appending,
with what it has written, in the order of the writes; each operation is `allowed`
when it is called.  Handles may be opened at any time. -/
inductive Appending (s : DataStore) (name : GoString) (allowed : AppendHandle → FileOp → Prop)
    (c₀ : Cluster) : Cluster → List AppendHandle → List UInt8 → Prop
  | start : Appending s name allowed c₀ c₀ [] []
  | open {c c' : Cluster} {handles : List AppendHandle} {written : List UInt8} {flag : Flags}
      {f : File} (earlier : Appending s name allowed c₀ c handles written)
      (append : hasFlag oAPPEND flag = true)
      (writes : hasFlag oWRONLY flag = true ∨ hasFlag oRDWR flag = true)
      (keeps : hasFlag oTRUNC flag = false)
      (opened : Exec (s.openFile name flag) c c' (some f)) :
      Appending s name allowed c₀ c' (handles ++ [⟨f, true⟩]) written
  | use {c c' : Cluster} {handles : List AppendHandle} {written : List UInt8} {i : ℕ}
      {h : AppendHandle} {f' : File} {op : FileOp} {result : FileResult}
      (earlier : Appending s name allowed c₀ c handles written) (held : handles[i]? = some h)
      (sequential : op.Sequential) (asked : allowed h op)
      (performed : Exec (h.file.call op) c c' (some (f', result))) :
      Appending s name allowed c₀ c' (AppendHandle.afterUse handles i h f' op) (written ++ op.data)

variable {s : DataStore} {c₀ c c' : Cluster} {name : GoString} {handles : List AppendHandle}
  {bytes init written : List UInt8} {f f' : File} {op : FileOp} {result : FileResult}

/-- A handle for writing to the file. -/
structure WritesTo (s : DataStore) (name : GoString) (f : File) : Prop where
  store : f.file.store = s
  here : f.file.path = name
  enabled : f.access ≠ .readOnly

/-- The file has these bytes, and the handles that are undisturbed are at its end.
-/
structure Appended (s : DataStore) (name : GoString) (c : Cluster) (handles : List AppendHandle)
    (bytes : List UInt8) : Prop where
  inv : s.FileInv c name
  has : s.HasBytes c name bytes
  writesTo : ∀ h ∈ handles, s.WritesTo name h.file
  atEnd : ∀ h ∈ handles, h.undisturbed = true → h.file.file.offset = bytes.length

/-- Where an operation writes that does, and what. -/
theorem writesAt_of_sequential (writesTo : s.WritesTo name f) (sequential : op.Sequential)
    {off : ℤ} {data : List UInt8} (here : f.writesAt op = some (off, data)) :
    off = f.file.offset ∧ data = op.data := by
  cases op with
  | write data =>
      rw [File.writesAt, if_neg writesTo.enabled] at here
      obtain ⟨rfl, rfl⟩ := Prod.mk.inj (Option.some.inj here)
      exact ⟨rfl, rfl⟩
  | writeVec datav =>
      obtain ⟨rfl, rfl⟩ := Prod.mk.inj (Option.some.inj here)
      exact ⟨rfl, rfl⟩
  | writeAt | writeVecAt | truncate => exact sequential.elim
  | _ => simp [File.writesAt] at here

/-- An operation that does not write has nothing to write. -/
theorem data_eq_nil (writesTo : s.WritesTo name f) (noWrite : f.writesAt op = none) :
    op.data = [] := by
  cases op with
  | write data => simp [File.writesAt, writesTo.enabled] at noWrite
  | writeVec datav => simp [File.writesAt] at noWrite
  | _ => rfl

/-- What one operation does to the file, if the handle is at the end when it writes. -/
theorem hasBytes_of_sequential (writesTo : s.WritesTo name f) (inv : s.FileInv c name)
    (has : s.HasBytes c name bytes) (sequential : op.Sequential)
    (atEnd : op.data ≠ [] → f.file.offset = bytes.length)
    (performed : Exec (f.call op) c c' (some (f', result))) :
    s.WritesTo name f' ∧ s.FileInv c' name ∧ s.HasBytes c' name (bytes ++ op.data) := by
  obtain ⟨rfl, rfl, enabled⟩ := writesTo
  obtain ⟨alike, performs⟩ := File.performs_of_exec inv performed
  refine ⟨⟨alike.store, alike.path, fun disabled => enabled (alike.access ▸ disabled)⟩, ?_⟩
  cases performs with
  | reads here same delivers =>
      have nothing : op.data = [] := by
        cases op <;> first | rfl | simp [File.readsAt] at here
      rw [same, nothing, List.append_nil]
      exact ⟨inv, has⟩
  | writes here count noError noBuffers puts =>
      obtain ⟨rfl, rfl⟩ := writesAt_of_sequential ⟨rfl, rfl, enabled⟩ sequential here
      refine ⟨puts.inv, ?_⟩
      by_cases nothing : op.data = []
      · rw [nothing, List.append_nil]
        exact puts.hasBytes_same has (by simp [nothing])
      · rw [atEnd nothing] at puts
        exact puts.hasBytes_append has
  | truncates here noBuffers resized =>
      rw [here] at sequential
      exact sequential.elim
  | idle noRead noWrite noTruncate same untouched =>
      rw [same, data_eq_nil ⟨rfl, rfl, enabled⟩ noWrite, List.append_nil]
      exact ⟨inv, has⟩

/-- A handle that has written at the end is at the end. -/
theorem offset_of_writes (writesTo : s.WritesTo name f) (inv : s.FileInv c name)
    (has : s.HasBytes c name bytes) (nonempty : op.data ≠ [])
    (atEnd : f.file.offset = bytes.length)
    (performed : Exec (f.call op) c c' (some (f', result))) :
    f'.file.offset = (bytes ++ op.data).length := by
  obtain ⟨rfl, rfl, enabled⟩ := writesTo
  rw [File.offset_of_exec inv has.isSize performed, List.length_append, Nat.cast_add]
  cases op with
  | write data => simp [File.movedTo, FileOp.data, enabled, atEnd]
  | writeVec datav => simp [File.movedTo, FileOp.data, atEnd]
  | _ => exact absurd rfl nonempty

/-- A handle that stays undisturbed is at the end. -/
theorem offset_of_staysUndisturbed {h : AppendHandle} (writesTo : s.WritesTo name h.file)
    (inv : s.FileInv c name) (has : s.HasBytes c name bytes)
    (atEnd : h.undisturbed = true → h.file.file.offset = bytes.length) (nothing : op.data = [])
    (stays : h.staysUndisturbed op = true)
    (performed : Exec (h.file.call op) c c' (some (f', result))) :
    f'.file.offset = bytes.length := by
  obtain ⟨rfl, rfl, enabled⟩ := writesTo
  have performs := (File.performs_of_exec inv performed).2
  rw [File.offset_of_exec inv has.isSize performed]
  cases op with
  | read dst =>
      simp only [AppendHandle.staysUndisturbed, Bool.and_eq_true, Bool.or_eq_true,
        decide_eq_true_eq] at stays
      rw [File.movedTo]
      split
      · exact atEnd stays.1
      -- A read at the end of the file counts nothing; elsewhere the handle would have
      -- moved.
      · rename_i readable
        cases performs with
        | reads here same delivers =>
            rw [File.readsAt, if_neg readable] at here
            rw [← Option.some.inj here, atEnd stays.1] at delivers
            rw [delivers.count_at_end inv has.isSize fun dst' member => by
              obtain rfl := List.mem_singleton.mp member
              exact stays.2.resolve_right readable, add_zero]
            exact atEnd stays.1
        | writes here => simp [File.writesAt] at here
        | truncates here => simp at here
        | idle noRead => simp [File.readsAt, readable] at noRead
  | readVec dstv =>
      simp only [AppendHandle.staysUndisturbed, Bool.and_eq_true, List.all_eq_true,
        decide_eq_true_eq] at stays
      rw [File.movedTo]
      cases performs with
      | reads here same delivers =>
          rw [← Option.some.inj here, atEnd stays.1] at delivers
          rw [delivers.count_at_end inv has.isSize stays.2, add_zero]
          exact atEnd stays.1
      | writes here => simp [File.writesAt] at here
      | truncates here => simp at here
      | idle noRead => simp [File.readsAt] at noRead
  | write data =>
      obtain rfl : data = [] := nothing
      simp [File.movedTo, enabled, atEnd stays]
  | writeVec datav =>
      have none : datav.flatten.length = 0 := List.length_eq_zero_iff.mpr nothing
      rw [File.movedTo, none, Nat.cast_zero, add_zero]
      exact atEnd stays
  -- A seek leads to the end, or it stays there.
  | seek off whence =>
      cases whence with
      | seekEnd =>
          obtain rfl : off = 0 := by simpa [AppendHandle.staysUndisturbed] using stays
          simp [File.movedTo, MemFile.seekTo]
      | seekCur =>
          obtain ⟨before, rfl⟩ : h.undisturbed = true ∧ off = 0 := by
            simpa [AppendHandle.staysUndisturbed] using stays
          simp [File.movedTo, MemFile.seekTo, atEnd before]
      | seekSet => simp [AppendHandle.staysUndisturbed] at stays
      | other => exact atEnd stays
  | readAt | readVecAt | writeAt | writeVecAt | truncate => exact atEnd stays

/-- **One operation** of a handle that is undisturbed if it has anything to write. -/
theorem Appended.use {i : ℕ} {h : AppendHandle} (appended : s.Appended name c handles bytes)
    (held : handles[i]? = some h) (sequential : op.Sequential) (inPlace : h.InPlace op)
    (performed : Exec (h.file.call op) c c' (some (f', result))) :
    s.Appended name c' (AppendHandle.afterUse handles i h f' op) (bytes ++ op.data) := by
  have member := List.mem_of_getElem? held
  have own := appended.writesTo h member
  have before := appended.atEnd h member
  obtain ⟨own', inv', has'⟩ := hasBytes_of_sequential own appended.inv appended.has sequential
    (fun nonempty => before (inPlace nonempty)) performed
  rw [AppendHandle.afterUse]
  split
  · rename_i nothing
    rw [nothing, List.append_nil] at has' ⊢
    refine ⟨inv', has', fun g member => ?_, fun g member undisturbed => ?_⟩
    · rcases List.mem_or_eq_of_mem_set member with old | rfl
      · exact appended.writesTo g old
      · exact own'
    · rcases List.mem_or_eq_of_mem_set member with old | rfl
      · exact appended.atEnd g old undisturbed
      · exact offset_of_staysUndisturbed own appended.inv appended.has before nothing undisturbed
          performed
  · rename_i nonempty
    refine ⟨inv', has', fun g member => ?_, fun g member undisturbed => ?_⟩
    · rcases List.mem_or_eq_of_mem_set member with old | rfl
      · obtain ⟨g', among, rfl⟩ := List.mem_map.mp old
        exact appended.writesTo g' among
      · exact own'
    · rcases List.mem_or_eq_of_mem_set member with old | rfl
      · obtain ⟨g', -, rfl⟩ := List.mem_map.mp old
        simp at undisturbed
      · exact offset_of_writes own appended.inv appended.has nonempty (before (inPlace nonempty))
          performed

/-- A handle that is opened with `O_APPEND` is at the end. -/
theorem Appended.open {flag : Flags} (appended : s.Appended name c handles bytes)
    (append : hasFlag oAPPEND flag = true)
    (writes : hasFlag oWRONLY flag = true ∨ hasFlag oRDWR flag = true)
    (keeps : hasFlag oTRUNC flag = false) (opened : Exec (s.openFile name flag) c c' (some f)) :
    s.Appended name c' (handles ++ [⟨f, true⟩]) bytes := by
  obtain ⟨f', same, openedAs⟩ := openedAs_of_exec appended.inv opened
  obtain rfl := Option.some.inj same
  have kept := openedAs.kept keeps
  refine ⟨openedAs.inv, kept ▸ appended.has, fun g member => ?_, fun g member undisturbed => ?_⟩
  · rcases List.mem_append.mp member with old | new
    · exact appended.writesTo g old
    · obtain rfl := List.mem_singleton.mp new
      refine ⟨openedAs.store, openedAs.here, ?_⟩
      rw [openedAs.access, accessOf]
      rcases writes with writing | both
      · rw [if_pos writing]
        split <;> simp
      · simp [both]
  · rcases List.mem_append.mp member with old | new
    · exact appended.atEnd g old undisturbed
    · obtain rfl := List.mem_singleton.mp new
      obtain ⟨size, isSize, offset⟩ := openedAs.offset
      rw [offset, if_pos append]
      rw [kept] at isSize
      exact isSize.unique appended.has.isSize

/-- A run keeps the handles that are undisturbed at the end. -/
theorem appended_of_run (inv : s.FileInv c₀ name) (has : s.HasBytes c₀ name init)
    (run : s.Appending name AppendHandle.InPlace c₀ c handles written) :
    s.Appended name c handles (init ++ written) := by
  induction run with
  | start => exact ⟨inv, by simpa using has, by simp, by simp⟩
  | «open» earlier append writes keeps opened ih => exact ih.open append writes keeps opened
  | use earlier held sequential asked performed ih =>
      rw [← List.append_assoc]
      exact ih.use held sequential asked performed

/-- **Appending.**  In every run in which each handle that writes has been
undisturbed since it has been at the end of the file, the file is what it was at the
start, followed by everything that has been written, in the order of the writes.
Handles may be opened at any time, and may read and seek as they like, as long as
those that write are undisturbed when they do.  The invariant is `Appended`; an
operation that disturbs a handle makes no statement about its offset any more, until
the handle seeks to the end. -/
theorem hasBytes_of_undisturbed (inv : s.FileInv c₀ name) (has : s.HasBytes c₀ name init)
    (run : s.Appending name AppendHandle.InPlace c₀ c handles written) :
    s.HasBytes c name (init ++ written) :=
  (appended_of_run inv has run).has

/-! ## Appending to a small file -/

/-- The cluster before the first call. -/
def emptyCluster : Cluster := fun _ _ => none

theorem smallStore.fileInv_empty : (smallStore 2).FileInv emptyCluster ['f'] :=
  (quiet_empty (smallStore 2)).reachable.storeInv ['f']

theorem smallStore.hasBytes_empty : (smallStore 2).HasBytes emptyCluster ['f'] [] where
  isSize := WellFormed.isSize_zero fun _ => rfl
  content _ inside := absurd inside (Nat.not_lt_zero _)

/-- A handle is opened to append and writes a byte.  A second one is opened, reads at the end and
writes; then the first one is taken to the end, and it writes two bytes.  The size of the file. -/
def smallStore.appendInTurn : Prog ℤ := do
  let f ← (smallStore 2).openFile ['f'] (oAPPEND ||| oWRONLY)
  let (f, _) ← f.call (.write [1])
  let g ← (smallStore 2).openFile ['f'] (oAPPEND ||| oRDWR)
  let (g, _) ← g.call (.read [0])
  let _ ← g.call (.write [2])
  let (f, _) ← f.call (.seek 0 .seekEnd)
  let _ ← f.call (.writeVec [[3], [4]])
  (smallStore 2).getSize ['f']

/-- Two handles are opened to append, and each of them writes a byte; the size of the file. -/
def smallStore.appendTwice : Prog ℤ := do
  let f ← (smallStore 2).openFile ['f'] (oAPPEND ||| oWRONLY)
  let g ← (smallStore 2).openFile ['f'] (oAPPEND ||| oWRONLY)
  let _ ← f.call (.write [1])
  let _ ← g.call (.write [2])
  (smallStore 2).getSize ['f']

theorem smallStore.run_appendInTurn : (run smallStore.appendInTurn emptyCluster).2 = some 4 := by
  decide +kernel

theorem smallStore.run_appendTwice : (run smallStore.appendTwice emptyCluster).2 = some 1 := by
  decide +kernel

/-- What the two handles write in turn is in the file. -/
theorem hasBytes_appendInTurn : ∃ c f g,
    (smallStore 2).Appending ['f'] AppendHandle.InPlace emptyCluster c [⟨f, true⟩, ⟨g, false⟩]
      [1, 2, 3, 4] ∧
    (smallStore 2).HasBytes c ['f'] [1, 2, 3, 4] := by
  have performed := Program.exec_run serve smallStore.appendInTurn emptyCluster
  rw [show (Program.run serve smallStore.appendInTurn emptyCluster).2 = _ from
    smallStore.run_appendInTurn] at performed
  obtain ⟨f, c₁, opened, rest⟩ := Program.exec_bind_some_iff.mp performed
  obtain ⟨⟨f₁, r₁⟩, c₂, wrote, rest⟩ := Program.exec_bind_some_iff.mp rest
  obtain ⟨g, c₃, opened', rest⟩ := Program.exec_bind_some_iff.mp rest
  obtain ⟨⟨g₁, r₂⟩, c₄, read, rest⟩ := Program.exec_bind_some_iff.mp rest
  obtain ⟨⟨g₂, r₃⟩, c₅, wrote', rest⟩ := Program.exec_bind_some_iff.mp rest
  obtain ⟨⟨f₂, r₄⟩, c₆, sought, rest⟩ := Program.exec_bind_some_iff.mp rest
  obtain ⟨⟨f₃, r₅⟩, c₇, wrote'', -⟩ := Program.exec_bind_some_iff.mp rest
  have one : (smallStore 2).Appending ['f'] AppendHandle.InPlace emptyCluster c₂ [⟨f₁, true⟩] [1] :=
    .use (i := 0) (.open .start (by decide) (.inl (by decide)) (by decide) opened) rfl
      (by trivial) (fun _ => rfl) wrote
  have two : (smallStore 2).Appending ['f'] AppendHandle.InPlace emptyCluster c₃
      [⟨f₁, true⟩, ⟨g, true⟩] [1] :=
    .open one (by decide) (.inr (by decide)) (by decide) opened'
  -- The read is a narrow one.
  have store : g.file.store = smallStore 2 :=
    ((appended_of_run smallStore.fileInv_empty smallStore.hasBytes_empty two).writesTo ⟨g, true⟩
      (by simp)).store
  have stays : AppendHandle.afterUse [⟨f₁, true⟩, ⟨g, true⟩] 1 ⟨g, true⟩ g₁ (.read [0]) =
      [⟨f₁, true⟩, ⟨g₁, true⟩] := by
    have narrow : (smallStore 2).Narrow [0] := by decide
    simp [AppendHandle.afterUse, FileOp.data, AppendHandle.staysUndisturbed, store, narrow]
  have three : (smallStore 2).Appending ['f'] AppendHandle.InPlace emptyCluster c₄
      [⟨f₁, true⟩, ⟨g₁, true⟩] [1] := by
    rw [← stays]
    exact .use (i := 1) two rfl (by trivial) (fun nonempty => absurd rfl nonempty) read
  have four : (smallStore 2).Appending ['f'] AppendHandle.InPlace emptyCluster c₅
      [⟨f₁, false⟩, ⟨g₂, true⟩] [1, 2] :=
    .use (i := 1) three rfl (by trivial) (fun _ => rfl) wrote'
  have five : (smallStore 2).Appending ['f'] AppendHandle.InPlace emptyCluster c₆
      [⟨f₂, true⟩, ⟨g₂, true⟩] [1, 2] :=
    .use (i := 0) four rfl (by trivial) (fun nonempty => absurd rfl nonempty) sought
  have six : (smallStore 2).Appending ['f'] AppendHandle.InPlace emptyCluster c₇
      [⟨f₃, true⟩, ⟨g₂, false⟩] [1, 2, 3, 4] :=
    .use (i := 0) five rfl (by trivial) (fun _ => rfl) wrote''
  exact ⟨c₇, f₃, g₂, six,
    hasBytes_of_undisturbed smallStore.fileInv_empty smallStore.hasBytes_empty six⟩

/-- Two handles are opened before either of them writes: the second write replaces the byte of
the first. -/
theorem not_hasBytes_appendTwice : ∃ c handles,
    (smallStore 2).HasBytes emptyCluster ['f'] [] ∧
    (smallStore 2).Appending ['f'] (fun _ _ => True) emptyCluster c handles [1, 2] ∧
    ¬(smallStore 2).HasBytes c ['f'] [1, 2] := by
  have performed := Program.exec_run serve smallStore.appendTwice emptyCluster
  rw [show (Program.run serve smallStore.appendTwice emptyCluster).2 = _ from
    smallStore.run_appendTwice] at performed
  obtain ⟨f, c₁, opened, rest⟩ := Program.exec_bind_some_iff.mp performed
  obtain ⟨g, c₂, opened', rest⟩ := Program.exec_bind_some_iff.mp rest
  obtain ⟨⟨f', result⟩, c₃, wrote, rest⟩ := Program.exec_bind_some_iff.mp rest
  obtain ⟨⟨g', result'⟩, c₄, wrote', sized⟩ := Program.exec_bind_some_iff.mp rest
  have both : (smallStore 2).Appending ['f'] (fun _ _ => True) emptyCluster c₂
      [⟨f, true⟩, ⟨g, true⟩] [] :=
    .open (.open .start (by decide) (.inl (by decide)) (by decide) opened) (by decide)
      (.inl (by decide)) (by decide) opened'
  have first : (smallStore 2).Appending ['f'] (fun _ _ => True) emptyCluster c₃
      [⟨f', true⟩, ⟨g, false⟩] [1] :=
    .use (i := 0) both rfl (by trivial) trivial wrote
  have second : (smallStore 2).Appending ['f'] (fun _ _ => True) emptyCluster c₄
      [⟨f', false⟩, ⟨g', false⟩] [1, 2] :=
    .use (i := 1) first rfl (by trivial) trivial wrote'
  obtain ⟨_, same, openedAs⟩ := openedAs_of_exec smallStore.fileInv_empty opened
  obtain rfl := Option.some.inj same
  obtain ⟨_, same', openedAs'⟩ := openedAs_of_exec openedAs.inv opened'
  obtain rfl := Option.some.inj same'
  have inv : f.file.store.FileInv c₂ f.file.path := by
    rw [openedAs.store, openedAs.here]
    exact openedAs'.inv
  have inv' := (File.performs_of_exec inv wrote).2.inv inv
  rw [openedAs.store, openedAs.here, ← openedAs'.store] at inv'
  have inv'' := (File.performs_of_exec (openedAs'.here ▸ inv') wrote').2.inv (openedAs'.here ▸ inv')
  rw [openedAs'.store, openedAs'.here] at inv''
  refine ⟨c₄, [⟨f', false⟩, ⟨g', false⟩], smallStore.hasBytes_empty, second, fun has => ?_⟩
  obtain ⟨-, n, counted, isSize⟩ := (exec_getSize_iff inv'').mp sized
  have two := isSize.unique has.isSize
  obtain rfl := Option.some.inj counted
  norm_num at two

end DataStore

end Pdwfs
