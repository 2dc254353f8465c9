import Pdwfs.Concurrency.Histories
import Pdwfs.Redisfs.Activity

/-!
# Lookups while others work

A call looks its path up by requests between which other clients may do what they
want. What the lookup answers is determined by the replies.

* `trace_isDir`, `trace_getInode` — the requests of `isDir` and `getInode`, and what
  is made of the replies.
* `Looked`, `looked_of_trace` — the same for `fileInfo`.
* `Answered`, `trace_getFile` — whether the inode of a file that is opened is taken
  for a directory.

## Traces

A trace of a program is the list of requests it has sent, with the replies.  It
makes no mention of a store.  So what is proved about the traces of a program holds
in whatever company it runs: the replies are those of a store that others change,
and all that is known is what was asked and what was answered.

A statement about a schedule then has two parts.  The trace of a call says which
answers it must have had to come to its result.  The invariant of the schedule says
what the store has been like at the time of the answer.  This module is the first
part, for the lookups that all calls begin with; the second is different in each of
the modules that use it.

The lookups consult what the client has in memory first, and then there is no
request and no answer.  The conclusions have a case for this.
-/

namespace Pdwfs

open Concurrency Redis

instance : Nonempty ConnReply := ⟨.protocolError⟩

/-- What a program has sent, with the replies, in the order of the requests. -/
abbrev Sent := List (Request × ConnReply)

namespace Inode

variable {s : DataStore} {i : Inode} {first : Sent}

/-- `exists` sends one request. -/
theorem trace_exists {present : Bool}
    (performed : Program.Trace (i.exists s) first (.ret present)) :
    ∃ n, first = [(s.existsRequest i.path, .server (.int n))] ∧ present = decide (n ≠ 0) := by
  rw [exists_eq] at performed
  obtain ⟨reply, rest, rfl, continued⟩ := performed.of_request_bind (Program.stopped_ret _)
  split at continued
  · rename_i n
    obtain ⟨rfl, same⟩ := continued.of_ret
    exact ⟨n, rfl, Program.ret.inj same⟩
  · exact absurd continued.of_panic.2 nofun

/-- The inode is asked at most once. -/
theorem trace_isDir {asked : Inode × Bool}
    (performed : Program.Trace (i.isDir s) first (.ret asked)) :
    (∃ dir, i.isDir? = some dir ∧ first = [] ∧ asked = (i, dir)) ∨
      i.isDir? = none ∧ ∃ n, first = [(s.isDirRequest i.path, .server (.int n))] ∧
        asked = ({ i with isDir? := some (decide (n ≠ 0)) }, decide (n ≠ 0)) := by
  cases known : i.isDir? with
  | some dir =>
      rw [isDir_of_some known] at performed
      obtain ⟨rfl, same⟩ := performed.of_ret
      exact .inl ⟨dir, rfl, rfl, Program.ret.inj same⟩
  | none =>
      rw [isDir_of_none known] at performed
      obtain ⟨reply, rest, rfl, continued⟩ := performed.of_request_bind (Program.stopped_ret _)
      split at continued
      · rename_i n
        obtain ⟨rfl, same⟩ := continued.of_ret
        exact .inr ⟨rfl, n, rfl, Program.ret.inj same⟩
      · exact absurd continued.of_panic.2 nofun

/-- The inode is taken for a directory, or for none: this is known, or it has been
asked. -/
def Answered (s : DataStore) (i : Inode) (sent : Sent) (dir : Bool) : Prop :=
  i.isDir? = some dir ∨
    i.isDir? = none ∧ ∃ n, (s.isDirRequest i.path, .server (.int n)) ∈ sent ∧ dir = decide (n ≠ 0)

/-- An inode that has been asked is taken for what it has answered. -/
theorem answered_of_trace {asked : Inode × Bool}
    (performed : Program.Trace (i.isDir s) first (.ret asked)) (rest : Sent) :
    i.Answered s (first ++ rest) asked.2 ∧ asked.1 = { i with isDir? := some asked.2 } := by
  rcases trace_isDir performed with ⟨dir, known, -, rfl⟩ | ⟨unknown, n, rfl, rfl⟩
  · refine ⟨.inl known, ?_⟩
    rw [← known]
  · exact ⟨.inr ⟨unknown, n, by simp, rfl⟩, rfl⟩

/-- The inode is asked whether it is a directory, if this is not known. -/
theorem trace_getFile {flag : Flags} {found : Inode × Except FsError File}
    (performed : Program.Trace (i.getFile s flag) first (.ret found)) :
    ∃ dir, i.Answered s first dir ∧
      if dir then found.2 = .error .isDirectory else ∃ f, found.2 = .ok f := by
  obtain ⟨⟨i', dir⟩, asked, rest, rfl, answered, continued⟩ := performed.of_bind_ret
  refine ⟨dir, (answered_of_trace answered rest).1, ?_⟩
  cases dir with
  | true =>
      obtain ⟨-, same⟩ := continued.of_ret
      exact congrArg Prod.snd (Program.ret.inj same)
  | false =>
      obtain ⟨f, opening, rest, rfl, -, continued⟩ := continued.of_bind_ret
      obtain ⟨-, same⟩ := continued.of_ret
      exact ⟨f, congrArg Prod.snd (Program.ret.inj same)⟩

end Inode

namespace RedisFS

variable {fs : RedisFS} {inodes inodes' : Inodes} {path : GoString} {first : Sent}

/-- What is in memory is found without a request; otherwise there is one, and the
inode that is found is new. -/
theorem trace_getInode {found : Inodes × Option Inode}
    (performed : Program.Trace (fs.getInode inodes path) first (.ret found)) :
    (∃ i, inodes.get path = some i ∧ first = [] ∧ found = (inodes, some i)) ∨
      inodes.get path = none ∧ ∃ n,
        first = [(fs.dataStore.existsRequest path, .server (.int n))] ∧
          found = if n ≠ 0 then (inodes.set { path := path }, some { path := path })
            else (inodes, none) := by
  rw [getInode] at performed
  cases cached : inodes.get path with
  | some i =>
      simp only [cached] at performed
      obtain ⟨rfl, same⟩ := performed.of_ret
      exact .inl ⟨i, rfl, rfl, Program.ret.inj same⟩
  | none =>
      simp only [cached] at performed
      obtain ⟨present, asked, rest, rfl, done, continued⟩ := performed.of_bind_ret
      obtain ⟨n, rfl, rfl⟩ := Inode.trace_exists done
      refine .inr ⟨rfl, n, ?_⟩
      by_cases missing : n = 0
      · subst missing
        obtain ⟨rfl, same⟩ := continued.of_ret
        exact ⟨rfl, Program.ret.inj same⟩
      · simp only [ne_eq, missing, not_false_eq_true, decide_true, ite_true] at continued ⊢
        obtain ⟨rfl, same⟩ := continued.of_ret
        exact ⟨rfl, Program.ret.inj same⟩

/-- The directory of the path has been found, and the path itself has not been asked
for.  If the directory is in memory, it is not remembered as something else. -/
structure Entered (fs : RedisFS) (inodes : Inodes) (path : GoString) (first : Sent)
    (parent : Inode) : Prop where
  above : parent.path = Filepath.dir path
  isDir : ∀ i, inodes.get (Filepath.dir path) = some i → i.isDir? ≠ some false
  others : ∀ entry ∈ first, entry.1 ≠ fs.dataStore.existsRequest path

/-- What `fileInfo` has sent, and what it has answered.  The directory of the path
is looked up first, so a request for the path is the last one, if there is one. -/
inductive Looked (fs : RedisFS) (inodes : Inodes) (path : GoString) :
    Sent → Except FsError (Option Inode × Option Inode) → Prop
  /-- There is no directory for the path. -/
  | noParent {first : Sent}
      (why : (∃ i, inodes.get (Filepath.dir path) = some i ∧ i.isDir? = some false) ∨
        (fs.dataStore.existsRequest (Filepath.dir path), .server (.int 0)) ∈ first ∨
        (fs.dataStore.isDirRequest (Filepath.dir path), .server (.int 0)) ∈ first)
      (others : ∀ entry ∈ first, entry.1 ≠ fs.dataStore.existsRequest path) :
      Looked fs inodes path first (.error .parentDirNotExist)
  /-- The path is in memory. -/
  | cached {first : Sent} {parent i : Inode} (entered : fs.Entered inodes path first parent)
      (held : inodes.get path = some i) :
      Looked fs inodes path first (.ok (some parent, some i))
  /-- The path is in Redis. -/
  | present {before : Sent} {parent : Inode} {n : ℤ}
      (entered : fs.Entered inodes path before parent) (new : inodes.get path = none)
      (nonzero : n ≠ 0) :
      Looked fs inodes path (before ++ [(fs.dataStore.existsRequest path, .server (.int n))])
        (.ok (some parent, some { path := path }))
  /-- The path does not exist. -/
  | absent {before : Sent} {parent : Inode} (entered : fs.Entered inodes path before parent)
      (new : inodes.get path = none) :
      Looked fs inodes path (before ++ [(fs.dataStore.existsRequest path, .server (.int 0))])
        (.ok (some parent, none))

theorem existsRequest_ne {s : DataStore} {other : GoString} (ne : other ≠ path) :
    s.existsRequest other ≠ s.existsRequest path := by
  intro same
  have body := congrArg Request.body same
  simp only [DataStore.existsRequest, Body.single.injEq, Cmd.exists.injEq] at body
  exact ne (modeKey_inj.mp body)

/-- The two questions about paths are different requests. -/
theorem isDirRequest_ne_existsRequest {s : DataStore} {other : GoString} :
    s.isDirRequest other ≠ s.existsRequest path := by
  intro same
  have body := congrArg Request.body same
  simp only [DataStore.existsRequest, DataStore.isDirRequest, Body.single.injEq,
    Cmd.exists.injEq] at body
  exact modeKey_ne_childrenKey path other body.symm

/-- The lookup of the directory does not ask for the path.  What it finds is the directory, as it is
in memory or new. -/
theorem trace_getInode_dir (other : Filepath.dir path ≠ path) {found : Inodes × Option Inode}
    (performed : Program.Trace (fs.getInode inodes (Filepath.dir path)) first (.ret found)) :
    (∀ entry ∈ first, entry.1 ≠ fs.dataStore.existsRequest path) ∧
      found.1.get path = inodes.get path ∧
      match found.2 with
      | none => (fs.dataStore.existsRequest (Filepath.dir path), .server (.int 0)) ∈ first
      | some parent => parent.path = Filepath.dir path ∧
          (inodes.get (Filepath.dir path) = some parent ∨
            inodes.get (Filepath.dir path) = none ∧ parent.isDir? = none) := by
  rcases trace_getInode performed with ⟨i, held, rfl, rfl⟩ | ⟨new, n, rfl, rfl⟩
  · exact ⟨by simp, rfl, inodes.path_eq held, .inl held⟩
  · refine ⟨by simpa using existsRequest_ne other, ?_⟩
    by_cases missing : n = 0
    · simp [missing]
    · rw [if_pos missing]
      exact ⟨Inodes.get_set_of_ne (Ne.symm other), rfl, .inr ⟨new, rfl⟩⟩

/-- A lookup in a directory that has been found. -/
theorem looked_of_entered {asked last : Sent} {parent : Inode} {inodes₁ inodes₂ : Inodes}
    {node : Option Inode} (entered : fs.Entered inodes path asked parent)
    (before : inodes₁.get path = inodes.get path)
    (performed : Program.Trace (fs.getInode inodes₁ path) last (.ret (inodes₂, node))) :
    fs.Looked inodes path (asked ++ last) (.ok (some parent, node)) := by
  rcases trace_getInode performed with ⟨i, held, rfl, same⟩ | ⟨new, n, rfl, same⟩
  · obtain ⟨-, rfl⟩ := Prod.ext_iff.mp same
    rw [List.append_nil]
    exact .cached entered (before ▸ held)
  · split at same
    · rename_i nonzero
      obtain ⟨-, rfl⟩ := Prod.ext_iff.mp same
      exact .present entered (before ▸ new) nonzero
    · rename_i zero
      obtain ⟨-, rfl⟩ := Prod.ext_iff.mp same
      obtain rfl : n = 0 := by simpa using zero
      exact .absent entered (before ▸ new)

/-- **A lookup while others work.**  Each answer has been given on the grounds of
what is in memory, or of a reply. -/
theorem looked_of_trace {answer : Inodes × Except FsError (Option Inode × Option Inode)}
    (notRoot : path ≠ fs.mountPath) (other : Filepath.dir path ≠ path)
    (performed : Program.Trace (fs.fileInfo inodes path) first (.ret answer)) :
    fs.Looked inodes path first answer.2 := by
  rw [fileInfo, if_neg notRoot] at performed
  obtain ⟨⟨inodes₁, fiParent⟩, up, rest, rfl, looked, continued⟩ :=
    performed.of_bind_ret
  obtain ⟨upOthers, kept, found⟩ := trace_getInode_dir other looked
  simp only at continued kept found
  cases fiParent with
  -- The directory does not exist, and it was Redis that has said so.
  | none =>
      obtain ⟨rfl, same⟩ := continued.of_ret
      obtain rfl := Program.ret.inj same
      rw [List.append_nil]
      exact .noParent (.inr (.inl found)) upOthers
  | some parent =>
      obtain ⟨above, memory⟩ := found
      simp only at continued
      obtain ⟨⟨parent', dir⟩, asked, rest, rfl, answered, continued⟩ := continued.of_bind_ret
      obtain ⟨isAnswered, updated⟩ := Inode.answered_of_trace answered []
      rw [List.append_nil] at isAnswered
      simp only at continued isAnswered updated
      have above' : parent'.path = Filepath.dir path := by rw [updated, above]
      have others : ∀ entry ∈ up ++ asked, entry.1 ≠ fs.dataStore.existsRequest path := by
        intro entry member
        refine (List.mem_append.mp member).elim (upOthers entry) fun member => ?_
        rcases Inode.trace_isDir answered with ⟨-, -, rfl, -⟩ | ⟨-, n, rfl, -⟩
        · simp at member
        · obtain rfl := List.mem_singleton.mp member
          exact isDirRequest_ne_existsRequest
      cases dir with
      | true =>
          -- The directory is one, so the path itself is looked up.
          rw [if_pos rfl] at continued
          obtain ⟨⟨inodes₂, fiNode⟩, last, rest, rfl, found, continued⟩ := continued.of_bind_ret
          obtain ⟨rfl, same⟩ := continued.of_ret
          obtain rfl := Program.ret.inj same
          rw [List.append_nil, ← List.append_assoc]
          refine looked_of_entered ⟨above', fun i held notDir => ?_, others⟩ ?_ found
          -- If it is in memory that it is no directory, then the directory has not been
          -- taken for one.
          · rcases memory with inMemory | ⟨new, -⟩
            · obtain rfl := Option.some.inj (inMemory.symm.trans held)
              rcases isAnswered with known | ⟨unknown, -⟩
              · simp [notDir] at known
              · simp [notDir] at unknown
            · simp [held] at new
          · rw [Inodes.get_set_of_ne (above' ▸ Ne.symm other), kept]
      -- It is no directory: either the memory says so, or the reply to the question.
      | false =>
          rw [if_neg (by simp)] at continued
          obtain ⟨rfl, same⟩ := continued.of_ret
          obtain rfl := Program.ret.inj same
          rw [List.append_nil]
          refine .noParent ?_ others
          rcases isAnswered with known | ⟨-, n, member, zero⟩
          · rcases memory with inMemory | ⟨-, unknown⟩
            · exact .inl ⟨_, inMemory, known⟩
            · simp [known] at unknown
          · obtain rfl : n = 0 := by simpa using zero
            rw [above] at member
            exact .inr (.inr (List.mem_append_right _ member))

end RedisFS

end Pdwfs
