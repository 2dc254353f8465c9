import Pdwfs.Redisfs.Activity

/-!
# When a removal completes

A directory is removed with everything below it, by recursion.  The program is
aborted when the recursion gets too deep, and when a directory turns out to have no
members.

* `Completes` — no run of a program is aborted.
* `Shallow` — how deep a namespace is below a path.
* `completes_remove_iff` — a removal completes if and only if what is below the path
  is not too deep for it, and the inode is not remembered as a directory that is
  gone.

## The recursion of the source

The source removes a directory by calling itself for the children, without a bound.
The stack of a goroutine grows as it is needed, up to a limit, and a program that
reaches the limit is killed.  The model gives the recursion a depth, and aborts the
program when it is used up.  So the depth stands for the memory of the machine, and
the results hold for any.

This makes it a matter of proof that a removal returns at all:
`completes_remove_iff` says for which depths it does.  In a well-formed namespace
with finitely many paths there is always one.

## Children after each other

The children of a directory are removed one after the other, and the second finds
the store as the first has left it.  That the second still completes is clear if the
first has taken nothing away that is below it.  In a namespace where each listed
path is right below the directory that lists it, two children have nothing below
them in common (`RightBelow.disjoint`), since of two paths with something in common
one is above the other.
-/

namespace Pdwfs

open Concurrency Redis

/-- No run of the program from the store `c` is aborted.  A program always has a
run, so that one that completes returns something. -/
def Completes {α : Type} (program : Prog α) (c : Cluster) : Prop :=
  ∀ c', ¬Exec program c c' none

section Completes

variable {α β : Type} {program : Prog α} {f : α → Prog β} {c : Cluster}

/-- A sequence completes if its first part does, and the rest does wherever the
first part can lead. -/
theorem completes_bind_iff : Completes (program >>= f) c ↔
    Completes program c ∧ ∀ value c', Exec program c c' (some value) → Completes (f value) c' := by
  unfold Completes
  constructor
  · intro completes
    refine ⟨fun c' aborted => completes c' (Program.exec_bind_iff.mpr (.inr ⟨aborted, rfl⟩)), ?_⟩
    exact fun value middle first c' aborted =>
      completes c' (Program.exec_bind_iff.mpr (.inl ⟨value, middle, first, aborted⟩))
  · rintro ⟨first, rest⟩ c' performed
    rcases Program.exec_bind_iff.mp performed with ⟨value, middle, returned, aborted⟩ | ⟨aborted, -⟩
    · exact rest value middle returned c' aborted
    · exact first c' aborted

theorem completes_ret (value : α) : Completes (.ret value) c := by
  intro c' aborted
  have := (Program.exec_ret_iff.mp aborted).2
  simp at this

theorem not_completes_panic : ¬Completes (.panic : Prog α) c :=
  fun completes => completes c (.panic c)

/-- A program that completes returns something. -/
theorem Completes.exists_exec (completes : Completes program c) :
    ∃ c' value, Exec program c c' (some value) := by
  have performed := Program.exec_run serve program c
  generalize Program.run serve program c = result at performed
  obtain ⟨c', _ | value⟩ := result
  · exact absurd performed (completes c')
  · exact ⟨c', value, performed⟩

theorem completes_of_safe {invariant : Cluster → Prop} {good : α → Prop}
    (safe : Program.Safe serve invariant False good program) (holds : invariant c) :
    Completes program c :=
  fun _ aborted => (safe.preserved holds aborted).2.2 rfl

end Completes

theorem completes_isDir_bind {s : DataStore} {i : Inode} {f : Inode × Bool → Prog β} :
    Completes (i.isDir s >>= f) c ↔ Completes (f (i.seen s c, i.dirAt s c)) c :=
  forall_congr' fun _ => not_congr Inode.exec_isDir_bind

/-- A directory has members to list. -/
theorem completes_getChildren_bind {s : DataStore} {i : Inode}
    {f : Inode × Except FsError (List Inode) → Prog β} (typed : (s.entry c i.path).Typed) :
    Completes (i.getChildren s >>= f) c ↔
      if i.dirAt s c then
        (s.entry c i.path).members ≠ [] ∧ Completes (f (i.seen s c, .ok (i.listed s c))) c
      else Completes (f (i.seen s c, .error .notDirectory)) c := by
  refine (forall_congr' fun _ => not_congr (Inode.exec_getChildren_bind typed)).trans ?_
  unfold Completes
  split
  · by_cases empty : (s.entry c i.path).members = []
    · simp [empty]
    · simp [empty]
  · exact Iff.rfl

/-! ## Depth -/

/-- There are fewer than `n` levels below the path `p`.  With no levels at all there
is not even the path. -/
def Shallow (ns : Namespace) : ℕ → GoString → Prop
  | 0, _ => False
  | n + 1, p => ∀ x, Lists ns p x → Shallow ns n x

section Shallow

variable {ns ns' : Namespace} {n : ℕ} {p : GoString}

/-- Only what is below the path matters. -/
theorem shallow_congr (same : ∀ v, Below ns p v → ns' v = ns v) :
    Shallow ns' n p ↔ Shallow ns n p := by
  induction n generalizing p with
  | zero => exact Iff.rfl
  | succ n ih =>
      have here : ∀ x, Lists ns' p x ↔ Lists ns p x := by
        intro x
        rw [Lists, same p .refl, Lists]
      apply forall_congr'
      intro x
      rw [here]
      refine imp_congr_right fun listed => ih fun v below => same v ?_
      exact .head listed below

/-- With fewer entries there are fewer levels. -/
theorem Shallow.of_lists (shallow : Shallow ns n p) (fewer : ∀ v x, Lists ns' v x → Lists ns v x) :
    Shallow ns' n p := by
  induction n generalizing p with
  | zero => exact shallow
  | succ n ih => exact fun x listed => ih (shallow x (fewer p x listed))

/-- What a namespace lists is right below the directory that lists it.  The names
get longer on the way down, so that no path is below itself. -/
def RightBelow (ns : Namespace) : Prop :=
  ∀ d x, Lists ns d x → Filepath.dir x = d ∧ d.length < x.length

theorem RightBelow.length_le (rightBelow : RightBelow ns) {v : GoString} (below : Below ns p v) :
    p.length ≤ v.length := by
  induction below with
  | refl => exact le_rfl
  | tail before listed ih => exact ih.trans (rightBelow _ _ listed).2.le

/-- **Two paths in one directory** have nothing below them in common. -/
theorem RightBelow.disjoint (rightBelow : RightBelow ns) {d x y v : GoString} (other : x ≠ y)
    (inDir : Filepath.dir x = d ∧ d.length < x.length)
    (inDir' : Filepath.dir y = d ∧ d.length < y.length)
    (below : Below ns x v) : ¬Below ns y v := by
  intro below'
  -- The paths above `v` are in line, and none of the two is above the other.
  have unique : Relator.RightUnique (Function.swap (Lists ns)) := by
    intro v u u' listed listed'
    rw [← (rightBelow _ _ listed).1, ← (rightBelow _ _ listed').1]
  have apart : ∀ {x y : GoString}, x ≠ y → d.length < x.length → Filepath.dir y = d →
      ¬Below ns x y := by
    intro x y other longer up between
    rcases between.cases_tail with same | ⟨u, before, listed⟩
    · exact other same.symm
    · have shorter := rightBelow.length_le before
      rw [← (rightBelow _ _ listed).1, up] at shorter
      exact absurd longer (by omega)
  rcases Relation.ReflTransGen.total_of_right_unique unique
      (Relation.reflTransGen_swap.mpr below) (Relation.reflTransGen_swap.mpr below') with
    above | above
  · exact apart other.symm inDir'.2 inDir.1 (Relation.reflTransGen_swap.mp above)
  · exact apart other inDir.2 inDir'.1 (Relation.reflTransGen_swap.mp above)

end Shallow

namespace RedisFS

variable {fs : RedisFS} {c c' : Cluster} {i node : Inode} {depth : ℕ}

/-! ## The recursion -/

theorem intact_of_remove {outcome : Option Unit} (intact : fs.Intact c)
    (performed : Exec (i.remove fs.dataStore depth) c c' outcome) : fs.Intact c' :=
  (erases_remove.mono fun _ erases _ => erases.asks.intact).preserved intact performed

/-- Removing inodes of one directory, one after the other.  Each completes on the
store as it was at the beginning, or the whole does not. -/
theorem completes_forM_iff {d : GoString} (children : List Inode)
    (each : ∀ (i : Inode) (c : Cluster), fs.Intact c → i.isDir? = none →
      (Completes (i.remove fs.dataStore depth) c ↔
        Shallow (fs.dataStore.entry c) depth i.path))
    (intact : fs.Intact c) (fresh : ∀ i ∈ children, i.isDir? = none)
    (inDir : ∀ i ∈ children, Filepath.dir i.path = d ∧ d.length < i.path.length) :
    Completes (children.forM (Inode.remove fs.dataStore depth)) c ↔
      ∀ i ∈ children, Shallow (fs.dataStore.entry c) depth i.path := by
  induction children generalizing c with
  | nil =>
      apply iff_of_true (completes_ret ())
      simp
  | cons i rest ih =>
      show Completes (i.remove fs.dataStore depth >>= fun _ => rest.forM _) c ↔ _
      have one := each i c intact (fresh i (by simp))
      have others := fun {c : Cluster} (intact : fs.Intact c) =>
        ih intact (fun j member => fresh j (by simp [member]))
          fun j member => inDir j (by simp [member])
      have deleted : ∀ {middle}, Exec (i.remove fs.dataStore depth) c middle (some ()) →
          Deleted (fs.dataStore.entry c) (fs.dataStore.entry middle)
            (Below (fs.dataStore.entry c) i.path) := fun performed =>
        deleted_of_exec_remove intact.2.typed (by simp [Inode.dirAt, fresh i]) performed
      rw [completes_bind_iff, one]
      constructor
      · rintro ⟨shallow, continued⟩ j member
        obtain ⟨middle, _, performed⟩ := (one.mpr shallow).exists_exec
        rcases List.mem_cons.mp member with rfl | later
        · exact shallow
        by_cases same : j.path = i.path
        · rw [same]
          exact shallow
        have kept :=
          (others (intact_of_remove intact performed)).mp (continued _ _ performed) j later
        refine (shallow_congr fun v below => (deleted performed).kept v ?_).mp kept
        exact RightBelow.disjoint intact.2.below same (inDir j member) (inDir i (by simp)) below
      · intro shallow
        refine ⟨shallow i (by simp), fun _ middle performed => ?_⟩
        refine (others (intact_of_remove intact performed)).mpr fun j later => ?_
        exact (shallow j (by simp [later])).of_lists fun _ _ => (deleted performed).lists

/-- The recursion is not too deep for what is below the inode, and if it is taken
for a directory it has members.  A directory that has been deleted has none, and
listing it aborts the program. -/
def Removable (fs : RedisFS) (c : Cluster) (depth : ℕ) (i : Inode) : Prop :=
  0 < depth ∧ (i.dirAt fs.dataStore c = true →
    (fs.dataStore.entry c i.path).members ≠ [] ∧
      ∀ x, Lists (fs.dataStore.entry c) i.path x → Shallow (fs.dataStore.entry c) (depth - 1) x)

/-- An inode about which nothing is known yet.  It is asked, and taken for what it
is. -/
theorem removable_iff_shallow (linked : fs.Linked c) (unknown : i.isDir? = none) :
    fs.Removable c depth i ↔ Shallow (fs.dataStore.entry c) depth i.path := by
  cases depth with
  | zero => exact iff_of_false (fun removable => lt_irrefl 0 removable.1) id
  | succ depth =>
      have dirAt : i.dirAt fs.dataStore c = (fs.dataStore.entry c i.path).isDir := by
        simp [Inode.dirAt, unknown]
      rw [Removable, dirAt]
      constructor
      · rintro ⟨-, inside⟩ x listed
        exact (inside (Entry.isDir_of_mem_members listed.1)).2 x listed
      · exact fun shallow => ⟨Nat.succ_pos _, fun isDir => ⟨linked.members_ne_nil isDir, shallow⟩⟩

/-- **When a removal completes.**  It is an equivalence: if what is below is too
deep, or the inode is remembered as a directory that is gone, there is a run that is
aborted. -/
theorem completes_remove_iff (intact : fs.Intact c) :
    Completes (i.remove fs.dataStore depth) c ↔ fs.Removable c depth i := by
  -- Induction on the depth; the children are inodes about which nothing is known.
  induction depth generalizing i c with
  | zero => exact iff_of_false not_completes_panic fun removable => lt_irrefl 0 removable.1
  | succ depth ih =>
      have last : ∀ c₁, Completes ((i.seen fs.dataStore c).delMeta fs.dataStore) c₁ := by
        intro c₁ c' aborted
        rw [← Program.bind_ret (Inode.delMeta fs.dataStore _)] at aborted
        exact completes_ret () _ (Inode.exec_delMeta_bind.mp aborted)
      rw [Inode.remove, completes_isDir_bind, completes_bind_iff,
        and_iff_left fun _ c₁ _ => last c₁, Removable, Inode.removeContent]
      by_cases dir : i.dirAt fs.dataStore c = true
      · have inside := completes_forM_iff (d := i.path) (i.listed fs.dataStore c)
          (fun i c intact unknown => (ih intact).trans (removable_iff_shallow intact.2 unknown))
          intact (fun i member => Inode.isDir?_of_mem_listed member) fun child member => by
            obtain ⟨x, inMembers, rfl⟩ := List.mem_map.mp member
            exact intact.2.below _ _ (by simpa [Lists] using inMembers)
        have listed : ∀ {P : GoString → Prop}, (∀ j ∈ i.listed fs.dataStore c, P j.path) ↔
            ∀ x, Lists (fs.dataStore.entry c) i.path x → P x := by
          intro P
          rw [Inode.listed, List.forall_mem_map]
          simp [Lists]
        rw [if_pos dir, completes_getChildren_bind (intact.2.typed _), Inode.dirAt_seen, if_pos dir]
        refine (and_congr_right fun _ => inside.trans listed).trans ?_
        simp [dir]
      · rw [if_neg dir]
        apply iff_of_true (completes_of_safe (DataStore.safe_remove _ _) intact.1)
        exact ⟨Nat.succ_pos _, fun isDir => absurd isDir dir⟩

end RedisFS

end Pdwfs
