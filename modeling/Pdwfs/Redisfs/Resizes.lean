import Pdwfs.Redisfs.Reads
import Pdwfs.Redisfs.Writes

/-!
# Resizing

What `Resize` does to the content of a file, for every order of its goroutines.

* `Changes`, `stripe_runAll` — requests that each change one stripe, and what a
  sequence of them leaves of a stripe.
* `cutAt_of_shrink` — shrinking cuts the content at the new size.  The size becomes
  the new one exactly when the byte before it is stored (`shrinksTo_iff`).
* `growPieces` — the zero bytes that growing writes.  The one that should complete
  the old last stripe is put at the wrong end of it, and is harmless only when it
  falls on a zero byte or behind the old size, and before the new one
  (`growsTo_iff`).

## Shrinking

The stripes behind the new last one are removed, and that one is trimmed.  The
requests are about different stripes, so their order does not matter.  The content
is cut in every case; what can go wrong is the size that is rebuilt from it.  If the
byte before the new size is in a gap, the last byte that is stored is further ahead,
and the file is shorter than it was asked to be.

## Growing

A file is extended by a zero byte at the end of each stripe, and by one at the new
end, in front of which the strings are padded with zeros.  The old last stripe gets
a zero byte as well, so that it is full.  Its place is the length that is left, `S -
r - 1`, and not the end of the stripe, `S - 1`.  For a stripe that is filled by half
or more, this is a byte of the file, which becomes zero; otherwise it is behind the
old end, and may be behind the new one too, which makes the file longer than it was
asked to be.

`completionByte` is the position that is meant, and `growsTo_iff` the condition: it
must be below the new size, and what is there must be zero already.
-/

namespace Pdwfs

open Concurrency Redis Striping

/-! ## The last stripe of a size -/

/-- The position of the last byte, from its stripe and its place in it. -/
theorem ediv_mul_add_emod_pred (size stripeSize : ℤ) :
    (size - 1) / stripeSize * stripeSize + ((size - 1) % stripeSize + 1) = size := by
  have split := Int.mul_ediv_add_emod (size - 1) stripeSize
  linarith [mul_comm stripeSize ((size - 1) / stripeSize)]

/-- The last stripe is not full exactly when the size is no multiple of the stripe size. -/
theorem lastStripe_short_iff {size stripeSize : ℤ} (positive : 0 < stripeSize) :
    (size - 1) % stripeSize + 1 < stripeSize ↔ size % stripeSize ≠ 0 := by
  have lower := Int.emod_nonneg (size - 1) positive.ne'
  have upper := Int.emod_lt_of_pos (size - 1) positive
  have whole := ediv_mul_add_emod_pred size stripeSize
  constructor
  · intro inside
    rw [← whole, mul_comm, Int.mul_add_emod_self_left, Int.emod_eq_of_lt (by omega) inside]
    omega
  · intro rest
    by_contra full
    have same : (size - 1) % stripeSize + 1 = stripeSize := by omega
    rw [← whole, same, mul_comm, Int.mul_add_emod_self_left, Int.emod_self] at rest
    exact rest rfl

/-- A last stripe that is not full holds the rest of the division. -/
theorem lastStripe_of_short {size stripeSize : ℤ} (positive : 0 < stripeSize)
    (rest : size % stripeSize ≠ 0) :
    (size - 1) / stripeSize * stripeSize = size - size % stripeSize ∧
      (size - 1) % stripeSize + 1 = size % stripeSize := by
  have inside := (lastStripe_short_iff positive).mpr rest
  have lower := Int.emod_nonneg (size - 1) positive.ne'
  have whole := ediv_mul_add_emod_pred size stripeSize
  have same : size % stripeSize = (size - 1) % stripeSize + 1 := by
    nth_rewrite 1 [← whole]
    rw [mul_comm, Int.mul_add_emod_self_left, Int.emod_eq_of_lt (by omega) inside]
  omega

namespace DataStore

variable {s : DataStore} {c c' : Cluster} {name : GoString} {size newSize : ℤ}
  {outcome : Option Unit}

/-! ## Requests that change one stripe -/

/-- The request keeps the invariant of the file, and changes its stripe `target` by
a function of what is there. -/
structure Changes (s : DataStore) (name : GoString) (q : Request) (target : ℤ)
    (change : List UInt8 → List UInt8) : Prop where
  fileInv : ∀ {c}, s.FileInv c name → s.FileInv (serve q c).1 name
  stripe_eq : ∀ {c}, s.FileInv c name → ∀ id, s.stripe (serve q c).1 name id =
    if id = target then change (s.stripe c name target) else s.stripe c name id

/-- Removing a stripe makes it empty. -/
theorem changes_removeStripe (s : DataStore) (name : GoString) (id : ℤ) :
    Changes s name (s.removeStripe name id) id fun _ => [] where
  fileInv inv := inv.removeStripe id
  stripe_eq inv := (effect_removeStripe inv id).stripe_eq

/-- Trimming a stripe cuts it. -/
theorem changes_trimStripe (s : DataStore) (name : GoString) (id : ℤ) {len : ℤ}
    (positive : 0 < len) :
    Changes s name (s.trimStripe name id len) id fun bytes => bytes.take len.toNat where
  fileInv inv := inv.trimStripe id positive
  stripe_eq inv := (effect_trimStripe inv id positive).stripe_eq

/-- Any number of changes keep the invariant of the file. -/
theorem fileInv_of_changes {tasks : List Request} (inv : s.FileInv c name)
    (each : ∀ q ∈ tasks, ∃ target change, Changes s name q target change) :
    s.FileInv (Program.runAll serve tasks c).1 name := by
  refine (Program.runAll_preserves (fun c => s.FileInv c name) (fun _ => True) ?_ inv).1
  rintro q member c inv
  obtain ⟨target, change, changes⟩ := each q member
  exact ⟨changes.fileInv inv, trivial⟩

/-- **One stripe after a sequence of changes.**  When all requests about it make `bytes`
of it, and leave `bytes` as it is, it is `bytes` afterwards, if there is such a request or
if it was `bytes` before. -/
theorem stripe_runAll {tasks : List Request} {id : ℤ} (old : List UInt8) {bytes : List UInt8}
    (inv : s.FileInv c name)
    (each : ∀ q ∈ tasks, ∃ target change, Changes s name q target change ∧
      (target = id → change old = bytes ∧ change bytes = bytes))
    (there : s.stripe c name id = bytes ∨ s.stripe c name id = old ∧
      ∃ q ∈ tasks, ∃ change, Changes s name q id change ∧ change old = bytes) :
    s.stripe (Program.runAll serve tasks c).1 name id = bytes := by
  induction tasks generalizing c with
  | nil => simpa using there
  | cons q rest ih =>
      obtain ⟨target, change, changes, agrees⟩ := each q (by simp)
      have after := changes.stripe_eq inv id
      rw [Program.runAll_cons]
      apply ih (changes.fileInv inv) (fun q' member => each q' (by simp [member]))
      by_cases here : id = target
      · -- The request is about this stripe.
        subst here
        obtain ⟨first, again⟩ := agrees rfl
        rw [if_pos rfl] at after
        refine .inl ?_
        rcases there with done | ⟨start, -⟩
        · rw [after, done, again]
        · rw [after, start, first]
      · rw [if_neg here] at after
        rw [after]
        rcases there with done | ⟨start, q', member, change', changes', first⟩
        · exact .inl done
        · rcases List.mem_cons.mp member with rfl | later
          · -- The same request, seen as one about this stripe, says the same of it.
            have both := changes'.stripe_eq inv id
            rw [if_pos rfl, after, start, first] at both
            exact .inl (start.trans both)
          · exact .inr ⟨start, q', later, change', changes', first⟩

/-! ## The requests of a resize -/

variable (s name size newSize) in
/-- What shrinking from `size` to `newSize` asks for. -/
def shrinkTasks : List Request :=
  (idsFrom ((newSize - 1) / s.stripeSize + 1) ((size - 1) / s.stripeSize + 1)).map
      (s.removeStripe name) ++
    [s.trimStripe name ((newSize - 1) / s.stripeSize) ((newSize - 1) % s.stripeSize + 1)]

variable (s size newSize) in
/-- The zero bytes that growing from `size` to `newSize` writes. -/
def growPieces : List StripeInfo :=
  (idsFrom ((size - 1) / s.stripeSize + 1) ((newSize - 1) / s.stripeSize)).map
      (fun id => zeroByte id (s.stripeSize - 1)) ++
    [zeroByte ((newSize - 1) / s.stripeSize) ((newSize - 1) % s.stripeSize + 1 - 1)] ++
    (if (size - 1) % s.stripeSize + 1 < s.stripeSize then
      [zeroByte ((size - 1) / s.stripeSize)
        (s.stripeSize - ((size - 1) % s.stripeSize + 1) - 1)]
    else [])

variable (s name size newSize) in
/-- The requests of a resize to a larger size are the writes of its pieces. -/
theorem map_writeStripe_growPieces : (s.growPieces size newSize).map (s.writeStripe name) =
    (idsFrom ((size - 1) / s.stripeSize + 1) ((newSize - 1) / s.stripeSize)).map
        (fun id => s.writeStripe name (zeroByte id (s.stripeSize - 1))) ++
      [s.writeStripe name
        (zeroByte ((newSize - 1) / s.stripeSize) ((newSize - 1) % s.stripeSize + 1 - 1))] ++
      (if (size - 1) % s.stripeSize + 1 < s.stripeSize then
        [s.writeStripe name (zeroByte ((size - 1) / s.stripeSize)
          (s.stripeSize - ((size - 1) % s.stripeSize + 1) - 1))]
      else []) := by
  rw [growPieces, List.map_append, List.map_append, List.map_map,
    apply_ite (List.map (s.writeStripe name))]
  rfl

/-- **A resize, once the size is known.** -/
theorem exec_resize_iff (inv : s.FileInv c name)
    (isSize : IsSize s.stripeSize (s.stripe c name) size) (nonneg : 0 ≤ newSize) :
    Exec (s.resize name newSize) c c' outcome ↔
      Exec (if newSize < size then
          Program.forkAll (s.shrinkTasks name size newSize) >>= checkReplies
        else if newSize > size then
          Program.forkAll ((s.growPieces size newSize).map (s.writeStripe name)) >>=
            fun _ => .ret ()
        else .ret ()) c c' outcome := by
  have sizeNonneg := isSize.nonneg inv.wellFormed
  have positive := s.stripeSize_pos
  rw [shrinkTasks, map_writeStripe_growPieces, resize, if_neg (by omega), Exec,
    Program.exec_bind_iff]
  constructor
  · rintro (⟨n, middle, first, rest⟩ | ⟨aborted, -⟩)
    · obtain ⟨rfl, n', same, isSize'⟩ := (exec_getSize_iff inv).mp first
      obtain rfl := Option.some.inj same
      obtain rfl := isSize'.unique isSize
      simp only [lastStripeInfo_eq positive sizeNonneg, lastStripeInfo_eq positive nonneg] at rest
      exact rest
    · obtain ⟨-, n, same, -⟩ := (exec_getSize_iff inv).mp aborted
      cases same
  · intro rest
    refine .inl ⟨size, c, exec_getSize_of_isSize inv isSize, ?_⟩
    simp only [lastStripeInfo_eq positive sizeNonneg, lastStripeInfo_eq positive nonneg]
    exact rest

/-- What a resize forks. -/
theorem exec_resize (inv : s.FileInv c name)
    (isSize : IsSize s.stripeSize (s.stripe c name) size) (nonneg : 0 ≤ newSize)
    (performed : Exec (s.resize name newSize) c c' outcome) :
    (newSize < size → ∃ order, order.Perm (s.shrinkTasks name size newSize) ∧
      Exec (checkReplies (Program.runAll serve order c).2)
        (Program.runAll serve order c).1 c' outcome) ∧
    (size < newSize → ∃ order,
      order.Perm ((s.growPieces size newSize).map (s.writeStripe name)) ∧
      c' = (Program.runAll serve order c).1 ∧ outcome = some ()) ∧
    (newSize = size → c' = c ∧ outcome = some ()) := by
  have rest := (exec_resize_iff inv isSize nonneg).mp performed
  refine ⟨fun shrink => ?_, fun grow => ?_, fun same => ?_⟩
  · rwa [if_pos shrink, Exec, Program.exec_forkAll_bind_iff] at rest
  · rw [if_neg (by omega), if_pos grow, Exec, Program.exec_forkAll_bind_iff] at rest
    obtain ⟨order, perm, last⟩ := rest
    exact ⟨order, perm, Program.exec_ret_iff.mp last⟩
  · rw [if_neg (by omega), if_neg (by omega)] at rest
    exact Program.exec_ret_iff.mp rest

/-! ## Shrinking -/

/-- A request of shrinking removes a stripe behind the new last one, or it trims
that one. -/
theorem mem_shrinkTasks {q : Request} : q ∈ s.shrinkTasks name size newSize ↔
    (∃ id, ((newSize - 1) / s.stripeSize < id ∧ id ≤ (size - 1) / s.stripeSize) ∧
      q = s.removeStripe name id) ∨
    q = s.trimStripe name ((newSize - 1) / s.stripeSize) ((newSize - 1) % s.stripeSize + 1) := by
  rw [shrinkTasks, List.mem_append, List.mem_singleton, List.mem_map]
  refine or_congr_left (exists_congr fun id => ?_)
  rw [mem_idsFrom, Int.add_one_le_iff, Int.lt_add_one_iff, @eq_comm _ q]

/-- **Shrinking cuts the content** at the new size, and it never aborts. -/
theorem cutAt_of_shrink (inv : s.FileInv c name)
    (isSize : IsSize s.stripeSize (s.stripe c name) size) (nonneg : 0 ≤ newSize)
    (shrink : newSize < size) (performed : Exec (s.resize name newSize) c c' outcome) :
    outcome = some () ∧ s.FileInv c' name ∧
      CutAt s.stripeSize (s.stripe c name) (s.stripe c' name) newSize := by
  have positive := s.stripeSize_pos
  have len_pos := Int.emod_nonneg (newSize - 1) positive.ne'
  have len_lt := Int.emod_lt_of_pos (newSize - 1) positive
  obtain ⟨order, perm, checked⟩ := (exec_resize inv isSize nonneg performed).1 shrink
  -- Each request cuts the last stripe that stays, or empties one behind it.
  have each : ∀ q ∈ order, ∃ target change, Changes s name q target change ∧
      ((target = (newSize - 1) / s.stripeSize ∧
          change = fun bytes => bytes.take ((newSize - 1) % s.stripeSize + 1).toNat) ∨
        ((newSize - 1) / s.stripeSize < target ∧ change = fun _ => [])) := by
    intro q member
    rcases mem_shrinkTasks.mp (perm.mem_iff.mp member) with ⟨id, inRange, rfl⟩ | rfl
    · exact ⟨id, _, changes_removeStripe s name id, .inr ⟨inRange.1, rfl⟩⟩
    · exact ⟨_, _, changes_trimStripe s name _ (by omega), .inl ⟨rfl, rfl⟩⟩
  have inv' := fileInv_of_changes inv fun q member => by
    obtain ⟨target, change, changes, -⟩ := each q member
    exact ⟨target, change, changes⟩
  set after := (Program.runAll serve order c).1 with afterEq
  -- All stripes behind the last one that stays are empty at the end.
  have behind : ∀ id, (newSize - 1) / s.stripeSize < id → s.stripe after name id = [] := by
    intro id behind
    by_cases existing : id ≤ (size - 1) / s.stripeSize
    · refine stripe_runAll (s.stripe c name id) inv (fun q member => ?_) (.inr ⟨rfl, ?_⟩)
      · obtain ⟨target, change, changes, ⟨rfl, rfl⟩ | ⟨-, rfl⟩⟩ := each q member
        · exact ⟨_, _, changes, by omega⟩
        · exact ⟨target, _, changes, by simp⟩
      · exact ⟨s.removeStripe name id,
          perm.mem_iff.mpr (mem_shrinkTasks.mpr (.inl ⟨id, ⟨behind, existing⟩, rfl⟩)), _,
          changes_removeStripe s name id, rfl⟩
    · -- There is no stripe behind the last one.
      have missing : s.stripe c name id = [] := by
        by_contra stored
        have ends := isSize.stripeEnd_le id stored
        have count : 0 < (s.stripe c name id).length := List.length_pos_iff.mpr stored
        rw [stripeEnd] at ends
        exact existing ((Int.le_ediv_iff_mul_le positive).mpr (by omega))
      refine stripe_runAll [] inv (fun q member => ?_) (.inl missing)
      obtain ⟨target, change, changes, ⟨rfl, rfl⟩ | ⟨-, rfl⟩⟩ := each q member
      · exact ⟨_, _, changes, by omega⟩
      · exact ⟨target, _, changes, by simp⟩
  have trimmed : s.stripe after name ((newSize - 1) / s.stripeSize) =
      (s.stripe c name ((newSize - 1) / s.stripeSize)).take
        ((newSize - 1) % s.stripeSize + 1).toNat := by
    refine stripe_runAll (s.stripe c name ((newSize - 1) / s.stripeSize)) inv
      (fun q member => ?_) (.inr ⟨rfl, ?_⟩)
    · obtain ⟨target, change, changes, ⟨rfl, rfl⟩ | ⟨behind, rfl⟩⟩ := each q member
      · exact ⟨_, _, changes, fun _ => ⟨rfl, by simp [List.take_take]⟩⟩
      · exact ⟨target, _, changes, by omega⟩
    · exact ⟨_, perm.mem_iff.mpr (mem_shrinkTasks.mpr (.inr rfl)), _,
        changes_trimStripe s name _ (by omega), rfl⟩
  have before : ∀ id, id < (newSize - 1) / s.stripeSize →
      s.stripe after name id = s.stripe c name id := by
    intro id before
    refine stripe_runAll [] inv (fun q member => ?_) (.inl rfl)
    obtain ⟨target, change, changes, ⟨rfl, rfl⟩ | ⟨behind, rfl⟩⟩ := each q member
    · exact ⟨_, _, changes, by omega⟩
    · exact ⟨target, _, changes, by omega⟩
  have cut := CutAt.of_stripes inv.wellFormed (by omega) (by omega) behind trimmed before
  rw [ediv_mul_add_emod_pred] at cut
  -- No goroutine is given an error, so the call does not panic.
  have replies : ConnReply.server .err ∉ (Program.runAll serve order c).2 := by
    have good : ∀ q ∈ order, ∀ c, s.FileInv c name →
        s.FileInv (serve q c).1 name ∧ (serve q c).2 ≠ ConnReply.server .err := by
      intro q member c₁ inv₁
      rcases mem_shrinkTasks.mp (perm.mem_iff.mp member) with ⟨id, -, rfl⟩ | rfl
      · exact ⟨inv₁.removeStripe id, by simp [serve, removeStripe, Body.exec]⟩
      · refine ⟨inv₁.trimStripe _ (by omega), ?_⟩
        rw [serve_trimStripe_reply inv₁ _ (by omega)]
        simp
    have replied := (Program.runAll_preserves (fun c => s.FileInv c name)
      (fun r => r ≠ ConnReply.server .err) good inv).2
    exact fun member => replied _ member rfl
  rw [checkReplies, if_neg replies, Exec, Program.exec_ret_iff] at checked
  obtain ⟨rfl, rfl⟩ := checked
  exact ⟨rfl, inv', cut⟩

/-- Resizing to a smaller size cuts the file there: the size is the new one, what is
below is unchanged, and nothing is stored from it on.  This is asked of every run of
the resize. -/
def ShrinksTo (s : DataStore) (c : Cluster) (name : GoString) (newSize : ℤ) : Prop :=
  ∀ c' outcome, Exec (s.resize name newSize) c c' outcome →
    outcome = some () ∧ Exec (s.getSize name) c' c' (some newSize) ∧
      (∀ p, p < newSize → s.content c' name p = s.content c name p) ∧
      ∀ p, newSize ≤ p → ¬s.Stores c' name p

/-- **When shrinking is right.**  A file is cut at a smaller size exactly when that
is zero or the byte before it is stored: the size that is rebuilt from the stripes
does not see a gap at its end.  All stripes behind the new last one are removed, and
the last one is trimmed.  The size of a file is the end of its last stripe that is
not empty, so that nothing but a stored byte can hold the new size up.  In a file
without gaps every byte below the size is stored, and the condition is met. -/
theorem shrinksTo_iff (reached : s.Reachable c)
    (sized : Exec (s.getSize name) c c (some size)) (nonneg : 0 ≤ newSize)
    (shrink : newSize < size) :
    s.ShrinksTo c name newSize ↔ newSize = 0 ∨ s.Stores c name (newSize - 1) := by
  have inv := reached.storeInv name
  have isSize := isSize_of_exec_getSize inv sized
  constructor
  · intro shrinks
    have performed := Program.exec_run serve (s.resize name newSize) c
    obtain ⟨-, inv', cut⟩ := cutAt_of_shrink inv isSize nonneg shrink performed
    obtain ⟨-, sized', -, -⟩ := shrinks _ _ performed
    have isSize' := isSize_of_exec_getSize inv' sized'
    by_cases zero : newSize = 0
    · exact .inl zero
    · exact .inr ((cut.stored_iff _).mp (isSize'.stored_pred inv'.wellFormed (by omega))).1
  · intro last c' outcome performed
    obtain ⟨returned, inv', cut⟩ := cutAt_of_shrink inv isSize nonneg shrink performed
    have nothing : ∀ p, newSize ≤ p → ¬s.Stores c' name p :=
      fun p above stored => absurd ((cut.stored_iff p).mp stored).2 (by omega)
    refine ⟨returned, exec_getSize_of_isSize inv' ?_, cut.byteAt_eq, nothing⟩
    rcases last with rfl | stored
    · refine WellFormed.isSize_zero fun id => ?_
      by_contra nonempty
      have count : 0 < (s.stripe c' name id).length := List.length_pos_iff.mpr nonempty
      have start : s.Stores c' name (id * s.stripeSize) := by
        rw [Stores, Stored, Int.mul_emod_left, Int.mul_ediv_cancel _ s.stripeSize_pos.ne']
        exact count
      exact nothing _ (mul_nonneg (inv'.id_nonneg nonempty) s.stripeSize_pos.le) start
    · exact IsSize.of_stored_pred inv'.wellFormed ((cut.stored_iff _).mpr ⟨stored, by omega⟩)
        nothing

/-- The small store with the gap, cut inside of the gap. -/
theorem not_shrinksTo_gapFile : (smallStore 2).Reachable gapFile ∧
    Exec ((smallStore 2).getSize ['f']) gapFile gapFile (some 6) ∧
    ¬(smallStore 2).ShrinksTo gapFile ['f'] 3 := by
  have inv := gapFile_quiet.reachable.storeInv ['f']
  refine ⟨gapFile_quiet.reachable, gapFile_getSize, fun shrinks => ?_⟩
  have performed := Program.exec_run serve ((smallStore 2).resize ['f'] 3) gapFile
  obtain ⟨-, sized, -⟩ := shrinks _ _ performed
  obtain ⟨-, inv', -⟩ := cutAt_of_shrink inv (isSize_of_exec_getSize inv gapFile_getSize)
    (by decide) (by decide) performed
  have one := exec_getSize_of_run (n := 1) inv' (by decide)
  exact absurd ((isSize_of_exec_getSize inv' sized).unique (isSize_of_exec_getSize inv' one))
    (by decide)

/-- Cut at a byte that is stored, the file gets the new size. -/
theorem shrinksTo_gapFile : (smallStore 2).ShrinksTo gapFile ['f'] 1 :=
  (shrinksTo_iff gapFile_quiet.reachable gapFile_getSize (by decide) (by decide)).mpr
    (.inr (by decide))

/-! ## Growing -/

/-- A piece of growing is one zero byte. -/
theorem mem_growPieces {piece : StripeInfo} (member : piece ∈ s.growPieces size newSize) :
    ∃ id off, piece = zeroByte id off ∧
      (((size - 1) / s.stripeSize < id ∧ id < (newSize - 1) / s.stripeSize ∧
          off = s.stripeSize - 1) ∨
        (id = (newSize - 1) / s.stripeSize ∧ off = (newSize - 1) % s.stripeSize) ∨
        (size % s.stripeSize ≠ 0 ∧ id = (size - 1) / s.stripeSize ∧
          off = s.stripeSize - size % s.stripeSize - 1)) := by
  rw [growPieces, List.mem_append, List.mem_append, List.mem_map, List.mem_singleton] at member
  rcases member with (⟨id, inRange, rfl⟩ | rfl) | completion
  · rw [mem_idsFrom] at inRange
    exact ⟨id, _, rfl, .inl ⟨by omega, inRange.2, rfl⟩⟩
  · exact ⟨_, _, rfl, .inr (.inl ⟨rfl, by omega⟩)⟩
  · by_cases inside : (size - 1) % s.stripeSize + 1 < s.stripeSize
    · have rest := (lastStripe_short_iff s.stripeSize_pos).mp inside
      rw [if_pos inside, List.mem_singleton] at completion
      exact ⟨_, _, completion, .inr (.inr ⟨rest, rfl,
        by rw [(lastStripe_of_short s.stripeSize_pos rest).2]⟩)⟩
    · simp [if_neg inside] at completion

theorem zeroByte_stop (id off : ℤ) :
    (zeroByte id off).stop s.stripeSize = id * s.stripeSize + off + 1 := rfl

/-- A zero byte covers its own position. -/
theorem zeroByte_covers {id off p : ℤ} :
    (zeroByte id off).Covers s.stripeSize p ↔ p = id * s.stripeSize + off := by
  rw [StripeInfo.Covers, zeroByte_stop, show (zeroByte id off).start s.stripeSize =
    id * s.stripeSize + off from rfl]
  omega

theorem zeroByte_byte (id off p : ℤ) : (zeroByte id off).byte s.stripeSize p = 0 := by
  rw [StripeInfo.byte, show (zeroByte id off).data.bytes = [0] from rfl]
  cases (p - (zeroByte id off).start s.stripeSize).toNat with
  | zero => rfl
  | succ n => rfl

variable (s size) in
/-- The position of the zero byte that should complete the last stripe of a file of `size`
bytes.  Its offset in the stripe is that of the last byte less the length of the stripe. -/
def completionByte : ℤ :=
  size - size % s.stripeSize + (s.stripeSize - size % s.stripeSize - 1)

/-- The positions of the zero bytes, below and above the old size. -/
structure GrowPosition (s : DataStore) (size newSize p : ℤ) : Prop where
  lt_max : p < max newSize (s.completionByte size + 1)
  cases : size ≤ p ∧ p < newSize ∨ size % s.stripeSize ≠ 0 ∧ p = s.completionByte size

/-- What a piece covers is one of the positions that the source completes. -/
theorem growPosition_of_mem {piece : StripeInfo} {p : ℤ} (grow : size < newSize)
    (member : piece ∈ s.growPieces size newSize) (covers : piece.Covers s.stripeSize p) :
    GrowPosition s size newSize p := by
  have positive := s.stripeSize_pos
  obtain ⟨id, off, rfl, position⟩ := mem_growPieces member
  obtain rfl := zeroByte_covers.mp covers
  have old := ediv_mul_add_emod_pred size s.stripeSize
  have new := ediv_mul_add_emod_pred newSize s.stripeSize
  have oldRest := Int.emod_lt_of_pos (size - 1) positive
  have newRest := Int.emod_nonneg (newSize - 1) positive.ne'
  rcases position with ⟨lower, upper, rfl⟩ | ⟨rfl, rfl⟩ | ⟨rest, rfl, rfl⟩
  · -- The last byte of a stripe between the old last one and the new last one.
    have above : ((size - 1) / s.stripeSize + 1) * s.stripeSize ≤ id * s.stripeSize :=
      mul_le_mul_of_nonneg_right (by omega) positive.le
    have below : (id + 1) * s.stripeSize ≤ (newSize - 1) / s.stripeSize * s.stripeSize :=
      mul_le_mul_of_nonneg_right (by omega) positive.le
    rw [add_mul, one_mul] at above below
    exact ⟨lt_max_of_lt_left (by omega), .inl ⟨by omega, by omega⟩⟩
  · exact ⟨lt_max_of_lt_left (by omega), .inl ⟨by omega, by omega⟩⟩
  · have same := (lastStripe_of_short positive rest).1
    refine ⟨lt_max_of_lt_right ?_, .inr ⟨rest, ?_⟩⟩
    · rw [completionByte, same]
      omega
    · rw [completionByte, same]

variable (s size newSize) in
theorem mem_growPieces_last : zeroByte ((newSize - 1) / s.stripeSize)
    ((newSize - 1) % s.stripeSize + 1 - 1) ∈ s.growPieces size newSize := by
  simp [growPieces]

variable (newSize) in
theorem mem_growPieces_completion (rest : size % s.stripeSize ≠ 0) :
    zeroByte ((size - 1) / s.stripeSize)
      (s.stripeSize - ((size - 1) % s.stripeSize + 1) - 1) ∈ s.growPieces size newSize := by
  simp [growPieces, (lastStripe_short_iff s.stripeSize_pos).mpr rest]

/-- The zero bytes are inside of their stripes. -/
theorem writable_of_mem_growPieces {piece : StripeInfo} (nonneg : 0 ≤ size)
    (grow : size < newSize) (member : piece ∈ s.growPieces size newSize) :
    Writable s piece := by
  have positive := s.stripeSize_pos
  obtain ⟨id, off, rfl, position⟩ := mem_growPieces member
  have oldId : -1 ≤ (size - 1) / s.stripeSize :=
    (Int.le_ediv_iff_mul_le positive).mpr (by omega)
  have newId : 0 ≤ (newSize - 1) / s.stripeSize := Int.ediv_nonneg (by omega) positive.le
  rcases position with ⟨lower, upper, rfl⟩ | ⟨rfl, rfl⟩ | ⟨rest, rfl, rfl⟩
  · exact writable_zeroByte (by omega) (by omega) (by omega)
  · exact writable_zeroByte newId (Int.emod_nonneg _ positive.ne') (Int.emod_lt_of_pos _ positive)
  · have lower := Int.emod_nonneg size positive.ne'
    have upper := Int.emod_lt_of_pos size positive
    have start : 0 < size := by
      by_contra none
      obtain rfl : size = 0 := by omega
      simp at rest
    exact writable_zeroByte (Int.ediv_nonneg (by omega) positive.le) (by omega) (by omega)

/-- No piece is behind the last stripe of the new size. -/
theorem id_le_of_mem_growPieces {piece : StripeInfo} (grow : size < newSize)
    (member : piece ∈ s.growPieces size newSize) : piece.id ≤ (newSize - 1) / s.stripeSize := by
  obtain ⟨id, off, rfl, position⟩ := mem_growPieces member
  have forward : (size - 1) / s.stripeSize ≤ (newSize - 1) / s.stripeSize :=
    Int.ediv_le_ediv s.stripeSize_pos (by omega)
  show id ≤ _
  omega

/-- **What growing does.**  All bytes from the old size on are zero, and below it only the
byte at `completionByte` may change, to zero; it also takes part in the new size. -/
theorem grown_of_grow (inv : s.FileInv c name)
    (isSize : IsSize s.stripeSize (s.stripe c name) size) (grow : size < newSize)
    (performed : Exec (s.resize name newSize) c c' outcome) :
    outcome = some () ∧ s.FileInv c' name ∧
      IsSize s.stripeSize (s.stripe c' name)
        (if size % s.stripeSize = 0 then newSize
          else max newSize (s.completionByte size + 1)) ∧
      (∀ p, s.content c name p = 0 → s.content c' name p = 0) ∧
      (∀ p, p < size → (size % s.stripeSize = 0 ∨ p ≠ s.completionByte size) →
        s.content c' name p = s.content c name p) ∧
      (size % s.stripeSize ≠ 0 → s.content c' name (s.completionByte size) = 0) := by
  have positive := s.stripeSize_pos
  have nonneg := isSize.nonneg inv.wellFormed
  obtain ⟨order, perm, rfl, rfl⟩ := (exec_resize inv isSize (by omega) performed).2.1 grow
  have each : ∀ q ∈ order, ∃ piece, Writes s name q piece ∧ piece ∈ s.growPieces size newSize := by
    intro q member
    obtain ⟨piece, inLayout, rfl⟩ := List.mem_map.mp (perm.mem_iff.mp member)
    exact ⟨piece, ⟨writable_of_mem_growPieces nonneg grow inLayout, rfl⟩, inLayout⟩
  have requested : ∀ piece ∈ s.growPieces size newSize, s.writeStripe name piece ∈ order :=
    fun piece member => perm.mem_iff.mpr (List.mem_map.mpr ⟨piece, member, rfl⟩)
  have zeros : ∀ q ∈ order, ∀ p, ∃ piece, Writes s name q piece ∧
      (piece.Covers s.stripeSize p → piece.byte s.stripeSize p = 0) := by
    intro q member p
    obtain ⟨piece, writes, inLayout⟩ := each q member
    obtain ⟨id, off, rfl, -⟩ := mem_growPieces inLayout
    exact ⟨_, writes, fun _ => zeroByte_byte id off p⟩
  refine ⟨rfl, fileInv_runAll inv fun q member => ?_, ?_, ?_, ?_, ?_⟩
  · obtain ⟨piece, writes, -⟩ := each q member
    exact ⟨piece, writes⟩
  · obtain ⟨n', result, above, attained, bounds⟩ := isSize_runAll inv
      (fun piece => piece ∈ s.growPieces size newSize) each isSize
    have last := mem_growPieces_last s size newSize
    have reached := bounds _ (requested _ last) _
      ⟨writable_of_mem_growPieces nonneg grow last, rfl⟩ (by simp [zeroByte])
    have new := ediv_mul_add_emod_pred newSize s.stripeSize
    rw [zeroByte_stop] at reached
    have bounded : n' ≤ newSize ∨
        -- The size that is reached is `newSize`, unless the completing zero lies behind
        -- it.
        size % s.stripeSize ≠ 0 ∧ n' ≤ max newSize (s.completionByte size + 1) := by
      rcases attained with same | ⟨piece, member, -, same⟩
      · exact .inl (by omega)
      · obtain ⟨id, off, rfl, -⟩ := mem_growPieces member
        have position := growPosition_of_mem grow member (zeroByte_covers.mpr rfl)
        rw [zeroByte_stop] at same
        rcases position.cases with ⟨-, below⟩ | ⟨rest, -⟩
        · exact .inl (by omega)
        · exact .inr ⟨rest, by have := position.lt_max; omega⟩
    by_cases whole : size % s.stripeSize = 0
    · have same : n' = newSize := by
        rcases bounded with below | ⟨rest, -⟩
        · omega
        · exact absurd whole rest
      rwa [if_pos whole, ← same]
    · have completion := mem_growPieces_completion newSize whole
      have completed := bounds _ (requested _ completion) _
        ⟨writable_of_mem_growPieces nonneg grow completion, rfl⟩ (by simp [zeroByte])
      obtain ⟨start, length⟩ := lastStripe_of_short positive whole
      rw [zeroByte_stop, start, length] at completed
      have same : n' = max newSize (s.completionByte size + 1) := by
        rw [completionByte] at bounded ⊢
        rcases bounded with below | ⟨-, below⟩ <;> omega
      rwa [if_neg whole, ← same]
  · intro p zero
    exact content_runAll inv (fun q member => zeros q member p) (.inl zero)
  -- Below the old size only the completing zero is written.
  · intro p below elsewhere
    refine content_runAll inv (fun q member => ?_) (.inl rfl)
    obtain ⟨piece, writes, inLayout⟩ := each q member
    refine ⟨piece, writes, fun covers => ?_⟩
    rcases (growPosition_of_mem grow inLayout covers).cases with ⟨above, -⟩ | ⟨rest, here⟩
    · omega
    · rcases elsewhere with whole | other
      · exact absurd whole rest
      · exact absurd here other
  · intro rest
    have completion := mem_growPieces_completion newSize rest
    obtain ⟨start, length⟩ := lastStripe_of_short positive rest
    refine content_runAll inv (fun q member => zeros q member _)
      (.inr ⟨_, requested _ completion, _,
        ⟨writable_of_mem_growPieces nonneg grow completion, rfl⟩, ?_, zeroByte_byte _ _ _⟩)
    rw [zeroByte_covers, completionByte, start, length]

/-- Resizing to a larger size grows the file with zeros: the size is the new one, what is
below the old one is unchanged, and what follows is zero. -/
def GrowsTo (s : DataStore) (c : Cluster) (name : GoString) (size newSize : ℤ) : Prop :=
  ∀ c' outcome, Exec (s.resize name newSize) c c' outcome →
    outcome = some () ∧ Exec (s.getSize name) c' c' (some newSize) ∧
      (∀ p, p < size → s.content c' name p = s.content c name p) ∧
      ∀ p, size ≤ p → p < newSize → s.content c' name p = 0

/-- **When growing is right.**  A file is grown with zeros exactly when its size is
a multiple of the stripe size, or the byte meant to complete its last stripe falls
below the new size and on a zero.  The source stores a zero at the last byte of the
new size, at the last byte of each stripe in between, and at one byte that is meant
to complete the old last stripe.  The offset of the latter is calculated as a
difference of lengths where it should be a length; so it falls into data, unless the
last stripe was full, or it happens to fall behind the data or on a zero. -/
theorem growsTo_iff (reached : s.Reachable c)
    (sized : Exec (s.getSize name) c c (some size)) (grow : size < newSize) :
    s.GrowsTo c name size newSize ↔ size % s.stripeSize = 0 ∨
      (s.completionByte size < newSize ∧ s.content c name (s.completionByte size) = 0) := by
  have inv := reached.storeInv name
  have isSize := isSize_of_exec_getSize inv sized
  have beyond : ∀ p, size ≤ p → s.content c name p = 0 :=
    fun p above => isSize.byteAt_eq_zero inv.wellFormed above
  constructor
  · intro grows
    have performed := Program.exec_run serve (s.resize name newSize) c
    obtain ⟨-, inv', isSize', -, -, completed⟩ := grown_of_grow inv isSize grow performed
    obtain ⟨-, sized', below, -⟩ := grows _ _ performed
    by_cases whole : size % s.stripeSize = 0
    · exact .inl whole
    · rw [if_neg whole] at isSize'
      have same := isSize'.unique (isSize_of_exec_getSize inv' sized')
      refine .inr ⟨by omega, ?_⟩
      by_cases inside : s.completionByte size < size
      · rw [← below _ inside]
        exact completed whole
      · exact beyond _ (by omega)
  · intro harmless c' outcome performed
    obtain ⟨returned, inv', isSize', kept, below, -⟩ := grown_of_grow inv isSize grow performed
    refine ⟨returned, exec_getSize_of_isSize inv' ?_, fun p inside => ?_,
      fun p above _ => kept p (beyond p above)⟩
    · by_cases whole : size % s.stripeSize = 0
      · rwa [if_pos whole] at isSize'
      · have before := (harmless.resolve_left whole).1
        rw [if_neg whole, max_eq_left (by omega)] at isSize'
        exact isSize'
    · by_cases here : size % s.stripeSize = 0 ∨ p ≠ s.completionByte size
      · exact below p inside here
      · push Not at here
        obtain ⟨-, zero⟩ := harmless.resolve_left here.1
        rw [here.2, zero, kept _ zero]

/-- What the small store holds after a write of three bytes, in a stripe of four. -/
def partFile : Cluster := smallStore.afterWrite (smallStore 4) 0 [1, 2, 3]

theorem partFile_quiet : (smallStore 4).Quiet partFile :=
  (quiet_empty _).run (.writeAt ['f'] 0 [1, 2, 3] (by decide)) (by decide)

/-- Growing a file of three bytes overwrites the first of them. -/
theorem not_growsTo_partFile : (smallStore 4).Reachable partFile ∧
    Exec ((smallStore 4).getSize ['f']) partFile partFile (some 3) ∧
    ¬(smallStore 4).GrowsTo partFile ['f'] 3 6 := by
  have inv := partFile_quiet.reachable.storeInv ['f']
  refine ⟨partFile_quiet.reachable, exec_getSize_of_run inv (by decide), fun grows => ?_⟩
  obtain ⟨-, -, below, -⟩ := grows _ _ (Program.exec_run serve _ partFile)
  have first := below 0 (by decide)
  revert first
  decide

/-- Growing a whole stripe. -/
theorem growsTo_wholeStripe : (smallStore 3).GrowsTo
    (smallStore.afterWrite (smallStore 3) 0 [1, 2, 3]) ['f'] 3 6 := by
  have quiet : (smallStore 3).Quiet (smallStore.afterWrite (smallStore 3) 0 [1, 2, 3]) :=
    (quiet_empty _).run (.writeAt ['f'] 0 [1, 2, 3] (by decide)) (by decide)
  exact (growsTo_iff quiet.reachable
    (exec_getSize_of_run (quiet.reachable.storeInv ['f']) (by decide)) (by decide)).mpr
    (.inl (by decide))

end DataStore

end Pdwfs
