import Pdwfs.Redisfs.Size

/-!
# The states of a store

The stores reached from an empty one by clients that write, resize and remove files,
with the requests of all of them interleaved in any order.

* `Call`, `Reachable` — the operations of the clients, and what they reach.
* `safe_call` — an operation keeps the invariant of all files at each of its
  requests, whatever the other clients do in between.
* `storeInv_of_configuration` — so every store that is reached has the invariant,
  also in the middle of operations.

## What is quantified over

Clients, files and operations are all arbitrary in number.  A client runs one
operation after the other, and a configuration is a store together with what each
client has still to do.  Reads and queries of the size are no operations here since
they change nothing; a statement about them is made about every store that is
reached.

Each operation is safe on its own, and that is all that is ever shown of
interleavings: `Session.invariant` does the rest.  What a resize sends depends on
the size that it was told at its start, and this may be wrong by then.  It does not
matter to the invariant, which allows for any request on any stripe with a number
that is not negative.

The stores of these calls are those of unbounded integers.  The stores of 64-bit
calls that stay below the end of the range are among them (`Wrapped.Configuration`
in `Ranges`).
-/

namespace Pdwfs

open Concurrency Redis Striping

/-! ## The arithmetic of sizes -/

/-- The last stripe holds the byte before the size; a size of zero counts as a whole
stripe `-1`. -/
theorem lastStripeInfo_eq {size stripeSize : ℤ} (positive : 0 < stripeSize)
    (nonneg : 0 ≤ size) :
    lastStripeInfo size stripeSize =
      ((size - 1) / stripeSize, (size - 1) % stripeSize + 1) := by
  have split := Int.mul_ediv_add_emod size stripeSize
  have lower := Int.emod_nonneg size positive.ne'
  have upper := Int.emod_lt_of_pos size positive
  have last : ∀ id len : ℤ, 0 ≤ len → len < stripeSize → size - 1 = stripeSize * id + len →
      (size - 1) / stripeSize = id ∧ (size - 1) % stripeSize = len := by
    intro id len len_nonneg len_lt same
    rw [same]
    constructor
    · rw [Int.mul_add_ediv_left _ _ positive.ne', Int.ediv_eq_zero_of_lt len_nonneg len_lt,
        add_zero]
    · rw [Int.mul_add_emod_self_left, Int.emod_eq_of_lt len_nonneg len_lt]
  rw [lastStripeInfo, divmod_of_nonneg nonneg]
  by_cases whole : size % stripeSize = 0
  · obtain ⟨quotient, remainder⟩ := last (size / stripeSize - 1) (stripeSize - 1) (by omega)
      (by omega) (by rw [mul_sub, mul_one]; omega)
    simp only [whole, ite_true, quotient, remainder]
    rw [sub_add_cancel]
  · obtain ⟨quotient, remainder⟩ := last (size / stripeSize) (size % stripeSize - 1) (by omega)
      (by omega) (by omega)
    simp only [whole, ite_false, quotient, remainder]
    rw [sub_add_cancel]

namespace DataStore

variable {s : DataStore} {name : GoString}

/-- A piece of a layout may be written, and so may a zero value. -/
theorem writable_of_layout {off : ℤ} {data : List UInt8} {pieces items : List StripeInfo}
    (nonneg : 0 ≤ off) (tiles : Tiles s.stripeSize off 0 data pieces)
    (padded : Padded 100 pieces items) {stripe : StripeInfo} (member : stripe ∈ items) :
    Writable s stripe := by
  rcases padded.mem_or_zero member with piece | rfl
  · have found := tiles.piece s.stripeSize_pos nonneg piece
    exact ⟨found.id_nonneg, found.off_nonneg, found.inside, .inl found.nonempty⟩
  · exact ⟨le_rfl, le_rfl, by simpa [StripeInfo.zero, Slice.nil] using s.stripeSize_pos.le,
      .inr rfl⟩

/-- The zero byte that ends a stripe may be written. -/
theorem writable_zeroByte {id off : ℤ} (id_nonneg : 0 ≤ id) (off_nonneg : 0 ≤ off)
    (inside : off < s.stripeSize) : Writable s (zeroByte id off) where
  id_nonneg := id_nonneg
  off_nonneg := off_nonneg
  inside := by
    simp only [zeroByte, List.length_cons, List.length_nil]
    omega
  nonempty_or_zero := .inl (by simp [zeroByte])

/-! ## Every operation is safe -/

/-- A program that keeps the invariant of all files at each of its requests. -/
abbrev Safe {α : Type} (s : DataStore) (abort : Prop) (good : α → Prop) (program : Prog α) :
    Prop := Program.Safe serve s.StoreInv abort good program

/-- A fork whose requests keep the invariant, whatever they are answered. -/
theorem safe_forkAll {tasks : List Request}
    (each : ∀ q ∈ tasks, ∀ c, s.StoreInv c → s.StoreInv (serve q c).1) :
    s.Safe False (fun _ => True) (Program.forkAll tasks) :=
  Program.safe_resume (fun _ => True) (fun q member c inv => ⟨each q member c inv, trivial⟩)
    fun _ _ _ => trivial

/-- What the sets of the instances hold are numbers, so no goroutine of the search
panics. -/
theorem isSome_mapM_lastIdOf {replies : List ConnReply}
    (each : ∀ r ∈ replies, (lastIdOf r).isSome) : (replies.mapM lastIdOf).isSome := by
  induction replies with
  | nil => rfl
  | cons r rest ih =>
      obtain ⟨n, this⟩ := Option.isSome_iff_exists.mp (each r (by simp))
      obtain ⟨ids, others⟩ :=
        Option.isSome_iff_exists.mp (ih fun r' member => each r' (by simp [member]))
      rw [List.mapM_cons, this, others]
      rfl

/-- The search returns a number from `-1` on, from whichever stores its replies
come. -/
theorem safe_searchLastStripe (s : DataStore) (name : GoString) :
    s.Safe False (fun _ => True) (s.searchLastStripe name) := by
  refine (Program.safe_forkAll (fun r => (lastIdOf r).isSome) ?_).bind ?_
  · intro q member c inv
    obtain ⟨client, -, rfl⟩ := List.mem_map.mp member
    rw [show ({ addr := client.2.addr, body := .single (.smembers (stripesKey name)) } : Request) =
      membersRequest name client from rfl, serve_membersRequest (inv name)]
    obtain ⟨n, found, -⟩ := (inv name).lastIdOf_members client.2.addr
    exact ⟨inv, by simp [found]⟩
  · intro replies parsed
    obtain ⟨ids, found⟩ := Option.isSome_iff_exists.mp (isSome_mapM_lastIdOf parsed.2)
    rw [found]
    trivial

/-- The size that is returned is not negative, also if the file changes between the
two requests. -/
theorem safe_getSize (s : DataStore) (name : GoString) :
    s.Safe False (fun size => 0 ≤ size) (s.getSize name) := by
  refine (safe_searchLastStripe s name).bind fun ilast _ => ?_
  by_cases none : ilast < 0
  · simp only [none, ite_true]
    exact le_rfl
  · simp only [none, ite_false]
    have length : s.Safe False (fun l => 0 ≤ l)
        ((s.redisRing.getClient (key name ilast)).strlen (key name ilast)) := by
      refine (Program.safe_request (fun reply => ∃ n : ℕ, reply = .server (.int n))
        fun c inv => ?_).bind ?_
      · have replied := serve_strlen (inv name) ilast
        exact ⟨(congrArg Prod.fst replied).symm ▸ inv, _, congrArg Prod.snd replied⟩
      · rintro reply ⟨n, rfl⟩
        exact Int.natCast_nonneg n
    refine length.bind fun l counted => ?_
    have := mul_nonneg (by omega : 0 ≤ ilast) s.stripeSize_pos.le
    exact add_nonneg this counted

/-- A write is not aborted, whatever the others do in between. -/
theorem safe_writeAt (s : DataStore) (name : GoString) {off : ℤ} (nonneg : 0 ≤ off)
    (data : List UInt8) : s.Safe False (fun _ => True) (s.writeAt name off data) := by
  obtain ⟨pieces, items, tiles, layout, padded⟩ :=
    stripeLayout_spec s.policy s.stripeSize_pos nonneg data
  simp only [writeAt, layout]
  refine (safe_forkAll ?_).bind fun _ _ => trivial
  intro q member c inv
  obtain ⟨stripe, inLayout, rfl⟩ := List.mem_map.mp member
  exact inv.writeStripe (writable_of_layout nonneg tiles padded inLayout)

/-- A removal is not either. -/
theorem safe_remove (s : DataStore) (name : GoString) :
    s.Safe False (fun _ => True) (s.remove name) := by
  refine (safe_searchLastStripe s name).bind fun last _ => ?_
  refine (safe_forkAll ?_).bind fun _ _ => trivial
  intro q member c inv
  obtain ⟨id, -, rfl⟩ := List.mem_map.mp member
  exact inv.removeStripe id

/-- No goroutine of a resize is given an error.  The size may have changed since it
was asked for; the stripes that are trimmed are strings all the same, so the script
succeeds. -/
theorem safe_resize_of_nonneg (s : DataStore) (name : GoString) {newSize : ℤ}
    (nonneg : 0 ≤ newSize) : s.Safe False (fun _ => True) (s.resize name newSize) := by
  unfold resize
  simp only [not_lt.mpr nonneg, ite_false]
  refine (safe_getSize s name).bind fun curSize counted => ?_
  have positive := s.stripeSize_pos
  have stripes := fun n => Int.emod_nonneg (n - 1) positive.ne'
  have lengths := fun n => Int.emod_lt_of_pos (n - 1) positive
  have first : -1 ≤ (curSize - 1) / s.stripeSize :=
    (Int.le_ediv_iff_mul_le positive).mpr (by omega)
  rw [lastStripeInfo_eq positive counted, lastStripeInfo_eq positive (by omega)]
  simp only
  split
  · -- shrink
    refine (Program.safe_forkAll (fun r => r ≠ .server .err) ?_).bind fun replies answered => ?_
    · intro q member c inv
      rcases List.mem_append.mp member with removed | trimmed
      · obtain ⟨id, -, rfl⟩ := List.mem_map.mp removed
        exact ⟨inv.removeStripe id, by simp [serve, removeStripe, Body.exec]⟩
      · obtain rfl := List.mem_singleton.mp trimmed
        have lower := stripes newSize
        rw [serve_trimStripe_reply (inv name) _ (by omega)]
        exact ⟨inv.trimStripe _ (by omega), by simp⟩
    · rw [checkReplies, if_neg fun member => answered.2 _ member rfl]
      trivial
  · split
    · -- grow
      refine (safe_forkAll ?_).bind fun _ _ => trivial
      intro q member c inv
      have grown : 0 ≤ (newSize - 1) / s.stripeSize :=
        Int.ediv_nonneg (by omega) positive.le
      simp only [List.mem_append, List.mem_map, List.mem_singleton, mem_idsFrom] at member
      rcases member with (⟨id, inRange, rfl⟩ | rfl) | completion
      · exact inv.writeStripe (writable_zeroByte (by omega) (by omega) (by omega))
      · refine inv.writeStripe (writable_zeroByte grown ?_ ?_)
        · have := stripes newSize
          omega
        · have := lengths newSize
          omega
      · split at completion
        · rename_i partialStripe
          obtain rfl := List.mem_singleton.mp completion
          have curPositive : 0 < curSize := by
            by_contra zero
            have same : curSize = 0 := by omega
            have whole : (curSize - 1) % s.stripeSize = s.stripeSize - 1 := by
              rw [same, zero_sub, ← Int.add_mul_emod_self_left (-1) s.stripeSize 1, mul_one,
                Int.emod_eq_of_lt (by omega) (by omega)]
              ring
            omega
          refine inv.writeStripe (writable_zeroByte
            (Int.ediv_nonneg (by omega) positive.le) (by omega) ?_)
          have := stripes curSize
          omega
        · simp at completion
    · trivial

theorem safe_resize (s : DataStore) (name : GoString) (newSize : ℤ) :
    s.Safe True (fun _ => True) (s.resize name newSize) := by
  by_cases negative : newSize < 0
  · simp only [resize, negative, ite_true]
    trivial
  · exact (safe_resize_of_nonneg s name (by omega)).mono (fun _ => trivial) fun _ => id

/-! ## Reachable stores -/

/-- The operations that clients of a store run on it.  Offsets are not negative:
`MemFile.writeAt`, the caller of `DataStore.WriteAt`, aborts on others. -/
inductive Call (s : DataStore) : Prog Unit → Prop
  | writeAt (name : GoString) (off : ℤ) (data : List UInt8) (nonneg : 0 ≤ off) :
      Call s (s.writeAt name off data)
  | resize (name : GoString) (newSize : ℤ) : Call s (s.resize name newSize)
  | remove (name : GoString) : Call s (s.remove name)

/-- **Every operation is safe.** -/
theorem safe_call {program : Prog Unit} (call : s.Call program) :
    s.Safe True (fun _ => True) program := by
  cases call with
  | writeAt name off data nonneg =>
      exact (safe_writeAt s name nonneg data).mono (fun _ => trivial) fun _ => id
  | resize name newSize => exact safe_resize s name newSize
  | remove name => exact (safe_remove s name).mono (fun _ => trivial) fun _ => id

/-- The configurations reached from an empty store by clients that run operations. -/
abbrev Configuration {ι : Type} [DecidableEq ι] (s : DataStore)
    (pool : Pool ι Request ConnReply Unit Cluster) : Prop :=
  Session serve s.Call (fun _ _ => none) pool

/-- The stores reached from an empty one, operations in progress included.  The
clients are those of any type. -/
def Reachable (s : DataStore) (c : Cluster) : Prop :=
  ∃ (ι : Type) (_ : DecidableEq ι) (pool : Pool ι Request ConnReply Unit Cluster),
    s.Configuration pool ∧ pool.store = c

/-- **Every reachable store has the invariant.** -/
theorem storeInv_of_configuration {ι : Type} [DecidableEq ι]
    {pool : Pool ι Request ConnReply Unit Cluster} (reached : s.Configuration pool) :
    s.StoreInv pool.store :=
  (reached.invariant (storeInv_empty s) fun _ call => safe_call call).1

theorem Reachable.storeInv {c : Cluster} (reached : s.Reachable c) : s.StoreInv c := by
  obtain ⟨ι, _, pool, configuration, rfl⟩ := reached
  exact storeInv_of_configuration configuration

/-- The stores reached by one client that has finished all of its operations.  These
are the ones that can be computed. -/
def Quiet (s : DataStore) (c : Cluster) : Prop :=
  s.Configuration (⟨c, fun _ => .ret ()⟩ : Pool Unit Request ConnReply Unit Cluster)

theorem Quiet.reachable {c : Cluster} (quiet : s.Quiet c) : s.Reachable c :=
  ⟨Unit, inferInstance, _, quiet, rfl⟩

theorem quiet_empty (s : DataStore) : s.Quiet fun _ _ => none :=
  .init _ fun _ => ⟨(), rfl⟩

/-- The next operation of the client. -/
theorem Quiet.run {c : Cluster} {program : Prog Unit} (quiet : s.Quiet c)
    (call : s.Call program) (returned : (run program c).2 = some ()) :
    s.Quiet (Pdwfs.run program c).1 := by
  have performed := Program.exec_run serve program c
  rw [show (Program.run serve program c).2 = some () from returned] at performed
  have next := Session.perform (i := ()) quiet ⟨(), rfl⟩ call performed
  have same : Function.update (fun _ : Unit => (.ret () : Prog Unit)) () (.ret ()) =
      fun _ => .ret () := Function.update_eq_self _ _
  rw [same] at next
  exact next

end DataStore

/-! ## A small store -/

theorem smallStore.two_pos : (0 : ℤ) < 2 := by decide

/-- A store of one instance, with stripes of `stripeSize` bytes. -/
def smallStore (stripeSize : ℤ)
    (positive : 0 < stripeSize := by first | exact smallStore.two_pos | decide) : DataStore where
  redisRing := {
    clients := [(['0'], ⟨['a']⟩)]
    hash := (ConsistentHash.new 1 fun _ => 0).add [['0']]
    get_isSome := fun _ => rfl }
  stripeSize := stripeSize
  stripeSize_pos := positive
  policy := .doubling

/-- What the small store holds after one write to the file `f`. -/
def smallStore.afterWrite (s : DataStore) (off : ℤ) (data : List UInt8)
    (c : Cluster := fun _ _ => none) : Cluster :=
  (run (s.writeAt ['f'] off data) c).1

theorem smallStore.quiet_threeBytes :
    (smallStore 2).Quiet (smallStore.afterWrite (smallStore 2) 0 [1, 2, 3]) :=
  (DataStore.quiet_empty _).run (.writeAt ['f'] 0 [1, 2, 3] le_rfl) (by decide)

end Pdwfs
