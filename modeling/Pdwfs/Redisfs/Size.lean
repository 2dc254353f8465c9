import Pdwfs.Redisfs.StoreInvariant
import Pdwfs.Striping.Image

/-!
# The size of a file

The size of a file is not stored.  It is rebuilt from the sets of the instances and
from the length of one stripe.

* `FileInv.wellFormed` — the stripes of a file are a well-formed striping, so that
  the notions of `Striping` apply to them.
* `IsLast` — what `searchLastStripe` looks for, and `exec_searchLastStripe_iff`,
  that it finds it whatever the order of the replies.
* `exec_getSize_iff` — `getSize` returns the position behind the last stored byte.

## Why it is the size

The search takes the highest number in the sets, and the size is the end of that
stripe.  It is the right one because of two parts of the invariant: every stripe
that is not empty is registered, so no stripe behind the highest one holds anything,
and what is registered is not empty, so the end of the highest one is behind a byte.
The exception is stripe `0`, which may be registered and empty; if it is the highest
one, the file is empty and its size is zero all the same.

`exec_getSize_iff` is the form in which this is used: to ask for the size is to be
given the number that `IsSize` determines, and to change nothing.
-/

namespace Pdwfs

open Concurrency Redis Striping

/-! ## Maxima -/

/-- What the loop over the numbers has at its end. -/
theorem foldl_max_spec (ids : List ℤ) (max : ℤ) :
    (∀ id ∈ ids, id ≤ ids.foldl (fun max id => if id > max then id else max) max) ∧
      max ≤ ids.foldl (fun max id => if id > max then id else max) max ∧
      (ids.foldl (fun max id => if id > max then id else max) max = max ∨
        ids.foldl (fun max id => if id > max then id else max) max ∈ ids) := by
  induction ids generalizing max with
  | nil => simp
  | cons id rest ih =>
      obtain ⟨above, grown, attained⟩ := ih (if id > max then id else max)
      rw [List.foldl_cons]
      refine ⟨?_, ?_, ?_⟩
      · intro id' member
        rcases List.mem_cons.mp member with rfl | later
        · refine le_trans ?_ grown
          split <;> omega
        · exact above id' later
      · refine le_trans ?_ grown
        split <;> omega
      · rcases attained with same | member
        · rw [same]
          split
          · exact .inr List.mem_cons_self
          · exact .inl rfl
        · exact .inr (List.mem_cons_of_mem _ member)

/-- No number is above the maximum. -/
theorem le_maxId {ids : List ℤ} {id : ℤ} (member : id ∈ ids) : id ≤ maxId ids :=
  (foldl_max_spec ids (-1)).1 id member

/-- The maximum is one of the numbers, or `-1`. -/
theorem maxId_eq_or_mem (ids : List ℤ) : maxId ids = -1 ∨ maxId ids ∈ ids :=
  (foldl_max_spec ids (-1)).2.2

namespace DataStore

variable {s : DataStore} {c c' : Cluster} {name : GoString}

/-! ## The stripes of a file as a striping -/

/-- **The stripes of a file are a striping.** -/
theorem FileInv.wellFormed (inv : s.FileInv c name) :
    WellFormed s.stripeSize (s.stripe c name) where
  positive := s.stripeSize_pos
  length_le := inv.length_le
  id_nonneg _ stored := inv.id_nonneg stored

variable (s c name) in
/-- The byte of the file at a position; a byte that is not stored counts as zero. -/
abbrev content (p : ℤ) : UInt8 := byteAt s.stripeSize (s.stripe c name) p

variable (s c name) in
/-- The byte of the file at a position is stored. -/
abbrev Stores (p : ℤ) : Prop := Stored s.stripeSize (s.stripe c name) p

/-! ## The last stripe -/

/-- `n` is the highest identifier in the sets of the file, and `-1` if there is
none. -/
structure IsLast (s : DataStore) (c : Cluster) (name : GoString) (n : ℤ) : Prop where
  le : ∀ id, s.Registered c name id → id ≤ n
  attained : n = -1 ∨ s.Registered c name n

/-- There is one last stripe. -/
theorem IsLast.unique (inv : s.FileInv c name) {n n' : ℤ} (last : IsLast s c name n)
    (last' : IsLast s c name n') : n = n' := by
  rcases last.attained with none | registered
  · rcases last'.attained with none' | registered'
    · rw [none, none']
    · have := last.le n' registered'
      have := inv.nonneg_of_registered registered'
      omega
  · rcases last'.attained with none' | registered'
    · have := last'.le n registered
      have := inv.nonneg_of_registered registered
      omega
    · have := last.le n' registered'
      have := last'.le n registered
      omega

/-- The request of one goroutine of `searchLastStripe`. -/
def membersRequest (name : GoString) (client : GoString × RedisClient) : Request where
  addr := client.2.addr
  body := .single (.smembers (stripesKey name))

/-- An instance answers with the members of its set, and nothing changes. -/
theorem serve_membersRequest (inv : s.FileInv c name) (client : GoString × RedisClient) :
    serve (membersRequest name client) c =
      (c, .server (.members (idsAt c name client.2.addr))) := by
  have unchanged := serve_readOnly (q := membersRequest name client) rfl c
  have replied := exec_smembers (inv.noString client.2.addr)
  apply Prod.ext unchanged
  simp only [serve, membersRequest, Body.exec, replied, readReply]
  rfl

/-- The identifiers of an instance are numbers. -/
theorem FileInv.mapM_parseInt (inv : s.FileInv c name) (a : Addr) :
    ∃ ids : List ℤ, (idsAt c name a).mapM parseInt = some ids ∧
      ∀ id, id ∈ ids ↔ formatInt id ∈ idsAt c name a := by
  have numbers : ∀ members : List GoString,
      (∀ m ∈ members, ∃ id, m = formatInt id) →
      ∃ ids : List ℤ, members.mapM parseInt = some ids ∧
        ∀ id, id ∈ ids ↔ formatInt id ∈ members := by
    intro members each
    induction members with
    | nil => exact ⟨[], rfl, by simp⟩
    | cons m rest ih =>
        obtain ⟨id, rfl⟩ := each m (by simp)
        obtain ⟨ids, parsed, same⟩ := ih fun m' member => each m' (by simp [member])
        refine ⟨id :: ids, ?_, fun id' => ?_⟩
        · rw [List.mapM_cons, parseInt_formatInt, parsed]
          rfl
        · rw [List.mem_cons, List.mem_cons, same, formatInt_injective.eq_iff]
  refine numbers _ fun m member => ?_
  obtain ⟨id, -, same, -⟩ := inv.ofRegistered a m member
  exact ⟨id, same⟩

/-- What one goroutine of `searchLastStripe` finds. -/
theorem FileInv.lastIdOf_members (inv : s.FileInv c name) (a : Addr) :
    ∃ n, lastIdOf (.server (.members (idsAt c name a))) = some n ∧
      (∀ id, formatInt id ∈ idsAt c name a → id ≤ n) ∧
      (n = -1 ∨ formatInt n ∈ idsAt c name a) := by
  obtain ⟨ids, parsed, same⟩ := inv.mapM_parseInt a
  refine ⟨maxId ids, by rw [lastIdOf, parsed]; rfl, fun id member => ?_, ?_⟩
  · exact le_maxId ((same id).mpr member)
  · exact (maxId_eq_or_mem ids).imp_right (same _).mp

/-- An identifier in the set of an instance is that of a stripe of this instance. -/
theorem FileInv.registered_of_mem (inv : s.FileInv c name) {a : Addr} {id : ℤ}
    (inSet : formatInt id ∈ idsAt c name a) : s.Registered c name id := by
  obtain ⟨id', -, same, here, -⟩ := inv.ofRegistered _ _ inSet
  rw [Registered, formatInt_injective same, here, ← formatInt_injective same]
  exact inSet

/-- The maximum over replies, each of which is at least the identifiers in the set
of an instance in the store `c`, and one that the instance has in the store `c'`.
The two stores differ where the replies come from different moments of a run. -/
theorem mapM_lastIdOf {replies : List (Addr × ConnReply)}
    (each : ∀ entry ∈ replies, ∃ n, lastIdOf entry.2 = some n ∧
      (∀ id, formatInt id ∈ idsAt c name entry.1 → id ≤ n) ∧
      (n = -1 ∨ formatInt n ∈ idsAt c' name entry.1)) :
    ∃ ids : List ℤ, (replies.map Prod.snd).mapM lastIdOf = some ids ∧
      (∀ entry ∈ replies, ∀ id, formatInt id ∈ idsAt c name entry.1 → id ≤ maxId ids) ∧
      (maxId ids = -1 ∨ ∃ entry ∈ replies, formatInt (maxId ids) ∈ idsAt c' name entry.1) := by
  have listed : ∃ ids : List ℤ, (replies.map Prod.snd).mapM lastIdOf = some ids ∧
      (∀ entry ∈ replies, ∀ id, formatInt id ∈ idsAt c name entry.1 → ∃ n ∈ ids, id ≤ n) ∧
      (∀ n ∈ ids, n = -1 ∨ ∃ entry ∈ replies, formatInt n ∈ idsAt c' name entry.1) := by
    induction replies with
    | nil => exact ⟨[], rfl, by simp, by simp⟩
    | cons entry rest ih =>
        obtain ⟨ids, parsed, covered, found⟩ :=
          ih fun entry' member => each entry' (by simp [member])
        obtain ⟨n, this, above, attained⟩ := each entry List.mem_cons_self
        refine ⟨n :: ids, ?_, ?_, ?_⟩
        · rw [List.map_cons, List.mapM_cons, this, parsed]
          rfl
        · intro entry' member id inSet
          rcases List.mem_cons.mp member with rfl | later
          · exact ⟨n, by simp, above id inSet⟩
          · obtain ⟨n', inIds, le⟩ := covered entry' later id inSet
            exact ⟨n', by simp [inIds], le⟩
        · intro n' member
          rcases List.mem_cons.mp member with rfl | later
          · exact attained.imp_right fun inSet => ⟨entry, by simp, inSet⟩
          · apply (found n' later).imp_right
            rintro ⟨entry', member', inSet⟩
            exact ⟨entry', by simp [member'], inSet⟩
  obtain ⟨ids, parsed, covered, found⟩ := listed
  refine ⟨ids, parsed, fun entry member id inSet => ?_, ?_⟩
  · obtain ⟨n, inIds, le⟩ := covered entry member id inSet
    exact le.trans (le_maxId inIds)
  · exact (maxId_eq_or_mem ids).elim .inl (found _)

/-- The maximum over the replies of all instances, in any order, is the last stripe. -/
theorem FileInv.isLast_of_replies (inv : s.FileInv c name)
    {order : List (GoString × RedisClient)} (perm : order.Perm s.redisRing.clients) :
    ∃ ids : List ℤ,
      (order.map fun client => (serve (membersRequest name client) c).2).mapM lastIdOf =
        some ids ∧ IsLast s c name (maxId ids) := by
  obtain ⟨ids, parsed, covered, found⟩ := @mapM_lastIdOf c c name
    (order.map fun client => (client.2.addr, (serve (membersRequest name client) c).2))
    (fun entry member => by
      obtain ⟨client, -, rfl⟩ := List.mem_map.mp member
      simp only [serve_membersRequest inv]
      exact inv.lastIdOf_members client.2.addr)
  rw [List.map_map] at parsed
  refine ⟨ids, parsed, fun id registered => ?_, found.imp_right ?_⟩
  · obtain ⟨clientId, member⟩ := s.redisRing.getClient_mem (key name id)
    exact covered _ (List.mem_map_of_mem (perm.mem_iff.mpr member)) id registered
  · rintro ⟨entry, -, inSet⟩
    exact inv.registered_of_mem inSet

/-- **The search for the last stripe** finds it, whatever the order of the replies. -/
theorem exec_searchLastStripe_iff (inv : s.FileInv c name) {outcome : Option ℤ} :
    Exec (s.searchLastStripe name) c c' outcome ↔
      c' = c ∧ ∃ n, outcome = some n ∧ IsLast s c name n := by
  have readOnly : ∀ order : List (GoString × RedisClient),
      Program.runAll serve (order.map (membersRequest name)) c =
        (c, order.map fun client => (serve (membersRequest name client) c).2) := by
    intro order
    rw [Program.runAll_of_readOnly, List.map_map]
    · rfl
    · intro q member
      obtain ⟨client, -, rfl⟩ := List.mem_map.mp member
      rw [serve_membersRequest inv]
  show Program.Exec serve
    (Program.forkAll (s.redisRing.clients.map (membersRequest name)) >>= _) c c' outcome ↔ _
  rw [Program.exec_forkAll_map_bind_iff]
  constructor
  · rintro ⟨order, perm, rest⟩
    obtain ⟨ids, parsed, last⟩ := inv.isLast_of_replies perm
    rw [readOnly] at rest
    simp only [parsed, Program.pure_eq, Program.exec_ret_iff] at rest
    exact ⟨rest.1, maxId ids, rest.2, last⟩
  · rintro ⟨rfl, n, rfl, last⟩
    obtain ⟨ids, parsed, last'⟩ := inv.isLast_of_replies (.refl s.redisRing.clients)
    refine ⟨_, .refl _, ?_⟩
    rw [readOnly]
    simp only [parsed, Program.pure_eq, Program.exec_ret_iff]
    exact ⟨trivial, by rw [last.unique inv last']⟩

/-! ## The size -/

/-- The end of the last registered stripe is the size. -/
theorem FileInv.isSize_of_isLast (inv : s.FileInv c name) {n : ℤ} (last : IsLast s c name n) :
    IsSize s.stripeSize (s.stripe c name)
      (if n < 0 then 0 else n * s.stripeSize + (s.stripe c name n).length) := by
  have wf := inv.wellFormed
  have registered : ∀ id, s.stripe c name id ≠ [] → id ≤ n :=
    fun id stored => last.le id (inv.registered id stored)
  by_cases empty : n < 0
  · rw [if_pos empty]
    refine WellFormed.isSize_zero fun id => ?_
    by_contra stored
    have := registered id stored
    have := inv.id_nonneg stored
    omega
  · rw [if_neg empty]
    have registeredLast : s.Registered c name n := last.attained.resolve_left (by omega)
    by_cases stored : s.stripe c name n = []
    · -- Only stripe `0` is registered without being stored.
      have zero : n = 0 := (inv.stored_or_zero registeredLast).resolve_left (by simp [stored])
      subst zero
      rw [stored, zero_mul, List.length_nil, Nat.cast_zero, add_zero]
      refine WellFormed.isSize_zero fun id => ?_
      by_contra nonempty
      have upper := registered id nonempty
      have lower := inv.id_nonneg nonempty
      exact nonempty (by rwa [le_antisymm upper lower])
    · exact wf.isSize_of_last stored registered

theorem serve_strlen (inv : s.FileInv c name) (id : ℤ) :
    serve { addr := s.addr name id, body := .single (.strlen (key name id)) } c =
      (c, .server (.int (s.stripe c name id).length)) := by
  apply Prod.ext (serve_readOnly rfl c)
  simp only [serve, Body.exec, exec_strlen (inv.noSet id), readReply]
  rfl

/-- There is a last registered stripe, or none is registered. -/
theorem FileInv.exists_isLast (inv : s.FileInv c name) : ∃ n, IsLast s c name n := by
  obtain ⟨ids, -, last⟩ := inv.isLast_of_replies (.refl s.redisRing.clients)
  exact ⟨maxId ids, last⟩

/-- A file has a size. -/
theorem FileInv.exists_isSize (inv : s.FileInv c name) :
    ∃ n, IsSize s.stripeSize (s.stripe c name) n := by
  obtain ⟨n, last⟩ := inv.exists_isLast
  exact ⟨_, inv.isSize_of_isLast last⟩

/-- **`getSize` returns the size**: the position behind the last stored byte. -/
theorem exec_getSize_iff (inv : s.FileInv c name) {outcome : Option ℤ} :
    Exec (s.getSize name) c c' outcome ↔
      c' = c ∧ ∃ n, outcome = some n ∧ IsSize s.stripeSize (s.stripe c name) n := by
  have afterSearch : ∀ n middle final (result : Option ℤ), IsLast s middle name n →
      s.FileInv middle name →
      (Exec (if n < 0 then return 0
        else do
          let l ← (s.redisRing.getClient (key name n)).strlen (key name n)
          return n * s.stripeSize + l) middle final result ↔
        final = middle ∧ result =
          some (if n < 0 then 0 else n * s.stripeSize + (s.stripe middle name n).length)) := by
    intro n middle final result last inv'
    by_cases empty : n < 0
    · simp only [empty, ite_true, Program.pure_eq, Program.exec_ret_iff]
    · simp only [empty, ite_false]
      rw [Exec, RedisClient.strlen, RedisClient.send, Program.bind_assoc,
        Program.exec_request_bind_iff]
      have replied := serve_strlen inv' n
      rw [addr] at replied
      rw [replied]
      simp only [Program.pure_eq, Program.ret_bind, Program.exec_ret_iff]
  rw [Exec, getSize, Program.exec_bind_iff]
  constructor
  · rintro (⟨n, middle, search, rest⟩ | ⟨search, -⟩)
    · obtain ⟨rfl, n', same, last⟩ := (exec_searchLastStripe_iff inv).mp search
      obtain rfl := Option.some.inj same
      obtain ⟨rfl, rfl⟩ := (afterSearch n _ _ _ last inv).mp rest
      exact ⟨rfl, _, rfl, inv.isSize_of_isLast last⟩
    · obtain ⟨-, n, same, -⟩ := (exec_searchLastStripe_iff inv).mp search
      cases same
  · rintro ⟨rfl, size, rfl, isSize⟩
    obtain ⟨n, last⟩ := inv.exists_isLast
    refine .inl ⟨n, c', (exec_searchLastStripe_iff inv).mpr ⟨rfl, n, rfl, last⟩, ?_⟩
    rw [isSize.unique (inv.isSize_of_isLast last)]
    exact (afterSearch n _ _ _ last inv).mpr ⟨rfl, rfl⟩

/-- If the size is known, so is what `getSize` returns. -/
theorem exec_getSize_of_isSize (inv : s.FileInv c name) {n : ℤ}
    (size : IsSize s.stripeSize (s.stripe c name) n) : Exec (s.getSize name) c c (some n) :=
  (exec_getSize_iff inv).mpr ⟨rfl, n, rfl, size⟩

/-- What `getSize` has returned is the size. -/
theorem isSize_of_exec_getSize (inv : s.FileInv c name) {n : ℤ}
    (sized : Exec (s.getSize name) c c' (some n)) :
    IsSize s.stripeSize (s.stripe c name) n := by
  obtain ⟨-, n', same, size⟩ := (exec_getSize_iff inv).mp sized
  rwa [Option.some.inj same]

/-- The size, computed. -/
theorem exec_getSize_of_run (inv : s.FileInv c name) {n : ℤ}
    (computed : (run (s.getSize name) c).2 = some n) : Exec (s.getSize name) c c (some n) := by
  have performed := Program.exec_run serve (s.getSize name) c
  rw [show (Program.run serve (s.getSize name) c).2 = some n from computed] at performed
  exact exec_getSize_of_isSize inv (isSize_of_exec_getSize inv performed)

end DataStore

end Pdwfs
