import Pdwfs.Concurrency.Histories
import Pdwfs.Redisfs.Requests
import Pdwfs.Redisfs.Reachable

/-!
# The size of a file that is being written

`GetSize` asks the instances one by one for their sets, and then for the length of
one stripe.  Between these requests the stripes of any number of `WriteAt` calls are
stored, in any order.

* `Grows` — from one store to another nothing of the file is taken away.
* `Adds` — the requests of `WriteAt`, and those that are not about the file.  The
  file grows with each of them (`Adds.grows`).
* `getSize_of_trace` — whatever stores in between answer its requests, the size that
  `GetSize` returns is at least that of the first store and at most that of the last
  one.
* `between_of_run` — in a run of clients that write, such stores do answer.

## Bounds from a preorder

There need not be a moment at which the file has the size that is returned.  The
number of the last stripe may come from an early store and its length from a late
one, in which another stripe is the last.  What holds is weaker: each of the two
answers is at least what the first store would have given and at most what the last
one would.

`Grows` is the order in which this is said.  It is a preorder, writes only go up in
it, and both the highest number in the sets and the length of a stripe are monotone.
The rest is arithmetic: an end of a stripe that is registered in the last store and
not before the last one of the first store lies between the two sizes.
-/

namespace Pdwfs

open Concurrency Redis Striping

namespace DataStore

variable {s : DataStore} {c c' c'' : Cluster} {name : GoString}

/-! ## Growing files -/

/-- What is registered stays registered, and no stripe gets shorter. -/
structure Grows (s : DataStore) (name : GoString) (c c' : Cluster) : Prop where
  registered : ∀ a, ∀ m ∈ idsAt c name a, m ∈ idsAt c' name a
  length_le : ∀ id, (s.stripe c name id).length ≤ (s.stripe c' name id).length

theorem Grows.refl (s : DataStore) (name : GoString) (c : Cluster) : s.Grows name c c :=
  ⟨fun _ _ => id, fun _ => le_rfl⟩

theorem Grows.trans (first : s.Grows name c c') (second : s.Grows name c' c'') :
    s.Grows name c c'' where
  registered a m member := second.registered a m (first.registered a m member)
  length_le id := (first.length_le id).trans (second.length_le id)

/-- A request that a `WriteAt` on the file issues, or one that writes no key of the file. -/
inductive Adds (s : DataStore) (name : GoString) : Request → Prop
  | write {piece : StripeInfo} (writable : Writable s piece) :
      Adds s name (s.writeStripe name piece)
  | other {q : Request} (stripes : ∀ id, key name id ∉ q.writes)
      (ids : stripesKey name ∉ q.writes) : Adds s name q

/-- The file grows with such a request: no stripe gets shorter, and no number leaves
a set.  So what is found in a later store is never less. -/
theorem Adds.grows {q : Request} (adds : s.Adds name q) (inv : s.FileInv c name) :
    s.FileInv (serve q c).1 name ∧ s.Grows name c (serve q c).1 := by
  cases adds with
  | write writable =>
      rename_i piece
      have effect := effect_writeStripe inv writable
      refine ⟨inv.writeStripe writable, fun a m member => ?_, fun id => ?_⟩
      · rw [effect.mem_idsAt]
        split
        · rename_i here
          rw [here] at member
          exact .inl member
        · exact member
      · rw [effect.stripe_eq]
        split
        · rename_i here
          subst here
          unfold written
          split
          · exact le_rfl
          · rw [length_setRange]
            exact le_max_left _ _
        · exact le_rfl
  | other stripes ids =>
      have sameStripes : ∀ a id, (serve q c).1 a (key name id) = c a (key name id) :=
        fun a id => serve_of_not_mem_writes (stripes id) c a
      have sameIds : ∀ a, (serve q c).1 a (stripesKey name) = c a (stripesKey name) :=
        fun a => serve_of_not_mem_writes ids c a
      refine ⟨inv.congr sameStripes sameIds, fun a m member => ?_, fun id => ?_⟩
      · rwa [idsAt, membersAt_congr (sameIds a)]
      · rw [stripe, stripe, stringAt_congr (sameStripes _ id)]

/-! ## What `GetSize` sees -/

/-- A store in between answers the request: one that the file has grown to from the
first store, and from which it grows to the last. -/
def AnsweredBetween (s : DataStore) (name : GoString) (c c' : Cluster)
    (entry : Request × ConnReply) : Prop :=
  ∃ d, s.FileInv d name ∧ s.Grows name c d ∧ s.Grows name d c' ∧ (serve entry.1 d).2 = entry.2

/-- The last stripe that is found is not before the last one of the first store, and it is
registered in the last store. -/
theorem last_of_trace (inv' : s.FileInv c' name) {trace : List (Request × ConnReply)}
    {result : Prog ℤ} (performed : Program.Trace (s.searchLastStripe name) trace result)
    (stopped : result.Stopped)
    (answered : ∀ entry ∈ trace, s.AnsweredBetween name c c' entry) :
    ∃ n, result = .ret n ∧ (∀ id, s.Registered c name id → id ≤ n) ∧
      (n = -1 ∨ s.Registered c' name n) := by
  have : Nonempty ConnReply := ⟨.protocolError⟩
  rw [searchLastStripe, Program.forkAll, Program.resume_bind] at performed
  obtain ⟨first, rest, rfl, perm, continued⟩ := performed.of_resume stopped
  have each : ∀ entry ∈ first.map fun entry => (entry.1.addr, entry.2),
      ∃ n, lastIdOf entry.2 = some n ∧ (∀ id, formatInt id ∈ idsAt c name entry.1 → id ≤ n) ∧
        (n = -1 ∨ formatInt n ∈ idsAt c' name entry.1) := by
    intro pair member
    obtain ⟨entry, inFirst, rfl⟩ := List.mem_map.mp member
    obtain ⟨client, -, asked⟩ := List.mem_map.mp
      (perm.mem_iff.mp (List.mem_map_of_mem (f := Prod.fst) inFirst))
    obtain ⟨d, inv, above, below, replied⟩ := answered entry (List.mem_append_left _ inFirst)
    have same : entry.1 = membersRequest name client := asked.symm
    rw [same, serve_membersRequest inv] at replied
    obtain ⟨n, found, le, attained⟩ := inv.lastIdOf_members client.2.addr
    simp only [same, ← replied]
    exact ⟨n, found, fun id inSet => le id (above.registered _ _ inSet),
      attained.imp_right (below.registered _ _)⟩
  obtain ⟨ids, parsed, covered, found⟩ := mapM_lastIdOf each
  have replies : (first.map fun entry => (entry.1.addr, entry.2)).map Prod.snd =
      first.map Prod.snd := by
    rw [List.map_map]
    rfl
  rw [replies] at parsed
  simp only [List.nil_append, parsed, Program.ret_bind, Program.pure_eq] at continued
  refine ⟨maxId ids, continued.of_ret.2, fun id registered => ?_, found.imp_right ?_⟩
  · obtain ⟨clientId, member⟩ := s.redisRing.getClient_mem (key name id)
    have asked : membersRequest name (clientId, s.redisRing.getClient (key name id)) ∈
        first.map Prod.fst := perm.mem_iff.mpr (List.mem_map_of_mem member)
    obtain ⟨entry, inFirst, same⟩ := List.mem_map.mp asked
    have here : entry.1.addr = s.addr name id := by rw [same]; rfl
    apply covered _ (List.mem_map_of_mem inFirst) id
    rw [here]
    exact registered
  · rintro ⟨entry, -, inSet⟩
    exact inv'.registered_of_mem inSet

/-- A size between two others: the highest stripe has been found between two stores. -/
theorem between_of_last {n : ℤ} {len : ℕ} (inv : s.FileInv c name) (inv' : s.FileInv c' name)
    (le : ∀ id, s.Registered c name id → id ≤ n) (registered : s.Registered c' name n)
    (lower : (s.stripe c name n).length ≤ len) (upper : len ≤ (s.stripe c' name n).length)
    {low high : ℤ} (isLow : IsSize s.stripeSize (s.stripe c name) low)
    (isHigh : IsSize s.stripeSize (s.stripe c' name) high) :
    low ≤ n * s.stripeSize + len ∧ n * s.stripeSize + len ≤ high := by
  have nonneg := inv'.nonneg_of_registered registered
  have positive := s.stripeSize_pos
  constructor
  · obtain ⟨last, isLast⟩ := inv.exists_isLast
    rw [isLow.unique (inv.isSize_of_isLast isLast)]
    split
    · have := mul_nonneg nonneg positive.le
      omega
    · have registered' := isLast.attained.resolve_left (by omega)
      rcases (le last registered').lt_or_eq with before | rfl
      · -- A stripe before the one that is found ends where that one begins, at the latest.
        have length := inv.length_le last
        have : (last + 1) * s.stripeSize ≤ n * s.stripeSize :=
          mul_le_mul_of_nonneg_right (by omega) positive.le
        rw [add_mul, one_mul] at this
        omega
      · omega
  · rcases inv'.stored_or_zero registered with stored | rfl
    · have end' := isHigh.stripeEnd_le n stored
      rw [stripeEnd] at end'
      omega
    · by_cases stored : s.stripe c' name 0 = []
      · rw [stored] at upper
        have := isHigh.nonneg inv'.wellFormed
        simp only [List.length_nil] at upper
        omega
      · have end' := isHigh.stripeEnd_le 0 stored
        rw [stripeEnd] at end'
        omega

/-- What `GetSize` returns, when each of its requests is answered by a store in
between.  The two requests may be answered by different ones, and the stripe that
was found to be the last one may have grown since. -/
theorem getSize_of_trace (inv : s.FileInv c name) (inv' : s.FileInv c' name)
    {trace : List (Request × ConnReply)} {result : Prog ℤ}
    (performed : Program.Trace (s.getSize name) trace result) (stopped : result.Stopped)
    (answered : ∀ entry ∈ trace, s.AnsweredBetween name c c' entry)
    {low high : ℤ} (isLow : IsSize s.stripeSize (s.stripe c name) low)
    (isHigh : IsSize s.stripeSize (s.stripe c' name) high) :
    ∃ n, result = .ret n ∧ low ≤ n ∧ n ≤ high := by
  have : Nonempty ConnReply := ⟨.protocolError⟩
  rcases performed.of_bind stopped with
    ⟨ilast, first, rest, rfl, search, continued⟩ | ⟨aborted, -⟩
  rotate_left
  · -- The search does not abort.
    obtain ⟨n, same, -⟩ := last_of_trace inv' aborted Program.stopped_panic answered
    cases same
  obtain ⟨ilast', same, le, found⟩ := last_of_trace inv' search (Program.stopped_ret ilast)
    fun entry member => answered entry (List.mem_append_left _ member)
  obtain rfl := Program.ret.inj same
  by_cases none : ilast < 0
  · -- Nothing was registered in the first store.
    simp only [none, ite_true, Program.pure_eq] at continued
    refine ⟨0, continued.of_ret.2, ?_, isHigh.nonneg inv'.wellFormed⟩
    obtain ⟨last, isLast⟩ := inv.exists_isLast
    have before : last < 0 := by
      rcases isLast.attained with rfl | registered
      · decide
      · exact (le last registered).trans_lt none
    rw [isLow.unique (inv.isSize_of_isLast isLast), if_pos before]
  · simp only [none, ite_false] at continued
    rw [RedisClient.strlen, RedisClient.send, Program.bind_assoc] at continued
    obtain ⟨reply, rest, rfl, done⟩ := continued.of_request_bind stopped
    obtain ⟨d, invD, above, below, replied⟩ := answered _
      (List.mem_append_right _ List.mem_cons_self)
    have strlen := serve_strlen invD ilast
    rw [addr] at strlen
    rw [strlen] at replied
    subst replied
    simp only [Program.pure_eq, Program.ret_bind] at done
    exact ⟨_, done.of_ret.2, between_of_last inv inv' le (found.resolve_left (by omega))
      (above.length_le ilast) (below.length_le ilast) isLow isHigh⟩

/-! ## Runs -/

/-- In a run of clients that write, the file keeps its invariant, and each request is answered by
a store between the first one and the last one. -/
theorem between_of_run {ι : Type} [DecidableEq ι] {α : Type}
    {start final : Pool ι Request ConnReply α Cluster} {labels : List (ι × Request × ConnReply)}
    (inv : s.FileInv start.store name)
    (writing : ∀ j, Program.Issues (s.Adds name) (start.threads j))
    (run : Pool.Run serve start labels final) :
    s.FileInv final.store name ∧
      ∀ label ∈ labels, s.AnsweredBetween name start.store final.store label.2 := by
  have issues : ∀ j, Program.Issues
      (fun q => ∀ d, s.FileInv d name → s.FileInv (serve q d).1 name ∧ s.Grows name d (serve q d).1)
      (start.threads j) :=
    fun j => (writing j).mono fun q adds d inv => adds.grows inv
  obtain ⟨inv', -, between⟩ := run.answered_between (Grows.refl s name) Grows.trans issues inv
  exact ⟨inv', between⟩

end DataStore

end Pdwfs
