import Pdwfs.Redisfs.Observations
import Pdwfs.Redisfs.Resizes

/-!
# What the operations of an open file do

* `HasBytes` — the content of a file as one sequence of bytes.
* `Puts` — what one write makes of a file, and what writes behind each other do
  together.
* `Delivers` — what one read returns.
* `MemFile.exec_readAt`, …, `MemFile.exec_seek` — one lemma for each operation of an
  open file: when it panics, and what it returns otherwise.

## A file as a sequence of bytes

Stripes end here.  Whoever uses a file from here on knows its size, and the byte at
each position, where one that is not stored is zero (`HasBytes`).  `Puts` and
`Delivers` are the two things that can happen to it, and both are relations, so that
an operation on several buffers is described by the same relation as one on a single
buffer: writes that follow each other are one write (`Puts.append`), and reads that
follow each other are a `DeliversVec`.

`Delivers` still knows about gaps and about reads that touch more than 100 stripes,
since both show in what is returned.  Where there are neither,
`Delivers.eq_of_noGap` says what one expects.

## All operations at once

`File.performs_of_exec` says what any operation of a handle has done when it
returns: it has read somewhere, written somewhere, changed the size, or done nothing
to the file.  A statement about all sequences of operations is proved from it by
four cases, and not by ten; `File.readsAt` and `File.writesAt` tell where the
operation reads or writes.
-/

namespace Pdwfs

open Concurrency Redis Striping

namespace DataStore

variable {s : DataStore} {c c' c'' : Cluster} {name : GoString} {off : ℤ}

/-! ## The content of a file -/

/-- The bytes of a file; one that is not stored counts as zero.  The length of the
sequence is the size. -/
structure HasBytes (s : DataStore) (c : Cluster) (name : GoString) (bytes : List UInt8) :
    Prop where
  isSize : IsSize s.stripeSize (s.stripe c name) bytes.length
  content : ∀ i < bytes.length, s.content c name i = bytes.getD i 0

/-- Every file has a sequence of bytes. -/
theorem FileInv.exists_hasBytes (inv : s.FileInv c name) : ∃ bytes, s.HasBytes c name bytes := by
  obtain ⟨n, isSize⟩ := inv.exists_isSize
  have nonneg := isSize.nonneg inv.wellFormed
  refine ⟨(List.range n.toNat).map fun i : ℕ => s.content c name i, ?_, fun i inside => ?_⟩
  · rwa [List.length_map, List.length_range, Int.toNat_of_nonneg nonneg]
  · rw [List.length_map, List.length_range] at inside
    rw [List.getD_eq_getElem?_getD, List.getElem?_map, List.getElem?_range inside]
    rfl

/-- It has only one. -/
theorem HasBytes.unique {bytes bytes' : List UInt8} (has : s.HasBytes c name bytes)
    (has' : s.HasBytes c name bytes') : bytes = bytes' := by
  have length : bytes.length = bytes'.length := by
    exact_mod_cast has.isSize.unique has'.isSize
  refine List.ext_getElem length fun i inside inside' => ?_
  have one := has.content i inside
  have two := has'.content i inside'
  rw [List.getD_eq_getElem _ _ inside] at one
  rw [List.getD_eq_getElem _ _ inside'] at two
  rw [← one, ← two]

/-! ## Writes -/

/-- The file in `c'` is the one in `c` with `data` written at `off`. -/
structure Puts (s : DataStore) (c c' : Cluster) (name : GoString) (off : ℤ)
    (data : List UInt8) : Prop where
  inv : s.FileInv c' name
  inside : ∀ p, off ≤ p → p < off + data.length →
    s.content c' name p = data.getD (p - off).toNat 0
  outside : ∀ p, ¬(off ≤ p ∧ p < off + data.length) → s.content c' name p = s.content c name p
  size : ∀ n, IsSize s.stripeSize (s.stripe c name) n →
    IsSize s.stripeSize (s.stripe c' name) (if data = [] then n else max n (off + data.length))

/-- **One write.** -/
theorem puts_of_exec_writeAt (inv : s.FileInv c name) (nonneg : 0 ≤ off) {data : List UInt8}
    {outcome : Option Unit} (performed : Exec (s.writeAt name off data) c c' outcome) :
    outcome = some () ∧ s.Puts c c' name off data := by
  obtain ⟨returned, inv', overlay⟩ := exec_writeAt inv nonneg performed
  refine ⟨returned, inv', overlay.inside (), fun p outside => overlay.outside p fun _ => outside,
    fun n isSize => ?_⟩
  obtain ⟨n', isSize', greatest⟩ := overlay.size n isSize
  by_cases empty : data = []
  · rw [if_pos empty]
    rcases greatest.1 with same | ⟨-, nonempty, -⟩
    · rwa [← same]
    · exact absurd empty nonempty
  · rw [if_neg empty]
    have above := greatest.2 (Set.mem_insert _ _)
    have reached := greatest.2 (Set.mem_insert_of_mem n ⟨(), empty, rfl⟩)
    have same : n' = max n (off + data.length) := by
      rcases greatest.1 with same | ⟨-, -, same⟩
      · rw [same, max_eq_left (same ▸ reached)]
      · rw [same, max_eq_right (same ▸ above)]
    rwa [← same]

namespace Puts

variable {first rest data : List UInt8}

/-- A write without data does nothing. -/
theorem nil (inv : s.FileInv c name) (off : ℤ) : s.Puts c c name off [] :=
  ⟨inv, fun p lower upper => absurd upper (by simpa using lower), fun _ _ => rfl, fun _ => id⟩

/-- A write behind another one. -/
theorem append (one : s.Puts c c' name off first)
    (two : s.Puts c' c'' name (off + first.length) rest) :
    s.Puts c c'' name off (first ++ rest) where
  inv := two.inv
  inside p lower upper := by
    rw [List.length_append] at upper
    push_cast at upper
    by_cases later : off + first.length ≤ p
    · rw [two.inside p later (by omega), List.getD_append_right _ _ _ _ (by omega)]
      congr 1
      omega
    · rw [two.outside p (by omega), one.inside p lower (by omega),
        List.getD_append _ _ _ _ (by omega)]
  outside p beside := by
    rw [List.length_append] at beside
    push_cast at beside
    rw [two.outside p (by omega), one.outside p (by omega)]
  size n isSize := by
    have final := two.size _ (one.size n isSize)
    by_cases none : first = []
    · subst none
      simpa using final
    · by_cases last : rest = []
      · subst last
        simpa using final
      · have positive : 0 < rest.length := List.length_pos_iff.mpr last
        rw [if_neg last, if_neg none, max_assoc, max_eq_right (a := off + _) (by omega)] at final
        rw [if_neg (by simp [none]), List.length_append]
        push_cast
        rwa [← add_assoc]

/-- **A write at the end** appends to the file. -/
theorem hasBytes_append {bytes : List UInt8} (puts : s.Puts c c' name bytes.length data)
    (has : s.HasBytes c name bytes) : s.HasBytes c' name (bytes ++ data) where
  isSize := by
    have size := puts.size _ has.isSize
    by_cases empty : data = []
    · simpa [empty] using size
    · rw [if_neg empty, max_eq_right (by omega)] at size
      rw [List.length_append]
      exact_mod_cast size
  content i inside := by
    rw [List.length_append] at inside
    by_cases old : i < bytes.length
    · rw [puts.outside i (by omega), has.content i old, List.getD_append _ _ _ _ old]
    · rw [puts.inside i (by omega) (by omega), List.getD_append_right _ _ _ _ (by omega)]
      congr 1
      omega

/-- A write of the bytes that are there changes nothing. -/
theorem hasBytes_same {bytes : List UInt8} (puts : s.Puts c c' name off data)
    (has : s.HasBytes c name bytes) (there : ∀ i < data.length,
      0 ≤ off ∧ off + i < bytes.length ∧ bytes.getD (off + i).toNat 0 = data.getD i 0) :
    s.HasBytes c' name bytes where
  isSize := by
    have size := puts.size _ has.isSize
    by_cases empty : data = []
    · simpa [empty] using size
    · have positive : 0 < data.length := List.length_pos_iff.mpr empty
      have last := (there (data.length - 1) (by omega)).2.1
      rwa [if_neg empty, max_eq_left (by omega)] at size
  content i inside := by
    by_cases within : off ≤ i ∧ (i : ℤ) < off + data.length
    · obtain ⟨nonneg, -, same⟩ := there (i - off).toNat (by omega)
      rw [puts.inside i within.1 within.2, ← same]
      congr 1
      omega
    · rw [puts.outside i within, has.content i inside]

end Puts

/-! ## Reads -/

/-- What a read at `off` into `dst` returns: the stored bytes of the range in their places, a
number, and the end of the file if that is less than there is room for. -/
structure Delivers (s : DataStore) (c : Cluster) (name : GoString) (off : ℤ) (dst : List UInt8)
    (result : MemFile.ReadResult) : Prop where
  filled : Filled s c name off dst result.2.1
  count : ∃ zeros : ℕ, (zeros = 0 ↔ touchedStripes s.stripeSize off dst.length ≤ 100) ∧
    result.1 = (s.storedCount c name off dst + zeros * (s.stripe c name 0).length : ℕ)
  err : result.2.2 = if result.1 < dst.length then some .eof else none

namespace Delivers

variable {dst : List UInt8} {result : MemFile.ReadResult}

theorem nonneg (delivers : s.Delivers c name off dst result) : 0 ≤ result.1 := by
  obtain ⟨zeros, -, same⟩ := delivers.count
  rw [same]
  exact Int.natCast_nonneg _

/-- A read of at most 100 stripes counts the bytes that it has delivered. -/
theorem count_of_few (delivers : s.Delivers c name off dst result)
    (few : touchedStripes s.stripeSize off dst.length ≤ 100) :
    result.1 = s.storedCount c name off dst := by
  obtain ⟨zeros, none, same⟩ := delivers.count
  rw [same, none.mpr few, zero_mul, add_zero]

/-- Nothing is delivered where nothing is stored. -/
theorem buffer_eq (delivers : s.Delivers c name off dst result)
    (nothing : ∀ i < dst.length, ¬s.Stores c name (off + i)) : result.2.1 = dst := by
  refine List.ext_getElem? fun i => ?_
  by_cases inside : i < dst.length
  · exact delivers.filled.missing i inside (nothing i inside)
  · rw [List.getElem?_eq_none (by rw [delivers.filled.length_eq]; omega),
      List.getElem?_eq_none (by omega)]

/-- Nothing is counted in a file without content. -/
theorem count_eq_zero (delivers : s.Delivers c name off dst result)
    (empty : ∀ id, s.stripe c name id = []) : result.1 = 0 := by
  obtain ⟨zeros, -, same⟩ := delivers.count
  have nothing : s.storedCount c name off dst = 0 := by
    rw [storedCount, Nat.count_iff_forall_not]
    intro i _ stored
    rw [Stores, Stored, empty] at stored
    simp at stored
  rw [same, nothing, empty]
  simp

/-- Where there is no gap, a read counts and copies the next bytes of the file. -/
theorem eq_of_noGap {bytes : List UInt8} {n : ℤ} {dst' : List UInt8} {err : Option FileError}
    (delivers : s.Delivers c name off dst (n, dst', err)) (inv : s.FileInv c name)
    (has : s.HasBytes c name bytes) (nonneg : 0 ≤ off)
    (noGap : ∀ i < bytes.length, s.Stores c name i)
    (few : touchedStripes s.stripeSize off dst.length ≤ 100) :
    n = ((bytes.drop off.toNat).take dst.length).length ∧
      dst' = (bytes.drop off.toNat).take dst.length ++
        dst.drop ((bytes.drop off.toNat).take dst.length).length := by
  have length : ((bytes.drop off.toNat).take dst.length).length =
      min dst.length (bytes.length - off.toNat) := by simp
  have count :
      (s.storedCount c name off dst : ℤ) = min (dst.length : ℤ) (max 0 (bytes.length - off)) :=
    (storedCount_eq_iff inv has.isSize).mpr fun q lower _ below => by
      have stored := noGap q.toNat (by omega)
      rwa [show ((q.toNat : ℕ) : ℤ) = q by omega] at stored
  refine ⟨?_, ?_⟩
  · rw [show n = s.storedCount c name off dst from delivers.count_of_few few, count, length]
    omega
  · set next := (bytes.drop off.toNat).take dst.length with nextEq
    have filled := delivers.filled
    simp only at filled
    refine List.ext_getElem? fun i => ?_
    by_cases inside : i < next.length
    · have stored := noGap (off.toNat + i) (by omega)
      have value := has.content (off.toNat + i) (by omega)
      rw [show ((off.toNat + i : ℕ) : ℤ) = off + i by omega] at stored value
      rw [filled.stored i (by omega) stored, List.getElem?_append_left inside, nextEq,
        List.getElem?_take_of_lt (by omega), List.getElem?_drop, value,
        List.getD_eq_getElem?_getD, List.getElem?_eq_getElem (by omega), Option.getD_some]
    · rw [List.getElem?_append_right (by omega), List.getElem?_drop,
        show next.length + (i - next.length) = i by omega]
      by_cases room : i < dst.length
      · refine filled.missing i room fun stored => ?_
        have := has.isSize.lt_of_stored inv.wellFormed stored
        omega
      · rw [List.getElem?_eq_none (by rw [filled.length_eq]; omega),
          List.getElem?_eq_none (by omega)]

end Delivers

/-- What reads into several buffers return together: each starts where the one before it has
ended, and the first that is not filled is the last one. -/
inductive DeliversVec (s : DataStore) (c : Cluster) (name : GoString) :
    ℤ → List (List UInt8) → ℤ → List (List UInt8) → Option FileError → Prop
  | nil (off : ℤ) : DeliversVec s c name off [] 0 [] none
  | stop {off n : ℤ} {dst dst' : List UInt8} (rest : List (List UInt8))
      (delivers : s.Delivers c name off dst (n, dst', some .eof)) :
      DeliversVec s c name off (dst :: rest) n (dst' :: rest) (some .eof)
  | next {off n m : ℤ} {dst dst' : List UInt8} {rest rest' : List (List UInt8)}
      {err : Option FileError} (delivers : s.Delivers c name off dst (n, dst', none))
      (others : DeliversVec s c name (off + n) rest m rest' err) :
      DeliversVec s c name off (dst :: rest) (n + m) (dst' :: rest') err

namespace DeliversVec

variable {dstv dstv' : List (List UInt8)} {n : ℤ} {err : Option FileError}

theorem nonneg (delivers : s.DeliversVec c name off dstv n dstv' err) : 0 ≤ n := by
  induction delivers with
  | nil off => exact le_rfl
  | stop rest delivers => exact delivers.nonneg
  | next delivers others ih => exact add_nonneg delivers.nonneg ih

/-- The end of the file is reported exactly if not all of the room has been used. -/
theorem err_eq (delivers : s.DeliversVec c name off dstv n dstv' err) :
    err = none ∨ err = some .eof := by
  induction delivers with
  | nil off => exact .inl rfl
  | stop rest delivers => exact .inr rfl
  | next delivers others ih => exact ih

/-- One buffer. -/
theorem of_delivers {dst : List UInt8} {result : MemFile.ReadResult}
    (delivers : s.Delivers c name off dst result) :
    s.DeliversVec c name off [dst] result.1 [result.2.1] result.2.2 := by
  obtain ⟨n, dst', err⟩ := result
  have ended := delivers.err
  simp only at ended
  by_cases short : n < dst.length
  · rw [if_pos short] at ended
    subst ended
    exact .stop [] delivers
  · rw [if_neg short] at ended
    subst ended
    simpa using DeliversVec.next delivers (.nil (off + n))

/-- Nothing is delivered where nothing is stored. -/
theorem buffers_eq (delivers : s.DeliversVec c name off dstv n dstv' err)
    (nothing : ∀ p, off ≤ p → ¬s.Stores c name p) : dstv' = dstv := by
  induction delivers with
  | nil off => rfl
  | stop rest delivers =>
      have same := delivers.buffer_eq fun i _ => nothing _ (by omega)
      simp only at same
      rw [same]
  | next delivers others ih =>
      have nonneg := delivers.nonneg
      have same := delivers.buffer_eq fun i _ => nothing _ (by omega)
      simp only at nonneg same
      rw [same, ih fun p lower => nothing p (by omega)]

/-- Nothing is counted in a file without content. -/
theorem count_eq_zero (delivers : s.DeliversVec c name off dstv n dstv' err)
    (empty : ∀ id, s.stripe c name id = []) : n = 0 := by
  induction delivers with
  | nil off => rfl
  | stop rest delivers => exact delivers.count_eq_zero empty
  | next delivers others ih =>
      have zero := delivers.count_eq_zero empty
      simp only at zero
      rw [ih, zero, add_zero]

end DeliversVec

end DataStore

/-! ## The operations of an open file -/

namespace MemFile

variable {f : MemFile} {c c' : Cluster} {off : ℤ}

/-- A read panics at a negative offset, and at no other. -/
theorem exec_readAt (inv : f.store.FileInv c f.path) {dst : List UInt8}
    {outcome : Option ReadResult} (performed : Exec (f.readAt dst off) c c' outcome) :
    c' = c ∧ (off < 0 ∧ outcome = none ∨
      0 ≤ off ∧ ∃ result, outcome = some result ∧ f.store.Delivers c f.path off dst result) := by
  by_cases nonneg : 0 ≤ off
  · obtain ⟨n, dst', read, rfl⟩ := DataStore.exec_memFile_readAt (s := f.store) inv nonneg performed
    obtain ⟨zeros, few, reads⟩ := DataStore.exec_readAt f.store f.path nonneg dst
    obtain ⟨rfl, dst'', same, filled⟩ := reads inv read
    obtain ⟨rfl, rfl⟩ := Prod.mk.inj (Option.some.inj same)
    exact ⟨rfl, .inr ⟨nonneg, _, rfl, filled, ⟨zeros, few, rfl⟩, rfl⟩⟩
  · rw [readAt, if_pos (by omega)] at performed
    obtain ⟨rfl, rfl⟩ := Program.exec_panic_iff.mp performed
    exact ⟨rfl, .inl ⟨by omega, rfl⟩⟩

/-- Reads into several buffers: the offset grows, so only the first one can panic. -/
theorem exec_readVecAt (inv : f.store.FileInv c f.path) {dstv : List (List UInt8)}
    {outcome : Option (ℤ × List (List UInt8) × Option FileError)}
    (performed : Exec (f.readVecAt dstv off) c c' outcome) :
    c' = c ∧ (off < 0 ∧ dstv ≠ [] ∧ outcome = none ∨ (0 ≤ off ∨ dstv = []) ∧
      ∃ n dstv' err, outcome = some (n, dstv', err) ∧
        f.store.DeliversVec c f.path off dstv n dstv' err) := by
  induction dstv generalizing off outcome c c' with
  | nil =>
      obtain ⟨rfl, rfl⟩ := Program.exec_ret_iff.mp performed
      exact ⟨rfl, .inr ⟨.inr rfl, _, _, _, rfl, .nil off⟩⟩
  | cons dst rest ih =>
      rw [readVecAt] at performed
      rcases Program.exec_bind_iff.mp performed with
        ⟨⟨n, dst', err⟩, middle, first, last⟩ | ⟨aborted, rfl⟩
      · obtain ⟨rfl, ⟨-, impossible⟩ | ⟨nonneg, result, same, delivers⟩⟩ := exec_readAt inv first
        · simp at impossible
        obtain rfl := Option.some.inj same
        have ended := delivers.err
        simp only at ended last
        split at ended
        · subst ended
          obtain ⟨rfl, rfl⟩ := Program.exec_ret_iff.mp last
          exact ⟨rfl, .inr ⟨.inl nonneg, _, _, _, rfl, .stop rest delivers⟩⟩
        · subst ended
          have further : 0 ≤ off + n := add_nonneg nonneg delivers.nonneg
          rcases Program.exec_bind_iff.mp last with
            ⟨⟨m, rest', err⟩, middle', later, done⟩ | ⟨aborted, rfl⟩
          · obtain ⟨rfl, ⟨-, -, impossible⟩ | ⟨-, m', rest'', err', same, others⟩⟩ := ih inv later
            · simp at impossible
            obtain ⟨rfl, rfl⟩ := Program.exec_ret_iff.mp done
            obtain ⟨rfl, rfl, rfl⟩ := by simpa using same
            exact ⟨rfl, .inr ⟨.inl nonneg, _, _, _, rfl, .next delivers others⟩⟩
          · obtain ⟨-, ⟨negative, -⟩ | ⟨-, _, _, _, impossible, -⟩⟩ := ih inv aborted
            · omega
            · simp at impossible
      · obtain ⟨rfl, ⟨negative, -⟩ | ⟨-, result, impossible, -⟩⟩ := exec_readAt inv aborted
        · exact ⟨rfl, .inl ⟨negative, by simp, rfl⟩⟩
        · simp at impossible

/-- A write panics at a negative offset, and at no other. -/
theorem exec_writeAt (inv : f.store.FileInv c f.path) {data : List UInt8} {outcome : Option ℤ}
    (performed : Exec (f.writeAt data off) c c' outcome) :
    off < 0 ∧ c' = c ∧ outcome = none ∨
      0 ≤ off ∧ outcome = some (data.length : ℤ) ∧ f.store.Puts c c' f.path off data := by
  by_cases nonneg : 0 ≤ off
  · rw [writeAt, if_neg (by omega)] at performed
    rcases Program.exec_bind_iff.mp performed with ⟨_, middle, wrote, done⟩ | ⟨aborted, -⟩
    · obtain ⟨-, puts⟩ := DataStore.puts_of_exec_writeAt inv nonneg wrote
      obtain ⟨rfl, rfl⟩ := Program.exec_ret_iff.mp done
      exact .inr ⟨nonneg, rfl, puts⟩
    · have returned := (DataStore.puts_of_exec_writeAt inv nonneg aborted).1
      simp at returned
  · rw [writeAt, if_pos (by omega)] at performed
    obtain ⟨rfl, rfl⟩ := Program.exec_panic_iff.mp performed
    exact .inl ⟨by omega, rfl, rfl⟩

/-- Writes of several buffers are one write of all their bytes. -/
theorem exec_writeVecAt (inv : f.store.FileInv c f.path) {datav : List (List UInt8)}
    {outcome : Option ℤ} (performed : Exec (f.writeVecAt datav off) c c' outcome) :
    off < 0 ∧ datav ≠ [] ∧ c' = c ∧ outcome = none ∨
      (0 ≤ off ∨ datav = []) ∧ outcome = some (datav.flatten.length : ℤ) ∧
        f.store.Puts c c' f.path off datav.flatten := by
  induction datav generalizing off outcome c c' with
  | nil =>
      obtain ⟨rfl, rfl⟩ := Program.exec_ret_iff.mp performed
      exact .inr ⟨.inr rfl, rfl, .nil inv off⟩
  | cons data rest ih =>
      rw [writeVecAt] at performed
      rcases Program.exec_bind_iff.mp performed with ⟨wrote, middle, first, last⟩ | ⟨aborted, rfl⟩
      · rcases exec_writeAt inv first with ⟨-, -, impossible⟩ | ⟨nonneg, same, puts⟩
        · simp at impossible
        obtain rfl := Option.some.inj same
        rcases Program.exec_bind_iff.mp last with ⟨n, middle', later, done⟩ | ⟨aborted, rfl⟩
        · rcases ih puts.inv later with ⟨-, -, -, impossible⟩ | ⟨-, same, others⟩
          · simp at impossible
          obtain rfl := Option.some.inj same
          obtain ⟨rfl, rfl⟩ := Program.exec_ret_iff.mp done
          refine .inr ⟨.inl nonneg, ?_, puts.append others⟩
          rw [List.flatten_cons, List.length_append]
          push_cast
          rfl
        · rcases ih puts.inv aborted with ⟨negative, -⟩ | ⟨-, impossible, -⟩
          · omega
          · simp at impossible
      · rcases exec_writeAt inv aborted with ⟨negative, rfl, -⟩ | ⟨-, impossible, -⟩
        · exact .inl ⟨negative, by simp, rfl, rfl⟩
        · simp at impossible

/-- What a write covers is stored, and what has been stored is kept. -/
theorem stores_of_exec_writeAt (inv : f.store.FileInv c f.path) {data : List UInt8} {n p : ℤ}
    (performed : Exec (f.writeAt data off) c c' (some n))
    (there : f.store.Stores c f.path p ∨ off ≤ p ∧ p < off + data.length) :
    f.store.Stores c' f.path p := by
  by_cases nonneg : 0 ≤ off
  · rw [writeAt, if_neg (by omega)] at performed
    obtain ⟨done, wrote, -⟩ := Program.exec_bind_ret_iff.mp performed
    exact DataStore.stores_of_exec_writeAt inv nonneg wrote there
  · rw [writeAt, if_pos (by omega)] at performed
    exact absurd performed Program.not_exec_panic_some

/-- What has been written is stored, and what has been stored stays so.  Each buffer
is written where the one before it ends. -/
theorem stores_of_exec_writeVecAt (inv : f.store.FileInv c f.path) {datav : List (List UInt8)}
    {n p : ℤ} (performed : Exec (f.writeVecAt datav off) c c' (some n))
    (there : f.store.Stores c f.path p ∨ off ≤ p ∧ p < off + datav.flatten.length) :
    f.store.Stores c' f.path p := by
  induction datav generalizing off c n with
  | nil =>
      obtain ⟨rfl, -⟩ := Program.exec_ret_iff.mp performed
      refine there.resolve_right fun ⟨lower, upper⟩ => ?_
      simp only [List.flatten_nil, List.length_nil] at upper
      omega
  | cons data rest ih =>
      rw [List.flatten_cons, List.length_append] at there
      push_cast at there
      rw [writeVecAt] at performed
      obtain ⟨wrote, middle, first, last⟩ := Program.exec_bind_some_iff.mp performed
      obtain ⟨m, middle', later, done⟩ := Program.exec_bind_some_iff.mp last
      obtain ⟨rfl, -⟩ := Program.exec_ret_iff.mp done
      rcases exec_writeAt inv first with ⟨-, -, impossible⟩ | ⟨-, same, puts⟩
      · simp at impossible
      obtain rfl := Option.some.inj same
      apply ih puts.inv later
      by_cases behind : off + data.length ≤ p
      · rcases there with old | ⟨-, upper⟩
        · exact .inl (stores_of_exec_writeAt inv first (.inl old))
        · exact .inr ⟨behind, by omega⟩
      · refine .inl (stores_of_exec_writeAt inv first (there.imp_right fun ⟨lower, _⟩ => ?_))
        exact ⟨lower, by omega⟩

/-- A read at the offset of the handle. -/
theorem exec_read (inv : f.store.FileInv c f.path) {dst : List UInt8}
    {outcome : Option (MemFile × ReadResult)} (performed : Exec (f.read dst) c c' outcome) :
    c' = c ∧ (f.offset < 0 ∧ outcome = none ∨ 0 ≤ f.offset ∧ ∃ result,
      outcome = some ({ f with offset := f.offset + result.1 }, result) ∧
        f.store.Delivers c f.path f.offset dst result) := by
  obtain ⟨answer, reading, rfl⟩ := Program.exec_bind_ret_iff.mp performed
  obtain ⟨rfl, ⟨negative, rfl⟩ | ⟨nonneg, result, rfl, delivers⟩⟩ := exec_readAt inv reading
  · exact ⟨rfl, .inl ⟨negative, rfl⟩⟩
  · exact ⟨rfl, .inr ⟨nonneg, result, rfl, delivers⟩⟩

/-- A read at the offset of the handle is one at this offset, and moves the handle
by what has been counted. -/
theorem exec_readVec (inv : f.store.FileInv c f.path) {dstv : List (List UInt8)}
    {outcome : Option (MemFile × ℤ × List (List UInt8) × Option FileError)}
    (performed : Exec (f.readVec dstv) c c' outcome) :
    c' = c ∧ (f.offset < 0 ∧ dstv ≠ [] ∧ outcome = none ∨ (0 ≤ f.offset ∨ dstv = []) ∧
      ∃ n dstv' err, outcome = some ({ f with offset := f.offset + n }, n, dstv', err) ∧
        f.store.DeliversVec c f.path f.offset dstv n dstv' err) := by
  obtain ⟨answer, reading, rfl⟩ := Program.exec_bind_ret_iff.mp performed
  obtain ⟨rfl, ⟨negative, some, rfl⟩ | ⟨nonneg, n, dstv', err, rfl, delivers⟩⟩ :=
    exec_readVecAt inv reading
  · exact ⟨rfl, .inl ⟨negative, some, rfl⟩⟩
  · exact ⟨rfl, .inr ⟨nonneg, n, dstv', err, rfl, delivers⟩⟩

/-- A write at the offset of the handle. -/
theorem exec_write (inv : f.store.FileInv c f.path) {data : List UInt8}
    {outcome : Option (MemFile × ℤ)} (performed : Exec (f.write data) c c' outcome) :
    f.offset < 0 ∧ c' = c ∧ outcome = none ∨
      0 ≤ f.offset ∧
        outcome = some ({ f with offset := f.offset + data.length }, (data.length : ℤ)) ∧
        f.store.Puts c c' f.path f.offset data := by
  obtain ⟨answer, writing, rfl⟩ := Program.exec_bind_ret_iff.mp performed
  rcases exec_writeAt inv writing with ⟨negative, rfl, rfl⟩ | ⟨nonneg, rfl, puts⟩
  · exact .inl ⟨negative, rfl, rfl⟩
  · exact .inr ⟨nonneg, rfl, puts⟩

/-- A write at the offset of the handle moves it by the length of the buffers, since
all of them are written. -/
theorem exec_writeVec (inv : f.store.FileInv c f.path) {datav : List (List UInt8)}
    {outcome : Option (MemFile × ℤ)} (performed : Exec (f.writeVec datav) c c' outcome) :
    f.offset < 0 ∧ datav ≠ [] ∧ c' = c ∧ outcome = none ∨
      (0 ≤ f.offset ∨ datav = []) ∧ outcome =
        some ({ f with offset := f.offset + datav.flatten.length }, (datav.flatten.length : ℤ)) ∧
        f.store.Puts c c' f.path f.offset datav.flatten := by
  obtain ⟨answer, writing, rfl⟩ := Program.exec_bind_ret_iff.mp performed
  rcases exec_writeVecAt inv writing with ⟨negative, some, rfl, rfl⟩ | ⟨nonneg, rfl, puts⟩
  · exact .inl ⟨negative, some, rfl, rfl⟩
  · exact .inr ⟨nonneg, rfl, puts⟩

/-- The offset that a `seek` asks for in a file of `size` bytes. -/
def seekTo (f : MemFile) (size off : ℤ) : Whence → Option ℤ
  | .seekSet => some off
  | .seekCur => some (f.offset + off)
  | .seekEnd => some (size + off)
  | .other => none

/-- A `seek` never panics. -/
theorem exec_seek (inv : f.store.FileInv c f.path) {size : ℤ}
    (isSize : IsSize f.store.stripeSize (f.store.stripe c f.path) size) {whence : Whence}
    {outcome : Option (MemFile × ℤ × Option FileError)}
    (performed : Exec (f.seek off whence) c c' outcome) :
    c' = c ∧ outcome = some (match f.seekTo size off whence with
      | none => (f, 0, some .invalidSeekWhence)
      | some abs =>
          if abs < 0 then (f, 0, some .negativeSeekLocation)
          else ({ f with offset := abs }, abs, none)) := by
  have target : ∀ {c' : Cluster} {outcome : Option (Option ℤ)},
      Exec (f.seekTarget off whence) c c' outcome →
        c' = c ∧ outcome = some (f.seekTo size off whence) := by
    intro c' outcome asked
    cases whence with
    | seekEnd =>
        rcases Program.exec_bind_iff.mp asked with ⟨n, middle, sized, done⟩ | ⟨aborted, -⟩
        · obtain ⟨rfl, n', same, isSize'⟩ := (DataStore.exec_getSize_iff inv).mp sized
          obtain rfl := Option.some.inj same
          obtain ⟨rfl, rfl⟩ := Program.exec_ret_iff.mp done
          exact ⟨rfl, by rw [isSize'.unique isSize]; rfl⟩
        · obtain ⟨-, n', impossible, -⟩ := (DataStore.exec_getSize_iff inv).mp aborted
          simp at impossible
    | _ => exact Program.exec_ret_iff.mp asked
  rcases Program.exec_bind_iff.mp performed with ⟨abs, middle, asked, done⟩ | ⟨aborted, -⟩
  · obtain ⟨rfl, same⟩ := target asked
    rw [Option.some.inj same] at done
    cases target : f.seekTo size off whence with
    | none =>
        rw [target] at done
        exact Program.exec_ret_iff.mp done
    | some abs =>
        rw [target] at done
        simp only at done ⊢
        split at done
        · rw [if_pos ‹_›]
          exact Program.exec_ret_iff.mp done
        · rw [if_neg ‹_›]
          exact Program.exec_ret_iff.mp done
  · have impossible := (target aborted).2
    simp at impossible

/-- To change the size never panics, and it does nothing when the size is the same. -/
theorem exec_truncate (inv : f.store.FileInv c f.path) {old : ℤ}
    (isSize : IsSize f.store.stripeSize (f.store.stripe c f.path) old) {size : ℤ}
    {outcome : Option (Option FileError)} (performed : Exec (f.truncate size) c c' outcome) :
    size < 0 ∧ c' = c ∧ outcome = some (some .negativeTruncateSize) ∨
      0 ≤ size ∧ outcome = some none ∧ f.store.FileInv c' f.path ∧ (size = old → c' = c) := by
  by_cases nonneg : 0 ≤ size
  · rw [truncate, if_neg (by omega)] at performed
    have returned : ∀ {c' : Cluster} {outcome : Option Unit},
        Exec (f.store.resize f.path size) c c' outcome →
          outcome = some () ∧ f.store.FileInv c' f.path ∧ (size = old → c' = c) := by
      intro c' outcome resized
      rcases lt_trichotomy size old with shrink | same | grow
      · obtain ⟨returned, inv', -⟩ := DataStore.cutAt_of_shrink inv isSize nonneg shrink resized
        exact ⟨returned, inv', fun same => by omega⟩
      · obtain ⟨rfl, returned⟩ := (DataStore.exec_resize inv isSize nonneg resized).2.2 same
        exact ⟨returned, inv, fun _ => rfl⟩
      · obtain ⟨returned, inv', -⟩ := DataStore.grown_of_grow inv isSize grow resized
        exact ⟨returned, inv', fun same => by omega⟩
    obtain ⟨done, resized, rfl⟩ := Program.exec_bind_ret_iff.mp performed
    obtain ⟨rfl, inv', unchanged⟩ := returned resized
    exact .inr ⟨nonneg, rfl, inv', unchanged⟩
  · rw [truncate, if_pos (by omega)] at performed
    obtain ⟨rfl, rfl⟩ := Program.exec_ret_iff.mp performed
    exact .inl ⟨by omega, rfl, rfl⟩

end MemFile

/-! ## The operations of a handle -/

/-- The buffers that an operation has been given. -/
def FileOp.buffers : FileOp → List (List UInt8)
  | .read dst => [dst]
  | .readAt dst _ => [dst]
  | .readVec dstv => dstv
  | .readVecAt dstv _ => dstv
  | _ => []

namespace File

variable {f f' : File} {op : FileOp} {c c' : Cluster} {result : FileResult}

/-- Where an operation reads, unless its method is disabled. -/
def readsAt (f : File) : FileOp → Option ℤ
  | .read _ => if f.access = .writeOnly then none else some f.file.offset
  | .readAt _ off => some off
  | .readVec _ => some f.file.offset
  | .readVecAt _ off => some off
  | _ => none

/-- Where an operation writes, and what, unless its method is disabled. -/
def writesAt (f : File) : FileOp → Option (ℤ × List UInt8)
  | .write data => if f.access = .readOnly then none else some (f.file.offset, data)
  | .writeAt data off => some (off, data)
  | .writeVec datav => some (f.file.offset, datav.flatten)
  | .writeVecAt datav off => some (off, datav.flatten)
  | _ => none

/-- What an operation has done when it returns.  Which of the four it is depends on
the operation and on the access mode of the handle alone. -/
inductive Performs (f : File) (c : Cluster) (op : FileOp) (c' : Cluster) (result : FileResult) :
    Prop
  | reads {off : ℤ} (here : f.readsAt op = some off) (same : c' = c)
      (delivers : f.file.store.DeliversVec c f.file.path off op.buffers result.n result.buffers
        result.err)
  | writes {off : ℤ} {data : List UInt8} (here : f.writesAt op = some (off, data))
      (count : result.n = data.length) (noError : result.err = none)
      (noBuffers : result.buffers = []) (puts : f.file.store.Puts c c' f.file.path off data)
  | truncates {size : ℤ} (here : op = .truncate size) (noBuffers : result.buffers = [])
      (resized : Exec (f.file.truncate size) c c' (some result.err))
  /-- The method is disabled, or it only moves the offset. -/
  | idle (noRead : f.readsAt op = none) (noWrite : f.writesAt op = none)
      (noTruncate : ∀ size, op ≠ .truncate size) (same : c' = c)
      (untouched : result.buffers = op.buffers)

/-- The handles of one file differ in their offsets only. -/
structure Alike (f f' : File) : Prop where
  store : f'.file.store = f.file.store
  path : f'.file.path = f.file.path
  access : f'.access = f.access

theorem Alike.rfl : f.Alike f := ⟨.refl _, .refl _, .refl _⟩

/-- A handle that is not for writing only hands a `Read` on. -/
theorem call_read (enabled : f.access ≠ .writeOnly) (dst : List UInt8) :
    f.call (.read dst) = f.file.read dst >>= fun (file, n, dst', err) =>
      .ret ({ f with file := file }, { n := n, buffers := [dst'], err := err }) := by
  cases access : f.access with
  | writeOnly => exact absurd access enabled
  | readOnly => simp only [call, access, Program.pure_eq]
  | readWrite => simp only [call, access, Program.pure_eq]

/-- A handle that is not for reading only hands a `Write` on. -/
theorem call_write (enabled : f.access ≠ .readOnly) (data : List UInt8) :
    f.call (.write data) = f.file.write data >>= fun (file, n) =>
      .ret ({ f with file := file }, ({ n := n } : FileResult)) := by
  cases access : f.access with
  | readOnly => exact absurd access enabled
  | writeOnly => simp only [call, access, Program.pure_eq]
  | readWrite => simp only [call, access, Program.pure_eq]

/-- **Every operation of a handle.** -/
theorem performs_of_exec (inv : f.file.store.FileInv c f.file.path)
    (performed : Exec (f.call op) c c' (some (f', result))) :
    f.Alike f' ∧ f.Performs c op c' result := by
  cases op with
  | read dst =>
      -- A write-only handle does not read.
      by_cases disabled : f.access = .writeOnly
      · simp only [call, disabled] at performed
        obtain ⟨rfl, same⟩ := Program.exec_ret_iff.mp performed
        obtain ⟨rfl, rfl⟩ := Prod.mk.inj (Option.some.inj same)
        exact ⟨.rfl, .idle (by simp [readsAt, disabled]) rfl nofun rfl rfl⟩
      · rw [call_read disabled] at performed
        obtain ⟨answer, reading, same⟩ := Program.exec_bind_ret_iff.mp performed
        obtain ⟨rfl, ⟨-, rfl⟩ | ⟨-, returned, rfl, delivers⟩⟩ := MemFile.exec_read inv reading
        · simp at same
        obtain ⟨rfl, rfl⟩ := by simpa using same
        exact ⟨⟨rfl, rfl, rfl⟩, .reads (if_neg disabled) rfl (.of_delivers delivers)⟩
  | readAt dst off =>
      obtain ⟨answer, reading, same⟩ := Program.exec_bind_ret_iff.mp performed
      obtain ⟨rfl, ⟨-, rfl⟩ | ⟨-, returned, rfl, delivers⟩⟩ := MemFile.exec_readAt inv reading
      · simp at same
      obtain ⟨rfl, rfl⟩ := by simpa using same
      exact ⟨.rfl, .reads rfl rfl (.of_delivers delivers)⟩
  | readVec dstv =>
      obtain ⟨answer, reading, same⟩ := Program.exec_bind_ret_iff.mp performed
      obtain ⟨rfl, ⟨-, -, rfl⟩ | ⟨-, n, dstv', err, rfl, delivers⟩⟩ :=
        MemFile.exec_readVec inv reading
      · simp at same
      obtain ⟨rfl, rfl⟩ := by simpa using same
      exact ⟨⟨rfl, rfl, rfl⟩, .reads rfl rfl delivers⟩
  | readVecAt dstv off =>
      obtain ⟨answer, reading, same⟩ := Program.exec_bind_ret_iff.mp performed
      obtain ⟨rfl, ⟨-, -, rfl⟩ | ⟨-, n, dstv', err, rfl, delivers⟩⟩ :=
        MemFile.exec_readVecAt inv reading
      · simp at same
      obtain ⟨rfl, rfl⟩ := by simpa using same
      exact ⟨.rfl, .reads rfl rfl delivers⟩
  | write data =>
      -- A read-only handle does not write.
      by_cases disabled : f.access = .readOnly
      · simp only [call, disabled] at performed
        obtain ⟨rfl, same⟩ := Program.exec_ret_iff.mp performed
        obtain ⟨rfl, rfl⟩ := Prod.mk.inj (Option.some.inj same)
        exact ⟨.rfl, .idle rfl (by simp [writesAt, disabled]) nofun rfl rfl⟩
      · rw [call_write disabled] at performed
        obtain ⟨answer, writing, same⟩ := Program.exec_bind_ret_iff.mp performed
        rcases MemFile.exec_write inv writing with ⟨-, -, rfl⟩ | ⟨-, rfl, puts⟩
        · simp at same
        obtain ⟨rfl, rfl⟩ := by simpa using same
        exact ⟨⟨rfl, rfl, rfl⟩, .writes (if_neg disabled) rfl rfl rfl puts⟩
  | writeAt data off =>
      -- `WriteAt` and the operations on several buffers are not overridden, so there is
      -- nothing to check.
      obtain ⟨answer, writing, same⟩ := Program.exec_bind_ret_iff.mp performed
      rcases MemFile.exec_writeAt inv writing with ⟨-, -, rfl⟩ | ⟨-, rfl, puts⟩
      · simp at same
      obtain ⟨rfl, rfl⟩ := by simpa using same
      exact ⟨.rfl, .writes rfl rfl rfl rfl puts⟩
  | writeVec datav =>
      obtain ⟨answer, writing, same⟩ := Program.exec_bind_ret_iff.mp performed
      rcases MemFile.exec_writeVec inv writing with ⟨-, -, -, rfl⟩ | ⟨-, rfl, puts⟩
      · simp at same
      obtain ⟨rfl, rfl⟩ := Prod.mk.inj (Option.some.inj same)
      exact ⟨⟨rfl, rfl, rfl⟩, .writes rfl rfl rfl rfl puts⟩
  | writeVecAt datav off =>
      obtain ⟨answer, writing, same⟩ := Program.exec_bind_ret_iff.mp performed
      rcases MemFile.exec_writeVecAt inv writing with ⟨-, -, -, rfl⟩ | ⟨-, rfl, puts⟩
      · simp at same
      obtain ⟨rfl, rfl⟩ := Prod.mk.inj (Option.some.inj same)
      exact ⟨.rfl, .writes rfl rfl rfl rfl puts⟩
  | truncate size =>
      obtain ⟨answer, resized, same⟩ := Program.exec_bind_ret_iff.mp performed
      cases answer with
      | none => simp at same
      | some err =>
          obtain ⟨rfl, rfl⟩ := by simpa using same
          exact ⟨.rfl, .truncates rfl rfl resized⟩
  | seek off whence =>
      obtain ⟨size, isSize⟩ := inv.exists_isSize
      obtain ⟨answer, sought, same⟩ := Program.exec_bind_ret_iff.mp performed
      obtain ⟨rfl, rfl⟩ := MemFile.exec_seek inv isSize sought
      obtain ⟨rfl, rfl⟩ := Prod.mk.inj (Option.some.inj same)
      -- A `seek` leaves the content, and the handle is the same but for its offset.
      refine ⟨?_, .idle rfl rfl nofun rfl rfl⟩
      split
      · exact .rfl
      · split
        · exact .rfl
        · exact ⟨rfl, rfl, rfl⟩

/-- An operation of a handle keeps the invariant of its file. -/
theorem Performs.inv (inv : f.file.store.FileInv c f.file.path)
    (performs : f.Performs c op c' result) : f.file.store.FileInv c' f.file.path := by
  cases performs with
  | reads here same delivers => rwa [same]
  | writes here count noError noBuffers puts => exact puts.inv
  | truncates here noBuffers resized =>
      obtain ⟨old, isSize⟩ := inv.exists_isSize
      rcases MemFile.exec_truncate inv isSize resized with ⟨-, rfl, -⟩ | ⟨-, -, inv', -⟩
      · exact inv
      · exact inv'
  | idle noRead noWrite noTruncate same untouched => rwa [same]

end File

/-! ## Opening -/

namespace DataStore

variable {s : DataStore} {c c' : Cluster} {path : GoString} {flag : Flags}

/-- What opening the content of a file does: it is emptied if the flags say so, and the
handle is at its start, or at its end to append. -/
structure OpenedAs (s : DataStore) (c c' : Cluster) (path : GoString) (flag : Flags) (f : File) :
    Prop where
  store : f.file.store = s
  here : f.file.path = path
  access : f.access = accessOf flag
  inv : s.FileInv c' path
  emptied : hasFlag oTRUNC flag = true → ∀ id, s.stripe c' path id = []
  kept : hasFlag oTRUNC flag = false → c' = c
  offset : ∃ size, IsSize s.stripeSize (s.stripe c' path) size ∧
    f.file.offset = if hasFlag oAPPEND flag then size else 0

/-- The removal of content is not aborted. -/
theorem returned_of_exec_remove (inv : s.FileInv c path) {result : Option Unit}
    (removed : Exec (s.remove path) c c' result) : result = some () := by
  rcases Program.exec_bind_iff.mp removed with ⟨n, middle, search, rest⟩ | ⟨aborted, -⟩
  · obtain ⟨order, -, done⟩ := Program.exec_forkAll_bind_iff.mp rest
    exact (Program.exec_ret_iff.mp done).2
  · obtain ⟨-, n, impossible, -⟩ := (exec_searchLastStripe_iff inv).mp aborted
    simp at impossible

/-- **Opening a file.** -/
theorem openedAs_of_exec (inv : s.FileInv c path) {outcome : Option File}
    (performed : Exec (s.openFile path flag) c c' outcome) :
    ∃ f, outcome = some f ∧ s.OpenedAs c c' path flag f := by
  have truncated : ∀ {middle : Cluster} {done : Option Unit},
      Exec (s.truncateOnOpen path flag) c middle done → done = some () ∧ s.FileInv middle path ∧
        (hasFlag oTRUNC flag = true → ∀ id, s.stripe middle path id = []) ∧
        (hasFlag oTRUNC flag = false → middle = c) := by
    intro middle done emptying
    rw [truncateOnOpen] at emptying
    split at emptying
    · rename_i truncate
      obtain ⟨inv', empty, -⟩ := empty_of_exec_remove inv emptying
      exact ⟨returned_of_exec_remove inv emptying, inv', fun _ => empty,
        fun not => by simp [truncate] at not⟩
    · rename_i keep
      obtain ⟨rfl, rfl⟩ := Program.exec_ret_iff.mp emptying
      exact ⟨rfl, inv, fun truncate => absurd truncate keep, fun _ => rfl⟩
  rcases Program.exec_bind_iff.mp performed with ⟨_, middle, emptying, last⟩ | ⟨aborted, -⟩
  · obtain ⟨-, inv', emptied, kept⟩ := truncated emptying
    obtain ⟨size, isSize⟩ := inv'.exists_isSize
    obtain ⟨answer, sought, rfl⟩ := Program.exec_bind_ret_iff.mp last
    obtain ⟨rfl, rfl⟩ := MemFile.exec_seek (f := { store := s, path := path }) inv' isSize sought
    have nonneg := isSize.nonneg inv'.wellFormed
    by_cases append : hasFlag oAPPEND flag = true
    · refine ⟨{ file := ⟨s, path, size⟩, access := accessOf flag }, ?_, rfl, rfl, rfl, inv',
        emptied, kept, size, isSize, by rw [if_pos append]⟩
      simp [append, MemFile.seekTo, not_lt.mpr nonneg]
    · refine ⟨{ file := ⟨s, path, 0⟩, access := accessOf flag }, ?_, rfl, rfl, rfl, inv',
        emptied, kept, size, isSize, by rw [if_neg append]⟩
      simp [append, MemFile.seekTo]
  · have impossible := (truncated aborted).1
    simp at impossible

end DataStore

end Pdwfs
