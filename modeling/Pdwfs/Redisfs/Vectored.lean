import Pdwfs.Redisfs.Handles
import Pdwfs.Redisfs.Wrapped

/-!
# Buffers that are transferred together

Several buffers are written or read one after the other, with a running offset.
That should be no different from one transfer of all their bytes.

* `NoGap` — every stripe before the last one is full.
* `DeliversVec.eq_of_noGap` — what reads into several buffers deliver of a file
  without gaps.
* `Vectored` — the operations on several buffers agree with those on one.
* `vectored_iff` — when they do: the running offset has to stay in the range of the
  integers.

## Where the two differ

Writes of several buffers stop at the first error, and there is none, so below the
end of the range they leave what one write leaves.  Reads stop at the first buffer
that is not filled.  In a file without gaps that is the end of the file; with a gap
it would be the gap, behind which one read would go on.

At the end of the range the running offset wraps.  One write ends at `2^63` at most
and never computes that number, but behind it there may be an empty buffer, which is
written at the offset `2^63`: that is `-2^63`, and a negative offset is refused by a
panic.  This is why the condition does not depend on which of the buffers are empty.

The theorem is over the functions of `Wrapped`, since its condition is about 64-bit
arithmetic.  Where that does not matter, the functions over the integers are the
same (`readAt_eq`, `exec_readAt_iff`).
-/

namespace Pdwfs

open Concurrency Redis Striping Wrapping

/-! ## Ranges -/

/-- The stripes of a range, of the first part of it and of the rest. -/
theorem touchedStripes_append {S off : ℤ} (positive : 0 < S) (first rest : ℕ) :
    touchedStripes S off first ≤ touchedStripes S off (first + rest) ∧
      touchedStripes S (off + first) rest ≤ touchedStripes S off (first + rest) := by
  have nonneg : ∀ {lo hi : ℤ}, lo ≤ hi → lo / S ≤ hi / S := Int.ediv_le_ediv positive
  have start : off / S ≤ (off + first) / S := nonneg (by omega)
  simp only [touchedStripes]
  push_cast
  constructor
  · by_cases none : first = 0
    · rw [if_pos none]
      split
      · exact le_rfl
      · have := nonneg (show off ≤ off + (first + rest) - 1 by omega)
        omega
    · have := nonneg (show off + first - 1 ≤ off + (first + rest) - 1 by omega)
      rw [if_neg none, if_neg (by omega)]
      omega
  · by_cases none : rest = 0
    · rw [if_pos none]
      split
      · exact le_rfl
      · have := nonneg (show off ≤ off + (first + rest) - 1 by omega)
        omega
    · rw [if_neg none, if_neg (by omega), add_assoc]
      omega

namespace DataStore

variable {s : DataStore} {c c₁ c₂ : Cluster} {name : GoString} {off n : ℤ}
  {bytes data : List UInt8} {dstv dstv' : List (List UInt8)} {err : Option FileError}

/-- Every stripe before the last one is full. -/
def NoGap (s : DataStore) (c : Cluster) (name : GoString) : Prop :=
  ∀ id last, 0 ≤ id → id < last → s.stripe c name last ≠ [] →
    ((s.stripe c name id).length : ℤ) = s.stripeSize

/-- All bytes of a file without gaps are stored. -/
theorem NoGap.stores (noGap : s.NoGap c name) (inv : s.FileInv c name)
    (has : s.HasBytes c name bytes) : ∀ i < bytes.length, s.Stores c name i := by
  intro i inside
  have upper := Int.emod_lt_of_pos i s.stripeSize_pos
  rcases has.isSize.attained with ⟨zero, -⟩ | ⟨last, nonempty, same⟩
  · omega
  · rw [Stores, inv.wellFormed.stored_iff]
    rcases lt_trichotomy ((i : ℤ) / s.stripeSize) last with before | here | behind
    · have full := noGap _ last (Int.ediv_nonneg (by omega) s.stripeSize_pos.le) before nonempty
      have split := Int.ediv_mul_add_emod i s.stripeSize
      rw [stripeEnd, full]
      omega
    · rw [here, ← same]
      exact_mod_cast inside
    · exfalso
      have next := mul_le_mul_of_nonneg_right (show last + 1 ≤ i / s.stripeSize by omega)
        s.stripeSize_pos.le
      have start := Int.ediv_mul_le i s.stripeSize_pos.ne'
      have fits := inv.length_le last
      rw [add_mul, one_mul] at next
      rw [stripeEnd] at same
      omega

/-- Two writes of the same data to the same file leave the same bytes and the same size. -/
theorem Puts.content_eq (one : s.Puts c c₁ name off data) (two : s.Puts c c₂ name off data)
    (p : ℤ) : s.content c₁ name p = s.content c₂ name p := by
  by_cases within : off ≤ p ∧ p < off + data.length
  · rw [one.inside p within.1 within.2, two.inside p within.1 within.2]
  · rw [one.outside p within, two.outside p within]

/-- The size is the same as well. -/
theorem Puts.isSize_iff (inv : s.FileInv c name) (one : s.Puts c c₁ name off data)
    (two : s.Puts c c₂ name off data) {n : ℤ} :
    IsSize s.stripeSize (s.stripe c₁ name) n ↔ IsSize s.stripeSize (s.stripe c₂ name) n := by
  obtain ⟨old, isSize⟩ := inv.exists_isSize
  have first := one.size old isSize
  have second := two.size old isSize
  constructor
  · intro isSize'
    rwa [isSize'.unique first]
  · intro isSize'
    rwa [isSize'.unique second]

/-! ## Reads into several buffers -/

/-- A read of at most 100 stripes does not count more than there is room for. -/
theorem Delivers.count_le {dst : List UInt8} {result : MemFile.ReadResult}
    (delivers : s.Delivers c name off dst result)
    (few : touchedStripes s.stripeSize off dst.length ≤ 100) : result.1 ≤ dst.length := by
  rw [delivers.count_of_few few]
  exact_mod_cast Nat.count_le _

/-- Without an error the buffer is filled. -/
theorem Delivers.count_eq {dst dst' : List UInt8}
    (delivers : s.Delivers c name off dst (n, dst', none))
    (few : touchedStripes s.stripeSize off dst.length ≤ 100) : n = dst.length := by
  have upper := delivers.count_le few
  have ended := delivers.err
  simp only at upper ended
  split at ended
  · simp at ended
  · omega

/-- The count is not negative, and no more than there is room for. -/
theorem DeliversVec.le (delivers : s.DeliversVec c name off dstv n dstv' err)
    (few : touchedStripes s.stripeSize off dstv.flatten.length ≤ 100) :
    n ≤ dstv.flatten.length := by
  induction delivers with
  | nil off => exact le_rfl
  | stop rest delivers =>
      rw [List.flatten_cons, List.length_append] at few ⊢
      have upper := delivers.count_le
        ((touchedStripes_append s.stripeSize_pos _ _).1.trans few)
      simp only at upper
      omega
  | next delivers others ih =>
      rw [List.flatten_cons, List.length_append] at few ⊢
      obtain rfl := delivers.count_eq ((touchedStripes_append s.stripeSize_pos _ _).1.trans few)
      have later := ih ((touchedStripes_append s.stripeSize_pos _ _).2.trans few)
      omega

/-- **Where there is no gap**, reads into several buffers count and copy the next bytes of the
file: all buffers together hold what one buffer would. -/
theorem DeliversVec.eq_of_noGap (delivers : s.DeliversVec c name off dstv n dstv' err)
    (inv : s.FileInv c name) (has : s.HasBytes c name bytes) (nonneg : 0 ≤ off)
    (noGap : ∀ i < bytes.length, s.Stores c name i)
    (few : touchedStripes s.stripeSize off dstv.flatten.length ≤ 100) :
    n = ((bytes.drop off.toNat).take dstv.flatten.length).length ∧
      dstv'.flatten = (bytes.drop off.toNat).take dstv.flatten.length ++
        dstv.flatten.drop ((bytes.drop off.toNat).take dstv.flatten.length).length ∧
      dstv'.map List.length = dstv.map List.length ∧
      err = if n < dstv.flatten.length then some .eof else none := by
  induction delivers with
  | nil off => simp
  | @stop off n dst dst' rest delivers =>
      rw [List.flatten_cons, List.length_append] at few ⊢
      have alone := (touchedStripes_append s.stripeSize_pos _ _).1.trans few
      obtain ⟨count, copied⟩ := delivers.eq_of_noGap inv has nonneg noGap alone
      have ended := delivers.err
      have short : n < dst.length := by
        by_contra whole
        simp [whole] at ended
      -- The file ends inside of this buffer, so the others are out of its reach.
      have all : (bytes.drop off.toNat).length ≤ dst.length := by
        rw [List.length_take] at count
        omega
      rw [List.take_of_length_le all] at count copied
      rw [List.take_of_length_le (by omega), List.drop_append_of_le_length (by omega),
        ← List.append_assoc, ← copied]
      refine ⟨count, rfl, ?_, ?_⟩
      · rw [List.map_cons, List.map_cons, delivers.filled.length_eq]
      · rw [if_pos (by omega)]
  | @next off n m dst dst' rest rest' err delivers others ih =>
      rw [List.flatten_cons, List.length_append] at few ⊢
      have alone := (touchedStripes_append s.stripeSize_pos _ _).1.trans few
      obtain ⟨count, copied⟩ := delivers.eq_of_noGap inv has nonneg noGap alone
      obtain rfl := delivers.count_eq alone
      have later := ih (by omega) ((touchedStripes_append s.stripeSize_pos _ _).2.trans few)
      rw [show (off + (dst.length : ℤ)).toNat = off.toNat + dst.length by omega,
        ← List.drop_drop] at later
      obtain ⟨count', copied', lengths, ended⟩ := later
      have whole : ((bytes.drop off.toNat).take dst.length).length = dst.length := by
        exact_mod_cast count.symm
      rw [whole, List.drop_length, List.append_nil] at copied
      rw [List.take_add, List.length_append, whole, List.drop_append, List.drop_eq_nil_of_le
        (Nat.le_add_right _ _), List.nil_append, Nat.add_sub_cancel_left, List.flatten_cons,
        copied', copied, List.append_assoc]
      refine ⟨by rw [count']; push_cast; rfl, rfl, ?_, ?_⟩
      · rw [List.map_cons, List.map_cons, lengths, whole]
      · rw [ended]
        push_cast
        simp only [add_lt_add_iff_left]

end DataStore

/-! ## In the range of the integers -/

namespace Wrapped

variable {s : DataStore} {f : MemFile} {c c' : Cluster} {name : GoString} {off : ℤ}
  {dst : List UInt8} {dstv : List (List UInt8)}

/-- Below the end of the range a read of at most 100 stripes is the one over the integers. -/
theorem readAt_eq (s : DataStore) (name : GoString) (inRange : InRange s.stripeSize)
    (nonneg : 0 ≤ off) (inside : off + dst.length < 2 ^ 63) :
    readAt s name off dst =
      s.readAt name off dst >>= fun result => .ret (wrap result.1, result.2) := by
  rw [readAt, DataStore.readAt, stripeLayout_eq s.stripeSize_pos inRange nonneg (by omega)
    (last_lt s.stripeSize_pos inside)]
  cases Pdwfs.stripeLayout s.policy s.stripeSize off dst with
  | none => rfl
  | some stripes =>
      simp only [Program.bind_assoc]
      congr
      funext replies
      cases collectReads replies 0 dst <;> rfl

/-- The count is at most the length of the destination, so that it is in the range as well. -/
theorem exec_readAt_iff (inv : s.FileInv c name) (inRange : InRange s.stripeSize)
    (nonneg : 0 ≤ off) (inside : off + dst.length < 2 ^ 63)
    (few : touchedStripes s.stripeSize off dst.length ≤ 100)
    {outcome : Option (ℤ × List UInt8)} :
    Exec (readAt s name off dst) c c' outcome ↔ Exec (s.readAt name off dst) c c' outcome := by
  obtain ⟨zeros, none, reads⟩ := DataStore.exec_readAt s name nonneg dst
  have same : ∀ {result : Option (ℤ × List UInt8)}, Exec (s.readAt name off dst) c c' result →
      (result.map fun result => (wrap result.1, result.2)) = result := by
    intro result reading
    obtain ⟨-, dst', rfl, -⟩ := reads inv reading
    have count : s.storedCount c name off dst ≤ dst.length := Nat.count_le _
    rw [none.mpr few, zero_mul, add_zero, Option.map_some, wrap_of_nonneg (by omega) (by omega)]
  rw [readAt_eq s name inRange nonneg inside, Exec, Program.exec_bind_ret_iff]
  constructor
  · rintro ⟨result, reading, rfl⟩
    rwa [same reading]
  · exact fun reading => ⟨outcome, reading, (same reading).symm⟩

namespace MemFile

theorem exec_readAt_iff (inv : f.store.FileInv c f.path) (inRange : InRange f.store.stripeSize)
    (nonneg : 0 ≤ off) (inside : off + dst.length < 2 ^ 63)
    (few : touchedStripes f.store.stripeSize off dst.length ≤ 100)
    {outcome : Option MemFile.ReadResult} :
    Exec (readAt f dst off) c c' outcome ↔ Exec (f.readAt dst off) c c' outcome := by
  have forward : ¬off < 0 := not_lt.mpr nonneg
  rw [readAt, Pdwfs.MemFile.readAt]
  simp only [if_neg forward]
  by_cases empty : dst.length = 0
  · simp only [if_pos empty]
  · simp only [if_neg empty]
    rw [Exec, Exec, Program.exec_bind_iff, Program.exec_bind_iff]
    have first : ∀ {middle : Cluster} {result : Option (ℤ × List UInt8)},
        Program.Exec serve (Wrapped.readAt f.store f.path off dst) c middle result ↔
          Program.Exec serve (f.store.readAt f.path off dst) c middle result :=
      Wrapped.exec_readAt_iff inv inRange nonneg inside few
    simp only [first]

/-- The same for several buffers. -/
theorem exec_readVecAt (inv : f.store.FileInv c f.path) (inRange : InRange f.store.stripeSize)
    (nonneg : 0 ≤ off) (inside : off + dstv.flatten.length < 2 ^ 63)
    (few : touchedStripes f.store.stripeSize off dstv.flatten.length ≤ 100)
    {outcome : Option (ℤ × List (List UInt8) × Option FileError)}
    (performed : Exec (readVecAt f dstv off) c c' outcome) :
    Exec (f.readVecAt dstv off) c c' outcome := by
  induction dstv generalizing off outcome c c' with
  | nil => exact performed
  | cons dst rest ih =>
      rw [List.flatten_cons, List.length_append] at inside few
      push_cast at inside
      have alone := (touchedStripes_append f.store.stripeSize_pos _ _).1.trans few
      have first := fun {middle : Cluster} {outcome : Option MemFile.ReadResult}
          (reading : Exec (readAt f dst off) c middle outcome) =>
        (exec_readAt_iff inv inRange nonneg (by omega) alone).mp reading
      rw [readVecAt] at performed
      unfold Pdwfs.MemFile.readVecAt
      rcases Program.exec_bind_iff.mp performed with
        ⟨⟨n, dst', err⟩, middle, reading, last⟩ | ⟨aborted, rfl⟩
      · have reading' := first reading
        refine Program.exec_bind_iff.mpr (.inl ⟨_, middle, reading', ?_⟩)
        obtain ⟨rfl, ⟨-, impossible⟩ | ⟨-, result, same, delivers⟩⟩ :=
          Pdwfs.MemFile.exec_readAt inv reading'
        · simp at impossible
        obtain rfl := Option.some.inj same
        have ended := delivers.err
        simp only at ended
        split at ended
        · subst ended
          exact last
        · subst ended
          obtain rfl := delivers.count_eq alone
          simp only [wrap_of_nonneg (by omega : 0 ≤ off + (dst.length : ℤ)) (by omega)] at last ⊢
          have fewLater := (touchedStripes_append f.store.stripeSize_pos _ _).2.trans few
          obtain ⟨answer, later, rfl⟩ := Program.exec_bind_ret_iff.mp last
          have later' := ih inv (by omega) (by omega) fewLater later
          refine Program.exec_bind_ret_iff.mpr ⟨answer, later', ?_⟩
          cases answer with
          | none => rfl
          | some answer =>
              obtain ⟨-, ⟨-, -, impossible⟩ | ⟨-, m, dstv', err, same, others⟩⟩ :=
                Pdwfs.MemFile.exec_readVecAt inv later'
              · simp at impossible
              obtain rfl := Option.some.inj same
              have lower := others.nonneg
              have upper := others.le fewLater
              rw [Option.map_some, Option.map_some, wrap_of_nonneg (by omega) (by omega)]
      · exact Program.exec_bind_iff.mpr (.inr ⟨first aborted, rfl⟩)

end MemFile

/-- The size is the one over the integers, reduced into the range. -/
theorem exec_getSize_iff (inv : s.FileInv c name) {outcome : Option ℤ} :
    Exec (getSize s name) c c' outcome ↔
      c' = c ∧ ∃ n, outcome = some (wrap n) ∧ IsSize s.stripeSize (s.stripe c name) n := by
  rw [getSize_eq, Exec, Program.exec_bind_ret_iff]
  constructor
  · rintro ⟨result, sized, rfl⟩
    obtain ⟨rfl, n, rfl, isSize⟩ := (DataStore.exec_getSize_iff inv).mp sized
    exact ⟨rfl, n, rfl, isSize⟩
  · rintro ⟨rfl, n, rfl, isSize⟩
    exact ⟨some n, (DataStore.exec_getSize_iff inv).mpr ⟨rfl, n, rfl, isSize⟩, rfl⟩

/-! ## Agreement -/

/-- The operations on several buffers agree with those on one buffer of all their bytes: at the
offset `off`, and with a handle that is at this offset. -/
structure Vectored (f : MemFile) (c : Cluster) (bufs : List (List UInt8)) (off : ℤ) : Prop where
  /-- `WriteVecAt` returns the total length, and leaves the bytes and the size that `WriteAt`
  leaves. -/
  writes : ∀ {c₁ c₂ r₁ r₂}, Exec (MemFile.writeVecAt f bufs off) c c₁ r₁ →
    Exec (MemFile.writeAt f bufs.flatten off) c c₂ r₂ →
      r₁ = some ((bufs.flatten.length : ℤ), none) ∧
      (∀ p, f.store.content c₁ f.path p = f.store.content c₂ f.path p) ∧
      ∀ n, Exec (getSize f.store f.path) c₁ c₁ (some n) ↔
        Exec (getSize f.store f.path) c₂ c₂ (some n)
  /-- `ReadVecAt` returns what `ReadAt` returns, with the bytes in order in the buffers. -/
  reads : f.store.NoGap c f.path →
    touchedStripes f.store.stripeSize off bufs.flatten.length ≤ 100 → ∀ {c₁ c₂ r₁ r₂},
      Exec (MemFile.readVecAt f bufs off) c c₁ r₁ →
      Exec (MemFile.readAt f bufs.flatten off) c c₂ r₂ →
        ∃ n dstv err, r₁ = some (n, dstv, err) ∧ r₂ = some (n, dstv.flatten, err) ∧
          dstv.map List.length = bufs.map List.length
  /-- `WriteVec` moves the handle by its count, and so does `ReadVec`. -/
  writeVec : ∀ {c₁ r₁}, Exec (MemFile.writeVec { f with offset := off } bufs) c c₁ r₁ →
    r₁ = some ({ f with offset := off + bufs.flatten.length }, (bufs.flatten.length : ℤ), none)
  readVec : f.store.NoGap c f.path →
    touchedStripes f.store.stripeSize off bufs.flatten.length ≤ 100 → ∀ {c₁ c₂ r₁ r₂},
      Exec (MemFile.readVec { f with offset := off } bufs) c c₁ r₁ →
      Exec (MemFile.readAt f bufs.flatten off) c c₂ r₂ →
        ∃ n dstv err, r₁ = some ({ f with offset := off + n }, n, dstv, err) ∧
          r₂ = some (n, dstv.flatten, err)

section Agreement

variable {bufs : List (List UInt8)}

/-- Below the end of the range several reads in a file without gaps agree with one. -/
theorem reads_of_inside (inv : f.store.FileInv c f.path) (inRange : InRange f.store.stripeSize)
    (nonneg : 0 ≤ off) (inside : off + bufs.flatten.length < 2 ^ 63)
    (noGap : f.store.NoGap c f.path)
    (few : touchedStripes f.store.stripeSize off bufs.flatten.length ≤ 100) {c₁ c₂ : Cluster}
    {r₁ : Option (ℤ × List (List UInt8) × Option FileError)} {r₂ : Option MemFile.ReadResult}
    (several : Exec (MemFile.readVecAt f bufs off) c c₁ r₁)
    (one : Exec (MemFile.readAt f bufs.flatten off) c c₂ r₂) :
    ∃ n dstv err, r₁ = some (n, dstv, err) ∧ r₂ = some (n, dstv.flatten, err) ∧
      dstv.map List.length = bufs.map List.length ∧ 0 ≤ n ∧ n ≤ bufs.flatten.length := by
  obtain ⟨bytes, has⟩ := inv.exists_hasBytes
  have stores := noGap.stores inv has
  obtain ⟨-, ⟨negative, -⟩ | ⟨-, n, dstv, err, rfl, delivers⟩⟩ := Pdwfs.MemFile.exec_readVecAt inv
    (MemFile.exec_readVecAt inv inRange nonneg inside few several)
  · omega
  obtain ⟨-, ⟨negative, -⟩ | ⟨-, ⟨n', dst', err'⟩, rfl, delivers'⟩⟩ :=
    Pdwfs.MemFile.exec_readAt inv
      ((MemFile.exec_readAt_iff inv inRange nonneg inside few).mp one)
  · omega
  obtain ⟨count, copied, lengths, ended⟩ := delivers.eq_of_noGap inv has nonneg stores few
  obtain ⟨count', copied'⟩ := delivers'.eq_of_noGap inv has nonneg stores few
  have ended' := delivers'.err
  simp only at ended'
  refine ⟨n, dstv, err, rfl, ?_, lengths, delivers.nonneg, delivers.le few⟩
  rw [ended', count', copied', ended, count, copied]

/-- Below the end of the range several writes are one write of all their bytes. -/
theorem puts_of_exec_writeVecAt (inv : f.store.FileInv c f.path)
    (inRange : InRange f.store.stripeSize) (nonneg : 0 ≤ off)
    (inside : off + bufs.flatten.length < 2 ^ 63) {outcome : Option (ℤ × Option FileError)}
    (performed : Exec (MemFile.writeVecAt f bufs off) c c' outcome) :
    outcome = some ((bufs.flatten.length : ℤ), none) ∧
      f.store.Puts c c' f.path off bufs.flatten := by
  obtain ⟨_, wrote, rfl⟩ := MemFile.exec_writeVecAt inRange nonneg inside performed
  rcases Pdwfs.MemFile.exec_writeVecAt inv wrote with ⟨negative, -⟩ | ⟨-, rfl, puts⟩
  · omega
  · exact ⟨rfl, puts⟩

/-- Below the end of the range the operations agree. -/
theorem vectored_of_inside (inv : f.store.FileInv c f.path)
    (inRange : InRange f.store.stripeSize) (nonneg : 0 ≤ off)
    (inside : off + bufs.flatten.length < 2 ^ 63) : Vectored f c bufs off where
  writes several one := by
    obtain ⟨rfl, puts⟩ := puts_of_exec_writeVecAt inv inRange nonneg inside several
    obtain ⟨_, wrote, rfl⟩ := MemFile.exec_writeAt inRange nonneg (by omega)
      (last_lt f.store.stripeSize_pos inside) one
    rcases Pdwfs.MemFile.exec_writeAt inv wrote with ⟨negative, -⟩ | ⟨-, -, puts'⟩
    · omega
    refine ⟨rfl, puts.content_eq puts', fun n => ?_⟩
    rw [exec_getSize_iff puts.inv, exec_getSize_iff puts'.inv]
    simp only [puts.isSize_iff inv puts', true_and]
  reads noGap few := fun several one => by
    obtain ⟨n, dstv, err, same, same', lengths, -⟩ :=
      reads_of_inside inv inRange nonneg inside noGap few several one
    exact ⟨n, dstv, err, same, same', lengths⟩
  writeVec moved := by
    obtain ⟨answer, wrote, rfl⟩ := Program.exec_bind_ret_iff.mp moved
    obtain ⟨rfl, -⟩ :=
      puts_of_exec_writeVecAt (f := { f with offset := off }) inv inRange nonneg inside wrote
    simp only [Option.map_some]
    rw [wrap_of_nonneg (by omega) inside]
  readVec noGap few := fun moved one => by
    obtain ⟨answer, reading, rfl⟩ := Program.exec_bind_ret_iff.mp moved
    obtain ⟨n, dstv, err, rfl, same, -, lower, upper⟩ :=
      reads_of_inside (f := { f with offset := off }) inv inRange nonneg inside noGap few
        reading one
    refine ⟨n, dstv, err, ?_, same⟩
    simp only [Option.map_some]
    rw [wrap_of_nonneg (by omega) (by omega)]

/-- **When several transfers agree with one.**  From every state that is reached,
they do exactly when they end in the range of the 64-bit integers.  Otherwise the
running offset becomes negative: `WriteVecAt` aborts the program, also for an empty
buffer, or the handle is moved to a negative offset.  The induction is on the list
of buffers, with the running offset as a parameter.  In the range of the integers a
transfer of several buffers is one of their concatenation, cut where the buffers
end; a read stops at the first buffer that is not filled, which is where the single
read has come to its end as well. -/
theorem vectored_iff (f : MemFile) (inRange : InRange f.store.stripeSize) (nonneg : 0 ≤ off)
    (bufs : List (List UInt8)) :
    (∀ c, f.store.Reachable c → Vectored f c bufs off) ↔
      off + bufs.flatten.length < 2 ^ 63 := by
  constructor
  · intro agree
    have performed := Program.exec_run serve (MemFile.writeVec { f with offset := off } bufs)
      fun _ _ => none
    have moved := (agree _ (DataStore.quiet_empty f.store).reachable).writeVec performed
    have yields := (MemFile.yields_writeVec { f with offset := off } bufs).of_exec performed _ moved
    have same := congrArg (fun result => result.1.offset) yields
    exact (wrap_eq_self_iff.mp same.symm).2
  · intro inside c reached
    exact vectored_of_inside (reached.storeInv f.path) inRange nonneg inside

/-- Two buffers and an empty one, behind the start of a file. -/
theorem vectored_two :
    Vectored { store := smallStore 2, path := ['f'] } (fun _ _ => none) [[1], [], [2, 3]] 5 :=
  (vectored_iff { store := smallStore 2, path := ['f'] } (by decide) (by decide)
    [[1], [], [2, 3]]).mpr (by decide) _ (DataStore.quiet_empty _).reachable

/-- An empty buffer behind the last byte of the range: `WriteVecAt` aborts the program. -/
theorem not_vectored_emptyBuffer :
    ¬∀ c, (smallStore 2).Reachable c →
      Vectored { store := smallStore 2, path := ['f'] } c [[1, 2], []] (2 ^ 63 - 2) := by
  intro agree
  have performed := Program.exec_run serve (MemFile.writeVecAt
    { store := smallStore 2, path := ['f'] } [[1, 2], []] (2 ^ 63 - 2)) fun _ _ => none
  have flat := Program.exec_run serve (MemFile.writeAt
    { store := smallStore 2, path := ['f'] } [1, 2] (2 ^ 63 - 2)) fun _ _ => none
  have returned := ((agree _ (DataStore.quiet_empty _).reachable).writes performed flat).1
  rw [returned, MemFile.writeVecAt] at performed
  obtain ⟨first, middle, wrote, last⟩ := Program.exec_bind_some_iff.mp performed
  obtain rfl := (MemFile.yields_writeAt _ _ _).of_exec wrote first rfl
  obtain ⟨others, middle', later, -⟩ := Program.exec_bind_some_iff.mp last
  have negative : wrap (2 ^ 63 - 2 + (([1, 2] : List UInt8).length : ℤ)) < 0 := by decide
  rw [MemFile.writeVecAt, MemFile.writeAt, if_pos negative] at later
  exact absurd later Program.not_exec_panic_some

end Agreement

end Wrapped

end Pdwfs
