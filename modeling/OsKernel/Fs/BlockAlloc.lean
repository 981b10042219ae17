/-
Block allocation on a bitmap of any length (`cache_alloc` and `cache_free` of `fs/cache.c`).

The bit of block b is bit b mod 4096 of the bitmap block b / 4096 (`marked`); the bitmap has one bit for every block of the
disk, so it ends ⌈num_blocks / 4096⌉ blocks behind `bitmap_start` (`bitmapArea`). The super block, its layout and the number
of bitmap blocks are arbitrary.

`cacheAlloc_outcome` says how the search over all bitmap blocks ends: with the least clear bit (`LeastFree`), with -1 when
every bit it looks at is set, or with a PANIC when every bit of the disk is set. `alloc_free_exact` is what follows for the
callers: allocation and freeing change one bit each, they undo each other, and the next search finds the same block again.
The marks on the bitmap's own blocks are needed: the search would zero an unmarked bitmap block, which it already holds.

`alloc_panics_iff_full`: with two log slots reserved, the search reports a full disk by a PANIC and never returns -1, if and
only if it looks at the bit behind the last block or at a clear bit of the disk (`Conclusive`). It looks at as many bitmap
blocks as `num_data_blocks` needs, so this may fail (`alloc_returns_minus_one`): then a full disk, or one whose last blocks are
free, gives -1.
-/
import OsKernel.Fs.Bitmap

namespace OsKernel.Fs.Inodes

open OsKernel.Bytes OsKernel.Program
open Function (update update_of_ne update_self)

/-! ## The bitmap of a disk -/

/-- the bitmap block that holds the bit of block b -/
def bitmapBlockOf (sb : SuperBlock) (b : ℕ) : ℕ := b / bitPerBlock + sb.bitmapStart.toNat

/-- the bitmap blocks -/
def bitmapArea (sb : SuperBlock) : Set ℕ :=
  { k | sb.bitmapStart.toNat ≤ k ∧ k < sb.bitmapStart.toNat + (sb.numBlocks.toNat + bitPerBlock - 1) / bitPerBlock }

/-- boot block, super block, log, inodes and bitmap -/
def Metadata (sb : SuperBlock) (n : ℕ) : Prop :=
  n < 2 ∨ InLogArea sb n ∨ (∃ no < sb.numInodes.toNat, n = toBlockNo sb no) ∨ n ∈ bitmapArea sb

def MetadataMarked (sb : SuperBlock) (blk : ℕ → BlockData) : Prop :=
  ∀ n < sb.numBlocks.toNat, Metadata sb n → marked sb blk n = true

def BitmapMarked (sb : SuperBlock) (blk : ℕ → BlockData) : Prop :=
  ∀ n < sb.numBlocks.toNat, n ∈ bitmapArea sb → marked sb blk n = true

/-- b is the first block that is not marked, among those the search looks at -/
structure LeastFree (sb : SuperBlock) (blk : ℕ → BlockData) (b : ℕ) : Prop where
  lt : b < sb.numBlocks.toNat
  searched : b < numBitmapBlocks sb * bitPerBlock
  clear : marked sb blk b = false
  below : ∀ n < b, marked sb blk n = true

section Area

variable {sb : SuperBlock} {blk : ℕ → BlockData} {b b' i j n : ℕ}

theorem LeastFree.unique (h : LeastFree sb blk b) (h' : LeastFree sb blk b') : b = b' := by
  rcases Nat.lt_trichotomy b b' with hlt | heq | hgt
  · exact absurd (h.clear.symm.trans (h'.below b hlt)) (by decide)
  · exact heq
  · exact absurd (h'.clear.symm.trans (h.below b' hgt)) (by decide)

theorem bitmapBlockOf_mem (sb : SuperBlock) (hb : b < sb.numBlocks.toNat) : bitmapBlockOf sb b ∈ bitmapArea sb := by
  have hdiv : b / bitPerBlock < (sb.numBlocks.toNat + bitPerBlock - 1) / bitPerBlock := by
    have hpos : 0 < bitPerBlock := by decide
    rw [Nat.div_lt_iff_lt_mul hpos]
    have := Nat.lt_div_mul_add (a := sb.numBlocks.toNat + bitPerBlock - 1) hpos
    omega
  constructor
  · exact Nat.le_add_left _ _
  · rw [bitmapBlockOf, Nat.add_comm]
    exact Nat.add_lt_add_left hdiv _

/-- the position of bit j of the i-th bitmap block -/
theorem position_of (sb : SuperBlock) (i : ℕ) (hj : j < bitPerBlock) :
    bitmapBlockOf sb (i * bitPerBlock + j) = sb.bitmapStart.toNat + i ∧ (i * bitPerBlock + j) % bitPerBlock = j := by
  have hpos : 0 < bitPerBlock := by decide
  constructor
  · rw [bitmapBlockOf, Nat.mul_comm, Nat.mul_add_div hpos, Nat.div_eq_of_lt hj, Nat.add_zero, Nat.add_comm]
  · rw [Nat.mul_comm, Nat.mul_add_mod, Nat.mod_eq_of_lt hj]

theorem marked_at (hj : j < bitPerBlock) :
    marked sb blk (i * bitPerBlock + j) = bitmapGet (blk (sb.bitmapStart.toNat + i)) j := by
  obtain ⟨hblock, hbit⟩ := position_of sb i hj
  rw [← hblock, marked, hbit]
  rfl

theorem MetadataMarked.bitmap (h : MetadataMarked sb blk) : BitmapMarked sb blk := fun n hn hmem =>
  h n hn (Or.inr (Or.inr (Or.inr hmem)))

/-- an unmarked block is not part of the bitmap -/
theorem BitmapMarked.outside (h : BitmapMarked sb blk) (hb : b < sb.numBlocks.toNat) (hclear : marked sb blk b = false) :
    b ∉ bitmapArea sb :=
  fun hmem => absurd (hclear.symm.trans (h b hb hmem)) (by decide)

end Area

/-! ## One bit at a time -/

/-- block b is zeroed and marked -/
def Disk.grant (sb : SuperBlock) (s : Disk) (b : ℕ) : Disk where
  blk := update (update s.blk b zeros) (bitmapBlockOf sb b)
    (bitmapSet (b % bitPerBlock) (s.blk (bitmapBlockOf sb b)))
  frees := s.frees

/-- the mark of block b is removed -/
def Disk.reclaim (sb : SuperBlock) (s : Disk) (b : ℕ) : Disk where
  blk := update s.blk (bitmapBlockOf sb b) (bitmapClear (b % bitPerBlock) (s.blk (bitmapBlockOf sb b)))
  frees := s.frees

/-- position j of block k holds the bit of block b -/
def IsBitOf (sb : SuperBlock) (b k j : ℕ) : Prop := k = bitmapBlockOf sb b ∧ j = b % bitPerBlock

instance (sb : SuperBlock) (b k j : ℕ) : Decidable (IsBitOf sb b k j) := inferInstanceAs (Decidable (_ ∧ _))

section Bits

variable {sb : SuperBlock} {s : Disk} {b k : ℕ}

theorem mod_lt_bits (b : ℕ) : b % bitPerBlock < bitPerBlock := Nat.mod_lt _ (by decide)

theorem grant_bitmap :
    (s.grant sb b).blk (bitmapBlockOf sb b) = bitmapSet (b % bitPerBlock) (s.blk (bitmapBlockOf sb b)) :=
  update_self ..

theorem grant_block (hb : b ≠ bitmapBlockOf sb b) : (s.grant sb b).blk b = zeros :=
  (update_of_ne hb ..).trans (update_self ..)

theorem grant_other (hk : k ≠ bitmapBlockOf sb b) (hkb : k ≠ b) : (s.grant sb b).blk k = s.blk k :=
  (update_of_ne hk ..).trans (update_of_ne hkb ..)

theorem reclaim_bitmap :
    (s.reclaim sb b).blk (bitmapBlockOf sb b) = bitmapClear (b % bitPerBlock) (s.blk (bitmapBlockOf sb b)) :=
  update_self ..

theorem reclaim_other (hk : k ≠ bitmapBlockOf sb b) : (s.reclaim sb b).blk k = s.blk k := update_of_ne hk ..

theorem grant_bits (hb : b ∉ bitmapArea sb) (hk : k ∈ bitmapArea sb) (j : ℕ) :
    bitmapGet ((s.grant sb b).blk k) j = (decide (IsBitOf sb b k j) || bitmapGet (s.blk k) j) := by
  have hkb : k ≠ b := fun he => hb (he ▸ hk)
  by_cases hblock : k = bitmapBlockOf sb b
  · rw [hblock, grant_bitmap, bitmapGet_set _ (mod_lt_bits b)]
    simp [IsBitOf]
  · rw [grant_other hblock hkb]
    simp [IsBitOf, hblock]

theorem reclaim_bits (sb : SuperBlock) (s : Disk) (b k j : ℕ) :
    bitmapGet ((s.reclaim sb b).blk k) j = (!decide (IsBitOf sb b k j) && bitmapGet (s.blk k) j) := by
  by_cases hblock : k = bitmapBlockOf sb b
  · rw [hblock, reclaim_bitmap, bitmapGet_clear _ (mod_lt_bits b)]
    simp [IsBitOf]
  · rw [reclaim_other hblock]
    simp [IsBitOf, hblock]

/-- freeing what was just allocated gives the bitmap back -/
theorem reclaim_grant_bits (hb : b ∉ bitmapArea sb) (hclear : marked sb s.blk b = false) (hk : k ∈ bitmapArea sb) (j : ℕ) :
    bitmapGet (((s.grant sb b).reclaim sb b).blk k) j = bitmapGet (s.blk k) j := by
  rw [reclaim_bits, grant_bits hb hk]
  by_cases hbit : IsBitOf sb b k j
  · have hold : bitmapGet (s.blk k) j = false := by
      rw [hbit.1, hbit.2]
      exact hclear
    simp [hbit, hold]
  · simp [hbit]

/-- marks are bits of the bitmap -/
theorem marked_congr {blk blk' : ℕ → BlockData} (h : ∀ k ∈ bitmapArea sb, ∀ j, bitmapGet (blk' k) j = bitmapGet (blk k) j)
    {n : ℕ} (hn : n < sb.numBlocks.toNat) : marked sb blk' n = marked sb blk n :=
  h _ (bitmapBlockOf_mem sb hn) _

theorem LeastFree.congr {blk blk' : ℕ → BlockData} (hleast : LeastFree sb blk b)
    (h : ∀ k ∈ bitmapArea sb, ∀ j, bitmapGet (blk' k) j = bitmapGet (blk k) j) : LeastFree sb blk' b where
  lt := hleast.lt
  searched := hleast.searched
  clear := (marked_congr h hleast.lt).trans hleast.clear
  below n hn := (marked_congr h (hn.trans hleast.lt)).trans (hleast.below n hn)

end Bits

/-! ## The search -/

/-- every block of the disk is marked -/
def Full (sb : SuperBlock) (blk : ℕ → BlockData) : Prop := ∀ n < sb.numBlocks.toNat, marked sb blk n = true

/-- the PANIC of the search: the disk is full, and the search has come to the bit behind its last block -/
def OutOfSpace (sb : SuperBlock) (blk : ℕ → BlockData) (e : Stop) : Prop :=
  e = .noSpace ∧ Full sb blk ∧ sb.numBlocks.toNat < numBitmapBlocks sb * bitPerBlock

/-- the first k blocks, all of the disk, are marked -/
def Scanned (sb : SuperBlock) (blk : ℕ → BlockData) (k : ℕ) : Prop :=
  k ≤ sb.numBlocks.toNat ∧ ∀ n < k, marked sb blk n = true

section Search

variable {sb : SuperBlock} {s : Disk} (hmark : BitmapMarked sb s.blk)
include hmark

/-- The bits of the i-th bitmap block from j on, all bits before being set. By induction on the bits left. -/
theorem allocBits_outcome {i : ℕ} (hi : i < numBitmapBlocks sb) (fuel j : ℕ) (hfuel : j + fuel = bitPerBlock)
    (hbelow : Scanned sb s.blk (i * bitPerBlock + j)) :
    After blockHandle (OutOfSpace sb s.blk)
      (fun r s' => (r = none ∧ s' = s ∧ Scanned sb s.blk ((i + 1) * bitPerBlock)) ∨
        ∃ b, r = some b ∧ LeastFree sb s.blk b ∧ s' = s.grant sb b)
      (allocBits sb i fuel j) s := by
  induction fuel generalizing j with
  | zero =>
    left
    rw [Nat.add_zero] at hfuel
    rw [hfuel, ← Nat.succ_mul] at hbelow
    exact ⟨rfl, rfl, hbelow⟩
  | succ fuel ih =>
    have hj : j < bitPerBlock := by omega
    have hsearched : i * bitPerBlock + j < numBitmapBlocks sb * bitPerBlock :=
      calc i * bitPerBlock + j < i * bitPerBlock + bitPerBlock := Nat.add_lt_add_left hj _
        _ = (i + 1) * bitPerBlock := (Nat.succ_mul _ _).symm
        _ ≤ numBitmapBlocks sb * bitPerBlock := Nat.mul_le_mul_right _ hi
    rw [allocBits]
    by_cases hend : i * bitPerBlock + j ≥ sb.numBlocks.toNat
    · rw [if_pos hend]
      exact ⟨rfl, fun n hn => hbelow.2 n (lt_of_lt_of_le hn hend), lt_of_le_of_lt hend hsearched⟩
    · rw [if_neg hend, after_bind]
      change After blockHandle _ _
        (if bitmapGet (s.blk (sb.bitmapStart.toNat + i)) j = true then _ else _) s
      rw [← marked_at hj]
      by_cases hbit : marked sb s.blk (i * bitPerBlock + j) = true
      · rw [if_pos hbit]
        refine ih (j + 1) (by omega) ⟨by omega, fun n hn => ?_⟩
        rcases Nat.lt_succ_iff_lt_or_eq.1 hn with hlt | heq
        · exact hbelow.2 n hlt
        · exact heq ▸ hbit
      · rw [if_neg hbit]
        have hclear : marked sb s.blk (i * bitPerBlock + j) = false := Bool.eq_false_iff.2 hbit
        have hleast : LeastFree sb s.blk (i * bitPerBlock + j) := ⟨by omega, hsearched, hclear, hbelow.2⟩
        refine Or.inr ⟨_, rfl, hleast, ?_⟩
        obtain ⟨hblock, hpos⟩ := position_of sb i hj
        have hne : sb.bitmapStart.toNat + i ≠ i * bitPerBlock + j := by
          intro he
          apply hmark.outside hleast.lt hclear
          rw [← he, ← hblock]
          exact bitmapBlockOf_mem sb hleast.lt
        simp only [Disk.grant, hblock, hpos, update_of_ne hne]

/-- The bitmap blocks from the i-th on. By induction on the bitmap blocks left. -/
theorem allocBlocks_outcome (fuel i : ℕ) (hfuel : i + fuel = numBitmapBlocks sb)
    (hbelow : Scanned sb s.blk (i * bitPerBlock)) :
    After blockHandle (OutOfSpace sb s.blk)
      (fun r s' => (r = 2 ^ 64 - 1 ∧ s' = s ∧ Scanned sb s.blk (numBitmapBlocks sb * bitPerBlock)) ∨
        (LeastFree sb s.blk r ∧ s' = s.grant sb r))
      (allocBlocks sb fuel i) s := by
  induction fuel generalizing i with
  | zero =>
    rw [Nat.add_zero] at hfuel
    exact Or.inl ⟨rfl, rfl, hfuel ▸ hbelow⟩
  | succ fuel ih =>
    rw [allocBlocks, after_bind]
    change After blockHandle _ _ (allocBits sb i bitPerBlock 0 >>= _) s
    have hi : i < numBitmapBlocks sb := by omega
    refine (allocBits_outcome hmark hi bitPerBlock 0 (Nat.zero_add _) (by rwa [Nat.add_zero])).bind ?_
    rintro r s' (⟨rfl, rfl, hall⟩ | ⟨b, rfl, hleast, rfl⟩)
    · exact ih (i + 1) (by omega) hall
    · exact Or.inr ⟨hleast, rfl⟩

theorem cacheAlloc_outcome :
    After blockHandle (OutOfSpace sb s.blk)
      (fun r s' => (r = 2 ^ 64 - 1 ∧ s' = s ∧ Scanned sb s.blk (numBitmapBlocks sb * bitPerBlock)) ∨
        (LeastFree sb s.blk r ∧ s' = s.grant sb r))
      (cacheAlloc sb) s :=
  allocBlocks_outcome hmark _ 0 (Nat.zero_add _) ⟨by omega, fun n hn => absurd hn (by omega)⟩

/-- the search succeeds when there is something to find -/
theorem cacheAlloc_finds {b : ℕ} (hleast : LeastFree sb s.blk b) :
    exec blockHandle (cacheAlloc sb) s = .ok (b, s.grant sb b) := by
  obtain ⟨r, s', hrun, hcase⟩ | ⟨e, -, -, hfull, -⟩ := (cacheAlloc_outcome hmark).returns_or
  · rcases hcase with ⟨-, -, hall⟩ | ⟨hr, rfl⟩
    · exact absurd (hleast.clear.symm.trans (hall.2 b hleast.searched)) (by decide)
    · rw [hrun, hr.unique hleast]
  · exact absurd (hleast.clear.symm.trans (hfull b hleast.lt)) (by decide)

end Search

theorem exec_cacheFree (sb : SuperBlock) (s : Disk) (b : ℕ) :
    exec blockHandle (cacheFree sb b) s = .ok ((), s.reclaim sb b) := rfl

/-! ## Allocating and freeing -/

/-- what `cache_alloc` has done when it returns b -/
structure Granted (sb : SuperBlock) (s : Disk) (b : ℕ) (s' : Disk) : Prop where
  lt : b < sb.numBlocks.toNat
  was_clear : marked sb s.blk b = false
  below : ∀ n < b, marked sb s.blk n = true
  is_set : marked sb s'.blk b = true
  other_bits : ∀ k ∈ bitmapArea sb, ∀ j, ¬ IsBitOf sb b k j → bitmapGet (s'.blk k) j = bitmapGet (s.blk k) j
  zeroed : s'.blk b = zeros
  other_blocks : ∀ n, n ≠ b → n ∉ bitmapArea sb → s'.blk n = s.blk n

/-- what `cache_free` of b has done -/
structure Reclaimed (sb : SuperBlock) (s : Disk) (b : ℕ) (s' : Disk) : Prop where
  is_clear : marked sb s'.blk b = false
  other_bits : ∀ k ∈ bitmapArea sb, ∀ j, ¬ IsBitOf sb b k j → bitmapGet (s'.blk k) j = bitmapGet (s.blk k) j
  other_blocks : ∀ n ∉ bitmapArea sb, s'.blk n = s.blk n

section Exact

variable {sb : SuperBlock} {s : Disk} {b : ℕ}

theorem LeastFree.granted (hmeta : MetadataMarked sb s.blk) (h : LeastFree sb s.blk b) : Granted sb s b (s.grant sb b) := by
  have hout := hmeta.bitmap.outside h.lt h.clear
  have hin := bitmapBlockOf_mem sb h.lt
  refine ⟨h.lt, h.clear, h.below, ?_, fun k hk j hj => ?_, ?_, fun n hn hna => ?_⟩
  · have hbit := grant_bits (s := s) hout hin (b % bitPerBlock)
    rw [decide_eq_true ⟨rfl, rfl⟩, Bool.true_or] at hbit
    exact hbit
  · rw [grant_bits hout hk, decide_eq_false hj, Bool.false_or]
  · exact grant_block fun he => hout (he ▸ hin)
  · exact grant_other (fun he => hna (he ▸ hin)) hn

theorem reclaim_exact (hb : b < sb.numBlocks.toNat) : Reclaimed sb s b (s.reclaim sb b) := by
  refine ⟨?_, fun k _ j hj => ?_, fun n hn => ?_⟩
  · have hbit := reclaim_bits sb s b (bitmapBlockOf sb b) (b % bitPerBlock)
    rw [decide_eq_true ⟨rfl, rfl⟩, Bool.not_true, Bool.false_and] at hbit
    exact hbit
  · rw [reclaim_bits, decide_eq_false hj, Bool.not_false, Bool.true_and]
  · exact reclaim_other fun he => hn (he ▸ bitmapBlockOf_mem sb hb)

/-- metadata stay marked when an unmarked block is allocated and freed again -/
theorem MetadataMarked.congr {blk blk' : ℕ → BlockData} (hmeta : MetadataMarked sb blk)
    (h : ∀ k ∈ bitmapArea sb, ∀ j, bitmapGet (blk' k) j = bitmapGet (blk k) j) : MetadataMarked sb blk' :=
  fun n hn hm => (marked_congr h hn).trans (hmeta n hn hm)

end Exact

/-- **Exact allocation.** When the metadata are marked: a block that `cache_alloc` returns is the least unmarked one, and it
is now zeroed and marked, with every other bit of the bitmap and every other block as before; `cache_free` removes the one
mark and does nothing else. Freeing the block just allocated restores the bitmap, and the next `cache_alloc` returns the
least unmarked number, which is the same block. -/
theorem alloc_free_exact (sb : SuperBlock) (s : Disk) (hmeta : MetadataMarked sb s.blk) :
    (∀ b s', exec blockHandle (cacheAlloc sb) s = .ok (b, s') → b ≠ 2 ^ 64 - 1 →
      Granted sb s b s' ∧
      ∃ s'', exec blockHandle (cacheFree sb b) s' = .ok ((), s'') ∧
        (∀ k ∈ bitmapArea sb, ∀ j, bitmapGet (s''.blk k) j = bitmapGet (s.blk k) j) ∧
        LeastFree sb s''.blk b ∧ ∃ t, exec blockHandle (cacheAlloc sb) s'' = .ok (b, t)) ∧
    ∀ b < sb.numBlocks.toNat, ∃ s', exec blockHandle (cacheFree sb b) s = .ok ((), s') ∧ Reclaimed sb s b s' := by
  constructor
  · intro b s' hrun hb
    obtain ⟨rfl, -⟩ | ⟨hleast, rfl⟩ := (cacheAlloc_outcome hmeta.bitmap).of_ok hrun
    · exact absurd rfl hb
    have hback : ∀ k ∈ bitmapArea sb, ∀ j,
        bitmapGet (((s.grant sb b).reclaim sb b).blk k) j = bitmapGet (s.blk k) j :=
      fun k hk j => reclaim_grant_bits (hmeta.bitmap.outside hleast.lt hleast.clear) hleast.clear hk j
    refine ⟨hleast.granted hmeta, _, exec_cacheFree sb _ b, hback, hleast.congr hback, ?_⟩
    exact ⟨_, cacheAlloc_finds (hmeta.congr hback).bitmap (hleast.congr hback)⟩
  · intro b hb
    exact ⟨_, exec_cacheFree sb s b, reclaim_exact hb⟩

/-- a disk with three bitmap blocks -/
def threeBitmaps : SuperBlock := { mkfsSuperBlock with numBlocks := 10000, numDataBlocks := 9906 }

/-- its blocks up to 4999 are marked: all of the first bitmap block and 904 bits of the second -/
def halfFull : Disk where
  blk n := if n = 91 then bitsUpTo 4095 else if n = 92 then bitsUpTo 903 else zeros
  frees := []

theorem halfFull_marked {n : ℕ} (hn : n ≤ 5000) : marked threeBitmaps halfFull.blk n = decide (n < 5000) := by
  have hstart : threeBitmaps.bitmapStart.toNat = 91 := rfl
  have hmod := mod_lt_bits n
  rw [marked, hstart]
  change _ % 4096 < 4096 at hmod
  change bitmapGet (halfFull.blk (n / 4096 + 91)) (n % 4096) = _
  by_cases hfirst : n < 4096
  · have hblock : halfFull.blk (n / 4096 + 91) = bitsUpTo 4095 := by
      rw [Nat.div_eq_of_lt hfirst]
      rfl
    rw [hblock, bitmapGet_bitsUpTo hmod]
    apply decide_eq_decide.2
    omega
  · have hdiv : n / 4096 = 1 := by omega
    have hblock : halfFull.blk (n / 4096 + 91) = bitsUpTo 903 := by
      rw [hdiv]
      rfl
    rw [hblock, bitmapGet_bitsUpTo hmod]
    apply decide_eq_decide.2
    omega

theorem halfFull_metadata : MetadataMarked threeBitmaps halfFull.blk := by
  intro n _ hm
  have hn : n < 100 := by
    rcases hm with h | ⟨-, h⟩ | ⟨no, hno, rfl⟩ | ⟨-, h⟩
    · exact h.trans (by decide)
    · exact lt_of_lt_of_le h (by decide)
    · have hno' : no < 200 := hno
      change 65 + no / 8 < 100
      omega
    · exact lt_of_lt_of_le h (by decide)
  rw [halfFull_marked (by omega)]
  exact decide_eq_true (by omega)

theorem halfFull_least : LeastFree threeBitmaps halfFull.blk 5000 where
  lt := by decide
  searched := by decide
  clear := halfFull_marked le_rfl
  below n hn := (halfFull_marked hn.le).trans (decide_eq_true hn)

theorem alloc_free_exact_halfFull :
    ∃ s', exec blockHandle (cacheAlloc threeBitmaps) halfFull = .ok (5000, s') ∧
      Granted threeBitmaps halfFull 5000 s' ∧
      ∃ s'', exec blockHandle (cacheFree threeBitmaps 5000) s' = .ok ((), s'') ∧
        ∃ t, exec blockHandle (cacheAlloc threeBitmaps) s'' = .ok (5000, t) := by
  have hrun := cacheAlloc_finds halfFull_metadata.bitmap halfFull_least
  obtain ⟨hgranted, s'', hfree, -, -, hagain⟩ :=
    (alloc_free_exact threeBitmaps halfFull halfFull_metadata).1 5000 _ hrun (by decide)
  exact ⟨_, hrun, hgranted, s'', hfree, hagain⟩

/-! ## A full disk -/

/-- `OpContext`, and the blocks that have a log slot -/
structure OpContext where
  rm : ℕ
  listed : List ℕ

/-- `cache_sync` of block n -/
def OpContext.sync (c : OpContext) (n : ℕ) : Except Stop OpContext :=
  if n ∈ c.listed then .ok c
  else if c.rm = 0 then .error .noBudget
  else .ok ⟨c.rm - 1, c.listed ++ [n]⟩

/-- the block operations inside an atomic operation -/
def contextHandle : Handler CacheOp CacheOp.Res Stop (Disk × OpContext)
  | .sync n, (s, c) => (c.sync n).map fun c' => ((), s, c')
  | o, (s, c) => (blockHandle o s).map fun r => (r.1, r.2, c)

/-- `cache_alloc(ctx)` -/
def cacheAllocIn (sb : SuperBlock) (s : Disk) (c : OpContext) : Except Stop (ℕ × Disk × OpContext) :=
  if c.rm ≤ 0 then .error .noBudget else exec contextHandle (cacheAlloc sb) (s, c)

/-- how many log slots an operation may take -/
def slotCost : CacheOp → ℕ
  | .sync _ => 1
  | _ => 0

theorem contextHandle_charges : Charges slotCost OpContext.rm blockHandle contextHandle := by
  intro o s c ho
  cases o with
  | sync n =>
    have hrm : c.rm ≠ 0 := by
      change 1 ≤ c.rm at ho
      omega
    by_cases hn : n ∈ c.listed
    · exact ⟨c, Nat.sub_le _ _, by simp only [contextHandle, OpContext.sync, if_pos hn]; rfl⟩
    · exact ⟨⟨c.rm - 1, c.listed ++ [n]⟩, le_rfl, by simp only [contextHandle, OpContext.sync, if_neg hn, if_neg hrm]; rfl⟩
  | _ => exact ⟨c, Nat.sub_le _ _, rfl⟩

/-- slots are taken for a block that is found, and only then -/
theorem allocBits_affords (sb : SuperBlock) (i fuel j : ℕ) :
    Affords slotCost (fun r k => r = none → k = 2) (allocBits sb i fuel j) 2 := by
  induction fuel generalizing j with
  | zero => exact fun _ => rfl
  | succ fuel ih =>
    rw [allocBits]
    by_cases hend : i * bitPerBlock + j ≥ sb.numBlocks.toNat
    · rw [if_pos hend]
      exact ⟨Nat.zero_le _, fun _ => trivial⟩
    · rw [if_neg hend]
      refine ⟨Nat.zero_le _, fun d => ?_⟩
      change Affords slotCost _ (if bitmapGet d j = true then _ else _) 2
      by_cases hbit : bitmapGet d j = true
      · rw [if_pos hbit]
        exact ih (j + 1)
      · rw [if_neg hbit]
        have hfree : 0 ≤ 2 := Nat.zero_le _
        -- acquire, modify, sync, modify, sync, release, release
        exact ⟨hfree, fun _ => ⟨hfree, fun _ => ⟨Nat.le_succ 1, fun _ => ⟨Nat.zero_le 1, fun _ => ⟨le_refl 1, fun _ =>
          ⟨le_refl 0, fun _ => ⟨le_refl 0, fun _ h => absurd h (Option.some_ne_none _)⟩⟩⟩⟩⟩⟩⟩

theorem allocBlocks_affords (sb : SuperBlock) (fuel i : ℕ) :
    Affords slotCost (fun _ _ => True) (allocBlocks sb fuel i) 2 := by
  induction fuel generalizing i with
  | zero => trivial
  | succ fuel ih =>
    refine ⟨Nat.zero_le _, fun _ => (allocBits_affords sb i bitPerBlock 0).bind ?_⟩
    intro r k hk
    cases r with
    | some b => trivial
    | none =>
      rw [hk rfl]
      exact ⟨Nat.zero_le _, fun _ => ih (i + 1)⟩

/-- two reserved slots are enough -/
theorem cacheAllocIn_eq (sb : SuperBlock) (s : Disk) {c : OpContext} (hrm : 2 ≤ c.rm) :
    ∃ c', cacheAllocIn sb s c = (exec blockHandle (cacheAlloc sb) s).map fun r => (r.1, r.2, c') := by
  rw [cacheAllocIn, if_neg (by omega)]
  exact (allocBlocks_affords sb _ 0).exec_eq contextHandle_charges s hrm

/-- a search that ends before the disk does returns -1, when all it looks at is marked -/
theorem cacheAllocIn_minus_one {sb : SuperBlock} {s : Disk} {c : OpContext} (hmark : BitmapMarked sb s.blk) (hrm : 2 ≤ c.rm)
    (hbits : numBitmapBlocks sb * bitPerBlock ≤ sb.numBlocks.toNat)
    (hall : ∀ n < numBitmapBlocks sb * bitPerBlock, marked sb s.blk n = true) :
    ∃ s' c', cacheAllocIn sb s c = .ok (2 ^ 64 - 1, s', c') := by
  obtain ⟨c', hrun⟩ := cacheAllocIn_eq sb s hrm
  obtain ⟨b, s', hok, hcase⟩ | ⟨e, -, -, -, hlt⟩ := (cacheAlloc_outcome hmark).returns_or
  · rcases hcase with ⟨rfl, -⟩ | ⟨hleast, -⟩
    · exact ⟨s', c', by rw [hrun, hok]; rfl⟩
    · exact absurd (hleast.clear.symm.trans (hall b hleast.searched)) (by decide)
  · exact absurd hlt (Nat.not_lt.2 hbits)

/-- `cache_alloc` stops the kernel exactly when every block is marked, and otherwise returns a block of the disk, never -1 -/
structure FailsOnlyFull (sb : SuperBlock) (s : Disk) (c : OpContext) : Prop where
  panics_iff : cacheAllocIn sb s c = .error .noSpace ↔ Full sb s.blk
  returns : ¬ Full sb s.blk → ∃ b s' c', cacheAllocIn sb s c = .ok (b, s', c') ∧ b < sb.numBlocks.toNat
  not_minus_one : ∀ s' c', cacheAllocIn sb s c ≠ .ok (2 ^ 64 - 1, s', c')

/-- the search looks at the bit behind the last block, or at the bit of a block that is not marked -/
def Conclusive (sb : SuperBlock) (blk : ℕ → BlockData) : Prop :=
  sb.numBlocks.toNat < numBitmapBlocks sb * bitPerBlock ∨
    ∃ b < sb.numBlocks.toNat, b < numBitmapBlocks sb * bitPerBlock ∧ marked sb blk b = false

/-- **A full disk is a PANIC.** With the bitmap's own blocks marked and two log slots reserved, `cache_alloc` fails only on a
full disk, and then by a PANIC, if and only if the search is conclusive. -/
theorem alloc_panics_iff_full (sb : SuperBlock) (s : Disk) (c : OpContext) (hmark : BitmapMarked sb s.blk)
    (hrm : 2 ≤ c.rm) : FailsOnlyFull sb s c ↔ Conclusive sb s.blk := by
  constructor
  · intro h
    by_contra hno
    simp only [Conclusive, not_or, not_lt, not_exists, not_and, Bool.not_eq_false] at hno
    obtain ⟨s', c', hrun⟩ := cacheAllocIn_minus_one hmark hrm hno.1 fun n hn => hno.2 n (lt_of_lt_of_le hn hno.1) hn
    exact h.not_minus_one s' c' hrun
  · intro h
    obtain ⟨c', hrun⟩ := cacheAllocIn_eq sb s hrm
    obtain ⟨b, s', hok, hcase⟩ | ⟨e, herr, rfl, hfull, -⟩ := (cacheAlloc_outcome hmark).returns_or
    · have hleast : LeastFree sb s.blk b := by
        rcases hcase with ⟨-, -, hend, hall⟩ | ⟨hleast, -⟩
        · rcases h with hbits | ⟨n, -, hn, hclear⟩
          · exact absurd hend (Nat.not_le.2 hbits)
          · exact absurd (hclear.symm.trans (hall n hn)) (by decide)
        · exact hleast
      have hnot : ¬ Full sb s.blk := fun hfull => absurd (hleast.clear.symm.trans (hfull b hleast.lt)) (by decide)
      rw [hok] at hrun
      refine ⟨iff_of_false (by rw [hrun]; exact nofun) hnot, fun _ => ⟨b, s', c', hrun, hleast.lt⟩, fun t d h => ?_⟩
      rw [hrun] at h
      have hb : b = 2 ^ 64 - 1 := (Prod.mk.inj (Except.ok.inj h)).1
      have := hleast.lt
      have := sb.numBlocks.toNat_lt
      omega
    · rw [herr] at hrun
      exact ⟨iff_of_true hrun hfull, fun hnot => absurd hfull hnot, fun t d h => nomatch hrun.symm.trans h⟩

theorem alloc_panics_iff_full_halfFull :
    ∃ b s' c', cacheAllocIn threeBitmaps halfFull ⟨2, []⟩ = .ok (b, s', c') ∧ b < 10000 := by
  have hsearch : Conclusive threeBitmaps halfFull.blk :=
    Or.inr ⟨5000, halfFull_least.lt, halfFull_least.searched, halfFull_least.clear⟩
  refine ((alloc_panics_iff_full threeBitmaps halfFull ⟨2, []⟩ halfFull_metadata.bitmap le_rfl).2 hsearch).returns fun hfull => ?_
  exact absurd (halfFull_least.clear.symm.trans (hfull 5000 (by decide))) (by decide)

/-- a disk of 4096 blocks, and one of 4150 whose data blocks fit in one bitmap block -/
def oneBitmapBlock : SuperBlock := { mkfsSuperBlock with numBlocks := 4096, numDataBlocks := 4004 }

def twoBitmapBlocks : SuperBlock := { mkfsSuperBlock with numBlocks := 4150, numDataBlocks := 4057 }

/-- the first 4096 blocks are marked -/
def firstBlockFull : Disk where
  blk n := if n = 91 then bitsUpTo 4095 else zeros
  frees := []

theorem firstBlockFull_marked {sb : SuperBlock} (hstart : sb.bitmapStart.toNat = 91) {n : ℕ} (hn : n < 4096) :
    marked sb firstBlockFull.blk n = true := by
  rw [marked_of_lt hn, hstart]
  change bitmapGet (bitsUpTo 4095) n = true
  rw [bitmapGet_bitsUpTo hn]
  exact decide_eq_true (by omega)

/-- -1 instead of a PANIC on a full disk, and -1 on a disk with 54 free blocks -/
theorem alloc_returns_minus_one :
    (Full oneBitmapBlock firstBlockFull.blk ∧
      ∃ s' c', cacheAllocIn oneBitmapBlock firstBlockFull ⟨10, []⟩ = .ok (2 ^ 64 - 1, s', c')) ∧
    (∀ n, 4096 ≤ n → n < 4150 → marked twoBitmapBlocks firstBlockFull.blk n = false) ∧
    ∃ s' c', cacheAllocIn twoBitmapBlocks firstBlockFull ⟨10, []⟩ = .ok (2 ^ 64 - 1, s', c') := by
  have hall : ∀ sb : SuperBlock, sb.bitmapStart.toNat = 91 → ∀ n < 4096, marked sb firstBlockFull.blk n = true :=
    fun _ hstart _ hn => firstBlockFull_marked hstart hn
  have hmark : ∀ sb : SuperBlock, sb.bitmapStart.toNat = 91 → sb.numBlocks.toNat ≤ 8192 → BitmapMarked sb firstBlockFull.blk := by
    intro sb hstart hnum n hn ⟨_, hlt⟩
    refine hall sb hstart n ?_
    have hdiv : (sb.numBlocks.toNat + bitPerBlock - 1) / bitPerBlock ≤ 2 := by
      change (_ + 4096 - 1) / 4096 ≤ 2
      omega
    omega
  refine ⟨⟨hall _ rfl, ?_⟩, fun n hn hn' => ?_, ?_⟩
  · exact cacheAllocIn_minus_one (hmark _ rfl (by decide)) (by decide) (by decide) (hall _ rfl)
  · have hdiv : n / bitPerBlock = 1 := by
      change n / 4096 = 1
      omega
    rw [marked, hdiv]
    change bitmapGet zeros _ = false
    rw [bitmapGet_eq, getByte_zeros]
    exact Nat.zero_testBit _
  · exact cacheAllocIn_minus_one (hmark _ rfl (by decide)) (by decide) (by decide) (hall _ rfl)

end OsKernel.Fs.Inodes
