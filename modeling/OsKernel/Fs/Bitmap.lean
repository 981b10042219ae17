/-
The block allocator (`cache_alloc` and `cache_free` of `fs/cache.c`, `common/bitmap.h`).

The bitmap has one bit for each block, in 64-bit cells. `cacheAlloc` and `cacheFree` are programs over the blocks of the
cache like the functions of the inode layer: the search goes over the bitmap blocks and their bits, halts the kernel at the
first bit past the end of the disk, and returns -1 when the bitmap ends first. The budget of the transaction is not part of
this interface.

`Disk` is a cache whose allocator is this one (`diskHandle`); it also records which blocks were freed and whether they were
marked. `checkedHandle` is the same with an assertion in front of `cache_free` that the block is marked. When one bitmap block
covers the disk with a bit to spare (`OneBitmap`), this is an abstract cache (`bitmapCache`) whose blocks in use are the
marked ones; the spare bit is what makes the search end with a PANIC rather than with -1. So a program that is correct over
abstract caches never trips the assertion, and behaves the same without it (`After.unchecked`).
-/
import OsKernel.Fs.InodeView

namespace OsKernel.Fs.Inodes

open OsKernel.Bytes OsKernel.Program
open Function (update update_of_ne update_self)

/-! ## Bits -/

/-- `BIT_PER_BLOCK` -/
abbrev bitPerBlock : ℕ := blockSize * 8

/-- the 64-bit cell of a bit -/
def cell (d : BlockData) (index : ℕ) : BitVec 64 := .ofNat 64 (getLE d (8 * (index / 64)) 8)

def bitmapGet (d : BlockData) (index : ℕ) : Bool := (cell d index).getLsbD (index % 64)

/-- `bitmap[idx] = c` for the cell of a bit -/
def setCell (d : BlockData) (index : ℕ) (c : BitVec 64) : BlockData := putLE d (8 * (index / 64)) 8 1 fun _ => c.toNat

def bitmapSet (index : ℕ) (d : BlockData) : BlockData :=
  setCell d index (cell d index ||| BitVec.twoPow 64 (index % 64))

def bitmapClear (index : ℕ) (d : BlockData) : BlockData :=
  setCell d index (cell d index &&& ~~~BitVec.twoPow 64 (index % 64))

theorem cell_setCell (d : BlockData) {i j : ℕ} (c : BitVec 64) (hi : i < bitPerBlock) :
    cell (setCell d i c) j = if j / 64 = i / 64 then c else cell d j := by
  have hi' : i < 4096 := hi
  unfold cell setCell
  by_cases h : j / 64 = i / 64
  · rw [if_pos h, h]
    have := getLE_putLE d (8 * (i / 64)) (w := 8) (k := 1) (i := 0) (fun _ => c.toNat) (by omega)
      (by change _ ≤ 512; omega)
    rw [Nat.mul_zero, Nat.add_zero] at this
    rw [this, Nat.mod_eq_of_lt (lt_of_lt_of_eq c.isLt (by norm_num))]
    exact BitVec.ofNat_toNat ..
  · rw [if_neg h, getLE_putLE_disjoint _ _ (by omega)]

theorem bitmapGet_set (d : BlockData) {i j : ℕ} (hi : i < bitPerBlock) :
    bitmapGet (bitmapSet i d) j = (decide (j = i) || bitmapGet d j) := by
  unfold bitmapGet bitmapSet
  rw [cell_setCell d _ hi]
  by_cases h : j / 64 = i / 64
  · have hcell : cell d j = cell d i := by simp only [cell, h]
    have hiff : (j % 64 = i % 64) ↔ j = i := by omega
    have hlt : j % 64 < 64 := Nat.mod_lt _ (by decide)
    rw [if_pos h, hcell, BitVec.getLsbD_or, BitVec.getLsbD_twoPow]
    by_cases hji : j = i
    · simp [hji, Nat.mod_lt]
    · have : ¬ i % 64 = j % 64 := fun he => hji (hiff.1 he.symm)
      simp [hji, this]
  · have hji : j ≠ i := fun he => h (by rw [he])
    simp [h, hji]

theorem bitmapGet_clear (d : BlockData) {i j : ℕ} (hi : i < bitPerBlock) :
    bitmapGet (bitmapClear i d) j = (!decide (j = i) && bitmapGet d j) := by
  unfold bitmapGet bitmapClear
  rw [cell_setCell d _ hi]
  by_cases h : j / 64 = i / 64
  · have hcell : cell d j = cell d i := by simp only [cell, h]
    have hlt : j % 64 < 64 := Nat.mod_lt _ (by decide)
    rw [if_pos h, hcell, BitVec.getLsbD_and, BitVec.getLsbD_not, BitVec.getLsbD_twoPow]
    by_cases hji : j = i
    · simp [hji, Nat.mod_lt]
    · have : ¬ i % 64 = j % 64 := by omega
      simp [hji, this, hlt]
  · have hji : j ≠ i := fun he => h (by rw [he])
    simp [h, hji]

/-- bit i of a bitmap is bit i mod 8 of byte i/8 -/
theorem bitmapGet_eq (d : BlockData) (i : ℕ) : bitmapGet d i = (getByte d (i / 8)).toNat.testBit (i % 8) := by
  have hlt : i % 64 < 64 := Nat.mod_lt _ (by decide)
  have hbyte : 8 * (i / 64) + i % 64 / 8 = i / 8 := by omega
  have hbit : i % 64 % 8 = i % 8 := by omega
  rw [bitmapGet, cell, BitVec.getLsbD_ofNat, testBit_getLE _ _ (by omega), hbyte, hbit, decide_eq_true hlt, Bool.true_and]

/-- a bitmap block in which the bits up to k are set -/
def bitsUpTo (k : ℕ) : BlockData := fun j => .ofNat (255 >>> (8 * j.val + 7 - k))

theorem bitmapGet_bitsUpTo {k i : ℕ} (hi : i < bitPerBlock) : bitmapGet (bitsUpTo k) i = decide (i ≤ k) := by
  have hbyte : i / 8 < 512 := Nat.div_lt_of_lt_mul hi
  have hlt : 255 >>> (8 * (i / 8) + 7 - k) < 256 := lt_of_le_of_lt (Nat.shiftRight_le ..) (by decide)
  have hones : (255 : ℕ) = 2 ^ 8 - 1 := rfl
  rw [bitmapGet_eq, getByte, dif_pos hbyte, bitsUpTo, UInt8.toNat_ofNat_of_lt' hlt, Nat.testBit_shiftRight, hones,
    Nat.testBit_two_pow_sub_one]
  apply decide_eq_decide.2
  omega

/-! ## The allocator -/

/-- the inner loop of `cache_alloc`: the bits of the i-th bitmap block from j on -/
def allocBits (sb : SuperBlock) (i : ℕ) : ℕ → ℕ → CacheM (Option ℕ)
  | 0, _ => return none
  | fuel + 1, j => do
    let bitmapBlock := sb.bitmapStart.toNat + i
    let blockNo := i * bitPerBlock + j
    if blockNo ≥ sb.numBlocks.toNat then
      release bitmapBlock
      .halt .noSpace
    else
      let d ← load bitmapBlock
      if bitmapGet d j then allocBits sb i fuel (j + 1)
      else
        acquire blockNo
        modify blockNo fun _ => zeros
        sync blockNo
        modify bitmapBlock (bitmapSet j)
        sync bitmapBlock
        release blockNo
        release bitmapBlock
        return some blockNo

/-- the outer loop of `cache_alloc`; -1 at its end -/
def allocBlocks (sb : SuperBlock) : ℕ → ℕ → CacheM ℕ
  | 0, _ => return 2 ^ 64 - 1
  | fuel + 1, i => do
    acquire (sb.bitmapStart.toNat + i)
    match ← allocBits sb i bitPerBlock 0 with
    | some blockNo => return blockNo
    | none =>
      release (sb.bitmapStart.toNat + i)
      allocBlocks sb fuel (i + 1)

/-- how many bitmap blocks the disk has; u32 arithmetic -/
def numBitmapBlocks (sb : SuperBlock) : ℕ := (sb.numDataBlocks.toNat + bitPerBlock - 1) % 2 ^ 32 / bitPerBlock

def cacheAlloc (sb : SuperBlock) : CacheM ℕ := allocBlocks sb (numBitmapBlocks sb) 0

def cacheFree (sb : SuperBlock) (blockNo : ℕ) : CacheM Unit := do
  let bitmapBlock := blockNo / bitPerBlock + sb.bitmapStart.toNat
  acquire bitmapBlock
  modify bitmapBlock (bitmapClear (blockNo % bitPerBlock))
  sync bitmapBlock
  release bitmapBlock

/-! ## A cache with this allocator -/

structure Disk where
  blk : ℕ → BlockData
  /-- the blocks `cache_free` was called on, latest first, and whether they were marked -/
  frees : List (ℕ × Bool)

/-- block n is marked in the bitmap -/
def marked (sb : SuperBlock) (blk : ℕ → BlockData) (n : ℕ) : Bool :=
  bitmapGet (blk (n / bitPerBlock + sb.bitmapStart.toNat)) (n % bitPerBlock)

/-- the block operations; the allocator runs on these -/
def blockHandle : Handler CacheOp CacheOp.Res Stop Disk
  | .acquire _, s => .ok ((), s)
  | .load n, s => .ok (s.blk n, s)
  | .modify n f, s => .ok ((), { s with blk := update s.blk n (f (s.blk n)) })
  | .sync _, s => .ok ((), s)
  | .release _, s => .ok ((), s)
  | .alloc, _ => .error .noSpace
  | .free _, s => .ok ((), s)
  | .consoleRead _, s => .ok ([], s)
  | .consoleWrite src, s => .ok (src.length, s)

def diskHandle (sb : SuperBlock) : Handler CacheOp CacheOp.Res Stop Disk
  | .alloc, s => exec blockHandle (cacheAlloc sb) s
  | .free n, s => exec blockHandle (cacheFree sb n) { s with frees := (n, marked sb s.blk n) :: s.frees }
  | o, s => blockHandle o s

/-- `diskHandle` with an assertion that what is freed is marked -/
def checkedHandle (sb : SuperBlock) : Handler CacheOp CacheOp.Res Stop Disk
  | .free n, s => if n < bitPerBlock ∧ marked sb s.blk n then diskHandle sb (.free n) s else .error .assertion
  | o, s => diskHandle sb o s

/-- one bitmap block covers the disk, with a bit to spare -/
structure OneBitmap (sb : SuperBlock) : Prop where
  one : numBitmapBlocks sb = 1
  spare : sb.numBlocks.toNat < bitPerBlock

/-- the blocks as the inode layer sees them, and the marked ones; the bitmap block itself is masked -/
def Disk.view (sb : SuperBlock) (s : Disk) : View where
  blk n := if n = sb.bitmapStart.toNat then zeros else s.blk n
  used := { n | n < bitPerBlock ∧ bitmapGet (s.blk sb.bitmapStart.toNat) n = true }

section Laws

variable {sb : SuperBlock} {s : Disk}

theorem marked_of_lt {blk : ℕ → BlockData} {n : ℕ} (hn : n < bitPerBlock) :
    marked sb blk n = bitmapGet (blk sb.bitmapStart.toNat) n := by
  rw [marked, Nat.div_eq_of_lt hn, Nat.mod_eq_of_lt hn, Nat.zero_add]

/-- block n is zeroed and marked -/
def Disk.take (sb : SuperBlock) (s : Disk) (n : ℕ) : Disk where
  blk := update (update s.blk n zeros) sb.bitmapStart.toNat (bitmapSet n (s.blk sb.bitmapStart.toNat))
  frees := s.frees

theorem view_take {n : ℕ} (hn : n < bitPerBlock) (hb : n ≠ sb.bitmapStart.toNat) :
    (s.take sb n).view sb = (s.view sb).take n := by
  simp only [Disk.view, Disk.take, View.take, View.mk.injEq]
  constructor
  · funext m
    by_cases hm : m = sb.bitmapStart.toNat
    · rw [if_pos hm, update_of_ne (by rw [hm]; exact hb.symm), if_pos hm]
    · rw [if_neg hm, update_of_ne hm]
      by_cases hmn : m = n
      · rw [hmn, update_self, update_self]
      · rw [update_of_ne hmn, update_of_ne hmn, if_neg hm]
  · ext m
    simp only [update_self, bitmapGet_set _ hn, Set.mem_ofPred_eq, Set.mem_insert_iff, Bool.or_eq_true,
      decide_eq_true_eq]
    constructor
    · rintro ⟨hm, h | h⟩
      · exact Or.inl h
      · exact Or.inr ⟨hm, h⟩
    · rintro (rfl | ⟨hm, h⟩)
      · exact ⟨hn, Or.inl rfl⟩
      · exact ⟨hm, Or.inr h⟩

/-- what the search guarantees: a block whose bit was clear -/
structure Found (sb : SuperBlock) (s : Disk) (n : ℕ) (s' : Disk) : Prop where
  lt : n < sb.numBlocks.toNat
  clear : bitmapGet (s.blk sb.bitmapStart.toNat) n = false
  state : s' = s.take sb n

/-- The inner loop on the first bitmap block. The fuel reaches past the end of the disk, so the search ends with a block or
with a PANIC. -/
theorem allocBits_spec (hself : sb.bitmapStart.toNat ∈ (s.view sb).used) (fuel j : ℕ)
    (hfuel : sb.numBlocks.toNat < j + fuel) (hj : j ≤ sb.numBlocks.toNat) :
    After blockHandle (fun e => e = .noSpace) (fun r s' => ∃ n, r = some n ∧ Found sb s n s') (allocBits sb 0 fuel j) s := by
  induction fuel generalizing j with
  | zero => omega
  | succ fuel ih =>
    rw [allocBits]
    rw [Nat.zero_mul, Nat.zero_add, Nat.add_zero]
    by_cases hend : j ≥ sb.numBlocks.toNat
    · rw [if_pos hend]
      rfl
    · rw [if_neg hend]
      by_cases hbit : bitmapGet (s.blk sb.bitmapStart.toNat) j = true
      · have hrest := ih (j + 1) (by omega) (by omega)
        rw [after_bind]
        change After blockHandle _ _ (if bitmapGet (s.blk sb.bitmapStart.toNat) j = true then _ else _) s
        rw [if_pos hbit]
        exact hrest
      · have hclear : bitmapGet (s.blk sb.bitmapStart.toNat) j = false := Bool.eq_false_iff.2 hbit
        have hne : sb.bitmapStart.toNat ≠ j := by
          intro he
          rw [← he] at hbit
          exact hbit hself.2
        rw [after_bind]
        change After blockHandle _ _ (if bitmapGet (s.blk sb.bitmapStart.toNat) j = true then _ else _) s
        rw [if_neg hbit]
        refine ⟨j, rfl, by omega, hclear, ?_⟩
        simp only [Disk.take, update_of_ne hne]

theorem cacheAlloc_spec (hone : OneBitmap sb) (hself : sb.bitmapStart.toNat ∈ (s.view sb).used) :
    After blockHandle (fun e => e = .noSpace) (Found sb s) (cacheAlloc sb) s := by
  rw [cacheAlloc, hone.one, allocBlocks, after_bind]
  change After blockHandle _ _ (allocBits sb 0 bitPerBlock 0 >>= _) s
  refine (allocBits_spec hself bitPerBlock 0 (by rw [Nat.zero_add]; exact hone.spare) (Nat.zero_le _)).bind ?_
  rintro r s' ⟨n, rfl, h⟩
  exact h

theorem view_free {n : ℕ} (hn : n < bitPerBlock) {l : List (ℕ × Bool)} :
    Disk.view sb { s with
      blk := update s.blk sb.bitmapStart.toNat (bitmapClear n (s.blk sb.bitmapStart.toNat)), frees := l } =
      (s.view sb).drop n := by
  simp only [Disk.view, View.drop, View.mk.injEq]
  constructor
  · funext m
    by_cases hm : m = sb.bitmapStart.toNat
    · rw [if_pos hm, if_pos hm]
    · rw [if_neg hm, if_neg hm, update_of_ne hm]
  · ext m
    simp only [update_self, bitmapGet_clear _ hn, Set.mem_ofPred_eq, Set.mem_sdiff, Set.mem_singleton_iff,
      Bool.and_eq_true, Bool.not_eq_true', decide_eq_false_iff_not]
    constructor
    · rintro ⟨h1, h2, h3⟩
      exact ⟨⟨h1, h3⟩, h2⟩
    · rintro ⟨⟨h1, h3⟩, h2⟩
      exact ⟨h1, h2, h3⟩

/-- `cache_free` of a block the bitmap covers -/
theorem exec_free {n : ℕ} (hn : n < bitPerBlock) :
    diskHandle sb (.free n) s = .ok ((), { s with
      blk := update s.blk sb.bitmapStart.toNat (bitmapClear n (s.blk sb.bitmapStart.toNat))
      frees := (n, bitmapGet (s.blk sb.bitmapStart.toNat) n) :: s.frees }) := by
  simp only [diskHandle, cacheFree, marked_of_lt hn, Nat.div_eq_of_lt hn, Nat.mod_eq_of_lt hn, Nat.zero_add]
  rfl

/-- the disk as an abstract cache: the marked blocks are in use -/
def bitmapCache (sb : SuperBlock) (hone : OneBitmap sb) : AbstractCache Disk where
  handle := checkedHandle sb
  view := Disk.view sb
  inner := {sb.bitmapStart.toNat}
  acquire_spec s _ _ := ⟨s, rfl, rfl⟩
  load_spec s n hn := by
    refine ⟨s, ?_, rfl⟩
    rw [Disk.view]
    dsimp only
    rw [if_neg (show n ≠ sb.bitmapStart.toNat from hn)]
    rfl
  modify_spec s n f hn := by
    refine ⟨{ s with blk := update s.blk n (f (s.blk n)) }, rfl, ?_⟩
    have hn' : n ≠ sb.bitmapStart.toNat := hn
    simp only [Disk.view, View.set, View.mk.injEq, if_neg hn', update_of_ne hn'.symm, and_true]
    funext m
    by_cases hm : m = n
    · rw [hm, update_self, update_self, if_neg hn']
    · rw [update_of_ne hm, update_of_ne hm]
  sync_spec s _ _ := ⟨s, rfl, rfl⟩
  release_spec s _ _ := ⟨s, rfl, rfl⟩
  alloc_spec s _ hin := by
    have hspec := cacheAlloc_spec hone (hin rfl)
    unfold After at hspec
    change exec blockHandle (cacheAlloc sb) s = _ ∨ ∃ n s', exec blockHandle (cacheAlloc sb) s = _ ∧ _
    cases hr : exec blockHandle (cacheAlloc sb) s with
    | error e =>
      rw [hr] at hspec
      exact Or.inl (congrArg Except.error hspec)
    | ok r =>
      rw [hr] at hspec
      obtain ⟨hlt, hclear, hstate⟩ : Found sb s r.1 r.2 := hspec
      have hn : r.1 < bitPerBlock := hlt.trans hone.spare
      have hunmarked : r.1 ∉ (s.view sb).used := fun h => Bool.false_ne_true (hclear.symm.trans h.2)
      refine Or.inr ⟨r.1, r.2, rfl, hunmarked, hn.trans (by decide), ?_⟩
      rw [hstate]
      exact view_take hn fun he => hunmarked (he ▸ hin rfl)
  free_spec s n hu _ := by
    have hmarked : marked sb s.blk n = true := (marked_of_lt hu.1).trans hu.2
    have hok : checkedHandle sb (.free n) s = diskHandle sb (.free n) s := if_pos ⟨hu.1, hmarked⟩
    exact ⟨_, hok.trans (exec_free hu.1), view_free hu.1⟩

/-! ## Without the assertion -/

theorem checked_stricter (sb : SuperBlock) : Stricter (fun e => e = .assertion) (checkedHandle sb) (diskHandle sb) := by
  intro o s
  cases o with
  | free n =>
    by_cases h : n < bitPerBlock ∧ marked sb s.blk n
    · right
      rw [checkedHandle, if_pos h]
    · exact Or.inl ⟨.assertion, rfl, if_neg h⟩
  | acquire n => exact Or.inr rfl
  | load n => exact Or.inr rfl
  | modify n f => exact Or.inr rfl
  | sync n => exact Or.inr rfl
  | release n => exact Or.inr rfl
  | alloc => exact Or.inr rfl
  | consoleRead n => exact Or.inr rfl
  | consoleWrite d => exact Or.inr rfl

/-- everything freed so far was marked -/
def Disk.Tidy (s : Disk) : Prop := ∀ x ∈ s.frees, x.2 = true

theorem blockHandle_frees (o : CacheOp) {s s' : Disk} {r : o.Res} (h : blockHandle o s = .ok (r, s')) :
    s'.frees = s.frees := by
  cases o <;> cases h <;> rfl

theorem checked_tidy (o : CacheOp) (s : Disk) (r : o.Res) (s' : Disk) (hs : s.Tidy)
    (h : checkedHandle sb o s = .ok (r, s')) : s'.Tidy := by
  cases o with
  | free n =>
    by_cases hm : n < bitPerBlock ∧ marked sb s.blk n
    · rw [checkedHandle, if_pos hm, exec_free hm.1] at h
      obtain ⟨-, rfl⟩ := Prod.mk.inj (Except.ok.inj h)
      intro x hx
      obtain rfl | hx := List.mem_cons.1 hx
      · rw [← marked_of_lt hm.1]
        exact hm.2
      · exact hs x hx
    · rw [checkedHandle, if_neg hm] at h
      cases h
  | alloc =>
    have hfrees : s'.frees = s.frees :=
      exec_keeps (h := blockHandle) (I := fun u => u.frees = s.frees)
        (fun o _ _ _ hu ho => (blockHandle_frees o ho).trans hu) (cacheAlloc sb) rfl h
    rw [Disk.Tidy, hfrees]
    exact hs
  | acquire n => rwa [Disk.Tidy, blockHandle_frees (.acquire n) h]
  | load n => rwa [Disk.Tidy, blockHandle_frees (.load n) h]
  | modify n f => rwa [Disk.Tidy, blockHandle_frees (.modify n f) h]
  | sync n => rwa [Disk.Tidy, blockHandle_frees (.sync n) h]
  | release n => rwa [Disk.Tidy, blockHandle_frees (.release n) h]
  | consoleRead n => rwa [Disk.Tidy, blockHandle_frees (.consoleRead n) h]
  | consoleWrite d => rwa [Disk.Tidy, blockHandle_frees (.consoleWrite d) h]

/-- a program correct over the checked disk is correct without the check, and frees nothing that is not marked -/
theorem After.unchecked {α : Type} {E : Stop → Prop} {Q : α → Disk → Prop} {p : CacheM α} (hs : s.Tidy)
    (hp : After (checkedHandle sb) E Q p s) (hE : ¬ E .assertion) :
    After (diskHandle sb) E (fun a s' => Q a s' ∧ s'.Tidy) p s := by
  have hp' : After (checkedHandle sb) E (fun a s' => Q a s' ∧ s'.Tidy) p s := by
    unfold After at hp ⊢
    cases hr : exec (checkedHandle sb) p s with
    | error e =>
      rw [hr] at hp
      exact hp
    | ok r =>
      rw [hr] at hp
      exact ⟨hp, exec_keeps checked_tidy p hs hr⟩
  exact hp'.transfer (checked_stricter sb) fun e he hB => hE (hB ▸ he)

end Laws

end OsKernel.Fs.Inodes
