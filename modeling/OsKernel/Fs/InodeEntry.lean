/-
On-disk inodes (`fs/defines.h`, the accessors of `fs/inode.c`).

An `InodeEntry` is 64 bytes, eight of them to a block: four 16-bit words, then the size, the twelve direct addresses and the
indirect one as 32-bit words. `getEntry` and `putEntry` read and write the entry of an inode in its block.

A file's blocks are found through slots: a direct address, or a leaf of the indirect block. The indirect block is a data
block itself, so it is a slot as well (`Slot`), and `ref` is the block number a slot holds, 0 when it is empty.

Results: `getEntry_putEntry` and `getEntry_putEntry_other` (an entry survives its block, its neighbours are untouched).
-/
import OsKernel.Fs.Defines

namespace OsKernel.Fs

open OsKernel.Bytes

/-- `INODE_NUM_DIRECT` -/
abbrev inodeNumDirect : ℕ := 12
/-- `INODE_NUM_INDIRECT` -/
abbrev inodeNumIndirect : ℕ := blockSize / 4
/-- `INODE_PER_BLOCK` -/
abbrev inodePerBlock : ℕ := blockSize / 64
/-- `INODE_MAX_BLOCKS` -/
abbrev inodeMaxBlocks : ℕ := inodeNumDirect + inodeNumIndirect
/-- `INODE_MAX_BYTES` -/
abbrev inodeMaxBytes : ℕ := inodeMaxBlocks * blockSize

abbrev InodeType := UInt16

/-- `INODE_INVALID`: the inode is free -/
abbrev inodeInvalid : InodeType := 0
abbrev inodeDirectory : InodeType := 1
abbrev inodeRegular : InodeType := 2
abbrev inodeDevice : InodeType := 3

structure InodeEntry where
  type : InodeType
  major : UInt16
  minor : UInt16
  numLinks : UInt16
  numBytes : UInt32
  addrs : Fin inodeNumDirect → UInt32
  indirect : UInt32
deriving DecidableEq

/-- the entry `memset` leaves behind -/
def InodeEntry.zero : InodeEntry := ⟨0, 0, 0, 0, 0, fun _ => 0, 0⟩

/-- the entry `inode_alloc` sets up -/
def InodeEntry.fresh (type : InodeType) : InodeEntry := ⟨type, 0, 0, 0, 0, fun _ => 0, 0⟩

/-- the four 16-bit words of an entry, in order -/
def InodeEntry.halves (e : InodeEntry) (i : ℕ) : ℕ :=
  match i with
  | 0 => e.type.toNat
  | 1 => e.major.toNat
  | 2 => e.minor.toNat
  | _ => e.numLinks.toNat

/-- the fourteen 32-bit words behind them -/
def InodeEntry.words (e : InodeEntry) (i : ℕ) : ℕ :=
  if i = 0 then e.numBytes.toNat
  else if h : i - 1 < inodeNumDirect then (e.addrs ⟨i - 1, h⟩).toNat
  else e.indirect.toNat

/-- where the entry of an inode starts in its block: `get_entry` -/
def entryOffset (inodeNo : ℕ) : ℕ := 64 * (inodeNo % inodePerBlock)

/-- `*get_entry(block, inode_no)` -/
def getEntry (d : BlockData) (inodeNo : ℕ) : InodeEntry :=
  let o := entryOffset inodeNo
  { type := .ofNat (getLE d o 2)
    major := .ofNat (getLE d (o + 2) 2)
    minor := .ofNat (getLE d (o + 4) 2)
    numLinks := .ofNat (getLE d (o + 6) 2)
    numBytes := .ofNat (getLE d (o + 8) 4)
    addrs := fun k => .ofNat (getLE d (o + 12 + 4 * k) 4)
    indirect := .ofNat (getLE d (o + 60) 4) }

/-- `*get_entry(block, inode_no) = e` -/
def putEntry (inodeNo : ℕ) (e : InodeEntry) (d : BlockData) : BlockData :=
  let o := entryOffset inodeNo
  putLE (putLE d o 2 4 e.halves) (o + 8) 4 14 e.words

theorem entryOffset_le (inodeNo : ℕ) : entryOffset inodeNo + 64 ≤ 512 := by
  have : inodeNo % inodePerBlock < 8 := Nat.mod_lt _ (by decide)
  unfold entryOffset
  omega

theorem getLE_putEntry_half (d : BlockData) (n : ℕ) (e : InodeEntry) {i : ℕ} (hi : i < 4) :
    getLE (putEntry n e d) (entryOffset n + 2 * i) 2 = e.halves i % 256 ^ 2 := by
  have hle := entryOffset_le n
  rw [putEntry, getLE_putLE_disjoint _ _ (by omega)]
  exact getLE_putLE d _ _ hi (by change _ ≤ 512; omega)

theorem getLE_putEntry_word (d : BlockData) (n : ℕ) (e : InodeEntry) {i : ℕ} (hi : i < 14) :
    getLE (putEntry n e d) (entryOffset n + 8 + 4 * i) 4 = e.words i % 256 ^ 4 := by
  have hle := entryOffset_le n
  exact getLE_putLE _ _ _ hi (by change _ ≤ 512; omega)

theorem ofNat16_of_half {v : ℕ} {x : UInt16} (h : v = x.toNat % 256 ^ 2) : UInt16.ofNat v = x := by
  have := x.toNat_lt
  rw [h, Nat.mod_eq_of_lt (by omega), UInt16.ofNat_toNat]

theorem ofNat32_of_word {v : ℕ} {x : UInt32} (h : v = x.toNat % 256 ^ 4) : UInt32.ofNat v = x := by
  have := x.toNat_lt
  rw [h, Nat.mod_eq_of_lt (by omega), UInt32.ofNat_toNat]

theorem getEntry_putEntry (d : BlockData) (n : ℕ) (e : InodeEntry) : getEntry (putEntry n e d) n = e := by
  rcases e with ⟨type, major, minor, numLinks, numBytes, addrs, indirect⟩
  simp only [getEntry, InodeEntry.mk.injEq]
  refine ⟨?_, ?_, ?_, ?_, ?_, ?_, ?_⟩
  · exact ofNat16_of_half (getLE_putEntry_half d n _ (i := 0) (by omega))
  · exact ofNat16_of_half (getLE_putEntry_half d n _ (i := 1) (by omega))
  · exact ofNat16_of_half (getLE_putEntry_half d n _ (i := 2) (by omega))
  · exact ofNat16_of_half (getLE_putEntry_half d n _ (i := 3) (by omega))
  · exact ofNat32_of_word (getLE_putEntry_word d n _ (i := 0) (by omega))
  · funext k
    apply ofNat32_of_word
    have hk : k.val < 12 := k.isLt
    have := getLE_putEntry_word d n ⟨type, major, minor, numLinks, numBytes, addrs, indirect⟩ (i := k.val + 1) (by omega)
    rw [show entryOffset n + 8 + 4 * (k.val + 1) = entryOffset n + 12 + 4 * k.val by omega] at this
    rw [this]
    simp [InodeEntry.words, hk]
  · exact ofNat32_of_word (getLE_putEntry_word d n _ (i := 13) (by omega))

/-- a word outside the entry of inode n is not affected by a write of the entry -/
theorem getLE_putEntry_out (d : BlockData) {n off w : ℕ} (e : InodeEntry)
    (h : off + w ≤ entryOffset n ∨ entryOffset n + 64 ≤ off) : getLE (putEntry n e d) off w = getLE d off w := by
  rw [putEntry, getLE_putLE_disjoint _ _ (by omega), getLE_putLE_disjoint _ _ (by omega)]

theorem getEntry_putEntry_other (d : BlockData) {n m : ℕ} (e : InodeEntry) (h : n % inodePerBlock ≠ m % inodePerBlock) :
    getEntry (putEntry n e d) m = getEntry d m := by
  have hsep : entryOffset m + 64 ≤ entryOffset n ∨ entryOffset n + 64 ≤ entryOffset m := by
    unfold entryOffset
    omega
  have hword : ∀ i w, i + w ≤ 64 → getLE (putEntry n e d) (entryOffset m + i) w = getLE d (entryOffset m + i) w := by
    intro i w hiw
    exact getLE_putEntry_out d e (by omega)
  simp only [getEntry, InodeEntry.mk.injEq]
  refine ⟨?_, ?_, ?_, ?_, ?_, ?_, ?_⟩
  · exact congrArg _ (hword 0 2 (by omega))
  · exact congrArg _ (hword 2 2 (by omega))
  · exact congrArg _ (hword 4 2 (by omega))
  · exact congrArg _ (hword 6 2 (by omega))
  · exact congrArg _ (hword 8 4 (by omega))
  · funext k
    have hk : k.val < 12 := k.isLt
    rw [Nat.add_assoc]
    exact congrArg _ (hword (12 + 4 * k.val) 4 (by omega))
  · exact congrArg _ (hword 60 4 (by omega))

/-! ## Slots -/

/-- the places a block number can be stored in -/
inductive Slot where
  | direct (k : Fin inodeNumDirect)
  /-- the pointer to the indirect block -/
  | indirect
  /-- an address in the indirect block -/
  | leaf (k : Fin inodeNumIndirect)
deriving DecidableEq

/-- the block number in a slot of an inode, 0 when the slot is empty -/
def ref (blk : ℕ → BlockData) (e : InodeEntry) : Slot → ℕ
  | .direct k => (e.addrs k).toNat
  | .indirect => e.indirect.toNat
  | .leaf k => if e.indirect = 0 then 0 else getLE (blk e.indirect.toNat) (4 * k) 4

/-- the slot of the k-th block of a file -/
def slotOf (k : ℕ) : Option Slot :=
  if h : k < inodeNumDirect then some (.direct ⟨k, h⟩)
  else if h : k - inodeNumDirect < inodeNumIndirect then some (.leaf ⟨k - inodeNumDirect, h⟩)
  else none

/-- the k-th block of a file, 0 when there is none -/
def blockAt (blk : ℕ → BlockData) (e : InodeEntry) (k : ℕ) : ℕ := (slotOf k).elim 0 (ref blk e)

theorem eq_of_slotOf_direct {k : ℕ} {j : Fin inodeNumDirect} (h : slotOf k = some (.direct j)) : k = j := by
  unfold slotOf at h
  split_ifs at h
  · exact congrArg Fin.val (Slot.direct.inj (Option.some.inj h))
  · exact absurd (Option.some.inj h) nofun

theorem eq_of_slotOf_leaf {k : ℕ} {j : Fin inodeNumIndirect} (h : slotOf k = some (.leaf j)) : k = inodeNumDirect + j := by
  unfold slotOf at h
  split_ifs at h with h1 h2
  · exact absurd (Option.some.inj h) nofun
  · have := congrArg Fin.val (Slot.leaf.inj (Option.some.inj h))
    dsimp only at this
    omega

theorem slotOf_ne_indirect (k : ℕ) : slotOf k ≠ some .indirect := by
  unfold slotOf
  split_ifs <;> exact nofun

theorem slotOf_inj {k l : ℕ} {t : Slot} (hk : slotOf k = some t) (hl : slotOf l = some t) : k = l := by
  cases t with
  | direct j => rw [eq_of_slotOf_direct hk, eq_of_slotOf_direct hl]
  | indirect => exact absurd hk (slotOf_ne_indirect k)
  | leaf j => rw [eq_of_slotOf_leaf hk, eq_of_slotOf_leaf hl]

theorem slotOf_isSome {k : ℕ} (hk : k < inodeMaxBlocks) : ∃ t, slotOf k = some t := by
  by_cases h : k < inodeNumDirect
  · exact ⟨_, dif_pos h⟩
  · have h' : k - inodeNumDirect < inodeNumIndirect := Nat.sub_lt_left_of_lt_add (not_lt.1 h) hk
    exact ⟨.leaf ⟨k - inodeNumDirect, h'⟩, by rw [slotOf, dif_neg h, dif_pos h']⟩

theorem blockAt_eq {blk : ℕ → BlockData} {e : InodeEntry} {k : ℕ} {t : Slot} (hk : slotOf k = some t) :
    blockAt blk e k = ref blk e t := by
  rw [blockAt, hk]
  rfl

end OsKernel.Fs
