/-
On-disk format of the file system (`fs/defines.h`) and the constants of the block cache (`fs/cache.h`).

Blocks are buffers of `blockSize` bytes. The log header fills one block: a count followed by `logMaxSize` block numbers,
all of them 64-bit little-endian words (`encode`, `decode`). Values of type `usize` are natural numbers; `addU` and
`subU` are the machine's wrapping operations and are used wherever the source's counters could wrap.

Results: `decode_encode` (a header of 64-bit values survives the trip through its block) and `decode_count` (the count
alone does, whatever the rest holds).
-/
import OsKernel.Lib.Bytes

namespace OsKernel.Fs

open OsKernel.Bytes

/-- `BLOCK_SIZE` -/
abbrev blockSize : ℕ := 512
/-- `LOG_MAX_SIZE`: how many block numbers fit in the log header -/
abbrev logMaxSize : ℕ := (blockSize - 8) / 8
/-- `OP_MAX_NUM_BLOCKS` -/
abbrev opMaxNumBlocks : ℕ := 10
/-- `EVICTION_THRESHOLD` -/
abbrev evictionThreshold : ℕ := 20

/-- the content of one block -/
abbrev BlockData := Buf blockSize

/-- `SuperBlock`: the layout of the disk, all fields u32 -/
structure SuperBlock where
  numBlocks : UInt32
  numDataBlocks : UInt32
  numInodes : UInt32
  /-- number of blocks for logging, including the log header -/
  numLogBlocks : UInt32
  logStart : UInt32
  inodeStart : UInt32
  bitmapStart : UInt32
deriving DecidableEq, Repr

/-- the super block `user/mkfs/main.c` writes: 1000 blocks (`FSSIZE`), of them 2 for boot and super block, `LOG_MAX_SIZE`
log blocks, 26 inode blocks and one bitmap block -/
def mkfsSuperBlock : SuperBlock where
  numBlocks := 1000
  numDataBlocks := 1000 - (2 + 63 + 26 + 1)
  numInodes := 200
  numLogBlocks := 63
  logStart := 2
  inodeStart := 2 + 63
  bitmapStart := 2 + 63 + 26

/-- the blocks of the log area: the header and the slots behind it -/
def InLogArea (sb : SuperBlock) (x : ℕ) : Prop :=
  sb.logStart.toNat ≤ x ∧ x < sb.logStart.toNat + sb.numLogBlocks.toNat

instance (sb : SuperBlock) (x : ℕ) : Decidable (InLogArea sb x) := inferInstanceAs (Decidable (_ ∧ _))

/-- block number of log slot i; the log lies on a disk of u32 block numbers, so `log_start + 1` does not wrap -/
def logSlot (sb : SuperBlock) (i : ℕ) : ℕ := sb.logStart.toNat + 1 + i

theorem slot_inLogArea {sb : SuperBlock} {n i : ℕ} (hroom : n + 1 ≤ sb.numLogBlocks.toNat) (hi : i < n) :
    InLogArea sb (logSlot sb i) := by
  unfold InLogArea logSlot
  omega

theorem header_inLogArea {sb : SuperBlock} {n : ℕ} (hroom : n + 1 ≤ sb.numLogBlocks.toNat) :
    InLogArea sb sb.logStart.toNat := by
  unfold InLogArea
  omega

/-! ## usize arithmetic -/

/-- `a + b` in usize -/
def addU (a b : ℕ) : ℕ := (a + b) % 2 ^ 64

/-- `a - b` in usize -/
def subU (a b : ℕ) : ℕ := (a + (2 ^ 64 - b % 2 ^ 64)) % 2 ^ 64

theorem addU_of_lt {a b : ℕ} (h : a + b < 2 ^ 64) : addU a b = a + b := Nat.mod_eq_of_lt h

theorem subU_of_le {a b : ℕ} (h : b ≤ a) (ha : a < 2 ^ 64) : subU a b = a - b := by
  unfold subU; omega

/-! ## Log header -/

/-- `LogHeader`: how many blocks the log holds and their home block numbers -/
structure LogHeader where
  numBlocks : ℕ
  blockNo : Fin logMaxSize → ℕ

/-- `header.block_no[i]`; none when i is outside the array -/
def LogHeader.entry (h : LogHeader) (i : ℕ) : Option ℕ :=
  if hi : i < logMaxSize then some (h.blockNo ⟨i, hi⟩) else none

/-- `header.block_no[i] = n`; none when i is outside the array -/
def LogHeader.store (h : LogHeader) (i n : ℕ) : Option LogHeader :=
  if hi : i < logMaxSize then some { h with blockNo := Function.update h.blockNo ⟨i, hi⟩ n } else none

/-- the block numbers `block_no[0..num_blocks)` -/
def LogHeader.listed (h : LogHeader) : List ℕ := (List.range h.numBlocks).filterMap h.entry

/-- every field is a 64-bit value, as the type `usize` promises -/
structure LogHeader.Fits (h : LogHeader) : Prop where
  count : h.numBlocks < 2 ^ 64
  entries : ∀ i, h.blockNo i < 2 ^ 64

/-- the block image of the header: `(u8 *)&header` -/
def encode (h : LogHeader) : BlockData :=
  putLE zeros 0 8 (logMaxSize + 1) fun i => if i = 0 then h.numBlocks else (h.entry (i - 1)).getD 0

/-- the header a block holds -/
def decode (d : BlockData) : LogHeader where
  numBlocks := getLE d 0 8
  blockNo := fun i => getLE d (8 + 8 * i.val) 8

theorem decode_count (h : LogHeader) : (decode (encode h)).numBlocks = h.numBlocks % 2 ^ 64 := by
  have := getLE_putLE (zeros : BlockData) 0 (w := 8) (k := logMaxSize + 1) (i := 0)
    (fun i => if i = 0 then h.numBlocks else (h.entry (i - 1)).getD 0) (by decide) (by decide)
  simpa [decode, encode] using this

theorem decode_blockNo (h : LogHeader) (i : Fin logMaxSize) :
    (decode (encode h)).blockNo i = h.blockNo i % 2 ^ 64 := by
  have hi := i.isLt
  have := getLE_putLE (zeros : BlockData) 0 (w := 8) (k := logMaxSize + 1) (i := i.val + 1)
    (fun i => if i = 0 then h.numBlocks else (h.entry (i - 1)).getD 0) (by omega) (by decide)
  rw [show 0 + 8 * (i.val + 1) = 8 + 8 * i.val by omega] at this
  simp only [decode, encode, this]
  simp [LogHeader.entry, hi]

theorem decode_encode {h : LogHeader} (hf : h.Fits) : decode (encode h) = h := by
  obtain ⟨n, b⟩ := h
  have h1 := decode_count ⟨n, b⟩
  have h2 := fun i => decode_blockNo ⟨n, b⟩ i
  rw [Nat.mod_eq_of_lt hf.count] at h1
  rcases hd : decode (encode ⟨n, b⟩) with ⟨n', b'⟩
  rw [hd] at h1 h2
  simp only at h1 h2
  congr 1
  funext i
  rw [h2 i, Nat.mod_eq_of_lt (hf.entries i)]

theorem entry_of_lt (h : LogHeader) {i : ℕ} (hi : i < logMaxSize) : h.entry i = some (h.blockNo ⟨i, hi⟩) := by
  simp [LogHeader.entry, hi]

theorem mem_listed {h : LogHeader} {n : ℕ} : n ∈ h.listed ↔ ∃ i, i < h.numBlocks ∧ h.entry i = some n := by
  simp [LogHeader.listed]

/-- a header whose count is in range lists exactly `num_blocks` numbers -/
theorem listed_eq {h : LogHeader} (hc : h.numBlocks ≤ logMaxSize) :
    h.listed = (List.range h.numBlocks).map fun i => (h.entry i).getD 0 := by
  unfold LogHeader.listed
  rw [← List.filterMap_eq_map]
  apply List.filterMap_congr
  intro i hi
  rw [List.mem_range] at hi
  have hlt : i < logMaxSize := by omega
  simp [entry_of_lt h hlt]

theorem length_listed {h : LogHeader} (hc : h.numBlocks ≤ logMaxSize) : h.listed.length = h.numBlocks := by
  simp [listed_eq hc]

end OsKernel.Fs
