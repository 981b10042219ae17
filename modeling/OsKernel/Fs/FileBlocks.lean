/-
Files as their readers see them, and the blocks that store them.

A `File` says which blocks exist and which bytes they hold, a byte outside them being 0; that is all `inode_read` and
`inode_write` depend on. `fileVia r blk` is the file stored through slots r on blocks blk. The three things that happen to a
file are stated on both sides:
- `fileVia_congr`: blocks of others may change;
- `fileVia_take`: a fresh zeroed block in an empty slot makes a block exist and changes no byte (`File.touch`);
- `fileVia_patch`: bytes are copied into one block.
`File.write` is a write of any length. It is cut at block boundaries by `write_append`, and `chunk_eq_write` says that one
turn of the loop is a write. `File.ofBytes d` has the bytes d on just the blocks they need; writing behind its end keeps it so
(`write_ofBytes`).

`content_write`: in terms of byte lists, a write is a splice.
-/
import OsKernel.Lib.Splice
import OsKernel.Fs.InodeEntry

namespace OsKernel.Fs

open OsKernel.Bytes OsKernel.Splice

@[ext] structure File where
  /-- the k-th block exists -/
  mapped : ℕ → Bool
  byte : ℕ → UInt8

/-- the file stored through slots r -/
def fileVia (r : Slot → ℕ) (blk : ℕ → BlockData) : File where
  mapped k := (slotOf k).any fun t => r t ≠ 0
  byte p := (slotOf (p / blockSize)).elim 0 fun t => if r t = 0 then 0 else getByte (blk (r t)) (p % blockSize)

/-- the file of an inode -/
def fileOf (blk : ℕ → BlockData) (e : InodeEntry) : File := fileVia (ref blk e) blk

/-- the k-th block comes into existence -/
def File.touch (f : File) (k : ℕ) : File := { f with mapped := fun j => f.mapped j || j == k }

/-- n bytes g are copied to position pos; the blocks exist already -/
def File.patch (f : File) (pos n : ℕ) (g : ℕ → UInt8) : File :=
  { f with byte := fun p => if pos ≤ p ∧ p < pos + n then g (p - pos) else f.byte p }

/-- a byte of block k lies in [pos, pos + n) -/
def Overlaps (pos n k : ℕ) : Prop := max pos (k * blockSize) < min (pos + n) ((k + 1) * blockSize)

instance (pos n k : ℕ) : Decidable (Overlaps pos n k) := inferInstanceAs (Decidable (_ < _))

/-- d is written at position pos, on new blocks where there are none -/
def File.write (f : File) (pos : ℕ) (d : List UInt8) : File where
  mapped k := f.mapped k || decide (Overlaps pos d.length k)
  byte p := if pos ≤ p ∧ p < pos + d.length then d.getD (p - pos) 0 else f.byte p

/-- the first n bytes -/
def File.content (f : File) (n : ℕ) : List UInt8 := (List.range n).map f.byte

/-- the file with the bytes d and no block more than they need -/
def File.ofBytes (d : List UInt8) : File where
  mapped k := decide (k * blockSize < d.length)
  byte p := d.getD p 0

/-! ## Storage -/

section Storage

variable {r r' : Slot → ℕ} {blk blk' : ℕ → BlockData} {k : ℕ} {t : Slot}

theorem ne_indirect_of_slotOf (hk : slotOf k = some t) : t ≠ .indirect := fun h => slotOf_ne_indirect k (h ▸ hk)

theorem fileVia_congr (hr : ∀ t, t ≠ .indirect → r' t = r t)
    (hb : ∀ t, t ≠ .indirect → r t ≠ 0 → blk' (r t) = blk (r t)) : fileVia r' blk' = fileVia r blk := by
  ext j
  · simp only [fileVia]
    cases hj : slotOf j with
    | none => rfl
    | some t => simp [hr t (ne_indirect_of_slotOf hj)]
  · simp only [fileVia]
    cases hj : slotOf (j / blockSize) with
    | none => rfl
    | some t =>
      simp only [Option.elim, hr t (ne_indirect_of_slotOf hj)]
      by_cases h0 : r t = 0
      · simp [h0]
      · rw [if_neg h0, if_neg h0, hb t (ne_indirect_of_slotOf hj) h0]

/-- an empty slot gets a fresh zeroed block -/
theorem fileVia_take (hk : slotOf k = some t) (hr : ∀ u, u ≠ .indirect → u ≠ t → r' u = r u) (h0 : r t = 0)
    (hn : r' t ≠ 0) (hz : blk' (r' t) = zeros) (hb : ∀ u, u ≠ .indirect → r u ≠ 0 → blk' (r u) = blk (r u)) :
    fileVia r' blk' = (fileVia r blk).touch k := by
  ext j
  · simp only [fileVia, File.touch]
    by_cases hjk : j = k
    · simp [hjk, hk, hn]
    · cases hj : slotOf j with
      | none => simp [hjk]
      | some u =>
        have hut : u ≠ t := fun h => hjk (slotOf_inj (h ▸ hj) hk)
        simp [hjk, hr u (ne_indirect_of_slotOf hj) hut]
  · simp only [fileVia, File.touch]
    cases hj : slotOf (j / blockSize) with
    | none => rfl
    | some u =>
      simp only [Option.elim]
      by_cases hut : u = t
      · rw [hut, if_neg hn, if_pos h0, hz, getByte_zeros]
      · have hu := ne_indirect_of_slotOf hj
        rw [hr u hu hut]
        by_cases hu0 : r u = 0
        · rw [if_pos hu0, if_pos hu0]
        · rw [if_neg hu0, if_neg hu0, hb u hu hu0]

theorem mapped_of_slot (hk : slotOf k = some t) : (fileVia r blk).mapped k = true ↔ r t ≠ 0 := by
  simp [fileVia, hk]

/-- bytes are copied into the block of slot t -/
theorem fileVia_patch {start n : ℕ} {g : ℕ → UInt8} (hk : slotOf k = some t) (hr : ∀ u, u ≠ .indirect → r' u = r u)
    (ht : r t ≠ 0) (hd : blk' (r t) = patch (blk (r t)) start n g)
    (hb : ∀ u, u ≠ .indirect → u ≠ t → r u ≠ 0 → blk' (r u) = blk (r u)) (hn : start + n ≤ blockSize) :
    fileVia r' blk' = (fileVia r blk).patch (k * blockSize + start) n g := by
  ext p
  · simp only [fileVia, File.patch]
    cases hj : slotOf p with
    | none => rfl
    | some u => simp [hr u (ne_indirect_of_slotOf hj)]
  · have hmod : p % blockSize < blockSize := Nat.mod_lt _ (by decide)
    -- the byte lies in the range copied iff it lies in block k and its offset does
    have hiff : (k * blockSize + start ≤ p ∧ p < k * blockSize + start + n) ↔
        p / blockSize = k ∧ start ≤ p % blockSize ∧ p % blockSize < start + n := by
      simp only [blockSize] at *
      omega
    simp only [fileVia, File.patch]
    by_cases hpk : p / blockSize = k
    · rw [hpk, hk, Option.elim_some, Option.elim_some, hr t (ne_indirect_of_slotOf hk), if_neg ht, if_neg ht, hd]
      by_cases hin : start ≤ p % blockSize ∧ p % blockSize < start + n
      · have hoff : p % blockSize - start = p - (k * blockSize + start) := by
          simp only [blockSize] at *
          omega
        rw [getByte_patch_in _ _ hin.1 hin.2 hmod, if_pos (hiff.2 ⟨hpk, hin⟩), hoff]
      · rw [getByte_patch_out _ _ (by omega), if_neg fun h => hin (hiff.1 h).2]
    · have hout : ¬ (k * blockSize + start ≤ p ∧ p < k * blockSize + start + n) := fun h => hpk (hiff.1 h).1
      rw [if_neg hout]
      cases hj : slotOf (p / blockSize) with
      | none => rfl
      | some u =>
        have hu := ne_indirect_of_slotOf hj
        have hut : u ≠ t := fun h => hpk (slotOf_inj (h ▸ hj) hk)
        simp only [Option.elim, hr u hu]
        by_cases hu0 : r u = 0
        · rw [if_pos hu0, if_pos hu0]
        · rw [if_neg hu0, if_neg hu0, hb u hu hut hu0]

end Storage

/-! ## Writes -/

theorem File.write_nil (f : File) (pos : ℕ) : f.write pos [] = f := by
  ext p
  · have : ¬ Overlaps pos 0 p := by unfold Overlaps; omega
    simp [File.write, this]
  · have : ¬ (pos ≤ p ∧ p < pos + 0) := by omega
    simp only [File.write, List.length_nil, if_neg this]

theorem overlaps_add {pos m n k : ℕ} : Overlaps pos (m + n) k ↔ Overlaps pos m k ∨ Overlaps (pos + m) n k := by
  unfold Overlaps
  omega

theorem File.write_append (f : File) (pos : ℕ) (a b : List UInt8) :
    (f.write pos a).write (pos + a.length) b = f.write pos (a ++ b) := by
  ext p
  · simp only [File.write, List.length_append, overlaps_add, Bool.decide_or, Bool.or_assoc]
  · simp only [File.write, List.length_append]
    by_cases hb : pos + a.length ≤ p ∧ p < pos + a.length + b.length
    · rw [if_pos hb, if_pos (by omega), List.getD_eq_getElem?_getD, List.getD_eq_getElem?_getD,
        List.getElem?_append_right (by omega), Nat.sub_sub]
    · rw [if_neg hb]
      by_cases ha : pos ≤ p ∧ p < pos + a.length
      · rw [if_pos ha, if_pos (by omega), List.getD_eq_getElem?_getD, List.getD_eq_getElem?_getD,
          List.getElem?_append_left (by omega)]
      · rw [if_neg ha, if_neg (by omega)]

/-- one turn of the loop of `inode_write`: map the block, copy as much as fits into it -/
theorem File.chunk_eq_write (f : File) {pos n : ℕ} {d : List UInt8} (hn : 0 < n) (hfit : pos % blockSize + n ≤ blockSize)
    (hd : n ≤ d.length) :
    (f.touch (pos / blockSize)).patch (pos / blockSize * blockSize + pos % blockSize) n (fun i => d.getD i 0) =
      f.write pos (d.take n) := by
  have hlen : (d.take n).length = n := List.length_take_of_le hd
  have hpos : pos / blockSize * blockSize + pos % blockSize = pos := by
    rw [Nat.mul_comm]
    exact Nat.div_add_mod ..
  rw [hpos]
  ext p
  · simp only [File.touch, File.patch, File.write, hlen]
    congr 1
    rw [Bool.eq_iff_iff, beq_iff_eq, decide_eq_true_iff]
    unfold Overlaps
    simp only [blockSize] at *
    omega
  · simp only [File.touch, File.patch, File.write, hlen]
    by_cases hin : pos ≤ p ∧ p < pos + n
    · rw [if_pos hin, if_pos hin]
      have : p - pos < n := by omega
      simp [List.getD_eq_getElem?_getD, this]
    · rw [if_neg hin, if_neg hin]

theorem File.content_length (f : File) (n : ℕ) : (f.content n).length = n := by simp [File.content]

theorem File.content_ofBytes (d : List UInt8) : (File.ofBytes d).content d.length = d := by
  apply List.ext_getElem
  · exact File.content_length ..
  · intro i hi hi'
    simp [File.content, File.ofBytes, hi']

/-- behind the bytes there are zeros -/
theorem File.content_ofBytes_add (d : List UInt8) (n : ℕ) :
    (File.ofBytes d).content (d.length + n) = d ++ List.replicate n 0 := by
  apply List.ext_getElem
  · rw [File.content_length, List.length_append, List.length_replicate]
  · intro i hi hi'
    simp only [File.content, File.ofBytes, List.getElem_map, List.getElem_range, List.getD_eq_getElem?_getD]
    by_cases hlt : i < d.length
    · rw [List.getElem_append_left hlt, List.getElem?_eq_getElem hlt, Option.getD_some]
    · rw [List.getElem_append_right (not_lt.1 hlt), List.getElem?_eq_none (not_lt.1 hlt), List.getElem_replicate,
        Option.getD_none]

/-- appending -/
theorem File.write_ofBytes (d p : List UInt8) : (File.ofBytes d).write d.length p = File.ofBytes (d ++ p) := by
  ext k
  · simp only [File.write, File.ofBytes, ← Bool.decide_or, List.length_append]
    apply decide_eq_decide.2
    unfold Overlaps
    simp only [blockSize]
    omega
  · simp only [File.write, File.ofBytes, List.getD_eq_getElem?_getD]
    by_cases hlt : k < d.length
    · rw [if_neg (by omega), List.getElem?_append_left hlt]
    · rw [List.getElem?_append_right (not_lt.1 hlt)]
      by_cases hin : k < d.length + p.length
      · rw [if_pos ⟨not_lt.1 hlt, hin⟩]
      · rw [if_neg fun h => hin h.2, List.getElem?_eq_none (not_lt.1 hlt), List.getElem?_eq_none (by omega)]

theorem File.slice_content (f : File) {off n size : ℕ} (h : off + n ≤ size) :
    slice (f.content size) off n = (List.range n).map fun i => f.byte (off + i) := by
  apply List.ext_getElem
  · simp only [slice, List.length_take, List.length_drop, File.content_length, List.length_map, List.length_range]
    omega
  · intro i hi hi'
    simp [slice, File.content]

theorem File.content_write (f : File) {off size : ℕ} (d : List UInt8) (h : off ≤ size) :
    (f.write off d).content (max size (off + d.length)) = splice (f.content size) off d := by
  have hlen : (splice (f.content size) off d).length = max size (off + d.length) := by
    rw [splice_length (by rwa [File.content_length]), File.content_length]
  apply List.ext_getElem
  · rw [File.content_length, hlen]
  · intro i hi hi'
    rw [File.content_length] at hi
    simp only [File.content, List.getElem_map, List.getElem_range, File.write, splice]
    have htake : (((List.range size).map f.byte).take off).length = off := by
      rw [List.length_take, List.length_map, List.length_range]
      omega
    by_cases h1 : i < off
    · rw [if_neg (by omega), List.getElem_append_left (by omega)]
      simp
    · rw [List.getElem_append_right (by omega)]
      simp only [htake]
      by_cases h2 : i < off + d.length
      · rw [if_pos (by omega), List.getElem_append_left (by omega)]
        simp [List.getD_eq_getElem?_getD, show i - off < d.length by omega]
      · rw [if_neg (by omega), List.getElem_append_right (by omega), List.getElem_drop]
        simp only [List.getElem_map, List.getElem_range]
        congr 1
        omega

end OsKernel.Fs
