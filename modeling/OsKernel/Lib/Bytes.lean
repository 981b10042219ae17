/-
Fixed-size byte buffers and the little-endian words stored in them.

A buffer of n bytes is a function on `Fin n`; every access goes through a plain index, reads past the end give 0 and
writes past the end are dropped, so no bound has to be carried around. Two primitives:
- `getLE d off w`: the w-byte little-endian word at byte offset off;
- `putLE d off w k f`: store k consecutive w-byte words f 0, ..., f (k-1) from byte offset off on.

Results:
- `getLE_putLE`: a stored word is read back modulo 256^w;
- `getLE_putLE_disjoint`: words outside the stored range keep their value;
- `buf_ext`: a buffer is determined by its bytes.
-/
import Mathlib.Tactic

namespace OsKernel.Bytes

/-- a buffer of n bytes -/
abbrev Buf (n : ℕ) := Fin n → UInt8

/-- byte i of a buffer (0 past its end) -/
def getByte {n : ℕ} (d : Buf n) (i : ℕ) : UInt8 := if h : i < n then d ⟨i, h⟩ else 0

/-- the w-byte little-endian word at offset `off` -/
def getLE {n : ℕ} (d : Buf n) (off : ℕ) : ℕ → ℕ
  | 0 => 0
  | w + 1 => (getByte d off).toNat + 256 * getLE d (off + 1) w

/-- k little-endian words of w bytes each, stored from offset `off` on -/
def putLE {n : ℕ} (d : Buf n) (off w k : ℕ) (f : ℕ → ℕ) : Buf n := fun j =>
  if off ≤ j.val ∧ j.val < off + w * k then UInt8.ofNat (f ((j.val - off) / w) / 256 ^ ((j.val - off) % w)) else d j

/-- memcpy of `len` bytes of the source f to offset `off` -/
def patch {n : ℕ} (d : Buf n) (off len : ℕ) (f : ℕ → UInt8) : Buf n := fun j =>
  if off ≤ j.val ∧ j.val < off + len then f (j.val - off) else d j

/-- the all-zero buffer -/
def zeros {n : ℕ} : Buf n := fun _ => 0

variable {i k len n off off' w : ℕ}

theorem buf_ext {d d' : Buf n} (h : ∀ i, i < n → getByte d i = getByte d' i) : d = d' := by
  funext j
  have := h j.val j.isLt
  simpa [getByte] using this

theorem getByte_zeros (i : ℕ) : getByte (zeros : Buf n) i = 0 := by
  simp [getByte, zeros]

/-! ## Byte ranges -/

theorem getByte_patch_in (d : Buf n) (f : ℕ → UInt8) (h1 : off ≤ i) (h2 : i < off + len)
    (hn : i < n) : getByte (patch d off len f) i = f (i - off) := by
  simp [getByte, patch, hn, h1, h2]

theorem getByte_patch_out (d : Buf n) (f : ℕ → UInt8) (h : i < off ∨ off + len ≤ i) :
    getByte (patch d off len f) i = getByte d i := by
  have : ¬ (off ≤ i ∧ i < off + len) := by omega
  by_cases hn : i < n
  · simp [getByte, patch, hn, this]
  · simp [getByte, hn]

theorem getByte_putLE_out (d : Buf n) (f : ℕ → ℕ) (h : i < off ∨ off + w * k ≤ i) :
    getByte (putLE d off w k f) i = getByte d i := by
  have : ¬ (off ≤ i ∧ i < off + w * k) := by omega
  by_cases hn : i < n
  · simp [getByte, putLE, hn, this]
  · simp [getByte, hn]

/-- byte j of stored word i -/
theorem getByte_putLE (d : Buf n) {j : ℕ} (f : ℕ → ℕ) (hi : i < k) (hj : j < w)
    (hn : off + w * k ≤ n) : getByte (putLE d off w k f) (off + w * i + j) = UInt8.ofNat (f i / 256 ^ j) := by
  have hle : w * (i + 1) ≤ w * k := Nat.mul_le_mul_left w hi
  rw [Nat.mul_succ] at hle
  have hlt : off + w * i + j < n := by omega
  have hin : off ≤ off + w * i + j ∧ off + w * i + j < off + w * k := by omega
  have hsub : off + w * i + j - off = j + w * i := by omega
  simp only [getByte, hlt, putLE, dif_pos, if_pos hin, hsub]
  rw [Nat.add_mul_div_left _ _ (by omega), Nat.add_mul_mod_self_left, Nat.div_eq_of_lt hj, Nat.mod_eq_of_lt hj,
    Nat.zero_add]

/-! ## Little-endian words -/

theorem getLE_congr {m : ℕ} {d : Buf n} {d' : Buf m}
    (h : ∀ j, j < w → getByte d (off + j) = getByte d' (off' + j)) : getLE d off w = getLE d' off' w := by
  induction w generalizing off off' with
  | zero => rfl
  | succ w ih =>
    have h0 := h 0 (by omega)
    have hs : getLE d (off + 1) w = getLE d' (off' + 1) w := by
      apply ih
      intro j hj
      have := h (j + 1) (by omega)
      simpa [Nat.add_assoc, Nat.add_comm, Nat.add_left_comm] using this
    simp only [Nat.add_zero] at h0
    simp only [getLE, h0, hs]

theorem getLE_lt (d : Buf n) (off w : ℕ) : getLE d off w < 256 ^ w := by
  induction w generalizing off with
  | zero => simp [getLE]
  | succ w ih =>
    have hb := (getByte d off).toNat_lt
    have hr := ih (off + 1)
    simp only [getLE, pow_succ]
    omega

/-- a word whose bytes are those of v is v modulo 256^w -/
theorem getLE_of_bytes {d : Buf n} {v : ℕ}
    (h : ∀ j, j < w → getByte d (off + j) = UInt8.ofNat (v / 256 ^ j)) : getLE d off w = v % 256 ^ w := by
  induction w generalizing off v with
  | zero => simp [getLE, Nat.mod_one]
  | succ w ih =>
    have h0 : getByte d off = UInt8.ofNat v := by simpa using h 0 (by omega)
    have hs : getLE d (off + 1) w = v / 256 % 256 ^ w := by
      apply ih
      intro j hj
      have := h (j + 1) (by omega)
      rw [Nat.div_div_eq_div_mul, ← pow_succ']
      rw [← this]
      congr 1
      omega
    have hmod : v % 256 ^ (w + 1) = v % 256 + 256 * (v / 256 % 256 ^ w) := by
      rw [pow_succ', Nat.mod_mul]
    simp [getLE, h0, hs, hmod]

theorem getLE_putLE (d : Buf n) (off : ℕ) (f : ℕ → ℕ) (hi : i < k) (hn : off + w * k ≤ n) :
    getLE (putLE d off w k f) (off + w * i) w = f i % 256 ^ w :=
  getLE_of_bytes fun _ hj => getByte_putLE d f hi hj hn

theorem getLE_putLE_disjoint (d : Buf n) {w' : ℕ} (f : ℕ → ℕ)
    (h : off' + w' ≤ off ∨ off + w * k ≤ off') : getLE (putLE d off w k f) off' w' = getLE d off' w' :=
  getLE_congr fun _ hj => getByte_putLE_out d f (by omega)

/-- bit b of a word is bit b mod 8 of its byte b/8 -/
theorem testBit_getLE (d : Buf n) (off : ℕ) {b : ℕ} (hb : b < 8 * w) :
    (getLE d off w).testBit b = (getByte d (off + b / 8)).toNat.testBit (b % 8) := by
  induction w generalizing off b with
  | zero => omega
  | succ w ih =>
    have hlt : (getByte d off).toNat < 2 ^ 8 := (getByte d off).toNat_lt
    have hsum : getLE d off (w + 1) = 2 ^ 8 * getLE d (off + 1) w + (getByte d off).toNat := by
      rw [getLE, Nat.add_comm]
      norm_num
    rw [hsum, Nat.testBit_two_pow_mul_add _ hlt]
    by_cases h : b < 8
    · rw [if_pos h, Nat.div_eq_of_lt h, Nat.mod_eq_of_lt h, Nat.add_zero]
    · have hbyte : off + 1 + (b - 8) / 8 = off + b / 8 := by omega
      have hbit : (b - 8) % 8 = b % 8 := by omega
      rw [if_neg h, ih _ (by omega), hbyte, hbit]

theorem getLE_zeros (off w : ℕ) : getLE (zeros : Buf n) off w = 0 := by
  induction w generalizing off with
  | zero => rfl
  | succ w ih => simp [getLE, getByte_zeros, ih]

end OsKernel.Bytes
