/-
Bytes of a memory of 8-byte cells.

A memory is a function from cell addresses to words. Byte a is byte a % 8 of the cell at a / 8 * 8, so a byte store
rewrites one cell and a byte string is stored one byte after the other.

Results:
- `byteAt_storeBytes`: after a store of bs at a, the bytes from a on are bs and every other byte is as before;
- `storeBytes_cell`: cells that hold no stored byte keep their word;
- `byteAt_congr`: equal cells have equal bytes.
-/
import Mathlib.Tactic

namespace OsKernel.Words

/-- byte i of a word -/
def byteOf (c i : ℕ) : UInt8 := UInt8.ofNat (c / 256 ^ i)

/-- the word c with byte i replaced -/
def setByte (c i : ℕ) (v : UInt8) : ℕ := c % 256 ^ i + 256 ^ i * (v.toNat + 256 * (c / 256 ^ (i + 1)))

def byteAt (cell : ℕ → ℕ) (a : ℕ) : UInt8 := byteOf (cell (a / 8 * 8)) (a % 8)

def storeByte (cell : ℕ → ℕ) (a : ℕ) (v : UInt8) : ℕ → ℕ :=
  Function.update cell (a / 8 * 8) (setByte (cell (a / 8 * 8)) (a % 8) v)

/-- the bytes bs, from address a on -/
def storeBytes (cell : ℕ → ℕ) : ℕ → List UInt8 → ℕ → ℕ
  | _, [] => cell
  | a, v :: bs => storeBytes (storeByte cell a v) (a + 1) bs

/-! ## Words -/

theorem byteOf_eq_of_mod {c d i : ℕ} (h : c / 256 ^ i % 256 = d / 256 ^ i % 256) : byteOf c i = byteOf d i := by
  apply UInt8.toNat.inj
  simpa [byteOf] using h

theorem setByte_div (c i : ℕ) (v : UInt8) : setByte c i v / 256 ^ i = v.toNat + 256 * (c / 256 ^ (i + 1)) := by
  have hpos : 0 < 256 ^ i := Nat.pow_pos (by decide)
  rw [setByte, Nat.add_mul_div_left _ _ hpos, Nat.div_eq_of_lt (Nat.mod_lt _ hpos), Nat.zero_add]

theorem setByte_mod (c i : ℕ) (v : UInt8) : setByte c i v % 256 ^ i = c % 256 ^ i := by
  rw [setByte, Nat.add_mul_mod_self_left, Nat.mod_mod]

theorem byteOf_setByte (c i : ℕ) (v : UInt8) : byteOf (setByte c i v) i = v := by
  apply UInt8.toNat.inj
  have hv := v.toNat_lt
  rw [byteOf, setByte_div, UInt8.toNat_ofNat']
  omega

theorem byteOf_setByte_ne {i j : ℕ} (h : j ≠ i) (c : ℕ) (v : UInt8) : byteOf (setByte c i v) j = byteOf c j := by
  apply byteOf_eq_of_mod
  rcases Nat.lt_or_gt_of_ne h with hlt | hgt
  · -- below byte i both words agree modulo 256 ^ i
    have hdvd : 256 ^ (j + 1) ∣ 256 ^ i := Nat.pow_dvd_pow 256 hlt
    have hmod : setByte c i v % 256 ^ (j + 1) = c % 256 ^ (j + 1) := by
      rw [← Nat.mod_mod_of_dvd _ hdvd, setByte_mod, Nat.mod_mod_of_dvd _ hdvd]
    have hdig : ∀ x : ℕ, x / 256 ^ j % 256 = x % 256 ^ (j + 1) / 256 ^ j := fun x => by
      rw [pow_succ, Nat.mod_mul_right_div_self]
    rw [hdig, hdig, hmod]
  · obtain ⟨k, rfl⟩ : ∃ k, j = i + 1 + k := ⟨j - (i + 1), by omega⟩
    have hdiv : setByte c i v / 256 ^ (i + 1) = c / 256 ^ (i + 1) := by
      have hv := v.toNat_lt
      rw [pow_succ, ← Nat.div_div_eq_div_mul, setByte_div, ← pow_succ]
      omega
    rw [pow_add, ← Nat.div_div_eq_div_mul, hdiv, Nat.div_div_eq_div_mul]

/-! ## Memory -/

theorem byteAt_congr {cell cell' : ℕ → ℕ} {a : ℕ} (h : cell' (a / 8 * 8) = cell (a / 8 * 8)) :
    byteAt cell' a = byteAt cell a := by
  rw [byteAt, byteAt, h]

/-- a copy by whole cells is a copy of the bytes -/
theorem byteAt_shift {cell cell' : ℕ → ℕ} {a b i : ℕ} (ha : 8 ∣ a) (hb : 8 ∣ b)
    (h : cell' (b + i / 8 * 8) = cell (a + i / 8 * 8)) : byteAt cell' (b + i) = byteAt cell (a + i) := by
  have h1 : (b + i) / 8 * 8 = b + i / 8 * 8 := by omega
  have h2 : (a + i) / 8 * 8 = a + i / 8 * 8 := by omega
  have h3 : (b + i) % 8 = i % 8 := by omega
  have h4 : (a + i) % 8 = i % 8 := by omega
  rw [byteAt, byteAt, h1, h2, h3, h4, h]

theorem byteAt_storeByte (cell : ℕ → ℕ) (a : ℕ) (v : UInt8) (b : ℕ) :
    byteAt (storeByte cell a v) b = if b = a then v else byteAt cell b := by
  by_cases hba : b = a
  · subst hba
    rw [if_pos rfl, byteAt, storeByte, Function.update_self, byteOf_setByte]
  · rw [if_neg hba]
    by_cases hc : b / 8 * 8 = a / 8 * 8
    · have hne : b % 8 ≠ a % 8 := by omega
      rw [byteAt, storeByte, hc, Function.update_self, byteOf_setByte_ne hne, byteAt, hc]
    · exact byteAt_congr (Function.update_of_ne hc _ _)

theorem byteAt_storeBytes (cell : ℕ → ℕ) (a : ℕ) (bs : List UInt8) (b : ℕ) :
    byteAt (storeBytes cell a bs) b = if a ≤ b then bs.getD (b - a) (byteAt cell b) else byteAt cell b := by
  induction bs generalizing cell a with
  | nil => simp [storeBytes]
  | cons v bs ih =>
    rw [storeBytes, ih, byteAt_storeByte]
    rcases Nat.lt_trichotomy b a with hlt | heq | hgt
    · have h1 : ¬ a + 1 ≤ b := by omega
      have h2 : ¬ a ≤ b := by omega
      rw [if_neg h1, if_neg h2, if_neg hlt.ne]
    · subst heq
      have h1 : ¬ b + 1 ≤ b := by omega
      rw [if_neg h1, if_pos rfl, if_pos le_rfl, Nat.sub_self, List.getD_cons_zero]
    · have h1 : b - a = b - (a + 1) + 1 := by omega
      rw [if_pos (by omega : a + 1 ≤ b), if_pos hgt.le, if_neg hgt.ne', h1, List.getD_cons_succ]

theorem storeByte_cell {cell : ℕ → ℕ} {a c : ℕ} (v : UInt8) (h : c ≠ a / 8 * 8) : storeByte cell a v c = cell c :=
  Function.update_of_ne h _ _

theorem storeBytes_cell {cell : ℕ → ℕ} {a c : ℕ} {bs : List UInt8}
    (h : ∀ b, a ≤ b → b < a + bs.length → c ≠ b / 8 * 8) : storeBytes cell a bs c = cell c := by
  induction bs generalizing cell a with
  | nil => rfl
  | cons v bs ih =>
    rw [List.length_cons] at h
    rw [storeBytes, ih fun b hb hb' => h b (by omega) (by omega), storeByte_cell v (h a le_rfl (by omega))]

end OsKernel.Words
