/-
Bounded C strings: `strncmp` and `strncpy`.

A string is what a pointer sees, a byte for every index. Of a string and a bound n only the characters before the first NUL,
at most n of them, matter (`cstr`): `strncmp` tells whether two strings agree in them (`strncmp_eq_zero`), and `strncpy`
copies them and fills up with NULs (`cstr_strncpy`), so that a copy compares equal to its original even when it fills all n
bytes and has no NUL.
-/
import Mathlib.Tactic

namespace OsKernel.CString

open Function (update update_of_ne update_self)

/-- what a pointer to the characters l and a NUL sees -/
def strOf (l : List UInt8) : ℕ → UInt8 := fun i => l.getD i 0

/-- the characters from index i on, up to a NUL and at most n -/
def cstrFrom (s : ℕ → UInt8) : ℕ → ℕ → List UInt8
  | 0, _ => []
  | n + 1, i => if s i = 0 then [] else s i :: cstrFrom s n (i + 1)

/-- the characters that count when at most n do -/
def cstr (s : ℕ → UInt8) (n : ℕ) : List UInt8 := cstrFrom s n 0

/-- the loop of `strncmp` from index i on -/
def strncmpFrom (s1 s2 : ℕ → UInt8) : ℕ → ℕ → ℤ
  | 0, _ => 0
  | n + 1, i =>
    if s1 i ≠ s2 i then (s1 i).toNat - (s2 i).toNat
    else if s1 i = 0 ∨ s2 i = 0 then 0
    else strncmpFrom s1 s2 n (i + 1)

def strncmp (s1 s2 : ℕ → UInt8) (n : ℕ) : ℤ := strncmpFrom s1 s2 n 0

/-- the second loop of `strncpy`: n NULs from index i on -/
def padFrom : ℕ → ℕ → (ℕ → UInt8) → ℕ → UInt8
  | 0, _, dest => dest
  | n + 1, i, dest => padFrom n (i + 1) (update dest i 0)

/-- the first loop of `strncpy` from index i on, and what follows it -/
def copyFrom (src : ℕ → UInt8) : ℕ → ℕ → (ℕ → UInt8) → ℕ → UInt8
  | 0, _, dest => dest
  | n + 1, i, dest =>
    if src i ≠ 0 then copyFrom src n (i + 1) (update dest i (src i)) else padFrom (n + 1) i dest

def strncpy (dest src : ℕ → UInt8) (n : ℕ) : ℕ → UInt8 := copyFrom src n 0 dest

theorem strncmpFrom_eq_zero (s1 s2 : ℕ → UInt8) (n i : ℕ) :
    strncmpFrom s1 s2 n i = 0 ↔ cstrFrom s1 n i = cstrFrom s2 n i := by
  induction n generalizing i with
  | zero => simp [strncmpFrom, cstrFrom]
  | succ n ih =>
    rw [strncmpFrom, cstrFrom, cstrFrom]
    by_cases h : s1 i = s2 i
    · rw [if_neg (not_not.2 h), ← h]
      by_cases h0 : s1 i = 0
      · simp [h0]
      · simp [h0, ih]
    · have hne : ((s1 i).toNat : ℤ) - (s2 i).toNat ≠ 0 := by
        intro hz
        apply h
        apply UInt8.toNat_inj.1
        omega
      rw [if_pos h]
      refine iff_of_false hne fun he => h ?_
      by_cases h1 : s1 i = 0 <;> by_cases h2 : s2 i = 0 <;> simp_all

/-- strings compare equal when they agree up to a NUL or the bound -/
theorem strncmp_eq_zero {s1 s2 : ℕ → UInt8} {n : ℕ} : strncmp s1 s2 n = 0 ↔ cstr s1 n = cstr s2 n :=
  strncmpFrom_eq_zero s1 s2 n 0

theorem padFrom_below {n i j : ℕ} (dest : ℕ → UInt8) (h : j < i) : padFrom n i dest j = dest j := by
  induction n generalizing i dest with
  | zero => rfl
  | succ n ih => rw [padFrom, ih _ (by omega), update_of_ne (ne_of_lt h)]

theorem copyFrom_below {src : ℕ → UInt8} {n i j : ℕ} (dest : ℕ → UInt8) (h : j < i) :
    copyFrom src n i dest j = dest j := by
  induction n generalizing i dest with
  | zero => rfl
  | succ n ih =>
    rw [copyFrom]
    by_cases h0 : src i ≠ 0
    · rw [if_pos h0, ih _ (by omega), update_of_ne (ne_of_lt h)]
    · rw [if_neg h0, padFrom_below _ h]

theorem cstrFrom_copyFrom (src dest : ℕ → UInt8) (n i : ℕ) :
    cstrFrom (copyFrom src n i dest) n i = cstrFrom src n i := by
  induction n generalizing i dest with
  | zero => rfl
  | succ n ih =>
    rw [cstrFrom, cstrFrom]
    by_cases h0 : src i = 0
    · have hnul : copyFrom src (n + 1) i dest i = 0 := by
        rw [copyFrom, if_neg (not_not.2 h0), padFrom, padFrom_below _ (Nat.lt_succ_self i), update_self]
      rw [if_pos hnul, if_pos h0]
    · have hcopy : copyFrom src (n + 1) i dest = copyFrom src n (i + 1) (update dest i (src i)) := by
        rw [copyFrom, if_pos h0]
      have hchar : copyFrom src (n + 1) i dest i = src i := by
        rw [hcopy, copyFrom_below _ (Nat.lt_succ_self i), update_self]
      rw [hchar, if_neg h0, if_neg h0, hcopy, ih]

/-- a copy has the characters of its source -/
theorem cstr_strncpy (dest src : ℕ → UInt8) (n : ℕ) : cstr (strncpy dest src n) n = cstr src n :=
  cstrFrom_copyFrom src dest n 0

theorem cstrFrom_congr {s1 s2 : ℕ → UInt8} {n i : ℕ} (h : ∀ j, i ≤ j → j < i + n → s1 j = s2 j) :
    cstrFrom s1 n i = cstrFrom s2 n i := by
  induction n generalizing i with
  | zero => rfl
  | succ n ih =>
    have hhead : s1 i = s2 i := h i le_rfl (by omega)
    rw [cstrFrom, cstrFrom, hhead, ih fun j hj hlt => h j (by omega) (by omega)]

theorem cstr_congr {s1 s2 : ℕ → UInt8} {n : ℕ} (h : ∀ j, j < n → s1 j = s2 j) : cstr s1 n = cstr s2 n :=
  cstrFrom_congr fun j _ hlt => h j (by omega)

theorem cstrFrom_strOf {l : List UInt8} (h : 0 ∉ l) (n i : ℕ) : cstrFrom (strOf l) n i = (l.drop i).take n := by
  induction n generalizing i with
  | zero => rfl
  | succ n ih =>
    rw [cstrFrom, ih]
    by_cases hi : i < l.length
    · have hchar : strOf l i = l[i] := by simp [strOf, hi]
      have hne : l[i] ≠ 0 := fun he => h (he ▸ List.getElem_mem hi)
      rw [hchar, if_neg hne, List.drop_eq_getElem_cons hi, List.take_succ_cons]
    · have hnul : strOf l i = 0 := by simp [strOf, hi]
      rw [if_pos hnul, List.drop_of_length_le (not_lt.1 hi), List.take_nil]

theorem cstr_strOf {l : List UInt8} (h : 0 ∉ l) (n : ℕ) : cstr (strOf l) n = l.take n := cstrFrom_strOf h n 0

end OsKernel.CString
