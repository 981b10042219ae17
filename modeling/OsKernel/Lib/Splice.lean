/-
Writing a piece into the middle of a list.

`splice l off d` is l with d written over it from position off on; it grows when d sticks out at the end. `slice` reads a
piece back. Reads of what was just written give it, reads beside it see the old list.

A list of records of the same width w is stored one record after the other (`flatMap`); reading and writing at a multiple of w
is then reading and writing one record (`slice_records`, `splice_records`).
-/
import Mathlib.Tactic

namespace OsKernel.Splice

variable {α : Type} {l d : List α} {off k n : ℕ}

/-- n items from position off on -/
def slice (l : List α) (off n : ℕ) : List α := (l.drop off).take n

/-- d written over l from position off on -/
def splice (l : List α) (off : ℕ) (d : List α) : List α := l.take off ++ (d ++ l.drop (off + d.length))

theorem splice_length (h : off ≤ l.length) : (splice l off d).length = max l.length (off + d.length) := by
  simp only [splice, List.length_append, List.length_take, List.length_drop]
  omega

theorem slice_min : slice l off (min n (l.length - off)) = slice l off n := by
  rw [slice, slice, ← List.take_take, List.take_of_length_le (i := l.length - off) (by rw [List.length_drop])]

theorem slice_splice_self (h : off ≤ l.length) : slice (splice l off d) off d.length = d := by
  have hlen : (l.take off).length = off := List.length_take_of_le h
  rw [slice, splice, List.drop_left' hlen, List.take_left]

theorem slice_splice_before (h : off ≤ l.length) (hk : k + n ≤ off) : slice (splice l off d) k n = slice l k n := by
  have hlen : (l.take off).length = off := List.length_take_of_le h
  rw [slice, splice, List.drop_append_of_le_length (by omega), List.take_append_of_le_length]
  · rw [List.drop_take, List.take_take, min_eq_left (by omega)]
    rfl
  · rw [List.length_drop]
    omega

/-! ## Records -/

section Records

variable {β : Type} {f : β → List α} {w i : ℕ} {bs : List β} {b : β}

theorem records_length (hf : ∀ b, (f b).length = w) : (bs.flatMap f).length = w * bs.length := by
  induction bs with
  | nil => rfl
  | cons b bs ih => rw [List.flatMap_cons, List.length_append, hf, ih, List.length_cons, Nat.mul_succ, Nat.add_comm]

theorem take_records (hf : ∀ b, (f b).length = w) : (bs.flatMap f).take (w * i) = (bs.take i).flatMap f := by
  induction bs generalizing i with
  | nil => simp
  | cons b bs ih =>
    cases i with
    | zero => rfl
    | succ i =>
      rw [List.flatMap_cons, List.take_succ_cons, List.flatMap_cons, ← ih, Nat.mul_succ, Nat.add_comm, ← hf b,
        List.take_length_add_append]

theorem drop_records (hf : ∀ b, (f b).length = w) : (bs.flatMap f).drop (w * i) = (bs.drop i).flatMap f := by
  induction bs generalizing i with
  | nil => simp
  | cons b bs ih =>
    cases i with
    | zero => rfl
    | succ i =>
      rw [List.flatMap_cons, List.drop_succ_cons, ← ih, Nat.mul_succ, Nat.add_comm, ← hf b, List.drop_length_add_append]

theorem slice_records (hf : ∀ b, (f b).length = w) (hi : bs[i]? = some b) : slice (bs.flatMap f) (w * i) w = f b := by
  obtain ⟨hlt, rfl⟩ := List.getElem?_eq_some_iff.1 hi
  rw [slice, drop_records hf, List.drop_eq_getElem_cons hlt, List.flatMap_cons, List.take_left' (hf _)]

theorem splice_records (hf : ∀ b, (f b).length = w) :
    splice (bs.flatMap f) (w * i) (f b) = (splice bs i [b]).flatMap f := by
  have hend : w * i + (f b).length = w * (i + 1) := by rw [hf, Nat.mul_succ]
  rw [splice, splice, hend, take_records hf, drop_records hf, List.flatMap_append, List.flatMap_append,
    List.flatMap_singleton, List.length_singleton]

end Records

end OsKernel.Splice
