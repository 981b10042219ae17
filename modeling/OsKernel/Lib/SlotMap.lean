/-
A finite map kept in a list of slots.

A slot is free or holds a key with its value. Looking a key up takes the first slot that holds it (`findFrom`), and a new key
goes to the first free slot, or to a new one at the end (`firstFree`).
-/
import Mathlib.Tactic

namespace OsKernel.SlotMap

abbrev Slots (K V : Type) := List (Option (K × V))

section Operations

variable {K V : Type} [DecidableEq K]

/-- the first slot that holds k, as value and index; i slots come before the list -/
def findFrom (k : K) : Slots K V → ℕ → Option (V × ℕ)
  | [], _ => none
  | none :: l, i => findFrom k l (i + 1)
  | some (k', v) :: l, i => if k' = k then some (v, i) else findFrom k l (i + 1)

/-- the first free slot, or the one behind the end -/
def firstFree (l : Slots K V) : ℕ := l.findIdx Option.isNone

end Operations

variable {K V : Type} {l : Slots K V} {k : K} {v : V} {i : ℕ}

/-! ## Looking up -/

section Find

variable [DecidableEq K]

/-- by induction on the list: what is found is there -/
theorem getElem?_of_findFrom {j : ℕ} (h : findFrom k l i = some (v, j)) :
    ∃ n, j = i + n ∧ l[n]? = some (some (k, v)) := by
  induction l generalizing i with
  | nil => cases h
  | cons x l ih =>
    rcases x with _ | ⟨k', v'⟩
    · obtain ⟨n, hj, hn⟩ := ih (i := i + 1) h
      exact ⟨n + 1, by omega, hn⟩
    · rw [findFrom] at h
      by_cases hk : k' = k
      · rw [if_pos hk, Option.some.injEq, Prod.mk.injEq] at h
        obtain ⟨rfl, rfl⟩ := h
        exact ⟨0, rfl, by rw [hk]; rfl⟩
      · rw [if_neg hk] at h
        obtain ⟨n, hj, hn⟩ := ih (i := i + 1) h
        exact ⟨n + 1, by omega, hn⟩

/-- and what is there is found -/
theorem findFrom_ne_none {n : ℕ} (h : l[n]? = some (some (k, v))) : findFrom k l i ≠ none := by
  induction l generalizing i n with
  | nil => simp at h
  | cons x l ih =>
    cases n with
    | zero =>
      obtain rfl : x = some (k, v) := by simpa using h
      rw [findFrom, if_pos rfl]
      exact Option.some_ne_none _
    | succ n =>
      have htail := fun j => ih (i := j) (n := n) (by simpa using h)
      rcases x with _ | ⟨k', v'⟩
      · exact htail _
      · rw [findFrom]
        by_cases hk : k' = k
        · rw [if_pos hk]
          exact Option.some_ne_none _
        · rw [if_neg hk]
          exact htail _

/-- free slots at the end hold no key -/
theorem findFrom_append_free (n : ℕ) : findFrom k (l ++ List.replicate n none) i = findFrom k l i := by
  induction l generalizing i with
  | nil =>
    rw [List.nil_append]
    induction n generalizing i with
    | zero => rfl
    | succ n ih =>
      rw [List.replicate_succ, findFrom]
      exact ih
  | cons x l ih =>
    rcases x with _ | ⟨k', v'⟩
    · exact ih
    · rw [List.cons_append, findFrom, findFrom, ih]

/-- a key that stands in slot n only -/
theorem findFrom_of_unique {n : ℕ} (h : l[n]? = some (some (k, v)))
    (hu : ∀ m v', l[m]? = some (some (k, v')) → m = n) : findFrom k l i = some (v, i + n) := by
  cases hf : findFrom k l i with
  | none => exact absurd hf (findFrom_ne_none h)
  | some r =>
    obtain ⟨m, hm, hslot⟩ := getElem?_of_findFrom hf
    obtain rfl := hu m r.1 hslot
    rw [hslot, Option.some.injEq, Option.some.injEq, Prod.mk.injEq] at h
    rw [← h.2, ← hm]

end Find

/-! ## Free slots -/

theorem firstFree_le : firstFree l ≤ l.length := List.findIdx_le_length

/-- the first free slot, from a scan: everything before i is taken -/
theorem firstFree_eq (hi : i ≤ l.length) (htaken : ∀ j, j < i → l[j]? ≠ some none)
    (hfree : i = l.length ∨ l[i]? = some none) : firstFree l = i := by
  have hbefore : ∀ j, (hj : j < l.length) → j < i → (l[j]).isNone = false := by
    intro j hj hji
    have := htaken j hji
    rw [List.getElem?_eq_getElem hj] at this
    cases hx : l[j] with
    | none => exact absurd (congrArg some hx) this
    | some x => rfl
  obtain rfl | hfree := hfree
  · apply List.findIdx_eq_length.2
    intro x hx
    obtain ⟨j, hj, rfl⟩ := List.getElem_of_mem hx
    exact hbefore j hj hj
  · obtain ⟨hlt, hx⟩ := List.getElem?_eq_some_iff.1 hfree
    refine (List.findIdx_eq hlt).2 ⟨by rw [hx]; rfl, fun j hj => ?_⟩
    exact hbefore j (lt_trans hj hlt) hj

end OsKernel.SlotMap
