/-
Ownership of resources that are handed out one at a time.

Places k point to resources `r k`, the null resource 0 meaning that a place is empty. `Owns base used r`: the resources in
use are those of a fixed set `base`, which no place points to, and those some place points to; and no two places point to
the same resource. Handing out an unused resource to an empty place (`Owns.take`) and taking one back (`Owns.drop`) keep it.
-/
import Mathlib.Tactic

namespace OsKernel.Owner

open Function (update update_of_ne update_self)

variable {κ α : Type} [Zero α] {base used : Set α} {r : κ → α}

structure Owns (base used : Set α) (r : κ → α) : Prop where
  zero : 0 ∈ base
  used_eq : used = base ∪ Set.range r
  apart : ∀ k, r k ≠ 0 → r k ∉ base
  inj : ∀ k l, r k = r l → r k ≠ 0 → k = l

theorem Owns.mem_used (h : Owns base used r) (k : κ) : r k ∈ used := by
  rw [h.used_eq]
  exact Or.inr ⟨k, rfl⟩

theorem Owns.base_subset (h : Owns base used r) : base ⊆ used := by
  rw [h.used_eq]
  exact Set.subset_union_left

theorem Owns.ne_zero (h : Owns base used r) {n : α} (hn : n ∉ used) : n ≠ 0 := by
  intro h0
  exact hn (h0 ▸ h.base_subset h.zero)

theorem Owns.ne_ref (h : Owns base used r) {n : α} (hn : n ∉ used) (k : κ) : r k ≠ n :=
  fun hk => hn (hk ▸ h.mem_used k)

/-- an unused resource goes to an empty place -/
theorem Owns.take [DecidableEq κ] (h : Owns base used r) {n : α} {k : κ} (hn : n ∉ used) (hk : r k = 0) :
    Owns base (insert n used) (update r k n) := by
  have hbase : n ∉ base := fun hb => hn (h.base_subset hb)
  refine ⟨h.zero, ?_, ?_, ?_⟩
  · ext x
    rw [h.used_eq]
    constructor
    · rintro (rfl | hx | ⟨l, rfl⟩)
      · exact Or.inr ⟨k, update_self ..⟩
      · exact Or.inl hx
      · by_cases hl : l = k
        · rw [hl, hk]
          exact Or.inl h.zero
        · exact Or.inr ⟨l, update_of_ne hl ..⟩
    · rintro (hx | ⟨l, rfl⟩)
      · exact Or.inr (Or.inl hx)
      · by_cases hl : l = k
        · rw [hl, update_self]
          exact Or.inl rfl
        · rw [update_of_ne hl]
          exact Or.inr (Or.inr ⟨l, rfl⟩)
  · intro l hl
    by_cases hlk : l = k
    · rwa [hlk, update_self]
    · rw [update_of_ne hlk] at hl ⊢
      exact h.apart l hl
  · intro a b hab ha
    by_cases hak : a = k <;> by_cases hbk : b = k
    · rw [hak, hbk]
    · rw [hak, update_self, update_of_ne hbk] at hab
      exact absurd hab.symm (h.ne_ref hn b)
    · rw [hbk, update_self, update_of_ne hak] at hab
      exact absurd hab (h.ne_ref hn a)
    · rw [update_of_ne hak] at hab ha
      rw [update_of_ne hbk] at hab
      exact h.inj a b hab ha

/-- the resource of a place is taken back -/
theorem Owns.drop [DecidableEq κ] (h : Owns base used r) {k : κ} (hk : r k ≠ 0) :
    Owns base (used \ {r k}) (update r k 0) := by
  refine ⟨h.zero, ?_, ?_, ?_⟩
  · ext x
    rw [h.used_eq]
    constructor
    · rintro ⟨hx | ⟨l, rfl⟩, hne⟩
      · exact Or.inl hx
      · have hlk : l ≠ k := fun hlk => hne (congrArg r hlk)
        exact Or.inr ⟨l, update_of_ne hlk ..⟩
    · rintro (hx | ⟨l, rfl⟩)
      · exact ⟨Or.inl hx, fun hxk => h.apart k hk (hxk ▸ hx)⟩
      · by_cases hlk : l = k
        · rw [hlk, update_self]
          exact ⟨Or.inl h.zero, fun h0 => hk h0.symm⟩
        · rw [update_of_ne hlk]
          refine ⟨Or.inr ⟨l, rfl⟩, fun hl => ?_⟩
          exact hlk (h.inj k l hl.symm hk).symm
  · intro l hl
    by_cases hlk : l = k
    · rw [hlk, update_self] at hl
      exact absurd rfl hl
    · rw [update_of_ne hlk] at hl ⊢
      exact h.apart l hl
  · intro a b hab ha
    by_cases hak : a = k
    · rw [hak, update_self] at ha
      exact absurd rfl ha
    · rw [update_of_ne hak] at hab ha
      by_cases hbk : b = k
      · rw [hbk, update_self] at hab
        exact absurd hab ha
      · rw [update_of_ne hbk] at hab
        exact h.inj a b hab ha

/-- the places in K have been emptied, the others are as they were: what K pointed to is not in use any more -/
theorem Owns.used_of_emptied {used' : Set α} {r' : κ → α} {K : Set κ} (h : Owns base used r) (h' : Owns base used' r')
    (hK : ∀ k ∈ K, r' k = 0) (hother : ∀ k ∉ K, r' k = r k) : used' = used \ { x | x ≠ 0 ∧ ∃ k ∈ K, r k = x } := by
  ext x
  rw [h.used_eq, h'.used_eq]
  constructor
  · rintro (hx | ⟨k, rfl⟩)
    · refine ⟨Or.inl hx, ?_⟩
      rintro ⟨h0, k, -, rfl⟩
      exact h.apart k h0 hx
    · by_cases hk : k ∈ K
      · rw [hK k hk]
        exact ⟨Or.inl h.zero, fun h0 => h0.1 rfl⟩
      · rw [hother k hk]
        refine ⟨Or.inr ⟨k, rfl⟩, ?_⟩
        rintro ⟨h0, l, hl, hlk⟩
        exact hk (h.inj k l hlk.symm h0 ▸ hl)
  · rintro ⟨hx | ⟨k, rfl⟩, hnot⟩
    · exact Or.inl hx
    · by_cases hk : k ∈ K
      · have h0 : r k = 0 := by
          by_contra h0
          exact hnot ⟨h0, k, hk, rfl⟩
        rw [h0]
        exact Or.inl h.zero
      · exact Or.inr ⟨k, hother k hk⟩

end OsKernel.Owner
