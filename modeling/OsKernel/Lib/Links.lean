/-
Slots that refer to shared objects, and a count for each object.

`users f x` are the slots that refer to x. `Counts f c Z`: every object some slot refers to has the number of its slots as its
count, those in Z excepted. Its rule is for a slot that is given another reference: `Counts.update`.
-/
import Mathlib.Tactic

namespace OsKernel.Links

open Function (update update_of_ne update_self)

variable {ι α : Type} {f : ι → Option α} {c c' : α → ℤ} {Z : α → Prop}

/-- the slots that refer to x -/
def users (f : ι → Option α) (x : α) : Set ι := {i | f i = some x}

structure Counted (f : ι → Option α) (c : α → ℤ) (x : α) : Prop where
  finite : (users f x).Finite
  count : c x = (users f x).ncard

def Counts (f : ι → Option α) (c : α → ℤ) (Z : α → Prop) : Prop :=
  ∀ x, ¬ Z x → (users f x).Nonempty → Counted f c x

theorem Counted.pos {x : α} (h : Counted f c x) (hx : (users f x).Nonempty) : 0 < c x := by
  rw [h.count]
  exact_mod_cast (Set.ncard_pos h.finite).2 hx

variable [DecidableEq ι]

theorem mem_users_update {i j : ι} {y : Option α} {x : α} :
    j ∈ users (update f i y) x ↔ (j = i ∧ y = some x) ∨ (j ≠ i ∧ j ∈ users f x) := by
  by_cases hj : j = i
  · subst hj
    simp [users]
  · simp [users, hj]

theorem users_link {i : ι} {y : Option α} {x : α} (hy : y = some x) :
    users (update f i y) x = insert i (users f x) := by
  ext j
  rw [mem_users_update, Set.mem_insert_iff]
  constructor
  · rintro (⟨hj, -⟩ | ⟨-, hj⟩)
    · exact Or.inl hj
    · exact Or.inr hj
  · intro hj
    by_cases hji : j = i
    · exact Or.inl ⟨hji, hy⟩
    · exact Or.inr ⟨hji, hj.resolve_left hji⟩

theorem users_unlink {i : ι} {y : Option α} {x : α} (hy : y ≠ some x) :
    users (update f i y) x = users f x \ {i} := by
  ext j
  rw [mem_users_update, Set.mem_sdiff, Set.mem_singleton_iff]
  constructor
  · rintro (⟨-, hx⟩ | ⟨hj, hm⟩)
    · exact absurd hx hy
    · exact ⟨hm, hj⟩
  · rintro ⟨hm, hj⟩
    exact Or.inr ⟨hj, hm⟩

/-- a slot gets another reference, or none: the count of the object it had goes down, that of the new one goes up. An object
that has lost its last slot has count 0. -/
theorem Counts.update_counted (h : Counts f c Z) {i : ι} {y : Option α}
    (hold : ∀ x, ¬ Z x → (users f x).Nonempty → f i = some x → y ≠ some x → c' x = c x - 1)
    (hnew : ∀ x, ¬ Z x → (users f x).Nonempty → f i ≠ some x → y = some x → c' x = c x + 1)
    (hfirst : ∀ x, ¬ Z x → users f x = ∅ → y = some x → c' x = 1)
    (hsame : ∀ x, ¬ Z x → (users f x).Nonempty → (f i = some x ↔ y = some x) → c' x = c x) {x : α} (hZ : ¬ Z x)
    (hx : (users f x).Nonempty ∨ y = some x) : Counted (update f i y) c' x := by
  by_cases hy : y = some x
  · rcases (users f x).eq_empty_or_nonempty with he | hne
    · refine ⟨?_, ?_⟩
      · rw [users_link hy, he]
        exact (Set.finite_singleton i).subset (by simp)
      · rw [users_link hy, he, hfirst x hZ he hy]
        simp
    · have hc := h x hZ hne
      refine ⟨by rw [users_link hy]; exact hc.finite.insert i, ?_⟩
      rw [users_link hy]
      by_cases hi : f i = some x
      · rw [hsame x hZ hne ⟨fun _ => hy, fun _ => hi⟩, Set.insert_eq_of_mem (show i ∈ users f x from hi), hc.count]
      · rw [hnew x hZ hne hi hy, Set.ncard_insert_of_notMem (show i ∉ users f x from hi) hc.finite, hc.count]
        push_cast
        rfl
  · have hne : (users f x).Nonempty := hx.resolve_right hy
    have hc := h x hZ hne
    refine ⟨by rw [users_unlink hy]; exact hc.finite.sdiff, ?_⟩
    rw [users_unlink hy]
    by_cases hi : f i = some x
    · have hcard := Set.ncard_sdiff_singleton_add_one (show i ∈ users f x from hi) hc.finite
      rw [hold x hZ hne hi hy, hc.count]
      omega
    · rw [hsame x hZ hne ⟨fun hx => absurd hx hi, fun hx => absurd hx hy⟩, Set.sdiff_singleton_eq_self (show i ∉ users f x from hi),
        hc.count]

theorem Counts.update (h : Counts f c Z) {i : ι} {y : Option α}
    (hold : ∀ x, ¬ Z x → (users f x).Nonempty → f i = some x → y ≠ some x → c' x = c x - 1)
    (hnew : ∀ x, ¬ Z x → (users f x).Nonempty → f i ≠ some x → y = some x → c' x = c x + 1)
    (hfirst : ∀ x, ¬ Z x → users f x = ∅ → y = some x → c' x = 1)
    (hsame : ∀ x, ¬ Z x → (users f x).Nonempty → (f i = some x ↔ y = some x) → c' x = c x) :
    Counts (update f i y) c' Z := by
  intro x hZ hx
  refine h.update_counted hold hnew hfirst hsame hZ ?_
  obtain ⟨j, hj⟩ := hx
  rcases mem_users_update.1 hj with ⟨-, hy⟩ | ⟨-, hj⟩
  · exact Or.inr hy
  · exact Or.inl ⟨j, hj⟩

end OsKernel.Links
