/-
A store that is written one cell at a time, and what a prefix of a list of writes leaves in it.

A power cut stops a list of atomic writes after some prefix, so crash safety is about `applyWrites (ws.take k) d` for
every k. `SameOutside R` relates two stores that agree off a region R (the region a log may scribble on).

Results:
- `applyWrites_of_notMem`: a cell no write names keeps its value;
- `applyWrites_of_mem`: writing pairwise distinct cells sets each of them to its own value.
-/
import Mathlib.Tactic

namespace OsKernel.Writes

variable {β : Type}

/-- the store after a list of writes, first to last -/
def applyWrites (ws : List (ℕ × β)) (d : ℕ → β) : ℕ → β :=
  ws.foldl (fun d w => Function.update d w.1 w.2) d

/-- d and d' agree off the region R -/
def SameOutside (R : ℕ → Prop) (d d' : ℕ → β) : Prop := ∀ x, ¬ R x → d x = d' x

@[simp] theorem applyWrites_nil (d : ℕ → β) : applyWrites [] d = d := rfl

@[simp] theorem applyWrites_cons (w : ℕ × β) (ws : List (ℕ × β)) (d : ℕ → β) :
    applyWrites (w :: ws) d = applyWrites ws (Function.update d w.1 w.2) := rfl

theorem applyWrites_append (ws vs : List (ℕ × β)) (d : ℕ → β) :
    applyWrites (ws ++ vs) d = applyWrites vs (applyWrites ws d) := by
  simp [applyWrites, List.foldl_append]

theorem applyWrites_of_notMem {ws : List (ℕ × β)} (d : ℕ → β) {x : ℕ} (h : ∀ w ∈ ws, w.1 ≠ x) :
    applyWrites ws d x = d x := by
  induction ws generalizing d with
  | nil => rfl
  | cons w ws ih =>
    rw [applyWrites_cons, ih _ fun v hv => h v (List.mem_cons_of_mem w hv)]
    exact Function.update_of_ne (h w List.mem_cons_self).symm _ _

/-- writes inside R leave the rest alone -/
theorem sameOutside_applyWrites {R : ℕ → Prop} {ws : List (ℕ × β)} (d : ℕ → β) (h : ∀ w ∈ ws, R w.1) :
    SameOutside R (applyWrites ws d) d := by
  intro x hx
  apply applyWrites_of_notMem
  rintro w hw rfl
  exact hx (h w hw)

/-- a cell that some write names does not depend on what was there before -/
theorem applyWrites_congr {ws : List (ℕ × β)} (d e : ℕ → β) {x : ℕ} (h : (∃ w ∈ ws, w.1 = x) ∨ d x = e x) :
    applyWrites ws d x = applyWrites ws e x := by
  induction ws generalizing d e with
  | nil =>
    rcases h with ⟨w, hw, -⟩ | h
    · simp at hw
    · exact h
  | cons w ws ih =>
    simp only [applyWrites_cons]
    apply ih
    by_cases hwx : w.1 = x
    · right; simp [hwx]
    · rcases h with ⟨v, hv, hvx⟩ | h
      · rcases List.mem_cons.1 hv with rfl | hv
        · exact absurd hvx hwx
        · exact Or.inl ⟨v, hv, hvx⟩
      · right; simp [Function.update_of_ne (Ne.symm hwx), h]

/-- a write that no later write overrides is what the cell holds -/
theorem applyWrites_of_mem {ws : List (ℕ × β)} (d : ℕ → β) (hnd : (ws.map Prod.fst).Nodup) {x : ℕ} {v : β}
    (h : (x, v) ∈ ws) : applyWrites ws d x = v := by
  induction ws generalizing d with
  | nil => simp at h
  | cons w ws ih =>
    simp only [List.map_cons, List.nodup_cons] at hnd
    rcases List.mem_cons.1 h with rfl | h
    · rw [applyWrites_cons, applyWrites_of_notMem]
      · simp
      · intro u hu hux
        exact hnd.1 (List.mem_map.2 ⟨u, hu, hux⟩)
    · exact ih _ hnd.2 h

end OsKernel.Writes
