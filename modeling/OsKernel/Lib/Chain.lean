/-
Singly linked lists threaded through memory.

`Chain next p l`: the pointer p leads through the nodes l, in this order, to the null pointer; `next a` is the link field of
node a. The memory decides the list: there is at most one l for each p (`Chain.unique`), and it has no duplicates
(`Chain.nodup`). Operations are lists of link updates; `Chain.congr` says that updates elsewhere do not matter.
-/
import Mathlib.Tactic

namespace OsKernel.Linked

/-- p leads through the nodes l to the null pointer -/
def Chain (next : ℕ → ℕ) : ℕ → List ℕ → Prop
  | p, [] => p = 0
  | p, a :: l => p = a ∧ a ≠ 0 ∧ Chain next (next a) l

variable {next next' : ℕ → ℕ} {p : ℕ} {l : List ℕ}

theorem Chain.congr (h : Chain next p l) (hn : ∀ a ∈ l, next' a = next a) : Chain next' p l := by
  induction l generalizing p with
  | nil => exact h
  | cons a l ih =>
    obtain ⟨hp, ha, hl⟩ := h
    refine ⟨hp, ha, ?_⟩
    rw [hn a List.mem_cons_self]
    exact ih hl fun b hb => hn b (List.mem_cons_of_mem a hb)

theorem Chain.unique (h : Chain next p l) {l' : List ℕ} (h' : Chain next p l') : l = l' := by
  induction l generalizing p l' with
  | nil =>
    cases l' with
    | nil => rfl
    | cons b l' => exact absurd (h'.1.symm.trans h) h'.2.1
  | cons a l ih =>
    cases l' with
    | nil => exact absurd (h.1.symm.trans h') h.2.1
    | cons b l' =>
      obtain ⟨rfl, -, hl⟩ := h
      obtain ⟨rfl, -, hl'⟩ := h'
      rw [ih hl hl']

/-- a node of the list starts a chain of its own, through the nodes from it on -/
theorem Chain.suffix (h : Chain next p l) {a : ℕ} (ha : a ∈ l) : ∃ l', Chain next a (a :: l') ∧ (a :: l').length ≤ l.length := by
  induction l generalizing p with
  | nil => simp at ha
  | cons b l ih =>
    rcases List.mem_cons.1 ha with rfl | ha
    · exact ⟨l, ⟨rfl, h.2⟩, le_rfl⟩
    · obtain ⟨l', hl', hlen⟩ := ih h.2.2 ha
      exact ⟨l', hl', hlen.trans (Nat.le_succ _)⟩

/-- **No cycles.** A node met twice would start two chains of different lengths. -/
theorem Chain.nodup (h : Chain next p l) : l.Nodup := by
  induction l generalizing p with
  | nil => exact List.nodup_nil
  | cons a l ih =>
    refine List.nodup_cons.2 ⟨fun ha => ?_, ih h.2.2⟩
    obtain ⟨l', hl', hlen⟩ := h.2.2.suffix ha
    have hself : Chain next a (a :: l) := ⟨rfl, h.2⟩
    rw [hl'.unique hself] at hlen
    exact absurd hlen (by simp)

theorem Chain.length_le (h : Chain next p l) {lo hi : ℕ} (hb : ∀ a ∈ l, lo ≤ a ∧ a < hi) : l.length ≤ hi - lo := by
  have hsub : l.toFinset ⊆ Finset.Ico lo hi := by
    intro a ha
    exact Finset.mem_Ico.2 (hb a (List.mem_toFinset.1 ha))
  have hcard := Finset.card_le_card hsub
  rwa [List.toFinset_card_of_nodup h.nodup, Nat.card_Ico] at hcard

theorem Chain.head_eq_zero (h : Chain next p l) : p = 0 ↔ l = [] := by
  cases l with
  | nil => exact ⟨fun _ => rfl, fun _ => h⟩
  | cons a l => exact ⟨fun hp => absurd (h.1.symm.trans hp) h.2.1, fun hl => by cases hl⟩

end OsKernel.Linked
