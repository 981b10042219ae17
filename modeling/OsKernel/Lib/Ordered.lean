/-
Sequences kept in order by a comparison function that need not be an order.

`insertBy lt x l` walks l as a search tree's insertion walks its nodes: x goes before the first element it is below, and
there is no insertion when an element is neither below nor above it. `insertBy_perm` and `insertBy_isSome` hold for any
comparison; `insertBy_pairwise` (the result is in order again) needs a strict total order on the elements involved.
-/
import Mathlib.Tactic

namespace OsKernel.Ordered

variable {α : Type}

def insertBy (lt : α → α → Bool) (x : α) : List α → Option (List α)
  | [] => some [x]
  | y :: l =>
    if lt x y then some (x :: y :: l)
    else if lt y x then (insertBy lt x l).map (y :: ·)
    else none

theorem insertBy_perm {lt : α → α → Bool} {x : α} {l l' : List α} (h : insertBy lt x l = some l') : l'.Perm (x :: l) := by
  induction l generalizing l' with
  | nil =>
    obtain rfl := Option.some.inj h
    rfl
  | cons y l ih =>
    simp only [insertBy] at h
    split_ifs at h with hxy hyx
    · obtain rfl := Option.some.inj h
      rfl
    · obtain ⟨m, hm, rfl⟩ := Option.map_eq_some_iff.1 h
      exact ((ih hm).cons y).trans (.swap x y l)

/-- x is inserted when it compares with every element -/
theorem insertBy_isSome {lt : α → α → Bool} {x : α} {l : List α} (h : ∀ y ∈ l, lt x y ∨ lt y x) :
    ∃ l', insertBy lt x l = some l' := by
  induction l with
  | nil => exact ⟨[x], rfl⟩
  | cons y l ih =>
    obtain ⟨m, hm⟩ := ih fun z hz => h z (List.mem_cons_of_mem y hz)
    simp only [insertBy, hm]
    rcases h y List.mem_cons_self with hxy | hyx
    · exact ⟨x :: y :: l, if_pos hxy⟩
    · split_ifs
      · exact ⟨_, rfl⟩
      · exact ⟨_, rfl⟩

theorem insertBy_pairwise {lt : α → α → Bool} {x : α} {l l' : List α} (htrans : ∀ y ∈ l, lt x y → ∀ z ∈ l, lt y z → lt x z)
    (hl : l.Pairwise (lt · ·)) (h : insertBy lt x l = some l') : l'.Pairwise (lt · ·) := by
  induction l generalizing l' with
  | nil =>
    obtain rfl := Option.some.inj h
    exact List.pairwise_singleton _ x
  | cons y l ih =>
    obtain ⟨hy, hl⟩ := List.pairwise_cons.1 hl
    simp only [insertBy] at h
    split_ifs at h with hxy hyx
    · obtain rfl := Option.some.inj h
      refine List.pairwise_cons.2 ⟨?_, List.pairwise_cons.2 ⟨hy, hl⟩⟩
      intro z hz
      rcases List.mem_cons.1 hz with rfl | hz
      · exact hxy
      · exact htrans y List.mem_cons_self hxy z (List.mem_cons_of_mem y hz) (hy z hz)
    · obtain ⟨m, hm, rfl⟩ := Option.map_eq_some_iff.1 h
      have hm' : m.Pairwise (lt · ·) := by
        apply ih _ hl hm
        intro a ha hxa b hb
        exact htrans a (List.mem_cons_of_mem y ha) hxa b (List.mem_cons_of_mem y hb)
      refine List.pairwise_cons.2 ⟨?_, hm'⟩
      intro z hz
      rcases List.mem_cons.1 ((insertBy_perm hm).subset hz) with rfl | hz
      · exact hyx
      · exact hy z hz

end OsKernel.Ordered
