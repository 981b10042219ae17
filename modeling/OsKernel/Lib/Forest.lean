/-
Forests with links in both directions: every node knows its parent and lists its children.

`IsForest root live parent children`: the lists and the parent links of the live nodes say the same, no child is listed twice,
and the root is in no list. Nodes are added without a parent (`add`), get one (`adopt`), lose it again (`orphan`) and are
removed (`discard`); moving a node is `orphan` and then `adopt`.

`Reaches`: following parent links ends at the root. `reaches_of_rank`: it does when every parent is the root or has a smaller
rank.

`search`: depth-first search along the lists of children. `search_spec`: when ranks grow from a node to its children and are
bounded, it ends, and it finds a node below the first one exactly when there is one to be found.
-/
import Mathlib.Tactic

namespace OsKernel.Forest

open Function (update update_of_ne update_self)

variable {α : Type} [DecidableEq α]

structure IsForest (root : α) (live : List α) (parent : α → Option α) (children : α → List α) : Prop where
  nodup_live : live.Nodup
  root_mem : root ∈ live
  nodup : ∀ q ∈ live, (children q).Nodup
  mem : ∀ q ∈ live, ∀ p, p ∈ children q ↔ p ∈ live ∧ p ≠ root ∧ parent p = some q
  parent_mem : ∀ p ∈ live, ∀ q, parent p = some q → q ∈ live
  root_parent : ∀ q, parent root = some q → q = root

section Operations

variable {root : α} {live : List α} {parent : α → Option α} {children : α → List α}

theorem IsForest.add (h : IsForest root live parent children) {p : α} (hp : p ∉ live) :
    IsForest root (p :: live) (update parent p none) (update children p []) := by
  have hne : ∀ q ∈ live, q ≠ p := fun q hq => ne_of_mem_of_not_mem hq hp
  have hroot : root ≠ p := hne root h.root_mem
  refine ⟨List.nodup_cons.2 ⟨hp, h.nodup_live⟩, List.mem_cons_of_mem p h.root_mem, ?_, ?_, ?_, ?_⟩
  · intro q hq
    rcases List.mem_cons.1 hq with rfl | hq
    · rw [update_self]
      exact List.nodup_nil
    · rw [update_of_ne (hne q hq)]
      exact h.nodup q hq
  · intro q hq x
    -- nobody has the new node as its parent
    have hnone : q = p → ¬ (x ∈ p :: live ∧ x ≠ root ∧ update parent p none x = some q) := by
      rintro rfl ⟨hx, -, hpar⟩
      rcases List.mem_cons.1 hx with rfl | hx
      · rw [update_self] at hpar
        cases hpar
      · rw [update_of_ne (hne x hx)] at hpar
        exact hp (h.parent_mem x hx q hpar)
    rcases List.mem_cons.1 hq with rfl | hq
    · rw [update_self]
      exact iff_of_false List.not_mem_nil (hnone rfl)
    · rw [update_of_ne (hne q hq), h.mem q hq, List.mem_cons]
      by_cases hx : x = p
      · rw [hx, update_self]
        exact iff_of_false (fun hm => hp hm.1) fun hm => nomatch hm.2.2
      · rw [update_of_ne hx, or_iff_right hx]
  · intro x hx q hpar
    rcases List.mem_cons.1 hx with rfl | hx
    · rw [update_self] at hpar
      cases hpar
    · rw [update_of_ne (hne x hx)] at hpar
      exact List.mem_cons_of_mem p (h.parent_mem x hx q hpar)
  · rw [update_of_ne hroot]
    exact h.root_parent

theorem IsForest.adopt (h : IsForest root live parent children) {p q : α} {l : List α} (hp : p ∈ live) (hroot : p ≠ root)
    (hnone : parent p = none) (hq : q ∈ live) (hl : l.Perm (p :: children q)) :
    IsForest root live (update parent p (some q)) (update children q l) := by
  have hout : ∀ r ∈ live, p ∉ children r := by
    intro r hr hm
    have := ((h.mem r hr p).1 hm).2.2
    rw [hnone] at this
    cases this
  refine ⟨h.nodup_live, h.root_mem, ?_, ?_, ?_, ?_⟩
  · intro r hr
    by_cases hrq : r = q
    · rw [hrq, update_self, hl.nodup_iff]
      exact List.nodup_cons.2 ⟨hout q hq, h.nodup q hq⟩
    · rw [update_of_ne hrq]
      exact h.nodup r hr
  · intro r hr x
    have hmem : x ∈ update children q l r ↔ x = p ∧ r = q ∨ x ∈ children r := by
      by_cases hrq : r = q
      · rw [hrq, update_self, hl.mem_iff, List.mem_cons]
        exact or_congr_left (and_iff_left rfl).symm
      · rw [update_of_ne hrq]
        exact (or_iff_right fun hm => hrq hm.2).symm
    rw [hmem]
    by_cases hx : x = p
    · rw [hx, update_self, or_iff_left (hout r hr)]
      constructor
      · rintro ⟨-, rfl⟩
        exact ⟨hp, hroot, rfl⟩
      · rintro ⟨-, -, hr⟩
        exact ⟨rfl, (Option.some.inj hr).symm⟩
    · rw [update_of_ne hx, or_iff_right fun hm => hx hm.1]
      exact h.mem r hr x
  · intro x hx r hpar
    by_cases hxp : x = p
    · rw [hxp, update_self] at hpar
      exact Option.some.inj hpar ▸ hq
    · rw [update_of_ne hxp] at hpar
      exact h.parent_mem x hx r hpar
  · rw [update_of_ne hroot.symm]
    exact h.root_parent

theorem IsForest.orphan (h : IsForest root live parent children) {p q : α} (hq : q ∈ live) (hp : p ∈ children q) :
    IsForest root live (update parent p none) (update children q ((children q).erase p)) := by
  obtain ⟨-, hroot, hpar⟩ := (h.mem q hq p).1 hp
  refine ⟨h.nodup_live, h.root_mem, ?_, ?_, ?_, ?_⟩
  · intro r hr
    by_cases hrq : r = q
    · rw [hrq, update_self]
      exact (h.nodup q hq).erase p
    · rw [update_of_ne hrq]
      exact h.nodup r hr
  · intro r hr x
    have hmem : x ∈ update children q ((children q).erase p) r ↔ x ≠ p ∧ x ∈ children r := by
      by_cases hrq : r = q
      · rw [hrq, update_self]
        exact (h.nodup q hq).mem_erase_iff
      · rw [update_of_ne hrq]
        refine (and_iff_right_of_imp ?_).symm
        rintro hm rfl
        have := ((h.mem r hr x).1 hm).2.2
        rw [hpar] at this
        exact hrq (Option.some.inj this).symm
    rw [hmem, h.mem r hr]
    by_cases hx : x = p
    · rw [hx, update_self]
      exact iff_of_false (fun hm => hm.1 rfl) fun hm => nomatch hm.2.2
    · rw [update_of_ne hx]
      exact and_iff_right hx
  · intro x hx r hxr
    by_cases hxp : x = p
    · rw [hxp, update_self] at hxr
      cases hxr
    · rw [update_of_ne hxp] at hxr
      exact h.parent_mem x hx r hxr
  · rw [update_of_ne hroot.symm]
    exact h.root_parent

theorem IsForest.discard (h : IsForest root live parent children) {p : α} (hroot : p ≠ root) (hnone : parent p = none)
    (hleaf : p ∈ live → children p = []) : IsForest root (live.erase p) parent children := by
  have hmem : ∀ x, x ∈ live.erase p ↔ x ≠ p ∧ x ∈ live := fun x => h.nodup_live.mem_erase_iff
  refine ⟨h.nodup_live.erase p, (hmem root).2 ⟨hroot.symm, h.root_mem⟩, ?_, ?_, ?_, h.root_parent⟩
  · intro q hq
    exact h.nodup q ((hmem q).1 hq).2
  · intro q hq x
    rw [h.mem q ((hmem q).1 hq).2, hmem]
    refine and_congr_left fun hx => (and_iff_right ?_).symm
    rintro rfl
    rw [hnone] at hx
    cases hx.2
  · intro x hx q hpar
    obtain ⟨-, hxl⟩ := (hmem x).1 hx
    have hq : q ∈ live := h.parent_mem x hxl q hpar
    refine (hmem q).2 ⟨?_, hq⟩
    rintro rfl
    have hxr : x ≠ root := by
      rintro rfl
      exact hroot (h.root_parent q hpar)
    have hm := (h.mem q hq x).2 ⟨hxl, hxr, hpar⟩
    rw [hleaf hq] at hm
    cases hm

omit [DecidableEq α] in
/-- only the parents of the live nodes matter -/
theorem IsForest.congr (h : IsForest root live parent children) {parent' : α → Option α}
    (hpar : ∀ p ∈ live, parent' p = parent p) : IsForest root live parent' children := by
  refine ⟨h.nodup_live, h.root_mem, h.nodup, ?_, ?_, ?_⟩
  · intro q hq p
    rw [h.mem q hq]
    refine and_congr_right fun hp => ?_
    rw [hpar p hp]
  · intro p hp q hq
    rw [hpar p hp] at hq
    exact h.parent_mem p hp q hq
  · rw [hpar root h.root_mem]
    exact h.root_parent

/-- a leaf is taken out of its parent's list and removed -/
theorem IsForest.remove (h : IsForest root live parent children) {p q : α} (hq : q ∈ live) (hp : p ∈ children q)
    (hleaf : children p = []) :
    IsForest root (live.erase p) parent (update children q ((children q).erase p)) := by
  obtain ⟨hlive, hroot, -⟩ := (h.mem q hq p).1 hp
  have hpq : p ≠ q := by
    rintro rfl
    rw [hleaf] at hp
    cases hp
  have hgone := (h.orphan hq hp).discard hroot (update_self ..) fun _ => by
    rw [update_of_ne hpq, hleaf]
  refine hgone.congr ?_
  intro x hx
  rw [update_of_ne (h.nodup_live.mem_erase_iff.1 hx).1]

end Operations

/-! ## Paths to the root -/

/-- following parent links from a node ends at the root -/
inductive Reaches (parent : α → Option α) (root : α) : α → Prop where
  | root : Reaches parent root root
  | step {p q : α} : parent p = some q → Reaches parent root q → Reaches parent root p

omit [DecidableEq α] in
theorem reaches_of_rank {parent : α → Option α} {root : α} {S : α → Prop} (rank : α → ℕ)
    (h : ∀ p, S p → p ≠ root → ∃ q, parent p = some q ∧ S q ∧ (q = root ∨ rank q < rank p)) {p : α} (hp : S p) :
    Reaches parent root p := by
  induction hn : rank p using Nat.strongRecOn generalizing p with
  | ind n ih =>
    by_cases hroot : p = root
    · rw [hroot]
      exact .root
    · obtain ⟨q, hpar, hq, hrank⟩ := h p hp hroot
      refine .step hpar ?_
      rcases hrank with rfl | hlt
      · exact .root
      · exact ih (rank q) (hn ▸ hlt) hq rfl

/-! ## Searching from the root -/

/-- x is the node p or below it -/
abbrev Below (children : α → List α) (p x : α) : Prop := Relation.ReflTransGen (fun q c => c ∈ children q) p x

/-- the first result of f along a list; none when f fails before there is one -/
def firstResult {β : Type} (f : α → Option (Option β)) : List α → Option (Option β)
  | [] => some none
  | a :: l =>
    match f a with
    | none => none
    | some (some r) => some (some r)
    | some none => firstResult f l

/-- depth-first search for the first node that is a hit; none when it goes deeper than the fuel -/
def search (children : α → List α) (hit : α → Bool) : ℕ → α → Option (Option α)
  | 0, _ => none
  | fuel + 1, p => if hit p then some (some p) else firstResult (search children hit fuel) (children p)

/-- what a search from p has to return -/
def Finds (children : α → List α) (hit : α → Bool) (p : α) : Option α → Prop
  | some x => Below children p x ∧ hit x = true
  | none => ∀ x, Below children p x → hit x = false

omit [DecidableEq α] in
theorem firstResult_spec {children : α → List α} {hit : α → Bool} {f : α → Option (Option α)} (l : List α)
    (hf : ∀ c ∈ l, ∃ r, f c = some r ∧ Finds children hit c r) :
    ∃ r, firstResult f l = some r ∧
      (∀ x, r = some x → ∃ c ∈ l, Below children c x ∧ hit x = true) ∧
      (r = none → ∀ c ∈ l, ∀ x, Below children c x → hit x = false) := by
  induction l with
  | nil => exact ⟨none, rfl, nofun, fun _ => nofun⟩
  | cons c l ih =>
    obtain ⟨r, hr, hfinds⟩ := hf c List.mem_cons_self
    cases r with
    | some x =>
      refine ⟨some x, by rw [firstResult, hr], ?_, nofun⟩
      intro y hy
      obtain rfl := Option.some.inj hy
      exact ⟨c, List.mem_cons_self, hfinds⟩
    | none =>
      obtain ⟨r, hrest, hfound, hnone⟩ := ih fun d hd => hf d (List.mem_cons_of_mem c hd)
      refine ⟨r, by rw [firstResult, hr]; exact hrest, ?_, ?_⟩
      · intro x hx
        obtain ⟨d, hd, hbelow⟩ := hfound x hx
        exact ⟨d, List.mem_cons_of_mem c hd, hbelow⟩
      · intro hr d hd
        rcases List.mem_cons.1 hd with rfl | hd
        · exact hfinds
        · exact hnone hr d hd

omit [DecidableEq α] in
/-- The search from a node of S, by induction on the fuel: the rank of a child is closer to the bound. -/
theorem search_spec {children : α → List α} {hit : α → Bool} {S : α → Prop} (rank : α → ℕ) {bound : ℕ}
    (hchild : ∀ p, S p → ∀ c ∈ children p, S c ∧ rank p < rank c) (hbound : ∀ p, S p → rank p < bound) (fuel : ℕ) {p : α}
    (hp : S p) (hfuel : bound ≤ rank p + fuel) : ∃ r, search children hit fuel p = some r ∧ Finds children hit p r := by
  induction fuel generalizing p with
  | zero => exact absurd (hbound p hp) (by omega)
  | succ fuel ih =>
    rw [search]
    by_cases hhit : hit p = true
    · rw [if_pos hhit]
      exact ⟨some p, rfl, .refl, hhit⟩
    · rw [if_neg hhit]
      obtain ⟨r, hr, hfound, hnone⟩ := firstResult_spec (children p) fun c hc =>
        ih (hchild p hp c hc).1 (by have := (hchild p hp c hc).2; omega)
      refine ⟨r, hr, ?_⟩
      cases r with
      | some x =>
        obtain ⟨c, hc, hbelow, hx⟩ := hfound x rfl
        exact ⟨.head hc hbelow, hx⟩
      | none =>
        intro x hx
        rcases Relation.ReflTransGen.cases_head hx with rfl | ⟨c, hc, hbelow⟩
        · exact Bool.eq_false_iff.2 hhit
        · exact hnone rfl c hc x hbelow

end OsKernel.Forest
