/-
Trees of tables in a flat memory of 8-byte cells.

A table is w consecutive cells; an entry either points to a table of the next level (`child`) or does not. `tableAt`
follows a path of indices from a root; address 0 stands for a missing root. A family of trees is `Separate` when its
tables are aligned and no table is reached on two paths, of one tree or of two.

Three writes are covered, each by what it does to `tableAt` on every path of at most n steps:
- `tableAt_agree`: a write that changes no link, be it off the tables or into a table of the last level;
- `tableAt_link`: a cleared table is hung into an empty entry: one path is added;
- `tableAt_root`: a cleared table becomes the root of an empty tree: the empty path is added.

`below` lists the tables of one tree, each before the table that points to it.
-/
import Mathlib.Tactic

namespace OsKernel.Radix

variable (child : ℕ → Option ℕ)

/-- the table reached from table t along a path of indices -/
def walk (cell : ℕ → ℕ) : ℕ → List ℕ → Option ℕ
  | t, [] => some t
  | t, i :: q => (child (cell (t + 8 * i))).bind fun u => walk cell u q

/-- the table on path q of the tree with the given root -/
def tableAt (cell : ℕ → ℕ) (root : ℕ) (q : List ℕ) : Option ℕ := if root = 0 then none else walk child cell root q

/-- at most n indices, each of an entry of a table -/
def IsPath (w n : ℕ) (q : List ℕ) : Prop := q.length ≤ n ∧ ∀ i ∈ q, i < w

variable {ι : Type}

structure Separate (w n : ℕ) (cell : ℕ → ℕ) (root : ι → ℕ) : Prop where
  aligned : ∀ k q t, IsPath w n q → tableAt child cell (root k) q = some t → 8 * w ∣ t
  inj : ∀ k q k' q' t, IsPath w n q → IsPath w n q' → tableAt child cell (root k) q = some t →
    tableAt child cell (root k') q' = some t → k = k' ∧ q = q'

variable {child} {w n : ℕ} {cell cell' : ℕ → ℕ} {root : ι → ℕ}

theorem walk_snoc (t : ℕ) (q : List ℕ) (i : ℕ) :
    walk child cell t (q ++ [i]) = (walk child cell t q).bind fun u => child (cell (u + 8 * i)) := by
  induction q generalizing t with
  | nil =>
    simp only [List.nil_append, walk, Option.bind_some]
    exact Option.bind_fun_some _
  | cons j q ih =>
    simp only [List.cons_append, walk]
    cases child (cell (t + 8 * j)) with
    | none => rfl
    | some u => exact ih u

theorem tableAt_snoc (r : ℕ) (q : List ℕ) (i : ℕ) :
    tableAt child cell r (q ++ [i]) = (tableAt child cell r q).bind fun u => child (cell (u + 8 * i)) := by
  by_cases hr : r = 0
  · rw [tableAt, if_pos hr, tableAt, if_pos hr, Option.bind_none]
  · rw [tableAt, if_neg hr, tableAt, if_neg hr, walk_snoc]

theorem IsPath.snoc {q : List ℕ} {i : ℕ} (h : IsPath w n (q ++ [i])) : IsPath w n q ∧ q.length < n ∧ i < w := by
  obtain ⟨hlen, hlt⟩ := h
  rw [List.length_append, List.length_singleton] at hlen
  exact ⟨⟨by omega, fun j hj => hlt j (List.mem_append_left _ hj)⟩, hlen, hlt i (by simp)⟩

/-- an address lies in one entry of one table -/
theorem entry_inj {t u i j : ℕ} (ht : 8 * w ∣ t) (hu : 8 * w ∣ u) (hi : i < w) (hj : j < w)
    (h : t + 8 * i = u + 8 * j) : t = u ∧ i = j := by
  obtain ⟨a, rfl⟩ := ht
  obtain ⟨b, rfl⟩ := hu
  have hidx : ∀ c k : ℕ, k < w → (8 * w * c + 8 * k) / (8 * w) = c := fun c k hk => by
    rw [Nat.mul_add_div (by omega), Nat.div_eq_of_lt (by omega), Nat.add_zero]
  have hab : a = b := by rw [← hidx a i hi, h, hidx b j hj]
  subst hab
  exact ⟨rfl, by omega⟩

/-- the links of all inner tables are kept, so every path leads where it did -/
theorem tableAt_agree (hc : ∀ k q t j, IsPath w n q → q.length < n → tableAt child cell (root k) q = some t → j < w →
    child (cell' (t + 8 * j)) = child (cell (t + 8 * j))) (k : ι) {q : List ℕ} (hq : IsPath w n q) :
    tableAt child cell' (root k) q = tableAt child cell (root k) q := by
  induction q using List.reverseRecOn with
  | nil => rfl
  | append_singleton q i ih =>
    obtain ⟨hq0, hlen, hi⟩ := hq.snoc
    rw [tableAt_snoc, tableAt_snoc, ih hq0]
    cases ht : tableAt child cell (root k) q with
    | none => rfl
    | some t => exact hc k q t i hq0 hlen ht hi

section Link

variable [DecidableEq ι]

/-- a cleared table p is hung into entry i of the table on path q of tree k -/
theorem tableAt_link (hsep : Separate child w n cell root) {k : ι} {q : List ℕ} {i t p : ℕ}
    (hq : IsPath w n (q ++ [i])) (ht : tableAt child cell (root k) q = some t)
    (hold : child (cell (t + 8 * i)) = none) (hnew : child (cell' (t + 8 * i)) = some p)
    (hp : ∀ j < w, child (cell' (p + 8 * j)) = none)
    (hc : ∀ k' q' u j, IsPath w n q' → tableAt child cell (root k') q' = some u → j < w → u + 8 * j ≠ t + 8 * i →
      cell' (u + 8 * j) = cell (u + 8 * j)) (k' : ι) {r : List ℕ} (hr : IsPath w n r) :
    tableAt child cell' (root k') r = if k' = k ∧ r = q ++ [i] then some p else tableAt child cell (root k') r := by
  obtain ⟨hq0, -, hi⟩ := hq.snoc
  have hnone : tableAt child cell (root k) (q ++ [i]) = none := by rw [tableAt_snoc, ht]; exact hold
  induction r using List.reverseRecOn with
  | nil =>
    have hne : ¬ (k' = k ∧ [] = q ++ [i]) := fun h => by simpa using congrArg List.length h.2
    rw [if_neg hne]
    rfl
  | append_singleton r j ih =>
    obtain ⟨hr0, -, hj⟩ := hr.snoc
    rw [tableAt_snoc, ih hr0]
    by_cases hthis : k' = k ∧ r = q ++ [i]
    · -- one step beyond the new table: nothing there, before or after
      obtain ⟨rfl, rfl⟩ := hthis
      have hne : ¬ (k' = k' ∧ q ++ [i] ++ [j] = q ++ [i]) := fun h => by simpa using congrArg List.length h.2
      rw [if_pos ⟨rfl, rfl⟩, if_neg hne, tableAt_snoc, hnone]
      exact hp j hj
    · rw [if_neg hthis, tableAt_snoc]
      cases hu : tableAt child cell (root k') r with
      | none =>
        have hne : ¬ (k' = k ∧ r ++ [j] = q ++ [i]) := by
          intro hx
          obtain ⟨hrq, -⟩ := List.append_singleton_inj.1 hx.2
          rw [hrq, hx.1, ht] at hu
          exact absurd hu (by simp)
        rw [if_neg hne]
        rfl
      | some u =>
        simp only [Option.bind_some]
        by_cases hslot : u + 8 * j = t + 8 * i
        · obtain ⟨hut, hji⟩ := entry_inj (hsep.aligned _ _ _ hr0 hu) (hsep.aligned _ _ _ hq0 ht) hj hi hslot
          obtain ⟨hk, hrq⟩ := hsep.inj _ _ _ _ _ hr0 hq0 hu (hut ▸ ht)
          rw [hslot, hnew, if_pos ⟨hk, by rw [hrq, hji]⟩]
        · have hne : ¬ (k' = k ∧ r ++ [j] = q ++ [i]) := by
            intro hx
            obtain ⟨hrq, hji⟩ := List.append_singleton_inj.1 hx.2
            rw [hrq, hx.1, ht] at hu
            exact hslot (by rw [Option.some.inj hu, hji])
          rw [if_neg hne, hc k' r u j hr0 hu hj hslot]

/-- a cleared table p becomes the root of tree k -/
theorem tableAt_root {k : ι} {p : ℕ} (hk : root k = 0) (hp0 : p ≠ 0) (hp : ∀ j < w, child (cell' (p + 8 * j)) = none)
    (hc : ∀ k' q' u j, IsPath w n q' → tableAt child cell (root k') q' = some u → j < w →
      cell' (u + 8 * j) = cell (u + 8 * j)) (k' : ι) {r : List ℕ} (hr : IsPath w n r) :
    tableAt child cell' (Function.update root k p k') r =
      if k' = k ∧ r = [] then some p else tableAt child cell (root k') r := by
  by_cases hkk : k' = k
  · subst hkk
    have hold : tableAt child cell (root k') r = none := by rw [tableAt, if_pos hk]
    rw [Function.update_self, hold, tableAt, if_neg hp0]
    cases r with
    | nil => rw [if_pos ⟨rfl, rfl⟩]; rfl
    | cons j r =>
      rw [if_neg (fun h => List.cons_ne_nil _ _ h.2), walk, hp j (hr.2 j List.mem_cons_self)]
      rfl
  · rw [Function.update_of_ne hkk, if_neg fun h => hkk h.1]
    exact tableAt_agree (fun _ q t j hq _ ht hj => by rw [hc _ q t j hq ht hj]) k' hr

end Link

section Below

variable (child w) in
/-- the tables at or below table t, the deeper ones first -/
def below (cell : ℕ → ℕ) : ℕ → ℕ → List ℕ
  | 0, t => [t]
  | d + 1, t =>
    (List.range w).flatMap (fun i => ((child (cell (t + 8 * i))).map fun u => below cell d u).getD []) ++ [t]

variable (child w) in
/-- the tables below entry i of table t -/
def belowEntry (cell : ℕ → ℕ) (d t i : ℕ) : List ℕ :=
  ((child (cell (t + 8 * i))).map fun u => below child w cell d u).getD []

theorem below_succ (d t : ℕ) :
    below child w cell (d + 1) t = (List.range w).flatMap (belowEntry child w cell d t) ++ [t] := rfl

theorem belowEntry_none {d t i : ℕ} (h : child (cell (t + 8 * i)) = none) : belowEntry child w cell d t i = [] := by
  rw [belowEntry, h]
  rfl

theorem belowEntry_some {d t i u : ℕ} (h : child (cell (t + 8 * i)) = some u) :
    belowEntry child w cell d t i = below child w cell d u := by
  rw [belowEntry, h]
  rfl

theorem IsPath.cons {i d : ℕ} {q : List ℕ} : IsPath w (d + 1) (i :: q) ↔ i < w ∧ IsPath w d q := by
  simp only [IsPath, List.length_cons, Nat.add_le_add_iff_right, List.forall_mem_cons]
  tauto

theorem mem_below {d t p : ℕ} : p ∈ below child w cell d t ↔ ∃ q, IsPath w d q ∧ walk child cell t q = some p := by
  induction d generalizing t with
  | zero =>
    simp only [below, List.mem_singleton]
    constructor
    · rintro rfl
      exact ⟨[], ⟨le_rfl, by simp⟩, rfl⟩
    · rintro ⟨q, hq, hp⟩
      obtain rfl : q = [] := List.eq_nil_of_length_eq_zero (Nat.le_zero.1 hq.1)
      exact (Option.some.inj hp).symm
  | succ d ih =>
    simp only [below_succ, List.mem_append, List.mem_flatMap, List.mem_range, List.mem_singleton]
    constructor
    · rintro (⟨i, hi, hp⟩ | rfl)
      · cases hu : child (cell (t + 8 * i)) with
        | none =>
          rw [belowEntry_none hu] at hp
          cases hp
        | some u =>
          rw [belowEntry_some hu] at hp
          obtain ⟨q, hq, hw⟩ := ih.1 hp
          exact ⟨i :: q, IsPath.cons.2 ⟨hi, hq⟩, by rw [walk, hu]; exact hw⟩
      · exact ⟨[], ⟨Nat.zero_le _, by simp⟩, rfl⟩
    · rintro ⟨q, hq, hp⟩
      cases q with
      | nil => exact Or.inr (Option.some.inj hp).symm
      | cons i q =>
        obtain ⟨hi, hq⟩ := IsPath.cons.1 hq
        obtain ⟨u, hu, hp⟩ := Option.bind_eq_some_iff.1 hp
        exact Or.inl ⟨i, hi, by rw [belowEntry_some hu]; exact ih.2 ⟨q, hq, hp⟩⟩

/-- no table is listed twice when each is reached on one path -/
theorem nodup_below {d t : ℕ} (hinj : ∀ q q' p, IsPath w d q → IsPath w d q' → walk child cell t q = some p →
    walk child cell t q' = some p → q = q') : (below child w cell d t).Nodup := by
  induction d generalizing t with
  | zero => simp [below]
  | succ d ih =>
    -- a table listed for entry i is reached on a path that starts with i
    have hpath : ∀ i < w, ∀ p ∈ belowEntry child w cell d t i,
        ∃ q, IsPath w (d + 1) (i :: q) ∧ walk child cell t (i :: q) = some p := by
      intro i hi p hp
      cases hu : child (cell (t + 8 * i)) with
      | none =>
        rw [belowEntry_none hu] at hp
        cases hp
      | some u =>
        rw [belowEntry_some hu] at hp
        obtain ⟨q, hq, hw⟩ := mem_below.1 hp
        exact ⟨q, IsPath.cons.2 ⟨hi, hq⟩, by rw [walk, hu]; exact hw⟩
    rw [below_succ, List.nodup_append, List.nodup_flatMap]
    refine ⟨⟨fun i hi => ?_, ?_⟩, List.nodup_singleton t, fun p hp p' hp' => ?_⟩
    · cases hu : child (cell (t + 8 * i)) with
      | none => rw [belowEntry_none hu]; exact List.nodup_nil
      | some u =>
        rw [belowEntry_some hu]
        refine ih fun q q' p hq hq' hp hp' => ?_
        have hi := List.mem_range.1 hi
        have heq : i :: q = i :: q' := hinj _ _ p (IsPath.cons.2 ⟨hi, hq⟩) (IsPath.cons.2 ⟨hi, hq'⟩)
          (by rw [walk, hu]; exact hp) (by rw [walk, hu]; exact hp')
        exact (List.cons.inj heq).2
    · refine List.nodup_range.imp_of_mem fun {i j} hi hj hij p hp hp' => ?_
      obtain ⟨q, hq, hw⟩ := hpath i (List.mem_range.1 hi) p hp
      obtain ⟨q', hq', hw'⟩ := hpath j (List.mem_range.1 hj) p hp'
      exact hij (List.cons.inj (hinj _ _ p hq hq' hw hw')).1
    · rintro rfl
      obtain ⟨i, hi, hp⟩ := List.mem_flatMap.1 hp
      obtain ⟨q, hq, hw⟩ := hpath i (List.mem_range.1 hi) p hp
      have hnil := hinj (i :: q) [] p hq ⟨Nat.zero_le _, by simp⟩ hw
        (by rw [walk, List.mem_singleton.1 hp'])
      exact List.cons_ne_nil _ _ hnil

/-- the list depends on the tables in it only -/
theorem below_congr {d t : ℕ} (h : ∀ p ∈ below child w cell d t, ∀ i < w, cell' (p + 8 * i) = cell (p + 8 * i)) :
    below child w cell' d t = below child w cell d t := by
  induction d generalizing t with
  | zero => rfl
  | succ d ih =>
    rw [below_succ, below_succ]
    congr 1
    refine List.flatMap_congr fun i hi => ?_
    have hself : cell' (t + 8 * i) = cell (t + 8 * i) :=
      h t (List.mem_append_right _ (List.mem_singleton_self t)) i (List.mem_range.1 hi)
    cases hu : child (cell (t + 8 * i)) with
    | none => rw [belowEntry_none hu, belowEntry_none (by rw [hself, hu])]
    | some u =>
      rw [belowEntry_some hu, belowEntry_some (by rw [hself, hu])]
      refine ih fun p hp => h p (List.mem_append_left _ (List.mem_flatMap.2 ⟨i, hi, ?_⟩))
      change p ∈ belowEntry child w cell d t i
      rw [belowEntry_some hu]
      exact hp

theorem belowEntry_congr {d t i : ℕ} (hself : cell' (t + 8 * i) = cell (t + 8 * i))
    (h : ∀ p ∈ belowEntry child w cell d t i, ∀ j < w, cell' (p + 8 * j) = cell (p + 8 * j)) :
    belowEntry child w cell' d t i = belowEntry child w cell d t i := by
  cases hu : child (cell (t + 8 * i)) with
  | none => rw [belowEntry_none hu, belowEntry_none (by rw [hself, hu])]
  | some u =>
    rw [belowEntry_some hu] at h ⊢
    rw [belowEntry_some (by rw [hself, hu])]
    exact below_congr h

end Below

end OsKernel.Radix
