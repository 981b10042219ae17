/-
Walking a tree of names.

A tree says which nodes are directories and where a name in a directory leads. `follow` looks up names one after the other;
`followParent` does so for all names but the last, and the node it reaches has to be a directory. `resolve` is both of them as
one loop that learns only at each name whether it is the last one; `resolve_false` and `resolve_true` relate them.

A walk ends without a node exactly when it is `Blocked`: some node on the way is not a directory, or does not have the name.
-/
import Mathlib.Tactic

namespace OsKernel.NameTree

structure Tree (α κ : Type) where
  isDir : α → Bool
  child : α → κ → Option α

variable {α κ : Type} (t : Tree α κ)

/-- look up one name -/
def Tree.step (a : α) (k : κ) : Option α := if t.isDir a then t.child a k else none

/-- look up names one after the other -/
def Tree.follow (a : α) (ks : List κ) : Option α := ks.foldlM t.step a

/-- the directory of the last name, and that name -/
def Tree.followParent (a : α) (ks : List κ) : Option (α × κ) :=
  ks.getLast?.bind fun k => (t.follow a ks.dropLast).bind fun b => if t.isDir b then some (b, k) else none

/-- some node on the way is not a directory or does not have the next name -/
def Tree.Blocked (a : α) (ks : List κ) : Prop :=
  ∃ before k after b, ks = before ++ k :: after ∧ t.follow a before = some b ∧ (t.isDir b = false ∨ t.child b k = none)

/-- the walk as a loop; the name is the last one that was looked up -/
def Tree.resolve (parent : Bool) : κ → α → List κ → Option (α × κ)
  | k, a, [] => if parent then none else some (a, k)
  | _, a, k :: ks =>
    if t.isDir a then
      if parent = true ∧ ks = [] then some (a, k) else (t.child a k).bind fun b => Tree.resolve parent k b ks
    else none

variable {t} {a : α}

theorem follow_cons (k : κ) (ks : List κ) : t.follow a (k :: ks) = (t.step a k).bind fun b => t.follow b ks := rfl

theorem follow_append (ks ks' : List κ) : t.follow a (ks ++ ks') = (t.follow a ks).bind fun b => t.follow b ks' :=
  List.foldlM_append

theorem step_eq_none {k : κ} : t.step a k = none ↔ t.isDir a = false ∨ t.child a k = none := by
  unfold Tree.step
  cases t.isDir a <;> simp

theorem follow_eq_none {ks : List κ} : t.follow a ks = none ↔ t.Blocked a ks := by
  constructor
  · intro h
    induction ks generalizing a with
    | nil => cases h
    | cons k ks ih =>
      rw [follow_cons] at h
      cases hs : t.step a k with
      | none => exact ⟨[], k, ks, a, rfl, rfl, step_eq_none.1 hs⟩
      | some b =>
        rw [hs, Option.bind_some] at h
        obtain ⟨before, k', after, c, rfl, hc, hstop⟩ := ih h
        refine ⟨k :: before, k', after, c, rfl, ?_, hstop⟩
        rw [follow_cons, hs]
        exact hc
  · rintro ⟨before, k, after, b, rfl, hb, hstop⟩
    rw [follow_append, hb, Option.bind_some, follow_cons, step_eq_none.2 hstop, Option.bind_none]

theorem followParent_eq_none {ks : List κ} :
    t.followParent a ks = none ↔
      ks = [] ∨ t.Blocked a ks.dropLast ∨ ∃ b, t.follow a ks.dropLast = some b ∧ t.isDir b = false := by
  unfold Tree.followParent
  rcases List.eq_nil_or_concat ks with rfl | ⟨ks, k, rfl⟩
  · simp
  · rw [List.concat_eq_append, List.getLast?_concat, Option.bind_some, List.dropLast_concat, ← follow_eq_none]
    cases t.follow a ks with
    | none => simp
    | some b => cases hb : t.isDir b <;> simp [hb]

theorem resolve_false (k : κ) (ks : List κ) : (t.resolve false k a ks).map Prod.fst = t.follow a ks := by
  induction ks generalizing k a with
  | nil => rfl
  | cons k' ks ih =>
    rw [Tree.resolve, follow_cons, Tree.step]
    cases t.isDir a with
    | false => rfl
    | true =>
      rw [if_pos rfl, if_neg (by simp), if_pos rfl]
      cases t.child a k' with
      | none => rfl
      | some b => exact ih k'

theorem resolve_true (k : κ) (ks : List κ) : t.resolve true k a ks = t.followParent a ks := by
  induction ks generalizing k a with
  | nil => rfl
  | cons k' ks ih =>
    rw [Tree.resolve]
    cases ks with
    | nil =>
      rw [if_pos (show true = true ∧ ([] : List κ) = [] from ⟨rfl, rfl⟩)]
      rfl
    | cons k'' ks =>
      rw [if_neg (show ¬ (true = true ∧ k'' :: ks = []) by simp)]
      unfold Tree.followParent at ih ⊢
      rw [List.getLast?_cons_cons, List.dropLast_cons_cons, follow_cons, Tree.step]
      cases t.isDir a with
      | false =>
        rw [if_neg Bool.false_ne_true, if_neg Bool.false_ne_true]
        cases (k'' :: ks).getLast? <;> rfl
      | true =>
        rw [if_pos rfl, if_pos rfl]
        cases t.child a k' with
        | none => cases (k'' :: ks).getLast? <;> rfl
        | some b => exact ih k'

end OsKernel.NameTree
