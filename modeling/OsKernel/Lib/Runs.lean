/-
Runs of a labelled step function and the induction rule for their invariants.

`step s e = none` means that label e is not enabled in s (the call would block, the kernel has halted, or the label is
no call at all). A run is a list of labels all of which are enabled in turn; interleavings of several parties are runs
whose labels name the party. `Meets C` says that every step of a run meets a condition on the state before it, so that
a result can be stated for the runs that avoid some branch.

Results:
- `run_invariant`: what one step keeps (under C) holds after every run whose steps meet C;
- `reach_invariant`: the same for every reachable state, without a condition;
- `run_simulates`: a relation to an abstract state that one step keeps is kept by every run;
- `run_append`: runs compose;
- `run_computes`: a run on fixed data is carried out, and its end looked at.

A history is the list of events of a run, newest first. `Past P` says that every event satisfies P with respect to the
events before it, and `past_iff` reads that off every split of the history.
-/
import Mathlib.Tactic

namespace OsKernel.Runs

variable {σ ε : Type}

/-- the state after a list of labels; none when one of them is not enabled -/
def run (step : σ → ε → Option σ) : σ → List ε → Option σ
  | s, [] => some s
  | s, e :: es => (step s e).bind fun s' => run step s' es

/-- every step of the run from s meets C in the state before it -/
def Meets (step : σ → ε → Option σ) (C : σ → ε → Prop) : σ → List ε → Prop
  | _, [] => True
  | s, e :: es => C s e ∧ ∀ s', step s e = some s' → Meets step C s' es

/-- t is reached from s by some run -/
def Reach (step : σ → ε → Option σ) (s t : σ) : Prop := ∃ es, run step s es = some t

variable {e : ε} {es : List ε} {s t u : σ} {step : σ → ε → Option σ} {C D : σ → ε → Prop} {I : σ → Prop}

/-- a guarded step was enabled -/
theorem guard_enabled {c : Prop} [Decidable c] (h : (if c then some s else none) = some t) : c ∧ t = s := by
  rw [Option.ite_none_right_eq_some, Option.some.injEq] at h
  exact ⟨h.1, h.2.symm⟩

theorem run_cons_some (h : run step s (e :: es) = some t) :
    ∃ s', step s e = some s' ∧ run step s' es = some t := by
  simpa [run, Option.bind_eq_some_iff] using h

theorem run_append (step : σ → ε → Option σ) (s : σ) (es es' : List ε) :
    run step s (es ++ es') = (run step s es).bind fun s' => run step s' es' := by
  induction es generalizing s with
  | nil => rfl
  | cons e es ih =>
    simp only [List.cons_append, run]
    cases step s e with
    | none => rfl
    | some s' => exact ih s'

theorem run_append_of {es' : List ε} (h : run step s es = some t)
    (h' : run step t es' = some u) : run step s (es ++ es') = some u := by
  rw [run_append, h]
  exact h'

theorem Reach.refl (step : σ → ε → Option σ) (s : σ) : Reach step s s := ⟨[], rfl⟩

theorem Reach.tail (h : Reach step s t) (hs : step t e = some u) :
    Reach step s u := by
  obtain ⟨es, hes⟩ := h
  exact ⟨es ++ [e], run_append_of hes (by simp [run, hs])⟩

theorem run_invariant
    (hstep : ∀ s e s', I s → C s e → step s e = some s' → I s') (hs : I s)
    (hm : Meets step C s es) (hr : run step s es = some t) : I t := by
  induction es generalizing s with
  | nil =>
    simp only [run, Option.some.injEq] at hr
    exact hr ▸ hs
  | cons e es ih =>
    obtain ⟨s', h1, h2⟩ := run_cons_some hr
    exact ih (hstep s e s' hs hm.1 h1) (hm.2 s' h1) h2

/-- every label drives an abstract function as well, and R relates the two states -/
theorem run_simulates {α : Type} {R : α → σ → Prop} {f : α → ε → α}
    (hstep : ∀ a s e s', R a s → C s e → step s e = some s' → R (f a e) s') {a : α} (hs : R a s)
    (hm : Meets step C s es) (hr : run step s es = some t) : R (es.foldl f a) t := by
  induction es generalizing a s with
  | nil =>
    simp only [run, Option.some.injEq] at hr
    exact hr ▸ hs
  | cons e es ih =>
    obtain ⟨s', h1, h2⟩ := run_cons_some hr
    exact ih (hstep a s e s' hs hm.1 h1) (hm.2 s' h1) h2

theorem Meets.mono (hCD : ∀ s e, C s e → D s e)
    (h : Meets step C s es) : Meets step D s es := by
  induction es generalizing s with
  | nil => trivial
  | cons e es ih => exact ⟨hCD s e h.1, fun s' hs' => ih (h.2 s' hs')⟩

theorem Meets.and (hC : Meets step C s es)
    (hD : Meets step D s es) : Meets step (fun s e => C s e ∧ D s e) s es := by
  induction es generalizing s with
  | nil => trivial
  | cons e es ih => exact ⟨⟨hC.1, hD.1⟩, fun s' hs => ih (hC.2 s' hs) (hD.2 s' hs)⟩

/-- a run of the step function that checks C first is a run whose steps meet C -/
theorem run_guarded [∀ s e, Decidable (C s e)]
    (h : run (fun s e => if C s e then step s e else none) s es = some t) :
    Meets step C s es ∧ run step s es = some t := by
  induction es generalizing s with
  | nil => exact ⟨trivial, h⟩
  | cons e es ih =>
    obtain ⟨s', h1, h2⟩ := run_cons_some h
    by_cases hC : C s e
    · rw [if_pos hC] at h1
      obtain ⟨hm, hr⟩ := ih h2
      refine ⟨⟨hC, fun u hu => ?_⟩, by simp [run, h1, hr]⟩
      rw [h1] at hu
      exact Option.some.inj hu ▸ hm
    · rw [if_neg hC] at h1
      cases h1

/-- a run is carried out and its end is looked at -/
theorem run_computes {o : Option σ} [DecidablePred I] (h : (o.map fun t => decide (I t)) = some true) :
    ∃ t, o = some t ∧ I t := by
  obtain ⟨t, ht, hI⟩ := Option.map_eq_some_iff.1 h
  exact ⟨t, ht, of_decide_eq_true hI⟩

theorem guarded_computes [∀ s e, Decidable (C s e)] [DecidablePred I]
    (h : ((run (fun s e => if C s e then step s e else none) s es).map fun t => decide (I t)) = some true) :
    ∃ t, Meets step C s es ∧ run step s es = some t ∧ I t := by
  obtain ⟨t, ht, hI⟩ := run_computes h
  obtain ⟨hm, hr⟩ := run_guarded ht
  exact ⟨t, hm, hr, hI⟩

theorem meets_true (step : σ → ε → Option σ) (s : σ) (es : List ε) : Meets step (fun _ _ => True) s es := by
  induction es generalizing s with
  | nil => trivial
  | cons e es ih => exact ⟨trivial, fun s' _ => ih s'⟩

theorem reach_invariant
    (hstep : ∀ s e s', I s → step s e = some s' → I s') (hs : I s) (hr : Reach step s t) : I t := by
  obtain ⟨es, hes⟩ := hr
  exact run_invariant (C := fun _ _ => True) (fun s e s' hI _ h => hstep s e s' hI h) hs (meets_true step s es) hes

/-- every event of the history satisfies P with respect to what came before it -/
def Past (P : ε → List ε → Prop) : List ε → Prop
  | [] => True
  | e :: es => P e es ∧ Past P es

theorem past_iff {P : ε → List ε → Prop} : Past P es ↔ ∀ a e b, es = a ++ e :: b → P e b := by
  induction es with
  | nil => simp [Past]
  | cons x es ih =>
    constructor
    · rintro ⟨hx, hes⟩ a e b h
      cases a with
      | nil =>
        obtain ⟨rfl, rfl⟩ := List.cons.inj h
        exact hx
      | cons y a => exact ih.1 hes a e b (List.cons.inj h).2
    · intro h
      exact ⟨h [] x es rfl, ih.2 fun a e b hab => h (x :: a) e b (by rw [hab]; rfl)⟩

end OsKernel.Runs
