/-
Computations that may stop.

`Yields c Q x`: every result of x satisfies Q, and if c holds there is one. So c says what is enough for x to go through, and
Q what can be relied on when it did, whatever the reason. `Yields.bind` follows a computation step by step, `yields_foldlM` is
the rule for a loop over a list: an invariant over the part that is done. `bind_ok` and `foldlM_ok` are the same two rules for
computations that say why they stopped, and `Ends E Q` says that such a computation stops for a reason in E or has a result in Q.
-/
import Mathlib.Tactic

namespace OsKernel.Fallible

variable {α β : Type} {c : Prop}

def Yields (c : Prop) (Q : α → Prop) : Option α → Prop
  | none => ¬ c
  | some a => Q a

theorem Yields.bind {R : α → Prop} {Q : β → Prop} {x : Option α} {f : α → Option β} (h : Yields c R x)
    (hf : ∀ a, R a → Yields c Q (f a)) : Yields c Q (x.bind f) := by
  cases x with
  | none => exact h
  | some a => exact hf a h

theorem Yields.mono {R Q : α → Prop} {x : Option α} (h : Yields c R x) (hQ : ∀ a, R a → Q a) : Yields c Q x := by
  cases x with
  | none => exact h
  | some a => exact hQ a h

theorem Yields.of_imp {c' : Prop} {Q : α → Prop} {x : Option α} (h : Yields c' Q x) (hc : c → c') : Yields c Q x := by
  cases x with
  | none => exact fun h' => h (hc h')
  | some a => exact h

theorem Yields.exists {Q : α → Prop} {x : Option α} (h : Yields c Q x) (hc : c) : ∃ a, x = some a ∧ Q a := by
  cases x with
  | none => exact absurd hc h
  | some a => exact ⟨a, rfl, h⟩

/-- a loop over a list, the invariant being about the part that is done -/
theorem yields_foldlM {f : β → α → Option β} (I : List α → β → Prop) {l : List α} {b : β} (h0 : I [] b)
    (hstep : ∀ front a back b', l = front ++ a :: back → I front b' → Yields c (I (front ++ [a])) (f b' a)) :
    Yields c (I l) (l.foldlM f b) := by
  -- by induction on the part that is left
  suffices hrest : ∀ rest done b', l = done ++ rest → I done b' → Yields c (I l) (rest.foldlM f b') from
    hrest l [] b rfl h0
  intro rest
  induction rest with
  | nil =>
    intro done b' hl hb'
    rw [hl, List.append_nil]
    exact hb'
  | cons a rest ih =>
    intro done b' hl hb'
    rw [List.foldlM_cons]
    refine (hstep done a rest b' hl hb').bind fun b'' hb'' => ?_
    exact ih (done ++ [a]) b'' (by rw [hl, List.append_assoc, List.singleton_append]) hb''

/-! ## With a reason -/

variable {ε : Type}

theorem bind_ok {x : Except ε α} {f : α → Except ε β} {b : β} (h : (x >>= f) = .ok b) :
    ∃ a, x = .ok a ∧ f a = .ok b := by
  cases x with
  | error e => cases h
  | ok a => exact ⟨a, rfl, h⟩

theorem ok_of_toOption {x : Except ε α} {a : α} (h : x.toOption = some a) : x = .ok a := by
  cases x with
  | error e => cases h
  | ok b => rw [Option.some.inj h]

/-- x is carried out and its result is looked at -/
theorem ok_computes {x : Except ε α} {Q : α → Prop} [DecidablePred Q]
    (h : (x.toOption.map fun a => decide (Q a)) = some true) : ∃ a, x = .ok a ∧ Q a := by
  obtain ⟨a, ha, hQ⟩ := Option.map_eq_some_iff.1 h
  exact ⟨a, ok_of_toOption ha, of_decide_eq_true hQ⟩

/-- why x stopped -/
def reason : Except ε α → Option ε
  | .error e => some e
  | .ok _ => none

theorem error_of_reason {x : Except ε α} {e : ε} (h : reason x = some e) : x = .error e := by
  cases x with
  | error e' => rw [Option.some.inj h]
  | ok a => cases h

theorem foldlM_ok {f : β → α → Except ε β} (I : List α → β → Prop) {l : List α} {b c : β} (h0 : I [] b)
    (hstep : ∀ front a back b' b'', l = front ++ a :: back → I front b' → f b' a = .ok b'' → I (front ++ [a]) b'')
    (h : l.foldlM f b = .ok c) : I l c := by
  -- by induction on the part that is left
  suffices hrest : ∀ rest done b', l = done ++ rest → I done b' → rest.foldlM f b' = .ok c → I l c from
    hrest l [] b rfl h0 h
  intro rest
  induction rest with
  | nil =>
    intro done b' hl hb' hc
    rw [List.foldlM_nil] at hc
    cases hc
    rw [hl, List.append_nil]
    exact hb'
  | cons a rest ih =>
    intro done b' hl hb' hc
    rw [List.foldlM_cons] at hc
    obtain ⟨b'', hb'', hc⟩ := bind_ok hc
    exact ih (done ++ [a]) b'' (by rw [hl, List.append_assoc, List.singleton_append]) (hstep done a rest b' b'' hl hb' hb'') hc

/-- x stops for a reason in E, or its result satisfies Q -/
def Ends (E : ε → Prop) (Q : α → Prop) : Except ε α → Prop
  | .error e => E e
  | .ok a => Q a

theorem Ends.bind {E : ε → Prop} {R : α → Prop} {Q : β → Prop} {x : Except ε α} {f : α → Except ε β} (h : Ends E R x)
    (hf : ∀ a, R a → Ends E Q (f a)) : Ends E Q (x >>= f) := by
  cases x with
  | error e => exact h
  | ok a => exact hf a h

theorem Ends.mono {E : ε → Prop} {R Q : α → Prop} {x : Except ε α} (h : Ends E R x) (hQ : ∀ a, R a → Q a) : Ends E Q x := by
  cases x with
  | error e => exact h
  | ok a => exact hQ a h

end OsKernel.Fallible
