/-
Programs that call the operations of an interface, and what running them guarantees.

A program returns a value, halts the machine for a reason of type ε, or calls an operation and goes on with its result.
A handler says what the operations do to a state (`exec`), so one program can be run on several machines, and a program
that has not finished yet is its own continuation.

`After h E Q p s`: running p from s under h returns a value and a state that satisfy Q, or halts for a reason in E. It is
total: a program always returns or halts. The rules follow the program text:
- `after_pure`, `after_call`, `after_check` for one step;
- `after_bind` for sequencing, `After.bind` to use the specification of the first part;
- `After.mono` for consequence.
A handler that only adds halts to another one is a way to watch it: what holds under the stricter handler, without the added
halts, holds under the other (`After.transfer`), and what its operations keep is kept (`exec_keeps`). A handler that charges for
operations and halts without funds behaves like the plain one when the program fits in its budget (`Affords.exec_eq`).
-/
import Mathlib.Tactic

namespace OsKernel.Program

/-- programs over operations `Op` with results `Res o` -/
inductive Prog (Op : Type) (Res : Op → Type) (ε α : Type) : Type where
  | ret (a : α)
  | halt (e : ε)
  | call (o : Op) (k : Res o → Prog Op Res ε α)

section Monad

variable {Op : Type} {Res : Op → Type} {ε α β : Type}

def Prog.bind : Prog Op Res ε α → (α → Prog Op Res ε β) → Prog Op Res ε β
  | .ret a, f => f a
  | .halt e, _ => .halt e
  | .call o k, f => .call o fun r => (k r).bind f

instance : Monad (Prog Op Res ε) where
  pure := .ret
  bind := Prog.bind

/-- the program that makes one call and returns its result -/
def perform (o : Op) : Prog Op Res ε (Res o) := .call o .ret

/-- an assertion: halt unless c holds -/
def check (c : Prop) [Decidable c] (e : ε) : Prog Op Res ε Unit := if c then .ret () else .halt e

end Monad

section Run

variable {Op : Type} {Res : Op → Type} {ε α β σ : Type}

/-- what the operations do to a state -/
abbrev Handler (Op : Type) (Res : Op → Type) (ε σ : Type) := (o : Op) → σ → Except ε (Res o × σ)

def exec (h : Handler Op Res ε σ) : Prog Op Res ε α → σ → Except ε (α × σ)
  | .ret a, s => .ok (a, s)
  | .halt e, _ => .error e
  | .call o k, s =>
    match h o s with
    | .ok (r, s') => exec h (k r) s'
    | .error e => .error e

/-- the outcome of a run: a result with Q, or a halt for a reason in E -/
def Outcome (E : ε → Prop) (Q : α → σ → Prop) : Except ε (α × σ) → Prop
  | .ok (a, s) => Q a s
  | .error e => E e

/-- running p from s ends with Q, or halts for a reason in E -/
def After (h : Handler Op Res ε σ) (E : ε → Prop) (Q : α → σ → Prop) (p : Prog Op Res ε α) (s : σ) : Prop :=
  Outcome E Q (exec h p s)

variable {h : Handler Op Res ε σ} {E : ε → Prop} {Q R : α → σ → Prop} {p : Prog Op Res ε α} {s : σ}

@[simp] theorem after_pure {a : α} : After h E Q (pure a) s ↔ Q a s := Iff.rfl

theorem after_call {o : Op} {Q : Res o → σ → Prop} : After h E Q (perform o) s ↔ Outcome E Q (h o s) := by
  simp only [After, perform, exec]
  rcases h o s with e | ⟨r, s'⟩ <;> rfl

theorem after_check {c : Prop} [Decidable c] {e : ε} {Q : Unit → σ → Prop} (hc : c) :
    After h E Q (check c e) s ↔ Q () s := by
  rw [check, if_pos hc]
  exact Iff.rfl

theorem after_check_not {c : Prop} [Decidable c] {e : ε} {Q : Unit → σ → Prop} (hc : ¬ c) :
    After h E Q (check c e) s ↔ E e := by
  rw [check, if_neg hc]
  exact Iff.rfl

theorem exec_bind (p : Prog Op Res ε α) (f : α → Prog Op Res ε β) (s : σ) :
    exec h (p >>= f) s = (exec h p s).bind fun x => exec h (f x.1) x.2 := by
  induction p generalizing s with
  | ret a => rfl
  | halt e => rfl
  | call o k ih =>
    change exec h (.call o fun r => k r >>= f) s = _
    simp only [exec]
    rcases h o s with e | ⟨r, s'⟩
    · rfl
    · exact ih r s'

@[simp] theorem after_bind {f : α → Prog Op Res ε β} {Q : β → σ → Prop} :
    After h E Q (p >>= f) s ↔ After h E (fun a s' => After h E Q (f a) s') p s := by
  simp only [After, exec_bind]
  rcases exec h p s with e | ⟨a, s'⟩ <;> rfl

theorem After.mono (hp : After h E R p s) (hQ : ∀ a s', R a s' → Q a s') : After h E Q p s := by
  unfold After at hp ⊢
  cases hr : exec h p s with
  | error e =>
    rw [hr] at hp
    exact hp
  | ok r =>
    rw [hr] at hp
    exact hQ r.1 r.2 hp

/-- sequencing with a specification of the first part -/
theorem After.bind {f : α → Prog Op Res ε β} {Q : β → σ → Prop} (hp : After h E R p s)
    (hf : ∀ a s', R a s' → After h E Q (f a) s') : After h E Q (p >>= f) s :=
  after_bind.2 (hp.mono hf)

/-- what a specification says about a run that returned -/
theorem After.of_ok (hp : After h E Q p s) {a : α} {s' : σ} (hr : exec h p s = .ok (a, s')) : Q a s' := by
  rw [After, hr] at hp
  exact hp

/-- a run that satisfies a specification returns or halts for one of the reasons -/
theorem After.returns_or (hp : After h E Q p s) :
    (∃ a s', exec h p s = .ok (a, s') ∧ Q a s') ∨ ∃ e, exec h p s = .error e ∧ E e := by
  unfold After at hp
  cases hr : exec h p s with
  | error e =>
    rw [hr] at hp
    exact Or.inr ⟨e, rfl, hp⟩
  | ok r =>
    rw [hr] at hp
    exact Or.inl ⟨r.1, r.2, rfl, hp⟩

/-- without a reason to halt it returns -/
theorem After.returns (hp : After h (fun _ => False) Q p s) : ∃ a s', exec h p s = .ok (a, s') ∧ Q a s' := by
  obtain hok | ⟨_, _, hfalse⟩ := hp.returns_or
  · exact hok
  · exact hfalse.elim

/-- h is h' with further halts, for reasons in B -/
def Stricter (B : ε → Prop) (h h' : Handler Op Res ε σ) : Prop := ∀ o s, (∃ e, B e ∧ h o s = .error e) ∨ h' o s = h o s

theorem Stricter.exec_eq {B : ε → Prop} {h h' : Handler Op Res ε σ} (hh : Stricter B h h') (p : Prog Op Res ε α) (s : σ)
    (hB : ∀ e, exec h p s = .error e → ¬ B e) : exec h' p s = exec h p s := by
  induction p generalizing s with
  | ret a => rfl
  | halt e => rfl
  | call o k ih =>
    simp only [exec] at hB ⊢
    obtain ⟨e, he, heq⟩ | heq := hh o s
    · rw [heq] at hB
      exact absurd he (hB e rfl)
    · rw [heq]
      cases hr : h o s with
      | error e => rfl
      | ok r =>
        rw [hr] at hB
        exact ih r.1 r.2 hB

theorem After.transfer {B : ε → Prop} {h h' : Handler Op Res ε σ} (hp : After h E Q p s) (hh : Stricter B h h')
    (hE : ∀ e, E e → ¬ B e) : After h' E Q p s := by
  unfold After at hp ⊢
  rw [hh.exec_eq p s]
  · exact hp
  · intro e he
    rw [he] at hp
    exact hE e hp

/-- what every operation keeps, every program keeps -/
theorem exec_keeps {I : σ → Prop} (hI : ∀ o s r s', I s → h o s = .ok (r, s') → I s') (p : Prog Op Res ε α) {s s' : σ}
    {a : α} (hs : I s) (hr : exec h p s = .ok (a, s')) : I s' := by
  induction p generalizing s with
  | ret b =>
    obtain ⟨-, rfl⟩ := Prod.mk.inj (Except.ok.inj hr)
    exact hs
  | halt e => cases hr
  | call o k ih =>
    simp only [exec] at hr
    cases ho : h o s with
    | error e =>
      rw [ho] at hr
      cases hr
    | ok r =>
      rw [ho] at hr
      exact ih r.1 (hI o s r.1 r.2 hs ho) hr

/-- h' does to f of its state what h does, as long as G, which never becomes true again, holds -/
theorem exec_project {τ : Type} {h' : Handler Op Res ε τ} {f : τ → σ} {G : τ → Prop}
    (hh : ∀ o c r c', h' o c = .ok (r, c') → G c' → G c ∧ h o (f c) = .ok (r, f c')) (p : Prog Op Res ε α) {c c' : τ} {a : α}
    (hr : exec h' p c = .ok (a, c')) (hG : G c') : G c ∧ exec h p (f c) = .ok (a, f c') := by
  induction p generalizing c with
  | ret b =>
    obtain ⟨rfl, rfl⟩ := Prod.mk.inj (Except.ok.inj hr)
    exact ⟨hG, rfl⟩
  | halt e => cases hr
  | call o k ih =>
    simp only [exec] at hr ⊢
    cases ho : h' o c with
    | error e =>
      rw [ho] at hr
      cases hr
    | ok r =>
      rw [ho] at hr
      obtain ⟨hG1, hrun⟩ := ih r.1 hr
      obtain ⟨hG0, hcall⟩ := hh o c r.1 r.2 ho hG1
      rw [hcall]
      exact ⟨hG0, hrun⟩

/-- a program that checks c first and returns has passed the check -/
theorem exec_check_bind {c : Prop} [Decidable c] {e : ε} {f : Unit → Prog Op Res ε β} {r : β × σ}
    (hr : exec h (check c e >>= f) s = .ok r) : c ∧ exec h (f ()) s = .ok r := by
  rw [exec_bind, check] at hr
  by_cases hc : c
  · rw [if_pos hc] at hr
    exact ⟨hc, hr⟩
  · rw [if_neg hc] at hr
    cases hr

end Run

section Budget

variable {Op : Type} {Res : Op → Type} {ε α β σ γ : Type} {cost : Op → ℕ}

/-- whatever the operations answer, p spends at most k, and it returns values with Q of them and of what is left -/
def Affords (cost : Op → ℕ) (Q : α → ℕ → Prop) : Prog Op Res ε α → ℕ → Prop
  | .ret a, k => Q a k
  | .halt _, _ => True
  | .call o f, k => cost o ≤ k ∧ ∀ r, Affords cost Q (f r) (k - cost o)

theorem Affords.bind {R : α → ℕ → Prop} {Q : β → ℕ → Prop} {p : Prog Op Res ε α} {f : α → Prog Op Res ε β} {k : ℕ}
    (hp : Affords cost R p k) (hf : ∀ a k', R a k' → Affords cost Q (f a) k') : Affords cost Q (p >>= f) k := by
  induction p generalizing k with
  | ret a => exact hf a k hp
  | halt e => trivial
  | call o g ih => exact ⟨hp.1, fun r => ih r (hp.2 r)⟩

/-- h' does what h does and takes the cost of an operation out of c, as long as that lasts -/
def Charges (cost : Op → ℕ) (left : γ → ℕ) (h : Handler Op Res ε σ) (h' : Handler Op Res ε (σ × γ)) : Prop :=
  ∀ o s c, cost o ≤ left c → ∃ c', left c - cost o ≤ left c' ∧ h' o (s, c) = (h o s).map fun r => (r.1, r.2, c')

theorem Affords.exec_eq {left : γ → ℕ} {h : Handler Op Res ε σ} {h' : Handler Op Res ε (σ × γ)} {Q : α → ℕ → Prop}
    (hh : Charges cost left h h') {p : Prog Op Res ε α} {k : ℕ} (hp : Affords cost Q p k) (s : σ) {c : γ} (hk : k ≤ left c) :
    ∃ c', exec h' p (s, c) = (exec h p s).map fun r => (r.1, r.2, c') := by
  induction p generalizing k s c with
  | ret a => exact ⟨c, rfl⟩
  | halt e => exact ⟨c, rfl⟩
  | call o f ih =>
    obtain ⟨hcost, hrest⟩ := hp
    obtain ⟨c', hleft, hrun⟩ := hh o s c (hcost.trans hk)
    simp only [exec, hrun]
    cases h o s with
    | error e => exact ⟨c', rfl⟩
    | ok r => exact ih r.1 (hrest r.1) r.2 ((Nat.sub_le_sub_right hk _).trans hleft)

end Budget

end OsKernel.Program
