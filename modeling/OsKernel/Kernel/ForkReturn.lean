/-
What a forked child returns (`fork` and `start_proc` in `kernel/proc.c`, `trap_return` in `aarch64/trap.S`).

Any number of processes run on any number of CPUs. `fork` is cut where another CPU can see a difference: the new `Proc`, the
copy of the registers, `activate_proc`, the store that clears `gregs[0]`, and the return. A process that is RUNNABLE may be
picked at any time; the first thing a forked child does is to load its saved registers and enter user mode. Everything else
a process does in the kernel is one event that leaves it with some registers.

Ghosts: the parent's registers at the call, the registers with which a process first enters user mode, and for each `fork` that
has returned the pid of its child beside the value.

Result (`fork_returns`): the child starts with the parent's registers and 0 in `gregs[0]`, and `fork` returns its pid, in every
run in which no CPU picks a child before its parent has cleared `gregs[0]`. The child is RUNNABLE before that, so another CPU
can be faster (`child_returns_nonzero`).
-/
import OsKernel.Lib.Runs
import OsKernel.Kernel.Sched

namespace OsKernel.Kernel.ForkReturn

open OsKernel.Runs
open OsKernel.Kernel.Sched (ProcState activated)
open Function (update update_apply update_eq_self update_of_ne update_self)

/-! ## Model -/

/-- `UserContext` -/
structure UserContext where
  /-- `res`, `tpidr_el0`, `q0_high`, `q0_low`, `spsr`, `elr`, `sp` -/
  special : Fin 7 → UInt64
  gregs : Fin 31 → UInt64
deriving DecidableEq

/-- `gregs[0] = v` -/
def UserContext.setX0 (k : UserContext) (v : UInt64) : UserContext := { k with gregs := update k.gregs 0 v }

/-- how far a call of `fork` is -/
inductive ForkAt where
  | created
  | copied
  | started
  | cleared
deriving DecidableEq, Repr

inductive Pc where
  /-- has not entered user mode -/
  | fresh
  | user (regs : UserContext)
  /-- in the kernel, not in `fork` -/
  | kernel
  /-- in `fork`; the pid is what `alloc_pid` gave the child -/
  | fork (stage : ForkAt) (child pid : ℕ)
deriving DecidableEq

structure Sys where
  alive : ℕ → Bool
  pid : ℕ → ℕ
  state : ℕ → ProcState
  parent : ℕ → ℕ
  ucontext : ℕ → UserContext
  pc : ℕ → Pc
  called : ℕ → Option UserContext
  first : ℕ → Option UserContext
  /-- the pid of the child and the value returned -/
  returned : List (ℕ × ℕ)

/-- the process that inherits children -/
def rootProc : ℕ := 0

inductive Event where
  | dispatch (p : ℕ)
  | yield (p : ℕ)
  | sleep (p : ℕ)
  | wake (p : ℕ)
  /-- `trap_return` of a process that has not been in user mode -/
  | enter (p : ℕ)
  | run (p : ℕ) (regs : UserContext)
  | trap (p : ℕ)
  /-- back to user mode with what the call left in the saved registers -/
  | ret (p : ℕ) (k : UserContext)
  /-- `create_proc` and the link to the parent; child is the new `Proc`, pid what `alloc_pid` returns -/
  | forkCreate (p child pid : ℕ)
  | forkCopy (p : ℕ)
  | forkStart (p : ℕ)
  | forkClear (p : ℕ)
  | forkRet (p : ℕ)
  | exit (p : ℕ)
  | reap (p child : ℕ)

/-- process p runs: it has a CPU -/
def OnCpu (s : Sys) (p : ℕ) : Prop := s.alive p = true ∧ s.state p = .running

instance (s : Sys) (p : ℕ) : Decidable (OnCpu s p) := inferInstanceAs (Decidable (_ ∧ _))

def setState (s : Sys) (p : ℕ) (st : ProcState) : Sys := { s with state := update s.state p st }

def setPc (s : Sys) (p : ℕ) (pc : Pc) : Sys := { s with pc := update s.pc p pc }

def setContext (s : Sys) (p : ℕ) (k : UserContext) : Sys := { s with ucontext := update s.ucontext p k }

def step (s : Sys) : Event → Option Sys
  | .dispatch p => if s.alive p = true ∧ s.state p = .runnable then some (setState s p .running) else none
  | .yield p => if OnCpu s p then some (setState s p .runnable) else none
  | .sleep p => if OnCpu s p then some (setState s p .sleeping) else none
  | .wake p => if s.alive p = true ∧ s.state p = .sleeping then some (setState s p .runnable) else none
  | .enter p =>
    if OnCpu s p ∧ s.pc p = .fresh then
      some { setPc s p (.user (s.ucontext p)) with first := update s.first p (some (s.ucontext p)) }
    else none
  | .run p regs =>
    match s.pc p with
    | .user _ => if OnCpu s p then some (setPc s p (.user regs)) else none
    | _ => none
  | .trap p =>
    match s.pc p with
    | .user regs => if OnCpu s p then some (setPc (setContext s p regs) p .kernel) else none
    | _ => none
  | .ret p k => if OnCpu s p ∧ s.pc p = .kernel then some (setPc (setContext s p k) p (.user k)) else none
  | .forkCreate p c n =>
    if OnCpu s p ∧ s.pc p = .kernel ∧ s.alive c = false ∧ c ≠ p then
      some { s with
        alive := update s.alive c true
        pid := update s.pid c n
        state := update s.state c .unused
        parent := update s.parent c p
        pc := update (update s.pc c .fresh) p (.fork .created c n)
        called := update s.called c (some (s.ucontext p))
        first := update s.first c none }
    else none
  | .forkCopy p =>
    match s.pc p with
    | .fork .created c n =>
      if OnCpu s p then some (setPc (setContext s c (s.ucontext p)) p (.fork .copied c n)) else none
    | _ => none
  | .forkStart p =>
    match s.pc p with
    | .fork .copied c n =>
      if OnCpu s p then (activated false (s.state c)).map fun st => setPc (setState s c st) p (.fork .started c n) else none
    | _ => none
  | .forkClear p =>
    match s.pc p with
    | .fork .started c n =>
      if OnCpu s p then some (setPc (setContext s c ((s.ucontext c).setX0 0)) p (.fork .cleared c n)) else none
    | _ => none
  | .forkRet p =>
    match s.pc p with
    | .fork .cleared c n =>
      if OnCpu s p then
        some { setPc (setContext s p ((s.ucontext p).setX0 (UInt64.ofNat (s.pid c)))) p .kernel with
          returned := (n, s.pid c) :: s.returned }
      else none
    | _ => none
  | .exit p =>
    if OnCpu s p ∧ s.pc p = .kernel then
      some { setState s p .zombie with parent := fun c => if s.parent c = p then rootProc else s.parent c }
    else none
  | .reap p c =>
    if OnCpu s p ∧ s.pc p = .kernel ∧ s.alive c = true ∧ s.state c = .zombie ∧ s.parent c = p then
      some { s with alive := update s.alive c false }
    else none

/-- nobody is in `fork` yet -/
structure Boot (s : Sys) : Prop where
  noFork : ∀ p g c n, s.pc p ≠ .fork g c n
  called : ∀ c, s.called c = none
  returned : s.returned = []

/-! ## Invariant -/

/-- p is in `fork` and has made c -/
structure Making (s : Sys) (p : ℕ) (g : ForkAt) (c n : ℕ) : Prop where
  forker : s.alive p = true ∧ s.state p ≠ .zombie
  alive : s.alive c = true
  pid : s.pid c = n
  parent : s.parent c = p
  called : s.called c = some (s.ucontext p)
  /-- until `gregs[0]` is cleared the child stays where it is -/
  still : g ≠ .cleared → s.pc c = .fresh ∧ s.first c = none ∧
    s.state c = (if g = .started then .runnable else .unused)
  copied : g = .copied ∨ g = .started → s.ucontext c = s.ucontext p

structure Inv (s : Sys) : Prop where
  making : ∀ p g c n, s.pc p = .fork g c n → Making s p g c n
  child : ∀ c k, s.called c = some k →
    (∃ p g n, s.pc p = .fork g c n ∧ g ≠ .cleared) ∨
    (s.pc c = .fresh ∧ s.first c = none ∧ s.ucontext c = k.setX0 0) ∨
    (s.pc c ≠ .fresh ∧ s.first c = some (k.setX0 0))
  returned : ∀ x ∈ s.returned, x.2 = x.1

theorem boot_inv {s : Sys} (h : Boot s) : Inv s where
  making p g c n hpc := absurd hpc (h.noFork p g c n)
  child c k hc := by rw [h.called c] at hc; cases hc
  returned x hx := by rw [h.returned] at hx; cases hx

attribute [local grind cases] Making

/-- c is not the child of a `fork` that has still to clear its register -/
def Settled (s : Sys) (c : ℕ) : Prop := ∀ p g n, s.pc p = .fork g c n → g = .cleared

section Steps

variable {s : Sys} (h : Inv s)
include h

/-- a child that is still being made is UNUSED or RUNNABLE -/
theorem settled_of_state {c : ℕ} (hu : s.state c ≠ .unused) (hr : s.state c ≠ .runnable) : Settled s c := by
  intro p g n hpc
  by_contra hg
  have hst := ((h.making p g c n hpc).still hg).2.2
  split_ifs at hst
  · exact hr hst
  · exact hu hst

theorem settled_of_cpu {p : ℕ} (hp : OnCpu s p) : Settled s p :=
  settled_of_state h (by rw [hp.2]; decide) (by rw [hp.2]; decide)

/-- a new state for a process, short of its end -/
theorem inv_setState {q : ℕ} (hq : Settled s q) {st : ProcState} (hst : st ≠ .zombie) : Inv (setState s q st) := by
  obtain ⟨hmaking, hchild, hret⟩ := h
  refine ⟨fun p g c n hpc => ?_, hchild, hret⟩
  change s.pc p = _ at hpc
  have hm := hmaking p g c n hpc
  constructor <;> dsimp only [setState] <;> grind [update_apply, Settled]

/-- a process on a CPU, not in `fork` or at its end, goes on in user mode or in the kernel with other registers -/
theorem inv_act {q : ℕ} (hq : OnCpu s q) (hpc : ∀ g c n, s.pc q = .fork g c n → g = .cleared) (pc : Pc)
    (hnew : ∀ g c n, pc ≠ .fork g c n) (hfresh : pc ≠ .fresh) (k : UserContext) {first : Option UserContext}
    (hfirst : ∀ k', s.called q = some k' → first = some (k'.setX0 0)) :
    Inv { s with
      pc := update s.pc q pc
      ucontext := update s.ucontext q k
      first := update s.first q first } := by
  have hset := settled_of_cpu h hq
  obtain ⟨hmaking, hchild, hret⟩ := h
  refine ⟨fun p g c n hp => ?_, fun c k' hc => ?_, hret⟩
  · constructor <;> grind [update_apply, Settled]
  · by_cases hcq : c = q
    · subst hcq
      simp only [update_self]
      exact Or.inr (Or.inr ⟨hfresh, hfirst k' hc⟩)
    · simp only [update_of_ne hcq]
      rcases hchild c k' hc with ⟨p, g, n, hp, hg⟩ | hrest
      · have hpq : p ≠ q := fun hx => hg (hpc g c n (hx ▸ hp))
        exact Or.inl ⟨p, g, n, by simpa only [update_of_ne hpq] using hp, hg⟩
      · exact Or.inr hrest

/-- a process that has been in user mode has entered it as it should -/
theorem first_eq {q : ℕ} (hq : OnCpu s q) (hfresh : s.pc q ≠ .fresh) {k : UserContext} (hk : s.called q = some k) :
    s.first q = some (k.setX0 0) := by
  rcases h.child q k hk with ⟨p, g, n, hp, hg⟩ | ⟨hf, -⟩ | ⟨-, hfirst⟩
  · exact absurd (settled_of_cpu h hq p g n hp) hg
  · exact absurd hf hfresh
  · exact hfirst

/-- the parent goes one stage further and leaves the child with registers k and state st -/
theorem inv_advance {p c n : ℕ} {g : ForkAt} (hpc : s.pc p = .fork g c n) (hg : g ≠ .cleared) (g' : ForkAt)
    (k : UserContext) (st : ProcState) (hst : g' ≠ .cleared → st = (if g' = .started then .runnable else .unused))
    (hcopy : g' = .copied ∨ g' = .started → k = s.ucontext p) (hclear : g' = .cleared → k = (s.ucontext p).setX0 0) :
    Inv { s with
      pc := update s.pc p (.fork g' c n)
      ucontext := update s.ucontext c k
      state := update s.state c st } := by
  obtain ⟨hmaking, hchild, hret⟩ := h
  have hm := hmaking p g c n hpc
  refine ⟨fun q g'' d n' hq => ?_, fun d k' hd => ?_, hret⟩
  · constructor <;> grind [update_apply]
  · by_cases hnew : d = c ∧ g' ≠ .cleared
    · exact Or.inl ⟨p, g', n, by simp only [update_self, hnew.1], hnew.2⟩
    · rcases hchild d k' hd with ⟨q, g'', n', hq, hg''⟩ | hrest
      · by_cases hqp : q = p
        · grind [update_apply]
        · exact Or.inl ⟨q, g'', n', by simpa only [update_of_ne hqp] using hq, hg''⟩
      · grind [update_apply]

theorem inv_create {p c n : ℕ} (hp : s.alive p = true ∧ s.state p ≠ .zombie) (hpc : s.pc p = .kernel)
    (hc : s.alive c = false) (hcp : c ≠ p) :
    Inv { s with
      alive := update s.alive c true
      pid := update s.pid c n
      state := update s.state c .unused
      parent := update s.parent c p
      pc := update (update s.pc c .fresh) p (.fork .created c n)
      called := update s.called c (some (s.ucontext p))
      first := update s.first c none } := by
  obtain ⟨hmaking, hchild, hret⟩ := h
  refine ⟨fun q g d n' hq => ?_, fun d k hd => ?_, hret⟩
  · constructor <;> grind [update_apply]
  · by_cases hdc : d = c
    · exact Or.inl ⟨p, .created, n, by simp only [update_self, hdc], by decide⟩
    · simp only [update_of_ne hdc] at hd
      rcases hchild d k hd with ⟨q, g, n', hq, hg⟩ | hrest
      · -- nobody in `fork` is c
        have hqp : q ≠ c ∧ q ≠ p := by grind
        exact Or.inl ⟨q, g, n', by simpa only [update_of_ne hqp.2, update_of_ne hqp.1] using hq, hg⟩
      · grind [update_apply]

theorem inv_exit {q : ℕ} (hq : OnCpu s q) (hpc : s.pc q = .kernel) :
    Inv { setState s q .zombie with parent := fun c => if s.parent c = q then rootProc else s.parent c } := by
  have hset := settled_of_cpu h hq
  obtain ⟨hmaking, hchild, hret⟩ := h
  refine ⟨fun p g c n hp => ?_, hchild, hret⟩
  change s.pc p = _ at hp
  have hm := hmaking p g c n hp
  constructor <;> dsimp only [setState] <;> grind [update_apply, Settled]

theorem inv_reap {q c : ℕ} (hpc : s.pc q = .kernel) (hz : s.state c = .zombie) (hparent : s.parent c = q) :
    Inv { s with alive := update s.alive c false } := by
  obtain ⟨hmaking, hchild, hret⟩ := h
  refine ⟨fun p g d n hp => ?_, hchild, hret⟩
  change s.pc p = _ at hp
  have hm := hmaking p g d n hp
  constructor <;> grind [update_apply]

/-- no CPU picks a child before its parent has cleared `gregs[0]` -/
def NotYet (s : Sys) : Event → Prop
  | .dispatch c => ∀ p n, s.pc p ≠ .fork .started c n
  | _ => True

theorem inv_step {s' : Sys} {e : Event} (hcond : NotYet s e) (hs : step s e = some s') : Inv s' := by
  cases e with
  | dispatch p =>
    obtain ⟨⟨-, hst⟩, rfl⟩ := guard_enabled hs
    refine inv_setState h (fun q g n hq => ?_) (by decide)
    by_contra hg
    -- a child that can be picked has been started
    have hstate := ((h.making q g p n hq).still hg).2.2
    rw [hst] at hstate
    split_ifs at hstate with hstarted
    exact hcond q n (hstarted ▸ hq)
  | yield p =>
    obtain ⟨hp, rfl⟩ := guard_enabled hs
    exact inv_setState h (settled_of_cpu h hp) (by decide)
  | sleep p =>
    obtain ⟨hp, rfl⟩ := guard_enabled hs
    exact inv_setState h (settled_of_cpu h hp) (by decide)
  | wake p =>
    obtain ⟨⟨-, hst⟩, rfl⟩ := guard_enabled hs
    exact inv_setState h (settled_of_state h (by rw [hst]; decide) (by rw [hst]; decide)) (by decide)
  | enter p =>
    obtain ⟨⟨hp, hf⟩, rfl⟩ := guard_enabled hs
    have hfirst : ∀ k, s.called p = some k → some (s.ucontext p) = some (k.setX0 0) := by
      intro k hk
      rcases h.child p k hk with ⟨q, g, n, hq, hg⟩ | ⟨-, -, hctx⟩ | ⟨hno, -⟩
      · exact absurd (settled_of_cpu h hp q g n hq) hg
      · rw [hctx]
      · exact absurd hf hno
    have := inv_act h hp (fun g c n hx => by rw [hf] at hx; cases hx)
      (.user (s.ucontext p)) (by simp) (by simp) (s.ucontext p) hfirst
    simpa only [setPc, update_eq_self] using this
  | run p regs =>
    simp only [step] at hs
    split at hs
    · next r hpc =>
      obtain ⟨hp, rfl⟩ := guard_enabled hs
      have := inv_act h hp (fun g c n hx => by rw [hpc] at hx; cases hx)
        (.user regs) (by simp) (by simp) (s.ucontext p)
        (fun k hk => first_eq h hp (by rw [hpc]; simp) hk)
      simpa only [setPc, update_eq_self] using this
    · cases hs
  | trap p =>
    simp only [step] at hs
    split at hs
    · next r hpc =>
      obtain ⟨hp, rfl⟩ := guard_enabled hs
      have := inv_act h hp (fun g c n hx => by rw [hpc] at hx; cases hx)
        .kernel (by simp) (by simp) r
        (fun k hk => first_eq h hp (by rw [hpc]; simp) hk)
      simpa only [setPc, setContext, update_eq_self] using this
    · cases hs
  | ret p k =>
    obtain ⟨⟨hp, hpc⟩, rfl⟩ := guard_enabled hs
    have := inv_act h hp (fun g c n hx => by rw [hpc] at hx; cases hx)
      (.user k) (by simp) (by simp) k
      (fun k' hk => first_eq h hp (by rw [hpc]; simp) hk)
    simpa only [setPc, setContext, update_eq_self] using this
  | forkCreate p c n =>
    obtain ⟨⟨hp, hpc, hc, hcp⟩, rfl⟩ := guard_enabled hs
    exact inv_create h ⟨hp.1, by rw [hp.2]; decide⟩ hpc hc hcp
  | forkCopy p =>
    simp only [step] at hs
    split at hs
    · next c n hpc =>
      obtain ⟨hp, rfl⟩ := guard_enabled hs
      have hstate := ((h.making p _ c n hpc).still (by decide)).2.2
      have := inv_advance h hpc (by decide) .copied (s.ucontext p) (s.state c) (fun _ => hstate)
        (fun _ => rfl) (fun hx => by cases hx)
      simpa only [setPc, setContext, update_eq_self] using this
    · cases hs
  | forkStart p =>
    simp only [step] at hs
    split at hs
    · next c n hpc =>
      have hm := h.making p _ c n hpc
      have hstate : s.state c = .unused := (hm.still (by decide)).2.2
      rw [hstate] at hs
      simp only [activated, Option.map_some, Option.ite_none_right_eq_some, Option.some.injEq] at hs
      obtain ⟨hp, rfl⟩ := hs
      have := inv_advance h hpc (by decide) .started (s.ucontext c) .runnable (fun _ => rfl)
        (fun _ => hm.copied (Or.inl rfl)) (fun hx => by cases hx)
      simpa only [setPc, setState, update_eq_self] using this
    · cases hs
  | forkClear p =>
    simp only [step] at hs
    split at hs
    · next c n hpc =>
      obtain ⟨hp, rfl⟩ := guard_enabled hs
      have hcopied := (h.making p _ c n hpc).copied (Or.inr rfl)
      have := inv_advance h hpc (by decide) .cleared ((s.ucontext c).setX0 0) (s.state c)
        (fun hx => absurd rfl hx) (fun hx => by rcases hx with hx | hx <;> cases hx) (fun _ => by rw [hcopied])
      simpa only [setPc, setContext, update_eq_self] using this
    · cases hs
  | forkRet p =>
    simp only [step] at hs
    split at hs
    · next c n hpc =>
      obtain ⟨hp, rfl⟩ := guard_enabled hs
      have hpid := (h.making p _ c n hpc).pid
      have hact := inv_act h hp (fun g c n hx => by rw [hpc] at hx; cases hx; rfl)
        .kernel (by simp) (by simp)
        ((s.ucontext p).setX0 (UInt64.ofNat (s.pid c))) (fun k hk => first_eq h hp (by rw [hpc]; simp) hk)
      simp only [update_eq_self] at hact
      refine ⟨fun q g d n' hq => ?_, hact.child, fun x hx => ?_⟩
      · have hm := hact.making q g d n' hq
        exact ⟨hm.forker, hm.alive, hm.pid, hm.parent, hm.called, hm.still, hm.copied⟩
      · rcases List.mem_cons.1 hx with rfl | hx
        · exact hpid
        · exact h.returned x hx
    · cases hs
  | exit p =>
    obtain ⟨⟨hp, hpc⟩, rfl⟩ := guard_enabled hs
    exact inv_exit h hp hpc
  | reap p c =>
    obtain ⟨⟨-, hpc, -, hz, hparent⟩, rfl⟩ := guard_enabled hs
    exact inv_reap h hpc hz hparent

end Steps

/-- **fork returns 0 in the child.** In every run in which no CPU picks a child before its parent has cleared `gregs[0]`, every
child first enters user mode with the parent's registers at the call, except for 0 in `gregs[0]`, and every `fork` that has
returned has returned the pid of its child. -/
theorem fork_returns {s t : Sys} {es : List Event} (hboot : Boot s) (hm : Meets step NotYet s es)
    (hr : run step s es = some t) :
    (∀ c k r, t.called c = some k → t.first c = some r → r = k.setX0 0) ∧ ∀ x ∈ t.returned, x.2 = x.1 := by
  have h : Inv t := run_invariant (fun _ _ _ hI hc hs => inv_step hI hc hs) (boot_inv hboot) hm hr
  refine ⟨fun c k r hk hf => ?_, h.returned⟩
  rcases h.child c k hk with ⟨p, g, n, hp, hg⟩ | ⟨-, hnone, -⟩ | ⟨-, hfirst⟩
  · -- a child still being made has not entered
    have hnone := ((h.making p g c n hp).still hg).2.1
    rw [hnone] at hf
    cases hf
  · rw [hnone] at hf
    cases hf
  · exact Option.some.inj (hf.symm.trans hfirst)

/-- all registers are 7 -/
def sevens : UserContext := ⟨fun _ => 7, fun _ => 7⟩

/-- process 1 in user mode, the others not there yet -/
def onlyOne : Sys where
  alive p := p = 1
  pid p := p
  state p := if p = 1 then .running else .unused
  parent _ := 0
  ucontext _ := sevens
  pc p := if p = 1 then .user sevens else .fresh
  called _ := none
  first _ := none
  returned := []

theorem onlyOne_boot : Boot onlyOne := by
  refine ⟨fun p g c n hx => ?_, fun _ => rfl, rfl⟩
  simp only [onlyOne] at hx
  split_ifs at hx

/-- process 1 forks process 2, which has pid 9 -/
def forks : List Event := [.trap 1, .forkCreate 1 2 9, .forkCopy 1, .forkStart 1]

/-- process 2 is picked after the call has returned -/
def inOrder : List Event := forks ++ [.forkClear 1, .forkRet 1, .dispatch 2, .enter 2]

theorem inOrder_notYet : Meets step NotYet onlyOne inOrder := by
  refine ⟨trivial, fun s1 h1 => ⟨trivial, fun s2 h2 => ⟨trivial, fun s3 h3 => ⟨trivial, fun s4 h4 => ⟨trivial, fun s5 h5 =>
    ⟨trivial, fun s6 h6 => ⟨?_, fun _ _ => ⟨trivial, fun _ _ => trivial⟩⟩⟩⟩⟩⟩⟩⟩
  cases h1
  cases h2
  cases h3
  cases h4
  cases h5
  cases h6
  intro p n hp
  by_cases h1 : p = 1
  · subst h1
    cases hp
  · by_cases h2 : p = 2
    · subst h2
      cases hp
    · simp [setPc, setContext, setState, onlyOne, h1, h2] at hp

theorem fork_returns_inOrder : ∃ t, run step onlyOne inOrder = some t ∧ t.first 2 = some (sevens.setX0 0) ∧
    t.returned = [(9, 9)] := by
  obtain ⟨t, hr, hcalled, hfirst, hret⟩ : ∃ t, run step onlyOne inOrder = some t ∧ t.called 2 = some sevens ∧
      (∃ r, t.first 2 = some r) ∧ t.returned = [(9, 9)] := ⟨_, rfl, rfl, ⟨_, rfl⟩, rfl⟩
  obtain ⟨r, hfirst⟩ := hfirst
  exact ⟨t, hr, by rw [hfirst, (fork_returns onlyOne_boot inOrder_notYet hr).1 2 _ _ hcalled hfirst], hret⟩

/-- **The child can be faster.** The child is RUNNABLE before `gregs[0]` is cleared: another CPU picks it and its `fork` returns
what the parent had in the register. -/
theorem child_returns_nonzero : Boot onlyOne ∧ ∃ t, run step onlyOne (forks ++ [.dispatch 2, .enter 2]) = some t ∧
    t.called 2 = some sevens ∧ (t.first 2).map (fun r => r.gregs 0) = some 7 :=
  ⟨onlyOne_boot, _, rfl, rfl, rfl⟩

end OsKernel.Kernel.ForkReturn
