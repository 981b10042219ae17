/-
Sleeps that only a post may end (`_wait_sem` in `common/sem.c`, `sched` in `kernel/sched.c`, `kill` in `kernel/proc.c`).

Any number of processes, semaphores and CPUs. `_wait_sem` is cut into three steps: up to the call of `sched`, with `rqlock` held
from then on; `sched` itself, which returns at once for a process that has been killed; and what follows the wake-up, with
`sem->lock` held again. A post that finds a sleeper marks its `WaitData` and keeps `sem->lock` until it has woken it.
`post_all_sem` is such posts and a `_get_sem`. `kill` sets the flag and alerts the process, without `rqlock` in between.

Result (`deep_wait_returns_true`): `_wait_sem(sem, false)` returns true, in every run in which no process has been killed when
`_wait_sem` calls `sched` for a sleep that is not alertable. A kill during the sleep does no harm: an alert does not wake
DEEPSLEEPING. A kill before it does (`killed_wait_returns_false`).
-/
import OsKernel.Lib.Runs
import OsKernel.Common.Sem
import OsKernel.Kernel.Sched

namespace OsKernel.Kernel.DeepSleep

open OsKernel.Runs OsKernel.Sem
open OsKernel.Kernel.Sched (ProcState activated)
open Function (update update_apply update_eq_self update_of_ne update_self)

/-! ## Model -/

/-- where a process is in `_wait_sem`, with the fields of its `WaitData` -/
inductive Pc where
  | out
  | called (sem : ℕ) (alertable up : Bool)
  | slept (sem : ℕ) (alertable up : Bool)
deriving DecidableEq

/-- `wait->up = true` -/
def Pc.mark : Pc → Pc
  | .out => .out
  | .called k al _ => .called k al true
  | .slept k al _ => .slept k al true

structure Sys where
  sem : ℕ → Semaphore
  /-- `sem->lock` while a post wakes a process -/
  waking : ℕ → Option ℕ
  /-- `rqlock` while a process goes to sleep -/
  rqlock : Option ℕ
  state : ℕ → ProcState
  killed : ℕ → Bool
  pc : ℕ → Pc
  /-- the calls of `_wait_sem` that have returned: by whom, alertable, and what -/
  returned : List (ℕ × Bool × Bool)

inductive Event where
  /-- `_wait_sem(k, alertable)` by p, up to the call of `sched` -/
  | wait (p k : ℕ) (alertable : Bool)
  | sched (p : ℕ)
  | resume (p : ℕ)
  | post (k : ℕ)
  /-- `activate_proc` at the end of `_post_sem` -/
  | activate (k : ℕ)
  | get (k : ℕ)
  | getAll (k : ℕ)
  | kill (p : ℕ)
  | alert (p : ℕ)
  | dispatch (p : ℕ)
  | preempt (p : ℕ)
  | start (p : ℕ)
  | exit (p : ℕ)

def setState (s : Sys) (p : ℕ) (st : ProcState) : Sys := { s with state := update s.state p st }

def setSem (s : Sys) (k : ℕ) (x : Semaphore) : Sys := { s with sem := update s.sem k x }

def setPc (s : Sys) (p : ℕ) (pc : Pc) : Sys := { s with pc := update s.pc p pc }

/-- `_wait_sem` by p returns -/
def ret (s : Sys) (p : ℕ) (alertable res : Bool) : Sys :=
  { setPc s p .out with returned := (p, alertable, res) :: s.returned }

def step (s : Sys) : Event → Option Sys
  | .wait p k al =>
    if s.state p = .running ∧ s.pc p = .out ∧ s.waking k = none then
      match waitSem p (s.sem k) with
      | (true, x) => some (ret (setSem s k x) p al true)
      | (false, x) =>
        if s.rqlock = none then some { setPc (setSem s k x) p (.called k al false) with rqlock := some p } else none
    else none
  | .sched p =>
    match s.pc p with
    | .called k al up =>
      if s.state p = .running then
        let s' := { setPc s p (.slept k al up) with rqlock := none }
        if s.killed p then some s' else some (setState s' p (if al then .sleeping else .deepsleeping))
      else none
    | _ => none
  | .resume p =>
    match s.pc p with
    | .slept k al up =>
      if s.state p = .running ∧ s.waking k = none then
        if up then some (ret s p al true)
        -- ASSERT(++sem->val <= 0)
        else if (s.sem k).val + 1 ≤ 0 then
          some (ret (setSem s k ⟨(s.sem k).val + 1, (s.sem k).sleeplist.erase p⟩) p al false)
        else none
      else none
    | _ => none
  | .post k =>
    if s.waking k = none then
      match postSem (s.sem k) with
      | none => none
      | some (none, x) => some (setSem s k x)
      | some (some w, x) =>
        some { setPc (setSem s k x) w (s.pc w).mark with waking := update s.waking k (some w) }
    else none
  | .activate k =>
    match s.waking k with
    | none => none
    | some w =>
      if s.rqlock = none then
        (activated false (s.state w)).map fun st =>
          { setState s w st with waking := update s.waking k none }
      else none
  | .get k => if s.waking k = none then some (setSem s k (getSem (s.sem k)).2) else none
  | .getAll k =>
    if s.waking k = none then
      if (s.sem k).val > 0 then some (setSem s k { s.sem k with val := 0 }) else some s
    else none
  | .kill p => if s.state p ≠ .unused then some { s with killed := update s.killed p true } else none
  | .alert p => if s.rqlock = none then (activated true (s.state p)).map fun st => setState s p st else none
  | .dispatch p => if s.rqlock = none ∧ s.state p = .runnable then some (setState s p .running) else none
  | .preempt p => if s.rqlock = none ∧ s.state p = .running then some (setState s p .runnable) else none
  | .start p => if s.rqlock = none ∧ s.state p = .unused then some (setState s p .runnable) else none
  | .exit p => if s.rqlock = none ∧ s.state p = .running ∧ s.pc p = .out then some (setState s p .zombie) else none

/-- nobody is in `_wait_sem` yet -/
structure Boot (s : Sys) : Prop where
  out : ∀ p, s.pc p = .out
  empty : ∀ k, (s.sem k).sleeplist = []
  waking : ∀ k, s.waking k = none
  returned : s.returned = []

/-! ## Invariant -/

/-- in `_wait_sem` on k, past the point where there was no token -/
def Waits (pc : Pc) (k : ℕ) (up : Bool) : Prop := ∃ al, pc = .called k al up ∨ pc = .slept k al up

structure Inv (s : Sys) : Prop where
  /-- who sleeps until a post stays asleep until it is marked -/
  deep : ∀ p k, s.pc p = .slept k false false → s.state p = .deepsleeping
  listed : ∀ k, ∀ p ∈ (s.sem k).sleeplist, Waits (s.pc p) k false
  nodup : ∀ k, (s.sem k).sleeplist.Nodup
  marked : ∀ k w, s.waking k = some w → Waits (s.pc w) k true
  returned : ∀ x ∈ s.returned, x.2.1 = false → x.2.2 = true

theorem boot_inv {s : Sys} (h : Boot s) : Inv s where
  deep p k hp := by rw [h.out p] at hp; cases hp
  listed k p hp := by rw [h.empty k] at hp; cases hp
  nodup k := by rw [h.empty k]; exact List.nodup_nil
  marked k w hw := by rw [h.waking k] at hw; cases hw
  returned x hx := by rw [h.returned] at hx; cases hx

theorem Waits.mark {pc : Pc} {k : ℕ} {up : Bool} (h : Waits pc k up) : Waits pc.mark k true := by
  obtain ⟨al, rfl | rfl⟩ := h
  · exact ⟨al, Or.inl rfl⟩
  · exact ⟨al, Or.inr rfl⟩

theorem not_waits_out {k : ℕ} {up : Bool} : ¬ Waits .out k up := by
  rintro ⟨al, h | h⟩ <;> cases h

theorem Waits.unique {pc : Pc} {k k' : ℕ} {up up' : Bool} (h : Waits pc k up) (h' : Waits pc k' up') :
    k = k' ∧ up = up' := by
  obtain ⟨al, rfl | rfl⟩ := h
  · obtain ⟨al', heq | heq⟩ := h' <;> cases heq
    exact ⟨rfl, rfl⟩
  · obtain ⟨al', heq | heq⟩ := h' <;> cases heq
    exact ⟨rfl, rfl⟩

section Steps

variable {s : Sys} (h : Inv s)
include h

/-- a new state for a process that does not sleep until a post -/
theorem inv_setState {q : ℕ} (hq : ∀ k, s.pc q ≠ .slept k false false) (st : ProcState) : Inv (setState s q st) := by
  refine ⟨fun p k hp => ?_, h.listed, h.nodup, h.marked, h.returned⟩
  have hpq : p ≠ q := fun hx => hq k (hx ▸ hp)
  simp only [setState, update_of_ne hpq]
  exact h.deep p k hp

theorem not_deep {q : ℕ} (hq : s.state q ≠ .deepsleeping) (k : ℕ) : s.pc q ≠ .slept k false false :=
  fun hx => hq (h.deep q k hx)

/-- a semaphore changes its value, or loses sleepers -/
theorem inv_setSem {k : ℕ} {x : Semaphore} (hx : x.sleeplist.Sublist (s.sem k).sleeplist) : Inv (setSem s k x) := by
  have hsub : ∀ k', ((setSem s k x).sem k').sleeplist.Sublist (s.sem k').sleeplist := by
    intro k'
    by_cases hk : k' = k
    · subst hk
      simpa only [setSem, update_self] using hx
    · simp only [setSem, update_of_ne hk]
      exact List.Sublist.refl _
  exact ⟨h.deep, fun k' p hp => h.listed k' p ((hsub k').subset hp), fun k' => (hsub k').nodup (h.nodup k'), h.marked,
    h.returned⟩

/-- p leaves `_wait_sem`: it is on no list and nobody is waking it -/
theorem inv_ret {p : ℕ} (hlist : ∀ k, p ∉ (s.sem k).sleeplist) (hwake : ∀ k, s.waking k ≠ some p) {al res : Bool}
    (hres : al = false → res = true) : Inv (ret s p al res) := by
  obtain ⟨hdeep, hlisted, hnodup, hmarked, hret⟩ := h
  constructor <;> dsimp only [ret, setPc] <;> grind [update_apply]

/-- p has found no token: it goes on the list of k -/
theorem inv_called {p k : ℕ} (hout : s.pc p = .out) (al : Bool) (v : ℤ) :
    Inv { setPc (setSem s k ⟨v, p :: (s.sem k).sleeplist⟩) p (.called k al false) with rqlock := some p } := by
  have hnot : ∀ k', p ∉ (s.sem k').sleeplist := fun k' hp => not_waits_out (hout ▸ h.listed k' p hp)
  have hwake : ∀ k' w, s.waking k' = some w → w ≠ p := fun k' w hw hx => not_waits_out (hout ▸ hx ▸ h.marked k' w hw)
  obtain ⟨hdeep, hlisted, hnodup, hmarked, hret⟩ := h
  constructor <;> dsimp only [setPc, setSem] <;> grind [update_apply, Waits]

/-- p passes `sched`; it is asleep if only a post may end its sleep -/
theorem inv_slept {p k : ℕ} {al up : Bool} (hpc : s.pc p = .called k al up) {st : ProcState}
    (hst : al = false → st = .deepsleeping) :
    Inv (setState { setPc s p (.slept k al up) with rqlock := none } p st) := by
  obtain ⟨hdeep, hlisted, hnodup, hmarked, hret⟩ := h
  constructor <;> dsimp only [setState, setPc] <;> grind [update_apply, Waits]

/-- a post marks the oldest sleeper and takes it off the list -/
theorem inv_mark {k w : ℕ} {v : ℤ} {l : List ℕ} (hl : (s.sem k).sleeplist = l ++ [w]) :
    Inv { setPc (setSem s k ⟨v, l⟩) w (s.pc w).mark with waking := update s.waking k (some w) } := by
  have hw : Waits (s.pc w) k false := h.listed k w (by rw [hl]; simp)
  have hnd : (l ++ [w]).Nodup := hl ▸ h.nodup k
  have hwl : w ∉ l := fun hx => (List.disjoint_of_nodup_append hnd) hx (List.mem_singleton_self w)
  have hmark := hw.mark
  obtain ⟨hdeep, hlisted, hnodup, hmarked, hret⟩ := h
  constructor <;> dsimp only [setSem, setPc] <;> grind [update_apply, Waits]

/-- what follows the wake-up of a process that has not been marked -/
theorem inv_unmarked {p k : ℕ} {al : Bool} (hpc : s.pc p = .slept k al false) (hrun : s.state p = .running) (v : ℤ) :
    Inv (ret (setSem s k ⟨v, (s.sem k).sleeplist.erase p⟩) p al false) := by
  have hw : Waits (s.pc p) k false := ⟨al, Or.inr hpc⟩
  refine inv_ret (inv_setSem h List.erase_sublist) (fun k' hp => ?_) (fun k' hp => ?_) (fun hal => ?_)
  · by_cases hk : k' = k
    · subst hk
      simp only [setSem, update_self] at hp
      exact (h.nodup k').not_mem_erase hp
    · simp only [setSem, update_of_ne hk] at hp
      exact hk (Waits.unique (h.listed k' p hp) hw).1
  · have hup := (Waits.unique (h.marked k' p hp) hw).2
    cases hup
  · -- a sleep that only a post may end is still going on
    rw [hal] at hpc
    have hdeep := h.deep p k hpc
    rw [hrun] at hdeep
    cases hdeep

/-- p has not been killed when it is about to sleep until a post -/
def NotKilled (s : Sys) : Event → Prop
  | .sched p => ∀ k up, s.pc p = .called k false up → s.killed p = false
  | _ => True

theorem inv_step {s' : Sys} {e : Event} (hcond : NotKilled s e) (hs : step s e = some s') : Inv s' := by
  cases e with
  | wait p k al =>
    simp only [step, Option.ite_none_right_eq_some] at hs
    obtain ⟨⟨-, hout, -⟩, hs⟩ := hs
    have hlist : ∀ k', p ∉ (s.sem k').sleeplist := fun k' hp => not_waits_out (hout ▸ h.listed k' p hp)
    have hwake : ∀ k', s.waking k' ≠ some p := fun k' hp => not_waits_out (hout ▸ h.marked k' p hp)
    simp only [waitSem] at hs
    by_cases hv : (s.sem k).val - 1 ≥ 0
    · simp only [if_pos hv, Option.some.injEq] at hs
      rw [← hs]
      have hsub : ({ s.sem k with val := (s.sem k).val - 1 } : Semaphore).sleeplist.Sublist (s.sem k).sleeplist :=
        List.Sublist.refl _
      refine inv_ret (inv_setSem h hsub) (fun k' hp => ?_) hwake fun _ => rfl
      by_cases hk : k' = k
      · subst hk
        simp only [setSem, update_self] at hp
        exact hlist k' hp
      · simp only [setSem, update_of_ne hk] at hp
        exact hlist k' hp
    · simp only [if_neg hv, Option.ite_none_right_eq_some, Option.some.injEq] at hs
      obtain ⟨-, rfl⟩ := hs
      exact inv_called h hout al _
  | sched p =>
    simp only [step] at hs
    split at hs
    · next k al up hpc =>
      simp only [Option.ite_none_right_eq_some] at hs
      obtain ⟨-, hs⟩ := hs
      by_cases hkilled : s.killed p = true
      · -- killed: the sleep is an alertable one
        have hal : al = true := by
          by_contra hal
          rw [Bool.not_eq_true] at hal
          rw [hcond k up (hal ▸ hpc)] at hkilled
          cases hkilled
        have hst : al = false → s.state p = .deepsleeping := fun hx => by
          rw [hal] at hx
          cases hx
        have hinv := inv_slept h hpc hst
        simp only [setState, setPc, update_eq_self] at hinv
        rw [if_pos hkilled] at hs
        exact Option.some.inj hs ▸ hinv
      · rw [if_neg hkilled] at hs
        rw [← Option.some.inj hs]
        exact inv_slept h hpc fun hal => by rw [hal]; rfl
    · cases hs
  | resume p =>
    simp only [step] at hs
    split at hs
    · next k al up hpc =>
      split_ifs at hs with hg hup hv
      · rw [← Option.some.inj hs]
        rw [hup] at hpc
        have hw : Waits (s.pc p) k true := ⟨al, Or.inr hpc⟩
        refine inv_ret h (fun k' hp => ?_) (fun k' hp => ?_) fun _ => rfl
        · have hfalse := (Waits.unique (h.listed k' p hp) hw).2
          cases hfalse
        · -- it would have to be woken by somebody who holds the lock of k
          obtain ⟨rfl, -⟩ := Waits.unique (h.marked k' p hp) hw
          rw [hg.2] at hp
          cases hp
      · rw [← Option.some.inj hs]
        rw [Bool.not_eq_true] at hup
        exact inv_unmarked h (hup ▸ hpc) hg.1 _
    · cases hs
  | post k =>
    simp only [step] at hs
    split_ifs at hs with hg
    split at hs
    · cases hs
    · next x hx =>
      rw [← Option.some.inj hs]
      have hl := (postSem_eq hx).2
      rw [Option.toList_none, List.append_nil] at hl
      exact inv_setSem h (hl ▸ List.Sublist.refl _)
    · next w x hx =>
      rw [← Option.some.inj hs]
      exact inv_mark h (postSem_eq hx).2
  | activate k =>
    simp only [step] at hs
    split at hs
    · cases hs
    · next w hw =>
      split_ifs at hs
      obtain ⟨st, -, rfl⟩ := Option.map_eq_some_iff.1 hs
      have hnot : ∀ k', s.pc w ≠ .slept k' false false := fun k' hx => by
        have hup := (Waits.unique (h.marked k w hw) ⟨false, Or.inr hx⟩).2
        cases hup
      have hinv := inv_setState h hnot st
      refine ⟨hinv.deep, hinv.listed, hinv.nodup, fun k' q hq => ?_, hinv.returned⟩
      by_cases hk : k' = k
      · subst hk
        simp only [update_self] at hq
        cases hq
      · simp only [update_of_ne hk] at hq
        exact h.marked k' q hq
  | get k =>
    obtain ⟨-, rfl⟩ := guard_enabled hs
    refine inv_setSem h ?_
    rw [getSem]
    split_ifs <;> exact List.Sublist.refl _
  | getAll k =>
    simp only [step] at hs
    split_ifs at hs
    · rw [← Option.some.inj hs]
      exact inv_setSem h (List.Sublist.refl _)
    · exact Option.some.inj hs ▸ h
  | kill p =>
    obtain ⟨-, rfl⟩ := guard_enabled hs
    exact ⟨h.deep, h.listed, h.nodup, h.marked, h.returned⟩
  | alert p =>
    simp only [step, Option.ite_none_right_eq_some] at hs
    obtain ⟨-, hs⟩ := hs
    obtain ⟨st, hst, rfl⟩ := Option.map_eq_some_iff.1 hs
    by_cases hd : s.state p = .deepsleeping
    · -- an alert leaves it asleep
      rw [hd] at hst
      have hsame : setState s p st = s := by
        rw [← Option.some.inj hst, setState]
        simp only [if_true, ← hd, update_eq_self]
      rw [hsame]
      exact h
    · exact inv_setState h (not_deep h hd) st
  | dispatch p =>
    obtain ⟨⟨-, hst⟩, rfl⟩ := guard_enabled hs
    exact inv_setState h (not_deep h (by rw [hst]; decide)) _
  | preempt p =>
    obtain ⟨⟨-, hst⟩, rfl⟩ := guard_enabled hs
    exact inv_setState h (not_deep h (by rw [hst]; decide)) _
  | start p =>
    obtain ⟨⟨-, hst⟩, rfl⟩ := guard_enabled hs
    exact inv_setState h (not_deep h (by rw [hst]; decide)) _
  | exit p =>
    obtain ⟨⟨-, hst, -⟩, rfl⟩ := guard_enabled hs
    exact inv_setState h (not_deep h (by rw [hst]; decide)) _

end Steps

/-- **Only a post ends an unalertable sleep.** In every run in which no process has been killed when `_wait_sem(sem, false)`
calls `sched`, every such call that has returned has returned true. -/
theorem deep_wait_returns_true {s t : Sys} {es : List Event} (hboot : Boot s) (hm : Meets step NotKilled s es)
    (hr : run step s es = some t) : ∀ p res, (p, false, res) ∈ t.returned → res = true := by
  have h : Inv t := run_invariant (fun _ _ _ hI hc hs => inv_step hI hc hs) (boot_inv hboot) hm hr
  exact fun p res hx => h.returned _ hx rfl

/-- process 1 runs, process 2 holds the only token of every semaphore -/
def contended : Sys where
  sem _ := initSem 0
  waking _ := none
  rqlock := none
  state p := if p = 1 then .running else .runnable
  killed _ := false
  pc _ := .out
  returned := []

theorem contended_boot : Boot contended := ⟨fun _ => rfl, fun _ => rfl, fun _ => rfl, rfl⟩

/-- process 1 is killed and alerted in its sleep, and woken by a post later -/
def killedAsleep : List Event :=
  [.wait 1 0 false, .sched 1, .kill 1, .alert 1, .post 0, .activate 0, .dispatch 1, .resume 1]

theorem deep_wait_returns_true_killedAsleep :
    ∃ t res, run step contended killedAsleep = some t ∧ (1, false, res) ∈ t.returned ∧ res = true := by
  have hm : Meets step NotKilled contended killedAsleep := by
    refine ⟨trivial, fun s1 h1 => ⟨fun k up _ => ?_, fun _ _ => ⟨trivial, fun _ _ => ⟨trivial, fun _ _ => ⟨trivial, fun _ _ =>
      ⟨trivial, fun _ _ => ⟨trivial, fun _ _ => ⟨trivial, fun _ _ => trivial⟩⟩⟩⟩⟩⟩⟩⟩
    cases h1
    rfl
  obtain ⟨t, hr, res, hret⟩ : ∃ t, run step contended killedAsleep = some t ∧ ∃ res, t.returned = [(1, false, res)] :=
    ⟨_, rfl, _, rfl⟩
  have hmem : (1, false, res) ∈ t.returned := by rw [hret]; exact List.mem_singleton_self _
  exact ⟨t, res, hr, hmem, deep_wait_returns_true contended_boot hm hr 1 res hmem⟩

/-- **A kill before the sleep.** `sched` returns at once for a killed process: nobody has posted, and the call returns false. -/
theorem killed_wait_returns_false : Boot contended ∧
    ∃ t, run step contended [.kill 1, .wait 1 0 false, .sched 1, .resume 1] = some t ∧ t.returned = [(1, false, false)] :=
  ⟨contended_boot, _, rfl, rfl⟩

end OsKernel.Kernel.DeepSleep
