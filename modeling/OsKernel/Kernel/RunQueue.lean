/-
The run queue, the current processes and the timers fit together in every state the scheduler reaches.

The invariant has three parts. `Queue`: the run queue lists the runnable processes that are not idle, once each and in the
order of their runtimes, and each CPU has an idle process of its own that is running or runnable. `Owns`: the processes of the
CPUs are running, different, and no other process is running; an idle process runs on its own CPU only. `TimersOk`: the
scheduling timer of a CPU is in its tree exactly when its counter is 1. Inside `sched` the second part has a gap, the CPU that
is between two processes, which is a parameter of it.

`run_queue_invariant`: it holds along every run from the state `init_sched` leaves, and in each state it holds in no step
trips over an assertion or changes the runtime of a queued process.
-/
import OsKernel.Kernel.Sched
import OsKernel.Lib.Runs

namespace OsKernel.Kernel.Sched

open OsKernel.Ordered OsKernel.Runs
open Function (update update_idem update_of_ne update_self)

/-! ## Comparisons -/

theorem toInt64_neg_iff (d : UInt64) : d.toInt64 < 0 ↔ 2 ^ 63 ≤ d.toNat := by
  rw [Int64.lt_iff_toInt_lt]
  change d.toBitVec.toInt < 0 ↔ 2 ^ 63 ≤ d.toBitVec.toNat
  rw [BitVec.toInt_eq_toNat_cond]
  have := d.toBitVec.isLt
  split_ifs <;> omega

theorem toInt64_eq_zero (d : UInt64) : d.toInt64 = 0 ↔ d.toNat = 0 := by
  rw [← Int64.toInt_inj]
  change d.toBitVec.toInt = 0 ↔ d.toBitVec.toNat = 0
  rw [BitVec.toInt_eq_toNat_cond]
  have := d.toBitVec.isLt
  split_ifs <;> omega

variable {k k' : UInt64} {lower : Bool} {n : TimerName} {t : Timer}

theorem keyCmp_iff :
    keyCmp k k' lower ↔ 2 ^ 63 ≤ (k - k').toNat ∨ (k = k' ∧ lower) := by
  have hsub : (k - k').toNat = 0 ↔ k = k' := by
    rw [← UInt64.toNat_inj, UInt64.toNat_sub]
    have := k.toNat_lt
    have := k'.toNat_lt
    omega
  simp only [keyCmp, toInt64_neg_iff, toInt64_eq_zero, hsub]
  by_cases hneg : 2 ^ 63 ≤ (k - k').toNat
  · rw [if_pos hneg]
    exact iff_of_true rfl (Or.inl hneg)
  · rw [if_neg hneg]
    by_cases heq : k = k'
    · rw [if_pos heq, or_iff_right hneg, and_iff_right heq]
    · rw [if_neg heq, or_iff_right hneg]
      exact iff_of_false Bool.false_ne_true fun h => heq h.1

/-- two nodes at different addresses never compare equal -/
theorem keyCmp_total (k k' : UInt64) {lower' : Bool} (h : lower ∨ lower') :
    keyCmp k k' lower ∨ keyCmp k' k lower' := by
  simp only [keyCmp_iff, UInt64.toNat_sub, ← UInt64.toNat_inj]
  have := k.toNat_lt
  have := k'.toNat_lt
  by_cases heq : k.toNat = k'.toNat
  · rcases h with h | h
    · exact Or.inl (Or.inr ⟨heq, h⟩)
    · exact Or.inr (Or.inr ⟨heq.symm, h⟩)
  · omega

/-- with keys less than 2^63 apart the signed difference compares them -/
theorem keyCmp_close (h : k.toNat < k'.toNat + 2 ^ 63) (h' : k'.toNat < k.toNat + 2 ^ 63) :
    keyCmp k k' lower ↔ k.toNat < k'.toNat ∨ (k = k' ∧ lower) := by
  have hneg : 2 ^ 63 ≤ (k - k').toNat ↔ k.toNat < k'.toNat := by
    rw [UInt64.toNat_sub]
    have := k.toNat_lt
    have := k'.toNat_lt
    omega
  rw [keyCmp_iff, hneg]

/-! ## Timers -/

section Timers

variable {ι : Type}

structure TimersOk (c : Cpu ι) : Prop where
  nodup : c.timer.Nodup
  data : (c.timers .sched).data = 0 ∨ (c.timers .sched).data = 1
  sched : .sched ∈ c.timer ↔ (c.timers .sched).data = 1
  hello : .hello ∈ c.timer → c.online = true
  waiting : ∀ n ∈ c.timer, (c.timers n).triggered = false

/-- c' differs from c in its timers only -/
structure SameCpu (c c' : Cpu ι) : Prop where
  thisproc : c'.thisproc = c.thisproc
  idle : c'.idle = c.idle
  online : c'.online = c.online

theorem SameCpu.trans {a b c : Cpu ι} (h : SameCpu a b) (h' : SameCpu b c) : SameCpu a c :=
  ⟨h'.thisproc.trans h.thisproc, h'.idle.trans h.idle, h'.online.trans h.online⟩

theorem timerCmp_total (c : Cpu ι) {x y : TimerName} (h : x ≠ y) : c.timerCmp x y ∨ c.timerCmp y x := by
  apply keyCmp_total
  have hne : c.addr x ≠ c.addr y := by
    cases x <;> cases y
    · exact absurd rfl h
    · exact c.addr_ne
    · exact c.addr_ne.symm
    · exact absurd rfl h
  simpa using lt_or_gt_of_ne hne

/-- a timer that is not in the tree can be set -/
theorem setCpuTimer_ok (now : UInt64) (c : Cpu ι) (h : n ∉ c.timer) :
    ∃ c' t, setCpuTimer now c n = .ok c' ∧ SameCpu c c' ∧ c'.timer.Perm (n :: c.timer) ∧
      c'.timers = update c.timers n t ∧ t.triggered = false ∧ t.data = (c.timers n).data := by
  let t : Timer := { c.timers n with triggered := false, key := now + .ofNat (c.timers n).elapse }
  obtain ⟨l, hl⟩ : ∃ l, insertBy (c.setTimer n t).timerCmp n c.timer = some l :=
    insertBy_isSome fun y hy => timerCmp_total _ (ne_of_mem_of_not_mem hy h).symm
  refine ⟨{ c.setTimer n t with timer := l }, t, ?_, ⟨rfl, rfl, rfl⟩, insertBy_perm hl, rfl, rfl, rfl⟩
  change (insertNode (c.setTimer n t).timerCmp n c.timer).bind _ = _
  rw [insertNode, hl]
  rfl

theorem cancelCpuTimer_ok {c : Cpu ι} (hc : TimersOk c) (h : n ∈ c.timer) :
    cancelCpuTimer c n = .ok { c with timer := c.timer.erase n } := by
  simp only [cancelCpuTimer, hc.waiting n h, eraseNode, if_pos h]
  rfl

/-- a timer is taken out of the tree and changed, the counter of the scheduling timer to 0 -/
theorem TimersOk.erase {c : Cpu ι} (hc : TimersOk c) (n : TimerName) (ht : n = .sched → t.data = 0) :
    TimersOk ({ c with timer := c.timer.erase n }.setTimer n t) := by
  have hmem : ∀ m, m ∈ c.timer.erase n ↔ m ≠ n ∧ m ∈ c.timer := fun m => hc.nodup.mem_erase_iff
  have hother : ∀ m ≠ n, update c.timers n t m = c.timers m := fun m hm => by
    rw [update_of_ne hm]
  have hsched : n = .sched → update c.timers n t .sched = t := by
    rintro rfl
    exact update_self ..
  refine ⟨hc.nodup.erase n, ?_, ?_, fun h => hc.hello ((hmem _).1 h).2, ?_⟩
  · change (update c.timers n t .sched).data = 0 ∨ (update c.timers n t .sched).data = 1
    by_cases hn : n = .sched
    · exact Or.inl (by rw [hsched hn, ht hn])
    · rw [hother _ (Ne.symm hn)]
      exact hc.data
  · change .sched ∈ c.timer.erase n ↔ (update c.timers n t .sched).data = 1
    rw [hmem]
    by_cases hn : n = .sched
    · rw [hsched hn, ht hn]
      exact iff_of_false (fun h => h.1 hn.symm) (by decide)
    · rw [hother _ (Ne.symm hn), hc.sched]
      exact and_iff_right (Ne.symm hn)
  · intro m hm
    obtain ⟨hmn, hm⟩ := (hmem m).1 hm
    change (update c.timers n t m).triggered = false
    rw [hother m hmn]
    exact hc.waiting m hm

/-- a timer is put into the tree, the scheduling timer with its counter at 1 -/
theorem TimersOk.insert {c c' : Cpu ι} (hc : TimersOk c) (hn : n ∉ c.timer)
    (htimer : c'.timer.Perm (n :: c.timer)) (htimers : c'.timers = update c.timers n t)
    (ht : t.triggered = false) (hsched : n = .sched → t.data = 1) (hhello : .hello ∈ c'.timer → c'.online = true) :
    TimersOk c' := by
  have hmem : ∀ m, m ∈ c'.timer ↔ m = n ∨ m ∈ c.timer := fun m => htimer.mem_iff.trans List.mem_cons
  have hself : c'.timers n = t := by rw [htimers, update_self]
  have hother : ∀ m ≠ n, c'.timers m = c.timers m := fun m hm => by rw [htimers, update_of_ne hm]
  refine ⟨htimer.nodup_iff.2 (List.nodup_cons.2 ⟨hn, hc.nodup⟩), ?_, ?_, hhello, ?_⟩
  · by_cases h : n = .sched
    · rw [← h, hself]
      exact Or.inr (hsched h)
    · rw [hother _ (Ne.symm h)]
      exact hc.data
  · rw [hmem]
    by_cases h : n = .sched
    · rw [← h, hself]
      exact iff_of_true (Or.inl rfl) (hsched h)
    · rw [hother _ (Ne.symm h), ← hc.sched]
      exact or_iff_right (Ne.symm h)
  · intro m hm
    by_cases h : m = n
    · rw [h, hself, ht]
    · rw [hother m h]
      exact hc.waiting m (((hmem m).1 hm).resolve_left h)

/-- the first half of `update_this_proc`'s work on the timer: it is not waiting afterwards -/
theorem stopTimer_ok {c : Cpu ι} (hc : TimersOk c) :
    ∃ c', stopTimer c = .ok c' ∧ TimersOk c' ∧ SameCpu c c' ∧ .sched ∉ c'.timer ∧ (c'.timers .sched).data = 0 := by
  rcases hc.data with h0 | h1
  · have hout : .sched ∉ c.timer := by
      rw [hc.sched, h0]
      decide
    refine ⟨c, ?_, hc, ⟨rfl, rfl, rfl⟩, hout, h0⟩
    simp only [stopTimer, h0]
    rfl
  · have hin : .sched ∈ c.timer := hc.sched.2 h1
    let t : Timer := { c.timers .sched with data := (c.timers .sched).data - 1 }
    have ht : t.data = 0 := by
      change (c.timers .sched).data - 1 = 0
      rw [h1]
      rfl
    refine ⟨{ c with timer := c.timer.erase .sched }.setTimer .sched t, ?_, hc.erase .sched fun _ => ht, ⟨rfl, rfl, rfl⟩,
      fun h => (hc.nodup.mem_erase_iff.1 h).1 rfl, ?_⟩
    · rw [stopTimer, if_pos (by rw [h1]; decide), cancelCpuTimer_ok hc hin]
      rfl
    · change (update c.timers .sched t .sched).data = 0
      rw [update_self, ht]

/-- the scheduling timer is set again, whether or not it was waiting -/
theorem restartTimer_ok (now : UInt64) {c : Cpu ι} (hc : TimersOk c) :
    ∃ c', restartTimer now c = .ok c' ∧ TimersOk c' ∧ SameCpu c c' := by
  obtain ⟨c1, h1, hc1, hsame1, hout, h0⟩ := stopTimer_ok hc
  obtain ⟨c2, t, h2, hsame2, hperm, htimers, htrig, hdata⟩ :=
    setCpuTimer_ok now (c1.setTimer .sched { c1.timers .sched with elapse := timeslice }) (n := .sched) hout
  simp only [Cpu.setTimer, update_self, update_idem, h0] at htimers hdata
  have hself : c2.timers .sched = t := by rw [htimers, update_self]
  refine ⟨c2.setTimer .sched { c2.timers .sched with data := (c2.timers .sched).data + 1 }, ?_, ?_,
    hsame1.trans ⟨hsame2.thisproc, hsame2.idle, hsame2.online⟩⟩
  · rw [restartTimer, h1]
    change (setCpuTimer now (c1.setTimer .sched _) .sched).bind _ = _
    rw [h2]
    rfl
  · refine hc1.insert hout (t := { t with data := t.data + 1 }) hperm ?_ htrig ?_ ?_
    · simp only [Cpu.setTimer, hself, htimers, update_idem]
    · intro _
      change t.data + 1 = 1
      rw [hdata]
      rfl
    · intro h
      have hhello : .hello ∈ c1.timer := (List.mem_cons.1 (hperm.mem_iff.1 h)).resolve_left TimerName.noConfusion
      exact (congrArg (· = true) hsame2.online).mpr (hc1.hello hhello)

end Timers

/-! ## The invariant -/

section Invariant

variable {κ ι : Type} [DecidableEq κ] [LinearOrder ι] {c : κ} {l : List ι} {off : Option κ} {p q : ι} {s s' : Sys κ ι}
  {st : ProcState} {x : Cpu ι}

structure Queue (s : Sys κ ι) : Prop where
  nodup : s.rq.Nodup
  mem : ∀ p, p ∈ s.rq ↔ (s.proc p).idle = false ∧ (s.proc p).state = .runnable
  sorted : s.rq.Pairwise (s.rqCmp · ·)
  idle : ∀ c, (s.proc (s.cpu c).idle).idle = true
  idle_inj : ∀ c c', (s.cpu c).idle = (s.cpu c').idle → c = c'
  idle_only : ∀ p, (s.proc p).idle = true → ∃ c, (s.cpu c).idle = p
  idle_state : ∀ p, (s.proc p).idle = true → (s.proc p).state = .running ∨ (s.proc p).state = .runnable

/-- what the CPUs run; `off` is the CPU that is between two processes -/
structure Owns (off : Option κ) (s : Sys κ ι) : Prop where
  running : ∀ c, some c ≠ off → (s.proc (s.thisproc c)).state = .running
  held : ∀ p, (s.proc p).state = .running → ∃ c, some c ≠ off ∧ s.thisproc c = p
  inj : ∀ c c', some c ≠ off → some c' ≠ off → s.thisproc c = s.thisproc c' → c = c'
  home : ∀ c c', s.thisproc c = (s.cpu c').idle → c = c'

structure Inv (off : Option κ) (s : Sys κ ι) : Prop where
  queue : Queue s
  owns : Owns off s
  timers : ∀ c, TimersOk (s.cpu c)

def SameRuntime (s s' : Sys κ ι) : Prop := ∀ p, (s'.proc p).runtime = (s.proc p).runtime

section Frame

omit [DecidableEq κ]

theorem setProc_self (s : Sys κ ι) (p : ι) (x : Proc) : (s.setProc p x).proc p = x := update_self ..

theorem setProc_other (s : Sys κ ι) (x : Proc) (h : q ≠ p) : (s.setProc p x).proc q = s.proc q :=
  update_of_ne h ..

theorem setState_self (s : Sys κ ι) (p : ι) (st : ProcState) : ((s.setState p st).proc p).state = st :=
  congrArg Proc.state (setProc_self s p _)

theorem setState_other (s : Sys κ ι) (st : ProcState) (h : q ≠ p) : (s.setState p st).proc q = s.proc q :=
  setProc_other s _ h

theorem setState_runtime (s : Sys κ ι) (p : ι) (st : ProcState) : SameRuntime s (s.setState p st) := by
  intro q
  by_cases h : q = p
  · simp only [h, Sys.setState, Sys.setProc, update_self]
  · rw [setState_other s st h]

/-- the queue is ordered by the runtimes only -/
theorem SameRuntime.rqCmp (h : SameRuntime s s') : s'.rqCmp = s.rqCmp := by
  funext a b
  simp only [Sys.rqCmp, h a, h b]

theorem rqCmp_trans (hc : Close s l) {r : ι} (hp : p ∈ l) (hq : q ∈ l) (hr : r ∈ l)
    (hpq : s.rqCmp p q) (hqr : s.rqCmp q r) : s.rqCmp p r := by
  simp only [Sys.rqCmp] at hpq hqr ⊢
  rw [keyCmp_close (hc p hp q hq) (hc q hq p hp)] at hpq
  rw [keyCmp_close (hc q hq r hr) (hc r hr q hq)] at hqr
  rw [keyCmp_close (hc p hp r hr) (hc r hr p hp)]
  rcases hpq with hpq | ⟨hpq, hpq'⟩
  · rcases hqr with hqr | ⟨hqr, -⟩
    · exact Or.inl (hpq.trans hqr)
    · exact Or.inl (hqr ▸ hpq)
  · rw [hpq]
    rcases hqr with hqr | ⟨hqr, hqr'⟩
    · exact Or.inl hqr
    · refine Or.inr ⟨hqr, decide_eq_true ?_⟩
      exact (of_decide_eq_true hpq').trans (of_decide_eq_true hqr')

/-- a process that is not queued can be put into the queue -/
theorem Queue.insert (hq : Queue s) (hc : Close s (p :: s.rq)) (hp : p ∉ s.rq) :
    ∃ l, insertBy s.rqCmp p s.rq = some l ∧ l.Perm (p :: s.rq) ∧ l.Pairwise (s.rqCmp · ·) := by
  obtain ⟨l, hl⟩ : ∃ l, insertBy s.rqCmp p s.rq = some l := by
    apply insertBy_isSome
    intro q hqm
    apply keyCmp_total
    simpa using lt_or_gt_of_ne (ne_of_mem_of_not_mem hqm hp).symm
  refine ⟨l, hl, insertBy_perm hl, insertBy_pairwise ?_ hq.sorted hl⟩
  intro y hy hpy z hz hyz
  exact rqCmp_trans hc List.mem_cons_self (List.mem_cons_of_mem p hy) (List.mem_cons_of_mem p hz) hpy hyz

theorem Queue.not_mem (hq : Queue s) (h : (s.proc p).state ≠ .runnable) : p ∉ s.rq :=
  fun hp => h ((hq.mem p).1 hp).2

/-- one process and the queue change together -/
theorem Queue.setProc (hq : Queue s) {x : Proc} (hidle : x.idle = (s.proc p).idle)
    (hstate : x.idle = true → x.state = .running ∨ x.state = .runnable) (hnodup : l.Nodup)
    (hsorted : l.Pairwise ((s.setProc p x).rqCmp · ·))
    (hmem : ∀ q, q ∈ l ↔ if q = p then x.idle = false ∧ x.state = .runnable else q ∈ s.rq) :
    Queue ({ s with rq := l }.setProc p x) := by
  have hflag : ∀ q, (({ s with rq := l }.setProc p x).proc q).idle = (s.proc q).idle := by
    intro q
    by_cases h : q = p
    · rw [h, setProc_self, hidle]
    · rw [setProc_other _ x h]
  refine ⟨hnodup, ?_, hsorted, fun c => (hflag _).trans (hq.idle c), hq.idle_inj, ?_, ?_⟩
  · intro q
    change q ∈ l ↔ _
    rw [hmem]
    by_cases h : q = p
    · rw [if_pos h, h, setProc_self]
    · rw [if_neg h, setProc_other _ x h, hq.mem]
  · intro q h
    exact hq.idle_only q ((hflag q).symm.trans h)
  · intro q h
    by_cases hqp : q = p
    · rw [hqp, setProc_self] at h ⊢
      exact hstate h
    · rw [setProc_other _ x hqp] at h ⊢
      exact hq.idle_state q h

theorem Queue.setState (hq : Queue s)
    (hidle : (s.proc p).idle = true → st = .running ∨ st = .runnable) (hnodup : l.Nodup)
    (hsorted : l.Pairwise (s.rqCmp · ·))
    (hmem : ∀ q, q ∈ l ↔ if q = p then (s.proc p).idle = false ∧ st = .runnable else q ∈ s.rq) :
    Queue ({ s with rq := l }.setState p st) := by
  refine hq.setProc rfl hidle hnodup ?_ hmem
  have hcmp : (s.setState p st).rqCmp = s.rqCmp := (setState_runtime s p st).rqCmp
  rw [Sys.setState] at hcmp
  rw [hcmp]
  exact hsorted

/-- a process changes, but not in whether it is queued or where -/
theorem Queue.modify (hq : Queue s) {x : Proc} (hidle : x.idle = (s.proc p).idle)
    (hstate : x.state = (s.proc p).state ∨ x.idle = false ∧ x.state ≠ .runnable ∧ (s.proc p).state ≠ .runnable)
    (hrt : p ∈ s.rq → x.runtime = (s.proc p).runtime) : Queue (s.setProc p x) := by
  have hrbl : x.state = .runnable ↔ (s.proc p).state = .runnable := by
    rcases hstate with h | ⟨-, h, h'⟩
    · rw [h]
    · exact iff_of_false h h'
  refine hq.setProc hidle ?_ hq.nodup ?_ ?_
  · intro hx
    rcases hstate with h | ⟨h, -⟩
    · rw [h]
      exact hq.idle_state p (hidle ▸ hx)
    · rw [hx] at h
      cases h
  · have hkey : ∀ q ∈ s.rq, ((s.setProc p x).proc q).runtime = (s.proc q).runtime := by
      intro q hqm
      by_cases h : q = p
      · rw [h] at hqm ⊢
        rw [setProc_self, hrt hqm]
      · rw [setProc_other s x h]
    refine hq.sorted.imp_of_mem ?_
    intro a b ha hb hab
    simp only [Sys.rqCmp, hkey a ha, hkey b hb]
    exact hab
  · intro q
    by_cases h : q = p
    · rw [if_pos h, h, hq.mem, hidle, hrbl]
    · rw [if_neg h]

/-- a process that is in none of the states runnable and running becomes runnable and is queued -/
theorem Queue.enqueue (hq : Queue s) (hidle : (s.proc p).idle = false) (hp : p ∉ s.rq)
    (hperm : l.Perm (p :: s.rq)) (hsorted : l.Pairwise (s.rqCmp · ·)) : Queue ({ s with rq := l }.setState p .runnable) := by
  refine hq.setState (fun _ => Or.inr rfl) (hperm.nodup_iff.2 (List.nodup_cons.2 ⟨hp, hq.nodup⟩)) hsorted ?_
  intro q
  rw [hperm.mem_iff, List.mem_cons]
  by_cases h : q = p
  · rw [if_pos h]
    exact iff_of_true (Or.inl h) ⟨hidle, rfl⟩
  · rw [if_neg h]
    exact or_iff_right h

/-- a process that is not queued changes its state, but not to runnable -/
theorem Queue.park (hq : Queue s) (hp : p ∉ s.rq)
    (hidle : (s.proc p).idle = true → st = .running ∨ st = .runnable) (hst : (s.proc p).idle = false → st ≠ .runnable) :
    Queue (s.setState p st) := by
  refine hq.setState hidle hq.nodup hq.sorted ?_
  intro q
  by_cases h : q = p
  · rw [if_pos h, h]
    exact iff_of_false hp fun hr => hst hr.1 hr.2
  · rw [if_neg h]

/-- a process leaves the queue to run -/
theorem Queue.dispatch (hq : Queue s) (p : ι) :
    Queue ({ s with rq := s.rq.erase p }.setState p .running) := by
  refine hq.setState (fun _ => Or.inl rfl) (hq.nodup.erase p) (hq.sorted.sublist List.erase_sublist) ?_
  intro q
  rw [hq.nodup.mem_erase_iff]
  by_cases h : q = p
  · rw [if_pos h]
    exact iff_of_false (fun hr => hr.1 h) fun hr => ProcState.noConfusion hr.2
  · rw [if_neg h]
    exact and_iff_right h

end Frame

section Cpus

omit [LinearOrder ι]

theorem setCpu_self (s : Sys κ ι) (c : κ) (x : Cpu ι) : (s.setCpu c x).cpu c = x := update_self ..

theorem setCpu_other (s : Sys κ ι) {a : κ} (x : Cpu ι) (h : a ≠ c) : (s.setCpu c x).cpu a = s.cpu a :=
  update_of_ne h ..

theorem setCpu_idle (hx : x.idle = (s.cpu c).idle) (a : κ) :
    ((s.setCpu c x).cpu a).idle = (s.cpu a).idle := by
  by_cases h : a = c
  · rw [h, setCpu_self, hx]
  · rw [setCpu_other s x h]

theorem setCpu_timers (hs : ∀ a, TimersOk (s.cpu a)) (hx : TimersOk x) (a : κ) :
    TimersOk ((s.setCpu c x).cpu a) := by
  by_cases h : a = c
  · rw [h, setCpu_self]
    exact hx
  · rw [setCpu_other s x h]
    exact hs a

end Cpus

theorem Queue.setCpu (hq : Queue s) (c : κ) (hx : x.idle = (s.cpu c).idle) :
    Queue (s.setCpu c x) := by
  refine ⟨hq.nodup, hq.mem, hq.sorted, ?_, ?_, ?_, hq.idle_state⟩
  · intro a
    rw [setCpu_idle hx]
    exact hq.idle a
  · intro a b hab
    rw [setCpu_idle hx, setCpu_idle hx] at hab
    exact hq.idle_inj a b hab
  · intro p hp
    obtain ⟨a, ha⟩ := hq.idle_only p hp
    exact ⟨a, (setCpu_idle hx a).trans ha⟩

section Owns

omit [DecidableEq κ]

/-- a process changes, but not in whether it runs -/
theorem Owns.setProc (ho : Owns off s) {x : Proc}
    (hx : x.state = .running ↔ (s.proc p).state = .running) : Owns off ({ s with rq := l }.setProc p x) := by
  have hiff : ∀ q, (({ s with rq := l }.setProc p x).proc q).state = .running ↔ (s.proc q).state = .running := by
    intro q
    by_cases h : q = p
    · rw [h, setProc_self, hx]
    · rw [setProc_other _ x h]
  exact ⟨fun c hc => (hiff _).2 (ho.running c hc), fun q hq => ho.held q ((hiff q).1 hq), ho.inj, ho.home⟩

/-- the process of c stops running -/
theorem Owns.release (ho : Owns none s) (hst : st ≠ .running) :
    Owns (some c) ({ s with rq := l }.setState (s.thisproc c) st) := by
  refine ⟨?_, ?_, fun a b _ _ => ho.inj a b nofun nofun, ho.home⟩
  · intro a ha
    have hne : s.thisproc a ≠ s.thisproc c := fun h => ha (congrArg some (ho.inj a c nofun nofun h))
    exact (congrArg Proc.state (setState_other _ st hne)).trans (ho.running a nofun)
  · intro q hq
    by_cases h : q = s.thisproc c
    · rw [h, setState_self] at hq
      exact absurd hq hst
    · rw [setState_other _ st h] at hq
      obtain ⟨a, -, ha⟩ := ho.held q hq
      refine ⟨a, ?_, ha⟩
      intro hac
      rw [← ha, Option.some.inj hac] at h
      exact h rfl

end Owns

/-- c takes over a process that nobody runs -/
theorem Owns.acquire (ho : Owns (some c) s) (hx : x.thisproc = p)
    (hidle : x.idle = (s.cpu c).idle) (hp : (s.proc p).state ≠ .running) (hhome : ∀ a, p = (s.cpu a).idle → c = a) :
    Owns none ({ s.setCpu c x with rq := l }.setState p .running) := by
  have hself : (s.setCpu c x).thisproc c = p := by rw [Sys.thisproc, setCpu_self, hx]
  have hother : ∀ a, a ≠ c → (s.setCpu c x).thisproc a = s.thisproc a := by
    intro a ha
    rw [Sys.thisproc, setCpu_other s x ha, Sys.thisproc]
  have hrun : ∀ a, a ≠ c → (s.proc (s.thisproc a)).state = .running := fun a ha =>
    ho.running a fun h => ha (Option.some.inj h)
  -- p is nobody's process yet
  have hfree : ∀ a, a ≠ c → s.thisproc a ≠ p := fun a ha h => hp (h ▸ hrun a ha)
  refine ⟨?_, ?_, ?_, ?_⟩
  · intro a _
    change (({ s.setCpu c x with rq := l }.setState p .running).proc ((s.setCpu c x).thisproc a)).state = .running
    by_cases h : a = c
    · rw [h, hself, setState_self]
    · rw [hother a h, setState_other _ _ (hfree a h)]
      exact hrun a h
  · intro q hq
    by_cases h : q = p
    · exact ⟨c, nofun, hself.trans h.symm⟩
    · rw [setState_other _ _ h] at hq
      obtain ⟨a, ha, hqa⟩ := ho.held q hq
      exact ⟨a, nofun, (hother a fun h => ha (congrArg some h)).trans hqa⟩
  · intro a b _ _ hab
    change (s.setCpu c x).thisproc a = (s.setCpu c x).thisproc b at hab
    by_cases ha : a = c
    · by_cases hb : b = c
      · rw [ha, hb]
      · rw [ha, hself, hother b hb] at hab
        exact absurd hab.symm (hfree b hb)
    · by_cases hb : b = c
      · rw [hb, hself, hother a ha] at hab
        exact absurd hab (hfree a ha)
      · rw [hother a ha, hother b hb] at hab
        exact ho.inj a b (fun h => ha (Option.some.inj h)) (fun h => hb (Option.some.inj h)) hab
  · intro a b hab
    change (s.setCpu c x).thisproc a = ((s.setCpu c x).cpu b).idle at hab
    rw [setCpu_idle hidle] at hab
    by_cases ha : a = c
    · rw [ha, hself] at hab
      exact ha.trans (hhome b hab)
    · rw [hother a ha] at hab
      exact ho.home a b hab

omit [LinearOrder ι] in
/-- the timers of a CPU change -/
theorem Owns.setCpu (ho : Owns off s)
    (hx : x.thisproc = (s.cpu c).thisproc) (hidle : x.idle = (s.cpu c).idle) : Owns off (s.setCpu c x) := by
  have hthis : ∀ a, (s.setCpu c x).thisproc a = s.thisproc a := by
    intro a
    by_cases h : a = c
    · rw [h, Sys.thisproc, setCpu_self, hx, Sys.thisproc]
    · rw [Sys.thisproc, setCpu_other s x h, Sys.thisproc]
  refine ⟨?_, ?_, ?_, ?_⟩
  · intro a ha
    rw [hthis]
    exact ho.running a ha
  · intro q hq
    obtain ⟨a, ha, hqa⟩ := ho.held q hq
    exact ⟨a, ha, (hthis a).trans hqa⟩
  · intro a b ha hb hab
    rw [hthis, hthis] at hab
    exact ho.inj a b ha hb hab
  · intro a b hab
    rw [hthis, setCpu_idle hidle] at hab
    exact ho.home a b hab

omit [DecidableEq κ] in
/-- neither the clock nor the panic flag matters -/
theorem Inv.congr (hi : Inv none s) (hproc : s'.proc = s.proc) (hcpu : s'.cpu = s.cpu)
    (hrq : s'.rq = s.rq) : Inv none s' := by
  obtain ⟨proc, cpu, rq, flag, now⟩ := s'
  subst hproc hcpu hrq
  obtain ⟨⟨h1, h2, h3, h4, h5, h6, h7⟩, ⟨h8, h9, h10, h11⟩, h12⟩ := hi
  exact ⟨⟨h1, h2, h3, h4, h5, h6, h7⟩, ⟨h8, h9, h10, h11⟩, h12⟩

theorem Inv.setCpu (hi : Inv none s) (hx : x.thisproc = (s.cpu c).thisproc)
    (hidle : x.idle = (s.cpu c).idle) (ht : TimersOk x) : Inv none (s.setCpu c x) :=
  ⟨hi.queue.setCpu c hidle, hi.owns.setCpu hx hidle, setCpu_timers hi.timers ht⟩

/-! ## The functions keep it -/

section Functions

omit [DecidableEq κ]

/-- `_activate_proc` queues a process that sleeps or is new, and leaves every other one alone -/
theorem activateProc_ok (hi : Inv none s) (onalert : Bool) (hz : (s.proc p).state ≠ .zombie)
    (hc : Close s (p :: s.rq)) :
    ∃ r s', activateProc s p onalert = .ok (r, s') ∧ Inv none s' ∧ SameRuntime s s' := by
  have hwake : (s.proc p).state ≠ .running → (s.proc p).state ≠ .runnable → ∃ l, insertBy s.rqCmp p s.rq = some l ∧
      Inv none ({ s with rq := l }.setState p .runnable) ∧ SameRuntime s ({ s with rq := l }.setState p .runnable) := by
    intro hrun hrbl
    have hidle : (s.proc p).idle = false := by
      by_contra h
      rcases hi.queue.idle_state p (by simpa using h) with h | h
      · exact hrun h
      · exact hrbl h
    have hp : p ∉ s.rq := hi.queue.not_mem hrbl
    obtain ⟨l, hl, hperm, hsorted⟩ := hi.queue.insert hc hp
    refine ⟨l, hl, ⟨hi.queue.enqueue hidle hp hperm hsorted, ?_, hi.timers⟩, setState_runtime _ p _⟩
    exact hi.owns.setProc (iff_of_false ProcState.noConfusion hrun)
  have hcmp : (s.setState p .runnable).rqCmp = s.rqCmp := (setState_runtime s p _).rqCmp
  unfold activateProc
  simp only [hcmp]
  cases hst : (s.proc p).state with
  | running => exact ⟨false, s, rfl, hi, fun _ => rfl⟩
  | runnable => exact ⟨false, s, rfl, hi, fun _ => rfl⟩
  | sleeping =>
    obtain ⟨l, hl, hinv, hrt⟩ := hwake (by rw [hst]; decide) (by rw [hst]; decide)
    rw [hl]
    exact ⟨true, _, rfl, hinv, hrt⟩
  | unused =>
    obtain ⟨l, hl, hinv, hrt⟩ := hwake (by rw [hst]; decide) (by rw [hst]; decide)
    rw [hl]
    exact ⟨true, _, rfl, hinv, hrt⟩
  | deepsleeping =>
    cases onalert with
    | true => exact ⟨false, s, rfl, hi, fun _ => rfl⟩
    | false =>
      obtain ⟨l, hl, hinv, hrt⟩ := hwake (by rw [hst]; decide) (by rw [hst]; decide)
      rw [hl]
      exact ⟨false, _, rfl, hinv, hrt⟩
  | zombie => exact absurd hst hz

/-- what a caller of `sched` may pass: an idle process only yields -/
def Target (s : Sys κ ι) (c : κ) (st : ProcState) : Prop :=
  st = .runnable ∨ (s.proc (s.thisproc c)).idle = false ∧ (st = .sleeping ∨ st = .deepsleeping ∨ st = .zombie)

theorem updateThisState_ok (hi : Inv none s) (ht : Target s c st)
    (hc : st = .runnable → (s.proc (s.thisproc c)).idle = false → Close s (s.thisproc c :: s.rq)) :
    ∃ s', updateThisState s c st = .ok s' ∧ Inv (some c) s' ∧ SameRuntime s s' := by
  have hrun : (s.proc (s.thisproc c)).state = .running := hi.owns.running c nofun
  have hp : s.thisproc c ∉ s.rq := hi.queue.not_mem (by rw [hrun]; decide)
  have hst : st ≠ .running := by
    rcases ht with h | ⟨-, h | h | h⟩ <;> rw [h] <;> decide
  have herase : ¬ ((st = .sleeping ∨ st = .deepsleeping ∨ st = .zombie) ∧ (s.proc (s.thisproc c)).state = .runnable) := by
    rw [hrun]
    exact fun h => ProcState.noConfusion h.2
  by_cases hins : st = .runnable ∧ ¬ (s.proc (s.thisproc c)).idle
  · have hidle : (s.proc (s.thisproc c)).idle = false := by simpa using hins.2
    obtain ⟨l, hl, hperm, hsorted⟩ := hi.queue.insert (hc hins.1 hidle) hp
    refine ⟨{ s with rq := l }.setState (s.thisproc c) st, ?_, ⟨?_, hi.owns.release hst, hi.timers⟩,
      setState_runtime _ _ _⟩
    · simp only [updateThisState, if_pos hins, if_neg herase, insertNode, hl]
      rfl
    · rw [hins.1]
      exact hi.queue.enqueue hidle hp hperm hsorted
  · refine ⟨s.setState (s.thisproc c) st, ?_, ⟨?_, hi.owns.release hst, hi.timers⟩, setState_runtime _ _ _⟩
    · simp only [updateThisState, if_neg hins, if_neg herase]
      rfl
    · refine hi.queue.park hp ?_ fun hidle h => hins ⟨h, by rw [hidle]; exact Bool.false_ne_true⟩
      intro hidle
      rcases ht with h | ⟨h, -⟩
      · exact Or.inr h
      · rw [hidle] at h
        cases h

/-- the next process is runnable, and it is queued or c's own idle process -/
theorem pickNext_spec (hi : Inv (some c) s) :
    (s.proc (pickNext s c)).state = .runnable ∧
      ((s.proc (pickNext s c)).idle = false ∧ pickNext s c ∈ s.rq ∨ pickNext s c = (s.cpu c).idle) := by
  have hidle : (s.proc (s.cpu c).idle).state = .runnable := by
    rcases hi.queue.idle_state _ (hi.queue.idle c) with h | h
    · obtain ⟨a, ha, hac⟩ := hi.owns.held _ h
      exact absurd (congrArg some (hi.owns.home a c hac)) ha
    · exact h
  unfold pickNext
  split_ifs
  · exact ⟨hidle, Or.inr rfl⟩
  · cases hrq : s.rq with
    | nil => exact ⟨hidle, Or.inr rfl⟩
    | cons p l =>
      have hp : p ∈ s.rq := hrq ▸ List.mem_cons_self
      obtain ⟨hflag, hst⟩ := (hi.queue.mem p).1 hp
      exact ⟨hst, Or.inl ⟨hflag, List.mem_cons_self⟩⟩

end Functions

theorem updateThisProc_ok (hi : Inv (some c) s) (hst : (s.proc p).state = .runnable)
    (hp : (s.proc p).idle = false ∧ p ∈ s.rq ∨ p = (s.cpu c).idle) :
    ∃ x s', updateThisProc s c p = .ok s' ∧ s' = { s.setCpu c x with rq := s.rq.erase p } ∧ TimersOk x ∧ x.thisproc = p ∧
      x.idle = (s.cpu c).idle := by
  obtain ⟨x, hx, htimers, hsame⟩ := restartTimer_ok s.now (hi.timers c)
  refine ⟨{ x with thisproc := p }, _, ?_, rfl, ?_, rfl, hsame.idle⟩
  swap
  · exact ⟨htimers.nodup, htimers.data, htimers.sched, htimers.hello, htimers.waiting⟩
  rcases hp with ⟨hidle, hmem⟩ | hidle
  · simp [updateThisProc, hx, Sys.setCpu, hst, hidle, eraseNode, hmem, bind, Except.bind, pure, Except.pure]
  · have hflag : (s.proc p).idle = true := hidle ▸ hi.queue.idle c
    have hout : p ∉ s.rq := fun h => by
      rw [((hi.queue.mem p).1 h).1] at hflag
      cases hflag
    simp [updateThisProc, hx, Sys.setCpu, hst, hflag, List.erase_of_not_mem hout, bind, Except.bind, pure, Except.pure]

theorem sched_ok (hi : Inv none s) (ht : Target s c st)
    (hc : st = .runnable → (s.proc (s.thisproc c)).idle = false → Close s (s.thisproc c :: s.rq)) :
    ∃ s', sched s c st = .ok s' ∧ Inv none s' ∧ SameRuntime s s' := by
  have hrun : (s.proc (s.thisproc c)).state = .running := hi.owns.running c nofun
  by_cases hk : (s.proc (s.thisproc c)).killed = true ∧ st ≠ .zombie
  · refine ⟨s, ?_, hi, fun _ => rfl⟩
    simp [sched, hrun, hk, pure, Except.pure]
  · obtain ⟨s1, h1, hi1, hrt1⟩ := updateThisState_ok hi ht hc
    obtain ⟨hst, hnext⟩ := pickNext_spec hi1
    obtain ⟨x, s2, h2, hs2, htimers, hthis, hidle⟩ := updateThisProc_ok hi1 hst hnext
    have hst2 : (s2.proc (pickNext s1 c)).state = .runnable := by
      rw [hs2]
      exact hst
    refine ⟨s2.setState (pickNext s1 c) .running, ?_, ?_, ?_⟩
    · simp [sched, hrun, hk, h1, h2, hst2, bind, Except.bind, pure, Except.pure]
    · rw [hs2]
      refine ⟨(hi1.queue.setCpu c hidle).dispatch _, ?_, setCpu_timers hi1.timers htimers⟩
      refine hi1.owns.acquire hthis hidle (by rw [hst]; decide) ?_
      intro a ha
      rcases hnext with ⟨hflag, -⟩ | hown
      · rw [ha, hi1.queue.idle a] at hflag
        cases hflag
      · exact hi1.queue.idle_inj c a (hown.symm.trans ha)
    · intro q
      rw [setState_runtime s2, hs2]
      exact hrt1 q

/-- the scheduling timer has left the tree: its counter goes to 0 and the running process, which is not queued, is charged -/
theorem schedHandler_ok (hi : Inv none s) (hn : .sched ∈ (s.cpu c).timer) (b : Bool) :
    let t := (s.cpu c).timers .sched
    let s' := schedHandler
      (s.setCpu c ({ s.cpu c with timer := (s.cpu c).timer.erase .sched }.setTimer .sched { t with triggered := b })) c
    Inv none s' ∧ ∀ p ∈ s.rq, (s'.proc p).runtime = (s.proc p).runtime := by
  intro t s'
  let x : Cpu ι := { s.cpu c with timer := (s.cpu c).timer.erase .sched }.setTimer .sched ⟨b, t.elapse, t.key, t.data - 1⟩
  let p := s.thisproc c
  have hs' : s' = (s.setCpu c x).setProc p { s.proc p with runtime := (s.proc p).runtime + .ofNat timeslice } := by
    simp only [s', x, p, t, schedHandler, setCpu_self, Sys.thisproc]
    simp only [Sys.setCpu, Cpu.setTimer, update_self, update_idem]
  have hx : TimersOk x := by
    apply (hi.timers c).erase .sched
    intro _
    change ((s.cpu c).timers .sched).data - 1 = 0
    rw [(hi.timers c).sched.1 hn]
    rfl
  have hx' : Inv none (s.setCpu c x) := hi.setCpu rfl rfl hx
  have hrun : (s.proc p).state = .running := hi.owns.running c nofun
  have hp : p ∉ s.rq := hi.queue.not_mem (by rw [hrun]; decide)
  rw [hs']
  refine ⟨⟨hx'.queue.modify rfl (Or.inl rfl) fun h => absurd h hp, hx'.owns.setProc Iff.rfl, hx'.timers⟩, ?_⟩
  intro q hq
  rw [setProc_other _ _ (ne_of_mem_of_not_mem hq hp)]
  rfl

/-- the other timer is put back into the tree -/
theorem hello_ok (hi : Inv none s) (hx : x.thisproc = (s.cpu c).thisproc)
    (hidle : x.idle = (s.cpu c).idle) (hxt : TimersOk x) (hn : .hello ∉ x.timer) (hon : x.online = true) :
    ∃ s', hello (s.setCpu c x) c = .ok s' ∧ Inv none s' ∧ SameRuntime s s' := by
  let x1 : Cpu ι := x.setTimer .hello { x.timers .hello with data := (x.timers .hello).data + 1 }
  obtain ⟨y, t, h, hsame, hperm, htimers, htrig, -⟩ := setCpuTimer_ok s.now x1 hn
  have hy : TimersOk y := by
    refine hxt.insert hn hperm ?_ htrig TimerName.noConfusion fun _ => hsame.online.trans hon
    simp only [htimers, x1, Cpu.setTimer, update_idem]
  have hinv : Inv none (s.setCpu c y) := hi.setCpu (hsame.thisproc.trans hx) (hsame.idle.trans hidle) hy
  refine ⟨s.setCpu c y, ?_, hinv, fun _ => rfl⟩
  simp only [hello, setCpu_self]
  change (setCpuTimer s.now x1 .hello).bind _ = _
  rw [h]
  change Except.ok ((s.setCpu c x).setCpu c y) = _
  simp only [Sys.setCpu, update_idem]

theorem timerClockHandler_ok (hi : Inv none s) (c : κ) :
    ∃ s', timerClockHandler s c = .ok s' ∧ Inv none s' ∧ ∀ p ∈ s.rq, (s'.proc p).runtime = (s.proc p).runtime := by
  unfold timerClockHandler
  cases htimer : (s.cpu c).timer with
  | nil => exact ⟨s, rfl, hi, fun _ _ => rfl⟩
  | cons n l =>
    dsimp only
    split_ifs
    · exact ⟨s, rfl, hi, fun _ _ => rfl⟩
    · have hn : n ∈ (s.cpu c).timer := htimer ▸ List.mem_cons_self
      rw [cancelCpuTimer_ok (hi.timers c) hn]
      cases n with
      | sched =>
        obtain ⟨hinv, hrt⟩ := schedHandler_ok hi hn true
        exact ⟨_, rfl, hinv, hrt⟩
      | hello =>
        let t : Timer := { (s.cpu c).timers .hello with triggered := true }
        let x : Cpu ι := { s.cpu c with timer := (s.cpu c).timer.erase .hello }.setTimer .hello t
        have hx : TimersOk x := (hi.timers c).erase .hello TimerName.noConfusion
        have hout : .hello ∉ x.timer := fun h => ((hi.timers c).nodup.mem_erase_iff.1 h).1 rfl
        obtain ⟨s', h, hinv, hrt⟩ := hello_ok hi (c := c) (x := x) rfl rfl hx hout ((hi.timers c).hello hn)
        exact ⟨s', h, hinv, fun p _ => hrt p⟩

theorem setCpuOn_ok (hi : Inv none s) (hoff : (s.cpu c).online = false) :
    ∃ s', setCpuOn s c = .ok s' ∧ Inv none s' ∧ SameRuntime s s' := by
  have hn : .hello ∉ (s.cpu c).timer := by
    intro h
    rw [(hi.timers c).hello h] at hoff
    cases hoff
  let x : Cpu ι := { s.cpu c with online := true }
  let x1 : Cpu ι := x.setTimer .hello { x.timers .hello with elapse := 5000 }
  obtain ⟨y, t, h, hsame, hperm, htimers, htrig, -⟩ := setCpuTimer_ok s.now x1 hn
  have hy : TimersOk y := by
    refine (hi.timers c).insert hn hperm ?_ htrig TimerName.noConfusion fun _ => hsame.online
    simp only [htimers, x1, Cpu.setTimer, update_idem]
    rfl
  refine ⟨s.setCpu c y, ?_, ?_, fun _ => rfl⟩
  · change (setCpuTimer s.now x1 .hello).bind _ = _
    rw [h]
    rfl
  · exact hi.setCpu hsame.thisproc hsame.idle hy

/-! ## Runs -/

/-- **Step.** A step the kernel takes succeeds, keeps the invariant, and leaves the keys of the queue alone. -/
theorem act_ok (hi : Inv none s) {e : Event κ ι} (he : Allowed s e) :
    ∃ s', act s e = .ok s' ∧ Inv none s' ∧ ∀ p ∈ s.rq, (s'.proc p).runtime = (s.proc p).runtime := by
  obtain ⟨hen, hc⟩ := he
  cases e with
  | activate p onalert =>
    obtain ⟨r, s', h, hinv, hrt⟩ := activateProc_ok hi onalert hen hc
    exact ⟨s', by rw [act, h]; rfl, hinv, fun p _ => hrt p⟩
  | yield c =>
    have hc' : (s.proc (s.thisproc c)).idle = false → Close s (s.thisproc c :: s.rq) := by
      intro hidle
      simp only [entering, hidle, Bool.false_eq_true, if_false] at hc
      exact hc
    obtain ⟨s', h, hinv, hrt⟩ := sched_ok hi (c := c) (Or.inl rfl) fun _ => hc'
    exact ⟨s', h, hinv, fun p _ => hrt p⟩
  | sleep c alertable =>
    cases alertable with
    | true =>
      obtain ⟨s', h, hinv, hrt⟩ := sched_ok hi (c := c) (Or.inr ⟨hen, Or.inl rfl⟩) nofun
      exact ⟨s', h, hinv, fun p _ => hrt p⟩
    | false =>
      obtain ⟨s', h, hinv, hrt⟩ := sched_ok hi (c := c) (Or.inr ⟨hen, Or.inr (Or.inl rfl)⟩) nofun
      exact ⟨s', h, hinv, fun p _ => hrt p⟩
  | exit c =>
    obtain ⟨s', h, hinv, hrt⟩ := sched_ok hi (c := c) (Or.inr ⟨hen, Or.inr (Or.inr rfl)⟩) nofun
    exact ⟨s', h, hinv, fun p _ => hrt p⟩
  | clock c => exact timerClockHandler_ok hi c
  | setCpuOn c =>
    obtain ⟨s', h, hinv, hrt⟩ := setCpuOn_ok hi hen
    exact ⟨s', h, hinv, fun p _ => hrt p⟩
  | initProc p =>
    have hst : (s.proc p).state ≠ .running ∧ (s.proc p).state ≠ .runnable := by
      rcases hen with h | h <;> rw [h] <;> decide
    have hidle : (s.proc p).idle = false := by
      by_contra h
      rcases hi.queue.idle_state p (by simpa using h) with h | h
      · exact hst.1 h
      · exact hst.2 h
    have hp : p ∉ s.rq := hi.queue.not_mem hst.2
    refine ⟨_, rfl, ⟨hi.queue.modify hidle.symm (Or.inr ⟨rfl, nofun, hst.2⟩) fun h => absurd h hp, ?_,
      hi.timers⟩, ?_⟩
    · exact hi.owns.setProc (iff_of_false ProcState.noConfusion hst.1)
    · intro q hq
      rw [setProc_other _ _ (ne_of_mem_of_not_mem hq hp)]
  | kill p =>
    refine ⟨_, rfl, ⟨hi.queue.modify rfl (Or.inl rfl) fun _ => rfl, hi.owns.setProc Iff.rfl, hi.timers⟩, ?_⟩
    intro q _
    by_cases h : q = p
    · rw [h, setProc_self]
    · rw [setProc_other _ _ h]
  | panicFlag => exact ⟨_, rfl, hi.congr rfl rfl rfl, fun _ _ => rfl⟩
  | tick now => exact ⟨_, rfl, hi.congr rfl rfl rfl, fun _ _ => rfl⟩

omit [DecidableEq κ] in
theorem boot_inv (hb : Boot s) : Inv none s := by
  have hstate : ∀ p, (s.proc p).idle = true → ∃ c, (s.cpu c).idle = p := by
    intro p hp
    by_contra h
    rw [(hb.unused p fun c hc => h ⟨c, hc⟩).1] at hp
    cases hp
  refine ⟨⟨?_, ?_, ?_, fun c => (hb.idle c).1, hb.idle_inj, hstate, ?_⟩, ⟨?_, ?_, ?_, ?_⟩, ?_⟩
  · rw [hb.rq]
    exact List.nodup_nil
  · intro p
    rw [hb.rq]
    refine iff_of_false List.not_mem_nil ?_
    rintro ⟨hidle, hrbl⟩
    by_cases h : ∃ c, (s.cpu c).idle = p
    · obtain ⟨c, rfl⟩ := h
      rw [(hb.idle c).1] at hidle
      cases hidle
    · rw [(hb.unused p fun c hc => h ⟨c, hc⟩).2] at hrbl
      cases hrbl
  · rw [hb.rq]
    exact List.Pairwise.nil
  · intro p hp
    obtain ⟨c, rfl⟩ := hstate p hp
    exact Or.inl (hb.idle c).2
  · intro c _
    rw [hb.thisproc]
    exact (hb.idle c).2
  · intro p hp
    by_contra h
    have hno : ∀ c, (s.cpu c).idle ≠ p := fun c hc => h ⟨c, nofun, (hb.thisproc c).trans hc⟩
    rw [(hb.unused p hno).2] at hp
    cases hp
  · intro a b _ _ hab
    rw [hb.thisproc, hb.thisproc] at hab
    exact hb.idle_inj a b hab
  · intro a b hab
    rw [hb.thisproc] at hab
    exact hb.idle_inj a b hab
  · intro c
    refine ⟨?_, Or.inl (hb.data c), ?_, ?_, ?_⟩
    · rw [hb.timer]
      exact List.nodup_nil
    · rw [hb.timer, hb.data]
      decide
    · rw [hb.timer]
      exact fun h => absurd h List.not_mem_nil
    · rw [hb.timer]
      exact fun n h => absurd h List.not_mem_nil

theorem run_inv {t : Sys κ ι} {es : List (Event κ ι)} (hb : Boot s) (hm : Meets step Allowed s es)
    (hr : run step s es = some t) : Inv none t := by
  refine run_invariant ?_ (boot_inv hb) hm hr
  intro s e s' hi he hs
  obtain ⟨s'', h, hinv, -⟩ := act_ok hi he
  rw [step, h] at hs
  exact Option.some.inj hs ▸ hinv

/-- **The run queue invariant.** In every state reached from the one `init_sched` leaves, by any steps of any CPUs and
processes:
- a process that is not idle is queued once if it is runnable and not otherwise;
- every running process is the process of exactly one CPU, and the process of every CPU is running;
- a CPU's scheduling timer is in its tree exactly when its counter is 1, and the counter is 0 or 1;
- the next step fails no assertion and leaves the runtimes of the queued processes unchanged. -/
theorem run_queue_invariant {s t : Sys κ ι} {es : List (Event κ ι)} (hb : Boot s) (hm : Meets step Allowed s es)
    (hr : run step s es = some t) :
    (∀ p, (t.proc p).idle = false → t.rq.count p = if (t.proc p).state = .runnable then 1 else 0) ∧
      (∀ p, (t.proc p).state = .running → ∃! c, t.thisproc c = p) ∧
      (∀ c, (t.proc (t.thisproc c)).state = .running) ∧
      (∀ c, (.sched ∈ (t.cpu c).timer ↔ ((t.cpu c).timers .sched).data = 1) ∧
        (((t.cpu c).timers .sched).data = 0 ∨ ((t.cpu c).timers .sched).data = 1)) ∧
      ∀ e, Allowed t e → ∃ u, act t e = .ok u ∧ ∀ p ∈ t.rq, (u.proc p).runtime = (t.proc p).runtime := by
  have hi : Inv none t := run_inv hb hm hr
  refine ⟨?_, ?_, fun c => hi.owns.running c nofun, fun c => ⟨(hi.timers c).sched, (hi.timers c).data⟩, ?_⟩
  · intro p hidle
    rw [hi.queue.nodup.count]
    simp only [hi.queue.mem, hidle, true_and]
  · intro p hp
    obtain ⟨c, -, hc⟩ := hi.owns.held p hp
    exact ⟨c, hc, fun a ha => hi.owns.inj a c nofun nofun (ha.trans hc.symm)⟩
  · intro e he
    obtain ⟨u, hu, -, hrt⟩ := act_ok hi he
    exact ⟨u, hu, hrt⟩

end Invariant

/-- two CPUs after `init_sched`, with the idle processes 0 and 1 -/
def bootTwo : Sys Bool ℕ where
  proc p := ⟨false, decide (p < 2), if p < 2 then .running else .unused, 0⟩
  cpu c := ⟨false, c.toNat, c.toNat, [], fun _ => ⟨false, 0, 0, 0⟩, fun n => if n = .sched then 0 else 1, by decide⟩
  rq := []
  panicFlag := false
  now := 0

/-- processes 10 and 11 take turns, 11 goes to sleep and is woken again -/
def twoTurns : List (Event Bool ℕ) :=
  [.setCpuOn false, .initProc 10, .initProc 11, .activate 10 false, .activate 11 false, .yield false, .tick 5, .clock false,
    .yield false, .yield true, .sleep false true, .activate 11 true]

theorem bootTwo_boot : Boot bootTwo := by
  have hidle : ∀ c : Bool, c.toNat < 2 := by decide
  refine ⟨fun _ => rfl, ?_, ?_, ?_, rfl, fun _ => rfl, fun _ => rfl, fun _ => rfl⟩
  · intro c
    exact ⟨decide_eq_true (hidle c), if_pos (hidle c)⟩
  · change ∀ c c' : Bool, c.toNat = c'.toNat → c = c'
    decide
  · intro p hp
    have hge : ¬ p < 2 := by
      intro hlt
      rcases p with _ | _ | p
      · exact hp false rfl
      · exact hp true rfl
      · omega
    exact ⟨decide_eq_false hge, if_neg hge⟩

theorem run_queue_invariant_two_turns :
    ∃ t, run step bootTwo twoTurns = some t ∧ t.rq = [11] ∧ t.rq.count 11 = 1 ∧ t.rq.count 10 = 0 ∧
      (∃! c, t.thisproc c = 10) ∧ ((t.cpu true).timers .sched).data = 1 ∧ .sched ∈ (t.cpu true).timer ∧
      ∃ u, act t (.exit true) = .ok u ∧ (u.proc 11).runtime = (t.proc 11).runtime := by
  obtain ⟨t, hm, hr, hrq, h10, h11, hthis, hdata⟩ : ∃ t, Meets step Allowed bootTwo twoTurns ∧
      run step bootTwo twoTurns = some t ∧ t.rq = [11] ∧ t.proc 10 = ⟨false, false, .running, 2⟩ ∧
      t.proc 11 = ⟨false, false, .runnable, 0⟩ ∧ t.thisproc true = 10 ∧ ((t.cpu true).timers .sched).data = 1 :=
    guarded_computes (by decide +kernel)
  obtain ⟨hcount, hown, -, htimer, hnext⟩ := run_queue_invariant bootTwo_boot hm hr
  have hexit : Allowed t (.exit true) := by
    refine ⟨?_, ?_⟩
    · change (t.proc (t.thisproc true)).idle = false
      rw [hthis, h10]
    · intro p hp q hq
      have hp' : p = 11 := by simpa [entering, hrq] using hp
      have hq' : q = 11 := by simpa [entering, hrq] using hq
      rw [hp', hq', h11]
      decide
  obtain ⟨u, hu, hrt⟩ := hnext (.exit true) hexit
  refine ⟨t, hr, hrq, ?_, ?_, hown 10 (by rw [h10]), hdata, (htimer true).1.2 hdata, u, hu, hrt 11 (by rw [hrq]; decide)⟩
  · rw [hcount 11 (by rw [h11]), h11, if_pos rfl]
  · rw [hcount 10 (by rw [h10]), h10, if_neg (by decide)]

end OsKernel.Kernel.Sched
