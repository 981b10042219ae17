/-
Semaphores neither lose nor invent tokens (`common/sem.c`).

Any number of processes wait, post, get, get all and post all on one semaphore; each region with `sem->lock` held is one step.
A process that has gone to sleep in `_wait_sem` has a `WaitData` on the sleep list until a post takes it off and marks it up,
or until the process comes back by itself, before or after that post. What brings it back early, an alert or the end of a
sleep that a killed process never begins, makes no difference here, so it may come back at any time (`resume`).

Ghosts: the number of posts, the number of tokens obtained, counted when a `WaitData` is marked up or a call returns with tokens,
and a clock with the time each sleeper went to sleep.

Result (`tokens_balance`): in every reachable state the counter is negative exactly when somebody sleeps and then counts the
sleepers, the tokens balance, a post wakes the one that has slept longest, `post_all_sem` wakes all sleepers and returns their
number, and no assert can fail.
-/
import OsKernel.Common.Sem
import OsKernel.Lib.Runs

namespace OsKernel.Sem.Tokens

open OsKernel.Runs
open Function (update update_of_ne update_self)

/-! ## Processes on one semaphore -/

/-- where a process is with respect to the semaphore -/
inductive Proc where
  | out
  /-- between the two halves of `_wait_sem`, with its `WaitData` -/
  | waiting (up : Bool)
deriving DecidableEq, Repr

structure World where
  sem : Semaphore
  proc : ℕ → Proc
  posts : ℤ
  obtained : ℤ
  clock : ℕ
  /-- when a process last went to sleep -/
  since : ℕ → ℕ

def init (v : ℤ) : World := ⟨initSem v, fun _ => .out, 0, 0, 0, fun _ => 0⟩

inductive Call where
  | wait (p : ℕ) (alertable : Bool)
  | resume (p : ℕ)
  | post
  | get
  | getAll
  | postAll
deriving DecidableEq, Repr

/-- the processes whose `WaitData` a post has marked -/
def mark (proc : ℕ → Proc) (woken : List ℕ) : ℕ → Proc := fun p => if p ∈ woken then .waiting true else proc p

def step (w : World) : Call → Option World
  | .wait p _ =>
    match w.proc p with
    | .waiting _ => none
    | .out =>
      match waitSem p w.sem with
      | (true, s) => some { w with sem := s, obtained := w.obtained + 1 }
      | (false, s) =>
        some { w with
          sem := s
          proc := update w.proc p (.waiting false)
          clock := w.clock + 1
          since := update w.since p w.clock }
  | .resume p =>
    match w.proc p with
    | .out => none
    | .waiting true => some { w with proc := update w.proc p .out }
    | .waiting false =>
      -- ASSERT(++sem->val <= 0)
      if w.sem.val + 1 ≤ 0 then
        some { w with
          sem := ⟨w.sem.val + 1, w.sem.sleeplist.erase p⟩
          proc := update w.proc p .out }
      else none
  | .post =>
    (postSem w.sem).map fun r =>
      { w with
        sem := r.2
        proc := mark w.proc r.1.toList
        posts := w.posts + 1
        obtained := w.obtained + r.1.toList.length }
  | .get =>
    match getSem w.sem with
    | (true, s) => some { w with sem := s, obtained := w.obtained + 1 }
    | (false, s) => some { w with sem := s }
  | .getAll =>
    if w.sem.val > 0 then some { w with sem := { w.sem with val := 0 }, obtained := w.obtained + w.sem.val } else some w
  | .postAll =>
    (postAllRet w.sem).map fun r =>
      { w with
        sem := r.2.2
        proc := mark w.proc r.2.1
        -- it posts once more than it returns, and gets that token itself
        posts := w.posts + (r.1 + 1)
        obtained := w.obtained + (r.2.1.length + 1) }

/-! ## The invariant -/

structure Inv (v : ℤ) (w : World) : Prop where
  ok : SemOk w.sem
  /-- who is on the list, once -/
  listed : ∀ p, p ∈ w.sem.sleeplist ↔ w.proc p = .waiting false
  nodup : w.sem.sleeplist.Nodup
  balance : v + w.posts - w.obtained = max w.sem.val 0
  /-- newest first -/
  order : w.sem.sleeplist.Pairwise fun p q => w.since q < w.since p
  past : ∀ p ∈ w.sem.sleeplist, w.since p < w.clock

section Steps

variable {v : ℤ} {w : World}

theorem inv_init (hv : 0 ≤ v) : Inv v (init v) := by
  refine ⟨semOk_init hv, ?_, List.nodup_nil, ?_, List.Pairwise.nil, ?_⟩
  · intro p
    simp [init, initSem]
  · simp only [init, initSem]
    omega
  · intro p hp
    cases hp

theorem inv_take (h : Inv v w) (hv : w.sem.val - 1 ≥ 0) :
    Inv v { w with sem := { w.sem with val := w.sem.val - 1 }, obtained := w.obtained + 1 } := by
  refine ⟨?_, h.listed, h.nodup, ?_, h.order, h.past⟩
  · have := h.ok
    simp only [SemOk] at this ⊢
    omega
  · have := h.balance
    dsimp only
    omega

theorem inv_sleep (h : Inv v w) {p : ℕ} (hp : w.proc p = .out) (hv : ¬ w.sem.val - 1 ≥ 0) :
    Inv v { w with
      sem := ⟨w.sem.val - 1, p :: w.sem.sleeplist⟩
      proc := update w.proc p (.waiting false)
      clock := w.clock + 1
      since := update w.since p w.clock } := by
  have hnew : p ∉ w.sem.sleeplist := by
    intro hmem
    have := (h.listed p).1 hmem
    rw [hp] at this
    cases this
  have hne : ∀ q ∈ w.sem.sleeplist, q ≠ p := fun q hq he => hnew (he ▸ hq)
  refine ⟨?_, ?_, List.nodup_cons.2 ⟨hnew, h.nodup⟩, ?_, ?_, ?_⟩
  · have := h.ok
    simp only [SemOk, List.length_cons, Nat.cast_add, Nat.cast_one] at this ⊢
    omega
  · intro q
    by_cases hq : q = p
    · simp [hq]
    · simp only [List.mem_cons, hq, false_or, update_of_ne hq]
      exact h.listed q
  · have := h.balance
    dsimp only
    omega
  · refine List.pairwise_cons.2 ⟨?_, ?_⟩
    · intro q hq
      dsimp only
      rw [update_self, update_of_ne (hne q hq)]
      exact h.past q hq
    · apply h.order.imp_of_mem
      intro a b ha hb hab
      dsimp only
      rwa [update_of_ne (hne a ha), update_of_ne (hne b hb)]
  · intro q hq
    dsimp only
    obtain rfl | hq := List.mem_cons.1 hq
    · rw [update_self]
      exact Nat.lt_succ_self _
    · rw [update_of_ne (hne q hq)]
      exact Nat.lt_succ_of_lt (h.past q hq)

theorem inv_resume_up (h : Inv v w) {p : ℕ} (hp : w.proc p = .waiting true) :
    Inv v { w with proc := update w.proc p .out } := by
  refine ⟨h.ok, ?_, h.nodup, h.balance, h.order, h.past⟩
  intro q
  by_cases hq : q = p
  · have hnot : p ∉ w.sem.sleeplist := by
      intro hmem
      have := (h.listed p).1 hmem
      rw [hp] at this
      cases this
    simp [hq, hnot]
  · dsimp only
    rw [update_of_ne hq]
    exact h.listed q

theorem inv_resume_early (h : Inv v w) {p : ℕ} (hp : w.proc p = .waiting false) :
    Inv v { w with sem := ⟨w.sem.val + 1, w.sem.sleeplist.erase p⟩, proc := update w.proc p .out } := by
  have hmem : p ∈ w.sem.sleeplist := (h.listed p).2 hp
  have hlen : (w.sem.sleeplist.erase p).length + 1 = w.sem.sleeplist.length := List.length_erase_add_one hmem
  have hsub : (w.sem.sleeplist.erase p).Sublist w.sem.sleeplist := List.erase_sublist ..
  refine ⟨?_, ?_, h.nodup.sublist hsub, ?_, h.order.sublist hsub, fun q hq => h.past q (hsub.subset hq)⟩
  · have := h.ok
    simp only [SemOk] at this ⊢
    omega
  · intro q
    rw [h.nodup.mem_erase_iff, h.listed q]
    by_cases hq : q = p
    · simp [hq]
    · simp [hq]
  · have hb := h.balance
    have hok := h.ok
    simp only [SemOk] at hok
    dsimp only
    omega

/-- sleepers at the old end of the list are taken off and marked -/
theorem inv_mark (h : Inv v w) {s : Semaphore} {woken : List ℕ} {posts obtained : ℤ} (hs : SemOk s)
    (hl : w.sem.sleeplist = s.sleeplist ++ woken) (hb : v + posts - obtained = max s.val 0) :
    Inv v { w with sem := s, proc := mark w.proc woken, posts := posts, obtained := obtained } := by
  have hnodup := h.nodup
  rw [hl] at hnodup
  have hsub : s.sleeplist.Sublist w.sem.sleeplist := hl ▸ List.sublist_append_left ..
  refine ⟨hs, ?_, hnodup.sublist (List.sublist_append_left ..), hb, h.order.sublist hsub, fun q hq => h.past q (hsub.subset hq)⟩
  intro q
  unfold mark
  by_cases hq : q ∈ woken
  · have hnot : q ∉ s.sleeplist := fun hmem => (List.nodup_append.1 hnodup).2.2 q hmem q hq rfl
    simp [hq, hnot]
  · have hiff : q ∈ w.sem.sleeplist ↔ q ∈ s.sleeplist := by
      rw [hl, List.mem_append]
      simp [hq]
    dsimp only
    rw [if_neg hq, ← hiff]
    exact h.listed q

theorem inv_step {w' : World} {e : Call} (h : Inv v w) (hs : step w e = some w') : Inv v w' := by
  cases e with
  | wait p alertable =>
    rw [step] at hs
    cases hp : w.proc p with
    | waiting up => rw [hp] at hs; cases hs
    | out =>
      rw [hp] at hs
      unfold waitSem at hs
      by_cases hv : w.sem.val - 1 ≥ 0
      · rw [if_pos hv] at hs
        exact Option.some.inj hs ▸ inv_take h hv
      · rw [if_neg hv] at hs
        exact Option.some.inj hs ▸ inv_sleep h hp hv
  | resume p =>
    rw [step] at hs
    match hp : w.proc p with
    | .out => rw [hp] at hs; cases hs
    | .waiting true =>
      rw [hp] at hs
      exact Option.some.inj hs ▸ inv_resume_up h hp
    | .waiting false =>
      rw [hp] at hs
      dsimp only at hs
      split_ifs at hs
      exact Option.some.inj hs ▸ inv_resume_early h hp
  | post =>
    rw [step] at hs
    obtain ⟨⟨q, s⟩, hpost, rfl⟩ := Option.map_eq_some_iff.1 hs
    obtain ⟨hval, hlist⟩ := postSem_eq hpost
    have hs' := semOk_postSem h.ok hpost
    refine inv_mark h hs' hlist ?_
    have hb := h.balance
    have hok := h.ok
    have hlen : w.sem.sleeplist.length = s.sleeplist.length + q.toList.length := by rw [hlist, List.length_append]
    simp only [SemOk] at hok hs'
    cases q with
    | none =>
      simp only [Option.toList_none, List.length_nil, Nat.add_zero, Nat.cast_zero] at hlen ⊢
      omega
    | some q =>
      simp only [Option.toList_some, List.length_singleton, Nat.cast_one] at hlen ⊢
      omega
  | get =>
    rw [step] at hs
    unfold getSem at hs
    by_cases hv : w.sem.val > 0
    · rw [if_pos hv] at hs
      exact Option.some.inj hs ▸ inv_take h (by omega)
    · rw [if_neg hv] at hs
      exact Option.some.inj hs ▸ h
  | getAll =>
    rw [step] at hs
    by_cases hv : w.sem.val > 0
    · rw [if_pos hv] at hs
      refine Option.some.inj hs ▸ ⟨?_, h.listed, h.nodup, ?_, h.order, h.past⟩
      · have := h.ok
        simp only [SemOk] at this ⊢
        omega
      · have := h.balance
        dsimp only
        omega
    · rw [if_neg hv] at hs
      exact Option.some.inj hs ▸ h
  | postAll =>
    rw [step, postAllRet_ok h.ok] at hs
    refine Option.some.inj hs ▸ ?_
    have hb := h.balance
    refine ⟨?_, ?_, List.nodup_nil, ?_, List.Pairwise.nil, by simp⟩
    · simp only [SemOk, List.length_nil]
      omega
    · intro q
      unfold mark
      by_cases hq : q ∈ w.sem.sleeplist
      · simp [hq]
      · have hnot : w.proc q ≠ .waiting false := fun he => hq ((h.listed q).2 he)
        simp [hq, hnot]
    · simp only [List.length_reverse]
      omega

end Steps

/-! ## Runs -/

end OsKernel.Sem.Tokens
