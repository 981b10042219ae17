/-
Counting semaphores (`common/sem.c`).

A semaphore is a counter and the list of the processes asleep on it. `_wait_sem` inserts a sleeper right after the list
head and `_post_sem` wakes the one right before it, so the list runs from the newest sleeper to the oldest and wake-ups
are first come, first served. Each function below is the part of the source function that runs with `sem->lock` held.

`SemOk` is the invariant the asserts of the source rely on: the counter is negative exactly when somebody sleeps, and
then it counts the sleepers. The main result is `postAllSem_ok`: the do-while loop of `post_all_sem` terminates, wakes
every sleeper and leaves the counter at 0 (or where it was, when nobody slept).
-/
import Mathlib.Tactic

namespace OsKernel.Sem

/-- `Semaphore`: `val` and the pids on `sleeplist`, newest first -/
structure Semaphore where
  val : ℤ
  sleeplist : List ℕ
deriving DecidableEq, Repr

/-- `init_sem` -/
def initSem (v : ℤ) : Semaphore := ⟨v, []⟩

/-- `init_sleeplock` -/
def initSleeplock : Semaphore := initSem 1

/-- `_get_sem` -/
def getSem (s : Semaphore) : Bool × Semaphore :=
  if s.val > 0 then (true, { s with val := s.val - 1 }) else (false, s)

/-- the first half of `_wait_sem` by process p: true when a token was there, false when p has gone to sleep -/
def waitSem (p : ℕ) (s : Semaphore) : Bool × Semaphore :=
  if s.val - 1 ≥ 0 then (true, { s with val := s.val - 1 })
  else (false, { val := s.val - 1, sleeplist := p :: s.sleeplist })

/-- `_post_sem`: the process it wakes, if any; none overall when the assert on the sleep list fails -/
def postSem (s : Semaphore) : Option (Option ℕ × Semaphore) :=
  if s.val + 1 ≤ 0 then
    match s.sleeplist.getLast? with
    | none => none
    | some p => some (some p, { val := s.val + 1, sleeplist := s.sleeplist.dropLast })
  else some (none, { s with val := s.val + 1 })

/-- the do-while loop of `post_all_sem` with ret as in the source; `fuel` bounds its rounds and the result lists the processes
woken -/
def postAllLoop : ℕ → ℤ → Semaphore → Option (ℤ × List ℕ × Semaphore)
  | 0, _, _ => none
  | fuel + 1, ret, s =>
    match postSem s with
    | none => none
    | some (w, s') =>
      match getSem s' with
      | (true, s'') => some (ret + 1, w.toList, s'')
      | (false, s'') => (postAllLoop fuel (ret + 1) s'').map fun r => (r.1, w.toList ++ r.2.1, r.2.2)

/-- what `post_all_sem` returns, whom it wakes, and the semaphore; one round more than there are sleepers -/
def postAllRet (s : Semaphore) : Option (ℤ × List ℕ × Semaphore) := postAllLoop (s.sleeplist.length + 1) (-1) s

/-- `post_all_sem` where its return value is not used -/
def postAllSem (s : Semaphore) : Option (List ℕ × Semaphore) := (postAllRet s).map Prod.snd

/-- the counter is negative exactly when somebody sleeps, and then it counts the sleepers -/
def SemOk (s : Semaphore) : Prop := (s.sleeplist.length : ℤ) = max (-s.val) 0

theorem semOk_init {v : ℤ} (h : 0 ≤ v) : SemOk (initSem v) := by
  simp only [SemOk, initSem, List.length_nil]
  omega

theorem semOk_getSem {s : Semaphore} (h : SemOk s) : SemOk (getSem s).2 := by
  unfold getSem
  split_ifs with hv
  · simp only [SemOk] at h ⊢; omega
  · exact h

theorem semOk_waitSem {s : Semaphore} (p : ℕ) (h : SemOk s) : SemOk (waitSem p s).2 := by
  unfold waitSem
  split_ifs with hv
  · simp only [SemOk] at h ⊢; omega
  · simp only [SemOk, List.length_cons, Nat.cast_add, Nat.cast_one] at h ⊢; omega

/-- with sleepers, a post wakes the oldest and the assert holds -/
theorem postSem_wake {s : Semaphore} (h : SemOk s) {l : List ℕ} {p : ℕ} (hl : s.sleeplist = l ++ [p]) :
    postSem s = some (some p, { val := s.val + 1, sleeplist := l }) := by
  have hv : s.val + 1 ≤ 0 := by
    have : s.sleeplist.length = l.length + 1 := by simp [hl]
    simp only [SemOk] at h; omega
  simp [postSem, hv, hl]

/-- without sleepers, a post adds a token -/
theorem postSem_token {s : Semaphore} (h : SemOk s) (hl : s.sleeplist = []) :
    postSem s = some (none, { s with val := s.val + 1 }) := by
  have hv : ¬ s.val + 1 ≤ 0 := by
    simp only [SemOk, hl, List.length_nil] at h; omega
  simp [postSem, hv]

/-- a post adds one to the counter and takes the process it wakes off the old end of the list -/
theorem postSem_eq {s s' : Semaphore} {w : Option ℕ} (h : postSem s = some (w, s')) :
    s'.val = s.val + 1 ∧ s.sleeplist = s'.sleeplist ++ w.toList := by
  unfold postSem at h
  split_ifs at h with hv
  · cases hl : s.sleeplist.getLast? with
    | none => simp [hl] at h
    | some p =>
      simp only [hl] at h
      cases h
      exact ⟨rfl, (List.dropLast_append_getLast? p hl).symm⟩
  · cases h
    simp

theorem semOk_postSem {s s' : Semaphore} {w : Option ℕ} (h : SemOk s) (hp : postSem s = some (w, s')) : SemOk s' := by
  rcases List.eq_nil_or_concat s.sleeplist with hl | ⟨l, p, hl⟩
  · rw [postSem_token h hl] at hp
    simp only [Option.some.injEq, Prod.mk.injEq] at hp
    rw [← hp.2]
    simp only [SemOk, hl, List.length_nil] at h ⊢; omega
  · rw [List.concat_eq_append] at hl
    rw [postSem_wake h hl] at hp
    simp only [Option.some.injEq, Prod.mk.injEq] at hp
    rw [← hp.2]
    have : s.sleeplist.length = l.length + 1 := by simp [hl]
    simp only [SemOk] at h ⊢; omega

theorem postAllLoop_ok (l : List ℕ) (ret : ℤ) (s : Semaphore) (h : SemOk s) (hl : s.sleeplist = l) :
    postAllLoop (l.length + 1) ret s = some (ret + l.length + 1, l.reverse, { val := max s.val 0, sleeplist := [] }) := by
  -- the loop peels the sleep list from its old end, so the induction is on the list read backwards
  induction l using List.reverseRecOn generalizing s ret with
  | nil =>
    have hv : 0 ≤ s.val := by simp only [SemOk, hl, List.length_nil] at h; omega
    simp only [List.length_nil, postAllLoop, postSem_token h hl, getSem]
    rw [if_pos (by omega)]
    simp [hl, max_eq_left hv]
  | append_singleton l p ih =>
    have hlen : s.sleeplist.length = l.length + 1 := by simp [hl]
    have hv : s.val = -(l.length + 1 : ℤ) := by
      have := h; simp only [SemOk, hlen, Nat.cast_add, Nat.cast_one] at this; omega
    have hs' : SemOk { val := s.val + 1, sleeplist := l } := by simp only [SemOk]; omega
    have hrec := ih (ret + 1) { val := s.val + 1, sleeplist := l } hs' rfl
    have hval : max (s.val + 1) 0 = max s.val 0 := by omega
    rw [List.length_append, List.length_singleton, postAllLoop, postSem_wake h hl]
    simp only [getSem]
    rw [if_neg (by omega)]
    simp only [hrec, Option.map_some, Option.toList_some, List.reverse_append, List.reverse_singleton,
      List.singleton_append, hval, Option.some.injEq, Prod.mk.injEq, and_true]
    omega

/-- it terminates, wakes the sleepers from the oldest to the newest, leaves no debt and returns their number -/
theorem postAllRet_ok {s : Semaphore} (h : SemOk s) :
    postAllRet s = some ((s.sleeplist.length : ℤ), s.sleeplist.reverse, { val := max s.val 0, sleeplist := [] }) := by
  rw [postAllRet, postAllLoop_ok s.sleeplist (-1) s h rfl]
  congr 2
  omega

/-- **post_all_sem wakes everybody**: it terminates, wakes exactly the sleepers and leaves no debt. -/
theorem postAllSem_ok {s : Semaphore} (h : SemOk s) :
    postAllSem s = some (s.sleeplist.reverse, { val := max s.val 0, sleeplist := [] }) := by
  rw [postAllSem, postAllRet_ok h, Option.map_some]

end OsKernel.Sem
