/-
`kill` (`dfs` and `kill` in `kernel/proc.c`, `_activate_proc` in `kernel/sched.c`).

The process tree is `ProcTree`, where processes sleep only in `wait`. Here they also sleep on the other semaphores of the kernel
(`Place`): a process asleep there is, in the tree, a process that is not scheduled, and `Sys.state` is its real state. The places
differ in two ways: whether an alert wakes the sleeper, and whether its caller goes on or panics when `_wait_sem` returns false.

`kill` holds `plock` from the search to its end, so it is one step; it waits for `rqlock` in `is_unused`, so a process on its way
out of `exit` is a ZOMBIE by the time `kill` looks at it. A process that has been killed is not put to sleep by `sched` any more:
its `_wait_sem` returns at once, with false if there was no token.

Result (`kill_safe`): in every run in which `kill` is not called for a ZOMBIE or for a process asleep in `wait` or in the disk
driver, and a process that has been killed calls `_wait_sem` only where there is a token or the caller goes on without one, `kill`
does what it should for every number, and no step panics. The exceptions are real (`kill_panics`): `_activate_proc` panics on a
ZOMBIE, `wait` when `wait_sem` returns false, and `virtio_blk_rw` asserts that it does not.
-/
import OsKernel.Kernel.WaitExit
import OsKernel.Lib.Fallible

/-! ## Who acts in the tree -/

namespace OsKernel.Kernel.ProcTree

open OsKernel.Runs OsKernel.Sem
open Function (forall_update_iff update update_eq_self update_eq_self_iff update_idem update_of_ne update_self)

/-- the process that makes a step -/
def Event.actor : Event → ℕ
  | .create q _ | .setParentToThis q _ | .start q _ | .fork q _ | .link q | .activate q | .wait q | .waitSem q | .resume q
  | .reap q | .exit q _ | .zombie q | .dispatch q | .yield q => q

/-- p has been started and has not left -/
def Sys.Alive (s : Sys) (p : ℕ) : Prop := p ∈ s.live ∧ s.phase p = .alive

section Alive

variable {s s' : Sys} {p q : ℕ}

theorem Sys.Alive.goto (h : s.Alive p) (hpq : p ≠ q) (x : Pc) : (s.goto q x).Alive p := by
  refine ⟨h.1, ?_⟩
  simp only [Sys.phase, Sys.goto, update_of_ne hpq]
  exact h.2

theorem Sys.Alive.congr (h : s.Alive p) (hlive : s'.live = s.live) (hpc : s'.pc p = s.pc p) : s'.Alive p := by
  refine ⟨hlive ▸ h.1, ?_⟩
  simp only [Sys.phase, hpc]
  exact h.2

theorem createProc_alive (h : s.Alive p) {x : ℕ} (hs : createProc s q x = some s') : s'.Alive p := by
  unfold createProc at hs
  split_ifs at hs with hnew
  obtain rfl := Option.some.inj hs
  have hpx : p ≠ x := by
    rintro rfl
    exact hnew (Or.inl h.1)
  refine ⟨List.mem_cons_of_mem x h.1, ?_⟩
  simp only [Sys.phase, update_of_ne hpx]
  exact h.2

/-- a post may wake p, which is alive then as well -/
theorem postChildexit_alive {r : ℕ} (hs : postChildexit s r = some s') (h : s.Alive p) : s'.Alive p := by
  unfold postChildexit at hs
  split at hs
  · cases hs
  · obtain rfl := Option.some.inj hs
    exact h
  · rename_i w sem _
    obtain ⟨st, -, rfl⟩ := Option.map_eq_some_iff.1 hs
    refine ⟨h.1, ?_⟩
    by_cases hpw : p = w
    · simp only [Sys.phase, hpw, update_self]
      rfl
    · simp only [Sys.phase, update_of_ne hpw]
      exact h.2

theorem giveChildren_alive {this : ℕ} {l : List ℕ} (hs : giveChildren this l s = some s') (h : s.Alive p) : s'.Alive p := by
  induction l generalizing s with
  | nil =>
    obtain rfl := Option.some.inj hs
    exact h
  | cons c l ih =>
    simp only [giveChildren] at hs
    split_ifs at hs
    · split at hs
      · cases hs
      · rename_i s1 hpost
        exact ih hs (postChildexit_alive hpost ⟨h.1, h.2⟩)
    · exact ih hs ⟨h.1, h.2⟩

theorem exitProc_alive (h : s.Alive p) (hpq : p ≠ q) {code : ℤ} (hs : exitProc s q code = some s') : s'.Alive p := by
  obtain ⟨s1, h1, hs⟩ := Option.bind_eq_some_iff.1 hs
  obtain ⟨r, -, hs⟩ := Option.bind_eq_some_iff.1 hs
  obtain ⟨s2, h2, hs⟩ := Option.bind_eq_some_iff.1 hs
  obtain rfl := Option.some.inj hs
  have halive := postChildexit_alive h2 (giveChildren_alive h1 ⟨h.1, h.2⟩)
  exact halive.congr rfl (update_of_ne hpq ..)

theorem Inv.running_alive (hi : Inv [] none s) (hp : p ∈ s.live) (hst : s.state p = .running) (hlock : s.schedLock = none) :
    s.Alive p := by
  refine ⟨hp, ?_⟩
  have hfits := hi.places.fits p hp
  have hleaving : s.pc p ≠ .leaving := by
    intro hl
    rw [hi.places.leaving p hp hl] at hlock
    cases hlock
  rw [hst] at hfits
  rw [Sys.phase]
  generalize s.pc p = x at hfits hleaving
  cases x with
  | leaving => exact absurd rfl hleaving
  | unborn | dead => cases hfits
  | _ => rfl

/-- what is alive is no ZOMBIE -/
theorem Inv.alive_not_zombie (hi : Inv [] none s) (h : s.Alive p) : s.state p ≠ .zombie := by
  intro hz
  have hfits := hi.places.fits p h.1
  rw [hz] at hfits
  have halive := h.2
  rw [Sys.phase] at halive
  generalize s.pc p = x at hfits halive
  cases x with
  | asleep up => cases up <;> simp [Fits] at hfits
  | _ => simp_all [Fits, Pc.phase]

/-- **Frame.** A process stays alive whatever the others do. -/
theorem step_alive {e : Event} (hi : Inv [] none s) (h : s.Alive p) (hs : step s e = some s')
    (hactor : p = e.actor → (∃ q, e = .dispatch q) ∨ ∃ q, e = .yield q) : s'.Alive p := by
  have hne : (∀ q, e ≠ .dispatch q ∧ e ≠ .yield q) → p ≠ e.actor := by
    intro hno he
    rcases hactor he with ⟨q, rfl⟩ | ⟨q, rfl⟩
    · exact (hno q).1 rfl
    · exact (hno q).2 rfl
  cases e with
  | create q x =>
    simp only [step] at hs
    split_ifs at hs
    exact createProc_alive h hs
  | setParentToThis q x =>
    obtain ⟨-, rfl⟩ := guard_enabled hs
    exact h.congr rfl rfl
  | start q x =>
    obtain ⟨-, rfl⟩ := guard_enabled hs
    refine Sys.Alive.goto ?_ (hne (by simp)) _
    unfold startProc
    split_ifs
    · exact h.congr rfl rfl
    · exact h
  | fork q x =>
    simp only [step] at hs
    split_ifs at hs
    obtain ⟨s1, hs1, rfl⟩ := Option.map_eq_some_iff.1 hs
    exact (createProc_alive h hs1).goto (hne (by simp)) _
  | link q =>
    simp only [step] at hs
    split at hs
    · obtain ⟨-, rfl⟩ := guard_enabled hs
      exact Sys.Alive.goto (s := linkTo s q _) ⟨h.1, h.2⟩ (hne (by simp)) _
    · cases hs
  | activate q =>
    simp only [step] at hs
    split at hs
    · rename_i c _
      have hpq : p ≠ q := hne (by simp)
      split_ifs at hs
      obtain ⟨st, -, rfl⟩ := Option.map_eq_some_iff.1 hs
      refine ⟨h.1, ?_⟩
      by_cases hpc : p = c
      · simp only [Sys.phase, hpc, update_self]
        rfl
      · simp only [Sys.phase, update_of_ne hpc, update_of_ne hpq]
        exact h.2
    · cases hs
  | wait q =>
    simp only [step] at hs
    split_ifs at hs
    · obtain rfl := Option.some.inj hs
      exact h
    · obtain rfl := Option.some.inj hs
      exact h.goto (hne (by simp)) _
  | waitSem q =>
    have hgoto : ∀ x, (s.goto q x).Alive p := h.goto (hne (by simp))
    simp only [step] at hs
    split at hs
    · split at hs
      · obtain rfl := Option.some.inj hs
        exact ⟨(hgoto .reaping).1, (hgoto .reaping).2⟩
      · split at hs
        · obtain rfl := Option.some.inj hs
          exact ⟨(hgoto (.asleep false)).1, (hgoto (.asleep false)).2⟩
        · cases hs
    · cases hs
  | resume q =>
    obtain ⟨-, rfl⟩ := guard_enabled hs
    exact h.goto (hne (by simp)) _
  | reap q =>
    obtain ⟨hg, rfl⟩ := guard_enabled hs
    unfold reapChild
    split
    · rename_i c hfind
      have hz : s.state c = .zombie := by simpa using List.find?_some hfind
      -- what is freed is dead
      have hpc : p ≠ c := by
        rintro rfl
        exact hi.alive_not_zombie h hz
      refine ⟨(List.mem_erase_of_ne hpc).2 h.1, ?_⟩
      exact (h.goto (hne (by simp)) .user).2
    · exact ⟨h.1, (h.goto (hne (by simp)) .user).2⟩
  | exit q code =>
    simp only [step] at hs
    split_ifs at hs
    exact exitProc_alive h (hne (by simp)) hs
  | zombie q =>
    obtain ⟨-, rfl⟩ := guard_enabled hs
    exact (h.goto (hne (by simp)) _).congr rfl rfl
  | dispatch q =>
    obtain ⟨-, rfl⟩ := guard_enabled hs
    exact h.congr rfl rfl
  | yield q =>
    obtain ⟨-, rfl⟩ := guard_enabled hs
    exact h.congr rfl rfl

end Alive

end OsKernel.Kernel.ProcTree

namespace OsKernel.Kernel.Kill

open OsKernel.Fallible OsKernel.Forest OsKernel.Runs OsKernel.Sem
open OsKernel.Kernel.Sched (ProcState)
open OsKernel.Kernel.ProcTree (rootProc Pc)
open Function (forall_update_iff update update_eq_self update_eq_self_iff update_idem update_of_ne update_self)

/-! ## Model -/

/-- the semaphores of the kernel besides `childexit`, by the functions that wait on them -/
inductive Place where
  /-- `wait_sem(&cons.sem)` in `console_read` -/
  | console
  /-- `ASSERT(_wait_sem(&b->sem, true))` in `virtio_blk_rw` -/
  | disk (b : ℕ)
  /-- `_wait_sem(.., FALSE)` in `pipe_read` and `pipe_write` -/
  | pipe (k : ℕ)
  /-- `unalertable_wait_sem` on the lock of an inode or of a cached block -/
  | lock (k : ℕ)
  /-- `_wait_sem(.., FALSE)` on `log.begin` or `log.end` -/
  | log (ending : Bool)
deriving DecidableEq

def Place.alertable : Place → Bool
  | .console | .disk _ => true
  | .pipe _ | .lock _ | .log _ => false

/-- the caller goes on when `_wait_sem` returns false; the other callers panic -/
def Place.tolerant : Place → Bool
  | .console | .pipe _ => true
  | .disk _ | .lock _ | .log _ => false

/-- a process in `_wait_sem`, past the point where there was no token -/
structure Sleeper where
  place : Place
  /-- `wait->up` -/
  up : Bool
  /-- it has been made RUNNABLE again -/
  awake : Bool
deriving DecidableEq

structure Sys where
  tree : ProcTree.Sys
  killed : ℕ → Bool
  sem : Place → Semaphore
  sleep : ℕ → Option Sleeper

/-- `p->state` -/
def Sys.state (s : Sys) (p : ℕ) : ProcState :=
  match s.sleep p with
  | some x => if x.awake then s.tree.state p else if x.place.alertable then .sleeping else .deepsleeping
  | none => s.tree.state p

inductive Stop where
  /-- the step waits, or is not possible here -/
  | blocked
  | panic
  /-- the search does not end -/
  | diverges
deriving DecidableEq

/-- `p->state = RUNNABLE` in `_activate_proc` -/
def wake (s : Sys) (p : ℕ) : Sys :=
  match s.sleep p with
  | some x => { s with sleep := update s.sleep p (some { x with awake := true }) }
  | none => { s with tree := { s.tree with state := update s.tree.state p .runnable } }

/-- `_activate_proc` -/
def activateProc (s : Sys) (p : ℕ) (onalert : Bool) : Except Stop Sys :=
  match s.state p with
  | .running | .runnable => .ok s
  | .sleeping | .unused => .ok (wake s p)
  | .deepsleeping => if onalert then .ok s else .ok (wake s p)
  | .zombie => .error .panic

/-- `dfs`; no path is longer than the number of processes ever created -/
def dfs (t : ProcTree.Sys) (p : ℕ) (pid : ℤ) : Option (Option ℕ) :=
  search t.children (fun q => decide ((t.pid q : ℤ) = pid)) t.next p

def kill (s : Sys) (pid : ℤ) : Except Stop (ℤ × Sys) :=
  match dfs s.tree rootProc pid with
  | none => .error .diverges
  | some none => .ok (-1, s)
  | some (some p) =>
    if s.state p = .unused then .ok (-1, s)
    else (activateProc { s with killed := update s.killed p true } p true).map fun s => (0, s)

/-- a step of the tree; a new process has not been killed and is in no `_wait_sem` -/
def treeStep (s : Sys) (e : ProcTree.Event) : Except Stop Sys :=
  match ProcTree.step s.tree e with
  | none => .error .blocked
  | some t =>
    match e with
    | .create _ p | .fork _ p =>
      .ok { s with tree := t, killed := update s.killed p false, sleep := update s.sleep p none }
    | _ => .ok { s with tree := t }

inductive Event where
  | tree (e : ProcTree.Event)
  /-- q calls `_wait_sem` -/
  | sleep (q : ℕ) (x : Place)
  /-- q comes back from `sched` in `_wait_sem` -/
  | awake (q : ℕ)
  | post (x : Place)
  /-- `_get_sem`, as at the end of `post_all_sem` -/
  | get (x : Place)
  | kill (pid : ℤ)

/-- `_wait_sem` finds that nobody has posted for it -/
def giveUp (s : Sys) (q : ℕ) (x : Place) : Except Stop Sys :=
  let sem := s.sem x
  -- ASSERT(++sem->val <= 0)
  if sem.val + 1 ≤ 0 ∧ x.tolerant then
    .ok { s with
      sem := update s.sem x ⟨sem.val + 1, sem.sleeplist.erase q⟩
      sleep := update s.sleep q none }
  else .error .panic

def fire (s : Sys) : Event → Except Stop Sys
  | .tree (.dispatch q) => if s.state q = .runnable then treeStep s (.dispatch q) else .error .blocked
  -- `sched` returns at once for a process that has been killed
  | .tree (.yield q) => if s.killed q then .ok s else treeStep s (.yield q)
  | .tree e =>
    if s.sleep e.actor ≠ none then .error .blocked
    else
      match e with
      | .waitSem q =>
        if s.tree.At q .waiting ∧ s.killed q ∧ (s.tree.childexit q).val ≤ 0 then .error .panic else treeStep s (.waitSem q)
      | .resume q =>
        -- `wait_sem` returns false to `wait`
        if s.tree.At q (.asleep false) then .error .panic else treeStep s (.resume q)
      | e => treeStep s e
  | .sleep q x =>
    if s.sleep q = none ∧ s.tree.pc q ≠ .asleep true then
      match ProcTree.step s.tree (.yield q) with
      | none => .error .blocked
      | some t =>
        match waitSem q (s.sem x) with
        | (true, sem) => .ok { s with sem := update s.sem x sem }
        | (false, sem) =>
          let s := { s with sem := update s.sem x sem }
          if s.killed q then giveUp s q x
          else .ok { s with tree := t, sleep := update s.sleep q (some ⟨x, false, false⟩) }
    else .error .blocked
  | .awake q =>
    match s.sleep q with
    | none => .error .blocked
    | some x =>
      if s.state q = .running then
        if x.up then .ok { s with sleep := update s.sleep q none } else giveUp s q x.place
      else .error .blocked
  | .post x =>
    if s.tree.schedLock = none then
      match postSem (s.sem x) with
      | none => .error .panic
      | some (none, sem) => .ok { s with sem := update s.sem x sem }
      | some (some w, sem) =>
        activateProc { s with
          sem := update s.sem x sem
          sleep := update s.sleep w ((s.sleep w).map fun y => { y with up := true }) } w false
    else .error .blocked
  | .get x => .ok { s with sem := update s.sem x (getSem (s.sem x)).2 }
  | .kill pid => if s.tree.schedLock = none then (kill s pid).map Prod.snd else .error .blocked

def step (s : Sys) (e : Event) : Option Sys := (fire s e).toOption

/-- after `init_kproc`, with v x tokens in the semaphore at x -/
def init (v : Place → ℕ) : Sys := ⟨ProcTree.initKproc, fun _ => false, fun x => initSem (v x), fun _ => none⟩

/-- p is in the tree below `root_proc` -/
def InTree (s : Sys) (p : ℕ) : Prop := Below s.tree.children rootProc p

/-- what an alert does to a process in `_wait_sem` -/
def Sleeper.alert (y : Sleeper) : Sleeper := if y.place.alertable then { y with awake := true } else y

/-- p may be killed: it is no ZOMBIE, and not asleep in `wait` or in `virtio_blk_rw` -/
structure Spared (s : Sys) (p : ℕ) : Prop where
  not_zombie : s.state p ≠ .zombie
  not_waiting : s.tree.pc p ≠ .asleep false
  not_disk : ∀ x b, s.sleep p = some x → x.awake = false → x.place ≠ .disk b

/-- `kill` is called for processes that may be killed, and one that has been killed finds a token or can do without -/
def Spares (s : Sys) : Event → Prop
  | .kill pid => ∀ p, InTree s p → (s.tree.pid p : ℤ) = pid → Spared s p
  | .sleep q x => s.killed q = true → x.tolerant = true ∨ 0 < (s.sem x).val
  | .tree (.waitSem q) => s.killed q = true → 0 < (s.tree.childexit q).val
  | _ => True

/-! ## Invariant -/

/-- still on the list of the semaphore at x -/
def Waits (o : Option Sleeper) (x : Place) : Prop := ∃ y, o = some y ∧ y.place = x ∧ y.up = false

/-- the sleep lists are those of the processes in `_wait_sem` that nobody has posted for -/
structure Queues (sem : Place → Semaphore) (sleep : ℕ → Option Sleeper) : Prop where
  ok : ∀ x, SemOk (sem x)
  nodup : ∀ x, (sem x).sleeplist.Nodup
  listed : ∀ x q, q ∈ (sem x).sleeplist ↔ Waits (sleep q) x

/-- a sleeper is a live process, and one that is awake without a post was alerted where that does no harm -/
def Harmless (t : ProcTree.Sys) (q : ℕ) (o : Option Sleeper) : Prop :=
  ∀ y, o = some y → t.Alive q ∧ (y.awake = true → y.up = false → y.place = .console)

structure Good (s : Sys) : Prop where
  tree : ProcTree.Inv [] none s.tree
  queues : Queues s.sem s.sleep
  sleepers : ∀ q, Harmless s.tree q (s.sleep q)

theorem waits_none (x : Place) : ¬ Waits none x := by
  rintro ⟨y, hy, -⟩
  cases hy

theorem waits_some {y : Sleeper} {x : Place} : Waits (some y) x ↔ y.place = x ∧ y.up = false := by
  constructor
  · rintro ⟨z, hz, h⟩
    obtain rfl := Option.some.inj hz
    exact h
  · exact fun h => ⟨y, rfl, h⟩

theorem waitSem_false {q : ℕ} {sem k : Semaphore} (hk : waitSem q sem = (false, k)) :
    k = ⟨sem.val - 1, q :: sem.sleeplist⟩ := by
  unfold waitSem at hk
  split_ifs at hk
  · cases (Prod.mk.inj hk).1
  · exact (Prod.mk.inj hk).2.symm

theorem waitSem_true {q : ℕ} {sem k : Semaphore} (hk : waitSem q sem = (true, k)) : k.sleeplist = sem.sleeplist := by
  unfold waitSem at hk
  split_ifs at hk
  · rw [← (Prod.mk.inj hk).2]
  · cases (Prod.mk.inj hk).1

section Queues

variable {sem : Place → Semaphore} {sleep : ℕ → Option Sleeper} {q : ℕ} {x : Place}

/-- q enters or leaves the list at x -/
theorem Queues.set (h : Queues sem sleep) {k : Semaphore} {o : Option Sleeper} (hok : SemOk k) (hnodup : k.sleeplist.Nodup)
    (hothers : ∀ r, r ≠ q → (r ∈ k.sleeplist ↔ r ∈ (sem x).sleeplist)) (hself : q ∈ k.sleeplist ↔ Waits o x)
    (helse : ∀ x', x' ≠ x → ¬ Waits (sleep q) x' ∧ ¬ Waits o x') :
    Queues (update sem x k) (update sleep q o) := by
  refine ⟨?_, ?_, fun x' r => ?_⟩
  · exact (forall_update_iff sem (p := fun _ k => SemOk k)).2 ⟨hok, fun x' _ => h.ok x'⟩
  · exact (forall_update_iff sem (p := fun _ k => k.sleeplist.Nodup)).2 ⟨hnodup, fun x' _ => h.nodup x'⟩
  · by_cases hr : r = q
    · rw [hr, update_self]
      by_cases hx : x' = x
      · rw [hx, update_self]
        exact hself
      · rw [update_of_ne hx, h.listed]
        exact iff_of_false (helse x' hx).1 (helse x' hx).2
    · rw [update_of_ne hr, ← h.listed]
      by_cases hx : x' = x
      · rw [hx, update_self]
        exact hothers r hr
      · rw [update_of_ne hx]

/-- a semaphore changes, but not its list -/
theorem Queues.setSem (h : Queues sem sleep) {k : Semaphore} (hok : SemOk k) (hlist : k.sleeplist = (sem x).sleeplist) :
    Queues (update sem x k) sleep := by
  refine ⟨?_, ?_, ?_⟩
  · exact (forall_update_iff sem (p := fun _ k => SemOk k)).2 ⟨hok, fun x' _ => h.ok x'⟩
  · refine (forall_update_iff sem (p := fun _ k => k.sleeplist.Nodup)).2 ⟨?_, fun x' _ => h.nodup x'⟩
    rw [hlist]
    exact h.nodup x
  · refine (forall_update_iff sem (p := fun x k => ∀ q, q ∈ k.sleeplist ↔ Waits (sleep q) x)).2 ⟨?_, fun x' _ => h.listed x'⟩
    rw [hlist]
    exact h.listed x

/-- the `WaitData` of a process changes, but not whether it is on a list -/
theorem Queues.setSleep (h : Queues sem sleep) {o : Option Sleeper} (hwaits : ∀ x, Waits o x ↔ Waits (sleep q) x) :
    Queues sem (update sleep q o) := by
  refine ⟨h.ok, h.nodup, fun x r => ?_⟩
  rw [h.listed]
  by_cases hr : r = q
  · rw [hr, update_self]
    exact (hwaits x).symm
  · rw [update_of_ne hr]

/-- q goes to sleep -/
theorem Queues.wait (h : Queues sem sleep) (hq : sleep q = none) {k : Semaphore} (hk : waitSem q (sem x) = (false, k)) :
    Queues (update sem x k) (update sleep q (some ⟨x, false, false⟩)) := by
  have hout : ∀ x', ¬ Waits (sleep q) x' := by
    rw [hq]
    exact waits_none
  have hkeq : k = ⟨(sem x).val - 1, q :: (sem x).sleeplist⟩ := waitSem_false hk
  have hok : SemOk k := by
    have := semOk_waitSem q (h.ok x)
    rwa [hk] at this
  refine h.set hok ?_ ?_ ?_ ?_
  · rw [hkeq]
    exact List.nodup_cons.2 ⟨fun hm => hout x ((h.listed x q).1 hm), h.nodup x⟩
  · intro r hr
    rw [hkeq, List.mem_cons, or_iff_right hr]
  · rw [hkeq]
    exact iff_of_true List.mem_cons_self (waits_some.2 ⟨rfl, rfl⟩)
  · intro x' hx
    exact ⟨hout x', fun hw => hx (waits_some.1 hw).1.symm⟩

/-- q gives up its place -/
theorem Queues.giveUp (h : Queues sem sleep) (hq : Waits (sleep q) x) :
    (sem x).val + 1 ≤ 0 ∧
      Queues (update sem x ⟨(sem x).val + 1, (sem x).sleeplist.erase q⟩) (update sleep q none) := by
  have hmem : q ∈ (sem x).sleeplist := (h.listed x q).2 hq
  have hlen := List.length_pos_of_mem hmem
  have hok := h.ok x
  unfold SemOk at hok
  refine ⟨by omega, h.set ?_ ((h.nodup x).erase q) ?_ ?_ ?_⟩
  · have herase := List.length_erase_of_mem hmem
    simp only [SemOk]
    omega
  · intro r hr
    exact List.mem_erase_of_ne hr
  · exact iff_of_false (fun hm => ((h.nodup x).mem_erase_iff.1 hm).1 rfl) (waits_none x)
  · intro x' hx
    refine ⟨fun hw => hx ?_, waits_none x'⟩
    obtain ⟨y, hy, hplace, -⟩ := hq
    obtain ⟨z, hz, hplace', -⟩ := hw
    rw [hy] at hz
    obtain rfl := Option.some.inj hz
    exact hplace'.symm.trans hplace

/-- a post takes the oldest sleeper off the list -/
theorem Queues.post (h : Queues sem sleep) {w : ℕ} {k : Semaphore} (hk : postSem (sem x) = some (some w, k)) (y : Sleeper)
    (hup : y.up = true) :
    Waits (sleep w) x ∧ Queues (update sem x k) (update sleep w (some y)) := by
  obtain ⟨-, hlist⟩ := postSem_eq hk
  have hmem : w ∈ (sem x).sleeplist := by
    rw [hlist]
    exact List.mem_append_right _ (List.mem_singleton_self w)
  have hnodup := h.nodup x
  rw [hlist] at hnodup
  have hw := (h.listed x w).1 hmem
  have hnot : ∀ x', ¬ Waits (some y) x' := by
    intro x' hy
    exact absurd (hup.symm.trans (waits_some.1 hy).2) (by decide)
  refine ⟨hw, h.set (semOk_postSem (h.ok x) hk) hnodup.of_append_left ?_ ?_ ?_⟩
  · intro r hr
    rw [hlist, List.mem_append, Option.mem_toList, Option.some_inj, or_iff_left (Ne.symm hr)]
  · refine iff_of_false (fun hm => ?_) (hnot x)
    exact (List.disjoint_of_nodup_append hnodup) hm (List.mem_singleton_self w)
  · intro x' hx
    refine ⟨fun hw' => hx ?_, hnot x'⟩
    obtain ⟨z, hz, hplace, -⟩ := hw
    obtain ⟨z', hz', hplace', -⟩ := hw'
    rw [hz] at hz'
    obtain rfl := Option.some.inj hz'
    exact hplace'.symm.trans hplace

end Queues

/-! ## Steps -/

section Steps

variable {s s' : Sys} {q p : ℕ} {x : Place}

theorem harmless_none (t : ProcTree.Sys) (q : ℕ) : Harmless t q none := nofun

theorem Good.setKilled (h : Good s) (k : ℕ → Bool) : Good { s with killed := k } := ⟨h.tree, h.queues, h.sleepers⟩

/-- a process changes its place in `_wait_sem` -/
theorem Good.setSleep (h : Good s) {sem : Place → Semaphore} {o : Option Sleeper}
    (hq : Queues sem (update s.sleep q o)) (ho : Harmless s.tree q o) :
    Good { s with sem := sem, sleep := update s.sleep q o } :=
  ⟨h.tree, hq, (forall_update_iff s.sleep (p := fun q o => Harmless s.tree q o)).2 ⟨ho, fun r _ => h.sleepers r⟩⟩

/-- memory that is handed out to a new process has no sleeper -/
theorem Good.fresh (h : Good s) {t : ProcTree.Sys} (hs : ProcTree.createProc s.tree q p = some t) :
    update s.sleep p none = s.sleep := by
  have hnew : p ∉ s.tree.live := by
    intro hp
    rw [ProcTree.createProc, if_pos (Or.inl hp)] at hs
    cases hs
  apply update_eq_self_iff.2
  cases hsl : s.sleep p with
  | none => rfl
  | some y => exact absurd (h.sleepers p y hsl).1.1 hnew

theorem Good.treeStep_ok (h : Good s) {e : ProcTree.Event} (hs : treeStep s e = .ok s') :
    ProcTree.step s.tree e = some s'.tree ∧ s'.sem = s.sem ∧ s'.sleep = s.sleep := by
  unfold treeStep at hs
  cases ht : ProcTree.step s.tree e with
  | none =>
    rw [ht] at hs
    cases hs
  | some t =>
    rw [ht] at hs
    cases e with
    | create q p =>
      obtain rfl := Except.ok.inj hs
      simp only [ProcTree.step] at ht
      split_ifs at ht
      exact ⟨rfl, rfl, h.fresh ht⟩
    | fork q p =>
      obtain rfl := Except.ok.inj hs
      simp only [ProcTree.step] at ht
      split_ifs at ht
      obtain ⟨u, hu, -⟩ := Option.map_eq_some_iff.1 ht
      exact ⟨rfl, rfl, h.fresh hu⟩
    | _ =>
      obtain rfl := Except.ok.inj hs
      exact ⟨rfl, rfl, rfl⟩

theorem Good.treeStep (h : Good s) {e : ProcTree.Event} (hs : treeStep s e = .ok s')
    (hactor : s.sleep e.actor = none ∨ (∃ q, e = .dispatch q) ∨ ∃ q, e = .yield q) : Good s' := by
  obtain ⟨ht, hsem, hsleep⟩ := h.treeStep_ok hs
  refine ⟨ProcTree.step_inv h.tree ht, ?_, ?_⟩
  · rw [hsem, hsleep]
    exact h.queues
  · intro q y hy
    rw [hsleep] at hy
    obtain ⟨halive, halerted⟩ := h.sleepers q y hy
    refine ⟨ProcTree.step_alive h.tree halive ht ?_, halerted⟩
    rintro rfl
    rcases hactor with hnone | hsched
    · rw [hnone] at hy
      cases hy
    · exact hsched

/-- a step of the tree is one of `ProcTree`, by a process that is in no other `_wait_sem` -/
theorem fire_tree {e : ProcTree.Event} (hs : fire s (.tree e) = .ok s') :
    s' = s ∨ Kill.treeStep s e = .ok s' ∧ (s.sleep e.actor = none ∨ (∃ q, e = .dispatch q) ∨ ∃ q, e = .yield q) := by
  cases e with
  | dispatch q =>
    simp only [fire] at hs
    split_ifs at hs
    exact Or.inr ⟨hs, Or.inr (Or.inl ⟨q, rfl⟩)⟩
  | yield q =>
    simp only [fire] at hs
    split_ifs at hs
    · exact Or.inl (Except.ok.inj hs).symm
    · exact Or.inr ⟨hs, Or.inr (Or.inr ⟨q, rfl⟩)⟩
  | waitSem q | resume q =>
    simp only [fire] at hs
    split_ifs at hs with hsl
    exact Or.inr ⟨hs, Or.inl (not_not.1 hsl)⟩
  | _ =>
    simp only [fire] at hs
    split_ifs at hs with hsl
    exact Or.inr ⟨hs, Or.inl (not_not.1 hsl)⟩

/-- what `_activate_proc` does to a process that is in `_wait_sem` -/
theorem activateProc_sleeper {y : Sleeper} {onalert : Bool} (hp : s.sleep p = some y)
    (hs : activateProc s p onalert = .ok s') :
    s' = s ∨ s' = { s with sleep := update s.sleep p (some { y with awake := true }) } := by
  have hwake : wake s p = { s with sleep := update s.sleep p (some { y with awake := true }) } := by
    rw [wake, hp]
  unfold activateProc at hs
  split at hs
  · exact Or.inl (Except.ok.inj hs).symm
  · exact Or.inl (Except.ok.inj hs).symm
  · exact Or.inr ((Except.ok.inj hs).symm.trans hwake)
  · exact Or.inr ((Except.ok.inj hs).symm.trans hwake)
  · split_ifs at hs
    · exact Or.inl (Except.ok.inj hs).symm
    · exact Or.inr ((Except.ok.inj hs).symm.trans hwake)
  · cases hs

theorem Good.giveUp (h : Good s) (hq : Waits (s.sleep q) x) (hs : giveUp s q x = .ok s') : Good s' := by
  unfold Kill.giveUp at hs
  dsimp only at hs
  split_ifs at hs
  obtain rfl := Except.ok.inj hs
  exact h.setSleep (h.queues.giveUp hq).2 (harmless_none _ _)

/-- a process that is not put to sleep leaves everything as it was -/
theorem giveUp_at_once {k : Semaphore} (hq : s.sleep q = none) (hk : waitSem q (s.sem x) = (false, k))
    (hs : giveUp { s with sem := update s.sem x k } q x = .ok s') : s' = s := by
  have hkeq : k = ⟨(s.sem x).val - 1, q :: (s.sem x).sleeplist⟩ := waitSem_false hk
  unfold Kill.giveUp at hs
  dsimp only at hs
  split_ifs at hs
  obtain rfl := Except.ok.inj hs
  have hsem : update s.sem x (s.sem x) = s.sem := update_eq_self x s.sem
  have hsleep : update s.sleep q none = s.sleep := update_eq_self_iff.2 hq.symm
  simp only [update_self, update_idem, hkeq, List.erase_cons_head, sub_add_cancel]
  rw [hsleep]
  exact congrArg (fun f => { s with sem := f }) hsem

theorem Good.sleep (h : Good s) (hs : fire s (.sleep q x) = .ok s') : Good s' := by
  by_cases hg : s.sleep q = none ∧ s.tree.pc q ≠ .asleep true
  · simp only [fire, if_pos hg] at hs
    cases ht : ProcTree.step s.tree (.yield q) with
    | none =>
      rw [ht] at hs
      cases hs
    | some t =>
      rw [ht] at hs
      have hyield : Kill.treeStep s (.yield q) = .ok { s with tree := t } := by rw [Kill.treeStep, ht]
      have hgood := h.treeStep hyield (Or.inl hg.1)
      have halive : t.Alive q := by
        obtain ⟨hrun, rfl⟩ := guard_enabled ht
        exact h.tree.running_alive hrun.1 hrun.2.1 hrun.2.2
      cases hk : waitSem q (s.sem x) with
      | mk token k =>
        rw [hk] at hs
        cases token with
        | true =>
          obtain rfl := Except.ok.inj hs
          have hok := semOk_waitSem q (h.queues.ok x)
          rw [hk] at hok
          exact ⟨h.tree, h.queues.setSem hok (waitSem_true hk), h.sleepers⟩
        | false =>
          dsimp only at hs
          split_ifs at hs
          · rw [giveUp_at_once hg.1 hk hs]
            exact h
          · obtain rfl := Except.ok.inj hs
            refine hgood.setSleep (h.queues.wait hg.1 hk) ?_
            intro y hy
            obtain rfl := Option.some.inj hy
            exact ⟨halive, by simp⟩
  · simp only [fire, if_neg hg] at hs
    cases hs

/-- **No sleeper panics.** -/
theorem Good.awake_safe (h : Good s) : fire s (.awake q) ≠ .error .panic := by
  simp only [fire]
  cases hsl : s.sleep q with
  | none => nofun
  | some y =>
    dsimp only
    by_cases hrun : s.state q = .running
    · rw [if_pos hrun]
      cases hup : y.up with
      | true => nofun
      | false =>
        -- it was alerted, in `console_read`
        have hawake : y.awake = true := by
          rw [Sys.state, hsl] at hrun
          by_contra hno
          rw [Bool.not_eq_true] at hno
          simp only [hno, Bool.false_eq_true, if_false] at hrun
          split_ifs at hrun
        have hplace := (h.sleepers q y hsl).2 hawake hup
        have hwaits : Waits (s.sleep q) y.place := hsl ▸ waits_some.2 ⟨rfl, hup⟩
        have hval := (h.queues.giveUp hwaits).1
        have htolerant : y.place.tolerant = true := by
          rw [hplace]
          rfl
        rw [if_neg (by decide), Kill.giveUp, if_pos ⟨hval, htolerant⟩]
        nofun
    · rw [if_neg hrun]
      nofun

theorem Good.awake (h : Good s) (hs : fire s (.awake q) = .ok s') : Good s' := by
  simp only [fire] at hs
  cases hsl : s.sleep q with
  | none =>
    rw [hsl] at hs
    cases hs
  | some y =>
    rw [hsl] at hs
    dsimp only at hs
    split_ifs at hs with hrun hup
    · obtain rfl := Except.ok.inj hs
      refine h.setSleep (h.queues.setSleep fun x => ?_) (harmless_none _ _)
      rw [hsl, waits_some, hup]
      exact iff_of_false (waits_none x) fun hw => Bool.noConfusion hw.2
    · exact h.giveUp (hsl ▸ waits_some.2 ⟨rfl, Bool.eq_false_iff.2 hup⟩) hs

theorem Good.post (h : Good s) (hs : fire s (.post x) = .ok s') : Good s' := by
  simp only [fire] at hs
  split_ifs at hs with hlock
  cases hk : postSem (s.sem x) with
  | none =>
    rw [hk] at hs
    cases hs
  | some r =>
    obtain ⟨w, k⟩ := r
    rw [hk] at hs
    cases w with
    | none =>
      obtain rfl := Except.ok.inj hs
      refine ⟨h.tree, h.queues.setSem (semOk_postSem (h.queues.ok x) hk) ?_, h.sleepers⟩
      rw [(postSem_eq hk).2]
      exact (List.append_nil _).symm
    | some w =>
      dsimp only at hs
      obtain ⟨⟨y, hy, hplace, hup⟩, -⟩ := h.queues.post hk ⟨x, true, true⟩ rfl
      obtain ⟨halive, -⟩ := h.sleepers w y hy
      rw [hy, Option.map_some] at hs
      have hset : ∀ b, Good { s with
          sem := update s.sem x k, sleep := update s.sleep w (some ⟨y.place, true, b⟩) } := by
        intro b
        refine h.setSleep (h.queues.post hk ⟨y.place, true, b⟩ rfl).2 ?_
        intro z hz
        obtain rfl := Option.some.inj hz
        exact ⟨halive, nofun⟩
      rcases activateProc_sleeper (update_self ..) hs with rfl | rfl
      · exact hset y.awake
      · have := hset true
        simpa only [update_idem] using this

theorem Good.get (h : Good s) (hs : fire s (.get x) = .ok s') : Good s' := by
  obtain rfl := Except.ok.inj hs
  refine ⟨h.tree, h.queues.setSem (semOk_getSem (h.queues.ok x)) ?_, h.sleepers⟩
  unfold getSem
  split_ifs <;> rfl

/-! ## The search -/

theorem Good.child (h : Good s) (hp : p ∈ s.tree.live) {c : ℕ} (hc : c ∈ s.tree.children p) :
    c ∈ s.tree.live ∧ s.tree.serial p < s.tree.serial c := by
  obtain ⟨hlive, hroot, hparent⟩ := (h.tree.forest.mem p hp c).1 hc
  refine ⟨hlive, ?_⟩
  rcases (h.tree.kin.above c hlive p hparent).2 with rfl | hlt
  · -- the root is the oldest
    have hzero := h.tree.kin.root.1
    have hne : s.tree.serial c ≠ s.tree.serial rootProc := fun he =>
      hroot (h.tree.kin.serial_inj c hlive rootProc hp he)
    omega
  · exact hlt

theorem Good.inTree_live (h : Good s) (hp : InTree s p) : p ∈ s.tree.live := by
  induction hp with
  | refl => exact h.tree.forest.root_mem
  | tail _ hc ih => exact (h.child ih hc).1

theorem Good.dfs_finds (h : Good s) (pid : ℤ) :
    ∃ r, dfs s.tree rootProc pid = some r ∧
      Finds s.tree.children (fun q => decide ((s.tree.pid q : ℤ) = pid)) rootProc r := by
  have hroot : rootProc ∈ s.tree.live := h.tree.forest.root_mem
  refine search_spec (S := fun p => p ∈ s.tree.live) s.tree.serial ?_ h.tree.kin.serial_lt s.tree.next hroot (by omega)
  intro p hp c hc
  exact h.child hp hc

/-- `kill` by what is in the tree -/
theorem Good.kill_cases (h : Good s) (pid : ℤ) :
    (∃ p, InTree s p ∧ (s.tree.pid p : ℤ) = pid ∧ s.state p ≠ .unused ∧
      kill s pid = (activateProc { s with killed := update s.killed p true } p true).map fun s => (0, s)) ∨
    ((∀ p, InTree s p → (s.tree.pid p : ℤ) = pid → s.state p = .unused) ∧ kill s pid = .ok (-1, s)) := by
  obtain ⟨r, hr, hfinds⟩ := h.dfs_finds pid
  cases r with
  | none =>
    refine Or.inr ⟨fun p hp hpid => ?_, by rw [kill, hr]⟩
    exact absurd hpid (of_decide_eq_false (hfinds p hp))
  | some p =>
    have hpid : (s.tree.pid p : ℤ) = pid := of_decide_eq_true hfinds.2
    by_cases hst : s.state p = .unused
    · refine Or.inr ⟨fun p' hp' hpid' => ?_, by rw [kill, hr]; exact if_pos hst⟩
      have hsame : s.tree.pid p' = s.tree.pid p := by
        apply Int.ofNat_inj.1
        exact hpid'.trans hpid.symm
      rw [h.tree.pids.inj p' (h.inTree_live hp') p (h.inTree_live hfinds.1) hsame]
      exact hst
    · exact Or.inl ⟨p, hfinds.1, hpid, hst, by rw [kill, hr]; exact if_neg hst⟩

/-- a live process that sleeps in the tree sleeps in `wait` -/
theorem Good.asleep_in_wait (h : Good s) (hp : p ∈ s.tree.live) (hst : s.tree.state p = .sleeping) :
    s.tree.pc p = .asleep false := by
  have hfits := h.tree.places.fits p hp
  rw [hst] at hfits
  generalize s.tree.pc p = x at hfits
  cases x with
  | asleep up =>
    cases up with
    | false => rfl
    | true => simp [ProcTree.Fits] at hfits
  | _ => simp [ProcTree.Fits] at hfits

theorem Sleeper.alert_awake {y : Sleeper} (h : y.awake = true) : y.alert = y := by
  unfold Sleeper.alert
  split_ifs
  · rw [← h]
  · rfl

/-- **Alert.** A process that may be killed goes on as before, or wakes up where an alert may wake it. -/
theorem Good.alert (h : Good s) (hlive : p ∈ s.tree.live) (hspared : Spared s p) (hused : s.state p ≠ .unused) :
    activateProc s p true = .ok { s with sleep := update s.sleep p ((s.sleep p).map Sleeper.alert) } := by
  -- in the tree only `wait` sleeps
  have hother : s.tree.state p ≠ .sleeping := fun hs => hspared.not_waiting (h.asleep_in_wait hlive hs)
  have hsame : (s.sleep p).map Sleeper.alert = s.sleep p →
      ({ s with sleep := update s.sleep p ((s.sleep p).map Sleeper.alert) } : Sys) = s := by
    intro heq
    rw [heq, update_eq_self]
  have hzombie := hspared.not_zombie
  -- one that is not in `_wait_sem` is left alone
  have hleft : s.state p = s.tree.state p → activateProc s p true = .ok s := by
    intro hstate
    rw [activateProc]
    rw [hstate] at hused hzombie ⊢
    cases hst : s.tree.state p with
    | running | runnable | deepsleeping => rfl
    | unused => exact absurd hst hused
    | zombie => exact absurd hst hzombie
    | sleeping => exact absurd hst hother
  cases hsl : s.sleep p with
  | none =>
    rw [hsl] at hsame
    rw [hsame rfl]
    exact hleft (by rw [Sys.state, hsl])
  | some y =>
    rw [hsl, Option.map_some] at hsame
    cases hawake : y.awake with
    | true =>
      have hstate : s.state p = s.tree.state p := by
        rw [Sys.state, hsl]
        exact if_pos hawake
      rw [Option.map_some, hsame (congrArg some (Sleeper.alert_awake hawake))]
      exact hleft hstate
    | false =>
      have hstate : s.state p = if y.place.alertable then .sleeping else .deepsleeping := by
        rw [Sys.state, hsl]
        exact if_neg (by rw [hawake]; decide)
      by_cases hal : y.place.alertable = true
      · rw [if_pos hal] at hstate
        rw [Option.map_some, Sleeper.alert, if_pos hal]
        simp only [activateProc, hstate, wake, hsl]
      · rw [if_neg hal] at hstate
        rw [Option.map_some, hsame (by rw [Sleeper.alert, if_neg hal])]
        simp only [activateProc, hstate, if_true]

theorem Good.kill_spared (h : Good s) {pid : ℤ} (hp : InTree s p) (hpid : (s.tree.pid p : ℤ) = pid)
    (hspared : Spared s p) (hused : s.state p ≠ .unused) :
    kill s pid = .ok (0, { s with
      killed := update s.killed p true
      sleep := update s.sleep p ((s.sleep p).map Sleeper.alert) }) := by
  have hlive := h.inTree_live hp
  obtain ⟨p', hp', hpid', -, hkill⟩ | ⟨hunused, -⟩ := h.kill_cases pid
  · have hsame : s.tree.pid p' = s.tree.pid p := by
      apply Int.ofNat_inj.1
      exact hpid'.trans hpid.symm
    obtain rfl := h.tree.pids.inj p' (h.inTree_live hp') p hlive hsame
    have halert := (h.setKilled (update s.killed p' true)).alert hlive
      ⟨hspared.not_zombie, hspared.not_waiting, hspared.not_disk⟩ hused
    rw [hkill, halert]
    rfl
  · exact absurd (hunused p hp hpid) hused

/-- a process that may be killed and wakes up from an alert is in `console_read` -/
theorem Good.alert_harmless (h : Good s) (hspared : Spared s p) :
    Harmless s.tree p ((s.sleep p).map Sleeper.alert) := by
  intro z hz
  obtain ⟨y, hy, rfl⟩ := Option.map_eq_some_iff.1 hz
  obtain ⟨halive, hconsole⟩ := h.sleepers p y hy
  refine ⟨halive, ?_⟩
  cases hawake : y.awake with
  | true =>
    rw [Sleeper.alert_awake hawake]
    exact hconsole
  | false =>
    unfold Sleeper.alert
    split_ifs with hal
    · intro _ _
      have hdisk := fun b => hspared.not_disk y b hy hawake
      change y.place = .console
      cases hplace : y.place with
      | console => rfl
      | disk b => exact absurd hplace (hdisk b)
      | pipe k | lock k | log k =>
        rw [hplace] at hal
        cases hal
    · exact hconsole

theorem waits_alert (o : Option Sleeper) (x : Place) : Waits (o.map Sleeper.alert) x ↔ Waits o x := by
  cases o with
  | none => rfl
  | some y =>
    rw [Option.map_some, waits_some, waits_some, Sleeper.alert]
    split_ifs <;> rfl

theorem Good.kill (h : Good s) {pid : ℤ} (hspares : Spares s (.kill pid)) (hs : fire s (.kill pid) = .ok s') : Good s' := by
  simp only [fire] at hs
  split_ifs at hs
  obtain ⟨p, hp, hpid, hused, -⟩ | ⟨-, hkill⟩ := h.kill_cases pid
  · have hspared := hspares p hp hpid
    rw [h.kill_spared hp hpid hspared hused] at hs
    obtain rfl := Except.ok.inj hs
    exact (h.setKilled (update s.killed p true)).setSleep (h.queues.setSleep (waits_alert _))
      (h.alert_harmless hspared)
  · rw [hkill] at hs
    obtain rfl := Except.ok.inj hs
    exact h

/-- **Step.** -/
theorem step_good (s : Sys) (e : Event) (s' : Sys) (h : Good s) (hspares : Spares s e) (hs : step s e = some s') :
    Good s' := by
  have hok : fire s e = .ok s' := ok_of_toOption hs
  cases e with
  | tree e =>
    rcases fire_tree hok with rfl | ⟨htree, hactor⟩
    · exact h
    · exact h.treeStep htree hactor
  | sleep q x => exact h.sleep hok
  | awake q => exact h.awake hok
  | post x => exact h.post hok
  | get x => exact h.get hok
  | kill pid => exact h.kill hspares hok

theorem treeStep_safe (e : ProcTree.Event) : Kill.treeStep s e ≠ .error .panic := by
  unfold Kill.treeStep
  cases ProcTree.step s.tree e with
  | none => nofun
  | some t => cases e <;> nofun

/-- a process that runs again in `wait` has been posted for -/
theorem Good.resume_safe (h : Good s) : fire s (.tree (.resume q)) ≠ .error .panic := by
  simp only [fire]
  split_ifs with hsl hat
  · nofun
  · obtain ⟨hlive, hst, hpc⟩ := hat
    have hfits := h.tree.places.fits q hlive
    rw [hst, hpc] at hfits
    cases hfits
  · exact treeStep_safe _

/-- a process that has been killed waits where it may -/
theorem Good.sleep_safe (hspares : Spares s (.sleep q x)) : fire s (.sleep q x) ≠ .error .panic := by
  simp only [fire]
  by_cases hg : s.sleep q = none ∧ s.tree.pc q ≠ .asleep true
  · rw [if_pos hg]
    cases ProcTree.step s.tree (.yield q) with
    | none => simp
    | some t =>
      cases hk : waitSem q (s.sem x) with
      | mk token k =>
        cases token with
        | true => simp
        | false =>
          dsimp only
          split_ifs with hkilled
          · have hval : ¬ (s.sem x).val - 1 ≥ 0 := by
              intro hv
              rw [waitSem, if_pos hv] at hk
              cases hk
            have htolerant : x.tolerant = true := (hspares hkilled).resolve_right (by omega)
            have hkval : k.val + 1 ≤ 0 := by
              rw [waitSem_false hk]
              dsimp only
              omega
            simp only [Kill.giveUp, update_self, if_pos (And.intro hkval htolerant)]
            simp
          · simp
  · rw [if_neg hg]
    simp

/-- a post finds its sleeper, which is no ZOMBIE -/
theorem Good.post_safe (h : Good s) : fire s (.post x) ≠ .error .panic := by
  simp only [fire]
  split_ifs
  · cases hk : postSem (s.sem x) with
    | none =>
      rcases List.eq_nil_or_concat (s.sem x).sleeplist with hl | ⟨l, p, hl⟩
      · simp [postSem_token (h.queues.ok x) hl] at hk
      · rw [List.concat_eq_append] at hl
        simp [postSem_wake (h.queues.ok x) hl] at hk
    | some r =>
      obtain ⟨w, k⟩ := r
      cases w with
      | none => simp
      | some w =>
        obtain ⟨⟨y, hy, -⟩, -⟩ := h.queues.post hk ⟨x, true, true⟩ rfl
        have hzombie := h.tree.alive_not_zombie (h.sleepers w y hy).1
        simp only [hy, Option.map_some]
        unfold activateProc
        split
        · simp
        · simp
        · simp
        · simp
        · simp
        · rename_i hst
          simp only [Sys.state, update_self] at hst
          split_ifs at hst
          exact absurd hst hzombie
  · simp

/-- **No step panics.** -/
theorem Good.safe (h : Good s) {e : Event} (hspares : Spares s e) : fire s e ≠ .error .panic := by
  cases e with
  | tree e =>
    cases e with
    | resume q => exact h.resume_safe
    | waitSem q =>
      simp only [fire]
      split_ifs with hsl hno
      · simp
      · have := hspares hno.2.1
        omega
      · exact treeStep_safe _
    | dispatch q | yield q =>
      simp only [fire]
      split_ifs
      all_goals first | exact treeStep_safe _ | simp
    | _ =>
      simp only [fire]
      split_ifs
      · simp
      · exact treeStep_safe _
  | sleep q x => exact Good.sleep_safe hspares
  | awake q => exact h.awake_safe
  | post x => exact h.post_safe
  | get x => simp [fire]
  | kill pid =>
    simp only [fire]
    split_ifs
    · obtain ⟨p, hp, hpid, hused, -⟩ | ⟨-, hkill⟩ := h.kill_cases pid
      · rw [h.kill_spared hp hpid (hspares p hp hpid) hused]
        simp [Except.map]
      · rw [hkill]
        simp [Except.map]
    · simp

theorem init_good (v : Place → ℕ) : Good (init v) where
  tree := ProcTree.initKproc_inv
  queues := ⟨fun _ => semOk_init (Int.natCast_nonneg _), fun _ => List.nodup_nil, fun x _ => iff_of_false nofun (waits_none x)⟩
  sleepers q := harmless_none _ q

end Steps

/-- **Kill.** In every run in which only processes that may be killed are, and those that have been do not wait where they must
not: `kill` returns -1 and changes nothing when the tree has no started process with the number; otherwise, if the process may be
killed, it returns 0, sets `killed` of that process and alerts it, and changes nothing else; and no step of that kind panics,
neither `kill` nor the return from a sleep, in `wait` or on any other semaphore. -/
theorem kill_safe (v : Place → ℕ) (es : List Event) (s : Sys) (hspares : Meets step Spares (init v) es)
    (hrun : run step (init v) es = some s) :
    (∀ pid, (∀ p, InTree s p → (s.tree.pid p : ℤ) = pid → s.state p = .unused) → kill s pid = .ok (-1, s)) ∧
    (∀ p, InTree s p → s.state p ≠ .unused → Spared s p →
      kill s (s.tree.pid p) = .ok (0, { s with
        killed := update s.killed p true
        sleep := update s.sleep p ((s.sleep p).map Sleeper.alert) })) ∧
    ∀ e, Spares s e → fire s e ≠ .error .panic := by
  have hgood : Good s := run_invariant step_good (init_good v) hspares hrun
  refine ⟨?_, ?_, fun e => hgood.safe⟩
  · intro pid hunused
    obtain ⟨p, hp, hpid, hused, -⟩ | ⟨-, hkill⟩ := hgood.kill_cases pid
    · exact absurd (hunused p hp hpid) hused
    · exact hkill
  · intro p hp hused hspared
    exact hgood.kill_spared hp rfl hspared hused

/-- the root starts process 1 -/
def startOne : List Event :=
  [.tree (.dispatch 0), .tree (.create 0 1), .tree (.start 0 1), .tree (.activate 0), .tree (.dispatch 1)]

/-- process 1 waits for input, and may be killed -/
theorem kill_safe_console :
    ∃ s, run step (init fun _ => 0) (startOne ++ [.sleep 1 .console]) = some s ∧
      s.state 1 = .sleeping ∧ InTree s 1 ∧ kill s 7 = .ok (-1, s) ∧
      (∃ s', kill s 1 = .ok (0, s') ∧ s'.killed 1 = true ∧ s'.state 1 = .runnable) ∧ fire s (.awake 1) ≠ .error .panic := by
  obtain ⟨s, hr, hlive, hpid0, hpid1, hchild, hsleep, htree, hpc⟩ :
      ∃ s, run step (init fun _ => 0) (startOne ++ [.sleep 1 .console]) = some s ∧ s.tree.live = [1, 0] ∧
        s.tree.pid 0 = 0 ∧ s.tree.pid 1 = 1 ∧ 1 ∈ s.tree.children 0 ∧ s.sleep 1 = some ⟨.console, false, false⟩ ∧
        s.tree.state 1 = .runnable ∧ s.tree.pc 1 = .user := run_computes (by decide +kernel)
  have hst : s.state 1 = .sleeping := by
    rw [Sys.state, hsleep]
    rfl
  have hin : InTree s 1 := .single hchild
  -- nobody is killed on the way, and the console is a place to wait at anyway
  have hquiet : Meets step Spares (init fun _ => 0) (startOne ++ [.sleep 1 .console]) :=
    ⟨trivial, fun _ _ => ⟨trivial, fun _ _ => ⟨trivial, fun _ _ => ⟨trivial, fun _ _ => ⟨trivial, fun _ _ =>
      ⟨fun _ => Or.inl rfl, fun _ _ => trivial⟩⟩⟩⟩⟩⟩
  obtain ⟨hno, hyes, hsafe⟩ := kill_safe (fun _ => 0) _ s hquiet hr
  have hgood : Good s := run_invariant step_good (init_good _) hquiet hr
  have hspared : Spared s 1 := by
    refine ⟨by rw [hst]; decide, by rw [hpc]; decide, ?_⟩
    intro x b hx _
    rw [hsleep] at hx
    obtain rfl := Option.some.inj hx
    nofun
  have hkill := hyes 1 hin (by rw [hst]; decide) hspared
  rw [hpid1] at hkill
  refine ⟨s, hr, hst, hin, hno 7 ?_, ⟨_, hkill, update_self 1 true s.killed, ?_⟩, hsafe (.awake 1) trivial⟩
  · intro p hp hpid
    have hmem := hgood.inTree_live hp
    rw [hlive] at hmem
    simp only [List.mem_cons, List.not_mem_nil, or_false] at hmem
    rcases hmem with rfl | rfl
    · rw [hpid1] at hpid
      cases hpid
    · rw [hpid0] at hpid
      cases hpid
  · simp only [Sys.state, update_self, hsleep, Option.map_some, Sleeper.alert, Place.alertable, if_true]
    exact htree

/-- process 1 exits and is not reaped -/
def leftZombie : List Event := startOne ++ [.tree (.exit 1 0), .tree (.zombie 1)]

/-- process 1 sleeps in `wait` while it is killed, and gets to run again -/
def killedWaiter : List Event :=
  startOne ++ [.tree (.fork 1 2), .tree (.link 1), .tree (.activate 1), .tree (.wait 1), .tree (.waitSem 1), .kill 1,
    .tree (.dispatch 1)]

/-- process 1 sleeps in `virtio_blk_rw` while it is killed, and gets to run again -/
def killedReader : List Event := startOne ++ [.sleep 1 (.disk 0), .kill 1, .tree (.dispatch 1)]

/-- **The three exceptions.** `kill` panics on a ZOMBIE; a process killed in `wait` panics when it wakes up; and so does one
killed while it waits for the disk. -/
theorem kill_panics :
    (∃ s, run step (init fun _ => 0) leftZombie = some s ∧ InTree s 1 ∧ s.tree.pid 1 = 1 ∧ s.state 1 = .zombie ∧
      kill s 1 = .error .panic) ∧
    (∃ s, run step (init fun _ => 0) killedWaiter = some s ∧ s.killed 1 = true ∧
      fire s (.tree (.resume 1)) = .error .panic) ∧
    ∃ s, run step (init fun _ => 0) killedReader = some s ∧ s.killed 1 = true ∧ fire s (.awake 1) = .error .panic := by
  obtain ⟨s1, hr1, hchild, hpid, hst, hkill⟩ : ∃ s, run step (init fun _ => 0) leftZombie = some s ∧
      1 ∈ s.tree.children 0 ∧ s.tree.pid 1 = 1 ∧ s.state 1 = .zombie ∧ reason (kill s 1) = some .panic :=
    run_computes (by decide +kernel)
  obtain ⟨s2, hr2, hkilled2, hresume⟩ : ∃ s, run step (init fun _ => 0) killedWaiter = some s ∧ s.killed 1 = true ∧
      reason (fire s (.tree (.resume 1))) = some .panic := run_computes (by decide +kernel)
  obtain ⟨s3, hr3, hkilled3, hawake⟩ : ∃ s, run step (init fun _ => 0) killedReader = some s ∧ s.killed 1 = true ∧
      reason (fire s (.awake 1)) = some .panic := run_computes (by decide +kernel)
  exact ⟨⟨s1, hr1, .single hchild, hpid, hst, error_of_reason hkill⟩, ⟨s2, hr2, hkilled2, error_of_reason hresume⟩,
    ⟨s3, hr3, hkilled3, error_of_reason hawake⟩⟩

end OsKernel.Kernel.Kill
