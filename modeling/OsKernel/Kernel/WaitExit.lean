/-
The process tree and the protocol between `exit` and `wait`.

The invariant has one part for each thing that the functions keep in step:
- `IsForest`: parent links and children lists agree;
- `Kin`: a parent is alive and is the root or older than its children, and a process without a parent has not been started;
- `Handles`: a process that has not been started belongs to its creator;
- `Places`: the scheduling state of a process fits its place in the code, and only a process that leaves has the lock;
- `Tokens`: the counter of `childexit`, with the token `wait` has taken and not used yet, is the number of children that have
  posted their exit and are still there;
- `Pids`: the numbers in use are those of the live processes, one each;
- `History`: what has been logged.
In the middle of `exit` two things do not hold: tokens are missing from some semaphores (`off`), and a process has logged its
exit and is still alive (`leaver`).

`wait_exit_protocol`: what this means for every run from `init_kproc`.
-/
import OsKernel.Kernel.ProcTree
import OsKernel.Lib.Forest
import OsKernel.Lib.Runs

namespace OsKernel.Kernel.ProcTree

open OsKernel.Forest OsKernel.Pid OsKernel.Runs OsKernel.Sem OsKernel.Kernel.Sched
open Function (update update_apply update_eq_self update_idem update_of_ne update_self)

/-! ## The invariant -/

inductive Phase where
  | unborn
  | alive
  /-- has posted its exit -/
  | gone
deriving DecidableEq

def Pc.phase : Pc → Phase
  | .unborn => .unborn
  | .leaving | .dead => .gone
  | _ => .alive

/-- how many tokens a process has asked for in `wait` and not used yet -/
def Pc.taken : Pc → ℤ
  | .asleep _ | .reaping => 1
  | _ => 0

def Sys.phase (s : Sys) (p : ℕ) : Phase := (s.pc p).phase

/-- the states a process can have at a place in its code -/
def Fits (st : ProcState) : Pc → Prop
  | .unborn => st = .unused
  | .dead => st = .zombie
  | .leaving => st = .running
  | .asleep false => st = .sleeping
  | _ => st = .running ∨ st = .runnable

structure Kin (live : List ℕ) (parent : ℕ → Option ℕ) (phase : ℕ → Phase) (serial : ℕ → ℕ) (next : ℕ) : Prop where
  orphan : ∀ p ∈ live, parent p = none → phase p = .unborn
  above : ∀ p ∈ live, ∀ q, parent p = some q → phase q = .alive ∧ (q = rootProc ∨ serial q < serial p)
  serial_lt : ∀ p ∈ live, serial p < next
  serial_inj : ∀ p ∈ live, ∀ q ∈ live, serial p = serial q → p = q
  root : serial rootProc = 0 ∧ phase rootProc = .alive

structure Handles (live : List ℕ) (parent : ℕ → Option ℕ) (phase : ℕ → Phase) (pc : ℕ → Pc) (creator : ℕ → Option ℕ)
    (serial : ℕ → ℕ) : Prop where
  owned : ∀ p ∈ live, ∀ n, creator p = some n → phase p = .unborn ∧ n < serial p
  forked : ∀ q ∈ live, ∀ p, pc q = .forked p → p ∈ live ∧ creator p = some (serial q) ∧ parent p = none
  starting : ∀ q ∈ live, ∀ p, pc q = .starting p → p ∈ live ∧ creator p = some (serial q) ∧ parent p ≠ none

structure Places (live : List ℕ) (state : ℕ → ProcState) (pc : ℕ → Pc) (schedLock : Option ℕ) : Prop where
  fits : ∀ p ∈ live, Fits (state p) (pc p)
  holder : ∀ p, schedLock = some p → p ∈ live ∧ pc p = .leaving
  leaving : ∀ p ∈ live, pc p = .leaving → schedLock = some p

/-- the semaphore of p, which is at x, has a token for each of n children -/
structure Balanced (sem : Semaphore) (p : ℕ) (x : Pc) (n : ℕ) : Prop where
  ok : SemOk sem
  sleepers : sem.sleeplist = if x = .asleep false then [p] else []
  balance : sem.val + x.taken = n

def Tokens (off : List ℕ) (live : List ℕ) (phase : ℕ → Phase) (pc : ℕ → Pc) (childexit : ℕ → Semaphore)
    (children : ℕ → List ℕ) : Prop :=
  ∀ p ∈ live, p ∉ off → phase p ≠ .gone →
    Balanced (childexit p) p (pc p) ((children p).countP fun c => phase c = .gone)

structure Pids (live : List ℕ) (pid : ℕ → ℕ) (pidMap : PidMap) : Prop where
  lt : ∀ p ∈ live, pid p < numPids
  inj : ∀ p ∈ live, ∀ q ∈ live, pid p = pid q → p = q
  free : ∀ n < numPids, isFree pidMap n = false ↔ ∃ p ∈ live, pid p = n
  bound : live.length ≤ pageCount
  root : pid rootProc = 0

/-- who may free a process: its first parent, or the root when that one has exited -/
def Heir (exits : List Exit) (first reaper : ℕ) : Prop := reaper = first ∨ reaper = 0 ∧ ∃ e ∈ exits, e.serial = first

structure History (leaver : Option ℕ) (s : Sys) : Prop where
  gone : ∀ p ∈ s.live, s.phase p = .gone → ⟨s.serial p, s.pid p, s.exitcode p⟩ ∈ s.exits
  alive : ∀ e ∈ s.exits, ∀ p ∈ s.live, some p ≠ leaver → s.serial p = e.serial → s.phase p = .gone
  past : ∀ e ∈ s.exits, e.serial < s.next
  first : ∀ p ∈ s.live, p ≠ rootProc → ∀ q, s.parent p = some q → Heir s.exits (s.first p) (s.serial q)
  once : (s.reaps.map (·.serial)).Nodup
  reaped : ∀ r ∈ s.reaps, ⟨r.serial, r.pid, r.code⟩ ∈ s.exits ∧ (∀ p ∈ s.live, s.serial p ≠ r.serial) ∧
    Heir s.exits r.first r.reaper

structure Inv (off : List ℕ) (leaver : Option ℕ) (s : Sys) : Prop where
  forest : IsForest rootProc s.live s.parent s.children
  kin : Kin s.live s.parent s.phase s.serial s.next
  handles : Handles s.live s.parent s.phase s.pc s.creator s.serial
  places : Places s.live s.state s.pc s.schedLock
  tokens : Tokens off s.live s.phase s.pc s.childexit s.children
  pids : Pids s.live s.pid s.pidMap
  history : History leaver s
  missed : s.missed = 0

variable {pc : ℕ → Pc} {first n next p q r reaper this : ℕ} {x : Pc} {creator parent : ℕ → Option ℕ} {l live off : List ℕ}
  {phase phase' : ℕ → Phase} {pid serial : ℕ → ℕ} {leaver schedLock : Option ℕ} {st : ProcState} {state : ℕ → ProcState}
  {childexit : ℕ → Semaphore} {children : ℕ → List ℕ} {sem : Semaphore} {s s' : Sys} {exits : List Exit} {pidMap : PidMap}

theorem phase_update (h : x.phase = (pc q).phase) (p : ℕ) :
    (update pc q x p).phase = (pc p).phase := by
  by_cases hp : p = q
  · rw [hp, update_self, h]
  · rw [update_of_ne hp]

/-! ## A process moves on in its code -/

theorem Handles.touch
    (h : Handles live parent phase pc creator serial)
    (hforked : ∀ p, x = .forked p → p ∈ live ∧ creator p = some (serial q) ∧ parent p = none)
    (hstarting : ∀ p, x = .starting p → p ∈ live ∧ creator p = some (serial q) ∧ parent p ≠ none) :
    Handles live parent phase (update pc q x) creator serial := by
  obtain ⟨howned, hforked', hstarting'⟩ := h
  constructor <;> grind [update_apply]

theorem Places.touch
    (h : Places live state pc schedLock) (hfits : Fits st x)
    (hleaving : x = .leaving ↔ pc q = .leaving) :
    Places live (update state q st) (update pc q x) schedLock := by
  obtain ⟨hfits', hholder, hleaving'⟩ := h
  constructor <;> grind [update_apply]

theorem Tokens.touch
    (h : Tokens (q :: off) live phase pc childexit children)
    (hbal : q ∉ off → phase q ≠ .gone → Balanced sem q x ((children q).countP fun c => phase c = .gone)) :
    Tokens off live phase (update pc q x) (update childexit q sem) children := by
  intro p hp hoff hgone
  by_cases hpq : p = q
  · rw [hpq] at hoff hgone ⊢
    rw [update_self, update_self]
    exact hbal hoff hgone
  · rw [update_of_ne hpq, update_of_ne hpq]
    exact h p hp (List.not_mem_cons_of_ne_of_not_mem hpq hoff) hgone

/-- one process changes its place, its state and its semaphore, but not its phase -/
theorem Inv.touch (hi : Inv (q :: off) leaver s)
    (hphase : x.phase = s.phase q) (hfits : Fits st x)
    (hleaving : x = .leaving ↔ s.pc q = .leaving)
    (hbal : q ∉ off → s.phase q ≠ .gone → Balanced sem q x ((s.children q).countP fun c => s.phase c = .gone))
    (hforked : ∀ p, x = .forked p → p ∈ s.live ∧ s.creator p = some (s.serial q) ∧ s.parent p = none)
    (hstarting : ∀ p, x = .starting p → p ∈ s.live ∧ s.creator p = some (s.serial q) ∧ s.parent p ≠ none) :
    Inv off leaver { s with
      pc := update s.pc q x
      state := update s.state q st
      childexit := update s.childexit q sem } := by
  have hph : ({ s with
      pc := update s.pc q x
      state := update s.state q st
      childexit := update s.childexit q sem } : Sys).phase = s.phase := funext (phase_update hphase)
  refine ⟨hi.forest, ?_, ?_, hi.places.touch hfits hleaving, ?_, hi.pids, ?_, hi.missed⟩
  · rw [hph]
    exact hi.kin
  · rw [hph]
    exact hi.handles.touch hforked hstarting
  · rw [hph]
    exact hi.tokens.touch hbal
  · obtain ⟨h1, h2, h3, h4, h5, h6⟩ := hi.history
    rw [← hph] at h1 h2
    exact ⟨h1, h2, h3, h4, h5, h6⟩

theorem Inv.mono {off' : List ℕ} (hi : Inv off leaver s) (h : ∀ p ∈ off, p ∈ off') :
    Inv off' leaver s :=
  { hi with tokens := fun p hp hoff => hi.tokens p hp fun hm => hoff (h p hm) }

/-- one process changes its place only, from one in which it is alive to another -/
theorem Inv.goto (hi : Inv [] none s) {y : Pc} (hq : s.At q y) (hfrom : y.phase = .alive)
    (hx : x.phase = .alive) (hfits : Fits .running x) (htaken : x.taken = y.taken)
    (hsleep : x ≠ .asleep false ∧ y ≠ .asleep false)
    (hforked : ∀ p, x = .forked p → p ∈ s.live ∧ s.creator p = some (s.serial q) ∧ s.parent p = none)
    (hstarting : ∀ p, x = .starting p → p ∈ s.live ∧ s.creator p = some (s.serial q) ∧ s.parent p ≠ none) :
    Inv [] none (s.goto q x) := by
  have heq : s.goto q x = { s with
      pc := update s.pc q x
      state := update s.state q (s.state q)
      childexit := update s.childexit q (s.childexit q) } := by
    simp only [Sys.goto, update_eq_self]
  have hne : ∀ y : Pc, y.phase = .alive → y ≠ .leaving := by
    rintro y hy rfl
    cases hy
  obtain ⟨hlive, hst, rfl⟩ := hq
  rw [heq]
  refine (hi.mono (List.forall_mem_nil _)).touch (hx.trans hfrom.symm) (hst ▸ hfits) (iff_of_false (hne x hx) (hne _ hfrom)) ?_
    hforked hstarting
  intro _ hgone
  obtain ⟨hok, hsleepers, hbal⟩ := hi.tokens q hlive List.not_mem_nil hgone
  rw [if_neg hsleep.2] at hsleepers
  refine ⟨hok, ?_, ?_⟩
  · rw [if_neg hsleep.1, hsleepers]
  · rw [htaken, hbal]

/-! ## Posting -/

/-- a post adds a token, or wakes the process whose semaphore it is -/
theorem postChildexit_eq (hb : Balanced (s.childexit r) r (s.pc r) n) (hf : Fits (s.state r) (s.pc r)) :
    ∃ x st sem, postChildexit s r = some { s with
        pc := update s.pc r x
        state := update s.state r st
        childexit := update s.childexit r sem } ∧
      Balanced sem r x (n + 1) ∧ Fits st x ∧ (x = s.pc r ∨ s.pc r = .asleep false ∧ x = .asleep true) := by
  obtain ⟨hok, hsleepers, hbal⟩ := hb
  by_cases hs : s.pc r = .asleep false
  · rw [if_pos hs] at hsleepers
    have hpost := postSem_wake hok (l := []) hsleepers
    have hst : s.state r = .sleeping := by rw [hs] at hf; exact hf
    refine ⟨.asleep true, .runnable, ⟨(s.childexit r).val + 1, []⟩, ?_, ⟨semOk_postSem hok hpost, rfl, ?_⟩, Or.inr rfl,
      Or.inr ⟨hs, rfl⟩⟩
    · simp only [postChildexit, hpost, hst, activated, Option.map_some]
    · rw [hs] at hbal
      simp only [Pc.taken] at hbal ⊢
      push_cast
      omega
  · rw [if_neg hs] at hsleepers
    have hpost := postSem_token hok hsleepers
    refine ⟨s.pc r, s.state r, ⟨(s.childexit r).val + 1, (s.childexit r).sleeplist⟩, ?_, ⟨semOk_postSem hok hpost, ?_, ?_⟩, hf,
      Or.inl rfl⟩
    · simp only [postChildexit, hpost, update_eq_self]
    · rw [if_neg hs]
      exact hsleepers
    · push_cast
      omega

/-- what a post on r's semaphore leaves as it is -/
structure Posted (r : ℕ) (s s' : Sys) : Prop where
  live : s'.live = s.live
  pid : s'.pid = s.pid
  exitcode : s'.exitcode = s.exitcode
  children : s'.children = s.children
  parent : s'.parent = s.parent
  schedLock : s'.schedLock = s.schedLock
  serial : s'.serial = s.serial
  exits : s'.exits = s.exits
  phase : s'.phase = s.phase
  other : ∀ q ≠ r, s'.pc q = s.pc q ∧ s'.state q = s.state q

/-- the token that was missing -/
theorem Inv.post (hi : Inv (r :: off) leaver s) (hr : r ∈ s.live)
    (hb : Balanced (s.childexit r) r (s.pc r) n)
    (hn : r ∉ off → ((s.children r).countP fun c => s.phase c = .gone) = n + 1) :
    ∃ s', postChildexit s r = some s' ∧ Inv off leaver s' ∧ Balanced (s'.childexit r) r (s'.pc r) (n + 1) ∧ Posted r s s' := by
  obtain ⟨x, st, sem, hpost, hb', hf, hx⟩ := postChildexit_eq hb (hi.places.fits r hr)
  have hphase : x.phase = s.phase r := by
    rcases hx with rfl | ⟨hs, rfl⟩
    · rfl
    · rw [Sys.phase, hs]
      rfl
  have hother : ∀ q ≠ r, update s.pc r x q = s.pc q ∧ update s.state r st q = s.state q := fun q hq =>
    ⟨update_of_ne hq .., update_of_ne hq ..⟩
  refine ⟨_, hpost, hi.touch hphase hf ?_ ?_ ?_ ?_, ?_,
    ⟨rfl, rfl, rfl, rfl, rfl, rfl, rfl, rfl, funext (phase_update hphase), hother⟩⟩
  · rcases hx with rfl | ⟨hs, rfl⟩
    · rfl
    · rw [hs]
      exact iff_of_false nofun nofun
  · intro hoff _
    rw [hn hoff]
    exact hb'
  · intro p hp
    rcases hx with rfl | ⟨-, rfl⟩
    · exact hi.handles.forked r hr p hp
    · cases hp
  · intro p hp
    rcases hx with rfl | ⟨-, rfl⟩
    · exact hi.handles.starting r hr p hp
    · cases hp
  · change Balanced (update s.childexit r sem r) r (update s.pc r x r) (n + 1)
    rw [update_self, update_self]
    exact hb'

/-! ## Exit -/

theorem Heir.mono {exits' : List Exit} (h : Heir exits first reaper) (hsub : exits ⊆ exits') :
    Heir exits' first reaper := by
  rcases h with h | ⟨h, e, he, hfirst⟩
  · exact Or.inl h
  · exact Or.inr ⟨h, e, hsub he, hfirst⟩

theorem Heir.root (h : Heir exits first reaper) (he : ∃ e ∈ exits, e.serial = reaper) :
    Heir exits first 0 := by
  rcases h with rfl | ⟨-, h⟩
  · exact Or.inr ⟨rfl, he⟩
  · exact Or.inr ⟨rfl, h⟩

/-- a process gets another parent, which is alive and the root or older -/
theorem Kin.adopt
    (h : Kin live parent phase serial next) (hr : phase r = .alive) (hold : r = rootProc ∨ serial r < serial p) :
    Kin live (update parent p (some r)) phase serial next := by
  obtain ⟨horphan, habove, hlt, hinj, hroot⟩ := h
  constructor <;> grind [update_apply]

theorem Handles.adopt
    (h : Handles live parent phase pc creator serial) (hp : ∀ q ∈ live, pc q ≠ .forked p) :
    Handles live (update parent p (some r)) phase pc creator serial := by
  obtain ⟨howned, hforked, hstarting⟩ := h
  constructor <;> grind [update_apply]

/-- `this` is in the region of `exit` under `plock` -/
structure Giving (this : ℕ) (s : Sys) : Prop where
  inv : Inv [this] (some this) s
  mem : this ∈ s.live
  ne_root : this ≠ rootProc
  place : s.pc this = .user
  state : s.state this = .running
  lock : s.schedLock = none
  entry : ⟨s.serial this, s.pid this, s.exitcode this⟩ ∈ s.exits

/-- one turn of the loop, without the post -/
theorem Giving.give (h : Giving this s) (hch : s.children this = p :: l) :
    Inv [rootProc, this] (some this) { s with
      parent := update s.parent p (some rootProc)
      children := update (update s.children this l) rootProc (s.children rootProc ++ [p]) } := by
  have hi := h.inv
  have hp : p ∈ s.children this := hch ▸ List.mem_cons_self
  obtain ⟨hlive, hroot, hpar⟩ := (hi.forest.mem this h.mem p).1 hp
  have herase : (s.children this).erase p = l := by rw [hch, List.erase_cons_head]
  refine ⟨?_, hi.kin.adopt hi.kin.root.2 (Or.inl rfl), hi.handles.adopt ?_, hi.places, ?_, hi.pids, ?_, hi.missed⟩
  · have hadopt := (hi.forest.orphan h.mem hp).adopt (l := s.children rootProc ++ [p]) hlive hroot (update_self ..)
      hi.forest.root_mem ?_
    · rw [update_idem, herase] at hadopt
      exact hadopt
    · rw [update_of_ne h.ne_root.symm]
      exact List.perm_append_singleton p _
  · intro q hq hx
    exact absurd (hpar.symm.trans (hi.handles.forked q hq p hx).2.2) nofun
  · intro q hq hoff hgone
    obtain ⟨hqr, hqt⟩ : q ≠ rootProc ∧ q ≠ this := by simpa using hoff
    simp only [update_of_ne hqr, update_of_ne hqt]
    exact hi.tokens q hq (by simpa using hqt) hgone
  · refine { hi.history with first := ?_ }
    intro x hx hxr q hq
    by_cases hxp : x = p
    · simp only [hxp, update_self] at hq
      obtain rfl := Option.some.inj hq
      rw [hxp, hi.kin.root.1]
      exact (hi.history.first p hlive hroot this hpar).root ⟨_, h.entry, rfl⟩
    · simp only [update_of_ne hxp] at hq
      exact hi.history.first x hx hxr q hq

theorem Fits.zombie_iff (h : Fits st x) (hx : x ≠ .leaving) : st = .zombie ↔ x.phase = .gone := by
  cases x with
  | leaving => exact absurd rfl hx
  | dead => exact iff_of_true h rfl
  | asleep up =>
    refine iff_of_false ?_ nofun
    rintro rfl
    cases up <;> simp [Fits] at h
  | _ =>
    refine iff_of_false ?_ nofun
    rintro rfl
    simp [Fits] at h

/-- with the scheduler lock free, the processes that have posted their exit are the zombies -/
theorem Places.zombie_iff (h : Places live state pc none)
    (hp : p ∈ live) : state p = .zombie ↔ (pc p).phase = .gone :=
  (h.fits p hp).zombie_iff fun he => nomatch h.leaving p hp he

theorem Giving.turn (h : Giving this s) (hch : s.children this = p :: l) :
    ∃ s', giveChildren this (p :: l) s = giveChildren this l s' ∧ Giving this s' ∧ s'.children this = l := by
  let s1 : Sys := { s with
    parent := update s.parent p (some rootProc)
    children := update (update s.children this l) rootProc (s.children rootProc ++ [p]) }
  have hi1 : Inv [rootProc, this] (some this) s1 := h.give hch
  have hne : rootProc ≠ this := h.ne_root.symm
  have hch1 : s1.children this = l := by
    change update (update s.children this l) rootProc _ this = l
    rw [update_of_ne h.ne_root, update_self]
  have hroot1 : s1.children rootProc = s.children rootProc ++ [p] := by
    simp only [s1, update_self]
  have hlive : p ∈ s.live := ((h.inv.forest.mem this h.mem p).1 (hch ▸ List.mem_cons_self)).1
  have hunfold : giveChildren this (p :: l) s =
      if s.state p = .zombie then
        (postChildexit s1 rootProc).bind (giveChildren this l)
      else giveChildren this l s1 := by
    simp only [giveChildren, s1, update_of_ne hne]
    cases postChildexit _ rootProc <;> rfl
  have hzombie : s.state p = .zombie ↔ s.phase p = .gone := by
    have hpl := h.inv.places
    rw [h.lock] at hpl
    exact hpl.zombie_iff hlive
  have hroot : Balanced (s.childexit rootProc) rootProc (s.pc rootProc)
      ((s.children rootProc).countP fun c => s.phase c = .gone) := by
    refine h.inv.tokens rootProc h.inv.forest.root_mem (by simpa using hne) ?_
    rw [h.inv.kin.root.2]
    decide
  by_cases hz : s.state p = .zombie
  · have hcount : ((s1.children rootProc).countP fun c => s1.phase c = .gone) =
        ((s.children rootProc).countP fun c => s.phase c = .gone) + 1 := by
      have : s1.phase p = .gone := hzombie.1 hz
      rw [hroot1, List.countP_append, List.countP_singleton, this]
      rfl
    obtain ⟨s2, hpost, hi2, -, hsame⟩ := hi1.post hi1.forest.root_mem hroot fun _ => hcount
    have hother := hsame.other this h.ne_root
    refine ⟨s2, ?_, ⟨hi2, ?_, h.ne_root, hother.1.trans h.place, hother.2.trans h.state, hsame.schedLock.trans h.lock, ?_⟩, ?_⟩
    · rw [hunfold, if_pos hz, hpost, Option.bind_some]
    · rw [hsame.live]
      exact h.mem
    · rw [hsame.serial, hsame.pid, hsame.exitcode, hsame.exits]
      exact h.entry
    · rw [hsame.children]
      exact hch1
  · refine ⟨s1, ?_, ⟨?_, h.mem, h.ne_root, h.place, h.state, h.lock, h.entry⟩, hch1⟩
    · rw [hunfold, if_neg hz]
    · refine { hi1 with tokens := ?_ }
      intro q hq hoff hgone
      by_cases hqr : q = rootProc
      · rw [hqr, hroot1, List.countP_append]
        have : s1.phase p ≠ .gone := fun hg => hz (hzombie.2 hg)
        simp only [List.countP_singleton, this, decide_false, Bool.false_eq_true, if_false, Nat.add_zero]
        exact hroot
      · exact hi1.tokens q hq (List.not_mem_cons_of_ne_of_not_mem hqr hoff) hgone

theorem giveChildren_ok (l : List ℕ) (h : Giving this s) (hch : s.children this = l) :
    ∃ s', giveChildren this l s = some s' ∧ Giving this s' ∧ s'.children this = [] := by
  induction l generalizing s with
  | nil => exact ⟨s, rfl, h, hch⟩
  | cons p l ih =>
    obtain ⟨s1, heq, h1, hch1⟩ := h.turn hch
    obtain ⟨s', hs', h', hnil⟩ := ih h1 hch1
    exact ⟨s', heq.trans hs', h', hnil⟩

/-- one process more is gone -/
theorem countP_gone (hl : l.Nodup) {f g : ℕ → Phase} {a : ℕ} (hf : f a ≠ .gone) (hg : g a = .gone)
    (hother : ∀ x ≠ a, g x = f x) :
    (l.countP fun c => g c = .gone) = (l.countP fun c => f c = .gone) + if a ∈ l then 1 else 0 := by
  induction l with
  | nil => rfl
  | cons x l ih =>
    obtain ⟨hx, hl⟩ := List.nodup_cons.1 hl
    rw [List.countP_cons, List.countP_cons, ih hl]
    by_cases hxa : x = a
    · rw [hxa] at hx ⊢
      simp [hf, hg, hx]
    · have hmem : a ∈ x :: l ↔ a ∈ l := by
        rw [List.mem_cons]
        exact or_iff_right (Ne.symm hxa)
      simp only [hother x hxa, hmem]
      omega

section Leave

variable {live : List ℕ} {parent : ℕ → Option ℕ} {phase phase' : ℕ → Phase} {pc : ℕ → Pc} {a : ℕ}

/-- a process without children goes -/
theorem Kin.leave (h : Kin live parent phase serial next) (hother : ∀ x ≠ a, phase' x = phase x)
    (hroot : a ≠ rootProc) (hpar : parent a ≠ none) (hleaf : ∀ p ∈ live, parent p ≠ some a) :
    Kin live parent phase' serial next := by
  obtain ⟨horphan, habove, hlt, hinj, hroot⟩ := h
  constructor <;> grind

theorem Handles.leave (h : Handles live parent phase pc creator serial)
    (hother : ∀ x ≠ a, phase' x = phase x) (ha : phase a ≠ .unborn) : Handles live parent phase' pc creator serial := by
  obtain ⟨howned, hforked, hstarting⟩ := h
  constructor <;> grind

theorem Places.leave (h : Places live state pc none) (ha : a ∈ live) (hst : state a = .running) :
    Places live state (update pc a .leaving) (some a) := by
  obtain ⟨hfits, hholder, hleaving⟩ := h
  constructor <;> grind [update_apply, Fits]

/-- the parent has got the token for it already -/
theorem Tokens.leave
    (h : Tokens [r, a] live phase pc childexit children) (hf : IsForest rootProc live parent children)
    (hpar : parent a = some r) (ha : a ∈ live) (hroot : a ≠ rootProc) (halive : phase a ≠ .gone) (hgone : phase' a = .gone)
    (hother : ∀ x ≠ a, phase' x = phase x)
    (hb : Balanced (childexit r) r (pc r) (((children r).countP fun c => phase c = .gone) + 1)) :
    Tokens [] live phase' (update pc a .leaving) childexit children := by
  intro p hp _ hpg
  have hpa : p ≠ a := fun he => hpg (he ▸ hgone)
  rw [update_of_ne hpa, countP_gone (hf.nodup p hp) halive hgone hother]
  by_cases hpr : p = r
  · rw [hpr] at hp ⊢
    rw [if_pos ((hf.mem r hp a).2 ⟨ha, hroot, hpar⟩)]
    exact hb
  · have hout : a ∉ children p := fun hm => hpr (Option.some.inj (((hf.mem p hp a).1 hm).2.2.symm.trans hpar))
    rw [if_neg hout]
    refine h p hp (by simp [hpr, hpa]) ?_
    rw [← hother p hpa]
    exact hpg

end Leave

/-- the process has given its children away, its parent has got its token, and it takes the scheduler lock -/
theorem Giving.leave (h : Giving this s) (hch : s.children this = []) (hpar : s.parent this = some r) :
    ∃ s', postChildexit s r = some s' ∧
      Inv [] none { s' with schedLock := some this, pc := update s'.pc this .leaving } := by
  have hi := h.inv
  have hr : r ∈ s.live := hi.forest.parent_mem this h.mem r hpar
  obtain ⟨halive, hold⟩ := hi.kin.above this h.mem r hpar
  have hne : r ≠ this := by
    rintro rfl
    rcases hold with hold | hold
    · exact h.ne_root hold
    · exact lt_irrefl _ hold
  have hleaf : ∀ p ∈ s.live, s.parent p ≠ some this := by
    intro p hp hpt
    by_cases hpr : p = rootProc
    · exact h.ne_root (hi.forest.root_parent this (hpr ▸ hpt))
    · have hm := (hi.forest.mem this h.mem p).2 ⟨hp, hpr, hpt⟩
      rw [hch] at hm
      cases hm
  have hb := hi.tokens r hr (by simpa using hne) (by rw [halive]; decide)
  have hi' : Inv (r :: [r, this]) (some this) s := hi.mono (by simp)
  obtain ⟨s', hpost, hi1, hb1, hsame⟩ := hi'.post hr hb fun hoff => absurd List.mem_cons_self hoff
  obtain ⟨hplace, hstate⟩ := hsame.other this hne.symm
  refine ⟨s', hpost, ?_⟩
  let t : Sys := { s' with schedLock := some this, pc := update s'.pc this .leaving }
  have hgone : t.phase this = .gone := by simp only [t, Sys.phase, update_self, Pc.phase]
  have hother : ∀ q ≠ this, t.phase q = s'.phase q := by
    intro q hq
    simp only [t, Sys.phase, update_of_ne hq]
  have hwas : s'.phase this = .alive := by
    rw [Sys.phase, hplace, h.place]
    rfl
  have hmem : this ∈ s'.live := hsame.live ▸ h.mem
  have hpar' : s'.parent this = some r := hsame.parent ▸ hpar
  have hlock : s'.schedLock = none := hsame.schedLock.trans h.lock
  change Inv [] none t
  refine ⟨hi1.forest, ?_, ?_, ?_, ?_, hi1.pids, ?_, hi1.missed⟩
  · refine hi1.kin.leave hother h.ne_root (by rw [hpar']; exact Option.some_ne_none r) ?_
    rw [hsame.live, hsame.parent]
    exact hleaf
  · exact (hi1.handles.leave hother (by rw [hwas]; decide)).touch nofun nofun
  · have hp := hi1.places
    rw [hlock] at hp
    exact hp.leave hmem (hstate.trans h.state)
  · refine hi1.tokens.leave hi1.forest hpar' hmem h.ne_root (by rw [hwas]; decide) hgone hother ?_
    rw [hsame.children, hsame.phase]
    exact hb1
  · obtain ⟨h1, h2, h3, h4, h5, h6⟩ := hi1.history
    refine ⟨?_, ?_, h3, h4, h5, h6⟩
    · intro p hp hpg
      by_cases hpt : p = this
      · rw [hpt]
        change ⟨s'.serial this, s'.pid this, s'.exitcode this⟩ ∈ s'.exits
        rw [hsame.serial, hsame.pid, hsame.exitcode, hsame.exits]
        exact h.entry
      · rw [hother p hpt] at hpg
        exact h1 p hp hpg
    · intro e he p hp _ hser
      by_cases hpt : p = this
      · rw [hpt, hgone]
      · rw [hother p hpt]
        exact h2 e he p hp (fun hpl => hpt (Option.some.inj hpl)) hser

/-- how the region begins -/
theorem Inv.giving (hi : Inv [] none s) (hq : s.At q .user) (hroot : q ≠ rootProc)
    (hlock : s.schedLock = none) (code : ℤ) :
    Giving q { s with
      exitcode := update s.exitcode q code
      exits := ⟨s.serial q, s.pid q, code⟩ :: s.exits } := by
  obtain ⟨hlive, hst, hpc⟩ := hq
  have hsub : s.exits ⊆ ⟨s.serial q, s.pid q, code⟩ :: s.exits := List.subset_cons_self ..
  have hhist : History (some q) { s with
      exitcode := update s.exitcode q code
      exits := ⟨s.serial q, s.pid q, code⟩ :: s.exits } := by
    obtain ⟨h1, h2, h3, h4, h5, h6⟩ := hi.history
    refine ⟨?_, ?_, ?_, ?_, h5, ?_⟩
    · intro p hp hg
      have hpq : p ≠ q := by
        rintro rfl
        change (s.pc p).phase = .gone at hg
        rw [hpc] at hg
        cases hg
      simp only [update_of_ne hpq]
      exact List.mem_cons_of_mem _ (h1 p hp hg)
    · intro e he p hp hpq hser
      rcases List.mem_cons.1 he with rfl | he
      · exact absurd (congrArg some (hi.kin.serial_inj p hp q hlive hser)) hpq
      · exact h2 e he p hp nofun hser
    · intro e he
      rcases List.mem_cons.1 he with rfl | he
      · exact hi.kin.serial_lt q hlive
      · exact h3 e he
    · intro p hp hpr r hr
      exact (h4 p hp hpr r hr).mono hsub
    · intro r hr
      obtain ⟨he, hfree, hheir⟩ := h6 r hr
      exact ⟨hsub he, hfree, hheir.mono hsub⟩
  have hentry : (⟨s.serial q, s.pid q, update s.exitcode q code q⟩ : Exit) ∈
      ⟨s.serial q, s.pid q, code⟩ :: s.exits := by
    rw [update_self]
    exact List.mem_cons_self
  have hi' : Inv [q] none s := hi.mono (List.forall_mem_nil _)
  exact ⟨⟨hi'.forest, hi'.kin, hi'.handles, hi'.places, hi'.tokens, hi'.pids, hhist, hi'.missed⟩, hlive, hroot, hpc, hst,
    hlock, hentry⟩

/-- **Exit.** A process other than the root can leave at any time the scheduler lock is free. -/
theorem exitProc_ok (hi : Inv [] none s) (hq : s.At q .user) (hroot : q ≠ rootProc)
    (hlock : s.schedLock = none) (code : ℤ) : ∃ s', exitProc s q code = some s' ∧ Inv [] none s' := by
  obtain ⟨s1, h1, hg, hch⟩ := giveChildren_ok _ (hi.giving hq hroot hlock code) rfl
  obtain ⟨r, hr⟩ : ∃ r, s1.parent q = some r := by
    apply Option.ne_none_iff_exists'.1
    intro hnone
    have hun := hg.inv.kin.orphan q hg.mem hnone
    rw [Sys.phase, hg.place] at hun
    cases hun
  obtain ⟨s2, h2, hinv⟩ := hg.leave hch hr
  refine ⟨_, ?_, hinv⟩
  change (giveChildren q (s.children q) _).bind _ = _
  rw [h1]
  change (s1.parent q).bind _ = _
  rw [hr]
  change (postChildexit s1 r).bind _ = _
  rw [h2]
  rfl

/-- `sched(ZOMBIE)` -/
theorem Inv.zombie (hi : Inv [] none s) (hq : s.At q .leaving) :
    Inv [] none { s.goto q .dead with state := update s.state q .zombie, schedLock := none } := by
  obtain ⟨hlive, -, hpc⟩ := hq
  have hlock : s.schedLock = some q := hi.places.leaving q hlive hpc
  have hphase : Pc.dead.phase = (s.pc q).phase := by rw [hpc]; rfl
  have hph : ({ s.goto q .dead with state := update s.state q .zombie, schedLock := none } : Sys).phase = s.phase :=
    funext (phase_update hphase)
  refine ⟨hi.forest, ?_, ?_, ?_, ?_, hi.pids, ?_, hi.missed⟩
  · rw [hph]
    exact hi.kin
  · rw [hph]
    exact hi.handles.touch nofun nofun
  · change Places s.live (update s.state q .zombie) (update s.pc q .dead) none
    obtain ⟨hfits, hholder, hleaving⟩ := hi.places
    constructor <;> grind [update_apply, Fits]
  · rw [hph]
    have htok : Tokens [] s.live s.phase (update s.pc q .dead) (update s.childexit q (s.childexit q))
        s.children := by
      refine Tokens.touch (fun p hp _ => hi.tokens p hp List.not_mem_nil) ?_
      intro _ hgone
      rw [Sys.phase, hpc] at hgone
      exact absurd rfl hgone
    rw [update_eq_self] at htok
    exact htok
  · obtain ⟨h1, h2, h3, h4, h5, h6⟩ := hi.history
    rw [← hph] at h1 h2
    exact ⟨h1, h2, h3, h4, h5, h6⟩

/-! ## Birth -/

section Birth

variable {live : List ℕ} {p : ℕ}

theorem Kin.add
    (h : Kin live parent phase serial next) (hroot : rootProc ∈ live) (hp : p ∉ live) (hself : phase' p = .unborn)
    (hother : ∀ x ≠ p, phase' x = phase x) (hpar : ∀ x ∈ live, ∀ q, parent x = some q → q ∈ live) :
    Kin (p :: live) (update parent p none) phase' (update serial p next) (next + 1) := by
  obtain ⟨horphan, habove, hlt, hinj, hroot⟩ := h
  constructor <;> grind [update_apply]

theorem Handles.add
    (h : Handles live parent phase pc creator serial) (hp : p ∉ live)
    (hself : phase' p = .unborn) (hother : ∀ x ≠ p, phase' x = phase x) (hn : n < next) :
    Handles (p :: live) (update parent p none) phase' (update pc p .unborn)
      (update creator p (some n)) (update serial p next) := by
  obtain ⟨howned, hforked, hstarting⟩ := h
  constructor <;> grind [update_apply]

theorem Places.add (h : Places live state pc schedLock)
    (hp : p ∉ live) :
    Places (p :: live) (update state p .unused) (update pc p .unborn) schedLock := by
  obtain ⟨hfits, hholder, hleaving⟩ := h
  constructor <;> grind [update_apply, Fits]

theorem Tokens.add
    (h : Tokens off live phase pc childexit children) (hp : p ∉ live)
    (hother : ∀ x ≠ p, phase' x = phase x) (hch : ∀ q ∈ live, ∀ x ∈ children q, x ∈ live) :
    Tokens off (p :: live) phase' (update pc p .unborn) (update childexit p (initSem 0))
      (update children p []) := by
  have hne : ∀ x ∈ live, x ≠ p := fun x hx => ne_of_mem_of_not_mem hx hp
  intro x hx hoff hgone
  rcases List.mem_cons.1 hx with rfl | hx
  · rw [update_self, update_self, update_self]
    exact ⟨semOk_init le_rfl, rfl, rfl⟩
  · rw [update_of_ne (hne x hx), update_of_ne (hne x hx), update_of_ne (hne x hx)]
    rw [hother x (hne x hx)] at hgone
    have hcount : ((children x).countP fun c => phase' c = .gone) = (children x).countP fun c => phase c = .gone := by
      apply List.countP_congr
      intro c hc
      rw [hother c (hne c (hch x hx c hc))]
    rw [hcount]
    exact h x hx hoff hgone

/-- there is a free number, since there are fewer pages than numbers -/
theorem Pids.exists_free (h : Pids live pid pidMap) :
    ∃ n < numPids, isFree pidMap n = true := by
  by_contra hnone
  have hall : ∀ n < numPids, ∃ q ∈ live, pid q = n := by
    intro n hn
    refine (h.free n hn).1 (Bool.eq_false_iff.2 fun hf => hnone ⟨n, hn, hf⟩)
  have hsub : Finset.range numPids ⊆ (live.map pid).toFinset := by
    intro n hn
    obtain ⟨q, hq, rfl⟩ := hall n (Finset.mem_range.1 hn)
    exact List.mem_toFinset.2 (List.mem_map_of_mem hq)
  have hcard := (Finset.card_le_card hsub).trans ((live.map pid).toFinset_card_le)
  rw [Finset.card_range, List.length_map] at hcard
  exact absurd (hcard.trans h.bound) (by decide)

theorem Pids.add (h : Pids live pid pidMap) (hroot : rootProc ∈ live) (hp : p ∉ live)
    (hroom : ¬ pageCount ≤ live.length) :
    Pids (p :: live) (update pid p (allocPid pidMap).1) (allocPid pidMap).2 := by
  have hne : ∀ x ∈ live, x ≠ p := fun x hx => ne_of_mem_of_not_mem hx hp
  obtain ⟨hlt, hfree, hrest⟩ := allocPid_spec h.exists_free
  obtain ⟨hlt', hinj, hused, hbound, hroot'⟩ := h
  constructor
  case free =>
    intro n hn
    rw [hrest, Bool.and_eq_false_iff, hused n hn, Bool.not_eq_false', decide_eq_true_eq]
    constructor
    · rintro (⟨q, hq, rfl⟩ | rfl)
      · exact ⟨q, List.mem_cons_of_mem p hq, update_of_ne (hne q hq) ..⟩
      · exact ⟨p, List.mem_cons_self, update_self ..⟩
    · rintro ⟨q, hq, rfl⟩
      rcases List.mem_cons.1 hq with rfl | hq
      · exact Or.inr (update_self ..)
      · exact Or.inl ⟨q, hq, (update_of_ne (hne q hq) ..).symm⟩
  all_goals grind [update_apply]

end Birth

theorem Inv.create (hi : Inv [] none s) (hq : q ∈ s.live) (hs : createProc s q p = some s') :
    Inv [] none s' ∧ s'.Handle q p ∧ s'.parent p = none ∧ q ∈ s'.live ∧ s'.pc q = s.pc q ∧ s'.state q = s.state q := by
  unfold createProc at hs
  split_ifs at hs with hguard
  obtain ⟨hp, hroom⟩ := not_or.1 hguard
  obtain rfl := Option.some.inj hs
  have hne : ∀ x ∈ s.live, x ≠ p := fun x hx => ne_of_mem_of_not_mem hx hp
  let t : Sys := { s with pc := update s.pc p .unborn }
  have hself : t.phase p = .unborn := by simp only [t, Sys.phase, update_self, Pc.phase]
  have hother : ∀ x ≠ p, t.phase x = s.phase x := by
    intro x hx
    simp only [t, Sys.phase, update_of_ne hx]
  have hchild : ∀ r ∈ s.live, ∀ x ∈ s.children r, x ∈ s.live := fun r hr x hx => ((hi.forest.mem r hr x).1 hx).1
  have hroot := hi.forest.root_mem
  refine ⟨⟨hi.forest.add hp, ?_, ?_, hi.places.add hp, ?_, hi.pids.add hroot hp hroom, ?_, hi.missed⟩, ⟨?_, ?_⟩, ?_,
    List.mem_cons_of_mem p hq, ?_, ?_⟩
  · exact hi.kin.add hroot hp hself hother hi.forest.parent_mem
  · exact hi.handles.add hp hself hother (hi.kin.serial_lt q hq)
  · exact hi.tokens.add hp hother hchild
  · obtain ⟨h1, h2, h3, h4, h5, h6⟩ := hi.history
    have hpar := hi.forest.parent_mem
    refine ⟨?_, ?_, fun e he => Nat.lt_succ_of_lt (h3 e he), ?_, h5, ?_⟩
    · change ∀ x ∈ _, t.phase x = .gone → _
      grind [update_apply]
    · change ∀ e ∈ _, ∀ x ∈ _, _ → _ → t.phase x = .gone
      grind [update_apply]
    · grind [update_apply]
    · grind [update_apply]
  · exact List.mem_cons_self
  · simp only [update_self, update_of_ne (hne q hq)]
  · simp only [update_self]
  · simp only [update_of_ne (hne q hq)]
  · simp only [update_of_ne (hne q hq)]

/-- a new child has not posted yet -/
theorem Tokens.adopt
    (h : Tokens off live phase pc childexit children) (hp : phase p ≠ .gone) :
    Tokens off live phase pc childexit (update children r (p :: children r)) := by
  intro x hx hoff hgone
  by_cases hxr : x = r
  · rw [hxr] at hx hoff hgone ⊢
    rw [update_self, List.countP_cons_of_neg (by simpa using hp)]
    exact h r hx hoff hgone
  · rw [update_of_ne hxr]
    exact h x hx hoff hgone

/-- a process gets its parent: its creator or the root -/
theorem Inv.link (hi : Inv [] none s) (hq : q ∈ s.live) (hpc : s.pc q = .user) (hh : s.Handle q p)
    (hnone : s.parent p = none) (hr : r = q ∨ r = rootProc) : Inv [] none (linkTo s r p) := by
  obtain ⟨hp, hcr⟩ := hh
  obtain ⟨hun, hlt⟩ := hi.handles.owned p hp _ hcr
  have hproot : p ≠ rootProc := by
    rintro rfl
    rw [hi.kin.root.2] at hun
    cases hun
  obtain ⟨hrlive, hralive, hold⟩ : r ∈ s.live ∧ s.phase r = .alive ∧ (r = rootProc ∨ s.serial r < s.serial p) := by
    rcases hr with rfl | rfl
    · exact ⟨hq, by rw [Sys.phase, hpc]; rfl, Or.inr hlt⟩
    · exact ⟨hi.forest.root_mem, hi.kin.root.2, Or.inl rfl⟩
  refine ⟨hi.forest.adopt hp hproot hnone hrlive (List.Perm.refl _), hi.kin.adopt hralive hold, hi.handles.adopt ?_, hi.places,
    hi.tokens.adopt (by rw [hun]; decide), hi.pids, ?_, hi.missed⟩
  · intro y hy hx
    obtain rfl := hi.kin.serial_inj y hy q hq (Option.some.inj ((hi.handles.forked y hy p hx).2.1.symm.trans hcr))
    exact absurd (hpc.symm.trans hx) nofun
  · refine { hi.history with first := ?_ }
    intro x hx hxr y hy
    by_cases hxp : x = p
    · simp only [linkTo, hxp, update_self] at hy ⊢
      obtain rfl := Option.some.inj hy
      exact Or.inl rfl
    · simp only [linkTo, update_of_ne hxp] at hy ⊢
      exact hi.history.first x hx hxr y hy

theorem Pc.eq_unborn (h : x.phase = .unborn) : x = .unborn := by
  cases x <;> first | rfl | cases h

theorem Kin.begin
    (h : Kin live parent phase serial next) (hun : phase p = .unborn) (hpar : parent p ≠ none)
    (hother : ∀ x ≠ p, phase' x = phase x) : Kin live parent phase' serial next := by
  obtain ⟨horphan, habove, hlt, hinj, hroot⟩ := h
  constructor <;> grind

theorem Handles.begin
    (h : Handles live parent phase pc creator serial)
    (hfree : ∀ q ∈ live, pc q ≠ .forked p ∧ pc q ≠ .starting p) (hother : ∀ x ≠ p, phase' x = phase x) :
    Handles live parent phase' (update pc p .user) (update creator p none) serial := by
  obtain ⟨howned, hforked, hstarting⟩ := h
  constructor <;> grind [update_apply]

/-- a process with a parent, which nobody is about to link or to start, starts -/
theorem Inv.begin (hi : Inv [] none s) (hpc : s.pc p = .unborn)
    (hpar : s.parent p ≠ none) (hfree : ∀ q ∈ s.live, s.pc q ≠ .forked p ∧ s.pc q ≠ .starting p) :
    Inv [] none { s with
      state := update s.state p .runnable
      pc := update s.pc p .user
      creator := update s.creator p none } := by
  let t : Sys := { s with
    state := update s.state p .runnable
    pc := update s.pc p .user
    creator := update s.creator p none }
  have hun : s.phase p = .unborn := by
    rw [Sys.phase, hpc]
    rfl
  have hself : t.phase p = .alive := by simp only [t, Sys.phase, update_self, Pc.phase]
  have hother : ∀ x ≠ p, t.phase x = s.phase x := by
    intro x hx
    simp only [t, Sys.phase, update_of_ne hx]
  have hgone : ∀ x, t.phase x = .gone ↔ s.phase x = .gone := by
    intro x
    by_cases hx : x = p
    · rw [hx, hself, hun]
      exact iff_of_false nofun nofun
    · rw [hother x hx]
  change Inv [] none t
  refine ⟨hi.forest, hi.kin.begin hun hpar hother, hi.handles.begin hfree hother,
    hi.places.touch (Or.inr rfl) (by rw [hpc]; exact iff_of_false nofun nofun), ?_, hi.pids, ?_, hi.missed⟩
  · intro x hx hoff hxg
    simp only [hgone]
    have hb := hi.tokens x hx hoff fun hg => hxg ((hgone x).2 hg)
    by_cases hxp : x = p
    · rw [hxp, hpc] at hb
      simp only [t, hxp, update_self]
      exact ⟨hb.ok, hb.sleepers, hb.balance⟩
    · simp only [t, update_of_ne hxp]
      exact hb
  · exact { hi.history with
      gone := fun x hx hg => hi.history.gone x hx ((hgone x).1 hg)
      alive := fun e he x hx hxl hser => (hgone x).2 (hi.history.alive e he x hx hxl hser) }

/-- `activate_proc` at the end of `start_proc` -/
theorem Inv.activate (hi : Inv [] none s) (hq : s.At q (.starting p)) :
    s.state p = .unused ∧ Inv [] none { s.goto q .user with
      state := update s.state p .runnable
      pc := update (update s.pc q .user) p .user
      creator := update s.creator p none } := by
  obtain ⟨hlive, -, hpc⟩ := id hq
  obtain ⟨hp, hcr, hpar⟩ := hi.handles.starting q hlive p hpc
  have hpcp : s.pc p = .unborn := Pc.eq_unborn (hi.handles.owned p hp _ hcr).1
  have hne : p ≠ q := by
    rintro rfl
    exact absurd (hpcp.symm.trans hpc) nofun
  have hunused : s.state p = .unused := by
    have := hi.places.fits p hp
    rw [hpcp] at this
    exact this
  -- first the process that starts it moves on, then the started one
  have hi1 : Inv [] none (s.goto q .user) := hi.goto hq rfl rfl (Or.inl rfl) rfl ⟨nofun, nofun⟩ nofun nofun
  have hpc1 : (s.goto q .user).pc p = .unborn := by
    simp only [Sys.goto, update_of_ne hne]
    exact hpcp
  have howner : ∀ x ∈ s.live, s.creator p = some (s.serial x) → x = q := fun x hx hc =>
    hi.kin.serial_inj x hx q hlive (Option.some.inj (hc.symm.trans hcr))
  have hq1 : (s.goto q .user).pc q = .user := by simp only [Sys.goto, update_self]
  have hfree : ∀ x ∈ s.live, (s.goto q .user).pc x ≠ .forked p ∧ (s.goto q .user).pc x ≠ .starting p := by
    intro x hx
    constructor
    · intro hxf
      have hxq : x = q := howner x hx (hi1.handles.forked x hx p hxf).2.1
      rw [hxq, hq1] at hxf
      cases hxf
    · intro hxs
      have hxq : x = q := howner x hx (hi1.handles.starting x hx p hxs).2.1
      rw [hxq, hq1] at hxs
      cases hxs
  exact ⟨hunused, hi1.begin hpc1 hpar hfree⟩

/-! ## Death -/

section Death

variable {live : List ℕ} {p q : ℕ}

theorem Kin.erase
    (h : Kin live parent phase serial next) : Kin (live.erase p) parent phase serial next :=
  ⟨fun x hx => h.orphan x (List.mem_of_mem_erase hx), fun x hx => h.above x (List.mem_of_mem_erase hx),
    fun x hx => h.serial_lt x (List.mem_of_mem_erase hx),
    fun x hx y hy => h.serial_inj x (List.mem_of_mem_erase hx) y (List.mem_of_mem_erase hy), h.root⟩

theorem Handles.erase
    (h : Handles live parent phase pc creator serial) (hp : phase p ≠ .unborn) :
    Handles (live.erase p) parent phase pc creator serial := by
  obtain ⟨howned, hforked, hstarting⟩ := h
  constructor <;> grind [List.mem_of_mem_erase]

theorem Places.erase (h : Places live state pc none) :
    Places (live.erase p) state pc none :=
  ⟨fun x hx => h.fits x (List.mem_of_mem_erase hx), nofun, fun x hx hl => h.leaving x (List.mem_of_mem_erase hx) hl⟩

/-- the child that is freed pays for the token that was taken -/
theorem Tokens.reap
    (h : Tokens [] live phase pc childexit children) (hpc : pc q = .reaping) (hp : p ∈ children q) (hgone : phase p = .gone) :
    Tokens [] (live.erase p) phase (update pc q .user) childexit
      (update children q ((children q).erase p)) := by
  intro x hx hoff hxg
  obtain ⟨hok, hsl, hbal⟩ := h x (List.mem_of_mem_erase hx) hoff hxg
  by_cases hxq : x = q
  · rw [hxq] at hok hsl hbal ⊢
    rw [update_self, update_self]
    rw [hpc] at hsl hbal
    have hcount : ((children q).countP fun c => phase c = .gone) =
        (((children q).erase p).countP fun c => phase c = .gone) + 1 := by
      rw [(List.perm_cons_erase hp).countP_eq, List.countP_cons_of_pos (by simpa using hgone)]
    rw [hcount] at hbal
    refine ⟨hok, hsl, ?_⟩
    simp only [Pc.taken] at hbal ⊢
    push_cast at hbal
    omega
  · rw [update_of_ne hxq, update_of_ne hxq]
    exact ⟨hok, hsl, hbal⟩

theorem Pids.erase (h : Pids live pid pidMap) (hnodup : live.Nodup) (hp : p ∈ live) :
    Pids (live.erase p) pid (freePid pidMap (pid p)) := by
  refine ⟨fun x hx => h.lt x (List.mem_of_mem_erase hx),
    fun x hx y hy => h.inj x (List.mem_of_mem_erase hx) y (List.mem_of_mem_erase hy), ?_, ?_, h.root⟩
  · intro n hn
    rw [isFree_freePid, Bool.or_eq_false_iff, h.free n hn, decide_eq_false_iff_not]
    constructor
    · rintro ⟨⟨x, hx, rfl⟩, hne⟩
      exact ⟨x, hnodup.mem_erase_iff.2 ⟨fun he => hne (he ▸ rfl), hx⟩, rfl⟩
    · rintro ⟨x, hx, rfl⟩
      obtain ⟨hxp, hx⟩ := hnodup.mem_erase_iff.1 hx
      exact ⟨⟨x, hx, rfl⟩, fun he => hxp (h.inj x hx p hp he)⟩
  · exact List.length_erase_le.trans h.bound

end Death

/-- `wait` frees a zombie -/
theorem Inv.reap (hi : Inv [] none s) (hq : s.At q .reaping) (hlock : s.schedLock = none) :
    ∃ p, p ∈ s.children q ∧ s.state p = .zombie ∧
      reapChild s q = { s with
        live := s.live.erase p
        children := update s.children q ((s.children q).erase p)
        pidMap := freePid s.pidMap (s.pid p)
        pc := update s.pc q .user
        reaps := ⟨s.serial q, s.serial p, s.first p, s.pid p, s.exitcode p⟩ :: s.reaps } ∧
      Inv [] none (reapChild s q) := by
  obtain ⟨hlive, hst, hpc⟩ := hq
  have hpl := hi.places
  rw [hlock] at hpl
  have hchild : ∀ p ∈ s.children q, p ∈ s.live := fun p hp => ((hi.forest.mem q hlive p).1 hp).1
  -- the token in hand is a child that has posted, and with the lock free it is a zombie
  have hpos : 0 < (s.children q).countP fun c => s.phase c = .gone := by
    obtain ⟨hok, hsl, hbal⟩ := hi.tokens q hlive List.not_mem_nil (by rw [Sys.phase, hpc]; decide)
    rw [hpc] at hbal hsl
    have hval : 0 ≤ (s.childexit q).val := by
      rw [SemOk, hsl] at hok
      simp only [reduceCtorEq, if_false, List.length_nil, Nat.cast_zero] at hok
      omega
    simp only [Pc.taken] at hbal
    omega
  obtain ⟨z, hz, hzg⟩ := List.countP_pos_iff.1 hpos
  obtain ⟨p, hfind⟩ : ∃ p, ((s.children q).find? fun p => s.state p = .zombie) = some p := by
    apply Option.isSome_iff_exists.1
    rw [List.find?_isSome]
    exact ⟨z, hz, decide_eq_true ((hpl.zombie_iff (hchild z hz)).2 (of_decide_eq_true hzg))⟩
  have hp : p ∈ s.children q := List.mem_of_find?_eq_some hfind
  have hzombie : s.state p = .zombie := by simpa using List.find?_some hfind
  have hgone : s.phase p = .gone := (hpl.zombie_iff (hchild p hp)).1 hzombie
  let t : Sys := { s with
    live := s.live.erase p
    children := update s.children q ((s.children q).erase p)
    pidMap := freePid s.pidMap (s.pid p)
    pc := update s.pc q .user
    reaps := ⟨s.serial q, s.serial p, s.first p, s.pid p, s.exitcode p⟩ :: s.reaps }
  have heq : reapChild s q = t := by
    rw [reapChild, hfind]
  refine ⟨p, hp, hzombie, heq, ?_⟩
  obtain ⟨hplive, hroot, hpar⟩ := (hi.forest.mem q hlive p).1 hp
  have hleaf : s.children p = [] := by
    apply List.eq_nil_iff_forall_not_mem.2
    intro c hc
    obtain ⟨hcl, -, hcp⟩ := (hi.forest.mem p hplive c).1 hc
    have := (hi.kin.above c hcl p hcp).1
    rw [hgone] at this
    cases this
  have hphase : Pc.user.phase = (s.pc q).phase := by
    rw [hpc]
    rfl
  have hph : t.phase = s.phase := funext (phase_update hphase)
  rw [heq]
  refine ⟨hi.forest.remove hlive hp hleaf, ?_, ?_, ?_, ?_, hi.pids.erase hi.forest.nodup_live hplive, ?_, hi.missed⟩
  · rw [hph]
    exact hi.kin.erase
  · rw [hph]
    exact (hi.handles.erase (by rw [hgone]; decide)).touch (by simp) (by simp)
  · have hplaces : Places (s.live.erase p) (update s.state q (s.state q)) (update s.pc q .user) none :=
      hpl.erase.touch (Or.inl hst) (by rw [hpc]; exact iff_of_false (by simp) (by simp))
    rw [update_eq_self, ← hlock] at hplaces
    exact hplaces
  · rw [hph]
    exact hi.tokens.reap hpc hp hgone
  · obtain ⟨h1, h2, h3, h4, h5, h6⟩ := hi.history
    have hsub : ∀ x ∈ s.live.erase p, x ≠ p ∧ x ∈ s.live := fun x hx => hi.forest.nodup_live.mem_erase_iff.1 hx
    rw [← hph] at h1 h2
    refine ⟨fun x hx => h1 x (hsub x hx).2, fun e he x hx => h2 e he x (hsub x hx).2, h3, fun x hx => h4 x (hsub x hx).2, ?_, ?_⟩
    · refine List.nodup_cons.2 ⟨?_, h5⟩
      intro hm
      obtain ⟨r, hr, hser⟩ := List.mem_map.1 hm
      exact (h6 r hr).2.1 p hplive hser.symm
    · intro r hr
      rcases List.mem_cons.1 hr with rfl | hr
      · refine ⟨h1 p hplive (by rw [hph, hgone]), ?_, h4 p hplive hroot q hpar⟩
        intro x hx hser
        exact (hsub x hx).1 (hi.kin.serial_inj x (hsub x hx).2 p hplive hser)
      · obtain ⟨he, hfree, hheir⟩ := h6 r hr
        exact ⟨he, fun x hx => hfree x (hsub x hx).2, hheir⟩

/-! ## Waiting -/

theorem Inv.waitSem (hi : Inv [] none s) (hq : s.At q .waiting) (hs : step s (.waitSem q) = some s') :
    Inv [] none s' := by
  obtain ⟨hlive, hst, hpc⟩ := hq
  obtain ⟨hok, hsl, hbal⟩ := hi.tokens q hlive List.not_mem_nil (by rw [Sys.phase, hpc]; decide)
  rw [hpc] at hsl hbal
  have hsl : (s.childexit q).sleeplist = [] := hsl
  have hok' := semOk_waitSem q hok
  have hphase : ∀ x : Pc, x.phase = .alive → x.phase = s.phase q := by
    intro x hx
    rw [hx, Sys.phase, hpc]
    rfl
  have hi' : Inv [q] none s := hi.mono (List.forall_mem_nil _)
  simp only [step, if_pos (show s.At q .waiting from ⟨hlive, hst, hpc⟩)] at hs
  by_cases hv : (s.childexit q).val - 1 ≥ 0
  · have hw : OsKernel.Sem.waitSem q (s.childexit q) = (true, { s.childexit q with val := (s.childexit q).val - 1 }) := if_pos hv
    rw [hw] at hs hok'
    obtain rfl := Option.some.inj hs
    have hbal' : Balanced { s.childexit q with val := (s.childexit q).val - 1 } q .reaping
        ((s.children q).countP fun c => s.phase c = .gone) := by
      refine ⟨hok', hsl, ?_⟩
      simp only [Pc.taken] at hbal ⊢
      omega
    have htouch := hi'.touch (x := .reaping) (hphase _ rfl) (Or.inl hst) (by rw [hpc]; exact iff_of_false nofun nofun)
      (fun _ _ => hbal') nofun nofun
    rw [update_eq_self] at htouch
    exact htouch
  · have hw : OsKernel.Sem.waitSem q (s.childexit q) = (false, ⟨(s.childexit q).val - 1, q :: (s.childexit q).sleeplist⟩) :=
      if_neg hv
    rw [hw] at hs hok'
    obtain ⟨hlock, rfl⟩ := guard_enabled hs
    have hbal' : Balanced ⟨(s.childexit q).val - 1, q :: (s.childexit q).sleeplist⟩ q (.asleep false)
        ((s.children q).countP fun c => s.phase c = .gone) := by
      refine ⟨hok', by rw [hsl]; rfl, ?_⟩
      simp only [Pc.taken] at hbal ⊢
      omega
    exact hi'.touch (hphase _ rfl) rfl (by rw [hpc]; exact iff_of_false nofun nofun) (fun _ _ => hbal') nofun nofun

theorem Inv.startProc (hi : Inv [] none s) (hq : s.At q .user) (hh : s.Handle q p) :
    Inv [] none ((startProc s p).goto q (.starting p)) := by
  have hgo : ∀ t : Sys, Inv [] none t → t.At q .user → t.Handle q p → t.parent p ≠ none →
      Inv [] none (t.goto q (.starting p)) := by
    intro t ht hq hh hpar
    refine ht.goto hq rfl rfl (Or.inl rfl) rfl ⟨nofun, nofun⟩ nofun ?_
    intro x hx
    obtain rfl := Pc.starting.inj hx
    exact ⟨hh.1, hh.2, hpar⟩
  unfold ProcTree.startProc
  split_ifs with hnone
  · refine hgo _ (hi.link hq.1 hq.2.2 hh hnone (Or.inr rfl)) hq hh ?_
    simp only [linkTo, update_self]
    exact Option.some_ne_none _
  · exact hgo s hi hq hh hnone

theorem Inv.forkLink (hi : Inv [] none s) (hq : s.At q (.forked p)) :
    Inv [] none ((linkTo s q p).goto q (.starting p)) := by
  obtain ⟨hlive, hst, hpc⟩ := id hq
  obtain ⟨hp, hcr, hnone⟩ := hi.handles.forked q hlive p hpc
  -- the parent leaves the place in which the child has no parent first
  have hi1 : Inv [] none (s.goto q .user) := hi.goto hq rfl rfl (Or.inl rfl) rfl ⟨nofun, nofun⟩ nofun nofun
  have hpc1 : (s.goto q .user).pc q = .user := by simp only [Sys.goto, update_self]
  have hi2 := hi1.link hlive hpc1 ⟨hp, hcr⟩ hnone (Or.inl rfl)
  have hi3 : Inv [] none ((linkTo (s.goto q .user) q p).goto q (.starting p)) := by
    refine hi2.goto ⟨hlive, hst, hpc1⟩ rfl rfl (Or.inl rfl) rfl ⟨nofun, nofun⟩ nofun ?_
    intro x hx
    obtain rfl := Pc.starting.inj hx
    refine ⟨hp, hcr, ?_⟩
    simp only [linkTo, update_self]
    exact Option.some_ne_none q
  have heq : (linkTo (s.goto q .user) q p).goto q (.starting p) = (linkTo s q p).goto q (.starting p) := by
    simp only [linkTo, Sys.goto, update_idem]
  exact heq ▸ hi3

/-- the scheduler lets a process run or stops it -/
theorem Inv.schedule (hi : Inv [] none s) (hq : q ∈ s.live) (hfits : Fits st (s.pc q)) :
    Inv [] none { s with state := update s.state q st } := by
  have hi' : Inv [q] none s := hi.mono (List.forall_mem_nil _)
  have htouch := hi'.touch rfl hfits Iff.rfl (fun _ hgone => hi.tokens q hq List.not_mem_nil hgone)
    (hi.handles.forked q hq) (hi.handles.starting q hq)
  rw [update_eq_self, update_eq_self] at htouch
  exact htouch

theorem Fits.dispatch (h : Fits .runnable x) : Fits .running x := by
  cases x with
  | asleep up => cases up <;> simp_all [Fits]
  | _ => simp_all [Fits]

theorem Fits.yield (h : Fits .running x) (hx : x ≠ .leaving) : Fits .runnable x := by
  cases x with
  | asleep up => cases up <;> simp_all [Fits]
  | _ => simp_all [Fits]

/-! ## Runs -/

/-- **Step.** Every step keeps the invariant. -/
theorem step_inv {e : Event} (hi : Inv [] none s) (hs : step s e = some s') : Inv [] none s' := by
  cases e with
  | create q p =>
    simp only [step] at hs
    split_ifs at hs with hq
    exact (hi.create hq.1 hs).1
  | setParentToThis q p =>
    obtain ⟨⟨hq, hh, hnone⟩, rfl⟩ := guard_enabled hs
    exact hi.link hq.1 hq.2.2 hh hnone (Or.inl rfl)
  | start q p =>
    obtain ⟨hg, rfl⟩ := guard_enabled hs
    exact hi.startProc hg.1 hg.2
  | fork q p =>
    simp only [step] at hs
    split_ifs at hs with hq
    obtain ⟨s1, hs1, rfl⟩ := Option.map_eq_some_iff.1 hs
    obtain ⟨hi1, hh, hnone, hlive, hpc, hst⟩ := hi.create hq.1 hs1
    refine hi1.goto ⟨hlive, hst.trans hq.2.1, hpc.trans hq.2.2⟩ rfl rfl (Or.inl rfl) rfl ⟨nofun, nofun⟩ ?_ nofun
    intro x hx
    obtain rfl := Pc.forked.inj hx
    exact ⟨hh.1, hh.2, hnone⟩
  | link q =>
    simp only [step] at hs
    split at hs
    · obtain ⟨hq, rfl⟩ := guard_enabled hs
      exact hi.forkLink hq
    · cases hs
  | activate q =>
    simp only [step] at hs
    split at hs
    · split_ifs at hs with hg
      obtain ⟨hunused, hinv⟩ := hi.activate hg.1
      rw [hunused] at hs
      obtain rfl := Option.some.inj hs
      exact hinv
    · cases hs
  | wait q =>
    simp only [step] at hs
    split_ifs at hs with hq hch
    · obtain rfl := Option.some.inj hs
      exact hi
    · obtain rfl := Option.some.inj hs
      exact hi.goto hq rfl rfl (Or.inl rfl) rfl ⟨nofun, nofun⟩ nofun nofun
  | waitSem q =>
    have hq : s.At q .waiting := by
      by_contra hq
      simp only [step, if_neg hq] at hs
      cases hs
    exact hi.waitSem hq hs
  | resume q =>
    obtain ⟨hq, rfl⟩ := guard_enabled hs
    exact hi.goto hq rfl rfl (Or.inl rfl) rfl ⟨nofun, nofun⟩ nofun nofun
  | reap q =>
    obtain ⟨hg, rfl⟩ := guard_enabled hs
    obtain ⟨p, -, -, -, hinv⟩ := hi.reap hg.1 hg.2
    exact hinv
  | exit q code =>
    simp only [step] at hs
    split_ifs at hs with hg
    obtain ⟨s1, hs1, hinv⟩ := exitProc_ok hi hg.1 hg.2.1 hg.2.2 code
    obtain rfl := Option.some.inj (hs1.symm.trans hs)
    exact hinv
  | zombie q =>
    obtain ⟨hq, rfl⟩ := guard_enabled hs
    exact hi.zombie hq
  | dispatch q =>
    obtain ⟨⟨hlive, hst, -⟩, rfl⟩ := guard_enabled hs
    exact hi.schedule hlive (hst ▸ hi.places.fits q hlive).dispatch
  | yield q =>
    obtain ⟨⟨hlive, hst, hlock⟩, rfl⟩ := guard_enabled hs
    refine hi.schedule hlive ((hst ▸ hi.places.fits q hlive).yield ?_)
    intro hl
    exact absurd ((hi.places.leaving q hlive hl).symm.trans hlock) nofun

theorem initKproc_inv : Inv [] none initKproc := by
  have hroot : ∀ p ∈ initKproc.live, p = rootProc := fun p hp => List.mem_singleton.1 hp
  have hspec := allocPid_spec (b := initBitmap) ⟨0, by decide, isFree_initBitmap 0⟩
  refine ⟨⟨?_, ?_, ?_, ?_, ?_, ?_⟩, ⟨nofun, ?_, ?_, ?_, rfl, rfl⟩, ⟨nofun, nofun, nofun⟩, ⟨fun _ _ => Or.inr rfl, nofun, nofun⟩, ?_,
    ⟨?_, ?_, ?_, by decide, rfl⟩, ⟨nofun, nofun, nofun, ?_, List.nodup_nil, nofun⟩, rfl⟩
  · exact List.nodup_singleton _
  · exact List.mem_singleton.2 rfl
  · exact fun _ _ => List.nodup_nil
  · intro q _ p
    exact iff_of_false List.not_mem_nil fun h => h.2.1 (hroot p h.1)
  · intro p _ q hq
    exact Option.some.inj hq ▸ List.mem_singleton.2 rfl
  · intro q hq
    exact (Option.some.inj hq).symm
  · intro p _ q hq
    exact ⟨rfl, Or.inl (Option.some.inj hq).symm⟩
  · exact fun _ _ => Nat.zero_lt_one
  · intro p hp q hq _
    rw [hroot p hp, hroot q hq]
  · intro p _ _ _
    exact ⟨semOk_init le_rfl, rfl, rfl⟩
  · intro p _
    exact hspec.1
  · intro p hp q hq _
    rw [hroot p hp, hroot q hq]
  · intro n _
    change isFree (allocPid initBitmap).2 n = false ↔ ∃ p ∈ [rootProc], (allocPid initBitmap).1 = n
    rw [hspec.2.2, isFree_initBitmap, Bool.true_and, Bool.not_eq_false', decide_eq_true_eq]
    constructor
    · rintro rfl
      exact ⟨rootProc, List.mem_singleton.2 rfl, rfl⟩
    · rintro ⟨-, -, h⟩
      exact h.symm
  · intro p hp hne
    exact absurd (hroot p hp) hne

theorem run_inv {t : Sys} {es : List Event} (hr : run step initKproc es = some t) : Inv [] none t :=
  reach_invariant (fun _ _ _ hi hs => step_inv hi hs) initKproc_inv ⟨es, hr⟩

/-- tokens of p's `childexit` that a `wait` of p can still use, or holds already -/
def Sys.available (s : Sys) (p : ℕ) : ℤ :=
  max (s.childexit p).val 0 + if s.pc p = .asleep true ∨ s.pc p = .reaping then 1 else 0

theorem Balanced.available (h : Balanced (s.childexit p) p (s.pc p) n) : s.available p = n := by
  obtain ⟨hok, hsl, hbal⟩ := h
  simp only [SemOk, hsl] at hok
  unfold Sys.available
  by_cases hs : s.pc p = .asleep false
  · rw [hs] at hbal hok ⊢
    simp only [Pc.taken, if_true, List.length_singleton, Nat.cast_one, Pc.asleep.injEq, Bool.false_eq_true, reduceCtorEq,
      or_self, if_false] at hbal hok ⊢
    omega
  · rw [if_neg hs, List.length_nil, Nat.cast_zero] at hok
    have htaken : (if s.pc p = .asleep true ∨ s.pc p = .reaping then (1 : ℤ) else 0) = (s.pc p).taken := by
      cases hpc : s.pc p with
      | asleep up =>
        cases up with
        | false => exact absurd hpc hs
        | true => rfl
      | _ => rfl
    rw [htaken, ← hbal]
    omega

/-- **The wait/exit protocol.** After any run from `init_kproc`:
- every process that has been started reaches the root by its parent links, and if it is not the root itself it is in its
  parent's list, once, and in no other;
- live processes have different numbers;
- the tokens of a process that has not exited are as many as its children that have posted their exit and are still there;
- a `wait` that has its token finds a zombie, frees it and returns its number, which is not 0, and its exit code; and no `wait`
  has ever found nothing;
- nothing is freed twice, and what was freed had exited with the number and code returned, and was freed by its first parent or,
  if that one had exited, by the root;
- no sleeper in `wait` is woken by anything but a post, and an exit is never stopped by an assertion. -/
theorem wait_exit_protocol {t : Sys} {es : List Event} (hr : run step initKproc es = some t) :
    (∀ p ∈ t.live, t.state p ≠ .unused → Reaches t.parent rootProc p ∧
      (p ≠ rootProc → ∃ q ∈ t.live, t.parent p = some q ∧ (t.children q).count p = 1 ∧
        ∀ r ∈ t.live, r ≠ q → p ∉ t.children r)) ∧
    (∀ p ∈ t.live, ∀ q ∈ t.live, t.pid p = t.pid q → p = q) ∧
    (∀ p ∈ t.live, t.phase p ≠ .gone → t.available p = (t.children p).countP fun c => t.phase c = .gone) ∧
    (∀ q, t.At q .reaping → t.schedLock = none → ∃ p u, p ∈ t.children q ∧ p ∈ t.live ∧ t.state p = .zombie ∧ t.pid p ≠ 0 ∧
      step t (.reap q) = some u ∧ u.live = t.live.erase p ∧
        u.reaps = ⟨t.serial q, t.serial p, t.first p, t.pid p, t.exitcode p⟩ :: t.reaps) ∧
    t.missed = 0 ∧
    (t.reaps.map (·.serial)).Nodup ∧
    (∀ r ∈ t.reaps, ⟨r.serial, r.pid, r.code⟩ ∈ t.exits ∧
      (r.reaper = r.first ∨ r.reaper = t.serial rootProc ∧ ∃ e ∈ t.exits, e.serial = r.first)) ∧
    (∀ q up, t.At q (.asleep up) → up = true) ∧
    ∀ q code, t.At q .user → q ≠ rootProc → t.schedLock = none → ∃ u, step t (.exit q code) = some u := by
  have hi : Inv [] none t := run_inv hr
  have hstarted : ∀ p ∈ t.live, t.state p ≠ .unused → t.phase p ≠ .unborn := by
    intro p hp hst hun
    have hf := hi.places.fits p hp
    rw [Pc.eq_unborn hun] at hf
    exact hst hf
  have hparent : ∀ p ∈ t.live, t.phase p ≠ .unborn → ∃ q, t.parent p = some q := by
    intro p hp hun
    exact Option.ne_none_iff_exists'.1 fun hnone => hun (hi.kin.orphan p hp hnone)
  refine ⟨?_, hi.pids.inj, ?_, ?_, hi.missed, hi.history.once, ?_, ?_, ?_⟩
  · intro p hp hst
    constructor
    · refine reaches_of_rank (S := fun p => p ∈ t.live ∧ t.phase p ≠ .unborn) t.serial ?_ ⟨hp, hstarted p hp hst⟩
      intro x hx _
      obtain ⟨q, hq⟩ := hparent x hx.1 hx.2
      obtain ⟨halive, hold⟩ := hi.kin.above x hx.1 q hq
      exact ⟨q, hq, ⟨hi.forest.parent_mem x hx.1 q hq, by rw [halive]; decide⟩, hold⟩
    · intro hroot
      obtain ⟨q, hq⟩ := hparent p hp (hstarted p hp hst)
      have hql := hi.forest.parent_mem p hp q hq
      have hmem : p ∈ t.children q := (hi.forest.mem q hql p).2 ⟨hp, hroot, hq⟩
      refine ⟨q, hql, hq, List.count_eq_one_of_mem (hi.forest.nodup q hql) hmem, ?_⟩
      intro r hrl hne hm
      exact hne (Option.some.inj (((hi.forest.mem r hrl p).1 hm).2.2.symm.trans hq))
  · intro p hp hgone
    exact (hi.tokens p hp List.not_mem_nil hgone).available
  · intro q hq hlock
    obtain ⟨p, hp, hz, heq, -⟩ := hi.reap hq hlock
    obtain ⟨hpl, hroot, -⟩ := (hi.forest.mem q hq.1 p).1 hp
    refine ⟨p, reapChild t q, hp, hpl, hz, ?_, ?_, ?_, ?_⟩
    · rw [← hi.pids.root]
      exact fun he => hroot (hi.pids.inj p hpl rootProc hi.forest.root_mem he)
    · rw [step, if_pos ⟨hq, hlock⟩]
    · rw [heq]
    · rw [heq]
  · intro r hrm
    obtain ⟨he, -, hheir⟩ := hi.history.reaped r hrm
    rw [hi.kin.root.1]
    exact ⟨he, hheir⟩
  · intro q up hq
    obtain ⟨hlive, hst, hpc⟩ := hq
    have hf := hi.places.fits q hlive
    rw [hst, hpc] at hf
    cases up with
    | true => rfl
    | false => cases hf
  · intro q code hq hroot hlock
    obtain ⟨u, hu, -⟩ := exitProc_ok hi hq hroot hlock code
    exact ⟨u, by rw [step, if_pos ⟨hq, hroot, hlock⟩, hu]⟩

/-- process 1 waits for its child 2, which exits with 7, and then exits itself; the root has its token -/
def familyOfThree : List Event :=
  [.dispatch 0, .create 0 1, .start 0 1, .activate 0, .dispatch 1, .fork 1 2, .link 1, .activate 1, .dispatch 2, .wait 1,
    .waitSem 1, .exit 2 7, .zombie 2, .dispatch 1, .resume 1, .reap 1, .exit 1 3, .zombie 1, .wait 0, .waitSem 0]

theorem wait_exit_protocol_three :
    ∃ t, run step initKproc familyOfThree = some t ∧ t.reaps = [⟨1, 2, 1, 2, 7⟩] ∧
      (t.children rootProc).countP (fun c => t.phase c = .gone) = 1 ∧ t.available rootProc = 1 ∧
      ∃ p u, p ∈ t.children rootProc ∧ t.state p = .zombie ∧ step t (.reap rootProc) = some u ∧ u.live = t.live.erase p := by
  obtain ⟨t, hr, hlive, hlock, hreaps, hch, hst, hpc, hdead⟩ : ∃ t, run step initKproc familyOfThree = some t ∧
      t.live = [1, 0] ∧ t.schedLock = none ∧ t.reaps = [⟨1, 2, 1, 2, 7⟩] ∧ t.children rootProc = [1] ∧
      t.state rootProc = .running ∧ t.pc rootProc = .reaping ∧ t.pc 1 = .dead := run_computes (by decide +kernel)
  have hroot : rootProc ∈ t.live := by
    rw [hlive]
    decide
  have hcount : (t.children rootProc).countP (fun c => t.phase c = .gone) = 1 := by
    simp [hch, Sys.phase, hdead, Pc.phase]
  obtain ⟨-, -, htokens, hwait, -⟩ := wait_exit_protocol hr
  obtain ⟨p, u, hp, -, hz, -, hu, hul, -⟩ := hwait rootProc ⟨hroot, hst, hpc⟩ hlock
  refine ⟨t, hr, hreaps, hcount, ?_, p, u, hp, hz, hu, hul⟩
  rw [htokens rootProc hroot (by rw [Sys.phase, hpc]; decide), hcount]
  rfl

end OsKernel.Kernel.ProcTree
