/-
Processes and their parents (`kernel/proc.c`): `create_proc`, `set_parent_to_this`, `start_proc`, `fork`, `wait`, `exit`.

A region with `plock` held is one step, and so is a region with the scheduler lock held. A process that leaves `exit`'s region
under `plock` takes the scheduler lock before it gives up `plock` and keeps it until it is a ZOMBIE, so between the two steps it
is in `schedLock`; freeing its resources belongs to the second one. Where a process is in its code is its `Pc`. Processes are
named by the address of their struct, `live` lists the structs that are allocated, and the fields of a struct are one map each.

Every struct has a page for its kernel stack; `create_proc` panics when there is none left. A process that waits for anything
but its children is one that is not scheduled. `kill` is not part of this model.

Ghosts: a serial number for every process ever created, who created it and may start it, who its first parent was, and the
lists of all exits and of all processes `wait` has freed.
-/
import OsKernel.Common.Pid
import OsKernel.Common.Sem
import OsKernel.Kernel.Mem
import OsKernel.Kernel.Sched

namespace OsKernel.Kernel.ProcTree

open OsKernel.Pid OsKernel.Sem OsKernel.Kernel.Sched
open Function (update)

/-- `&root_proc` -/
abbrev rootProc : ℕ := 0

/-- more pages than `kalloc_page` can hand out -/
abbrev pageCount : ℕ := (Mem.phystop - Mem.extmem) / Mem.pageSize

/-- where a process is in its code -/
inductive Pc where
  /-- not started yet -/
  | unborn
  /-- in none of the functions below -/
  | user
  /-- in `fork`, with a child that it has created -/
  | forked (child : ℕ)
  /-- in `start_proc`, before `activate_proc` -/
  | starting (child : ℕ)
  /-- in `wait`, before `wait_sem` -/
  | waiting
  /-- in `_wait_sem`, with its `wait->up` -/
  | asleep (up : Bool)
  /-- in `wait`, after `wait_sem` has returned true -/
  | reaping
  /-- in `exit`, with the scheduler lock -/
  | leaving
  | dead
deriving DecidableEq

structure Exit where
  serial : ℕ
  pid : ℕ
  code : ℤ
deriving DecidableEq

/-- a process that `wait` has freed, with what `wait` returned -/
structure Reap where
  /-- the serial number of the process that called `wait` -/
  reaper : ℕ
  serial : ℕ
  /-- the serial number of its first parent -/
  first : ℕ
  pid : ℕ
  code : ℤ
deriving DecidableEq

structure Sys where
  live : List ℕ
  pid : ℕ → ℕ
  exitcode : ℕ → ℤ
  state : ℕ → ProcState
  childexit : ℕ → Semaphore
  children : ℕ → List ℕ
  parent : ℕ → Option ℕ
  pidMap : PidMap
  schedLock : Option ℕ
  pc : ℕ → Pc
  serial : ℕ → ℕ
  /-- the next serial number -/
  next : ℕ
  /-- the serial number of the process that has created this one and not started it yet -/
  creator : ℕ → Option ℕ
  first : ℕ → ℕ
  exits : List Exit
  reaps : List Reap
  /-- how often `wait` found no zombie and returned 0 -/
  missed : ℕ

/-! ## Functions -/

/-- `create_proc` and `init_proc`, for a struct at p, by q -/
def createProc (s : Sys) (q p : ℕ) : Option Sys :=
  if p ∈ s.live ∨ pageCount ≤ s.live.length then none
  else
    some { s with
      live := p :: s.live
      pid := update s.pid p (allocPid s.pidMap).1
      exitcode := update s.exitcode p 0
      state := update s.state p .unused
      childexit := update s.childexit p (initSem 0)
      children := update s.children p []
      parent := update s.parent p none
      pidMap := (allocPid s.pidMap).2
      pc := update s.pc p .unborn
      serial := update s.serial p s.next
      next := s.next + 1
      creator := update s.creator p (some (s.serial q))
      first := update s.first p 0 }

/-- `p->parent = q; _insert_into_list(&q->children, &p->ptnode)` -/
def linkTo (s : Sys) (q p : ℕ) : Sys :=
  { s with
    parent := update s.parent p (some q)
    children := update s.children q (p :: s.children q)
    first := update s.first p (s.serial q) }

/-- the part of `start_proc` before `activate_proc` -/
def startProc (s : Sys) (p : ℕ) : Sys := if s.parent p = none then linkTo s rootProc p else s

/-- what `activate_proc` makes of a state; none when it panics -/
def activated : ProcState → Option ProcState
  | .running => some .running
  | .runnable | .sleeping | .unused | .deepsleeping => some .runnable
  | .zombie => none

/-- `post_sem(&r->childexit)` -/
def postChildexit (s : Sys) (r : ℕ) : Option Sys :=
  match postSem (s.childexit r) with
  | none => none
  | some (none, sem) => some { s with childexit := update s.childexit r sem }
  | some (some p, sem) =>
    (activated (s.state p)).map fun st =>
      { s with
        childexit := update s.childexit r sem
        state := update s.state p st
        pc := update s.pc p (.asleep true) }

/-- the loop of `exit` over the children it still has -/
def giveChildren (this : ℕ) : List ℕ → Sys → Option Sys
  | [], s => some s
  | p :: l, s =>
    let s := { s with
      children := update s.children this l
      parent := update s.parent p (some rootProc) }
    let notify := s.state p = .zombie
    let s := { s with children := update s.children rootProc (s.children rootProc ++ [p]) }
    if notify then
      match postChildexit s rootProc with
      | none => none
      | some s => giveChildren this l s
    else giveChildren this l s

/-- the region of `exit` under `plock` -/
def exitProc (s : Sys) (this : ℕ) (code : ℤ) : Option Sys := do
  let s := { s with
    exitcode := update s.exitcode this code
    exits := ⟨s.serial this, s.pid this, code⟩ :: s.exits }
  let s ← giveChildren this (s.children this) s
  let parent ← s.parent this
  let s ← postChildexit s parent
  return { s with schedLock := some this, pc := update s.pc this .leaving }

/-- the region of `wait` under `plock` -/
def reapChild (s : Sys) (this : ℕ) : Sys :=
  match (s.children this).find? fun p => s.state p = .zombie with
  | some p =>
    { s with
      live := s.live.erase p
      children := update s.children this ((s.children this).erase p)
      pidMap := freePid s.pidMap (s.pid p)
      pc := update s.pc this .user
      reaps := ⟨s.serial this, s.serial p, s.first p, s.pid p, s.exitcode p⟩ :: s.reaps }
  | none => { s with pc := update s.pc this .user, missed := s.missed + 1 }

/-! ## Steps -/

inductive Event where
  /-- q calls `create_proc`, which gets its memory at p -/
  | create (q p : ℕ)
  | setParentToThis (q p : ℕ)
  | start (q p : ℕ)
  /-- q calls `fork`, whose `create_proc` gets its memory at p -/
  | fork (q p : ℕ)
  /-- the region of `fork` under `plock` -/
  | link (q : ℕ)
  /-- the call of `activate_proc` that ends `start_proc` -/
  | activate (q : ℕ)
  /-- q calls `wait` -/
  | wait (q : ℕ)
  | waitSem (q : ℕ)
  /-- q comes back from its sleep in `_wait_sem` -/
  | resume (q : ℕ)
  | reap (q : ℕ)
  | exit (q : ℕ) (code : ℤ)
  /-- `sched(ZOMBIE)` -/
  | zombie (q : ℕ)
  /-- the scheduler lets q run, or stops it -/
  | dispatch (q : ℕ)
  | yield (q : ℕ)

/-- q is running, at x -/
def Sys.At (s : Sys) (q : ℕ) (x : Pc) : Prop := q ∈ s.live ∧ s.state q = .running ∧ s.pc q = x

instance (s : Sys) (q : ℕ) (x : Pc) : Decidable (s.At q x) := inferInstanceAs (Decidable (_ ∧ _ ∧ _))

/-- p is q's to start -/
def Sys.Handle (s : Sys) (q p : ℕ) : Prop := p ∈ s.live ∧ s.creator p = some (s.serial q)

instance (s : Sys) (q p : ℕ) : Decidable (s.Handle q p) := inferInstanceAs (Decidable (_ ∧ _))

def Sys.goto (s : Sys) (q : ℕ) (x : Pc) : Sys := { s with pc := update s.pc q x }

def step (s : Sys) : Event → Option Sys
  | .create q p => if s.At q .user then createProc s q p else none
  | .setParentToThis q p =>
    if s.At q .user ∧ s.Handle q p ∧ s.parent p = none then some (linkTo s q p) else none
  | .start q p => if s.At q .user ∧ s.Handle q p then some ((startProc s p).goto q (.starting p)) else none
  | .fork q p => if s.At q .user then (createProc s q p).map fun s => s.goto q (.forked p) else none
  | .link q =>
    match s.pc q with
    | .forked p => if s.At q (.forked p) then some ((linkTo s q p).goto q (.starting p)) else none
    | _ => none
  | .activate q =>
    match s.pc q with
    | .starting p =>
      if s.At q (.starting p) ∧ s.schedLock = none then
        (activated (s.state p)).map fun st =>
          { s.goto q .user with
            state := update s.state p st
            pc := update (update s.pc q .user) p .user
            creator := update s.creator p none }
      else none
    | _ => none
  | .wait q =>
    if s.At q .user then
      -- it returns -1 without children
      if s.children q = [] then some s else some (s.goto q .waiting)
    else none
  | .waitSem q =>
    if s.At q .waiting then
      match waitSem q (s.childexit q) with
      | (true, sem) => some { s.goto q .reaping with childexit := update s.childexit q sem }
      | (false, sem) =>
        if s.schedLock = none then
          some { s.goto q (.asleep false) with
            childexit := update s.childexit q sem
            state := update s.state q .sleeping }
        else none
    else none
  | .resume q =>
    -- a sleeper that nobody has woken would make `wait` panic
    if s.At q (.asleep true) then some (s.goto q .reaping) else none
  | .reap q => if s.At q .reaping ∧ s.schedLock = none then some (reapChild s q) else none
  | .exit q code => if s.At q .user ∧ q ≠ rootProc ∧ s.schedLock = none then exitProc s q code else none
  | .zombie q =>
    if s.At q .leaving then
      some { s.goto q .dead with state := update s.state q .zombie, schedLock := none }
    else none
  | .dispatch q =>
    if q ∈ s.live ∧ s.state q = .runnable ∧ s.schedLock = none then
      some { s with state := update s.state q .running }
    else none
  | .yield q =>
    if q ∈ s.live ∧ s.state q = .running ∧ s.schedLock = none then
      some { s with state := update s.state q .runnable }
    else none

/-- after `init_kproc` -/
def initKproc : Sys where
  live := [rootProc]
  pid := fun _ => (allocPid initBitmap).1
  exitcode := fun _ => 0
  state := fun _ => .runnable
  childexit := fun _ => initSem 0
  children := fun _ => []
  parent := fun _ => some rootProc
  pidMap := (allocPid initBitmap).2
  schedLock := none
  pc := fun _ => .user
  serial := fun _ => 0
  next := 1
  creator := fun _ => none
  first := fun _ => 0
  exits := []
  reaps := []
  missed := 0

end OsKernel.Kernel.ProcTree
