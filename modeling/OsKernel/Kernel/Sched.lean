/-
The scheduler and the timers it runs on (`kernel/sched.c`, `kernel/cpu.c`).

CPUs and processes are named by arbitrary types; a process's name is its address. The run queue and the timer tree of each
CPU are red-black trees, represented here by their nodes in order: `_rb_insert` places a node by its comparison function and
refuses one that compares equal to a node of the tree, `_rb_first` is the head, and `_rb_erase` of a node that is not in the
tree corrupts it (`corrupt`). Both comparison functions look at the sign of a 64-bit difference and then at the addresses.

Functions run under the scheduler lock and are single steps. A handler of an expired timer runs in `timer_clock_handler`
with interrupts off; `_sched_handler` takes the lock and calls `sched(RUNNABLE)` at its end, which is a step of its own.
Programming the hardware clock and switching page tables and stacks are left out.
-/
import OsKernel.Lib.Ordered

namespace OsKernel.Kernel.Sched

open OsKernel.Ordered

inductive ProcState where
  | unused
  | runnable
  | running
  | sleeping
  | deepsleeping
  | zombie
deriving DecidableEq

structure Proc where
  killed : Bool
  idle : Bool
  state : ProcState
  runtime : UInt64
deriving DecidableEq

/-- a process as `init_proc` leaves it -/
def Proc.init : Proc := ⟨false, false, .unused, 0⟩

/-- the timers of a CPU: `sched_timer[cpuid()]` and `hello_timer[cpuid()]`; the name stands for the handler as well -/
inductive TimerName where
  | sched
  | hello
deriving DecidableEq

structure Timer where
  triggered : Bool
  elapse : ℕ
  key : UInt64
  data : UInt64

structure Cpu (ι : Type) where
  online : Bool
  thisproc : ι
  idle : ι
  /-- the timer tree -/
  timer : List TimerName
  timers : TimerName → Timer
  /-- where the linker put the two timers -/
  addr : TimerName → ℕ
  addr_ne : addr .sched ≠ addr .hello

structure Sys (κ ι : Type) where
  proc : ι → Proc
  cpu : κ → Cpu ι
  rq : List ι
  panicFlag : Bool
  /-- `get_timestamp_ms()` -/
  now : UInt64

/-- why the kernel stops -/
inductive Stop where
  | assertion
  | panic
  | corrupt
deriving DecidableEq

abbrev timeslice : ℕ := 2

/-! ## Trees -/

/-- the comparison of both trees: by key, as a signed difference, and then by address -/
def keyCmp (k k' : UInt64) (lower : Bool) : Bool :=
  let d := (k - k').toInt64
  if d < 0 then true else if d = 0 then lower else false

/-- `ASSERT(_rb_insert(node, tree, cmp) == 0)` -/
def insertNode {α : Type} (cmp : α → α → Bool) (x : α) (tree : List α) : Except Stop (List α) :=
  match insertBy cmp x tree with
  | some tree => .ok tree
  | none => .error .assertion

/-- `_rb_erase(node, tree)` -/
def eraseNode {α : Type} [DecidableEq α] (x : α) (tree : List α) : Except Stop (List α) :=
  if x ∈ tree then .ok (tree.erase x) else .error .corrupt

/-! ## Timers -/

section Timers

variable {ι : Type}

/-- `__timer_cmp` of cpu.c -/
def Cpu.timerCmp (c : Cpu ι) (x y : TimerName) : Bool := keyCmp (c.timers x).key (c.timers y).key (c.addr x < c.addr y)

def Cpu.setTimer (c : Cpu ι) (n : TimerName) (t : Timer) : Cpu ι := { c with timers := Function.update c.timers n t }

def setCpuTimer (now : UInt64) (c : Cpu ι) (n : TimerName) : Except Stop (Cpu ι) := do
  let t := c.timers n
  let c := c.setTimer n { t with triggered := false, key := now + .ofNat t.elapse }
  let timer ← insertNode c.timerCmp n c.timer
  return { c with timer := timer }

def cancelCpuTimer (c : Cpu ι) (n : TimerName) : Except Stop (Cpu ι) := do
  if (c.timers n).triggered then throw .assertion
  let timer ← eraseNode n c.timer
  return { c with timer := timer }

/-- how `update_this_proc` begins -/
def stopTimer (c : Cpu ι) : Except Stop (Cpu ι) :=
  if 0 < (c.timers .sched).data then do
    let c ← cancelCpuTimer c .sched
    return c.setTimer .sched { c.timers .sched with data := (c.timers .sched).data - 1 }
  else pure c

/-- the timer part of `update_this_proc` -/
def restartTimer (now : UInt64) (c : Cpu ι) : Except Stop (Cpu ι) := do
  let c ← stopTimer c
  let c := c.setTimer .sched { c.timers .sched with elapse := timeslice }
  let c ← setCpuTimer now c .sched
  return c.setTimer .sched { c.timers .sched with data := (c.timers .sched).data + 1 }

end Timers

/-! ## The scheduler -/

section Sched

variable {κ ι : Type} [DecidableEq κ] [LinearOrder ι]

def Sys.setProc (s : Sys κ ι) (p : ι) (x : Proc) : Sys κ ι := { s with proc := Function.update s.proc p x }

/-- `p->state = st` -/
def Sys.setState (s : Sys κ ι) (p : ι) (st : ProcState) : Sys κ ι := s.setProc p { s.proc p with state := st }

def Sys.setCpu (s : Sys κ ι) (c : κ) (x : Cpu ι) : Sys κ ι := { s with cpu := Function.update s.cpu c x }

def Sys.thisproc (s : Sys κ ι) (c : κ) : ι := (s.cpu c).thisproc

/-- `__timer_cmp` of sched.c -/
def Sys.rqCmp (s : Sys κ ι) (p q : ι) : Bool := keyCmp (s.proc p).runtime (s.proc q).runtime (p < q)

/-- `_activate_proc`. The result of `_rb_insert` is 0 when it inserts, so a process woken from a deep sleep is reported
as not activated. -/
def activateProc (s : Sys κ ι) (p : ι) (onalert : Bool) : Except Stop (Bool × Sys κ ι) :=
  let s' := s.setState p .runnable
  match (s.proc p).state with
  | .running | .runnable => .ok (false, s)
  | .sleeping | .unused =>
    match insertBy s'.rqCmp p s.rq with
    | some rq => .ok (true, { s' with rq := rq })
    | none => .ok (false, s')
  | .deepsleeping =>
    if onalert then .ok (false, s)
    else
      match insertBy s'.rqCmp p s.rq with
      | some rq => .ok (false, { s' with rq := rq })
      | none => .ok (true, s')
  | .zombie => .error .panic

/-- the state in which `_activate_proc` leaves a process; none is the PANIC -/
def activated (onalert : Bool) : ProcState → Option ProcState
  | .running => some .running
  | .runnable | .sleeping | .unused => some .runnable
  | .deepsleeping => some (if onalert then .deepsleeping else .runnable)
  | .zombie => none

def updateThisState (s : Sys κ ι) (c : κ) (newState : ProcState) : Except Stop (Sys κ ι) := do
  let this := s.thisproc c
  let rq ←
    if newState = .runnable ∧ ¬ (s.proc this).idle then insertNode s.rqCmp this s.rq
    else pure s.rq
  let rq ←
    if (newState = .sleeping ∨ newState = .deepsleeping ∨ newState = .zombie) ∧ (s.proc this).state = .runnable then
      eraseNode this rq
    else pure rq
  return { s with rq := rq }.setState this newState

def pickNext (s : Sys κ ι) (c : κ) : ι :=
  if s.panicFlag then (s.cpu c).idle
  else
    match s.rq with
    | p :: _ => p
    | [] => (s.cpu c).idle

def updateThisProc (s : Sys κ ι) (c : κ) (p : ι) : Except Stop (Sys κ ι) := do
  let cpu ← restartTimer s.now (s.cpu c)
  let s := s.setCpu c { cpu with thisproc := p }
  if (s.proc p).state ≠ .runnable then throw .assertion
  let rq ← if (s.proc p).idle then pure s.rq else eraseNode p s.rq
  return { s with rq := rq }

def sched (s : Sys κ ι) (c : κ) (newState : ProcState) : Except Stop (Sys κ ι) := do
  let this := s.proc (s.thisproc c)
  if this.state ≠ .running then throw .assertion
  if this.killed ∧ newState ≠ .zombie then return s
  let s ← updateThisState s c newState
  let next := pickNext s c
  let s ← updateThisProc s c next
  if (s.proc next).state ≠ .runnable then throw .assertion
  return s.setState next .running

/-- `_sched_handler`, up to its call of `sched` -/
def schedHandler (s : Sys κ ι) (c : κ) : Sys κ ι :=
  let t := (s.cpu c).timers .sched
  let s := s.setCpu c ((s.cpu c).setTimer .sched { t with data := t.data - 1 })
  let this := s.proc (s.thisproc c)
  s.setProc (s.thisproc c) { this with runtime := this.runtime + .ofNat timeslice }

def hello (s : Sys κ ι) (c : κ) : Except Stop (Sys κ ι) := do
  let t := (s.cpu c).timers .hello
  let cpu ← setCpuTimer s.now ((s.cpu c).setTimer .hello { t with data := t.data + 1 }) .hello
  return s.setCpu c cpu

/-- a turn of the loop of `timer_clock_handler`; nothing changes when it leaves the loop -/
def timerClockHandler (s : Sys κ ι) (c : κ) : Except Stop (Sys κ ι) :=
  match (s.cpu c).timer with
  | [] => .ok s
  | n :: _ =>
    if s.now < ((s.cpu c).timers n).key then .ok s
    else do
      let cpu ← cancelCpuTimer (s.cpu c) n
      let s := s.setCpu c (cpu.setTimer n { cpu.timers n with triggered := true })
      match n with
      | .sched => return schedHandler s c
      | .hello => hello s c

/-- the timer part of `set_cpu_on` -/
def setCpuOn (s : Sys κ ι) (c : κ) : Except Stop (Sys κ ι) := do
  let cpu := { s.cpu c with online := true }
  let cpu := cpu.setTimer .hello { cpu.timers .hello with elapse := 5000 }
  let cpu ← setCpuTimer s.now cpu .hello
  return s.setCpu c cpu

/-! ## Steps -/

inductive Event (κ ι : Type) where
  /-- `_activate_proc(p, onalert)` -/
  | activate (p : ι) (onalert : Bool)
  /-- `yield` by the process that runs on c, also at the end of `_sched_handler` -/
  | yield (c : κ)
  /-- `_wait_sem`'s call of `sched` -/
  | sleep (c : κ) (alertable : Bool)
  /-- `exit`'s call of `sched` -/
  | exit (c : κ)
  /-- a clock interrupt on c -/
  | clock (c : κ)
  | setCpuOn (c : κ)
  /-- `init_proc` on a new struct -/
  | initProc (p : ι)
  /-- the flag that `kill` sets -/
  | kill (p : ι)
  /-- the flag that `_panic` sets -/
  | panicFlag
  /-- time passes -/
  | tick (now : UInt64)

def act (s : Sys κ ι) : Event κ ι → Except Stop (Sys κ ι)
  | .activate p onalert => (activateProc s p onalert).map Prod.snd
  | .yield c => sched s c .runnable
  | .sleep c alertable => sched s c (if alertable then .sleeping else .deepsleeping)
  | .exit c => sched s c .zombie
  | .clock c => timerClockHandler s c
  | .setCpuOn c => setCpuOn s c
  | .initProc p => .ok (s.setProc p .init)
  | .kill p => .ok (s.setProc p { s.proc p with killed := true })
  | .panicFlag => .ok { s with panicFlag := true }
  | .tick now => .ok { s with now := now }

/-- steps the kernel takes: no process is activated after its exit, `idle_entry` only yields, a CPU is switched on once,
and `init_proc` gets memory of no live process -/
def Enabled (s : Sys κ ι) : Event κ ι → Prop
  | .activate p _ => (s.proc p).state ≠ .zombie
  | .sleep c _ | .exit c => (s.proc (s.thisproc c)).idle = false
  | .setCpuOn c => (s.cpu c).online = false
  | .initProc p => (s.proc p).state = .unused ∨ (s.proc p).state = .zombie
  | _ => True

instance (s : Sys κ ι) : (e : Event κ ι) → Decidable (Enabled s e)
  | .activate p _ => inferInstanceAs (Decidable ((s.proc p).state ≠ .zombie))
  | .sleep c _ | .exit c => inferInstanceAs (Decidable ((s.proc (s.thisproc c)).idle = false))
  | .setCpuOn c => inferInstanceAs (Decidable ((s.cpu c).online = false))
  | .initProc p => inferInstanceAs (Decidable ((s.proc p).state = .unused ∨ (s.proc p).state = .zombie))
  | .yield _ | .clock _ | .kill _ | .panicFlag | .tick _ => inferInstanceAs (Decidable True)

/-- the process a step may put into the run queue -/
def entering (s : Sys κ ι) : Event κ ι → List ι
  | .activate p _ => [p]
  | .yield c => if (s.proc (s.thisproc c)).idle then [] else [s.thisproc c]
  | _ => []

/-- runtimes less than 2^63 apart, so that their difference as an `i64` compares them -/
def Close (s : Sys κ ι) (l : List ι) : Prop :=
  ∀ p ∈ l, ∀ q ∈ l, (s.proc p).runtime.toNat < (s.proc q).runtime.toNat + 2 ^ 63

instance (s : Sys κ ι) (l : List ι) : Decidable (Close s l) :=
  inferInstanceAs (Decidable (∀ p ∈ l, ∀ q ∈ l, (s.proc p).runtime.toNat < (s.proc q).runtime.toNat + 2 ^ 63))

/-- the steps considered: steps the kernel takes, while the processes that are compared have close runtimes -/
def Allowed (s : Sys κ ι) (e : Event κ ι) : Prop := Enabled s e ∧ Close s (entering s e ++ s.rq)

instance (s : Sys κ ι) (e : Event κ ι) : Decidable (Allowed s e) := inferInstanceAs (Decidable (_ ∧ _))

def step (s : Sys κ ι) (e : Event κ ι) : Option (Sys κ ι) := (act s e).toOption

/-- `init_sched`: every CPU runs its idle process, and nothing else has been set up -/
structure Boot (s : Sys κ ι) : Prop where
  thisproc : ∀ c, s.thisproc c = (s.cpu c).idle
  idle : ∀ c, (s.proc (s.cpu c).idle).idle = true ∧ (s.proc (s.cpu c).idle).state = .running
  idle_inj : ∀ c c', (s.cpu c).idle = (s.cpu c').idle → c = c'
  unused : ∀ p, (∀ c, (s.cpu c).idle ≠ p) → (s.proc p).idle = false ∧ (s.proc p).state = .unused
  rq : s.rq = []
  offline : ∀ c, (s.cpu c).online = false
  timer : ∀ c, (s.cpu c).timer = []
  data : ∀ c, ((s.cpu c).timers .sched).data = 0

end Sched

end OsKernel.Kernel.Sched
