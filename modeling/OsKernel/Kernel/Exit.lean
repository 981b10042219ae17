/-
The last part of `exit` (`kernel/proc.c`), between `acquire_sched_lock()` and `sched(ZOMBIE)`.

The exiting process holds `rqlock` while it gives up its address space and its open files. Spinlocks are not recursive:
`acquire` of a lock the process holds is a deadlock. The functions below are the paths through the file, pipe, log and
semaphore layers with all their lock operations; what they do to data is kept where a later branch depends on it. A wait that
has no token needs `rqlock`, as does the wake-up of a sleeper. The blocks behind an inode are left out: `cacheOps` says
whether the cache operations on its behalf have to sleep, and how much of the log budget they leave; it may be anything.

Result (`exit_reaches_sched`): the last part of `exit` reaches `sched` if and only if the caller does not hold the lock of an
address space that goes away, no section has bytes to write back, every inode file of the process is open elsewhere too, and
nobody sleeps on the end of a pipe whose other end goes away. The last reference to an inode file always sleeps in its
transaction, and a sleeping peer of a pipe is activated: both take `rqlock` again (`exit_takes_rqlock`).
-/
import OsKernel.Fs.Cache
import OsKernel.Fs.FileTable
import OsKernel.Fs.FileWrite
import OsKernel.Fs.Pipe
import OsKernel.Lib.Fallible

namespace OsKernel.Exit

open OsKernel.Fallible OsKernel.Fs OsKernel.Fs.FileTable OsKernel.Fs.PipeSys OsKernel.Sem
open Function (update update_of_ne update_self)

/-! ## Locks -/

inductive Lock where
  | rqlock
  | ftable
  | pgdir
  | pipe (i : ℕ)
  /-- the spinlocks of the semaphores of a pipe -/
  | rlock (i : ℕ)
  | wlock (i : ℕ)
  | log
  | logBegin
  | logEnd
  | inodes
  | inode (i : ℕ)
  | disk
  | buf
deriving DecidableEq, Repr

/-- why a path ends early -/
inductive Halt where
  | deadlock (l : Lock)
  | panic
  /-- the process has given up the CPU -/
  | asleep
deriving DecidableEq, Repr

/-- an in-memory inode -/
structure InodeState where
  rc : ℤ
  numLinks : ℕ
  lock : Semaphore

structure Kernel where
  /-- the spinlocks the process holds -/
  held : List Lock
  file : ℕ → FileTable.File
  pipe : ℕ → Pipe
  log : Log
  logBegin : Semaphore
  logEnd : Semaphore
  inode : ℕ → InodeState
  /-- what the cache operations on behalf of an inode come to: none when one of them sleeps, else the budget left -/
  cacheOps : ℕ → Option ℕ

/-- a path through the kernel -/
abbrev Path := Kernel → Except Halt Kernel

/-- `acquire_spinlock` -/
def acquire (l : Lock) : Path := fun k => if l ∈ k.held then .error (.deadlock l) else .ok { k with held := l :: k.held }

/-- `release_spinlock` -/
def release (l : Lock) : Path := fun k => .ok { k with held := k.held.erase l }

/-- one path after the other -/
def Path.andThen (p q : Path) : Path := fun k => p k >>= q

/-! ## Semaphores -/

/-- `activate_proc`: the state of the process activated is left out -/
def activateProc : Path := (acquire .rqlock).andThen (release .rqlock)

/-- `_activate_proc` for each sleeper a post has taken off the list -/
def activateAll : List ℕ → Path
  | [] => .ok
  | _ :: woken => activateProc.andThen (activateAll woken)

/-- `post_all_sem` on a semaphore with spinlock l -/
def postAll (l : Lock) (get : Kernel → Semaphore) (set : Semaphore → Kernel → Kernel) : Path := fun k => do
  let k ← acquire l k
  match postAllSem (get k) with
  | none => .error .panic
  | some (woken, s) => do
    let k ← activateAll woken (set s k)
    release l k

/-- `post_sem` -/
def post (l : Lock) (get : Kernel → Semaphore) (set : Semaphore → Kernel → Kernel) : Path := fun k => do
  let k ← acquire l k
  match postSem (get k) with
  | none => .error .panic
  | some (woken, s) => do
    let k ← activateAll woken.toList (set s k)
    release l k

/-- `_wait_sem`, the spinlock l of the semaphore being held: without a token the process sleeps, which needs `rqlock` -/
def wait (l : Lock) (get : Kernel → Semaphore) (set : Semaphore → Kernel → Kernel) : Path := fun k =>
  if (get k).val - 1 ≥ 0 then release l (set { get k with val := (get k).val - 1 } k)
  else do
    let _ ← acquire .rqlock k
    .error .asleep

/-! ## Log and inodes -/

/-- the loop of `begin_op`, `log.lock` being held; `fuel` bounds the tokens in `log.begin` -/
def beginLoop (sb : SuperBlock) : ℕ → Path
  | 0 => fun _ => .error .asleep
  | fuel + 1 => fun k =>
    if Admits sb k.log then .ok k
    else do
      let k ← acquire .logBegin k
      let k ← release .log k
      let k ← wait .logBegin Kernel.logBegin (fun s k => { k with logBegin := s }) k
      let k ← acquire .log k
      beginLoop sb fuel k

/-- `begin_op` -/
def beginOp (sb : SuperBlock) : Path := fun k => do
  let k ← acquire .log k
  let k ← beginLoop sb (k.logBegin.val.toNat + 1) k
  release .log { k with log := beginRegion k.log }

/-- a block goes to the device or comes from it (`virtio_blk_rw`): the request sleeps on a new semaphore, whose post by the
interrupt handler has to wait for its spinlock -/
def deviceRW : Path := fun k => do
  let k ← acquire .disk k
  let k ← acquire .buf k
  let k ← release .disk k
  wait .buf (fun _ => initSem 0) (fun _ k => k) k

/-- `end_op` with rm blocks of the budget left; a commit writes the log header at least -/
def endOp (rm : ℕ) : Path := fun k => do
  let k ← acquire .log k
  let k := { k with log := endRegion rm k.log }
  if k.log.committing then deviceRW k
  else do
    let k ← acquire .logEnd k
    let k ← release .log k
    wait .logEnd Kernel.logEnd (fun s k => { k with logEnd := s }) k

def setInode (i : ℕ) (f : InodeState → InodeState) (k : Kernel) : Kernel :=
  { k with inode := update k.inode i (f (k.inode i)) }

/-- the cache operations on behalf of an inode -/
def cacheWork (i : ℕ) : Path := fun k =>
  match k.cacheOps i with
  | none => do
    let _ ← acquire .rqlock k
    .error .asleep
  | some _ => .ok k

/-- `inode_lock` -/
def inodeLock (i : ℕ) : Path := fun k => do
  let k ← acquire (.inode i) k
  wait (.inode i) (fun k => (k.inode i).lock) (fun s => setInode i fun n => { n with lock := s }) k

/-- `inode_unlock` -/
def inodeUnlock (i : ℕ) : Path :=
  post (.inode i) (fun k => (k.inode i).lock) fun s => setInode i fun n => { n with lock := s }

/-- `inode_put` -/
def inodePut (i : ℕ) : Path := fun k => do
  let k ← acquire .inodes k
  if (k.inode i).rc = 1 ∧ (k.inode i).numLinks = 0 then do
    let k ← inodeLock i k
    let k ← cacheWork i k
    let k ← inodeUnlock i k
    release .inodes k
  else release .inodes (setInode i (fun n => { n with rc := n.rc - 1 }) k)

/-! ## Files -/

def setPipe (i : ℕ) (f : Pipe → Pipe) (k : Kernel) : Kernel := { k with pipe := update k.pipe i (f (k.pipe i)) }

/-- `pipe_close` -/
def pipeClose (i : ℕ) (writable : Bool) : Path := fun k => do
  let k ← acquire (.pipe i) k
  let k ←
    if writable then
      postAll (.rlock i) (fun k => (k.pipe i).rlock) (fun s => setPipe i fun p => { p with rlock := s })
        (setPipe i (fun p => { p with writeopen := false }) k)
    else
      postAll (.wlock i) (fun k => (k.pipe i).wlock) (fun s => setPipe i fun p => { p with wlock := s })
        (setPipe i (fun p => { p with readopen := false }) k)
  -- with both ends closed the pipe is freed after this
  release (.pipe i) k

/-- the transaction in which `file_close` puts the inode -/
def putTransaction (sb : SuperBlock) (ip : ℕ) : Path := fun k => do
  let k ← beginOp sb k
  let k ← inodePut ip k
  endOp ((k.cacheOps ip).getD opMaxNumBlocks) k

def setFile (i : ℕ) (f : FileTable.File) (k : Kernel) : Kernel := { k with file := update k.file i f }

/-- `file_close` -/
def closeFile (sb : SuperBlock) (i : ℕ) : Path := fun k => do
  let k ← acquire .ftable k
  match fileClose (k.file i) with
  | none => .error .panic
  | some (f, toPut) =>
    let k := setFile i f k
    if toPut then do
      let k ← release .ftable k
      let k ← putTransaction sb f.obj k
      let k ← acquire .ftable k
      release .ftable (setFile i (fileClear (k.file i)) k)
    else if f.type = .pipe ∧ f.ref = 0 then do
      let k ← pipeClose f.obj f.writable k
      release .ftable k
    else release .ftable k

/-- `file_write` of n bytes to inode file i: one transaction per chunk -/
def writeBack (sb : SuperBlock) (ip : ℕ) : ℕ → Path
  | 0 => .ok
  | chunks + 1 => fun k => do
    let k ← beginOp sb k
    let k ← inodeLock ip k
    let k ← cacheWork ip k
    let k ← inodeUnlock ip k
    let k ← endOp ((k.cacheOps ip).getD opMaxNumBlocks) k
    writeBack sb ip chunks k

/-! ## The exiting process -/

/-- a section: its backing file, and the pages of a mapping that `free_pages_of_section` has to write back, each with the
file offset and the number of bytes -/
structure Section where
  fp : Option ℕ
  dirty : List (ℕ × ℕ)

/-- `free_pages_of_section`; the pages go back to the allocator, which needs none of these locks -/
def freePages (sb : SuperBlock) (fp : Option ℕ) : List (ℕ × ℕ) → Path
  | [] => .ok
  | (off, n) :: dirty => fun k =>
    match fp with
    | none => .error .panic
    | some i =>
      if (k.file i).type = .inode then do
        let size := min (subU inodeMaxBytes off) n
        let k ← writeBack sb (k.file i).obj ((size + FileWrite.chunkBytes - 1) / FileWrite.chunkBytes) k
        freePages sb fp dirty k
      else .error .panic

/-- close the files of a list of slots -/
def closeAll (sb : SuperBlock) : List (Option ℕ) → Path
  | [] => .ok
  | none :: slots => closeAll sb slots
  | some i :: slots => (closeFile sb i).andThen (closeAll sb slots)

/-- the loop of `free_sections` -/
def freeSectionsLoop (sb : SuperBlock) : List Section → Path
  | [] => .ok
  | sec :: rest => fun k => do
    let k ← freePages sb sec.fp sec.dirty k
    let k ← closeAll sb [sec.fp] k
    freeSectionsLoop sb rest k

structure Proc where
  /-- `pgdir->pt` is not null -/
  pt : Bool
  sections : List Section
  oftable : List (Option ℕ)

/-- `free_pgdir`; the page tables go back to the allocator -/
def freePgdir (sb : SuperBlock) (p : Proc) : Path := fun k =>
  if p.pt then do
    let k ← acquire .pgdir k
    let k ← freeSectionsLoop sb p.sections k
    release .pgdir k
  else .ok k

/-- `exit` from `acquire_sched_lock()` on, up to `sched(ZOMBIE)` -/
def exitTail (sb : SuperBlock) (p : Proc) : Path := fun k => do
  let k ← acquire .rqlock k
  let k ← freePgdir sb p k
  closeAll sb p.oftable k

/-- the references of the process to files, in the order they are closed -/
def Proc.refs (p : Proc) : List ℕ := (if p.pt then p.sections.filterMap Section.fp else []) ++ p.oftable.filterMap id

/-! ## What each path does to a quiet file -/

variable {k k' : Kernel} {f : FileTable.File} {refs : List ℕ} {i : ℕ} {sb : SuperBlock}

theorem acquire_ok {l : Lock} (h : l ∉ k.held) : acquire l k = .ok { k with held := l :: k.held } := if_neg h

theorem release_self (l : Lock) (k : Kernel) : release l { k with held := l :: k.held } = .ok k := by
  simp [release]

/-- a semaphore nobody sleeps on is left as it is -/
theorem postAllSem_nil {s : Semaphore} (h : s.sleeplist = []) :
    postAllSem s = if 0 ≤ s.val then some ([], s) else none := by
  obtain ⟨val, sleeplist⟩ := s
  obtain rfl : sleeplist = [] := h
  by_cases hv : 0 ≤ val
  · have h1 : ¬ val + 1 ≤ 0 := by omega
    have h2 : val + 1 > 0 := by omega
    simp [postAllSem, postAllRet, postAllLoop, postSem, getSem, hv, h1, h2]
  · have h1 : val + 1 ≤ 0 := by omega
    simp [postAllSem, postAllRet, postAllLoop, postSem, hv, h1]

theorem postAll_nil (l : Lock) (get : Kernel → Semaphore) (set : Semaphore → Kernel → Kernel) (k : Kernel)
    (hl : l ∉ k.held) (hget : get { k with held := l :: k.held } = get k) (hnil : (get k).sleeplist = [])
    (hset : set (get k) { k with held := l :: k.held } = { k with held := l :: k.held }) :
    postAll l get set k = if 0 ≤ (get k).val then .ok k else .error .panic := by
  simp only [postAll, acquire_ok hl, bind, Except.bind, hget, postAllSem_nil hnil]
  by_cases hv : 0 ≤ (get k).val
  · simp only [if_pos hv, activateAll, hset, release_self]
  · simp only [if_neg hv]

/-- the semaphore that closing an end of a pipe posts -/
def endSem (writable : Bool) (p : Pipe) : Semaphore := if writable then p.rlock else p.wlock

def setEndSem (writable : Bool) (s : Semaphore) (p : Pipe) : Pipe :=
  if writable then { p with rlock := s } else { p with wlock := s }

def endLock (i : ℕ) (writable : Bool) : Lock := if writable then .rlock i else .wlock i

/-- the end of a pipe is closed -/
def shut (f : FileTable.File) (k : Kernel) : Kernel :=
  setPipe f.obj (fun p => if f.writable then { p with writeopen := false } else { p with readopen := false }) k

/-- the same for both ends -/
theorem pipeClose_eq (f : FileTable.File) (k : Kernel) : pipeClose f.obj f.writable k = acquire (.pipe f.obj) k >>= fun k =>
    postAll (endLock f.obj f.writable) (fun k => endSem f.writable (k.pipe f.obj))
      (fun s => setPipe f.obj (setEndSem f.writable s)) (shut f k) >>= release (.pipe f.obj) := by
  unfold pipeClose shut
  cases f.writable <;> rfl

/-- the sleepers that the last close of file f would wake -/
def sleepers (k : Kernel) (f : FileTable.File) : List ℕ := (endSem f.writable (k.pipe f.obj)).sleeplist

/-- the locks that closing a pipe needs are free -/
def PipeLocksFree (k : Kernel) : Prop := ∀ i, Lock.pipe i ∉ k.held ∧ Lock.rlock i ∉ k.held ∧ Lock.wlock i ∉ k.held

theorem shut_sem (w : Bool) (j : ℕ) : endSem w ((shut f k).pipe j) = endSem w (k.pipe j) := by
  unfold shut setPipe
  by_cases hj : j = f.obj
  · subst hj
    cases w <;> cases f.writable <;> simp [endSem]
  · simp only [update_of_ne hj]

theorem pipeClose_quiet (hfree : PipeLocksFree k) (hnil : sleepers k f = [])
    (hv : 0 ≤ (endSem f.writable (k.pipe f.obj)).val) : pipeClose f.obj f.writable k = .ok (shut f k) := by
  obtain ⟨h1, h2, h3⟩ := hfree f.obj
  have hl : endLock f.obj f.writable ∉ (shut f { k with held := .pipe f.obj :: k.held }).held := by
    cases hw : f.writable <;> simp [endLock, shut, setPipe, h2, h3]
  have hsem : endSem f.writable ((shut f { k with held := .pipe f.obj :: k.held }).pipe f.obj) =
      endSem f.writable (k.pipe f.obj) := shut_sem _ _
  have hset : ∀ k1, setPipe f.obj (setEndSem f.writable (endSem f.writable (k1.pipe f.obj))) k1 = k1 := by
    intro k1
    cases hw : f.writable <;> simp [setPipe, setEndSem, endSem]
  have hpost := postAll_nil (endLock f.obj f.writable) (fun k => endSem f.writable (k.pipe f.obj))
    (fun s => setPipe f.obj (setEndSem f.writable s)) _ hl rfl (hsem ▸ hnil) (hset _)
  rw [pipeClose_eq, acquire_ok h1]
  simp only [bind, Except.bind, hpost, hsem, if_pos hv]
  exact release_self (.pipe f.obj) (shut f k)

/-! ## Paths that cannot end -/

/-- `rqlock` is held, and no token is left at `log.end` -/
def Busy (k : Kernel) : Prop := Lock.rqlock ∈ k.held ∧ k.logEnd.val ≤ 0

/-- the path halts, or it is still so -/
abbrev StaysBusy (r : Except Halt Kernel) : Prop := Ends (fun _ => True) Busy r

/-- the path halts -/
abbrev Halts (r : Except Halt Kernel) : Prop := Ends (fun _ => True) (fun _ => False) r

theorem Halts.not_ok {r : Except Halt Kernel} (h : Halts r) : r ≠ .ok k' := by
  rintro rfl
  exact h

/-- and so does whatever comes after it -/
theorem Halts.seq {r : Except Halt Kernel} {p : Path} (h : Halts r) {Q : Kernel → Prop} : Ends (fun _ => True) Q (r >>= p) :=
  h.bind fun _ hx => hx.elim

theorem acquire_busy (l : Lock) (h : Busy k) : StaysBusy (acquire l k) := by
  unfold acquire
  split_ifs
  · trivial
  · exact ⟨List.mem_cons_of_mem _ h.1, h.2⟩

theorem acquire_rqlock (h : Busy k) : acquire .rqlock k = .error (.deadlock .rqlock) := if_pos h.1

theorem release_busy (l : Lock) (hl : l ≠ .rqlock) (h : Busy k) : StaysBusy (release l k) :=
  ⟨(List.mem_erase_of_ne hl.symm).2 h.1, h.2⟩

theorem activateAll_halts {woken : List ℕ} (hw : woken ≠ []) (h : Busy k) : Halts (activateAll woken k) := by
  cases woken with
  | nil => exact absurd rfl hw
  | cons p woken =>
    simp only [activateAll, activateProc, Path.andThen, acquire_rqlock h, bind, Except.bind]
    trivial

section Semaphores

variable {l : Lock} {get : Kernel → Semaphore} {set : Semaphore → Kernel → Kernel}

theorem wait_halts (hget : (get k).val ≤ 0) (h : Busy k) : Halts (wait l get set k) := by
  simp only [wait, if_neg (by omega : ¬ (get k).val - 1 ≥ 0), acquire_rqlock h, bind, Except.bind]
  trivial

theorem wait_busy (hl : l ≠ .rqlock) (hset : ∀ s k, Busy k → Busy (set s k)) (h : Busy k) : StaysBusy (wait l get set k) := by
  unfold wait
  split_ifs
  · exact release_busy l hl (hset _ _ h)
  · rw [acquire_rqlock h]
    trivial

theorem post_busy (hl : l ≠ .rqlock) (hset : ∀ s k, Busy k → Busy (set s k)) (h : Busy k) : StaysBusy (post l get set k) := by
  refine (acquire_busy l h).bind fun k1 h1 => ?_
  cases postSem (get k1) with
  | none => trivial
  | some r =>
    have h2 := hset r.2 k1 h1
    refine (?_ : StaysBusy (activateAll r.1.toList (set r.2 k1))).bind fun k3 h3 => release_busy l hl h3
    by_cases hw : r.1.toList = []
    · rw [hw]
      exact h2
    · exact (activateAll_halts hw h2).mono fun _ hx => hx.elim

/-- sleepers are activated -/
theorem postAll_halts (hsem : ∀ held, get { k with held } = get k) (hok : SemOk (get k)) (hslp : (get k).sleeplist ≠ [])
    (hset : ∀ s k, Busy k → Busy (set s k)) (h : Busy k) : Halts (postAll l get set k) := by
  unfold postAll
  by_cases hl : l ∈ k.held
  · simp only [acquire, if_pos hl]
    trivial
  · have h1 := acquire_busy l h
    rw [acquire_ok hl] at h1 ⊢
    simp only [bind, Except.bind, hsem, postAllSem_ok hok]
    exact (activateAll_halts (by simpa using hslp) (hset _ _ h1)).seq

end Semaphores

theorem beginOp_busy (sb : SuperBlock) (h : Busy k) : StaysBusy (beginOp sb k) := by
  have hloop : ∀ fuel k, Busy k → StaysBusy (beginLoop sb fuel k) := by
    intro fuel
    induction fuel with
    | zero => exact fun _ _ => trivial
    | succ fuel ih =>
      intro k hk
      unfold beginLoop
      split_ifs
      · exact hk
      · refine (acquire_busy _ hk).bind fun k1 h1 => (release_busy .log (by simp) h1).bind fun k2 h2 => ?_
        refine Ends.bind (wait_busy (by simp) (fun _ _ hx => hx) h2) fun k3 h3 => ?_
        exact (acquire_busy _ h3).bind fun k4 h4 => ih k4 h4
  refine (acquire_busy _ h).bind fun k1 h1 => (hloop (k1.logBegin.val.toNat + 1) k1 h1).bind fun k2 h2 => ?_
  exact release_busy .log (by simp) (⟨h2.1, h2.2⟩ : Busy { k2 with log := beginRegion k2.log })

theorem deviceRW_halts (h : Busy k) : Halts (deviceRW k) :=
  (acquire_busy _ h).bind fun _ h1 => (acquire_busy _ h1).bind fun _ h2 =>
    (release_busy .disk (by simp) h2).bind fun _ h3 => wait_halts le_rfl h3

-- whether the log commits does not matter, so it is not computed
attribute [local irreducible] endRegion Ends in
/-- an operation sleeps when it ends, on its own commit or on that of others -/
theorem endOp_halts (rm : ℕ) (h : Busy k) : Halts (endOp rm k) := by
  refine (acquire_busy _ h).bind fun k1 h1 => ?_
  have h2 : ∀ log, Busy { k1 with log } := fun _ => h1
  dsimp only
  split_ifs
  · exact deviceRW_halts (h2 _)
  · exact (acquire_busy _ (h2 _)).bind fun _ h3 => (release_busy .log (by simp) h3).bind fun _ h4 => wait_halts h4.2 h4

theorem cacheWork_busy (h : Busy k) : StaysBusy (cacheWork i k) := by
  unfold cacheWork
  cases k.cacheOps i with
  | none =>
    rw [acquire_rqlock h]
    trivial
  | some rm => exact h

theorem inodeLock_busy (h : Busy k) : StaysBusy (inodeLock i k) :=
  (acquire_busy _ h).bind fun _ h1 => wait_busy (by simp) (fun _ _ hx => hx) h1

theorem inodeUnlock_busy (h : Busy k) : StaysBusy (inodeUnlock i k) := post_busy (by simp) (fun _ _ hx => hx) h

theorem putTransaction_halts (sb : SuperBlock) (h : Busy k) : Halts (putTransaction sb i k) := by
  refine (beginOp_busy sb h).bind fun k1 h1 => ?_
  refine (?_ : StaysBusy (inodePut i k1)).bind fun k2 h2 => endOp_halts _ h2
  refine (acquire_busy _ h1).bind fun k3 h3 => ?_
  by_cases hlast : (k3.inode i).rc = 1 ∧ (k3.inode i).numLinks = 0
  · simp only [if_pos hlast]
    refine (inodeLock_busy h3).bind fun k4 h4 => (cacheWork_busy h4).bind fun k5 h5 => ?_
    exact (inodeUnlock_busy h5).bind fun k6 h6 => release_busy .inodes (by simp) h6
  · simp only [if_neg hlast]
    exact release_busy .inodes (by simp) (h3 : Busy (setInode i (fun n => { n with rc := n.rc - 1 }) k3))

theorem writeBack_halts (sb : SuperBlock) (chunks : ℕ) (h : Busy k) : Halts (writeBack sb i (chunks + 1) k) := by
  refine (beginOp_busy sb h).bind fun k1 h1 => (inodeLock_busy h1).bind fun k2 h2 => (cacheWork_busy h2).bind fun k3 h3 => ?_
  exact (inodeUnlock_busy h3).bind fun k4 h4 => (endOp_halts _ h4).seq

/-- a page of which `file_write` writes nothing, the file being as long as it can be -/
def Unwritten (k : Kernel) (fp : Option ℕ) (d : ℕ × ℕ) : Prop :=
  ∃ i, fp = some i ∧ (k.file i).type = .inode ∧ min (subU inodeMaxBytes d.1) d.2 = 0

theorem freePages_iff (sb : SuperBlock) (fp : Option ℕ) (dirty : List (ℕ × ℕ)) (h : Busy k) :
    freePages sb fp dirty k = .ok k' ↔ (∀ d ∈ dirty, Unwritten k fp d) ∧ k' = k := by
  induction dirty with
  | nil => simp [freePages, eq_comm]
  | cons d dirty ih =>
    rw [List.forall_mem_cons, and_assoc, ← ih]
    cases fp with
    | none => simp [freePages, Unwritten]
    | some i =>
      by_cases ht : (k.file i).type = .inode
      · by_cases hz : min (subU inodeMaxBytes d.1) d.2 = 0
        · have hnone : (0 + FileWrite.chunkBytes - 1) / FileWrite.chunkBytes = 0 := by decide
          simp only [freePages, if_pos ht, hz, hnone, writeBack, bind, Except.bind]
          exact (and_iff_right ⟨i, rfl, ht, hz⟩).symm
        · obtain ⟨c, hc⟩ : ∃ c, (min (subU inodeMaxBytes d.1) d.2 + FileWrite.chunkBytes - 1) / FileWrite.chunkBytes = c + 1 := by
            refine ⟨_, (Nat.succ_pred_eq_of_pos (Nat.div_pos ?_ (by decide))).symm⟩
            omega
          simp only [freePages, if_pos ht, hc]
          have hhalts : Halts (writeBack sb (k.file i).obj (c + 1) k >>= freePages sb (some i) dirty) :=
            (writeBack_halts sb c h).seq
          refine iff_of_false hhalts.not_ok ?_
          rintro ⟨⟨j, -, -, hj⟩, -⟩
          exact hz hj
      · simp only [freePages, if_neg ht, reduceCtorEq, false_iff]
        rintro ⟨⟨j, hj, hjt, -⟩, -⟩
        cases hj
        exact ht hjt

/-! ## Closing everything -/

/-- closing the references in refs neither puts an inode nor wakes anybody at file i -/
def Quiet (k : Kernel) (refs : List ℕ) (i : ℕ) : Prop :=
  match (k.file i).type with
  | .inode => (refs.count i : ℤ) < (k.file i).ref
  | .pipe => (k.file i).ref ≤ refs.count i → sleepers k (k.file i) = []
  | .none => True

/-- the counts of the files cover these references, and the semaphores of the pipes count their sleepers -/
structure Sound (k : Kernel) (refs : List ℕ) : Prop where
  ref : ∀ i ∈ refs, (refs.count i : ℤ) ≤ (k.file i).ref
  sem : ∀ i, SemOk (k.pipe i).rlock ∧ SemOk (k.pipe i).wlock

theorem Sound.endSem_ok (h : Sound k refs) (w : Bool) (i : ℕ) : SemOk (endSem w (k.pipe i)) := by
  cases w with
  | true => exact (h.sem i).1
  | false => exact (h.sem i).2

/-- between two closes, refs being left to close -/
structure Closing (k : Kernel) (refs : List ℕ) : Prop where
  busy : Busy k
  ftable : Lock.ftable ∉ k.held
  pipes : PipeLocksFree k
  sound : Sound k refs

/-- one reference to file i is gone; nothing else that matters to closing has changed -/
structure Closed (k : Kernel) (i : ℕ) (k' : Kernel) : Prop where
  held : k'.held = k.held
  logEnd : k'.logEnd = k.logEnd
  file : k'.file = update k.file i { k.file i with ref := (k.file i).ref - 1 }
  sem : ∀ w j, endSem w (k'.pipe j) = endSem w (k.pipe j)

/-- the last writer or reader goes away, and somebody sleeps at the other end -/
theorem pipeClose_halts (h : Busy k) (hsem : SemOk (endSem f.writable (k.pipe f.obj))) (hslp : sleepers k f ≠ []) :
    Halts (pipeClose f.obj f.writable k) := by
  rw [pipeClose_eq]
  by_cases hp : Lock.pipe f.obj ∈ k.held
  · simp only [acquire, if_pos hp]
    trivial
  · have h1 := acquire_busy (.pipe f.obj) h
    rw [acquire_ok hp] at h1 ⊢
    have hpost : Halts (postAll (endLock f.obj f.writable) (fun k => endSem f.writable (k.pipe f.obj))
        (fun s => setPipe f.obj (setEndSem f.writable s)) (shut f { k with held := .pipe f.obj :: k.held })) := by
      refine postAll_halts (fun _ => rfl) ?_ ?_ (fun _ _ hx => hx) h1
      · rwa [shut_sem]
      · rwa [shut_sem]
    exact hpost.seq

/-- `file_close` when there is no inode to put -/
theorem closeFile_eq (hft : Lock.ftable ∉ k.held)
    (hclose : fileClose (k.file i) = some (f, false)) :
    closeFile sb i k =
      if f.type = .pipe ∧ f.ref = 0 then
        pipeClose f.obj f.writable (setFile i f { k with held := .ftable :: k.held }) >>= release .ftable
      else .ok (setFile i f k) := by
  simp only [closeFile, acquire_ok hft, bind, Except.bind, hclose, Bool.false_eq_true, if_false]
  by_cases hlast : f.type = .pipe ∧ f.ref = 0
  · rw [if_pos hlast, if_pos hlast]
  · rw [if_neg hlast, if_neg hlast]
    exact release_self .ftable (setFile i f k)

/-- the last reference to the end of a pipe nobody sleeps at -/
theorem closeFile_pipe (hft : Lock.ftable ∉ k.held)
    (hfree : PipeLocksFree k) (hclose : fileClose (k.file i) = some (f, false)) (hlast : f.type = .pipe ∧ f.ref = 0)
    (hnil : sleepers k f = []) (hok : SemOk (endSem f.writable (k.pipe f.obj))) :
    closeFile sb i k = .ok (shut f (setFile i f k)) := by
  have hfree' : PipeLocksFree (setFile i f { k with held := .ftable :: k.held }) := by
    intro j
    simpa [setFile] using hfree j
  have hv : 0 ≤ (endSem f.writable (k.pipe f.obj)).val := by
    unfold SemOk at hok
    rw [show (endSem f.writable (k.pipe f.obj)).sleeplist = [] from hnil, List.length_nil] at hok
    omega
  rw [closeFile_eq hft hclose, if_pos hlast, pipeClose_quiet hfree' hnil hv]
  exact release_self .ftable (shut f (setFile i f k))

/-- the last reference to an inode file: it is put in a transaction, unless there is none -/
theorem closeFile_inode (sb : SuperBlock) (h : Busy k) (hft : Lock.ftable ∉ k.held) (href : (k.file i).ref = 1)
    (hinode : (k.file i).type = .inode) : Halts (closeFile sb i k) := by
  have hclose := fileClose_last href
  rw [if_pos hinode] at hclose
  by_cases hobj : (k.file i).obj = 0
  · rw [if_pos hobj] at hclose
    simp only [closeFile, acquire_ok hft, bind, Except.bind, hclose]
    trivial
  · rw [if_neg hobj] at hclose
    have hb : Busy (setFile i { k.file i with ref := 0 } { k with held := .ftable :: k.held }) :=
      ⟨List.mem_cons_of_mem _ h.1, h.2⟩
    have hrun : closeFile sb i k = release .ftable (setFile i { k.file i with ref := 0 } { k with held := .ftable :: k.held })
        >>= fun k1 => putTransaction sb (k.file i).obj k1 >>= fun k1 => acquire .ftable k1 >>= fun k1 =>
          release .ftable (setFile i (fileClear (k1.file i)) k1) := by
      simp only [closeFile, acquire_ok hft, bind, Except.bind, hclose, if_true]
    rw [hrun]
    exact (release_busy .ftable (by simp) hb).bind fun k1 h1 => (putTransaction_halts sb h1).seq

/-- **Closing one reference.** `file_close` comes back from a quiet file, and from no other. -/
theorem closeFile_iff (sb : SuperBlock) (h : Closing k (i :: refs)) :
    (Quiet k [i] i → ∃ k', closeFile sb i k = .ok k' ∧ Closed k i k') ∧ (¬ Quiet k [i] i → Halts (closeFile sb i k)) := by
  have hft := h.ftable
  have hone : ([i].count i : ℤ) = 1 := by rw [List.count_singleton_self]; rfl
  have hpos : 1 ≤ (k.file i).ref := by
    have hle := h.sound.ref i List.mem_cons_self
    rw [List.count_cons_self] at hle
    omega
  by_cases hinode : (k.file i).ref = 1 ∧ (k.file i).type = .inode
  · refine ⟨fun hq => ?_, fun _ => closeFile_inode sb h.busy hft hinode.1 hinode.2⟩
    simp only [Quiet, hinode.2] at hq
    omega
  -- there is nothing to put
  obtain ⟨f, hf⟩ : ∃ f : FileTable.File, f = { k.file i with ref := (k.file i).ref - 1 } := ⟨_, rfl⟩
  have hclose : fileClose (k.file i) = some (f, false) := by
    by_cases href : (k.file i).ref = 1
    · rw [fileClose_last href, if_neg fun ht => hinode ⟨href, ht⟩, hf, href]
      rfl
    · rw [fileClose, if_neg (by omega), hf]
      exact if_pos (by change (k.file i).ref - 1 > 0; omega)
  have hfref : f.ref = (k.file i).ref - 1 := by rw [hf]
  have hftype : f.type = (k.file i).type := by rw [hf]
  have hsame : sleepers k f = sleepers k (k.file i) := by rw [hf]; rfl
  have hclosed : Closed k i (setFile i f k) := ⟨rfl, rfl, by rw [hf]; rfl, fun _ _ => rfl⟩
  by_cases hpipe : f.type = .pipe ∧ f.ref = 0
  · have hq : Quiet k [i] i ↔ sleepers k f = [] := by
      simp only [Quiet, ← hftype, hpipe.1, hsame]
      exact ⟨fun hx => hx (by omega), fun hx _ => hx⟩
    have hok := h.sound.endSem_ok f.writable f.obj
    rw [hq]
    refine ⟨fun hnil => ⟨shut f (setFile i f k), ?_, hclosed.held, hclosed.logEnd, hclosed.file, fun w j => shut_sem w j⟩,
      fun hslp => ?_⟩
    · exact closeFile_pipe hft h.pipes hclose hpipe hnil hok
    · rw [closeFile_eq hft hclose, if_pos hpipe]
      have hbusy : Busy (setFile i f { k with held := .ftable :: k.held }) := ⟨List.mem_cons_of_mem _ h.busy.1, h.busy.2⟩
      exact (pipeClose_halts hbusy hok hslp).seq
  · refine ⟨fun _ => ⟨setFile i f k, ?_, hclosed⟩, fun hloud => absurd ?_ hloud⟩
    · rw [closeFile_eq hft hclose, if_neg hpipe]
    · rw [hftype, hfref] at hpipe
      unfold Quiet
      cases ht : (k.file i).type with
      | inode =>
        have hne : (k.file i).ref ≠ 1 := fun hx => hinode ⟨hx, ht⟩
        simp only
        omega
      | pipe =>
        have hne : (k.file i).ref - 1 ≠ 0 := fun hx => hpipe ⟨ht, hx⟩
        exact fun hle => by omega
      | none => trivial

/-- what is left to close is as quiet as before -/
theorem Closed.quiet_iff {j : ℕ} (hc : Closed k i k') : Quiet k' refs j ↔ Quiet k (i :: refs) j := by
  have hslp : ∀ f, sleepers k' f = sleepers k f := by
    intro f
    unfold sleepers
    rw [hc.sem]
  unfold Quiet
  rw [hc.file]
  by_cases hji : j = i
  · subst hji
    rw [update_self, List.count_cons_self]
    dsimp only
    cases (k.file j).type with
    | inode => push_cast; omega
    | pipe =>
      simp only [hslp]
      have hle : (k.file j).ref - 1 ≤ refs.count j ↔ (k.file j).ref ≤ ((refs.count j + 1 : ℕ) : ℤ) := by push_cast; omega
      rw [hle]
      rfl
    | none => exact Iff.rfl
  · rw [update_of_ne hji, hslp, List.count_cons_of_ne (Ne.symm hji)]

theorem Closing.closed (hc : Closed k i k') (h : Closing k (i :: refs)) : Closing k' refs := by
  refine ⟨?_, by rw [hc.held]; exact h.ftable, ?_, fun j hj => ?_, fun j => ?_⟩
  · unfold Busy
    rw [hc.held, hc.logEnd]
    exact h.busy
  · unfold PipeLocksFree
    rw [hc.held]
    exact h.pipes
  · have hle := h.sound.ref j (List.mem_cons_of_mem i hj)
    rw [hc.file]
    by_cases hji : j = i
    · subst hji
      rw [List.count_cons_self] at hle
      rw [update_self]
      dsimp only
      push_cast at hle
      omega
    · rw [List.count_cons_of_ne (Ne.symm hji)] at hle
      rwa [update_of_ne hji]
  · have hr : (k'.pipe j).rlock = _ := hc.sem true j
    have hw : (k'.pipe j).wlock = _ := hc.sem false j
    rw [hr, hw]
    exact h.sound.sem j

/-- closing all of refs is quiet at each of them -/
def AllQuiet (k : Kernel) (refs : List ℕ) : Prop := ∀ i ∈ refs, Quiet k refs i

/-- the first of them may be closed, and then the others -/
theorem allQuiet_cons (h : Closing k (i :: refs)) :
    AllQuiet k (i :: refs) ↔ Quiet k [i] i ∧ ∀ k', Closed k i k' → AllQuiet k' refs := by
  have hone : Quiet k (i :: refs) i → Quiet k [i] i := by
    unfold Quiet
    rw [List.count_cons_self, List.count_singleton_self]
    cases (k.file i).type with
    | inode => simp only; omega
    | pipe => exact fun hx hle => hx (by push_cast at hle ⊢; omega)
    | none => exact id
  constructor
  · intro hq
    exact ⟨hone (hq i List.mem_cons_self), fun k' hc j hj => hc.quiet_iff.2 (hq j (List.mem_cons_of_mem i hj))⟩
  · rintro ⟨hfirst, hrest⟩ j hj
    have hc : Closed k i { k with file := update k.file i { k.file i with ref := (k.file i).ref - 1 } } :=
      ⟨rfl, rfl, rfl, fun _ _ => rfl⟩
    by_cases hmem : j ∈ refs
    · exact hc.quiet_iff.1 (hrest _ hc j hmem)
    · obtain rfl : j = i := (List.mem_cons.1 hj).resolve_right hmem
      unfold Quiet at hfirst ⊢
      rwa [List.count_cons_self, List.count_eq_zero_of_not_mem hmem, Nat.zero_add, ← List.count_singleton_self (a := j)]

/-- closed one after the other -/
structure ClosedAll (k : Kernel) (rest : List ℕ) (k' : Kernel) : Prop where
  held : k'.held = k.held
  type : ∀ i, (k'.file i).type = (k.file i).type
  closing : Closing k' rest

/-- **Closing them all.** -/
theorem closeAll_iff (sb : SuperBlock) (slots : List (Option ℕ)) (rest : List ℕ) (h : Closing k (slots.filterMap id ++ rest)) :
    (∀ k', closeAll sb slots k = .ok k' → ClosedAll k rest k' ∧ (AllQuiet k' rest → AllQuiet k (slots.filterMap id ++ rest))) ∧
      (AllQuiet k (slots.filterMap id ++ rest) → ∃ k', closeAll sb slots k = .ok k' ∧ AllQuiet k' rest) := by
  induction slots generalizing k with
  | nil => exact ⟨fun k' hk' => by cases hk'; exact ⟨⟨rfl, fun _ => rfl, h⟩, id⟩, fun hq => ⟨k, rfl, hq⟩⟩
  | cons slot slots ih =>
    cases slot with
    | none => exact ih h
    | some i =>
      have hcons : (some i :: slots).filterMap id ++ rest = i :: (slots.filterMap id ++ rest) := rfl
      rw [hcons] at h ⊢
      rw [closeAll, Path.andThen, allQuiet_cons h]
      obtain ⟨hquiet, hloud⟩ := closeFile_iff sb h
      by_cases hq : Quiet k [i] i
      · obtain ⟨k1, hrun, hc⟩ := hquiet hq
        obtain ⟨hback, hforth⟩ := ih (h.closed hc)
        rw [hrun]
        refine ⟨fun k' hk' => ?_, fun hall => hforth (hall.2 k1 hc)⟩
        obtain ⟨hk, hall⟩ := hback k' hk'
        refine ⟨⟨hk.held.trans hc.held, fun j => (hk.type j).trans ?_, hk.closing⟩, fun hrest => ⟨hq, fun k2 hc2 j hj => ?_⟩⟩
        · rw [hc.file]
          by_cases hji : j = i
          · rw [hji, update_self]
          · rw [update_of_ne hji]
        · exact hc2.quiet_iff.2 (hc.quiet_iff.1 (hall hrest j hj))
      · have hhalts : Halts (closeFile sb i k >>= closeAll sb slots) := (hloud hq).seq
        exact ⟨fun k' hk' => absurd hk' hhalts.not_ok, fun hall => absurd hall.1 hq⟩

/-- to close them all, it takes that they are quiet -/
theorem closeAll_returns (sb : SuperBlock) {slots : List (Option ℕ)} (h : Closing k (slots.filterMap id)) :
    (∃ k', closeAll sb slots k = .ok k') ↔ AllQuiet k (slots.filterMap id) := by
  rw [← List.append_nil (slots.filterMap id)] at h ⊢
  obtain ⟨hback, hforth⟩ := closeAll_iff sb slots [] h
  constructor
  · rintro ⟨k', hk'⟩
    exact (hback k' hk').2 fun i hi => absurd hi List.not_mem_nil
  · intro hq
    obtain ⟨k', hk', -⟩ := hforth hq
    exact ⟨k', hk'⟩

/-- `free_pages_of_section` has nothing to write -/
def Clean (k : Kernel) (sec : Section) : Prop := ∀ d ∈ sec.dirty, Unwritten k sec.fp d

theorem Clean.of_type {sec : Section} (h : Clean k sec) (ht : ∀ i, (k'.file i).type = (k.file i).type) : Clean k' sec := by
  intro d hd
  obtain ⟨i, hi, hti, hz⟩ := h d hd
  exact ⟨i, hi, (ht i).trans hti, hz⟩

theorem filterMap_fp (secs : List Section) : (secs.map Section.fp).filterMap id = secs.filterMap Section.fp := by
  rw [List.filterMap_map]
  rfl

/-- `free_sections` comes back when it has nothing to write, and then it only closes files -/
theorem freeSectionsLoop_iff (sb : SuperBlock) (secs : List Section) (rest : List ℕ)
    (h : Closing k ((secs.map Section.fp).filterMap id ++ rest)) :
    freeSectionsLoop sb secs k = .ok k' ↔ (∀ sec ∈ secs, Clean k sec) ∧ closeAll sb (secs.map Section.fp) k = .ok k' := by
  induction secs generalizing k with
  | nil => simp [freeSectionsLoop, closeAll]
  | cons sec secs ih =>
    have hsplit : ((sec :: secs).map Section.fp).filterMap id ++ rest =
        [sec.fp].filterMap id ++ ((secs.map Section.fp).filterMap id ++ rest) := by
      rw [List.map_cons, ← List.singleton_append, List.filterMap_append, List.append_assoc]
    rw [hsplit] at h
    obtain ⟨hback, -⟩ := closeAll_iff sb [sec.fp] _ h
    have htwo : closeAll sb ((sec :: secs).map Section.fp) k = closeAll sb [sec.fp] k >>= closeAll sb (secs.map Section.fp) := by
      rw [List.map_cons]
      cases sec.fp with
      | none => rfl
      | some i =>
        show closeFile sb i k >>= closeAll sb _ = (closeFile sb i k >>= Except.ok) >>= closeAll sb _
        cases closeFile sb i k with
        | error e => rfl
        | ok k1 => rfl
    rw [List.forall_mem_cons, htwo, freeSectionsLoop]
    constructor
    · intro hrun
      obtain ⟨k1, hfree, hloop⟩ := bind_ok hrun
      obtain ⟨hclean, hk1⟩ := (freePages_iff sb _ _ h.busy).1 hfree
      rw [hk1] at hloop
      obtain ⟨k2, hclose, hloop⟩ := bind_ok hloop
      obtain ⟨hk, -⟩ := hback k2 hclose
      obtain ⟨hcleans, hall⟩ := (ih hk.closing).1 hloop
      refine ⟨⟨hclean, fun t ht => (hcleans t ht).of_type fun i => (hk.type i).symm⟩, ?_⟩
      rw [hclose]
      exact hall
    · rintro ⟨⟨hclean, hcleans⟩, hrun⟩
      obtain ⟨k2, hclose, hrun⟩ := bind_ok hrun
      obtain ⟨hk, -⟩ := hback k2 hclose
      have hfree := (freePages_iff sb _ _ h.busy).2 ⟨hclean, rfl⟩
      simp only [hfree, bind, Except.bind, hclose]
      exact (ih hk.closing).2 ⟨fun t ht => (hcleans t ht).of_type hk.type, hrun⟩

/-- an address space that goes away is not locked, and has no bytes to write back; no inode file is closed for the last time;
there is no sleeper at an end of a pipe that goes away -/
structure LeavesQuietly (k : Kernel) (p : Proc) : Prop where
  unlocked : p.pt = true → Lock.pgdir ∉ k.held
  clean : p.pt = true → ∀ sec ∈ p.sections, Clean k sec
  quiet : AllQuiet k p.refs

/-- the locks that no caller of `exit` holds -/
structure LocksFree (k : Kernel) : Prop where
  rqlock : Lock.rqlock ∉ k.held
  ftable : Lock.ftable ∉ k.held
  pipes : PipeLocksFree k

/-- **exit reaches sched** if and only if the process leaves quietly: the reference counts of its files and the semaphores of its
pipes being in order, and no token being left at `log.end`. -/
theorem exit_reaches_sched (sb : SuperBlock) (p : Proc) (k : Kernel) (hfree : LocksFree k) (hend : k.logEnd.val ≤ 0)
    (hs : Sound k p.refs) : (∃ k', exitTail sb p k = .ok k') ↔ LeavesQuietly k p := by
  have hexit : exitTail sb p k = freePgdir sb p { k with held := .rqlock :: k.held } >>= closeAll sb p.oftable := by
    simp only [exitTail, acquire_ok hfree.rqlock, bind, Except.bind]
  rw [hexit]
  -- closing files with some more locks held
  have hclosing : ∀ held, (∀ l ∈ held, l = Lock.rqlock ∨ l = Lock.pgdir ∨ l ∈ k.held) → Lock.rqlock ∈ held →
      Closing { k with held } p.refs := by
    intro held hsub hrq
    refine ⟨⟨hrq, hend⟩, fun hx => ?_, fun i => ⟨fun hx => ?_, fun hx => ?_, fun hx => ?_⟩, hs.ref, hs.sem⟩
    · simpa [hfree.ftable] using hsub _ hx
    · simpa [(hfree.pipes i).1] using hsub _ hx
    · simpa [(hfree.pipes i).2.1] using hsub _ hx
    · simpa [(hfree.pipes i).2.2] using hsub _ hx
  cases hpt : p.pt with
  | false =>
    have hrefs : p.refs = p.oftable.filterMap id := by simp [Proc.refs, hpt]
    have hc := hclosing (.rqlock :: k.held) (by simp +contextual) List.mem_cons_self
    rw [hrefs] at hc
    simp only [freePgdir, hpt, Bool.false_eq_true, if_false, bind, Except.bind]
    rw [closeAll_returns sb hc, ← hrefs]
    exact ⟨fun hq => ⟨fun hx => by simp [hpt] at hx, fun hx => by simp [hpt] at hx, hq⟩, fun hq => hq.quiet⟩
  | true =>
    have hrefs : p.refs = (p.sections.map Section.fp).filterMap id ++ p.oftable.filterMap id := by
      simp only [Proc.refs, hpt, if_true, filterMap_fp]
    by_cases hlock : Lock.pgdir ∈ k.held
    · simp only [freePgdir, hpt, if_true, acquire, List.mem_cons, hlock, or_true, bind, Except.bind]
      exact iff_of_false (fun ⟨k', hk'⟩ => by cases hk') fun hq => hq.unlocked hpt hlock
    · have hfreepg : freePgdir sb p { k with held := .rqlock :: k.held } =
          freeSectionsLoop sb p.sections { k with held := .pgdir :: .rqlock :: k.held } >>= release .pgdir := by
        simp only [freePgdir, hpt, if_true, acquire_ok (l := .pgdir) (k := { k with held := .rqlock :: k.held }) (by simp [hlock]), bind,
          Except.bind]
      have hc := hclosing (.pgdir :: .rqlock :: k.held) (by simp +contextual) (by simp)
      rw [hrefs] at hc
      obtain ⟨hback, hforth⟩ := closeAll_iff sb _ _ hc
      rw [hfreepg]
      -- the files of the sections are closed, and those of the descriptors are left
      have hrest : ∀ {k1 : Kernel}, closeAll sb (p.sections.map Section.fp) { k with held := .pgdir :: .rqlock :: k.held } = .ok k1 →
          ((∃ k', closeAll sb p.oftable { k1 with held := k1.held.erase .pgdir } = .ok k') ↔
            AllQuiet k1 (p.oftable.filterMap id)) := by
        intro k1 hk1
        obtain ⟨hk, -⟩ := hback k1 hk1
        have hc1 := hk.closing
        have hheld : k1.held.erase .pgdir = .rqlock :: k.held := by rw [hk.held]; simp
        refine closeAll_returns sb ⟨⟨by simp [hheld], hc1.busy.2⟩, ?_, fun i => ?_, hc1.sound.ref, hc1.sound.sem⟩
        · simp only [hheld]
          simp [hfree.ftable]
        · simp only [hheld]
          simpa using hfree.pipes i
      constructor
      · rintro ⟨k', hk'⟩
        obtain ⟨k2, hk2, hk'⟩ := bind_ok hk'
        obtain ⟨k1, hk1, hrel⟩ := bind_ok hk2
        cases hrel
        obtain ⟨hclean, hclose⟩ := (freeSectionsLoop_iff sb _ _ hc).1 hk1
        refine ⟨fun _ => hlock, fun _ sec hsec => (hclean sec hsec).of_type fun _ => rfl, ?_⟩
        rw [hrefs]
        exact (hback k1 hclose).2 ((hrest hclose).1 ⟨k', hk'⟩)
      · intro hq
        have hquiet := hq.quiet
        rw [hrefs] at hquiet
        obtain ⟨k1, hclose, hq1⟩ := hforth hquiet
        have hsecs := (freeSectionsLoop_iff sb _ _ hc).2 ⟨fun sec hsec => (hq.clean hpt sec hsec).of_type fun _ => rfl, hclose⟩
        obtain ⟨k', hk'⟩ := (hrest hclose).2 hq1
        refine ⟨k', ?_⟩
        simp only [hsecs, bind, Except.bind, release]
        exact hk'

/-- a kernel with these files and pipes, nothing else going on -/
def idleKernel (file : ℕ → FileTable.File) (pipe : ℕ → Pipe) : Kernel :=
  ⟨[], file, pipe, ⟨⟨0, fun _ => 0⟩, 0, 0, false⟩, initSem 0, initSem 0, fun _ => ⟨1, 1, initSleeplock⟩, fun _ => some 10⟩

/-- the text of a program that its parent runs too, and the write end of a pipe nobody waits at -/
def sharedText : ℕ → FileTable.File
  | 0 => ⟨.inode, 2, true, false, 5, 0⟩
  | _ => ⟨.pipe, 1, false, true, 3, 0⟩

def child : Proc := ⟨true, [⟨some 0, []⟩], [none, some 1]⟩

theorem exit_reaches_sched_child :
    ∃ k', exitTail mkfsSuperBlock child (idleKernel sharedText fun _ => initPipe fun _ => 0) = .ok k' := by
  have hsound : Sound (idleKernel sharedText fun _ => initPipe fun _ => 0) child.refs := by
    refine ⟨fun i hi => ?_, fun i => ⟨semOk_init le_rfl, semOk_init le_rfl⟩⟩
    have hi' : i ∈ [0, 1] := hi
    fin_cases hi' <;> decide
  refine (exit_reaches_sched _ _ _ ⟨List.not_mem_nil, List.not_mem_nil, fun i => by simp [idleKernel]⟩ le_rfl hsound).2
    ⟨fun _ => List.not_mem_nil, fun _ sec hsec d hd => ?_, fun i hi => ?_⟩
  · obtain rfl := List.mem_singleton.1 hsec
    cases hd
  · have hi' : i ∈ [0, 1] := hi
    fin_cases hi'
    · show ((child.refs.count 0 : ℕ) : ℤ) < 2
      decide
    · exact fun _ => rfl

/-- a process with one open file -/
def oneFile : Proc := ⟨false, [], [some 0]⟩

/-- **exit takes rqlock again** for the last reference to an inode file, and for the last writer of a pipe at which a
reader sleeps. -/
theorem exit_takes_rqlock :
    reason (exitTail mkfsSuperBlock oneFile (idleKernel (fun _ => ⟨.inode, 1, true, false, 5, 0⟩)
      fun _ => initPipe fun _ => 0)) = some (.deadlock .rqlock) ∧
    reason (exitTail mkfsSuperBlock oneFile (idleKernel (fun _ => ⟨.pipe, 1, false, true, 3, 0⟩)
      fun _ => { initPipe fun _ => 0 with rlock := ⟨-1, [7]⟩ })) = some (.deadlock .rqlock) := by
  constructor <;> decide +kernel

end OsKernel.Exit
