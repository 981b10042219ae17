/-
Access modes (`file_read`, `file_write` in `fs/file.c`, `read`, `write`, `writev`, `openat` in `kernel/sysfile.c`).

Any processes make calls one after the other. Those that open, share and close files are the ones of `PipeEnds`; here are
`read`, `write` and `writev`, with inodes and the rings of pipes. A call is one step unless it sleeps in `pipe_read` or
`pipe_write`: then the process keeps a `Task`, and goes on with it when it is woken (`resume`) or gives up (`interrupt`).
Wake-ups are in `Fs/Pipe`; here a sleeper may be woken at any time and looks again. Whether a user buffer passes the check
of its range, and what `console_read` delivers, is part of the label.

`opened` is a ghost, how each entry of the file table was last opened. Result (`modes_respected`): in every state reached, the
mode bits and the type of every entry in use are as its opener asked; and if every call goes through a file whose mode fits it,
a write changes nothing but an inode opened for writing that is no directory, reads deliver bytes only from files opened for
reading, and bytes go into a pipe at its write end and leave it at its read end. The code never looks at the bits, so a call
that does not fit goes through (`modes_ignored`).
-/
import OsKernel.Fs.FileWrite
import OsKernel.Fs.Pipe
import OsKernel.Kernel.PipeEnds
import OsKernel.Kernel.UserRange

namespace OsKernel.Kernel.AccessMode

open OsKernel.Runs OsKernel.Kernel.PipeEnds
open OsKernel.Fs (addU subU inodeMaxBytes)
open OsKernel.Fs.FileTable (File FileType fileAlloc)
open OsKernel.Fs.FileWrite (chunkBytes inodeRead inodeRead_length inodeWrite)
open OsKernel.Fs.PipeSys (writeLoop readLoop initPipe)
open Function (update update_apply update_of_ne update_self)

/-! ## State -/

inductive InodeType where
  | regular
  | directory
  | device
deriving DecidableEq, Repr

structure Inode where
  type : InodeType
  bytes : List UInt8
deriving DecidableEq, Repr

/-- what a call that sleeps has still to do -/
inductive Work where
  /-- len bytes are written, rest is to come -/
  | write (len : ℕ) (rest : List UInt8)
  | read (n : ℕ)

/-- a call that sleeps in a pipe -/
structure Task where
  file : ℕ
  pipe : ℕ
  work : Work
  /-- inside `writev`: the sum so far and the buffers to come -/
  vec : Option (ℤ × List (List UInt8 × Bool))

/-- how a file is opened -/
inductive Mode where
  | file (omode : ℕ)
  | pipe (writable : Bool)
deriving DecidableEq, Repr

structure Sys where
  files : PipeEnds.Sys
  inode : ℕ → Inode
  /-- data and counters of the pipe at an address; whether its ends are open is in `files` -/
  ring : ℕ → Fs.PipeSys.Pipe
  task : ℕ → Option Task
  /-- what the last call of each process returned, and the bytes it was given -/
  ret : ℕ → ℤ
  got : ℕ → List UInt8
  opened : ℕ → Mode

def init (procs : Finset ℕ) (inode : ℕ → Inode) (data : ℕ → UInt8) : Sys :=
  ⟨PipeEnds.init procs, inode, fun _ => initPipe data, fun _ => none, fun _ => 0, fun _ => [], fun _ => .file 0⟩

/-! ## The functions -/

/-- where a call ends: it returns, or sleeps -/
inductive Outcome where
  | ret (r : ℤ)
  | wait (w : Work)

/-- the pipe at a; none when it is not allocated -/
def pipeAt (s : Sys) (a : ℕ) : Option Fs.PipeSys.Pipe :=
  (s.files.heap a).map fun pi => { s.ring a with readopen := pi.readopen, writeopen := pi.writeopen }

def Sys.setRing (s : Sys) (a : ℕ) (pi : Fs.PipeSys.Pipe) : Sys := { s with ring := update s.ring a pi }

/-- the loop of `pipe_write` up to its end or to where it sleeps; len bytes are written already -/
def pipeWrite (s : Sys) (a len : ℕ) (src : List UInt8) : Option (Outcome × Sys) :=
  (pipeAt s a).map fun pi =>
    let r := writeLoop src pi
    let len := len + (src.length - r.2.1.length)
    let out := match r.1 with
      | .done => .ret len
      | .closed => .ret (-1)
      | .full => .wait (.write len r.2.1)
    (out, s.setRing a r.2.2)

/-- `pipe_read` from its first loop on -/
def pipeRead (s : Sys) (a n : ℕ) : Option (Outcome × List UInt8 × Sys) :=
  (pipeAt s a).map fun pi =>
    if pi.nwrite = pi.nread ∧ pi.writeopen then (.wait (.read n), [], s)
    else
      let r := readLoop n pi
      (.ret r.1.length, r.1, s.setRing a r.2)

/-- the `int` that a count is passed as, as a number of turns -/
def asInt (n : ℕ) : ℕ := if n % 2 ^ 32 < 2 ^ 31 then n % 2 ^ 32 else 0

/-- `inode_write`; `console_write` takes everything -/
def writeInode (d : Inode) (off : ℕ) (src : List UInt8) : Option Inode :=
  match d.type with
  | .device => some d
  | .regular | .directory => (inodeWrite d.bytes off src).map fun bytes => { d with bytes }

/-- the loop of `file_write` over its chunks -/
def writeChunks : ℕ → Inode → ℕ → List UInt8 → Option (Inode × ℕ)
  | 0, d, off, _ => some (d, off)
  | fuel + 1, d, off, src =>
    if src = [] then some (d, off)
    else
      let chunk := src.take chunkBytes
      (writeInode d off chunk).bind fun d => writeChunks fuel d (addU off chunk.length) (src.drop chunkBytes)

/-- `file_write` -/
def fileWrite (s : Sys) (f : ℕ) (src : List UInt8) : Option (Outcome × Sys) :=
  let x := s.files.table f
  match x.type with
  | .pipe =>
    match pipeAt s x.obj with
    | none => none
    | some pi => if pi.writeopen then pipeWrite s x.obj 0 (src.take (asInt src.length)) else none
  | .inode =>
    let src := src.take (min (subU inodeMaxBytes x.off) src.length)
    (writeChunks src.length (s.inode x.obj) x.off src).map fun r =>
      (.ret src.length,
        { s with inode := update s.inode x.obj r.1, files := s.files.setFile f { x with off := r.2 } })
  | .none => some (.ret (-1), s)

/-- the bytes are delivered and the offset goes on -/
def Sys.advance (s : Sys) (f : ℕ) (bs : List UInt8) : Sys :=
  { s with files := s.files.setFile f { s.files.table f with off := addU (s.files.table f).off bs.length } }

/-- `file_read`; keys is what `console_read` delivers, none when its wait is interrupted -/
def fileRead (s : Sys) (f n : ℕ) (keys : Option (List UInt8)) : Option (Outcome × List UInt8 × Sys) :=
  let x := s.files.table f
  match x.type with
  | .pipe =>
    match pipeAt s x.obj with
    | none => none
    | some pi => if pi.readopen then pipeRead s x.obj n else none
  | .inode =>
    match (s.inode x.obj).type with
    | .device =>
      match keys with
      | none => some (.ret (-1), [], s)
      | some bs => if bs.length ≤ n then some (.ret bs.length, bs, s.advance f bs) else none
    | .regular | .directory =>
      (inodeRead (s.inode x.obj).bytes x.off n).map fun bs => (.ret bs.length, bs, s.advance f bs)
  | .none => some (.ret (-1), [], s)

/-! ## Calls -/

/-- what a process is left with -/
inductive Reply where
  | ret (r : ℤ)
  | wait (t : Task)

def Sys.reply (s : Sys) (p : ℕ) (got : List UInt8) : Reply → Sys
  | .ret r => { s with
      ret := update s.ret p r
      got := update s.got p got
      task := update s.task p none }
  | .wait t => { s with got := update s.got p got, task := update s.task p (some t) }

def Outcome.reply (file pipe : ℕ) : Outcome → Reply
  | .ret r => .ret r
  | .wait w => .wait ⟨file, pipe, w, none⟩

/-- the loop of `writev` -/
def writevLoop (f : ℕ) : List (List UInt8 × Bool) → ℤ → Sys → Option (Reply × Sys)
  | [], tot, s => some (.ret tot, s)
  | (src, ok) :: iov, tot, s =>
    if ok then
      (fileWrite s f src).bind fun r =>
        match r.1 with
        | .ret n => writevLoop f iov (tot + n) r.2
        | .wait w => some (.wait ⟨f, (s.files.table f).obj, w, some (tot, iov)⟩, r.2)
    else some (.ret (-1), s)

/-- `pipe_write` returns n to the call that it is part of -/
def finish (t : Task) (n : ℤ) (s : Sys) : Option (Reply × Sys) :=
  match t.vec with
  | none => some (.ret n, s)
  | some (tot, iov) => writevLoop t.file iov (tot + n) s

/-- a sleeper is woken -/
def resume (s : Sys) (t : Task) : Option (Reply × List UInt8 × Sys) :=
  match t.work with
  | .write len rest =>
    (pipeWrite s t.pipe len rest).bind fun r =>
      match r.1 with
      | .ret n => (finish t n r.2).map fun r => (r.1, [], r.2)
      | .wait w => some (.wait { t with work := w }, [], r.2)
  | .read n =>
    (pipeRead s t.pipe n).map fun r =>
      match r.1 with
      | .ret n => (.ret n, r.2)
      | .wait w => (.wait { t with work := w }, r.2)

/-- the wait of a sleeper returns false -/
def interrupt (s : Sys) (t : Task) : Option (Reply × Sys) :=
  match t.work with
  | .write len _ => finish t len s
  | .read _ => some (.ret (-1), s)

def fd2file (s : PipeEnds.Sys) (p : ℕ) (fd : ℤ) : Option ℕ :=
  if fd < 0 ∨ PipeEnds.nofile ≤ fd then none else (s.oftable p).getD fd.toNat none

inductive Op where
  /-- a call of `PipeEnds` -/
  | files (c : ℕ × PipeEnds.Syscall)
  /-- `openat` with `O_CREAT`; made is what `create` makes of inodes -/
  | create (p ip omode : ℕ) (made : List (ℕ × Inode))
  | read (p : ℕ) (fd size : ℤ) (ok : Bool) (keys : Option (List UInt8))
  | write (p : ℕ) (fd : ℤ) (src : List UInt8) (ok : Bool)
  | writev (p : ℕ) (fd : ℤ) (iov : List (List UInt8 × Bool)) (ok : Bool)
  | resume (p : ℕ)
  | interrupt (p : ℕ)

/-- p is running user code -/
def Idle (s : Sys) (p : ℕ) : Prop := p ∈ s.files.procs ∧ p ∉ s.files.exited ∧ s.task p = none

instance (s : Sys) (p : ℕ) : Decidable (Idle s p) :=
  match h : s.task p with
  | none => decidable_of_iff (p ∈ s.files.procs ∧ p ∉ s.files.exited) (by simp [Idle, h])
  | some t => isFalse (by simp [Idle, h])

/-- how the call opens entries of the table -/
def noteOpen (s : PipeEnds.Sys) (opened : ℕ → Mode) : PipeEnds.Syscall → ℕ → Mode
  | .openat _ omode =>
    match fileAlloc s.table with
    | some f => update opened f (.file omode)
    | none => opened
  | .pipe2 a =>
    match pipeAlloc s a with
    | some (f0, f1, _) => update (update opened f0 (.pipe false)) f1 (.pipe true)
    | none => opened
  | .dup _ | .fork _ | .close _ | .exit => opened

/-- a new pipe is empty -/
def newRing (ring : ℕ → Fs.PipeSys.Pipe) : PipeEnds.Syscall → ℕ → Fs.PipeSys.Pipe
  | .pipe2 a => update ring a (initPipe (ring a).data)
  | .dup _ | .fork _ | .close _ | .exit | .openat _ _ => ring

def stepFiles (s : Sys) (c : ℕ × PipeEnds.Syscall) : Option Sys :=
  if s.task c.1 = none then
    (PipeEnds.step s.files c).map fun files =>
      { s with files, ring := newRing s.ring c.2, opened := noteOpen s.files s.opened c.2 }
  else none

def step (s : Sys) : Op → Option Sys
  | .files c => stepFiles s c
  | .create p ip omode made =>
    (stepFiles s (p, .openat ip omode)).map fun s =>
      { s with inode := made.foldl (fun inode d => update inode d.1 d.2) s.inode }
  | .read p fd size ok keys =>
    -- a size that is not positive fails an assertion
    if Idle s p ∧ 0 < size then
      match fd2file s.files p fd with
      | none => some (s.reply p [] (.ret (-1)))
      | some f =>
        if ok then (fileRead s f size.toNat keys).map fun r => r.2.2.reply p r.2.1 (r.1.reply f (s.files.table f).obj)
        else some (s.reply p [] (.ret (-1)))
    else none
  | .write p fd src ok =>
    if Idle s p ∧ 0 < src.length ∧ src.length < 2 ^ 31 then
      match fd2file s.files p fd with
      | none => some (s.reply p [] (.ret (-1)))
      | some f =>
        if ok then (fileWrite s f src).map fun r => r.2.reply p [] (r.1.reply f (s.files.table f).obj)
        else some (s.reply p [] (.ret (-1)))
    else none
  | .writev p fd iov ok =>
    if Idle s p then
      match fd2file s.files p fd with
      | none => some (s.reply p [] (.ret (-1)))
      | some f =>
        if iov ≠ [] ∧ ok then (writevLoop f iov 0 s).map fun r => r.2.reply p [] r.1
        else some (s.reply p [] (.ret (-1)))
    else none
  | .resume p =>
    match s.task p with
    | none => none
    | some t => (resume s t).map fun r => r.2.2.reply p r.2.1 r.1
  | .interrupt p =>
    match s.task p with
    | none => none
    | some t => (interrupt s t).map fun r => r.2.reply p [] r.1

/-! ## Modes -/

def Mode.canRead : Mode → Bool
  | .file omode => omode &&& oWronly = 0
  | .pipe writable => !writable

def Mode.canWrite : Mode → Bool
  | .file omode => omode &&& oWronly ≠ 0 ∨ omode &&& oRdwr ≠ 0
  | .pipe writable => writable

def Mode.type : Mode → FileType
  | .file _ => .inode
  | .pipe _ => .pipe

/-- the entry is as it was opened -/
structure AsOpened (x : File) (m : Mode) : Prop where
  readable : x.readable = m.canRead
  writable : x.writable = m.canWrite
  type : x.type = m.type

inductive Dir where
  | read
  | write
deriving DecidableEq, Repr

def Work.dir : Work → Dir
  | .write _ _ => .write
  | .read _ => .read

/-- the file that a step reads or writes -/
def target (s : Sys) : Op → Option (ℕ × Dir)
  | .read p fd _ _ _ => (fd2file s.files p fd).map fun f => (f, .read)
  | .write p fd _ _ | .writev p fd _ _ => (fd2file s.files p fd).map fun f => (f, .write)
  | .resume p | .interrupt p => (s.task p).map fun t => (t.file, t.work.dir)
  | .files _ | .create _ _ _ _ => none

def Op.caller : Op → ℕ
  | .files c => c.1
  | .create p _ _ _ | .read p _ _ _ _ | .write p _ _ _ | .writev p _ _ _ | .resume p | .interrupt p => p

/-- file f was opened for what is done with it, and no directory is written -/
def Permits (s : Sys) (f : ℕ) : Dir → Prop
  | .read => (s.opened f).canRead = true
  | .write => (s.opened f).canWrite = true ∧
      ((s.files.table f).type = .inode → (s.inode (s.files.table f).obj).type ≠ .directory)

/-- the step respects the modes: inodes and pipes change and bytes are delivered only through files that permit it, and a call
that is not permitted returns −1 and changes no inode, pipe or offset -/
structure Respects (s : Sys) (e : Op) (s' : Sys) : Prop where
  inodes : ∀ f d ip, target s e = some (f, d) → s'.inode ip ≠ s.inode ip →
    d = .write ∧ Permits s f .write ∧ (s.files.table f).type = .inode ∧ (s.files.table f).obj = ip
  delivered : ∀ f d, target s e = some (f, d) → s'.got e.caller ≠ [] → d = .read ∧ Permits s f .read
  stored : ∀ f d a, target s e = some (f, d) → (s'.ring a).nwrite ≠ (s.ring a).nwrite →
    d = .write ∧ s.opened f = .pipe true ∧ (s.files.table f).obj = a
  taken : ∀ f d a, target s e = some (f, d) → (s'.ring a).nread ≠ (s.ring a).nread →
    d = .read ∧ s.opened f = .pipe false ∧ (s.files.table f).obj = a
  refused : ∀ f d, target s e = some (f, d) → ¬ Permits s f d →
    s'.ret e.caller = -1 ∧ s'.inode = s.inode ∧ s'.ring = s.ring ∧ s'.files.table = s.files.table

/-- the bits of the file fit the call, and no directory is written -/
def Fitting (s : Sys) : Op → Prop
  | .read p fd _ _ _ => ∀ f ∈ fd2file s.files p fd, (s.files.table f).readable = true
  | .write p fd _ _ | .writev p fd _ _ => ∀ f ∈ fd2file s.files p fd, (s.files.table f).writable = true ∧
      ((s.files.table f).type = .inode → (s.inode (s.files.table f).obj).type ≠ .directory)
  | .files _ | .create _ _ _ _ | .resume _ | .interrupt _ => True

/-! ## The file table -/

/-- every entry in use after was in use before and is set up as before, and the other processes are still there, with their
descriptors -/
structure Kept (p : ℕ) (s s' : PipeEnds.Sys) : Prop where
  table : ∀ i, 0 < (s'.table i).ref → 0 < (s.table i).ref ∧ (s'.table i).setup = (s.table i).setup
  others : ∀ q ∈ s.procs, q ≠ p → s'.oftable q = s.oftable q ∧ q ∈ s'.procs

variable {a i p : ℕ} {c : ℕ × PipeEnds.Syscall} {fd : ℤ} {s'' : PipeEnds.Sys}

section Table

variable {s s' : PipeEnds.Sys}

theorem Kept.trans (h : Kept p s s') (h' : Kept p s' s'') : Kept p s s'' := by
  refine ⟨fun i hi => ?_, fun q hq hne => ?_⟩
  · obtain ⟨hi', hset'⟩ := h'.table i hi
    obtain ⟨hi, hset⟩ := h.table i hi'
    exact ⟨hi, hset'.trans hset⟩
  · obtain ⟨hof, hq'⟩ := h.others q hq hne
    obtain ⟨hof', hq''⟩ := h'.others q hq' hne
    exact ⟨hof'.trans hof, hq''⟩

theorem Kept.of_table (htable : s'.table = s.table) (hof : ∀ q, q ≠ p → s'.oftable q = s.oftable q)
    (hprocs : s'.procs = s.procs) : Kept p s s' := by
  refine ⟨fun i hi => ?_, fun q hq hne => ⟨hof q hne, hprocs ▸ hq⟩⟩
  rw [htable] at hi ⊢
  exact ⟨hi, rfl⟩

theorem Kept.refl (p : ℕ) (s : PipeEnds.Sys) : Kept p s s := .of_table rfl (fun _ _ => rfl) rfl

theorem kept_setSlots (p : ℕ) (s : PipeEnds.Sys) (slots : List (Option ℕ)) : Kept p s (s.setSlots p slots) :=
  .of_table rfl (fun _ hne => update_of_ne hne _ _) rfl

theorem kept_closeFile (p : ℕ) (hs : closeFile s i = some s') : Kept p s s' := by
  obtain ⟨hof, hprocs, href, hothers⟩ := closeFile_refs hs
  refine ⟨fun j hj => ?_, fun q hq _ => ⟨by rw [hof], hprocs ▸ hq⟩⟩
  by_cases hji : j = i
  · subst hji
    refine ⟨by omega, ?_⟩
    -- the count is still positive, so it was all that changed
    rcases closeFile_cases hs with ⟨-, rfl⟩ | ⟨hone, -, -⟩ | ⟨hone, -, -⟩ | ⟨hone, -, -⟩
    · rw [setFile_self]
      rfl
    all_goals omega
  · rw [hothers j hji] at hj ⊢
    exact ⟨hj, rfl⟩

theorem kept_closeFd (hs : closeFd s p fd = some s') : Kept p s s' := by
  rcases closeFd_cases hs with rfl | ⟨i, n, t, -, -, hclose, rfl⟩
  · exact Kept.refl p _
  · exact (kept_closeFile p hclose).trans (kept_setSlots p t _)

theorem kept_freeOftable (n fd : ℕ) (hs : freeOftable s p n fd = some s') : Kept p s s' :=
  freeOftable_keeps (P := Kept p s) (fun h hs => h.trans (kept_closeFd hs)) n fd (Kept.refl p s) hs

theorem kept_dup (h : Counted s) (hp : p ∈ s.procs) (hs : dup s p fd = some s') : Kept p s s' := by
  rcases dup_cases hs with rfl | ⟨i, n, hmem, -, rfl⟩
  · exact Kept.refl p _
  · refine ⟨fun j hj => ?_, (kept_setSlots p s _).others⟩
    by_cases hji : j = i
    · subst hji
      refine ⟨ref_pos h hp hmem, ?_⟩
      rw [dupFile, setFile_self]
      rfl
    · rw [dupFile, setFile_of_ne _ _ hji] at hj ⊢
      exact ⟨hj, rfl⟩

theorem kept_fork {child : ℕ} (h : Counted s) (hp : p ∈ s.procs) (hs : fork s p child = some s') : Kept p s s' := by
  unfold fork at hs
  split_ifs at hs with hnew
  obtain ⟨hstate, hsub⟩ := forkLoop_spec (s.oftable p) s
  dsimp only at hs
  rw [hstate] at hs
  obtain rfl := Option.some.inj hs
  refine ⟨fun j hj => ⟨?_, rfl⟩, fun q hq _ => ?_⟩
  · change 0 < (s.table j).ref + _ at hj
    by_cases hmem : some j ∈ (forkLoop (s.oftable p) s).1
    · exact ref_pos h hp (hsub j hmem)
    · rw [List.count_eq_zero.2 hmem] at hj
      omega
  · have hne : q ≠ child := fun heq => hnew (heq ▸ hq)
    exact ⟨update_of_ne hne _ _, Finset.mem_insert_of_mem hq⟩

/-- after `pipe_alloc` the entries are set up, whether descriptors are found or not -/
theorem kept_pipe2 (hs : pipe2 s p a = some s') : ∃ f0 f1 t, pipeAlloc s a = some (f0, f1, t) ∧ Kept p t s' := by
  obtain ⟨f0, f1, t, halloc, hcases⟩ := pipe2_cases hs
  have hshut : ∀ u, Kept p u (shutBoth u f0) := fun u => .of_table (by simp only [shutBoth, pipeClose_table])
    (fun _ _ => by simp only [shutBoth, pipeClose_oftable]) (by simp only [shutBoth, pipeClose_procs])
  refine ⟨f0, f1, t, halloc, ?_⟩
  rcases hcases with ⟨-, u, hu, hs⟩ | ⟨n0, -, ⟨-, u, hu, hs⟩ | ⟨n1, -, rfl⟩⟩
  · exact ((hshut t).trans (kept_closeFile p hu)).trans (kept_closeFile p hs)
  · exact (((kept_setSlots p t _).trans (hshut _)).trans (kept_closeFd hu)).trans (kept_closeFile p hs)
  · exact (kept_setSlots p t _).trans (kept_setSlots p _ _)

/-- an entry that stays in use keeps its setup, and a call changes the descriptors of its own process only -/
theorem step_kept (h : Counted s) (hs : PipeEnds.step s c = some s') :
    (∀ i, 0 < (s.table i).ref → 0 < (s'.table i).ref → (s'.table i).setup = (s.table i).setup) ∧
      ∀ q ∈ s.procs, q ≠ c.1 → s'.oftable q = s.oftable q ∧ q ∈ s'.procs := by
  obtain ⟨⟨hp, -⟩, hs⟩ := Option.ite_none_right_eq_some.1 hs
  obtain ⟨p, call⟩ := c
  have hkept : Kept p s s' → (∀ i, 0 < (s.table i).ref → 0 < (s'.table i).ref → (s'.table i).setup = (s.table i).setup) ∧
      ∀ q ∈ s.procs, q ≠ p → s'.oftable q = s.oftable q ∧ q ∈ s'.procs :=
    fun hk => ⟨fun i _ hi' => (hk.table i hi').2, hk.others⟩
  cases call with
  | pipe2 a =>
    obtain ⟨f0, f1, t, halloc, hk⟩ := kept_pipe2 hs
    obtain ⟨-, h0, h1, -, ht⟩ := pipeAlloc_some halloc
    refine ⟨fun i hi hi' => ?_, fun q hq hne => ?_⟩
    · have hne0 : i ≠ f0 := fun heq => hi.ne' (heq ▸ h0)
      have hne1 : i ≠ f1 := fun heq => hi.ne' (heq ▸ h1)
      have htable : t.table i = s.table i := by
        rw [ht]
        simp only [PipeEnds.Sys.setFile, update_of_ne hne0, update_of_ne hne1]
      rw [(hk.table i hi').2, htable]
    · have hprocs : t.oftable = s.oftable ∧ t.procs = s.procs := by
        rw [ht]
        exact ⟨rfl, rfl⟩
      rw [← hprocs.1]
      exact hk.others q (hprocs.2 ▸ hq) hne
  | dup fd => exact hkept (kept_dup h hp hs)
  | fork child => exact hkept (kept_fork h hp hs)
  | close fd => exact hkept (kept_closeFd hs)
  | openat ip omode =>
    rcases openat_cases hs with rfl | ⟨f, -, href, ⟨-, -, hclose⟩ | ⟨n, -, rfl⟩⟩
    · exact hkept (Kept.refl p _)
    · obtain ⟨hof, hprocs, -, hothers⟩ := closeFile_refs hclose
      refine ⟨fun i hi _ => ?_, fun q hq _ => ⟨by rw [hof]; rfl, hprocs ▸ hq⟩⟩
      have hne : i ≠ f := fun heq => hi.ne' (heq ▸ href)
      rw [hothers i hne, setFile_of_ne _ _ hne]
    · refine ⟨fun i hi _ => ?_, (kept_setSlots p (s.setFile f _) _).others⟩
      have hne : i ≠ f := fun heq => hi.ne' (heq ▸ href)
      change ((s.setFile f _).table i).setup = _
      rw [setFile_of_ne _ _ hne]
  | exit =>
    obtain ⟨t, ht, rfl⟩ := Option.map_eq_some_iff.1 hs
    obtain ⟨htable, hothers⟩ := kept_freeOftable nofile 0 ht
    exact ⟨fun i _ hi' => (htable i hi').2, hothers⟩

end Table

/-! ## Modes are kept -/

/-- entries in use are as they were opened -/
def Modes (s : PipeEnds.Sys) (opened : ℕ → Mode) : Prop := ∀ i, 0 < (s.table i).ref → AsOpened (s.table i) (opened i)

variable {m : Mode} {x y : File} {opened : ℕ → Mode} {s s' : Sys} {f n : ℕ} {out : Outcome} {bs src : List UInt8}
  {keys : Option (List UInt8)} {d : Dir} {t : Task} {iov : List (List UInt8 × Bool)} {rep : Reply} {e : Op} {ok : Bool}

theorem AsOpened.of_setup (h : AsOpened x m) (hset : y.setup = x.setup) : AsOpened y m := by
  simp only [File.setup, Fs.FileTable.Setup.mk.injEq] at hset
  obtain ⟨htype, -, hread, hwrite⟩ := hset
  exact ⟨hread.trans h.readable, hwrite.trans h.writable, htype.trans h.type⟩

theorem Modes.kept {s s' : PipeEnds.Sys} (h : Modes s opened) (hs : Kept p s s') : Modes s' opened := by
  intro i hi
  obtain ⟨hpos, hset⟩ := hs.table i hi
  exact (h i hpos).of_setup hset

/-- what is noted for entries that are not in use does not matter -/
theorem Modes.note {s : PipeEnds.Sys} {opened' : ℕ → Mode} (h : Modes s opened)
    (hsame : ∀ i, 0 < (s.table i).ref → opened' i = opened i) : Modes s opened' := by
  intro i hi
  rw [hsame i hi]
  exact h i hi

/-- only entries that are not in use are noted -/
theorem noteOpen_inUse (s : PipeEnds.Sys) (opened : ℕ → Mode) (c : PipeEnds.Syscall) (hi : 0 < (s.table i).ref) :
    noteOpen s opened c i = opened i := by
  cases c with
  | openat ip omode =>
    simp only [noteOpen]
    cases hf : fileAlloc s.table with
    | none => rfl
    | some f =>
      have hne : i ≠ f := fun heq => hi.ne' (heq ▸ Fs.FileTable.fileAllocLoop_ref hf)
      exact update_of_ne hne _ _
  | pipe2 a =>
    simp only [noteOpen]
    cases hf : pipeAlloc s a with
    | none => rfl
    | some r =>
      obtain ⟨f0, f1, t⟩ := r
      obtain ⟨-, h0, h1, -, -⟩ := pipeAlloc_some hf
      have hne0 : i ≠ f0 := fun heq => hi.ne' (heq ▸ h0)
      have hne1 : i ≠ f1 := fun heq => hi.ne' (heq ▸ h1)
      simp only [update_of_ne hne0, update_of_ne hne1]
  | dup fd => rfl
  | fork child => rfl
  | close fd => rfl
  | exit => rfl

theorem modes_openat {s s' : PipeEnds.Sys} {ip omode : ℕ} (h : Modes s opened)
    (hs : PipeEnds.openat s p ip omode = some s') : Modes s' (noteOpen s opened (.openat ip omode)) := by
  have hnote := h.note fun i hi => noteOpen_inUse s opened (.openat ip omode) hi
  rcases openat_cases hs with rfl | ⟨f, hf, href, ⟨-, -, hclose⟩ | ⟨n, -, rfl⟩⟩
  · exact hnote
  · obtain ⟨-, -, hone, hothers⟩ := closeFile_refs hclose
    intro i hi
    by_cases hif : i = f
    · subst hif
      rw [setFile_self] at hone
      simp only [refTo] at hone
      omega
    · rw [hothers i hif, setFile_of_ne _ _ hif] at hi ⊢
      exact hnote i hi
  · intro i hi
    by_cases hif : i = f
    · subst hif
      have hmode : noteOpen s opened (.openat ip omode) i = .file omode := by
        simp only [noteOpen, hf, update_self]
      rw [hmode]
      change AsOpened ((s.setFile i _).table i) _
      rw [setFile_self]
      exact ⟨rfl, rfl, rfl⟩
    · change 0 < ((s.setFile f _).table i).ref at hi
      change AsOpened ((s.setFile f _).table i) _
      rw [setFile_of_ne _ _ hif] at hi ⊢
      exact hnote i hi

theorem modes_pipe2 {s s' : PipeEnds.Sys} (h : Modes s opened)
    (hs : pipe2 s p a = some s') : Modes s' (noteOpen s opened (.pipe2 a)) := by
  obtain ⟨f0, f1, t, halloc, hk⟩ := kept_pipe2 hs
  have hnote := h.note fun i hi => noteOpen_inUse s opened (.pipe2 a) hi
  obtain ⟨h01, -, -, -, ht⟩ := pipeAlloc_some halloc
  refine Modes.kept (fun i hi => ?_) hk
  have htable : t.table i = if i = f1 then initEnd (refTo (s.table f1) 1) a true
      else if i = f0 then initEnd (refTo (s.table f0) 1) a false else s.table i := by
    rw [ht]
    simp only [PipeEnds.Sys.setFile, update_apply]
  have hmode : noteOpen s opened (.pipe2 a) i = if i = f1 then .pipe true else if i = f0 then .pipe false else opened i := by
    simp only [noteOpen, halloc, update_apply]
  rw [htable] at hi ⊢
  by_cases hi1 : i = f1
  · rw [hmode, if_pos hi1, if_pos hi1]
    exact ⟨rfl, rfl, rfl⟩
  · by_cases hi0 : i = f0
    · rw [hmode, if_neg hi1, if_neg hi1, if_pos hi0, if_pos hi0]
      exact ⟨rfl, rfl, rfl⟩
    · rw [if_neg hi1, if_neg hi0] at hi ⊢
      exact hnote i hi

theorem modes_step {s s' : PipeEnds.Sys} (hcount : Counted s) (h : Modes s opened)
    (hs : PipeEnds.step s c = some s') : Modes s' (noteOpen s opened c.2) := by
  obtain ⟨⟨hp, -⟩, hs⟩ := Option.ite_none_right_eq_some.1 hs
  obtain ⟨p, call⟩ := c
  cases call with
  | pipe2 a => exact modes_pipe2 h hs
  | dup fd => exact h.kept (kept_dup hcount hp hs)
  | fork child => exact h.kept (kept_fork hcount hp hs)
  | close fd => exact h.kept (kept_closeFd hs)
  | openat ip omode => exact modes_openat h hs
  | exit =>
    obtain ⟨t, ht, rfl⟩ := Option.map_eq_some_iff.1 hs
    exact (h.kept (kept_freeOftable nofile 0 ht) : Modes t opened)

/-! ## What reads and writes do -/

/-- nothing but offsets has changed in the file table -/
structure SameFiles (s s' : Sys) : Prop where
  files : ∃ off : ℕ → ℕ, s'.files = { s.files with table := fun i => { s.files.table i with off := off i } }
  opened : s'.opened = s.opened

theorem SameFiles.of_eq (hfiles : s'.files = s.files) (hopened : s'.opened = s.opened) : SameFiles s s' :=
  ⟨⟨fun i => (s.files.table i).off, hfiles⟩, hopened⟩

theorem SameFiles.trans {s'' : Sys} (h : SameFiles s s') (h' : SameFiles s' s'') : SameFiles s s'' := by
  obtain ⟨off, hoff⟩ := h.files
  obtain ⟨off', hoff'⟩ := h'.files
  refine ⟨⟨off', ?_⟩, h'.opened.trans h.opened⟩
  rw [hoff', hoff]

theorem SameFiles.setup (h : SameFiles s s') (i : ℕ) :
    (s'.files.table i).setup = (s.files.table i).setup ∧ (s'.files.table i).ref = (s.files.table i).ref := by
  obtain ⟨off, hoff⟩ := h.files
  rw [hoff]
  exact ⟨rfl, rfl⟩

theorem sameFiles_setOff (s : Sys) {off : ℕ} (hx : x = { s.files.table f with off := off })
    (inode : ℕ → Inode) : SameFiles s { s with inode := inode, files := s.files.setFile f x } := by
  refine ⟨⟨fun i => if i = f then off else (s.files.table i).off, ?_⟩, rfl⟩
  simp only [PipeEnds.Sys.setFile, PipeEnds.Sys.mk.injEq, and_true]
  funext i
  by_cases hi : i = f
  · rw [hi, update_self, if_pos rfl, hx]
  · rw [update_of_ne hi, if_neg hi]

/-- what reading or writing through file f does: its inode is written, or bytes enter or leave its pipe -/
structure Moved (d : Dir) (f : ℕ) (s s' : Sys) : Prop where
  same : SameFiles s s'
  task : s'.task = s.task
  inode : ∀ ip, s'.inode ip ≠ s.inode ip → d = .write ∧ (s.files.table f).type = .inode ∧ (s.files.table f).obj = ip
  nwrite : ∀ a, (s'.ring a).nwrite ≠ (s.ring a).nwrite →
    d = .write ∧ (s.files.table f).type = .pipe ∧ (s.files.table f).obj = a
  nread : ∀ a, (s'.ring a).nread ≠ (s.ring a).nread →
    d = .read ∧ (s.files.table f).type = .pipe ∧ (s.files.table f).obj = a

theorem Moved.of_same (d : Dir) (f : ℕ) (hs : SameFiles s s') (htask : s'.task = s.task) (hinode : s'.inode = s.inode)
    (hring : s'.ring = s.ring) : Moved d f s s' := by
  refine ⟨hs, htask, fun ip hne => absurd (congrFun hinode ip) hne, fun a hne => absurd ?_ hne, fun a hne => absurd ?_ hne⟩
  all_goals rw [hring]

theorem Moved.refl (d : Dir) (f : ℕ) (s : Sys) : Moved d f s s := .of_same d f (SameFiles.of_eq rfl rfl) rfl rfl rfl

theorem setup_eq (h : x.setup = y.setup) : x.type = y.type ∧ x.obj = y.obj := by
  simp only [File.setup, Fs.FileTable.Setup.mk.injEq] at h
  exact ⟨h.1, h.2.1⟩

theorem Moved.trans {s'' : Sys} (h : Moved d f s s') (h' : Moved d f s' s'') : Moved d f s s'' := by
  obtain ⟨htype, hobj⟩ := setup_eq (h.same.setup f).1
  refine ⟨h.same.trans h'.same, h'.task.trans h.task, fun ip hne => ?_, fun a hne => ?_, fun a hne => ?_⟩
  · by_cases hx : s'.inode ip = s.inode ip
    · rw [← hx] at hne
      rw [← htype, ← hobj]
      exact h'.inode ip hne
    · exact h.inode ip hx
  · by_cases hx : (s'.ring a).nwrite = (s.ring a).nwrite
    · rw [← hx] at hne
      rw [← htype, ← hobj]
      exact h'.nwrite a hne
    · exact h.nwrite a hx
  · by_cases hx : (s'.ring a).nread = (s.ring a).nread
    · rw [← hx] at hne
      rw [← htype, ← hobj]
      exact h'.nread a hne
    · exact h.nread a hx

/-- the pipe of file f has changed -/
theorem moved_setRing {q : Fs.PipeSys.Pipe} (htype : (s.files.table f).type = .pipe) (hobj : (s.files.table f).obj = a)
    (hwrite : q.nwrite ≠ (s.ring a).nwrite → d = .write) (hread : q.nread ≠ (s.ring a).nread → d = .read) :
    Moved d f s (s.setRing a q) := by
  have hring : ∀ {b : ℕ}, b ≠ a → (s.setRing a q).ring b = s.ring b := fun hb => update_of_ne hb ..
  have hself : (s.setRing a q).ring a = q := update_self ..
  refine ⟨SameFiles.of_eq rfl rfl, rfl, fun _ hne => absurd rfl hne, fun b hne => ?_, fun b hne => ?_⟩
  · obtain rfl : b = a := not_not.1 fun hb => hne (by rw [hring hb])
    exact ⟨hwrite (hself ▸ hne), htype, hobj⟩
  · obtain rfl : b = a := not_not.1 fun hb => hne (by rw [hring hb])
    exact ⟨hread (hself ▸ hne), htype, hobj⟩

theorem writeLoop_nread (src : List UInt8) (pi : Fs.PipeSys.Pipe) : (writeLoop src pi).2.2.nread = pi.nread := by
  induction src generalizing pi with
  | nil => rfl
  | cons c rest ih =>
    rw [writeLoop]
    split_ifs
    · rfl
    · rfl
    · exact ih _

theorem readLoop_spec (n : ℕ) (pi : Fs.PipeSys.Pipe) :
    (readLoop n pi).2.nwrite = pi.nwrite ∧ (readLoop n pi).1.length ≤ n := by
  induction n generalizing pi with
  | zero => exact ⟨rfl, le_rfl⟩
  | succ n ih =>
    rw [readLoop]
    split_ifs
    · exact ⟨rfl, Nat.zero_le _⟩
    · exact ⟨(ih _).1, Nat.succ_le_succ (ih _).2⟩

theorem pipeWrite_moved {len : ℕ} (htype : (s.files.table f).type = .pipe)
    (hobj : (s.files.table f).obj = a) (h : pipeWrite s a len src = some (out, s')) :
    Moved .write f s s' ∧ ∀ w, out = .wait w → w.dir = .write := by
  obtain ⟨pi, hpi, h⟩ := Option.map_eq_some_iff.1 h
  obtain ⟨q, hq, rfl⟩ := Option.map_eq_some_iff.1 hpi
  obtain ⟨rfl, rfl⟩ := Prod.mk.inj h
  refine ⟨moved_setRing htype hobj (fun _ => rfl) fun hne => absurd (writeLoop_nread ..) hne, fun w hw => ?_⟩
  split at hw <;> cases hw
  rfl

theorem pipeRead_moved (htype : (s.files.table f).type = .pipe)
    (hobj : (s.files.table f).obj = a) (h : pipeRead s a n = some (out, bs, s')) :
    Moved .read f s s' ∧ bs.length ≤ n ∧ ∀ w, out = .wait w → w.dir = .read := by
  obtain ⟨pi, hpi, h⟩ := Option.map_eq_some_iff.1 h
  obtain ⟨q, hq, rfl⟩ := Option.map_eq_some_iff.1 hpi
  split_ifs at h with hempty
  · simp only [Prod.mk.injEq] at h
    obtain ⟨rfl, rfl, rfl⟩ := h
    refine ⟨Moved.refl _ f s, Nat.zero_le _, fun w hw => ?_⟩
    cases hw
    rfl
  · simp only [Prod.mk.injEq] at h
    obtain ⟨rfl, rfl, rfl⟩ := h
    exact ⟨moved_setRing htype hobj (fun hne => absurd (readLoop_spec ..).1 hne) fun _ => rfl, (readLoop_spec ..).2,
      fun w hw => by cases hw⟩

theorem fileWrite_moved (h : fileWrite s f src = some (out, s')) :
    Moved .write f s s' ∧ ∀ w, out = .wait w → w.dir = .write ∧ (s.files.table f).type = .pipe := by
  unfold fileWrite at h
  dsimp only at h
  cases ht : (s.files.table f).type with
  | none =>
    rw [ht] at h
    obtain ⟨rfl, rfl⟩ := Prod.mk.inj (Option.some.inj h)
    exact ⟨Moved.refl _ f s, fun w hw => by cases hw⟩
  | pipe =>
    rw [ht] at h
    cases hpi : pipeAt s (s.files.table f).obj with
    | none =>
      rw [hpi] at h
      cases h
    | some pi =>
      rw [hpi] at h
      obtain ⟨-, h⟩ := Option.ite_none_right_eq_some.1 h
      obtain ⟨hmoved, hwait⟩ := pipeWrite_moved ht rfl h
      exact ⟨hmoved, fun w hw => ⟨hwait w hw, rfl⟩⟩
  | inode =>
    rw [ht] at h
    obtain ⟨r, hr, h⟩ := Option.map_eq_some_iff.1 h
    obtain ⟨rfl, rfl⟩ := Prod.mk.inj h
    refine ⟨⟨sameFiles_setOff s (by rw [← ht]) _, rfl, fun ip hne => ?_, fun _ hne => absurd rfl hne,
      fun _ hne => absurd rfl hne⟩, fun w hw => by cases hw⟩
    by_cases hip : ip = (s.files.table f).obj
    · exact ⟨rfl, ht, hip.symm⟩
    · simp only [update_of_ne hip, ne_eq, not_true_eq_false] at hne

theorem advance_moved (s : Sys) (f : ℕ) (bs : List UInt8) : Moved .read f s (s.advance f bs) :=
  .of_same _ f (sameFiles_setOff s rfl s.inode) rfl rfl rfl

theorem fileRead_moved (h : fileRead s f n keys = some (out, bs, s')) :
    Moved .read f s s' ∧ bs.length ≤ n ∧ ∀ w, out = .wait w → w.dir = .read ∧ (s.files.table f).type = .pipe := by
  unfold fileRead at h
  dsimp only at h
  cases ht : (s.files.table f).type with
  | none =>
    rw [ht] at h
    simp only [Option.some.injEq, Prod.mk.injEq] at h
    obtain ⟨rfl, rfl, rfl⟩ := h
    exact ⟨Moved.refl _ f s, Nat.zero_le _, fun w hw => by cases hw⟩
  | pipe =>
    rw [ht] at h
    cases hpi : pipeAt s (s.files.table f).obj with
    | none =>
      rw [hpi] at h
      cases h
    | some pi =>
      rw [hpi] at h
      obtain ⟨-, h⟩ := Option.ite_none_right_eq_some.1 h
      obtain ⟨hmoved, hlen, hwait⟩ := pipeRead_moved ht rfl h
      exact ⟨hmoved, hlen, fun w hw => ⟨hwait w hw, rfl⟩⟩
  | inode =>
    rw [ht] at h
    dsimp only at h
    have hread : ∀ {x : Option (Outcome × List UInt8 × Sys)},
        x = (inodeRead (s.inode (s.files.table f).obj).bytes (s.files.table f).off n).map
          (fun bs => (.ret bs.length, bs, s.advance f bs)) → x = some (out, bs, s') →
        Moved .read f s s' ∧ bs.length ≤ n ∧ ∀ w, out = .wait w → w.dir = .read ∧ FileType.inode = .pipe := by
      intro x hx h
      rw [hx] at h
      obtain ⟨b, hb, h⟩ := Option.map_eq_some_iff.1 h
      simp only [Prod.mk.injEq] at h
      obtain ⟨rfl, rfl, rfl⟩ := h
      exact ⟨advance_moved s f _, inodeRead_length hb, fun w hw => by cases hw⟩
    cases hd : (s.inode (s.files.table f).obj).type with
    | device =>
      rw [hd] at h
      cases keys with
      | none =>
        simp only [Option.some.injEq, Prod.mk.injEq] at h
        obtain ⟨rfl, rfl, rfl⟩ := h
        exact ⟨Moved.refl _ f s, Nat.zero_le _, fun w hw => by cases hw⟩
      | some b =>
        obtain ⟨hlen, h⟩ := Option.ite_none_right_eq_some.1 h
        simp only [Option.some.injEq, Prod.mk.injEq] at h
        obtain ⟨rfl, rfl, rfl⟩ := h
        exact ⟨advance_moved s f _, hlen, fun w hw => by cases hw⟩
    | regular =>
      rw [hd] at h
      exact hread rfl h
    | directory =>
      rw [hd] at h
      exact hread rfl h

/-- what the checks of `read` rely on: a `file_read` that returns fills no more than its buffer -/
theorem fileRead_fill {r : ℤ} (h : fileRead s f n keys = some (.ret r, bs, s')) :
    ∃ x : UserRange.Fill n, x.ret = r ∧ x.bytes = bs :=
  ⟨⟨r, bs, (fileRead_moved h).2.1⟩, rfl, rfl⟩

/-- the task sleeps in the pipe of file f, in direction d -/
structure SleepsIn (s : Sys) (f : ℕ) (d : Dir) (t : Task) : Prop where
  file : t.file = f
  dir : t.work.dir = d
  type : (s.files.table f).type = .pipe
  pipe : (s.files.table f).obj = t.pipe

theorem SleepsIn.congr (h : SleepsIn s' f d t) (hs : SameFiles s s') :
    SleepsIn s f d t := by
  obtain ⟨htype, hobj⟩ := setup_eq (hs.setup f).1
  exact ⟨h.file, h.dir, htype ▸ h.type, hobj ▸ h.pipe⟩

theorem writevLoop_moved {tot : ℤ}
    (h : writevLoop f iov tot s = some (rep, s')) : Moved .write f s s' ∧ ∀ t, rep = .wait t → SleepsIn s f .write t := by
  induction iov generalizing tot s with
  | nil =>
    obtain ⟨rfl, rfl⟩ := Prod.mk.inj (Option.some.inj h)
    exact ⟨Moved.refl _ f s, fun t ht => by cases ht⟩
  | cons b iov ih =>
    obtain ⟨src, ok⟩ := b
    rw [writevLoop] at h
    cases ok with
    | false =>
      obtain ⟨rfl, rfl⟩ := Prod.mk.inj (Option.some.inj h)
      exact ⟨Moved.refl _ f s, fun t ht => by cases ht⟩
    | true =>
      obtain ⟨⟨out, s1⟩, hw, h⟩ := Option.bind_eq_some_iff.1 h
      obtain ⟨hmoved, hwait⟩ := fileWrite_moved hw
      cases out with
      | ret n =>
        obtain ⟨hrest, hsleep⟩ := ih h
        exact ⟨hmoved.trans hrest, fun t ht => (hsleep t ht).congr hmoved.same⟩
      | wait w =>
        obtain ⟨rfl, rfl⟩ := Prod.mk.inj (Option.some.inj h)
        obtain ⟨hdir, htype⟩ := hwait w rfl
        refine ⟨hmoved, fun t ht => ?_⟩
        cases ht
        exact ⟨rfl, hdir, htype, rfl⟩

theorem finish_moved {n : ℤ} (h : finish t n s = some (rep, s')) :
    Moved .write t.file s s' ∧ ∀ u, rep = .wait u → SleepsIn s t.file .write u := by
  unfold finish at h
  cases hv : t.vec with
  | none =>
    rw [hv] at h
    obtain ⟨rfl, rfl⟩ := Prod.mk.inj (Option.some.inj h)
    exact ⟨Moved.refl _ _ s, fun u hu => by cases hu⟩
  | some v =>
    rw [hv] at h
    exact writevLoop_moved h

/-- a sleeper goes on in the direction it went -/
theorem resume_moved (htype : (s.files.table t.file).type = .pipe)
    (hpipe : (s.files.table t.file).obj = t.pipe) (h : resume s t = some (rep, bs, s')) :
    Moved t.work.dir t.file s s' ∧ (bs ≠ [] → t.work.dir = .read) ∧
      ∀ u, rep = .wait u → SleepsIn s t.file t.work.dir u := by
  unfold resume at h
  cases hwork : t.work with
  | write len rest =>
    rw [hwork] at h
    obtain ⟨⟨out, s1⟩, hw, h⟩ := Option.bind_eq_some_iff.1 h
    obtain ⟨hmoved, hwait⟩ := pipeWrite_moved htype hpipe hw
    cases out with
    | ret n =>
      obtain ⟨⟨rep1, s2⟩, hf, h⟩ := Option.map_eq_some_iff.1 h
      simp only [Prod.mk.injEq] at h
      obtain ⟨rfl, rfl, rfl⟩ := h
      obtain ⟨hmoved', hsleep⟩ := finish_moved hf
      exact ⟨hmoved.trans hmoved', fun hne => absurd rfl hne, fun u hu => (hsleep u hu).congr hmoved.same⟩
    | wait w =>
      simp only [Option.some.injEq, Prod.mk.injEq] at h
      obtain ⟨rfl, rfl, rfl⟩ := h
      refine ⟨hmoved, fun hne => absurd rfl hne, fun u hu => ?_⟩
      cases hu
      exact ⟨rfl, hwait w rfl, htype, hpipe⟩
  | read n =>
    rw [hwork] at h
    obtain ⟨⟨out, b, s1⟩, hr, h⟩ := Option.map_eq_some_iff.1 h
    obtain ⟨hmoved, -, hwait⟩ := pipeRead_moved htype hpipe hr
    cases out with
    | ret m =>
      simp only [Prod.mk.injEq] at h
      obtain ⟨rfl, rfl, rfl⟩ := h
      exact ⟨hmoved, fun _ => rfl, fun u hu => by cases hu⟩
    | wait w =>
      simp only [Prod.mk.injEq] at h
      obtain ⟨rfl, rfl, rfl⟩ := h
      refine ⟨hmoved, fun _ => rfl, fun u hu => ?_⟩
      cases hu
      exact ⟨rfl, hwait w rfl, htype, hpipe⟩

theorem interrupt_moved (h : interrupt s t = some (rep, s')) :
    Moved t.work.dir t.file s s' ∧ ∀ u, rep = .wait u → SleepsIn s t.file t.work.dir u := by
  unfold interrupt at h
  cases hwork : t.work with
  | write len rest =>
    rw [hwork] at h
    exact finish_moved h
  | read n =>
    rw [hwork] at h
    obtain ⟨rfl, rfl⟩ := Prod.mk.inj (Option.some.inj h)
    exact ⟨Moved.refl _ _ s, fun u hu => by cases hu⟩

/-! ## The invariant -/

/-- a sleeper sleeps in a pipe that it has a descriptor of -/
structure Sleeper (s : Sys) (p : ℕ) (t : Task) : Prop where
  proc : p ∈ s.files.procs
  held : some t.file ∈ s.files.oftable p
  type : (s.files.table t.file).type = .pipe
  pipe : (s.files.table t.file).obj = t.pipe

/-- what holds whether calls fit or not -/
structure Base (s : Sys) : Prop where
  counted : Counted s.files
  modes : Modes s.files s.opened
  sleepers : ∀ p t, s.task p = some t → Sleeper s p t

/-- a sleeper is at the end for its direction -/
structure Inv (s : Sys) : Prop extends Base s where
  ends : ∀ p t, s.task p = some t → s.opened t.file = .pipe (t.work.dir = .write)

theorem inv_init (procs : Finset ℕ) (inode : ℕ → Inode) (data : ℕ → UInt8) : Inv (init procs inode data) := by
  refine ⟨⟨counted_init procs, fun i hi => ?_, fun p t ht => by cases ht⟩, fun p t ht => by cases ht⟩
  exact absurd hi (lt_irrefl 0)

theorem Sleeper.congr (h : Sleeper s p t) (hs : SameFiles s s') : Sleeper s' p t := by
  obtain ⟨htype, hobj⟩ := setup_eq (hs.setup t.file).1
  obtain ⟨off, hoff⟩ := hs.files
  refine ⟨?_, ?_, htype.trans h.type, hobj.trans h.pipe⟩
  · rw [hoff]
    exact h.proc
  · rw [hoff]
    exact h.held

theorem fd2file_mem {s : PipeEnds.Sys} (h : fd2file s p fd = some f) : some f ∈ s.oftable p := by
  unfold fd2file at h
  split_ifs at h
  exact List.mem_of_getElem? (getElem?_of_getD h)

/-- the mode of an open pipe end -/
theorem AsOpened.pipe_mode (h : AsOpened x m) (ht : x.type = .pipe) : m = .pipe x.writable := by
  cases m with
  | file omode =>
    have := h.type
    rw [ht] at this
    cases this
  | pipe w => rw [h.writable]; rfl

/-! ## Steps -/

section Reply

variable (s : Sys) (p : ℕ) (got : List UInt8) (rep : Reply)

theorem sameFiles_reply : SameFiles s (s.reply p got rep) := by
  cases rep <;> exact SameFiles.of_eq rfl rfl

theorem reply_inode : (s.reply p got rep).inode = s.inode := by
  cases rep <;> rfl

theorem reply_ring : (s.reply p got rep).ring = s.ring := by
  cases rep <;> rfl

theorem reply_got : (s.reply p got rep).got p = got := by
  cases rep <;> simp [Sys.reply]

/-- the sleepers after a reply: the caller if it is told to wait, and those from before -/
theorem reply_task {q : ℕ} {u : Task} (hu : (s.reply p got rep).task q = some u) :
    q = p ∧ rep = .wait u ∨ s.task q = some u := by
  by_cases hq : q = p
  · subst hq
    cases rep with
    | ret r => simp [Sys.reply] at hu
    | wait t =>
      simp only [Sys.reply, update_self, Option.some.injEq] at hu
      exact Or.inl ⟨rfl, by rw [hu]⟩
  · cases rep with
    | ret r => exact Or.inr (by simpa [Sys.reply, hq] using hu)
    | wait t => exact Or.inr (by simpa [Sys.reply, hq] using hu)

end Reply

/-- a call of p has used file f in direction d -/
structure Used (s : Sys) (p f : ℕ) (d : Dir) (got : List UInt8) (rep : Reply) (s1 : Sys) : Prop where
  proc : p ∈ s.files.procs
  held : some f ∈ s.files.oftable p
  moved : Moved d f s s1
  got : got ≠ [] → d = .read
  sleeps : ∀ t, rep = .wait t → SleepsIn s f d t

/-- a call with a buffer that is refused -/
theorem used_refused (hp : p ∈ s.files.procs) (hheld : some f ∈ s.files.oftable p) (d : Dir) :
    Used s p f d [] (.ret (-1)) s :=
  ⟨hp, hheld, Moved.refl d f s, fun hne => absurd rfl hne, fun t ht => by cases ht⟩

/-- the reply to a call is a task only if the call sleeps in the pipe of its file -/
theorem sleeps_of_wait
    (hwait : ∀ w, out = .wait w → w.dir = d ∧ (s.files.table f).type = .pipe) (t : Task)
    (ht : out.reply f (s.files.table f).obj = .wait t) : SleepsIn s f d t := by
  cases out with
  | ret r => cases ht
  | wait w =>
    obtain ⟨hdir, htype⟩ := hwait w rfl
    cases ht
    exact ⟨rfl, hdir, htype, rfl⟩

/-- **What a step does.** It is a call of `PipeEnds`, or finds no file, or uses the file it is about. -/
theorem step_cases (h : Base s) (hs : step s e = some s') :
    (target s e = none ∧ ∃ c s1, stepFiles s c = some s1 ∧ s' = { s1 with inode := s'.inode }) ∨
    (target s e = none ∧ s' = s.reply e.caller [] (.ret (-1))) ∨
    ∃ f d got rep s1, target s e = some (f, d) ∧ Used s e.caller f d got rep s1 ∧ s' = s1.reply e.caller got rep := by
  cases e with
  | files c => exact Or.inl ⟨rfl, c, s', hs, rfl⟩
  | create p ip omode made =>
    obtain ⟨s1, hs1, rfl⟩ := Option.map_eq_some_iff.1 hs
    exact Or.inl ⟨rfl, _, s1, hs1, rfl⟩
  | read p fd size ok keys =>
    obtain ⟨⟨⟨hp, -, -⟩, -⟩, hs⟩ := Option.ite_none_right_eq_some.1 hs
    cases hf : fd2file s.files p fd with
    | none =>
      rw [hf] at hs
      exact Or.inr (Or.inl ⟨by simp [target, hf], (Option.some.inj hs).symm⟩)
    | some f =>
      rw [hf] at hs
      have htarget : target s (.read p fd size ok keys) = some (f, .read) := by simp [target, hf]
      cases ok with
      | false =>
        exact Or.inr (Or.inr ⟨f, _, _, _, s, htarget, used_refused hp (fd2file_mem hf) _, (Option.some.inj hs).symm⟩)
      | true =>
        obtain ⟨⟨out, bs, s1⟩, hr, rfl⟩ := Option.map_eq_some_iff.1 hs
        obtain ⟨hmoved, -, hwait⟩ := fileRead_moved hr
        exact Or.inr (Or.inr ⟨f, _, bs, _, s1, htarget,
          ⟨hp, fd2file_mem hf, hmoved, fun _ => rfl, sleeps_of_wait hwait⟩, rfl⟩)
  | write p fd src ok =>
    obtain ⟨⟨⟨hp, -, -⟩, -⟩, hs⟩ := Option.ite_none_right_eq_some.1 hs
    cases hf : fd2file s.files p fd with
    | none =>
      rw [hf] at hs
      exact Or.inr (Or.inl ⟨by simp [target, hf], (Option.some.inj hs).symm⟩)
    | some f =>
      rw [hf] at hs
      have htarget : target s (.write p fd src ok) = some (f, .write) := by simp [target, hf]
      cases ok with
      | false =>
        exact Or.inr (Or.inr ⟨f, _, _, _, s, htarget, used_refused hp (fd2file_mem hf) _, (Option.some.inj hs).symm⟩)
      | true =>
        obtain ⟨⟨out, s1⟩, hw, rfl⟩ := Option.map_eq_some_iff.1 hs
        obtain ⟨hmoved, hwait⟩ := fileWrite_moved hw
        exact Or.inr (Or.inr ⟨f, _, [], _, s1, htarget,
          ⟨hp, fd2file_mem hf, hmoved, fun hne => absurd rfl hne, sleeps_of_wait hwait⟩, rfl⟩)
  | writev p fd iov ok =>
    obtain ⟨⟨hp, -, -⟩, hs⟩ := Option.ite_none_right_eq_some.1 hs
    cases hf : fd2file s.files p fd with
    | none =>
      rw [hf] at hs
      exact Or.inr (Or.inl ⟨by simp [target, hf], (Option.some.inj hs).symm⟩)
    | some f =>
      rw [hf] at hs
      have htarget : target s (.writev p fd iov ok) = some (f, .write) := by simp [target, hf]
      dsimp only at hs
      split_ifs at hs with hiov
      · obtain ⟨⟨rep, s1⟩, hw, rfl⟩ := Option.map_eq_some_iff.1 hs
        obtain ⟨hmoved, hsleep⟩ := writevLoop_moved hw
        exact Or.inr (Or.inr ⟨f, _, [], rep, s1, htarget,
          ⟨hp, fd2file_mem hf, hmoved, fun hne => absurd rfl hne, hsleep⟩, rfl⟩)
      · exact Or.inr (Or.inr ⟨f, _, _, _, s, htarget, used_refused hp (fd2file_mem hf) _, (Option.some.inj hs).symm⟩)
  | resume p =>
    simp only [step] at hs
    cases ht : s.task p with
    | none => simp [ht] at hs
    | some t =>
      rw [ht] at hs
      obtain ⟨⟨rep, bs, s1⟩, hr, rfl⟩ := Option.map_eq_some_iff.1 hs
      have hok := h.sleepers p t ht
      obtain ⟨hmoved, hgot, hsleep⟩ := resume_moved hok.type hok.pipe hr
      exact Or.inr (Or.inr ⟨t.file, _, bs, rep, s1, by simp [target, ht], ⟨hok.proc, hok.held, hmoved, hgot, hsleep⟩, rfl⟩)
  | interrupt p =>
    simp only [step] at hs
    cases ht : s.task p with
    | none => simp [ht] at hs
    | some t =>
      rw [ht] at hs
      obtain ⟨⟨rep, s1⟩, hr, rfl⟩ := Option.map_eq_some_iff.1 hs
      have hok := h.sleepers p t ht
      obtain ⟨hmoved, hsleep⟩ := interrupt_moved hr
      exact Or.inr (Or.inr ⟨t.file, _, [], rep, s1, by simp [target, ht],
        ⟨hok.proc, hok.held, hmoved, fun hne => absurd rfl hne, hsleep⟩, rfl⟩)

/-- a call of `PipeEnds` leaves the sleepers where they are -/
theorem base_files (h : Base s) (hs : stepFiles s c = some s') :
    Base s' ∧ s'.task = s.task ∧ ∀ i, 0 < (s.files.table i).ref → s'.opened i = s.opened i := by
  obtain ⟨hidle, hs⟩ := Option.ite_none_right_eq_some.1 hs
  obtain ⟨files, hfiles, rfl⟩ := Option.map_eq_some_iff.1 hs
  have hcounted := counted_step h.counted hfiles
  refine ⟨⟨hcounted, modes_step h.counted h.modes hfiles, fun q t ht => ?_⟩, rfl,
    fun i hi => noteOpen_inUse s.files s.opened c.2 hi⟩
  have hok := h.sleepers q t ht
  have hne : q ≠ c.1 := by
    intro heq
    rw [heq, hidle] at ht
    cases ht
  obtain ⟨hsetup, hothers⟩ := step_kept h.counted hfiles
  obtain ⟨hof, hproc⟩ := hothers q hok.proc hne
  have hheld : some t.file ∈ files.oftable q := hof ▸ hok.held
  have hpos := ref_pos h.counted hok.proc hok.held
  obtain ⟨htype, hobj⟩ := setup_eq (hsetup t.file hpos (ref_pos hcounted hproc hheld))
  exact ⟨hproc, hheld, htype.trans hok.type, hobj.trans hok.pipe⟩

/-- nothing but offsets has changed in the file table, and there are other sleepers -/
theorem Base.congr (h : Base s) (hs : SameFiles s s') (hsleep : ∀ p t, s'.task p = some t → Sleeper s p t) : Base s' := by
  refine ⟨?_, fun i hi => ?_, fun p t ht => (hsleep p t ht).congr hs⟩
  · obtain ⟨off, hoff⟩ := hs.files
    rw [hoff]
    exact h.counted
  · obtain ⟨hset, href⟩ := hs.setup i
    rw [href] at hi
    rw [hs.opened]
    exact (h.modes i hi).of_setup hset

theorem Used.base (h : Base s) {s1 : Sys} {got : List UInt8} (hu : Used s p f d got rep s1) : Base (s1.reply p got rep) := by
  refine h.congr (hu.moved.same.trans (sameFiles_reply s1 p got rep)) fun q t ht => ?_
  rcases reply_task s1 p got rep ht with ⟨rfl, hwait⟩ | ht
  · obtain ⟨rfl, -, htype, hpipe⟩ := hu.sleeps t hwait
    exact ⟨hu.proc, hu.held, htype, hpipe⟩
  · exact h.sleepers q t (hu.moved.task ▸ ht)

/-- whether calls fit or not, the file table is as it was opened -/
theorem base_step (h : Base s) (hs : step s e = some s') : Base s' := by
  obtain ⟨-, c, s1, hs1, heq⟩ | ⟨-, rfl⟩ | ⟨f, d, got, rep, s1, -, hu, rfl⟩ := step_cases h hs
  · obtain ⟨h1, -, -⟩ := base_files h hs1
    rw [heq]
    exact h1.congr (SameFiles.of_eq rfl rfl) h1.sleepers
  · refine h.congr (sameFiles_reply s _ [] _) fun q t ht => ?_
    rcases reply_task s _ [] _ ht with ⟨-, hwait⟩ | ht
    · cases hwait
    · exact h.sleepers q t ht
  · exact hu.base h

/-- a call that fits is permitted, and at the right end of a pipe -/
theorem Inv.permits (h : Inv s) (hfit : Fitting s e) (htarget : target s e = some (f, d)) (hp : e.caller ∈ s.files.procs)
    (hheld : some f ∈ s.files.oftable e.caller) :
    Permits s f d ∧ ((s.files.table f).type = .pipe → s.opened f = .pipe (d = .write)) := by
  have hok := h.modes f (ref_pos h.counted hp hheld)
  have hread : (s.files.table f).readable = true →
      Permits s f .read ∧ ((s.files.table f).type = .pipe → s.opened f = .pipe (Dir.read = .write)) := by
    intro hbit
    have hcan : (s.opened f).canRead = true := hok.readable.symm.trans hbit
    refine ⟨hcan, fun ht => ?_⟩
    rw [hok.pipe_mode ht] at hcan ⊢
    have hw : (s.files.table f).writable = false := by simpa [Mode.canRead] using hcan
    rw [hw]
    rfl
  have hwrite : (s.files.table f).writable = true ∧
      ((s.files.table f).type = .inode → (s.inode (s.files.table f).obj).type ≠ .directory) →
      Permits s f .write ∧ ((s.files.table f).type = .pipe → s.opened f = .pipe (Dir.write = .write)) := by
    rintro ⟨hbit, hdir⟩
    refine ⟨⟨hok.writable.symm.trans hbit, hdir⟩, fun ht => ?_⟩
    rw [hok.pipe_mode ht, hbit]
    rfl
  have htask : ∀ {q t}, s.task q = some t → t.file = f → t.work.dir = d →
      Permits s f d ∧ ((s.files.table f).type = .pipe → s.opened f = .pipe (d = .write)) := by
    rintro q t ht rfl rfl
    have hmode := h.ends q t ht
    refine ⟨?_, fun _ => hmode⟩
    cases hdir : t.work.dir with
    | read =>
      rw [hdir] at hmode
      rw [Permits, hmode]
      rfl
    | write =>
      rw [hdir] at hmode
      refine ⟨by rw [hmode]; rfl, fun htype => ?_⟩
      rw [(h.sleepers q t ht).type] at htype
      cases htype
  cases e with
  | files c => cases htarget
  | create p ip omode made => cases htarget
  | read p fd size ok keys =>
    obtain ⟨g, hg, heq⟩ := Option.map_eq_some_iff.1 htarget
    obtain ⟨rfl, rfl⟩ := Prod.mk.inj heq
    exact hread (hfit g hg)
  | write p fd src ok =>
    obtain ⟨g, hg, heq⟩ := Option.map_eq_some_iff.1 htarget
    obtain ⟨rfl, rfl⟩ := Prod.mk.inj heq
    exact hwrite (hfit g hg)
  | writev p fd iov ok =>
    obtain ⟨g, hg, heq⟩ := Option.map_eq_some_iff.1 htarget
    obtain ⟨rfl, rfl⟩ := Prod.mk.inj heq
    exact hwrite (hfit g hg)
  | resume p =>
    obtain ⟨t, ht, heq⟩ := Option.map_eq_some_iff.1 htarget
    exact htask ht (Prod.mk.inj heq).1 (Prod.mk.inj heq).2
  | interrupt p =>
    obtain ⟨t, ht, heq⟩ := Option.map_eq_some_iff.1 htarget
    exact htask ht (Prod.mk.inj heq).1 (Prod.mk.inj heq).2

theorem respects_of_none (h : target s e = none) : Respects s e s' := by
  refine ⟨fun f d ip ht => ?_, fun f d ht => ?_, fun f d a ht => ?_, fun f d a ht => ?_, fun f d ht => ?_⟩
  all_goals
    rw [h] at ht
    cases ht

/-- **One step.** -/
theorem step_respects (h : Inv s) (hfit : Fitting s e) (hs : step s e = some s') : Inv s' ∧ Respects s e s' := by
  have hbase := base_step h.toBase hs
  obtain ⟨hnone, c, s1, hs1, heq⟩ | ⟨hnone, rfl⟩ | ⟨f, d, got, rep, s1, htarget, hu, rfl⟩ := step_cases h.toBase hs
  · obtain ⟨-, htask, hopened⟩ := base_files h.toBase hs1
    refine ⟨⟨hbase, fun p t ht => ?_⟩, respects_of_none hnone⟩
    rw [heq] at ht ⊢
    have ht' : s.task p = some t := htask ▸ ht
    have hok := h.sleepers p t ht'
    exact (hopened t.file (ref_pos h.counted hok.proc hok.held)).trans (h.ends p t ht')
  · refine ⟨⟨hbase, fun p t ht => ?_⟩, respects_of_none hnone⟩
    rcases reply_task s _ [] _ ht with ⟨-, hwait⟩ | ht
    · cases hwait
    · exact h.ends p t ht
  · obtain ⟨hpermits, hmode⟩ := h.permits hfit htarget hu.proc hu.held
    refine ⟨⟨hbase, fun p t ht => ?_⟩, ?_⟩
    · rw [(sameFiles_reply s1 _ got rep).opened, hu.moved.same.opened]
      rcases reply_task s1 _ got rep ht with ⟨-, hwait⟩ | ht
      · obtain ⟨rfl, rfl, htype, -⟩ := hu.sleeps t hwait
        exact hmode htype
      · exact h.ends p t (hu.moved.task ▸ ht)
    · refine ⟨fun g d' ip ht hne => ?_, fun g d' ht hne => ?_, fun g d' a ht hne => ?_, fun g d' a ht hne => ?_,
        fun g d' ht hno => ?_⟩
      all_goals
        rw [htarget] at ht
        obtain ⟨rfl, rfl⟩ := Prod.mk.inj (Option.some.inj ht)
      · rw [reply_inode] at hne
        obtain ⟨rfl, hinode⟩ := hu.moved.inode ip hne
        exact ⟨rfl, hpermits, hinode⟩
      · rw [reply_got] at hne
        obtain rfl := hu.got hne
        exact ⟨rfl, hpermits⟩
      · rw [reply_ring] at hne
        obtain ⟨rfl, htype, hobj⟩ := hu.moved.nwrite a hne
        exact ⟨rfl, hmode htype, hobj⟩
      · rw [reply_ring] at hne
        obtain ⟨rfl, htype, hobj⟩ := hu.moved.nread a hne
        exact ⟨rfl, hmode htype, hobj⟩
      · exact absurd hpermits hno

/-! ## Runs -/

/-- **Access modes.** In every state that a run reaches, every entry in use has the type and the mode bits that its opener asked
for. If all calls of the run go through files whose bits fit them, every next call that fits respects the modes. -/
theorem modes_respected (procs : Finset ℕ) (inode : ℕ → Inode) (data : ℕ → UInt8) (ops : List Op) (s : Sys)
    (hr : run step (init procs inode data) ops = some s) :
    (∀ i, 0 < (s.files.table i).ref → AsOpened (s.files.table i) (s.opened i)) ∧
    (Meets step Fitting (init procs inode data) ops →
      ∀ e s', Fitting s e → step s e = some s' → Respects s e s') := by
  have hinit := inv_init procs inode data
  refine ⟨?_, fun hm e s' hfit hs => ?_⟩
  · have hbase : Base s := reach_invariant (fun _ _ _ hI hs => base_step hI hs) hinit.toBase ⟨ops, hr⟩
    exact hbase.modes
  · have hinv : Inv s := run_invariant (fun _ _ _ hI hC hs => (step_respects hI hC hs).1) hinit hm hr
    exact (step_respects hinv hfit hs).2

instance (s : Sys) : (e : Op) → Decidable (Fitting s e)
  | .read p fd _ _ _ => inferInstanceAs (Decidable (∀ f ∈ fd2file s.files p fd, _))
  | .write p fd _ _ | .writev p fd _ _ => inferInstanceAs (Decidable (∀ f ∈ fd2file s.files p fd, _))
  | .files _ | .create _ _ _ _ | .resume _ | .interrupt _ => inferInstanceAs (Decidable True)

/-- inode 7 is a file, all others are directories -/
def oneFile (ip : ℕ) : Inode := if ip = 7 then ⟨.regular, [1, 2, 3]⟩ else ⟨.directory, [1, 2, 3]⟩

/-- one process without open files -/
def start : Sys := init {0} oneFile fun _ => 0

/-- a file is opened for writing and written, and a byte goes through a pipe to a child -/
def properly : List Op :=
  [.files (0, .openat 7 oRdwr), .write 0 0 [9] true, .files (0, .pipe2 5), .files (0, .fork 1), .writev 0 2 [([4], true)] true,
    .read 1 1 8 true none]

theorem modes_respected_properly : ∃ s, run step start properly = some s ∧ (s.inode 7).bytes = [9, 2, 3] ∧ s.got 1 = [4] ∧
    ∀ e s', Fitting s e → step s e = some s' → Respects s e s' := by
  obtain ⟨s, hm, hr, hbytes, hgot⟩ : ∃ s, Meets step Fitting start properly ∧ run step start properly = some s ∧
      (s.inode 7).bytes = [9, 2, 3] ∧ s.got 1 = [4] := guarded_computes (by decide +kernel)
  exact ⟨s, hr, hbytes, hgot, (modes_respected {0} oneFile (fun _ => 0) properly s hr).2 hm⟩

instance (s : Sys) (f : ℕ) : (d : Dir) → Decidable (Permits s f d)
  | .read => inferInstanceAs (Decidable (_ = _))
  | .write => inferInstanceAs (Decidable (_ ∧ _))

/-- a call after a run goes through although it is not permitted, and P describes it -/
theorem ignored_of_run {ops : List Op} (P : Sys → Sys → Prop) [∀ s s', Decidable (P s s')]
    (h : ((run step start ops).bind fun s => (step s e).map fun s' =>
      decide (target s e = some (f, d) ∧ ¬ Permits s f d ∧ s'.ret e.caller ≠ -1 ∧ P s s')) = some true) :
    ∃ s s', run step start ops = some s ∧ step s e = some s' ∧ P s s' ∧ ¬ Respects s e s' := by
  obtain ⟨s, hs, h⟩ := Option.bind_eq_some_iff.1 h
  obtain ⟨s', hs', htarget, hno, hret, hP⟩ := run_computes h
  exact ⟨s, s', hs, hs', hP, fun hresp => hret (hresp.refused f d htarget hno).1⟩

/-- **Modes are ignored.** A file opened with `O_RDONLY` is written, one opened with `O_WRONLY` is read, a directory is written,
and a byte goes into a pipe at its read end and comes out at its write end. None of these calls respects the modes. -/
theorem modes_ignored :
    (∃ s s', run step start [.files (0, .openat 7 0)] = some s ∧ step s (.write 0 0 [9] true) = some s' ∧
      ((s.files.table 0).writable = false ∧ (s'.inode 7).bytes = [9, 2, 3]) ∧ ¬ Respects s (.write 0 0 [9] true) s') ∧
    (∃ s s', run step start [.files (0, .openat 7 oWronly)] = some s ∧ step s (.read 0 0 8 true none) = some s' ∧
      ((s.files.table 0).readable = false ∧ s'.got 0 = [1, 2, 3]) ∧ ¬ Respects s (.read 0 0 8 true none) s') ∧
    (∃ s s', run step start [.files (0, .openat 3 oRdwr)] = some s ∧ step s (.write 0 0 [9] true) = some s' ∧
      ((s.inode 3).type = .directory ∧ (s'.inode 3).bytes = [9, 2, 3]) ∧ ¬ Respects s (.write 0 0 [9] true) s') ∧
    (∃ s s', run step start [.files (0, .pipe2 5)] = some s ∧ step s (.write 0 0 [4] true) = some s' ∧
      ((s.files.table 0).writable = false ∧ (s'.ring 5).nwrite = 1) ∧ ¬ Respects s (.write 0 0 [4] true) s') ∧
    ∃ s s', run step start [.files (0, .pipe2 5), .write 0 1 [4] true] = some s ∧ step s (.read 0 1 8 true none) = some s' ∧
      ((s.files.table 1).readable = false ∧ s'.got 0 = [4]) ∧ ¬ Respects s (.read 0 1 8 true none) s' :=
  ⟨ignored_of_run (f := 0) (d := .write) _ (by decide +kernel), ignored_of_run (f := 0) (d := .read) _ (by decide +kernel),
    ignored_of_run (f := 0) (d := .write) _ (by decide +kernel), ignored_of_run (f := 0) (d := .write) _ (by decide +kernel),
    ignored_of_run (f := 1) (d := .read) _ (by decide +kernel)⟩

end OsKernel.Kernel.AccessMode
