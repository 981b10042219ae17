/-
The two ends of a pipe (`pipe2`, `dup`, `close`, `openat` in `kernel/sysfile.c`, `fork`, `exit` in `kernel/proc.c`).

Any processes make these calls one after the other; a call is one step. `pipe_alloc` gives a pipe two entries of the file
table, one for each end, and `file_close` closes the end when the count of its entry reaches 0. Descriptors are references
to entries: a process has a table of `NOFILE` of them.

What `kalloc` returns for a new pipe is part of the label and may be any address that is not allocated, one just freed
included. Ghosts: pipes are numbered in the order of their creation, and `closes` lists every `pipe_close` with the number of
the pipe it found at its address, or none when the pipe there had been freed.

An entry whose pipe is closed keeps its type. Results: `pipe_ends_closed_once` (every end is closed exactly when the last
descriptor of its entry goes away, in every run in which `pipe2` finds two free descriptors and an `openat` that finds none
does not get an entry that was a pipe) and `pipe_closed_again` (otherwise ends are closed twice and freed pipes are closed).
The wake-ups of `pipe_close` are in `Fs/Pipe`.
-/
import OsKernel.Fs.FileTable

namespace OsKernel.Kernel.PipeEnds

open OsKernel.Runs OsKernel.Fs.FileTable
open Function (update update_apply update_comm update_idem update_of_ne update_self)

/-! ## The functions -/

def nofile : ℕ := 64

/-- a pipe that is allocated -/
structure Pipe where
  /-- how many were created before it -/
  id : ℕ
  readopen : Bool
  writeopen : Bool
deriving DecidableEq, Repr

def Pipe.isOpen (pi : Pipe) (writable : Bool) : Bool := if writable then pi.writeopen else pi.readopen

def Pipe.shut (pi : Pipe) (writable : Bool) : Pipe :=
  if writable then { pi with writeopen := false } else { pi with readopen := false }

structure Sys where
  table : ℕ → File
  /-- the processes created so far -/
  procs : Finset ℕ
  exited : Finset ℕ
  /-- `oftable.file` of each process -/
  oftable : ℕ → List (Option ℕ)
  heap : ℕ → Option Pipe
  made : ℕ
  closes : List (Option ℕ × Bool)

/-- some processes without open files -/
def init (procs : Finset ℕ) : Sys :=
  ⟨fun _ => ⟨.none, 0, false, false, 0, 0⟩, procs, ∅, fun _ => List.replicate nofile none, fun _ => none, 0, []⟩

def refTo (f : File) (ref : ℤ) : File := { f with ref := ref }

def Sys.setFile (s : Sys) (i : ℕ) (f : File) : Sys := { s with table := update s.table i f }

def Sys.setSlots (s : Sys) (p : ℕ) (slots : List (Option ℕ)) : Sys :=
  { s with oftable := update s.oftable p slots }

/-- `pipe_close` -/
def pipeClose (s : Sys) (a : ℕ) (writable : Bool) : Sys :=
  match s.heap a with
  | none => { s with closes := (none, writable) :: s.closes }
  | some pi =>
    let pi := pi.shut writable
    { s with
      heap := update s.heap a (if pi.readopen = false ∧ pi.writeopen = false then none else some pi)
      closes := (some pi.id, writable) :: s.closes }

/-- `file_close`, both regions -/
def closeFile (s : Sys) (i : ℕ) : Option Sys :=
  (Fs.FileTable.fileClose (s.table i)).map fun (f, putInode) =>
    if putInode then s.setFile i (fileClear f)
    else if f.ref = 0 ∧ f.type = .pipe then pipeClose (s.setFile i f) f.obj f.writable
    else s.setFile i f

/-- `file_alloc` -/
def allocFile (s : Sys) : Option (ℕ × Sys) :=
  (fileAlloc s.table).map fun i => (i, s.setFile i (refTo (s.table i) 1))

/-- `file_dup` -/
def dupFile (s : Sys) (i : ℕ) : Sys := s.setFile i (refTo (s.table i) ((s.table i).ref + 1))

/-- `fdalloc`: the descriptor and the table with it; none is −1 -/
def fdalloc (slots : List (Option ℕ)) (i : ℕ) : Option (ℕ × List (Option ℕ)) :=
  let fd := slots.findIdx Option.isNone
  if fd < slots.length then some (fd, slots.set fd (some i)) else none

/-- `init_read_pipe`, `init_write_pipe` -/
def initEnd (f : File) (a : ℕ) (writable : Bool) : File :=
  { f with obj := a, type := .pipe, off := 0, readable := !writable, writable := writable }

/-- a new pipe at a with its ends in the two entries -/
def setPipe (s : Sys) (f0 f1 a : ℕ) : Sys :=
  { (s.setFile f0 (initEnd (s.table f0) a false)).setFile f1 (initEnd (s.table f1) a true) with
    heap := update s.heap a (some ⟨s.made, true, true⟩), made := s.made + 1 }

/-- `pipe_alloc`; a is what `kalloc` returns -/
def pipeAlloc (s : Sys) (a : ℕ) : Option (ℕ × ℕ × Sys) :=
  (allocFile s).bind fun r0 => (allocFile r0.2).bind fun r1 =>
    if r1.2.heap a = none then some (r0.1, r1.1, setPipe r1.2 r0.1 r1.1 a) else none

/-- `sys_close`, and the body of the loop of `free_oftable` -/
def closeFd (s : Sys) (p : ℕ) (fd : ℤ) : Option Sys :=
  if fd < 0 ∨ nofile ≤ fd then some s
  else
    match (s.oftable p).getD fd.toNat none with
    | none => some s
    | some i => (closeFile s i).map fun s => s.setSlots p ((s.oftable p).set fd.toNat none)

def pipe2 (s : Sys) (p a : ℕ) : Option Sys := do
  let (f0, f1, s) ← pipeAlloc s a
  match fdalloc (s.oftable p) f0 with
  | none =>
    let s := pipeClose s (s.table f0).obj false
    let s := pipeClose s (s.table f0).obj true
    let s ← closeFile s f0
    closeFile s f1
  | some (fd, slots) =>
    let s := s.setSlots p slots
    match fdalloc (s.oftable p) f1 with
    | none =>
      let s := pipeClose s (s.table f0).obj false
      let s := pipeClose s (s.table f0).obj true
      let s ← closeFd s p fd
      closeFile s f1
    | some (_, slots) => some (s.setSlots p slots)

def dup (s : Sys) (p : ℕ) (fd : ℤ) : Option Sys :=
  if fd < 0 ∨ nofile ≤ fd then some s
  else
    match (s.oftable p).getD fd.toNat none with
    | none => some s
    | some i =>
      match fdalloc (s.oftable p) i with
      | none => some s
      | some (_, slots) => some (dupFile (s.setSlots p slots) i)

def oWronly : ℕ := 1
def oRdwr : ℕ := 2

/-- what `openat` sets -/
def initInode (f : File) (ip omode : ℕ) : File :=
  { f with
    type := .inode
    obj := ip
    off := 0
    readable := omode &&& oWronly = 0
    writable := omode &&& oWronly ≠ 0 ∨ omode &&& oRdwr ≠ 0 }

/-- `openat`; ip is the inode the path leads to, 0 when there is none -/
def openat (s : Sys) (p ip omode : ℕ) : Option Sys :=
  if ip = 0 then some s
  else do
    let (f, s) ← allocFile s
    match fdalloc (s.oftable p) f with
    -- the type of the entry is still what its last user left
    | none => closeFile s f
    | some (_, slots) => some ((s.setSlots p slots).setFile f (initInode (s.table f) ip omode))

/-- the loop of `fork` over the parent's descriptors, which ends at the first free one: the child's descriptors -/
def forkLoop : List (Option ℕ) → Sys → List (Option ℕ) × Sys
  | [], s => ([], s)
  | none :: slots, s => (List.replicate (slots.length + 1) none, s)
  | some i :: slots, s =>
    let r := forkLoop slots (dupFile s i)
    (some i :: r.1, r.2)

/-- `fork` of a process whose sections have no files -/
def fork (s : Sys) (p child : ℕ) : Option Sys :=
  if child ∈ s.procs then none
  else
    let r := forkLoop (s.oftable p) s
    some { r.2.setSlots child r.1 with procs := insert child s.procs }

/-- the loop of `free_oftable` from descriptor fd on -/
def freeOftable (s : Sys) (p : ℕ) : ℕ → ℕ → Option Sys
  | 0, _ => some s
  | n + 1, fd => (closeFd s p fd).bind fun s => freeOftable s p n (fd + 1)

def exit (s : Sys) (p : ℕ) : Option Sys :=
  (freeOftable s p nofile 0).map fun s => { s with exited := insert p s.exited }

inductive Syscall where
  | pipe2 (a : ℕ)
  | dup (fd : ℤ)
  | fork (child : ℕ)
  | close (fd : ℤ)
  | openat (ip omode : ℕ)
  | exit
deriving DecidableEq, Repr

/-- process p makes a system call; none when p cannot, or the kernel panics -/
def step (s : Sys) (c : ℕ × Syscall) : Option Sys :=
  if c.1 ∈ s.procs ∧ c.1 ∉ s.exited then
    match c.2 with
    | .pipe2 a => pipe2 s c.1 a
    | .dup fd => dup s c.1 fd
    | .fork child => fork s c.1 child
    | .close fd => closeFd s c.1 fd
    | .openat ip omode => openat s c.1 ip omode
    | .exit => exit s c.1
  else none

/-! ## What a close can do -/

theorem setFile_self (s : Sys) (i : ℕ) (f : File) : (s.setFile i f).table i = f := update_self ..

variable {a child f0 f1 i ip j n omode p : ℕ} {s s' t : Sys} {slots : List (Option ℕ)} {fd : ℤ} {e : ℕ × Bool} {f : File}
  {pi : Pipe} {w : Bool} {c : ℕ × Syscall}

theorem setFile_of_ne (s : Sys) (f : File) (h : j ≠ i) : (s.setFile i f).table j = s.table j :=
  update_of_ne h ..

/-- the four ways `file_close` can end -/
theorem closeFile_cases (h : closeFile s i = some s') :
    (1 < (s.table i).ref ∧ s' = s.setFile i { s.table i with ref := (s.table i).ref - 1 }) ∨
    ((s.table i).ref = 1 ∧ (s.table i).type = .inode ∧ s' = s.setFile i (fileClear { s.table i with ref := 0 })) ∨
    ((s.table i).ref = 1 ∧ (s.table i).type = .pipe ∧
      s' = pipeClose (s.setFile i { s.table i with ref := 0 }) (s.table i).obj (s.table i).writable) ∨
    ((s.table i).ref = 1 ∧ (s.table i).type = .none ∧ s' = s.setFile i { s.table i with ref := 0 }) := by
  obtain ⟨⟨f, b⟩, hf, rfl⟩ := Option.map_eq_some_iff.1 h
  by_cases hone : (s.table i).ref = 1
  · rw [fileClose_last hone] at hf
    refine Or.inr ?_
    cases ht : (s.table i).type with
    | none =>
      simp only [ht, reduceCtorEq, if_false, Option.some.injEq, Prod.mk.injEq] at hf
      obtain ⟨rfl, rfl⟩ := hf
      exact Or.inr (Or.inr ⟨hone, rfl, by simp [ht]⟩)
    | pipe =>
      simp only [ht, reduceCtorEq, if_false, Option.some.injEq, Prod.mk.injEq] at hf
      obtain ⟨rfl, rfl⟩ := hf
      exact Or.inr (Or.inl ⟨hone, rfl, by simp [ht]⟩)
    | inode =>
      simp only [ht, if_true] at hf
      split_ifs at hf
      obtain ⟨rfl, rfl⟩ := Prod.mk.inj (Option.some.inj hf)
      exact Or.inl ⟨hone, rfl, rfl⟩
  · unfold Fs.FileTable.fileClose at hf
    split_ifs at hf with hlow
    have hmore : (s.table i).ref - 1 > 0 := by omega
    have hne : (s.table i).ref - 1 ≠ 0 := by omega
    dsimp only at hf
    rw [if_pos hmore] at hf
    obtain ⟨rfl, rfl⟩ := Prod.mk.inj (Option.some.inj hf)
    exact Or.inl ⟨by omega, by simp [hne]⟩

theorem getElem?_of_getD (h : slots.getD n none = some i) :
    slots[n]? = some (some i) := by
  rw [List.getD_eq_getElem?_getD] at h
  cases hget : slots[n]? with
  | none => rw [hget] at h; cases h
  | some x => rw [hget] at h; exact congrArg some h

/-- `close` does nothing, or closes the file of a descriptor and frees the descriptor -/
theorem closeFd_cases (h : closeFd s p fd = some s') :
    s' = s ∨ ∃ (i n : ℕ) (t : Sys), (s.oftable p)[n]? = some (some i) ∧ fd = n ∧ closeFile s i = some t ∧
      s' = t.setSlots p ((t.oftable p).set n none) := by
  unfold closeFd at h
  split_ifs at h with hrange
  · exact Or.inl (Option.some.inj h).symm
  · cases hslot : (s.oftable p).getD fd.toNat none with
    | none =>
      rw [hslot] at h
      exact Or.inl (Option.some.inj h).symm
    | some i =>
      rw [hslot] at h
      obtain ⟨t, ht, rfl⟩ := Option.map_eq_some_iff.1 h
      exact Or.inr ⟨i, fd.toNat, t, getElem?_of_getD hslot, by omega, ht, rfl⟩

/-- what every `close` keeps is kept by `free_oftable` -/
theorem freeOftable_keeps {P : Sys → Prop} (hclose : ∀ {s s' : Sys} {fd : ℤ}, P s → closeFd s p fd = some s' → P s')
    (n fd : ℕ) (h : P s) (hs : freeOftable s p n fd = some s') : P s' := by
  -- the loop runs over the descriptors, so the induction is on how many are left
  induction n generalizing s fd with
  | zero => exact Option.some.inj hs ▸ h
  | succ n ih =>
    obtain ⟨t, ht, hs⟩ := Option.bind_eq_some_iff.1 hs
    exact ih (fd + 1) (hclose h ht) hs

/-! ## Ends -/

/-- the end of a pipe that an entry in use is -/
def endOf (f : File) : Option (ℕ × Bool) := if 0 < f.ref ∧ f.type = .pipe then some (f.obj, f.writable) else none

theorem endOf_some :
    endOf f = some e ↔ 0 < f.ref ∧ f.type = .pipe ∧ f.obj = e.1 ∧ f.writable = e.2 := by
  unfold endOf
  split_ifs with h
  · simp [h, Prod.ext_iff]
  · simp only [false_iff]
    exact fun h' => h ⟨h'.1, h'.2.1⟩

theorem endOf_none (h : f.ref ≤ 0 ∨ f.type ≠ .pipe) : endOf f = none := by
  unfold endOf
  refine if_neg fun h' => ?_
  rcases h with h | h
  · omega
  · exact h h'.2

/-- pipe k is allocated at e.1 and its end e.2 is open -/
def OpenEnd (s : Sys) (e : ℕ × Bool) (k : ℕ) : Prop := ∃ pi, s.heap e.1 = some pi ∧ pi.id = k ∧ pi.isOpen e.2 = true

theorem OpenEnd.id_unique {k l : ℕ} (h : OpenEnd s e k) (h' : OpenEnd s e l) : k = l := by
  obtain ⟨pi, hpi, rfl, -⟩ := h
  obtain ⟨pi', hpi', rfl, -⟩ := h'
  rw [hpi] at hpi'
  rw [Option.some.inj hpi']

/-- the ends of entries in use are the open ends of pipes, one entry each, and the log has just the others -/
structure Ends (s : Sys) : Prop where
  free : ∀ i, (s.table i).ref = 0 → (s.table i).type ≠ .inode
  opened : ∀ i e, endOf (s.table i) = some e → ∃ k, OpenEnd s e k
  held : ∀ e k, OpenEnd s e k → ∃ i, endOf (s.table i) = some e
  sole : ∀ i j e, endOf (s.table i) = some e → endOf (s.table j) = some e → i = j
  fresh : ∀ e k, OpenEnd s e k → k < s.made
  distinct : ∀ a b w k, OpenEnd s (a, w) k → OpenEnd s (b, w) k → a = b
  unlogged : ∀ a w k, OpenEnd s (a, w) k → (some k, w) ∉ s.closes
  logged : ∀ k w, k < s.made → (∃ a, OpenEnd s (a, w) k) ∨ (some k, w) ∈ s.closes
  past : ∀ k w, (some k, w) ∈ s.closes → k < s.made
  once : s.closes.Nodup
  allocated : ∀ w, (none, w) ∉ s.closes

theorem ends_init (procs : Finset ℕ) : Ends (init procs) where
  free := by simp [init]
  opened := by simp [init, endOf]
  held := by simp [init, OpenEnd]
  sole := by simp [init, endOf]
  fresh := by simp [init, OpenEnd]
  distinct := by simp [init, OpenEnd]
  unlogged := by simp [init]
  logged := by simp [init]
  past := by simp [init]
  once := List.nodup_nil
  allocated := by simp [init]

/-- no end is opened or closed -/
theorem Ends.frame (h : Ends s) (hend : ∀ i, endOf (s'.table i) = endOf (s.table i))
    (hfree : ∀ i, (s'.table i).ref = 0 → (s'.table i).type ≠ .inode) (hheap : s'.heap = s.heap)
    (hmade : s'.made = s.made) (hcloses : s'.closes = s.closes) : Ends s' := by
  have hopen : ∀ e k, OpenEnd s' e k ↔ OpenEnd s e k := by
    intro e k
    unfold OpenEnd
    rw [hheap]
  refine ⟨hfree, ?_, ?_, ?_, ?_, ?_, ?_, ?_, ?_, ?_, ?_⟩
  · simpa only [hend, hopen] using h.opened
  · simpa only [hend, hopen] using h.held
  · simpa only [hend] using h.sole
  · simpa only [hmade, hopen] using h.fresh
  · simpa only [hopen] using h.distinct
  · simpa only [hcloses, hopen] using h.unlogged
  · simpa only [hmade, hcloses, hopen] using h.logged
  · simpa only [hmade, hcloses] using h.past
  · rw [hcloses]; exact h.once
  · simpa only [hcloses] using h.allocated

theorem Ends.setFile (h : Ends s) (hend : endOf f = endOf (s.table i))
    (hfree : f.ref = 0 → f.type ≠ .inode) : Ends (s.setFile i f) := by
  refine h.frame ?_ ?_ rfl rfl rfl
  · intro j
    by_cases hj : j = i
    · rw [hj, setFile_self, hend]
    · rw [setFile_of_ne s f hj]
  · intro j
    by_cases hj : j = i
    · rw [hj, setFile_self]; exact hfree
    · rw [setFile_of_ne s f hj]; exact h.free j

theorem Ends.setSlots (h : Ends s) (p : ℕ) (slots : List (Option ℕ)) : Ends (s.setSlots p slots) :=
  h.frame (fun _ => rfl) h.free rfl rfl rfl

theorem shut_isOpen (pi : Pipe) (w v : Bool) : (pi.shut w).isOpen v = (pi.isOpen v && (v != w)) := by
  cases w <;> cases v <;> simp [Pipe.shut, Pipe.isOpen]

theorem shut_id (pi : Pipe) (w : Bool) : (pi.shut w).id = pi.id := by
  cases w <;> rfl

theorem isOpen_freed (h : pi.readopen = false ∧ pi.writeopen = false) (v : Bool) :
    pi.isOpen v = false := by
  cases v <;> simp [Pipe.isOpen, h]

/-- `pipe_close` closes one end and leaves the others, whether it frees the pipe or not -/
theorem openEnd_pipeClose (ha : s.heap a = some pi) (e : ℕ × Bool) (k : ℕ) :
    OpenEnd (pipeClose s a w) e k ↔ OpenEnd s e k ∧ e ≠ (a, w) := by
  obtain ⟨b, v⟩ := e
  by_cases hb : b = a
  · subst hb
    have hself : OpenEnd s (b, v) k ↔ pi.id = k ∧ pi.isOpen v = true := by simp [OpenEnd, ha]
    have hclosed : OpenEnd (pipeClose s b w) (b, v) k ↔ pi.id = k ∧ (pi.shut w).isOpen v = true := by
      simp only [OpenEnd, pipeClose, ha, update_self]
      split_ifs with hfreed
      · simp [isOpen_freed hfreed v]
      · simp [shut_id]
    rw [hclosed, hself, shut_isOpen]
    simp [and_assoc]
  · have hne : (b, v) ≠ (a, w) := fun h => hb (congrArg Prod.fst h)
    simp only [OpenEnd, pipeClose, ha, update_of_ne hb, ne_eq, hne, not_false_eq_true, and_true]

/-- the last reference of an end goes away and the end is closed -/
theorem Ends.closeEnd (h : Ends s) (hi : endOf (s.table i) = some (a, w))
    (hf : endOf f = none) (hfree : f.ref = 0 → f.type ≠ .inode) : Ends (pipeClose (s.setFile i f) a w) := by
  obtain ⟨k, pi, hpi, hk, hisOpen⟩ := h.opened i _ hi
  have hk' : OpenEnd s (a, w) k := ⟨pi, hpi, hk, hisOpen⟩
  have hcloses : (pipeClose (s.setFile i f) a w).closes = (some k, w) :: s.closes := by
    simp only [pipeClose, Sys.setFile, hpi, shut_id, hk]
  have hmade : (pipeClose (s.setFile i f) a w).made = s.made := by simp only [pipeClose, Sys.setFile, hpi]
  have htable : (pipeClose (s.setFile i f) a w).table = (s.setFile i f).table := by simp only [pipeClose, Sys.setFile, hpi]
  have hopen : ∀ e l, OpenEnd (pipeClose (s.setFile i f) a w) e l ↔ OpenEnd s e l ∧ e ≠ (a, w) :=
    openEnd_pipeClose (s := s.setFile i f) hpi
  have hends : ∀ j e, endOf ((s.setFile i f).table j) = some e ↔ endOf (s.table j) = some e ∧ j ≠ i := by
    intro j e
    by_cases hj : j = i
    · simp [hj, setFile_self, hf]
    · simp [hj, setFile_of_ne s f hj]
  refine ⟨?_, ?_, ?_, ?_, ?_, ?_, ?_, ?_, ?_, ?_, ?_⟩
  · intro j
    rw [htable]
    by_cases hj : j = i
    · rw [hj, setFile_self]; exact hfree
    · rw [setFile_of_ne s f hj]; exact h.free j
  · intro j e
    rw [htable, hends]
    rintro ⟨hj, hji⟩
    obtain ⟨l, hl⟩ := h.opened j e hj
    refine ⟨l, (hopen e l).2 ⟨hl, ?_⟩⟩
    rintro rfl
    exact hji (h.sole j i _ hj hi)
  · intro e l
    rw [hopen]
    rintro ⟨hl, hne⟩
    obtain ⟨j, hj⟩ := h.held e l hl
    refine ⟨j, ?_⟩
    rw [htable, hends]
    refine ⟨hj, ?_⟩
    rintro rfl
    exact hne (Option.some.inj (hj.symm.trans hi))
  · intro j j' e
    rw [htable, hends, hends]
    exact fun hj hj' => h.sole j j' e hj.1 hj'.1
  · intro e l
    rw [hopen, hmade]
    exact fun hl => h.fresh e l hl.1
  · intro b c v l
    rw [hopen, hopen]
    exact fun hb hc => h.distinct b c v l hb.1 hc.1
  · intro b v l
    rw [hopen, hcloses]
    rintro ⟨hl, hne⟩ hmem
    rcases List.mem_cons.1 hmem with heq | hmem
    · obtain ⟨hlk, rfl⟩ := Prod.mk.inj heq
      obtain rfl := Option.some.inj hlk
      exact hne (by rw [h.distinct b a v l hl hk'])
    · exact h.unlogged b v l hl hmem
  · intro l v
    rw [hmade, hcloses]
    intro hl
    rcases h.logged l v hl with ⟨b, hb⟩ | hmem
    · by_cases hne : (b, v) = (a, w)
      · obtain ⟨rfl, rfl⟩ := Prod.mk.inj hne
        rw [hb.id_unique hk']
        exact Or.inr List.mem_cons_self
      · exact Or.inl ⟨b, (hopen _ l).2 ⟨hb, hne⟩⟩
    · exact Or.inr (List.mem_cons_of_mem _ hmem)
  · intro l v
    rw [hmade, hcloses]
    intro hmem
    rcases List.mem_cons.1 hmem with heq | hmem
    · obtain rfl := Option.some.inj (Prod.mk.inj heq).1
      exact h.fresh _ _ hk'
    · exact h.past l v hmem
  · rw [hcloses]
    exact List.nodup_cons.2 ⟨h.unlogged a w k hk', h.once⟩
  · intro v
    rw [hcloses]
    intro hmem
    rcases List.mem_cons.1 hmem with heq | hmem
    · cases heq
    · exact h.allocated v hmem

/-- a pipe is created with an entry for each end -/
theorem Ends.create (h : Ends s) {g : File} (hij : i ≠ j) (ha : s.heap a = none)
    (hi : endOf (s.table i) = none) (hj : endOf (s.table j) = none) (hf : endOf f = some (a, false))
    (hg : endOf g = some (a, true)) :
    Ends { (s.setFile i f).setFile j g with
      heap := update s.heap a (some ⟨s.made, true, true⟩), made := s.made + 1 } := by
  set s' : Sys := { (s.setFile i f).setFile j g with
    heap := update s.heap a (some ⟨s.made, true, true⟩), made := s.made + 1 } with hs'
  have hnot : ∀ w l, ¬ OpenEnd s (a, w) l := by
    rintro w l ⟨pi, hpi, -⟩
    rw [ha] at hpi
    cases hpi
  have hopen : ∀ e l, OpenEnd s' e l ↔ OpenEnd s e l ∨ (e.1 = a ∧ l = s.made) := by
    rintro ⟨b, v⟩ l
    by_cases hb : b = a
    · subst hb
      have hisOpen : (⟨s.made, true, true⟩ : Pipe).isOpen v = true := by cases v <;> rfl
      have hnew : OpenEnd s' (b, v) l ↔ s.made = l := by simp [OpenEnd, hs', hisOpen]
      rw [hnew]
      constructor
      · exact fun hl => Or.inr ⟨rfl, hl.symm⟩
      · rintro (hl | ⟨-, hl⟩)
        · exact absurd hl (hnot v l)
        · exact hl.symm
    · simp [OpenEnd, hs', hb]
  have htable : ∀ x, s'.table x = if x = j then g else if x = i then f else s.table x := by
    intro x
    simp only [hs', Sys.setFile, update_apply]
  have hends : ∀ x e, endOf (s'.table x) = some e ↔
      endOf (s.table x) = some e ∨ (x = i ∧ e = (a, false)) ∨ (x = j ∧ e = (a, true)) := by
    intro x e
    rw [htable]
    by_cases hxj : x = j
    · subst hxj
      simp [hj, hg, Ne.symm hij, eq_comm]
    · by_cases hxi : x = i
      · subst hxi
        simp [hi, hf, hij, eq_comm]
      · simp [hxj, hxi]
  have hold : ∀ x w, endOf (s.table x) ≠ some (a, w) := by
    intro x w hx
    obtain ⟨l, hl⟩ := h.opened x _ hx
    exact hnot w l hl
  have hmade : ∀ e, ¬ OpenEnd s e s.made := fun e he => lt_irrefl _ (h.fresh e _ he)
  refine ⟨?_, ?_, ?_, ?_, ?_, ?_, ?_, ?_, ?_, h.once, h.allocated⟩
  · intro x
    rw [htable]
    have hpipe : ∀ {k : File} {e}, endOf k = some e → k.ref = 0 → k.type ≠ .inode := by
      intro k e hk
      simp [(endOf_some.1 hk).2.1]
    split_ifs
    · exact hpipe hg
    · exact hpipe hf
    · exact h.free x
  · intro x e
    rw [hends]
    rintro (hx | ⟨-, rfl⟩ | ⟨-, rfl⟩)
    · obtain ⟨l, hl⟩ := h.opened x e hx
      exact ⟨l, (hopen e l).2 (Or.inl hl)⟩
    · exact ⟨s.made, (hopen _ _).2 (Or.inr ⟨rfl, rfl⟩)⟩
    · exact ⟨s.made, (hopen _ _).2 (Or.inr ⟨rfl, rfl⟩)⟩
  · rintro ⟨b, v⟩ l
    rw [hopen]
    rintro (hl | ⟨hb, -⟩)
    · obtain ⟨x, hx⟩ := h.held _ l hl
      exact ⟨x, (hends x _).2 (Or.inl hx)⟩
    · dsimp only at hb
      subst hb
      cases v with
      | false => exact ⟨i, (hends i _).2 (Or.inr (Or.inl ⟨rfl, rfl⟩))⟩
      | true => exact ⟨j, (hends j _).2 (Or.inr (Or.inr ⟨rfl, rfl⟩))⟩
  · intro x y e
    rw [hends, hends]
    rintro (hx | ⟨rfl, rfl⟩ | ⟨rfl, rfl⟩) (hy | ⟨rfl, he⟩ | ⟨rfl, he⟩)
    · exact h.sole x y e hx hy
    · exact absurd (he ▸ hx) (hold x _)
    · exact absurd (he ▸ hx) (hold x _)
    · exact absurd hy (hold y _)
    · rfl
    · simp at he
    · exact absurd hy (hold y _)
    · simp at he
    · rfl
  · intro e l
    rw [hopen]
    rintro (hl | ⟨-, rfl⟩)
    · exact Nat.lt_succ_of_lt (h.fresh e l hl)
    · exact Nat.lt_succ_self _
  · intro b c v l
    rw [hopen, hopen]
    rintro (hb | ⟨hb, rfl⟩) (hc | ⟨hc, hl⟩)
    · exact h.distinct b c v l hb hc
    · exact absurd (hl ▸ hb) (hmade _)
    · exact absurd hc (hmade _)
    · exact hb.trans hc.symm
  · intro b v l
    rw [hopen]
    rintro (hl | ⟨-, rfl⟩)
    · exact h.unlogged b v l hl
    · exact fun hmem => lt_irrefl _ (h.past _ v hmem)
  · intro l v hl
    rcases Nat.lt_succ_iff_lt_or_eq.1 hl with hl | rfl
    · rcases h.logged l v hl with ⟨b, hb⟩ | hmem
      · exact Or.inl ⟨b, (hopen _ l).2 (Or.inl hb)⟩
      · exact Or.inr hmem
    · exact Or.inl ⟨a, (hopen _ _).2 (Or.inr ⟨rfl, rfl⟩)⟩
  · exact fun l v hmem => Nat.lt_succ_of_lt (h.past l v hmem)

/-- the close of an entry in use -/
theorem ends_closeFile (h : Ends s) (hs : closeFile s i = some s') : Ends s' := by
  rcases closeFile_cases hs with ⟨hmore, rfl⟩ | ⟨hone, ht, rfl⟩ | ⟨hone, ht, rfl⟩ | ⟨hone, ht, rfl⟩
  · refine h.setFile ?_ ?_
    · have h1 : 0 < (s.table i).ref := by omega
      simp [endOf, h1, hmore]
    · dsimp only
      omega
  · refine h.setFile ?_ (by simp [fileClear])
    rw [endOf_none (Or.inl (by simp [fileClear])), endOf_none (Or.inr (by simp [ht]))]
  · refine h.closeEnd (endOf_some.2 ⟨by omega, ht, rfl, rfl⟩) (endOf_none (Or.inl le_rfl)) ?_
    simp [ht]
  · refine h.setFile ?_ (by simp [ht])
    rw [endOf_none (Or.inr (by simp [ht])), endOf_none (Or.inr (by simp [ht]))]

/-! ## Descriptors -/

/-- how many descriptors entry i has -/
def refs (s : Sys) (i : ℕ) : ℕ := ∑ p ∈ s.procs, (s.oftable p).count (some i)

def Counted (s : Sys) : Prop := ∀ i, (s.table i).ref = refs s i

theorem counted_init (procs : Finset ℕ) : Counted (init procs) := by
  intro i
  simp [init, refs, List.count_replicate]

theorem refs_setSlots (hp : p ∈ s.procs) (slots : List (Option ℕ)) (i : ℕ) :
    refs (s.setSlots p slots) i + (s.oftable p).count (some i) = refs s i + slots.count (some i) := by
  have hrest : ∑ q ∈ s.procs.erase p, (update s.oftable p slots q).count (some i) =
      ∑ q ∈ s.procs.erase p, (s.oftable q).count (some i) := by
    refine Finset.sum_congr rfl fun q hq => ?_
    rw [update_of_ne (Finset.ne_of_mem_erase hq)]
  have hnew := Finset.add_sum_erase s.procs (fun q => (update s.oftable p slots q).count (some i)) hp
  have hold := Finset.add_sum_erase s.procs (fun q => (s.oftable q).count (some i)) hp
  rw [hrest, update_self] at hnew
  change (∑ q ∈ s.procs, (update s.oftable p slots q).count (some i)) + _ = (∑ q ∈ s.procs, _) + _
  omega

theorem count_le_refs (hp : p ∈ s.procs) (i : ℕ) : (s.oftable p).count (some i) ≤ refs s i :=
  Finset.single_le_sum (f := fun q => (s.oftable q).count (some i)) (fun _ _ => Nat.zero_le _) hp

/-- a descriptor of entry i is taken into use -/
theorem count_set_some (i j : ℕ) (h : slots[n]? = some none) :
    (slots.set n (some i)).count (some j) = slots.count (some j) + if i = j then 1 else 0 := by
  obtain ⟨hn, hget⟩ := List.getElem?_eq_some_iff.1 h
  rw [List.count_set hn, hget]
  simp

/-- a descriptor of entry i is freed -/
theorem count_set_none (j : ℕ) (h : slots[n]? = some (some i)) :
    (slots.set n none).count (some j) + (if i = j then 1 else 0) = slots.count (some j) := by
  obtain ⟨hn, hget⟩ := List.getElem?_eq_some_iff.1 h
  rw [List.count_set hn, hget]
  by_cases hij : i = j
  · subst hij
    have hpos : 0 < slots.count (some i) := List.count_pos_iff.2 (hget ▸ List.getElem_mem hn)
    simp
    omega
  · simp [hij]

theorem refs_take (hp : p ∈ s.procs) (hslot : (s.oftable p)[n]? = some none) (i j : ℕ) :
    refs (s.setSlots p ((s.oftable p).set n (some i))) j = refs s j + if i = j then 1 else 0 := by
  have hsum := refs_setSlots hp ((s.oftable p).set n (some i)) j
  have hcount := count_set_some i j hslot
  omega

theorem refs_drop (hp : p ∈ s.procs) (hslot : (s.oftable p)[n]? = some (some i)) (j : ℕ) :
    refs (s.setSlots p ((s.oftable p).set n none)) j + (if i = j then 1 else 0) = refs s j := by
  have hsum := refs_setSlots hp ((s.oftable p).set n none) j
  have hcount := count_set_none j hslot
  omega

theorem fdalloc_some {slots' : List (Option ℕ)} {fd : ℕ} (h : fdalloc slots i = some (fd, slots')) :
    slots[fd]? = some none ∧ slots' = slots.set fd (some i) := by
  unfold fdalloc at h
  dsimp only at h
  split_ifs at h with hlt
  obtain ⟨rfl, rfl⟩ := Prod.mk.inj (Option.some.inj h)
  refine ⟨?_, rfl⟩
  rw [List.getElem?_eq_getElem hlt]
  have := List.findIdx_getElem (w := hlt)
  exact congrArg some (Option.isNone_iff_eq_none.1 this)

theorem fdalloc_none : fdalloc slots i = none ↔ none ∉ slots := by
  unfold fdalloc
  dsimp only
  rw [ite_eq_right_iff]
  simp only [reduceCtorEq, imp_false, not_lt]
  constructor
  · intro hle hmem
    have := List.findIdx_lt_length_of_exists (p := Option.isNone) ⟨none, hmem, rfl⟩
    omega
  · intro hmem
    by_contra hlt
    have hlt : slots.findIdx Option.isNone < slots.length := by omega
    have hget := Option.isNone_iff_eq_none.1 (List.findIdx_getElem (w := hlt))
    exact hmem (hget ▸ List.getElem_mem hlt)

/-! ## Calls -/

structure Inv (s : Sys) : Prop where
  ends : Ends s
  counted : Counted s

/-- `pipe2` finds two free descriptors, and an `openat` without a free descriptor does not get an entry that was a pipe -/
def Roomy (s : Sys) : ℕ × Syscall → Prop
  | (p, .pipe2 _) => 2 ≤ (s.oftable p).count none
  | (p, .openat ip _) => ip ≠ 0 → none ∉ s.oftable p → ∀ i ∈ fileAlloc s.table, (s.table i).type ≠ .pipe
  | _ => True

theorem pipeClose_table (s : Sys) (a : ℕ) (w : Bool) : (pipeClose s a w).table = s.table := by
  unfold pipeClose
  split <;> rfl

theorem pipeClose_oftable (s : Sys) (a : ℕ) (w : Bool) : (pipeClose s a w).oftable = s.oftable := by
  unfold pipeClose
  split <;> rfl

theorem pipeClose_procs (s : Sys) (a : ℕ) (w : Bool) : (pipeClose s a w).procs = s.procs := by
  unfold pipeClose
  split <;> rfl

/-- a close takes one reference from its entry and touches no other entry and no descriptor -/
theorem closeFile_refs (hs : closeFile s i = some s') :
    s'.oftable = s.oftable ∧ s'.procs = s.procs ∧ (s'.table i).ref + 1 = (s.table i).ref ∧
      ∀ j, j ≠ i → s'.table j = s.table j := by
  rcases closeFile_cases hs with ⟨hmore, rfl⟩ | ⟨hone, ht, rfl⟩ | ⟨hone, ht, rfl⟩ | ⟨hone, ht, rfl⟩
  · refine ⟨rfl, rfl, ?_, fun j hj => setFile_of_ne s _ hj⟩
    rw [setFile_self]
    dsimp only
    omega
  · refine ⟨rfl, rfl, ?_, fun j hj => setFile_of_ne s _ hj⟩
    rw [setFile_self, hone]
    rfl
  · rw [pipeClose_oftable, pipeClose_procs, pipeClose_table]
    refine ⟨rfl, rfl, ?_, fun j hj => setFile_of_ne s _ hj⟩
    rw [setFile_self, hone]
    rfl
  · refine ⟨rfl, rfl, ?_, fun j hj => setFile_of_ne s _ hj⟩
    rw [setFile_self, hone]
    rfl

theorem allocFile_some (h : allocFile s = some (i, t)) :
    fileAlloc s.table = some i ∧ (s.table i).ref = 0 ∧ t = s.setFile i (refTo (s.table i) 1) := by
  obtain ⟨j, hj, heq⟩ := Option.map_eq_some_iff.1 h
  obtain ⟨rfl, rfl⟩ := Prod.mk.inj heq
  exact ⟨hj, fileAllocLoop_ref hj, rfl⟩

/-- the two entries were free and are different, and what `pipe_alloc` leaves -/
theorem pipeAlloc_some (h : pipeAlloc s a = some (f0, f1, t)) :
    f0 ≠ f1 ∧ (s.table f0).ref = 0 ∧ (s.table f1).ref = 0 ∧ s.heap a = none ∧
      t = { (s.setFile f0 (initEnd (refTo (s.table f0) 1) a false)).setFile f1 (initEnd (refTo (s.table f1) 1) a true) with
        heap := update s.heap a (some ⟨s.made, true, true⟩), made := s.made + 1 } := by
  obtain ⟨⟨i, s1⟩, h1, h⟩ := Option.bind_eq_some_iff.1 h
  obtain ⟨⟨j, s2⟩, h2, h⟩ := Option.bind_eq_some_iff.1 h
  obtain ⟨-, hi, rfl⟩ := allocFile_some h1
  obtain ⟨-, hj, rfl⟩ := allocFile_some h2
  dsimp only at h hj
  split_ifs at h with hheap
  simp only [Option.some.injEq, Prod.mk.injEq] at h
  obtain ⟨rfl, rfl, rfl⟩ := h
  -- the second entry cannot be the first, whose count is 1 by now
  have hij : i ≠ j := by
    rintro rfl
    rw [setFile_self] at hj
    cases hj
  rw [setFile_of_ne s _ (Ne.symm hij)] at hj
  refine ⟨hij, hi, hj, hheap, ?_⟩
  simp only [setPipe, Sys.setFile, update_self, update_of_ne (Ne.symm hij), update_idem,
    update_comm hij]

/-- what `pipe2` does when it finds no descriptor: it closes both ends of the new pipe -/
def shutBoth (s : Sys) (f0 : ℕ) : Sys :=
  let s := pipeClose s (s.table f0).obj false
  pipeClose s (s.table f0).obj true

/-- `pipe2` finds no descriptor, or only one, or two -/
theorem pipe2_cases (hs : pipe2 s p a = some s') :
    ∃ f0 f1 t, pipeAlloc s a = some (f0, f1, t) ∧
      ((none ∉ t.oftable p ∧ ∃ u, closeFile (shutBoth t f0) f0 = some u ∧ closeFile u f1 = some s') ∨
      ∃ n0, (t.oftable p)[n0]? = some none ∧
        ((none ∉ (t.oftable p).set n0 (some f0) ∧
          ∃ u, closeFd (shutBoth (t.setSlots p ((t.oftable p).set n0 (some f0))) f0) p n0 = some u ∧
            closeFile u f1 = some s') ∨
        ∃ n1, ((t.oftable p).set n0 (some f0))[n1]? = some none ∧
          s' = (t.setSlots p ((t.oftable p).set n0 (some f0))).setSlots p
            (((t.oftable p).set n0 (some f0)).set n1 (some f1)))) := by
  simp only [pipe2, Option.bind_eq_bind, Option.bind_eq_some_iff] at hs
  obtain ⟨⟨f0, f1, t⟩, halloc, hs⟩ := hs
  refine ⟨f0, f1, t, halloc, ?_⟩
  dsimp only at hs
  cases h0 : fdalloc (t.oftable p) f0 with
  | none =>
    rw [h0] at hs
    obtain ⟨u, hu, hs⟩ := Option.bind_eq_some_iff.1 hs
    exact Or.inl ⟨fdalloc_none.1 h0, u, hu, hs⟩
  | some r0 =>
    obtain ⟨n0, slots⟩ := r0
    obtain ⟨hn0, rfl⟩ := fdalloc_some h0
    rw [h0] at hs
    have hself : (t.setSlots p ((t.oftable p).set n0 (some f0))).oftable p = (t.oftable p).set n0 (some f0) :=
      update_self ..
    simp only [hself] at hs
    refine Or.inr ⟨n0, hn0, ?_⟩
    cases h1 : fdalloc ((t.oftable p).set n0 (some f0)) f1 with
    | none =>
      rw [h1] at hs
      obtain ⟨u, hu, hs⟩ := Option.bind_eq_some_iff.1 hs
      exact Or.inl ⟨fdalloc_none.1 h1, u, hu, hs⟩
    | some r1 =>
      obtain ⟨n1, slots⟩ := r1
      obtain ⟨hn1, rfl⟩ := fdalloc_some h1
      rw [h1] at hs
      exact Or.inr ⟨n1, hn1, (Option.some.inj hs).symm⟩

/-- with two free descriptors, `pipe2` succeeds -/
theorem pipe2_roomy (hroom : 2 ≤ (s.oftable p).count none) (hs : pipe2 s p a = some s') :
    ∃ f0 f1 n0 n1 t, pipeAlloc s a = some (f0, f1, t) ∧ (t.oftable p)[n0]? = some none ∧
      ((t.oftable p).set n0 (some f0))[n1]? = some none ∧
      s' = (t.setSlots p ((t.oftable p).set n0 (some f0))).setSlots p (((t.oftable p).set n0 (some f0)).set n1 (some f1)) := by
  obtain ⟨f0, f1, t, halloc, hcases⟩ := pipe2_cases hs
  have hof : t.oftable = s.oftable := by rw [(pipeAlloc_some halloc).2.2.2.2]; rfl
  rcases hcases with ⟨hfull, -⟩ | ⟨n0, hn0, ⟨hfull, -⟩ | ⟨n1, hn1, hs'⟩⟩
  · rw [hof, ← List.count_eq_zero] at hfull
    omega
  · obtain ⟨hlt, hget⟩ := List.getElem?_eq_some_iff.1 hn0
    rw [← List.count_eq_zero, List.count_set hlt, hget, hof] at hfull
    simp at hfull
    omega
  · exact ⟨f0, f1, n0, n1, t, halloc, hn0, hn1, hs'⟩

/-- `dup` does nothing, or gives a file one more descriptor -/
theorem dup_cases (hs : dup s p fd = some s') :
    s' = s ∨ ∃ i n, some i ∈ s.oftable p ∧ (s.oftable p)[n]? = some none ∧
      s' = dupFile (s.setSlots p ((s.oftable p).set n (some i))) i := by
  unfold dup at hs
  split_ifs at hs with hrange
  · exact Or.inl (Option.some.inj hs).symm
  · cases hslot : (s.oftable p).getD fd.toNat none with
    | none =>
      rw [hslot] at hs
      exact Or.inl (Option.some.inj hs).symm
    | some i =>
      rw [hslot] at hs
      dsimp only at hs
      cases hfd : fdalloc (s.oftable p) i with
      | none =>
        rw [hfd] at hs
        exact Or.inl (Option.some.inj hs).symm
      | some r =>
        obtain ⟨n, slots⟩ := r
        obtain ⟨hn, rfl⟩ := fdalloc_some hfd
        rw [hfd] at hs
        exact Or.inr ⟨i, n, List.mem_of_getElem? (getElem?_of_getD hslot), hn, (Option.some.inj hs).symm⟩

/-- `openat` does nothing, closes the entry again for want of a descriptor, or sets it up -/
theorem openat_cases (hs : openat s p ip omode = some s') :
    s' = s ∨ ∃ f, fileAlloc s.table = some f ∧ (s.table f).ref = 0 ∧
      ((ip ≠ 0 ∧ none ∉ s.oftable p ∧ closeFile (s.setFile f (refTo (s.table f) 1)) f = some s') ∨
        ∃ n, (s.oftable p)[n]? = some none ∧
          s' = (s.setFile f (initInode (refTo (s.table f) 1) ip omode)).setSlots p ((s.oftable p).set n (some f))) := by
  unfold openat at hs
  split_ifs at hs with hip
  · exact Or.inl (Option.some.inj hs).symm
  · obtain ⟨⟨f, t⟩, halloc, hs⟩ := Option.bind_eq_some_iff.1 hs
    obtain ⟨hf, href, rfl⟩ := allocFile_some halloc
    refine Or.inr ⟨f, hf, href, ?_⟩
    change (match fdalloc (s.oftable p) f with | none => _ | some (_, slots) => _) = _ at hs
    cases hfd : fdalloc (s.oftable p) f with
    | none =>
      rw [hfd] at hs
      exact Or.inl ⟨hip, fdalloc_none.1 hfd, hs⟩
    | some r =>
      obtain ⟨n, slots⟩ := r
      obtain ⟨hn, rfl⟩ := fdalloc_some hfd
      rw [hfd] at hs
      refine Or.inr ⟨n, hn, (Option.some.inj hs).symm.trans ?_⟩
      simp only [Sys.setFile, Sys.setSlots, update_self, update_idem]

/-- the child's descriptors are some of the parent's, and every file counts those it has got -/
theorem forkLoop_spec (slots : List (Option ℕ)) (s : Sys) :
    (forkLoop slots s).2 =
      { s with table := fun j => refTo (s.table j) ((s.table j).ref + (forkLoop slots s).1.count (some j)) } ∧
    ∀ i, some i ∈ (forkLoop slots s).1 → some i ∈ slots := by
  induction slots generalizing s with
  | nil => simp [forkLoop, refTo]
  | cons x slots ih =>
    cases x with
    | none => simp [forkLoop, refTo, List.count_replicate, List.mem_replicate]
    | some i =>
      obtain ⟨hstate, hmem⟩ := ih (dupFile s i)
      refine ⟨?_, ?_⟩
      · simp only [forkLoop]
        rw [hstate]
        simp only [dupFile, Sys.setFile, Sys.mk.injEq, and_true]
        funext j
        by_cases hj : j = i
        · subst hj
          simp [refTo]
          ring
        · simp [refTo, hj, Ne.symm hj]
      · intro j hj
        rcases List.mem_cons.1 hj with hj | hj
        · exact hj ▸ List.mem_cons_self
        · exact List.mem_cons_of_mem _ (hmem j hj)

/-! ### Counts -/

/-- every entry counts its descriptors and the references that the running call has in hand -/
def Balanced (s : Sys) (hand : List ℕ) : Prop := ∀ i, (s.table i).ref = refs s i + hand.count i

theorem balanced_nil : Balanced s [] ↔ Counted s := by simp [Balanced, Counted]

section Counts

variable {s s' : Sys} {hand : List ℕ} (h : Balanced s hand)
include h

theorem Balanced.congr (href : ∀ i, (s'.table i).ref = (s.table i).ref) (hof : s'.oftable = s.oftable)
    (hprocs : s'.procs = s.procs) : Balanced s' hand := by
  intro i
  have hrefs : refs s' i = refs s i := by simp only [refs, hof, hprocs]
  rw [href, hrefs, h i]

/-- an entry counts one reference more, which the call has in hand -/
theorem balanced_add (hf : f.ref = (s.table i).ref + 1) : Balanced (s.setFile i f) (i :: hand) := by
  intro j
  have hold := h j
  change _ = (refs s j : ℤ) + _
  by_cases hj : j = i
  · subst hj
    rw [setFile_self, List.count_cons_self]
    push_cast
    omega
  · rw [setFile_of_ne s _ hj, List.count_cons_of_ne (Ne.symm hj), hold]

theorem balanced_alloc (halloc : allocFile s = some (i, s')) : Balanced s' (i :: hand) := by
  obtain ⟨-, href, rfl⟩ := allocFile_some halloc
  exact balanced_add h (by rw [href]; rfl)

theorem balanced_close (hand' : List ℕ) (hi : hand = i :: hand') (hs : closeFile s i = some s') :
    Balanced s' hand' := by
  obtain ⟨hof, hprocs, href, hothers⟩ := closeFile_refs hs
  intro j
  have hold := h j
  have hrefs : refs s' j = refs s j := by simp only [refs, hof, hprocs]
  rw [hi] at hold
  rw [hrefs]
  by_cases hj : j = i
  · subst hj
    rw [List.count_cons_self] at hold
    push_cast at hold
    omega
  · rw [hothers j hj, hold, List.count_cons_of_ne (Ne.symm hj)]

/-- a reference in hand goes into a descriptor -/
theorem balanced_give (hp : p ∈ s.procs) (hn : (s.oftable p)[n]? = some none) (hand' : List ℕ)
    (hi : hand = i :: hand') : Balanced (s.setSlots p ((s.oftable p).set n (some i))) hand' := by
  intro j
  have hold := h j
  rw [refs_take hp hn i j]
  change (s.table j).ref = _
  rw [hold, hi, List.count_cons]
  by_cases hj : i = j <;> simp [hj]
  ring

theorem balanced_dup (i : ℕ) : Balanced (dupFile s i) (i :: hand) := balanced_add h rfl

theorem balanced_closeFd (hp : p ∈ s.procs) (hs : closeFd s p fd = some s') :
    Balanced s' hand ∧ s'.procs = s.procs := by
  rcases closeFd_cases hs with rfl | ⟨i, n, t, hslot, -, hclose, rfl⟩
  · exact ⟨h, rfl⟩
  · obtain ⟨hof, hprocs, href, hothers⟩ := closeFile_refs hclose
    refine ⟨fun j => ?_, hprocs⟩
    have hdrop := refs_drop (s := t) (p := p) (hprocs ▸ hp) (hof ▸ hslot) j
    have hrefs : refs t j = refs s j := by simp only [refs, hof, hprocs]
    have hold := h j
    change (t.table j).ref = _
    by_cases hj : j = i
    · subst hj
      rw [if_pos rfl] at hdrop
      omega
    · rw [if_neg (Ne.symm hj)] at hdrop
      rw [hothers j hj]
      omega

theorem balanced_pipeAlloc (halloc : pipeAlloc s a = some (f0, f1, s')) : Balanced s' (f1 :: f0 :: hand) := by
  obtain ⟨⟨i, s1⟩, h1, halloc⟩ := Option.bind_eq_some_iff.1 halloc
  obtain ⟨⟨j, s2⟩, h2, halloc⟩ := Option.bind_eq_some_iff.1 halloc
  split_ifs at halloc
  simp only [Option.some.injEq, Prod.mk.injEq] at halloc
  obtain ⟨rfl, rfl, rfl⟩ := halloc
  refine (balanced_alloc (balanced_alloc h h1) h2).congr (fun k => ?_) rfl rfl
  simp only [setPipe, Sys.setFile, update_apply, initEnd]
  split_ifs with hj hi
  · rw [hj]
  · rw [hi]
  · rfl

theorem balanced_shutBoth (f0 : ℕ) : Balanced (shutBoth s f0) hand := by
  refine h.congr (fun i => ?_) ?_ ?_ <;> simp only [shutBoth, pipeClose_table, pipeClose_oftable, pipeClose_procs]

end Counts

theorem counted_closeFd (h : Counted s) (hp : p ∈ s.procs) (hs : closeFd s p fd = some s') : Counted s' ∧ p ∈ s'.procs := by
  obtain ⟨hbal, hprocs⟩ := balanced_closeFd (balanced_nil.2 h) hp hs
  exact ⟨balanced_nil.1 hbal, hprocs ▸ hp⟩

theorem counted_pipe2 (h : Counted s) (hp : p ∈ s.procs) (hs : pipe2 s p a = some s') :
    Counted s' := by
  obtain ⟨f0, f1, t, halloc, hcases⟩ := pipe2_cases hs
  have hbal := balanced_pipeAlloc (balanced_nil.2 h) halloc
  have hprocs : t.procs = s.procs := by rw [(pipeAlloc_some halloc).2.2.2.2]; rfl
  have hswap : ∀ {u : Sys}, Balanced u [f1, f0] → Balanced u [f0, f1] := by
    intro u hu i
    rw [hu i, List.Perm.count_eq (List.Perm.swap f0 f1 [])]
  have hpt : p ∈ t.procs := hprocs ▸ hp
  rw [← balanced_nil]
  rcases hcases with ⟨-, u, hu, hs⟩ | ⟨n0, hn0, ⟨-, u, hu, hs⟩ | ⟨n1, hn1, rfl⟩⟩
  · exact balanced_close (balanced_close (balanced_shutBoth (hswap hbal) f0) [f1] rfl hu) [] rfl hs
  · have hgive := balanced_give (hswap hbal) hpt hn0 [f1] rfl
    have hp' : p ∈ (shutBoth (t.setSlots p ((t.oftable p).set n0 (some f0))) f0).procs := by
      simp only [shutBoth, pipeClose_procs]
      exact hpt
    exact balanced_close (balanced_closeFd (balanced_shutBoth hgive f0) hp' hu).1 [] rfl hs
  · have hgive := balanced_give (hswap hbal) hpt hn0 [f1] rfl
    have hself : (t.setSlots p ((t.oftable p).set n0 (some f0))).oftable p = (t.oftable p).set n0 (some f0) :=
      update_self ..
    have hgive' := balanced_give (p := p) hgive hpt (by rw [hself]; exact hn1) [] rfl
    rwa [hself] at hgive'

theorem counted_dup (h : Counted s) (hp : p ∈ s.procs) (hs : dup s p fd = some s') :
    Counted s' := by
  rcases dup_cases hs with rfl | ⟨i, n, -, hn, rfl⟩
  · exact h
  · exact balanced_nil.1 (balanced_give (balanced_dup (balanced_nil.2 h) i) hp hn [] rfl)

theorem counted_openat (h : Counted s) (hp : p ∈ s.procs)
    (hs : openat s p ip omode = some s') : Counted s' := by
  rcases openat_cases hs with rfl | ⟨f, hf, href, hcases⟩
  · exact h
  · have halloc : allocFile s = some (f, s.setFile f (refTo (s.table f) 1)) := by
      rw [allocFile, hf]
      rfl
    have hbal := balanced_alloc (balanced_nil.2 h) halloc
    rw [← balanced_nil]
    rcases hcases with ⟨-, -, hclose⟩ | ⟨n, hn, rfl⟩
    · exact balanced_close hbal [] rfl hclose
    · refine (balanced_give hbal hp hn [] rfl).congr (fun i => ?_) rfl rfl
      simp only [Sys.setSlots, Sys.setFile, update_apply]
      split_ifs <;> rfl

theorem counted_fork (h : Counted s) (hs : fork s p child = some s') : Counted s' := by
  unfold fork at hs
  split_ifs at hs with hnew
  obtain ⟨hstate, -⟩ := forkLoop_spec (s.oftable p) s
  set slots := (forkLoop (s.oftable p) s).1
  dsimp only at hs
  rw [hstate] at hs
  refine Option.some.inj hs ▸ fun j => ?_
  change (s.table j).ref + slots.count (some j) =
    ((∑ q ∈ insert child s.procs, (update s.oftable child slots q).count (some j) : ℕ) : ℤ)
  have hothers : ∑ q ∈ s.procs, (update s.oftable child slots q).count (some j) = refs s j := by
    refine Finset.sum_congr rfl fun q hq => ?_
    have hne : q ≠ child := fun heq => hnew (heq ▸ hq)
    rw [update_of_ne hne]
  rw [Finset.sum_insert hnew, update_self, hothers, h j]
  push_cast
  ring

/-- counts are numbers of descriptors, whatever the calls find -/
theorem counted_step (h : Counted s) (hs : step s c = some s') : Counted s' := by
  obtain ⟨⟨hp, -⟩, hs⟩ := Option.ite_none_right_eq_some.1 hs
  obtain ⟨p, call⟩ := c
  cases call with
  | pipe2 a => exact counted_pipe2 h hp hs
  | dup fd => exact counted_dup h hp hs
  | fork child => exact counted_fork h hs
  | close fd => exact (counted_closeFd h hp hs).1
  | openat ip omode => exact counted_openat h hp hs
  | exit =>
    obtain ⟨t, ht, rfl⟩ := Option.map_eq_some_iff.1 hs
    obtain ⟨hcounted, -⟩ := freeOftable_keeps (P := fun s => Counted s ∧ p ∈ s.procs)
      (fun h hs => counted_closeFd h.1 h.2 hs) nofile 0 ⟨h, hp⟩ ht
    exact hcounted

theorem ref_pos (h : Counted s) (hp : p ∈ s.procs) (hi : some i ∈ s.oftable p) :
    0 < (s.table i).ref := by
  have hpos := List.count_pos_iff.2 hi
  have hle := count_le_refs hp i
  rw [h i]
  omega

/-! ### Ends -/

section Calls

variable {s s' : Sys} (h : Inv s) {p : ℕ} (hp : p ∈ s.procs)
include h hp

omit hp in
theorem ends_closeFd (hs : closeFd s p fd = some s') : Ends s' := by
  rcases closeFd_cases hs with rfl | ⟨i, n, t, hslot, -, hclose, rfl⟩
  · exact h.ends
  · exact (ends_closeFile h.ends hclose).setSlots _ _

theorem ends_exit (hs : exit s p = some s') : Ends s' := by
  obtain ⟨t, ht, rfl⟩ := Option.map_eq_some_iff.1 hs
  obtain ⟨⟨hends, -⟩, -⟩ := freeOftable_keeps (P := fun s => Inv s ∧ p ∈ s.procs)
    (fun h hs => (counted_closeFd h.1.counted h.2 hs).imp_left fun hc => ⟨ends_closeFd h.1 hs, hc⟩) nofile 0 ⟨h, hp⟩ ht
  exact hends.frame (fun _ => rfl) hends.free rfl rfl rfl

omit hp in
theorem ends_pipe2 (hroom : 2 ≤ (s.oftable p).count none) (hs : pipe2 s p a = some s') : Ends s' := by
  obtain ⟨f0, f1, n0, n1, t, halloc, hn0, hn1, rfl⟩ := pipe2_roomy hroom hs
  obtain ⟨h01, href0, href1, hheap, rfl⟩ := pipeAlloc_some halloc
  refine ((h.ends.create h01 hheap (endOf_none (Or.inl href0.le)) (endOf_none (Or.inl href1.le)) ?_ ?_).setSlots
    _ _).setSlots _ _
  · exact endOf_some.2 ⟨one_pos, rfl, rfl, rfl⟩
  · exact endOf_some.2 ⟨one_pos, rfl, rfl, rfl⟩

theorem ends_dup (hs : dup s p fd = some s') : Ends s' := by
  rcases dup_cases hs with rfl | ⟨i, n, hmem, hn, rfl⟩
  · exact h.ends
  · have hpos := ref_pos h.counted hp hmem
    refine (h.ends.setSlots _ _).setFile ?_ ?_
    · have hpos' : 0 < (s.table i).ref + 1 := by omega
      simp [endOf, refTo, Sys.setSlots, hpos, hpos']
    · intro hzero
      simp only [refTo, Sys.setSlots] at hzero
      omega

omit hp in
theorem ends_openat (hroom : Roomy s (p, .openat ip omode)) (hs : openat s p ip omode = some s') :
    Ends s' := by
  rcases openat_cases hs with rfl | ⟨f, hf, href, ⟨hip, hfull, hclose⟩ | ⟨n, hn, rfl⟩⟩
  · exact h.ends
  · have htype := hroom hip hfull f hf
    have hends : Ends (s.setFile f (refTo (s.table f) 1)) := by
      refine h.ends.setFile ?_ (by simp [refTo])
      have hnew : endOf (refTo (s.table f) 1) = none := endOf_none (Or.inr htype)
      rw [hnew, endOf_none (Or.inr htype)]
    exact ends_closeFile hends hclose
  · refine (h.ends.setFile ?_ (by simp [initInode, refTo])).setSlots _ _
    rw [endOf_none (Or.inl href.le), endOf_none (Or.inr (by simp [initInode]))]

theorem ends_fork (hs : fork s p child = some s') : Ends s' := by
  unfold fork at hs
  split_ifs at hs with hnew
  obtain ⟨hstate, hsub⟩ := forkLoop_spec (s.oftable p) s
  set slots := (forkLoop (s.oftable p) s).1
  dsimp only at hs
  rw [hstate] at hs
  refine Option.some.inj hs ▸ h.ends.frame ?_ ?_ rfl rfl rfl
  · intro j
    change endOf (refTo (s.table j) ((s.table j).ref + slots.count (some j))) = endOf (s.table j)
    by_cases hmem : some j ∈ slots
    · have hpos := ref_pos h.counted hp (hsub j hmem)
      have hpos' : 0 < (s.table j).ref + slots.count (some j) := by omega
      simp [endOf, refTo, hpos, hpos']
    · rw [List.count_eq_zero.2 hmem]
      simp [refTo]
  · intro j
    change (s.table j).ref + slots.count (some j) = 0 → (s.table j).type ≠ .inode
    intro hzero
    have hold := h.counted j
    exact h.ends.free j (by omega)

end Calls

theorem inv_step (h : Inv s) (hroom : Roomy s c) (hs : step s c = some s') : Inv s' := by
  refine ⟨?_, counted_step h.counted hs⟩
  obtain ⟨⟨hp, -⟩, hs⟩ := Option.ite_none_right_eq_some.1 hs
  obtain ⟨p, call⟩ := c
  cases call with
  | pipe2 a => exact ends_pipe2 h hroom hs
  | dup fd => exact ends_dup h hp hs
  | fork child => exact ends_fork h hp hs
  | close fd => exact ends_closeFd h hs
  | openat ip omode => exact ends_openat h hroom hs
  | exit => exact ends_exit h hp hs

/-! ## Free entries -/

/-- an entry that is not in use carries no object -/
def Bare (s : Sys) : Prop := ∀ i, (s.table i).ref = 0 → (s.table i).type = .none

/-- process p has not all the descriptors of any pipe end -/
def Shares (s : Sys) (p : ℕ) : Prop :=
  ∀ i, some i ∈ s.oftable p → (s.table i).type = .pipe → (s.oftable p).count (some i) < (s.table i).ref

/-- the call does not drop the last reference to a pipe end -/
def KeepsPipes (s : Sys) : ℕ × Syscall → Prop
  | (p, .close fd) => ∀ i n : ℕ, fd = n → (s.oftable p)[n]? = some (some i) → (s.table i).type = .pipe → (s.table i).ref ≠ 1
  | (p, .exit) => Shares s p
  | _ => True

theorem Bare.setFile (h : Bare s) (hf : f.ref = 0 → f.type = .none) : Bare (s.setFile i f) := by
  intro j
  by_cases hj : j = i
  · rw [hj, setFile_self]; exact hf
  · rw [setFile_of_ne s f hj]; exact h j

theorem bare_closeFile (h : Bare s) (hlast : (s.table i).type = .pipe → (s.table i).ref ≠ 1)
    (hs : closeFile s i = some s') : Bare s' := by
  rcases closeFile_cases hs with ⟨hmore, rfl⟩ | ⟨hone, ht, rfl⟩ | ⟨hone, ht, rfl⟩ | ⟨hone, ht, rfl⟩
  · exact h.setFile fun hzero => by dsimp only at hzero; omega
  · exact h.setFile fun _ => rfl
  · exact absurd hone (hlast ht)
  · exact h.setFile fun _ => ht

/-- a file that is closed keeps being a pipe only if it was one -/
theorem closeFile_pipe (hs : closeFile s i = some s') (ht : (s'.table i).type = .pipe) :
    (s.table i).type = .pipe := by
  rcases closeFile_cases hs with ⟨-, rfl⟩ | ⟨-, -, rfl⟩ | ⟨-, hpipe, -⟩ | ⟨-, -, rfl⟩
  · rwa [setFile_self] at ht
  · rw [setFile_self] at ht
    cases ht
  · exact hpipe
  · rwa [setFile_self] at ht

/-- a round of `free_oftable` -/
theorem shares_closeFd (h : Bare s) (hshare : Shares s p) (hs : closeFd s p fd = some s') :
    Bare s' ∧ Shares s' p := by
  rcases closeFd_cases hs with rfl | ⟨i, n, t, hslot, -, hclose, rfl⟩
  · exact ⟨h, hshare⟩
  · obtain ⟨hof, -, href, hothers⟩ := closeFile_refs hclose
    have hmem : some i ∈ s.oftable p := List.mem_of_getElem? hslot
    have hpos := List.count_pos_iff.2 hmem
    have hlast : (s.table i).type = .pipe → (s.table i).ref ≠ 1 := by
      intro ht
      have := hshare i hmem ht
      omega
    have hbare : Bare t := bare_closeFile h hlast hclose
    refine ⟨hbare, fun j hj ht => ?_⟩
    have hcount := count_set_none j hslot
    simp only [Sys.setSlots, update_self, hof] at hj ht ⊢
    have hj' : some j ∈ s.oftable p := by
      have := List.count_pos_iff.2 hj
      exact List.count_pos_iff.1 (by omega)
    by_cases hji : j = i
    · subst hji
      have := hshare j hj' (closeFile_pipe hclose ht)
      rw [if_pos rfl] at hcount
      omega
    · rw [hothers j hji] at ht ⊢
      have := hshare j hj' ht
      rw [if_neg (Ne.symm hji)] at hcount
      omega

theorem bare_step (hinv : Inv s) (h : Bare s) (hroom : Roomy s c) (hkeep : KeepsPipes s c)
    (hs : step s c = some s') : Bare s' := by
  obtain ⟨⟨hp, -⟩, hs⟩ := Option.ite_none_right_eq_some.1 hs
  obtain ⟨p, call⟩ := c
  cases call with
  | pipe2 a =>
    obtain ⟨f0, f1, n0, n1, t, halloc, -, -, rfl⟩ := pipe2_roomy hroom hs
    obtain ⟨-, -, -, -, rfl⟩ := pipeAlloc_some halloc
    exact (h.setFile (i := f0) (f := initEnd (refTo (s.table f0) 1) a false) (by simp [initEnd, refTo])).setFile
      (by simp [initEnd, refTo])
  | dup fd =>
    rcases dup_cases hs with rfl | ⟨i, n, hmem, -, rfl⟩
    · exact h
    · have hpos := ref_pos hinv.counted hp hmem
      refine Bare.setFile (s := s.setSlots p _) h fun hzero => ?_
      simp only [refTo, Sys.setSlots] at hzero
      omega
  | fork child =>
    simp only [fork] at hs
    split_ifs at hs with hnew
    obtain ⟨hstate, -⟩ := forkLoop_spec (s.oftable p) s
    rw [hstate] at hs
    refine Option.some.inj hs ▸ fun j => ?_
    change (s.table j).ref + _ = 0 → (s.table j).type = .none
    intro hzero
    have hold := hinv.counted j
    exact h j (by omega)
  | close fd =>
    rcases closeFd_cases hs with rfl | ⟨i, n, t, hslot, hfd, hclose, rfl⟩
    · exact h
    · have hbare : Bare t := bare_closeFile h (hkeep i n hfd hslot) hclose
      exact hbare
  | openat ip omode =>
    rcases openat_cases hs with rfl | ⟨f, -, href, ⟨-, -, hclose⟩ | ⟨n, -, rfl⟩⟩
    · exact h
    · refine bare_closeFile (h.setFile (by simp [refTo])) (fun ht => ?_) hclose
      rw [setFile_self] at ht
      exact absurd ((h f href).symm.trans ht) (by simp)
    · exact h.setFile (f := initInode (refTo (s.table f) 1) ip omode) (by simp [initInode, refTo])
  | exit =>
    obtain ⟨t, ht, rfl⟩ := Option.map_eq_some_iff.1 hs
    obtain ⟨hbare, -⟩ := freeOftable_keeps (P := fun s => Bare s ∧ Shares s p) (fun h hs => shares_closeFd h.1 h.2 hs)
      nofile 0 ⟨h, hkeep⟩ ht
    exact hbare

/-! ## Runs -/

/-- some descriptor leads to the entry of end w of pipe k -/
def EndHeld (s : Sys) (k : ℕ) (w : Bool) : Prop :=
  ∃ i pi, 0 < refs s i ∧ (s.table i).type = .pipe ∧ (s.table i).writable = w ∧ s.heap (s.table i).obj = some pi ∧ pi.id = k

/-- **Pipe ends are closed once.** In every run whose calls are roomy: counts are numbers of descriptors; each end of each pipe
created has been closed once if no descriptor of its entry is left, and not at all otherwise; and no freed pipe was closed. If
no call drops the last reference to a pipe end, entries that are not in use carry no object. -/
theorem pipe_ends_closed_once (procs : Finset ℕ) (calls : List (ℕ × Syscall)) (s : Sys)
    (hm : Meets step Roomy (init procs) calls) (hr : run step (init procs) calls = some s) :
    (∀ i, (s.table i).ref = refs s i) ∧
    (∀ k w, k < s.made → (EndHeld s k w → s.closes.count (some k, w) = 0) ∧
      (¬ EndHeld s k w → s.closes.count (some k, w) = 1)) ∧
    (∀ w, (none, w) ∉ s.closes) ∧
    (Meets step KeepsPipes (init procs) calls → ∀ i, (s.table i).ref = 0 → (s.table i).type = .none) := by
  have hinit : Inv (init procs) := ⟨ends_init procs, counted_init procs⟩
  have h : Inv s := run_invariant (fun _ _ _ hI hC hs => inv_step hI hC hs) hinit hm hr
  refine ⟨h.counted, fun k w hk => ⟨?_, ?_⟩, h.ends.allocated, fun hk => ?_⟩
  · rintro ⟨i, pi, hpos, ht, hw, hpi, hid⟩
    have href := h.counted i
    obtain ⟨l, pi', hpi', rfl, hisOpen⟩ := h.ends.opened i ((s.table i).obj, w) (endOf_some.2 ⟨by omega, ht, rfl, hw⟩)
    obtain rfl := Option.some.inj (hpi.symm.trans hpi')
    exact List.count_eq_zero.2 (h.ends.unlogged _ w k ⟨pi, hpi, hid, hisOpen⟩)
  · intro hnot
    rcases h.ends.logged k w hk with ⟨a, hopen⟩ | hmem
    · obtain ⟨i, hi⟩ := h.ends.held _ k hopen
      obtain ⟨hpos, ht, hobj, hw⟩ := endOf_some.1 hi
      obtain ⟨pi, hpi, hid, -⟩ := hopen
      have href := h.counted i
      exact absurd ⟨i, pi, by omega, ht, hw, hobj ▸ hpi, hid⟩ hnot
    · exact List.count_eq_one_of_mem h.ends.once hmem
  · have hboth : Inv s ∧ Bare s := run_invariant (I := fun s => Inv s ∧ Bare s)
      (fun _ _ _ hI hC hs => ⟨inv_step hI.1 hC.1 hs, bare_step hI.1 hI.2 hC.1 hC.2 hs⟩) ⟨hinit, fun _ _ => rfl⟩ (hm.and hk) hr
    exact hboth.2

instance (s : Sys) : (c : ℕ × Syscall) → Decidable (Roomy s c)
  | (_, .pipe2 _) => inferInstanceAs (Decidable (_ ≤ _))
  | (_, .openat _ _) => inferInstanceAs (Decidable (_ → _ → ∀ i ∈ fileAlloc s.table, _))
  | (_, .dup _) | (_, .fork _) | (_, .close _) | (_, .exit) => inferInstanceAs (Decidable True)

/-- a pipe is shared with a child; both processes exit, and each end has been closed once -/
theorem pipe_ends_closed_once_forked : ∃ s, run step (init {0}) [(0, .pipe2 5), (0, .fork 1), (0, .exit), (1, .exit)] = some s ∧
    s.closes = [(some 0, true), (some 0, false)] ∧ ∀ w, (none, w) ∉ s.closes := by
  obtain ⟨s, hm, hr, hcloses⟩ : ∃ s, Meets step Roomy (init {0}) [(0, .pipe2 5), (0, .fork 1), (0, .exit), (1, .exit)] ∧
      run step (init {0}) [(0, .pipe2 5), (0, .fork 1), (0, .exit), (1, .exit)] = some s ∧
      s.closes = [(some 0, true), (some 0, false)] := guarded_computes (by decide +kernel)
  exact ⟨s, hr, hcloses, (pipe_ends_closed_once {0} _ s hm hr).2.2.1⟩

/-- process 0 opens a file n times -/
def opens (n : ℕ) : List (ℕ × Syscall) := List.replicate n (0, .openat 7 0)

/-- **Pipes closed again.** `pipe2` without a free descriptor, or with one, closes both ends and then closes both entries,
whose pipe is freed by then. An `openat` without a free descriptor gets the entry of a closed pipe end and closes that end
again; if the other end was closed too, the pipe is freed by then. And the entry of a closed end still is a pipe. -/
theorem pipe_closed_again :
    (∃ s, run step (init {0}) (opens 64 ++ [(0, .pipe2 5)]) = some s ∧
      s.closes = [(none, true), (none, false), (some 0, true), (some 0, false)]) ∧
    (∃ s, run step (init {0}) (opens 63 ++ [(0, .pipe2 5)]) = some s ∧
      s.closes = [(none, true), (none, false), (some 0, true), (some 0, false)]) ∧
    (∃ s, run step (init {0}) ((0, .pipe2 5) :: opens 62 ++ [(0, .close 0), (0, .dup 2), (0, .openat 7 0)]) = some s ∧
      s.closes = [(some 0, false), (some 0, false)]) ∧
    (∃ s, run step (init {0}) ((0, .pipe2 5) :: opens 62 ++
        [(0, .close 0), (0, .close 1), (0, .dup 2), (0, .dup 2), (0, .openat 7 0)]) = some s ∧
      s.closes = [(none, false), (some 0, true), (some 0, false)]) ∧
    ∃ s, run step (init {0}) [(0, .pipe2 5), (0, .close 0)] = some s ∧ (s.table 0).ref = 0 ∧ (s.table 0).type = .pipe :=
  ⟨run_computes (by decide +kernel), run_computes (by decide +kernel), run_computes (by decide +kernel),
    run_computes (by decide +kernel), run_computes (by decide +kernel)⟩

end OsKernel.Kernel.PipeEnds
