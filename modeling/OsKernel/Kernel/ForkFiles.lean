/-
What a forked child gets of its parent's files (`fork` and `init_proc` in `kernel/proc.c`).

The descriptor tables and the file table are those of `PipeEnds`, with its model of the loop that copies the descriptors.
Added here: the files of the sections, the current directories and the reference counts of the inodes. A new process starts in
the root directory and holds a reference to it; `fork` exchanges that for one to the directory of the parent, unless the two are
the same.

Result (`fork_duplicates`): the child gets the parent's table, every file counts the slots that hold it, and the parent's
directory gains one reference, if and only if the parent uses a first part of its table and no section of it has a file. The loop
ends at the first free slot, so a descriptor behind a free slot is not copied; the file of a section is duplicated for the
child's section as well (`fork_stops_at_gap`).
-/
import OsKernel.Kernel.PipeEnds

namespace OsKernel.Kernel.ForkFiles

open OsKernel.Kernel.PipeEnds (dupFile forkLoop refTo forkLoop_spec)
open Function (update update_eq_self update_idem update_of_ne update_self)

/-- an in-memory inode; `cached` while it is on the list of `inode_get` -/
structure Inode where
  rc : ℤ
  numLinks : ℕ
  cached : Bool
deriving DecidableEq, Repr

structure Sys where
  /-- descriptors and files -/
  files : PipeEnds.Sys
  /-- `fp` of each section, by process -/
  fps : ℕ → List (Option ℕ)
  /-- `cwd`, by process; 0 is NULL -/
  cwd : ℕ → ℕ
  /-- by address -/
  inode : ℕ → Inode
  /-- `inodes.root` -/
  root : ℕ

/-- `inode_share` -/
def inodeShare (s : Sys) (ip : ℕ) : Sys :=
  { s with inode := update s.inode ip { s.inode ip with rc := (s.inode ip).rc + 1 } }

/-- `inode_put`: the count, and whether the inode goes away -/
def inodePut (s : Sys) (ip : ℕ) : Sys :=
  if (s.inode ip).rc = 1 ∧ (s.inode ip).numLinks = 0 then
    { s with inode := update s.inode ip { s.inode ip with rc := 0, cached := false } }
  else { s with inode := update s.inode ip { s.inode ip with rc := (s.inode ip).rc - 1 } }

/-- `init_proc`: the directory of the new process -/
def initProc (s : Sys) (child : ℕ) : Sys :=
  if s.root = 0 then { s with cwd := update s.cwd child 0 }
  else { inodeShare s s.root with cwd := update s.cwd child s.root }

/-- `fork`: the directory of the child; none for an access through a null pointer -/
def forkCwd (s : Sys) (p child : ℕ) : Option Sys :=
  if s.cwd child = s.cwd p then some s
  else if s.cwd child = 0 ∨ s.cwd p = 0 then none
  else
    let s := inodePut s (s.cwd child)
    some { inodeShare s (s.cwd p) with cwd := update s.cwd child (s.cwd p) }

/-- `if (sec->fp) new_sec->fp = file_dup(sec->fp)` -/
def dupFp (s : PipeEnds.Sys) : Option ℕ → PipeEnds.Sys
  | some i => dupFile s i
  | none => s

/-- the loop of `fork` over the sections; a new section is put in front of the others -/
def forkSections (s : Sys) (p child : ℕ) : Sys :=
  { s with files := (s.fps p).foldl dupFp s.files, fps := update s.fps child (s.fps p).reverse }

/-- `fork`, as far as files go -/
def fork (s : Sys) (p child : ℕ) : Option Sys := do
  let s ← forkCwd (forkSections (initProc s child) p child) p child
  let files ← PipeEnds.fork s.files p child
  some { s with files }

/-! ## The loop over the descriptors -/

/-- no descriptor in use behind a free one -/
def NoGap (slots : List (Option ℕ)) : Prop := ∀ i j : ℕ, i < j → slots[i]? = some none → slots[j]?.join = none

/-- the loop copies the whole table if there is no gap, and only then -/
theorem forkLoop_copies_iff (slots : List (Option ℕ)) (s : PipeEnds.Sys) : (forkLoop slots s).1 = slots ↔ NoGap slots := by
  induction slots generalizing s with
  | nil => exact iff_of_true rfl fun _ _ _ hi => by cases hi
  | cons x slots ih =>
    cases x with
    | none =>
      -- the first slot is free, and so are to be all others
      rw [forkLoop, List.replicate_succ]
      constructor
      · intro h i j _ _
        have hall := (List.cons.inj h).2
        rw [← hall, ← List.replicate_succ, List.getElem?_replicate]
        split_ifs <;> rfl
      · intro h
        refine congrArg (none :: ·) (List.eq_replicate_iff.2 ⟨rfl, fun y hy => ?_⟩).symm
        obtain ⟨j, hj⟩ := List.mem_iff_getElem?.1 hy
        have hfree := h 0 (j + 1) (Nat.succ_pos j) rfl
        rwa [List.getElem?_cons_succ, hj] at hfree
    | some i =>
      have hrest : NoGap (some i :: slots) ↔ NoGap slots := by
        refine ⟨fun h j k hjk hj => h (j + 1) (k + 1) (Nat.succ_lt_succ hjk) hj, fun h j k hjk hj => ?_⟩
        cases j with
        | zero => cases hj
        | succ j =>
          obtain ⟨k, rfl⟩ : ∃ k', k = k' + 1 := ⟨k - 1, by omega⟩
          exact h j k (by omega) hj
      rw [hrest, ← ih (dupFile s i), forkLoop, List.cons_inj_right]

/-- `file_dup` once for every section with a file -/
theorem dupFp_spec (fps : List (Option ℕ)) (s : PipeEnds.Sys) :
    fps.foldl dupFp s = { s with table := fun i => refTo (s.table i) ((s.table i).ref + fps.count (some i)) } := by
  induction fps generalizing s with
  | nil => simp [refTo]
  | cons x fps ih =>
    rw [List.foldl_cons, ih]
    cases x with
    | none => simp [dupFp]
    | some i =>
      simp only [dupFp, dupFile, PipeEnds.Sys.setFile, PipeEnds.Sys.mk.injEq, and_true]
      funext j
      by_cases hj : j = i
      · subst hj
        simp [refTo]
        ring
      · simp [refTo, hj, Ne.symm hj]

/-- `file_dup` once for every slot copied, and the tables of the others as they were -/
theorem fork_files {s : PipeEnds.Sys} {p child : ℕ} (hchild : child ∉ s.procs) : ∃ s', PipeEnds.fork s p child = some s' ∧
    s'.oftable = update s.oftable child (forkLoop (s.oftable p) s).1 ∧
      ∀ i, s'.table i = refTo (s.table i) ((s.table i).ref + (forkLoop (s.oftable p) s).1.count (some i)) := by
  rw [PipeEnds.fork, if_neg hchild]
  obtain ⟨hstate, -⟩ := forkLoop_spec (s.oftable p) s
  exact ⟨_, rfl, by rw [hstate]; rfl, fun i => by rw [hstate]; rfl⟩

/-! ## The directory -/

/-- the file system is mounted: `init_inodes` has got the root and keeps it -/
def Mounted (s : Sys) : Prop := s.root ≠ 0 ∧ 0 < (s.inode s.root).rc

/-- one reference more to the parent's directory, none to any other, and no inode gone -/
theorem forkCwd_eq {s : Sys} {p child : ℕ} (hm : Mounted s) (hp : p ≠ child) (hcwd : s.cwd p ≠ 0) :
    forkCwd (forkSections (initProc s child) p child) p child = some { forkSections s p child with
      cwd := update s.cwd child (s.cwd p)
      inode := update s.inode (s.cwd p) { s.inode (s.cwd p) with rc := (s.inode (s.cwd p)).rc + 1 } } := by
  obtain ⟨hroot, hrc⟩ := hm
  have hparent : update s.cwd child s.root p = s.cwd p := update_of_ne hp _ _
  by_cases hsame : s.root = s.cwd p
  · -- the reference of `init_proc` is the one the child keeps
    simp only [forkCwd, forkSections, initProc, if_neg hroot, inodeShare, update_self, hparent, if_pos hsame]
    rw [hsame]
  · -- what `init_proc` took of the root is put back
    have hnotlast : ¬ ((s.inode s.root).rc + 1 = 1 ∧ (s.inode s.root).numLinks = 0) := by omega
    simp only [forkCwd, forkSections, initProc, inodeShare, update_self, hparent, if_neg hsame,
      inodePut, if_neg hnotlast, hroot, hcwd, or_self, if_false, update_idem, add_sub_cancel_right,
      update_eq_self]

/-- the child has the parent's table, every file counts one more reference for each slot that holds it, the child is in the
parent's directory, which has one more reference, and nothing else has changed: neither other tables and directories nor other
inodes -/
structure Duplicated (s : Sys) (p child : ℕ) (s' : Sys) : Prop where
  slots : ∀ fd : ℕ, (s'.files.oftable child)[fd]? = (s.files.oftable p)[fd]?
  refs : ∀ i, s'.files.table i = refTo (s.files.table i) ((s.files.table i).ref + (s.files.oftable p).count (some i))
  cwd : s'.cwd child = s.cwd p
  inode : s'.inode = update s.inode (s.cwd p) { s.inode (s.cwd p) with rc := (s.inode (s.cwd p)).rc + 1 }
  others : ∀ q, q ≠ child → s'.files.oftable q = s.files.oftable q ∧ s'.cwd q = s.cwd q

/-- **fork duplicates the descriptors** if and only if the parent uses a first part of its table and no section of it has a file.
In any case a file gains one reference for each slot and each section of the child that holds it. -/
theorem fork_duplicates {s : Sys} {p child : ℕ} (hm : Mounted s) (hcwd : s.cwd p ≠ 0) (hp : p ∈ s.files.procs)
    (hchild : child ∉ s.files.procs) :
    ∃ s', fork s p child = some s' ∧
      (∀ i, (s'.files.table i).ref =
        (s.files.table i).ref + (s'.fps child).count (some i) + (s'.files.oftable child).count (some i)) ∧
      (Duplicated s p child s' ↔ NoGap (s.files.oftable p) ∧ ∀ i, some i ∉ s.fps p) := by
  have hne : p ≠ child := fun h => hchild (h ▸ hp)
  have hfiles : (forkSections s p child).files = _ := dupFp_spec (s.fps p) s.files
  obtain ⟨files, hf, htab, href⟩ := fork_files (p := p) (hfiles ▸ hchild : child ∉ (forkSections s p child).files.procs)
  simp only [hfiles] at htab href
  set copied := (forkLoop (s.files.oftable p)
    { s.files with table := fun i => refTo (s.files.table i) ((s.files.table i).ref + (s.fps p).count (some i)) }).1 with hcopied
  refine ⟨{ forkSections s p child with
    files
    cwd := update s.cwd child (s.cwd p)
    inode := update s.inode (s.cwd p) { s.inode (s.cwd p) with rc := (s.inode (s.cwd p)).rc + 1 } }, ?_, fun i => ?_, ?_⟩
  · rw [fork, forkCwd_eq hm hne hcwd]
    simp only [Option.bind_eq_bind, Option.bind_some, hf]
  · simp only [href, htab, forkSections, update_self, refTo, List.count_reverse]
  · constructor
    · intro h
      have hslots : copied = s.files.oftable p := List.ext_getElem? fun fd => by
        have := h.slots fd
        simpa only [htab, update_self] using this
      refine ⟨(forkLoop_copies_iff _ _).1 hslots, fun i hi => ?_⟩
      have hcount : (files.table i).ref = _ := congrArg Fs.FileTable.File.ref (h.refs i)
      have hpos := List.count_pos_iff.2 hi
      simp only [href, hslots, refTo] at hcount
      omega
    · rintro ⟨hgap, hfps⟩
      have hslots : copied = s.files.oftable p := (forkLoop_copies_iff _ _).2 hgap
      refine ⟨fun fd => ?_, fun i => ?_, update_self .., rfl, fun q hq => ⟨?_, update_of_ne hq ..⟩⟩
      · simp only [htab, update_self, hslots]
      · simp only [href, hslots, List.count_eq_zero_of_not_mem (hfps i), refTo, Nat.cast_zero, add_zero]
      · simp only [htab, update_of_ne hq]

/-- process 1 in directory 7 with the given descriptors and sections; the root is inode 5 -/
def oneProcess (slots fps : List (Option ℕ)) : Sys where
  files := { PipeEnds.init {1} with
    table := fun i => ⟨.inode, slots.count (some i) + fps.count (some i), true, false, 9, 0⟩, oftable := fun _ => slots }
  fps _ := fps
  cwd _ := 7
  inode _ := ⟨1, 1, true⟩
  root := 5

/-- two descriptors for one file, and a section without a file -/
theorem fork_duplicates_twoSlots : ∃ s', fork (oneProcess [some 0, some 0, none] [none]) 1 2 = some s' ∧
    s'.files.oftable 2 = [some 0, some 0, none] ∧ (s'.files.table 0).ref = 4 ∧ (s'.inode 7).rc = 2 := by
  have hgap : NoGap [some 0, some 0, none] := (forkLoop_copies_iff _ (PipeEnds.init ∅)).1 rfl
  have hmounted : Mounted (oneProcess [some 0, some 0, none] [none]) := ⟨by decide, by decide⟩
  obtain ⟨s', hf, -, hiff⟩ := fork_duplicates (p := 1) hmounted (by decide) (by decide)
    (by decide : 2 ∉ (oneProcess [some 0, some 0, none] [none]).files.procs)
  obtain ⟨htab, href, -, hinode, -⟩ := hiff.2 ⟨hgap, fun i hi => by simp [oneProcess] at hi⟩
  exact ⟨s', hf, List.ext_getElem? htab, by rw [href]; rfl, by rw [hinode]; rfl⟩

/-- descriptor 1 of the parent is closed: the child does not get descriptor 2. And a file that one descriptor and one section
hold gains two references. -/
theorem fork_stops_at_gap : (∃ s', fork (oneProcess [some 0, none, some 1] []) 1 2 = some s' ∧
      (s'.files.oftable 1)[2]? = some (some 1) ∧ (s'.files.oftable 2)[2]? = some none ∧
      (s'.files.table 1).ref = ((oneProcess [some 0, none, some 1] []).files.table 1).ref) ∧
    ∃ s', fork (oneProcess [some 0] [some 0]) 1 2 = some s' ∧
      (s'.files.table 0).ref = ((oneProcess [some 0] [some 0]).files.table 0).ref + 2 := by
  refine ⟨⟨_, rfl, ?_, ?_, ?_⟩, _, rfl, ?_⟩ <;> rfl

end OsKernel.Kernel.ForkFiles
