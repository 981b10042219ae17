/-
`execve` up to the point where the segments are loaded, and its failure path (`kernel/exec.c`).

The file is its bytes; offsets and sizes come from it as 64-bit numbers, and sums wrap. The new `struct pgdir` is a value of
its own until it is installed. A run stops for one of the reasons in `Stop`; otherwise it ends in `loaded` or takes the `bad`
exit.

What a call can acquire: pages, entries of the file table, references to the executable's inode and its lock, the structs
that `kalloc` gave it (their slabs are left out), and a log operation. `ops` records the calls of `begin_op` and `end_op` that
have come back.

Result (`failed_exec`): on every `bad` exit that is reached the lock is released and the operation ended, and everything else is
released too if and only if the file was refused for its ELF header. After that the `struct pgdir` itself is lost, and with it
whatever `free_pgdir` does not find; and when it does find a file to close, the exit is not reached at all (`failed_exec_leaks`).
-/
import OsKernel.Common.CString
import OsKernel.Fs.Defines
import OsKernel.Fs.FileTable
import OsKernel.Fs.FileWrite
import OsKernel.Kernel.Paging
import OsKernel.Lib.Fallible

namespace OsKernel.Kernel.Exec

open OsKernel.Bytes OsKernel.Mem OsKernel.Words OsKernel.Fallible OsKernel.Kernel.PageTable
open OsKernel.Fs (addU subU)
open OsKernel.Fs.FileTable (File FileType fileAlloc fileClear)
open OsKernel.Kernel.Paging (Content Section SectionType pagesOf)

/-! ## ELF -/

/-- the first n of the given bytes, as a struct in memory -/
def struct (n : ℕ) (d : List UInt8) : Buf n := fun i => d.getD i 0

/-- the fields of `Elf64_Ehdr` that are used -/
structure Ehdr where
  ident : ℕ → UInt8
  phoff : ℕ
  phnum : ℕ

/-- `sizeof(Elf64_Ehdr)` -/
abbrev ehdrSize : ℕ := 64

def Ehdr.ofBytes (d : List UInt8) : Ehdr :=
  let b := struct ehdrSize d
  ⟨getByte b, getLE b 32 8, getLE b 56 2⟩

/-- `ELFMAG` -/
def elfmag : ℕ → UInt8
  | 0 => 0x7f
  | 1 => 0x45
  | 2 => 0x4c
  | 3 => 0x46
  | _ => 0

/-- the magic number and the class are right -/
def Ehdr.Proper (e : Ehdr) : Prop := CString.strncmp e.ident elfmag 4 = 0 ∧ e.ident 4 = 2

instance (e : Ehdr) : Decidable e.Proper := inferInstanceAs (Decidable (_ ∧ _))

/-- the fields of `Elf64_Phdr` that are used -/
structure Phdr where
  type : ℕ
  flags : ℕ
  offset : ℕ
  vaddr : ℕ
  filesz : ℕ
  memsz : ℕ
deriving DecidableEq

/-- `sizeof(Elf64_Phdr)` -/
abbrev phdrSize : ℕ := 56

def Phdr.ofBytes (d : List UInt8) : Phdr :=
  let b := struct phdrSize d
  ⟨getLE b 0 4, getLE b 4 4, getLE b 8 8, getLE b 16 8, getLE b 32 8, getLE b 40 8⟩

/-- `PT_LOAD` -/
abbrev ptLoad : ℕ := 1
/-- `PF_R | PF_X` -/
abbrev pfRx : ℕ := 5
/-- `PF_R | PF_W` -/
abbrev pfRw : ℕ := 6

/-! ## State -/

inductive Stop where
  /-- a failed ASSERT -/
  | assertion
  /-- `kalloc_page` finds no page -/
  | noPage
  /-- `file_alloc` finds no entry -/
  | noFile
  /-- an access through a null pointer -/
  | fault
  /-- a loop that does not end -/
  | endless
  /-- `cache_end_op` waits for the last operation to end, and the process itself has another one open -/
  | nestedEnd
deriving DecidableEq

/-- `struct pgdir`; the newest section first -/
structure Pgdir where
  pt : ℕ
  sections : List Section

structure Sys where
  mem : PageMem
  table : ℕ → File
  /-- structs that are allocated -/
  pgdirs : ℕ
  sections : ℕ
  /-- `rc.count` and `lock.val` of the executable's inode -/
  rc : ℤ
  lock : ℤ
  /-- the calls of `begin_op` (true) and `end_op` (false), the last one first -/
  ops : List Bool

/-- the inode of the executable, as the union in `File` holds it -/
abbrev theInode : ℕ := 1

/-! ## Loading -/

/-- `inode_read`: the bytes it puts into dest -/
def inodeRead (c : Content) (offset count : ℕ) : Except Stop (List UInt8) :=
  match Fs.FileWrite.inodeRead c.bytes offset count with
  | some d => .ok d
  | none => .error .assertion

def allocPage (m : PageMem) : Except Stop (ℕ × PageMem) :=
  match kallocPage m with
  | some r => .ok r
  | none => .error .noPage

/-- `vmmap` on the new page table: the root and the memory -/
def mapPage (pt va ka flags : ℕ) (m : PageMem) : Except Stop (ℕ × PageMem) :=
  match getPte true pt va m with
  | none => .error .noPage
  | some r => if r.1 = 0 then .error .assertion else .ok (r.2.1, setPte r.1 (pageBase (k2p ka) ||| flags) r.2.2)

/-- the loop over a data section: whether all was read, va, and the page table; `fuel` bounds its turns -/
def loadData (c : Content) : ℕ → ℕ → ℕ → ℕ → ℕ → PageMem → Except Stop (Bool × ℕ × ℕ × PageMem)
  | 0, _, _, va, pt, m => .ok (true, va, pt, m)
  | fuel + 1, filesz, offset, va, pt, m =>
    if filesz = 0 then .ok (true, va, pt, m)
    else do
      let cursize := min filesz (pageSize - vaOffset va)
      let (p, m) ← allocPage m
      let m := { m with cell := clearPage p m.cell }
      let (pt, m) ← mapPage pt (pageBase va) p (pteUserData ||| pteRw) m
      let d ← inodeRead c offset cursize
      let m := { m with cell := storeBytes m.cell (p + vaOffset va) d }
      if d.length = cursize then loadData c fuel (filesz - cursize) (addU offset cursize) (addU va cursize) pt m
      else .ok (false, va, pt, m)

/-- the loop over a bss section: filesz, va, and the page table -/
def mapBss (L : Layout) : ℕ → ℕ → ℕ → ℕ → PageMem → Except Stop (ℕ × ℕ × ℕ × PageMem)
  | 0, filesz, va, pt, m => .ok (filesz, va, pt, m)
  | fuel + 1, filesz, va, pt, m =>
    if filesz = 0 then .ok (filesz, va, pt, m)
    else do
      let cursize := min pageSize filesz
      let (pt, m) ← mapPage pt (pageBase va) (zeroPage L) (pteUserData ||| pteRo) m
      mapBss L fuel (filesz - cursize) (addU va cursize) pt m

/-- what follows the loop over the data: the bss section, from va on -/
def loadBss (L : Layout) (h : Phdr) (va pt : ℕ) (m : PageMem) : Except Stop (ℕ × PageMem) :=
  if va ≠ addU h.vaddr h.filesz then .error .assertion
  else
    let top := addU h.vaddr h.memsz
    let next := addU (pageBase va) pageSize
    if next < top then do
      let (filesz, va, pt, m) ← mapBss L (subU top next) (subU top next) next pt m
      if filesz ≠ 0 then .error .assertion
      else if va ≠ top then .error .assertion
      else .ok (pt, m)
    else .ok (pt, m)

/-- a segment with flags RW: whether it was loaded -/
def loadRw (L : Layout) (c : Content) (h : Phdr) (pt : ℕ) (m : PageMem) : Except Stop (Bool × ℕ × PageMem) := do
  let (ok, va, pt, m) ← loadData c h.filesz h.filesz h.offset h.vaddr pt m
  if ok then
    let (pt, m) ← loadBss L h va pt m
    .ok (true, pt, m)
  else .ok (false, pt, m)

/-- a segment with flags RX: a file of its own that shares the inode -/
def loadRx (h : Phdr) (d : Pgdir) (s : Sys) : Except Stop (Pgdir × Sys) :=
  match fileAlloc s.table with
  | none => .error .noFile
  | some f =>
    .ok ({ d with sections := ⟨.text, h.vaddr, addU h.vaddr h.filesz, some f, h.offset, h.filesz⟩ :: d.sections },
      { s with table := Function.update s.table f ⟨.inode, 1, true, false, theInode, 0⟩, rc := s.rc + 1 })

/-- a segment of type LOAD: whether it was accepted -/
def loadSegment (L : Layout) (c : Content) (h : Phdr) (d : Pgdir) (s : Sys) : Except Stop (Bool × Pgdir × Sys) :=
  let s := { s with sections := s.sections + 1 }
  if h.flags = pfRx then do
    let (d, s) ← loadRx h d s
    .ok (true, d, s)
  else if h.flags = pfRw then do
    let (ok, pt, m) ← loadRw L c h d.pt s.mem
    let sec : Section := ⟨.data, h.vaddr, addU h.vaddr h.memsz, none, 0, 0⟩
    .ok (ok, ⟨pt, if ok then sec :: d.sections else d.sections⟩, { s with mem := m })
  else .ok (false, d, s)

/-- the loop over the program headers, n of them left -/
def loadLoop (L : Layout) (c : Content) : ℕ → ℕ → Pgdir → Sys → Except Stop (Bool × Pgdir × Sys)
  | 0, _, d, s => .ok (true, d, s)
  | n + 1, off, d, s => do
    let b ← inodeRead c off phdrSize
    if b.length = phdrSize then
      let h := Phdr.ofBytes b
      if h.type = ptLoad then do
        let (ok, d, s) ← loadSegment L c h d s
        if ok then loadLoop L c n (addU off phdrSize) d s else .ok (false, d, s)
      else loadLoop L c n (addU off phdrSize) d s
    else .ok (false, d, s)

/-- header and segments: whether all was loaded, and the new pgdir if there is one -/
def load (L : Layout) (c : Content) (s : Sys) : Except Stop (Bool × Option Pgdir × Sys) := do
  let b ← inodeRead c 0 ehdrSize
  if b.length = ehdrSize ∧ (Ehdr.ofBytes b).Proper then
    let e := Ehdr.ofBytes b
    let (ok, d, s) ← loadLoop L c e.phnum e.phoff ⟨0, []⟩ { s with pgdirs := s.pgdirs + 1 }
    .ok (ok, some d, s)
  else .ok (false, none, s)

/-! ## The failure path -/

/-- `file_close` on an entry whose inode is the executable's. The last reference is given back in an operation of its own, whose
`end_op` runs while that of `execve` is open. -/
def closeFile (f : ℕ) (s : Sys) : Except Stop Sys :=
  match Fs.FileTable.fileClose (s.table f) with
  | none => .error .assertion
  | some (x, put) =>
    if put then .error .nestedEnd
    else .ok { s with table := Function.update s.table f x }

/-- `if (sec->fp) file_close(sec->fp)` -/
def closeFp (fp : Option ℕ) (s : Sys) : Except Stop Sys :=
  match fp with
  | some f => closeFile f s
  | none => .ok s

/-- `free_pages_of_section`, one page; of a text or data section nothing is written back -/
def freeEntry (L : Layout) (pt : ℕ) (m : PageMem) (va : ℕ) : Except Stop PageMem :=
  match getPte false pt va m with
  | none => .error .assertion
  | some r =>
    if r.1 ≠ 0 ∧ Valid (m.cell r.1) then
      match kfreePage L (frame (m.cell r.1)) m with
      | none => .error .fault
      | some m => .ok (setPte r.1 0 m)
    else .ok m

/-- `free_pages_of_section`; its loop counter wraps when the section reaches into the last page -/
def freePagesOfSection (L : Layout) (pt : ℕ) (sec : Section) (m : PageMem) : Except Stop PageMem :=
  if pageBase sec.begin < sec.endVa ∧ 2 ^ 64 - pageSize < sec.endVa then .error .endless
  else (pagesOf sec).foldlM (freeEntry L pt) m

/-- `free_sections` -/
def freeSections (L : Layout) (pt : ℕ) : List Section → Sys → Except Stop Sys
  | [], s => .ok s
  | sec :: rest, s => do
    let m ← freePagesOfSection L pt sec s.mem
    let s ← closeFp sec.fp { s with mem := m }
    freeSections L pt rest { s with sections := s.sections - 1 }

/-- `free_pgdir` -/
def freePgdir (L : Layout) (d : Pgdir) (s : Sys) : Except Stop Sys :=
  if d.pt = 0 then .ok s
  else do
    let s ← freeSections L d.pt d.sections s
    match freeTables L 3 d.pt s.mem with
    | none => .error .fault
    | some m => .ok { s with mem := m }

/-- `if (pgdir) free_pgdir(pgdir)` -/
def freeNew (L : Layout) (d : Option Pgdir) (s : Sys) : Except Stop Sys :=
  match d with
  | some d => freePgdir L d s
  | none => .ok s

/-- `begin_op`, `namei`, `inodes.lock(ip)` -/
def enter (s : Sys) : Sys := { s with ops := true :: s.ops, rc := s.rc + 1, lock := s.lock - 1 }

/-- `inodes.unlockput(ip)`, `end_op` -/
def leave (s : Sys) : Sys := { s with rc := s.rc - 1, lock := s.lock + 1, ops := false :: s.ops }

inductive Result where
  | loaded (d : Option Pgdir)
  | bad

/-- `execve` on a file that exists, up to the end of the loading or to the end of the failure path -/
def execve (L : Layout) (c : Content) (s : Sys) : Except Stop (Result × Sys) := do
  let (ok, d, s) ← load L c (enter s)
  if ok then .ok (.loaded d, leave s)
  else do
    let s ← freeNew L d s
    .ok (.bad, leave s)

/-! ## Reading -/

/-- what the assertions of `inode_read` come to -/
theorem inodeRead_eq (c : Content) {offset count : ℕ} (hno : count < 2 ^ 63) :
    inodeRead c offset count =
      if offset ≤ c.bytes.length then .ok ((c.bytes.drop offset).take count) else .error .assertion := by
  rw [inodeRead, Fs.FileWrite.inodeRead_eq c.small hno]
  by_cases hoff : offset ≤ c.bytes.length
  · rw [if_pos hoff, if_pos hoff]
  · rw [if_neg hoff, if_neg hoff]

/-- the file begins with a proper ELF header -/
def Header (c : Content) : Prop := ehdrSize ≤ c.bytes.length ∧ (Ehdr.ofBytes (c.bytes.take ehdrSize)).Proper

instance (c : Content) : Decidable (Header c) := inferInstanceAs (Decidable (_ ∧ _))

theorem load_eq (L : Layout) (c : Content) (s : Sys) :
    load L c s =
      if Header c then do
        let e := Ehdr.ofBytes (c.bytes.take ehdrSize)
        let (ok, d, s) ← loadLoop L c e.phnum e.phoff ⟨0, []⟩ { s with pgdirs := s.pgdirs + 1 }
        .ok (ok, some d, s)
      else .ok (false, none, s) := by
  have hlen : (c.bytes.take ehdrSize).length = ehdrSize ↔ ehdrSize ≤ c.bytes.length := by
    rw [List.length_take]
    omega
  rw [load, inodeRead_eq c (by decide), if_pos (Nat.zero_le _), List.drop_zero]
  simp only [bind, Except.bind, hlen]
  rfl

/-! ## What a failed call leaves behind -/

/-- what the loader and `free_pgdir` leave alone -/
structure Kept (s s' : Sys) : Prop where
  lock : s'.lock = s.lock
  pgdirs : s'.pgdirs = s.pgdirs
  ops : s'.ops = s.ops

theorem Kept.refl (s : Sys) : Kept s s := ⟨rfl, rfl, rfl⟩

theorem Kept.trans {s s' s'' : Sys} (h : Kept s s') (h' : Kept s' s'') : Kept s s'' :=
  ⟨h'.lock.trans h.lock, h'.pgdirs.trans h.pgdirs, h'.ops.trans h.ops⟩

/-- x does not come back, or it leaves alone what `Kept` says -/
abbrev Keeps {α : Type} (s : Sys) (f : α → Sys) (x : Except Stop α) : Prop := Ends (fun _ => True) (fun a => Kept s (f a)) x

theorem ends_any {α : Type} (x : Except Stop α) : Ends (fun _ => True) (fun _ => True) x := by
  cases x with
  | error e => trivial
  | ok a => trivial

theorem keeps_loadSegment (L : Layout) (c : Content) (h : Phdr) (d : Pgdir) (s : Sys) :
    Keeps s (fun r => r.2.2) (loadSegment L c h d s) := by
  unfold loadSegment
  by_cases hx : h.flags = pfRx
  · rw [if_pos hx, loadRx]
    cases fileAlloc s.table with
    | none => trivial
    | some f => exact ⟨rfl, rfl, rfl⟩
  · rw [if_neg hx]
    by_cases hw : h.flags = pfRw
    · rw [if_pos hw]
      exact (ends_any (loadRw L c h d.pt s.mem)).bind fun r _ => ⟨rfl, rfl, rfl⟩
    · rw [if_neg hw]
      exact ⟨rfl, rfl, rfl⟩

theorem keeps_loadLoop (L : Layout) (c : Content) (n off : ℕ) (d : Pgdir) (s : Sys) :
    Keeps s (fun r => r.2.2) (loadLoop L c n off d s) := by
  induction n generalizing off d s with
  | zero => exact Kept.refl s
  | succ n ih =>
    rw [loadLoop]
    refine (ends_any (inodeRead c off phdrSize)).bind fun b _ => ?_
    by_cases hlen : b.length = phdrSize
    · simp only [if_pos hlen]
      by_cases htype : (Phdr.ofBytes b).type = ptLoad
      · simp only [if_pos htype]
        refine (keeps_loadSegment L c _ d s).bind fun r hr => ?_
        by_cases hok : r.1 = true
        · simp only [if_pos hok]
          exact (ih _ r.2.1 r.2.2).mono fun r' hr' => hr.trans hr'
        · simp only [if_neg hok]
          exact hr
      · simp only [if_neg htype]
        exact ih _ d s
    · simp only [if_neg hlen]
      exact Kept.refl s

theorem keeps_closeFile (f : ℕ) (s : Sys) : Keeps s id (closeFile f s) := by
  unfold closeFile
  cases Fs.FileTable.fileClose (s.table f) with
  | none => trivial
  | some r =>
    obtain ⟨x, put⟩ := r
    cases put with
    | true => trivial
    | false => exact ⟨rfl, rfl, rfl⟩

theorem keeps_freeSections (L : Layout) (pt : ℕ) (secs : List Section) (s : Sys) :
    Keeps s id (freeSections L pt secs s) := by
  induction secs generalizing s with
  | nil => exact Kept.refl s
  | cons sec rest ih =>
    rw [freeSections]
    refine (ends_any (freePagesOfSection L pt sec s.mem)).bind fun m _ => ?_
    have hclose : Keeps s id (closeFp sec.fp { s with mem := m }) := by
      cases sec.fp with
      | none => exact ⟨rfl, rfl, rfl⟩
      | some f => exact (keeps_closeFile f { s with mem := m }).mono fun s' hs' => ⟨hs'.lock, hs'.pgdirs, hs'.ops⟩
    refine hclose.bind fun s1 h1 => ?_
    exact (ih { s1 with sections := s1.sections - 1 }).mono fun s2 h2 => h1.trans ⟨h2.lock, h2.pgdirs, h2.ops⟩

theorem keeps_freePgdir (L : Layout) (d : Pgdir) (s : Sys) : Keeps s id (freePgdir L d s) := by
  unfold freePgdir
  split_ifs
  · exact Kept.refl s
  · refine (keeps_freeSections L d.pt d.sections s).bind fun s1 h1 => ?_
    cases freeTables L 3 d.pt s1.mem with
    | none => trivial
    | some m => exact ⟨h1.lock, h1.pgdirs, h1.ops⟩

/-- all that the call has acquired is released, its operation has ended, and no other one ended while it was open -/
structure Released (s s' : Sys) : Prop where
  pages : s'.mem.ref = s.mem.ref
  files : ∀ f, (s'.table f).ref = (s.table f).ref
  pgdirs : s'.pgdirs = s.pgdirs
  sections : s'.sections = s.sections
  rc : s'.rc = s.rc
  lock : s'.lock = s.lock
  ops : s'.ops = false :: true :: s.ops

/-- a call on a file with a proper header that fails leaves its pgdir behind -/
theorem bad_of_header {L : Layout} {c : Content} {s s' : Sys} (hc : Header c) (h : execve L c s = .ok (.bad, s')) :
    s'.lock = s.lock ∧ s'.pgdirs = s.pgdirs + 1 ∧ s'.ops = false :: true :: s.ops := by
  obtain ⟨⟨ok, d, s1⟩, hload, h⟩ := bind_ok h
  rw [load_eq, if_pos hc] at hload
  obtain ⟨⟨ok', d', s1'⟩, hloop, hload⟩ := bind_ok hload
  cases hload
  have h1 : Keeps { enter s with pgdirs := s.pgdirs + 1 } (fun r => r.2.2) (.ok (ok, d', s1)) := by
    rw [← hloop]
    exact keeps_loadLoop L c _ _ _ _
  cases ok with
  | true => cases h
  | false =>
    obtain ⟨s2, hfree, h⟩ := bind_ok h
    cases h
    have h2 : Keeps s1 id (.ok s2) := by
      rw [← hfree]
      exact keeps_freePgdir L d' s1
    have h3 := Kept.trans h1 h2
    refine ⟨?_, h3.pgdirs, congrArg (List.cons false) h3.ops⟩
    change s2.lock + 1 = s.lock
    have hlock : s2.lock = s.lock - 1 := h3.lock
    rw [hlock, sub_add_cancel]

theorem bad_of_not_header (L : Layout) {c : Content} (s : Sys) (hc : ¬ Header c) :
    execve L c s = .ok (.bad, { s with ops := false :: true :: s.ops }) := by
  rw [execve, load_eq, if_neg hc]
  simp only [bind, Except.bind, freeNew, leave, enter, Bool.false_eq_true, if_false, add_sub_cancel_right, sub_add_cancel]

/-- **A failed execve.** Whenever the failure path has run, the lock of the executable is released, and the operation of the
call has ended and no other one inside it. Everything has been released exactly when the file was refused for its header; that
path always runs to its end. -/
theorem failed_exec (L : Layout) (c : Content) (s : Sys) :
    (∀ s', execve L c s = .ok (.bad, s') → s'.lock = s.lock ∧ s'.ops = false :: true :: s.ops ∧
      (Released s s' ↔ ¬ Header c)) ∧
    (¬ Header c → ∃ s', execve L c s = .ok (.bad, s')) := by
  refine ⟨fun s' h => ?_, fun hc => ⟨_, bad_of_not_header L s hc⟩⟩
  by_cases hc : Header c
  · obtain ⟨hlock, hpgdirs, hops⟩ := bad_of_header hc h
    refine ⟨hlock, hops, fun hr => ?_, fun hno => absurd hc hno⟩
    have := hr.pgdirs
    omega
  · rw [bad_of_not_header L s hc] at h
    cases h
    exact ⟨rfl, rfl, fun _ => hc, fun _ => ⟨rfl, fun _ => rfl, rfl, rfl, rfl, rfl, rfl⟩⟩

/-! ## Files -/

/-- n in w bytes -/
def le : ℕ → ℕ → List UInt8
  | _, 0 => []
  | n, w + 1 => UInt8.ofNat n :: le (n / 256) w

/-- an `Elf64_Ehdr` -/
def ehdrBytes (phoff phnum : ℕ) : List UInt8 :=
  [0x7f, 0x45, 0x4c, 0x46, 2] ++ List.replicate 27 0 ++ le phoff 8 ++ List.replicate 16 0 ++ le phnum 2 ++ List.replicate 6 0

/-- an `Elf64_Phdr` of type LOAD -/
def phdrBytes (flags offset vaddr filesz memsz : ℕ) : List UInt8 :=
  le ptLoad 4 ++ le flags 4 ++ le offset 8 ++ le vaddr 8 ++ List.replicate 8 0 ++ le filesz 8 ++ le memsz 8 ++
    List.replicate 8 0

/-- nothing is open and the inode has one other reference -/
def start (m : PageMem) : Sys := ⟨m, fun _ => ⟨.none, 0, false, false, 0, 0⟩, 0, 0, 1, 1, []⟩

/-- eight pages to hand out -/
def eightPages : Layout := ⟨kernelStop - 10 * pageSize, by decide, by decide⟩

/-- three bytes -/
def tooShort : Content := ⟨[0x7f, 0x45, 0x4c], by decide⟩

/-- a text segment, and one that may not be read -/
def textThenNone : Content := ⟨ehdrBytes 64 2 ++ phdrBytes pfRx 0 0x400000 16 16 ++ phdrBytes 0 0 0 0 0, by decide +kernel⟩

/-- the same behind a data segment -/
def dataTextNone : Content :=
  ⟨ehdrBytes 64 3 ++ phdrBytes pfRw 0 0x400000 8 8 ++ phdrBytes pfRx 0 0x600000 16 16 ++ phdrBytes 0 0 0 0 0, by decide +kernel⟩

/-- a file that is too short is refused, and nothing is left -/
theorem failed_exec_tooShort : ∃ m s', kinit eightPages (fun _ => 0) = some m ∧
    execve eightPages tooShort (start m) = .ok (.bad, s') ∧ Released (start m) s' := by
  obtain ⟨m, -, hk, -⟩ := kinit_ok eightPages fun _ => 0
  have hc : ¬ Header tooShort := by decide
  obtain ⟨hbad, hruns⟩ := failed_exec eightPages tooShort (start m)
  obtain ⟨s', hs'⟩ := hruns hc
  exact ⟨m, s', hk, hs', (hbad s' hs').2.2.2 hc⟩

def Result.isBad : Result → Bool
  | .bad => true
  | .loaded _ => false

theorem eq_bad {r : Result} (h : r.isBad = true) : r = .bad := by
  cases r with
  | bad => rfl
  | loaded d => cases h

/-- **What a failed call leaves.** Behind a text segment: a pgdir, both sections, the file and its reference to the inode, since
`free_pgdir` does nothing without a page table. Behind a data segment there is one, and `free_pgdir` closes the file, in an
operation that ends while the one of `execve` is open: the call never comes back. -/
theorem failed_exec_leaks : ∃ m s1, kinit eightPages (fun _ => 0) = some m ∧
    execve eightPages textThenNone (start m) = .ok (.bad, s1) ∧
    (s1.table 0).ref = 1 ∧ s1.pgdirs = 1 ∧ s1.sections = 2 ∧ s1.rc = (start m).rc + 1 ∧ ¬ Released (start m) s1 ∧
    execve eightPages dataTextNone (start m) = .error .nestedEnd := by
  obtain ⟨m, -, hk, -⟩ := kinit_ok eightPages fun _ => 0
  have hrun1 : ((kinit eightPages fun _ => 0).bind fun m => (execve eightPages textThenNone (start m)).toOption.map fun r =>
      decide (r.1.isBad = true ∧ (r.2.table 0).ref = 1 ∧ r.2.pgdirs = 1 ∧ r.2.sections = 2 ∧ r.2.rc = 2)) = some true := by
    decide +kernel
  have hrun2 : ((kinit eightPages fun _ => 0).bind fun m => reason (execve eightPages dataTextNone (start m))) =
      some .nestedEnd := by
    decide +kernel
  rw [hk, Option.bind_some] at hrun1 hrun2
  obtain ⟨⟨r1, s1⟩, h1, hb1, hf1, hp1, hs1, hrc1⟩ := ok_computes hrun1
  refine ⟨m, s1, hk, ?_, hf1, hp1, hs1, hrc1, fun hr => ?_, error_of_reason hrun2⟩
  · have hbad : r1 = .bad := eq_bad hb1
    rw [h1, hbad]
  · exact absurd (hp1.symm.trans hr.pgdirs) Nat.one_ne_zero

end OsKernel.Kernel.Exec
