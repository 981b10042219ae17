/-
Address spaces (`kernel/paging.c`, and the part of `fork` in `kernel/proc.c` that shares the pages).

A process has a page table and a list of sections. `pgfault_handler` decides by the section that holds the address,
`fork` freezes every page of the parent and maps it into the child, and `free_sections` gives the pages back. Memory is
the one of the page allocator: page tables, user pages and free pages lie in the same cells.

Files stand for the open files of sections: the inode, the offset and the reference count; `content` holds the bytes of an
inode, as `inode_read` returns them. `written` collects the calls of `file_write` for mapped files. Left out: the
spinlock of the address space, the memory of `struct section` itself, and the TLB.
-/
import OsKernel.Kernel.PageTable
import OsKernel.Lib.Words

namespace OsKernel.Kernel.Paging

open OsKernel.Mem OsKernel.Kernel.PageTable OsKernel.Words

/-! ## State -/

/-- the values of `flags` that the kernel tells apart -/
inductive SectionType where
  | text
  /-- also `ST_BSS` -/
  | data
  | heap
  | userStack
  | mmapShared
  | mmapPrivate
  | other
deriving DecidableEq, Repr

/-- `struct section` -/
structure Section where
  flags : SectionType
  begin : ℕ
  endVa : ℕ
  /-- `fp`, by its index in the file table -/
  fp : Option ℕ
  offset : ℕ
  length : ℕ
deriving DecidableEq, Repr

/-- an open file behind a section -/
structure File where
  /-- the inode; none for a file that is not `FD_INODE` -/
  ip : Option ℕ
  off : ℕ
  ref : ℤ

/-- the bytes of an inode; `num_bytes` is 32 bits wide -/
structure Content where
  bytes : List UInt8
  small : bytes.length < 2 ^ 32

/-- the part of a process that paging uses -/
structure Space where
  /-- the address of the `Proc` itself -/
  proc : ℕ
  /-- `pgdir.pt` -/
  pt : ℕ
  sections : List Section

/-- a call of `file_write` -/
structure WriteBack where
  fp : ℕ
  off : ℕ
  bytes : List UInt8

structure Sys where
  mem : PageMem
  /-- by process -/
  space : ℕ → Space
  file : ℕ → File
  /-- by inode -/
  content : ℕ → Content
  written : List WriteBack

/-- why a call does not return -/
inductive Halt where
  /-- `PANIC` or a failed `ASSERT` -/
  | panic
  /-- the process exits -/
  | exit
  /-- an access through a null pointer -/
  | fault
deriving DecidableEq, Repr

def Sys.setMem (s : Sys) (m : PageMem) : Sys := { s with mem := m }

def Sys.setSpace (s : Sys) (p : ℕ) (a : Space) : Sys := { s with space := Function.update s.space p a }

def Sys.setFile (s : Sys) (f : ℕ) (a : File) : Sys := { s with file := Function.update s.file f a }

/-- the entry of va in the page table of p -/
def Sys.entry (s : Sys) (p va : ℕ) : ℕ := PageTable.entry s.mem (s.space p).pt va

/-! ## Memory -/

def allocPage (s : Sys) : Except Halt (ℕ × Sys) :=
  match kallocPage s.mem with
  | some r => .ok (r.1, s.setMem r.2)
  | none => .error .panic

def freePage (L : Layout) (p : ℕ) (s : Sys) : Except Halt Sys :=
  match kfreePage L p s.mem with
  | some m => .ok (s.setMem m)
  | none => .error .fault

/-- `vmmap(&p->pgdir, va, ka, flags)` -/
def mapPage (p va ka flags : ℕ) (s : Sys) : Except Halt Sys :=
  match vmmap (s.space p).pt va ka flags s.mem with
  | some r => .ok ((s.setMem r.2).setSpace p { s.space p with pt := r.1 })
  | none => .error .panic

/-- `get_pte(&p->pgdir, va, true)` -/
def allocPte (p va : ℕ) (s : Sys) : Except Halt (ℕ × Sys) :=
  match getPte true (s.space p).pt va s.mem with
  | some r => .ok (r.1, (s.setMem r.2.2).setSpace p { s.space p with pt := r.2.1 })
  | none => .error .panic

/-- `get_pte(&p->pgdir, va, false)`; 0 is NULL -/
def findPte (s : Sys) (p va : ℕ) : ℕ :=
  match getPte false (s.space p).pt va s.mem with
  | some r => r.1
  | none => 0

/-- `memcpy(dst, src, PAGE_SIZE)` -/
def copyPage (dst src : ℕ) (cell : ℕ → ℕ) : ℕ → ℕ := fun a =>
  if dst ≤ a ∧ a < dst + pageSize then cell (src + (a - dst)) else cell a

/-- the byte that process p has at va, if the entry allows the access -/
def Sys.userByte (s : Sys) (p va : ℕ) : UInt8 := byteAt s.mem.cell (frame (s.entry p va) + vaOffset va)

/-! ## Files -/

/-- `file_read` on a file of a section, into kernel memory at dst; the count read, -1 for no inode -/
def fileRead (f dst n : ℕ) (s : Sys) : Except Halt (ℤ × Sys) :=
  match (s.file f).ip with
  | none => .ok (-1, s)
  | some ip =>
    let off := (s.file f).off
    -- the assertion of inode_read
    if (s.content ip).bytes.length < off then .error .panic
    else
      let bs := ((s.content ip).bytes.drop off).take n
      .ok (bs.length, (s.setMem { s.mem with cell := storeBytes s.mem.cell dst bs }).setFile f
        { s.file f with off := off + bs.length })

/-- `file_close`: the reference; what the last one gives back is not paging's -/
def fileClose (f : ℕ) (s : Sys) : Except Halt Sys :=
  if (s.file f).ref < 1 then .error .panic else .ok (s.setFile f { s.file f with ref := (s.file f).ref - 1 })

/-- `file_dup` -/
def fileDup (f : ℕ) (s : Sys) : Sys := s.setFile f { s.file f with ref := (s.file f).ref + 1 }

/-! ## Page faults -/

/-- `ISS_TYPE_MASK` -/
abbrev issTypeMask : ℕ := 0x3c
/-- `ISS_TRANS_FAULT` -/
abbrev issTransFault : ℕ := 0x4
/-- `ISS_PERMI_FAULT` -/
abbrev issPermiFault : ℕ := 0xc

/-- the address is in the section -/
def Section.Holds (sec : Section) (addr : ℕ) : Prop := sec.begin ≤ addr ∧ addr < sec.endVa

instance (sec : Section) (addr : ℕ) : Decidable (sec.Holds addr) := inferInstanceAs (Decidable (_ ∧ _))

/-- the first section that holds the address -/
def findSection (secs : List Section) (addr : ℕ) : Option Section := secs.find? fun sec => sec.Holds addr

/-- that section is changed by f -/
def setSection (secs : List Section) (addr : ℕ) (f : Section → Section) : List Section :=
  match secs with
  | [] => []
  | sec :: rest => if sec.Holds addr then f sec :: rest else sec :: setSection rest addr f

/-- the permission fault of a data or a stack section -/
def copyOnWrite (L : Layout) (p addr : ℕ) (s : Sys) : Except Halt Sys := do
  let (pg, s) ← allocPage s
  let pte := findPte s p addr
  if pte = 0 then .error .panic
  else
    let old := frame (s.mem.cell pte)
    let s := s.setMem { s.mem with cell := copyPage pg old s.mem.cell }
    let s ← freePage L (frame (s.mem.cell pte)) s
    mapPage p addr pg (pteUserData ||| pteRw) s

/-- the fault of a heap section, and the translation fault of a stack section: what is mapped is the `Proc` -/
def mapProc (p addr : ℕ) (s : Sys) : Except Halt Sys := do
  let (_pg, s) ← allocPage s
  mapPage p addr (s.space p).proc (pteUserData ||| pteRw) s

/-- the page of a text section at va: its entry, with a new page behind it unless it has one -/
def textPage (p va : ℕ) (s : Sys) : Except Halt (ℕ × Sys) := do
  let (pte, s) ← allocPte p va s
  if s.mem.cell pte &&& pteValid = 0 then do
    let (pg, s) ← allocPage s
    let s ← mapPage p va pg (pteUserData ||| pteRo) s
    .ok (pte, s)
  else .ok (pte, s)

/-- the loop that loads a text section; `fuel` bounds its turns -/
def loadText (p f : ℕ) : ℕ → ℕ → ℕ → Sys → Except Halt Sys
  | 0, _, _, s => .ok s
  | fuel + 1, len, va, s =>
    if len = 0 then .ok s
    else do
      let cur := min len (pageSize - vaOffset va)
      let (pte, s) ← textPage p va s
      let (n, s) ← fileRead f (frame (s.mem.cell pte) + vaOffset va) cur s
      if n = cur then loadText p f fuel (len - cur) (va + cur) s else .error .panic

/-- the fault of a text section -/
def textFault (p addr : ℕ) (sec : Section) (s : Sys) : Except Halt Sys :=
  if sec.length = 0 then .error .exit
  else
    match sec.fp with
    | none => .error .fault
    | some f => do
      let s := s.setFile f { s.file f with off := sec.offset }
      let s ← loadText p f sec.length sec.length sec.begin s
      let s ← fileClose f s
      .ok (s.setSpace p { s.space p with
        sections := setSection (s.space p).sections addr fun sec => { sec with length := 0, fp := none } })

/-- `pgfault_handler` of process p for the fault at addr with syndrome iss -/
def pgfaultHandler (L : Layout) (p addr iss : ℕ) (s : Sys) : Except Halt Sys :=
  match findSection (s.space p).sections addr with
  | none => .error .panic
  | some sec =>
    match sec.flags with
    | .heap => mapProc p addr s
    | .data => if issTypeMask &&& iss = issPermiFault then copyOnWrite L p addr s else .error .panic
    | .text => textFault p addr sec s
    | .userStack => if issTypeMask &&& iss = issPermiFault then copyOnWrite L p addr s else mapProc p addr s
    -- printk("Wrong flags!\n")
    | .mmapShared | .mmapPrivate | .other => .ok s

/-! ## fork and free_sections -/

/-- the addresses a loop over the pages of a section visits -/
def pagesOf (sec : Section) : List ℕ :=
  (List.range ((sec.endVa - pageBase sec.begin + (pageSize - 1)) / pageSize)).map fun i =>
    pageBase sec.begin + pageSize * i

/-- `fork`: one page of the parent p is frozen and mapped into the child c -/
def shareEntry (p c va : ℕ) (s : Sys) : Except Halt Sys :=
  let pte := findPte s p va
  if pte ≠ 0 ∧ Valid (s.mem.cell pte) then do
    let s := s.setMem (setPte pte (s.mem.cell pte ||| pteRo) s.mem)
    let s ← mapPage c va (frame (s.mem.cell pte)) (pteFlags (s.mem.cell pte)) s
    .ok (s.setMem (ksharePage (frame (s.mem.cell pte)) s.mem))
  else .ok s

/-- the child's section; offset and length go with the file -/
def childSection (sec : Section) : Section :=
  if sec.fp.isSome then sec else { sec with offset := 0, length := 0 }

/-- `fork`: one section -/
def forkSection (p c : ℕ) (s : Sys) (sec : Section) : Except Halt Sys :=
  let s := match sec.fp with
    | some f => fileDup f s
    | none => s
  let s := s.setSpace c { s.space c with sections := childSection sec :: (s.space c).sections }
  (pagesOf sec).foldlM (fun s va => shareEntry p c va s) s

/-- `fork`: the address space of p becomes that of c as well -/
def forkSections (p c : ℕ) (s : Sys) : Except Halt Sys := (s.space p).sections.foldlM (forkSection p c) s

/-- the write-back of a page of a mapped file -/
def writeBack (sec : Section) (va page : ℕ) (s : Sys) : Except Halt Sys :=
  match sec.fp with
  | none => .error .fault
  | some f =>
    match (s.file f).ip with
    | none => .error .panic
    | some _ =>
      let thisBegin := max va sec.begin
      let thisEnd := min (va + pageSize) sec.endVa
      let off := sec.offset + thisBegin - sec.begin
      let bytes := (List.range (thisEnd - thisBegin)).map fun i => byteAt s.mem.cell (page + i)
      .ok { s.setFile f { s.file f with off := off + bytes.length } with written := ⟨f, off, bytes⟩ :: s.written }

/-- `free_pages_of_section`: one page -/
def freeEntry (L : Layout) (p : ℕ) (sec : Section) (s : Sys) (va : ℕ) : Except Halt Sys :=
  let pte := findPte s p va
  let e := s.mem.cell pte
  if pte ≠ 0 ∧ Valid e then do
    let s ← if (sec.flags = .mmapPrivate ∨ sec.flags = .mmapShared) ∧ ¬ ReadOnly e ∧
        s.mem.ref (pageIndex (pageBase (frame e))) = 1 then writeBack sec va (frame e) s else .ok s
    let s ← freePage L (frame e) s
    .ok (s.setMem (setPte pte 0 s.mem))
  else .ok s

/-- `free_pages_of_section` -/
def freePagesOfSection (L : Layout) (p : ℕ) (sec : Section) (s : Sys) : Except Halt Sys :=
  (pagesOf sec).foldlM (freeEntry L p sec) s

/-- the loop of `free_sections` over the sections left -/
def freeSectionsLoop (L : Layout) (p : ℕ) : List Section → Sys → Except Halt Sys
  | [], s => .ok s
  | sec :: rest, s => do
    let s ← freePagesOfSection L p sec s
    let s := s.setSpace p { s.space p with sections := rest }
    let s ← match sec.fp with
      | some f => fileClose f s
      | none => .ok s
    freeSectionsLoop L p rest s

/-- `free_sections` -/
def freeSections (L : Layout) (p : ℕ) (s : Sys) : Except Halt Sys := freeSectionsLoop L p (s.space p).sections s

end OsKernel.Kernel.Paging
