/-
Directories: `inode_lookup` and `inode_insert`.

A directory is a file of 16-byte entries, each an inode number, 0 for a free entry, and a name of at most 14 characters that
need not end in a NUL. The functions scan the entries one by one with `inode_read`. The `DirEntry` they read into is an
uninitialised local variable, so its first value is a parameter (`de`); of it only what `inode_read` and `strncpy` do not
write would be left.

A caller sees a name only up to its first NUL and its 14th character (`key`).
-/
import OsKernel.Common.CString
import OsKernel.Fs.Inode

namespace OsKernel.Fs.Inodes

open OsKernel.Bytes OsKernel.Program OsKernel.CString

abbrev fileNameMaxLength : ℕ := 14

structure DirEntry where
  /-- 0 for a free entry -/
  inodeNo : UInt16
  name : Buf fileNameMaxLength

/-- `sizeof(DirEntry)` -/
abbrev dirEntrySize : ℕ := 16

/-! ## Entries in bytes -/

def DirEntry.toBytes (e : DirEntry) : List UInt8 :=
  .ofNat e.inodeNo.toNat :: .ofNat (e.inodeNo.toNat / 256) :: List.ofFn e.name

def DirEntry.ofBytes (d : List UInt8) : DirEntry where
  inodeNo := .ofNat ((d.getD 0 0).toNat + 256 * (d.getD 1 0).toNat)
  name j := d.getD (2 + j) 0

/-- the first bytes are overwritten by d -/
def DirEntry.fill (e : DirEntry) (d : List UInt8) : DirEntry := .ofBytes (d ++ e.toBytes.drop d.length)

/-- the all-zero entry -/
def DirEntry.zero : DirEntry := ⟨0, zeros⟩

/-- `de.inode_no = inode_no; strncpy(de.name, name, FILE_NAME_MAX_LENGTH)` -/
def DirEntry.assign (e : DirEntry) (name : ℕ → UInt8) (inodeNo : ℕ) : DirEntry where
  inodeNo := .ofNat inodeNo
  name j := strncpy (getByte e.name) name fileNameMaxLength j

theorem DirEntry.toBytes_length (e : DirEntry) : e.toBytes.length = 16 := by
  simp [DirEntry.toBytes]

theorem DirEntry.ofBytes_toBytes (e : DirEntry) : .ofBytes e.toBytes = e := by
  obtain ⟨n, name⟩ := e
  have hlt : n.toNat < 65536 := n.toNat_lt
  have hno : (UInt8.ofNat n.toNat).toNat + 256 * (UInt8.ofNat (n.toNat / 256)).toNat = n.toNat := by
    simp only [UInt8.toNat_ofNat']
    omega
  simp only [DirEntry.ofBytes, DirEntry.toBytes, DirEntry.mk.injEq]
  constructor
  · simp only [List.getD_cons_zero, List.getD_cons_succ, hno]
    exact UInt16.ofNat_toNat
  · funext j
    have hj : j.val < (List.ofFn name).length := lt_of_lt_of_eq j.isLt List.length_ofFn.symm
    rw [Nat.add_comm, List.getD_cons_succ, List.getD_cons_succ, List.getD_eq_getElem?_getD, List.getElem?_eq_getElem hj,
      List.getElem_ofFn, Option.getD_some]

theorem DirEntry.fill_toBytes (e e' : DirEntry) : e.fill e'.toBytes = e' := by
  rw [DirEntry.fill, List.drop_of_length_le (by rw [e.toBytes_length, e'.toBytes_length]), List.append_nil,
    DirEntry.ofBytes_toBytes]

/-! ## The functions -/

/-- the loop of `inode_lookup`; `index` is what the pointer refers to, none for a NULL pointer -/
def lookupLoop (inode : Inode) (name : ℕ → UInt8) (index : Option ℕ) : ℕ → ℕ → ℕ → DirEntry → CacheM (ℕ × Option ℕ)
  | 0, _, _, _ => return (0, index)
  | fuel + 1, idx, offset, de => do
    if offset < inode.entry.numBytes.toNat then
      let d ← inodeRead inode offset dirEntrySize
      let de := de.fill d
      if de.inodeNo ≠ 0 ∧ strncmp (getByte de.name) name fileNameMaxLength = 0 then
        return (de.inodeNo.toNat, index.map fun _ => idx)
      else lookupLoop inode name index fuel (idx + 1) (offset + dirEntrySize) de
    else return (0, index)

/-- `inode_lookup`: the inode number, and the index as it is afterwards -/
def inodeLookup (inode : Inode) (name : ℕ → UInt8) (index : Option ℕ) (de : DirEntry) : CacheM (ℕ × Option ℕ) :=
  lookupLoop inode name index inode.entry.numBytes.toNat 0 0 de

/-- the variables of `inode_insert` after its loop -/
structure Scan where
  ret : ℕ
  offset : ℕ
  index : ℕ
  de : DirEntry
  inode : Inode

/-- the loop of `inode_insert`; `ret` stays -1 when it finds no free entry -/
def insertLoop (sb : SuperBlock) (inode : Inode) (name : ℕ → UInt8) (inodeNo : ℕ) :
    ℕ → ℕ → ℕ → DirEntry → CacheM Scan
  | 0, offset, index, de => return ⟨2 ^ 64 - 1, offset, index, de, inode⟩
  | fuel + 1, offset, index, de => do
    if offset < inode.entry.numBytes.toNat then
      let d ← inodeRead inode offset dirEntrySize
      let de := de.fill d
      if de.inodeNo = 0 then
        let de := de.assign name inodeNo
        let (_, inode) ← inodeWrite sb inode de.toBytes offset
        return ⟨index, offset, index, de, inode⟩
      else insertLoop sb inode name inodeNo fuel (offset + dirEntrySize) (index + 1) de
    else return ⟨2 ^ 64 - 1, offset, index, de, inode⟩

/-- `inode_insert`: the index of the new entry or -1, and the inode -/
def inodeInsert (sb : SuperBlock) (inode : Inode) (name : ℕ → UInt8) (inodeNo : ℕ) (de : DirEntry) :
    CacheM (ℕ × Inode) := do
  check (inode.entry.type = inodeDirectory) .assertion
  let (found, _) ← inodeLookup inode name none de
  if found ≠ 0 then return (2 ^ 64 - 1, inode)
  else
    let r ← insertLoop sb inode name inodeNo inode.entry.numBytes.toNat 0 0 de
    if r.ret = 2 ^ 64 - 1 then
      let de := r.de.assign name inodeNo
      let (_, inode) ← inodeWrite sb r.inode de.toBytes r.offset
      return (r.index, inode)
    else return (r.ret, r.inode)

/-! ## What is in a directory -/

/-- the part of a name that counts -/
def key (name : ℕ → UInt8) : List UInt8 := cstr name fileNameMaxLength

/-- an entry as a slot: its name and inode number, unless it is free -/
def DirEntry.slot (e : DirEntry) : Option (List UInt8 × ℕ) :=
  if e.inodeNo = 0 then none else some (key (getByte e.name), e.inodeNo.toNat)

theorem DirEntry.slot_zero : DirEntry.zero.slot = none := if_pos rfl

theorem DirEntry.slot_eq_none {e : DirEntry} : e.slot = none ↔ e.inodeNo = 0 := by
  by_cases h : e.inodeNo = 0 <;> simp [DirEntry.slot, h]

/-- a new entry carries the name and the number it was given -/
theorem DirEntry.slot_assign (e : DirEntry) (name : ℕ → UInt8) {inodeNo : ℕ} (h0 : 0 < inodeNo) (hlt : inodeNo < 65536) :
    (e.assign name inodeNo).slot = some (key name, inodeNo) := by
  have hno : (UInt16.ofNat inodeNo).toNat = inodeNo := UInt16.toNat_ofNat_of_lt' hlt
  have hne : (e.assign name inodeNo).inodeNo ≠ 0 := by
    intro he
    have : (UInt16.ofNat inodeNo).toNat = 0 := congrArg UInt16.toNat he
    omega
  have hkey : key (getByte (e.assign name inodeNo).name) = key name := by
    rw [key, key, ← cstr_strncpy (getByte e.name) name]
    apply cstr_congr
    intro j hj
    rw [getByte, dif_pos hj]
    rfl
  rw [DirEntry.slot, if_neg hne, hkey]
  simp only [DirEntry.assign, hno]

/-- the test of `inode_lookup` -/
theorem DirEntry.match_iff {e : DirEntry} {name : ℕ → UInt8} :
    (e.inodeNo ≠ 0 ∧ strncmp (getByte e.name) name fileNameMaxLength = 0) ↔ e.slot = some (key name, e.inodeNo.toNat) := by
  rw [strncmp_eq_zero]
  by_cases h : e.inodeNo = 0
  · simp [DirEntry.slot, h]
  · simp [DirEntry.slot, h, key]

end OsKernel.Fs.Inodes
