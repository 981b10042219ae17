/-
`mkfs` (`user/mkfs/main.c`), the program that builds the first file system image.

The image is a file of `fsSize` sectors, written with zeros first. Inodes and data blocks are handed out in order, by two
counters that are part of the state (`Image`). A file is appended to piece by piece (`iappend`), the inode being read from the
image before and written back after each piece. At the end the size of the root directory is rounded up and the bitmap is
written.

A function returns none where the program stops: a failed assertion, or a sector read behind the end of the image. Input files
are opened and read without errors; a file is given by the pieces `read` returns (`HostFile`).
-/
import OsKernel.Fs.DirEntry

namespace OsKernel.User.Mkfs

open OsKernel.Fs OsKernel.Fs.Inodes OsKernel.Bytes OsKernel.CString

/-- `FSSIZE` -/
abbrev fsSize : ℕ := 1000
/-- `NINODES` -/
abbrev numInodes : ℕ := 200
abbrev ninodeblocks : ℕ := numInodes / inodePerBlock + 1
abbrev nbitmap : ℕ := fsSize / (blockSize * 8) + 1
/-- boot block, super block, log, inodes and bitmap -/
abbrev nmeta : ℕ := 2 + logMaxSize + ninodeblocks + nbitmap
/-- `ROOT_INODE_NO` -/
abbrev rootInodeNo : ℕ := 1

/-- `sb` -/
def superBlock : SuperBlock where
  numBlocks := .ofNat fsSize
  numDataBlocks := .ofNat (fsSize - nmeta)
  numInodes := .ofNat numInodes
  numLogBlocks := .ofNat logMaxSize
  logStart := 2
  inodeStart := .ofNat (2 + logMaxSize)
  bitmapStart := .ofNat (2 + logMaxSize + ninodeblocks)

/-- the words of a super block, in order -/
def superWords (sb : SuperBlock) (i : ℕ) : ℕ :=
  match i with
  | 0 => sb.numBlocks.toNat
  | 1 => sb.numDataBlocks.toNat
  | 2 => sb.numInodes.toNat
  | 3 => sb.numLogBlocks.toNat
  | 4 => sb.logStart.toNat
  | 5 => sb.inodeStart.toNat
  | _ => sb.bitmapStart.toNat

structure Image where
  disk : ℕ → BlockData
  /-- the next inode -/
  freeinode : ℕ
  /-- the next data block -/
  freeblock : ℕ

/-! ## Sectors and inodes -/

/-- `rsect`; the file ends behind its last sector -/
def Image.rsect (img : Image) (sec : ℕ) : Option BlockData := if sec < fsSize then some (img.disk sec) else none

/-- `wsect` -/
def Image.wsect (img : Image) (sec : ℕ) (buf : BlockData) : Image := { img with disk := Function.update img.disk sec buf }

/-- `freeblock++` -/
def Image.bump (img : Image) : Image := { img with freeblock := img.freeblock + 1 }

/-- `IBLOCK` -/
def iblock (inum : ℕ) : ℕ := inum / inodePerBlock + superBlock.inodeStart.toNat

def winode (img : Image) (inum : ℕ) (din : InodeEntry) : Option Image :=
  (img.rsect (iblock inum)).map fun buf => img.wsect (iblock inum) (putEntry inum din buf)

def rinode (img : Image) (inum : ℕ) : Option InodeEntry :=
  (img.rsect (iblock inum)).map fun buf => getEntry buf inum

def ialloc (img : Image) (type : InodeType) : Option (ℕ × Image) :=
  (winode { img with freeinode := img.freeinode + 1 } img.freeinode { InodeEntry.zero with type := type, numLinks := 1 }).map
    fun img' => (img.freeinode, img')

/-! ## Appending -/

/-- block k of a file, one of the direct ones -/
def directBlock (img : Image) (din : InodeEntry) (k : Fin inodeNumDirect) : ℕ × InodeEntry × Image :=
  if din.addrs k = 0 then
    ((UInt32.ofNat img.freeblock).toNat, { din with addrs := Function.update din.addrs k (.ofNat img.freeblock) }, img.bump)
  else ((din.addrs k).toNat, din, img)

/-- the indirect block gets allocated on first use -/
def withIndirect (img : Image) (din : InodeEntry) : InodeEntry × Image :=
  if din.indirect = 0 then ({ din with indirect := .ofNat img.freeblock }, img.bump) else (din, img)

/-- the block at index k of the indirect block -/
def leafBlock (img : Image) (din : InodeEntry) (k : ℕ) : Option (ℕ × Image) :=
  (img.rsect din.indirect.toNat).map fun indirect =>
    if getLE indirect (4 * k) 4 = 0 then
      let indirect := putLE indirect (4 * k) 4 1 fun _ => img.freeblock
      (getLE indirect (4 * k) 4, img.bump.wsect din.indirect.toNat indirect)
    else (getLE indirect (4 * k) 4, img)

/-- block fbn of a file -/
def fileBlock (img : Image) (din : InodeEntry) (fbn : ℕ) : Option (ℕ × InodeEntry × Image) :=
  if h : fbn < inodeNumDirect then some (directBlock img din ⟨fbn, h⟩)
  else
    let r := withIndirect img din
    (leafBlock r.2 r.1 (fbn - inodeNumDirect)).map fun q => (q.1, r.1, q.2)

/-- the loop of `iappend`; p is what is left to append. Every turn takes at least one byte, so the bytes are fuel enough. -/
def iappendLoop : ℕ → Image → InodeEntry → ℕ → List UInt8 → Option (InodeEntry × ℕ × Image)
  | 0, img, din, off, _ => some (din, off, img)
  | fuel + 1, img, din, off, p =>
    if p = [] then some (din, off, img)
    else if off / blockSize < inodeMaxBlocks then
      (fileBlock img din (off / blockSize)).bind fun r =>
      (r.2.2.rsect r.1).bind fun buf =>
      let n1 := min p.length ((off / blockSize + 1) * blockSize - off)
      let buf := patch buf (off - off / blockSize * blockSize) n1 fun i => p.getD i 0
      iappendLoop fuel (r.2.2.wsect r.1 buf) r.2.1 (off + n1) (p.drop n1)
    else none

def iappend (img : Image) (inum : ℕ) (p : List UInt8) : Option Image :=
  (rinode img inum).bind fun din =>
  (iappendLoop p.length img din din.numBytes.toNat p).bind fun r =>
  winode r.2.2 inum { r.1 with numBytes := .ofNat r.2.1 }

/-! ## The bitmap -/

/-- the loop of `balloc` -/
def ballocBuf (used : ℕ) : BlockData :=
  (List.range used).foldl (fun buf i => patch buf (i / 8) 1 fun _ => getByte buf (i / 8) ||| .ofNat (1 <<< (i % 8))) zeros

def balloc (img : Image) (used : ℕ) : Option Image :=
  if used < blockSize * 8 then some (img.wsect superBlock.bitmapStart.toNat (ballocBuf used)) else none

/-! ## Input files -/

/-- '/' -/
abbrev slash : UInt8 := 47

/-- '_' -/
abbrev underscore : UInt8 := 95

structure HostFile where
  path : List UInt8
  /-- what `read` returns, up to the end of the file -/
  chunks : List (List UInt8)
  nul : 0 ∉ path
  chunk_size : ∀ c ∈ chunks, 0 < c.length ∧ c.length ≤ blockSize

def HostFile.bytes (f : HostFile) : List UInt8 := f.chunks.flatten

/-- the loop over the path: how many characters come after the last slash -/
def tailLength (path : List UInt8) : ℕ := path.foldl (fun j c => if c = slash then 0 else j + 1) 0

/-- `argv[i] -= j` -/
def baseName (path : List UInt8) : List UInt8 := path.drop (path.length - tailLength path)

/-- `if (argv[i][0] == '_') ++argv[i]` -/
def skipUnderscore : List UInt8 → List UInt8
  | c :: name => if c = underscore then name else c :: name
  | [] => []

/-- the name a file gets in the root directory -/
def HostFile.name (f : HostFile) : List UInt8 := skipUnderscore (baseName f.path)

/-- the directory entry for a name -/
def dirent (name : List UInt8) (inum : ℕ) : DirEntry := DirEntry.zero.assign (strOf name) inum

/-! ## The program -/

/-- every sector is zero, then the super block is written -/
def formatted : Image where
  disk := Function.update (fun _ => zeros) 1 (putLE zeros 0 4 7 (superWords superBlock))
  freeinode := 1
  freeblock := nmeta

/-- the body of the loop over the arguments -/
def addFile (img : Image) (f : HostFile) : Option Image :=
  if slash ∈ baseName f.path then none
  else
    (ialloc img inodeRegular).bind fun r =>
    (iappend r.2 rootInodeNo (dirent f.name r.1).toBytes).bind fun img =>
    f.chunks.foldlM (fun img c => iappend img r.1 c) img

/-- the size of the root directory is rounded up to the next block, past the end -/
def fixRoot (img : Image) : Option Image :=
  (rinode img rootInodeNo).bind fun din =>
  winode img rootInodeNo { din with numBytes := .ofNat ((din.numBytes.toNat / blockSize + 1) * blockSize) }

/-- `main` -/
def mkfs (files : List HostFile) : Option Image :=
  (ialloc formatted inodeDirectory).bind fun r =>
  if r.1 = rootInodeNo then
    (iappend r.2 r.1 (dirent [46] r.1).toBytes).bind fun img =>
    (iappend img r.1 (dirent [46, 46] r.1).toBytes).bind fun img =>
    (files.foldlM addFile img).bind fun img =>
    (fixRoot img).bind fun img =>
    balloc img img.freeblock
  else none

/-! ## Names -/

theorem tailLength_append (path : List UInt8) (c : UInt8) :
    tailLength (path ++ [c]) = if c = slash then 0 else tailLength path + 1 := by
  simp [tailLength]

theorem tailLength_le (path : List UInt8) : tailLength path ≤ path.length := by
  induction path using List.reverseRecOn with
  | nil => exact le_rfl
  | append_singleton path c ih =>
    rw [tailLength_append, List.length_append, List.length_singleton]
    split_ifs <;> omega

/-- by induction on the path from its end: a slash starts over, any other character makes the name longer -/
theorem baseName_append (path : List UInt8) (c : UInt8) :
    baseName (path ++ [c]) = if c = slash then [] else baseName path ++ [c] := by
  have hle := tailLength_le path
  rw [baseName, tailLength_append, List.length_append, List.length_singleton]
  by_cases hc : c = slash
  · rw [if_pos hc, if_pos hc, List.drop_of_length_le]
    simp
  · rw [if_neg hc, if_neg hc, Nat.add_sub_add_right, List.drop_append_of_le_length (Nat.sub_le ..)]
    rfl

/-- the assertion on the name holds -/
theorem slash_notMem_baseName (path : List UInt8) : slash ∉ baseName path := by
  induction path using List.reverseRecOn with
  | nil => exact List.not_mem_nil
  | append_singleton path c ih =>
    rw [baseName_append]
    by_cases hc : c = slash
    · rw [if_pos hc]
      exact List.not_mem_nil
    · rw [if_neg hc, List.mem_append, List.mem_singleton, not_or]
      exact ⟨ih, fun he => hc he.symm⟩

theorem skipUnderscore_subset (l : List UInt8) : skipUnderscore l ⊆ l := by
  cases l with
  | nil => exact List.Subset.refl _
  | cons c l =>
    rw [skipUnderscore]
    by_cases hc : c = underscore
    · rw [if_pos hc]
      exact List.subset_cons_self ..
    · rw [if_neg hc]
      exact List.Subset.refl _

theorem HostFile.nul_notMem_name (f : HostFile) : 0 ∉ f.name := fun h =>
  f.nul (List.drop_subset _ _ (skipUnderscore_subset _ h))

end OsKernel.User.Mkfs
