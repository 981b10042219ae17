/-
The inode layer's functions on files (`fs/inode.c`).

Each function is a program over the interface of the block cache (`CacheOp`): `acquire` and `release` hold a block, `load`
and `modify` read and write the data of a block that is held, `sync` hands it to the transaction, `alloc` and `free` are the
cache's allocator. An in-memory inode (`Inode`) is passed along and returned. A `ctx` argument is true when the source
passes an `OpContext`, false for NULL.

Loops over bytes take the number of bytes as fuel. Every turn moves at least one, so the fuel outlives the loop, and the
functions' own final assertion on the pointer would halt the machine if it did not.

Reads and writes of device inodes go to the console, which is part of the interface as two more operations. `modified` is
only ever written by the source and is left out.
-/
import OsKernel.Lib.Program
import OsKernel.Fs.InodeEntry

namespace OsKernel.Fs.Inodes

open OsKernel.Bytes OsKernel.Program

/-! ## The block cache as an interface -/

inductive CacheOp where
  | acquire (n : ℕ)
  /-- read the data of a block -/
  | load (n : ℕ)
  /-- write the data of a block -/
  | modify (n : ℕ) (f : BlockData → BlockData)
  | sync (n : ℕ)
  | release (n : ℕ)
  | alloc
  | free (n : ℕ)
  | consoleRead (count : ℕ)
  | consoleWrite (src : List UInt8)

@[reducible] def CacheOp.Res : CacheOp → Type
  | .acquire _ => Unit
  | .load _ => BlockData
  | .modify _ _ => Unit
  | .sync _ => Unit
  | .release _ => Unit
  | .alloc => ℕ
  | .free _ => Unit
  | .consoleRead _ => List UInt8
  | .consoleWrite _ => ℕ

/-- why the kernel stops -/
inductive Stop where
  /-- an `ASSERT` of the inode layer -/
  | assertion
  /-- `block_no == 0` in `inode_read` or `inode_write` -/
  | unmapped
  /-- a write of an in-memory inode that was never loaded -/
  | notValid
  /-- `inode_alloc` found every inode in use -/
  | noInode
  /-- `cache_alloc` found every block in use -/
  | noSpace
  /-- the atomic operation has used up its log slots -/
  | noBudget
deriving DecidableEq, Repr

abbrev CacheM := Prog CacheOp CacheOp.Res Stop

def acquire (n : ℕ) : CacheM Unit := perform (CacheOp.acquire n)
def load (n : ℕ) : CacheM BlockData := perform (CacheOp.load n)
def modify (n : ℕ) (f : BlockData → BlockData) : CacheM Unit := perform (CacheOp.modify n f)
def sync (n : ℕ) : CacheM Unit := perform (CacheOp.sync n)
def release (n : ℕ) : CacheM Unit := perform (CacheOp.release n)
def alloc : CacheM ℕ := perform CacheOp.alloc
def free (n : ℕ) : CacheM Unit := perform (CacheOp.free n)
def consoleRead (count : ℕ) : CacheM (List UInt8) := perform (CacheOp.consoleRead count)
def consoleWrite (src : List UInt8) : CacheM ℕ := perform (CacheOp.consoleWrite src)

/-! ## Inodes in memory -/

structure Inode where
  inodeNo : ℕ
  /-- reference count -/
  rc : ℕ
  /-- the entry has been loaded -/
  valid : Bool
  entry : InodeEntry

def Inode.setAddr (inode : Inode) (k : Fin inodeNumDirect) (b : UInt32) : Inode :=
  { inode with entry := { inode.entry with addrs := Function.update inode.entry.addrs k b } }

def Inode.setIndirect (inode : Inode) (b : UInt32) : Inode :=
  { inode with entry := { inode.entry with indirect := b } }

def Inode.setNumBytes (inode : Inode) (n : ℕ) : Inode :=
  { inode with entry := { inode.entry with numBytes := .ofNat n } }

/-- the block an inode lives on -/
def toBlockNo (sb : SuperBlock) (inodeNo : ℕ) : ℕ := sb.inodeStart.toNat + inodeNo / inodePerBlock

/-- `inode_sync` with `do_write` -/
def inodeSyncWrite (sb : SuperBlock) (inode : Inode) : CacheM Unit := do
  let b := toBlockNo sb inode.inodeNo
  acquire b
  if inode.valid then
    modify b (putEntry inode.inodeNo inode.entry)
    sync b
    release b
  else
    release b
    .halt .notValid

/-- `inode_sync` without `do_write` -/
def inodeSyncRead (sb : SuperBlock) (inode : Inode) : CacheM Inode := do
  let b := toBlockNo sb inode.inodeNo
  acquire b
  let d ← load b
  release b
  return if inode.valid then inode else { inode with entry := getEntry d inode.inodeNo, valid := true }

/-- the search of `inode_alloc` from inode number `inodeNo` on -/
def inodeAllocFrom (sb : SuperBlock) (type : InodeType) : ℕ → ℕ → CacheM ℕ
  | 0, _ => .halt .noInode
  | fuel + 1, inodeNo => do
    if inodeNo < sb.numInodes.toNat then
      let b := toBlockNo sb inodeNo
      acquire b
      let d ← load b
      if (getEntry d inodeNo).type = inodeInvalid then
        modify b (putEntry inodeNo (.fresh type))
        sync b
        release b
        return inodeNo
      else
        release b
        inodeAllocFrom sb type fuel (inodeNo + 1)
    else .halt .noInode

def inodeAlloc (sb : SuperBlock) (type : InodeType) : CacheM ℕ := do
  check (type ≠ inodeInvalid) .assertion
  inodeAllocFrom sb type sb.numInodes.toNat 1

/-- `inode_get` of an inode that is not in memory; the new struct's entry is not read before it is loaded -/
def inodeGet (sb : SuperBlock) (inodeNo : ℕ) : CacheM Inode := do
  check (0 < inodeNo) .assertion
  check (inodeNo < sb.numInodes.toNat) .assertion
  let inode ← inodeSyncRead sb ⟨inodeNo, 1, false, .zero⟩
  return { inode with valid := true }

/-! ## Blocks of a file -/

/-- the direct branch of `inode_map` -/
def mapDirect (ctx : Bool) (inode : Inode) (k : Fin inodeNumDirect) : CacheM (ℕ × Inode) := do
  let blockNo := inode.entry.addrs k
  if blockNo = 0 ∧ ctx then
    let n ← alloc
    return ((UInt32.ofNat n).toNat, inode.setAddr k (.ofNat n))
  else return (blockNo.toNat, inode)

/-- the indirect block, allocated on first use -/
def mapIndirect (inode : Inode) : CacheM Inode := do
  if inode.entry.indirect = 0 then
    let n ← alloc
    return inode.setIndirect (.ofNat n)
  else return inode

/-- a slot of the indirect block that is held -/
def leafBlock (ctx : Bool) (ib k : ℕ) : CacheM ℕ := do
  let d ← load ib
  let blockNo := getLE d (4 * k) 4
  if blockNo = 0 ∧ ctx then
    let n ← alloc
    let blockNo := n % 2 ^ 32
    modify ib fun d => putLE d (4 * k) 4 1 fun _ => blockNo
    return blockNo
  else return blockNo

/-- the address in the indirect block -/
def mapLeaf (ctx : Bool) (inode : Inode) (idx : ℕ) : CacheM (ℕ × Inode) := do
  check (idx < inodeNumIndirect) .assertion
  let ib := inode.entry.indirect.toNat
  acquire ib
  let blockNo ← leafBlock ctx ib idx
  release ib
  return (blockNo, inode)

def inodeMap (ctx : Bool) (inode : Inode) (offset : ℕ) : CacheM (ℕ × Inode) := do
  let idx := offset / blockSize
  if h : idx < inodeNumDirect then mapDirect ctx inode ⟨idx, h⟩
  else if inode.entry.indirect = 0 ∧ ¬ ctx then return (0, inode)
  else
    let inode ← mapIndirect inode
    mapLeaf ctx inode (idx - inodeNumDirect)

/-! ## Reading and writing -/

/-- len bytes of a block from offset `start` on -/
def bytesOf (d : BlockData) (start len : ℕ) : List UInt8 := (List.range len).map fun i => getByte d (start + i)

/-- the loop of `inode_read`: dest holds the bytes read so far -/
def readLoop (inode : Inode) (stop : ℕ) : ℕ → ℕ → List UInt8 → CacheM (ℕ × List UInt8)
  | 0, pos, dest => return (pos, dest)
  | fuel + 1, pos, dest => do
    if pos < stop then
      let (blockNo, _) ← inodeMap false inode pos
      check (blockNo ≠ 0) .unmapped
      let start := pos % blockSize
      acquire blockNo
      let d ← load blockNo
      let len := min (blockSize - start) (stop - pos)
      release blockNo
      readLoop inode stop fuel (pos + len) (dest ++ bytesOf d start len)
    else return (pos, dest)

/-- how many bytes `inode_read` sets out to read: not past the end of the file -/
def readCount (inode : Inode) (offset count : ℕ) : ℕ :=
  if addU count offset > inode.entry.numBytes.toNat then subU inode.entry.numBytes.toNat offset else count

/-- `inode_read` of a file -/
def fileRead (inode : Inode) (offset count : ℕ) : CacheM (List UInt8) := do
  let count := readCount inode offset count
  let stop := addU offset count
  check (offset ≤ inode.entry.numBytes.toNat) .assertion
  check (stop ≤ inode.entry.numBytes.toNat) .assertion
  check (offset ≤ stop) .assertion
  let (pos, dest) ← readLoop inode stop (stop - offset) offset []
  check (subU pos offset = count) .assertion
  return dest

/-- `inode_read`: the bytes it puts into dest -/
def inodeRead (inode : Inode) (offset count : ℕ) : CacheM (List UInt8) :=
  if inode.entry.type = inodeDevice then consoleRead count else fileRead inode offset count

/-- the loop of `inode_write`; src is what is left to write -/
def writeLoop (stop : ℕ) : ℕ → Inode → ℕ → List UInt8 → CacheM (ℕ × Inode)
  | 0, inode, pos, _ => return (pos, inode)
  | fuel + 1, inode, pos, src => do
    if pos < stop then
      let (blockNo, inode) ← inodeMap true inode pos
      check (blockNo ≠ 0) .unmapped
      let start := pos % blockSize
      acquire blockNo
      let len := min (blockSize - start) (stop - pos)
      modify blockNo fun d => patch d start len fun i => src.getD i 0
      sync blockNo
      release blockNo
      writeLoop stop fuel inode (pos + len) (src.drop len)
    else return (pos, inode)

/-- the end of `inode_write`: a file that has grown gets its new size -/
def writeSize (sb : SuperBlock) (inode : Inode) (stop : ℕ) : CacheM Inode := do
  if stop > inode.entry.numBytes.toNat then
    let inode := inode.setNumBytes stop
    inodeSyncWrite sb inode
    return inode
  else return inode

/-- `inode_write` of a file -/
def fileWrite (sb : SuperBlock) (inode : Inode) (src : List UInt8) (offset : ℕ) : CacheM (ℕ × Inode) := do
  let stop := addU offset src.length
  check (offset ≤ inode.entry.numBytes.toNat) .assertion
  check (stop ≤ inodeMaxBytes) .assertion
  check (offset ≤ stop) .assertion
  let (pos, inode) ← writeLoop stop (stop - offset) inode offset src
  let inode ← writeSize sb inode stop
  check (subU pos offset = src.length) .assertion
  return (subU pos offset, inode)

/-- `inode_write`: the number of bytes written, and the inode -/
def inodeWrite (sb : SuperBlock) (inode : Inode) (src : List UInt8) (offset : ℕ) : CacheM (ℕ × Inode) := do
  if inode.entry.type = inodeDevice then
    let n ← consoleWrite src
    return (n, inode)
  else fileWrite sb inode src offset

/-! ## Clearing -/

/-- free a list of blocks, skipping empty slots -/
def freeBlocks : List ℕ → CacheM Unit
  | [] => return ()
  | n :: ns => do
    if n ≠ 0 then
      free n
      freeBlocks ns
    else freeBlocks ns

/-- free what the slots of an indirect block that is held point to -/
def freeLeaves (ib : ℕ) : List ℕ → CacheM Unit
  | [] => return ()
  | k :: ks => do
    let d ← load ib
    let blockNo := getLE d (4 * k) 4
    if blockNo ≠ 0 then
      free blockNo
      freeLeaves ib ks
    else freeLeaves ib ks

def clearIndirect (inode : Inode) : CacheM Unit := do
  if inode.entry.indirect ≠ 0 then
    let ib := inode.entry.indirect.toNat
    acquire ib
    freeLeaves ib (List.range inodeNumIndirect)
    release ib
    free ib
  else return ()

/-- the entry without its blocks -/
def InodeEntry.cleared (e : InodeEntry) : InodeEntry := { e with indirect := 0, addrs := fun _ => 0, numBytes := 0 }

def inodeClear (sb : SuperBlock) (inode : Inode) : CacheM Inode := do
  freeBlocks (List.ofFn fun k => (inode.entry.addrs k).toNat)
  clearIndirect inode
  let inode := { inode with entry := InodeEntry.cleared inode.entry }
  inodeSyncWrite sb inode
  return inode

/-- `inode_put`; none when the struct was freed -/
def inodePut (sb : SuperBlock) (inode : Inode) : CacheM (Option Inode) := do
  if inode.rc = 1 ∧ inode.entry.numLinks = 0 then
    let inode ← inodeClear sb inode
    inodeSyncWrite sb { inode with entry := { inode.entry with type := inodeInvalid } }
    return none
  else return some { inode with rc := inode.rc - 1 }

end OsKernel.Fs.Inodes
