/-
The walk along a path (`namex` of `fs/inode.c`).

The walk is a program over the operations of the inode layer and the current directory of the process (`FsOp`). An inode in
memory is known by the address of its struct. A stretch of code under a spinlock is one operation, so is what one function does
to an inode whose lock the caller holds; taking that lock, dropping it and dropping a reference are operations of their own.
Names are what `skipelem` leaves of a path element: at most 14 characters, none of them a NUL. Transactions are left out, they
only delay a call.
-/
import OsKernel.Lib.Program
import OsKernel.Fs.InodeEntry

namespace OsKernel.Kernel

open OsKernel.Fs OsKernel.Program

/-- the address of an `Inode` -/
abbrev Ptr := ℕ

/-- a path element, without NUL -/
abbrev Name := List UInt8

/-- why the kernel stops -/
inductive Halt where
  | assertion
  | panic
deriving DecidableEq, Repr

inductive FsOp where
  | cwd
  | get (inodeNo : ℕ)
  | share (ip : Ptr)
  | lock (ip : Ptr)
  | unlock (ip : Ptr)
  | put (ip : Ptr)
  | entry (ip : Ptr)
  | lookup (ip : Ptr) (name : Name)

def FsOp.Res : FsOp → Type
  | .cwd | .get _ => Ptr
  | .entry _ => InodeEntry
  -- the inode number; none when it is 0
  | .lookup _ _ => Option ℕ
  | .share _ | .lock _ | .unlock _ | .put _ => Unit

abbrev FsM := Prog FsOp FsOp.Res Halt

namespace FsM

def cwd : FsM Ptr := perform FsOp.cwd
def get (inodeNo : ℕ) : FsM Ptr := perform (FsOp.get inodeNo)
def share (ip : Ptr) : FsM Unit := perform (FsOp.share ip)
def lock (ip : Ptr) : FsM Unit := perform (FsOp.lock ip)
def unlock (ip : Ptr) : FsM Unit := perform (FsOp.unlock ip)
def put (ip : Ptr) : FsM Unit := perform (FsOp.put ip)
def entry (ip : Ptr) : FsM InodeEntry := perform (FsOp.entry ip)
def lookup (ip : Ptr) (name : Name) : FsM (Option ℕ) := perform (FsOp.lookup ip name)

end FsM

open FsM

def slash : UInt8 := 47

/-- the rest of the path and the next element of it, cut off at 14 characters -/
def skipelem (path : List UInt8) : Option (List UInt8 × Name) :=
  match path.dropWhile (· = slash) with
  | [] => none
  | s =>
    let elem := s.takeWhile (· ≠ slash)
    some ((s.drop elem.length).dropWhile (· = slash), elem.take 14)

def unlockput (ip : Ptr) : FsM Unit := do
  unlock ip
  put ip

/-- the end of `namex`: no element is left -/
def namexEnd (parent : Bool) (name : Name) (ip : Ptr) : FsM (Option (Ptr × Name)) := do
  if parent then
    put ip
    return none
  else return some (ip, name)

/-- the loop of `namex`; an element takes at least one character, so the length of the path is fuel enough -/
def namexLoop (parent : Bool) : ℕ → List UInt8 → Name → Ptr → FsM (Option (Ptr × Name))
  | 0, _, name, ip => namexEnd parent name ip
  | fuel + 1, path, name, ip =>
    match skipelem path with
    | none => namexEnd parent name ip
    | some (path, name) => do
      lock ip
      let e ← entry ip
      if e.type ≠ inodeDirectory then
        unlockput ip
        return none
      else if parent = true ∧ path = [] then
        unlock ip
        return some (ip, name)
      else
        match ← lookup ip name with
        | none =>
          unlockput ip
          return none
        | some no =>
          let next ← get no
          unlockput ip
          namexLoop parent fuel path name next

def rootInodeNo : ℕ := 1

/-- where a walk starts -/
def namexStart (path : List UInt8) : FsM Ptr := do
  if path.head? = some slash then get rootInodeNo
  else
    let c ← cwd
    share c
    return c

/-- `namex`: the inode, and the last path element as `name` holds it -/
def namex (path : List UInt8) (parent : Bool) : FsM (Option (Ptr × Name)) := do
  let ip ← namexStart path
  namexLoop parent path.length path [] ip

def namei (path : List UInt8) : FsM (Option Ptr) := do
  let r ← namex path false
  return r.map Prod.fst

end OsKernel.Kernel
