/-
Path resolution: `namei` and `nameiparent`.

The walk of `namex` runs here on the inode layer itself: `inode_get`, `inode_share` and `inode_put` with their list of inodes in
memory, `inode_lookup` on the bytes of a directory, and the locks of the inodes (`World`, `handle`). The address of a new
struct is what `kalloc` gives for the ones in use. Nobody else runs during the walk.

The file system is a tree of names (`tree`): an inode is a directory or not, and a directory leads from names to inode numbers.
`Ready` says that there is such a tree: the bytes of every directory are entries, an inode that a directory names exists, and it
has a link or is in use. The entry of an inode is the one in memory if it is there, otherwise the one on disk (`current`).

Results:
- `skipelem_some`, `skipelem_none`: `skipelem` takes the components of a path one by one;
- `namexLoop_spec`: the loop resolves what is left of the path, from the inode it holds a reference to;
- `paths_resolved`: `namei` and `nameiparent` return the inode the names lead to, or NULL exactly when some inode on the way is
  not a directory or does not have the next name. In every case the reference counts are as before, plus one for the
  inode that is returned, and all locks are free.
-/
import OsKernel.Common.Sem
import OsKernel.Lib.NameTree
import OsKernel.Fs.InodeRefs
import OsKernel.Fs.Directory
import OsKernel.Kernel.Namex

namespace OsKernel.Kernel.PathWalk

open OsKernel.Fs OsKernel.Fs.Inodes OsKernel.Fs.Directory OsKernel.Program OsKernel.Sem OsKernel.NameTree OsKernel.SlotMap
open OsKernel.CString (strOf cstr_strOf)
open OsKernel.Fs.InodeRefs (find_eq_some find_eq_none)
open Function (update update_of_ne update_self)

/-! ## Paths -/

/-- the non-empty parts of a path between slashes, cut off at 14 characters -/
def components (path : List UInt8) : List Name := ((path.splitOn slash).filter (· ≠ [])).map (List.take 14)

theorem components_append (xs ys : List UInt8) : components (xs ++ slash :: ys) = components xs ++ components ys := by
  have hsplit : (xs ++ slash :: ys).splitOn slash = xs.splitOn slash ++ ys.splitOn slash :=
    List.splitOnP_append_cons xs ys (beq_self_eq_true slash)
  rw [components, hsplit, List.filter_append, List.map_append]
  rfl

theorem components_slash (path : List UInt8) : components (slash :: path) = components path := components_append [] path

/-- slashes in front do not matter -/
theorem components_dropWhile (path : List UInt8) : components (path.dropWhile (· = slash)) = components path := by
  induction path with
  | nil => rfl
  | cons c path ih =>
    rw [List.dropWhile_cons]
    by_cases hc : c = slash
    · rw [if_pos (decide_eq_true hc), ih, hc, components_slash]
    · rw [if_neg (by simpa using hc)]

theorem components_element {elem : List UInt8} (h : slash ∉ elem) (hne : elem ≠ []) : components elem = [elem.take 14] := by
  simp [components, List.splitOn_eq_singleton h, hne]

/-- a path that starts with an element -/
theorem components_cons {c : UInt8} (hc : c ≠ slash) (s : List UInt8) :
    components (c :: s) = ((c :: s).takeWhile (· ≠ slash)).take 14 :: components ((c :: s).dropWhile (· ≠ slash)) := by
  have helem : slash ∉ (c :: s).takeWhile (· ≠ slash) := by
    intro hin
    simpa using List.all_eq_true.1 List.all_takeWhile slash hin
  have hne : (c :: s).takeWhile (· ≠ slash) ≠ [] := by
    simp [hc]
  have hparts := List.takeWhile_append_dropWhile (p := (· ≠ slash)) (l := c :: s)
  have hhead := List.head?_dropWhile_not (· ≠ slash) (c :: s)
  -- what is behind the element is nothing, or it starts with a slash
  cases hrest : (c :: s).dropWhile (· ≠ slash) with
  | nil =>
    rw [hrest, List.append_nil] at hparts
    calc components (c :: s) = components ((c :: s).takeWhile (· ≠ slash)) := by rw [hparts]
      _ = [((c :: s).takeWhile (· ≠ slash)).take 14] := components_element helem hne
  | cons d l =>
    rw [hrest] at hparts hhead
    obtain rfl : d = slash := by simpa using hhead
    calc components (c :: s) = components ((c :: s).takeWhile (· ≠ slash) ++ slash :: l) := by rw [hparts]
      _ = components ((c :: s).takeWhile (· ≠ slash)) ++ components l := components_append _ _
      _ = ((c :: s).takeWhile (· ≠ slash)).take 14 :: components (slash :: l) := by
        rw [components_element helem hne, components_slash]
        rfl

theorem skipelem_none {path : List UInt8} (h : skipelem path = none) : components path = [] := by
  rw [← components_dropWhile]
  unfold skipelem at h
  cases hs : path.dropWhile (· = slash) with
  | nil => rfl
  | cons c s =>
    rw [hs] at h
    cases h

/-- what `skipelem` leaves: the next component, and a path with the others that has no slash in front -/
structure Skipped (path rest : List UInt8) (name : Name) : Prop where
  components : components path = name :: PathWalk.components rest
  last : rest = [] ↔ PathWalk.components rest = []
  shorter : rest.length < path.length
  restChars : ∀ c ∈ rest, c ∈ path
  nameChars : ∀ c ∈ name, c ∈ path
  nameLength : name.length ≤ 14

theorem skipelem_some {path rest : List UInt8} {name : Name} (h : skipelem path = some (rest, name)) :
    Skipped path rest name := by
  unfold skipelem at h
  have hhead := List.head?_dropWhile_not (· = slash) path
  have hsub := List.dropWhile_sublist (l := path) (· = slash)
  have hcomp := components_dropWhile path
  cases hs : path.dropWhile (· = slash) with
  | nil =>
    rw [hs] at h
    cases h
  | cons c s =>
    rw [hs] at h hhead hsub hcomp
    have hc : c ≠ slash := by simpa using hhead
    simp only [Option.some.injEq, Prod.mk.injEq] at h
    obtain ⟨hrest, hname⟩ := h
    have hdrop : (c :: s).drop ((c :: s).takeWhile (· ≠ slash)).length = (c :: s).dropWhile (· ≠ slash) := by
      have hparts := List.takeWhile_append_dropWhile (p := (· ≠ slash)) (l := c :: s)
      calc _ = ((c :: s).takeWhile (· ≠ slash) ++ (c :: s).dropWhile (· ≠ slash)).drop
            ((c :: s).takeWhile (· ≠ slash)).length := by rw [hparts]
        _ = _ := List.drop_left
    rw [hdrop] at hrest
    have hrsub : rest.Sublist s := by
      rw [← hrest, List.dropWhile_cons_of_pos (by simpa using hc)]
      exact (List.dropWhile_sublist _).trans (List.dropWhile_sublist _)
    refine ⟨?_, ?_, ?_, ?_, ?_, ?_⟩
    · rw [← hcomp, components_cons hc, ← hname, ← hrest, components_dropWhile]
    · constructor
      · rintro rfl
        rfl
      · intro hnone
        have hhead' := List.head?_dropWhile_not (· = slash) ((c :: s).dropWhile (· ≠ slash))
        rw [hrest] at hhead'
        cases rest with
        | nil => rfl
        | cons d l =>
          have hd : d ≠ slash := by simpa using hhead'
          rw [components_cons hd] at hnone
          cases hnone
    · exact lt_of_lt_of_le (Nat.lt_succ_of_le hrsub.length_le) hsub.length_le
    · intro d hd
      exact hsub.subset (List.mem_cons_of_mem c (hrsub.subset hd))
    · intro d hd
      rw [← hname] at hd
      exact hsub.subset ((List.takeWhile_sublist _).subset (List.mem_of_mem_take hd))
    · rw [← hname]
      exact List.length_take_le ..

/-! ## The machine -/

structure World (σ : Type) where
  inodes : InodeRefs.Sys σ
  /-- `inode->lock`, by the address of the struct -/
  lock : Ptr → Semaphore
  /-- `thisproc()->cwd` -/
  cwd : Ptr

section Machine

variable {σ : Type} (C : AbstractCache σ) (sb : SuperBlock)

/-- the inode layer stops the kernel -/
def halted {α : Type} : Except Stop α → Except Halt α
  | .ok a => .ok a
  | .error _ => .error .panic

namespace World

variable (w : World σ)

/-- `inodes.get`; a new struct has a new lock -/
def get (kalloc : List Ptr → Ptr) (no : ℕ) : Except Halt (Ptr × World σ) :=
  (halted (w.inodes.get C sb (kalloc w.inodes.list) no)).map fun r =>
    (r.1, { w with
      inodes := r.2
      lock := if r.1 ∈ w.inodes.list then w.lock else update w.lock r.1 initSleeplock })

/-- `inodes.lock` by process pid. Nobody else runs, so it waits for ever when the lock is taken. -/
def wait (pid : ℕ) (p : Ptr) : Except Halt (World σ) :=
  if 0 < (w.inodes.heap p).rc then
    match waitSem pid (w.lock p) with
    | (true, l) => .ok { w with lock := update w.lock p l }
    | (false, _) => .error .panic
  else .error .assertion

/-- `inodes.unlock` -/
def post (p : Ptr) : Except Halt (World σ) :=
  if 0 < (w.inodes.heap p).rc then
    match postSem (w.lock p) with
    | some (_, l) => .ok { w with lock := update w.lock p l }
    | none => .error .assertion
  else .error .assertion

/-- `inodes.put`; an inode that is freed is locked for that -/
def put (p : Ptr) : Except Halt (World σ) :=
  if (w.inodes.heap p).rc = 1 ∧ (w.inodes.heap p).entry.numLinks = 0 ∧ (w.lock p).val < 1 then .error .panic
  else (halted (w.inodes.put C sb p)).map fun s => { w with inodes := s }

/-- `inodes.lookup` without an index; de is what is in its local variable -/
def lookup (de : DirEntry) (p : Ptr) (name : Name) : Except Halt (Option ℕ × World σ) :=
  (halted (exec C.handle (inodeLookup (w.inodes.heap p) (strOf name) none de) w.inodes.cache)).map fun r =>
    (if r.1.1 = 0 then none else some r.1.1, { w with inodes := { w.inodes with cache := r.2 } })

end World

/-- what the operations of the walk do -/
def handle (kalloc : List Ptr → Ptr) (de : DirEntry) (pid : ℕ) : Handler FsOp FsOp.Res Halt (World σ)
  | .cwd, w => .ok (w.cwd, w)
  | .get no, w => w.get C sb kalloc no
  | .share p, w => .ok ((), { w with inodes := w.inodes.share p })
  | .lock p, w => (w.wait pid p).map fun w' => ((), w')
  | .unlock p, w => (w.post p).map fun w' => ((), w')
  | .put p, w => (w.put C sb p).map fun w' => ((), w')
  | .entry p, w => .ok ((w.inodes.heap p).entry, w)
  | .lookup p name, w => w.lookup C de p name

def nameiparent (path : List UInt8) : FsM (Option (Ptr × Name)) := namex path true

/-! ## The tree -/

/-- the entry of an inode: the one in memory if it is there -/
def current (s : InodeRefs.Sys σ) (no : ℕ) : InodeEntry :=
  (s.find no).elim (s.entryOf C sb no) fun p => (s.heap p).entry

/-- the reference count of an inode; none is counted when it is not in memory -/
def count (s : InodeRefs.Sys σ) (no : ℕ) : ℕ := (s.find no).elim 0 fun p => (s.heap p).rc

/-- the entry of an inode that is not free; a free one has no blocks -/
def entries (s : InodeRefs.Sys σ) (no : ℕ) : InodeEntry :=
  if 0 < no ∧ no < sb.numInodes.toNat ∧ (current C sb s no).type ≠ inodeInvalid then current C sb s no else InodeEntry.zero

/-- directories lead from names to inode numbers -/
def tree (dirs : ℕ → List DirEntry) (s : InodeRefs.Sys σ) : Tree ℕ Name where
  isDir no := (current C sb s no).type = inodeDirectory
  child no name := (findFrom name (slots (dirs no)) 0).map Prod.fst

/-- where a path starts -/
def start (path : List UInt8) (w : World σ) : ℕ :=
  if path.head? = some slash then rootInodeNo else (w.inodes.heap w.cwd).inodeNo

/-- the inode is there, and has a link or is in use -/
structure Present (s : InodeRefs.Sys σ) (no : ℕ) : Prop where
  pos : 0 < no
  lt : no < sb.numInodes.toNat
  kept : 0 < count s no ∨ (current C sb s no).numLinks ≠ 0

/-- the bytes of a directory are the entries l -/
structure HasEntries (s : InodeRefs.Sys σ) (no : ℕ) (l : List DirEntry) : Prop where
  size : (current C sb s no).numBytes.toNat = 16 * l.length
  bytes : (fileOf (C.view s.cache).blk (current C sb s no)).content (16 * l.length) = encode l
  noHole : NoHole (C.view s.cache).blk (current C sb s no)

/-- a directory tree, and a process in one of its inodes -/
structure Ready (base : Set ℕ) (dirs : ℕ → List DirEntry) (w : World σ) : Prop where
  numbers : ∀ p ∈ w.inodes.list, 0 < (w.inodes.heap p).inodeNo ∧ (w.inodes.heap p).inodeNo < sb.numInodes.toNat
  one : ∀ p ∈ w.inodes.list, ∀ q ∈ w.inodes.list, (w.inodes.heap p).inodeNo = (w.inodes.heap q).inodeNo → p = q
  outer : ∀ no, no < sb.numInodes.toNat → toBlockNo sb no ∉ C.inner
  sound : Sound base C.inner (C.view w.inodes.cache) (entries C sb w.inodes)
  bytes : ∀ no, no < sb.numInodes.toNat → (current C sb w.inodes no).type = inodeDirectory →
    HasEntries C sb w.inodes no (dirs no)
  named : ∀ no, no < sb.numInodes.toNat → (current C sb w.inodes no).type = inodeDirectory →
    ∀ e ∈ dirs no, e.inodeNo ≠ 0 → Present C sb w.inodes e.inodeNo.toNat
  root : Present C sb w.inodes rootInodeNo
  cwd : w.cwd ∈ w.inodes.list ∧ 0 < (w.inodes.heap w.cwd).rc
  free : ∀ p ∈ w.inodes.list, w.lock p = initSleeplock

/-- the walk from w has ended at an inode, or nowhere: one more reference to that inode, nothing else -/
structure Ended (w : World σ) (target : Option ℕ) (r : Option Ptr) (w' : World σ) : Prop where
  result : r.map (fun p => (w'.inodes.heap p).inodeNo) = target
  mem : ∀ p ∈ r, p ∈ w'.inodes.list
  counts : ∀ no, count w'.inodes no = count w.inodes no + if target = some no then 1 else 0
  locks : ∀ p ∈ w'.inodes.list, w'.lock p = initSleeplock
  view : C.view w'.inodes.cache = C.view w.inodes.cache

end Machine

/-! ## Inodes by number -/

section Numbers

variable {σ : Type} {C : AbstractCache σ} {sb : SuperBlock} {s : InodeRefs.Sys σ} {p no : ℕ}

/-- one struct for each number -/
def Distinct (s : InodeRefs.Sys σ) : Prop :=
  ∀ p ∈ s.list, ∀ q ∈ s.list, (s.heap p).inodeNo = (s.heap q).inodeNo → p = q

theorem find_of_mem (hone : Distinct s) (hp : p ∈ s.list) : s.find (s.heap p).inodeNo = some p := by
  cases hfind : s.find (s.heap p).inodeNo with
  | none => exact absurd rfl (find_eq_none hfind p hp)
  | some q =>
    obtain ⟨hq, hno⟩ := find_eq_some hfind
    rw [hone q hq p hp hno]

theorem current_of_mem (hone : Distinct s) (hp : p ∈ s.list) : current C sb s (s.heap p).inodeNo = (s.heap p).entry := by
  rw [current, find_of_mem hone hp]
  rfl

theorem count_of_mem (hone : Distinct s) (hp : p ∈ s.list) : count s (s.heap p).inodeNo = (s.heap p).rc := by
  rw [count, find_of_mem hone hp]
  rfl

/-- counting changes no number and no entry -/
theorem recount_heap (s : InodeRefs.Sys σ) (p n : ℕ) (refs : List ℕ) (q : ℕ) :
    ((s.recount p n refs).heap q).inodeNo = (s.heap q).inodeNo ∧ ((s.recount p n refs).heap q).entry = (s.heap q).entry := by
  by_cases hq : q = p
  · simp [InodeRefs.Sys.recount, hq]
  · simp [InodeRefs.Sys.recount, hq]

theorem find_recount (n : ℕ) (refs : List ℕ) (no : ℕ) : (s.recount p n refs).find no = s.find no := by
  apply List.find?_congr
  intro q _
  rw [(recount_heap s p n refs q).1]

theorem current_recount (n : ℕ) (refs : List ℕ) (no : ℕ) : current C sb (s.recount p n refs) no = current C sb s no := by
  rw [current, current, find_recount]
  cases s.find no with
  | none => rfl
  | some q => exact (recount_heap s p n refs q).2

theorem count_recount (hone : Distinct s) (hp : p ∈ s.list) (n : ℕ) (refs : List ℕ) (no : ℕ) :
    count (s.recount p n refs) no = if no = (s.heap p).inodeNo then n else count s no := by
  rw [count, find_recount]
  by_cases hno : no = (s.heap p).inodeNo
  · rw [if_pos hno, hno, find_of_mem hone hp]
    simp [InodeRefs.Sys.recount]
  · rw [if_neg hno, count]
    cases hfind : s.find no with
    | none => rfl
    | some q =>
      have hqp : q ≠ p := by
        rintro rfl
        exact hno (find_eq_some hfind).2.symm
      simp [InodeRefs.Sys.recount, hqp]

theorem find_load (hp : p ∉ s.list) (inode : Inode) (c : σ) (m : ℕ) :
    (s.load p inode c).find m = if m = inode.inodeNo then some p else s.find m := by
  have hself : (s.load p inode c).heap p = inode := update_self ..
  by_cases hm : m = inode.inodeNo
  · rw [if_pos hm]
    apply List.find?_cons_of_pos
    rw [hself, hm]
    exact decide_eq_true rfl
  · rw [if_neg hm]
    have hskip : (s.load p inode c).find m = s.list.find? fun q => ((s.load p inode c).heap q).inodeNo = m := by
      apply List.find?_cons_of_neg
      rw [hself]
      simpa using Ne.symm hm
    rw [hskip]
    apply List.find?_congr
    intro q hq
    have hqp : q ≠ p := fun he => hp (he ▸ hq)
    have hheap : (s.load p inode c).heap q = s.heap q := update_of_ne hqp ..
    rw [hheap]

/-- loading an inode does not change its entry -/
theorem current_load (hp : p ∉ s.list) (hfind : s.find no = none) {c : σ} (hv : C.view c = C.view s.cache) (n m : ℕ) :
    current C sb (s.load p ⟨no, n, true, s.entryOf C sb no⟩ c) m = current C sb s m := by
  rw [current, find_load hp]
  by_cases hm : m = no
  · rw [if_pos hm, hm, current, hfind]
    simp [InodeRefs.Sys.load]
  · rw [if_neg hm, current]
    cases hq : s.find m with
    | none =>
      change onDisk sb (C.view c).blk m = _
      rw [hv]
      rfl
    | some q =>
      have hqp : q ≠ p := by
        rintro rfl
        exact hp (find_eq_some hq).1
      simp [InodeRefs.Sys.load, hqp]

theorem count_load (hp : p ∉ s.list) (n : ℕ) (e : InodeEntry) (c : σ) (m : ℕ) :
    count (s.load p ⟨no, n, true, e⟩ c) m = if m = no then n else count s m := by
  rw [count, find_load hp]
  by_cases hm : m = no
  · rw [if_pos hm, if_pos hm]
    simp [InodeRefs.Sys.load]
  · rw [if_neg hm, if_neg hm, count]
    cases hq : s.find m with
    | none => rfl
    | some q =>
      have hqp : q ≠ p := by
        rintro rfl
        exact hp (find_eq_some hq).1
      simp [InodeRefs.Sys.load, hqp]

end Numbers

/-! ## One operation of the walk -/

section Walk

variable {σ : Type} {C : AbstractCache σ} {sb : SuperBlock} {base : Set ℕ} {dirs : ℕ → List DirEntry}
  {kalloc : List Ptr → Ptr} {de : DirEntry} {pid : ℕ} {E : Halt → Prop} {w₀ w : World σ} {held : List ℕ}
  {locked : Option Ptr} {p no : ℕ}

/-- The walk from w₀ has come to w. It holds a reference to each of the inodes `held`, and the lock of the struct `locked`. -/
structure Along (C : AbstractCache σ) (sb : SuperBlock) (w₀ : World σ) (held : List ℕ) (locked : Option Ptr) (w : World σ) :
    Prop where
  view : C.view w.inodes.cache = C.view w₀.inodes.cache
  numbers : ∀ p ∈ w.inodes.list, 0 < (w.inodes.heap p).inodeNo ∧ (w.inodes.heap p).inodeNo < sb.numInodes.toNat
  one : Distinct w.inodes
  entry : ∀ no, current C sb w.inodes no = current C sb w₀.inodes no
  count : ∀ no, count w.inodes no = PathWalk.count w₀.inodes no + held.count no
  mem : ∀ p, locked = some p → p ∈ w.inodes.list
  locks : ∀ p ∈ w.inodes.list, w.lock p = if locked = some p then ⟨0, []⟩ else initSleeplock

/-- the struct at p is that of inode no -/
def At (w : World σ) (p no : ℕ) : Prop := p ∈ w.inodes.list ∧ (w.inodes.heap p).inodeNo = no

/-- structs stay where they are -/
def Stays (w w' : World σ) : Prop := ∀ q m, At w q m → At w' q m

theorem along_start (h : Ready C sb base dirs w) : Along C sb w [] none w :=
  ⟨rfl, h.numbers, h.one, fun _ => rfl, fun _ => rfl, fun _ hp => (Option.some_ne_none _ hp.symm).elim, h.free⟩

theorem Along.rc_eq (h : Along C sb w₀ held locked w) (hat : At w p no) :
    (w.inodes.heap p).rc = PathWalk.count w₀.inodes no + held.count no := by
  rw [← h.count no, ← hat.2, count_of_mem h.one hat.1]

theorem Along.entry_eq (h : Along C sb w₀ held locked w) (hat : At w p no) :
    (w.inodes.heap p).entry = current C sb w₀.inodes no := by
  rw [← h.entry no, ← hat.2, current_of_mem h.one hat.1]

/-- who holds a reference to an inode finds its count positive -/
theorem Along.rc_pos (h : Along C sb w₀ held locked w) (hat : At w p no) (hno : no ∈ held) : 0 < (w.inodes.heap p).rc := by
  rw [h.rc_eq hat]
  exact Nat.add_pos_right _ (List.count_pos_iff.2 hno)

theorem stays_recount (n : ℕ) (refs : List ℕ) : Stays w { w with inodes := w.inodes.recount p n refs } := by
  intro q m hq
  exact ⟨hq.1, (recount_heap w.inodes p n refs q).1.trans hq.2⟩

theorem Along.recount {n : ℕ} {refs held' : List ℕ} (h : Along C sb w₀ held locked w) (hat : At w p no)
    (hn : n = PathWalk.count w₀.inodes no + held'.count no) (hother : ∀ m, m ≠ no → held'.count m = held.count m) :
    Along C sb w₀ held' locked { w with inodes := w.inodes.recount p n refs } := by
  have hheap := recount_heap w.inodes p n refs
  refine ⟨h.view, ?_, ?_, ?_, ?_, h.mem, h.locks⟩
  · intro q hq
    rw [(hheap q).1]
    exact h.numbers q hq
  · intro q hq q' hq' he
    rw [(hheap q).1, (hheap q').1] at he
    exact h.one q hq q' hq' he
  · intro m
    exact (current_recount n refs m).trans (h.entry m)
  · intro m
    rw [count_recount h.one hat.1, hat.2]
    by_cases hm : m = no
    · rw [if_pos hm, hm, hn]
    · rw [if_neg hm, h.count m, hother m hm]

theorem after_ok {o : FsOp} {a : o.Res} {w' : World σ} {Q : o.Res → World σ → Prop}
    (h : handle C sb kalloc de pid o w = .ok (a, w')) (hQ : Q a w') :
    After (handle C sb kalloc de pid) E Q (perform o) w := by
  rw [after_call, h]
  exact hQ

theorem after_share {Q : Unit → World σ → Prop} (h : Along C sb w₀ held locked w) (hat : At w p no)
    (hQ : ∀ w', Along C sb w₀ (no :: held) locked w' → Stays w w' → Q () w') :
    After (handle C sb kalloc de pid) E Q (FsM.share p) w := by
  refine after_ok (o := .share p) rfl (hQ _ ?_ (stays_recount _ _))
  apply h.recount hat
  · rw [h.rc_eq hat, List.count_cons_self, Nat.add_assoc]
  · intro m hm
    exact List.count_cons_of_ne hm.symm

/-- `inodes.get` of an inode in memory or not -/
theorem after_get {Q : ℕ → World σ → Prop} (hk : ∀ l, kalloc l ∉ l) (h : Along C sb w₀ held locked w) (hpos : 0 < no)
    (hlt : no < sb.numInodes.toNat) (hout : toBlockNo sb no ∉ C.inner)
    (hQ : ∀ q w', Along C sb w₀ (no :: held) locked w' → At w' q no → Stays w w' → Q q w') :
    After (handle C sb kalloc de pid) E Q (FsM.get no) w := by
  cases hfind : w.inodes.find no with
  | some q =>
    obtain ⟨hq, hno⟩ := find_eq_some hfind
    have hget : handle C sb kalloc de pid (.get no) w = .ok (q, { w with inodes := w.inodes.share q }) := by
      change w.get C sb kalloc no = _
      rw [World.get, InodeRefs.Sys.get, if_pos ⟨hpos, hlt⟩, hfind]
      simp only [halted, Except.map, if_pos hq]
      rfl
    have hat : At w q no := ⟨hq, hno⟩
    refine after_ok (o := .get no) hget (hQ _ _ ?_ (stays_recount _ _ q no hat) (stays_recount _ _))
    apply h.recount hat
    · rw [h.rc_eq hat, List.count_cons_self, Nat.add_assoc]
    · intro m hm
      exact List.count_cons_of_ne hm.symm
  | none =>
    obtain ⟨inode, c, hexec, rfl, hv⟩ := (inodeGet_spec C (s := w.inodes.cache) hpos hlt hout).returns
    set q := kalloc w.inodes.list with hqdef
    have hq : q ∉ w.inodes.list := hk _
    set s := w.inodes.load q ⟨no, 1, true, w.inodes.entryOf C sb no⟩ c with hs
    have hget : handle C sb kalloc de pid (.get no) w =
        .ok (q, { w with inodes := s, lock := update w.lock q initSleeplock }) := by
      change w.get C sb kalloc no = _
      rw [World.get, InodeRefs.Sys.get, if_pos ⟨hpos, hlt⟩, hfind]
      simp only [hexec]
      change Except.ok (q, { w with inodes := s, lock := if q ∈ w.inodes.list then _ else _ }) = _
      rw [if_neg hq]
      rfl
    have hself : s.heap q = ⟨no, 1, true, w.inodes.entryOf C sb no⟩ := update_self ..
    have hne : ∀ x ∈ w.inodes.list, x ≠ q := fun x hx he => hq (he ▸ hx)
    have hheap : ∀ x ∈ w.inodes.list, s.heap x = w.inodes.heap x := fun x hx => update_of_ne (hne x hx) ..
    have hnew := find_eq_none hfind
    refine after_ok (o := .get no) hget (hQ _ _ ?_ ⟨List.mem_cons_self, by rw [hself]⟩ ?_)
    · refine ⟨hv.trans h.view, ?_, ?_, ?_, ?_, ?_, ?_⟩
      · intro x hx
        rcases List.mem_cons.1 hx with rfl | hx
        · rw [hself]
          exact ⟨hpos, hlt⟩
        · change 0 < (s.heap x).inodeNo ∧ (s.heap x).inodeNo < _
          rw [hheap x hx]
          exact h.numbers x hx
      · intro x hx y hy he
        change (s.heap x).inodeNo = (s.heap y).inodeNo at he
        rcases List.mem_cons.1 hx with rfl | hx
        · rcases List.mem_cons.1 hy with rfl | hy
          · rfl
          · rw [hself, hheap y hy] at he
            exact absurd he.symm (hnew y hy)
        · rcases List.mem_cons.1 hy with rfl | hy
          · rw [hself, hheap x hx] at he
            exact absurd he (hnew x hx)
          · rw [hheap x hx, hheap y hy] at he
            exact h.one x hx y hy he
      · intro m
        exact (current_load hq hfind hv 1 m).trans (h.entry m)
      · intro m
        change count s m = _
        rw [hs, count_load hq]
        by_cases hm : m = no
        · -- it was not in memory, so nobody had a reference
          have hzero : count w.inodes no = 0 := by
            rw [count, hfind]
            rfl
          have hsum := h.count no
          rw [hzero] at hsum
          rw [if_pos hm, hm, List.count_cons_self]
          omega
        · rw [if_neg hm, h.count m, List.count_cons_of_ne (Ne.symm hm)]
      · intro x hx
        exact List.mem_cons_of_mem _ (h.mem x hx)
      · intro x hx
        change update w.lock q initSleeplock x = _
        rcases List.mem_cons.1 hx with rfl | hx
        · rw [update_self, if_neg fun hl => hq (h.mem _ hl)]
        · rw [update_of_ne (hne x hx)]
          exact h.locks x hx
    · intro x m hx
      refine ⟨List.mem_cons_of_mem _ hx.1, ?_⟩
      change (s.heap x).inodeNo = m
      rw [hheap x hx.1]
      exact hx.2

/-- `inodes.put` on the way frees nothing -/
theorem after_put {Q : Unit → World σ → Prop} (h : Along C sb w₀ held locked w) (hat : At w p no) (hno : no ∈ held)
    (hex : Present C sb w₀.inodes no)
    (hQ : ∀ w', Along C sb w₀ (held.erase no) locked w' → Stays w w' → Q () w') :
    After (handle C sb kalloc de pid) E Q (FsM.put p) w := by
  have hrc := h.rc_eq hat
  have hpos := List.count_pos_iff.2 hno
  -- another reference, or a link
  have hkept : ¬ ((w.inodes.heap p).rc = 1 ∧ (w.inodes.heap p).entry.numLinks = 0) := by
    rintro ⟨h1, h2⟩
    rw [h.entry_eq hat] at h2
    rcases hex.kept with hcount | hlinks
    · omega
    · exact hlinks h2
  have hput : handle C sb kalloc de pid (.put p) w = .ok ((), { w with inodes := w.inodes.drop p }) := by
    change (w.put C sb p).map _ = _
    rw [World.put, if_neg fun hc => hkept ⟨hc.1, hc.2.1⟩, InodeRefs.Sys.put, inodePut, if_neg hkept]
    rfl
  refine after_ok (o := .put p) hput (hQ _ ?_ (stays_recount _ _))
  apply h.recount hat
  · rw [List.count_erase_self]
    omega
  · intro m hm
    exact List.count_erase_of_ne hm

theorem after_lock {Q : Unit → World σ → Prop} (h : Along C sb w₀ held none w) (hat : At w p no) (hno : no ∈ held)
    (hQ : ∀ w', Along C sb w₀ held (some p) w' → Stays w w' → Q () w') :
    After (handle C sb kalloc de pid) E Q (FsM.lock p) w := by
  have hfree : w.lock p = initSleeplock := (h.locks p hat.1).trans (if_neg (Option.some_ne_none p).symm)
  have hlock : handle C sb kalloc de pid (.lock p) w =
      .ok ((), { w with lock := update w.lock p ⟨0, []⟩ }) := by
    change (w.wait pid p).map _ = _
    rw [World.wait, if_pos (h.rc_pos hat hno), hfree]
    rfl
  refine after_ok (o := .lock p) hlock (hQ _ ⟨h.view, h.numbers, h.one, h.entry, h.count, ?_, ?_⟩ fun _ _ hq => hq)
  · intro q hq
    rw [← Option.some.inj hq]
    exact hat.1
  · intro q hq
    by_cases hqp : q = p
    · rw [hqp, if_pos rfl]
      exact update_self ..
    · rw [if_neg fun he => hqp (Option.some.inj he).symm]
      exact (update_of_ne hqp ..).trans ((h.locks q hq).trans (if_neg (Option.some_ne_none q).symm))

theorem after_unlock {Q : Unit → World σ → Prop} (h : Along C sb w₀ held (some p) w) (hat : At w p no) (hno : no ∈ held)
    (hQ : ∀ w', Along C sb w₀ held none w' → Stays w w' → Q () w') :
    After (handle C sb kalloc de pid) E Q (FsM.unlock p) w := by
  have htaken : w.lock p = ⟨0, []⟩ := (h.locks p hat.1).trans (if_pos rfl)
  have hunlock : handle C sb kalloc de pid (.unlock p) w =
      .ok ((), { w with lock := update w.lock p initSleeplock }) := by
    change (w.post p).map _ = _
    rw [World.post, if_pos (h.rc_pos hat hno), htaken]
    rfl
  refine after_ok (o := .unlock p) hunlock (hQ _ ⟨h.view, h.numbers, h.one, h.entry, h.count, ?_, ?_⟩ fun _ _ hq => hq)
  · intro q hq
    cases hq
  · intro q hq
    rw [if_neg (Option.some_ne_none q).symm]
    by_cases hqp : q = p
    · rw [hqp]
      exact update_self ..
    · exact (update_of_ne hqp ..).trans ((h.locks q hq).trans (if_neg fun he => hqp (Option.some.inj he).symm))

theorem after_unlockput {Q : Unit → World σ → Prop} (h : Along C sb w₀ held (some p) w) (hat : At w p no) (hno : no ∈ held)
    (hex : Present C sb w₀.inodes no)
    (hQ : ∀ w', Along C sb w₀ (held.erase no) none w' → Stays w w' → Q () w') :
    After (handle C sb kalloc de pid) E Q (unlockput p) w := by
  rw [unlockput, after_bind]
  refine after_unlock h hat hno fun w1 h1 hs1 => ?_
  refine after_put h1 (hs1 p no hat) hno hex fun w2 h2 hs2 => hQ w2 h2 fun q m hq => hs2 q m (hs1 q m hq)

/-- `inodes.lookup` finds where the tree leads -/
theorem after_lookup {Q : Option ℕ → World σ → Prop} {name : Name} (hr : Ready C sb base dirs w₀)
    (h : Along C sb w₀ held locked w) (hat : At w p no) (hdir : (current C sb w₀.inodes no).type = inodeDirectory)
    (h0 : 0 ∉ name) (hlen : name.length ≤ 14)
    (hQ : ∀ w', Along C sb w₀ held locked w' → Stays w w' → Q ((tree C sb dirs w₀.inodes).child no name) w') :
    After (handle C sb kalloc de pid) E Q (FsM.lookup p name) w := by
  have hentry := h.entry_eq hat
  have hnumber := h.numbers p hat.1
  rw [hat.2] at hnumber
  have hbytes := hr.bytes no hnumber.2 hdir
  have hkey : key (strOf name) = name := (cstr_strOf h0 _).trans (List.take_of_length_le hlen)
  have hentries : entries C sb w₀.inodes no = (w.inodes.heap p).entry := by
    rw [entries, if_pos ⟨hnumber.1, hnumber.2, by rw [hdir]; decide⟩, hentry]
  have hlists : Lists C base w.inodes.cache (entries C sb w₀.inodes) no (w.inodes.heap p) (dirs no) := by
    refine ⟨h.view ▸ hr.sound, hentries, ?_, ?_, ?_, ?_⟩
    · rw [hentry, hdir]
      decide
    · rw [hentry, hbytes.size]
    · intro k hk
      rw [h.view, hentry]
      exact hbytes.noHole k (hbytes.size ▸ hk)
    · rw [h.view, hentry]
      exact hbytes.bytes
  have hspec : After C.handle (fun _ => False) _ (inodeLookup (w.inodes.heap p) (strOf name) none de) w.inodes.cache :=
    inodeLookup_lists C hlists (by rw [hentry, hbytes.size]) none de
  obtain ⟨r, c, hexec, rfl, hv⟩ := hspec.returns
  rw [hkey] at hexec
  have hlook : w.lookup C de p name = .ok ((tree C sb dirs w₀.inodes).child no name,
      { w with inodes := { w.inodes with cache := c } }) := by
    rw [World.lookup, hexec]
    simp only [halted, Except.map, tree]
    cases hfind : findFrom name (slots (dirs no)) 0 with
    | none => rfl
    | some x => simp [answer, number_ne_zero hfind]
  refine after_ok (o := .lookup p name) hlook (hQ _ ?_ fun _ _ hq => hq)
  refine ⟨hv.trans h.view, h.numbers, h.one, ?_, h.count, h.mem, h.locks⟩
  intro m
  rw [← h.entry m]
  change (w.inodes.find m).elim (onDisk sb (C.view c).blk m) _ = (w.inodes.find m).elim (onDisk sb (C.view _).blk m) _
  rw [hv]

/-- an inode that a directory leads to exists -/
theorem present_of_child (hr : Ready C sb base dirs w₀) (hlt : no < sb.numInodes.toNat)
    (hdir : (current C sb w₀.inodes no).type = inodeDirectory) {name : Name} {m : ℕ}
    (hchild : (tree C sb dirs w₀.inodes).child no name = some m) : Present C sb w₀.inodes m := by
  obtain ⟨⟨n, j⟩, hfind, rfl⟩ := Option.map_eq_some_iff.1 hchild
  obtain ⟨i, -, hi⟩ := getElem?_of_findFrom hfind
  rw [slots_getElem?] at hi
  obtain ⟨e, he, hslot⟩ := Option.map_eq_some_iff.1 hi
  have hne : e.inodeNo ≠ 0 := by
    intro hz
    rw [DirEntry.slot_eq_none.2 hz] at hslot
    cases hslot
  have hex := hr.named no hlt hdir e (List.mem_of_getElem? he) hne
  rw [DirEntry.slot, if_neg hne, Option.some.injEq, Prod.mk.injEq] at hslot
  rwa [hslot.2] at hex

/-! ## The walk -/

/-- the walk has ended: where the names lead with a reference to that inode, or nowhere without any -/
def Arrived (C : AbstractCache σ) (sb : SuperBlock) (w₀ : World σ) (target : Option (ℕ × Name)) (r : Option (Ptr × Name))
    (w : World σ) : Prop :=
  match target with
  | none => r = none ∧ Along C sb w₀ [] none w
  | some (no, name) => ∃ p, r = some (p, name) ∧ At w p no ∧ Along C sb w₀ [no] none w

theorem namexEnd_spec (parent : Bool) (name : Name) (h : Along C sb w₀ [no] none w) (hat : At w p no)
    (hex : Present C sb w₀.inodes no) :
    After (handle C sb kalloc de pid) E (Arrived C sb w₀ (if parent then none else some (no, name)))
      (namexEnd parent name p) w := by
  unfold namexEnd
  cases parent with
  | true =>
    rw [if_pos rfl, if_pos rfl, after_bind]
    refine after_put h hat List.mem_cons_self hex fun w' h' _ => ?_
    rw [List.erase_cons_head] at h'
    exact ⟨rfl, h'⟩
  | false =>
    rw [if_neg Bool.false_ne_true, if_neg Bool.false_ne_true]
    exact ⟨p, rfl, hat, h⟩

/-- The loop resolves what is left of the path. By induction on the fuel; each turn takes one component, and hands the
reference and the lock on to the next inode. -/
theorem namexLoop_spec (hk : ∀ l, kalloc l ∉ l) (hr : Ready C sb base dirs w₀) (parent : Bool) (fuel : ℕ)
    {path : List UInt8} (h0 : 0 ∉ path) (hfuel : path.length ≤ fuel) (name : Name) (h : Along C sb w₀ [no] none w)
    (hat : At w p no) (hex : Present C sb w₀.inodes no) :
    After (handle C sb kalloc de pid) E
      (Arrived C sb w₀ ((tree C sb dirs w₀.inodes).resolve parent name no (components path)))
      (namexLoop parent fuel path name p) w := by
  induction fuel generalizing path name w p no with
  | zero =>
    obtain rfl : path = [] := List.eq_nil_of_length_eq_zero (Nat.le_zero.1 hfuel)
    exact namexEnd_spec parent name h hat hex
  | succ fuel ih =>
    rw [namexLoop]
    cases hskip : skipelem path with
    | none =>
      rw [skipelem_none hskip]
      exact namexEnd_spec parent name h hat hex
    | some r =>
      obtain ⟨rest, elem⟩ := r
      have hs := skipelem_some hskip
      rw [hs.components, Tree.resolve]
      dsimp only
      rw [after_bind]
      refine after_lock h hat List.mem_cons_self fun w1 h1 hs1 => ?_
      have hat1 := hs1 p no hat
      rw [after_bind]
      refine after_ok (o := .entry p) rfl ?_
      rw [h1.entry_eq hat1]
      by_cases hdir : (current C sb w₀.inodes no).type = inodeDirectory
      · have hisDir : (tree C sb dirs w₀.inodes).isDir no = true := decide_eq_true hdir
        rw [if_neg (not_not.2 hdir), if_pos hisDir]
        by_cases hlast : parent = true ∧ rest = []
        · rw [if_pos hlast, if_pos ⟨hlast.1, hs.last.1 hlast.2⟩, after_bind]
          refine after_unlock h1 hat1 List.mem_cons_self fun w2 h2 hs2 => ?_
          exact ⟨p, rfl, hs2 p no hat1, h2⟩
        · rw [if_neg hlast, if_neg fun hl => hlast ⟨hl.1, hs.last.2 hl.2⟩, after_bind]
          refine after_lookup hr h1 hat1 hdir (fun hin => h0 (hs.nameChars 0 hin)) hs.nameLength fun w2 h2 hs2 => ?_
          have hat2 := hs2 p no hat1
          cases hchild : (tree C sb dirs w₀.inodes).child no elem with
          | none =>
            rw [Option.bind_none, after_bind]
            refine after_unlockput h2 hat2 List.mem_cons_self hex fun w3 h3 _ => ?_
            rw [List.erase_cons_head] at h3
            exact ⟨rfl, h3⟩
          | some m =>
            have hexm := present_of_child hr hex.lt hdir hchild
            rw [Option.bind_some]
            dsimp only
            rw [after_bind]
            refine after_get hk h2 hexm.pos hexm.lt (hr.outer m hexm.lt) fun q w3 h3 hq3 hs3 => ?_
            rw [after_bind]
            refine after_unlockput h3 (hs3 p no hat2) (List.mem_cons_of_mem m List.mem_cons_self) hex fun w4 h4 hs4 => ?_
            -- only the reference to the next inode is left, be it the same inode or another
            have hheld : (m :: [no]).erase no = [m] := by
              by_cases hm : m = no
              · rw [hm, List.erase_cons_head]
              · rw [List.erase_cons_tail (by simpa using hm), List.erase_cons_head]
            rw [hheld] at h4
            have hlen := hs.shorter
            exact ih (fun hin => h0 (hs.restChars 0 hin)) (by omega) elem h4 (hs4 q m hq3) hexm
      · have hisDir : ¬ (tree C sb dirs w₀.inodes).isDir no = true := fun hd => hdir (of_decide_eq_true hd)
        rw [if_pos hdir, if_neg hisDir, after_bind]
        refine after_unlockput h1 hat1 List.mem_cons_self hex fun w2 h2 _ => ?_
        rw [List.erase_cons_head] at h2
        exact ⟨rfl, h2⟩

theorem namex_spec (hk : ∀ l, kalloc l ∉ l) (hr : Ready C sb base dirs w) {path : List UInt8} (h0 : 0 ∉ path) (parent : Bool) :
    After (handle C sb kalloc de pid) E
      (Arrived C sb w ((tree C sb dirs w.inodes).resolve parent [] (start path w) (components path)))
      (namex path parent) w := by
  have hstart := along_start hr
  rw [namex, after_bind, namexStart, start]
  by_cases hroot : path.head? = some slash
  · rw [if_pos hroot, if_pos hroot]
    refine after_get hk hstart hr.root.pos hr.root.lt (hr.outer _ hr.root.lt) fun q w' h' hq _ => ?_
    exact namexLoop_spec hk hr parent _ h0 le_rfl [] h' hq hr.root
  · rw [if_neg hroot, if_neg hroot, after_bind]
    refine after_ok (o := .cwd) rfl ?_
    rw [after_bind]
    have hat : At w w.cwd (w.inodes.heap w.cwd).inodeNo := ⟨hr.cwd.1, rfl⟩
    have hnumber := hr.numbers w.cwd hr.cwd.1
    have hex : Present C sb w.inodes (w.inodes.heap w.cwd).inodeNo :=
      ⟨hnumber.1, hnumber.2, Or.inl (by rw [count_of_mem hr.one hr.cwd.1]; exact hr.cwd.2)⟩
    refine after_share hstart hat fun w' h' hs => ?_
    exact namexLoop_spec hk hr parent _ h0 le_rfl [] h' (hs _ _ hat) hex

theorem Arrived.ended {target : Option (ℕ × Name)} {r : Option (Ptr × Name)} {w' : World σ} (h : Arrived C sb w target r w') :
    Ended C w (target.map Prod.fst) (r.map Prod.fst) w' ∧ r.map Prod.snd = target.map Prod.snd := by
  cases target with
  | none =>
    obtain ⟨rfl, h⟩ := h
    refine ⟨⟨rfl, fun _ hp => by simp at hp, fun no => ?_, h.locks, h.view⟩, rfl⟩
    rw [h.count no, Option.map_none, if_neg (Option.some_ne_none no).symm]
    rfl
  | some x =>
    obtain ⟨no, name⟩ := x
    obtain ⟨p, rfl, hat, h⟩ := h
    refine ⟨⟨congrArg some hat.2, fun q hq => ?_, fun m => ?_, h.locks, h.view⟩, rfl⟩
    · obtain rfl : p = q := by simpa using hq
      exact hat.1
    · rw [h.count m, Option.map_some]
      by_cases hm : no = m
      · rw [hm, if_pos rfl, List.count_singleton_self]
      · rw [if_neg fun he => hm (Option.some.inj he), List.count_cons_of_ne hm]
        rfl

/-- **Path resolution.** `namei` returns the inode the components of the path lead to, and NULL exactly when some inode on the
way is not a directory or does not have the next component. `nameiparent` returns the directory of the last component, and
that component in `name`; NULL exactly when there is no component, the way to that inode is blocked, or it is no directory. In
every case the count of the inode that is returned has grown by one, the other counts are as before, and all locks are free. -/
theorem paths_resolved (hk : ∀ l, kalloc l ∉ l) (hr : Ready C sb base dirs w) {path : List UInt8} (h0 : 0 ∉ path) :
    (∃ r w', exec (handle C sb kalloc de pid) (namei path) w = .ok (r, w') ∧
      Ended C w ((tree C sb dirs w.inodes).follow (start path w) (components path)) r w' ∧
      (r = none ↔ (tree C sb dirs w.inodes).Blocked (start path w) (components path))) ∧
    ∃ r w', exec (handle C sb kalloc de pid) (nameiparent path) w = .ok (r, w') ∧
      Ended C w (((tree C sb dirs w.inodes).followParent (start path w) (components path)).map Prod.fst) (r.map Prod.fst) w' ∧
      r.map Prod.snd = ((tree C sb dirs w.inodes).followParent (start path w) (components path)).map Prod.snd ∧
      (r = none ↔ components path = [] ∨
        (tree C sb dirs w.inodes).Blocked (start path w) (components path).dropLast ∨
        ∃ no, (tree C sb dirs w.inodes).follow (start path w) (components path).dropLast = some no ∧
          (tree C sb dirs w.inodes).isDir no = false) := by
  constructor
  · have hspec : After (handle C sb kalloc de pid) (fun _ => False) _ (namex path false) w := namex_spec hk hr h0 false
    obtain ⟨r, w', hexec, harr⟩ := hspec.returns
    have hend := harr.ended.1
    rw [resolve_false] at hend
    refine ⟨r.map Prod.fst, w', ?_, hend, ?_⟩
    · rw [namei, exec_bind, hexec]
      rfl
    · rw [← follow_eq_none, ← hend.result]
      exact Option.map_eq_none_iff.symm
  · have hspec : After (handle C sb kalloc de pid) (fun _ => False) _ (namex path true) w := namex_spec hk hr h0 true
    obtain ⟨r, w', hexec, harr⟩ := hspec.returns
    rw [resolve_true] at harr
    obtain ⟨hend, hname⟩ := harr.ended
    refine ⟨r, w', hexec, hend, hname, ?_⟩
    rw [← followParent_eq_none, ← Option.map_eq_none_iff (f := Prod.snd), hname, Option.map_eq_none_iff]

end Walk

/-! ## A tree -/

/-- an address that is not in use -/
def newAddr (l : List Ptr) : Ptr := l.foldr max 0 + 1

theorem newAddr_notMem (l : List Ptr) : newAddr l ∉ l := by
  have hle : ∀ x ∈ l, x ≤ l.foldr max 0 := by
    induction l with
    | nil => simp
    | cons y l ih =>
      intro x hx
      rcases List.mem_cons.1 hx with rfl | hx
      · exact le_max_left ..
      · exact (ih x hx).trans (le_max_right ..)
  intro hin
  exact absurd (hle _ hin) (Nat.not_succ_le_self _)

def rootEntry : InodeEntry := ⟨inodeDirectory, 0, 0, 1, 48, fun k => if k = 0 then 92 else 0, 0⟩

def fileEntry : InodeEntry := ⟨inodeRegular, 0, 0, 1, 0, fun _ => 0, 0⟩

/-- `.`, `..` and a file f -/
def rootDir : List DirEntry :=
  [DirEntry.zero.assign (strOf [46]) 1, DirEntry.zero.assign (strOf [46, 46]) 1, DirEntry.zero.assign (strOf [102]) 2]

/-- the blocks up to the bitmap are in use, and the one of the root directory -/
def smallDisk : View :=
  (((⟨fun _ => Bytes.zeros, { n | n ≤ 92 }⟩ : View).putEntry mkfsSuperBlock 1 rootEntry).putEntry mkfsSuperBlock 2
    fileEntry).set 92 fun j => (encode rootDir).getD j 0

/-- a process in the root directory, which is in memory -/
def smallWorld : World View := ⟨⟨smallDisk, fun _ => ⟨1, 2, true, rootEntry⟩, [10], [10, 10]⟩, fun _ => initSleeplock, 10⟩

theorem smallWorld_find (no : ℕ) : smallWorld.inodes.find no = if no = 1 then some 10 else none := by
  by_cases hno : no = 1
  · rw [if_pos hno, hno]
    rfl
  · rw [if_neg hno]
    apply List.find?_eq_none.2
    intro p _ hp
    exact hno (of_decide_eq_true hp).symm

theorem smallWorld_current {no : ℕ} (hlt : no < 200) :
    current viewCache mkfsSuperBlock smallWorld.inodes no =
      if no = 1 then rootEntry else if no = 2 then fileEntry else InodeEntry.zero := by
  rw [current, smallWorld_find]
  by_cases h1 : no = 1
  · rw [if_pos h1, if_pos h1]
    rfl
  · rw [if_neg h1, if_neg h1]
    have hne : toBlockNo mkfsSuperBlock no ≠ 92 := by
      change 65 + no / 8 ≠ 92
      omega
    have hblk : onDisk mkfsSuperBlock smallDisk.blk no = onDisk mkfsSuperBlock
        (((⟨fun _ => Bytes.zeros, { n | n ≤ 92 }⟩ : View).putEntry mkfsSuperBlock 1 rootEntry).putEntry mkfsSuperBlock 2
          fileEntry).blk no := onDisk_congr (update_of_ne hne ..)
    change onDisk mkfsSuperBlock smallDisk.blk no = _
    rw [hblk, onDisk_putEntry, onDisk_putEntry, if_neg h1]
    by_cases h2 : no = 2
    · rw [if_pos h2, if_pos h2]
    · rw [if_neg h2, if_neg h2]
      simp only [onDisk, getEntry, Bytes.getLE_zeros]
      rfl

theorem smallWorld_entries (no : ℕ) : entries viewCache mkfsSuperBlock smallWorld.inodes no =
    if no = 1 then rootEntry else if no = 2 then fileEntry else InodeEntry.zero := by
  unfold entries
  by_cases hlt : no < 200
  · rw [smallWorld_current hlt]
    by_cases h1 : no = 1
    · rw [if_pos h1, h1]
      decide
    · rw [if_neg h1]
      by_cases h2 : no = 2
      · rw [if_pos h2, h2]
        decide
      · rw [if_neg h2, ite_self]
  · have h1 : no ≠ 1 := by omega
    have h2 : no ≠ 2 := by omega
    rw [if_neg fun h => hlt h.2.1, if_neg h1, if_neg h2]

/-- the only block of an inode is that of the root directory -/
theorem smallWorld_places (p : ℕ × Slot) : places smallDisk.blk (entries viewCache mkfsSuperBlock smallWorld.inodes) p =
    if p = (1, .direct 0) then 92 else 0 := by
  obtain ⟨no, t⟩ := p
  simp only [places, smallWorld_entries, Prod.mk.injEq]
  by_cases h1 : no = 1
  · cases t with
    | direct k => by_cases hk : k = 0 <;> simp [h1, hk, ref, rootEntry]
    | indirect => simp [h1, ref, rootEntry]
    | leaf k => simp [h1, ref, rootEntry]
  · by_cases h2 : no = 2
    · cases t <;> simp [h2, ref, fileEntry]
    · cases t <;> simp [h1, h2, ref, InodeEntry.zero]

theorem smallWorld_ready : Ready viewCache mkfsSuperBlock { n | n ≤ 91 } (fun no => if no = 1 then rootDir else []) smallWorld := by
  -- the root is the only directory
  have hdir : ∀ no, no < 200 → (current viewCache mkfsSuperBlock smallWorld.inodes no).type = inodeDirectory → no = 1 := by
    intro no hlt htype
    rw [smallWorld_current hlt] at htype
    by_contra h1
    rw [if_neg h1] at htype
    by_cases h2 : no = 2
    · rw [if_pos h2] at htype
      exact absurd htype (by decide)
    · rw [if_neg h2] at htype
      exact absurd htype (by decide)
  have hroot : Present viewCache mkfsSuperBlock smallWorld.inodes 1 := by
    refine ⟨by decide, by decide, Or.inl ?_⟩
    rw [count, smallWorld_find]
    decide
  have hfile : Present viewCache mkfsSuperBlock smallWorld.inodes 2 := by
    refine ⟨by decide, by decide, Or.inr ?_⟩
    rw [smallWorld_current (by decide)]
    decide
  refine ⟨fun _ _ => ⟨Nat.one_pos, (by decide : 1 < 200)⟩, ?_, fun _ _ => Set.notMem_empty _,
    ⟨⟨Nat.zero_le _, ?_, ?_, ?_⟩, Set.empty_subset _⟩, ?_, ?_, hroot, ⟨List.mem_cons_self, by decide⟩, fun _ _ => rfl⟩
  · intro p hp q hq _
    rw [List.mem_singleton.1 hp, List.mem_singleton.1 hq]
  · ext n
    change n ≤ 92 ↔ n ≤ 91 ∨ ∃ p, places smallDisk.blk _ p = n
    constructor
    · intro hn
      rcases Nat.lt_or_eq_of_le hn with hlt | rfl
      · exact Or.inl (Nat.le_of_lt_succ hlt)
      · exact Or.inr ⟨(1, .direct 0), (smallWorld_places _).trans (if_pos rfl)⟩
    · rintro (hn | ⟨p, rfl⟩)
      · exact hn.trans (by decide)
      · rw [smallWorld_places]
        split_ifs <;> decide
  · intro p hp hbase
    change places smallDisk.blk _ p ≠ 0 at hp
    change places smallDisk.blk _ p ≤ 91 at hbase
    rw [smallWorld_places] at hp hbase
    by_cases h : p = (1, .direct 0)
    · rw [if_pos h] at hbase
      exact absurd hbase (by decide)
    · exact hp (if_neg h)
  · intro p q hpq hp
    change places smallDisk.blk _ p = places smallDisk.blk _ q at hpq
    change places smallDisk.blk _ p ≠ 0 at hp
    rw [smallWorld_places, smallWorld_places] at hpq
    rw [smallWorld_places] at hp
    by_cases h : p = (1, .direct 0)
    · by_cases h' : q = (1, .direct 0)
      · rw [h, h']
      · rw [if_pos h, if_neg h'] at hpq
        cases hpq
    · exact absurd (if_neg h) hp
  · intro no hlt htype
    obtain rfl := hdir no hlt htype
    have hcur : current viewCache mkfsSuperBlock smallWorld.inodes 1 = _ := smallWorld_current (by decide)
    rw [if_pos rfl] at hcur
    rw [if_pos rfl]
    refine ⟨?_, ?_, ?_⟩
    · rw [hcur]
      rfl
    · rw [hcur]
      decide +kernel
    · rw [hcur]
      intro k hk
      have hk0 : k = 0 := by
        change k * 512 < 48 at hk
        omega
      rw [hk0]
      rfl
  · intro no hlt htype
    obtain rfl := hdir no hlt htype
    intro e he _
    rw [if_pos rfl] at he
    simp only [rootDir, List.mem_cons, List.not_mem_nil, or_false] at he
    rcases he with rfl | rfl | rfl
    · exact hroot
    · exact hroot
    · exact hfile

/-- the file f of the root directory -/
theorem paths_resolved_file :
    ∃ r w', exec (handle viewCache mkfsSuperBlock newAddr DirEntry.zero 1) (namei [slash, 102]) smallWorld = .ok (r, w') ∧
      Ended viewCache smallWorld (some 2) r w' := by
  obtain ⟨⟨r, w', hexec, hend, -⟩, -⟩ := paths_resolved (C := viewCache) newAddr_notMem smallWorld_ready
    (by decide : (0 : UInt8) ∉ [slash, 102])
  have hfollow : (tree viewCache mkfsSuperBlock (fun no => if no = 1 then rootDir else []) smallWorld.inodes).follow
      (start [slash, 102] smallWorld) (components [slash, 102]) = some 2 := by decide +kernel
  rw [hfollow] at hend
  exact ⟨r, w', hexec, hend⟩

end OsKernel.Kernel.PathWalk
