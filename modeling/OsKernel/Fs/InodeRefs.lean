/-
References to the inodes in memory: `inode_alloc`, `inode_get`, `inode_share`, `inode_put` and `inode_sync` in any order.

An inode in memory is a struct on the heap that the list of the inode layer leads to; `find` searches the list by inode
number. A reference is the address of a struct. `refs` is a ghost: the references that were obtained and not put yet. The
address a new struct gets is part of the label of a call, it is any one not in use. The cache underneath is any that meets
the interface of the block cache (`AbstractCache`). Inode locks are free between the calls of a sequence and are left out.

A call is made by someone who may make it (`Allowed`): an inode is loaded only when it is not free, and the other functions
are called with a reference.

Results:
- `put_spec`: what an `inode_put` does, exactly;
- `alloc_spec`: what an `inode_alloc` does, exactly;
- `references_counted`: over every sequence of calls there is one struct for each inode, with the number of references to it
  as its count and the entry on disk as its entry, and both functions do what the specifications say.
-/
import OsKernel.Lib.Runs
import OsKernel.Lib.Fallible
import OsKernel.Fs.InodeLife

namespace OsKernel.Fs.InodeRefs

open OsKernel.Fs.Inodes OsKernel.Bytes OsKernel.Program OsKernel.Owner OsKernel.Runs
open Function (update update_eq_self update_of_ne update_self)

/-! ## The system -/

structure Sys (σ : Type) where
  cache : σ
  heap : ℕ → Inode
  /-- the inodes in memory, from the head of the list on -/
  list : List ℕ
  /-- the references obtained and not put -/
  refs : List ℕ

section Functions

variable {σ : Type} (C : AbstractCache σ) (sb : SuperBlock)

namespace Sys

variable (s : Sys σ)

def find (no : ℕ) : Option ℕ := s.list.find? fun p => (s.heap p).inodeNo = no

/-- the reference count of the struct at p, and the references with it -/
def recount (p n : ℕ) (refs : List ℕ) : Sys σ :=
  { s with heap := update s.heap p { s.heap p with rc := n }, refs := refs }

/-- `inode_share`, and the same in `inode_get` -/
def share (p : ℕ) : Sys σ := s.recount p ((s.heap p).rc + 1) (p :: s.refs)

/-- one reference less -/
def drop (p : ℕ) : Sys σ := s.recount p ((s.heap p).rc - 1) (s.refs.erase p)

/-- `inode_alloc`: the inode number -/
def alloc (type : InodeType) : Except Stop (ℕ × Sys σ) := do
  let (no, c) ← exec C.handle (inodeAlloc sb type) s.cache
  return (no, { s with cache := c })

/-- a new struct at p, with one reference -/
def load (p : ℕ) (inode : Inode) (c : σ) : Sys σ := ⟨c, update s.heap p inode, p :: s.list, p :: s.refs⟩

/-- `inode_get`: the address of the struct; a new one is at p -/
def get (p no : ℕ) : Except Stop (ℕ × Sys σ) :=
  if 0 < no ∧ no < sb.numInodes.toNat then
    match s.find no with
    | some q => .ok (q, s.share q)
    | none => do
      let (inode, c) ← exec C.handle (inodeGet sb no) s.cache
      return (p, s.load p inode c)
  else .error .assertion

/-- `inode_put`; the struct is detached from the list when it is freed -/
def put (p : ℕ) : Except Stop (Sys σ) := do
  let (r, c) ← exec C.handle (inodePut sb (s.heap p)) s.cache
  match r with
  | some inode => return { s with cache := c, heap := update s.heap p inode, refs := s.refs.erase p }
  | none => return { s with cache := c, list := s.list.erase p, refs := s.refs.erase p }

/-- `inode->entry.num_links = n` and `inode_sync` -/
def setLinks (p : ℕ) (n : UInt16) : Except Stop (Sys σ) := do
  let inode := { s.heap p with entry := { (s.heap p).entry with numLinks := n } }
  let (_, c) ← exec C.handle (inodeSyncWrite sb inode) s.cache
  return { s with cache := c, heap := update s.heap p inode }

/-- the entry of an inode on disk -/
def entryOf (no : ℕ) : InodeEntry := onDisk sb (C.view s.cache).blk no

end Sys

inductive Call where
  | alloc (type : InodeType)
  | get (p no : ℕ)
  | share (p : ℕ)
  | put (p : ℕ)
  | setLinks (p : ℕ) (n : UInt16)

def act (s : Sys σ) : Call → Except Stop (Sys σ)
  | .alloc type => (s.alloc C sb type).map Prod.snd
  | .get p no => (s.get C sb p no).map Prod.snd
  | .share p => .ok (s.share p)
  | .put p => s.put C sb p
  | .setLinks p n => s.setLinks C sb p n

def step (s : Sys σ) (e : Call) : Option (Sys σ) := (act C sb s e).toOption

/-- when a call may be made -/
def Allowed (s : Sys σ) : Call → Prop
  | .alloc type => type ≠ inodeInvalid
  | .get p no => p ∉ s.list ∧ 0 < no ∧ no < sb.numInodes.toNat ∧ (s.entryOf C sb no).type ≠ inodeInvalid
  | .share p | .put p | .setLinks p _ => p ∈ s.refs

instance (s : Sys σ) : (e : Call) → Decidable (Allowed C sb s e)
  | .alloc type => inferInstanceAs (Decidable (type ≠ inodeInvalid))
  | .get p no => inferInstanceAs (Decidable (p ∉ s.list ∧ 0 < no ∧ no < sb.numInodes.toNat ∧
      (s.entryOf C sb no).type ≠ inodeInvalid))
  | .share p | .put p | .setLinks p _ => inferInstanceAs (Decidable (p ∈ s.refs))

/-! ## What is to hold -/

/-- the inodes in memory stand for those on disk, and the counts for the references -/
structure Counted (s : Sys σ) : Prop where
  /-- one struct for each inode number -/
  one : s.list.Nodup ∧ ∀ p ∈ s.list, ∀ q ∈ s.list, (s.heap p).inodeNo = (s.heap q).inodeNo → p = q
  count : ∀ p ∈ s.list, (s.heap p).rc = s.refs.count p
  entry : ∀ p ∈ s.list, (s.heap p).entry = s.entryOf C sb (s.heap p).inodeNo
  live : ∀ p ∈ s.refs, p ∈ s.list

/-- the inode at p has been freed: on disk, its blocks, in memory; and nothing else has changed -/
structure Freed (s : Sys σ) (p : ℕ) (t : Sys σ) : Prop where
  disk : (t.entryOf C sb (s.heap p).inodeNo).type = inodeInvalid
  blocks : (C.view t.cache).used = (C.view s.cache).used \ blocksOf (C.view s.cache).blk (s.heap p).entry
  others : ∀ no, no ≠ (s.heap p).inodeNo → t.entryOf C sb no = s.entryOf C sb no
  data : ∀ n, n ≠ toBlockNo sb (s.heap p).inodeNo → (C.view t.cache).blk n = (C.view s.cache).blk n
  memory : t = { s with cache := t.cache, list := s.list.erase p, refs := s.refs.erase p }
  removed : p ∉ t.list

/-- inode number no has been allocated: it was free and is not in memory, and only its entry has changed -/
structure Allocated (s : Sys σ) (type : InodeType) (no : ℕ) (t : Sys σ) : Prop where
  range : 0 < no ∧ no < sb.numInodes.toNat
  free : (s.entryOf C sb no).type = inodeInvalid
  fresh : ∀ p ∈ s.list, (s.heap p).inodeNo ≠ no
  entry : t.entryOf C sb no = InodeEntry.fresh type
  others : ∀ m, m ≠ no → t.entryOf C sb m = s.entryOf C sb m
  data : ∀ n, n ≠ toBlockNo sb no → (C.view t.cache).blk n = (C.view s.cache).blk n
  used : (C.view t.cache).used = (C.view s.cache).used
  memory : t = { s with cache := t.cache }

/-- the next `inode_put` of a reference frees the inode if it is the last reference and there is no link, and otherwise
changes the count -/
def PutsWell (s : Sys σ) : Prop :=
  ∀ p ∈ s.refs, ∃ t, s.put C sb p = .ok t ∧
    if s.refs.count p = 1 ∧ (s.heap p).entry.numLinks = 0 then Freed C sb s p t else t = s.drop p

/-- the next `inode_alloc` allocates an inode, or stops the kernel because all are in use -/
def AllocsWell (s : Sys σ) : Prop :=
  ∀ type, type ≠ inodeInvalid → (∃ no t, s.alloc C sb type = .ok (no, t) ∧ Allocated C sb s type no t) ∨
    s.alloc C sb type = .error .noInode ∧
      ∀ no, 0 < no → no < sb.numInodes.toNat → (s.entryOf C sb no).type ≠ inodeInvalid

/-- the entry of an inode that is not free; a free one has no blocks -/
def entries (blk : ℕ → BlockData) (no : ℕ) : InodeEntry :=
  if 0 < no ∧ no < sb.numInodes.toNat ∧ (onDisk sb blk no).type ≠ inodeInvalid then onDisk sb blk no else InodeEntry.zero

/-- a consistent file system of which nothing is in memory: every block of an inode is in use, and used once -/
structure Mounted (base : Set ℕ) (s : Sys σ) : Prop where
  home : ∀ no, no < sb.numInodes.toNat → toBlockNo sb no ∈ base
  outer : ∀ no, no < sb.numInodes.toNat → toBlockNo sb no ∉ C.inner
  sound : Sound base C.inner (C.view s.cache) (entries sb (C.view s.cache).blk)
  list : s.list = []
  refs : s.refs = []

/-! ## The invariant -/

/-- what is known of the struct at p -/
structure InMemory (s : Sys σ) (p : ℕ) : Prop where
  valid : (s.heap p).valid = true
  pos : 0 < (s.heap p).inodeNo
  lt : (s.heap p).inodeNo < sb.numInodes.toNat
  type : (s.heap p).entry.type ≠ inodeInvalid
  entry : (s.heap p).entry = s.entryOf C sb (s.heap p).inodeNo
  count : (s.heap p).rc = s.refs.count p

structure Inv (base : Set ℕ) (s : Sys σ) : Prop where
  home : ∀ no, no < sb.numInodes.toNat → toBlockNo sb no ∈ base
  outer : ∀ no, no < sb.numInodes.toNat → toBlockNo sb no ∉ C.inner
  sound : Sound base C.inner (C.view s.cache) (entries sb (C.view s.cache).blk)
  inodes : ∀ p ∈ s.list, InMemory C sb s p
  nodup : s.list.Nodup
  one : ∀ p ∈ s.list, ∀ q ∈ s.list, (s.heap p).inodeNo = (s.heap q).inodeNo → p = q
  live : ∀ p ∈ s.refs, p ∈ s.list

end Functions

section Lemmas

variable {σ : Type} {C : AbstractCache σ} {sb : SuperBlock} {base : Set ℕ} {s : Sys σ} {p no : ℕ}

theorem Inv.counted (h : Inv C sb base s) : Counted C sb s :=
  ⟨⟨h.nodup, h.one⟩, fun p hp => (h.inodes p hp).count, fun p hp => (h.inodes p hp).entry, h.live⟩

theorem Mounted.inv (h : Mounted C sb base s) : Inv C sb base s := by
  refine ⟨h.home, h.outer, h.sound, ?_, ?_, ?_, ?_⟩
  all_goals simp [h.list, h.refs]

theorem entries_used {blk : ℕ → BlockData} (hpos : 0 < no) (hlt : no < sb.numInodes.toNat)
    (htype : (onDisk sb blk no).type ≠ inodeInvalid) : entries sb blk no = onDisk sb blk no := if_pos ⟨hpos, hlt, htype⟩

theorem entries_free {blk : ℕ → BlockData} (htype : (onDisk sb blk no).type = inodeInvalid) :
    entries sb blk no = InodeEntry.zero := if_neg fun h => h.2.2 htype

/-- the entries depend on the entries on disk -/
theorem entries_update (blk : ℕ → BlockData) {blk' : ℕ → BlockData} (hother : ∀ m, m ≠ no → onDisk sb blk' m = onDisk sb blk m) :
    entries sb blk' = update (entries sb blk) no (entries sb blk' no) := by
  funext m
  by_cases hm : m = no
  · rw [hm, update_self]
  · rw [update_of_ne hm, entries, entries, hother m hm]

/-- the entry of an inode in memory is the one that counts -/
theorem Inv.entries_eq (h : Inv C sb base s) (hp : p ∈ s.list) :
    entries sb (C.view s.cache).blk (s.heap p).inodeNo = (s.heap p).entry := by
  have hi := h.inodes p hp
  have htype : (onDisk sb (C.view s.cache).blk (s.heap p).inodeNo).type ≠ inodeInvalid := by
    have := hi.type
    rwa [hi.entry] at this
  rw [entries_used hi.pos hi.lt htype]
  exact hi.entry.symm

theorem Inv.stored (h : Inv C sb base s) (hp : p ∈ s.list) : Stored C sb base (s.heap p) :=
  have hi := h.inodes p hp
  ⟨hi.valid, h.home _ hi.lt, h.outer _ hi.lt⟩

theorem find_eq_some {q : ℕ} (h : s.find no = some q) : q ∈ s.list ∧ (s.heap q).inodeNo = no := by
  unfold Sys.find at h
  have hno := List.find?_some h
  exact ⟨List.mem_of_find?_eq_some h, of_decide_eq_true hno⟩

theorem find_eq_none (h : s.find no = none) : ∀ p ∈ s.list, (s.heap p).inodeNo ≠ no := by
  intro p hp he
  exact List.find?_eq_none.1 h p hp (decide_eq_true he)

/-- a struct that satisfies what is asked of one -/
theorem inMemory_of {inode : Inode} (hheap : s.heap p = inode) (hvalid : inode.valid = true) (hpos : 0 < inode.inodeNo)
    (hlt : inode.inodeNo < sb.numInodes.toNat) (htype : inode.entry.type ≠ inodeInvalid)
    (hentry : inode.entry = s.entryOf C sb inode.inodeNo) (hcount : inode.rc = s.refs.count p) : InMemory C sb s p := by
  subst hheap
  exact ⟨hvalid, hpos, hlt, htype, hentry, hcount⟩

/-- a struct that has not changed, nor its entry on disk or its references -/
theorem InMemory.same {t : Sys σ} (h : InMemory C sb s p) (hheap : t.heap p = s.heap p)
    (hentry : t.entryOf C sb (s.heap p).inodeNo = s.entryOf C sb (s.heap p).inodeNo)
    (hcount : t.refs.count p = s.refs.count p) : InMemory C sb t p :=
  inMemory_of hheap h.valid h.pos h.lt h.type (h.entry.trans hentry.symm) (h.count.trans hcount.symm)

/-! ## Counting -/

/-- a new count for one struct, with as many references -/
theorem Inv.recount {n : ℕ} {refs : List ℕ} (h : Inv C sb base s) (hp : p ∈ s.list) (hn : n = refs.count p)
    (hother : ∀ q, q ≠ p → refs.count q = s.refs.count q) : Inv C sb base (s.recount p n refs) := by
  have hno : ∀ q, ((s.recount p n refs).heap q).inodeNo = (s.heap q).inodeNo := by
    intro q
    by_cases hq : q = p
    · simp [Sys.recount, hq]
    · simp [Sys.recount, hq]
  refine ⟨h.home, h.outer, h.sound, ?_, h.nodup, ?_, ?_⟩
  · intro q hq
    have hi := h.inodes q hq
    by_cases hqp : q = p
    · subst hqp
      exact inMemory_of (update_self ..) hi.valid hi.pos hi.lt hi.type hi.entry hn
    · exact hi.same (update_of_ne hqp ..) rfl (hother q hqp)
  · intro q hq q' hq' he
    rw [hno, hno] at he
    exact h.one q hq q' hq' he
  · intro q hq
    by_cases hqp : q = p
    · rw [hqp]
      exact hp
    · apply h.live
      rw [← List.count_pos_iff, ← hother q hqp]
      exact List.count_pos_iff.2 hq

theorem inv_share (h : Inv C sb base s) (hp : p ∈ s.list) : Inv C sb base (s.share p) := by
  apply h.recount hp
  · rw [List.count_cons_self, (h.inodes p hp).count]
  · intro q hq
    exact List.count_cons_of_ne hq.symm

theorem inv_drop (h : Inv C sb base s) (hp : p ∈ s.refs) : Inv C sb base (s.drop p) := by
  apply h.recount (h.live p hp)
  · rw [List.count_erase_self, (h.inodes p (h.live p hp)).count]
  · intro q hq
    exact List.count_erase_of_ne hq

/-! ## One call -/

/-- what `inode_get` gives -/
structure Got (C : AbstractCache σ) (s : Sys σ) (no q : ℕ) (t : Sys σ) : Prop where
  view : C.view t.cache = C.view s.cache
  refs : t.refs = q :: s.refs
  mem : q ∈ t.list
  number : (t.heap q).inodeNo = no

theorem inv_load {c : σ} (h : Inv C sb base s) (hp : p ∉ s.list) (hpos : 0 < no) (hlt : no < sb.numInodes.toNat)
    (htype : (s.entryOf C sb no).type ≠ inodeInvalid) (hnew : ∀ q ∈ s.list, (s.heap q).inodeNo ≠ no)
    (hv : C.view c = C.view s.cache) : Inv C sb base (s.load p ⟨no, 1, true, s.entryOf C sb no⟩ c) := by
  set t := s.load p ⟨no, 1, true, s.entryOf C sb no⟩ c with ht
  have hself : t.heap p = ⟨no, 1, true, s.entryOf C sb no⟩ := update_self ..
  have hne : ∀ q ∈ s.list, q ≠ p := fun q hq he => hp (he ▸ hq)
  have hheap : ∀ q ∈ s.list, t.heap q = s.heap q := fun q hq => update_of_ne (hne q hq) ..
  have hentry : ∀ m, t.entryOf C sb m = s.entryOf C sb m := by
    intro m
    change onDisk sb (C.view c).blk m = _
    rw [hv]
    rfl
  have hpc : s.refs.count p = 0 := List.count_eq_zero.2 fun hr => hp (h.live p hr)
  refine ⟨h.home, h.outer, ?_, ?_, List.nodup_cons.2 ⟨hp, h.nodup⟩, ?_, ?_⟩
  · change Sound base C.inner (C.view c) (entries sb (C.view c).blk)
    rw [hv]
    exact h.sound
  · intro q hq
    rcases List.mem_cons.1 hq with rfl | hq
    · refine inMemory_of hself rfl hpos hlt htype (hentry no).symm ?_
      change 1 = (q :: s.refs).count q
      rw [List.count_cons_self, hpc]
    · exact (h.inodes q hq).same (hheap q hq) (hentry _) (List.count_cons_of_ne (hne q hq).symm)
  · intro q hq q' hq' he
    rcases List.mem_cons.1 hq with rfl | hqs
    · rcases List.mem_cons.1 hq' with rfl | hqs'
      · rfl
      · rw [hself, hheap q' hqs'] at he
        exact absurd he.symm (hnew q' hqs')
    · rcases List.mem_cons.1 hq' with rfl | hqs'
      · rw [hheap q hqs, hself] at he
        exact absurd he (hnew q hqs)
      · rw [hheap q hqs, hheap q' hqs'] at he
        exact h.one q hqs q' hqs' he
  · intro q hq
    rcases List.mem_cons.1 hq with rfl | hq
    · exact List.mem_cons_self
    · exact List.mem_cons_of_mem _ (h.live q hq)

theorem get_spec (h : Inv C sb base s) (hp : p ∉ s.list) (hpos : 0 < no) (hlt : no < sb.numInodes.toNat)
    (htype : (s.entryOf C sb no).type ≠ inodeInvalid) :
    ∃ q t, s.get C sb p no = .ok (q, t) ∧ Got C s no q t ∧ Inv C sb base t := by
  rw [Sys.get, if_pos ⟨hpos, hlt⟩]
  cases hfind : s.find no with
  | some q =>
    obtain ⟨hq, hno⟩ := find_eq_some hfind
    have hnumber : ((s.share q).heap q).inodeNo = no := by
      simpa [Sys.share, Sys.recount] using hno
    exact ⟨q, s.share q, rfl, ⟨rfl, rfl, hq, hnumber⟩, inv_share h hq⟩
  | none =>
    obtain ⟨inode, c, hexec, rfl, hv⟩ := (inodeGet_spec C (s := s.cache) hpos hlt (h.outer no hlt)).returns
    have hnumber : ((s.load p ⟨no, 1, true, s.entryOf C sb no⟩ c).heap p).inodeNo = no := by
      simp [Sys.load]
    refine ⟨p, s.load p ⟨no, 1, true, s.entryOf C sb no⟩ c, ?_, ⟨hv, rfl, List.mem_cons_self, hnumber⟩,
      inv_load h hp hpos hlt htype (find_eq_none hfind) hv⟩
    rw [hexec]
    rfl

/-- one entry on disk has changed, and the struct of that inode, if there is one, went with it -/
theorem Inv.rewrite {t : Sys σ} (h : Inv C sb base s) (no : ℕ)
    (hsound : Sound base C.inner (C.view t.cache) (entries sb (C.view t.cache).blk))
    (hother : ∀ m, m ≠ no → t.entryOf C sb m = s.entryOf C sb m) (hsub : ∀ q ∈ t.list, q ∈ s.list) (hnd : t.list.Nodup)
    (hnumber : ∀ q ∈ t.list, (t.heap q).inodeNo = (s.heap q).inodeNo)
    (hsame : ∀ q ∈ t.list, (s.heap q).inodeNo ≠ no → t.heap q = s.heap q ∧ t.refs.count q = s.refs.count q)
    (hone : ∀ q ∈ t.list, (s.heap q).inodeNo = no → InMemory C sb t q) (hlive : ∀ q ∈ t.refs, q ∈ t.list) :
    Inv C sb base t := by
  refine ⟨h.home, h.outer, hsound, ?_, hnd, ?_, hlive⟩
  · intro q hq
    by_cases hno : (s.heap q).inodeNo = no
    · exact hone q hq hno
    · obtain ⟨hheap, hcount⟩ := hsame q hq hno
      exact (h.inodes q (hsub q hq)).same hheap (hother _ hno) hcount
  · intro q hq q' hq' he
    rw [hnumber q hq, hnumber q' hq'] at he
    exact h.one q (hsub q hq) q' (hsub q' hq') he

theorem setLinks_spec (h : Inv C sb base s) (hp : p ∈ s.refs) (n : UInt16) :
    ∃ t, s.setLinks C sb p n = .ok t ∧ Inv C sb base t := by
  have hmem := h.live p hp
  have hi := h.inodes p hmem
  have hst := h.stored hmem
  set inode : Inode := { s.heap p with entry := { (s.heap p).entry with numLinks := n } } with hinode
  have hst' : Stored C sb base inode := ⟨hst.valid, hst.home, hst.outer⟩
  obtain ⟨_, c, hexec, hv⟩ := (inodeSyncWrite_spec C (s := s.cache) hst').returns
  have hdisk : ∀ m, onDisk sb (C.view c).blk m = if m = (s.heap p).inodeNo then inode.entry else s.entryOf C sb m := by
    intro m
    rw [hv, onDisk_putEntry]
    rfl
  refine ⟨{ s with cache := c, heap := update s.heap p inode }, ?_, ?_⟩
  · rw [Sys.setLinks, ← hinode, hexec]
    rfl
  have hheap : ∀ q, q ≠ p → update s.heap p inode q = s.heap q := fun q hq => update_of_ne hq ..
  have hself : entries sb (C.view c).blk (s.heap p).inodeNo = inode.entry := by
    have hon := (hdisk (s.heap p).inodeNo).trans (if_pos rfl)
    rw [entries_used hi.pos hi.lt (hon ▸ hi.type), hon]
  apply h.rewrite (s.heap p).inodeNo
  · change Sound base C.inner (C.view c) (entries sb (C.view c).blk)
    rw [entries_update (C.view s.cache).blk fun m hm => (hdisk m).trans (if_neg hm), hself, hv]
    have hbefore : Sound base C.inner (C.view s.cache)
        (update (entries sb (C.view s.cache).blk) (s.heap p).inodeNo (s.heap p).entry) := by
      rw [← h.entries_eq hmem, update_eq_self]
      exact h.sound
    have hafter : Sound base C.inner (C.view s.cache)
        (update (entries sb (C.view s.cache).blk) (s.heap p).inodeNo inode.entry) := hbefore.retag rfl rfl
    exact (hafter.set_base hst.home _).1
  · intro m hm
    exact (hdisk m).trans (if_neg hm)
  · exact fun q hq => hq
  · exact h.nodup
  · intro q _
    by_cases hq : q = p
    · rw [hq]
      simp [hinode]
    · simp [hheap q hq]
  · intro q hq hno
    have hqp : q ≠ p := by
      rintro rfl
      exact hno rfl
    exact ⟨hheap q hqp, rfl⟩
  · intro q hq hno
    obtain rfl := h.one q hq p hmem hno
    exact inMemory_of (update_self ..) hi.valid hi.pos hi.lt hi.type ((hdisk _).trans (if_pos rfl)).symm hi.count
  · exact h.live

/-- **Putting.** The inode is freed when the last reference of an inode without links is dropped; otherwise only the count
changes. -/
theorem put_spec (h : Inv C sb base s) (hp : p ∈ s.refs) :
    ∃ t, s.put C sb p = .ok t ∧ Inv C sb base t ∧
      if s.refs.count p = 1 ∧ (s.heap p).entry.numLinks = 0 then Freed C sb s p t else t = s.drop p := by
  have hmem := h.live p hp
  have hi := h.inodes p hmem
  by_cases hlast : s.refs.count p = 1 ∧ (s.heap p).entry.numLinks = 0
  · have hlast' : (s.heap p).rc = 1 ∧ (s.heap p).entry.numLinks = 0 := ⟨hi.count.trans hlast.1, hlast.2⟩
    obtain ⟨_, c, hexec, rfl, hgone, hreleased⟩ :=
      (inodePut_frees C (s := s.cache) h.sound (h.entries_eq hmem) (h.stored hmem) hlast').returns
    have hnot : p ∉ s.list.erase p := fun hin => h.nodup.not_mem_erase hin
    have hfreed : Freed C sb s p { s with cache := c, list := s.list.erase p, refs := s.refs.erase p } :=
      ⟨hgone.free, hreleased.used, hgone.onDisk, hreleased.blk, rfl, hnot⟩
    refine ⟨{ s with cache := c, list := s.list.erase p, refs := s.refs.erase p }, ?_, ?_, ?_⟩
    · rw [Sys.put, hexec]
      rfl
    · have hne : ∀ q ∈ s.list.erase p, q ≠ p := fun q hq he => hnot (he ▸ hq)
      apply h.rewrite (s.heap p).inodeNo
      · change Sound base C.inner (C.view c) (entries sb (C.view c).blk)
        rw [entries_update (C.view s.cache).blk hgone.onDisk, entries_free hgone.free]
        exact hgone.sound
      · exact hgone.onDisk
      · exact fun q hq => List.mem_of_mem_erase hq
      · exact h.nodup.erase p
      · exact fun _ _ => rfl
      · intro q hq _
        exact ⟨rfl, List.count_erase_of_ne (hne q hq)⟩
      · intro q hq hno
        exact absurd (h.one q (List.mem_of_mem_erase hq) p hmem hno) (hne q hq)
      · -- the last reference is gone, so the others are to other structs
        intro q hq
        have hqp : q ≠ p := by
          rintro rfl
          have := List.count_pos_iff.2 hq
          rw [List.count_erase_self, hlast.1] at this
          exact absurd this (lt_irrefl 0)
        exact (List.mem_erase_of_ne hqp).2 (h.live q (List.mem_of_mem_erase hq))
    · rw [if_pos hlast]
      exact hfreed
  · have hlast' : ¬ ((s.heap p).rc = 1 ∧ (s.heap p).entry.numLinks = 0) := fun hl => hlast ⟨hi.count ▸ hl.1, hl.2⟩
    refine ⟨s.drop p, ?_, inv_drop h hp, ?_⟩
    · rw [Sys.put, inodePut, if_neg hlast']
      rfl
    · rw [if_neg hlast]

/-- **Allocating.** The inode was free and is not in memory, its entry is all zero but for the type, and no other entry
changes; unless all inodes are in use. -/
theorem alloc_spec (h : Inv C sb base s) {type : InodeType} (htype : type ≠ inodeInvalid) :
    (∃ no t, s.alloc C sb type = .ok (no, t) ∧ Allocated C sb s type no t ∧ Inv C sb base t) ∨
      s.alloc C sb type = .error .noInode ∧
        ∀ no, 0 < no → no < sb.numInodes.toNat → (s.entryOf C sb no).type ≠ inodeInvalid := by
  set Full : Prop := ∀ no, 0 < no → no < sb.numInodes.toNat → (s.entryOf C sb no).type ≠ inodeInvalid
  have hspec : After C.handle (fun e => e = .noInode ∧ Full)
      (fun no c => 1 ≤ no ∧ no < sb.numInodes.toNat ∧ (s.entryOf C sb no).type = inodeInvalid ∧
        C.view c = (C.view s.cache).putEntry sb no (InodeEntry.fresh type)) (inodeAlloc sb type) s.cache := by
    rw [inodeAlloc, after_bind, after_check htype]
    refine inodeAllocFrom_search C h.outer type _ rfl 1 fun hused => ⟨rfl, fun no hpos hlt => ?_⟩
    exact hused no hpos (by omega) hlt
  obtain ⟨no, c, hexec, hpos, hlt, hfree, hv⟩ | ⟨e, hexec, rfl, hfull⟩ := hspec.returns_or
  · left
    have hdisk : ∀ m, onDisk sb (C.view c).blk m = if m = no then InodeEntry.fresh type else s.entryOf C sb m := by
      intro m
      rw [hv, onDisk_putEntry]
      rfl
    have hself := (hdisk no).trans (if_pos rfl)
    have hother : ∀ m, m ≠ no → onDisk sb (C.view c).blk m = s.entryOf C sb m := fun m hm => (hdisk m).trans (if_neg hm)
    -- the struct of an inode in memory has an entry that is not free
    have hfresh : ∀ p ∈ s.list, (s.heap p).inodeNo ≠ no := by
      intro p hp he
      have hi := h.inodes p hp
      apply hi.type
      rw [hi.entry, he]
      exact hfree
    refine ⟨no, { s with cache := c }, ?_, ?_, ?_⟩
    · rw [Sys.alloc, hexec]
      rfl
    · refine ⟨⟨hpos, hlt⟩, hfree, hfresh, hself, hother, ?_, ?_, rfl⟩
      · intro n hn
        change (C.view c).blk n = _
        rw [hv]
        exact update_of_ne hn ..
      · change (C.view c).used = _
        rw [hv]
        rfl
    · apply h.rewrite no
      · change Sound base C.inner (C.view c) (entries sb (C.view c).blk)
        rw [entries_update (C.view s.cache).blk hother, entries_used hpos hlt (hself ▸ htype), hself, hv]
        have hbefore : Sound base C.inner (C.view s.cache)
            (update (entries sb (C.view s.cache).blk) no InodeEntry.zero) := by
          rw [← entries_free hfree, update_eq_self]
          exact h.sound
        have hafter : Sound base C.inner (C.view s.cache)
            (update (entries sb (C.view s.cache).blk) no (InodeEntry.fresh type)) := hbefore.retag rfl rfl
        exact (hafter.set_base (h.home no hlt) _).1
      · exact hother
      · exact fun q hq => hq
      · exact h.nodup
      · exact fun _ _ => rfl
      · exact fun _ _ _ => ⟨rfl, rfl⟩
      · exact fun q hq hno => absurd hno (hfresh q hq)
      · exact h.live
  · right
    refine ⟨?_, hfull⟩
    rw [Sys.alloc, hexec]
    rfl

/-- every call keeps the invariant -/
theorem inv_step {t : Sys σ} {e : Call} (h : Inv C sb base s) (ha : Allowed C sb s e) (hs : step C sb s e = some t) :
    Inv C sb base t := by
  have hok : act C sb s e = .ok t := Fallible.ok_of_toOption hs
  cases e with
  | alloc type =>
    rcases alloc_spec h ha with ⟨no, u, hu, -, hinv⟩ | ⟨hu, -⟩
    · rw [act, hu] at hok
      exact Except.ok.inj hok ▸ hinv
    · rw [act, hu] at hok
      cases hok
  | get p no =>
    obtain ⟨q, u, hu, -, hinv⟩ := get_spec h ha.1 ha.2.1 ha.2.2.1 ha.2.2.2
    rw [act, hu] at hok
    exact Except.ok.inj hok ▸ hinv
  | share p => exact Except.ok.inj hok ▸ inv_share h (h.live p ha)
  | put p =>
    obtain ⟨u, hu, hinv, -⟩ := put_spec h ha
    rw [act, hu] at hok
    exact Except.ok.inj hok ▸ hinv
  | setLinks p n =>
    obtain ⟨u, hu, hinv⟩ := setLinks_spec h ha n
    rw [act, hu] at hok
    exact Except.ok.inj hok ▸ hinv

/-! ## Sequences of calls -/

/-- **References.** After any sequence of allowed calls on a consistent file system: each inode in memory has one struct, with
the number of references as its count and the entry on disk as its entry; an `inode_put` frees the inode exactly when it drops
the last reference of an inode without links; and an `inode_alloc` returns an inode that was free and not in memory, and
changes its entry only. -/
theorem references_counted {es : List Call} {t : Sys σ} (hm : Mounted C sb base s)
    (ha : Meets (step C sb) (Allowed C sb) s es) (hr : run (step C sb) s es = some t) :
    Counted C sb t ∧ PutsWell C sb t ∧ AllocsWell C sb t := by
  have ht : Inv C sb base t := run_invariant (fun _ _ _ hi hc hs => inv_step hi hc hs) hm.inv ha hr
  refine ⟨ht.counted, fun p hp => ?_, fun type htype => ?_⟩
  · obtain ⟨u, hu, -, hcases⟩ := put_spec ht hp
    exact ⟨u, hu, hcases⟩
  · rcases alloc_spec ht htype with ⟨no, u, hu, halloc, -⟩ | hfull
    · exact Or.inl ⟨no, u, hu, halloc⟩
    · exact Or.inr hfull

end Lemmas

/-- a file system without inodes: the blocks up to the bitmap are in use -/
def emptySystem : Sys View := ⟨⟨fun _ => zeros, { n | n ≤ 91 }⟩, fun _ => ⟨0, 0, false, .zero⟩, [], []⟩

theorem emptySystem_mounted : Mounted viewCache mkfsSuperBlock { n | n ≤ 91 } emptySystem := by
  have hentries : entries mkfsSuperBlock emptySystem.cache.blk = fun _ => InodeEntry.zero := by
    funext no
    apply entries_free
    simp only [onDisk, emptySystem, getEntry, getLE_zeros]
    rfl
  have hplaces : ∀ p, places emptySystem.cache.blk (entries mkfsSuperBlock emptySystem.cache.blk) p = 0 := by
    rintro ⟨no, t⟩
    simp only [places, hentries]
    cases t <;> rfl
  refine ⟨fun no hno => ?_, fun _ _ => Set.notMem_empty _, ⟨⟨Nat.zero_le _, ?_, ?_, ?_⟩, Set.empty_subset _⟩, rfl, rfl⟩
  · change 65 + no / 8 ≤ 91
    have : no < 200 := hno
    omega
  · refine (Set.union_eq_self_of_subset_right ?_).symm
    rintro n ⟨p, rfl⟩
    exact (le_of_eq (hplaces p)).trans (Nat.zero_le _)
  · exact fun p hp => absurd (hplaces p) hp
  · exact fun p _ _ hp => absurd (hplaces p) hp

/-- a new inode is loaded, shared and loaded again; two references are put -/
def shareCalls : List Call := [.alloc inodeRegular, .get 10 1, .share 10, .get 20 1, .put 10, .put 10]

theorem references_counted_share : ∃ t, run (step viewCache mkfsSuperBlock) emptySystem shareCalls = some t ∧
    t.list = [10] ∧ t.refs = [10] ∧
    Counted viewCache mkfsSuperBlock t ∧ PutsWell viewCache mkfsSuperBlock t ∧ AllocsWell viewCache mkfsSuperBlock t := by
  obtain ⟨t, hm, hr, hlist, hrefs⟩ : ∃ t, Meets (step viewCache mkfsSuperBlock) (Allowed viewCache mkfsSuperBlock) emptySystem
      shareCalls ∧ run (step viewCache mkfsSuperBlock) emptySystem shareCalls = some t ∧ t.list = [10] ∧ t.refs = [10] :=
    guarded_computes (by decide +kernel)
  exact ⟨t, hr, hlist, hrefs, references_counted emptySystem_mounted hm hr⟩

end OsKernel.Fs.InodeRefs
