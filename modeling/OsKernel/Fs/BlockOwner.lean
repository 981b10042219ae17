/-
Who owns which block of the disk: the inode layer on the bitmap allocator.

The cache (`Cache`) may drop at every acquire any blocks that are neither held nor listed in the operation. Read again they
are as the device has them, to which `cache_end_op` has written what was listed. `inode_map` fills a slot of an indirect block
and does not list the block, so an eviction can lose the slot: `lost` tells whether a change was lost in this way.

The disk has one bitmap block; everything up to it is metadata (`metas`), everything behind it is data. Inodes are allocated,
loaded, written, cleared and put in any order, each call with some evictions (`Call`, `step`), and operations end in between.
An inode is loaded only when it is not free, and a caller of the other functions holds a reference. The entry that counts is
the one in memory if the inode is loaded, otherwise the one on disk; `place` is where the slots of the inodes that are not
free point.

`Consistent` says that the bitmap marks the metadata and exactly the blocks the slots point to, each of them from exactly one
slot. `block_ownership`: when the bitmap has a bit to spare beyond the last block of the disk, every run that has lost nothing
keeps it, and every block that was freed was marked. `full_bitmap`: without the spare bit a full disk makes `cache_alloc`
return -1, and `inode_map` stores it as the number of a block; and a lost slot leaves a marked block that no slot points to.
-/
import OsKernel.Lib.Runs
import OsKernel.Fs.Bitmap
import OsKernel.Fs.InodeLife

namespace OsKernel.Fs.BlockOwner

open OsKernel.Fs.Inodes OsKernel.Bytes OsKernel.Program OsKernel.Owner OsKernel.Runs
open Function (update update_eq_self update_of_ne update_self)

/-! ## The cache -/

structure Cache where
  disk : Disk
  /-- a block as the device has it -/
  saved : ℕ → BlockData
  /-- the blocks of the operation, which are pinned -/
  listed : List ℕ
  held : List ℕ
  /-- what `evict` drops, acquire by acquire -/
  evictions : List (List ℕ)
  /-- a block was dropped that the device had otherwise -/
  lost : Bool

/-- a block leaves the cache and is read again -/
def Cache.drop (c : Cache) (n : ℕ) : Cache :=
  if n ∈ c.held ∨ n ∈ c.listed then c
  else { c with
    disk := { c.disk with blk := update c.disk.blk n (c.saved n) }
    lost := c.lost || decide (c.disk.blk n ≠ c.saved n) }

def Cache.evict (c : Cache) : Cache := (c.evictions.headD []).foldl Cache.drop { c with evictions := c.evictions.tail }

/-- `cache_end_op`: what is listed is written -/
def Cache.endOp (c : Cache) : Cache :=
  { c with saved := fun n => if n ∈ c.listed then c.disk.blk n else c.saved n, listed := [] }

/-- the block operations, with evictions -/
def evictingBlocks : Handler CacheOp CacheOp.Res Stop Cache
  | .acquire n, c => .ok ((), { c.evict with held := n :: c.held })
  | .load n, c => .ok (c.disk.blk n, c)
  | .sync n, c => .ok ((), { c with listed := n :: c.listed })
  | .release n, c => .ok ((), { c with held := c.held.erase n })
  | o, c => (blockHandle o c.disk).map fun r => (r.1, { c with disk := r.2 })

/-- `diskHandle` with evictions -/
def evictingHandle (sb : SuperBlock) : Handler CacheOp CacheOp.Res Stop Cache
  | .alloc, c => exec evictingBlocks (cacheAlloc sb) c
  | .free n, c => exec evictingBlocks (cacheFree sb n)
      { c with disk := { c.disk with frees := (n, marked sb c.disk.blk n) :: c.disk.frees } }
  | o, c => evictingBlocks o c

section Evictions

variable {c c' : Cache}

theorem drops_kept (ns : List ℕ) (h : (ns.foldl Cache.drop c).lost = false) :
    c.lost = false ∧ (ns.foldl Cache.drop c).disk = c.disk := by
  induction ns generalizing c with
  | nil => exact ⟨h, rfl⟩
  | cons n ns ih =>
    obtain ⟨hlost, hdisk⟩ := ih h
    rw [List.foldl_cons, hdisk]
    unfold Cache.drop at hlost ⊢
    by_cases hpin : n ∈ c.held ∨ n ∈ c.listed
    · rw [if_pos hpin] at hlost ⊢
      exact ⟨hlost, rfl⟩
    · rw [if_neg hpin] at hlost ⊢
      obtain ⟨hlost, hsame⟩ := Bool.or_eq_false_iff.1 hlost
      have heq : c.disk.blk n = c.saved n := not_not.1 (of_decide_eq_false hsame)
      refine ⟨hlost, ?_⟩
      rw [← heq, update_eq_self]

theorem evictingBlocks_kept (o : CacheOp) (r : o.Res) (h : evictingBlocks o c = .ok (r, c')) (hlost : c'.lost = false) :
    c.lost = false ∧ blockHandle o c.disk = .ok (r, c'.disk) := by
  cases o with
  | acquire n =>
    obtain ⟨-, rfl⟩ := Prod.mk.inj (Except.ok.inj h)
    obtain ⟨h0, hdisk⟩ := drops_kept _ hlost
    exact ⟨h0, congrArg (fun d => Except.ok ((), d)) hdisk.symm⟩
  | alloc => cases h
  | _ =>
    obtain ⟨rfl, rfl⟩ := Prod.mk.inj (Except.ok.inj h)
    exact ⟨hlost, rfl⟩

/-- a call that loses nothing does what it does without evictions -/
theorem evictingHandle_kept (sb : SuperBlock) (o : CacheOp) (r : o.Res) (h : evictingHandle sb o c = .ok (r, c'))
    (hlost : c'.lost = false) : c.lost = false ∧ diskHandle sb o c.disk = .ok (r, c'.disk) := by
  cases o with
  | alloc => exact exec_project (fun o _ r _ => evictingBlocks_kept o r) _ h hlost
  | free n => exact exec_project (fun o _ r _ => evictingBlocks_kept o r) _ h hlost
  | _ => exact evictingBlocks_kept _ r h hlost

end Evictions

/-! ## The system -/

structure Sys where
  disk : Disk
  /-- the inodes in memory, by number -/
  mem : ℕ → Option Inode

/-- the disk has changed, and what is in memory for one inode -/
def Sys.keep (s : Sys) (no : ℕ) (d : Disk) (inode : Option Inode) : Sys := ⟨d, update s.mem no inode⟩

inductive Call where
  | alloc (type : InodeType)
  | get (no : ℕ)
  | write (no off : ℕ) (src : List UInt8)
  | clear (no : ℕ)
  | put (no : ℕ)
  /-- the end of the operation the calls belong to -/
  | endOp

structure State where
  cache : Cache
  mem : ℕ → Option Inode

def State.sys (s : State) : Sys := ⟨s.cache.disk, s.mem⟩

def State.keep (s : State) (no : ℕ) (c : Cache) (inode : Option Inode) : State := ⟨c, update s.mem no inode⟩

/-- a program is run, with some evictions -/
def State.exec {α : Type} (sb : SuperBlock) (s : State) (evictions : List (List ℕ)) (p : CacheM α) : Option (α × Cache) :=
  (Program.exec (evictingHandle sb) p { s.cache with evictions }).toOption

/-- a call on an inode that the caller has a reference to -/
def State.withInode (s : State) (no : ℕ) (f : Inode → Option State) : Option State :=
  (s.mem no).bind fun inode => if 0 < inode.rc then f inode else none

/-- one call, and what is evicted during it -/
def step (sb : SuperBlock) (s : State) : Call × List (List ℕ) → Option State
  | (.alloc type, ev) => (s.exec sb ev (inodeAlloc sb type)).map fun r => ⟨r.2, s.mem⟩
  | (.get no, ev) =>
    match s.mem no with
    | some inode => some (s.keep no s.cache (some { inode with rc := inode.rc + 1 }))
    | none =>
      if (onDisk sb s.cache.disk.blk no).type ≠ inodeInvalid then
        (s.exec sb ev (inodeGet sb no)).map fun r => s.keep no r.2 (some r.1)
      else none
  | (.write no off src, ev) => s.withInode no fun inode =>
    if src.length < 2 ^ 64 then
      (s.exec sb ev (inodeWrite sb inode src off)).map fun r => s.keep no r.2 (some r.1.2)
    else none
  | (.clear no, ev) => s.withInode no fun inode =>
    (s.exec sb ev (inodeClear sb inode)).map fun r => s.keep no r.2 (some r.1)
  | (.put no, ev) => s.withInode no fun inode =>
    (s.exec sb ev (inodePut sb inode)).map fun r => s.keep no r.2 r.1
  | (.endOp, _) => some { s with cache := s.cache.endOp }

/-- the entry of an inode: the copy in memory if there is one -/
def current (sb : SuperBlock) (s : Sys) (no : ℕ) : InodeEntry :=
  (s.mem no).elim (onDisk sb s.disk.blk no) Inode.entry

/-- the entry of an inode that is not free; a free one has no slots -/
def entries (sb : SuperBlock) (s : Sys) (no : ℕ) : InodeEntry :=
  if 0 < no ∧ no < sb.numInodes.toNat ∧ (current sb s no).type ≠ inodeInvalid then current sb s no else InodeEntry.zero

/-- where a slot of an inode points -/
def place (sb : SuperBlock) (s : Sys) (p : ℕ × Slot) : ℕ := places s.disk.blk (entries sb s) p

/-- the blocks up to the bitmap block -/
def metas (sb : SuperBlock) : Set ℕ := { n | n ≤ sb.bitmapStart.toNat }

/-- the bit of block n is set -/
def Marked (sb : SuperBlock) (d : Disk) (n : ℕ) : Prop := n < bitPerBlock ∧ marked sb d.blk n = true

instance (sb : SuperBlock) (d : Disk) (n : ℕ) : Decidable (Marked sb d n) := inferInstanceAs (Decidable (_ ∧ _))

/-- the bitmap marks the metadata and the blocks the slots point to, each of them from exactly one slot -/
structure Consistent (sb : SuperBlock) (s : Sys) : Prop where
  reserved : ∀ n ∈ metas sb, Marked sb s.disk n
  owner : ∀ n, Marked sb s.disk n → n ∉ metas sb → ∃! p, place sb s p = n
  marked : ∀ p, place sb s p ≠ 0 → Marked sb s.disk (place sb s p)
  data : ∀ p, place sb s p ≠ 0 → place sb s p ∉ metas sb

/-- the layout of the disk: one bitmap block, behind the inode blocks -/
structure Layout (sb : SuperBlock) : Prop where
  one : numBitmapBlocks sb = 1
  inodes : ∀ no, no < sb.numInodes.toNat → toBlockNo sb no < sb.bitmapStart.toNat

/-! ## Ownership in the abstract -/

section Sound

variable {sb : SuperBlock} {s : Sys}

/-- the slots do not notice that the bitmap block is masked -/
theorem places_view {F : ℕ → InodeEntry} (h : ∀ j, (F j).indirect ≠ 0 → (F j).indirect.toNat ≠ sb.bitmapStart.toNat) :
    places (s.disk.view sb).blk F = places s.disk.blk F := by
  funext p
  apply ref_congr
  intro h0
  exact if_neg (h p.1 h0)

theorem marked_iff {n : ℕ} : Marked sb s.disk n ↔ n ∈ (s.disk.view sb).used := by
  constructor
  · rintro ⟨h1, h2⟩
    exact ⟨h1, (marked_of_lt h1).symm.trans h2⟩
  · rintro ⟨h1, h2⟩
    exact ⟨h1, (marked_of_lt h1).trans h2⟩

theorem Consistent.sound (h : Consistent sb s) :
    Sound (metas sb) {sb.bitmapStart.toNat} (s.disk.view sb) (entries sb s) := by
  have hplaces : places (s.disk.view sb).blk (entries sb s) = place sb s := by
    apply places_view
    intro j hj he
    have hdata := h.data (j, .indirect) (toNat_ne_zero.2 hj)
    exact hdata (le_of_eq he)
  refine ⟨⟨Nat.zero_le _, ?_, ?_, ?_⟩, fun n hn => le_of_eq hn⟩
  · rw [hplaces]
    ext n
    rw [← marked_iff]
    constructor
    · intro hn
      by_cases hm : n ∈ metas sb
      · exact Or.inl hm
      · exact Or.inr (h.owner n hn hm).exists
    · rintro (hn | ⟨p, rfl⟩)
      · exact h.reserved n hn
      · by_cases h0 : place sb s p = 0
        · rw [h0]
          exact h.reserved 0 (Nat.zero_le _)
        · exact h.marked p h0
  · rw [hplaces]
    exact h.data
  · rw [hplaces]
    intro p q hpq h0
    exact (h.owner _ (h.marked p h0) (h.data p h0)).unique rfl hpq.symm

theorem consistent_of_sound (h : Sound (metas sb) {sb.bitmapStart.toNat} (s.disk.view sb) (entries sb s)) :
    Consistent sb s := by
  have hplaces : places (s.disk.view sb).blk (entries sb s) = place sb s := by
    apply places_view
    intro j hj he
    exact h.owns.apart (j, .indirect) (toNat_ne_zero.2 hj) (le_of_eq he)
  have howns := h.owns
  rw [hplaces] at howns
  refine ⟨fun n hn => marked_iff.2 (howns.base_subset hn), ?_, fun p _ => marked_iff.2 (howns.mem_used p), howns.apart⟩
  intro n hn hm
  rw [marked_iff, howns.used_eq] at hn
  obtain hn | ⟨p, rfl⟩ := hn
  · exact absurd hn hm
  · have h0 : place sb s p ≠ 0 := fun h0 => hm (h0 ▸ howns.zero)
    exact ⟨p, rfl, fun q hq => (howns.inj p q hq.symm h0).symm⟩

end Sound

/-! ## Steps -/

section Steps

variable {sb : SuperBlock} {s : Sys} {no : ℕ}

/-- what is known of an inode in memory -/
structure Loaded (sb : SuperBlock) (d : Disk) (no : ℕ) (inode : Inode) : Prop where
  number : inode.inodeNo = no
  valid : inode.valid = true
  pos : 0 < no
  lt : no < sb.numInodes.toNat
  type : inode.entry.type ≠ inodeInvalid
  disk : (onDisk sb d.blk no).type ≠ inodeInvalid

structure Inv (sb : SuperBlock) (s : Sys) : Prop where
  sound : Sound (metas sb) {sb.bitmapStart.toNat} (s.disk.view sb) (entries sb s)
  mem : ∀ no inode, s.mem no = some inode → Loaded sb s.disk no inode
  tidy : s.disk.Tidy

/-- inode blocks are not masked -/
theorem onDisk_view (hl : Layout sb) (d : Disk) (hno : no < sb.numInodes.toNat) :
    onDisk sb (d.view sb).blk no = onDisk sb d.blk no :=
  onDisk_congr (if_neg (ne_of_lt (hl.inodes no hno)))

theorem Loaded.stored (hl : Layout sb) (hone : OneBitmap sb) {d : Disk} {inode : Inode} (h : Loaded sb d no inode) :
    Stored (bitmapCache sb hone) sb (metas sb) inode := by
  have hlt := hl.inodes no h.lt
  rw [← h.number] at hlt
  exact ⟨h.valid, le_of_lt hlt, ne_of_lt hlt⟩

theorem entries_loaded {inode : Inode} (hm : s.mem no = some inode) (h : Loaded sb s.disk no inode) :
    entries sb s no = inode.entry := by
  have hcur : current sb s no = inode.entry := by rw [current, hm, Option.elim_some]
  rw [entries, hcur, if_pos ⟨h.pos, h.lt, h.type⟩]

/-- only one inode has changed, in memory or on disk -/
theorem entries_eq_update {s' : Sys} (hm : ∀ m, m ≠ no → s'.mem m = s.mem m)
    (hd : ∀ m, m ≠ no → m < sb.numInodes.toNat → onDisk sb s'.disk.blk m = onDisk sb s.disk.blk m) :
    entries sb s' = update (entries sb s) no (entries sb s' no) := by
  funext m
  by_cases h : m = no
  · rw [h, update_self]
  · rw [update_of_ne h]
    unfold entries current
    rw [hm m h]
    by_cases hlt : m < sb.numInodes.toNat
    · rw [hd m h hlt]
    · rw [if_neg fun hc => hlt hc.2.1, if_neg fun hc => hlt hc.2.1]

/-- the step leaves the inode loaded with a new entry -/
theorem inv_keep {d : Disk} {inode' : Inode} (hi : Inv sb s) (hpos : 0 < no) (hlt : no < sb.numInodes.toNat)
    (hsound : Sound (metas sb) {sb.bitmapStart.toNat} (d.view sb) (update (entries sb s) no inode'.entry))
    (hno : inode'.inodeNo = no) (hvalid : inode'.valid = true) (htype : inode'.entry.type ≠ inodeInvalid)
    (hdisk : (onDisk sb d.blk no).type ≠ inodeInvalid)
    (hd : ∀ m, m ≠ no → m < sb.numInodes.toNat → onDisk sb d.blk m = onDisk sb s.disk.blk m) (htidy : d.Tidy) :
    Inv sb (s.keep no d (some inode')) := by
  have hsame : (s.keep no d (some inode')).mem no = some inode' := update_self ..
  have hother : ∀ m, m ≠ no → (s.keep no d (some inode')).mem m = s.mem m := fun m hm => update_of_ne hm ..
  have hloaded : Loaded sb d no inode' := ⟨hno, hvalid, hpos, hlt, htype, hdisk⟩
  refine ⟨?_, ?_, htidy⟩
  · rw [entries_eq_update (s := s) hother hd, entries_loaded hsame hloaded]
    exact hsound
  · intro m inode'' hm
    by_cases h : m = no
    · rw [h, hsame] at hm
      rw [h, ← Option.some.inj hm]
      exact hloaded
    · rw [hother m h] at hm
      have := hi.mem m inode'' hm
      refine ⟨this.number, this.valid, this.pos, this.lt, this.type, ?_⟩
      change (onDisk sb d.blk m).type ≠ inodeInvalid
      rw [hd m h this.lt]
      exact this.disk

/-- what a program that was correct over the checked disk gives for a run that returned -/
theorem of_exec {α : Type} {p : CacheM α} {E : Stop → Prop} {Q : α → Disk → Prop} {d : Disk} {r : α × Disk}
    (ht : d.Tidy) (hp : After (checkedHandle sb) E Q p d) (hE : ¬ E .assertion)
    (hr : (exec (diskHandle sb) p d).toOption = some r) : Q r.1 r.2 ∧ r.2.Tidy := by
  have h := After.unchecked ht hp hE
  unfold After at h
  cases he : exec (diskHandle sb) p d with
  | error e =>
    rw [he] at hr
    cases hr
  | ok q =>
    rw [he] at hr h
    obtain rfl : q = r := Option.some.inj hr
    exact h

variable (hl : Layout sb) (hone : OneBitmap sb)
include hl hone

theorem inv_alloc {type : InodeType} {r : ℕ × Disk} (hi : Inv sb s)
    (hr : (exec (diskHandle sb) (inodeAlloc sb type) s.disk).toOption = some r) : Inv sb { s with disk := r.2 } := by
  by_cases htype : type = inodeInvalid
  · rw [inodeAlloc, exec_bind, check, if_neg (not_not.2 htype)] at hr
    cases hr
  have hout : ∀ n, n < sb.numInodes.toNat → toBlockNo sb n ∉ (bitmapCache sb hone).inner :=
    fun n hn => ne_of_lt (hl.inodes n hn)
  have hspec : After (checkedHandle sb) (fun e => e = .noInode) (fun n d => 1 ≤ n ∧ n < sb.numInodes.toNat ∧
      (onDisk sb (s.disk.view sb).blk n).type = inodeInvalid ∧
      d.view sb = (s.disk.view sb).putEntry sb n (InodeEntry.fresh type)) (inodeAlloc sb type) s.disk := by
    rw [inodeAlloc, after_bind, after_check htype]
    exact inodeAllocFrom_spec (bitmapCache sb hone) (E := fun e => e = .noInode) hout rfl type _ rfl 1
  obtain ⟨⟨hpos, hlt, hfree, hview⟩, htidy⟩ := of_exec hi.tidy hspec (by decide) hr
  obtain ⟨n, d⟩ := r
  dsimp only at hpos hlt hfree hview htidy ⊢
  rw [onDisk_view hl _ hlt] at hfree
  have hdisk : ∀ m, m < sb.numInodes.toNat →
      onDisk sb d.blk m = if m = n then InodeEntry.fresh type else onDisk sb s.disk.blk m := by
    intro m hm
    rw [← onDisk_view hl d hm, hview, onDisk_putEntry, onDisk_view hl s.disk hm]
  -- an inode that is free on disk is not in memory
  have hmem : s.mem n = none := by
    cases hm : s.mem n with
    | none => rfl
    | some inode => exact absurd hfree (hi.mem n inode hm).disk
  have hentry : entries sb s n = InodeEntry.zero := by
    have hcur : current sb s n = onDisk sb s.disk.blk n := by rw [current, hmem, Option.elim_none]
    rw [entries, hcur, if_neg fun h => h.2.2 hfree]
  have hentry' : entries sb { s with disk := d } n = InodeEntry.fresh type := by
    have hcur : current sb { s with disk := d } n = InodeEntry.fresh type := by
      rw [current, hmem, Option.elim_none]
      exact (hdisk n hlt).trans (if_pos rfl)
    rw [entries, hcur, if_pos ⟨hpos, hlt, htype⟩]
  refine ⟨?_, ?_, htidy⟩
  · have hupd : update (entries sb s) n InodeEntry.zero = entries sb s := by
      rw [← hentry, update_eq_self]
    have hsound : Sound (metas sb) {sb.bitmapStart.toNat} (s.disk.view sb)
        (update (entries sb s) n (InodeEntry.fresh type)) :=
      Sound.retag (e := InodeEntry.zero) (hupd.symm ▸ hi.sound) rfl rfl
    have hentries : entries sb { s with disk := d } = update (entries sb s) n (entries sb { s with disk := d } n) :=
      entries_eq_update (fun _ _ => rfl) fun m hm hlt => (hdisk m hlt).trans (if_neg hm)
    rw [hentries, hentry']
    change Sound _ _ (d.view sb) _
    rw [hview]
    exact (hsound.set_base (le_of_lt (hl.inodes n hlt)) _).1
  · intro m inode hm
    have := hi.mem m inode hm
    have hmn : m ≠ n := by
      rintro rfl
      rw [hmem] at hm
      cases hm
    refine ⟨this.number, this.valid, this.pos, this.lt, this.type, ?_⟩
    change (onDisk sb d.blk m).type ≠ inodeInvalid
    rw [hdisk m this.lt, if_neg hmn]
    exact this.disk

omit hl hone in
/-- one more reference -/
theorem inv_share {inode : Inode} (hi : Inv sb s) (hm : s.mem no = some inode) (n : ℕ) :
    Inv sb (s.keep no s.disk (some { inode with rc := n })) := by
  have hld := hi.mem no inode hm
  refine inv_keep hi hld.pos hld.lt ?_ hld.number hld.valid hld.type hld.disk (fun _ _ _ => rfl) hi.tidy
  rw [← entries_loaded hm hld, update_eq_self]
  exact hi.sound

theorem inv_get {r : Inode × Disk} (hi : Inv sb s) (hm : s.mem no = none)
    (htype : (onDisk sb s.disk.blk no).type ≠ inodeInvalid)
    (hr : (exec (diskHandle sb) (inodeGet sb no) s.disk).toOption = some r) : Inv sb (s.keep no r.2 (some r.1)) := by
  obtain ⟨h0, hlt⟩ : 0 < no ∧ no < sb.numInodes.toNat := by
    cases he : exec (diskHandle sb) (inodeGet sb no) s.disk with
    | error e =>
      rw [he] at hr
      cases hr
    | ok q =>
      obtain ⟨h0, he⟩ := exec_check_bind he
      exact ⟨h0, (exec_check_bind he).1⟩
  have hspec := inodeGet_spec (bitmapCache sb hone) (E := fun _ => False) (s := s.disk) h0 hlt
    (ne_of_lt (hl.inodes no hlt) : _ ∉ (bitmapCache sb hone).inner)
  obtain ⟨⟨hinode, hview⟩, htidy⟩ := of_exec hi.tidy hspec id hr
  have hview' : r.2.view sb = s.disk.view sb := hview
  have hdisk : ∀ m, m < sb.numInodes.toNat → onDisk sb r.2.blk m = onDisk sb s.disk.blk m := by
    intro m hm
    rw [← onDisk_view hl r.2 hm, hview', onDisk_view hl s.disk hm]
  have hentry : r.1.entry = onDisk sb s.disk.blk no := by
    rw [hinode]
    exact onDisk_view hl s.disk hlt
  refine inv_keep hi h0 hlt ?_ (by rw [hinode]) (by rw [hinode]) (hentry ▸ htype) ?_ (fun m _ hm => hdisk m hm) htidy
  · have hcur : current sb s no = onDisk sb s.disk.blk no := by rw [current, hm, Option.elim_none]
    have hent : entries sb s no = r.1.entry := by rw [entries, hcur, if_pos ⟨h0, hlt, htype⟩, hentry]
    rw [← hent, update_eq_self, hview']
    exact hi.sound
  · rw [hdisk no hlt]
    exact htype

/-- what a write leaves on disk: the other inodes' entries, and perhaps the new one of its own -/
theorem written_onDisk {inode : Inode} {off : ℕ} {src : List UInt8} {r : ℕ × Inode} {d : Disk}
    (hld : Loaded sb s.disk no inode)
    (hw : Written (bitmapCache sb hone) sb (metas sb) no s.disk (entries sb s) inode off src r d) {m : ℕ}
    (hm : m < sb.numInodes.toNat) :
    onDisk sb d.blk m = if off + src.length > inode.entry.numBytes.toNat ∧ m = no then r.2.entry
      else onDisk sb s.disk.blk m := by
  have hmeta := hw.metas (toBlockNo sb m) (le_of_lt (hl.inodes m hm))
  rw [← onDisk_view hl d hm, ← onDisk_view hl s.disk hm]
  by_cases hgrow : off + src.length > inode.entry.numBytes.toNat
  · rw [if_pos hgrow] at hmeta
    have hon : onDisk sb (d.view sb).blk m = onDisk sb ((s.disk.view sb).putEntry sb inode.inodeNo r.2.entry).blk m :=
      onDisk_congr hmeta
    rw [hon, onDisk_putEntry, hld.number]
    simp only [hgrow, true_and]
  · rw [if_neg hgrow] at hmeta
    have hon : onDisk sb (d.view sb).blk m = onDisk sb (s.disk.view sb).blk m := onDisk_congr hmeta
    rw [hon, if_neg fun h => hgrow h.1]

theorem inv_write {inode : Inode} {off : ℕ} {src : List UInt8} {r : (ℕ × Inode) × Disk} (hi : Inv sb s)
    (hm : s.mem no = some inode) (hlen : src.length < 2 ^ 64)
    (hr : (exec (diskHandle sb) (inodeWrite sb inode src off) s.disk).toOption = some r) :
    Inv sb (s.keep no r.2 (some r.1.2)) := by
  have hld := hi.mem no inode hm
  unfold inodeWrite at hr
  by_cases hdev : inode.entry.type = inodeDevice
  · -- the console takes the bytes
    rw [if_pos hdev] at hr
    obtain rfl : ((src.length, inode), s.disk) = r := Option.some.inj hr
    exact inv_share hi hm inode.rc
  · rw [if_neg hdev] at hr
    have hasserts : off ≤ inode.entry.numBytes.toNat ∧ off + src.length ≤ inodeMaxBytes := by
      cases he : exec (diskHandle sb) (fileWrite sb inode src off) s.disk with
      | error e =>
        rw [he] at hr
        cases hr
      | ok q => exact (writeAsserts_iff hlen).1 (fileWrite_asserts he)
    have hspec := fileWrite_spec (bitmapCache sb hone) (E := fun e => e = .noSpace) (s := s.disk) (i := no) hi.sound
      (entries_loaded hm hld) (hld.stored hl hone) hasserts.1 hasserts.2 fun _ _ _ => rfl
    obtain ⟨hw, htidy⟩ := of_exec hi.tidy hspec (by decide) hr
    have htype : r.1.2.entry.type = inode.entry.type := by rw [hw.head]
    have hrest : r.1.2.inodeNo = inode.inodeNo ∧ r.1.2.valid = inode.valid := by
      rw [hw.rest]
      exact ⟨rfl, rfl⟩
    refine inv_keep hi hld.pos hld.lt hw.sound (hrest.1.trans hld.number) (hrest.2.trans hld.valid) (htype ▸ hld.type) ?_ ?_ htidy
    · rw [written_onDisk hl hone hld hw hld.lt]
      split_ifs
      · rw [htype]
        exact hld.type
      · exact hld.disk
    · intro m hmn hlt
      rw [written_onDisk hl hone hld hw hlt, if_neg fun h => hmn h.2]

theorem inv_clear {inode : Inode} {r : Inode × Disk} (hi : Inv sb s) (hm : s.mem no = some inode)
    (hr : (exec (diskHandle sb) (inodeClear sb inode) s.disk).toOption = some r) : Inv sb (s.keep no r.2 (some r.1)) := by
  have hld := hi.mem no inode hm
  have hspec := inodeClear_spec (bitmapCache sb hone) (E := fun _ => False) (s := s.disk) (i := no) hi.sound
    (entries_loaded hm hld) (hld.stored hl hone)
  obtain ⟨hc, htidy⟩ := of_exec hi.tidy hspec id hr
  have hdisk : ∀ m, m < sb.numInodes.toNat →
      onDisk sb r.2.blk m = if m = no then r.1.entry else onDisk sb s.disk.blk m := by
    intro m hlt
    have hblk : (r.2.view sb).blk = ((s.disk.view sb).putEntry sb inode.inodeNo r.1.entry).blk := hc.blk
    rw [← onDisk_view hl r.2 hlt, hblk, onDisk_putEntry, hld.number, onDisk_view hl s.disk hlt]
  have htype : r.1.entry.type ≠ inodeInvalid := by
    rw [hc.rest]
    exact hld.type
  refine inv_keep hi hld.pos hld.lt hc.sound ?_ ?_ htype ?_ ?_ htidy
  · rw [hc.rest]
    exact hld.number
  · rw [hc.rest]
    exact hld.valid
  · rw [hdisk no hld.lt, if_pos rfl]
    exact htype
  · intro m hmn hlt
    rw [hdisk m hlt, if_neg hmn]

theorem inv_put {inode : Inode} {r : Option Inode × Disk} (hi : Inv sb s) (hm : s.mem no = some inode)
    (hr : (exec (diskHandle sb) (inodePut sb inode) s.disk).toOption = some r) : Inv sb (s.keep no r.2 r.1) := by
  have hld := hi.mem no inode hm
  by_cases hlast : inode.rc = 1 ∧ inode.entry.numLinks = 0
  · have hspec := inodePut_last (bitmapCache sb hone) (E := fun _ => False) (s := s.disk) (i := no) hi.sound
      (entries_loaded hm hld) (hld.stored hl hone) hlast
    obtain ⟨q, d⟩ := r
    obtain ⟨⟨rfl, hgone⟩, htidy⟩ : (q = none ∧ _) ∧ _ := of_exec hi.tidy hspec id hr
    rw [hld.number] at hgone
    have hdisk : ∀ m, m ≠ no → m < sb.numInodes.toNat → onDisk sb d.blk m = onDisk sb s.disk.blk m := by
      intro m hmn hlt
      rw [← onDisk_view hl d hlt, ← onDisk_view hl s.disk hlt]
      exact hgone.onDisk m hmn
    have hother : ∀ m, m ≠ no → (s.keep no d none).mem m = s.mem m := fun m hm => update_of_ne hm ..
    have hentry : entries sb (s.keep no d none) no = InodeEntry.zero := by
      have hcur : current sb (s.keep no d none) no = onDisk sb d.blk no := by
        simp only [current, Sys.keep, update_self, Option.elim_none]
      have hfree : (onDisk sb d.blk no).type = inodeInvalid := by
        rw [← onDisk_view hl d hld.lt]
        exact hgone.free
      rw [entries, hcur, if_neg fun h => h.2.2 hfree]
    refine ⟨?_, ?_, htidy⟩
    · rw [entries_eq_update (s := s) hother hdisk, hentry]
      exact hgone.sound
    · intro m inode' hm'
      have hmn : m ≠ no := by
        rintro rfl
        simp only [Sys.keep, update_self] at hm'
        cases hm'
      rw [hother m hmn] at hm'
      have := hi.mem m inode' hm'
      refine ⟨this.number, this.valid, this.pos, this.lt, this.type, ?_⟩
      change (onDisk sb d.blk m).type ≠ inodeInvalid
      rw [hdisk m hmn this.lt]
      exact this.disk
  · rw [inodePut, if_neg hlast] at hr
    obtain rfl : (some { inode with rc := inode.rc - 1 }, s.disk) = r := Option.some.inj hr
    exact inv_share hi hm (inode.rc - 1)

omit hl hone in
/-- a program that has lost nothing has run as if nothing had been evicted -/
theorem exec_kept {α : Type} {u : State} {ev : List (List ℕ)} {p : CacheM α} {r : α × Cache} (hr : u.exec sb ev p = some r)
    (hlost : r.2.lost = false) :
    u.cache.lost = false ∧ (exec (diskHandle sb) p u.sys.disk).toOption = some (r.1, r.2.disk) := by
  unfold State.exec at hr
  cases he : exec (evictingHandle sb) p { u.cache with evictions := ev } with
  | error e =>
    rw [he] at hr
    cases hr
  | ok q =>
    rw [he] at hr
    obtain rfl : q = r := Option.some.inj hr
    obtain ⟨h0, hd⟩ := exec_project (fun o _ r _ => evictingHandle_kept sb o r) p he hlost
    exact ⟨h0, congrArg Except.toOption hd⟩

/-- every call keeps the invariant, unless it loses a change -/
theorem inv_step {u t : State} {e : Call × List (List ℕ)} (hi : u.cache.lost = false → Inv sb u.sys)
    (hs : step sb u e = some t) (hlost : t.cache.lost = false) : Inv sb t.sys := by
  obtain ⟨e, ev⟩ := e
  cases e with
  | alloc type =>
    obtain ⟨r, hr, rfl⟩ := Option.map_eq_some_iff.1 hs
    obtain ⟨h0, hr⟩ := exec_kept hr hlost
    exact inv_alloc hl hone (hi h0) hr
  | get no =>
    simp only [step] at hs
    cases hm : u.mem no with
    | some inode =>
      simp only [hm, Option.some.injEq] at hs
      subst hs
      exact inv_share (hi hlost) hm _
    | none =>
      simp only [hm] at hs
      obtain ⟨htype, hs⟩ := Option.ite_none_right_eq_some.1 hs
      obtain ⟨r, hr, rfl⟩ := Option.map_eq_some_iff.1 hs
      obtain ⟨h0, hr⟩ := exec_kept hr hlost
      exact inv_get hl hone (hi h0) hm htype hr
  | write no off src =>
    obtain ⟨inode, hm, hs⟩ := Option.bind_eq_some_iff.1 hs
    obtain ⟨-, hs⟩ := Option.ite_none_right_eq_some.1 hs
    obtain ⟨hlen, hs⟩ := Option.ite_none_right_eq_some.1 hs
    obtain ⟨r, hr, rfl⟩ := Option.map_eq_some_iff.1 hs
    obtain ⟨h0, hr⟩ := exec_kept hr hlost
    exact inv_write hl hone (hi h0) hm hlen hr
  | clear no =>
    obtain ⟨inode, hm, hs⟩ := Option.bind_eq_some_iff.1 hs
    obtain ⟨-, hs⟩ := Option.ite_none_right_eq_some.1 hs
    obtain ⟨r, hr, rfl⟩ := Option.map_eq_some_iff.1 hs
    obtain ⟨h0, hr⟩ := exec_kept hr hlost
    exact inv_clear hl hone (hi h0) hm hr
  | put no =>
    obtain ⟨inode, hm, hs⟩ := Option.bind_eq_some_iff.1 hs
    obtain ⟨-, hs⟩ := Option.ite_none_right_eq_some.1 hs
    obtain ⟨r, hr, rfl⟩ := Option.map_eq_some_iff.1 hs
    obtain ⟨h0, hr⟩ := exec_kept hr hlost
    exact inv_put hl hone (hi h0) hm hr
  | endOp =>
    cases hs
    exact hi hlost

end Steps

/-! ## Runs -/

/-- **Block ownership.** From a consistent file system whose bitmap block has a bit to spare, every sequence of calls in which
no eviction has lost a change leaves it consistent: the bitmap marks the metadata and exactly what the slots of the inodes
point to, each block from one slot. And every block that was freed was marked. -/
theorem block_ownership {sb : SuperBlock} {s t : State} (hl : Layout sb) (hspare : sb.numBlocks.toNat < bitPerBlock)
    (hc : Consistent sb s.sys) (hmem : ∀ no, s.mem no = none) (hfrees : s.cache.disk.frees = [])
    (hr : Reach (step sb) s t) (hlost : t.cache.lost = false) :
    Consistent sb t.sys ∧ ∀ x ∈ t.cache.disk.frees, x.2 = true := by
  have h0 : Inv sb s.sys := by
    refine ⟨hc.sound, fun no inode hm => ?_, fun x hx => ?_⟩
    · have hnone : s.mem no = some inode := hm
      rw [hmem no] at hnone
      cases hnone
    · have hmem : x ∈ s.cache.disk.frees := hx
      rw [hfrees] at hmem
      cases hmem
  have ht : Inv sb t.sys := reach_invariant (I := fun u => u.cache.lost = false → Inv sb u.sys)
    (fun _ _ _ hi hs => inv_step hl ⟨hl.one, hspare⟩ hi hs) (fun _ => h0) hr hlost
  exact ⟨consistent_of_sound ht.sound, ht.tidy⟩

/-- a disk without inodes -/
def emptyDisk (sb : SuperBlock) : State where
  cache :=
    let blk := update (fun _ => zeros) sb.bitmapStart.toNat (bitsUpTo sb.bitmapStart.toNat)
    ⟨⟨blk, []⟩, blk, [], [], [], false⟩
  mem _ := none

theorem emptyDisk_consistent {sb : SuperBlock} (hl : Layout sb) (hlt : sb.bitmapStart.toNat < bitPerBlock) :
    Consistent sb (emptyDisk sb).sys := by
  have hmarked : ∀ n, Marked sb (emptyDisk sb).sys.disk n ↔ n < bitPerBlock ∧ n ≤ sb.bitmapStart.toNat := by
    intro n
    unfold Marked
    apply and_congr_right
    intro hn
    rw [marked_of_lt hn]
    simp only [emptyDisk, State.sys, update_self, bitmapGet_bitsUpTo hn, decide_eq_true_eq]
  -- every entry on disk is free
  have hentries : entries sb (emptyDisk sb).sys = fun _ => InodeEntry.zero := by
    funext no
    unfold entries
    rw [if_neg]
    rintro ⟨-, hno, htype⟩
    apply htype
    have hne : toBlockNo sb no ≠ sb.bitmapStart.toNat := ne_of_lt (hl.inodes no hno)
    simp only [current, emptyDisk, State.sys, Option.elim_none, onDisk, update_of_ne hne, getEntry, getLE_zeros]
    rfl
  have hplace : ∀ p, place sb (emptyDisk sb).sys p = 0 := by
    rintro ⟨no, t⟩
    simp only [place, places, hentries]
    cases t <;> rfl
  refine ⟨fun n hn => (hmarked n).2 ⟨lt_of_le_of_lt hn hlt, hn⟩, ?_, ?_, ?_⟩
  · intro n hn hm
    exact absurd ((hmarked n).1 hn).2 hm
  · intro p hp
    exact absurd (hplace p) hp
  · intro p hp
    exact absurd (hplace p) hp

theorem mkfs_layout : Layout mkfsSuperBlock := by
  refine ⟨by decide +kernel, fun no hno => ?_⟩
  change 65 + no / 8 < 91
  have : no < 200 := hno
  omega

/-- a file is created, written over two blocks and put, with evictions in between -/
def createAndPut : List (Call × List (List ℕ)) :=
  [(.alloc inodeRegular, []), (.endOp, []), (.get 1, []), (.write 1 0 (List.replicate 600 7), [[65]]), (.endOp, []),
    (.put 1, [[93]])]

theorem block_ownership_createAndPut : ∃ t, run (step mkfsSuperBlock) (emptyDisk mkfsSuperBlock) createAndPut = some t ∧
    t.cache.disk.frees = [(93, true), (92, true)] ∧ Consistent mkfsSuperBlock t.sys := by
  obtain ⟨t, ht, hfrees, hlost⟩ : ∃ t, run (step mkfsSuperBlock) (emptyDisk mkfsSuperBlock) createAndPut = some t ∧
      t.cache.disk.frees = [(93, true), (92, true)] ∧ t.cache.lost = false := run_computes (by decide +kernel)
  have hc := emptyDisk_consistent mkfs_layout (by decide +kernel)
  exact ⟨t, ht, hfrees, (block_ownership mkfs_layout (by decide +kernel) hc (fun _ => rfl) rfl ⟨_, ht⟩ hlost).1⟩

/-- a disk that its bitmap block covers exactly, all of it metadata but the last block -/
def tightSuperBlock : SuperBlock where
  numBlocks := 4096
  numDataBlocks := 1
  numInodes := 32232
  numLogBlocks := 63
  logStart := 2
  inodeStart := 65
  bitmapStart := 4094

theorem tight_layout : Layout tightSuperBlock := by
  refine ⟨by decide +kernel, fun no hno => ?_⟩
  change 65 + no / 8 < 4094
  have : no < 32232 := hno
  omega

/-- Two ways to break it. A write needs a second block on a disk that has only one to give: the search runs out of bits before
it reaches the end of the disk, and its -1 is stored as a block number. Or the slot of the 14th block of a file goes into the
indirect block, which exists by then and is not listed: when that block is dropped, the slot is gone, and the block it named
stays marked. -/
theorem full_bitmap : (Layout tightSuperBlock ∧ Consistent tightSuperBlock (emptyDisk tightSuperBlock).sys ∧
    ∃ t, run (step tightSuperBlock) (emptyDisk tightSuperBlock)
      [(.alloc inodeRegular, []), (.get 1, []), (.write 1 0 (List.replicate 600 7), [])] = some t ∧ t.cache.lost = false ∧
    place tightSuperBlock t.sys (1, .direct 1) = 2 ^ 32 - 1 ∧ ¬ Marked tightSuperBlock t.cache.disk (2 ^ 32 - 1)) ∧
    ∃ t, run (step mkfsSuperBlock) (emptyDisk mkfsSuperBlock)
      ([(.alloc inodeRegular, []), (.get 1, [])] ++
        (List.range 14).flatMap (fun i => [(.write 1 (512 * i) (List.replicate 512 7), []), (.endOp, [])]) ++
        [(.write 1 0 [7], [[104]])]) = some t ∧
    Marked mkfsSuperBlock t.cache.disk 106 ∧ (∀ k, place mkfsSuperBlock t.sys (1, .direct k) ≠ 106) ∧
    ∀ k, place mkfsSuperBlock t.sys (1, .leaf k) ≠ 106 := by
  refine ⟨⟨tight_layout, emptyDisk_consistent tight_layout (by decide +kernel), ?_⟩, run_computes (by decide +kernel)⟩
  obtain ⟨t, ht, hlost, hplace⟩ : ∃ t, run (step tightSuperBlock) (emptyDisk tightSuperBlock)
      [(.alloc inodeRegular, []), (.get 1, []), (.write 1 0 (List.replicate 600 7), [])] = some t ∧ t.cache.lost = false ∧
      place tightSuperBlock t.sys (1, .direct 1) = 2 ^ 32 - 1 := run_computes (by decide +kernel)
  refine ⟨t, ht, hlost, hplace, ?_⟩
  intro hm
  have hlt : 2 ^ 32 - 1 < 4096 := hm.1
  norm_num at hlt

end OsKernel.Fs.BlockOwner
