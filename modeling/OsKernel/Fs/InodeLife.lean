/-
`inode_alloc`, `inode_get` and `inode_put`.

An inode is free when its entry on disk has type INODE_INVALID. `inode_alloc` takes the first free one and gives it a type,
`inode_get` loads an entry into memory, and the last `inode_put` of an inode without links clears it and marks it free again.
`onDisk` is the entry of an inode on disk.
-/
import OsKernel.Fs.InodeClear

namespace OsKernel.Fs.Inodes

open OsKernel.Bytes OsKernel.Program OsKernel.Owner
open Function (update update_of_ne update_self)

/-- the entry of an inode on disk -/
def onDisk (sb : SuperBlock) (blk : ℕ → BlockData) (inodeNo : ℕ) : InodeEntry :=
  getEntry (blk (toBlockNo sb inodeNo)) inodeNo

theorem onDisk_putEntry (sb : SuperBlock) (v : View) (n : ℕ) (e : InodeEntry) (m : ℕ) :
    onDisk sb (v.putEntry sb n e).blk m = if m = n then e else onDisk sb v.blk m := by
  unfold onDisk View.putEntry View.set
  by_cases hb : toBlockNo sb m = toBlockNo sb n
  · rw [hb]
    simp only [update_self]
    by_cases hm : m = n
    · rw [if_pos hm, hm, getEntry_putEntry]
    · rw [if_neg hm, getEntry_putEntry_other]
      -- two inodes of one block have different places in it
      unfold toBlockNo at hb
      have h1 := Nat.div_add_mod n inodePerBlock
      have h2 := Nat.div_add_mod m inodePerBlock
      have hdiv : m / inodePerBlock = n / inodePerBlock := Nat.add_left_cancel hb
      intro hmod
      rw [hdiv, ← hmod] at h2
      exact hm (h2.symm.trans h1)
  · have hm : m ≠ n := fun h => hb (by rw [h])
    rw [if_neg hm]
    simp only [update_of_ne hb]

theorem onDisk_congr {sb : SuperBlock} {blk blk' : ℕ → BlockData} {n : ℕ}
    (h : blk' (toBlockNo sb n) = blk (toBlockNo sb n)) : onDisk sb blk' n = onDisk sb blk n := by
  rw [onDisk, onDisk, h]

variable {σ ι : Type} [DecidableEq ι] (C : AbstractCache σ) {sb : SuperBlock} {base : Set ℕ} {E : Stop → Prop} {s : σ}
  {F : ι → InodeEntry} {i : ι} {inode : Inode}

/-- The search returns a free inode and gives it a fresh entry. It halts only when every inode it has looked at is in use. -/
theorem inodeAllocFrom_search (hout : ∀ n, n < sb.numInodes.toNat → toBlockNo sb n ∉ C.inner) (type : InodeType)
    (fuel : ℕ) {s' : σ} (hv : C.view s' = C.view s) (no : ℕ)
    (hE : (∀ n, no ≤ n → n < no + fuel → n < sb.numInodes.toNat → (onDisk sb (C.view s).blk n).type ≠ inodeInvalid) →
      E .noInode) :
    After C.handle E (fun r s'' => no ≤ r ∧ r < sb.numInodes.toNat ∧ (onDisk sb (C.view s).blk r).type = inodeInvalid ∧
        C.view s'' = (C.view s).putEntry sb r (InodeEntry.fresh type))
      (inodeAllocFrom sb type fuel no) s' := by
  induction fuel generalizing s' no with
  | zero => exact hE fun n h1 h2 => by omega
  | succ fuel ih =>
    rw [inodeAllocFrom]
    by_cases hlt : no < sb.numInodes.toNat
    · have hb := hout no hlt
      rw [if_pos hlt]
      simp only [after_bind]
      refine after_acquire C hb fun s1 hv1 => after_load C hb fun s2 hv2 => ?_
      rw [hv1, hv]
      have hv2' : C.view s2 = C.view s := hv2.trans (hv1.trans hv)
      by_cases hfree : (getEntry ((C.view s).blk (toBlockNo sb no)) no).type = inodeInvalid
      · rw [if_pos hfree]
        simp only [after_bind]
        refine after_modify C hb fun s3 hv3 => after_sync C hb fun s4 hv4 => after_release C hb fun s5 hv5 => ?_
        refine ⟨le_rfl, hlt, hfree, ?_⟩
        rw [hv5, hv4, hv3, hv2']
        rfl
      · rw [if_neg hfree]
        simp only [after_bind]
        refine after_release C hb fun s3 hv3 => ?_
        refine (ih (hv3.trans hv2') (no + 1) fun hused => hE fun n h1 h2 h3 => ?_).mono fun r s4 h => ?_
        · obtain rfl | h1 := Nat.eq_or_lt_of_le h1
          · exact hfree
          · exact hused n h1 (by omega) h3
        · obtain ⟨h1, h2, h3, h4⟩ := h
          exact ⟨by omega, h2, h3, h4⟩
    · rw [if_neg hlt]
      exact hE fun n h1 _ h3 => absurd h3 (by omega)

/-- the search returns a free inode and gives it a fresh entry -/
theorem inodeAllocFrom_spec (hout : ∀ n, n < sb.numInodes.toNat → toBlockNo sb n ∉ C.inner) (hE : E .noInode)
    (type : InodeType) (fuel : ℕ) {s' : σ} (hv : C.view s' = C.view s) (no : ℕ) :
    After C.handle E (fun r s'' => no ≤ r ∧ r < sb.numInodes.toNat ∧ (onDisk sb (C.view s).blk r).type = inodeInvalid ∧
        C.view s'' = (C.view s).putEntry sb r (InodeEntry.fresh type))
      (inodeAllocFrom sb type fuel no) s' :=
  inodeAllocFrom_search C hout type fuel hv no fun _ => hE

theorem inodeGet_spec {no : ℕ} (h0 : 0 < no) (hlt : no < sb.numInodes.toNat) (hb : toBlockNo sb no ∉ C.inner) :
    After C.handle E (fun r s' => r = ⟨no, 1, true, onDisk sb (C.view s).blk no⟩ ∧ C.view s' = C.view s)
      (inodeGet sb no) s := by
  unfold inodeGet inodeSyncRead
  simp only [after_bind]
  rw [after_check h0, after_check hlt]
  refine after_acquire C hb fun s1 hv1 => after_load C hb fun s2 hv2 => after_release C hb fun s3 hv3 => ?_
  rw [after_pure, after_pure, hv1]
  exact ⟨rfl, hv3.trans (hv2.trans hv1)⟩

/-- the inode is gone: no block is left to it, and its entry on disk is free -/
structure Gone (sb : SuperBlock) (base : Set ℕ) (i : ι) (s : σ) (F : ι → InodeEntry) (inodeNo : ℕ) (s' : σ) : Prop where
  sound : Sound base C.inner (C.view s') (update F i InodeEntry.zero)
  free : (onDisk sb (C.view s').blk inodeNo).type = inodeInvalid
  onDisk : ∀ m, m ≠ inodeNo → Inodes.onDisk sb (C.view s').blk m = Inodes.onDisk sb (C.view s).blk m

/-- the blocks an entry points to: direct ones, those in the indirect block and the indirect block itself -/
def blocksOf (blk : ℕ → BlockData) (e : InodeEntry) : Set ℕ := { n | n ≠ 0 ∧ ∃ t, ref blk e t = n }

/-- the blocks of an inode are no longer in use, and its entry on disk says that it is free -/
structure Released (sb : SuperBlock) (s : σ) (inode : Inode) (s' : σ) : Prop where
  used : (C.view s').used = (C.view s).used \ blocksOf (C.view s).blk inode.entry
  blk : ∀ n, n ≠ toBlockNo sb inode.inodeNo → (C.view s').blk n = (C.view s).blk n

/-- clearing an inode takes back exactly the blocks it points to -/
theorem Cleared.used {r : Inode} {s' : σ} (hs : Sound base C.inner (C.view s) F) (hF : F i = inode.entry)
    (hst : Stored C sb base inode) (h : Cleared C sb base i s F inode r s') :
    (C.view s').used = (C.view s).used \ blocksOf (C.view s).blk inode.entry := by
  have hemptied := hs.owns.used_of_emptied (K := { p | p.1 = i }) h.sound.owns ?_ ?_
  · rw [hemptied]
    congr 1
    ext n
    constructor
    · rintro ⟨h0, ⟨j, t⟩, rfl, hn⟩
      exact ⟨h0, t, hF ▸ hn⟩
    · rintro ⟨h0, t, hn⟩
      exact ⟨h0, (i, t), rfl, by rw [← hn, ← hF]; rfl⟩
  · rintro ⟨j, t⟩ rfl
    simp only [places, update_self, h.rest]
    cases t <;> rfl
  · rintro ⟨j, t⟩ hj
    simp only [places, update_of_ne (show j ≠ i from hj), h.blk]
    apply ref_congr
    intro h0
    -- the inode block is not an indirect block
    apply update_of_ne
    intro he
    have hnot := hs.ref_not_base (i := j) (t := .indirect) (toNat_ne_zero.2 h0)
    change (F j).indirect.toNat ∉ base at hnot
    rw [he] at hnot
    exact hnot hst.home

/-- `inode_put` of the last reference to an inode without links: all that changes -/
theorem inodePut_frees (hs : Sound base C.inner (C.view s) F) (hF : F i = inode.entry) (hst : Stored C sb base inode)
    (hlast : inode.rc = 1 ∧ inode.entry.numLinks = 0) :
    After C.handle E (fun r s' => r = none ∧ Gone C sb base i s F inode.inodeNo s' ∧ Released C sb s inode s')
      (inodePut sb inode) s := by
  rw [inodePut, if_pos hlast]
  refine (inodeClear_spec C hs hF hst).bind fun inode1 s1 h1 => ?_
  have hno : inode1.inodeNo = inode.inodeNo := by rw [h1.rest]
  have hst1 : Stored C sb base { inode1 with entry := { inode1.entry with type := inodeInvalid } } := by
    refine ⟨?_, hno ▸ hst.home, hno ▸ hst.outer⟩
    change inode1.valid = true
    rw [h1.rest]
    exact hst.valid
  refine (inodeSyncWrite_spec C hst1).bind fun _ s2 hv2 => ?_
  rw [after_pure]
  refine ⟨rfl, ⟨?_, ?_, ?_⟩, ?_, ?_⟩
  · have hsound : Sound base C.inner (C.view s1) (update F i InodeEntry.zero) := by
      apply h1.sound.retag
      · rw [h1.rest]
        rfl
      · rw [h1.rest]
        rfl
    rw [hv2]
    exact (hsound.set_base (hno ▸ hst.home) _).1
  · rw [hv2, onDisk_putEntry, if_pos hno.symm]
  · intro m hm
    rw [hv2, onDisk_putEntry, if_neg (hno ▸ hm), h1.blk, onDisk_putEntry, if_neg hm]
  · rw [hv2]
    exact h1.used C hs hF hst
  · intro n hn
    rw [hv2]
    change update _ _ _ n = _
    rw [update_of_ne (hno ▸ hn), h1.blk]
    exact update_of_ne hn ..

/-- `inode_put` of the last reference to an inode without links -/
theorem inodePut_last (hs : Sound base C.inner (C.view s) F) (hF : F i = inode.entry) (hst : Stored C sb base inode)
    (hlast : inode.rc = 1 ∧ inode.entry.numLinks = 0) :
    After C.handle E (fun r s' => r = none ∧ Gone C sb base i s F inode.inodeNo s') (inodePut sb inode) s :=
  (inodePut_frees C hs hF hst hlast).mono fun _ _ h => ⟨h.1, h.2.1⟩

/-- a write that returns has passed the assertions at its start -/
theorem fileWrite_asserts {h : Handler CacheOp CacheOp.Res Stop σ} {src : List UInt8} {off : ℕ} {r : (ℕ × Inode) × σ}
    (hr : exec h (fileWrite sb inode src off) s = .ok r) :
    off ≤ inode.entry.numBytes.toNat ∧ addU off src.length ≤ inodeMaxBytes ∧ off ≤ addU off src.length := by
  obtain ⟨h1, hr⟩ := exec_check_bind hr
  obtain ⟨h2, hr⟩ := exec_check_bind hr
  obtain ⟨h3, hr⟩ := exec_check_bind hr
  exact ⟨h1, h2, h3⟩

end OsKernel.Fs.Inodes
