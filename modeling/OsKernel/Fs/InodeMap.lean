/-
`inode_map`: finding the block of a position in a file.

With a context, block k of the file exists afterwards, on a fresh zeroed block if it was missing (`inodeMap_spec`); only
then can the disk turn out to be full. The three
places where a number can be stored are three lemmas: a direct address (`mapDirect_spec`), the pointer to the indirect block
(`mapIndirect_spec`) and a leaf of it (`mapLeaf_spec`). Without a context the block is found if it exists (`inodeMap_read`).
-/
import OsKernel.Fs.InodeView

namespace OsKernel.Fs.Inodes

open OsKernel.Bytes OsKernel.Program OsKernel.Owner
open Function (update update_eq_self update_idem update_of_ne update_self)

variable {σ ι : Type} [DecidableEq ι] (C : AbstractCache σ) {base : Set ℕ} {E : Stop → Prop} {s : σ}
  {F : ι → InodeEntry} {i : ι} {inode : Inode}

/-! ## With a context -/

/-- what `inode_map` guarantees for block k when it may allocate -/
structure Maps (base : Set ℕ) (i : ι) (s : σ) (F : ι → InodeEntry) (inode : Inode) (k : ℕ) (r : ℕ × Inode) (s' : σ) :
    Prop where
  moves : Moves base C.inner i (C.view s) F (C.view s') (update F i r.2.entry)
  rest : r.2 = { inode with entry := r.2.entry }
  file : fileOf (C.view s').blk r.2.entry = (fileOf (C.view s).blk inode.entry).touch k
  block : r.1 = blockAt (C.view s').blk r.2.entry k
  ne : r.1 ≠ 0

theorem File.touch_of_mapped {f : File} {k : ℕ} (h : f.mapped k = true) : f.touch k = f := by
  ext j
  · simp only [File.touch]
    by_cases hj : j = k
    · simp [hj, h]
    · simp [hj]
  · rfl

/-- the block is there already -/
theorem maps_of_mapped (hs : Sound base C.inner (C.view s) F) (hF : F i = inode.entry) {k : ℕ} {t : Slot} {s' : σ}
    (hk : slotOf k = some t) (hv : C.view s' = C.view s) (hne : ref (C.view s).blk inode.entry t ≠ 0) :
    Maps C base i s F inode k (ref (C.view s).blk inode.entry t, inode) s' := by
  have hupd : update F i inode.entry = F := by rw [← hF, update_eq_self]
  refine ⟨?_, rfl, ?_, ?_, hne⟩
  · rw [hv, hupd]
    exact Moves.refl hs i
  · rw [hv]
    exact (File.touch_of_mapped ((mapped_of_slot hk).2 hne)).symm
  · rw [hv]
    exact (blockAt_eq hk).symm

/-- a fresh block n went to the slot -/
theorem maps_of_grow (hs : Sound base C.inner (C.view s) F) (hF : F i = inode.entry) {k n : ℕ} {t : Slot} {s' : σ}
    {e : InodeEntry} (hk : slotOf k = some t) (hn : n ∉ (C.view s).used) (h0 : ref (C.view s).blk inode.entry t = 0)
    (hu : (C.view s').used = insert n (C.view s).used)
    (hp : places (C.view s').blk (update F i e) = update (places (C.view s).blk F) (i, t) n)
    (hb : ∀ m, m ≠ n → ¬ (m ≠ 0 ∧ m = inode.entry.indirect.toNat) → (C.view s').blk m = (C.view s).blk m)
    (hz : (C.view s').blk n = zeros) (hh : SameHead inode.entry e) :
    Maps C base i s F inode k (n, { inode with entry := e }) s' := by
  rw [← hF] at h0 hb hh
  obtain ⟨hsound, hothers, hmetas, -, hfile⟩ := hs.grow hn h0 hu hp hb
  refine ⟨⟨hsound, ?_, hothers, hmetas, ?_⟩, rfl, ?_, ?_, hs.owns.ne_zero hn⟩
  · intro j hj
    rw [update_of_ne hj]
  · rwa [update_self]
  · have := hfile hz k hk
    rwa [update_self, hF] at this
  · have := congrFun hp (i, t)
    rw [update_self] at this
    rw [blockAt_eq hk, ← this, places, update_self]

theorem toNat_ofNat32 {n : ℕ} (h : n < 2 ^ 32) : (UInt32.ofNat n).toNat = n := UInt32.toNat_ofNat_of_lt' h

/-- a fresh block n went to a direct address -/
theorem maps_of_direct (hs : Sound base C.inner (C.view s) F) (hF : F i = inode.entry) {k : Fin inodeNumDirect} {n : ℕ}
    {s' : σ} (h0 : inode.entry.addrs k = 0) (hn : n ∉ (C.view s).used) (hlt : n < 2 ^ 32)
    (hv : C.view s' = (C.view s).take n) :
    Maps C base i s F inode k (n, inode.setAddr k (.ofNat n)) s' := by
  have hk : slotOf k.val = some (.direct k) := dif_pos k.isLt
  apply maps_of_grow C hs hF hk hn
  · rw [ref, h0]
    rfl
  · rw [hv]
    rfl
  · rw [hv]
    have := places_setAddr ((C.view s).take n).blk F i k (.ofNat n)
    rw [hF, toNat_ofNat32 hlt, View.take, hs.places_fresh hn] at this
    exact this
  · intro m hm _
    rw [hv]
    exact update_of_ne hm ..
  · rw [hv]
    exact update_self ..
  · rfl

theorem mapDirect_spec (hs : Sound base C.inner (C.view s) F) (hF : F i = inode.entry) (k : Fin inodeNumDirect)
    (hE : inode.entry.addrs k = 0 → E .noSpace) :
    After C.handle E (Maps C base i s F inode k) (mapDirect true inode k) s := by
  unfold mapDirect
  by_cases h0 : inode.entry.addrs k = 0
  · rw [if_pos ⟨h0, rfl⟩]
    refine after_bind.2 (after_alloc C hs.zero_used hs.inner_used (hE h0) fun n s' hn hlt hv => ?_)
    rw [after_pure, toNat_ofNat32 hlt]
    exact maps_of_direct C hs hF h0 hn hlt hv
  · rw [if_neg fun h => h0 h.1]
    exact maps_of_mapped C hs hF (dif_pos k.isLt) rfl (toNat_ne_zero.2 h0)

/-- what allocating the indirect block guarantees -/
structure HasIndirect (base : Set ℕ) (i : ι) (s : σ) (F : ι → InodeEntry) (inode r : Inode) (s' : σ) : Prop where
  moves : Moves base C.inner i (C.view s) F (C.view s') (update F i r.entry)
  rest : r = { inode with entry := r.entry }
  file : fileOf (C.view s').blk r.entry = fileOf (C.view s).blk inode.entry
  ne : r.entry.indirect ≠ 0

/-- the indirect block is there already -/
theorem hasIndirect_of_ne (hs : Sound base C.inner (C.view s) F) (hF : F i = inode.entry) (h0 : inode.entry.indirect ≠ 0) :
    HasIndirect C base i s F inode inode s := by
  have hupd : update F i inode.entry = F := by rw [← hF, update_eq_self]
  refine ⟨?_, rfl, rfl, h0⟩
  rw [hupd]
  exact Moves.refl hs i

/-- a fresh block n became the indirect block -/
theorem hasIndirect_of_take (hs : Sound base C.inner (C.view s) F) (hF : F i = inode.entry) {n : ℕ} {s' : σ}
    (h0 : inode.entry.indirect = 0) (hn : n ∉ (C.view s).used) (hlt : n < 2 ^ 32) (hv : C.view s' = (C.view s).take n) :
    HasIndirect C base i s F inode (inode.setIndirect (.ofNat n)) s' := by
  have hz : (C.view s').blk (UInt32.ofNat n).toNat = zeros := by
    rw [hv, toNat_ofNat32 hlt]
    exact update_self ..
  have hp : places (C.view s').blk (update F i (inode.setIndirect (.ofNat n)).entry) =
      update (places (C.view s).blk F) (i, .indirect) n := by
    have := places_setIndirect hz (hF ▸ h0 : (F i).indirect = 0)
    rw [hF, toNat_ofNat32 hlt, hv, View.take, hs.places_fresh hn] at this
    rw [hv]
    exact this
  have href0 : ref (C.view s).blk (F i) .indirect = 0 := by
    rw [hF, ref, h0]
    rfl
  obtain ⟨hsound, hothers, hmetas, hfile, -⟩ := hs.grow hn href0 (by rw [hv]; rfl) hp fun m hm _ => by
    rw [hv]
    exact update_of_ne hm ..
  refine ⟨⟨hsound, ?_, hothers, hmetas, ?_⟩, rfl, ?_, ?_⟩
  · intro j hj
    rw [update_of_ne hj]
  · rw [update_self, hF]
    rfl
  · have := hfile rfl
    rwa [update_self, hF] at this
  · rw [← toNat_ne_zero]
    change (UInt32.ofNat n).toNat ≠ 0
    rw [toNat_ofNat32 hlt]
    exact hs.owns.ne_zero hn

theorem mapIndirect_spec (hs : Sound base C.inner (C.view s) F) (hF : F i = inode.entry)
    (hE : inode.entry.indirect = 0 → E .noSpace) :
    After C.handle E (HasIndirect C base i s F inode) (mapIndirect inode) s := by
  unfold mapIndirect
  by_cases h0 : inode.entry.indirect = 0
  · rw [if_pos h0]
    refine after_bind.2 (after_alloc C hs.zero_used hs.inner_used (hE h0) fun n s' hn hlt hv => ?_)
    rw [after_pure]
    exact hasIndirect_of_take C hs hF h0 hn hlt hv
  · rw [if_neg h0, after_pure]
    exact hasIndirect_of_ne C hs hF h0

/-- a fresh block n went to a leaf of the indirect block -/
theorem maps_of_leaf (hs : Sound base C.inner (C.view s) F) (hF : F i = inode.entry) (h0 : inode.entry.indirect ≠ 0)
    {k n : ℕ} {t : Fin inodeNumIndirect} {s' : σ} (hk : slotOf k = some (.leaf t))
    (hz : getLE ((C.view s).blk inode.entry.indirect.toNat) (4 * t) 4 = 0) (hn : n ∉ (C.view s).used) (hn32 : n < 2 ^ 32)
    (hview : C.view s' = ((C.view s).take n).set inode.entry.indirect.toNat
      (putLE (((C.view s).take n).blk inode.entry.indirect.toNat) (4 * t) 4 1 fun _ => n)) :
    Maps C base i s F inode k (n, inode) s' := by
  have hne : inode.entry.indirect.toNat ≠ n := by
    have := hs.owns.ne_ref hn (i, .indirect)
    rwa [places, hF] at this
  apply maps_of_grow C hs hF hk hn
  · rw [ref, if_neg h0, hz]
  · rw [hview]
    rfl
  · have hupd : update F i inode.entry = F := by rw [← hF, update_eq_self]
    have hother : ∀ j, j ≠ i → (F j).indirect ≠ 0 → (F j).indirect.toNat ≠ (F i).indirect.toNat := by
      intro j hj hj0 he
      exact hj (hs.ref_inj (t := .indirect) (u := .indirect) (toNat_ne_zero.2 hj0) he).1
    have := places_setLeaf ((C.view s).take n).blk (k := t) hn32 (hF ▸ h0 : (F i).indirect ≠ 0) hother _ rfl
    rw [hF, View.take, hs.places_fresh hn] at this
    rw [hupd, hview]
    exact this
  · intro m hm hmi
    have hmi' : m ≠ inode.entry.indirect.toNat := fun h => hmi ⟨h ▸ toNat_ne_zero.2 h0, h⟩
    rw [hview]
    simp only [View.set, View.take, update_of_ne hmi', update_of_ne hm]
  · rw [hview]
    simp only [View.set, View.take, update_of_ne hne.symm, update_self]
  · rfl

omit [DecidableEq ι] in
theorem Sound.indirect_not_inner (hs : Sound base C.inner (C.view s) F) (hF : F i = inode.entry)
    (h0 : inode.entry.indirect ≠ 0) : inode.entry.indirect.toNat ∉ C.inner := by
  have := hs.ref_not_inner (i := i) (t := .indirect) (by rw [hF]; exact toNat_ne_zero.2 h0)
  rwa [hF] at this

theorem mapLeaf_spec (hs : Sound base C.inner (C.view s) F) (hF : F i = inode.entry) (h0 : inode.entry.indirect ≠ 0)
    {k : ℕ} (t : Fin inodeNumIndirect) (hk : slotOf k = some (.leaf t))
    (hE : ref (C.view s).blk inode.entry (.leaf t) = 0 → E .noSpace) :
    After C.handle E (Maps C base i s F inode k) (mapLeaf true inode t) s := by
  have hib := hs.indirect_not_inner C hF h0
  unfold mapLeaf leafBlock
  simp only [after_bind]
  rw [after_check t.isLt]
  refine after_acquire C hib fun s1 hv1 => ?_
  refine after_load C hib fun s2 hv2 => ?_
  have hv : C.view s2 = C.view s := hv2.trans hv1
  have href : ref (C.view s).blk inode.entry (.leaf t) = getLE ((C.view s).blk inode.entry.indirect.toNat) (4 * t) 4 := by
    rw [ref, if_neg h0]
  rw [hv1]
  by_cases hz : getLE ((C.view s).blk inode.entry.indirect.toNat) (4 * t) 4 = 0
  · rw [if_pos (by simp [hz]), after_bind]
    refine after_alloc C (hv ▸ hs.zero_used) (hv ▸ hs.inner_used) (hE (href.trans hz)) fun n s3 hn hn32 hv3 => ?_
    rw [hv] at hn hv3
    rw [after_bind]
    refine after_modify C hib fun s4 hv4 => ?_
    rw [after_pure]
    refine after_release C hib fun s5 hv5 => ?_
    rw [Nat.mod_eq_of_lt hn32] at hv4 ⊢
    apply maps_of_leaf C hs hF h0 hk hz hn hn32
    rw [hv5, hv4, hv3]
  · rw [if_neg fun h => hz h.1, after_pure]
    refine after_release C hib fun s3 hv3 => ?_
    rw [after_pure, ← href]
    exact maps_of_mapped C hs hF hk (hv3.trans hv) (by rwa [href])

/-- first the indirect block, then a leaf of it -/
theorem HasIndirect.maps {r : Inode} {s1 s2 : σ} {k : ℕ} {q : ℕ × Inode} (h1 : HasIndirect C base i s F inode r s1)
    (h2 : Maps C base i s1 (update F i r.entry) r k q s2) : Maps C base i s F inode k q s2 := by
  refine ⟨?_, ?_, ?_, h2.block, h2.ne⟩
  · have := h1.moves.trans h2.moves
    rwa [update_idem] at this
  · rw [h2.rest, h1.rest]
  · rw [h2.file, h1.file]

/-- **Mapping.** Block k of the file exists afterwards, is the one returned, and nothing else has changed. -/
theorem inodeMap_spec (hs : Sound base C.inner (C.view s) F) (hF : F i = inode.entry) {pos : ℕ}
    (hpos : pos / blockSize < inodeMaxBlocks)
    (hE : (fileOf (C.view s).blk inode.entry).mapped (pos / blockSize) = false → E .noSpace) :
    After C.handle E (Maps C base i s F inode (pos / blockSize)) (inodeMap true inode pos) s := by
  -- an empty slot is a missing block
  have hmiss : ∀ t, slotOf (pos / blockSize) = some t → ref (C.view s).blk inode.entry t = 0 → E .noSpace := by
    intro t ht h0
    exact hE (Bool.eq_false_iff.2 fun hm => (mapped_of_slot ht).1 hm h0)
  unfold inodeMap
  by_cases hk : pos / blockSize < inodeNumDirect
  · rw [dif_pos hk]
    refine mapDirect_spec C hs hF ⟨_, hk⟩ fun h0 => hmiss (.direct ⟨_, hk⟩) (dif_pos hk) ?_
    rw [ref, h0]
    rfl
  · have hidx : pos / blockSize - inodeNumDirect < inodeNumIndirect := Nat.sub_lt_left_of_lt_add (not_lt.1 hk) hpos
    have hslot : slotOf (pos / blockSize) = some (.leaf ⟨_, hidx⟩) := by rw [slotOf, dif_neg hk, dif_pos hidx]
    rw [dif_neg hk, if_neg fun h => h.2 rfl]
    refine (mapIndirect_spec C hs hF fun h0 => hmiss _ hslot (by rw [ref, if_pos h0])).bind fun r s1 h1 => ?_
    have hF1 : update F i r.entry i = r.entry := update_self ..
    have hmiss1 : ref (C.view s1).blk r.entry (.leaf ⟨_, hidx⟩) = 0 → E .noSpace := by
      intro h0
      apply hE
      rw [← h1.file]
      exact Bool.eq_false_iff.2 fun hm => (mapped_of_slot hslot).1 hm h0
    exact (mapLeaf_spec C h1.moves.sound hF1 h1.ne ⟨_, hidx⟩ hslot hmiss1).mono fun q s2 h2 => h1.maps C h2

/-! ## Without a context -/

/-- the slot of a block that exists -/
theorem slot_of_mapped {blk : ℕ → BlockData} {e : InodeEntry} {k : ℕ} (h : (fileOf blk e).mapped k = true) :
    ∃ t, slotOf k = some t ∧ ref blk e t ≠ 0 := by
  simp only [fileOf, fileVia] at h
  cases hk : slotOf k with
  | none => simp [hk] at h
  | some t => exact ⟨t, rfl, by simpa [hk] using h⟩

omit [DecidableEq ι] in
/-- `inode_map` without a context finds the block of a position -/
theorem inodeMap_read (hs : Sound base C.inner (C.view s) F) (hF : F i = inode.entry) {pos : ℕ} {t : Slot}
    (hk : slotOf (pos / blockSize) = some t) (hne : ref (C.view s).blk inode.entry t ≠ 0) :
    After C.handle E (fun r s' => r.1 = ref (C.view s).blk inode.entry t ∧ C.view s' = C.view s)
      (inodeMap false inode pos) s := by
  unfold inodeMap
  cases t with
  | indirect => exact absurd hk (slotOf_ne_indirect _)
  | direct j =>
    obtain hj := eq_of_slotOf_direct hk
    have hlt : pos / blockSize < inodeNumDirect := hj ▸ j.isLt
    rw [dif_pos hlt, mapDirect, if_neg (by simp), after_pure]
    simp only [ref, hj, and_self]
  | leaf j =>
    have hj := eq_of_slotOf_leaf hk
    have h0 : inode.entry.indirect ≠ 0 := by
      intro h0
      rw [ref, if_pos h0] at hne
      exact hne rfl
    have hib := hs.indirect_not_inner C hF h0
    have hidx : pos / blockSize - inodeNumDirect = j := by omega
    rw [dif_neg (by omega), if_neg fun h => h0 h.1, mapIndirect, if_neg h0, hidx, after_bind, after_pure]
    unfold mapLeaf leafBlock
    simp only [after_bind]
    rw [after_check j.isLt]
    refine after_acquire C hib fun s1 hv1 => after_load C hib fun s2 hv2 => ?_
    rw [if_neg (by simp), after_pure]
    refine after_release C hib fun s3 hv3 => ?_
    rw [after_pure, ref, if_neg h0, hv3, hv2, hv1]
    exact ⟨rfl, rfl⟩

end OsKernel.Fs.Inodes
