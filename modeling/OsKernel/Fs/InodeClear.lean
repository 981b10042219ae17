/-
`inode_clear`: giving up all blocks of a file.

The blocks are freed one by one while the entry and the indirect block still name them; `Freed` keeps the account with the
slots already given up counted as empty, so that no block is freed twice and every one freed was in use. `inodeClear_spec`
is the result.
-/
import OsKernel.Fs.InodeReadWrite

namespace OsKernel.Fs.Inodes

open OsKernel.Bytes OsKernel.Program OsKernel.Owner
open Function (update update_eq_self update_of_ne update_self)

variable {σ ι : Type} [DecidableEq ι] (C : AbstractCache σ) {base : Set ℕ} {E : Stop → Prop} {s : σ}
  {F : ι → InodeEntry} {i : ι} {inode : Inode} {sb : SuperBlock}

/-- the places of a family when the slots ts of inode i have been given up -/
def drained (r : ι × Slot → ℕ) (i : ι) (ts : List Slot) (p : ι × Slot) : ℕ := if p.1 = i ∧ p.2 ∈ ts then 0 else r p

theorem drained_nil (r : ι × Slot → ℕ) (i : ι) : drained r i [] = r := by
  funext p
  simp [drained]

theorem drained_cons (r : ι × Slot → ℕ) (i : ι) (t : Slot) (ts : List Slot) :
    drained r i (t :: ts) = update (drained r i ts) (i, t) 0 := by
  funext ⟨j, u⟩
  by_cases h : (j, u) = (i, t)
  · obtain ⟨rfl, rfl⟩ := Prod.mk.inj h
    simp [drained]
  · rw [update_of_ne h]
    have : ¬ (j = i ∧ u = t) := fun h' => h (Prod.ext h'.1 h'.2)
    simp only [drained, List.mem_cons]
    by_cases hj : j = i
    · have hu : u ≠ t := fun hu => this ⟨hj, hu⟩
      simp [hj, hu]
    · simp [hj]

/-- the slots ts of inode i have been freed; the blocks and the entry are as they were -/
structure Freed (base : Set ℕ) (i : ι) (s : σ) (F : ι → InodeEntry) (ts : List Slot) (s' : σ) : Prop where
  blk : (C.view s').blk = (C.view s).blk
  owns : Owns base (C.view s').used (drained (places (C.view s).blk F) i ts)

theorem freed_nil (hs : Sound base C.inner (C.view s) F) (i : ι) : Freed C base i s F [] s := by
  refine ⟨rfl, ?_⟩
  rw [drained_nil]
  exact hs.owns

/-- an empty slot needs no work -/
theorem Freed.skip {s' : σ} {ts : List Slot} {t : Slot} (h : Freed C base i s F ts s') (ht : t ∉ ts)
    (h0 : ref (C.view s).blk (F i) t = 0) : Freed C base i s F (t :: ts) s' := by
  refine ⟨h.blk, ?_⟩
  have hz : drained (places (C.view s).blk F) i ts (i, t) = 0 := by simpa [drained, ht, places] using h0
  rw [drained_cons, ← hz, update_eq_self]
  exact h.owns

/-- freeing the block of a slot -/
theorem Freed.free {s' : σ} {ts : List Slot} {t : Slot} {Q : Unit → σ → Prop} (hs : Sound base C.inner (C.view s) F)
    (h : Freed C base i s F ts s') (ht : t ∉ ts) (h0 : ref (C.view s).blk (F i) t ≠ 0)
    (hQ : ∀ s'', Freed C base i s F (t :: ts) s'' → Q () s'') :
    After C.handle E Q (Inodes.free (ref (C.view s).blk (F i) t)) s' := by
  have hval : drained (places (C.view s).blk F) i ts (i, t) = ref (C.view s).blk (F i) t := by
    simp [drained, ht, places]
  refine after_free C ?_ (hs.ref_not_inner h0) fun s'' hv => hQ s'' ⟨?_, ?_⟩
  · rw [← hval]
    exact h.owns.mem_used _
  · rw [hv]
    exact h.blk
  · have := h.owns.drop (k := (i, t)) (by rwa [hval])
    rw [hval] at this
    rw [hv, drained_cons]
    exact this

theorem freeBlocks_spec (hs : Sound base C.inner (C.view s) F) (us : List Slot) {s' : σ} {ts : List Slot}
    (h : Freed C base i s F ts s') (hnd : us.Nodup) (hdisj : ∀ t ∈ us, t ∉ ts) :
    After C.handle E (fun _ s'' => Freed C base i s F (us.reverse ++ ts) s'')
      (freeBlocks (us.map (ref (C.view s).blk (F i)))) s' := by
  induction us generalizing s' ts with
  | nil => exact h
  | cons t us ih =>
    have hnt : t ∉ us := (List.nodup_cons.1 hnd).1
    have hrest : ∀ s'', Freed C base i s F (t :: ts) s'' →
        After C.handle E (fun _ s'' => Freed C base i s F ((t :: us).reverse ++ ts) s'')
          (freeBlocks (us.map (ref (C.view s).blk (F i)))) s'' := by
      intro s'' h''
      have := ih h'' (List.nodup_cons.1 hnd).2 fun u hu => by
        rw [List.mem_cons, not_or]
        exact ⟨fun he => hnt (he ▸ hu), hdisj u (List.mem_cons_of_mem _ hu)⟩
      rwa [List.reverse_cons, List.append_assoc]
    rw [List.map_cons, freeBlocks]
    by_cases h0 : ref (C.view s).blk (F i) t = 0
    · rw [if_neg (not_not.2 h0)]
      exact hrest s' (h.skip C (hdisj t List.mem_cons_self) h0)
    · rw [if_pos h0, after_bind]
      exact h.free C hs (hdisj t List.mem_cons_self) h0 hrest

theorem freeLeaves_spec (hs : Sound base C.inner (C.view s) F) (hF : F i = inode.entry) (h0 : inode.entry.indirect ≠ 0)
    (ks : List (Fin inodeNumIndirect)) {s' : σ} {ts : List Slot} (h : Freed C base i s F ts s') (hnd : ks.Nodup)
    (hdisj : ∀ k ∈ ks, Slot.leaf k ∉ ts) :
    After C.handle E (fun _ s'' => Freed C base i s F ((ks.map Slot.leaf).reverse ++ ts) s'')
      (freeLeaves inode.entry.indirect.toNat (ks.map Fin.val)) s' := by
  have hib := hs.indirect_not_inner C hF h0
  induction ks generalizing s' ts with
  | nil => exact h
  | cons k ks ih =>
    have hnk : k ∉ ks := (List.nodup_cons.1 hnd).1
    have hkt : Slot.leaf k ∉ ts := hdisj k List.mem_cons_self
    have hrest : ∀ s'', Freed C base i s F (.leaf k :: ts) s'' →
        After C.handle E (fun _ s'' => Freed C base i s F (((k :: ks).map Slot.leaf).reverse ++ ts) s'')
          (freeLeaves inode.entry.indirect.toNat (ks.map Fin.val)) s'' := by
      intro s'' h''
      have := ih h'' (List.nodup_cons.1 hnd).2 fun l hl => by
        rw [List.mem_cons, not_or]
        exact ⟨fun he => hnk (Slot.leaf.inj he ▸ hl), hdisj l (List.mem_cons_of_mem _ hl)⟩
      rwa [List.map_cons, List.reverse_cons, List.append_assoc]
    change After _ _ _ (freeLeaves _ (k.val :: ks.map Fin.val)) s'
    rw [freeLeaves, after_bind]
    refine after_load C hib fun s1 hv1 => ?_
    have h1 : Freed C base i s F ts s1 := ⟨hv1 ▸ h.blk, hv1 ▸ h.owns⟩
    have href : getLE ((C.view s').blk inode.entry.indirect.toNat) (4 * k.val) 4 = ref (C.view s).blk (F i) (.leaf k) := by
      rw [h.blk, hF, ref, if_neg h0]
    rw [href]
    by_cases hz : ref (C.view s).blk (F i) (.leaf k) = 0
    · rw [if_neg (not_not.2 hz)]
      exact hrest s1 (h1.skip C hkt hz)
    · rw [if_pos hz, after_bind]
      exact h1.free C hs hkt hz hrest

/-- every slot of inode i that held a block has been freed -/
structure AllFreed (base : Set ℕ) (i : ι) (s : σ) (F : ι → InodeEntry) (s' : σ) : Prop where
  blk : (C.view s').blk = (C.view s).blk
  owns : Owns base (C.view s').used (places (C.view s).blk (update F i (InodeEntry.cleared (F i))))

theorem Freed.all {s' : σ} {ts : List Slot} (h : Freed C base i s F ts s')
    (hall : ∀ t, t ∉ ts → ref (C.view s).blk (F i) t = 0) : AllFreed C base i s F s' := by
  refine ⟨h.blk, ?_⟩
  have hp : places (C.view s).blk (update F i (InodeEntry.cleared (F i))) =
      drained (places (C.view s).blk F) i ts := by
    funext ⟨j, t⟩
    by_cases hj : j = i
    · subst hj
      have hzero : ref (C.view s).blk (InodeEntry.cleared (F j)) t = 0 := by cases t <;> rfl
      simp only [places, update_self, hzero, drained]
      by_cases ht : t ∈ ts
      · rw [if_pos (by simp [ht])]
      · rw [if_neg fun h => ht h.2, hall t ht]
    · simp only [places, update_of_ne hj, drained]
      rw [if_neg fun h => hj h.1]
  rw [hp]
  exact h.owns

theorem clearIndirect_spec (hs : Sound base C.inner (C.view s) F) (hF : F i = inode.entry) {s' : σ} {ts : List Slot}
    (h : Freed C base i s F ts s') (hdir : ∀ k, Slot.direct k ∈ ts) (hleaf : ∀ k, Slot.leaf k ∉ ts)
    (hind : Slot.indirect ∉ ts) :
    After C.handle E (fun _ s'' => AllFreed C base i s F s'') (clearIndirect inode) s' := by
  unfold clearIndirect
  by_cases h0 : inode.entry.indirect = 0
  · rw [if_neg (not_not.2 h0), after_pure]
    apply h.all C
    intro t ht
    rw [hF]
    cases t with
    | direct k => exact absurd (hdir k) ht
    | indirect => rw [ref, h0]; rfl
    | leaf k => rw [ref, if_pos h0]
  · have hib := hs.indirect_not_inner C hF h0
    have href : ref (C.view s).blk (F i) .indirect = inode.entry.indirect.toNat := by rw [hF]; rfl
    rw [if_pos h0]
    simp only [after_bind]
    refine after_acquire C hib fun s1 hv1 => ?_
    have h1 : Freed C base i s F ts s1 := ⟨hv1 ▸ h.blk, hv1 ▸ h.owns⟩
    rw [← List.map_coe_finRange_eq_range]
    refine (freeLeaves_spec C hs hF h0 _ h1 (List.nodup_finRange _) fun k _ => hleaf k).mono fun _ s2 h2 => ?_
    refine after_release C hib fun s3 hv3 => ?_
    have h3 : Freed C base i s F (((List.finRange inodeNumIndirect).map Slot.leaf).reverse ++ ts) s3 :=
      ⟨hv3 ▸ h2.blk, hv3 ▸ h2.owns⟩
    rw [← href]
    refine h3.free C hs ?_ (by rw [href]; exact toNat_ne_zero.2 h0) fun s4 h4 => h4.all C ?_
    · simp [hind]
    · intro t ht
      cases t with
      | direct k => simp [hdir] at ht
      | indirect => simp at ht
      | leaf k => simp at ht

/-- what `inode_clear` guarantees -/
structure Cleared (sb : SuperBlock) (base : Set ℕ) (i : ι) (s : σ) (F : ι → InodeEntry) (inode r : Inode) (s' : σ) :
    Prop where
  rest : r = { inode with entry := InodeEntry.cleared inode.entry }
  sound : Sound base C.inner (C.view s') (update F i r.entry)
  others : ∀ j, j ≠ i → fileOf (C.view s').blk (F j) = fileOf (C.view s).blk (F j)
  blk : (C.view s').blk = ((C.view s).putEntry sb inode.inodeNo r.entry).blk

/-- **Clearing.** -/
theorem inodeClear_spec (hs : Sound base C.inner (C.view s) F) (hF : F i = inode.entry) (hst : Stored C sb base inode) :
    After C.handle E (Cleared C sb base i s F inode) (inodeClear sb inode) s := by
  unfold inodeClear
  have hdirect : List.ofFn (fun k => (inode.entry.addrs k).toNat) =
      (List.ofFn Slot.direct).map (ref (C.view s).blk (F i)) := by
    rw [List.map_ofFn, hF]
    rfl
  rw [hdirect]
  have hnd : (List.ofFn Slot.direct).Nodup := List.nodup_ofFn.2 fun _ _ h => Slot.direct.inj h
  refine (freeBlocks_spec C hs _ (freed_nil C hs i) hnd fun _ _ => List.not_mem_nil).bind fun _ s1 h1 => ?_
  refine (clearIndirect_spec C hs hF h1 ?_ ?_ ?_).bind fun _ s2 h2 => ?_
  · intro k
    rw [List.append_nil, List.mem_reverse, List.mem_ofFn]
    exact ⟨k, rfl⟩
  · simp
  · simp
  · have hst2 : Stored C sb base { inode with entry := InodeEntry.cleared inode.entry } :=
      ⟨hst.valid, hst.home, hst.outer⟩
    refine (inodeSyncWrite_spec C hst2).bind fun _ s3 hv3 => ?_
    have hsound : Sound base C.inner (C.view s2) (update F i (InodeEntry.cleared inode.entry)) :=
      ⟨by rw [h2.blk, ← hF]; exact h2.owns, hs.inner⟩
    obtain ⟨hsound3, hfiles⟩ := hsound.set_base hst.home
      (Fs.putEntry inode.inodeNo (InodeEntry.cleared inode.entry) ((C.view s2).blk (toBlockNo sb inode.inodeNo)))
    refine ⟨rfl, ?_, ?_, ?_⟩
    · rw [hv3]
      exact hsound3
    · intro j hj
      have := hfiles j
      rw [update_of_ne hj, h2.blk] at this
      rw [hv3]
      simp only [View.putEntry, h2.blk]
      exact this
    · rw [hv3]
      simp only [View.putEntry, View.set, h2.blk]

end OsKernel.Fs.Inodes
