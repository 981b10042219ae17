/-
`inode_read` and `inode_write`.

Over any abstract cache and any sound family of inodes, a write is `File.write` on the file of its inode and moves nothing
else (`fileWrite_spec`), and the only way it can stop is that a block is missing and none is left to allocate. A read returns
the bytes of the file, provided that the blocks they come from exist (`fileRead_upTo`, `fileRead_spec`). Both loops are by
induction on their fuel, one turn for one block.
-/
import OsKernel.Fs.InodeMap

namespace OsKernel.Fs.Inodes

open OsKernel.Bytes OsKernel.Program OsKernel.Owner OsKernel.Splice
open Function (update update_eq_self update_idem update_of_ne update_self)

variable {σ ι : Type} [DecidableEq ι] (C : AbstractCache σ) {base : Set ℕ} {E : Stop → Prop} {s : σ}
  {F : ι → InodeEntry} {i : ι} {inode : Inode}

/-! ## Writing -/

omit [DecidableEq ι] in
/-- bytes are copied into block k of file i -/
theorem Sound.patch (hs : Sound base C.inner (C.view s) F) {k start n b : ℕ} {t : Slot} {g : ℕ → UInt8} {s' : σ}
    (hk : slotOf k = some t) (hb : b = ref (C.view s).blk (F i) t) (hne : b ≠ 0) (hfit : start + n ≤ blockSize)
    (hv : C.view s' = (C.view s).set b (Bytes.patch ((C.view s).blk b) start n g)) :
    Moves base C.inner i (C.view s) F (C.view s') F ∧
      fileOf (C.view s').blk (F i) = (fileOf (C.view s).blk (F i)).patch (k * blockSize + start) n g := by
  have ht : t ≠ .indirect := ne_indirect_of_slotOf hk
  have hne' : ref (C.view s).blk (F i) t ≠ 0 := hb ▸ hne
  have hplaces : places (C.view s').blk F = places (C.view s).blk F := by
    rw [hv]
    apply places_update
    intro j _ he
    exact ht (hs.ref_inj (j := j) (u := .indirect) hne' (hb ▸ he.symm)).2
  have href : ∀ j u, ref (C.view s').blk (F j) u = ref (C.view s).blk (F j) u := fun j u => congrFun hplaces (j, u)
  -- blocks other than b keep their content
  have hblk : ∀ j u, (j, u) ≠ (i, t) → ref (C.view s).blk (F j) u ≠ 0 →
      (C.view s').blk (ref (C.view s).blk (F j) u) = (C.view s).blk (ref (C.view s).blk (F j) u) := by
    intro j u hju hju0
    rw [hv]
    apply update_of_ne
    rw [hb]
    intro he
    obtain ⟨rfl, rfl⟩ := hs.ref_inj hju0 he
    exact hju rfl
  refine ⟨⟨⟨?_, hs.inner⟩, fun _ _ => rfl, ?_, ?_, rfl⟩, ?_⟩
  · rw [hplaces, hv]
    exact hs.owns
  · intro j hj
    exact fileVia_congr (fun u _ => href j u) fun u _ => hblk j u fun he => hj (congrArg Prod.fst he)
  · intro m hm
    rw [hv]
    apply update_of_ne
    rintro rfl
    exact hs.ref_not_base hne' (hb ▸ hm)
  · apply fileVia_patch hk (fun u _ => href i u) hne' _ (fun u _ hut => hblk i u fun he => hut (congrArg Prod.snd he)) hfit
    rw [hv, hb]
    exact update_self ..

/-- what a piece of `inode_write` guarantees: src has been written from pos on -/
structure Wrote (base : Set ℕ) (i : ι) (s : σ) (F : ι → InodeEntry) (inode : Inode) (pos : ℕ) (src : List UInt8)
    (r : ℕ × Inode) (s' : σ) : Prop where
  stop : r.1 = pos + src.length
  moves : Moves base C.inner i (C.view s) F (C.view s') (update F i r.2.entry)
  rest : r.2 = { inode with entry := r.2.entry }
  file : fileOf (C.view s').blk r.2.entry = (fileOf (C.view s).blk inode.entry).write pos src

theorem wrote_nil (hs : Sound base C.inner (C.view s) F) (hF : F i = inode.entry) (pos : ℕ) :
    Wrote C base i s F inode pos [] (pos, inode) s := by
  refine ⟨rfl, ?_, rfl, (File.write_nil _ _).symm⟩
  rw [← hF, update_eq_self]
  exact Moves.refl hs i

/-- The loop of `inode_write`: by induction on the fuel, one turn being a map and a copy into one block. -/
theorem writeLoop_spec {stop : ℕ} (hstop : stop ≤ inodeMaxBytes) (fuel : ℕ) {s : σ}
    {F : ι → InodeEntry} (inode : Inode) (pos : ℕ) (src : List UInt8) (hs : Sound base C.inner (C.view s) F)
    (hF : F i = inode.entry) (hpos : pos + src.length = stop) (hfuel : src.length ≤ fuel)
    (hE : ∀ k, Overlaps pos src.length k → (fileOf (C.view s).blk inode.entry).mapped k = false → E .noSpace) :
    After C.handle E (Wrote C base i s F inode pos src) (writeLoop stop fuel inode pos src) s := by
  induction fuel generalizing s F inode pos src with
  | zero =>
    obtain rfl : src = [] := List.length_eq_zero_iff.1 (Nat.le_zero.1 hfuel)
    exact wrote_nil C hs hF pos
  | succ fuel ih =>
    unfold writeLoop
    by_cases hlt : pos < stop
    · have hk : pos / blockSize < inodeMaxBlocks :=
        Nat.div_lt_of_lt_mul (by rw [Nat.mul_comm]; exact lt_of_lt_of_le hlt hstop)
      have hover : Overlaps pos src.length (pos / blockSize) := by
        unfold Overlaps
        simp only [blockSize]
        omega
      rw [if_pos hlt]
      refine (inodeMap_spec C hs hF hk (hE _ hover)).bind fun r s1 h1 => ?_
      obtain ⟨b, inode1⟩ := r
      obtain ⟨t, ht⟩ := slotOf_isSome hk
      have hb : b = ref (C.view s1).blk (update F i inode1.entry i) t := by
        rw [update_self, ← blockAt_eq ht]
        exact h1.block
      have hbi : b ∉ C.inner := hb ▸ h1.moves.sound.ref_not_inner (hb ▸ h1.ne)
      simp only [after_bind]
      rw [after_check h1.ne]
      refine after_acquire C hbi fun s2 hv2 => after_modify C hbi fun s3 hv3 => ?_
      refine after_sync C hbi fun s4 hv4 => after_release C hbi fun s5 hv5 => ?_
      -- the bytes of this turn
      generalize hlen : min (blockSize - pos % blockSize) (stop - pos) = len at hv3 ⊢
      have hmod : pos % blockSize < blockSize := Nat.mod_lt _ (by decide)
      have hfit : pos % blockSize + len ≤ blockSize := by omega
      have hsrc : len ≤ src.length := by omega
      have hv : C.view s5 = (C.view s1).set b (Bytes.patch ((C.view s1).blk b) (pos % blockSize) len fun i => src.getD i 0) := by
        rw [hv5, hv4, hv3, hv2]
      obtain ⟨hmoves, hfile⟩ := h1.moves.sound.patch C ht hb h1.ne hfit hv
      rw [update_self, h1.file, File.chunk_eq_write _ (by omega) hfit hsrc] at hfile
      -- a block that is still missing was missing before
      have hE1 : ∀ k, Overlaps (pos + len) (src.drop len).length k →
          (fileOf (C.view s5).blk inode1.entry).mapped k = false → E .noSpace := by
        intro k hk hm
        rw [hfile] at hm
        rw [List.length_drop] at hk
        apply hE k
        · unfold Overlaps at hk ⊢
          omega
        · simp only [File.write, Bool.or_eq_false_iff] at hm
          exact hm.1
      have hrest := ih inode1 (pos + len) (src.drop len) hmoves.sound (update_self ..)
        (by rw [List.length_drop]; omega) (by rw [List.length_drop]; omega) hE1
      refine hrest.mono fun q s6 h6 => ⟨?_, ?_, ?_, ?_⟩
      · rw [h6.stop, List.length_drop]
        omega
      · have := (h1.moves.trans hmoves).trans h6.moves
        rwa [update_idem] at this
      · have hsame : inode1 = { inode with entry := inode1.entry } := h1.rest
        rw [h6.rest, hsame]
      · have hl : pos + (src.take len).length = pos + len := by rw [List.length_take_of_le hsrc]
        calc fileOf (C.view s6).blk q.2.entry
            = (fileOf (C.view s5).blk inode1.entry).write (pos + len) (src.drop len) := h6.file
          _ = ((fileOf (C.view s).blk inode.entry).write pos (src.take len)).write (pos + (src.take len).length)
                (src.drop len) := by rw [hfile, hl]
          _ = (fileOf (C.view s).blk inode.entry).write pos src := by rw [File.write_append, List.take_append_drop]
    · obtain rfl : src = [] := List.length_eq_zero_iff.1 (by omega)
      rw [if_neg hlt]
      exact wrote_nil C hs hF pos

/-- the inode is loaded, and its home block is not a data block -/
structure Stored (sb : SuperBlock) (base : Set ℕ) (inode : Inode) : Prop where
  valid : inode.valid = true
  home : toBlockNo sb inode.inodeNo ∈ base
  outer : toBlockNo sb inode.inodeNo ∉ C.inner

/-- the blocks after the entry e of an inode has been written to its home block -/
def View.putEntry (v : View) (sb : SuperBlock) (inodeNo : ℕ) (e : InodeEntry) : View :=
  v.set (toBlockNo sb inodeNo) (Fs.putEntry inodeNo e (v.blk (toBlockNo sb inodeNo)))

variable {sb : SuperBlock}

theorem inodeSyncWrite_spec (hst : Stored C sb base inode) :
    After C.handle E (fun _ s' => C.view s' = (C.view s).putEntry sb inode.inodeNo inode.entry)
      (inodeSyncWrite sb inode) s := by
  unfold inodeSyncWrite
  simp only [after_bind]
  refine after_acquire C hst.outer fun s1 hv1 => ?_
  rw [if_pos hst.valid]
  simp only [after_bind]
  refine after_modify C hst.outer fun s2 hv2 => ?_
  refine after_sync C hst.outer fun s3 hv3 => after_release C hst.outer fun s4 hv4 => ?_
  rw [hv4, hv3, hv2, hv1]
  rfl

/-- what `inode_write` guarantees -/
structure Written (sb : SuperBlock) (base : Set ℕ) (i : ι) (s : σ) (F : ι → InodeEntry) (inode : Inode) (off : ℕ)
    (src : List UInt8) (r : ℕ × Inode) (s' : σ) : Prop where
  count : r.1 = src.length
  sound : Sound base C.inner (C.view s') (update F i r.2.entry)
  others : ∀ j, j ≠ i → fileOf (C.view s').blk (F j) = fileOf (C.view s).blk (F j)
  file : fileOf (C.view s').blk r.2.entry = (fileOf (C.view s).blk inode.entry).write off src
  size : r.2.entry.numBytes.toNat = max inode.entry.numBytes.toNat (off + src.length)
  rest : r.2 = { inode with entry := r.2.entry }
  head : r.2.entry =
    { inode.entry with addrs := r.2.entry.addrs, indirect := r.2.entry.indirect, numBytes := r.2.entry.numBytes }
  /-- of the blocks in `base` only the home block changes, when the file grows -/
  metas : ∀ n ∈ base, (C.view s').blk n =
    if off + src.length > inode.entry.numBytes.toNat then ((C.view s).putEntry sb inode.inodeNo r.2.entry).blk n
    else (C.view s).blk n

theorem writeSize_spec (hst : Stored C sb base inode) {off : ℕ} {src : List UInt8}
    (hmax : off + src.length ≤ inodeMaxBytes) {q : ℕ × Inode} {s1 : σ} (h1 : Wrote C base i s F inode off src q s1)
    (hF : F i = inode.entry) :
    After C.handle E (fun r s' => Written C sb base i s F inode off src (src.length, r) s')
      (writeSize sb q.2 (off + src.length)) s1 := by
  obtain ⟨pos, inode1⟩ := q
  have hrest : inode1 = { inode with entry := inode1.entry } := h1.rest
  have hhead := h1.moves.head
  rw [update_self, hF] at hhead
  unfold SameHead at hhead
  have hsize : inode1.entry.numBytes = inode.entry.numBytes := by rw [hhead]
  have hno : inode1.inodeNo = inode.inodeNo := by rw [hrest]
  have hst1 : ∀ n, Stored C sb base (inode1.setNumBytes n) := by
    intro n
    rw [hrest]
    exact ⟨hst.valid, hst.home, hst.outer⟩
  have hothers : ∀ j, j ≠ i → fileOf (C.view s1).blk (F j) = fileOf (C.view s).blk (F j) := by
    intro j hj
    have := h1.moves.others j hj
    rwa [update_of_ne hj] at this
  unfold writeSize
  rw [hsize]
  by_cases hgrow : off + src.length > inode.entry.numBytes.toNat
  · rw [if_pos hgrow]
    refine (inodeSyncWrite_spec C (hst1 _)).bind fun _ s2 hv2 => ?_
    -- the new size does not matter to who owns what, nor does the write of the home block
    have hsound : Sound base C.inner (C.view s1) (update F i (inode1.setNumBytes (off + src.length)).entry) :=
      h1.moves.sound.retag rfl rfl
    obtain ⟨hsound2, hfiles⟩ := hsound.set_base hst.home
      (Fs.putEntry inode.inodeNo (inode1.setNumBytes (off + src.length)).entry ((C.view s1).blk (toBlockNo sb inode.inodeNo)))
    have hview : C.view s2 = (C.view s1).putEntry sb inode.inodeNo (inode1.setNumBytes (off + src.length)).entry := by
      rw [hv2]
      exact congrArg (fun m => (C.view s1).putEntry sb m _) hno
    have hlt : off + src.length < 2 ^ 32 := lt_of_le_of_lt hmax (by decide)
    refine ⟨rfl, ?_, ?_, ?_, ?_, ?_, ?_, ?_⟩
    · rw [hview]
      exact hsound2
    · intro j hj
      have := hfiles j
      rw [update_of_ne hj] at this
      rw [hview, ← hothers j hj]
      exact this
    · have := hfiles i
      rw [update_self] at this
      rw [hview]
      exact this.trans h1.file
    · change (UInt32.ofNat _).toNat = _
      rw [toNat_ofNat32 hlt]
      omega
    · rw [hrest]
      rfl
    · obtain ⟨a, b, hab⟩ : ∃ a b, inode1.entry = { inode.entry with addrs := a, indirect := b } := ⟨_, _, hhead⟩
      simp only [Inode.setNumBytes, hab]
    · intro n hn
      rw [if_pos hgrow, hview]
      simp only [View.putEntry, View.set, h1.moves.metas _ hst.home]
      by_cases hnb : n = toBlockNo sb inode.inodeNo
      · rw [hnb, update_self, update_self]
      · rw [update_of_ne hnb, update_of_ne hnb]
        exact h1.moves.metas n hn
  · rw [if_neg hgrow, after_pure]
    refine ⟨rfl, h1.moves.sound, hothers, h1.file, ?_, hrest, ?_, ?_⟩
    · change inode1.entry.numBytes.toNat = _
      rw [hsize]
      omega
    · change inode1.entry = _
      rw [hhead]
    · intro n hn
      rw [if_neg hgrow]
      exact h1.moves.metas n hn

/-- what the assertions say when no sum wraps -/
theorem writeAsserts_iff {off n size : ℕ} (hn : n < 2 ^ 64) :
    (off ≤ size ∧ addU off n ≤ inodeMaxBytes ∧ off ≤ addU off n) ↔ off ≤ size ∧ off + n ≤ inodeMaxBytes := by
  have hmax : inodeMaxBytes < 2 ^ 32 := by decide
  constructor
  · rintro ⟨h1, h2, h3⟩
    have hno : off + n < 2 ^ 64 := by
      by_contra hge
      have hwrap : addU off n = off + n - 2 ^ 64 := by
        unfold addU
        omega
      omega
    rw [addU_of_lt hno] at h2
    exact ⟨h1, h2⟩
  · rintro ⟨h1, h2⟩
    rw [addU_of_lt (by omega)]
    exact ⟨h1, h2, Nat.le_add_right ..⟩

/-- **Writing.** -/
theorem fileWrite_spec (hs : Sound base C.inner (C.view s) F) (hF : F i = inode.entry) (hst : Stored C sb base inode)
    {off : ℕ} {src : List UInt8} (hoff : off ≤ inode.entry.numBytes.toNat) (hmax : off + src.length ≤ inodeMaxBytes)
    (hE : ∀ k, Overlaps off src.length k → (fileOf (C.view s).blk inode.entry).mapped k = false → E .noSpace) :
    After C.handle E (Written C sb base i s F inode off src) (fileWrite sb inode src off) s := by
  have hlt : off + src.length < 2 ^ 64 := lt_of_le_of_lt hmax (by decide)
  unfold fileWrite
  rw [addU_of_lt hlt]
  simp only [after_bind]
  rw [after_check hoff, after_check hmax, after_check (Nat.le_add_right ..)]
  refine (writeLoop_spec C hmax _ inode off src hs hF rfl (by omega) hE).mono fun q s1 h1 => ?_
  have hstop := h1.stop
  obtain ⟨pos, inode1⟩ := q
  dsimp only at hstop ⊢
  refine (writeSize_spec C hst hmax h1 hF).mono fun r s2 h2 => ?_
  have hsub : subU pos off = src.length := by
    rw [hstop, subU_of_le (Nat.le_add_right ..) hlt]
    omega
  rw [after_check hsub, hsub]
  exact h2

/-! ## Reading -/

/-- every block below the size of the file exists -/
def NoHole (blk : ℕ → BlockData) (e : InodeEntry) : Prop :=
  ∀ k, k * blockSize < e.numBytes.toNat → (fileOf blk e).mapped k = true

omit [DecidableEq ι] in
theorem readLoop_spec (hs : Sound base C.inner (C.view s) F) (hF : F i = inode.entry) {stop : ℕ}
    (hmap : ∀ k, k * blockSize < stop → (fileOf (C.view s).blk inode.entry).mapped k = true) (fuel : ℕ) {s' : σ}
    (hv : C.view s' = C.view s) (pos : ℕ) (dest : List UInt8) (hpos : pos ≤ stop) (hfuel : stop - pos ≤ fuel) :
    After C.handle E (fun r s'' => r = (stop, dest ++ (List.range (stop - pos)).map fun j =>
        (fileOf (C.view s).blk inode.entry).byte (pos + j)) ∧ C.view s'' = C.view s)
      (readLoop inode stop fuel pos dest) s' := by
  induction fuel generalizing s' pos dest with
  | zero =>
    obtain rfl : pos = stop := by omega
    simp [readLoop, hv]
  | succ fuel ih =>
    unfold readLoop
    by_cases hlt : pos < stop
    · rw [if_pos hlt]
      obtain ⟨t, ht, hne⟩ := slot_of_mapped (hmap (pos / blockSize) (by simp only [blockSize]; omega))
      have hs' : Sound base C.inner (C.view s') F := hv ▸ hs
      refine (inodeMap_read C hs' hF ht (hv ▸ hne)).bind fun r s1 h1 => ?_
      obtain ⟨b, inode1⟩ := r
      obtain ⟨hb, hv1⟩ := h1
      dsimp only at hb
      rw [hv] at hb hv1
      have hbi : b ∉ C.inner := by
        have := hs.ref_not_inner (i := i) (t := t) (by rwa [hF])
        rwa [hF, ← hb] at this
      simp only [after_bind]
      rw [after_check (hb ▸ hne)]
      refine after_acquire C hbi fun s2 hv2 => after_load C hbi fun s3 hv3 => after_release C hbi fun s4 hv4 => ?_
      rw [hv2, hv1]
      generalize hlen : min (blockSize - pos % blockSize) (stop - pos) = len
      have hmod : pos % blockSize < blockSize := Nat.mod_lt _ (by decide)
      -- the bytes copied are those of the file
      have hbytes : bytesOf ((C.view s).blk b) (pos % blockSize) len =
          (List.range len).map fun j => (fileOf (C.view s).blk inode.entry).byte (pos + j) := by
        apply List.map_congr_left
        intro j hj
        rw [List.mem_range] at hj
        have hdiv : (pos + j) / blockSize = pos / blockSize := by simp only [blockSize] at *; omega
        have hmod' : (pos + j) % blockSize = pos % blockSize + j := by simp only [blockSize] at *; omega
        simp only [fileOf, fileVia, hdiv, ht, Option.elim_some, if_neg hne, hmod', hb]
      have hsplit : (List.range (stop - pos)).map (fun j => (fileOf (C.view s).blk inode.entry).byte (pos + j)) =
          bytesOf ((C.view s).blk b) (pos % blockSize) len ++
            (List.range (stop - (pos + len))).map fun j => (fileOf (C.view s).blk inode.entry).byte (pos + len + j) := by
        rw [hbytes, show stop - pos = len + (stop - (pos + len)) by omega, List.range_add, List.map_append, List.map_map]
        simp only [Function.comp_def, Nat.add_assoc]
      rw [hsplit, ← List.append_assoc]
      exact ih (hv4.trans (hv3.trans (hv2.trans hv1))) (pos + len) _ (by omega) (by omega)
    · obtain rfl : pos = stop := by omega
      simp [hv]

omit [DecidableEq ι] in
/-- **Reading.** Only the blocks the bytes come from have to exist. -/
theorem fileRead_upTo (hs : Sound base C.inner (C.view s) F) (hF : F i = inode.entry) {off count : ℕ}
    (hmap : ∀ k, k * blockSize < min (off + count) inode.entry.numBytes.toNat →
      (fileOf (C.view s).blk inode.entry).mapped k = true)
    (hoff : off ≤ inode.entry.numBytes.toNat) (hno : off + count < 2 ^ 64) :
    After C.handle E (fun d s' => d = slice ((fileOf (C.view s).blk inode.entry).content inode.entry.numBytes.toNat) off count ∧
      C.view s' = C.view s) (fileRead inode off count) s := by
  have hsize : inode.entry.numBytes.toNat < 2 ^ 32 := inode.entry.numBytes.toNat_lt
  have hcount : readCount inode off count = min count (inode.entry.numBytes.toNat - off) := by
    unfold readCount
    rw [addU_of_lt (by omega), subU_of_le hoff (by omega)]
    split_ifs <;> omega
  unfold fileRead
  rw [hcount]
  generalize hn : min count (inode.entry.numBytes.toNat - off) = n
  have hstop : off + n ≤ inode.entry.numBytes.toNat := by omega
  dsimp only
  rw [addU_of_lt (by omega)]
  simp only [after_bind]
  rw [after_check hoff, after_check hstop, after_check (Nat.le_add_right ..)]
  refine (readLoop_spec C hs hF (fun k hk => hmap k (by omega)) _ rfl off [] (Nat.le_add_right ..)
    le_rfl).mono fun r s' h => ?_
  obtain ⟨pos, dest⟩ := r
  obtain ⟨h1, hv⟩ := h
  obtain ⟨rfl, rfl⟩ := Prod.mk.inj h1
  rw [after_check (by rw [subU_of_le (Nat.le_add_right ..) (by omega)]; omega), after_pure]
  refine ⟨?_, hv⟩
  have hlen := File.content_length (fileOf (C.view s).blk inode.entry) inode.entry.numBytes.toNat
  have hmin : slice ((fileOf (C.view s).blk inode.entry).content inode.entry.numBytes.toNat) off
      (min count (((fileOf (C.view s).blk inode.entry).content inode.entry.numBytes.toNat).length - off)) =
      slice ((fileOf (C.view s).blk inode.entry).content inode.entry.numBytes.toNat) off count := slice_min
  rw [hlen, hn] at hmin
  rw [List.nil_append, Nat.add_sub_cancel_left, ← File.slice_content _ hstop, hmin]

omit [DecidableEq ι] in
/-- reading a file without holes -/
theorem fileRead_spec (hs : Sound base C.inner (C.view s) F) (hF : F i = inode.entry)
    (hmap : NoHole (C.view s).blk inode.entry) {off count : ℕ} (hoff : off ≤ inode.entry.numBytes.toNat)
    (hno : off + count < 2 ^ 64) :
    After C.handle E (fun d s' => d = slice ((fileOf (C.view s).blk inode.entry).content inode.entry.numBytes.toNat) off count ∧
      C.view s' = C.view s) (fileRead inode off count) s :=
  fileRead_upTo C hs hF (fun k hk => hmap k (by omega)) hoff hno

end OsKernel.Fs.Inodes
