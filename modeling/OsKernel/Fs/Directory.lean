/-
Looking names up in a directory and inserting them.

The bytes of a directory are its entries one after the other (`encode`), and the entries are slots of a `SlotMap`, keyed by
the name cut off at its first NUL and its 14th character.

Results, for directory inodes on any block cache that keeps what is written: `inode_lookup` finds the first slot with the name
(`inodeLookup_spec`), `inode_insert` of a name that is present changes nothing (`inodeInsert_present`), and one that is absent
goes to the first free slot (`inodeInsert_absent`). An insertion into a directory without a free entry can find the disk or
the directory full; nothing else can fail.
-/
import OsKernel.Lib.SlotMap
import OsKernel.Fs.DirEntry
import OsKernel.Fs.InodeContent

namespace OsKernel.Fs.Directory

open OsKernel.Fs.Inodes OsKernel.Bytes OsKernel.Program OsKernel.Splice OsKernel.CString OsKernel.SlotMap
open OsKernel.Fs.InodeContent (Refines Contents content)
open Function (update)

/-- what `inode_lookup` returns: the number, and the index unless it finds nothing -/
def answer (index : Option ℕ) : Option (ℕ × ℕ) → ℕ × Option ℕ
  | some (inodeNo, i) => (inodeNo, index.map fun _ => i)
  | none => (0, index)

/-! ## Entries

The lemmas write 16 for `dirEntrySize`.
-/

/-- entries one after the other -/
def encode (l : List DirEntry) : List UInt8 := l.flatMap DirEntry.toBytes

def slots (l : List DirEntry) : Slots (List UInt8) ℕ := l.map DirEntry.slot

theorem encode_length (l : List DirEntry) : (encode l).length = 16 * l.length :=
  records_length DirEntry.toBytes_length

theorem slots_getElem? (l : List DirEntry) (i : ℕ) : (slots l)[i]? = l[i]?.map DirEntry.slot := List.getElem?_map

/-- numbers in use are not 0 -/
theorem number_ne_zero {l : List DirEntry} {k : List UInt8} {n j : ℕ} (h : findFrom k (slots l) 0 = some (n, j)) : n ≠ 0 := by
  obtain ⟨i, -, hi⟩ := getElem?_of_findFrom h
  rw [slots_getElem?] at hi
  obtain ⟨e, -, he⟩ := Option.map_eq_some_iff.1 hi
  by_cases h0 : e.inodeNo = 0
  · rw [DirEntry.slot, if_pos h0] at he
    cases he
  · rw [DirEntry.slot, if_neg h0, Option.some.injEq, Prod.mk.injEq] at he
    rw [← he.2]
    intro hz
    exact h0 (UInt16.toNat_inj.1 hz)

section Programs

variable {σ ι : Type} [DecidableEq ι] (C : AbstractCache σ) (sb : SuperBlock) {base : Set ℕ} {E : Stop → Prop}
  {a : Contents ι} {s : InodeContent.Sys σ ι} {c : σ} {F : ι → InodeEntry} {i : ι} {inode : Inode} {l : List DirEntry}
  {name : ℕ → UInt8}

omit [DecidableEq ι] in
theorem numBytes_eq (h : Refines C sb base a s) (hl : a.bytes i = encode l) :
    (s.inode i).entry.numBytes.toNat = 16 * l.length := by
  rw [← InodeContent.content_length C i, h.bytes i, hl, encode_length]

omit [DecidableEq ι] in
/-- what is known of the inodes depends on the cache only through its blocks -/
theorem refines_of_view (h : Refines C sb base a s) {c : σ} (hv : C.view c = C.view s.cache) :
    Refines C sb base a { s with cache := c } := by
  refine ⟨⟨?_, h.good.stored, h.good.file, ?_⟩, ?_, h.reads⟩
  · change Sound base C.inner (C.view c) s.entries
    rw [hv]
    exact h.good.sound
  · change ∀ i, NoHole (C.view c).blk (s.inode i).entry
    rw [hv]
    exact h.good.noHole
  · intro j
    change (fileOf (C.view c).blk (s.inode j).entry).content _ = a.bytes j
    rw [hv]
    exact h.bytes j

/-- the directory i of a family has the inode given and starts with the entries l -/
structure Lists (base : Set ℕ) (c : σ) (F : ι → InodeEntry) (i : ι) (inode : Inode) (l : List DirEntry) : Prop where
  sound : Sound base C.inner (C.view c) F
  entry : F i = inode.entry
  file : inode.entry.type ≠ inodeDevice
  size : 16 * l.length ≤ inode.entry.numBytes.toNat
  mapped : ∀ k, k * blockSize < 16 * l.length → (fileOf (C.view c).blk inode.entry).mapped k = true
  bytes : (fileOf (C.view c).blk inode.entry).content (16 * l.length) = encode l

omit [DecidableEq ι] in
theorem lists_of_refines (h : Refines C sb base a s) (hl : a.bytes i = encode l) :
    Lists C base s.cache s.entries i (s.inode i) l := by
  have hsize := numBytes_eq C sb h hl
  refine ⟨h.good.sound, rfl, h.good.file i, hsize.ge, ?_, ?_⟩
  · intro k hk
    exact h.good.noHole i k (hsize ▸ hk)
  · rw [← hsize, ← hl]
    exact h.bytes i

omit [DecidableEq ι] in
/-- an entry is read whole -/
theorem readEntry_spec (h : Lists C base c F i inode l) {c' : σ} (hv : C.view c' = C.view c) {idx : ℕ} {e : DirEntry}
    (he : l[idx]? = some e) :
    After C.handle E (fun d c'' => d = e.toBytes ∧ C.view c'' = C.view c) (inodeRead inode (16 * idx) 16) c' := by
  have hidx : idx < l.length := (List.getElem?_eq_some_iff.1 he).1
  have hsize := h.size
  have hlt := inode.entry.numBytes.toNat_lt
  have hmap : ∀ k, k * blockSize < min (16 * idx + 16) inode.entry.numBytes.toNat →
      (fileOf (C.view c').blk inode.entry).mapped k = true := by
    intro k hk
    rw [hv]
    exact h.mapped k (by omega)
  have hs : Sound base C.inner (C.view c') F := hv ▸ h.sound
  rw [inodeRead, if_neg h.file]
  refine (fileRead_upTo C hs h.entry hmap (by omega) (by omega)).mono ?_
  rintro d c'' ⟨rfl, hv'⟩
  refine ⟨?_, hv'.trans hv⟩
  have hin : 16 * idx + 16 ≤ 16 * l.length := by omega
  rw [File.slice_content _ (hin.trans hsize), hv, ← File.slice_content _ hin, h.bytes, encode,
    slice_records DirEntry.toBytes_length he]

/-! ## Looking up -/

omit [DecidableEq ι] in
/-- The loop of `inode_lookup` on the entries l, from entry idx on: it stops at the one with the name, or comes to their end.
By induction on the fuel, one turn for one entry. -/
theorem lookupLoop_spec (h : Lists C base c F i inode l) (index : Option ℕ) {Q : ℕ × Option ℕ → σ → Prop} (fuel idx : ℕ)
    (de : DirEntry) {c' : σ} (hv : C.view c' = C.view c) (hidx : idx ≤ l.length) (hfuel : l.length ≤ idx + fuel)
    (hfound : ∀ n j c'', findFrom (key name) (slots (l.drop idx)) idx = some (n, j) → C.view c'' = C.view c →
      Q (answer index (some (n, j))) c'')
    (hrest : findFrom (key name) (slots (l.drop idx)) idx = none → ∀ de c'', C.view c'' = C.view c →
      After C.handle E Q (lookupLoop inode name index (idx + fuel - l.length) l.length (16 * l.length) de) c'') :
    After C.handle E Q (lookupLoop inode name index fuel idx (16 * idx) de) c' := by
  -- behind the last entry
  have hend : l.length ≤ idx → After C.handle E Q (lookupLoop inode name index fuel idx (16 * idx) de) c' := by
    intro hle
    obtain rfl : idx = l.length := le_antisymm hidx hle
    have := hrest (by rw [List.drop_length]; rfl) de c' hv
    rwa [Nat.add_sub_cancel_left] at this
  induction fuel generalizing idx de c' with
  | zero => exact hend hfuel
  | succ fuel ih =>
    by_cases hlt : idx < l.length
    · have he : l[idx]? = some l[idx] := List.getElem?_eq_getElem hlt
      have hsize := h.size
      have hdrop : slots (l.drop idx) = l[idx].slot :: slots (l.drop (idx + 1)) := by
        rw [List.drop_eq_getElem_cons hlt]
        rfl
      unfold lookupLoop
      rw [if_pos (by omega)]
      refine (readEntry_spec C h hv he).bind ?_
      rintro d c'' ⟨rfl, hv'⟩
      rw [DirEntry.fill_toBytes]
      by_cases hmatch : l[idx].inodeNo ≠ 0 ∧ strncmp (getByte l[idx].name) name fileNameMaxLength = 0
      · rw [if_pos hmatch]
        apply hfound _ _ _ _ hv'
        rw [hdrop, DirEntry.match_iff.1 hmatch, findFrom, if_pos rfl]
      · have hskip : findFrom (key name) (slots (l.drop idx)) idx =
            findFrom (key name) (slots (l.drop (idx + 1))) (idx + 1) := by
          rw [hdrop]
          rcases hslot : l[idx].slot with _ | ⟨k, n⟩
          · rfl
          · rw [findFrom, if_neg]
            rintro rfl
            apply hmatch
            rw [DirEntry.match_iff, hslot]
            by_cases h0 : l[idx].inodeNo = 0
            · rw [DirEntry.slot, if_pos h0] at hslot
              cases hslot
            · rw [DirEntry.slot, if_neg h0, Option.some.injEq, Prod.mk.injEq] at hslot
              rw [hslot.2]
        have hfuel' : idx + 1 + fuel = idx + (fuel + 1) := by omega
        rw [if_neg hmatch]
        rw [hskip] at hfound hrest
        rw [← hfuel'] at hrest
        refine ih (idx + 1) _ hv' hlt (by omega) hfound hrest fun hle => ?_
        obtain heq : idx + 1 = l.length := le_antisymm hlt hle
        have := hrest (by rw [heq, List.drop_length]; rfl) l[idx] c'' hv'
        rwa [heq, Nat.add_sub_cancel_left, ← heq] at this
    · exact hend (not_lt.1 hlt)

omit [DecidableEq ι] in
/-- the loop ends at the size of the directory -/
theorem lookupLoop_end {index : Option ℕ} {Q : ℕ × Option ℕ → σ → Prop} {fuel idx offset : ℕ} {de : DirEntry} {c' : σ}
    (hend : inode.entry.numBytes.toNat ≤ offset) (hQ : Q (0, index) c') :
    After C.handle E Q (lookupLoop inode name index fuel idx offset de) c' := by
  cases fuel with
  | zero => exact hQ
  | succ fuel =>
    unfold lookupLoop
    rw [if_neg (not_lt.2 hend)]
    exact hQ

omit [DecidableEq ι] in
/-- looking up a name in a directory whose bytes are the entries l -/
theorem inodeLookup_lists (h : Lists C base c F i inode l) (hsize : inode.entry.numBytes.toNat = 16 * l.length)
    (index : Option ℕ) (de : DirEntry) :
    After C.handle E (fun r c' => r = answer index (findFrom (key name) (slots l) 0) ∧ C.view c' = C.view c)
      (inodeLookup inode name index de) c := by
  refine lookupLoop_spec C h index _ 0 de rfl (Nat.zero_le _) (by omega) ?_ ?_
  · intro n j c'' hfind hv
    rw [List.drop_zero] at hfind
    exact ⟨by rw [hfind], hv⟩
  · intro hfind de c'' hv
    rw [List.drop_zero] at hfind
    exact lookupLoop_end C hsize.le ⟨by rw [hfind]; rfl, hv⟩

omit [DecidableEq ι] in
theorem inodeLookup_spec (h : Refines C sb base a s) (hl : a.bytes i = encode l) (index : Option ℕ) (de : DirEntry) :
    After C.handle E (fun r c => r = answer index (findFrom (key name) (slots l) 0) ∧ C.view c = C.view s.cache)
      (inodeLookup (s.inode i) name index de) s.cache :=
  inodeLookup_lists C (lists_of_refines C sb h hl) (numBytes_eq C sb h hl) index de

/-! ## Inserting -/

/-- directory i gets other entries -/
def setEntries (a : Contents ι) (i : ι) (l : List DirEntry) : Contents ι :=
  { a with bytes := update a.bytes i (encode l) }

/-- directory i has entries l and the inode given, and nothing else has changed -/
structure Becomes (base : Set ℕ) (a : Contents ι) (s : InodeContent.Sys σ ι) (i : ι) (l : List DirEntry) (inode : Inode)
    (c : σ) : Prop where
  refines : Refines C sb base (setEntries a i l) (s.put c i inode)
  type : inode.entry.type = (s.inode i).entry.type
  max : 16 * l.length ≤ inodeMaxBytes

/-- an entry is written whole, over another one or behind the last -/
theorem writeEntry_spec (h : Refines C sb base a s) (hl : a.bytes i = encode l) {c : σ} (hv : C.view c = C.view s.cache)
    {idx : ℕ} (e : DirEntry) (hidx : idx ≤ l.length) (hl' : 16 * l.length ≤ inodeMaxBytes)
    (hmax : 16 * idx + 16 ≤ inodeMaxBytes) (hE : idx = l.length → E .noSpace) :
    After C.handle E (fun r c' => Becomes C sb base a s i (splice l idx [e]) r.2 c')
      (inodeWrite sb (s.inode i) e.toBytes (16 * idx)) c := by
  have hsize := numBytes_eq C sb h hl
  have hr := refines_of_view C sb h hv
  have hlen := e.toBytes_length
  have hoff : 16 * idx ≤ (s.inode i).entry.numBytes.toNat := by omega
  have hfit : 16 * idx + e.toBytes.length ≤ inodeMaxBytes := by omega
  refine (InodeContent.write_refines C sb (i := i) hr hoff hfit fun hgrow => hE ?_).mono fun r c' hw => ?_
  · change _ > (s.inode i).entry.numBytes.toNat at hgrow
    omega
  · have hbytes : splice (a.bytes i) (16 * idx) e.toBytes = encode (splice l idx [e]) := by
      rw [hl, encode, splice_records DirEntry.toBytes_length]
      rfl
    refine ⟨?_, hw.2, ?_⟩
    · rw [setEntries, ← hbytes]
      exact hw.1
    · rw [splice_length hidx, List.length_singleton]
      omega

/-- what the loop of `inode_insert` guarantees -/
def Scanned (base : Set ℕ) (a : Contents ι) (s : InodeContent.Sys σ ι) (i : ι) (l : List DirEntry) (name : ℕ → UInt8)
    (inodeNo : ℕ) (r : Scan) (c : σ) : Prop :=
  if firstFree (slots l) < l.length then
    r.ret = firstFree (slots l) ∧ ∃ e : DirEntry,
      Becomes C sb base a s i (splice l (firstFree (slots l)) [e.assign name inodeNo]) r.inode c
  else
    r.ret = 2 ^ 64 - 1 ∧ r.offset = 16 * l.length ∧ r.index = l.length ∧ r.inode = s.inode i ∧
      C.view c = C.view s.cache

theorem insertLoop_spec (h : Refines C sb base a s) (hl : a.bytes i = encode l) (hmax : 16 * l.length ≤ inodeMaxBytes)
    (inodeNo fuel idx : ℕ) (de : DirEntry) {c : σ} (hv : C.view c = C.view s.cache) (hidx : idx ≤ l.length)
    (hfuel : l.length ≤ idx + fuel) (htaken : ∀ j, j < idx → (slots l)[j]? ≠ some none) :
    After C.handle E (Scanned C sb base a s i l name inodeNo)
      (insertLoop sb (s.inode i) name inodeNo fuel (16 * idx) idx de) c := by
  have hslots : (slots l).length = l.length := List.length_map ..
  -- at the end of the directory every entry has been seen
  have hend : idx = l.length → Scanned C sb base a s i l name inodeNo
      ⟨2 ^ 64 - 1, 16 * idx, idx, de, s.inode i⟩ c := by
    rintro rfl
    have hff : firstFree (slots l) = l.length := firstFree_eq hslots.ge htaken (Or.inl hslots.symm)
    rw [Scanned, if_neg (by rw [hff]; exact lt_irrefl _)]
    exact ⟨rfl, rfl, rfl, rfl, hv⟩
  induction fuel generalizing idx de c with
  | zero => exact hend (by omega)
  | succ fuel ih =>
    have hsize := numBytes_eq C sb h hl
    unfold insertLoop
    by_cases hlt : idx < l.length
    · have he : l[idx]? = some l[idx] := List.getElem?_eq_getElem hlt
      have hslot : (slots l)[idx]? = some l[idx].slot := by rw [slots_getElem?, he, Option.map_some]
      rw [if_pos (by omega)]
      refine (readEntry_spec C (lists_of_refines C sb h hl) hv he).bind ?_
      rintro d c' ⟨rfl, hv'⟩
      rw [DirEntry.fill_toBytes]
      by_cases hfree : l[idx].inodeNo = 0
      · have hff : firstFree (slots l) = idx := by
          apply firstFree_eq (by omega) htaken
          rw [hslot, DirEntry.slot_eq_none.2 hfree]
          exact Or.inr rfl
        rw [if_pos hfree]
        refine (writeEntry_spec C sb h hl hv' _ (le_of_lt hlt) hmax (by omega) fun heq => absurd heq (ne_of_lt hlt)).bind ?_
        rintro ⟨n, inode⟩ c'' hw
        rw [after_pure, Scanned, hff, if_pos hlt]
        exact ⟨rfl, l[idx], hw⟩
      · have htaken' : ∀ j, j < idx + 1 → (slots l)[j]? ≠ some none := by
          intro j hj
          by_cases hji : j = idx
          · rw [hji, hslot]
            intro hnone
            exact hfree (DirEntry.slot_eq_none.1 (Option.some.inj hnone))
          · exact htaken j (by omega)
        rw [if_neg hfree]
        refine ih (idx + 1) _ hv' hlt (by omega) htaken' ?_
        rintro heq
        have hff : firstFree (slots l) = l.length := firstFree_eq hslots.ge (heq ▸ htaken') (Or.inl hslots.symm)
        rw [Scanned, if_neg (by rw [hff]; exact lt_irrefl _)]
        exact ⟨rfl, by rw [heq], heq, rfl, hv'⟩
    · rw [if_neg (by omega)]
      exact hend (by omega)

/-- what `inode_insert` guarantees for a name that is absent -/
theorem inodeInsert_absent (h : Refines C sb base a s) (hl : a.bytes i = encode l)
    (htype : (s.inode i).entry.type = inodeDirectory) (hmax : 16 * l.length ≤ inodeMaxBytes) (inodeNo : ℕ)
    (de : DirEntry) (habs : findFrom (key name) (slots l) 0 = none)
    (hspace : firstFree (slots l) = l.length → E .noSpace)
    (hfull : firstFree (slots l) = l.length → 16 * l.length + 16 > inodeMaxBytes → E .assertion) :
    After C.handle E (fun r c => r.1 = firstFree (slots l) ∧ ∃ e : DirEntry,
        Becomes C sb base a s i (splice l (firstFree (slots l)) [e.assign name inodeNo]) r.2 c)
      (inodeInsert sb (s.inode i) name inodeNo de) s.cache := by
  have hsize := numBytes_eq C sb h hl
  have hlt : 16 * l.length < 2 ^ 32 := hsize ▸ (s.inode i).entry.numBytes.toNat_lt
  have hle : firstFree (slots l) ≤ l.length := le_of_le_of_eq firstFree_le (List.length_map ..)
  unfold inodeInsert
  rw [after_bind, after_check htype, after_bind]
  refine (inodeLookup_spec C sb h hl none de).mono ?_
  rintro r c ⟨rfl, hv⟩
  rw [habs]
  simp only [answer, ne_eq, not_true, if_false]
  rw [after_bind]
  refine (insertLoop_spec C sb h hl hmax inodeNo _ 0 de hv (Nat.zero_le _) (by omega) fun j hj => absurd hj (Nat.not_lt_zero j)).mono ?_
  intro r c' hr
  unfold Scanned at hr
  by_cases hff : firstFree (slots l) < l.length
  · rw [if_pos hff] at hr
    obtain ⟨hret, hw⟩ := hr
    rw [if_neg (by omega), after_pure]
    exact ⟨hret, hw⟩
  · rw [if_neg hff] at hr
    obtain ⟨hret, hoff, hidx, hinode, hv'⟩ := hr
    have heq : firstFree (slots l) = l.length := by omega
    rw [if_pos hret, hinode, hoff, hidx, after_bind]
    by_cases hroom : 16 * l.length + 16 ≤ inodeMaxBytes
    · refine (writeEntry_spec C sb h hl hv' _ le_rfl hmax hroom fun _ => hspace heq).mono fun q c'' hw => ?_
      rw [heq]
      exact ⟨rfl, _, hw⟩
    · -- the assertion of `inode_write` on the new size
      have hlen := (r.de.assign name inodeNo).toBytes_length
      rw [inodeWrite, if_neg (h.good.file i), fileWrite, hlen, addU_of_lt (by omega), after_bind,
        after_check (le_of_eq hsize.symm), after_bind, after_check_not hroom]
      exact hfull heq (by omega)

omit [DecidableEq ι] in
/-- `inode_insert` of a name that is present does nothing -/
theorem inodeInsert_present (h : Refines C sb base a s) (hl : a.bytes i = encode l)
    (htype : (s.inode i).entry.type = inodeDirectory) (inodeNo : ℕ) (de : DirEntry) {n j : ℕ}
    (hpres : findFrom (key name) (slots l) 0 = some (n, j)) :
    After C.handle E (fun r c => r = (2 ^ 64 - 1, s.inode i) ∧ C.view c = C.view s.cache)
      (inodeInsert sb (s.inode i) name inodeNo de) s.cache := by
  unfold inodeInsert
  rw [after_bind, after_check htype, after_bind]
  refine (inodeLookup_spec C sb h hl none de).mono ?_
  rintro r c ⟨rfl, hv⟩
  rw [hpres]
  simp only [answer]
  rw [if_pos (number_ne_zero hpres), after_pure]
  exact ⟨rfl, hv⟩

end Programs

end OsKernel.Fs.Directory
