/-
One page table and the user memory behind it, while the kernel fills it from the outside (`copyout`, the loader of `execve`).

`SpaceOk` is what the page table relies on: the free list and the tables are in order, and a valid entry names a page in use that
is no table. `Kept` says that the pages in use are as they were, `Extends` that moreover only some virtual pages have been mapped
anew, and `Private` that a virtual page has a page of its own. Each primitive (`get_pte`, `kalloc_page`, a store to an entry, a
store to a page) gets one lemma; `SpaceOk.place` puts them together for a new page that is cleared, mapped and filled. The proofs
about the callers use these lemmas only.
-/
import OsKernel.Kernel.PageFault
import OsKernel.Kernel.ExecLoad

namespace OsKernel.Kernel.UserMemory

open OsKernel.Mem OsKernel.Radix OsKernel.Words OsKernel.Kernel.PageTable
open OsKernel.Kernel.Paging (InUse kalloc_spaces write_use off_tables valid_ne_zero vaOffset_lt)

/-- the byte at va, if the entry allows the access -/
def userByte (m : PageMem) (pt va : ℕ) : UInt8 := byteAt m.cell (frame (entry m pt va) + vaOffset va)

/-- a page in use that is no table -/
structure Plain (L : Layout) (m : PageMem) (pt x : ℕ) : Prop where
  use : InUse L m x
  no_table : ∀ q, ¬ HasTable m (fun _ : Unit => pt) () q x

structure SpaceOk (L : Layout) (m : PageMem) (pt : ℕ) (l : List ℕ) : Prop where
  spaces : SpacesOk L m (fun _ : Unit => pt) l
  mapped : ∀ va, Valid (entry m pt va) → Plain L m pt (frame (entry m pt va))

/-- the pages in use are as they were -/
structure Kept (L : Layout) (m : PageMem) (pt : ℕ) (m' : PageMem) (pt' : ℕ) : Prop where
  plain : ∀ x, Plain L m pt x → Plain L m' pt' x
  ref : ∀ x, Owned L m x → m'.ref (pageIndex x) = m.ref (pageIndex x)
  cell : ∀ x a, Plain L m pt x → Paging.InPage x a → m'.cell a = m.cell a

variable {L : Layout} {m m' m'' : PageMem} {pt pt' pt'' va : ℕ} {l : List ℕ}

theorem Kept.refl (L : Layout) (m : PageMem) (pt : ℕ) : Kept L m pt m pt :=
  ⟨fun _ h => h, fun _ _ => rfl, fun _ _ _ _ => rfl⟩

theorem Kept.owned (h : Kept L m pt m' pt') {x : ℕ} (hx : Owned L m x) : Owned L m' x :=
  ⟨hx.1, by rw [h.ref x hx]; exact hx.2⟩

theorem Kept.trans (h : Kept L m pt m' pt') (h' : Kept L m' pt' m'' pt'') : Kept L m pt m'' pt'' := by
  refine ⟨fun x hx => h'.plain x (h.plain x hx), fun x hx => ?_, fun x a hx ha => ?_⟩
  · exact (h'.ref x (h.owned hx)).trans (h.ref x hx)
  · exact (h'.cell x a (h.plain x hx) ha).trans (h.cell x a hx ha)

/-- a byte of a page in use -/
theorem Kept.byte (h : Kept L m pt m' pt') {x i : ℕ} (hx : Plain L m pt x) (hi : i < pageSize) :
    byteAt m'.cell (x + i) = byteAt m.cell (x + i) := by
  refine byteAt_congr (h.cell x _ hx ?_)
  have hdvd := hx.use.isPage.dvd
  simp only [Paging.InPage, pageSize] at hi ⊢
  omega

theorem SpaceOk.userByte_kept (h : SpaceOk L m pt l) (hk : Kept L m pt m' pt') (hv : Valid (entry m pt va))
    (he : entry m' pt' va = entry m pt va) : userByte m' pt' va = userByte m pt va := by
  rw [userByte, userByte, he]
  exact hk.byte (h.mapped va hv) (vaOffset_lt va)

/-! ## The primitives -/

/-- a step on the tables -/
theorem kept_tables {l' : List ℕ} (hok : SpacesOk L m' (fun _ : Unit => pt') l')
    (h : TableStep L m (fun _ : Unit => pt) m' fun _ : Unit => pt') : Kept L m pt m' pt' := by
  have hplain : ∀ x, Plain L m pt x → Plain L m' pt' x := by
    intro x hx
    refine ⟨hx.use.imp (fun ho => ⟨ho.1, by rw [h.ref x ho]; exact ho.2⟩) id, fun q ht => ?_⟩
    rcases hx.use with ho | hz
    · rcases h.fresh () q x ht with ht' | hno
      · exact hx.no_table q ht'
      · exact hno ho
    · exact (hok.tables.owned () q x ht).1.ne_zeroPage hz
  exact ⟨hplain, h.ref, fun x a hx ha =>
    off_tables h hok.tables hx.use.isPage (fun _ => (hplain x hx).no_table) ha⟩

/-- `get_pte`, allocating -/
theorem SpaceOk.getPte (h : SpaceOk L m pt l) {pte : ℕ} (hg : getPte true pt va m = some (pte, pt', m')) :
    ∃ l' t, SpaceOk L m' pt' l' ∧ Kept L m pt m' pt' ∧ (∀ va', entry m' pt' va' = entry m pt va') ∧
      tableAt tableOf m'.cell pt' (path va) = some t ∧ pte = t + 8 * vaPart3 va := by
  obtain ⟨t, hreach, hpte, -⟩ := getPte_alloc h.spaces () va hg
  have hpt : Function.update (fun _ : Unit => pt) () pt' = fun _ => pt' := funext fun _ => Function.update_self ..
  rw [hpt] at hreach
  obtain ⟨l', hok⟩ := hreach.ok
  have hk := kept_tables hok hreach.grown.toTableStep
  have hent : ∀ va', entry m' pt' va' = entry m pt va' := hreach.grown.entry ()
  refine ⟨l', t, ⟨hok, fun va' hv => ?_⟩, hk, hent, hreach.table, hpte⟩
  rw [hent] at hv ⊢
  exact hk.plain _ (h.mapped va' hv)

/-- `kalloc_page`: nobody has the page -/
theorem SpaceOk.kalloc (h : SpaceOk L m pt l) {pg : ℕ} (hk : kallocPage m = some (pg, m')) :
    ∃ l', l = pg :: l' ∧ SpaceOk L m' pt l' ∧ Kept L m pt m' pt ∧ (∀ va', entry m' pt va' = entry m pt va') ∧
      Owned L m' pg ∧ Plain L m' pt pg ∧ m'.cell = m.cell ∧ ¬ Plain L m pt pg := by
  obtain ⟨l', hl, hok, htab, hent, hpg, h0, href, hcell⟩ := kalloc_spaces h.spaces hk
  have href' : ∀ x, Owned L m x → m'.ref (pageIndex x) = m.ref (pageIndex x) := by
    intro x hx
    have hne : pageIndex x ≠ pageIndex pg := fun hi => hx.2.ne' (by rw [hi, h0])
    rw [href, Function.update_of_ne hne]
  have hplain : ∀ x, Plain L m pt x → Plain L m' pt x := fun x hx =>
    ⟨hx.use.imp (fun ho => ⟨ho.1, by rw [href' x ho]; exact ho.2⟩) id, fun q ht => hx.no_table q ((htab () q x).1 ht)⟩
  have hown : Owned L m' pg := ⟨hpg, by rw [href, Function.update_self]; exact Int.one_pos⟩
  have hent' : ∀ va', entry m' pt va' = entry m pt va' := hent ()
  refine ⟨l', hl, ⟨hok, fun va' hv => ?_⟩, ⟨hplain, href', fun _ _ _ _ => by rw [hcell]⟩, hent', hown,
    ⟨Or.inl hown, fun q ht => ?_⟩, hcell, fun hx => ?_⟩
  · rw [hent'] at hv ⊢
    exact hplain _ (h.mapped va' hv)
  · exact h.spaces.tables.not_free h0 () q ((htab () q pg).1 ht)
  · rcases hx.use with ho | hz
    · exact ho.2.ne' h0
    · exact hpg.ne_zeroPage hz

/-- a store to the entry of va -/
theorem SpaceOk.setPte (h : SpaceOk L m pt l) {t : ℕ} (ht : tableAt tableOf m.cell pt (path va) = some t) {e : ℕ}
    (hx : Valid e → Plain L m pt (frame e)) :
    SpaceOk L (setPte (t + 8 * vaPart3 va) e m) pt l ∧ Kept L m pt (setPte (t + 8 * vaPart3 va) e m) pt ∧
      ∀ va', entry (PageTable.setPte (t + 8 * vaPart3 va) e m) pt va' = if vpn va' = vpn va then e else entry m pt va' := by
  obtain ⟨hok, hstep, hent⟩ := entry_write h.spaces (k := ()) ht e
  have hk := kept_tables hok hstep
  have hent' : ∀ va', entry (PageTable.setPte (t + 8 * vaPart3 va) e m) pt va' =
      if vpn va' = vpn va then e else entry m pt va' := by
    intro va'
    refine (hent () va').trans ?_
    simp only [true_and]
  refine ⟨⟨hok, fun va' hv => ?_⟩, hk, hent'⟩
  rw [hent'] at hv ⊢
  split_ifs at hv ⊢ with hvpn
  · exact hk.plain _ (hx hv)
  · exact hk.plain _ (h.mapped va' hv)

/-- a store to page x -/
theorem SpaceOk.store (h : SpaceOk L m pt l) {x : ℕ} (hplain : Plain L m pt x) {cell' : ℕ → ℕ}
    (hcell : ∀ a, ¬ Paging.InPage x a → cell' a = m.cell a) :
    SpaceOk L { m with cell := cell' } pt l ∧ (∀ y, Plain L { m with cell := cell' } pt y ↔ Plain L m pt y) ∧
      (∀ va', entry { m with cell := cell' } pt va' = entry m pt va') ∧
      ∀ y a, Plain L m pt y → y ≠ x → Paging.InPage y a → cell' a = m.cell a := by
  obtain ⟨hok, htab, hent⟩ := write_use h.spaces hplain.use (fun _ => hplain.no_table) hcell
  have hiff : ∀ y, Plain L { m with cell := cell' } pt y ↔ Plain L m pt y := fun y =>
    ⟨fun hy => ⟨hy.use, fun q ht => hy.no_table q ((htab () q y).2 ht)⟩,
      fun hy => ⟨hy.use, fun q ht => hy.no_table q ((htab () q y).1 ht)⟩⟩
  have hent' : ∀ va', entry { m with cell := cell' } pt va' = entry m pt va' := hent ()
  refine ⟨⟨hok, fun va' hv => ?_⟩, hiff, hent', fun y a hy hne ha => hcell a fun hxa =>
    hne (hy.use.isPage.apart hplain.use.isPage ha hxa)⟩
  rw [hent'] at hv ⊢
  exact (hiff _).2 (h.mapped va' hv)

/-- the cells that a store to a part of page x changes -/
theorem storeBytes_page {x o : ℕ} (hx : IsPage L x) {cell : ℕ → ℕ} {bs : List UInt8}
    (hlen : o + bs.length ≤ pageSize) {a : ℕ} (ha : ¬ Paging.InPage x a) : storeBytes cell (x + o) bs a = cell a := by
  refine storeBytes_cell fun b hb hb' hab => ha ?_
  have hdvd := hx.dvd
  simp only [Paging.InPage, pageSize] at hlen ⊢
  omega

/-- an empty page table -/
theorem SpaceOk.empty (h : FreeList L m l) : SpaceOk L m 0 l := by
  refine ⟨Exec.spaces_empty h, fun va hv => ?_⟩
  rw [entry_of_none (by rw [tableAt, if_pos rfl])] at hv
  exact absurd rfl (valid_ne_zero hv)

theorem SpaceOk.plain_zero (h : SpaceOk L m pt l) : Plain L m pt (zeroPage L) :=
  ⟨Or.inr rfl, fun q ht => (h.spaces.tables.owned () q _ ht).1.ne_zeroPage rfl⟩

/-! ## Pages of one's own -/

/-- va is mapped to a page of its own -/
structure Private (L : Layout) (m : PageMem) (pt va : ℕ) : Prop where
  valid : Valid (entry m pt va)
  owned : Owned L m (frame (entry m pt va))
  sole : ∀ va', Valid (entry m pt va') → frame (entry m pt va') = frame (entry m pt va) → vpn va' = vpn va

/-- the virtual pages in V have been mapped anew, to pages that nobody used or to the zero page -/
structure Extends (L : Layout) (V : Set ℕ) (m : PageMem) (pt : ℕ) (m' : PageMem) (pt' : ℕ) : Prop where
  kept : Kept L m pt m' pt'
  entry : ∀ va, vpn va ∉ V → PageTable.entry m' pt' va = PageTable.entry m pt va
  fresh : ∀ va, Valid (PageTable.entry m' pt' va) → PageTable.entry m' pt' va = PageTable.entry m pt va ∨
    frame (PageTable.entry m' pt' va) = zeroPage L ∨ ¬ Plain L m pt (frame (PageTable.entry m' pt' va))

section Own

variable {V W : Set ℕ}

theorem Private.kept (h : Private L m pt va) (hk : Kept L m pt m' pt') (hent : ∀ va', entry m' pt' va' = entry m pt va') :
    Private L m' pt' va := by
  refine ⟨by rw [hent]; exact h.valid, by rw [hent]; exact hk.owned h.owned, fun va' hv hf => ?_⟩
  rw [hent] at hv
  rw [hent, hent] at hf
  exact h.sole va' hv hf

theorem Private.same_page {va' : ℕ} (h : Private L m pt va) (hvpn : vpn va' = vpn va) : Private L m pt va' := by
  refine ⟨by rw [entry_vpn m pt hvpn]; exact h.valid, by rw [entry_vpn m pt hvpn]; exact h.owned, fun va'' hv hf => ?_⟩
  rw [entry_vpn m pt hvpn] at hf
  rw [hvpn]
  exact h.sole va'' hv hf

theorem Extends.refl (L : Layout) (V : Set ℕ) (m : PageMem) (pt : ℕ) : Extends L V m pt m pt :=
  ⟨Kept.refl L m pt, fun _ _ => rfl, fun _ _ => Or.inl rfl⟩

theorem Extends.mono (h : Extends L V m pt m' pt') (hVW : V ⊆ W) : Extends L W m pt m' pt' :=
  ⟨h.kept, fun va hva => h.entry va fun hx => hva (hVW hx), h.fresh⟩

theorem Extends.trans (h : Extends L V m pt m' pt') (h' : Extends L V m' pt' m'' pt'') : Extends L V m pt m'' pt'' := by
  refine ⟨h.kept.trans h'.kept, fun va hva => (h'.entry va hva).trans (h.entry va hva), fun va hv => ?_⟩
  rcases h'.fresh va hv with heq | hzero | hnew
  · rw [heq] at hv ⊢
    exact h.fresh va hv
  · exact Or.inr (Or.inl hzero)
  · exact Or.inr (Or.inr fun hp => hnew (h.kept.plain _ hp))

/-- a page of one's own stays that -/
theorem Private.extends (h : Private L m pt va) (hok : SpaceOk L m pt l) (he : Extends L V m pt m' pt') (hva : vpn va ∉ V) :
    Private L m' pt' va := by
  have hent := he.entry va hva
  refine ⟨by rw [hent]; exact h.valid, by rw [hent]; exact he.kept.owned h.owned, fun va' hv hf => ?_⟩
  rw [hent] at hf
  rcases he.fresh va' hv with heq | hzero | hnew
  · rw [heq] at hv hf
    exact h.sole va' hv hf
  · exact absurd (hf.symm.trans hzero) h.owned.1.ne_zeroPage
  · exact absurd (hf.symm ▸ hok.mapped va h.valid) hnew

theorem SpaceOk.userByte_extends (h : SpaceOk L m pt l) (he : Extends L V m pt m' pt') (hv : Valid (PageTable.entry m pt va))
    (hva : vpn va ∉ V) : userByte m' pt' va = userByte m pt va :=
  h.userByte_kept he.kept hv (he.entry va hva)

/-- a store to a page that was not in use -/
theorem Kept.write (h : Kept L m pt m' pt') (hok : SpaceOk L m' pt' l) {x : ℕ} (hx : Plain L m' pt' x)
    (hnew : ¬ Plain L m pt x) {cell' : ℕ → ℕ} (hcell : ∀ a, ¬ Paging.InPage x a → cell' a = m'.cell a) :
    Kept L m pt { m' with cell := cell' } pt' := by
  obtain ⟨-, hiff, -, hoff⟩ := hok.store hx hcell
  refine ⟨fun y hy => (hiff y).2 (h.plain y hy), h.ref, fun y a hy ha => ?_⟩
  exact (hoff y a (h.plain y hy) (fun hyx => hnew (hyx ▸ hy)) ha).trans (h.cell y a hy ha)

/-- `vmmap` -/
theorem SpaceOk.map (h : SpaceOk L m pt l) {ka flags : ℕ} (hx : Plain L m pt ka) (hflags : flags < 4096)
    (hm : Exec.mapPage pt va ka flags m = .ok (pt', m')) :
    (∃ l', SpaceOk L m' pt' l') ∧ Kept L m pt m' pt' ∧
      ∀ va', PageTable.entry m' pt' va' = if vpn va' = vpn va then k2p ka ||| flags
        else PageTable.entry m pt va' := by
  rw [Exec.mapPage] at hm
  cases hg : PageTable.getPte true pt va m with
  | none =>
    rw [hg] at hm
    cases hm
  | some r =>
    obtain ⟨pte, pt1, m1⟩ := r
    rw [hg] at hm
    simp only [hx.use.isPage.k2p_eq] at hm
    obtain ⟨l1, t, hok1, hkept1, hent1, ht1, rfl⟩ := h.getPte hg
    split_ifs at hm
    obtain ⟨rfl, rfl⟩ := Prod.mk.inj (Except.ok.inj hm)
    have hx1 : Valid (k2p ka ||| flags) → Plain L m1 pt1 (frame (k2p ka ||| flags)) := fun _ => by
      rw [hx.use.isPage.frame_eq hflags]
      exact hkept1.plain ka hx
    obtain ⟨hok2, hkept2, hent2⟩ := hok1.setPte ht1 hx1
    refine ⟨⟨l1, hok2⟩, hkept1.trans hkept2, fun va' => ?_⟩
    rw [hent2, hent1]

/-- **A new page.** It is cleared, mapped at va and filled from offset o on. -/
theorem SpaceOk.place (h : SpaceOk L m pt l) {p flags o : ℕ} {m1 m2 : PageMem} (ha : Exec.allocPage m = .ok (p, m1))
    (hm : Exec.mapPage pt va p flags { m1 with cell := clearPage p m1.cell } = .ok (pt', m2)) (hflags : flags < 4096)
    (hvalid : flags &&& pteValid ≠ 0) {bs : List UInt8} (hlen : o + bs.length ≤ pageSize) {m3 : PageMem}
    (hm3 : m3 = { m2 with cell := storeBytes m2.cell (p + o) bs }) :
    (∃ l', SpaceOk L m3 pt' l') ∧ Extends L {vpn va} m pt m3 pt' ∧ Private L m3 pt' va ∧
      PageTable.entry m3 pt' va = k2p p ||| flags ∧ frame (k2p p ||| flags) = p ∧
      ∀ i < pageSize, byteAt m3.cell (p + i) = if o ≤ i then bs.getD (i - o) 0 else 0 := by
  have hk : kallocPage m = some (p, m1) := by
    rw [Exec.allocPage] at ha
    split at ha
    · rw [← Except.ok.inj ha]
      assumption
    · cases ha
  obtain ⟨l1, -, hok1, hkept1, hent1, hown, hplain, -, hnew⟩ := h.kalloc hk
  have hpage := hplain.use.isPage
  -- the page is cleared
  have hclear : ∀ a, ¬ Paging.InPage p a → clearPage p m1.cell a = m1.cell a := fun a hx => clearPage_out hx _
  obtain ⟨hok2, hiff2, hent2, -⟩ := hok1.store hplain hclear
  have hkept2 := hkept1.write hok1 hplain hnew hclear
  -- and mapped
  obtain ⟨⟨l3, hok3⟩, hkept3, hent3⟩ := hok2.map ((hiff2 p).2 hplain) hflags hm
  have hplain3 := hkept3.plain p ((hiff2 p).2 hplain)
  have hown3 : Owned L m2 p := hkept3.owned hown
  have hframe : frame (k2p p ||| flags) = p := hpage.frame_eq hflags
  -- and filled
  have hstore : ∀ a, ¬ Paging.InPage p a → storeBytes m2.cell (p + o) bs a = m2.cell a := fun a => storeBytes_page hpage hlen
  obtain ⟨hok4, -, hent4, -⟩ := hok3.store hplain3 hstore
  have hkept4 := (hkept2.trans hkept3).write hok3 hplain3 hnew hstore
  rw [← hm3] at hok4 hent4 hkept4
  have hentry : ∀ va', entry m3 pt' va' = if vpn va' = vpn va then k2p p ||| flags else entry m pt va' := by
    intro va'
    rw [hent4, hent3, hent2, hent1]
  have hself : entry m3 pt' va = k2p p ||| flags := by rw [hentry, if_pos rfl]
  refine ⟨⟨l3, hok4⟩, ⟨hkept4, fun va' hva' => ?_, fun va' hv => ?_⟩, ⟨?_, ?_, fun va' hv hf => ?_⟩, hself, hframe,
    fun i hi => ?_⟩
  · rw [hentry, if_neg fun hvpn => hva' (Set.mem_singleton_iff.2 hvpn)]
  · rw [hentry] at hv ⊢
    split_ifs at hv ⊢ with hvpn
    · exact Or.inr (Or.inr (hframe.symm ▸ hnew))
    · exact Or.inl rfl
  · rw [hself, Valid, hpage.and_flags hflags (by decide)]
    exact hvalid
  · rw [hself, hframe, hm3]
    exact hown3
  · by_contra hne
    rw [hentry, if_neg hne] at hv hf
    rw [hself, hframe] at hf
    exact hnew (hf ▸ h.mapped va' hv)
  · have hzero : byteAt m2.cell (p + i) = 0 := by
      have hin : Paging.InPage p ((p + i) / 8 * 8) := by
        have hdvd := hpage.dvd
        simp only [Paging.InPage, pageSize] at hi ⊢
        omega
      rw [hkept3.byte ((hiff2 p).2 hplain) hi, byteAt]
      simp only [clearPage_in hin, byteOf, Nat.zero_div]
      rfl
    rw [hm3]
    simp only [byteAt_storeBytes, hzero, Nat.add_le_add_iff_left, Nat.add_sub_add_left]

/-- it takes five pages at most -/
theorem SpaceOk.place_total (h : SpaceOk L m pt l) (va flags : ℕ) (hl : 5 ≤ l.length) :
    ∃ p m1 r m2, Exec.allocPage m = .ok (p, m1) ∧
      Exec.mapPage pt va p flags { m1 with cell := clearPage p m1.cell } = .ok (r, m2) ∧ m2.cnt ≤ m.cnt + 5 := by
  obtain ⟨⟨p, m1⟩, hk, hcnt⟩ := kallocPage_total h.spaces (by omega)
  obtain ⟨l1, rfl, hok1, -, -, -, hplain, -⟩ := h.kalloc hk
  have hclear : ∀ a, ¬ Paging.InPage p a → clearPage p m1.cell a = m1.cell a := fun a hx => clearPage_out hx _
  obtain ⟨hok2, -⟩ := hok1.store hplain hclear
  rw [List.length_cons] at hl
  obtain ⟨⟨pte, r, m2⟩, hg, hcnt2⟩ := getPte_total hok2.spaces () va (by omega)
  obtain ⟨-, -, -, hne⟩ := getPte_alloc hok2.spaces () va hg
  refine ⟨p, m1, r, PageTable.setPte pte (pageBase (k2p p) ||| flags) m2, by rw [Exec.allocPage, hk], ?_, ?_⟩
  · rw [Exec.mapPage, hg]
    simp only [if_neg hne]
  · simp only [PageTable.setPte] at hcnt hcnt2 ⊢
    omega

end Own

end OsKernel.Kernel.UserMemory
