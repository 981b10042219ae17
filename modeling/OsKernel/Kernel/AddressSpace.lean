/-
What the steps of the page fault handler, of `fork` and of `free_sections` do to the memory of all processes.

`Ok` is what every address space relies on: the free list and all page tables are in order, and a valid entry names an
allocated page or the zero page, never a page table. Each primitive (`kalloc_page`, `memcpy` into a new page,
`kfree_page`, a store by a user, `vmmap`) gets one lemma that says which entries, counts and page contents it changes; the
proofs about the callers use these lemmas only.
-/
import OsKernel.Kernel.Paging
import OsKernel.Lib.Fallible

namespace OsKernel.Kernel.Paging

open OsKernel.Mem OsKernel.Kernel.PageTable OsKernel.Words OsKernel.Radix OsKernel.Fallible
open Function (update update_eq_self update_of_ne update_self)

/-- the roots of all page tables -/
def Sys.pts (s : Sys) : ℕ → ℕ := fun i => (s.space i).pt

/-- address a lies in page x -/
def InPage (x a : ℕ) : Prop := x ≤ a ∧ a < x + pageSize

/-- a page that somebody uses: allocated, or the zero page -/
def InUse (L : Layout) (m : PageMem) (x : ℕ) : Prop := Owned L m x ∨ x = zeroPage L

variable {L : Layout} {m : PageMem} {a flags ka p pg pte va x : ℕ} {cell' : ℕ → ℕ} {s s' s'' : Sys} {l : List ℕ}

theorem InUse.isPage (h : InUse L m x) : IsPage L x := h.imp And.left id

/-- a page in use that is no page table -/
structure UserPage (L : Layout) (s : Sys) (x : ℕ) : Prop where
  use : InUse L s.mem x
  plain : ∀ k q, ¬ HasTable s.mem s.pts k q x

structure Ok (L : Layout) (s : Sys) (l : List ℕ) : Prop where
  spaces : SpacesOk L s.mem s.pts l
  mapped : ∀ p va, Valid (s.entry p va) → UserPage L s (frame (s.entry p va))

/-- a step on the tables leaves every other page alone -/
theorem off_tables {ι : Type} {m' : PageMem} {pt pt' : ι → ℕ} (h : TableStep L m pt m' pt')
    (hok : TablesOk L m' pt') {y : ℕ} (hy : IsPage L y) (hnt : ∀ k q, ¬ HasTable m' pt' k q y) (ha : InPage y a) :
    m'.cell a = m.cell a :=
  h.cell a fun k q _ ht hta => hnt k q ((ht.isPage hok).apart hy hta ha ▸ ht)

section Memory

variable {ι : Type} {L : Layout} {m m' : PageMem} {pt : ι → ℕ} {l : List ℕ} (h : SpacesOk L m pt l)
include h

/-- nothing but the pages in the set P is written -/
theorem frame_pages {P : ℕ → Prop} (hP : ∀ k q t, HasTable m pt k q t → ¬ P t) (hpage : ∀ x, P x → IsPage L x)
    (hcell : ∀ a, (∀ x, P x → ¬ InPage x a) → m'.cell a = m.cell a)
    (hown : ∀ k q t, HasTable m pt k q t → Owned L m' t) :
    TablesOk L m' pt ∧ (∀ k q t, HasTable m' pt k q t ↔ HasTable m pt k q t) ∧
      ∀ k va, entry m' (pt k) va = entry m (pt k) va := by
  refine h.tables.frame (fun k q t a ht ha => hcell a fun x hx hxa => ?_) hown
  exact hP k q t ht ((hpage x hx).apart (ht.isPage h.tables) hxa ha ▸ hx)

/-- `kalloc_page`: an unused page, its content as it was -/
theorem kalloc_spaces (hk : kallocPage m = some (pg, m')) :
    ∃ l', l = pg :: l' ∧ SpacesOk L m' pt l' ∧ (∀ k q t, HasTable m' pt k q t ↔ HasTable m pt k q t) ∧
      (∀ k va, entry m' (pt k) va = entry m (pt k) va) ∧ Allocatable L pg ∧ m.ref (pageIndex pg) = 0 ∧
      m'.ref = update m.ref (pageIndex pg) 1 ∧ m'.cell = m.cell := by
  obtain ⟨l', hl, hfree, h0, href, hcell⟩ := h.free.kalloc_some hk
  have hpg : Allocatable L pg := h.free.allocatable (hl ▸ List.mem_cons_self)
  have hown : ∀ k q t, HasTable m pt k q t → Owned L m' t := by
    intro k q t ht
    have hx := h.tables.owned k q t ht
    have hne : pageIndex t ≠ pageIndex pg := fun hi => hx.2.ne' (by rw [hi, h0])
    exact ⟨hx.1, by rw [href, update_of_ne hne]; exact hx.2⟩
  obtain ⟨htab, hiff, hent⟩ := frame_pages h (P := fun _ => False) (fun _ _ _ _ => not_false) (fun _ hx => hx.elim)
    (fun a _ => by rw [hcell]) hown
  exact ⟨l', hl, ⟨hfree, htab⟩, hiff, hent, hpg, h0, href, hcell⟩

/-- a page in use that is no table is written, be it the zero page -/
theorem write_use (hx : InUse L m x) (hnt : ∀ k q, ¬ HasTable m pt k q x)
    (hcell : ∀ a, ¬ InPage x a → cell' a = m.cell a) :
    SpacesOk L { m with cell := cell' } pt l ∧ (∀ k q t, HasTable { m with cell := cell' } pt k q t ↔ HasTable m pt k q t) ∧
      ∀ k va, entry { m with cell := cell' } (pt k) va = entry m (pt k) va := by
  obtain ⟨htab, hiff, hent⟩ : TablesOk L { m with cell := cell' } pt ∧ _ ∧ _ :=
    frame_pages h (P := fun y => y = x) (fun k q t ht hxt => hnt k q (hxt ▸ ht)) (fun y hy => hy ▸ hx.isPage)
      (fun a ha => hcell a (ha x rfl)) (fun k q t ht => h.tables.owned k q t ht)
  refine ⟨⟨h.free.recell fun y hy => hcell _ fun hin => ?_, htab⟩, hiff, hent⟩
  have hya := h.free.allocatable hy
  have hyx : y = x := IsPage.apart (Or.inl hya) hx.isPage (by simp only [pageSize]; omega) hin
  rcases hx with ho | hz
  · exact ho.2.ne' (hyx ▸ ((h.free.mem y).1 hy).2)
  · exact hya.ne_zeroPage (hyx.trans hz)

/-- a page that is no table is written -/
theorem write_spaces (hx : Owned L m x) (hnt : ∀ k q, ¬ HasTable m pt k q x)
    (hcell : ∀ a, ¬ InPage x a → cell' a = m.cell a) :
    SpacesOk L { m with cell := cell' } pt l ∧ (∀ k q t, HasTable { m with cell := cell' } pt k q t ↔ HasTable m pt k q t) ∧
      ∀ k va, entry { m with cell := cell' } (pt k) va = entry m (pt k) va :=
  write_use h (Or.inl hx) hnt hcell

/-- `kfree_page` on an allocated page that is no table -/
theorem kfree_spaces (hx : Owned L m x) (hnt : ∀ k q, ¬ HasTable m pt k q x)
    (hf : kfreePage L x m = some m') :
    ∃ l', SpacesOk L m' pt l' ∧ (∀ k q t, HasTable m' pt k q t ↔ HasTable m pt k q t) ∧
      (∀ k va, entry m' (pt k) va = entry m (pt k) va) ∧
      m'.ref = update m.ref (pageIndex x) (m.ref (pageIndex x) - 1) ∧
      ∀ y a, InUse L m' y → InPage y a → m'.cell a = m.cell a := by
  obtain ⟨hxa, hpos⟩ := hx
  have hown : ∀ m', m'.ref = update m.ref (pageIndex x) (m.ref (pageIndex x) - 1) →
      ∀ k q t, HasTable m pt k q t → Owned L m' t := by
    intro m' href k q t ht
    have ht' := h.tables.owned k q t ht
    have hne : pageIndex t ≠ pageIndex x := fun hi => hnt k q (ht'.1.index_inj hxa hi ▸ ht)
    exact ⟨ht'.1, by rw [href, update_of_ne hne]; exact ht'.2⟩
  by_cases hone : m.ref (pageIndex x) = 1
  · have hl : l ≠ [] := by
      rintro rfl
      have hz := h.free.chain.head_eq_zero.2 rfl
      simp [kfreePage, hxa.ne_zeroPage, hone, hz] at hf
    obtain ⟨m1, hk, hfree, href, hcell⟩ := h.free.kfree hxa hone hl
    rw [hk] at hf
    obtain rfl := Option.some.inj hf
    have hhead : m.freePages ∈ l := by
      cases l with
      | nil => exact absurd rfl hl
      | cons a l => exact h.free.chain.1 ▸ List.mem_cons_self
    have hh := (h.free.mem _).1 hhead
    have href' : m1.ref = update m.ref (pageIndex x) (m.ref (pageIndex x) - 1) := by rw [href, hone]; rfl
    have hpage : ∀ y, y = x ∨ y = m.freePages → IsPage L y := by
      intro y hy
      rcases hy with rfl | rfl
      · exact Or.inl hxa
      · exact Or.inl hh.1
    have hcell' : ∀ a, (∀ y, y = x ∨ y = m.freePages → ¬ InPage y a) → m1.cell a = m.cell a := by
      intro a ha
      refine hcell a (fun hx => ha _ (Or.inr rfl) ?_) fun hx => ha x (Or.inl rfl) ?_
      · simp only [InPage, hx, pageSize]; omega
      · simp only [InPage, hx, pageSize]; omega
    obtain ⟨htab, hiff, hent⟩ := frame_pages h (P := fun y => y = x ∨ y = m.freePages)
      (fun k q t ht hP => by
        rcases hP with rfl | rfl
        · exact hnt k q ht
        · exact h.tables.not_free hh.2 k q ht) hpage hcell' (hown m1 href')
    refine ⟨x :: l, ⟨hfree, htab⟩, hiff, hent, href', fun y a hy ha => hcell' a fun z hz hza => ?_⟩
    have hzy : z = y := (hpage z hz).apart hy.isPage hza ha
    -- both pages that were written are free now
    have hfree' : m1.ref (pageIndex z) = 0 := by
      rcases hz with rfl | rfl
      · rw [href, update_self]
      · exact ((hfree.mem _).1 (List.mem_cons_of_mem x hhead)).2
    rcases hy with hy | hy
    · exact hy.2.ne' (hzy ▸ hfree')
    · have hza : Allocatable L z := by
        rcases hz with rfl | rfl
        · exact hxa
        · exact hh.1
      exact hza.ne_zeroPage (hzy.trans hy)
  · have hgt : ¬ m.ref (pageIndex x) - 1 ≤ 0 := by omega
    have hm : m' = { m with ref := update m.ref (pageIndex x) (m.ref (pageIndex x) - 1) } := by
      simp only [kfreePage, if_neg hxa.ne_zeroPage, if_neg hgt] at hf
      exact (Option.some.inj hf).symm
    have href : m'.ref = update m.ref (pageIndex x) (m.ref (pageIndex x) - 1) := by rw [hm]
    have hcell : m'.cell = m.cell := by rw [hm]
    obtain ⟨htab, hiff, hent⟩ := frame_pages h (P := fun _ => False) (fun _ _ _ _ => not_false) (fun _ hx => hx.elim)
      (fun a _ => by rw [hcell]) (hown m' href)
    have hfree : FreeList L m' l := by
      rw [hm]
      exact h.free.recount hpos (by omega)
    exact ⟨l, ⟨hfree, htab⟩, hiff, hent, href, fun _ a _ _ => by rw [hcell]⟩

/-- `kfree_page` on a page that a valid entry names; the zero page stays as it is -/
theorem kfree_mapped (hx : InUse L m x) (hnt : ∀ k q, ¬ HasTable m pt k q x) (hf : kfreePage L x m = some m') :
    ∃ l', SpacesOk L m' pt l' ∧ (∀ k q t, HasTable m' pt k q t ↔ HasTable m pt k q t) ∧
      (∀ k va, entry m' (pt k) va = entry m (pt k) va) ∧
      (m'.ref = if x = zeroPage L then m.ref
        else update m.ref (pageIndex x) (m.ref (pageIndex x) - 1)) ∧
      ∀ y a, InUse L m' y → InPage y a → m'.cell a = m.cell a := by
  rcases hx with hx | rfl
  · obtain ⟨l', hok, htab, hent, href, hkept⟩ := kfree_spaces h hx hnt hf
    exact ⟨l', hok, htab, hent, by rw [href, if_neg hx.1.ne_zeroPage], hkept⟩
  · rw [kfreePage, if_pos rfl] at hf
    obtain rfl := Option.some.inj hf
    exact ⟨l, h, fun _ _ _ => Iff.rfl, fun _ _ => rfl, (if_pos rfl).symm, fun _ _ _ _ => rfl⟩

end Memory

/-! ## Calls on one process -/

/-- memory and page tables aside, nothing has changed -/
structure SameSpaces (s s' : Sys) : Prop where
  sections : ∀ q, (s'.space q).sections = (s.space q).sections
  proc : ∀ q, (s'.space q).proc = (s.space q).proc
  file : s'.file = s.file
  content : s'.content = s.content

theorem SameSpaces.trans (h : SameSpaces s s') (h' : SameSpaces s' s'') : SameSpaces s s'' :=
  ⟨fun q => (h'.sections q).trans (h.sections q), fun q => (h'.proc q).trans (h.proc q), h'.file.trans h.file,
    h'.content.trans h.content⟩

theorem SameSpaces.refl (s : Sys) : SameSpaces s s := ⟨fun _ => rfl, fun _ => rfl, rfl, rfl⟩

theorem sameSpaces_setMem (s : Sys) (m : PageMem) : SameSpaces s (s.setMem m) :=
  ⟨fun _ => rfl, fun _ => rfl, rfl, rfl⟩

/-- `get_pte` finds the entry, or there is none -/
theorem findPte_cases (s : Sys) (p va : ℕ) :
    (∃ t, tableAt tableOf s.mem.cell (s.pts p) (path va) = some t ∧ findPte s p va = t + 8 * vaPart3 va ∧
      findPte s p va ≠ 0 ∧ s.mem.cell (findPte s p va) = s.entry p va) ∨
    (findPte s p va = 0 ∧ s.entry p va = 0) := by
  cases ht : tableAt tableOf s.mem.cell (s.pts p) (path va) with
  | none =>
    have hg : getPte false (s.space p).pt va s.mem = _ := getPte_none ht
    exact Or.inr ⟨by rw [findPte, hg], entry_of_none ht⟩
  | some t =>
    obtain ⟨hg, hne⟩ : getPte false (s.space p).pt va s.mem = _ ∧ t ≠ 0 := getPte_of_table ht
    have hpte : findPte s p va = t + 8 * vaPart3 va := by rw [findPte, hg]
    exact Or.inl ⟨t, rfl, hpte, by omega, by rw [hpte]; exact (entry_of_table ht).symm⟩

theorem valid_ne_zero {e : ℕ} (h : Valid e) : e ≠ 0 := by
  rintro rfl
  exact h rfl

/-- a valid entry has its table -/
theorem findPte_valid (hv : Valid (s.entry p va)) :
    ∃ t, tableAt tableOf s.mem.cell (s.pts p) (path va) = some t ∧ findPte s p va = t + 8 * vaPart3 va ∧
      findPte s p va ≠ 0 ∧ s.mem.cell (findPte s p va) = s.entry p va := by
  rcases findPte_cases s p va with h | ⟨-, h0⟩
  · exact h
  · exact absurd h0 (valid_ne_zero hv)

/-- p gets another page table -/
def Sys.setPt (s : Sys) (p : ℕ) (m : PageMem) (r : ℕ) : Sys := (s.setMem m).setSpace p { s.space p with pt := r }

theorem pts_setPt (s : Sys) (p : ℕ) (m : PageMem) (r : ℕ) : (s.setPt p m r).pts = update s.pts p r := by
  funext q
  by_cases hq : q = p
  · subst hq
    simp [Sys.pts, Sys.setPt, Sys.setSpace]
  · simp [Sys.pts, Sys.setPt, Sys.setSpace, Sys.setMem, hq]

theorem sameSpaces_setPt (s : Sys) (p : ℕ) (m : PageMem) (r : ℕ) : SameSpaces s (s.setPt p m r) := by
  have hq : ∀ q, ((s.setPt p m r).space q).sections = (s.space q).sections ∧
      ((s.setPt p m r).space q).proc = (s.space q).proc := by
    intro q
    by_cases hq : q = p
    · subst hq
      simp [Sys.setPt, Sys.setSpace]
    · simp [Sys.setPt, Sys.setSpace, Sys.setMem, hq]
  exact ⟨fun q => (hq q).1, fun q => (hq q).2, rfl, rfl⟩

theorem mapPage_same (hm : mapPage p va ka flags s = .ok s') : SameSpaces s s' := by
  rw [mapPage] at hm
  split at hm
  · next r hv =>
    cases hm
    exact sameSpaces_setPt s p r.2 r.1
  · cases hm

theorem allocPte_same (ha : allocPte p va s = .ok (pte, s')) : SameSpaces s s' := by
  rw [allocPte] at ha
  split at ha
  · next r hg =>
    cases ha
    exact sameSpaces_setPt s p r.2.2 r.2.1
  · cases ha

/-- what `vmmap` has done when it returns -/
theorem mapPage_spec (h : SpacesOk L s.mem s.pts l)
    (hm : mapPage p va ka flags s = .ok s') :
    ∃ l', SpacesOk L s'.mem s'.pts l' ∧ TableStep L s.mem s.pts s'.mem s'.pts ∧
      ∀ q va', s'.entry q va' = if q = p ∧ vpn va' = vpn va then pageBase (k2p ka) ||| flags else s.entry q va' := by
  rw [mapPage] at hm
  split at hm
  · next r hv =>
    have hpts := pts_setPt s p r.2 r.1
    cases hm
    obtain ⟨l', hok, hstep, hentry⟩ := vmmap_spec h p hv
    rw [← hpts] at hok hstep hentry
    exact ⟨l', hok, hstep, hentry⟩
  · cases hm

/-- what `get_pte` has done when it returns an entry -/
theorem allocPte_spec (h : SpacesOk L s.mem s.pts l)
    (ha : allocPte p va s = .ok (pte, s')) :
    ∃ l' t, SpacesOk L s'.mem s'.pts l' ∧ Grown L s.mem s.pts s'.mem s'.pts ∧
      tableAt tableOf s'.mem.cell (s'.pts p) (path va) = some t ∧ pte = t + 8 * vaPart3 va := by
  rw [allocPte] at ha
  split at ha
  · next r hg =>
    have hpts := pts_setPt s p r.2.2 r.2.1
    cases ha
    obtain ⟨t, hreach, hpte, -⟩ := getPte_alloc h p va hg
    rw [← hpts] at hreach
    obtain ⟨l', hok⟩ := hreach.ok
    exact ⟨l', t, hok, hreach.grown, hreach.table, hpte⟩
  · cases ha

/-- with the table there, `vmmap` is one store -/
theorem mapPage_of_table {t : ℕ}
    (ht : tableAt tableOf s.mem.cell (s.pts p) (path va) = some t) :
    mapPage p va ka flags s = .ok (s.setMem (setPte (t + 8 * vaPart3 va) (pageBase (k2p ka) ||| flags) s.mem)) := by
  have hv : vmmap (s.space p).pt va ka flags s.mem = _ := vmmap_of_table ht
  rw [mapPage, hv]
  simp only [Sys.setSpace, Sys.setMem, update_eq_self]

/-! ## Pages that are left alone -/

/-- the pages in use stay as they are: tables may be added and pages handed out -/
structure Undisturbed (L : Layout) (s s' : Sys) : Prop where
  page : ∀ x, UserPage L s x → UserPage L s' x
  ref : ∀ x, Owned L s.mem x → s'.mem.ref (pageIndex x) = s.mem.ref (pageIndex x)
  cell : ∀ x a, UserPage L s x → InPage x a → s'.mem.cell a = s.mem.cell a
  table : ∀ k q t, HasTable s.mem s.pts k q t → HasTable s'.mem s'.pts k q t

/-- files and sections do not matter -/
theorem undisturbed_of_eq (hm : s'.mem = s.mem) (hp : s'.pts = s.pts) : Undisturbed L s s' := by
  refine ⟨fun x hx => ⟨hm ▸ hx.use, ?_⟩, fun _ _ => by rw [hm], fun _ _ _ _ => by rw [hm], fun k q t ht => ?_⟩
  · rw [hm, hp]
    exact hx.plain
  · rw [hm, hp]
    exact ht

theorem entry_of_eq (hm : s'.mem = s.mem) (hp : s'.pts = s.pts) (q va : ℕ) : s'.entry q va = s.entry q va := by
  rw [Sys.entry, hm]
  exact congrArg (fun r => PageTable.entry s.mem r va) (congrFun hp q)

theorem pts_setSections (s : Sys) (p : ℕ) (secs : List Section) :
    (s.setSpace p { s.space p with sections := secs }).pts = s.pts := by
  funext q
  by_cases hq : q = p
  · subst hq
    simp [Sys.pts, Sys.setSpace]
  · simp [Sys.pts, Sys.setSpace, hq]

theorem fileClose_ok {f : ℕ} (h : fileClose f s = .ok s') :
    s' = s.setFile f { s.file f with ref := (s.file f).ref - 1 } := by
  rw [fileClose] at h
  split_ifs at h
  cases h
  rfl

theorem Ok.congr (h : Ok L s l) (hm : s'.mem = s.mem) (hp : s'.pts = s.pts) :
    Ok L s' l := by
  refine ⟨by rw [hm, hp]; exact h.spaces, fun q va hv => ?_⟩
  rw [entry_of_eq hm hp] at hv ⊢
  exact (undisturbed_of_eq hm hp).page _ (h.mapped q va hv)

theorem Undisturbed.trans (h : Undisturbed L s s') (h' : Undisturbed L s' s'') :
    Undisturbed L s s'' := by
  refine ⟨fun x hx => h'.page x (h.page x hx), fun x hx => ?_, fun x a hx ha => ?_,
    fun k q t ht => h'.table k q t (h.table k q t ht)⟩
  · exact (h'.ref x ⟨hx.1, by rw [h.ref x hx]; exact hx.2⟩).trans (h.ref x hx)
  · exact (h'.cell x a (h.page x hx) ha).trans (h.cell x a hx ha)

theorem undisturbed_tables {l' : List ℕ} (hok : SpacesOk L s'.mem s'.pts l')
    (h : TableStep L s.mem s.pts s'.mem s'.pts) : Undisturbed L s s' := by
  have hpage : ∀ x, UserPage L s x → UserPage L s' x := by
    intro x hx
    refine ⟨hx.use.imp (fun ho => ⟨ho.1, by rw [h.ref x ho]; exact ho.2⟩) id, fun k q ht => ?_⟩
    rcases hx.use with ho | hz
    · rcases h.fresh k q x ht with ht' | hno
      · exact hx.plain k q ht'
      · exact hno ho
    · exact (hok.tables.owned k q x ht).1.ne_zeroPage hz
  exact ⟨hpage, h.ref, fun x a hx ha => off_tables h hok.tables hx.use.isPage (hpage x hx).plain ha,
    h.table⟩

theorem allocPage_ok (h : allocPage s = .ok (pg, s')) :
    ∃ m', kallocPage s.mem = some (pg, m') ∧ s' = s.setMem m' := by
  rw [allocPage] at h
  split at h
  · next r hk =>
    cases h
    exact ⟨r.2, hk, rfl⟩
  · cases h

theorem freePage_ok (h : freePage L x s = .ok s') :
    ∃ m', kfreePage L x s.mem = some m' ∧ s' = s.setMem m' := by
  rw [freePage] at h
  split at h
  · next m' hk =>
    cases h
    exact ⟨m', hk, rfl⟩
  · cases h

/-- a page from `kalloc_page`: nobody has it -/
theorem alloc_spec (h : Ok L s l) (ha : allocPage s = .ok (pg, s')) :
    ∃ l', Ok L s' l' ∧ Undisturbed L s s' ∧ (∀ q va, s'.entry q va = s.entry q va) ∧
      Owned L s'.mem pg ∧ UserPage L s' pg ∧ s.mem.ref (pageIndex pg) = 0 := by
  obtain ⟨m', hk, rfl⟩ := allocPage_ok ha
  obtain ⟨l', -, hok, htab, hent, hpg, h0, href, hcell⟩ := kalloc_spaces h.spaces hk
  have href' : ∀ x, Owned L s.mem x → m'.ref (pageIndex x) = s.mem.ref (pageIndex x) := by
    intro x hx
    have hne : pageIndex x ≠ pageIndex pg := fun hi => hx.2.ne' (by rw [hi, h0])
    rw [href, update_of_ne hne]
  have hpage : ∀ x, UserPage L s x → UserPage L (s.setMem m') x := fun x hx =>
    ⟨hx.use.imp (fun ho => ⟨ho.1, by rw [Sys.setMem, href' x ho]; exact ho.2⟩) id,
      fun k q ht => hx.plain k q ((htab k q x).1 ht)⟩
  have hown : Owned L m' pg := ⟨hpg, by rw [href, update_self]; exact Int.one_pos⟩
  refine ⟨l', ⟨hok, fun p va hv => ?_⟩, ⟨hpage, href', fun x a _ _ => by rw [Sys.setMem, hcell],
    fun k q t ht => (htab k q t).2 ht⟩, hent, hown, ⟨Or.inl hown, fun k q ht => ?_⟩, h0⟩
  · have he : (s.setMem m').entry p va = s.entry p va := hent p va
    rw [he] at hv ⊢
    exact hpage _ (h.mapped p va hv)
  · exact h.spaces.tables.not_free h0 k q ((htab k q pg).1 ht)

/-- a page in use is mapped -/
theorem map_spec (h : Ok L s l) (hx : UserPage L s x)
    (hframe : frame (pageBase (k2p x) ||| flags) = x) (hm : mapPage p va x flags s = .ok s') :
    ∃ l', Ok L s' l' ∧ Undisturbed L s s' ∧
      ∀ q va', s'.entry q va' = if q = p ∧ vpn va' = vpn va then pageBase (k2p x) ||| flags else s.entry q va' := by
  obtain ⟨l', hok, hstep, hent⟩ := mapPage_spec h.spaces hm
  have hund := undisturbed_tables hok hstep
  refine ⟨l', ⟨hok, fun q va' hv => ?_⟩, hund, hent⟩
  rw [hent q va'] at hv ⊢
  split_ifs at hv ⊢ with hq
  · rw [hframe]
    exact hund.page x hx
  · exact hund.page _ (h.mapped q va' hv)

/-- a store into a page that is no table -/
theorem write_spec (h : Ok L s l)
    (hplain : UserPage L s x) (hcell : ∀ a, ¬ InPage x a → cell' a = s.mem.cell a) :
    Ok L (s.setMem { s.mem with cell := cell' }) l ∧
      (∀ q va, (s.setMem { s.mem with cell := cell' }).entry q va = s.entry q va) ∧
      (∀ y, UserPage L (s.setMem { s.mem with cell := cell' }) y ↔ UserPage L s y) ∧
      ∀ y a, UserPage L s y → y ≠ x → InPage y a → cell' a = s.mem.cell a := by
  obtain ⟨hok, htab, hent⟩ := write_use h.spaces hplain.use hplain.plain hcell
  have hpage : ∀ y, UserPage L (s.setMem { s.mem with cell := cell' }) y ↔ UserPage L s y := fun y =>
    ⟨fun hy => ⟨hy.use, fun k q ht => hy.plain k q ((htab k q y).2 ht)⟩,
      fun hy => ⟨hy.use, fun k q ht => hy.plain k q ((htab k q y).1 ht)⟩⟩
  refine ⟨⟨hok, fun p va hv => ?_⟩, hent, hpage, fun y a hy hne ha => hcell a fun hxa =>
    hne (hy.use.isPage.apart hplain.use.isPage ha hxa)⟩
  have he : (s.setMem { s.mem with cell := cell' }).entry p va = s.entry p va := hent p va
  rw [he] at hv ⊢
  exact (hpage _).2 (h.mapped p va hv)

/-- before any page table exists -/
theorem ok_bare (h : FreeList L s.mem l) (hpt : ∀ q, s.pts q = 0) : Ok L s l := by
  have hno : ∀ k q t, ¬ HasTable s.mem s.pts k q t := by
    intro k q t ht
    have hroot := ht.2
    rw [tableAt, if_pos (hpt k)] at hroot
    cases hroot
  have hent : ∀ q va, s.entry q va = 0 := fun q va => entry_of_none (if_pos (hpt q))
  refine ⟨⟨h, fun k q t ht => absurd ht (hno k q t), fun k q _ _ t ht _ => absurd ht (hno k q t)⟩, fun q va hv => ?_⟩
  rw [hent] at hv
  exact absurd rfl hv

/-! ## Copy on write -/

/-- what the permission fault of a data or stack section has done when it returns: pg is the page mapped now, old the one
mapped before -/
structure Unshared (L : Layout) (s : Sys) (p addr pg : ℕ) (s' : Sys) (l' : List ℕ) : Prop where
  alloc : ∃ m1, kallocPage s.mem = some (pg, m1)
  fresh : Allocatable L pg ∧ s.mem.ref (pageIndex pg) = 0
  spaces : SpacesOk L s'.mem s'.pts l'
  tables : ∀ k q t, HasTable s'.mem s'.pts k q t ↔ HasTable s.mem s.pts k q t
  entry : ∀ q va, s'.entry q va =
    if q = p ∧ vpn va = vpn addr then k2p pg ||| (pteUserData ||| pteRw) else s.entry q va
  ref : s'.mem.ref = if frame (s.entry p addr) = zeroPage L then update s.mem.ref (pageIndex pg) 1
    else update (update s.mem.ref (pageIndex pg) 1) (pageIndex (frame (s.entry p addr)))
      (s.mem.ref (pageIndex (frame (s.entry p addr))) - 1)
  copied : ∀ i < pageSize, s'.mem.cell (pg + i) = s.mem.cell (frame (s.entry p addr) + i)
  kept : ∀ y a, y ≠ pg → InUse L s'.mem y → (∀ k q, ¬ HasTable s.mem s.pts k q y) → InPage y a →
    s'.mem.cell a = s.mem.cell a
  same : SameSpaces s s'

theorem copyPage_out {dst : ℕ} (h : ¬ InPage dst a) (src : ℕ) (cell : ℕ → ℕ) : copyPage dst src cell a = cell a :=
  if_neg h

theorem copyPage_in {i : ℕ} (h : i < pageSize) (dst src : ℕ) (cell : ℕ → ℕ) :
    copyPage dst src cell (dst + i) = cell (src + i) := by
  rw [copyPage, if_pos (by omega), Nat.add_sub_cancel_left]

theorem copyOnWrite_spec (h : Ok L s l) {addr : ℕ}
    (hv : Valid (s.entry p addr)) (hc : copyOnWrite L p addr s = .ok s') : ∃ pg l', Unshared L s p addr pg s' l' := by
  obtain ⟨⟨pg, s1⟩, ha, hc⟩ := bind_ok hc
  obtain ⟨m1, hk, rfl⟩ := allocPage_ok ha
  obtain ⟨l1, -, hok1, htab1, hent1, hpg, h0, href1, hcell1⟩ := kalloc_spaces h.spaces hk
  set old := frame (s.entry p addr) with hold
  have huse := (h.mapped p addr hv).use
  have hpgold : old ≠ pg := by
    rcases huse with hx | hx
    · exact fun hxp => hx.2.ne' (by rw [← hold, hxp, h0])
    · exact fun hxp => hpg.ne_zeroPage (hxp.symm.trans hx)
  have hidx : pageIndex old ≠ pageIndex pg := by
    rcases huse with hx | hx
    · exact fun hi => hpgold (hx.1.index_inj hpg hi)
    · exact fun hi => hpg.index_ne_zeroPage (by rw [← hi, hold, hx])
  have hpgnt : ∀ k q, ¬ HasTable s.mem s.pts k q pg := h.spaces.tables.not_free h0
  -- the entry is where it was before the allocation
  have he1 : (s.setMem m1).entry p addr = s.entry p addr := hent1 p addr
  obtain ⟨t, ht1, hpte, hne, hcellpte⟩ := findPte_valid (he1.symm ▸ hv : Valid ((s.setMem m1).entry p addr))
  simp only at hc
  rw [if_neg hne, hpte] at hc
  rw [hpte, he1] at hcellpte
  have htab : HasTable s.mem s.pts p (path addr) t := (htab1 p _ t).1 ⟨isPath_path addr, ht1⟩
  -- the copy, written to a page that is no table
  have hcell1' : (s.setMem m1).mem.cell = s.mem.cell := hcell1
  rw [hcell1'] at hc hcellpte
  rw [hcellpte] at hc
  have hpg1 : Owned L m1 pg := ⟨hpg, by rw [href1, update_self]; exact Int.one_pos⟩
  obtain ⟨hok2, htab2, hent2⟩ := write_spaces hok1 hpg1 (fun k q hx => hpgnt k q ((htab1 k q pg).1 hx))
    (fun a ha => (copyPage_out ha old s.mem.cell).trans (by rw [hcell1]))
  set m2 : PageMem := { m1 with cell := copyPage pg old s.mem.cell } with hm2
  obtain ⟨s3, hf, hc⟩ := bind_ok hc
  have hslot : m2.cell (t + 8 * vaPart3 addr) = s.entry p addr := by
    have ht2 := (htab2 p _ t).2 ((htab1 p _ t).2 htab)
    rw [← entry_of_table ht2.2, hent2, hent1]
    rfl
  change freePage L (frame (m2.cell (t + 8 * vaPart3 addr))) (s.setMem m2) = .ok s3 at hf
  rw [hslot] at hf
  -- the old page loses a reference
  obtain ⟨m3, hk3, rfl⟩ := freePage_ok hf
  have hrefold : m2.ref (pageIndex old) = s.mem.ref (pageIndex old) := by
    change m1.ref (pageIndex old) = _
    rw [href1, update_of_ne hidx]
  have huse2 : InUse L m2 old := huse.imp (fun hx => ⟨hx.1, by rw [hrefold]; exact hx.2⟩) id
  obtain ⟨l3, hok3, htab3, hent3, href3, hkept3⟩ := kfree_mapped hok2 huse2
    (fun k q hx => (h.mapped p addr hv).plain k q ((htab1 k q old).1 ((htab2 k q old).1 hx))) hk3
  have htabs : ∀ k q u, HasTable m3 s.pts k q u ↔ HasTable s.mem s.pts k q u := fun k q u =>
    (htab3 k q u).trans ((htab2 k q u).trans (htab1 k q u))
  have hrefs : m3.ref = if old = zeroPage L then update s.mem.ref (pageIndex pg) 1
      else update (update s.mem.ref (pageIndex pg) 1) (pageIndex old)
        (s.mem.ref (pageIndex old) - 1) := by
    rw [href3, hrefold]
    change (if old = zeroPage L then m1.ref else update m1.ref (pageIndex old) _) = _
    rw [href1]
  have hrefpg : m3.ref (pageIndex pg) = 1 := by
    rw [hrefs]
    split_ifs
    · rw [update_self]
    · rw [update_of_ne hidx.symm, update_self]
  -- the new page is mapped
  have ht3 : HasTable m3 s.pts p (path addr) t := (htabs p _ t).2 htab
  rw [mapPage_of_table ht3.2] at hc
  cases hc
  obtain ⟨hok4, hstep4, hent4⟩ := entry_write hok3 ht3.2 (pageBase (k2p pg) ||| (pteUserData ||| pteRw))
  have htab4 : ∀ k q u, HasTable (setPte (t + 8 * vaPart3 addr) (pageBase (k2p pg) ||| (pteUserData ||| pteRw)) m3)
      s.pts k q u ↔ HasTable s.mem s.pts k q u := by
    intro k q u
    constructor
    · intro hu
      rcases hstep4.fresh k q u hu with hu' | hno
      · exact (htabs k q u).1 hu'
      · exact absurd (hok4.tables.owned k q u hu) hno
    · intro hu
      exact hstep4.table k q u ((htabs k q u).2 hu)
  refine ⟨pg, l3, ⟨m1, hk⟩, ⟨hpg, h0⟩, hok4, htab4, fun q va => ?_, hrefs, fun i hi => ?_,
    fun y a hy huse' hnt ha => ?_, ⟨fun _ => rfl, fun _ => rfl, rfl, rfl⟩⟩
  · refine (hent4 q va).trans ?_
    rw [IsPage.k2p_eq (Or.inl hpg), hent3, hent2, hent1]
    rfl
  · have hin : InPage pg (pg + i) := ⟨by omega, by omega⟩
    calc _ = m3.cell (pg + i) :=
          off_tables hstep4 hok4.tables (Or.inl hpg) (fun k q hx => hpgnt k q ((htab4 k q pg).1 hx)) hin
      _ = m2.cell (pg + i) := hkept3 pg _ (Or.inl ⟨hpg, by rw [hrefpg]; exact Int.one_pos⟩) hin
      _ = s.mem.cell (old + i) := copyPage_in hi pg old s.mem.cell
  · have hypg : ¬ InPage pg a := fun hpa => hy (huse'.isPage.apart (Or.inl hpg) ha hpa)
    calc _ = m3.cell a := off_tables hstep4 hok4.tables huse'.isPage (fun k q hx => hnt k q ((htab4 k q y).1 hx)) ha
      _ = m2.cell a := hkept3 y a huse' ha
      _ = s.mem.cell a := copyPage_out hypg old s.mem.cell

end OsKernel.Kernel.Paging
