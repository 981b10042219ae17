/-
The data and bss of a program in memory (`kernel/exec.c`).

The loop over the data of a segment gives every page that the file's bytes lie in a cleared page of its own. The loop over the bss
maps the zero page, and starts at the first page behind the address where the data ends. That is right when the data ends inside
a page, which has then been mapped and is zero behind the data. When there is no data, or it ends at the end of a page, the page
in front of that start is skipped.

`Touches` are the virtual pages a segment maps; the rest of the page table and of memory stays as it was (`Extends`), so the
segments of a file can be taken one by one. Results:
- `segment_in_place`: what a loaded segment looks like in memory;
- `first_bss_page_missing`: a program whose bss is not mapped.
-/
import OsKernel.Kernel.UserMemory

namespace OsKernel.Kernel.ExecData

open OsKernel.Mem OsKernel.Radix OsKernel.Words OsKernel.Fallible OsKernel.Kernel.PageTable OsKernel.Kernel.UserMemory
open OsKernel.Fs (addU subU)
open OsKernel.Kernel.Paging (Content vaOffset_lt valid_ne_zero)
open OsKernel.Kernel.Exec (ehdrBytes phdrBytes Phdr Pgdir Stop ptLoad pfRx pfRw phdrSize allocPage mapPage inodeRead inodeRead_eq
  loadData mapBss loadBss loadRw loadSegment loadLoop loadLoop_succ load load_eq bssStart bssSize headers headers_succ
  fileHeaders Accepts Header addU_addU)

/-! ## The pages a segment maps -/

/-- the virtual pages of n bytes from va on -/
def pagesOf (va n : ℕ) : Set ℕ := {v | ∃ i < n, v = vpn (addU va i)}

/-- the virtual pages that a segment with flags RW maps: data and bss -/
def Touches (h : Phdr) : Set ℕ := pagesOf h.vaddr h.filesz ∪ pagesOf (bssStart h) (bssSize h)

/-- a segment with data to load -/
def Loads (h : Phdr) : Prop := h.type = ptLoad ∧ h.flags = pfRw

def TouchedBy (hs : List Phdr) : Set ℕ := {v | ∃ h ∈ hs, Loads h ∧ v ∈ Touches h}

theorem vpn_mod (va : ℕ) : vpn (va % 2 ^ 64) = vpn va := by
  simp only [vpn, pageSize]
  omega

theorem vpn_pageBase (va : ℕ) : vpn (pageBase va) = vpn va := by
  simp only [vpn, pageBase, pageSize]
  omega

variable {a fuel i n off va' : ℕ} {V : Set ℕ} {h : Phdr} {r : Bool × ℕ × ℕ × PageMem} {back front hs : List Phdr}
  {l : List ℕ} {cell : ℕ → ℕ}

theorem first_page (va : ℕ) (hn : n ≠ 0) : vpn va ∈ pagesOf va n :=
  ⟨0, Nat.pos_of_ne_zero hn, (vpn_mod va).symm⟩

/-- what is left after k bytes -/
theorem pagesOf_rest (va : ℕ) {k : ℕ} : pagesOf (addU va k) (n - k) ⊆ pagesOf va n := by
  rintro v ⟨i, hi, rfl⟩
  exact ⟨k + i, by omega, by rw [addU_addU]⟩

section Steps

variable {L : Layout} {c : Content} {m m' : PageMem} {pt pt' va : ℕ} {l : List ℕ}

/-- one turn of the loop over the data: the rest is loaded from what it leaves -/
theorem loadData_turn (hn : n ≠ 0)
    (hr : loadData c (fuel + 1) n off va pt m = .ok r) :
    ∃ p m1 pt2 m2 d, allocPage m = .ok (p, m1) ∧
      mapPage pt (pageBase va) p (pteUserData ||| pteRw) { m1 with cell := clearPage p m1.cell } = .ok (pt2, m2) ∧
      off ≤ c.bytes.length ∧ d = (c.bytes.drop off).take (min n (pageSize - vaOffset va)) ∧
      (if d.length = min n (pageSize - vaOffset va) then
        loadData c fuel (n - min n (pageSize - vaOffset va)) (addU off (min n (pageSize - vaOffset va)))
          (addU va (min n (pageSize - vaOffset va))) pt2 { m2 with cell := storeBytes m2.cell (p + vaOffset va) d } = .ok r
      else r = (false, va, pt2, { m2 with cell := storeBytes m2.cell (p + vaOffset va) d })) := by
  rw [loadData, if_neg hn] at hr
  obtain ⟨⟨p, m1⟩, ha, hr⟩ := bind_ok hr
  obtain ⟨⟨pt2, m2⟩, hm, hr⟩ := bind_ok hr
  obtain ⟨d, hd, hr⟩ := bind_ok hr
  rw [inodeRead_eq c (by simp only [pageSize]; omega)] at hd
  split_ifs at hd with hoff
  refine ⟨p, m1, pt2, m2, d, ha, hm, hoff, (Except.ok.inj hd).symm, ?_⟩
  simp only at hr
  split_ifs at hr ⊢ with hlen
  · exact hr
  · exact (Except.ok.inj hr).symm

/-- **The data.** Only the pages of the data are mapped anew. -/
theorem loadData_extends (hok : SpaceOk L m pt l)
    (hr : loadData c fuel n off va pt m = .ok r) :
    (∃ l', SpaceOk L r.2.2.2 r.2.2.1 l') ∧ Extends L (pagesOf va n) m pt r.2.2.2 r.2.2.1 := by
  induction fuel generalizing n off va pt m l with
  | zero =>
    rw [loadData] at hr
    cases hr
    exact ⟨⟨l, hok⟩, Extends.refl L _ m pt⟩
  | succ fuel ih =>
    by_cases hn : n = 0
    · rw [loadData, if_pos hn] at hr
      cases hr
      exact ⟨⟨l, hok⟩, Extends.refl L _ m pt⟩
    · obtain ⟨p, m1, pt2, m2, d, ha, hm, -, hd, hr⟩ := loadData_turn hn hr
      have hlen : vaOffset va + d.length ≤ pageSize := by
        have ho := vaOffset_lt va
        rw [hd, List.length_take]
        omega
      obtain ⟨⟨l3, hok3⟩, hext, -⟩ := hok.place ha hm (by decide) (by decide) hlen rfl
      have hfirst : Extends L (pagesOf va n) m pt _ pt2 :=
        hext.mono (Set.singleton_subset_iff.2 (vpn_pageBase va ▸ first_page va hn))
      split_ifs at hr
      · obtain ⟨hok', hrest⟩ := ih hok3 hr
        exact ⟨hok', hfirst.trans (hrest.mono (pagesOf_rest va))⟩
      · subst hr
        exact ⟨⟨l3, hok3⟩, hfirst⟩

/-- the entry of a page of the bss -/
def zeroEntry (L : Layout) : ℕ := k2p (zeroPage L) ||| (pteUserData ||| pteRo)

theorem zeroEntry_flags (L : Layout) : Valid (zeroEntry L) ∧ User (zeroEntry L) ∧ ReadOnly (zeroEntry L) := by
  have hpage : IsPage L (zeroPage L) := Or.inr rfl
  have hflags : pteUserData ||| pteRo < 4096 := by decide
  refine ⟨?_, ?_, ?_⟩
  · rw [zeroEntry, Valid, hpage.and_flags hflags (by decide)]; decide
  · rw [zeroEntry, User, hpage.and_flags hflags (by decide)]; decide
  · rw [zeroEntry, ReadOnly, hpage.and_flags hflags (by decide)]; decide

theorem zeroEntry_frame (L : Layout) : frame (zeroEntry L) = zeroPage L := IsPage.frame_eq (Or.inr rfl) (by decide)

/-- one page of the bss -/
theorem map_zero (hok : SpaceOk L m pt l) (hm : mapPage pt (pageBase va) (zeroPage L) (pteUserData ||| pteRo) m = .ok (pt', m')) :
    (∃ l', SpaceOk L m' pt' l') ∧ Extends L {vpn va} m pt m' pt' ∧ entry m' pt' va = zeroEntry L := by
  obtain ⟨hok', hkept, hent⟩ := hok.map hok.plain_zero (by decide) hm
  rw [vpn_pageBase] at hent
  refine ⟨hok', ⟨hkept, fun va' hva' => ?_, fun va' _ => ?_⟩, by rw [hent, if_pos rfl, zeroEntry]⟩
  · rw [hent, if_neg fun hvpn => hva' (Set.mem_singleton_iff.2 hvpn)]
  · rw [hent]
    split_ifs with hvpn
    · exact Or.inr (Or.inl (zeroEntry_frame L))
    · exact Or.inl rfl

/-- **The bss.** Only its pages are mapped anew. -/
theorem mapBss_extends (hok : SpaceOk L m pt l) {r : ℕ × ℕ × ℕ × PageMem}
    (hr : mapBss L fuel n va pt m = .ok r) :
    (∃ l', SpaceOk L r.2.2.2 r.2.2.1 l') ∧ Extends L (pagesOf va n) m pt r.2.2.2 r.2.2.1 := by
  induction fuel generalizing n va pt m l with
  | zero =>
    rw [mapBss] at hr
    cases hr
    exact ⟨⟨l, hok⟩, Extends.refl L _ m pt⟩
  | succ fuel ih =>
    rw [mapBss] at hr
    by_cases hn : n = 0
    · rw [if_pos hn] at hr
      cases hr
      exact ⟨⟨l, hok⟩, Extends.refl L _ m pt⟩
    · rw [if_neg hn] at hr
      obtain ⟨⟨pt1, m1⟩, hm, hr⟩ := bind_ok hr
      obtain ⟨⟨l1, hok1⟩, hext, -⟩ := map_zero hok hm
      obtain ⟨hok', hrest⟩ := ih hok1 hr
      exact ⟨hok', (hext.mono (Set.singleton_subset_iff.2 (first_page va hn))).trans (hrest.mono (pagesOf_rest va))⟩

/-! ## What is there afterwards -/

/-- the virtual pages of an area without wrap -/
theorem not_mem_pagesOf (hn : va + n ≤ 2 ^ 48) (ha : a < va / pageSize * pageSize) : vpn a ∉ pagesOf va n := by
  rintro ⟨i, hi, hvpn⟩
  rw [addU, vpn_mod] at hvpn
  simp only [vpn, pageSize] at ha hvpn
  omega

/-- a page of the data -/
structure DataByte (L : Layout) (m : PageMem) (pt va : ℕ) (b : UInt8) : Prop where
  own : Private L m pt va
  user : User (entry m pt va)
  writable : ¬ ReadOnly (entry m pt va)
  byte : userByte m pt va = b

theorem DataByte.extends {b : UInt8} (h : DataByte L m pt va b) (hok : SpaceOk L m pt l)
    (he : Extends L V m pt m' pt') (hva : vpn va ∉ V) : DataByte L m' pt' va b := by
  have hent := he.entry va hva
  refine ⟨h.own.extends hok he hva, by rw [hent]; exact h.user, by rw [hent]; exact h.writable, ?_⟩
  rw [hok.userByte_extends he h.own.valid hva]
  exact h.byte

/-- a new page that holds d from va on, and zeros -/
theorem place_data (hok : SpaceOk L m pt l) {p : ℕ} {m1 m2 : PageMem} {d : List UInt8} (ha : allocPage m = .ok (p, m1))
    (hm : mapPage pt (pageBase va) p (pteUserData ||| pteRw) { m1 with cell := clearPage p m1.cell } = .ok (pt', m2))
    (hlen : vaOffset va + d.length ≤ pageSize) {m3 : PageMem}
    (hm3 : m3 = { m2 with cell := storeBytes m2.cell (p + vaOffset va) d }) (hi : vaOffset va + i < pageSize) :
    DataByte L m3 pt' (va + i) (d.getD i 0) := by
  obtain ⟨-, -, hown, hent, hframe, hbyte⟩ := hok.place ha hm (by decide) (by decide) hlen hm3
  have hvpn : vpn (va + i) = vpn (pageBase va) ∧ vaOffset (va + i) = vaOffset va + i := by
    rw [vpn_pageBase]
    rw [vaOffset_eq] at hi
    rw [vaOffset_eq, vaOffset_eq]
    simp only [vpn, pageSize] at hi ⊢
    omega
  have hpage : IsPage L p := by
    have := hown.owned.1
    rw [hent, hframe] at this
    exact Or.inl this
  have hent' : entry m3 pt' (va + i) = k2p p ||| (pteUserData ||| pteRw) := by rw [entry_vpn m3 pt' hvpn.1, hent]
  refine ⟨hown.same_page hvpn.1, ?_, ?_, ?_⟩
  · rw [hent', User, hpage.and_flags (by decide) (by decide)]; decide
  · rw [hent', ReadOnly, hpage.and_flags (by decide) (by decide)]; decide
  · rw [userByte, hent', hframe, hvpn.2, hbyte _ hi, if_pos (Nat.le_add_right _ _), Nat.add_sub_cancel_left]

/-- **The data is in place**, and the rest of its last page is zero. -/
theorem loadData_places (hfuel : n ≤ fuel) (hlt : va + n ≤ 2 ^ 48) (hok : SpaceOk L m pt l)
    (hr : loadData c fuel n off va pt m = .ok (true, va', pt', m')) :
    va' = va + n ∧ (∀ i < n, ∃ b, c.bytes[off + i]? = some b ∧ DataByte L m' pt' (va + i) b) ∧
      (n ≠ 0 → ∀ a, va + n ≤ a → vpn a = vpn (va + n - 1) → a < 2 ^ 48 → DataByte L m' pt' a 0) := by
  induction fuel generalizing n off va pt m l with
  | zero =>
    obtain rfl : n = 0 := by omega
    rw [loadData] at hr
    cases hr
    exact ⟨rfl, fun i hi => absurd hi (Nat.not_lt_zero i), fun h0 => absurd rfl h0⟩
  | succ fuel ih =>
    by_cases hn : n = 0
    · subst hn
      rw [loadData, if_pos rfl] at hr
      cases hr
      exact ⟨rfl, fun i hi => absurd hi (Nat.not_lt_zero i), fun h0 => absurd rfl h0⟩
    · obtain ⟨p, m1, pt2, m2, d, ha, hm, hoff, hd, hr⟩ := loadData_turn hn hr
      obtain ⟨cur, hcur⟩ : ∃ cur, cur = min n (pageSize - vaOffset va) := ⟨_, rfl⟩
      rw [← hcur] at hd hr
      have ho := vaOffset_lt va
      have hlen : vaOffset va + d.length ≤ pageSize := by
        rw [hd, List.length_take]
        omega
      obtain ⟨⟨l3, hok3⟩, -⟩ := hok.place ha hm (by decide) (by decide) hlen rfl
      have hfirst := fun j => place_data hok ha hm hlen rfl (i := j)
      split_ifs at hr with hfull
      · have hsmall := c.small
        have hin : off + cur ≤ c.bytes.length := by
          rw [hd, List.length_take, List.length_drop] at hfull
          omega
        have hadd : addU va cur = va + cur := Fs.addU_of_lt (by omega)
        have haddoff : addU off cur = off + cur := Fs.addU_of_lt (by omega)
        rw [hadd, haddoff] at hr
        have hrest := (loadData_extends hok3 hr).2
        obtain ⟨hva', hbytes, htail⟩ := ih (by omega) (by omega) hok3 hr
        -- the rest of the data lies behind the first page
        have hout : ∀ j, vaOffset va + j < pageSize → vpn (va + j) ∉ pagesOf (va + cur) (n - cur) := by
          intro j hj
          by_cases hdone : n - cur = 0
          · rintro ⟨i, hi, -⟩
            omega
          · refine not_mem_pagesOf (by omega) ?_
            rw [vaOffset_eq] at hj hcur
            simp only [pageSize] at hj hcur ⊢
            omega
        refine ⟨by omega, fun i hi => ?_, fun _ a hle hvpn hlt' => ?_⟩
        · rcases Nat.lt_or_ge i cur with hlt' | hge
          · refine ⟨d.getD i 0, ?_, (hfirst i (by omega)).extends hok3 hrest (hout i (by omega))⟩
            rw [hd, List.getD_eq_getElem?_getD, List.getElem?_take_of_lt hlt', List.getElem?_drop,
              List.getElem?_eq_getElem (by omega), Option.getD_some]
          · obtain ⟨j, rfl⟩ := Nat.exists_eq_add_of_le hge
            obtain ⟨b, hb, hdata⟩ := hbytes j (by omega)
            rw [← Nat.add_assoc, ← Nat.add_assoc]
            exact ⟨b, hb, hdata⟩
        · by_cases hdone : n - cur = 0
          · obtain ⟨j, rfl⟩ := Nat.exists_eq_add_of_le ((Nat.le_add_right va n).trans hle)
            have hj : vaOffset va + j < pageSize := by
              rw [vaOffset_eq] at hcur ⊢
              simp only [vpn, pageSize] at hcur hvpn ⊢
              omega
            have hzero : d.getD j 0 = 0 := by
              rw [List.getD_eq_getElem?_getD, List.getElem?_eq_none (by omega), Option.getD_none]
            exact hzero ▸ (hfirst j hj).extends hok3 hrest (hout j hj)
          · have hend : va + cur + (n - cur) = va + n := by omega
            rw [hend] at htail
            exact htail hdone a hle hvpn hlt'
      · cases hr

/-- **The bss is in place**, from a page boundary on. -/
theorem mapBss_places (hfuel : n ≤ fuel) (hlt : va + n ≤ 2 ^ 48) (hva : va % pageSize = 0) (hok : SpaceOk L m pt l)
    {n' : ℕ} (hr : mapBss L fuel n va pt m = .ok (n', va', pt', m')) (hi : i < n) :
    entry m' pt' (va + i) = zeroEntry L := by
  induction fuel generalizing n va pt m l i with
  | zero => omega
  | succ fuel ih =>
    rw [mapBss, if_neg (by omega)] at hr
    obtain ⟨⟨pt1, m1⟩, hm, hr⟩ := bind_ok hr
    obtain ⟨⟨l1, hok1⟩, -, hent⟩ := map_zero hok hm
    have hadd : addU va (min pageSize n) = va + min pageSize n := Fs.addU_of_lt (by omega)
    simp only [hadd] at hr
    have hrest := (mapBss_extends hok1 hr).2
    simp only [pageSize] at hva hr hrest
    rcases Nat.lt_or_ge i 4096 with hfirst | hlater
    · have hvpn : vpn (va + i) = vpn va := by
        simp only [vpn, pageSize]
        omega
      have hout : vpn va ∉ pagesOf (va + min 4096 n) (n - min 4096 n) := by
        rintro ⟨j, hj, hvpn⟩
        rw [addU, vpn_mod] at hvpn
        simp only [vpn, pageSize] at hvpn
        omega
      rw [entry_vpn m' pt' hvpn, hrest.entry va hout]
      exact hent
    · obtain ⟨j, rfl⟩ := Nat.exists_eq_add_of_le hlater
      have hmin : min 4096 n = 4096 := by omega
      rw [hmin] at hr
      rw [← Nat.add_assoc]
      exact ih (by omega) (by omega) (by simp only [pageSize]; omega) hok1 hr (by omega)

/-! ## A segment -/

/-- what `loadBss` does -/
theorem loadBss_cases (hr : loadBss L h va pt m = .ok (pt', m')) :
    va = addU h.vaddr h.filesz ∧
      ((addU h.vaddr h.memsz ≤ bssStart h ∧ pt' = pt ∧ m' = m) ∨
        ∃ n' va', mapBss L (bssSize h) (bssSize h) (bssStart h) pt m = .ok (n', va', pt', m')) := by
  rw [loadBss] at hr
  by_cases hva : va = addU h.vaddr h.filesz
  · rw [if_neg (not_not.2 hva)] at hr
    subst hva
    have hstart : addU (pageBase (addU h.vaddr h.filesz)) pageSize = bssStart h := rfl
    simp only [hstart] at hr
    by_cases hnext : bssStart h < addU h.vaddr h.memsz
    · have hsub : subU (addU h.vaddr h.memsz) (bssStart h) = bssSize h :=
        Fs.subU_of_le (Nat.le_of_lt hnext) (Nat.mod_lt _ (by decide))
      rw [if_pos hnext] at hr
      obtain ⟨⟨n1, va1, pt1, m1⟩, hmap, hr⟩ := bind_ok hr
      simp only at hr
      split_ifs at hr
      obtain ⟨rfl, rfl⟩ := Prod.mk.inj (Except.ok.inj hr)
      exact ⟨rfl, Or.inr ⟨n1, va1, hsub ▸ hmap⟩⟩
    · rw [if_neg hnext] at hr
      obtain ⟨rfl, rfl⟩ := Prod.mk.inj (Except.ok.inj hr)
      exact ⟨rfl, Or.inl ⟨Nat.le_of_not_lt hnext, rfl, rfl⟩⟩
  · rw [if_pos hva] at hr
    cases hr

/-- what `loadRw` does -/
theorem loadRw_cases (hr : loadRw L c h pt m = .ok (true, pt', m')) :
    ∃ va pt1 m1, loadData c h.filesz h.filesz h.offset h.vaddr pt m = .ok (true, va, pt1, m1) ∧
      loadBss L h va pt1 m1 = .ok (pt', m') := by
  obtain ⟨⟨ok, va, pt1, m1⟩, hdata, hr⟩ := bind_ok hr
  simp only at hr
  cases ok with
  | false => cases hr
  | true =>
    obtain ⟨⟨pt2, m2⟩, hbss, hr⟩ := bind_ok hr
    cases hr
    exact ⟨va, pt1, m1, hdata, hbss⟩

theorem loadBss_extends (hok : SpaceOk L m pt l) (hr : loadBss L h va pt m = .ok (pt', m')) :
    (∃ l', SpaceOk L m' pt' l') ∧ Extends L (pagesOf (bssStart h) (bssSize h)) m pt m' pt' := by
  obtain ⟨-, ⟨-, rfl, rfl⟩ | ⟨n', va', hmap⟩⟩ := loadBss_cases hr
  · exact ⟨⟨l, hok⟩, Extends.refl L _ _ _⟩
  · exact mapBss_extends hok hmap

theorem loadRw_extends (hok : SpaceOk L m pt l) (hr : loadRw L c h pt m = .ok (true, pt', m')) :
    (∃ l', SpaceOk L m' pt' l') ∧ Extends L (Touches h) m pt m' pt' := by
  obtain ⟨va, pt1, m1, hdata, hbss⟩ := loadRw_cases hr
  obtain ⟨⟨l1, hok1⟩, hext1⟩ := loadData_extends hok hdata
  obtain ⟨hok2, hext2⟩ := loadBss_extends hok1 hbss
  exact ⟨hok2, (hext1.mono Set.subset_union_left).trans (hext2.mono Set.subset_union_right)⟩

/-- the zero page holds zeros -/
def Zeroed (L : Layout) (m : PageMem) : Prop := ∀ a, Paging.InPage (zeroPage L) a → m.cell a = 0

theorem Zeroed.extends (h : Zeroed L m) (hok : SpaceOk L m pt l) (he : Extends L V m pt m' pt') : Zeroed L m' :=
  fun a ha => (he.kept.cell _ a hok.plain_zero ha).trans (h a ha)

/-- a segment as it should be in memory -/
structure InPlace (L : Layout) (c : Content) (h : Phdr) (m : PageMem) (pt : ℕ) : Prop where
  mapped : ∀ i < h.memsz, Valid (entry m pt (h.vaddr + i)) ∧ User (entry m pt (h.vaddr + i))
  data : ∀ i < h.filesz, Private L m pt (h.vaddr + i) ∧ ¬ ReadOnly (entry m pt (h.vaddr + i)) ∧
    c.bytes[h.offset + i]? = some (userByte m pt (h.vaddr + i))
  bss : ∀ i, h.filesz ≤ i → i < h.memsz → userByte m pt (h.vaddr + i) = 0
  zero : ∀ i < h.memsz, frame (entry m pt (h.vaddr + i)) = zeroPage L → ReadOnly (entry m pt (h.vaddr + i))

/-- the data does not end at a page boundary with bss behind it -/
def EndsInside (h : Phdr) : Prop := h.memsz = h.filesz ∨ (h.filesz ≠ 0 ∧ (h.vaddr + h.filesz) % pageSize ≠ 0)

instance (h : Phdr) : Decidable (EndsInside h) := inferInstanceAs (Decidable (_ ∨ _))

/-- where the bss loop starts and how far it goes, without wrap -/
theorem bss_range (hsize : h.filesz ≤ h.memsz) (hlt : h.vaddr + h.memsz ≤ 2 ^ 48) :
    bssStart h = pageBase (h.vaddr + h.filesz) + pageSize ∧ bssSize h = h.vaddr + h.memsz - bssStart h := by
  have hfile : addU h.vaddr h.filesz = h.vaddr + h.filesz := Fs.addU_of_lt (by omega)
  have hmem : addU h.vaddr h.memsz = h.vaddr + h.memsz := Fs.addU_of_lt (by omega)
  refine ⟨?_, by rw [bssSize, hmem]⟩
  rw [bssStart, hfile]
  refine Fs.addU_of_lt ?_
  simp only [pageBase, pageSize]
  omega

/-- every byte of the bss is behind the data in its last page, or in a page of the bss loop -/
theorem bss_byte (hsize : h.filesz ≤ h.memsz) (hlt : h.vaddr + h.memsz ≤ 2 ^ 48) (hend : EndsInside h)
    (hi : h.filesz ≤ i) (hi' : i < h.memsz) :
    (h.filesz ≠ 0 ∧ vpn (h.vaddr + i) = vpn (h.vaddr + h.filesz - 1)) ∨
      ∃ j < bssSize h, h.vaddr + i = bssStart h + j ∧ bssStart h % pageSize = 0 ∧ bssStart h + bssSize h ≤ 2 ^ 48 := by
  obtain hsame | ⟨hdata, hinside⟩ := hend
  · omega
  · obtain ⟨hstart, hbss⟩ := bss_range hsize hlt
    rw [hbss, hstart]
    simp only [pageBase, vpn, pageSize] at hinside ⊢
    rcases Nat.lt_or_ge ((h.vaddr + i) / 4096) ((h.vaddr + h.filesz) / 4096 + 1) with hfirst | hlater
    · left
      omega
    · right
      refine ⟨h.vaddr + i - ((h.vaddr + h.filesz) / 4096 * 4096 + 4096), ?_, ?_, ?_, ?_⟩ <;> omega

/-- when the data ends with a page, the page behind it is left out -/
theorem gap_untouched (hsize : h.filesz ≤ h.memsz) (hlt : h.vaddr + h.memsz ≤ 2 ^ 48) (hno : ¬ EndsInside h) :
    h.filesz < h.memsz ∧ vpn (h.vaddr + h.filesz) ∉ Touches h := by
  have hgap : h.filesz < h.memsz ∧ (h.filesz = 0 ∨ (h.vaddr + h.filesz) % pageSize = 0) := by
    unfold EndsInside at hno
    omega
  obtain ⟨hstart, hbss⟩ := bss_range hsize hlt
  refine ⟨hgap.1, ?_⟩
  rintro (⟨i, hi, hvpn⟩ | ⟨i, hi, hvpn⟩)
  · rw [addU, vpn_mod] at hvpn
    simp only [vpn, pageSize] at hgap hvpn
    omega
  · rw [addU, vpn_mod, hstart] at hvpn
    rw [hbss, hstart] at hi
    simp only [vpn, pageBase, pageSize] at hgap hi hvpn
    omega

/-- a segment that has been loaded -/
theorem loadRw_places (hok : SpaceOk L m pt l) (hzero : Zeroed L m) (hsize : h.filesz ≤ h.memsz)
    (hlt : h.vaddr + h.memsz ≤ 2 ^ 48) (hend : EndsInside h) (hr : loadRw L c h pt m = .ok (true, pt', m')) :
    InPlace L c h m' pt' := by
  obtain ⟨va, pt1, m1, hdata, hbss⟩ := loadRw_cases hr
  obtain ⟨⟨l1, hok1⟩, hext1⟩ := loadData_extends hok hdata
  obtain ⟨⟨l2, hok2⟩, hext2⟩ := loadBss_extends hok1 hbss
  have hzero2 := (hzero.extends hok hext1).extends hok1 hext2
  obtain ⟨-, hbytes, htail⟩ := loadData_places le_rfl (by omega) hok hdata
  -- the bss pages lie behind the data
  have hbehind : ∀ a, vpn a = vpn (h.vaddr + h.filesz - 1) ∨ a < h.vaddr + h.filesz → h.filesz ≠ 0 → a < 2 ^ 48 →
      vpn a ∉ pagesOf (bssStart h) (bssSize h) := by
    rintro a ha hdata' hlt' ⟨i, hi, hvpn⟩
    obtain ⟨hstart, hbsz⟩ := bss_range hsize hlt
    rw [addU, vpn_mod] at hvpn
    rw [hbsz] at hi
    rw [hstart] at hi hvpn
    simp only [vpn, pageBase, pageSize] at ha hi hvpn
    omega
  have hdata2 : ∀ i < h.filesz, ∃ b, c.bytes[h.offset + i]? = some b ∧ DataByte L m' pt' (h.vaddr + i) b := by
    intro i hi
    obtain ⟨b, hb, hbyte⟩ := hbytes i hi
    exact ⟨b, hb, hbyte.extends hok1 hext2 (hbehind _ (Or.inr (by omega)) (by omega) (by omega))⟩
  have hbss2 : ∀ i, h.filesz ≤ i → i < h.memsz →
      DataByte L m' pt' (h.vaddr + i) 0 ∨ entry m' pt' (h.vaddr + i) = zeroEntry L := by
    intro i hi hi'
    rcases bss_byte hsize hlt hend hi hi' with ⟨hne, hvpn⟩ | ⟨j, hj, hij, haligned, hle⟩
    · left
      have hbyte := htail hne (h.vaddr + i) (by omega) hvpn (by omega)
      exact hbyte.extends hok1 hext2 (hbehind _ (Or.inl hvpn) hne (by omega))
    · right
      obtain ⟨-, ⟨hnone, -, -⟩ | ⟨n', va', hmap⟩⟩ := loadBss_cases hbss
      · rw [bssSize] at hj
        omega
      · rw [hij]
        exact mapBss_places le_rfl hle haligned hok1 hmap hj
  refine ⟨fun i hi => ?_, fun i hi => ?_, fun i hi hi' => ?_, fun i hi hframe => ?_⟩
  · rcases Nat.lt_or_ge i h.filesz with hin | hout
    · obtain ⟨b, -, hbyte⟩ := hdata2 i hin
      exact ⟨hbyte.own.valid, hbyte.user⟩
    · rcases hbss2 i hout hi with hbyte | hent
      · exact ⟨hbyte.own.valid, hbyte.user⟩
      · rw [hent]
        exact ⟨(zeroEntry_flags L).1, (zeroEntry_flags L).2.1⟩
  · obtain ⟨b, hb, hbyte⟩ := hdata2 i hi
    exact ⟨hbyte.own, hbyte.writable, by rw [hb, hbyte.byte]⟩
  · rcases hbss2 i hi hi' with hbyte | hent
    · exact hbyte.byte
    · have ho := vaOffset_lt (h.vaddr + i)
      have hin : Paging.InPage (zeroPage L) ((zeroPage L + vaOffset (h.vaddr + i)) / 8 * 8) := by
        have hdvd := IsPage.dvd (L := L) (p := zeroPage L) (Or.inr rfl)
        simp only [Paging.InPage, pageSize] at ho ⊢
        omega
      rw [userByte, hent, zeroEntry_frame, byteAt, hzero2 _ hin]
      simp only [byteOf, Nat.zero_div]
      rfl
  · rcases Nat.lt_or_ge i h.filesz with hin | hout
    · obtain ⟨b, -, hbyte⟩ := hdata2 i hin
      exact absurd hframe hbyte.own.owned.1.ne_zeroPage
    · rcases hbss2 i hout hi with hbyte | hent
      · exact absurd hframe hbyte.own.owned.1.ne_zeroPage
      · rw [hent]
        exact (zeroEntry_flags L).2.2

/-- other segments leave it alone -/
theorem InPlace.extends (hp : InPlace L c h m pt) (hok : SpaceOk L m pt l)
    (he : Extends L V m pt m' pt') (hsize : h.filesz ≤ h.memsz) (hout : ∀ i < h.memsz, vpn (h.vaddr + i) ∉ V) :
    InPlace L c h m' pt' := by
  have hent : ∀ i < h.memsz, entry m' pt' (h.vaddr + i) = entry m pt (h.vaddr + i) := fun i hi => he.entry _ (hout i hi)
  refine ⟨fun i hi => ?_, fun i hi => ?_, fun i hi hi' => ?_, fun i hi => ?_⟩
  · rw [hent i hi]
    exact hp.mapped i hi
  · obtain ⟨hown, hro, hbyte⟩ := hp.data i hi
    have hi' := hi.trans_le hsize
    rw [hent i hi', hok.userByte_extends he hown.valid (hout i hi')]
    exact ⟨hown.extends hok he (hout i hi'), hro, hbyte⟩
  · rw [hok.userByte_extends he (hp.mapped i hi').1 (hout i hi')]
    exact hp.bss i hi hi'
  · rw [hent i hi]
    exact hp.zero i hi

end Steps

/-! ## The whole file -/

section File

variable {L : Layout} {c : Content} {d d' : Pgdir} {s s' : Exec.Sys}

/-- a segment that is accepted -/
theorem loadSegment_cases (hr : loadSegment L c h d s = .ok (true, d', s')) :
    (h.flags ≠ pfRw ∧ d'.pt = d.pt ∧ s'.mem = s.mem) ∨
      (h.flags = pfRw ∧ loadRw L c h d.pt s.mem = .ok (true, d'.pt, s'.mem)) := by
  rw [loadSegment] at hr
  by_cases hrx : h.flags = pfRx
  · left
    have hne : h.flags ≠ pfRw := by
      rw [hrx]
      decide
    rw [if_pos hrx] at hr
    obtain ⟨⟨d1, s1⟩, hload, hr⟩ := bind_ok hr
    cases hr
    rw [Exec.loadRx] at hload
    split at hload
    · cases hload
    · cases hload
      exact ⟨hne, rfl, rfl⟩
  · rw [if_neg hrx] at hr
    by_cases hrw : h.flags = pfRw
    · rw [if_pos hrw] at hr
      obtain ⟨⟨ok, pt1, m1⟩, hload, hr⟩ := bind_ok hr
      cases hr
      exact Or.inr ⟨hrw, hload⟩
    · rw [if_neg hrw] at hr
      cases hr

theorem loadSegment_accepts (hok : SpaceOk L s.mem d.pt l) (hload : h.type = ptLoad)
    (hvaddr : h.vaddr < 2 ^ 64) (hr : loadSegment L c h d s = .ok (true, d', s')) : Accepts c h := by
  have hready : Exec.Ready False L d s (Exec.pages c h + 0) (Exec.files h + 0) := ⟨⟨l, hok.spaces, False.elim⟩, False.elim⟩
  have hends := Exec.loadSegment_ends hload hvaddr (Exec.loadSegment_fits hr) hready
  rw [hr] at hends
  exact hends.2.1 rfl

/-- one turn of the loop over the headers, if the file is accepted -/
theorem loadLoop_turn (hok : SpaceOk L s.mem d.pt l)
    (hr : loadLoop L c (n + 1) off d s = .ok (true, d', s')) :
    ∃ h d1 s1, headers c (n + 1) off = h :: headers c n (off + phdrSize) ∧
      loadLoop L c n (off + phdrSize) d1 s1 = .ok (true, d', s') ∧
      ((¬ Loads h ∧ d1.pt = d.pt ∧ s1.mem = s.mem) ∨
        (Loads h ∧ loadRw L c h d.pt s.mem = .ok (true, d1.pt, s1.mem))) := by
  have hoff : off ≤ c.bytes.length := by
    by_contra hno
    rw [loadLoop, inodeRead_eq c (by decide), if_neg hno] at hr
    cases hr
  rw [loadLoop_succ n hoff] at hr
  by_cases hlen : off + phdrSize ≤ c.bytes.length
  · rw [if_pos hlen] at hr
    rw [headers_succ n off hlen]
    set h := Phdr.ofBytes ((c.bytes.drop off).take phdrSize) with hh
    by_cases hload : h.type = ptLoad
    · rw [if_pos hload] at hr
      obtain ⟨⟨ok, d1, s1⟩, hseg, hr⟩ := bind_ok hr
      cases ok with
      | false => cases hr
      | true =>
        have hacc := loadSegment_accepts hok hload (hh ▸ Exec.ofBytes_vaddr_lt _) hseg
        refine ⟨h, d1, s1, by rw [if_pos hacc], hr, ?_⟩
        rcases loadSegment_cases hseg with ⟨hne, hpt, hmem⟩ | ⟨hrw, hrun⟩
        · exact Or.inl ⟨fun hx => hne hx.2, hpt, hmem⟩
        · exact Or.inr ⟨⟨hload, hrw⟩, hrun⟩
    · rw [if_neg hload] at hr
      have hacc : Accepts c h := fun hx => absurd hx hload
      exact ⟨h, d, s, by rw [if_pos hacc], hr, Or.inl ⟨fun hx => hload hx.1, rfl, rfl⟩⟩
  · rw [if_neg hlen] at hr
    cases hr

/-- a turn maps the pages of its segment -/
theorem turn_extends {d1 : Pgdir} {s1 : Exec.Sys} (hok : SpaceOk L s.mem d.pt l)
    (hturn : (¬ Loads h ∧ d1.pt = d.pt ∧ s1.mem = s.mem) ∨ (Loads h ∧ loadRw L c h d.pt s.mem = .ok (true, d1.pt, s1.mem)))
    (hh : h ∈ hs) : (∃ l1, SpaceOk L s1.mem d1.pt l1) ∧ Extends L (TouchedBy hs) s.mem d.pt s1.mem d1.pt := by
  rcases hturn with ⟨-, hpt, hmem⟩ | ⟨hloads, hrun⟩
  · rw [hpt, hmem]
    exact ⟨⟨l, hok⟩, Extends.refl L _ _ _⟩
  · obtain ⟨hok1, hext⟩ := loadRw_extends hok hrun
    exact ⟨hok1, hext.mono fun v hv => ⟨h, hh, hloads, hv⟩⟩

theorem TouchedBy.mono {hs' : List Phdr} (h : hs ⊆ hs') : TouchedBy hs ⊆ TouchedBy hs' :=
  fun _ ⟨x, hx, hv⟩ => ⟨x, h hx, hv⟩

/-- the loop over the headers -/
theorem loadLoop_extends (hok : SpaceOk L s.mem d.pt l)
    (hr : loadLoop L c n off d s = .ok (true, d', s')) :
    (∃ l', SpaceOk L s'.mem d'.pt l') ∧ Extends L (TouchedBy (headers c n off)) s.mem d.pt s'.mem d'.pt := by
  induction n generalizing off d s l with
  | zero =>
    rw [loadLoop] at hr
    cases hr
    exact ⟨⟨l, hok⟩, Extends.refl L _ _ _⟩
  | succ n ih =>
    obtain ⟨h, d1, s1, hheaders, hrest, hturn⟩ := loadLoop_turn hok hr
    rw [hheaders]
    obtain ⟨⟨l1, hok1⟩, hext⟩ := turn_extends hok hturn List.mem_cons_self
    obtain ⟨hok', hext'⟩ := ih hok1 hrest
    exact ⟨hok', hext.trans (hext'.mono (TouchedBy.mono (List.subset_cons_self h _)))⟩

/-- the turn of one segment, and what comes after it -/
theorem loadLoop_splits (hok : SpaceOk L s.mem d.pt l) (hzero : Zeroed L s.mem)
    (hr : loadLoop L c n off d s = .ok (true, d', s'))
    (hsplit : headers c n off = front ++ h :: back) (hloads : Loads h) :
    ∃ pt1 m1 l1 pt2 m2, SpaceOk L m1 pt1 l1 ∧ Zeroed L m1 ∧ loadRw L c h pt1 m1 = .ok (true, pt2, m2) ∧
      Extends L (TouchedBy back) m2 pt2 s'.mem d'.pt := by
  induction n generalizing off d s l front with
  | zero =>
    rw [headers] at hsplit
    cases front <;> cases hsplit
  | succ n ih =>
    obtain ⟨h0, d1, s1, hheaders, hrest, hturn⟩ := loadLoop_turn hok hr
    rw [hheaders] at hsplit
    obtain ⟨⟨l1, hok1⟩, hext⟩ := turn_extends hok hturn (List.mem_singleton_self h0)
    cases front with
    | nil =>
      obtain ⟨rfl, hback⟩ := List.cons.inj hsplit
      rcases hturn with ⟨hno, -⟩ | ⟨-, hrun⟩
      · exact absurd hloads hno
      · refine ⟨d.pt, s.mem, l, d1.pt, s1.mem, hok, hzero, hrun, ?_⟩
        rw [← hback]
        exact (loadLoop_extends hok1 hrest).2
    | cons h1 front =>
      exact ih hok1 (hzero.extends hok hext) hrest (List.cons.inj hsplit).2

/-- a segment after the loop, if those behind it do not lie on its pages -/
theorem loadLoop_places (hok : SpaceOk L s.mem d.pt l) (hzero : Zeroed L s.mem)
    (hr : loadLoop L c n off d s = .ok (true, d', s'))
    (hsplit : headers c n off = front ++ h :: back) (hloads : Loads h) (hsize : h.filesz ≤ h.memsz)
    (hlt : h.vaddr + h.memsz ≤ 2 ^ 48) (hback : ∀ i < h.memsz, vpn (h.vaddr + i) ∉ TouchedBy back) (hend : EndsInside h) :
    InPlace L c h s'.mem d'.pt := by
  obtain ⟨pt1, m1, l1, pt2, m2, hok1, hzero1, hrun, hext⟩ := loadLoop_splits hok hzero hr hsplit hloads
  obtain ⟨⟨l2, hok2⟩, -⟩ := loadRw_extends hok1 hrun
  exact (loadRw_places hok1 hzero1 hsize hlt hend hrun).extends hok2 hext hsize hback

/-- **Data and bss of an accepted file.** A segment with flags RW is in memory after the file has been loaded, if and only if
its data ends inside a page or it has no bss: every page of it is mapped, the bytes are those of the file and then zeros, pages
with data belong to that virtual page alone and can be written, and the zero page is only mapped for reading. No other segment
may lie on its pages, and the zero page must be zero before. -/
theorem segment_in_place {l : List ℕ} (hfree : FreeList L s.mem l) (hzero : Zeroed L s.mem)
    (hload : load L c s = .ok (true, some d, s')) {front back : List Phdr} {h : Phdr}
    (hsplit : fileHeaders c = front ++ h :: back) (hloads : Loads h) (hsize : h.filesz ≤ h.memsz)
    (hlt : h.vaddr + h.memsz ≤ 2 ^ 48) (hother : ∀ i < h.memsz, vpn (h.vaddr + i) ∉ TouchedBy (front ++ back)) :
    InPlace L c h s'.mem d.pt ↔ EndsInside h := by
  rw [load_eq] at hload
  by_cases hheader : Header c
  · rw [if_pos hheader] at hload
    obtain ⟨⟨ok, d1, s1⟩, hloop, hload⟩ := bind_ok hload
    cases hload
    have hok : SpaceOk L ({ s with pgdirs := s.pgdirs + 1 } : Exec.Sys).mem (⟨0, []⟩ : Pgdir).pt l := SpaceOk.empty hfree
    constructor
    · intro hp
      by_contra hno
      obtain ⟨hlt', hgap⟩ := gap_untouched hsize hlt hno
      -- nobody maps the page behind the data, so its entry is still NULL
      have hout : vpn (h.vaddr + h.filesz) ∉ TouchedBy (front ++ h :: back) := by
        rintro ⟨x, hx, hxl, hv⟩
        rcases List.mem_append.1 hx with hf | hb
        · exact hother _ hlt' ⟨x, List.mem_append_left back hf, hxl, hv⟩
        · rcases List.mem_cons.1 hb with rfl | hb
          · exact hgap hv
          · exact hother _ hlt' ⟨x, List.mem_append_right front hb, hxl, hv⟩
      have hent := (loadLoop_extends hok hloop).2.entry _ (hsplit ▸ hout)
      exact valid_ne_zero (hp.mapped _ hlt').1 (hent.trans (entry_of_none (by rw [tableAt, if_pos rfl])))
    · refine loadLoop_places hok hzero hloop hsplit hloads hsize hlt fun i hi hx => hother i hi ?_
      exact TouchedBy.mono (List.subset_append_right front back) hx
  · rw [if_neg hheader] at hload
    cases hload

end File

theorem kinitLoop_below {cur : ℕ} {cell' : ℕ → ℕ} (h : kinitLoop fuel cur cell = some cell') (ha : a < cur) :
    cell' a = cell a := by
  induction fuel generalizing cur cell with
  | zero => cases h
  | succ fuel ih =>
    rw [kinitLoop] at h
    split_ifs at h with hlast
    · rw [← Option.some.inj h, Function.update_of_ne (by omega)]
    · rw [ih h (by omega), Function.update_of_ne (by omega), Function.update_of_ne (by omega)]

/-- `kinit` clears the zero page -/
theorem kinit_zeroed {L : Layout} {m : PageMem} (h : kinit L cell = some m) : Zeroed L m := by
  simp only [kinit, Option.map_eq_some_iff] at h
  obtain ⟨cell', hloop, rfl⟩ := h
  intro a ha
  have hcell : cell' a = _ := kinitLoop_below hloop ha.2
  exact hcell.trans (if_pos ha)

/-- the segments of a file with text and data -/
theorem textAndData_headers : fileHeaders Exec.textAndData =
    [⟨ptLoad, pfRx, 0, 0x400000, 16, 16⟩] ++ ⟨ptLoad, pfRw, 8, 0x600000, 100, 9000⟩ :: [] := by
  decide +kernel

theorem segment_in_place_textAndData : ∃ m d s', kinit Exec.tenPages (fun _ => 0) = some m ∧
    load Exec.tenPages Exec.textAndData (Exec.start m) = .ok (true, some d, s') ∧
    InPlace Exec.tenPages Exec.textAndData ⟨ptLoad, pfRw, 8, 0x600000, 100, 9000⟩ s'.mem d.pt := by
  obtain ⟨m, l, hk, hpages, -, -⟩ := kinit_ok Exec.tenPages fun _ => 0
  have hrun : ((kinit Exec.tenPages fun _ => 0).bind fun m =>
      (load Exec.tenPages Exec.textAndData (Exec.start m)).toOption.map fun r => decide (r.1 = true ∧ r.2.1.isSome)) =
        some true := by
    decide +kernel
  rw [hk, Option.bind_some] at hrun
  obtain ⟨⟨ok, od, s'⟩, hload, rfl, hsome⟩ := ok_computes hrun
  obtain ⟨d, rfl⟩ := Option.isSome_iff_exists.1 hsome
  refine ⟨m, d, s', hk, hload, (segment_in_place (s := Exec.start m) hpages.toFreeList (kinit_zeroed hk) hload
    textAndData_headers ⟨rfl, rfl⟩ (by decide) (by decide) ?_).2 (by decide)⟩
  -- the text is not loaded here
  rintro i - ⟨h, hh, hloads, -⟩
  obtain rfl := List.mem_singleton.1 hh
  exact absurd hloads.2 (by decide)

/-- 16 bytes of bss and no data -/
def onlyBss : Content := ⟨ehdrBytes 64 1 ++ phdrBytes pfRw 0 0x600000 0 16, by decide +kernel⟩

/-- a page of data and 16 bytes of bss, the data being the file itself from its start -/
def fullPage : Content :=
  ⟨ehdrBytes 64 1 ++ phdrBytes pfRw 0 0x600000 4096 4112 ++ List.replicate 4096 0, by decide +kernel⟩

/-- **The page where the bss starts is missing**, when there is no data and when the data fills its last page. -/
theorem first_bss_page_missing :
    (∃ m d s', kinit Exec.tenPages (fun _ => 0) = some m ∧ load Exec.tenPages onlyBss (Exec.start m) = .ok (true, some d, s') ∧
      fileHeaders onlyBss = [⟨ptLoad, pfRw, 0, 0x600000, 0, 16⟩] ∧ entry s'.mem d.pt 0x600000 = 0) ∧
    ∃ m d s', kinit Exec.tenPages (fun _ => 0) = some m ∧ load Exec.tenPages fullPage (Exec.start m) = .ok (true, some d, s') ∧
      fileHeaders fullPage = [⟨ptLoad, pfRw, 0, 0x600000, 4096, 4112⟩] ∧ entry s'.mem d.pt 0x601000 = 0 := by
  obtain ⟨m, l, hk, -⟩ := kinit_ok Exec.tenPages fun _ => 0
  have hrun : ∀ x : Content × ℕ, x = (onlyBss, 0x600000) ∨ x = (fullPage, 0x601000) →
      ((kinit Exec.tenPages fun _ => 0).bind fun m =>
        (load Exec.tenPages x.1 (Exec.start m)).toOption.map fun r => decide (r.1 = true ∧ r.2.1.isSome ∧
          entry r.2.2.mem (r.2.1.getD ⟨0, []⟩).pt x.2 = 0)) = some true := by
    rintro x (rfl | rfl)
    · decide +kernel
    · decide +kernel
  have hfinds : ∀ x : Content × ℕ, x = (onlyBss, 0x600000) ∨ x = (fullPage, 0x601000) →
      ∃ d s', load Exec.tenPages x.1 (Exec.start m) = .ok (true, some d, s') ∧ entry s'.mem d.pt x.2 = 0 := by
    intro x hx
    have hx := hrun x hx
    rw [hk, Option.bind_some] at hx
    obtain ⟨⟨ok, od, s'⟩, hload, rfl, hsome, hent⟩ := ok_computes hx
    obtain ⟨d, rfl⟩ := Option.isSome_iff_exists.1 hsome
    exact ⟨d, s', hload, hent⟩
  obtain ⟨d1, s1, hload1, hent1⟩ := hfinds (onlyBss, 0x600000) (Or.inl rfl)
  obtain ⟨d2, s2, hload2, hent2⟩ := hfinds (fullPage, 0x601000) (Or.inr rfl)
  exact ⟨⟨m, d1, s1, hk, hload1, by decide +kernel, hent1⟩, m, d2, s2, hk, hload2, by decide +kernel, hent2⟩

end OsKernel.Kernel.ExecData
