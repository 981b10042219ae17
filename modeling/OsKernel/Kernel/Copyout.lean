/-
`copyout` (`kernel/pt.c`): bytes are copied to user addresses of a page table that need not be the current one.

The loop takes `min(len, PAGE_SIZE - offset)` bytes in each turn, where len is the whole length and not what is left of it. So a
copy that crosses into a page and ends inside it goes on: to the end of the page, or for len bytes. Source bytes behind
p[0..len) are read and stored there, and the count that is compared with len at the end is too big.

`size` is the number of bytes taken from the source, one after the other from its start. Results:
- `copyout_spec`: whatever is copied is copied to the right place and nothing else is touched, and what is copied is at least len
  bytes and ends in the page where the len bytes end;
- `copyout_exact`: it is exactly the len bytes if and only if they lie in one page or end at the end of a page;
- `copyout_overruns`: a copy of eight bytes across a page boundary.
-/
import OsKernel.Kernel.UserMemory

namespace OsKernel.Kernel.Copyout

open OsKernel.Mem OsKernel.Radix OsKernel.Words OsKernel.Fallible OsKernel.Kernel.PageTable OsKernel.Kernel.UserMemory
open OsKernel.Fs (addU)
open OsKernel.Kernel.Paging (vaOffset_lt valid_ne_zero)

/-! ## The function -/

/-- the entry of va, with a page behind it: `get_pte`, and a new page if the entry is NULL -/
def ensurePage (pt va : ℕ) (m : PageMem) : Option (ℕ × ℕ × PageMem) :=
  (getPte true pt va m).bind fun r =>
    if r.2.2.cell r.1 = 0 then
      (kallocPage r.2.2).map fun k => (r.1, r.2.1, setPte r.1 (k2p k.1 ||| pteUserData) k.2)
    else some r

/-- n bytes of the source from index i on -/
def bytesOf (src : ℕ → UInt8) (i n : ℕ) : List UInt8 := (List.range n).map fun j => src (i + j)

/-- the loop: size, the root and memory; `fuel` bounds its turns -/
def copyoutLoop (src : ℕ → UInt8) (len : ℕ) : ℕ → ℕ → ℕ → ℕ → PageMem → Option (ℕ × ℕ × PageMem)
  | 0, size, _, pt, m => some (size, pt, m)
  | fuel + 1, size, va, pt, m =>
    if size < len then
      let offset := vaOffset va
      let thisSize := min len (pageSize - offset)
      (ensurePage pt va m).bind fun r =>
        let cell := storeBytes r.2.2.cell (frame (r.2.2.cell r.1) + offset) (bytesOf src size thisSize)
        copyoutLoop src len fuel (size + thisSize) (addU va thisSize) r.2.1 { r.2.2 with cell }
    else some (size, pt, m)

structure Result where
  ret : ℤ
  /-- the number of bytes taken from the source -/
  size : ℕ
  pt : ℕ
  mem : PageMem

/-- `copyout(pd, va, p, len)`, src being the bytes from p on; none when there is no page left -/
def copyout (src : ℕ → UInt8) (len va pt : ℕ) (m : PageMem) : Option Result :=
  (copyoutLoop src len len 0 va pt m).map fun r => ⟨if r.1 = len then 0 else -1, r.1, r.2.1, r.2.2⟩

/-! ## Pages that can be written -/

/-- va is not mapped, or to a page of its own -/
def Ready (L : Layout) (m : PageMem) (pt va : ℕ) : Prop := entry m pt va = 0 ∨ Private L m pt va

section Ensure

variable {L : Layout} {m m' : PageMem} {pt pt' va : ℕ} {l : List ℕ}

theorem Ready.kept (h : Ready L m pt va) (hk : Kept L m pt m' pt') (hent : ∀ va', entry m' pt' va' = entry m pt va') :
    Ready L m' pt' va := by
  rcases h with h0 | hp
  · exact Or.inl ((hent va).trans h0)
  · exact Or.inr (hp.kept hk hent)

/-- what a turn can rely on: the address has a page of its own, and the rest is as it was -/
structure Ensured (L : Layout) (m : PageMem) (pt va : ℕ) (pte : ℕ) (m' : PageMem) (pt' : ℕ) : Prop where
  kept : Kept L m pt m' pt'
  own : Private L m' pt' va
  cell : m'.cell pte = entry m' pt' va
  entry : ∀ va', PageTable.entry m pt va' ≠ 0 ∨ vpn va' ≠ vpn va → PageTable.entry m' pt' va' = PageTable.entry m pt va'
  ready : ∀ va', Ready L m pt va' → Ready L m' pt' va'

/-- a new page is put behind the entry of va -/
theorem SpaceOk.install (h : SpaceOk L m pt l) {t : ℕ} (ht : tableAt tableOf m.cell pt (path va) = some t)
    (h0 : PageTable.entry m pt va = 0) {k : ℕ × PageMem} (hk : kallocPage m = some k) :
    ∃ l', l.length = l'.length + 1 ∧
      SpaceOk L (setPte (t + 8 * vaPart3 va) (k2p k.1 ||| pteUserData) k.2) pt l' ∧
      Ensured L m pt va (t + 8 * vaPart3 va) (setPte (t + 8 * vaPart3 va) (k2p k.1 ||| pteUserData) k.2) pt := by
  obtain ⟨pg, m1⟩ := k
  obtain ⟨l', rfl, hok1, hkept1, hent1, hown, hplain, hcell, hfresh⟩ := h.kalloc hk
  have hpage : IsPage L pg := hplain.use.isPage
  have hframe : frame (k2p pg ||| pteUserData) = pg := hpage.frame_eq (by decide)
  have hvalid : Valid (k2p pg ||| pteUserData) := (Paging.flags_rw hpage).1
  have ht1 : tableAt tableOf m1.cell pt (path va) = some t := by rw [hcell]; exact ht
  obtain ⟨hok2, hkept2, hent2⟩ := hok1.setPte ht1 (e := k2p pg ||| pteUserData) fun _ => hframe.symm ▸ hplain
  have hself : PageTable.entry (setPte (t + 8 * vaPart3 va) (k2p pg ||| pteUserData) m1) pt va = k2p pg ||| pteUserData := by
    rw [hent2, if_pos rfl]
  -- no other entry names the new page
  have hnew : ∀ va', Valid (PageTable.entry m pt va') → frame (PageTable.entry m pt va') ≠ pg := fun va' hv hf =>
    hfresh (hf ▸ h.mapped va' hv)
  have hother : ∀ va', vpn va' ≠ vpn va →
      PageTable.entry (setPte (t + 8 * vaPart3 va) (k2p pg ||| pteUserData) m1) pt va' = PageTable.entry m pt va' := by
    intro va' hne
    rw [hent2, if_neg hne, hent1]
  have hpriv : Private L (setPte (t + 8 * vaPart3 va) (k2p pg ||| pteUserData) m1) pt va := by
    refine ⟨hself.symm ▸ hvalid, by rw [hself, hframe]; exact hkept2.owned hown, fun va' hv hf => ?_⟩
    by_contra hne
    rw [hother va' hne] at hv hf
    rw [hself, hframe] at hf
    exact hnew va' hv hf
  have hentry : ∀ va', PageTable.entry m pt va' ≠ 0 ∨ vpn va' ≠ vpn va →
      PageTable.entry (setPte (t + 8 * vaPart3 va) (k2p pg ||| pteUserData) m1) pt va' = PageTable.entry m pt va' := by
    intro va' hx
    refine hother va' fun hvpn => ?_
    rcases hx with hx | hx
    · exact hx (by rw [entry_vpn m pt hvpn, h0])
    · exact hx hvpn
  refine ⟨l', rfl, hok2, hkept1.trans hkept2, hpriv, ?_, hentry, fun va' hr => ?_⟩
  · rw [hself]
    exact Function.update_self ..
  · by_cases hvpn : vpn va' = vpn va
    · exact Or.inr (hpriv.same_page hvpn)
    · rcases hr with hr | hr
      · exact Or.inl (by rw [hother va' hvpn, hr])
      · right
        have he := hother va' hvpn
        refine ⟨he.symm ▸ hr.valid, ?_, fun va'' hv hf => ?_⟩
        · rw [he]
          exact (hkept1.trans hkept2).owned hr.owned
        · rw [he] at hf
          by_cases hvpn' : vpn va'' = vpn va
          · rw [entry_vpn _ pt hvpn', hself, hframe] at hf
            exact absurd hf.symm (hnew va' hr.valid)
          · rw [hother va'' hvpn'] at hv hf
            exact hr.sole va'' hv hf

theorem ensurePage_spec (h : SpaceOk L m pt l) (hr : Ready L m pt va) {pte : ℕ}
    (he : ensurePage pt va m = some (pte, pt', m')) :
    (∃ l', SpaceOk L m' pt' l') ∧ Ensured L m pt va pte m' pt' := by
  obtain ⟨⟨pte1, pt1, m1⟩, hg, he⟩ := Option.bind_eq_some_iff.1 he
  obtain ⟨l1, t, hok1, hkept1, hent1, ht1, rfl⟩ := h.getPte hg
  have hcell : m1.cell (t + 8 * vaPart3 va) = entry m1 pt1 va := (entry_of_table ht1).symm
  simp only [hcell] at he
  by_cases h0 : entry m1 pt1 va = 0
  · rw [if_pos h0] at he
    obtain ⟨k, hk, he⟩ := Option.map_eq_some_iff.1 he
    obtain ⟨hpte, hrest⟩ := Prod.mk.inj he
    obtain ⟨rfl, rfl⟩ := Prod.mk.inj hrest
    subst hpte
    obtain ⟨l', -, hok2, hens⟩ := SpaceOk.install hok1 ht1 h0 hk
    refine ⟨⟨l', hok2⟩, hkept1.trans hens.kept, hens.own, hens.cell, fun va' hx => ?_, fun va' hr' => ?_⟩
    · rw [hens.entry va' (by rw [hent1]; exact hx), hent1]
    · exact hens.ready va' (hr'.kept hkept1 hent1)
  · rw [if_neg h0] at he
    obtain ⟨hpte, hrest⟩ := Prod.mk.inj (Option.some.inj he)
    obtain ⟨rfl, rfl⟩ := Prod.mk.inj hrest
    subst hpte
    have hpriv : Private L m pt va := hr.resolve_left (by rw [← hent1]; exact h0)
    exact ⟨⟨l1, hok1⟩, hkept1, hpriv.kept hkept1 hent1, hcell, fun va' _ => hent1 va', fun va' hr' => hr'.kept hkept1 hent1⟩

/-- a page that is mapped needs nothing -/
theorem ensurePage_mapped (h : entry m pt va ≠ 0) :
    ∃ pte, ensurePage pt va m = some (pte, pt, m) ∧ m.cell pte = entry m pt va := by
  obtain ⟨t, ht⟩ : ∃ t, tableAt tableOf m.cell pt (path va) = some t :=
    Option.ne_none_iff_exists'.1 fun hnone => h (entry_of_none hnone)
  refine ⟨t + 8 * vaPart3 va, ?_, (entry_of_table ht).symm⟩
  have hcell : m.cell (t + 8 * vaPart3 va) ≠ 0 := by rw [← entry_of_table ht]; exact h
  simp only [ensurePage, (getPte_of_table ht).1, Option.bind_some, if_neg hcell]

/-- any other takes five pages at most -/
theorem ensurePage_total (h : SpaceOk L m pt l) (va : ℕ) (hl : 5 ≤ l.length) :
    ∃ r, ensurePage pt va m = some r ∧ r.2.2.cnt ≤ m.cnt + 5 := by
  obtain ⟨⟨pte1, pt1, m1⟩, hg, hcnt⟩ := getPte_total h.spaces () va (by omega : 4 ≤ l.length)
  obtain ⟨l1, t, hok1, -⟩ := h.getPte hg
  have hlen := h.spaces.free.cnt
  have hlen1 := hok1.spaces.free.cnt
  simp only at hcnt
  obtain ⟨k, hk, hcntk⟩ := kallocPage_total hok1.spaces (by omega : 1 ≤ l1.length)
  rw [ensurePage, hg, Option.bind_some]
  simp only [hk, Option.map_some]
  split_ifs
  · exact ⟨_, rfl, by simp only [setPte]; omega⟩
  · exact ⟨_, rfl, by simp only; omega⟩

/-- **A page for va.** With a page behind va or five free ones there is one, and at most five have been taken. -/
theorem ensurePage_yields (h : SpaceOk L m pt l) (hr : Ready L m pt va) :
    Yields (entry m pt va ≠ 0 ∨ 5 ≤ l.length)
      (fun r => ∃ l', SpaceOk L r.2.2 r.2.1 l' ∧ Ensured L m pt va r.1 r.2.2 r.2.1 ∧ (5 ≤ l.length → l.length ≤ l'.length + 5))
      (ensurePage pt va m) := by
  cases hx : ensurePage pt va m with
  | none =>
    intro hc
    rcases hc with hc | hc
    · obtain ⟨pte, he, -⟩ := ensurePage_mapped hc
      rw [hx] at he
      cases he
    · obtain ⟨r, he, -⟩ := ensurePage_total h va hc
      rw [hx] at he
      cases he
  | some r =>
    obtain ⟨pte, pt', m'⟩ := r
    obtain ⟨⟨l', hok'⟩, hens⟩ := ensurePage_spec h hr hx
    refine ⟨l', hok', hens, fun hl => ?_⟩
    obtain ⟨r, he, hcnt⟩ := ensurePage_total h va hl
    rw [hx] at he
    have hlen := h.spaces.free.cnt
    have hlen' := hok'.spaces.free.cnt
    rw [← Option.some.inj he] at hcnt
    simp only at hcnt
    omega

end Ensure

/-! ## One turn -/

/-- n bytes of the source have been copied to va and nothing else has been touched -/
structure Copied (L : Layout) (src : ℕ → UInt8) (va n : ℕ) (m : PageMem) (pt : ℕ) (m' : PageMem) (pt' : ℕ) : Prop where
  bytes : ∀ i < n, Valid (entry m' pt' (va + i)) ∧ userByte m' pt' (va + i) = src i
  rest : ∀ va' < 2 ^ 48, Valid (entry m pt va') → ¬ (va ≤ va' ∧ va' < va + n) → userByte m' pt' va' = userByte m pt va'
  entry : ∀ va', PageTable.entry m pt va' ≠ 0 ∨ (∀ i < n, vpn va' ≠ vpn (va + i)) →
    PageTable.entry m' pt' va' = PageTable.entry m pt va'
  ready : ∀ va', Ready L m pt va' → Ready L m' pt' va'

section Turn

variable {L : Layout} {src : ℕ → UInt8} {m m1 m2 : PageMem} {pt pt1 pt2 va n k : ℕ} {l l2 : List ℕ}

theorem Copied.zero (L : Layout) (src : ℕ → UInt8) (va : ℕ) (m : PageMem) (pt : ℕ) : Copied L src va 0 m pt m pt :=
  ⟨fun _ hi => absurd hi (Nat.not_lt_zero _), fun _ _ _ _ => rfl, fun _ _ => rfl, fun _ h => h⟩

theorem bytesOf_length (src : ℕ → UInt8) (i n : ℕ) : (bytesOf src i n).length = n := by
  rw [bytesOf, List.length_map, List.length_range]

theorem bytesOf_getD (src : ℕ → UInt8) (i : ℕ) {n j : ℕ} (d : UInt8) (hj : j < n) : (bytesOf src i n).getD j d = src (i + j) := by
  simp [bytesOf, List.getD, hj]

/-- addresses of one page are told apart by their offsets -/
theorem same_page {a b : ℕ} (ha : a < 2 ^ 48) (hb : b < 2 ^ 48) (h : vpn a = vpn b) : a + vaOffset b = b + vaOffset a := by
  rw [vaOffset_eq, vaOffset_eq]
  simp only [vpn, pageSize] at h ⊢
  omega

/-- an address behind va in its page -/
theorem vpn_add {i : ℕ} (h : vaOffset va + i < pageSize) : vpn (va + i) = vpn va ∧ vaOffset (va + i) = vaOffset va + i := by
  rw [vaOffset_eq] at h
  rw [vaOffset_eq, vaOffset_eq]
  simp only [vpn, pageSize] at h ⊢
  omega

/-- one turn of the loop: k more bytes, to the page of va + n -/
theorem Copied.turn (h : Copied L src va n m pt m1 pt1) (hok1 : SpaceOk L m1 pt1 l) {pte : ℕ}
    (he : Ensured L m1 pt1 (va + n) pte m2 pt2) (hok2 : SpaceOk L m2 pt2 l2) (hk : vaOffset (va + n) + k ≤ pageSize)
    (hpos : 0 < k) (hlt : va + n + k ≤ 2 ^ 48) {cell' : ℕ → ℕ}
    (hcell : cell' = storeBytes m2.cell (frame (m2.cell pte) + vaOffset (va + n)) (bytesOf src n k)) :
    SpaceOk L { m2 with cell := cell' } pt2 l2 ∧ Copied L src va (n + k) m pt { m2 with cell := cell' } pt2 ∧
      ∀ va', PageTable.entry { m2 with cell := cell' } pt2 va' = PageTable.entry m2 pt2 va' := by
  have hplain := hok2.mapped (va + n) he.own.valid
  have hpage : ∀ a, ¬ Paging.InPage (frame (PageTable.entry m2 pt2 (va + n))) a → cell' a = m2.cell a := by
    intro a ha
    rw [hcell, he.cell]
    exact storeBytes_page hplain.use.isPage (by rw [bytesOf_length]; exact hk) ha
  obtain ⟨hok3, -, hent3, hoff⟩ := hok2.store hplain hpage
  -- a byte that was there before the turn
  have hold : ∀ va' < 2 ^ 48, Valid (PageTable.entry m1 pt1 va') → ¬ (va + n ≤ va' ∧ va' < va + n + k) →
      userByte { m2 with cell := cell' } pt2 va' = userByte m1 pt1 va' := by
    intro va' hva' hv hout
    have he2 : PageTable.entry m2 pt2 va' = PageTable.entry m1 pt1 va' := he.entry va' (Or.inl (valid_ne_zero hv))
    have hv2 : Valid (PageTable.entry m2 pt2 va') := by rw [he2]; exact hv
    rw [← hok1.userByte_kept he.kept hv he2, userByte, hent3, userByte]
    by_cases hx : frame (PageTable.entry m2 pt2 va') = frame (PageTable.entry m2 pt2 (va + n))
    · have hsame := same_page hva' (by omega : va + n < 2 ^ 48) (he.own.sole va' hv2 hx)
      rw [hx, hcell, he.cell, byteAt_storeBytes]
      by_cases hle : vaOffset (va + n) ≤ vaOffset va'
      · rw [if_pos (by omega), List.getD_eq_getElem?_getD, List.getElem?_eq_none (by rw [bytesOf_length]; omega), Option.getD_none]
      · rw [if_neg (by omega)]
    · have hin : Paging.InPage (frame (PageTable.entry m2 pt2 va')) ((frame (PageTable.entry m2 pt2 va') + vaOffset va') / 8 * 8) := by
        have hdvd := (hok2.mapped va' hv2).use.isPage.dvd
        have ho := vaOffset_lt va'
        simp only [Paging.InPage, pageSize] at ho ⊢
        omega
      exact byteAt_congr (hoff _ _ (hok2.mapped va' hv2) hx hin)
  -- a byte of this turn
  have hnew : ∀ j < k, Valid (PageTable.entry m2 pt2 (va + n + j)) ∧
      userByte { m2 with cell := cell' } pt2 (va + n + j) = src (n + j) := by
    intro j hj
    obtain ⟨hvpn, hoffset⟩ : vpn (va + n + j) = vpn (va + n) ∧ _ := vpn_add (by omega)
    have hentry : PageTable.entry m2 pt2 (va + n + j) = PageTable.entry m2 pt2 (va + n) := entry_vpn m2 pt2 hvpn
    refine ⟨by rw [hentry]; exact he.own.valid, ?_⟩
    rw [userByte, hent3, hentry, hoffset, hcell, he.cell, byteAt_storeBytes, if_pos (by omega)]
    have hidx : frame (PageTable.entry m2 pt2 (va + n)) + (vaOffset (va + n) + j) -
        (frame (PageTable.entry m2 pt2 (va + n)) + vaOffset (va + n)) = j := by omega
    rw [hidx, bytesOf_getD _ _ _ hj]
  refine ⟨hok3, ⟨fun i hi => ?_, fun va' hva' hv hout => ?_, fun va' hx => ?_, fun va' hr => ?_⟩, hent3⟩
  · rw [hent3]
    rcases Nat.lt_or_ge i n with hin | hni
    · obtain ⟨hv, hbyte⟩ := h.bytes i hin
      refine ⟨?_, ?_⟩
      · rw [he.entry _ (Or.inl (valid_ne_zero hv))]; exact hv
      · rw [hold (va + i) (by omega) hv (by omega), hbyte]
    · obtain ⟨j, rfl⟩ := Nat.exists_eq_add_of_le hni
      rw [← Nat.add_assoc]
      exact hnew j (by omega)
  · have he1 : PageTable.entry m1 pt1 va' = PageTable.entry m pt va' := h.entry va' (Or.inl (valid_ne_zero hv))
    rw [hold va' hva' (by rw [he1]; exact hv) (by omega)]
    exact h.rest va' hva' hv (by omega)
  · have he1 : PageTable.entry m1 pt1 va' = PageTable.entry m pt va' :=
      h.entry va' (hx.imp id fun hne i hi => hne i (by omega))
    have hx1 : PageTable.entry m1 pt1 va' ≠ 0 ∨ vpn va' ≠ vpn (va + n) := by
      rw [he1]
      exact hx.imp id fun hne => hne n (by omega)
    rw [hent3, he.entry va' hx1, he1]
  · rcases he.ready va' (h.ready va' hr) with h0 | hp
    · exact Or.inl ((hent3 va').trans h0)
    · refine Or.inr ⟨by rw [hent3]; exact hp.valid, by rw [hent3]; exact hp.owned, fun va'' hv hf => ?_⟩
      rw [hent3] at hv
      rw [hent3, hent3] at hf
      exact hp.sole va'' hv hf

end Turn

/-! ## The loop -/

/-- the pages from lo to hi are mapped, or there are five free ones for each -/
def Enough (m : PageMem) (pt : ℕ) (l : List ℕ) (lo hi : ℕ) : Prop :=
  (∀ a, lo ≤ a → a < hi → entry m pt a ≠ 0) ∨ 5 * ((hi + (pageSize - 1)) / pageSize - lo / pageSize) ≤ l.length

/-- size bytes have been taken from the source -/
structure Progress (L : Layout) (src : ℕ → UInt8) (len va size : ℕ) (m : PageMem) (pt : ℕ) (m' : PageMem) (pt' : ℕ) : Prop where
  copied : Copied L src va size m pt m' pt'
  /-- the page where the len bytes end is the last one -/
  within : va + size ≤ (va + len + (pageSize - 1)) / pageSize * pageSize
  /-- one page is done in one turn; otherwise a turn ends with a page, or it is the last one and takes len bytes -/
  stops : size = 0 ∨ (va % pageSize + len ≤ pageSize ∧ size = len) ∨
    (pageSize < va % pageSize + len ∧ ((va + size) % pageSize = 0 ∨ len < size))

section Loop

variable {L : Layout} {src : ℕ → UInt8} {m0 m m' : PageMem} {pt0 pt pt' len va size k : ℕ} {l l' : List ℕ}

theorem Progress.start (L : Layout) (src : ℕ → UInt8) (len va : ℕ) (m : PageMem) (pt : ℕ) :
    Progress L src len va 0 m pt m pt := by
  refine ⟨Copied.zero L src va m pt, ?_, Or.inl rfl⟩
  simp only [pageSize]
  omega

/-- the numbers of a turn -/
theorem turn_numbers (hlt : va + len ≤ 2 ^ 48) (hsize : size < len) (hk : k = min len (pageSize - vaOffset (va + size))) :
    0 < k ∧ vaOffset (va + size) + k ≤ pageSize ∧ va + (size + k) ≤ (va + len + (pageSize - 1)) / pageSize * pageSize ∧
      va + size + k ≤ 2 ^ 48 := by
  have ho := vaOffset_lt (va + size)
  rw [vaOffset_eq] at ho hk ⊢
  simp only [pageSize] at ho hk ⊢
  omega

/-- what was enough before a turn is enough after it -/
theorem Enough.turn (h : Enough m pt l (va + size) (va + len)) (hsize : size < len)
    (hk : k = min len (pageSize - vaOffset (va + size))) (hmore : size + k < len)
    (hent : ∀ va', entry m pt va' ≠ 0 → entry m' pt' va' = entry m pt va') (hl : 5 ≤ l.length → l.length ≤ l'.length + 5) :
    Enough m' pt' l' (va + (size + k)) (va + len) := by
  rcases h with hall | hfree
  · refine Or.inl fun a hlo hhi => ?_
    have ha := hall a (by omega) hhi
    rw [hent a ha]
    exact ha
  · right
    rw [vaOffset_eq] at hk
    simp only [pageSize] at hfree hk ⊢
    omega

theorem Progress.turn (h : Progress L src len va size m0 pt0 m pt) (hlt : va + len ≤ 2 ^ 48) (hsize : size < len)
    (hk : k = min len (pageSize - vaOffset (va + size)))
    (hc : Copied L src va (size + k) m0 pt0 m' pt') : Progress L src len va (size + k) m0 pt0 m' pt' := by
  refine ⟨hc, (turn_numbers hlt hsize hk).2.2.1, ?_⟩
  have hstops := h.stops
  rw [vaOffset_eq] at hk
  simp only [pageSize] at hstops hk ⊢
  omega

/-- at the end, exactly len bytes have been taken if they lie in one page or end with one -/
theorem Progress.exact_iff (h : Progress L src len va size m0 pt0 m pt) (hle : len ≤ size) :
    size = len ↔ va % pageSize + len ≤ pageSize ∨ (va + len) % pageSize = 0 := by
  have hwithin := h.within
  have hstops := h.stops
  simp only [pageSize] at hwithin hstops ⊢
  omega

/-- **The loop.** It is left with at least len bytes taken. -/
theorem copyoutLoop_yields {fuel : ℕ} (hfuel : len ≤ size + fuel) (hlt : va + len ≤ 2 ^ 48)
    (hready : ∀ a, va ≤ a → a < va + len → Ready L m0 pt0 a) (hok : SpaceOk L m pt l)
    (hp : Progress L src len va size m0 pt0 m pt) :
    Yields (size < len → Enough m pt l (va + size) (va + len))
      (fun r => len ≤ r.1 ∧ (∃ l', SpaceOk L r.2.2 r.2.1 l') ∧ Progress L src len va r.1 m0 pt0 r.2.2 r.2.1)
      (copyoutLoop src len fuel size (va + size) pt m) := by
  induction fuel generalizing size m pt l with
  | zero => exact ⟨hfuel, ⟨l, hok⟩, hp⟩
  | succ fuel ih =>
    rw [copyoutLoop]
    by_cases hsize : size < len
    · rw [if_pos hsize]
      obtain ⟨k, hk⟩ : ∃ k, k = min len (pageSize - vaOffset (va + size)) := ⟨_, rfl⟩
      obtain ⟨hpos, hpage, hwithin, hend⟩ := turn_numbers hlt hsize hk
      have hstep := ensurePage_yields hok (hp.copied.ready _ (hready (va + size) (by omega) (by omega)))
      refine (hstep.of_imp fun hc => ?_).bind fun r hr => ?_
      · rcases hc hsize with hall | hfree
        · exact Or.inl (hall _ le_rfl (by omega))
        · right
          simp only [pageSize] at hfree
          omega
      · obtain ⟨pte, pt1, m1⟩ := r
        obtain ⟨l1, hok1, hens, hl1⟩ := hr
        obtain ⟨hok2, hcop, hent⟩ := hp.copied.turn hok hens hok1 hpage hpos hend rfl
        have hnext : addU (va + size) k = va + (size + k) := by
          rw [addU, Nat.mod_eq_of_lt (by omega), Nat.add_assoc]
        simp only [← hk, hnext]
        refine (ih (by omega) hok2 (hp.turn hlt hsize hk hcop)).of_imp fun hc hmore => ?_
        refine (hc hsize).turn hsize hk hmore (fun va' hne => ?_) hl1
        exact (hent va').trans (hens.entry va' (Or.inl hne))
    · rw [if_neg hsize]
      exact ⟨Nat.le_of_not_lt hsize, ⟨l, hok⟩, hp⟩

end Loop

/-! ## The whole copy -/

section Whole

variable {L : Layout} {m : PageMem} {pt len va : ℕ} {l : List ℕ}

/-- **copyout.** size bytes, at least len, are copied from the start of the source to va on and nothing else is touched. The
last page written to is the one where the len bytes end. -/
theorem copyout_spec (src : ℕ → UInt8) (hok : SpaceOk L m pt l) (hlt : va + len ≤ 2 ^ 48)
    (hready : ∀ a, va ≤ a → a < va + len → Ready L m pt a) :
    Yields (Enough m pt l va (va + len))
      (fun r => r.ret = (if r.size = len then 0 else -1) ∧ len ≤ r.size ∧ (∃ l', SpaceOk L r.mem r.pt l') ∧
        Progress L src len va r.size m pt r.mem r.pt)
      (copyout src len va pt m) := by
  have hloop := copyoutLoop_yields (by omega : len ≤ 0 + len) hlt hready hok (Progress.start L src len va m pt)
  rw [copyout, Option.map_eq_bind]
  exact (hloop.of_imp fun hc _ => hc).bind fun r hr => ⟨rfl, hr⟩

/-- a copy inside one page that is mapped, wherever: no page is taken and no entry changes -/
theorem copyout_mapped (src : ℕ → UInt8) (hok : SpaceOk L m pt l) (hv : Valid (entry m pt va)) (hpos : 0 < len)
    (hpage : vaOffset va + len ≤ pageSize) :
    ∃ m', copyout src len va pt m = some ⟨0, len, pt, m'⟩ ∧ SpaceOk L m' pt l ∧ ∀ a, entry m' pt a = entry m pt a := by
  obtain ⟨n, rfl⟩ : ∃ n, len = n + 1 := ⟨len - 1, by omega⟩
  obtain ⟨pte, he, hcell⟩ := ensurePage_mapped (valid_ne_zero hv)
  have hplain := hok.mapped va hv
  have hstore : ∀ a, ¬ Paging.InPage (frame (m.cell pte)) a →
      storeBytes m.cell (frame (m.cell pte) + vaOffset va) (bytesOf src 0 (n + 1)) a = m.cell a := by
    intro a ha
    rw [hcell] at ha ⊢
    exact storeBytes_page hplain.use.isPage (by rw [bytesOf_length]; exact hpage) ha
  obtain ⟨hok', -, hent, -⟩ := hok.store (hcell.symm ▸ hplain) hstore
  have hmin : min (n + 1) (pageSize - vaOffset va) = n + 1 := by omega
  refine ⟨_, ?_, hok', hent⟩
  rw [copyout, copyoutLoop, if_pos hpos]
  simp only [he, Option.bind_some, hmin, Nat.zero_add]
  -- the second turn, if there is fuel for one, finds nothing left
  have hdone : ∀ fuel va' pt' m', copyoutLoop src (n + 1) fuel (n + 1) va' pt' m' = some (n + 1, pt', m') := by
    intro fuel va' pt' m'
    cases fuel with
    | zero => rfl
    | succ fuel => rw [copyoutLoop, if_neg (Nat.lt_irrefl _)]
  rw [hdone]
  simp only [Option.map_some, if_true]

/-- exactly p[0..len) has been read and stored -/
structure CopiesExactly (src : ℕ → UInt8) (len va : ℕ) (m : PageMem) (pt : ℕ) (r : Result) : Prop where
  ret : r.ret = 0
  size : r.size = len
  bytes : ∀ i < len, Valid (entry r.mem r.pt (va + i)) ∧ userByte r.mem r.pt (va + i) = src i
  rest : ∀ a < 2 ^ 48, Valid (entry m pt a) → entry r.mem r.pt a = entry m pt a ∧
    (¬ (va ≤ a ∧ a < va + len) → userByte r.mem r.pt a = userByte m pt a)

/-- **When the copy is exact.** The page table may have any pages in the range as long as those that are mapped are used for
nothing else. With enough pages `copyout` returns, and when it returns, it has copied exactly p[0..len) if and only if the range
lies in one page or ends at the end of a page. -/
theorem copyout_exact (src : ℕ → UInt8) (hok : SpaceOk L m pt l) (hlt : va + len ≤ 2 ^ 48)
    (hready : ∀ a, va ≤ a → a < va + len → Ready L m pt a) :
    (Enough m pt l va (va + len) → ∃ r, copyout src len va pt m = some r) ∧
    ∀ r, copyout src len va pt m = some r →
      (CopiesExactly src len va m pt r ↔ va % pageSize + len ≤ pageSize ∨ (va + len) % pageSize = 0) := by
  have hspec := copyout_spec src hok hlt hready
  refine ⟨fun henough => ?_, fun r hr => ?_⟩
  · obtain ⟨r, hr, -⟩ := hspec.exists henough
    exact ⟨r, hr⟩
  rw [hr] at hspec
  obtain ⟨hret, hle, -, hprog⟩ := hspec
  rw [← hprog.exact_iff hle]
  refine ⟨fun h => h.size, fun hsize => ?_⟩
  have hcop := hprog.copied
  rw [hsize] at hcop
  refine ⟨by rw [hret, if_pos hsize], hsize, hcop.bytes, fun a ha hv => ?_⟩
  exact ⟨hcop.entry a (Or.inl (valid_ne_zero hv)), hcop.rest a ha hv⟩

end Whole

/-- the numbers from 1 on -/
def counting (i : ℕ) : UInt8 := UInt8.ofNat (i + 1)

theorem copyout_exact_empty : ∃ m r, kinit Paging.twelvePages (fun _ => 0) = some m ∧
    copyout counting 4100 0x400FFC 0 m = some r ∧ r.ret = 0 ∧ r.size = 4100 ∧
    ∀ i < 4100, Valid (entry r.mem r.pt (0x400FFC + i)) ∧ userByte r.mem r.pt (0x400FFC + i) = counting i := by
  obtain ⟨m, l, hk, hpages, -, -⟩ := kinit_ok Paging.twelvePages fun _ => 0
  have hlen : l.length = 12 := by
    rw [Exec.kinit_length hk hpages.toFreeList]
    decide
  have hunmapped : ∀ a, entry m 0 a = 0 := fun a => entry_of_none (by rw [tableAt, if_pos rfl])
  obtain ⟨hreturns, hexact⟩ := copyout_exact counting (SpaceOk.empty hpages.toFreeList)
    (by decide : 0x400FFC + 4100 ≤ 2 ^ 48) fun a _ _ => Or.inl (hunmapped a)
  obtain ⟨r, hr⟩ := hreturns (Or.inr (by rw [hlen]; decide))
  have hcopy := (hexact r hr).2 (Or.inr (by decide))
  exact ⟨m, r, hk, hr, hcopy.ret, hcopy.size, hcopy.bytes⟩

/-- **Eight bytes across a page boundary.** The second page is there and holds 16 bytes. Twelve bytes are read where eight were
given, four bytes behind the range are overwritten, and the call reports a failure. -/
theorem copyout_overruns : ∃ m r1 r2, kinit Paging.twelvePages (fun _ => 0) = some m ∧
    copyout counting 16 0x401000 0 m = some r1 ∧ r1.ret = 0 ∧ entry r1.mem r1.pt 0x400FFC = 0 ∧
    ¬ ReadOnly (entry r1.mem r1.pt 0x401000) ∧ Valid (entry r1.mem r1.pt 0x401000) ∧
    copyout (fun i => counting (100 + i)) 8 0x400FFC r1.pt r1.mem = some r2 ∧ r2.ret = -1 ∧ r2.size = 12 ∧
    (List.range 8).map (fun i => userByte r1.mem r1.pt (0x401000 + i)) = [1, 2, 3, 4, 5, 6, 7, 8] ∧
    (List.range 8).map (fun i => userByte r2.mem r2.pt (0x401000 + i)) = [105, 106, 107, 108, 109, 110, 111, 112] := by
  obtain ⟨m, l, hk, -⟩ := kinit_ok Paging.twelvePages fun _ => 0
  have hrun : (((kinit Paging.twelvePages fun _ => 0).bind (copyout counting 16 0x401000 0)).bind fun r1 =>
      (copyout (fun i => counting (100 + i)) 8 0x400FFC r1.pt r1.mem).map fun r2 =>
        decide (r1.ret = 0 ∧ entry r1.mem r1.pt 0x400FFC = 0 ∧
    ¬ ReadOnly (entry r1.mem r1.pt 0x401000) ∧ Valid (entry r1.mem r1.pt 0x401000) ∧ r2.ret = -1 ∧ r2.size = 12 ∧
    (List.range 8).map (fun i => userByte r1.mem r1.pt (0x401000 + i)) = [1, 2, 3, 4, 5, 6, 7, 8] ∧
    (List.range 8).map (fun i => userByte r2.mem r2.pt (0x401000 + i)) = [105, 106, 107, 108, 109, 110, 111, 112])) = some true := by
    decide +kernel
  rw [hk, Option.bind_some] at hrun
  obtain ⟨r1, hr1, hrun⟩ := Option.bind_eq_some_iff.1 hrun
  obtain ⟨r2, hr2, hrun⟩ := Option.map_eq_some_iff.1 hrun
  obtain ⟨hret, h0, hro, hv, hret2, hsize, hb1, hb2⟩ := of_decide_eq_true hrun
  exact ⟨m, r1, r2, hk, hr1, hret, h0, hro, hv, hr2, hret2, hsize, hb1, hb2⟩

end OsKernel.Kernel.Copyout
