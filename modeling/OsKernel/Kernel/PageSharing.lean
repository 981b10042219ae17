/-
Which page table entries refer to a page, and what the counts of the page allocator say about it.

A slot is a page number of a process; it refers to the page behind its entry if that is valid. `PagesCounted` says that the count
of every page that some slot refers to is the number of its slots, the zero page excepted, which is not counted.
The functions that give pages back change the entry of one slot at a time: `unmapPage_spec` (an entry is cleared and its page
released).
-/
import OsKernel.Kernel.PageFault
import OsKernel.Lib.Links

namespace OsKernel.Kernel.Paging

open OsKernel.Mem OsKernel.Kernel.PageTable OsKernel.Words OsKernel.Radix OsKernel.Fallible OsKernel.Links
open Function (update update_of_ne update_self)

/-! ## Slots -/

/-- the entry of page number v of process q -/
def Sys.slot (s : Sys) (i : ℕ × ℕ) : ℕ := s.entry i.1 (pageSize * i.2)

/-- the page it refers to -/
def Sys.target (s : Sys) (i : ℕ × ℕ) : Option ℕ :=
  if i.2 < 2 ^ 36 ∧ Valid (s.slot i) then some (frame (s.slot i)) else none

theorem vpn_lt (va : ℕ) : vpn va < 2 ^ 36 := Nat.mod_lt _ (by decide)

theorem vpn_page {v : ℕ} (h : v < 2 ^ 36) : vpn (pageSize * v) = v := by
  rw [vpn, Nat.mul_div_cancel_left v (by decide), Nat.mod_eq_of_lt h]

variable {p va x : ℕ} {s s' : Sys} {i : ℕ × ℕ} {L : Layout} {l ws : List ℕ}

theorem slot_vpn (s : Sys) (p va : ℕ) : s.slot (p, vpn va) = s.entry p va :=
  entry_vpn _ _ (vpn_page (vpn_lt va))

theorem target_vpn (s : Sys) (p va : ℕ) :
    s.target (p, vpn va) = if Valid (s.entry p va) then some (frame (s.entry p va)) else none := by
  simp only [Sys.target, slot_vpn, vpn_lt, true_and]

theorem target_of_valid (h : Valid (s.entry p va)) :
    s.target (p, vpn va) = some (frame (s.entry p va)) := by
  rw [target_vpn, if_pos h]

theorem target_of_not_valid (h : ¬ Valid (s.entry p va)) : s.target (p, vpn va) = none := by
  rw [target_vpn, if_neg h]

/-- a slot that refers to a page is that of some address -/
theorem target_some (h : s.target i = some x) :
    ∃ va, i = (i.1, vpn va) ∧ Valid (s.entry i.1 va) ∧ frame (s.entry i.1 va) = x := by
  rw [Sys.target] at h
  obtain ⟨⟨hlt, hv⟩, hx⟩ := Option.ite_none_right_eq_some.1 h
  exact ⟨pageSize * i.2, Prod.ext rfl (vpn_page hlt).symm, hv, Option.some.inj hx⟩

/-- the entry of one page number changes -/
def Rewired (p addr e : ℕ) (s s' : Sys) : Prop :=
  ∀ q va, s'.entry q va = if q = p ∧ vpn va = vpn addr then e else s.entry q va

section Rewired

variable {s s' : Sys} {p addr e : ℕ} (h : Rewired p addr e s s')
include h

theorem Rewired.self : s'.entry p addr = e := by rw [h, if_pos ⟨rfl, rfl⟩]

theorem Rewired.other {q : ℕ} (hne : ¬ (q = p ∧ vpn va = vpn addr)) : s'.entry q va = s.entry q va := by
  rw [h, if_neg hne]

theorem Rewired.target : s'.target = update s.target (p, vpn addr) (if Valid e then some (frame e) else none) := by
  funext i
  by_cases hi : i = (p, vpn addr)
  · subst hi
    rw [update_self, target_vpn, h.self]
  · rw [update_of_ne hi, Sys.target, Sys.target]
    by_cases hlt : i.2 < 2 ^ 36
    · have hslot : s'.slot i = s.slot i := by
        refine h.other fun hx => hi (Prod.ext hx.1 ?_)
        rw [← hx.2, vpn_page hlt]
      rw [hslot]
    · rw [if_neg fun hx => hlt hx.1, if_neg fun hx => hlt hx.1]

end Rewired

/-! ## Counts -/

/-- the slots that refer to page x -/
def Sys.users (s : Sys) (x : ℕ) : Set (ℕ × ℕ) := Links.users s.target x

/-- `pages[..].ref` of page x -/
def Sys.refs (s : Sys) (x : ℕ) : ℤ := s.mem.ref (pageIndex x)

/-- the counts are those of the slots -/
structure PagesCounted (L : Layout) (s : Sys) : Prop where
  ok : ∃ l, Ok L s l
  counts : Counts s.target s.refs (· = zeroPage L)

/-- a page that some slot refers to is in use -/
theorem user_page (h : Ok L s l) (hx : (s.users x).Nonempty) : UserPage L s x := by
  obtain ⟨i, hi⟩ := hx
  obtain ⟨va, -, hv, rfl⟩ := target_some hi
  exact h.mapped _ va hv

theorem user_owned (h : Ok L s l) (hz : x ≠ zeroPage L)
    (hx : (s.users x).Nonempty) : Owned L s.mem x := (user_page h hx).use.resolve_right hz

/-! ## An entry is cleared -/

/-- a valid entry is cleared and its page released: the loop body of `sbrk`, and that of `free_pages_of_section` after the
write-back -/
def unmapPage (L : Layout) (p : ℕ) (s : Sys) (va : ℕ) : Except Halt Sys :=
  let pte := findPte s p va
  let e := s.mem.cell pte
  if pte ≠ 0 ∧ Valid e then do
    let s ← freePage L (frame e) s
    .ok (s.setMem (setPte pte 0 s.mem))
  else .ok s

/-- what it has done to a valid entry -/
structure Unmapped (L : Layout) (p va : ℕ) (s s' : Sys) : Prop where
  entry : Rewired p va 0 s s'
  ref : ∀ x, x ≠ zeroPage L → s'.refs x = if pageIndex x = pageIndex (frame (s.entry p va)) ∧ frame (s.entry p va) ≠ zeroPage L
    then s.refs x - 1 else s.refs x
  table : ∀ k q t, HasTable s'.mem s'.pts k q t ↔ HasTable s.mem s.pts k q t
  cell : ∀ x a, InUse L s'.mem x → (∀ k q, ¬ HasTable s.mem s.pts k q x) → InPage x a → s'.mem.cell a = s.mem.cell a
  same : SameSpaces s s'

theorem unmapPage_unmapped (h : Ok L s l) (hv : Valid (s.entry p va))
    (hu : unmapPage L p s va = .ok s') : (∃ l', SpacesOk L s'.mem s'.pts l') ∧ Unmapped L p va s s' := by
  obtain ⟨t, ht, hpte, hne, hcell⟩ := findPte_valid hv
  rw [unmapPage, hcell] at hu
  rw [if_pos ⟨hne, hv⟩, hpte] at hu
  obtain ⟨s1, hf, hu⟩ := bind_ok hu
  obtain ⟨m1, hk, rfl⟩ := freePage_ok hf
  cases hu
  have hpage := h.mapped p va hv
  obtain ⟨l1, hok1, htab1, hent1, href1, hkept1⟩ := kfree_mapped h.spaces hpage.use hpage.plain hk
  have ht1 : HasTable m1 s.pts p (path va) t := (htab1 p _ t).2 ⟨isPath_path va, ht⟩
  obtain ⟨hok2, hstep2, hent2⟩ := entry_write hok1 ht1.2 0
  have htab2 : ∀ k q u, HasTable (setPte (t + 8 * vaPart3 va) 0 m1) s.pts k q u ↔ HasTable s.mem s.pts k q u := by
    intro k q u
    constructor
    · intro hu
      rcases hstep2.fresh k q u hu with hu' | hno
      · exact (htab1 k q u).1 hu'
      · exact absurd (hok2.tables.owned k q u hu) hno
    · intro hu
      exact hstep2.table k q u ((htab1 k q u).2 hu)
  refine ⟨⟨l1, hok2⟩, fun q va' => ?_, fun x hx => ?_, htab2, fun x a hx hnt ha => ?_, ⟨fun _ => rfl, fun _ => rfl, rfl, rfl⟩⟩
  · refine (hent2 q va').trans ?_
    rw [hent1]
    rfl
  · change m1.ref (pageIndex x) = _
    rw [href1]
    by_cases hz : frame (s.entry p va) = zeroPage L
    · rw [if_pos hz, if_neg fun hx => hx.2 hz]
      rfl
    · rw [if_neg hz]
      by_cases hi : pageIndex x = pageIndex (frame (s.entry p va))
      · rw [if_pos ⟨hi, hz⟩, hi, update_self, Sys.refs, hi]
      · rw [if_neg fun hx => hi hx.1, update_of_ne hi]
        rfl
  · calc _ = m1.cell a := off_tables hstep2 hok2.tables hx.isPage (fun k q hq => hnt k q ((htab2 k q x).1 hq)) ha
      _ = s.mem.cell a := hkept1 x a hx ha

section Unmap

variable {L : Layout} {s s' : Sys} {p va : ℕ}

/-- counts of pages with a slot, after an entry is cleared -/
theorem Unmapped.ref_user (h : Unmapped L p va s s') (hok : Ok L s l) (hv : Valid (s.entry p va))
    (hz : x ≠ zeroPage L) (hx : (s.users x).Nonempty) :
    s'.refs x = if s.target (p, vpn va) = some x then s.refs x - 1 else s.refs x := by
  have hiff : (pageIndex x = pageIndex (frame (s.entry p va)) ∧ frame (s.entry p va) ≠ zeroPage L) ↔
      s.target (p, vpn va) = some x := by
    rw [target_of_valid hv, Option.some.injEq]
    constructor
    · intro hi
      have hold := user_owned hok hi.2 ⟨_, target_of_valid hv⟩
      exact (user_owned hok hz hx).1.index_inj hold.1 hi.1 |>.symm
    · intro hf
      exact ⟨by rw [hf], by rw [hf]; exact hz⟩
  rw [h.ref x hz]
  by_cases ht : s.target (p, vpn va) = some x
  · rw [if_pos (hiff.2 ht), if_pos ht]
  · rw [if_neg fun hx => ht (hiff.1 hx), if_neg ht]

theorem not_valid_zero : ¬ Valid 0 := fun h => h rfl

theorem Unmapped.target (h : Unmapped L p va s s') : s'.target = update s.target (p, vpn va) none := by
  rw [h.entry.target, if_neg not_valid_zero]

theorem Unmapped.user_before (h : Unmapped L p va s s') (hx : (s'.users x).Nonempty) : (s.users x).Nonempty := by
  obtain ⟨i, hi⟩ := hx
  rw [Sys.users, h.target] at hi
  rcases mem_users_update.1 hi with ⟨-, hy⟩ | ⟨-, hi⟩
  · cases hy
  · exact ⟨i, hi⟩

/-- every page that had a slot has the number of those left as its count -/
theorem Unmapped.counted (h : Unmapped L p va s s') (hok : Ok L s l) (hv : Valid (s.entry p va))
    (hc : Counts s.target s.refs (· = zeroPage L)) (hz : x ≠ zeroPage L) (hx : (s.users x).Nonempty) :
    Counted s'.target s'.refs x := by
  rw [h.target]
  refine hc.update_counted (fun y hy hne ht _ => ?_) (fun _ _ _ _ hy => by cases hy) (fun _ _ _ hy => by cases hy)
    (fun y hy hne hi => ?_) hz (Or.inl hx)
  · rw [h.ref_user hok hv hy hne, if_pos ht]
  · rw [h.ref_user hok hv hy hne, if_neg fun ht => by cases hi.1 ht]

theorem Unmapped.counts (h : Unmapped L p va s s') (hok : Ok L s l) (hv : Valid (s.entry p va))
    (hc : Counts s.target s.refs (· = zeroPage L)) : Counts s'.target s'.refs (· = zeroPage L) := by
  intro x hz hx
  exact h.counted hok hv hc hz (h.user_before hx)

/-- a page that still has a slot stays in use -/
theorem Unmapped.page (h : Unmapped L p va s s') (hok : Ok L s l) (hv : Valid (s.entry p va))
    (hc : Counts s.target s.refs (· = zeroPage L)) (hx : (s'.users x).Nonempty) : UserPage L s' x := by
  have hsub := h.user_before hx
  have hpage := user_page hok hsub
  refine ⟨?_, fun k q ht => hpage.plain k q ((h.table k q x).1 ht)⟩
  by_cases hz : x = zeroPage L
  · exact Or.inr hz
  · have hpos := (h.counts hok hv hc x hz hx).pos hx
    exact Or.inl ⟨(user_owned hok hz hsub).1, hpos⟩

theorem Unmapped.pagesCounted (h : Unmapped L p va s s') {l' : List ℕ} (hsp : SpacesOk L s'.mem s'.pts l')
    (hv : Valid (s.entry p va)) (hc : PagesCounted L s) : PagesCounted L s' := by
  obtain ⟨l, hok⟩ := hc.ok
  refine ⟨⟨l', hsp, fun q va' hv' => ?_⟩, h.counts hok hv hc.counts⟩
  exact h.page hok hv hc.counts ⟨_, target_of_valid hv'⟩

/-- **An entry is cleared.** If it was valid, its page has lost a reference; nothing else has changed. -/
theorem unmapPage_spec (h : PagesCounted L s) (hu : unmapPage L p s va = .ok s') :
    PagesCounted L s' ∧ (s' = s ∧ ¬ Valid (s.entry p va) ∨ Valid (s.entry p va) ∧ Unmapped L p va s s') := by
  by_cases hv : Valid (s.entry p va)
  · obtain ⟨l, hok⟩ := h.ok
    obtain ⟨⟨l', hsp⟩, hun⟩ := unmapPage_unmapped hok hv hu
    exact ⟨hun.pagesCounted hsp hv h, Or.inr ⟨hv, hun⟩⟩
  · have hno : ¬ (findPte s p va ≠ 0 ∧ Valid (s.mem.cell (findPte s p va))) := by
      intro hx
      rcases findPte_cases s p va with ⟨t, -, -, -, hcell⟩ | ⟨h0, -⟩
      · exact hv (hcell ▸ hx.2)
      · exact hx.1 h0
    rw [unmapPage, if_neg hno] at hu
    cases hu
    exact ⟨h, Or.inl ⟨rfl, hv⟩⟩

end Unmap

/-! ## Entries are cleared one after the other -/

/-- one of the pages ws has the page number of va -/
def Among (ws : List ℕ) (va : ℕ) : Prop := ∃ w ∈ ws, vpn va = vpn w

/-- all valid entries of p at ws have been cleared and their pages released -/
structure Cleared (L : Layout) (p : ℕ) (ws : List ℕ) (s s' : Sys) : Prop where
  counted : PagesCounted L s'
  cleared : ∀ va, Among ws va → ¬ Valid (s'.entry p va)
  entry : ∀ q va, ¬ (q = p ∧ Among ws va) → s'.entry q va = s.entry q va
  /-- a page that had a slot has the number of its slots as its count -/
  released : ∀ x, x ≠ zeroPage L → (s.users x).Nonempty → Counted s'.target s'.refs x
  /-- a page that has a slot is the same page as before -/
  before : ∀ x, (s'.users x).Nonempty → (s.users x).Nonempty
  kept : ∀ x a, (s'.users x).Nonempty → InPage x a → s'.mem.cell a = s.mem.cell a

theorem not_among_nil (va : ℕ) : ¬ Among [] va := fun ⟨_, hw, _⟩ => absurd hw List.not_mem_nil

theorem among_append {w : ℕ} : Among (ws ++ [w]) va ↔ Among ws va ∨ vpn va = vpn w := by
  constructor
  · rintro ⟨u, hu, hva⟩
    rcases List.mem_append.1 hu with hu | hu
    · exact Or.inl ⟨u, hu, hva⟩
    · exact Or.inr (List.mem_singleton.1 hu ▸ hva)
  · rintro (⟨u, hu, hva⟩ | hva)
    · exact ⟨u, List.mem_append_left _ hu, hva⟩
    · exact ⟨w, List.mem_append_right _ (List.mem_singleton_self w), hva⟩

theorem Cleared.nil (p : ℕ) (h : PagesCounted L s) : Cleared L p [] s s where
  counted := h
  cleared va hva := absurd hva (not_among_nil va)
  entry _ _ _ := rfl
  released x hz hx := h.counts x hz hx
  before _ hx := hx
  kept _ _ _ _ := rfl

/-- a page without slots keeps its count -/
theorem Unmapped.ref_unused (h : Unmapped L p va s s') (hok : Ok L s l)
    (hv : Valid (s.entry p va)) (hz : x ≠ zeroPage L) (hx : Allocatable L x) (hno : ¬ (s.users x).Nonempty) :
    s'.refs x = s.refs x := by
  rw [h.ref x hz, if_neg]
  rintro ⟨hi, hne⟩
  have hold := user_owned hok hne ⟨_, target_of_valid hv⟩
  exact hno (hx.index_inj hold.1 hi ▸ ⟨_, target_of_valid hv⟩)

theorem Cleared.snoc {s1 : Sys} (h0 : PagesCounted L s) (h : Cleared L p ws s s1)
    (hu : unmapPage L p s1 va = .ok s') : Cleared L p (ws ++ [va]) s s' := by
  obtain ⟨hc, ⟨rfl, hno⟩ | ⟨hv, hun⟩⟩ := unmapPage_spec h.counted hu
  · refine ⟨h.counted, fun va' hva => ?_, fun q va' hne => h.entry q va' fun hx => hne ⟨hx.1, among_append.2 (Or.inl hx.2)⟩,
      h.released, h.before, h.kept⟩
    rcases among_append.1 hva with hva | hva
    · exact h.cleared va' hva
    · rwa [Sys.entry, entry_vpn _ _ hva]
  · obtain ⟨l1, hok1⟩ := h.counted.ok
    obtain ⟨l, hok⟩ := h0.ok
    refine ⟨hc, fun va' hva => ?_, fun q va' hne => ?_, fun x hz hx => ?_, fun x hx => h.before x (hun.user_before hx),
      fun x a hx ha => ?_⟩
    · by_cases hvpn : vpn va' = vpn va
      · rw [hun.entry, if_pos ⟨rfl, hvpn⟩]
        exact not_valid_zero
      · rw [hun.entry, if_neg fun hx => hvpn hx.2]
        exact h.cleared va' ((among_append.1 hva).resolve_right hvpn)
    · rw [hun.entry, if_neg fun hx => hne ⟨hx.1, among_append.2 (Or.inr hx.2)⟩]
      exact h.entry q va' fun hx => hne ⟨hx.1, among_append.2 (Or.inl hx.2)⟩
    · by_cases hx1 : (s1.users x).Nonempty
      · exact hun.counted hok1 hv h.counted.counts hz hx1
      · -- its last slot went before
        have hnone : s'.users x = ∅ := Set.not_nonempty_iff_eq_empty.1 fun hx' => hx1 (hun.user_before hx')
        have hempty : s1.users x = ∅ := Set.not_nonempty_iff_eq_empty.1 hx1
        have hcnt := (h.released x hz hx).count
        have href := hun.ref_unused hok1 hv hz (user_owned hok hz hx).1 hx1
        have hn1 : (Links.users s1.target x).ncard = 0 := (Set.ncard_eq_zero (h.released x hz hx).finite).2 hempty
        refine ⟨?_, ?_⟩
        · rw [show Links.users s'.target x = ∅ from hnone]
          exact Set.finite_empty
        · rw [href, hcnt, hn1, show Links.users s'.target x = ∅ from hnone, Set.ncard_empty]
    · have hx1 := hun.user_before hx
      have hpage := hun.page hok1 hv h.counted.counts hx
      exact (hun.cell x a hpage.use (user_page hok1 hx1).plain ha).trans (h.kept x a hx1 ha)

theorem unmapPage_same (hu : unmapPage L p s va = .ok s') : SameSpaces s s' := by
  rw [unmapPage] at hu
  split_ifs at hu
  · obtain ⟨s1, hf, hu⟩ := bind_ok hu
    obtain ⟨m1, -, rfl⟩ := freePage_ok hf
    cases hu
    exact ⟨fun _ => rfl, fun _ => rfl, rfl, rfl⟩
  · cases hu
    exact SameSpaces.refl s

/-- **The loop that clears entries.** -/
theorem unmapPages_spec (h : PagesCounted L s)
    (hu : ws.foldlM (unmapPage L p) s = .ok s') : Cleared L p ws s s' ∧ SameSpaces s s' := by
  refine foldlM_ok (fun done s1 => Cleared L p done s s1 ∧ SameSpaces s s1) ⟨Cleared.nil p h, SameSpaces.refl s⟩ ?_ hu
  intro front va back s1 s2 _ hinv hu
  exact ⟨hinv.1.snoc h hu, hinv.2.trans (unmapPage_same hu)⟩

/-! ## A page is mapped -/

/-- the zero page, or a page that has just been allocated, is mapped at an address that was not mapped -/
theorem map_counted {flags : ℕ} (h : PagesCounted L s) (hx : UserPage L s x)
    (hframe : frame (pageBase (k2p x) ||| flags) = x) (hnew : ¬ Valid (s.entry p va))
    (hcount : x = zeroPage L ∨ (s.users x = ∅ ∧ s.refs x = 1)) (hm : mapPage p va x flags s = .ok s') : PagesCounted L s' := by
  obtain ⟨l, hok⟩ := h.ok
  obtain ⟨l', hok', hund, hent⟩ := map_spec hok hx hframe hm
  have hrew : Rewired p va (pageBase (k2p x) ||| flags) s s' := hent
  have href : ∀ y, Owned L s.mem y → s'.refs y = s.refs y := fun y hy => hund.ref y hy
  refine ⟨⟨l', hok'⟩, ?_⟩
  rw [hrew.target, hframe]
  have hnone := target_of_not_valid hnew
  refine h.counts.update (fun y _ _ hy => ?_) (fun y hz hne _ hy => ?_) (fun y hz he hy => ?_) (fun y hz hne _ => ?_)
  · rw [hnone] at hy
    cases hy
  · obtain ⟨-, hxy⟩ := Option.ite_none_right_eq_some.1 hy
    obtain rfl := Option.some.inj hxy
    rcases hcount with hzero | ⟨he, -⟩
    · exact absurd hzero hz
    · exact absurd he hne.ne_empty
  · obtain ⟨-, hxy⟩ := Option.ite_none_right_eq_some.1 hy
    obtain rfl := Option.some.inj hxy
    rcases hcount with hzero | ⟨-, h1⟩
    · exact absurd hzero hz
    · rw [href x (hx.use.resolve_right hz), h1]
  · exact href y (user_owned hok hz hne)

/-- a page from the allocator has no slots -/
theorem alloc_counted {pg : ℕ} (h : PagesCounted L s) (ha : allocPage s = .ok (pg, s')) :
    PagesCounted L s' ∧ UserPage L s' pg ∧ s'.users pg = ∅ ∧ s'.refs pg = 1 ∧ (∀ q va, s'.entry q va = s.entry q va) := by
  obtain ⟨l, hok⟩ := h.ok
  obtain ⟨l', hok', hund, hent, hown, hpage, h0⟩ := alloc_spec hok ha
  have htarget : s'.target = s.target := by
    funext i
    have hslot : s'.slot i = s.slot i := hent _ _
    rw [Sys.target, Sys.target, hslot]
  have hempty : s'.users pg = ∅ := by
    rw [Sys.users, htarget]
    refine Set.not_nonempty_iff_eq_empty.1 fun hne => ?_
    exact (user_owned hok hown.1.ne_zeroPage hne).2.ne' h0
  refine ⟨⟨⟨l', hok'⟩, ?_⟩, hpage, hempty, ?_, hent⟩
  · intro x hz hx
    rw [htarget] at hx ⊢
    obtain ⟨hfin, hcnt⟩ := h.counts x hz hx
    exact ⟨hfin, (hund.ref x (user_owned hok hz hx)).trans hcnt⟩
  · obtain ⟨m', hk, rfl⟩ := allocPage_ok ha
    obtain ⟨-, -, -, -, -, -, -, href, -⟩ := kalloc_spaces hok.spaces hk
    change m'.ref (pageIndex pg) = 1
    rw [href, update_self]

/-- before any page table exists -/
theorem bare_counted (h : FreeList L s.mem l) (hpt : ∀ q, s.pts q = 0) :
    PagesCounted L s ∧ ∀ q va, s.entry q va = 0 := by
  have hent : ∀ q va, s.entry q va = 0 := fun q va => entry_of_none (if_pos (hpt q))
  refine ⟨⟨⟨l, ok_bare h hpt⟩, fun x _ hx => ?_⟩, hent⟩
  obtain ⟨i, hi⟩ := hx
  obtain ⟨va, -, hv, -⟩ := target_some hi
  rw [hent] at hv
  exact absurd hv not_valid_zero

/-! ## Changes that are not to memory -/

section Congr

variable {L : Layout} {s t : Sys} (hm : t.mem = s.mem) (hp : t.pts = s.pts)
include hm hp

theorem target_congr : t.target = s.target := by
  funext i
  have hslot : t.slot i = s.slot i := entry_of_eq hm hp _ _
  rw [Sys.target, Sys.target, hslot]

omit hp in
theorem refs_congr : t.refs = s.refs := by
  funext x
  rw [Sys.refs, Sys.refs, hm]

theorem PagesCounted.congr (h : PagesCounted L s) : PagesCounted L t := by
  obtain ⟨l, hok⟩ := h.ok
  refine ⟨⟨l, hok.congr hm hp⟩, ?_⟩
  rw [target_congr hm hp, refs_congr hm]
  exact h.counts

theorem Cleared.congr (h : Cleared L p ws t s') : Cleared L p ws s s' := by
  refine ⟨h.counted, h.cleared, fun q va hne => ?_, fun x hz hx => h.released x hz ?_, fun x hx => ?_, fun x a hx ha => ?_⟩
  · rw [h.entry q va hne, entry_of_eq hm hp]
  · rwa [Sys.users, target_congr hm hp]
  · have hbefore := h.before x hx
    rwa [Sys.users, target_congr hm hp] at hbefore
  · rw [h.kept x a hx ha, hm]

end Congr

end OsKernel.Kernel.Paging
