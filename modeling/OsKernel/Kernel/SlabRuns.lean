/-
Runs of the slab allocator.

A run is any sequence of `kalloc` of 1 to 4088 bytes, `kfree` of a live block, and writes of the owners to their blocks. The
system remembers the live blocks with the sizes asked for, and the class each slab page was set up for.

Result (`slab_safety`): in every state of every run the live blocks lie in their pages, off the headers and off each other,
and the lists and headers account for all objects; `kfree` gives a page back exactly with its last live block, as long as
`free_pages` is not null then. When the last free page has been handed out, that `kfree` faults (`last_page_fault`).
-/
import OsKernel.Kernel.Slab

namespace OsKernel.Mem.Slab

open OsKernel.Linked OsKernel.Runs
open Function (update update_of_ne update_self)

inductive Call where
  | alloc (size : ℕ)
  | free (ptr : ℕ)
  /-- the owner of a block writes to it -/
  | store (a v : ℕ)

structure Sys where
  h : Heap
  /-- the live blocks, with the sizes asked for -/
  live : List (ℕ × ℕ)
  /-- the class each slab page was set up for -/
  cls : ℕ → Option ℕ

def Sys.ptrs (s : Sys) : List ℕ := s.live.map Prod.fst

def init (m : PageMem) : Sys := ⟨⟨m, fun _ => 0⟩, [], fun _ => none⟩

def step (L : Layout) (s : Sys) : Call → Option Sys
  | .alloc size =>
    if 1 ≤ size ∧ size ≤ 4088 then
      (kalloc size s.h).map fun r =>
        ⟨r.2, (r.1, size) :: s.live,
          -- the page is set up for the class when there is no free object
          if s.h.slabs (slabIndex size) = 0 then update s.cls (pageBase r.1) (some (slabIndex size)) else s.cls⟩
    else none
  | .free ptr =>
    if ptr ∈ s.ptrs then
      (kfree L ptr s.h).map fun h =>
        ⟨h, s.live.eraseP fun b => b.1 = ptr,
          if h.pm.ref (pageIndex (pageBase ptr)) = 0 then update s.cls (pageBase ptr) none else s.cls⟩
    else none
  | .store a v =>
    if ∃ b ∈ s.live, b.1 ≤ a ∧ a < b.1 + b.2 then some { s with h := s.h.recell (update s.h.pm.cell a v) }
    else none

structure Inv (L : Layout) (s : Sys) (fl : List ℕ) (free : ℕ → List ℕ) : Prop where
  ok : SlabOk L s.h fl free s.cls s.ptrs
  size : ∀ b ∈ s.live, 1 ≤ b.2 ∧ b.2 ≤ 4088 ∧ b.1 ∈ objs (pageBase b.1) (slabIndex b.2) ∧
    s.cls (pageBase b.1) = some (slabIndex b.2)
  used : ∀ P i, s.cls P = some i → ∃ a ∈ s.ptrs, InPage P a

theorem inv_init {L : Layout} {m : PageMem} {fl : List ℕ} (h : PagesOk L m fl) : Inv L (init m) fl fun _ => [] := by
  refine ⟨⟨h, ?_, fun _ _ => rfl, ?_, ?_, List.nodup_nil, ?_, ?_, ?_⟩, ?_, ?_⟩ <;> simp [init, Sys.ptrs]

section Steps

variable {L : Layout} {s : Sys} {fl : List ℕ} {free : ℕ → List ℕ} (inv : Inv L s fl free)
include inv

/-- the first object of a list goes to the caller -/
theorem inv_take {size a : ℕ} {l : List ℕ} (h1 : 1 ≤ size) (h2 : size ≤ 4088) (hl : free (slabIndex size) = a :: l) :
    Inv L ⟨(takeSlab (slabIndex size) s.h).2, ((takeSlab (slabIndex size) s.h).1, size) :: s.live, s.cls⟩ fl
      (update free (slabIndex size) l) := by
  obtain ⟨hret, ⟨P, hP, hPa⟩, hok⟩ := inv.ok.take (slabIndex_spec h1 h2).1 hl
  have hbase := inv.ok.pageBase_eq hP hPa
  rw [hret]
  refine ⟨hok, fun b hb => ?_, fun Q j hQ => ?_⟩
  · rcases List.mem_cons.1 hb with rfl | hb
    · exact ⟨h1, h2, by rw [hbase]; exact hPa, by rw [hbase]; exact hP⟩
    · exact inv.size b hb
  · obtain ⟨b, hb, hin⟩ := inv.used Q j hQ
    exact ⟨b, List.mem_cons_of_mem a hb, hin⟩

theorem inv_alloc {size p : ℕ} {h' : Heap} (h1 : 1 ≤ size) (h2 : size ≤ 4088) (hk : kalloc size s.h = some (p, h')) :
    ∃ fl' free', Inv L ⟨h', (p, size) :: s.live,
      if s.h.slabs (slabIndex size) = 0 then update s.cls (pageBase p) (some (slabIndex size)) else s.cls⟩
      fl' free' := by
  obtain ⟨hi, -⟩ := slabIndex_spec h1 h2
  set i := slabIndex size with hidx
  by_cases hnil : s.h.slabs i = 0
  · rw [kalloc] at hk
    simp only [← hidx, if_pos hnil] at hk
    obtain ⟨h1', hnew, htake⟩ := Option.map_eq_some_iff.1 hk
    -- a page was there to be set up
    obtain ⟨P, fl', hfl⟩ : ∃ P fl', fl = P :: fl' := by
      refine List.exists_cons_of_ne_nil fun hfl => ?_
      have hnull : s.h.pm.freePages = 0 := inv.ok.pages.chain.head_eq_zero.2 hfl
      simp [newSlab, kallocPage, hnull] at hnew
    obtain ⟨h'', hnew', hnone, hok⟩ := inv.ok.fresh hi hnil hfl
    obtain rfl : h'' = h1' := Option.some.inj (hnew'.symm.trans hnew)
    have hcount := objCount_pos hi
    obtain ⟨a, l, hobjs⟩ : ∃ a l, objs P i = a :: l := by
      refine List.exists_cons_of_ne_nil fun hx => ?_
      have hlen : (objs P i).length = objCount i := by simp [objs]
      rw [hx] at hlen
      exact absurd hlen hcount.ne
    obtain ⟨hret, ⟨Q, hQ, hQa⟩, hok'⟩ := hok.take (i := i) (a := a) (l := l) hi (by rw [update_self, hobjs])
    have haP : a ∈ objs P i := hobjs ▸ List.mem_cons_self
    have hbase : pageBase p = P := by
      rw [htake] at hret
      rw [show p = a from hret]
      exact hok.pageBase_eq (update_self _ _ _) haP
    rw [htake] at hret hok'
    obtain rfl : p = a := hret
    refine ⟨fl', update (update free i (objs P i)) i l, ?_⟩
    rw [if_pos hnil, hbase]
    refine ⟨hok', fun b hb => ?_, fun Q' j hQ' => ?_⟩
    · rcases List.mem_cons.1 hb with rfl | hb
      · exact ⟨h1, h2, by rw [hbase]; exact haP, by rw [hbase]; exact update_self _ _ _⟩
      · obtain ⟨hb1, hb2, hb3, hb4⟩ := inv.size b hb
        refine ⟨hb1, hb2, hb3, ?_⟩
        have hne : pageBase b.1 ≠ P := by
          rintro hx
          rw [hx, hnone] at hb4
          cases hb4
        show update s.cls P (some i) (pageBase b.1) = _
        rw [update_of_ne hne]
        exact hb4
    · by_cases hx : Q' = P
      · subst hx
        exact ⟨p, List.mem_cons_self, inPage_objs haP⟩
      · simp only [update_of_ne hx] at hQ'
        obtain ⟨b, hb, hin⟩ := inv.used Q' j hQ'
        exact ⟨b, List.mem_cons_of_mem p hb, hin⟩
  · rw [kalloc] at hk
    simp only [← hidx, if_neg hnil, Option.some.injEq] at hk
    obtain ⟨a, l, hl⟩ : ∃ a l, free i = a :: l :=
      List.exists_cons_of_ne_nil fun hx => hnil ((inv.ok.chain i hi).head_eq_zero.2 hx)
    have htaken := inv_take inv h1 h2 (hidx ▸ hl)
    rw [← hidx, hk] at htaken
    rw [if_neg hnil]
    exact ⟨fl, _, htaken⟩

/-- a live block, with its page and its class -/
theorem live_page {p : ℕ} (hp : p ∈ s.ptrs) : ∃ i, s.cls (pageBase p) = some i ∧ p ∈ objs (pageBase p) i := by
  obtain ⟨b, hb, rfl⟩ := List.mem_map.1 hp
  obtain ⟨-, -, hobj, hcls⟩ := inv.size b hb
  exact ⟨_, hcls, hobj⟩

omit inv in
theorem ptrs_eraseP (l : List (ℕ × ℕ)) (p : ℕ) :
    (l.eraseP fun b => b.1 = p).map Prod.fst = (l.map Prod.fst).erase p := by
  induction l with
  | nil => rfl
  | cons b l ih =>
    by_cases hb : b.1 = p
    · simp [hb]
    · simp [hb, ih]

/-- p is the only live block of its page -/
def Last (s : Sys) (p : ℕ) : Prop := ∀ q ∈ s.ptrs, pageBase q = pageBase p → q = p

omit inv in
theorem last_iff {P p : ℕ} (hP : Allocatable L P) (hbase : pageBase p = P) :
    Last s p ↔ ∀ q ∈ s.ptrs, InPage P q → q = p := by
  simp only [Last, inPage_iff hP.aligned, hbase]

/-- **Freeing.** `kfree` of a live block returns unless the last page is given back to an empty list; the page leaves the
slabs exactly when the block was its last one. -/
theorem inv_free {p : ℕ} (hp : p ∈ s.ptrs) :
    (Last s p → s.h.pm.freePages = 0 → kfree L p s.h = none) ∧
    ((Last s p → s.h.pm.freePages ≠ 0) → ∃ h' fl' free', kfree L p s.h = some h' ∧
      Inv L ⟨h', s.live.eraseP fun b => b.1 = p,
        if h'.pm.ref (pageIndex (pageBase p)) = 0 then update s.cls (pageBase p) none else s.cls⟩ fl' free' ∧
      (Last s p ↔ h'.pm.ref (pageIndex (pageBase p)) = 0)) := by
  obtain ⟨i, hP, hPa⟩ := live_page inv hp
  obtain ⟨hPall, hone, hi⟩ := inv.ok.slab hP
  have hlast := inv.ok.last_live hP hPa hp
  rw [← last_iff hPall rfl] at hlast
  have hsize : ∀ b ∈ s.live.eraseP fun b => b.1 = p, b ∈ s.live := fun b hb => List.mem_of_mem_eraseP hb
  have herase : ∀ b ∈ s.live.eraseP fun b => b.1 = p, b.1 ∈ s.ptrs.erase p := by
    intro b hb
    rw [Sys.ptrs, ← ptrs_eraseP]
    exact List.mem_map_of_mem hb
  constructor
  · intro hl hnull
    exact inv.ok.giveLast_fault hP hPa (hlast.2 hl) hnull
  · intro hfree
    by_cases hl : Last s p
    · have hfl : fl ≠ [] := fun hx => hfree hl (inv.ok.pages.chain.head_eq_zero.2 hx)
      obtain ⟨h', hk, href, hok⟩ := inv.ok.giveLast hP hPa hp (hlast.2 hl) hfl
      have hzero : h'.pm.ref (pageIndex (pageBase p)) = 0 := by rw [href, update_self]
      refine ⟨h', pageBase p :: fl, update free i (others (pageBase p) (free i)), hk, ?_,
        iff_of_true hl hzero⟩
      rw [if_pos hzero]
      refine ⟨?_, fun b hb => ?_, fun Q j hQ => ?_⟩
      · rw [Sys.ptrs, ptrs_eraseP]
        exact hok
      · obtain ⟨h1, h2, h3, h4⟩ := inv.size b (hsize b hb)
        obtain ⟨hne, hmem⟩ := (inv.ok.live_nodup.mem_erase_iff).1 (herase b hb)
        refine ⟨h1, h2, h3, ?_⟩
        show update s.cls (pageBase p) none (pageBase b.1) = _
        rw [update_of_ne fun hx => hne (hl b.1 hmem hx)]
        exact h4
      · have hQP : Q ≠ pageBase p := by
          rintro rfl
          simp at hQ
        simp only [update_of_ne hQP] at hQ
        obtain ⟨q, hq, hin⟩ := inv.used Q j hQ
        refine ⟨q, ?_, hin⟩
        rw [Sys.ptrs, ptrs_eraseP]
        refine (inv.ok.live_nodup.mem_erase_iff).2 ⟨?_, hq⟩
        rintro rfl
        exact hQP (inPage_unique (inv.ok.slab hQ).1 hPall hin (inPage_objs hPa))
    · obtain ⟨h', hk, href, hok⟩ := inv.ok.give hP hPa hp fun hx => hl (hlast.1 hx)
      have hzero : h'.pm.ref (pageIndex (pageBase p)) ≠ 0 := by
        rw [href, hone]
        decide
      refine ⟨h', fl, update free i (p :: free i), hk, ?_, iff_of_false hl hzero⟩
      rw [if_neg hzero]
      refine ⟨?_, fun b hb => inv.size b (hsize b hb), fun Q j hQ => ?_⟩
      · rw [Sys.ptrs, ptrs_eraseP]
        exact hok
      · rw [Sys.ptrs, ptrs_eraseP]
        by_cases hQP : Q = pageBase p
        · -- another block of the page is live
          subst hQP
          rw [last_iff hPall rfl] at hl
          push Not at hl
          obtain ⟨q, hq, hin, hne⟩ := hl
          exact ⟨q, (inv.ok.live_nodup.mem_erase_iff).2 ⟨hne, hq⟩, hin⟩
        · obtain ⟨q, hq, hin⟩ := inv.used Q j hQ
          refine ⟨q, (inv.ok.live_nodup.mem_erase_iff).2 ⟨?_, hq⟩, hin⟩
          rintro rfl
          exact hQP (inPage_unique (inv.ok.slab hQ).1 hPall hin (inPage_objs hPa))

theorem inv_step {e : Call} {s' : Sys} (hs : step L s e = some s') : ∃ fl' free', Inv L s' fl' free' := by
  cases e with
  | alloc size =>
    obtain ⟨hsize, hs⟩ := Option.ite_none_right_eq_some.1 hs
    obtain ⟨⟨p, h'⟩, hk, rfl⟩ := Option.map_eq_some_iff.1 hs
    exact inv_alloc inv hsize.1 hsize.2 hk
  | free p =>
    obtain ⟨hp, hs⟩ := Option.ite_none_right_eq_some.1 hs
    obtain ⟨h', hk, rfl⟩ := Option.map_eq_some_iff.1 hs
    obtain ⟨hfault, hret⟩ := inv_free inv hp
    have hfree : Last s p → s.h.pm.freePages ≠ 0 := by
      intro hl hnull
      rw [hfault hl hnull] at hk
      cases hk
    obtain ⟨h'', fl', free', hk', hinv, -⟩ := hret hfree
    obtain rfl : h'' = h' := Option.some.inj (hk'.symm.trans hk)
    exact ⟨fl', free', hinv⟩
  | store a v =>
    obtain ⟨⟨b, hb, hle, hlt⟩, hs⟩ := Option.ite_none_right_eq_some.1 hs
    obtain rfl := Option.some.inj hs
    obtain ⟨h1, h2, hobj, hcls⟩ := inv.size b hb
    have hroom := (slabIndex_spec h1 h2).2
    exact ⟨fl, free, inv.ok.scribble hcls hobj (List.mem_map_of_mem hb) hle (by omega) v, inv.size, inv.used⟩

end Steps

/-! ## What holds in every state -/

/-- the live blocks lie in their pages, off the headers and off each other -/
structure Blocks (s : Sys) : Prop where
  room : ∀ b ∈ s.live, b.1 % 8 = 0 ∧ pageBase b.1 + 8 ≤ b.1 ∧ b.1 + b.2 ≤ pageBase b.1 + pageSize
  apart : s.live.Pairwise fun b c => b.1 + b.2 ≤ c.1 ∨ c.1 + c.2 ≤ b.1
  header : ∀ b ∈ s.live, ∀ P i, s.cls P = some i → b.1 + b.2 ≤ P ∨ P + 8 ≤ b.1

/-- the lists of free objects and the headers account for all objects of the slab pages -/
structure Lists (s : Sys) (free : ℕ → List ℕ) : Prop where
  chain : ∀ i < 511, Chain s.h.pm.cell (s.h.slabs i) (free i)
  cls : ∀ p ∈ s.ptrs, ∃ i, s.cls (pageBase p) = some i ∧ p ∈ objs (pageBase p) i
  index : ∀ P i, s.cls P = some i → intLo (s.h.pm.cell P) = i
  count : ∀ P i, s.cls P = some i → intHi (s.h.pm.cell P) = ((objs P i).filter fun a => a ∈ free i).length
  once : ∀ P i, s.cls P = some i → ∀ a ∈ objs P i,
    (a ∈ s.ptrs ∧ (free i).count a = 0) ∨ (a ∉ s.ptrs ∧ (free i).count a = 1)
  used : ∀ P i, s.cls P = some i → ∃ p ∈ s.ptrs, pageBase p = P

/-- the page is back at the page allocator, and none of its objects is left on a list -/
structure Returned (h : Heap) (P : ℕ) : Prop where
  ref : h.pm.ref (pageIndex P) = 0
  free : ∃ fl, Chain h.pm.next h.pm.freePages fl ∧ P ∈ fl
  unlinked : ∀ i < 511, ∃ l, Chain h.pm.cell (h.slabs i) l ∧ ∀ a ∈ l, ¬ InPage P a

section States

variable {L : Layout} {s : Sys} {fl : List ℕ} {free : ℕ → List ℕ} (inv : Inv L s fl free)
include inv

theorem Inv.blocks : Blocks s := by
  have hb : ∀ b ∈ s.live, pageBase b.1 + 8 ≤ b.1 ∧ b.1 + (slabIndex b.2 + 1) * 8 ≤ pageBase b.1 + pageSize ∧
      b.2 ≤ (slabIndex b.2 + 1) * 8 := by
    intro b hb
    obtain ⟨h1, h2, hobj, -⟩ := inv.size b hb
    have hbd := objs_bounds hobj
    exact ⟨hbd.1, hbd.2, (slabIndex_spec h1 h2).2⟩
  refine ⟨fun b hmem => ?_, ?_, fun b hmem P i hP => ?_⟩
  · obtain ⟨-, -, hobj, hcls⟩ := inv.size b hmem
    obtain ⟨k, -, hk⟩ := mem_objs.1 hobj
    have hbd := hb b hmem
    exact ⟨by rw [← hk]; exact obj_aligned (inv.ok.slab hcls).1.aligned, hbd.1, by omega⟩
  · have hnd : s.live.Pairwise fun b c => b.1 ≠ c.1 := List.pairwise_map.1 inv.ok.live_nodup
    refine hnd.imp_of_mem fun {b c} hbm hcm hne => ?_
    obtain ⟨-, -, hob, hcb⟩ := inv.size b hbm
    obtain ⟨-, -, hoc, hcc⟩ := inv.size c hcm
    have hbb := hb b hbm
    have hbc := hb c hcm
    by_cases hpage : pageBase b.1 = pageBase c.1
    · have hcls : slabIndex b.2 = slabIndex c.2 := by
        rw [hpage, hcc] at hcb
        exact (Option.some.inj hcb).symm
      rw [hpage, hcls] at hob
      rcases objs_apart hob hoc hne with hx | hx
      · left
        rw [← hcls] at hx
        omega
      · right
        omega
    · rcases (inv.ok.slab hcb).1.apart (inv.ok.slab hcc).1 hpage with hx | hx
      · left
        omega
      · right
        omega
  · obtain ⟨-, -, hobj, hcls⟩ := inv.size b hmem
    have hbd := hb b hmem
    by_cases hpage : pageBase b.1 = P
    · right
      omega
    · rcases (inv.ok.slab hcls).1.apart (inv.ok.slab hP).1 hpage with hx | hx
      · left
        omega
      · right
        simp only [pageSize] at hx
        omega

theorem Inv.lists : Lists s free := by
  refine ⟨inv.ok.chain, fun p hp => live_page inv hp, fun P i hP => inv.ok.index hP, fun P i hP => ?_,
    fun P i hP a ha => ?_, fun P i hP => ?_⟩
  · rw [inv.ok.count hP, inv.ok.count_objs hP]
  · have hsplit := inv.ok.split hP a ha
    have hnd := (inv.ok.chain i (inv.ok.slab hP).2.2).nodup
    by_cases hlive : a ∈ s.ptrs
    · exact Or.inl ⟨hlive, List.count_eq_zero.2 (hsplit.1 hlive)⟩
    · exact Or.inr ⟨hlive, List.count_eq_one_of_mem hnd (not_not.1 (mt hsplit.2 hlive))⟩
  · obtain ⟨p, hp, hin⟩ := inv.used P i hP
    exact ⟨p, hp, (inPage_iff (inv.ok.slab hP).1.aligned).1 hin⟩

/-- a page of count 0 is a free page, and no object of it is on a list -/
theorem Inv.returned {P : ℕ} (hP : Allocatable L P) (h0 : s.h.pm.ref (pageIndex P) = 0) : Returned s.h P := by
  have hfl := (inv.ok.pages.mem P).2 ⟨hP, h0⟩
  exact ⟨h0, ⟨fl, inv.ok.pages.chain, hfl⟩, fun i hi => ⟨free i, inv.ok.chain i hi, fun a ha =>
    inv.ok.link_notMem hi hfl ha⟩⟩

end States

/-- **Slab safety.** `kinit` returns, and in every state of every run the live blocks are where they should be, the lists
and the headers account for all objects, and `kfree` of a live block returns and gives its page back exactly when it was the
last live block of the page, provided that `free_pages` is not null in that case. -/
theorem slab_safety (L : Layout) (cell : ℕ → ℕ) :
    ∃ m, kinit L cell = some m ∧ ∀ calls s, run (step L) (init m) calls = some s →
      Blocks s ∧ (∃ free, Lists s free) ∧
      ∀ p ∈ s.ptrs, (Last s p → s.h.pm.freePages ≠ 0) →
        ∃ s', step L s (.free p) = some s' ∧ (Returned s'.h (pageBase p) ↔ Last s p) := by
  obtain ⟨m, fl0, hk, hok, -, -⟩ := kinit_ok L cell
  refine ⟨m, hk, fun calls s hr => ?_⟩
  obtain ⟨fl, free, inv⟩ := run_invariant (I := fun s => ∃ fl free, Inv L s fl free)
    (fun s e s' hI _ hs => inv_step hI.choose_spec.choose_spec hs) ⟨fl0, _, inv_init hok⟩ (meets_true _ _ _) hr
  refine ⟨inv.blocks, ⟨free, inv.lists⟩, fun p hp hfree => ?_⟩
  obtain ⟨h', fl', free', hkf, hinv, hlast⟩ := (inv_free inv hp).2 hfree
  obtain ⟨i, hP, -⟩ := live_page inv hp
  have hstep : step L s (.free p) = some ⟨h', s.live.eraseP fun b => b.1 = p,
      if h'.pm.ref (pageIndex (pageBase p)) = 0 then update s.cls (pageBase p) none else s.cls⟩ := by
    rw [step, if_pos hp, hkf, Option.map_some]
  refine ⟨_, hstep, fun hret => ?_, fun hl => ?_⟩
  · exact hlast.2 hret.ref
  · exact hinv.returned (inv.ok.slab hP).1 (hlast.1 hl)

instance (s : Sys) (p : ℕ) : Decidable (Last s p) := inferInstanceAs (Decidable (∀ q ∈ s.ptrs, _ → _))

/-- two blocks of one page are taken, the first is written to and freed -/
def shareOnePage (P : ℕ) : List Call := [.alloc 100, .alloc 100, .store (P + 8) 7, .free (P + 8)]

/-- then the second one takes the page with it -/
theorem slab_safety_shareOnePage : ∃ m s s', kinit smallLayout (fun _ => 1) = some m ∧
    run (step smallLayout) (init m) (shareOnePage (kernelStop - 3 * pageSize)) = some s ∧ Blocks s ∧
    step smallLayout s (.free (kernelStop - 3 * pageSize + 112)) = some s' ∧
    Returned s'.h (kernelStop - 3 * pageSize) := by
  obtain ⟨m, hk, h⟩ := slab_safety smallLayout fun _ => 1
  obtain ⟨s, hs, hptrs, hfree⟩ : ∃ s, ((kinit smallLayout fun _ => 1).bind fun m =>
      run (step smallLayout) (init m) (shareOnePage (kernelStop - 3 * pageSize))) = some s ∧
      s.ptrs = [kernelStop - 3 * pageSize + 112] ∧ s.h.pm.freePages ≠ 0 := run_computes (by decide +kernel)
  rw [hk] at hs
  obtain ⟨hblocks, -, hlast⟩ := h _ s hs
  obtain ⟨s', hstep, hret⟩ := hlast (kernelStop - 3 * pageSize + 112) (by rw [hptrs]; exact List.mem_singleton_self _)
    fun _ => hfree
  have honly : Last s (kernelStop - 3 * pageSize + 112) := by
    intro q hq _
    rw [hptrs] at hq
    exact List.mem_singleton.1 hq
  have hbase : pageBase (kernelStop - 3 * pageSize + 112) = kernelStop - 3 * pageSize := by decide
  rw [hbase] at hret
  exact ⟨m, s, s', hk, hs, hblocks, hstep, hret.2 honly⟩

/-- **The last page.** Three blocks of a page each use up the memory; the page of the first is not given back. -/
theorem last_page_fault : ∃ m s, kinit smallLayout (fun _ => 1) = some m ∧
    run (step smallLayout) (init m) [.alloc 4088, .alloc 4088, .alloc 4088] = some s ∧
    kernelStop - 3 * pageSize + 8 ∈ s.ptrs ∧ Last s (kernelStop - 3 * pageSize + 8) ∧
    kfree smallLayout (kernelStop - 3 * pageSize + 8) s.h = none := by
  have hrun : (((kinit smallLayout fun _ => 1).bind fun m =>
      (run (step smallLayout) (init m) [.alloc 4088, .alloc 4088, .alloc 4088]).map fun s => (m, s)).map fun r =>
        decide (kernelStop - 3 * pageSize + 8 ∈ r.2.ptrs ∧ Last r.2 (kernelStop - 3 * pageSize + 8) ∧
          kfree smallLayout (kernelStop - 3 * pageSize + 8) r.2.h = none)) = some true := by
    decide +kernel
  obtain ⟨⟨m, s⟩, hr, hlast⟩ := run_computes hrun
  obtain ⟨m', hk, hr⟩ := Option.bind_eq_some_iff.1 hr
  obtain ⟨s', hrun', heq⟩ := Option.map_eq_some_iff.1 hr
  obtain ⟨rfl, rfl⟩ := Prod.mk.inj heq
  exact ⟨m', s', hk, hrun', hlast⟩

end OsKernel.Mem.Slab
