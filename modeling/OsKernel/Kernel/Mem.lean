/-
The page allocator (`kernel/mem.c`).

Memory is a function from addresses of 8-byte cells to their contents. A free page holds a `ListNode` at its start (`prev`
at offset 0, `next` at offset 8), `free_pages` points to the first one, the reference counts are in the array `pages`, and
`kalloc_page_cnt` feeds `left_page_cnt`. The owner of an allocated page may write anything to it (`Call.store`).

`PagesOk` ties the three together: the list threaded through the pages is exactly the pages of count 0. Result
(`page_conservation`): it holds in every run from `kinit` that never hands out the last free page. That condition is
needed: with no free page left, `kfree_page` writes through a null pointer.
-/
import OsKernel.Lib.Chain
import OsKernel.Lib.Runs

namespace OsKernel.Mem

open OsKernel.Linked OsKernel.Runs
open Function (update update_of_ne update_self)

/-! ## Addresses -/

/-- `PAGE_SIZE` -/
abbrev pageSize : ℕ := 4096
/-- `KSPACE_MASK` -/
abbrev kspaceMask : ℕ := 0xFFFF000000000000
/-- `EXTMEM` -/
abbrev extmem : ℕ := 0x40000000
/-- `PHYSTOP` -/
abbrev phystop : ℕ := 0x80000000

/-- `P2K` -/
def p2k (a : ℕ) : ℕ := a + kspaceMask

/-- `KSPACE` -/
def kspace (a : ℕ) : ℕ := a ||| kspaceMask

/-- `PAGE_BASE`: `a & ~(PAGE_SIZE - 1)` -/
def pageBase (a : ℕ) : ℕ := a / pageSize * pageSize

/-- `KERNELSTOP` -/
def kernelStop : ℕ := p2k phystop

/-- `PAGE_INDEX` -/
def pageIndex (p : ℕ) : ℕ := (kspace p - p2k extmem) / pageSize

/-- where the linker put `end`: behind the kernel, with at least one page to spare -/
structure Layout where
  endAddr : ℕ
  above : p2k extmem ≤ endAddr
  room : pageBase endAddr + 3 * pageSize ≤ kernelStop

/-- `zero_page` -/
def zeroPage (L : Layout) : ℕ := pageBase L.endAddr + pageSize

/-- `ALLOCATABLE_PAGE_COUNT` -/
def allocatablePageCount (L : Layout) : ℕ := (kernelStop - pageBase L.endAddr) / pageSize - 2

/-- the pages `kinit` puts on the free list -/
def Allocatable (L : Layout) (p : ℕ) : Prop := ∃ k < allocatablePageCount L, p = zeroPage L + pageSize * (k + 1)

instance (L : Layout) (p : ℕ) : Decidable (Allocatable L p) := by unfold Allocatable; infer_instance

/-! ## The allocator -/

structure PageMem where
  /-- memory, by address of the 8-byte cell -/
  cell : ℕ → ℕ
  /-- `free_pages` -/
  freePages : ℕ
  /-- `pages[i].ref.count` -/
  ref : ℕ → ℤ
  /-- `kalloc_page_cnt.count` -/
  cnt : ℤ

/-- `((ListNode *)a)->next` -/
def PageMem.next (m : PageMem) (a : ℕ) : ℕ := m.cell (a + 8)

/-- the loop of `kinit` that threads the free list; `fuel` bounds its turns -/
def kinitLoop : ℕ → ℕ → (ℕ → ℕ) → Option (ℕ → ℕ)
  | 0, _, _ => none
  | fuel + 1, cur, cell =>
    if cur + pageSize = kernelStop then some (update cell (cur + 8) 0)
    else
      let nxt := cur + pageSize
      kinitLoop fuel nxt (update (update cell (cur + 8) nxt) nxt cur)

/-- `kinit` on memory with the given contents; the counts in `pages` are zero from the start -/
def kinit (L : Layout) (cell : ℕ → ℕ) : Option PageMem :=
  let cell := fun a => if zeroPage L ≤ a ∧ a < zeroPage L + pageSize then 0 else cell a
  let freePages := zeroPage L + pageSize
  (kinitLoop ((phystop - extmem) / pageSize) freePages cell).map fun cell => ⟨cell, freePages, fun _ => 0, 0⟩

/-- `kalloc_page`; none when it panics -/
def kallocPage (m : PageMem) : Option (ℕ × PageMem) :=
  let ret := m.freePages
  if ret = 0 then none
  else if m.ref (pageIndex ret) = 0 then
    some (ret, { m with
      cnt := m.cnt + 1, freePages := m.next ret
      ref := update m.ref (pageIndex ret) (m.ref (pageIndex ret) + 1) })
  else none

/-- `kfree_page`; none when it writes through a null `free_pages` -/
def kfreePage (L : Layout) (p : ℕ) (m : PageMem) : Option PageMem :=
  if p = zeroPage L then some m
  else
    let r := m.ref (pageIndex p) - 1
    let m := { m with ref := update m.ref (pageIndex p) r }
    if r ≤ 0 then
      let m := { m with cnt := m.cnt - 1 }
      if m.freePages = 0 then none
      else some { m with
        cell := update (update m.cell m.freePages p) (p + 8) m.freePages, freePages := p }
    else some m

/-- `kshare_page` -/
def ksharePage (addr : ℕ) (m : PageMem) : PageMem :=
  let index := pageIndex (pageBase addr)
  { m with ref := update m.ref index (m.ref index + 1) }

/-- `left_page_cnt` -/
def leftPageCnt (L : Layout) (m : PageMem) : ℕ := (((allocatablePageCount L : ℤ) - m.cnt) % 2 ^ 64).toNat

/-! ## Addresses of pages -/

theorem kspace_eq {a : ℕ} (h1 : kspaceMask ≤ a) (h2 : a < 2 ^ 64) : kspace a = a := by
  obtain ⟨x, rfl⟩ : ∃ x, a = kspaceMask + x := ⟨a - kspaceMask, by omega⟩
  have hx : x < 2 ^ 48 := by
    simp only [kspaceMask] at h2
    omega
  have hor : kspaceMask + x = kspaceMask ||| x := by
    have := Nat.shiftLeft_add_eq_or_of_lt hx 0xFFFF
    simpa [kspaceMask, Nat.shiftLeft_eq] using this
  calc kspace (kspaceMask + x) = (kspaceMask ||| x) ||| kspaceMask := by rw [kspace, hor]
    _ = kspaceMask ||| x := by rw [Nat.or_comm, ← Nat.or_assoc, Nat.or_self]
    _ = kspaceMask + x := hor.symm

theorem pageBase_bounds (a : ℕ) : pageBase a ≤ a ∧ a < pageBase a + pageSize := by
  simp only [pageBase, pageSize]
  omega

section Addresses

variable (L : Layout)

theorem layout_bounds : ∃ e, pageBase L.endAddr = p2k extmem + pageSize * e ∧
    allocatablePageCount L + 2 + e = (phystop - extmem) / pageSize ∧ 1 ≤ allocatablePageCount L := by
  have h1 := L.above
  have h2 := L.room
  refine ⟨(L.endAddr - p2k extmem) / pageSize, ?_, ?_, ?_⟩ <;>
    simp only [allocatablePageCount, pageBase, p2k, kernelStop, kspaceMask, extmem, phystop, pageSize] at h1 h2 ⊢ <;> omega

/-- the last allocatable page ends at the end of memory -/
theorem zeroPage_eq : zeroPage L + pageSize * (allocatablePageCount L + 1) = kernelStop := by
  obtain ⟨e, h1, h2, -⟩ := layout_bounds L
  simp only [zeroPage, h1, kernelStop, p2k, kspaceMask, extmem, phystop, pageSize] at h2 ⊢
  omega

variable {L}

theorem pageIndex_eq (k : ℕ) (hk : k ≤ allocatablePageCount L) :
    pageIndex (zeroPage L + pageSize * k) = pageIndex (zeroPage L) + k := by
  obtain ⟨e, h1, h2, -⟩ := layout_bounds L
  have hz : zeroPage L = p2k extmem + pageSize * (e + 1) := by rw [zeroPage, h1]; ring
  have hks : ∀ j ≤ allocatablePageCount L, kspace (zeroPage L + pageSize * j) = zeroPage L + pageSize * j := by
    intro j hj
    apply kspace_eq
    · simp only [hz, p2k]
      omega
    · simp only [hz, p2k, kspaceMask, extmem, phystop, pageSize] at h2 ⊢
      omega
  have h0 := hks 0 (Nat.zero_le _)
  rw [Nat.mul_zero, Nat.add_zero] at h0
  rw [pageIndex, pageIndex, hks k hk, h0, hz]
  simp only [pageSize]
  omega

theorem Allocatable.ne_zeroPage {p : ℕ} (h : Allocatable L p) : p ≠ zeroPage L := by
  obtain ⟨k, -, rfl⟩ := h
  simp only [pageSize]
  omega

theorem Allocatable.ne_null {p : ℕ} (h : Allocatable L p) : p ≠ 0 := by
  obtain ⟨k, -, rfl⟩ := h
  simp only [pageSize]
  omega

/-- two different pages are a page apart -/
theorem Allocatable.apart {p q : ℕ} (hp : Allocatable L p) (hq : Allocatable L q) (hne : p ≠ q) :
    p + pageSize ≤ q ∨ q + pageSize ≤ p := by
  obtain ⟨k, -, rfl⟩ := hp
  obtain ⟨j, -, rfl⟩ := hq
  simp only [pageSize] at hne ⊢
  omega

theorem Allocatable.index_inj {p q : ℕ} (hp : Allocatable L p) (hq : Allocatable L q)
    (h : pageIndex p = pageIndex q) : p = q := by
  obtain ⟨k, hk, rfl⟩ := hp
  obtain ⟨j, hj, rfl⟩ := hq
  rw [pageIndex_eq (k + 1) hk, pageIndex_eq (j + 1) hj] at h
  have : k = j := by omega
  rw [this]

theorem Allocatable.index_ne_zeroPage {p : ℕ} (hp : Allocatable L p) : pageIndex p ≠ pageIndex (zeroPage L) := by
  obtain ⟨k, hk, rfl⟩ := hp
  rw [pageIndex_eq (k + 1) hk]
  omega

end Addresses

/-! ## The invariant -/

/-- the list threaded from `free_pages` is l, and l is the pages of count 0 -/
structure FreeList (L : Layout) (m : PageMem) (l : List ℕ) : Prop where
  chain : Chain m.next m.freePages l
  mem : ∀ p, p ∈ l ↔ Allocatable L p ∧ m.ref (pageIndex p) = 0
  nonneg : ∀ p, Allocatable L p → 0 ≤ m.ref (pageIndex p)
  cnt : m.cnt + l.length = allocatablePageCount L

/-- nobody has shared the zero page either -/
structure PagesOk (L : Layout) (m : PageMem) (l : List ℕ) : Prop extends FreeList L m l where
  zero : m.ref (pageIndex (zeroPage L)) = 0

/-- the pages from cur on, k of them -/
def pagesFrom (cur k : ℕ) : List ℕ := (List.range k).map fun i => cur + pageSize * i

theorem pagesFrom_succ (cur k : ℕ) : pagesFrom cur (k + 1) = cur :: pagesFrom (cur + pageSize) k := by
  simp only [pagesFrom, List.range_succ_eq_map, List.map_cons, List.map_map]
  congr 1
  apply List.map_congr_left
  intro i _
  simp only [Function.comp, Nat.succ_eq_add_one]
  ring

/-- **The loop of kinit.** With enough fuel it threads all pages up to the end of memory, and writes nothing below. -/
theorem kinitLoop_ok (k fuel cur : ℕ) (cell : ℕ → ℕ) (hend : cur + pageSize * (k + 1) = kernelStop) (hf : k < fuel)
    (hcur : cur ≠ 0) :
    ∃ cell', kinitLoop fuel cur cell = some cell' ∧ Chain (fun a => cell' (a + 8)) cur (pagesFrom cur (k + 1)) ∧
      ∀ a < cur, cell' a = cell a := by
  induction k generalizing fuel cur cell with
  | zero =>
    obtain ⟨fuel, rfl⟩ : ∃ f, fuel = f + 1 := ⟨fuel - 1, by omega⟩
    have hstop : cur + pageSize = kernelStop := by omega
    refine ⟨update cell (cur + 8) 0, by rw [kinitLoop, if_pos hstop], ?_, fun a ha => ?_⟩
    · exact ⟨by simp, by simpa using hcur, by simp [Chain]⟩
    · exact update_of_ne (by omega) _ _
  | succ k ih =>
    obtain ⟨fuel, rfl⟩ : ∃ f, fuel = f + 1 := ⟨fuel - 1, by omega⟩
    have hgo : cur + pageSize ≠ kernelStop := by
      simp only [pageSize] at hend ⊢
      omega
    obtain ⟨cell', hrun, hch, hlow⟩ := ih fuel (cur + pageSize)
      (update (update cell (cur + 8) (cur + pageSize)) (cur + pageSize) cur)
      (by rw [← hend]; ring) (by omega) (by omega)
    have hnext : cell' (cur + 8) = cur + pageSize := by
      rw [hlow (cur + 8) (by simp only [pageSize]; omega),
        update_of_ne (by simp only [pageSize]; omega), update_self]
    refine ⟨cell', by rw [kinitLoop, if_neg hgo]; exact hrun, ?_, fun a ha => ?_⟩
    · rw [pagesFrom_succ]
      refine ⟨rfl, hcur, ?_⟩
      simp only [hnext]
      exact hch
    · rw [hlow a (by omega), update_of_ne (by omega), update_of_ne (by omega)]

theorem kinit_ok (L : Layout) (cell : ℕ → ℕ) :
    ∃ m l, kinit L cell = some m ∧ PagesOk L m l ∧ l ≠ [] ∧ ∀ i, m.ref i = 0 := by
  obtain ⟨e, h1, h2, h3⟩ := layout_bounds L
  have hend := zeroPage_eq L
  obtain ⟨n, hn⟩ : ∃ n, allocatablePageCount L = n + 1 := ⟨allocatablePageCount L - 1, by omega⟩
  have hpages : ∀ p, p ∈ pagesFrom (zeroPage L + pageSize) (n + 1) ↔ Allocatable L p := by
    intro p
    simp only [pagesFrom, List.mem_map, List.mem_range, Allocatable, hn]
    constructor
    · rintro ⟨k, hk, rfl⟩
      exact ⟨k, hk, by ring⟩
    · rintro ⟨k, hk, rfl⟩
      exact ⟨k, hk, by ring⟩
  obtain ⟨cell', hrun, hch, -⟩ := kinitLoop_ok n ((phystop - extmem) / pageSize) (zeroPage L + pageSize)
    (fun a => if zeroPage L ≤ a ∧ a < zeroPage L + pageSize then 0 else cell a)
    (by rw [← hend, hn]; ring) (by omega) (by simp only [pageSize]; omega)
  refine ⟨⟨cell', zeroPage L + pageSize, fun _ => 0, 0⟩, pagesFrom (zeroPage L + pageSize) (n + 1), ?_,
    ⟨⟨hch, fun p => ?_, fun p _ => le_rfl, ?_⟩, rfl⟩, ?_, fun _ => rfl⟩
  · rw [kinit, hrun]
    rfl
  · rw [hpages]
    simp
  · simp [pagesFrom, hn]
  · rw [pagesFrom_succ]
    exact List.cons_ne_nil _ _

namespace FreeList

variable {L : Layout} {m : PageMem} {l : List ℕ} (h : FreeList L m l)
include h

theorem allocatable {p : ℕ} (hp : p ∈ l) : Allocatable L p := ((h.mem p).1 hp).1

theorem leftPageCnt_eq : leftPageCnt L m = l.length := by
  obtain ⟨e, -, h2, -⟩ := layout_bounds L
  have hc := h.cnt
  have hle : l.length ≤ allocatablePageCount L := by
    have hsub : l ⊆ pagesFrom (zeroPage L + pageSize) (allocatablePageCount L) := by
      intro p hp
      obtain ⟨k, hk, rfl⟩ := h.allocatable hp
      exact List.mem_map.2 ⟨k, List.mem_range.2 hk, by ring⟩
    have hlen := (h.chain.nodup.subperm hsub).length_le
    simpa [pagesFrom] using hlen
  have hlt : allocatablePageCount L < 2 ^ 64 := by
    simp only [phystop, extmem, pageSize] at h2
    omega
  have heq : (allocatablePageCount L : ℤ) - m.cnt = l.length := by omega
  rw [leftPageCnt, heq, Int.emod_eq_of_lt (by omega) (by omega)]
  exact Int.toNat_natCast _

/-- the first free page is handed out -/
theorem kalloc {p : ℕ} {l' : List ℕ} (hl : l = p :: l') :
    ∃ m', kallocPage m = some (p, m') ∧ FreeList L m' l' ∧ m.ref (pageIndex p) = 0 ∧
      m' = { m with cnt := m.cnt + 1, freePages := m'.freePages, ref := update m.ref (pageIndex p) 1 } := by
  subst hl
  obtain ⟨hp, hne, hch⟩ := h.chain
  obtain ⟨hpa, hp0⟩ := (h.mem p).1 List.mem_cons_self
  refine ⟨{ m with cnt := m.cnt + 1, freePages := m.next p, ref := update m.ref (pageIndex p) 1 }, ?_,
    ⟨hch, fun q => ?_, fun q hq => ?_, ?_⟩, hp0, rfl⟩
  · simp [kallocPage, hp, hne, hp0]
  · have hq := h.mem q
    rw [List.mem_cons] at hq
    by_cases hqp : q = p
    · subst hqp
      simp [(List.nodup_cons.1 h.chain.nodup).1]
    · constructor
      · intro hql
        obtain ⟨hqa, hq0⟩ := hq.1 (Or.inr hql)
        have hidx : pageIndex q ≠ pageIndex p := fun hi => hqp (hqa.index_inj hpa hi)
        exact ⟨hqa, by simpa only [update_of_ne hidx] using hq0⟩
      · rintro ⟨hqa, hq0⟩
        have hidx : pageIndex q ≠ pageIndex p := fun hi => hqp (hqa.index_inj hpa hi)
        simp only [update_of_ne hidx] at hq0
        exact (hq.2 ⟨hqa, hq0⟩).resolve_left hqp
  · by_cases hidx : pageIndex q = pageIndex p
    · simp [hidx]
    · simp only [update_of_ne hidx]
      exact h.nonneg q hq
  · have hc := h.cnt
    simp only [List.length_cons, Nat.cast_add, Nat.cast_one] at hc
    show m.cnt + 1 + (l'.length : ℤ) = _
    omega

/-- what `kalloc_page` has done when it returns -/
theorem kalloc_some {p : ℕ} {m' : PageMem} (hk : kallocPage m = some (p, m')) :
    ∃ l', l = p :: l' ∧ FreeList L m' l' ∧ m.ref (pageIndex p) = 0 ∧
      m'.ref = update m.ref (pageIndex p) 1 ∧ m'.cell = m.cell := by
  cases l with
  | nil =>
    rw [kallocPage, if_pos (h.chain.head_eq_zero.2 rfl)] at hk
    exact absurd hk (by simp)
  | cons q l' =>
    obtain ⟨m1, hk', hok, h0, hm⟩ := h.kalloc rfl
    rw [hk'] at hk
    obtain ⟨rfl, rfl⟩ := Prod.mk.inj (Option.some.inj hk)
    exact ⟨l', rfl, hok, h0, by rw [hm], by rw [hm]⟩

/-- the count of an allocated page is changed and stays positive -/
theorem recount {p : ℕ} (hpos : 0 < m.ref (pageIndex p)) {r : ℤ} (hr : 0 < r) :
    FreeList L { m with ref := update m.ref (pageIndex p) r } l := by
  refine ⟨h.chain, fun q => ?_, fun q hq => ?_, h.cnt⟩
  · rw [h.mem q]
    by_cases hidx : pageIndex q = pageIndex p
    · simp only [hidx, update_self]
      exact ⟨fun hq => absurd hq.2 hpos.ne', fun hq => absurd hq.2 hr.ne'⟩
    · simp only [update_of_ne hidx]
  · by_cases hidx : pageIndex q = pageIndex p
    · simp only [hidx, update_self]
      exact hr.le
    · simp only [update_of_ne hidx]
      exact h.nonneg q hq

/-- the last reference is dropped: the page becomes the first free one -/
theorem kfree {p : ℕ} (hp : Allocatable L p) (hone : m.ref (pageIndex p) = 1) (hl : l ≠ []) :
    ∃ m', kfreePage L p m = some m' ∧ FreeList L m' (p :: l) ∧
      m'.ref = update m.ref (pageIndex p) 0 ∧
      ∀ a, a ≠ m.freePages → a ≠ p + 8 → m'.cell a = m.cell a := by
  have hfree : m.freePages ≠ 0 := fun hz => hl (h.chain.head_eq_zero.1 hz)
  have hpl : p ∉ l := fun hx => absurd ((h.mem p).1 hx).2 (by rw [hone]; decide)
  have hhead : m.freePages ∈ l := by
    cases l with
    | nil => exact absurd rfl hl
    | cons a l => exact h.chain.1 ▸ List.mem_cons_self
  set m' : PageMem := { m with
    cell := update (update m.cell m.freePages p) (p + 8) m.freePages, freePages := p
    ref := update m.ref (pageIndex p) 0, cnt := m.cnt - 1 } with hm'
  refine ⟨m', ?_, ⟨⟨rfl, hp.ne_null, ?_⟩, fun q => ?_, fun q hq => ?_, ?_⟩, rfl, fun a ha ha' => ?_⟩
  · simp [kfreePage, hp.ne_zeroPage, hone, hfree, hm']
  · -- the new links are in p and in the prev field of the old head
    have hnext : m'.next p = m.freePages := update_self _ _ _
    rw [hnext]
    refine h.chain.congr fun a ha => ?_
    have hap : a ≠ p := fun hx => hpl (hx ▸ ha)
    have hne1 : a + 8 ≠ p + 8 := by omega
    have hne2 : a + 8 ≠ m.freePages := by
      intro hx
      by_cases hah : a = m.freePages
      · omega
      · rcases (h.allocatable ha).apart (h.allocatable hhead) hah with hx' | hx' <;> simp only [pageSize] at hx' <;> omega
    simp only [PageMem.next, hm', update_of_ne hne1, update_of_ne hne2]
  · rw [List.mem_cons, h.mem q]
    by_cases hidx : pageIndex q = pageIndex p
    · simp only [hm', hidx, update_self]
      constructor
      · rintro (rfl | ⟨-, h0⟩)
        · exact ⟨hp, trivial⟩
        · rw [hone] at h0
          exact absurd h0 (by decide)
      · rintro ⟨hqa, -⟩
        exact Or.inl (hqa.index_inj hp hidx)
    · have hqp : q ≠ p := fun hx => hidx (by rw [hx])
      simp only [hm', update_of_ne hidx, hqp, false_or]
  · by_cases hidx : pageIndex q = pageIndex p
    · simp [hm', hidx]
    · simp only [hm', update_of_ne hidx]
      exact h.nonneg q hq
  · have hc := h.cnt
    simp only [List.length_cons, Nat.cast_add, Nat.cast_one]
    show m.cnt - 1 + ((l.length : ℤ) + 1) = _
    omega
  · simp only [hm', update_of_ne ha, update_of_ne ha']

/-- writes off the links of the free pages leave the list alone -/
theorem recell {cell : ℕ → ℕ} (hc : ∀ p ∈ l, cell (p + 8) = m.cell (p + 8)) : FreeList L { m with cell } l :=
  ⟨h.chain.congr hc, h.mem, h.nonneg, h.cnt⟩

/-- a free page is no part of an owned one -/
theorem link_outside {p q : ℕ} (hp : Allocatable L p) (hpos : 0 < m.ref (pageIndex p)) (hq : q ∈ l) :
    q + 8 < p ∨ p + pageSize ≤ q + 8 := by
  have hqp : q ≠ p := by
    rintro rfl
    exact absurd ((h.mem q).1 hq).2 hpos.ne'
  rcases (h.allocatable hq).apart hp hqp with hx | hx <;> simp only [pageSize] at hx ⊢ <;> omega

/-- a write to a page that is not free leaves the list alone -/
theorem store {p a : ℕ} (hp : Allocatable L p) (hpos : 0 < m.ref (pageIndex p)) (ha : p ≤ a) (ha' : a < p + pageSize)
    (v : ℕ) : FreeList L { m with cell := update m.cell a v } l := by
  refine h.recell fun b hb => update_of_ne ?_ _ _
  rcases h.link_outside hp hpos hb with hx | hx <;> omega

end FreeList

namespace PagesOk

variable {L : Layout} {m : PageMem} {l : List ℕ} (h : PagesOk L m l)
include h

theorem kalloc {p : ℕ} {l' : List ℕ} (hl : l = p :: l') :
    ∃ m', kallocPage m = some (p, m') ∧ PagesOk L m' l' ∧ m.ref (pageIndex p) = 0 ∧
      m' = { m with cnt := m.cnt + 1, freePages := m'.freePages, ref := update m.ref (pageIndex p) 1 } := by
  have hp : Allocatable L p := h.allocatable (hl ▸ List.mem_cons_self)
  obtain ⟨m', hk, hok, h0, hm⟩ := h.toFreeList.kalloc hl
  refine ⟨m', hk, ⟨hok, ?_⟩, h0, hm⟩
  rw [hm]
  simp only [update_of_ne hp.index_ne_zeroPage.symm]
  exact h.zero

theorem recount {p : ℕ} (hp : Allocatable L p) (hpos : 0 < m.ref (pageIndex p)) {r : ℤ} (hr : 0 < r) :
    PagesOk L { m with ref := update m.ref (pageIndex p) r } l := by
  refine ⟨h.toFreeList.recount hpos hr, ?_⟩
  simp only [update_of_ne hp.index_ne_zeroPage.symm]
  exact h.zero

theorem kfree {p : ℕ} (hp : Allocatable L p) (hone : m.ref (pageIndex p) = 1) (hl : l ≠ []) :
    ∃ m', kfreePage L p m = some m' ∧ PagesOk L m' (p :: l) ∧
      m'.ref = update m.ref (pageIndex p) 0 ∧
      ∀ a, a ≠ m.freePages → a ≠ p + 8 → m'.cell a = m.cell a := by
  obtain ⟨m', hk, hok, href, hcell⟩ := h.toFreeList.kfree hp hone hl
  refine ⟨m', hk, ⟨hok, ?_⟩, href, hcell⟩
  rw [href, update_of_ne hp.index_ne_zeroPage.symm]
  exact h.zero

theorem recell {cell : ℕ → ℕ} (hc : ∀ p ∈ l, cell (p + 8) = m.cell (p + 8)) : PagesOk L { m with cell } l :=
  ⟨h.toFreeList.recell hc, h.zero⟩

theorem store {p a : ℕ} (hp : Allocatable L p) (hpos : 0 < m.ref (pageIndex p)) (ha : p ≤ a) (ha' : a < p + pageSize)
    (v : ℕ) : PagesOk L { m with cell := update m.cell a v } l :=
  ⟨h.toFreeList.store hp hpos ha ha' v, h.zero⟩

end PagesOk

/-! ## Runs -/

inductive Call where
  | allocPage
  | sharePage (addr : ℕ)
  | freePage (p : ℕ)
  /-- the owner of a page writes to it -/
  | store (a v : ℕ)

structure Sys where
  m : PageMem
  /-- calls of `kshare_page` and of `kfree_page` since each page was last handed out -/
  shares : ℕ → ℕ
  frees : ℕ → ℕ

def init (m : PageMem) : Sys := ⟨m, fun _ => 0, fun _ => 0⟩

/-- p is a page that somebody has -/
def Owned (L : Layout) (m : PageMem) (p : ℕ) : Prop := Allocatable L p ∧ 0 < m.ref (pageIndex p)

instance (L : Layout) (m : PageMem) (p : ℕ) : Decidable (Owned L m p) := by unfold Owned; infer_instance

def step (L : Layout) (s : Sys) : Call → Option Sys
  | .allocPage => (kallocPage s.m).map fun r =>
      ⟨r.2, update s.shares r.1 0, update s.frees r.1 0⟩
  | .sharePage addr =>
    if Owned L s.m (pageBase addr) then
      some { s with
        m := ksharePage addr s.m
        shares := update s.shares (pageBase addr) (s.shares (pageBase addr) + 1) }
    else none
  | .freePage p =>
    if Owned L s.m p then
      (kfreePage L p s.m).map fun m => { s with m, frees := update s.frees p (s.frees p + 1) }
    else none
  | .store a v =>
    if Owned L s.m (pageBase a) then some { s with m := { s.m with cell := update s.m.cell a v } } else none

/-- the last free page is not handed out -/
def NotLast (s : Sys) : Call → Prop
  | .allocPage => s.m.next s.m.freePages ≠ 0
  | _ => True

structure Inv (L : Layout) (s : Sys) (l : List ℕ) : Prop where
  pages : PagesOk L s.m l
  some_free : l ≠ []
  count : ∀ p, Owned L s.m p → s.m.ref (pageIndex p) + s.frees p = 1 + s.shares p

theorem inv_init {L : Layout} {m : PageMem} {l : List ℕ} (h : PagesOk L m l) (hl : l ≠ [])
    (h0 : ∀ i, m.ref i = 0) : Inv L (init m) l :=
  ⟨h, hl, fun p hp => absurd hp.2 (by simp [init, h0])⟩

section Steps

variable {L : Layout} {s : Sys} {l : List ℕ} (h : Inv L s l)
include h

theorem inv_alloc (hlast : s.m.next s.m.freePages ≠ 0) {p : ℕ} {m' : PageMem} (hk : kallocPage s.m = some (p, m')) :
    ∃ l', Inv L ⟨m', update s.shares p 0, update s.frees p 0⟩ l' := by
  obtain ⟨q, l', hl⟩ : ∃ q l', l = q :: l' := List.exists_cons_of_ne_nil h.some_free
  obtain ⟨m'', hk', hok, h0, hm⟩ := h.pages.kalloc hl
  rw [hk'] at hk
  obtain ⟨rfl, rfl⟩ := Prod.mk.inj (Option.some.inj hk)
  have hq := h.pages.allocatable (hl ▸ List.mem_cons_self : q ∈ l)
  have href : m''.ref = update s.m.ref (pageIndex q) 1 := by rw [hm]
  refine ⟨l', hok, ?_, fun r hr => ?_⟩
  · -- the list goes on behind the page handed out
    rintro rfl
    have hch := h.pages.chain
    rw [hl] at hch
    exact hlast (by rw [hch.1]; exact hch.2.2)
  · by_cases hrq : r = q
    · subst hrq
      simp [href]
    · have hidx : pageIndex r ≠ pageIndex q := fun hi => hrq (hr.1.index_inj hq hi)
      have hold := hr.2
      simp only [href, update_of_ne hidx] at hold
      simp only [href, update_of_ne hidx, update_of_ne hrq]
      exact h.count r ⟨hr.1, hold⟩

theorem inv_recount {p : ℕ} (hp : Owned L s.m p) {r : ℤ} (hr : 0 < r) {shares frees : ℕ → ℕ}
    (hother : ∀ q, q ≠ p → shares q = s.shares q ∧ frees q = s.frees q) (hcount : r + frees p = 1 + shares p) :
    Inv L ⟨{ s.m with ref := update s.m.ref (pageIndex p) r }, shares, frees⟩ l := by
  refine ⟨h.pages.recount hp.1 hp.2 hr, h.some_free, fun q hq => ?_⟩
  by_cases hqp : q = p
  · subst hqp
    simpa using hcount
  · have hidx : pageIndex q ≠ pageIndex p := fun hi => hqp (hq.1.index_inj hp.1 hi)
    have hold := hq.2
    simp only [update_of_ne hidx] at hold
    simp only [update_of_ne hidx, hother q hqp]
    exact h.count q ⟨hq.1, hold⟩

theorem inv_free {p : ℕ} (hp : Owned L s.m p) :
    ∃ m' l', kfreePage L p s.m = some m' ∧
      Inv L { s with m := m', frees := update s.frees p (s.frees p + 1) } l' ∧
      (p ∈ l' ↔ s.frees p + 1 = 1 + s.shares p) := by
  have hcount := h.count p hp
  have hpos := hp.2
  have hother : ∀ q, q ≠ p → s.shares q = s.shares q ∧ update s.frees p (s.frees p + 1) q = s.frees q :=
    fun q hq => ⟨rfl, update_of_ne hq _ _⟩
  by_cases hone : s.m.ref (pageIndex p) = 1
  · obtain ⟨m', hk, hok, href, -⟩ := h.pages.kfree hp.1 hone h.some_free
    refine ⟨m', p :: l, hk, ⟨hok, List.cons_ne_nil _ _, fun q hq => ?_⟩, ?_⟩
    · have hqp : q ≠ p := by
        rintro rfl
        exact absurd hq.2 (by simp [href])
      have hidx : pageIndex q ≠ pageIndex p := fun hi => hqp (hq.1.index_inj hp.1 hi)
      have hold := hq.2
      simp only [href, update_of_ne hidx] at hold
      simp only [href, update_of_ne hidx, hother q hqp]
      exact h.count q ⟨hq.1, hold⟩
    · simp only [List.mem_cons, true_or, true_iff]
      omega
  · refine ⟨{ s.m with ref := update s.m.ref (pageIndex p) (s.m.ref (pageIndex p) - 1) }, l, ?_,
      inv_recount h hp (by omega) hother (by rw [update_self]; push_cast; omega), ?_⟩
    · have hgt : ¬ s.m.ref (pageIndex p) - 1 ≤ 0 := by omega
      simp only [kfreePage, if_neg hp.1.ne_zeroPage, if_neg hgt]
    · have hpl : p ∉ l := fun hx => absurd ((h.pages.mem p).1 hx).2 hpos.ne'
      simp only [hpl, false_iff]
      omega

theorem inv_step {e : Call} {s' : Sys} (hlast : NotLast s e) (hs : step L s e = some s') : ∃ l', Inv L s' l' := by
  cases e with
  | allocPage =>
    obtain ⟨⟨p, m'⟩, hk, rfl⟩ := Option.map_eq_some_iff.1 hs
    exact inv_alloc h hlast hk
  | sharePage addr =>
    obtain ⟨hp, rfl⟩ := guard_enabled hs
    have hcount := h.count _ hp
    have hpos := hp.2
    exact ⟨l, inv_recount h hp (by omega) (fun q hq => ⟨update_of_ne hq _ _, rfl⟩)
      (by rw [update_self]; push_cast; omega)⟩
  | freePage p =>
    simp only [step] at hs
    split_ifs at hs with hp
    obtain ⟨m', l', hk, hinv, -⟩ := inv_free h hp
    rw [hk] at hs
    exact ⟨l', Option.some.inj hs ▸ hinv⟩
  | store a v =>
    obtain ⟨hp, rfl⟩ := guard_enabled hs
    obtain ⟨hle, hlt⟩ := pageBase_bounds a
    exact ⟨l, h.pages.store hp.1 hp.2 hle hlt v, h.some_free, h.count⟩

end Steps

/-- **Conservation.** `kinit` returns, and in every run that never hands out the last free page: the list threaded from
`free_pages` has no duplicates and holds exactly the allocatable pages of count 0; the others have a positive count;
`left_page_cnt` is its length; the zero page is on neither side; `kalloc_page` returns the first free page with its count
set from 0 to 1; and `kfree_page` puts a page back exactly when it has been called once more than `kshare_page`. -/
theorem page_conservation (L : Layout) (cell : ℕ → ℕ) :
    ∃ m, kinit L cell = some m ∧ ∀ (calls : List Call) (s : Sys), Meets (step L) NotLast (init m) calls →
      run (step L) (init m) calls = some s →
      ∃ l, Chain s.m.next s.m.freePages l ∧ l.Nodup ∧ (∀ p ∈ l, ¬ 0 < s.m.ref (pageIndex p)) ∧
        (∀ p, Allocatable L p ↔ p ∈ l ∨ Owned L s.m p) ∧ leftPageCnt L s.m = l.length ∧
        (zeroPage L ∉ l ∧ s.m.ref (pageIndex (zeroPage L)) = 0) ∧
        (∃ p m', kallocPage s.m = some (p, m') ∧ p ∈ l ∧ p ≠ zeroPage L ∧ s.m.ref (pageIndex p) = 0 ∧
          m'.ref (pageIndex p) = 1) ∧
        ∀ p, Owned L s.m p → ∃ m', kfreePage L p s.m = some m' ∧
          ∀ l', Chain m'.next m'.freePages l' → (p ∈ l' ↔ s.frees p + 1 = 1 + s.shares p) := by
  obtain ⟨m, l0, hk, hok, hne, hzero⟩ := kinit_ok L cell
  refine ⟨m, hk, fun calls s hm hr => ?_⟩
  obtain ⟨l, h⟩ := run_invariant (I := fun s => ∃ l, Inv L s l)
    (fun s e s' hI hC hs => inv_step hI.choose_spec hC hs) ⟨l0, inv_init hok hne hzero⟩ hm hr
  obtain ⟨q, l', hl⟩ : ∃ q l', l = q :: l' := List.exists_cons_of_ne_nil h.some_free
  obtain ⟨m', hk', -, h0, hm'⟩ := h.pages.kalloc hl
  have hq : q ∈ l := hl ▸ List.mem_cons_self
  refine ⟨l, h.pages.chain, h.pages.chain.nodup, fun p hp => ?_, fun p => ?_, h.pages.leftPageCnt_eq,
    ⟨fun hz => (h.pages.allocatable hz).ne_zeroPage rfl, h.pages.zero⟩,
    ⟨q, m', hk', hq, (h.pages.allocatable hq).ne_zeroPage, h0, by rw [hm']; simp⟩, fun p hp => ?_⟩
  · rw [((h.pages.mem p).1 hp).2]
    exact lt_irrefl 0
  · rw [h.pages.mem p]
    constructor
    · intro hp
      rcases (h.pages.nonneg p hp).eq_or_lt with h0 | hpos
      · exact Or.inl ⟨hp, h0.symm⟩
      · exact Or.inr ⟨hp, hpos⟩
    · rintro (hp | hp)
      · exact hp.1
      · exact hp.1
  · obtain ⟨m'', l'', hf, hinv, hiff⟩ := inv_free h hp
    refine ⟨m'', hf, fun k hk => ?_⟩
    rw [← hinv.pages.chain.unique hk]
    exact hiff

/-- `end` five pages below the top of memory: three pages to hand out -/
def smallLayout : Layout := ⟨kernelStop - 5 * pageSize, by decide, by decide⟩

instance (s : Sys) : (e : Call) → Decidable (NotLast s e)
  | .allocPage => inferInstanceAs (Decidable (_ ≠ _))
  | .sharePage _ | .freePage _ | .store _ _ => inferInstanceAs (Decidable True)

/-- a page is taken, shared, scribbled on and freed twice; one page is taken after that -/
def shareAndFree (p : ℕ) : List Call :=
  [.allocPage, .sharePage p, .store (p + 8) 7, .freePage p, .freePage p, .allocPage]

/-- two of the three pages are left, on one list -/
theorem page_conservation_shareAndFree : ∃ m s, kinit smallLayout (fun _ => 1) = some m ∧
    run (step smallLayout) (init m) (shareAndFree (kernelStop - 3 * pageSize)) = some s ∧
    ∃ l, Chain s.m.next s.m.freePages l ∧ l.Nodup ∧ l.length = 2 := by
  obtain ⟨m, hk, h⟩ := page_conservation smallLayout fun _ => 1
  have hrun : (((kinit smallLayout fun _ => 1).bind fun m =>
      run (fun s e => if NotLast s e then step smallLayout s e else none) (init m)
        (shareAndFree (kernelStop - 3 * pageSize))).map fun s => leftPageCnt smallLayout s.m) = some 2 := by
    decide +kernel
  obtain ⟨s, hs, hcnt⟩ := Option.map_eq_some_iff.1 hrun
  rw [hk] at hs
  obtain ⟨hm, hr⟩ := run_guarded (C := NotLast) hs
  obtain ⟨l, hch, hnd, -, -, hleft, -⟩ := h _ s hm hr
  exact ⟨m, s, hk, hr, l, hch, hnd, hleft.symm.trans hcnt⟩

end OsKernel.Mem
