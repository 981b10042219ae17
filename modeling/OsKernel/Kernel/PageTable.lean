/-
Page tables (`kernel/pt.c`, `aarch64/mmu.h`).

The four levels of a table lie in pages of the page allocator; an entry is an 8-byte cell. `get_pte` walks from the root
and, if asked to, takes a cleared page for every missing level; `vmmap` stores one entry of the last level. A page table
that does not exist yet has root 0.

The family pt holds the roots of all address spaces. `TablesOk` says that all tables lie in allocated pages and that
none is used twice. Results, for one call on one address space:
- `getPte_alloc`: the entry it returns exists, no entry of any address space changes, and only pages that were free have
  become tables (`TableStep`);
- `entry_write`: a store through that entry changes the entry of one virtual page of one address space;
- `vmmap_spec`: both together.
-/
import OsKernel.Kernel.Mem
import OsKernel.Lib.Radix

namespace OsKernel.Kernel.PageTable

open OsKernel.Mem OsKernel.Radix
open Function (update update_eq_self update_of_ne update_self)

/-! ## Entries -/

/-- `PTE_VALID` -/
abbrev pteValid : ℕ := 0x1
/-- `PTE_TABLE` -/
abbrev pteTable : ℕ := 0x3
/-- `PTE_USER` -/
abbrev pteUser : ℕ := 0x40
/-- `PTE_RO` -/
abbrev pteRo : ℕ := 0x80
/-- `PTE_RW` -/
abbrev pteRw : ℕ := 0
/-- `PTE_USER_DATA`: `PTE_USER | PTE_NORMAL | PTE_PAGE` -/
abbrev pteUserData : ℕ := 0x647

/-- `K2P` -/
def k2p (a : ℕ) : ℕ := (a + 2 ^ 64 - kspaceMask) % 2 ^ 64

/-- `PTE_ADDRESS` -/
def pteAddress (e : ℕ) : ℕ := e &&& 0x0000FFFFFFFFF000

/-- `PTE_FLAGS` -/
def pteFlags (e : ℕ) : ℕ := e &&& 0xFFFF000000000FFF

/-- `VA_OFFSET` -/
def vaOffset (va : ℕ) : ℕ := va &&& 0xFFF

/-- `VA_PART0` -/
def vaPart0 (va : ℕ) : ℕ := (va &&& 0xFF8000000000) >>> 39
/-- `VA_PART1` -/
def vaPart1 (va : ℕ) : ℕ := (va &&& 0x7FC0000000) >>> 30
/-- `VA_PART2` -/
def vaPart2 (va : ℕ) : ℕ := (va &&& 0x3FE00000) >>> 21
/-- `VA_PART3` -/
def vaPart3 (va : ℕ) : ℕ := (va &&& 0x1FF000) >>> 12

/-- the entry is valid, may be used from user mode, and only for reading -/
def Valid (e : ℕ) : Prop := e &&& pteValid ≠ 0
def User (e : ℕ) : Prop := e &&& pteUser ≠ 0
def ReadOnly (e : ℕ) : Prop := e &&& pteRo ≠ 0

instance (e : ℕ) : Decidable (Valid e) := inferInstanceAs (Decidable (_ ≠ _))
instance (e : ℕ) : Decidable (User e) := inferInstanceAs (Decidable (_ ≠ _))
instance (e : ℕ) : Decidable (ReadOnly e) := inferInstanceAs (Decidable (_ ≠ _))

/-- the page behind an entry, by its kernel address: `P2K(PTE_ADDRESS(e))` -/
def frame (e : ℕ) : ℕ := p2k (pteAddress e)

/-- the table behind an entry of one of the first three levels -/
def tableOf (e : ℕ) : Option ℕ := if e &&& pteValid = 0 then none else some (frame e)

/-! ## The functions of pt.c -/

/-- `memset(p, 0, PAGE_SIZE)` -/
def clearPage (p : ℕ) (cell : ℕ → ℕ) : ℕ → ℕ := fun a => if p ≤ a ∧ a < p + pageSize then 0 else cell a

/-- the root: one more page when there is none and one is wanted; 0 is NULL -/
def rootTable (alloc : Bool) (pt : ℕ) (m : PageMem) : Option (ℕ × PageMem) :=
  if pt = 0 then
    if alloc then (kallocPage m).map fun r => (r.1, { r.2 with cell := clearPage r.1 r.2.cell }) else some (0, m)
  else some (pt, m)

/-- one level of `get_pte`: the table behind entry i of table t -/
def nextTable (alloc : Bool) (t i : ℕ) (m : PageMem) : Option (ℕ × PageMem) :=
  let e := m.cell (t + 8 * i)
  if e &&& pteValid = 0 then
    if alloc then (kallocPage m).map fun r =>
      (r.1, { r.2 with cell := update (clearPage r.1 r.2.cell) (t + 8 * i) (k2p r.1 ||| pteTable) })
    else some (0, m)
  else some (frame e, m)

/-- the levels below table t, with the index used in each -/
def descend (alloc : Bool) : ℕ → List ℕ → PageMem → Option (ℕ × PageMem)
  | t, [], m => some (t, m)
  | t, i :: q, m => (nextTable alloc t i m).bind fun r => if r.1 = 0 then some (0, r.2) else descend alloc r.1 q r.2

/-- the indices of va in the first three levels -/
def path (va : ℕ) : List ℕ := [vaPart0 va, vaPart1 va, vaPart2 va]

/-- `get_pte`: the address of the entry (0 is NULL) and the root; none when `kalloc_page` panics -/
def getPte (alloc : Bool) (pt va : ℕ) (m : PageMem) : Option (ℕ × ℕ × PageMem) :=
  (rootTable alloc pt m).bind fun r0 =>
    if r0.1 = 0 then some (0, pt, r0.2)
    else (descend alloc r0.1 (path va) r0.2).map fun r =>
      (if r.1 = 0 then 0 else r.1 + 8 * vaPart3 va, r0.1, r.2)

/-- `*pte = e` -/
def setPte (pte e : ℕ) (m : PageMem) : PageMem := { m with cell := update m.cell pte e }

/-- `vmmap`: the root afterwards -/
def vmmap (pt va ka flags : ℕ) (m : PageMem) : Option (ℕ × PageMem) :=
  (getPte true pt va m).bind fun r =>
    if r.1 = 0 then none else some (r.2.1, setPte r.1 (pageBase (k2p ka) ||| flags) r.2.2)

/-- the loops of `free_pgdir`, one in the other: all tables below entry after entry of t, then t itself; a table of the last
level goes as it is -/
def freeTables (L : Layout) : ℕ → ℕ → PageMem → Option PageMem
  | 0, t, m => kfreePage L t m
  | d + 1, t, m =>
    ((List.range 512).foldlM (fun m i =>
      let e := m.cell (t + 8 * i)
      if e &&& pteValid = 0 then some m else freeTables L d (frame e) m) m).bind (kfreePage L t)

/-- `free_pgdir` without sections: the root afterwards; none when `kfree_page` does not return -/
def freePgdir (L : Layout) (pt : ℕ) (m : PageMem) : Option (ℕ × PageMem) :=
  if pt = 0 then some (pt, m) else (freeTables L 3 pt m).map fun m => (0, m)

/-! ## Reading the tables -/

/-- the entry of va; 0 when a level is missing -/
def entry (m : PageMem) (pt va : ℕ) : ℕ :=
  match tableAt tableOf m.cell pt (path va) with
  | some t => m.cell (t + 8 * vaPart3 va)
  | none => 0

/-- bits 12 to 47 of an address -/
def vpn (va : ℕ) : ℕ := va / pageSize % 2 ^ 36

/-! ## Bits -/

theorem vaOffset_eq (va : ℕ) : vaOffset va = va % pageSize := Nat.and_two_pow_sub_one_eq_mod va 12

theorem part_eq (va mask k : ℕ) (hmask : mask >>> k = 2 ^ 9 - 1) : (va &&& mask) >>> k = va / 2 ^ k % 512 := by
  rw [Nat.shiftRight_and_distrib, hmask, Nat.and_two_pow_sub_one_eq_mod, Nat.shiftRight_eq_div_pow]

theorem vaPart0_eq (va : ℕ) : vaPart0 va = va / 2 ^ 39 % 512 := part_eq va _ 39 (by decide)
theorem vaPart1_eq (va : ℕ) : vaPart1 va = va / 2 ^ 30 % 512 := part_eq va _ 30 (by decide)
theorem vaPart2_eq (va : ℕ) : vaPart2 va = va / 2 ^ 21 % 512 := part_eq va _ 21 (by decide)
theorem vaPart3_eq (va : ℕ) : vaPart3 va = va / 2 ^ 12 % 512 := part_eq va _ 12 (by decide)

theorem vaPart3_lt (va : ℕ) : vaPart3 va < 512 := by
  rw [vaPart3_eq]
  exact Nat.mod_lt _ (by decide)

variable {a flags i ka p r t u va : ℕ} {alloc : Bool} {m'' : PageMem} {q rest : List ℕ}

/-- the four indices are the digits of the page number -/
theorem path_inj {va' : ℕ} : path va = path va' ∧ vaPart3 va = vaPart3 va' ↔ vpn va = vpn va' := by
  simp only [path, List.cons.injEq, and_true, vaPart0_eq, vaPart1_eq, vaPart2_eq, vaPart3_eq, vpn, pageSize]
  omega

/-- an entry belongs to a page number -/
theorem entry_vpn (m : PageMem) (pt : ℕ) {va' : ℕ} (h : vpn va = vpn va') : entry m pt va = entry m pt va' := by
  obtain ⟨hpath, hpart⟩ := path_inj.2 h
  rw [entry, entry, hpath, hpart]

theorem isPath_path (va : ℕ) : IsPath 512 3 (path va) := by
  refine ⟨le_rfl, fun i hi => ?_⟩
  simp only [path, List.mem_cons, List.not_mem_nil, or_false] at hi
  rcases hi with rfl | rfl | rfl
  · rw [vaPart0_eq]; exact Nat.mod_lt _ (by decide)
  · rw [vaPart1_eq]; exact Nat.mod_lt _ (by decide)
  · rw [vaPart2_eq]; exact Nat.mod_lt _ (by decide)

theorem and_split {n b c d : ℕ} (hb : b < 2 ^ n) (hd : d < 2 ^ n) :
    (2 ^ n * a + b) &&& (2 ^ n * c + d) = 2 ^ n * (a &&& c) + (b &&& d) := by
  have hbd : b &&& d < 2 ^ n := Nat.and_lt_two_pow b hd
  apply Nat.eq_of_testBit_eq
  intro j
  rw [Nat.testBit_and, Nat.testBit_two_pow_mul_add _ hb, Nat.testBit_two_pow_mul_add _ hd,
    Nat.testBit_two_pow_mul_add _ hbd]
  by_cases hj : j < n
  · simp only [if_pos hj, Nat.testBit_and]
  · simp only [if_neg hj, Nat.testBit_and]

theorem pteAddress_eq (e : ℕ) : pteAddress e = 4096 * (e / 4096 % 2 ^ 36) := by
  have he : e = 2 ^ 12 * (e / 4096) + e % 4096 := by omega
  have hmask : (0x0000FFFFFFFFF000 : ℕ) = 2 ^ 12 * (2 ^ 36 - 1) + 0 := by norm_num
  rw [pteAddress, he, hmask, and_split (by omega) (by norm_num), Nat.and_two_pow_sub_one_eq_mod, Nat.and_zero,
    Nat.add_zero]
  omega

/-- a page a table entry may name: one of the allocator's, or the zero page -/
def IsPage (L : Layout) (p : ℕ) : Prop := Allocatable L p ∨ p = zeroPage L

theorem k2p_add {x : ℕ} (h : x < 2 ^ 48) : k2p (kspaceMask + x) = x := by
  have hsub : kspaceMask + x + 2 ^ 64 - kspaceMask = x + 2 ^ 64 := by omega
  rw [k2p, hsub, Nat.add_mod_right, Nat.mod_eq_of_lt (by omega)]

section Pages

variable {L : Layout} {p : ℕ}

theorem IsPage.eq (h : IsPage L p) : ∃ j, p = kspaceMask + 4096 * j ∧ j < 2 ^ 36 := by
  obtain ⟨e, h1, h2, -⟩ := layout_bounds L
  have hz : zeroPage L = p2k extmem + pageSize * (e + 1) := by rw [zeroPage, h1]; ring
  simp only [p2k, extmem, phystop, pageSize] at hz h2
  rcases h with ⟨k, hk, rfl⟩ | rfl
  · refine ⟨0x40000 + (e + 1) + (k + 1), ?_, by omega⟩
    rw [hz]
    simp only [pageSize]
    omega
  · refine ⟨0x40000 + (e + 1), ?_, by omega⟩
    rw [hz]
    omega

theorem IsPage.dvd (h : IsPage L p) : 8 * 512 ∣ p := by
  obtain ⟨j, rfl, -⟩ := h.eq
  simp only [kspaceMask]
  omega

/-- two different pages share no address -/
theorem IsPage.apart {q : ℕ} (hp : IsPage L p) (hq : IsPage L q) (ha : p ≤ a ∧ a < p + pageSize)
    (ha' : q ≤ a ∧ a < q + pageSize) : p = q := by
  obtain ⟨j, rfl, -⟩ := hp.eq
  obtain ⟨k, rfl, -⟩ := hq.eq
  simp only [kspaceMask, pageSize] at ha ha' ⊢
  omega

theorem IsPage.k2p_eq (h : IsPage L p) : pageBase (k2p p) = k2p p := by
  obtain ⟨j, rfl, hj⟩ := h.eq
  rw [k2p_add (by omega), pageBase]
  simp only [pageSize]
  omega

variable (h : IsPage L p) {flags : ℕ} (hf : flags < 4096)
include h hf

/-- the flags of a new entry -/
theorem IsPage.and_flags {g : ℕ} (hg : g < 4096) : (k2p p ||| flags) &&& g = flags &&& g := by
  obtain ⟨j, rfl, hj⟩ := h.eq
  have hor : 2 ^ 12 * j + flags = 2 ^ 12 * j ||| flags := Nat.two_pow_add_eq_or_of_lt (i := 12) (by omega) j
  have hsplit := and_split (n := 12) (a := j) (b := flags) (c := 0) (d := g) (by omega) (by omega)
  simp only [Nat.mul_zero, Nat.zero_add, Nat.and_zero] at hsplit
  rw [k2p_add (by omega), ← hsplit]
  exact congrArg (· &&& g) hor.symm

/-- the page of a new entry -/
theorem IsPage.frame_eq : frame (k2p p ||| flags) = p := by
  obtain ⟨j, rfl, hj⟩ := h.eq
  have hor : 2 ^ 12 * j + flags = 2 ^ 12 * j ||| flags := Nat.two_pow_add_eq_or_of_lt (i := 12) (by omega) j
  have hadd : 4096 * j ||| flags = 4096 * j + flags := hor.symm
  rw [frame, pteAddress_eq, k2p_add (by omega), hadd, p2k]
  omega

end Pages

theorem tableOf_link {L : Layout} (h : IsPage L p) : tableOf (k2p p ||| pteTable) = some p := by
  have hv : (k2p p ||| pteTable) &&& pteValid = 1 := by
    rw [h.and_flags (by decide) (by decide)]
    decide
  rw [tableOf, if_neg (by rw [hv]; decide), h.frame_eq (by decide)]

theorem tableOf_ne_zero {e : ℕ} (h : tableOf e = some t) : t ≠ 0 := by
  rw [tableOf] at h
  split_ifs at h
  rw [← Option.some.inj h, frame, p2k]
  simp only [kspaceMask]
  omega

/-! ## The tables of all address spaces -/

section Tables

variable {ι : Type} {L : Layout} {m m' : PageMem} {pt : ι → ℕ} {l : List ℕ}

/-- address space k has a table at t -/
def HasTable (m : PageMem) (pt : ι → ℕ) (k : ι) (q : List ℕ) (t : ℕ) : Prop :=
  IsPath 512 3 q ∧ tableAt tableOf m.cell (pt k) q = some t

/-- no page is used for two tables, and all of them are allocated -/
structure TablesOk (L : Layout) (m : PageMem) (pt : ι → ℕ) : Prop where
  owned : ∀ k q t, HasTable m pt k q t → Owned L m t
  inj : ∀ k q k' q' t, HasTable m pt k q t → HasTable m pt k' q' t → k = k' ∧ q = q'

/-- only tables are written, and only free pages become tables -/
structure TableStep (L : Layout) (m : PageMem) (pt : ι → ℕ) (m' : PageMem) (pt' : ι → ℕ) : Prop where
  table : ∀ k q t, HasTable m pt k q t → HasTable m' pt' k q t
  fresh : ∀ k q t, HasTable m' pt' k q t → HasTable m pt k q t ∨ ¬ Owned L m t
  ref : ∀ x, Owned L m x → m'.ref (pageIndex x) = m.ref (pageIndex x)
  newref : ∀ x, Allocatable L x → m.ref (pageIndex x) = 0 → m'.ref (pageIndex x) = 0 ∨ ∃ k q, HasTable m' pt' k q x
  cell : ∀ a, (∀ k q t, HasTable m' pt' k q t → ¬ (t ≤ a ∧ a < t + pageSize)) → m'.cell a = m.cell a

theorem TableStep.refl (L : Layout) (m : PageMem) (pt : ι → ℕ) : TableStep L m pt m pt :=
  ⟨fun _ _ _ h => h, fun _ _ _ h => Or.inl h, fun _ _ => rfl, fun _ _ h => Or.inl h, fun _ _ => rfl⟩

theorem TableStep.trans {pt' pt'' : ι → ℕ}
    (h : TableStep L m pt m' pt') (h' : TableStep L m' pt' m'' pt'') : TableStep L m pt m'' pt'' := by
  have hown : ∀ x, Owned L m x → Owned L m' x := fun x hx => ⟨hx.1, by rw [h.ref x hx]; exact hx.2⟩
  refine ⟨fun k q t ht => h'.table k q t (h.table k q t ht), fun k q t ht => ?_, fun x hx => ?_, fun x hx h0 => ?_,
    fun a ha => ?_⟩
  · rcases h'.fresh k q t ht with ht' | hno
    · exact h.fresh k q t ht'
    · exact Or.inr fun hx => hno (hown t hx)
  · exact (h'.ref x (hown x hx)).trans (h.ref x hx)
  · rcases h.newref x hx h0 with hfree | ⟨k, q, ht⟩
    · exact h'.newref x hx hfree
    · exact Or.inr ⟨k, q, h'.table k q x ht⟩
  · exact (h'.cell a ha).trans (h.cell a fun k q t ht => ha k q t (h'.table k q t ht))

/-- the free list and the tables of all address spaces -/
structure SpacesOk (L : Layout) (m : PageMem) (pt : ι → ℕ) (l : List ℕ) : Prop where
  free : FreeList L m l
  tables : TablesOk L m pt

/-- tables may have been added, but every address has the entry it had -/
structure Grown (L : Layout) (m : PageMem) (pt : ι → ℕ) (m' : PageMem) (pt' : ι → ℕ) : Prop
    extends TableStep L m pt m' pt' where
  entry : ∀ k va, entry m' (pt' k) va = PageTable.entry m (pt k) va

theorem Grown.refl (L : Layout) (m : PageMem) (pt : ι → ℕ) : Grown L m pt m pt :=
  ⟨TableStep.refl L m pt, fun _ _ => rfl⟩

theorem Grown.trans {pt' pt'' : ι → ℕ} (h : Grown L m pt m' pt') (h' : Grown L m' pt' m'' pt'') :
    Grown L m pt m'' pt'' :=
  ⟨h.toTableStep.trans h'.toTableStep, fun k va => (h'.entry k va).trans (h.entry k va)⟩

theorem TablesOk.sep (h : TablesOk L m pt) : Separate tableOf 512 3 m.cell pt :=
  ⟨fun k q t hq ht => IsPage.dvd (Or.inl (h.owned k q t ⟨hq, ht⟩).1),
    fun k q k' q' t hq hq' ht ht' => h.inj k q k' q' t ⟨hq, ht⟩ ⟨hq', ht'⟩⟩

theorem HasTable.isPage (h : TablesOk L m pt) {k : ι} (ht : HasTable m pt k q t) : IsPage L t :=
  Or.inl (h.owned k q t ht).1

theorem entry_slot_mem (t va : ℕ) : t ≤ t + 8 * vaPart3 va ∧ t + 8 * vaPart3 va < t + pageSize := by
  have := vaPart3_lt va
  simp only [pageSize]
  omega

theorem entry_of_table (h : tableAt tableOf m.cell r (path va) = some t) :
    entry m r va = m.cell (t + 8 * vaPart3 va) := by
  rw [entry, h]

theorem entry_of_none (h : tableAt tableOf m.cell r (path va) = none) : entry m r va = 0 := by
  rw [entry, h]

/-- a page on the free list is no table -/
theorem TablesOk.not_free (h : TablesOk L m pt) (hp : m.ref (pageIndex p) = 0) (k : ι) (q : List ℕ) :
    ¬ HasTable m pt k q p := fun ht => (h.owned k q p ht).2.ne' hp

/-- writes off the tables change no table and no entry -/
theorem TablesOk.frame (h : TablesOk L m pt)
    (hcell : ∀ k q t a, HasTable m pt k q t → t ≤ a ∧ a < t + pageSize → m'.cell a = m.cell a)
    (hown : ∀ k q t, HasTable m pt k q t → Owned L m' t) :
    TablesOk L m' pt ∧ (∀ k q t, HasTable m' pt k q t ↔ HasTable m pt k q t) ∧
      ∀ k va, entry m' (pt k) va = entry m (pt k) va := by
  have hat : ∀ k q, IsPath 512 3 q → tableAt tableOf m'.cell (pt k) q = tableAt tableOf m.cell (pt k) q := by
    intro k q hq
    refine tableAt_agree (fun k' q' t j hq' _ ht hj => ?_) k hq
    rw [hcell k' q' t (t + 8 * j) ⟨hq', ht⟩ (by simp only [pageSize]; omega)]
  have hiff : ∀ k q t, HasTable m' pt k q t ↔ HasTable m pt k q t := by
    intro k q t
    constructor
    · intro ht
      exact ⟨ht.1, by rw [← hat k q ht.1]; exact ht.2⟩
    · intro ht
      exact ⟨ht.1, by rw [hat k q ht.1]; exact ht.2⟩
  refine ⟨⟨fun k q t ht => hown k q t ((hiff k q t).1 ht),
    fun k q k' q' t ht ht' => h.inj k q k' q' t ((hiff k q t).1 ht) ((hiff k' q' t).1 ht')⟩, hiff, fun k va => ?_⟩
  cases ht : tableAt tableOf m.cell (pt k) (path va) with
  | none => rw [entry_of_none ht, entry_of_none (by rw [hat k _ (isPath_path va), ht])]
  | some t =>
    rw [entry_of_table ht, entry_of_table (by rw [hat k _ (isPath_path va), ht])]
    exact hcell k _ t _ ⟨isPath_path va, ht⟩ (entry_slot_mem t va)

/-- a cleared page from the free list becomes the table on path q of address space k -/
theorem SpacesOk.add (h : SpacesOk L m pt l) {m1 : PageMem} (hk : kallocPage m = some (p, m1)) {cell' : ℕ → ℕ}
    {pt' : ι → ℕ} {k : ι} (hq : IsPath 512 3 q) (hnone : tableAt tableOf m.cell (pt k) q = none)
    (hadd : ∀ k' r, IsPath 512 3 r → tableAt tableOf cell' (pt' k') r = some p ∧ k' = k ∧ r = q ∨
      tableAt tableOf cell' (pt' k') r = tableAt tableOf m.cell (pt k') r ∧ ¬ (k' = k ∧ r = q))
    (hzero : ∀ a, p ≤ a ∧ a < p + pageSize → cell' a = 0)
    (hcell : ∀ a, ¬ (p ≤ a ∧ a < p + pageSize) →
      (∀ k' q' t, HasTable m pt k' q' t → q'.length < 3 → ¬ (t ≤ a ∧ a < t + pageSize)) → cell' a = m.cell a) :
    ∃ l', SpacesOk L { m1 with cell := cell' } pt' l' ∧ Grown L m pt { m1 with cell := cell' } pt' := by
  obtain ⟨l', hl, hfree, h0, href, hc1⟩ := h.free.kalloc_some hk
  have hp : Allocatable L p := h.free.allocatable (hl ▸ List.mem_cons_self)
  have hpl : p ∉ l' := by
    have hnd := h.free.chain.nodup
    rw [hl] at hnd
    exact (List.nodup_cons.1 hnd).1
  have hnot := h.tables.not_free h0
  have hidx : ∀ x, Owned L m x → m1.ref (pageIndex x) = m.ref (pageIndex x) := by
    intro x hx
    have hne : pageIndex x ≠ pageIndex p := fun hi => hx.2.ne' (by rw [hi, h0])
    rw [href, update_of_ne hne]
  have hone : m1.ref (pageIndex p) = 1 := by rw [href, update_self]
  have hold : ∀ k' r t, HasTable m pt k' r t → tableAt tableOf cell' (pt' k') r = some t := by
    intro k' r t ht
    rcases hadd k' r ht.1 with ⟨-, rfl, rfl⟩ | ⟨heq, -⟩
    · exact absurd (ht.2.symm.trans hnone) (by simp)
    · exact heq.trans ht.2
  have hnew : tableAt tableOf cell' (pt' k) q = some p := by
    rcases hadd k q hq with ⟨heq, -⟩ | ⟨-, hno⟩
    · exact heq
    · exact absurd ⟨rfl, rfl⟩ hno
  have hinv : ∀ k' r t, IsPath 512 3 r → tableAt tableOf cell' (pt' k') r = some t →
      (t = p ∧ k' = k ∧ r = q) ∨ HasTable m pt k' r t := by
    intro k' r t hr ht
    rcases hadd k' r hr with ⟨heq, hk', hr'⟩ | ⟨heq, -⟩
    · exact Or.inl ⟨Option.some.inj (ht.symm.trans heq), hk', hr'⟩
    · exact Or.inr ⟨hr, heq.symm.trans ht⟩
  -- an old table of the last level, or a free page, is not written
  have hkeep : ∀ x a, IsPage L x → x ≠ p → (∀ k' q', q'.length < 3 → ¬ HasTable m pt k' q' x) →
      x ≤ a ∧ a < x + pageSize → cell' a = m.cell a := by
    intro x a hx hxp hxt ha
    refine hcell a (fun hpa => hxp (hx.apart (Or.inl hp) ha hpa)) fun k' q' t ht hlen hta => ?_
    have hxt' : x = t := hx.apart (ht.isPage h.tables) ha hta
    exact hxt k' q' hlen (hxt' ▸ ht)
  refine ⟨l', ⟨?_, ?_, ?_⟩, ⟨⟨?_, ?_, ?_, ?_, ?_⟩, ?_⟩⟩
  · refine hfree.recell fun x hx => ?_
    have hxa : x ∈ l := hl ▸ List.mem_cons_of_mem p hx
    have hx0 := ((h.free.mem x).1 hxa).2
    rw [hc1]
    exact hkeep x (x + 8) (Or.inl (h.free.allocatable hxa)) (fun hxp => hpl (hxp ▸ hx))
      (fun k' q' _ => h.tables.not_free hx0 k' q') (by simp only [pageSize]; omega)
  · intro k' r t ht
    rcases hinv k' r t ht.1 ht.2 with ⟨rfl, -, -⟩ | ht'
    · exact ⟨hp, by rw [hone]; exact Int.one_pos⟩
    · have hx := h.tables.owned k' r t ht'
      exact ⟨hx.1, by rw [hidx t hx]; exact hx.2⟩
  · intro k1 r1 k2 r2 t ht1 ht2
    rcases hinv k1 r1 t ht1.1 ht1.2 with ⟨rfl, hk1, hr1⟩ | ht1'
    · rcases hinv k2 r2 t ht2.1 ht2.2 with ⟨-, hk2, hr2⟩ | ht2'
      · exact ⟨hk1.trans hk2.symm, hr1.trans hr2.symm⟩
      · exact absurd ht2' (hnot k2 r2)
    · rcases hinv k2 r2 t ht2.1 ht2.2 with ⟨rfl, -, -⟩ | ht2'
      · exact absurd ht1' (hnot k1 r1)
      · exact h.tables.inj k1 r1 k2 r2 t ht1' ht2'
  · exact fun k' r t ht => ⟨ht.1, hold k' r t ht⟩
  · intro k' r t ht
    rcases hinv k' r t ht.1 ht.2 with ⟨rfl, -, -⟩ | ht'
    · exact Or.inr fun hx => hx.2.ne' h0
    · exact Or.inl ht'
  · exact hidx
  · intro x hx hx0
    by_cases hxp : x = p
    · exact Or.inr ⟨k, q, hq, hxp ▸ hnew⟩
    · left
      have hne : pageIndex x ≠ pageIndex p := fun hi => hxp (hx.index_inj hp hi)
      change m1.ref (pageIndex x) = 0
      rw [href, update_of_ne hne, hx0]
  · intro a ha
    refine hcell a (ha k q p ⟨hq, hnew⟩) fun k' q' t ht _ => ha k' q' t ⟨ht.1, hold k' q' t ht⟩
  · intro k' va
    rcases hadd k' (path va) (isPath_path va) with ⟨heq, hk', hr⟩ | ⟨heq, -⟩
    · have hgone : tableAt tableOf m.cell (pt k') (path va) = none := by rw [hk', hr, hnone]
      rw [entry_of_none hgone]
      exact (entry_of_table heq).trans (hzero _ (entry_slot_mem p va))
    · cases ht : tableAt tableOf m.cell (pt k') (path va) with
      | none => rw [entry_of_none ht, entry_of_none (heq.trans ht)]
      | some t =>
        have htab : HasTable m pt k' (path va) t := ⟨isPath_path va, ht⟩
        rw [entry_of_table ht]
        refine (entry_of_table (heq.trans ht)).trans ?_
        refine hkeep t _ (htab.isPage h.tables) (fun htp => hnot k' (path va) (htp ▸ htab)) ?_ (entry_slot_mem t va)
        intro k2 q2 hlen ht2
        obtain ⟨-, hpq⟩ := h.tables.inj _ _ _ _ t htab ht2
        rw [← hpq] at hlen
        exact absurd hlen (by simp [path])

/-- what a level of `get_pte` leaves behind: the table on path q is u -/
structure Reached (L : Layout) (m : PageMem) (pt : ι → ℕ) (m' : PageMem) (pt' : ι → ℕ) (k : ι) (q : List ℕ) (u : ℕ) :
    Prop where
  ok : ∃ l', SpacesOk L m' pt' l'
  grown : Grown L m pt m' pt'
  table : tableAt tableOf m'.cell (pt' k) q = some u

theorem clearPage_in (h : p ≤ a ∧ a < p + pageSize) (cell : ℕ → ℕ) : clearPage p cell a = 0 := if_pos h

theorem clearPage_out (h : ¬ (p ≤ a ∧ a < p + pageSize)) (cell : ℕ → ℕ) : clearPage p cell a = cell a :=
  if_neg h

/-- an unused page holds no table and has no entry in it -/
theorem TablesOk.off_page (h : TablesOk L m pt) (hp : Allocatable L p) (h0 : m.ref (pageIndex p) = 0) {k : ι}
    (ht : HasTable m pt k q t) (ha : t ≤ a ∧ a < t + pageSize) : ¬ (p ≤ a ∧ a < p + pageSize) :=
  fun hpa => h.not_free h0 k q ((ht.isPage h).apart (Or.inl hp) ha hpa ▸ ht)

theorem slot_mem (hi : i < 512) : t ≤ t + 8 * i ∧ t + 8 * i < t + pageSize := by
  simp only [pageSize]
  omega

theorem Reached.table_ne_zero {m' : PageMem} {pt' : ι → ℕ} {k : ι}
    (h : Reached L m pt m' pt' k q u) (hq : IsPath 512 3 q) : u ≠ 0 := by
  obtain ⟨l', hok⟩ := h.ok
  exact (hok.tables.owned k q u ⟨hq, h.table⟩).1.ne_null

variable [DecidableEq ι]

theorem nextTable_alloc (h : SpacesOk L m pt l) {k : ι} (hq : IsPath 512 3 (q ++ [i]))
    (ht : tableAt tableOf m.cell (pt k) q = some t) {r : ℕ × PageMem} (hn : nextTable true t i m = some r) :
    Reached L m pt r.2 pt k (q ++ [i]) r.1 := by
  obtain ⟨hq0, hlen, hi⟩ := hq.snoc
  have htab : HasTable m pt k q t := ⟨hq0, ht⟩
  simp only [nextTable] at hn
  split_ifs at hn with hv
  · obtain ⟨⟨p, m1⟩, hk, rfl⟩ := Option.map_eq_some_iff.1 hn
    obtain ⟨l', hl, -, h0, -, hc1⟩ := h.free.kalloc_some hk
    have hp : Allocatable L p := h.free.allocatable (hl ▸ List.mem_cons_self)
    have hlink : tableOf (m.cell (t + 8 * i)) = none := if_pos hv
    have hoff := h.tables.off_page hp h0 htab (slot_mem hi)
    simp only
    rw [hc1]
    set cell' := update (clearPage p m.cell) (t + 8 * i) (k2p p ||| pteTable) with hcell'
    have hzero : ∀ a, p ≤ a ∧ a < p + pageSize → cell' a = 0 := by
      intro a ha
      have hne : a ≠ t + 8 * i := fun hx => hoff (hx ▸ ha)
      rw [hcell', update_of_ne hne, clearPage_in ha]
    have hnew : tableOf (cell' (t + 8 * i)) = some p := by
      rw [hcell', update_self]
      exact tableOf_link (Or.inl hp)
    have hadd : ∀ (k' : ι) {r : List ℕ}, IsPath 512 3 r → tableAt tableOf cell' (pt k') r =
        if k' = k ∧ r = q ++ [i] then some p else tableAt tableOf m.cell (pt k') r := tableAt_link h.tables.sep hq ht hlink hnew
      (fun j hj => by rw [hzero _ (slot_mem hj)]; rfl)
      (fun k' q' u j hq' hu hj hne => by
        rw [hcell', update_of_ne hne, clearPage_out (h.tables.off_page hp h0 ⟨hq', hu⟩ (slot_mem hj))])
    obtain ⟨l'', hok, hgrown⟩ : ∃ l'', SpacesOk L { m1 with cell := cell' } pt l'' ∧
        Grown L m pt { m1 with cell := cell' } pt := h.add hk (k := k) (q := q ++ [i]) hq
      (by rw [tableAt_snoc, ht]; exact hlink)
      (fun k' r hr => by
        rw [hadd k' hr]
        by_cases hx : k' = k ∧ r = q ++ [i]
        · exact Or.inl ⟨if_pos hx, hx⟩
        · exact Or.inr ⟨if_neg hx, hx⟩) hzero
      (fun a ha hin => by
        have hne : a ≠ t + 8 * i := fun hx => hin k q t htab hlen (hx ▸ slot_mem hi)
        rw [hcell', update_of_ne hne, clearPage_out ha])
    refine ⟨⟨l'', hok⟩, hgrown, ?_⟩
    rw [hadd k hq, if_pos ⟨rfl, rfl⟩]
  · rw [← Option.some.inj hn]
    refine ⟨⟨l, h⟩, Grown.refl L m pt, ?_⟩
    rw [tableAt_snoc, ht]
    exact if_neg hv

theorem rootTable_alloc (h : SpacesOk L m pt l) (k : ι) {r : ℕ × PageMem} (hn : rootTable true (pt k) m = some r) :
    Reached L m pt r.2 (update pt k r.1) k [] r.1 := by
  have hq : IsPath 512 3 [] := ⟨by simp, by simp⟩
  simp only [rootTable] at hn
  split_ifs at hn with hr
  · obtain ⟨⟨p, m1⟩, hk, rfl⟩ := Option.map_eq_some_iff.1 hn
    obtain ⟨l', hl, -, h0, -, hc1⟩ := h.free.kalloc_some hk
    have hp : Allocatable L p := h.free.allocatable (hl ▸ List.mem_cons_self)
    simp only
    rw [hc1]
    have hadd : ∀ (k' : ι) {r : List ℕ}, IsPath 512 3 r →
        tableAt tableOf (clearPage p m.cell) (update pt k p k') r =
          if k' = k ∧ r = [] then some p else tableAt tableOf m.cell (pt k') r := tableAt_root hr hp.ne_null
      (fun j hj => by rw [clearPage_in (slot_mem hj)]; rfl)
      (fun k' q' u j hq' hu hj => clearPage_out (h.tables.off_page hp h0 ⟨hq', hu⟩ (slot_mem hj)) _)
    obtain ⟨l'', hok, hgrown⟩ : ∃ l'', SpacesOk L { m1 with cell := clearPage p m.cell } (update pt k p) l'' ∧
        Grown L m pt { m1 with cell := clearPage p m.cell } (update pt k p) :=
      h.add hk (k := k) (q := []) hq (if_pos hr)
      (fun k' r hr => by
        rw [hadd k' hr]
        by_cases hx : k' = k ∧ r = []
        · exact Or.inl ⟨if_pos hx, hx⟩
        · exact Or.inr ⟨if_neg hx, hx⟩) (fun a ha => clearPage_in ha _) (fun a ha _ => clearPage_out ha _)
    refine ⟨⟨l'', hok⟩, hgrown, ?_⟩
    rw [hadd k hq, if_pos ⟨rfl, rfl⟩]
  · rw [← Option.some.inj hn]
    simp only [update_eq_self]
    exact ⟨⟨l, h⟩, Grown.refl L m pt, if_neg hr⟩

theorem descend_alloc (h : SpacesOk L m pt l) {k : ι} (hq : IsPath 512 3 (q ++ rest))
    (ht : tableAt tableOf m.cell (pt k) q = some t) {r : ℕ × PageMem} (hd : descend true t rest m = some r) :
    Reached L m pt r.2 pt k (q ++ rest) r.1 := by
  induction rest generalizing m l q t with
  | nil =>
    rw [descend] at hd
    rw [← Option.some.inj hd, List.append_nil]
    exact ⟨⟨l, h⟩, Grown.refl L m pt, ht⟩
  | cons i rest ih =>
    have hassoc : q ++ i :: rest = q ++ [i] ++ rest := by simp
    have hqi : IsPath 512 3 (q ++ [i]) := by
      rw [hassoc] at hq
      refine ⟨?_, fun j hj => hq.2 j (List.mem_append_left _ hj)⟩
      have := hq.1
      rw [List.length_append] at this
      omega
    obtain ⟨r1, hn, hd⟩ := Option.bind_eq_some_iff.1 hd
    have h1 := nextTable_alloc h hqi ht hn
    rw [if_neg (h1.table_ne_zero hqi)] at hd
    obtain ⟨l1, hok1⟩ := h1.ok
    have h2 := ih hok1 (by rw [← hassoc]; exact hq) h1.table hd
    rw [hassoc]
    exact ⟨h2.ok, h1.grown.trans h2.grown, h2.table⟩

/-- **get_pte, allocating.** It returns the entry of va in the table of the last level. No entry of any address space
has changed, and the only pages written are tables, the new ones taken from the free list. -/
theorem getPte_alloc (h : SpacesOk L m pt l) (k : ι) (va : ℕ) {pte : ℕ} (hg : getPte true (pt k) va m = some (pte, r, m')) :
    ∃ t, Reached L m pt m' (update pt k r) k (path va) t ∧ pte = t + 8 * vaPart3 va ∧ pte ≠ 0 := by
  obtain ⟨r0, hroot, hg⟩ := Option.bind_eq_some_iff.1 hg
  have h0 := rootTable_alloc h k hroot
  rw [if_neg (h0.table_ne_zero ⟨by simp, by simp⟩)] at hg
  obtain ⟨r1, hd, hg⟩ := Option.map_eq_some_iff.1 hg
  obtain ⟨l0, hok0⟩ := h0.ok
  have hself : tableAt tableOf r0.2.cell (update pt k r0.1 k) [] = some r0.1 := h0.table
  have h1 : Reached L r0.2 _ r1.2 (update pt k r0.1) k ([] ++ path va) r1.1 :=
    descend_alloc hok0 (isPath_path va) hself hd
  have hne := h1.table_ne_zero (isPath_path va)
  rw [if_neg hne] at hg
  obtain ⟨hpte, hrest⟩ := Prod.mk.inj hg
  obtain ⟨rfl, rfl⟩ := Prod.mk.inj hrest
  subst hpte
  exact ⟨r1.1, ⟨h1.ok, h0.grown.trans h1.grown, h1.table⟩, rfl, by omega⟩

omit [DecidableEq ι] in
/-- what `get_pte` finds on the way down is what `walk` finds -/
theorem descend_walk (h : walk tableOf m.cell t q = some u) :
    descend alloc t q m = some (u, m) := by
  induction q generalizing t with
  | nil => rw [descend, Option.some.inj h]
  | cons i q ih =>
    obtain ⟨v, hv, h⟩ := Option.bind_eq_some_iff.1 h
    have hne := tableOf_ne_zero hv
    rw [tableOf] at hv
    split_ifs at hv with hval
    have hn : nextTable alloc t i m = some (v, m) := by
      simp only [nextTable, if_neg hval, Option.some.inj hv]
    rw [descend, hn]
    simp only [Option.bind_some, if_neg hne]
    exact ih h

theorem descend_none (h : walk tableOf m.cell t q = none) : descend false t q m = some (0, m) := by
  induction q generalizing t with
  | nil => simp [walk] at h
  | cons i q ih =>
    rw [walk] at h
    cases hv : tableOf (m.cell (t + 8 * i)) with
    | none =>
      have hval : m.cell (t + 8 * i) &&& pteValid = 0 := by
        rw [tableOf] at hv
        split_ifs at hv with hval
        exact hval
      have hn : nextTable false t i m = some (0, m) := by
        simp only [nextTable, if_pos hval, Bool.false_eq_true, if_false]
      rw [descend, hn]
      rfl
    | some v =>
      rw [hv] at h
      have hstep : descend false t [i] m = some (v, m) := descend_walk (by simp [walk, hv])
      rw [descend, Option.bind_eq_some_iff] at hstep
      obtain ⟨r, hn, hr⟩ := hstep
      have hne := tableOf_ne_zero hv
      have hr1 : r = (v, m) := by
        split_ifs at hr with hz
        · exact absurd (congrArg Prod.fst (Option.some.inj hr)).symm hne
        · exact Option.some.inj hr
      rw [descend, hn, hr1]
      simp only [Option.bind_some, if_neg hne]
      exact ih h

theorem walk_ne_zero (ht : t ≠ 0) (h : walk tableOf m.cell t q = some u) : u ≠ 0 := by
  induction q generalizing t with
  | nil => exact Option.some.inj h ▸ ht
  | cons i q ih =>
    obtain ⟨v, hv, h⟩ := Option.bind_eq_some_iff.1 h
    exact ih (tableOf_ne_zero hv) h

/-- with all levels there, nothing is allocated -/
theorem getPte_of_table (ht : tableAt tableOf m.cell r (path va) = some t) :
    getPte alloc r va m = some (t + 8 * vaPart3 va, r, m) ∧ t ≠ 0 := by
  rw [tableAt] at ht
  split_ifs at ht with hr
  have hne := walk_ne_zero hr ht
  refine ⟨?_, hne⟩
  simp only [getPte, rootTable, if_neg hr, Option.bind_some, descend_walk ht, Option.map_some, if_neg hne]

/-- `get_pte` without allocation returns NULL when a level is missing -/
theorem getPte_none (ht : tableAt tableOf m.cell r (path va) = none) :
    getPte false r va m = some (0, r, m) := by
  rw [tableAt] at ht
  by_cases hr : r = 0
  · simp [getPte, rootTable, hr]
  · rw [if_neg hr] at ht
    simp [getPte, rootTable, hr, descend_none ht]

/-- **A store through an entry.** It changes the entry of one virtual page of one address space and writes one table. -/
theorem entry_write (h : SpacesOk L m pt l) {k : ι}
    (ht : tableAt tableOf m.cell (pt k) (path va) = some t) (e : ℕ) :
    SpacesOk L (setPte (t + 8 * vaPart3 va) e m) pt l ∧ TableStep L m pt (setPte (t + 8 * vaPart3 va) e m) pt ∧
      ∀ k' va', entry (setPte (t + 8 * vaPart3 va) e m) (pt k') va' =
        if k' = k ∧ vpn va' = vpn va then e else entry m (pt k') va' := by
  have htab : HasTable m pt k (path va) t := ⟨isPath_path va, ht⟩
  have hown := h.tables.owned k _ t htab
  have hother : ∀ k' q u j, HasTable m pt k' q u → j < 512 → ¬ (k' = k ∧ q = path va ∧ j = vaPart3 va) →
      u + 8 * j ≠ t + 8 * vaPart3 va := by
    intro k' q u j hu hj hne hslot
    obtain ⟨hut, hji⟩ := entry_inj (hu.isPage h.tables).dvd (htab.isPage h.tables).dvd hj (vaPart3_lt va) hslot
    obtain ⟨hkk, hqq⟩ := h.tables.inj _ _ _ _ u hu (hut ▸ htab)
    exact hne ⟨hkk, hqq, hji⟩
  have hat : ∀ k' q, IsPath 512 3 q →
      tableAt tableOf (setPte (t + 8 * vaPart3 va) e m).cell (pt k') q = tableAt tableOf m.cell (pt k') q := by
    intro k' q hq
    refine tableAt_agree (fun k2 q2 u j hq2 hlen hu hj => ?_) k' hq
    have hne := hother k2 q2 u j ⟨hq2, hu⟩ hj fun hx => by
      rw [hx.2.1] at hlen
      exact absurd hlen (by simp [path])
    simp only [setPte, update_of_ne hne]
  have hiff : ∀ k' q u, HasTable (setPte (t + 8 * vaPart3 va) e m) pt k' q u ↔ HasTable m pt k' q u := by
    intro k' q u
    constructor
    · intro hu
      exact ⟨hu.1, by rw [← hat k' q hu.1]; exact hu.2⟩
    · intro hu
      exact ⟨hu.1, by rw [hat k' q hu.1]; exact hu.2⟩
  refine ⟨⟨?_, ?_⟩, ⟨fun k' q u hu => (hiff k' q u).2 hu, fun k' q u hu => Or.inl ((hiff k' q u).1 hu), fun _ _ => rfl,
    fun _ _ h0 => Or.inl h0, fun a ha => ?_⟩, fun k' va' => ?_⟩
  · exact h.free.store hown.1 hown.2 (entry_slot_mem t va).1 (entry_slot_mem t va).2 e
  · exact ⟨fun k' q u hu => h.tables.owned k' q u ((hiff k' q u).1 hu),
      fun k1 q1 k2 q2 u hu1 hu2 => h.tables.inj k1 q1 k2 q2 u ((hiff k1 q1 u).1 hu1) ((hiff k2 q2 u).1 hu2)⟩
  · have hne : a ≠ t + 8 * vaPart3 va := fun hx =>
      ha k (path va) t ((hiff k (path va) t).2 htab) (hx ▸ entry_slot_mem t va)
    simp only [setPte, update_of_ne hne]
  · have hat' := hat k' _ (isPath_path va')
    cases hu : tableAt tableOf m.cell (pt k') (path va') with
    | none =>
      have hne : ¬ (k' = k ∧ vpn va' = vpn va) := by
        rintro ⟨rfl, hv⟩
        rw [(path_inj.2 hv).1, ht] at hu
        exact absurd hu (by simp)
      rw [if_neg hne, entry_of_none hu, entry_of_none (hat'.trans hu)]
    | some u =>
      rw [entry_of_table (hat'.trans hu), entry_of_table hu]
      by_cases hx : k' = k ∧ vpn va' = vpn va
      · obtain ⟨rfl, hv⟩ := hx
        obtain ⟨hp, h3⟩ := path_inj.2 hv
        rw [hp, ht] at hu
        rw [if_pos ⟨rfl, hv⟩, ← Option.some.inj hu, h3]
        simp only [setPte, update_self]
      · have hne := hother k' (path va') u _ ⟨isPath_path va', hu⟩ (vaPart3_lt va')
          fun hy => hx ⟨hy.1, path_inj.1 hy.2⟩
        rw [if_neg hx]
        simp only [setPte, update_of_ne hne]

/-- **vmmap.** The entry of va names the given page with the given flags; no other entry has changed, and the only pages
written are tables. -/
theorem vmmap_spec (h : SpacesOk L m pt l) (k : ι) (hv : vmmap (pt k) va ka flags m = some (r, m')) :
    ∃ l', SpacesOk L m' (update pt k r) l' ∧ TableStep L m pt m' (update pt k r) ∧
      ∀ k' va', entry m' (update pt k r k') va' =
        if k' = k ∧ vpn va' = vpn va then pageBase (k2p ka) ||| flags else entry m (pt k') va' := by
  obtain ⟨⟨pte, r', m1⟩, hg, hv⟩ := Option.bind_eq_some_iff.1 hv
  obtain ⟨t, hreach, rfl, hne⟩ := getPte_alloc h k va hg
  rw [if_neg hne] at hv
  obtain ⟨rfl, rfl⟩ := Prod.mk.inj (Option.some.inj hv)
  obtain ⟨l1, hok1⟩ := hreach.ok
  obtain ⟨hok, hstep, hentry⟩ := entry_write hok1 hreach.table (pageBase (k2p ka) ||| flags)
  refine ⟨l1, hok, hreach.grown.toTableStep.trans hstep, fun k' va' => ?_⟩
  rw [hentry, hreach.grown.entry]

/-- with all levels there, `vmmap` is one store -/
theorem vmmap_of_table (ht : tableAt tableOf m.cell r (path va) = some t) :
    vmmap r va ka flags m = some (r, setPte (t + 8 * vaPart3 va) (pageBase (k2p ka) ||| flags) m) := by
  obtain ⟨hg, hne⟩ : getPte true r va m = _ ∧ t ≠ 0 := getPte_of_table ht
  rw [vmmap, hg]
  simp only [Option.bind_some]
  rw [if_neg (by omega)]

/-! ### Enough pages -/

omit [DecidableEq ι] in
theorem kallocPage_total (h : SpacesOk L m pt l) (hl : 1 ≤ l.length) :
    ∃ r, kallocPage m = some r ∧ r.2.cnt = m.cnt + 1 := by
  obtain ⟨p, l', rfl⟩ : ∃ p l', l = p :: l' := List.exists_cons_of_length_pos hl
  obtain ⟨m', hk, -, -, hm⟩ := h.free.kalloc rfl
  exact ⟨_, hk, by rw [hm]⟩

omit [DecidableEq ι] in
theorem nextTable_total (h : SpacesOk L m pt l) (t i : ℕ) (hl : 1 ≤ l.length) :
    ∃ r, nextTable true t i m = some r ∧ r.2.cnt ≤ m.cnt + 1 := by
  obtain ⟨r, hk, hcnt⟩ := kallocPage_total h hl
  simp only [nextTable, hk, if_true, Option.map_some]
  split_ifs
  · exact ⟨_, rfl, hcnt.le⟩
  · exact ⟨_, rfl, Int.le_add_one le_rfl⟩

theorem descend_total (h : SpacesOk L m pt l) {k : ι} (hq : IsPath 512 3 (q ++ rest))
    (ht : tableAt tableOf m.cell (pt k) q = some t) (hl : rest.length ≤ l.length) :
    ∃ r, descend true t rest m = some r ∧ r.2.cnt ≤ m.cnt + rest.length := by
  induction rest generalizing m l q t with
  | nil => exact ⟨_, rfl, by simp⟩
  | cons i rest ih =>
    rw [List.length_cons] at hl
    obtain ⟨r1, hn, hcnt⟩ := nextTable_total h t i (by omega)
    have hqi : IsPath 512 3 (q ++ [i]) := by
      refine ⟨?_, fun j hj => hq.2 j ?_⟩
      · have := hq.1
        simp only [List.length_append, List.length_cons, List.length_nil] at this ⊢
        omega
      · simp only [List.mem_append, List.mem_cons, List.not_mem_nil, or_false] at hj ⊢
        tauto
    have h1 := nextTable_alloc h hqi ht hn
    obtain ⟨l1, hok1⟩ := h1.ok
    have hlen := h.free.cnt
    have hlen1 := hok1.free.cnt
    obtain ⟨r, hd, hcnt'⟩ := ih hok1 (by rw [List.append_assoc]; exact hq) h1.table (by omega)
    refine ⟨r, ?_, by rw [List.length_cons]; push_cast; omega⟩
    rw [descend, hn]
    simp only [Option.bind_some, if_neg (h1.table_ne_zero hqi)]
    exact hd

/-- with four free pages `get_pte` returns, and it takes no more than four -/
theorem getPte_total (h : SpacesOk L m pt l) (k : ι) (va : ℕ) (hl : 4 ≤ l.length) :
    ∃ r, getPte true (pt k) va m = some r ∧ r.2.2.cnt ≤ m.cnt + 4 := by
  obtain ⟨rk, hk, hcnt⟩ := kallocPage_total h (by omega)
  obtain ⟨r0, hroot, hcnt0⟩ : ∃ r0, rootTable true (pt k) m = some r0 ∧ r0.2.cnt ≤ m.cnt + 1 := by
    simp only [rootTable, hk, if_true, Option.map_some]
    split_ifs
    · exact ⟨_, rfl, hcnt.le⟩
    · exact ⟨_, rfl, Int.le_add_one le_rfl⟩
  have h0 := rootTable_alloc h k hroot
  obtain ⟨l0, hok0⟩ := h0.ok
  have hlen := h.free.cnt
  have hlen0 := hok0.free.cnt
  have hself : tableAt tableOf r0.2.cell (update pt k r0.1 k) [] = some r0.1 := h0.table
  have hpath : (path va).length = 3 := rfl
  obtain ⟨r1, hd, hcnt1⟩ : ∃ r1, descend true r0.1 (path va) r0.2 = some r1 ∧ r1.2.cnt ≤ r0.2.cnt + (path va).length :=
    descend_total hok0 (isPath_path va) hself (by omega)
  rw [hpath] at hcnt1
  refine ⟨_, by rw [getPte, hroot, Option.bind_some, if_neg (h0.table_ne_zero ⟨by simp, by simp⟩), hd]; rfl, ?_⟩
  simp only
  push_cast at hcnt1
  omega

end Tables

end OsKernel.Kernel.PageTable
