/-
The slab allocator (`kernel/mem.c`).

A slab page starts with two ints, the class index and the number of free objects; behind them lie the objects of that class,
each `(index + 1) * 8` bytes. The free objects of all pages of one class are threaded through their first cell on
`slabs[index]`. `kfree` of the last live object of a page unlinks the page's objects from that list, wherever they are, and
gives the page back.

`SlabOk` says that the objects of every slab page are split between the live blocks and the list of its class, and that the
header counts the latter. Result (`slab_safety`): it holds in every run of `kalloc`, `kfree` and writes of the owners;
`kfree` returns a page exactly when no object of it is left, as long as `free_pages` is not null. With no free page left it
faults (`last_page_fault`).
-/
import OsKernel.Kernel.Mem

namespace OsKernel.Mem

open OsKernel.Linked OsKernel.Runs
open Function (update update_of_ne update_self)

/-! ## Two ints in a cell -/

/-- the int at offset 0 -/
def intLo (w : ℕ) : ℕ := w % 2 ^ 32
/-- the int at offset 4 -/
def intHi (w : ℕ) : ℕ := w / 2 ^ 32 % 2 ^ 32
def withLo (w v : ℕ) : ℕ := v % 2 ^ 32 + 2 ^ 32 * intHi w
def withHi (w v : ℕ) : ℕ := intLo w + 2 ^ 32 * (v % 2 ^ 32)

@[simp] theorem intLo_withLo (w v : ℕ) : intLo (withLo w v) = v % 2 ^ 32 := by unfold intLo withLo; omega
@[simp] theorem intLo_withHi (w v : ℕ) : intLo (withHi w v) = intLo w := by unfold intLo withHi intLo; omega
@[simp] theorem intHi_withHi (w v : ℕ) : intHi (withHi w v) = v % 2 ^ 32 := by unfold intHi withHi intLo; omega

/-! ## The allocator -/

structure Heap where
  pm : PageMem
  /-- `slabs`: first free object of each class -/
  slabs : ℕ → ℕ

/-- `h` with other contents of memory -/
def Heap.recell (h : Heap) (cell : ℕ → ℕ) : Heap := { h with pm := { h.pm with cell } }

/-- the loop of `new_slab`: s is the object reached, the last result the value of `free_count` -/
def newSlabLoop (newSlab size : ℕ) : ℕ → ℕ → (ℕ → ℕ) → ℕ → Option ((ℕ → ℕ) × ℕ)
  | 0, _, _, _ => none
  | fuel + 1, s, cell, count =>
    if newSlab + pageSize - 8 < s + 2 * size then some (update cell s 0, count)
    else newSlabLoop newSlab size fuel (s + size) (update cell s (s + size)) (count + 1)

/-- `new_slab` -/
def newSlab (index : ℕ) (h : Heap) : Option Heap :=
  match kallocPage h.pm with
  | none => none
  | some (page, pm) =>
    let cell := update pm.cell page (withLo (pm.cell page) index)
    match newSlabLoop (page + 8) ((index + 1) * 8) pageSize (page + 8) cell 1 with
    | none => none
    | some (cell, count) =>
      some ⟨{ pm with cell := update cell page (withHi (cell page) count) },
        update h.slabs index (page + 8)⟩

/-- the class of a size -/
def slabIndex (size : ℕ) : ℕ := if size % 8 ≠ 0 then size / 8 else size / 8 - 1

/-- the part of `fetch_slab` that both branches share: take the first object off the list -/
def takeSlab (index : ℕ) (h : Heap) : ℕ × Heap :=
  let ret := h.slabs index
  let page := pageBase ret
  let w := h.pm.cell page
  let h := h.recell (update h.pm.cell page (withHi w (intHi w + (2 ^ 32 - 1))))
  (ret, { h with slabs := update h.slabs index (h.pm.cell ret) })

/-- `fetch_slab`, which is all of `kalloc` -/
def kalloc (size : ℕ) (h : Heap) : Option (ℕ × Heap) :=
  let index := slabIndex size
  if h.slabs index = 0 then (newSlab index h).map (takeSlab index) else some (takeSlab index h)

/-- `free_slab` -/
def freeSlab (s index : ℕ) (h : Heap) : Heap :=
  { h.recell (update h.pm.cell s (h.slabs index)) with slabs := update h.slabs index s }

/-- a lies in the page -/
def InPage (page a : ℕ) : Prop := page ≤ a ∧ a < page + pageSize

instance (page a : ℕ) : Decidable (InPage page a) := inferInstanceAs (Decidable (_ ∧ _))

/-- more turns than any list of objects has nodes -/
def listFuel : ℕ := phystop - extmem + 1

/-- the first loop of `kfree`: skip the objects of the page at the front of the list -/
def skipLoop (page : ℕ) (cell : ℕ → ℕ) : ℕ → ℕ → Option ℕ
  | 0, _ => none
  | fuel + 1, cur => if InPage page cur ∧ cur ≠ 0 then skipLoop page cell fuel (cell cur) else some cur

/-- the second loop of `kfree`: unlink the objects of the page behind cur -/
def sweepLoop (page : ℕ) : ℕ → ℕ → (ℕ → ℕ) → Option (ℕ → ℕ)
  | 0, _, _ => none
  | fuel + 1, cur, cell =>
    if cur = 0 then some cell
    else
      let nxt := cell cur
      if InPage page nxt ∧ nxt ≠ 0 then sweepLoop page fuel cur (update cell cur (cell nxt))
      else if nxt = 0 then some cell
      else sweepLoop page fuel nxt cell

/-- `kfree`; none when `kfree_page` faults -/
def kfree (L : Layout) (ptr : ℕ) (h : Heap) : Option Heap :=
  let page := pageBase ptr
  let w := h.pm.cell page
  let index := intLo w
  let w := withHi w (intHi w + 1)
  let h := h.recell (update h.pm.cell page w)
  if intHi w = (pageSize - 8) / ((index + 1) * 8) then
    match skipLoop page h.pm.cell listFuel (h.slabs index) with
    | none => none
    | some cur =>
      match sweepLoop page listFuel cur h.pm.cell with
      | none => none
      | some cell =>
        (kfreePage L page { h.pm with cell }).map fun pm => ⟨pm, update h.slabs index cur⟩
  else some (freeSlab ptr index h)

/-! ## Objects of a page -/

/-- how many objects of class i a page holds -/
def objCount (i : ℕ) : ℕ := (pageSize - 8) / ((i + 1) * 8)

/-- object k of a page of class i -/
def obj (page i k : ℕ) : ℕ := page + 8 + k * ((i + 1) * 8)

def objs (page i : ℕ) : List ℕ := (List.range (objCount i)).map (obj page i)

variable {P Q a fuel i j k p page w x : ℕ} {L : Layout} {l : List ℕ}

/-- a is the address of an object of the page -/
theorem mem_objs : a ∈ objs page i ↔ ∃ k < objCount i, obj page i k = a := by
  simp [objs]

theorem objCount_pos (hi : i < 511) : 0 < objCount i :=
  Nat.div_pos (by simp only [pageSize]; omega) (by omega)

theorem objs_nodup (page i : ℕ) : (objs page i).Nodup := by
  refine List.Nodup.map (fun k j hkj => ?_) List.nodup_range
  have hmul : k * ((i + 1) * 8) = j * ((i + 1) * 8) := by
    unfold obj at hkj
    omega
  exact Nat.eq_of_mul_eq_mul_right (by omega) hmul

/-- an object lies behind the header and ends inside the page -/
theorem obj_bounds (hk : k < objCount i) :
    page + 8 ≤ obj page i k ∧ obj page i k + (i + 1) * 8 ≤ page + pageSize := by
  have hle : (k + 1) * ((i + 1) * 8) ≤ pageSize - 8 :=
    (Nat.mul_le_mul_right _ hk).trans (Nat.div_mul_le_self _ _)
  have hmul : (k + 1) * ((i + 1) * 8) = k * ((i + 1) * 8) + (i + 1) * 8 := by ring
  unfold obj
  simp only [pageSize] at hle ⊢
  omega

theorem obj_aligned (hp : page % pageSize = 0) : obj page i k % 8 = 0 := by
  have hmul : k * ((i + 1) * 8) = 8 * (k * (i + 1)) := by ring
  simp only [pageSize] at hp
  unfold obj
  omega

/-- two objects of a page do not overlap -/
theorem obj_apart (h : k ≠ j) :
    obj page i k + (i + 1) * 8 ≤ obj page i j ∨ obj page i j + (i + 1) * 8 ≤ obj page i k := by
  have hstep : ∀ a b : ℕ, a < b → obj page i a + (i + 1) * 8 ≤ obj page i b := by
    intro a b hab
    have hle : (a + 1) * ((i + 1) * 8) ≤ b * ((i + 1) * 8) := Nat.mul_le_mul_right _ hab
    have hmul : (a + 1) * ((i + 1) * 8) = a * ((i + 1) * 8) + (i + 1) * 8 := by ring
    unfold obj
    omega
  rcases Nat.lt_or_gt_of_ne h with h | h
  · exact Or.inl (hstep k j h)
  · exact Or.inr (hstep j k h)

theorem objs_bounds (ha : a ∈ objs page i) : page + 8 ≤ a ∧ a + (i + 1) * 8 ≤ page + pageSize := by
  obtain ⟨k, hk, rfl⟩ := mem_objs.1 ha
  exact obj_bounds hk

theorem objs_apart {b : ℕ} (ha : a ∈ objs page i) (hb : b ∈ objs page i) (hab : a ≠ b) :
    a + (i + 1) * 8 ≤ b ∨ b + (i + 1) * 8 ≤ a := by
  obtain ⟨k, -, rfl⟩ := mem_objs.1 ha
  obtain ⟨j, -, rfl⟩ := mem_objs.1 hb
  exact obj_apart fun hkj => hab (by rw [hkj])

theorem pageBase_objs (hp : page % pageSize = 0) (ha : a ∈ objs page i) : pageBase a = page := by
  have hb := objs_bounds ha
  unfold pageBase
  simp only [pageSize] at hp hb ⊢
  omega

theorem inPage_iff (hp : page % pageSize = 0) : InPage page a ↔ pageBase a = page := by
  unfold InPage pageBase
  simp only [pageSize] at hp ⊢
  omega

theorem Allocatable.aligned (h : Allocatable L p) : p % pageSize = 0 := by
  obtain ⟨k, -, rfl⟩ := h
  simp only [zeroPage, pageBase, pageSize]
  omega

theorem slabIndex_spec {size : ℕ} (h1 : 1 ≤ size) (h2 : size ≤ 4088) :
    slabIndex size < 511 ∧ size ≤ (slabIndex size + 1) * 8 := by
  unfold slabIndex
  split_ifs <;> omega

/-! ## The loops -/

/-- the test of `new_slab` stops at the last object of the page -/
theorem newSlabLoop_test :
    page + 8 + pageSize - 8 < obj page i k + 2 * ((i + 1) * 8) ↔ objCount i < k + 2 := by
  have hmul : obj page i k + 2 * ((i + 1) * 8) = page + 8 + (k + 2) * ((i + 1) * 8) := by unfold obj; ring
  have hdiv : objCount i < k + 2 ↔ pageSize - 8 < (k + 2) * ((i + 1) * 8) := Nat.div_lt_iff_lt_mul (by omega)
  rw [hmul, hdiv]
  simp only [pageSize]
  omega

/-- **The loop of new_slab.** It threads the objects from number k on and counts them. -/
theorem newSlabLoop_ok (page i r k fuel count : ℕ) (cell : ℕ → ℕ) (hk : k + r + 1 = objCount i) (hf : r < fuel) :
    ∃ cell', newSlabLoop (page + 8) ((i + 1) * 8) fuel (obj page i k) cell count = some (cell', count + r) ∧
      Chain cell' (obj page i k) ((List.range' k (r + 1)).map (obj page i)) ∧
      ∀ a, a < obj page i k ∨ page + pageSize ≤ a → cell' a = cell a := by
  have hne : obj page i k ≠ 0 := by unfold obj; omega
  have hb := (obj_bounds (show k < objCount i by omega) : page + 8 ≤ obj page i k ∧ _)
  induction r generalizing k fuel cell count with
  | zero =>
    obtain ⟨fuel, rfl⟩ : ∃ f, fuel = f + 1 := ⟨fuel - 1, by omega⟩
    refine ⟨update cell (obj page i k) 0, ?_, ⟨rfl, hne, ?_⟩, fun a ha => ?_⟩
    · rw [newSlabLoop, if_pos (newSlabLoop_test.2 (by omega))]
      rfl
    · exact update_self _ _ _
    · exact update_of_ne (by omega) _ _
  | succ r ih =>
    obtain ⟨fuel, rfl⟩ : ∃ f, fuel = f + 1 := ⟨fuel - 1, by omega⟩
    have hsucc : obj page i k + (i + 1) * 8 = obj page i (k + 1) := by unfold obj; ring
    obtain ⟨cell', hrun, hch, hfr⟩ := ih (k + 1) fuel (count + 1)
      (update cell (obj page i k) (obj page i (k + 1))) (by omega) (by omega) (by unfold obj; omega)
      (obj_bounds (show k + 1 < objCount i by omega))
    have hnext : cell' (obj page i k) = obj page i (k + 1) := by
      rw [hfr _ (Or.inl (by omega)), update_self]
    refine ⟨cell', ?_, ?_, fun a ha => ?_⟩
    · rw [newSlabLoop, if_neg (mt newSlabLoop_test.1 (by omega)), hsucc, hrun]
      congr 2
      omega
    · rw [List.range'_succ, List.map_cons]
      exact ⟨rfl, hne, by rw [hnext]; exact hch⟩
    · rw [hfr a (by omega)]
      exact update_of_ne (by omega) _ _

section Unlink

variable {page : ℕ} {cell : ℕ → ℕ}

/-- the nodes of a list that lie in other pages -/
def others (page : ℕ) (l : List ℕ) : List ℕ := l.filter fun a => ¬ InPage page a

theorem mem_others : x ∈ others page l ↔ x ∈ l ∧ ¬ InPage page x := by
  simp [others]

theorem others_erase (hl : l.Nodup) (ha : InPage page a) : others page (l.erase a) = others page l := by
  rw [hl.erase_eq_filter, others, List.filter_filter]
  refine List.filter_congr fun b _ => ?_
  by_cases hb : b = a
  · simp [hb, ha]
  · simp [hb]

theorem others_dropWhile (l : List ℕ) : others page (l.dropWhile fun a => InPage page a) = others page l := by
  induction l with
  | nil => rfl
  | cons a l ih =>
    by_cases ha : InPage page a
    · simpa [others, ha] using ih
    · simp [ha]

theorem skipLoop_ok (page : ℕ) {cur : ℕ} (h : Chain cell cur l) (hf : l.length < fuel) :
    ∃ cur', skipLoop page cell fuel cur = some cur' ∧ Chain cell cur' (l.dropWhile fun a => InPage page a) := by
  induction l generalizing cur fuel with
  | nil =>
    obtain ⟨fuel, rfl⟩ : ∃ f, fuel = f + 1 := ⟨fuel - 1, by omega⟩
    have hcur : cur = 0 := h
    exact ⟨cur, by simp [skipLoop, hcur], h⟩
  | cons a l ih =>
    obtain ⟨fuel, rfl⟩ : ∃ f, fuel = f + 1 := ⟨fuel - 1, by omega⟩
    obtain ⟨rfl, hne, hl⟩ := h
    by_cases ha : InPage page cur
    · obtain ⟨cur', hrun, hch⟩ := ih hl (by simpa using hf)
      exact ⟨cur', by rw [skipLoop, if_pos ⟨ha, hne⟩]; exact hrun, by simpa [ha] using hch⟩
    · exact ⟨cur, by simp [skipLoop, ha], by simpa [ha] using ⟨rfl, hne, hl⟩⟩

/-- the sweep starts at a node a that stays -/
theorem sweepLoop_ok (fuel : ℕ) (h : Chain cell a (a :: l)) (ha : ¬ InPage page a)
    (hf : l.length < fuel) :
    ∃ cell', sweepLoop page fuel a cell = some cell' ∧ Chain cell' a (a :: others page l) ∧
      ∀ x, x ∉ a :: l ∨ InPage page x → cell' x = cell x := by
  induction l generalizing a fuel cell with
  | nil =>
    obtain ⟨fuel, rfl⟩ : ∃ f, fuel = f + 1 := ⟨fuel - 1, by omega⟩
    obtain ⟨-, hne, hnil⟩ := h
    have hnil : cell a = 0 := hnil
    exact ⟨cell, by simp [sweepLoop, hne, hnil], ⟨rfl, hne, hnil⟩, fun _ _ => rfl⟩
  | cons b l ih =>
    obtain ⟨fuel, rfl⟩ : ∃ f, fuel = f + 1 := ⟨fuel - 1, by omega⟩
    have hnd := h.nodup
    obtain ⟨-, hne, hb, hbne, hl⟩ := h
    have hal : a ∉ b :: l := (List.nodup_cons.1 hnd).1
    by_cases hbp : InPage page b
    · -- b is unlinked, a stays where it is
      have hch : Chain (update cell a (cell b)) a (a :: l) := by
        refine ⟨rfl, hne, ?_⟩
        rw [update_self]
        refine hl.congr fun x hx => ?_
        have hxa : x ≠ a := fun hxa => hal (hxa ▸ List.mem_cons_of_mem b hx)
        exact update_of_ne hxa _ _
      obtain ⟨cell', hrun, hch', hfr⟩ := ih fuel hch ha (by simpa using hf)
      refine ⟨cell', ?_, by simpa [others, hbp] using hch', fun x hx => ?_⟩
      · rw [sweepLoop, if_neg hne]
        simp only [hb]
        rw [if_pos ⟨hbp, hbne⟩]
        exact hrun
      · have hxa : x ≠ a := by
          rintro rfl
          rcases hx with hx | hx
          · exact hx List.mem_cons_self
          · exact ha hx
        rw [hfr x (hx.imp_left fun hx hx' => hx ?_), update_of_ne hxa]
        rcases List.mem_cons.1 hx' with rfl | hx'
        · exact List.mem_cons_self
        · exact List.mem_cons_of_mem a (List.mem_cons_of_mem b hx')
    · -- b stays, the sweep goes on from it
      obtain ⟨cell', hrun, hch', hfr⟩ := ih fuel ⟨rfl, hbne, hl⟩ hbp (by simpa using hf)
      refine ⟨cell', ?_, ?_, fun x hx => hfr x (hx.imp_left fun hx hx' => hx (List.mem_cons_of_mem a hx'))⟩
      · rw [sweepLoop, if_neg hne]
        simp only [hb]
        rw [if_neg fun hx => hbp hx.1, if_neg hbne]
        exact hrun
      · have hsame : cell' a = b := by rw [hfr a (Or.inl hal), hb]
        have hoth : others page (b :: l) = b :: others page l := by simp [others, hbp]
        rw [hoth]
        exact ⟨rfl, hne, by rw [hsame]; exact hch'⟩

/-- **Unlinking a page.** The two loops of `kfree` take the objects of the page off the list, wherever they are, and
touch nothing else. -/
theorem unlink_ok (page : ℕ) (h : Chain cell p l) (hf : l.length < fuel) :
    ∃ cur cell', skipLoop page cell fuel p = some cur ∧ sweepLoop page fuel cur cell = some cell' ∧
      Chain cell' cur (others page l) ∧ ∀ x, x ∉ l ∨ InPage page x → cell' x = cell x := by
  obtain ⟨cur, hskip, hch⟩ := skipLoop_ok page h hf
  rw [← others_dropWhile]
  have hsuf : (l.dropWhile fun a => InPage page a).Sublist l := List.dropWhile_sublist _
  cases hd : l.dropWhile fun a => InPage page a with
  | nil =>
    rw [hd] at hch
    have hcur : cur = 0 := hch
    obtain ⟨fuel, rfl⟩ : ∃ f, fuel = f + 1 := ⟨fuel - 1, by omega⟩
    exact ⟨cur, cell, hskip, by simp [sweepLoop, hcur], hch, fun _ _ => rfl⟩
  | cons a l' =>
    have ha : ¬ InPage page a := by
      have := List.head?_dropWhile_not (fun a => decide (InPage page a)) l
      rw [hd] at this
      simpa using this
    rw [hd] at hch hsuf
    have hlen := hsuf.length_le
    obtain ⟨rfl, hrest⟩ := hch
    obtain ⟨cell', hsweep, hch', hfr⟩ := sweepLoop_ok fuel ⟨rfl, hrest⟩ ha
      (by rw [List.length_cons] at hlen; omega)
    refine ⟨cur, cell', hskip, hsweep, ?_, fun x hx => hfr x (hx.imp_left fun hx hx' => hx (hsuf.subset hx'))⟩
    have hoth : others page (cur :: l') = cur :: others page l' := by simp [others, ha]
    rw [hoth]
    exact hch'

end Unlink

/-! ## The invariant -/

/-- `free i` is the list threaded from `slabs[i]`, `cls` gives the class of each slab page, `live` are the blocks handed
out; the objects of a page are split between the last two -/
structure SlabOk (L : Layout) (h : Heap) (fl : List ℕ) (free : ℕ → List ℕ) (cls : ℕ → Option ℕ) (live : List ℕ) :
    Prop where
  pages : PagesOk L h.pm fl
  slab : ∀ {P i}, cls P = some i → Allocatable L P ∧ h.pm.ref (pageIndex P) = 1 ∧ i < 511
  chain : ∀ i < 511, Chain h.pm.cell (h.slabs i) (free i)
  free_obj : ∀ i < 511, ∀ a ∈ free i, ∃ P, cls P = some i ∧ a ∈ objs P i
  live_obj : ∀ a ∈ live, ∃ P i, cls P = some i ∧ a ∈ objs P i
  live_nodup : live.Nodup
  split : ∀ {P i}, cls P = some i → ∀ a ∈ objs P i, (a ∈ live ↔ a ∉ free i)
  index : ∀ {P i}, cls P = some i → intLo (h.pm.cell P) = i
  count : ∀ {P i}, cls P = some i → intHi (h.pm.cell P) = ((free i).filter fun a => InPage P a).length

theorem inPage_unique (hP : Allocatable L P) (hQ : Allocatable L Q) (h1 : InPage P a)
    (h2 : InPage Q a) : P = Q := by
  rw [inPage_iff hP.aligned] at h1
  rw [inPage_iff hQ.aligned] at h2
  exact h1.symm.trans h2

theorem inPage_objs (ha : a ∈ objs P i) : InPage P a := by
  have hb := objs_bounds ha
  exact ⟨by omega, by omega⟩

theorem inPage_self (P : ℕ) : InPage P P := ⟨le_rfl, by simp only [pageSize]; omega⟩

namespace SlabOk

variable {L : Layout} {h : Heap} {fl : List ℕ} {free : ℕ → List ℕ} {cls : ℕ → Option ℕ} {live : List ℕ}
  (ok : SlabOk L h fl free cls live)
include ok

theorem owned (hc : cls P = some i) : 0 < h.pm.ref (pageIndex P) := by
  rw [(ok.slab hc).2.1]
  decide

/-- a cell of the page belongs to an object of that page, or to none -/
theorem page_eq (hP : cls P = some i) (hQ : cls Q = some j) (ha : a ∈ objs Q j) (hin : InPage P a) :
    Q = P :=
  inPage_unique (ok.slab hQ).1 (ok.slab hP).1 (inPage_objs ha) hin

theorem pageBase_eq (hP : cls P = some i) (ha : a ∈ objs P i) : pageBase a = P :=
  pageBase_objs (ok.slab hP).1.aligned ha

/-- no object starts where a header is -/
theorem ne_header (hP : cls P = some i) (hQ : cls Q = some j) (ha : a ∈ objs Q j) : a ≠ P := by
  rintro rfl
  have hQP := ok.page_eq hP hQ ha (inPage_self a)
  have hb := objs_bounds ha
  omega

theorem free_ne_header (hP : cls P = some i) (hj : j < 511) (ha : a ∈ free j) : a ≠ P := by
  obtain ⟨Q, hQ, hQa⟩ := ok.free_obj j hj a ha
  exact ok.ne_header hP hQ hQa

/-- the lists are shorter than the bound of the loops -/
theorem free_length (hi : i < 511) : (free i).length < listFuel := by
  have hb : ∀ a ∈ free i, p2k extmem ≤ a ∧ a < kernelStop := by
    intro a ha
    obtain ⟨P, hP, hPa⟩ := ok.free_obj i hi a ha
    have hb := objs_bounds hPa
    obtain ⟨k, hk, hPk⟩ := (ok.slab hP).1
    have hz := zeroPage_eq L
    obtain ⟨e, h1, -, -⟩ := layout_bounds L
    rw [zeroPage] at hz hPk
    simp only [pageSize] at hb hz h1 hPk
    constructor <;> omega
  have hlen := (ok.chain i hi).length_le hb
  have hsize : kernelStop - p2k extmem = phystop - extmem := by decide
  rw [hsize] at hlen
  unfold listFuel
  omega

/-- the header of a slab page is rewritten, with the same class -/
theorem header_links (hP : cls P = some i) (hj : j < 511) :
    Chain (update h.pm.cell P w) (h.slabs j) (free j) :=
  (ok.chain j hj).congr fun _ ha => update_of_ne (ok.free_ne_header hP hj ha) _ _

theorem header_pages (hP : cls P = some i) :
    PagesOk L { h.pm with cell := update h.pm.cell P w } fl := by
  exact ok.pages.store (ok.slab hP).1 (ok.owned hP) (inPage_self P).1 (inPage_self P).2 w

theorem mem_objs (hP : cls P = some i) (ha : a ∈ free i ∨ a ∈ live) (hin : InPage P a) : a ∈ objs P i := by
  obtain ⟨Q, j, hQ, hQa⟩ : ∃ Q j, cls Q = some j ∧ a ∈ objs Q j := by
    rcases ha with ha | ha
    · obtain ⟨Q, hQ⟩ := ok.free_obj i (ok.slab hP).2.2 a ha
      exact ⟨Q, i, hQ⟩
    · exact ok.live_obj a ha
  obtain rfl := ok.page_eq hP hQ hQa hin
  obtain rfl : j = i := Option.some.inj (hQ.symm.trans hP)
  exact hQa

/-- the objects of a page on the list, in page order -/
theorem count_objs (hP : cls P = some i) :
    ((free i).filter fun a => InPage P a).length = ((objs P i).filter fun a => a ∈ free i).length := by
  have hi := (ok.slab hP).2.2
  apply List.Perm.length_eq
  rw [List.perm_ext_iff_of_nodup ((ok.chain i hi).nodup.filter _) ((objs_nodup P i).filter _)]
  intro a
  simp only [List.mem_filter, decide_eq_true_eq]
  exact ⟨fun ⟨ha, hin⟩ => ⟨ok.mem_objs hP (Or.inl ha) hin, ha⟩, fun ⟨ha, hf⟩ => ⟨hf, inPage_objs ha⟩⟩

theorem count_lt (hP : cls P = some i) : intHi (h.pm.cell P) ≤ objCount i ∧ objCount i < 2 ^ 32 - 1 := by
  constructor
  · rw [ok.count hP, ok.count_objs hP]
    exact (List.length_filter_le _ _).trans (by simp [objs])
  · have hle : objCount i ≤ pageSize - 8 := Nat.div_le_self _ _
    simp only [pageSize] at hle
    omega

/-- **The last live object.** One more free object fills the page exactly when nothing else in it is live. -/
theorem last_live (hP : cls P = some i) (ha : a ∈ objs P i) (hlive : a ∈ live) :
    intHi (h.pm.cell P) + 1 = objCount i ↔ ∀ b ∈ live, InPage P b → b = a := by
  have hsum : ((objs P i).filter fun b => b ∈ free i).length + ((objs P i).filter fun b => b ∉ free i).length =
      objCount i := by
    have := List.length_eq_length_filter_add (l := objs P i) fun b => decide (b ∈ free i)
    rw [show (objs P i).length = objCount i by simp [objs]] at this
    rw [this]
    congr 2
    apply List.filter_congr
    intro b _
    simp
  have hmem : a ∈ (objs P i).filter fun b => b ∉ free i := by
    simp only [List.mem_filter, decide_eq_true_eq]
    exact ⟨ha, (ok.split hP a ha).1 hlive⟩
  have hone : ((objs P i).filter fun b => b ∉ free i).length = 1 ↔ ∀ b ∈ live, InPage P b → b = a := by
    rw [List.length_eq_one_iff]
    constructor
    · rintro ⟨x, hx⟩ b hb hin
      have hPb := ok.mem_objs hP (Or.inr hb) hin
      have hb' : b ∈ (objs P i).filter fun b => b ∉ free i := by
        simp only [List.mem_filter, decide_eq_true_eq]
        exact ⟨hPb, (ok.split hP b hPb).1 hb⟩
      rw [hx, List.mem_singleton] at hmem hb'
      rw [hb', hmem]
    · intro hall
      refine ⟨a, List.perm_singleton.1 ?_⟩
      rw [List.perm_ext_iff_of_nodup ((objs_nodup P i).filter _) (List.nodup_singleton a)]
      intro b
      rw [List.mem_singleton]
      constructor
      · intro hb
        simp only [List.mem_filter, decide_eq_true_eq] at hb
        have hbl : b ∈ live := (ok.split hP b hb.1).2 hb.2
        exact hall b hbl (inPage_objs hb.1)
      · rintro rfl
        exact hmem
  rw [ok.count hP, ok.count_objs hP, ← hone]
  omega

/-! ## What the functions do -/

/-- a free page is no slab page -/
theorem ne_free {q : ℕ} (hQ : cls Q = some j) (hq : q ∈ fl) : Q ≠ q := by
  rintro rfl
  have h0 := ((ok.pages.mem Q).1 hq).2
  rw [(ok.slab hQ).2.1] at h0
  exact absurd h0 (by decide)

theorem apart (hP : Allocatable L P) (hQ : cls Q = some j) (hQP : Q ≠ P) (ha : InPage Q a) : ¬ InPage P a :=
  fun hin => hQP (inPage_unique (ok.slab hQ).1 hP ha hin)

/-- a free page is no object's page -/
theorem link_notMem {q : ℕ} (hi : i < 511) (hq : q ∈ fl) (ha : a ∈ free i) : ¬ InPage q a := by
  obtain ⟨P, hP, hPa⟩ := ok.free_obj i hi a ha
  exact ok.apart (ok.pages.allocatable hq) hP (ok.ne_free hP hq) (inPage_objs hPa)

/-- objects of different classes are different -/
theorem class_eq (hP : cls P = some i) (hPa : a ∈ objs P i) (hj : j < 511) (ha : a ∈ free j) : j = i := by
  obtain ⟨Q, hQ, hQa⟩ := ok.free_obj j hj a ha
  obtain rfl := ok.page_eq hP hQ hQa (inPage_objs hPa)
  exact Option.some.inj (hQ.symm.trans hP)

/-- **One page changes.** Outside page `P` the list of class `i`, the live blocks and the headers are as before; the page
has its objects on that list or live, or is no slab page any more. -/
theorem change {h' : Heap} {fl' l live' : List ℕ} {cls' : ℕ → Option ℕ} (hP : Allocatable L P) (hi : i < 511)
    (hold : ∀ j, cls P = some j → j = i) (hcls : ∀ Q, Q ≠ P → cls' Q = cls Q) (hpages : PagesOk L h'.pm fl')
    (href : ∀ k, k ≠ pageIndex P → h'.pm.ref k = h.pm.ref k)
    (hcell : ∀ {Q j b}, Q ≠ P → cls Q = some j → InPage Q b → b ∉ free i → h'.pm.cell b = h.pm.cell b)
    (hslabs : ∀ j, j ≠ i → h'.slabs j = h.slabs j) (hchain : Chain h'.pm.cell (h'.slabs i) l)
    (hfree : others P l = others P (free i)) (hlive : others P live' = others P live) (hnodup : live'.Nodup)
    (hin : ∀ a, a ∈ l ∨ a ∈ live' → InPage P a → cls' P = some i ∧ a ∈ objs P i)
    (hpage : ∀ j, cls' P = some j → j = i ∧ h'.pm.ref (pageIndex P) = 1 ∧ intLo (h'.pm.cell P) = i ∧
      intHi (h'.pm.cell P) = (l.filter fun a => InPage P a).length ∧ ∀ a ∈ objs P i, (a ∈ live' ↔ a ∉ l)) :
    SlabOk L h' fl' (update free i l) cls' live' := by
  have hmem : ∀ a, ¬ InPage P a → (a ∈ l ↔ a ∈ free i) ∧ (a ∈ live' ↔ a ∈ live) := by
    intro a ha
    have h1 : a ∈ others P l ↔ a ∈ others P (free i) := by rw [hfree]
    have h2 : a ∈ others P live' ↔ a ∈ others P live := by rw [hlive]
    simpa only [mem_others, ha, not_false_eq_true, and_true] using And.intro h1 h2
  have hkeep : ∀ {Q j}, Q ≠ P → cls Q = some j → cls' Q = some j := fun hQP hQ => (hcls _ hQP).trans hQ
  have hhead : ∀ {Q j}, Q ≠ P → cls Q = some j → h'.pm.cell Q = h.pm.cell Q :=
    fun hQP hQ => hcell hQP hQ (inPage_self _) fun hx => ok.free_ne_header hQ hi hx rfl
  refine ⟨hpages, fun {Q j} hQ => ?_, fun j hj => ?_, fun j hj a ha => ?_, fun a ha => ?_, hnodup,
    fun {Q j} hQ a ha => ?_, fun {Q j} hQ => ?_, fun {Q j} hQ => ?_⟩
  · by_cases hQP : Q = P
    · subst hQP
      obtain ⟨rfl, hone, -⟩ := hpage j hQ
      exact ⟨hP, hone, hi⟩
    · rw [hcls Q hQP] at hQ
      obtain ⟨hQa, hone, hj⟩ := ok.slab hQ
      rw [href _ fun hx => hQP (hQa.index_inj hP hx)]
      exact ⟨hQa, hone, hj⟩
  · by_cases hji : j = i
    · subst hji
      rwa [update_self]
    · rw [update_of_ne hji, hslabs j hji]
      refine (ok.chain j hj).congr fun a ha => ?_
      obtain ⟨Q, hQ, hQa⟩ := ok.free_obj j hj a ha
      have hQP : Q ≠ P := fun hx => hji (hold j (hx ▸ hQ))
      exact hcell hQP hQ (inPage_objs hQa) fun hai => hji (ok.class_eq hQ hQa hi hai).symm
  · by_cases hji : j = i
    · subst hji
      rw [update_self] at ha
      by_cases haP : InPage P a
      · exact ⟨P, hin a (Or.inl ha) haP⟩
      · obtain ⟨Q, hQ, hQa⟩ := ok.free_obj j hj a ((hmem a haP).1.1 ha)
        exact ⟨Q, hkeep (fun hx => haP (hx ▸ inPage_objs hQa)) hQ, hQa⟩
    · rw [update_of_ne hji] at ha
      obtain ⟨Q, hQ, hQa⟩ := ok.free_obj j hj a ha
      exact ⟨Q, hkeep (fun hx => hji (hold j (hx ▸ hQ))) hQ, hQa⟩
  · by_cases haP : InPage P a
    · exact ⟨P, i, hin a (Or.inr ha) haP⟩
    · obtain ⟨Q, j, hQ, hQa⟩ := ok.live_obj a ((hmem a haP).2.1 ha)
      exact ⟨Q, j, hkeep (fun hx => haP (hx ▸ inPage_objs hQa)) hQ, hQa⟩
  · by_cases hQP : Q = P
    · subst hQP
      obtain ⟨rfl, -, -, -, hsplit⟩ := hpage j hQ
      rw [update_self]
      exact hsplit a ha
    · rw [hcls Q hQP] at hQ
      obtain ⟨hl, hlive⟩ := hmem a (ok.apart hP hQ hQP (inPage_objs ha))
      rw [hlive, ok.split hQ a ha]
      by_cases hji : j = i
      · subst hji
        rw [update_self, hl]
      · rw [update_of_ne hji]
  · by_cases hQP : Q = P
    · subst hQP
      obtain ⟨rfl, -, hindex, -⟩ := hpage j hQ
      exact hindex
    · rw [hcls Q hQP] at hQ
      rw [hhead hQP hQ]
      exact ok.index hQ
  · by_cases hQP : Q = P
    · subst hQP
      obtain ⟨rfl, -, -, hcount, -⟩ := hpage j hQ
      rw [update_self]
      exact hcount
    · rw [hcls Q hQP] at hQ
      rw [hhead hQP hQ, ok.count hQ]
      by_cases hji : j = i
      · subst hji
        -- the objects of `Q` are not those of `P`
        have hothers : ∀ l : List ℕ, l.filter (fun a => InPage Q a) = (others P l).filter fun a => InPage Q a := by
          intro l
          rw [others, List.filter_filter]
          refine List.filter_congr fun a _ => ?_
          by_cases ha : InPage Q a
          · simp [ha, ok.apart hP hQ hQP ha]
          · simp [ha]
        rw [update_self, hothers l, hfree, ← hothers]
      · rw [update_of_ne hji]

/-- the first object of a list is handed out -/
theorem take (hi : i < 511) (hl : free i = a :: l) :
    (takeSlab i h).1 = a ∧ (∃ P, cls P = some i ∧ a ∈ objs P i) ∧
      SlabOk L (takeSlab i h).2 fl (update free i l) cls (a :: live) := by
  have hch := ok.chain i hi
  have hnd := hch.nodup
  rw [hl] at hch hnd
  obtain ⟨P, hP, hPa⟩ := ok.free_obj i hi a (hl ▸ List.mem_cons_self)
  have hal : a ∉ l := (List.nodup_cons.1 hnd).1
  have haP : a ≠ P := ok.ne_header hP hP hPa
  have hin : InPage P a := inPage_objs hPa
  have hlt := ok.count_lt hP
  have hcount := ok.count hP
  set w := withHi (h.pm.cell P) (intHi (h.pm.cell P) + (2 ^ 32 - 1)) with hw
  have htake : takeSlab i h = (a, ⟨{ h.pm with cell := update h.pm.cell P w },
      update h.slabs i (h.pm.cell a)⟩) := by
    simp only [takeSlab, Heap.recell, hch.1, ok.pageBase_eq hP hPa, hw, update_of_ne haP]
  rw [htake]
  refine ⟨rfl, ⟨P, hP, hPa⟩, ok.change (P := P) (ok.slab hP).1 hi (fun j hj => Option.some.inj (hj.symm.trans hP))
    (fun _ _ => rfl) (ok.header_pages hP) (fun _ _ => rfl) (fun hQP hQ hb _ => ?_)
    (fun j hj => update_of_ne hj _ _) ?_ ?_ ?_ ?_ (fun b hb hbP => ⟨hP, ?_⟩) fun j hj => ?_⟩
  · refine update_of_ne ?_ _ _
    rintro rfl
    exact ok.apart (ok.slab hP).1 hQ hQP hb (inPage_self _)
  · have hlinks := ok.header_links (w := w) hP hi
    rw [hl] at hlinks
    simpa only [update_self, update_of_ne haP] using hlinks.2.2
  · simp [others, hl, hin]
  · simp [others, hin]
  · refine List.nodup_cons.2 ⟨fun ha => ?_, ok.live_nodup⟩
    exact (ok.split hP a hPa).1 ha (hl ▸ List.mem_cons_self)
  · rw [List.mem_cons] at hb
    rcases hb with hb | rfl | hb
    · exact ok.mem_objs hP (Or.inl (hl ▸ List.mem_cons_of_mem a hb)) hbP
    · exact hPa
    · exact ok.mem_objs hP (Or.inr hb) hbP
  · simp only [hl, List.filter_cons, hin, decide_true, if_true, List.length_cons] at hcount
    refine ⟨Option.some.inj (hj.symm.trans hP), (ok.slab hP).2.1, ?_, ?_, fun b hb => ?_⟩
    · simp only [update_self, hw, intLo_withHi]
      exact ok.index hP
    · simp only [update_self, hw, intHi_withHi]
      omega
    · rw [List.mem_cons, ok.split hP b hb, hl, List.mem_cons, not_or]
      by_cases hba : b = a
      · simp [hba, hal]
      · simp [hba]

/-- a page is set up for a class that has no free object -/
theorem fresh (hi : i < 511) (hnil : h.slabs i = 0) {fl' : List ℕ} (hfl : fl = P :: fl') :
    ∃ h', newSlab i h = some h' ∧ cls P = none ∧
      SlabOk L h' fl' (update free i (objs P i)) (update cls P (some i)) live := by
  obtain ⟨m', hk, hok, h0, hm⟩ := ok.pages.kalloc hfl
  have hfree : free i = [] := (ok.chain i hi).head_eq_zero.1 hnil
  have hPfl : P ∈ fl := hfl ▸ List.mem_cons_self
  have hPa : Allocatable L P := ok.pages.allocatable hPfl
  have hnone : cls P = none := by
    cases hc : cls P with
    | none => rfl
    | some j => exact absurd rfl (ok.ne_free hc hPfl)
  have hcell : m'.cell = h.pm.cell := by rw [hm]
  have href : m'.ref = update h.pm.ref (pageIndex P) 1 := by rw [hm]
  have hpos : 1 ≤ objCount i := objCount_pos hi
  have hbound : objCount i < 2 ^ 32 ∧ objCount i ≤ pageSize := by
    have hle : objCount i ≤ pageSize - 8 := Nat.div_le_self _ _
    simp only [pageSize] at hle ⊢
    omega
  have hobj0 : obj P i 0 = P + 8 := by simp [obj]
  obtain ⟨c2, hloop, hch, hfr⟩ := newSlabLoop_ok P i (objCount i - 1) 0 pageSize 1
    (update m'.cell P (withLo (m'.cell P) i)) (by omega) (by omega)
  rw [hobj0] at hloop hch hfr
  have hobjs : (List.range' 0 (objCount i - 1 + 1)).map (obj P i) = objs P i := by
    rw [Nat.sub_add_cancel hpos, ← List.range_eq_range']
    rfl
  rw [hobjs] at hch
  have hn : 1 + (objCount i - 1) = objCount i := by omega
  rw [hn] at hloop
  set c3 := update c2 P (withHi (c2 P) (objCount i)) with hc3
  -- outside the page nothing has changed; its header holds the class and the number of objects
  have hout : ∀ a, ¬ InPage P a → c3 a = h.pm.cell a := by
    intro a ha
    have hne : a ≠ P := fun hx => ha (hx ▸ inPage_self P)
    have hrange : a < P + 8 ∨ P + pageSize ≤ a := by
      unfold InPage at ha
      omega
    rw [hc3, update_of_ne hne, hfr a hrange, update_of_ne hne, hcell]
  have hhead : intLo (c3 P) = i ∧ intHi (c3 P) = objCount i := by
    have hc2 : c2 P = withLo (m'.cell P) i := by rw [hfr P (Or.inl (by omega)), update_self]
    rw [hc3, update_self, intLo_withHi, intHi_withHi, hc2, intLo_withLo]
    exact ⟨Nat.mod_eq_of_lt (by omega), Nat.mod_eq_of_lt hbound.1⟩
  have hnew : newSlab i h = some ⟨{ m' with cell := c3 }, update h.slabs i (P + 8)⟩ := by
    simp only [newSlab, hk, hloop, hc3]
  have hall : (objs P i).filter (fun a => InPage P a) = objs P i :=
    List.filter_eq_self.2 fun a ha => decide_eq_true (inPage_objs ha)
  have hliveP : ∀ a ∈ live, ¬ InPage P a := by
    intro a ha
    obtain ⟨Q, j, hQ, hQa⟩ := ok.live_obj a ha
    exact ok.apart hPa hQ (ok.ne_free hQ hPfl) (inPage_objs hQa)
  refine ⟨_, hnew, hnone, ok.change hPa hi (fun j hj => ?_) (fun Q hQP => update_of_ne hQP _ _)
    (hok.recell fun q hq => ?_) (fun k hk => ?_) (fun hQP hQ hb _ => hout _ (ok.apart hPa hQ hQP hb))
    (fun j hj => update_of_ne hj _ _) ?_ ?_ rfl ok.live_nodup (fun a ha haP => ⟨update_self _ _ _, ?_⟩) fun j hj => ?_⟩
  · rw [hnone] at hj
    exact absurd hj (by simp)
  · rw [hout, hcell]
    have hx := hok.link_outside hPa (by rw [href, update_self]; decide) hq
    unfold InPage
    omega
  · simp only [href, update_of_ne hk]
  · simp only [update_self]
    refine hch.congr fun a ha => update_of_ne ?_ _ _
    have hb := objs_bounds ha
    omega
  · rw [hfree]
    exact List.filter_eq_nil_iff.2 fun a ha => by simpa using inPage_objs ha
  · rcases ha with ha | ha
    · exact ha
    · exact absurd haP (hliveP a ha)
  · rw [update_self, Option.some.injEq] at hj
    refine ⟨hj.symm, by simp [href], hhead.1, ?_, fun a ha => ?_⟩
    · rw [hall, hhead.2]
      simp [objs]
    · exact ⟨fun hl => absurd (inPage_objs ha) (hliveP a hl), fun hx => absurd ha hx⟩

/-- the first lines of `kfree`, on a live block -/
theorem kfree_eq (hP : cls P = some i) (hPa : a ∈ objs P i) :
    kfree L a h =
      (let cell := update h.pm.cell P (withHi (h.pm.cell P) (intHi (h.pm.cell P) + 1))
      if intHi (h.pm.cell P) + 1 = objCount i then
        match skipLoop P cell listFuel (h.slabs i) with
        | none => none
        | some cur =>
          match sweepLoop P listFuel cur cell with
          | none => none
          | some cell => (kfreePage L P { h.pm with cell }).map fun pm => ⟨pm, update h.slabs i cur⟩
      else some (freeSlab a i (h.recell cell))) := by
  have hlt := ok.count_lt hP
  have hmod : (intHi (h.pm.cell P) + 1) % 2 ^ 32 = intHi (h.pm.cell P) + 1 := Nat.mod_eq_of_lt (by omega)
  simp only [kfree, ok.pageBase_eq hP hPa, ok.index hP, intHi_withHi, hmod, Heap.recell, objCount]
  rfl

/-- a block is given back to a page that has other live blocks -/
theorem give (hP : cls P = some i) (hPa : a ∈ objs P i) (hlive : a ∈ live)
    (hmore : intHi (h.pm.cell P) + 1 ≠ objCount i) :
    ∃ h', kfree L a h = some h' ∧ h'.pm.ref = h.pm.ref ∧
      SlabOk L h' fl (update free i (a :: free i)) cls (live.erase a) := by
  have hi := (ok.slab hP).2.2
  have haf : a ∉ free i := (ok.split hP a hPa).1 hlive
  have hlt := ok.count_lt hP
  have haP := ok.ne_header hP hP hPa
  have hin := inPage_objs hPa
  set w := withHi (h.pm.cell P) (intHi (h.pm.cell P) + 1) with hw
  set c := update (update h.pm.cell P w) a (h.slabs i) with hc
  have hsame : ∀ x, x ≠ P → x ≠ a → c x = h.pm.cell x := by
    intro x hxP hxa
    rw [hc, update_of_ne hxa, update_of_ne hxP]
  have hcP : c P = w := by rw [hc, update_of_ne haP.symm, update_self]
  have hrun : kfree L a h = some ⟨{ h.pm with cell := c }, update h.slabs i a⟩ := by
    rw [ok.kfree_eq hP hPa]
    simp only [if_neg hmore, freeSlab, Heap.recell, hc, hw]
  refine ⟨_, hrun, rfl, ok.change (P := P) (ok.slab hP).1 hi (fun j hj => Option.some.inj (hj.symm.trans hP))
    (fun _ _ => rfl) (ok.pages.recell fun q hq => ?_) (fun _ _ => rfl) (fun hQP hQ hb _ => ?_)
    (fun j hj => update_of_ne hj _ _) ?_ ?_ ?_ (ok.live_nodup.erase a) (fun b hb hbP => ⟨hP, ?_⟩) fun j hj => ?_⟩
  · have hx := ok.pages.link_outside (ok.slab hP).1 (ok.owned hP) hq
    unfold InPage at hin
    exact hsame _ (by omega) (by omega)
  · have hbP := ok.apart (ok.slab hP).1 hQ hQP hb
    exact hsame _ (fun hx => hbP (hx ▸ inPage_self P)) fun hx => hbP (hx ▸ hin)
  · simp only [update_self]
    refine ⟨rfl, fun h0 => ?_, ?_⟩
    · have hb := objs_bounds hPa
      omega
    · have hca : c a = h.slabs i := by rw [hc, update_self]
      rw [hca]
      exact (ok.chain i hi).congr fun b hb => hsame b (ok.free_ne_header hP hi hb) fun hx => haf (hx ▸ hb)
  · simp [others, hin]
  · exact others_erase ok.live_nodup hin
  · rw [List.mem_cons] at hb
    rcases hb with (rfl | hb) | hb
    · exact hPa
    · exact ok.mem_objs hP (Or.inl hb) hbP
    · exact ok.mem_objs hP (Or.inr (List.mem_of_mem_erase hb)) hbP
  · refine ⟨Option.some.inj (hj.symm.trans hP), (ok.slab hP).2.1, ?_, ?_, fun b hb => ?_⟩
    · simp only [hcP, hw, intLo_withHi]
      exact ok.index hP
    · rw [List.filter_cons, if_pos (by simpa using hin), List.length_cons, ← ok.count hP]
      simp only [hcP, hw, intHi_withHi]
      exact Nat.mod_eq_of_lt (by omega)
    · rw [ok.live_nodup.mem_erase_iff, ok.split hP b hb, List.mem_cons, not_or]

/-- the last block of a page is given back, and the page with it -/
theorem giveLast (hP : cls P = some i) (hPa : a ∈ objs P i) (hlive : a ∈ live)
    (hlast : intHi (h.pm.cell P) + 1 = objCount i) (hfl : fl ≠ []) :
    ∃ h', kfree L a h = some h' ∧ h'.pm.ref = update h.pm.ref (pageIndex P) 0 ∧
      SlabOk L h' (P :: fl) (update free i (others P (free i))) (update cls P none)
        (live.erase a) := by
  obtain ⟨hPall, hone, hi⟩ := ok.slab hP
  set w := withHi (h.pm.cell P) (intHi (h.pm.cell P) + 1) with hw
  obtain ⟨cur, c2, hskip, hsweep, hch, hfr⟩ := unlink_ok P (ok.header_links (w := w) hP hi) (ok.free_length hi)
  have hc2 : ∀ x, x ≠ P → x ∉ free i ∨ InPage P x → c2 x = h.pm.cell x := by
    intro x hxP hx
    rw [hfr x hx, update_of_ne hxP]
  have hpages : PagesOk L { h.pm with cell := c2 } fl := by
    refine ok.pages.recell fun q hq => hc2 _ (fun hx => ?_) (Or.inl fun hx => ?_)
    · have hx' := ok.pages.link_outside hPall (ok.owned hP) hq
      simp only [pageSize] at hx'
      omega
    · exact ok.link_notMem hi hq hx ⟨by omega, by simp only [pageSize]; omega⟩
  obtain ⟨m', hfree, hok, href, hcell⟩ := hpages.kfree hPall hone hfl
  have hhead : h.pm.freePages ∈ fl := by
    have hch' := ok.pages.chain
    cases hfl' : fl with
    | nil => exact absurd hfl' hfl
    | cons q l =>
      rw [hfl'] at hch'
      rw [hch'.1]
      exact List.mem_cons_self
  -- off the free pages and off this page, only links of the list have changed
  have hm' : ∀ x, ¬ InPage h.pm.freePages x → ¬ InPage P x → m'.cell x = c2 x := by
    intro x hx hxP
    refine hcell x (fun hxe => hx ?_) fun hxe => hxP ?_
    · rw [hxe]
      exact inPage_self _
    · rw [hxe]
      exact ⟨by omega, by simp only [pageSize]; omega⟩
  have hnotF : ∀ {Q j b}, cls Q = some j → InPage Q b → ¬ InPage h.pm.freePages b :=
    fun hQ => ok.apart (ok.pages.allocatable hhead) hQ (ok.ne_free hQ hhead)
  have hrun : kfree L a h = some ⟨m', update h.slabs i cur⟩ := by
    rw [ok.kfree_eq hP hPa]
    simp only [if_pos hlast, ← hw, hskip, hsweep, hfree, Option.map_some]
  refine ⟨_, hrun, href, ok.change hPall hi (fun j hj => Option.some.inj (hj.symm.trans hP))
    (fun Q hQP => update_of_ne hQP _ _) hok (fun k hk => ?_) (fun {Q j b} hQP hQ hb hbi => ?_)
    (fun j hj => update_of_ne hj _ _) ?_ ?_ (others_erase ok.live_nodup (inPage_objs hPa)) (ok.live_nodup.erase a)
    (fun b hb hbP => ?_) fun j hj => ?_⟩
  · simp only [href, update_of_ne hk]
  · have hbP := ok.apart hPall hQ hQP hb
    rw [hm' b (hnotF hQ hb) hbP]
    exact hc2 b (fun hx => hbP (hx ▸ inPage_self P)) (Or.inl hbi)
  · simp only [update_self]
    refine hch.congr fun b hb => ?_
    obtain ⟨hbf, hbP⟩ := mem_others.1 hb
    obtain ⟨Q, hQ, hQb⟩ := ok.free_obj i hi b hbf
    exact hm' b (hnotF hQ (inPage_objs hQb)) hbP
  · simp [others]
  · rcases hb with hb | hb
    · exact absurd hbP (mem_others.1 hb).2
    · obtain ⟨hba, hb⟩ := (ok.live_nodup.mem_erase_iff).1 hb
      exact absurd ((ok.last_live hP hPa hlive).1 hlast b hb hbP) hba
  · rw [update_self] at hj
    exact absurd hj (by simp)

/-- with no free page left the last block of a page cannot be given back -/
theorem giveLast_fault (hP : cls P = some i) (hPa : a ∈ objs P i)
    (hlast : intHi (h.pm.cell P) + 1 = objCount i) (hnull : h.pm.freePages = 0) : kfree L a h = none := by
  obtain ⟨hPall, hone, hi⟩ := ok.slab hP
  obtain ⟨cur, c, hskip, hsweep, -, -⟩ := unlink_ok P
    (ok.header_links (w := withHi (h.pm.cell P) (intHi (h.pm.cell P) + 1)) hP hi) (ok.free_length hi)
  have hfault : kfreePage L P { h.pm with cell := c } = none := by
    simp [kfreePage, hPall.ne_zeroPage, hone, hnull]
  rw [ok.kfree_eq hP hPa]
  simp only [if_pos hlast, hskip, hsweep, hfault, Option.map_none]

/-- the owner of a block writes to it -/
theorem scribble (hP : cls P = some i) (hPa : a ∈ objs P i) (hlive : a ∈ live) (h1 : a ≤ x)
    (h2 : x < a + (i + 1) * 8) (v : ℕ) :
    SlabOk L (h.recell (update h.pm.cell x v)) fl free cls live := by
  have hb := objs_bounds hPa
  have hin : InPage P x := ⟨by omega, by omega⟩
  have hhdr : ∀ {Q j}, cls Q = some j → Q ≠ x := by
    rintro Q j hQ rfl
    have hQP := inPage_unique (ok.slab hQ).1 (ok.slab hP).1 (inPage_self Q) hin
    omega
  have hnode : ∀ j < 511, ∀ b ∈ free j, b ≠ x := by
    rintro j hj b hbf rfl
    obtain ⟨Q, hQ, hQb⟩ := ok.free_obj j hj b hbf
    obtain rfl := ok.page_eq hP hQ hQb hin
    obtain rfl : j = i := Option.some.inj (hQ.symm.trans hP)
    by_cases hba : b = a
    · subst hba
      exact (ok.split hP b hPa).1 hlive hbf
    · rcases objs_apart hQb hPa hba with hx | hx <;> omega
  refine ⟨ok.pages.store (ok.slab hP).1 (ok.owned hP) hin.1 hin.2 v, fun hQ => ok.slab hQ,
    fun j hj => (ok.chain j hj).congr fun b hb => update_of_ne (hnode j hj b hb) _ _, ok.free_obj, ok.live_obj,
    ok.live_nodup, fun hQ => ok.split hQ, fun {Q j} hQ => ?_, fun {Q j} hQ => ?_⟩
  · simp only [Heap.recell, update_of_ne (hhdr hQ)]
    exact ok.index hQ
  · simp only [Heap.recell, update_of_ne (hhdr hQ)]
    exact ok.count hQ

end SlabOk

end OsKernel.Mem
