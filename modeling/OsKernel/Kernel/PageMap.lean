/-
A page directory as a map from virtual pages to entries (`get_pte`, `vmmap`, `free_pgdir` in `kernel/pt.c`).

`Map` is what the tree of tables is for: one entry for every virtual page, and the regions of 512 pages for which a table of
the last level has been made. Every call on a page directory without sections does to the tree what `Map.apply` does to the
map (`refines_step`), from any state of the page allocator.

`free_pgdir` gives the tables back in the order of `below`: every table after the tables it points to (`freeTables_eq`). A
page that is given back is written to, so that its entries must not be needed any more; and `kfree_page` writes into the first
free page, so that there must be one.

Result (`tree_is_map`): entries, NULL and tables are as they should be after any calls, and if a page is free then `free_pgdir`
gives back every table once and nothing else. With no page free it writes through NULL (`free_without_free_page`).
-/
import OsKernel.Lib.Runs
import OsKernel.Kernel.PageTable

namespace OsKernel.Kernel.PageMap

open OsKernel.Runs OsKernel.Radix OsKernel.Mem OsKernel.Kernel.PageTable
open Function (update update_of_ne update_self)

/-! ## Model -/

structure Sys where
  /-- `pgdir->pt` -/
  pt : ℕ
  m : PageMem

inductive Call where
  | getPte (va : ℕ) (alloc : Bool)
  | vmmap (va ka flags : ℕ)

def step (s : Sys) : Call → Option Sys
  | .getPte va alloc => (getPte alloc s.pt va s.m).map fun r => ⟨r.2.1, r.2.2⟩
  | .vmmap va ka flags => (vmmap s.pt va ka flags s.m).map fun r => ⟨r.1, r.2⟩

/-- `init_pgdir` -/
def init (m : PageMem) : Sys := ⟨0, m⟩

/-- what a page directory is for -/
structure Map where
  /-- by number of the virtual page -/
  entry : ℕ → ℕ
  /-- the paths of the tables of the last level -/
  made : List (List ℕ)

def Map.empty : Map := ⟨fun _ => 0, []⟩

def Map.apply (a : Map) : Call → Map
  | .getPte _ false => a
  | .getPte va true => { a with made := path va :: a.made }
  | .vmmap va ka flags =>
    ⟨update a.entry (vpn va) (pageBase (k2p ka) ||| flags), path va :: a.made⟩

/-- the map after the calls -/
def mapOf (calls : List Call) : Map := calls.foldl Map.apply Map.empty

/-! ## Giving pages back -/

section Free

variable {L : Layout} {m m' : PageMem} {l : List ℕ}

/-- `kfree_page` on one page after the other -/
def kfreeAll (L : Layout) (ps : List ℕ) (m : PageMem) : Option PageMem := ps.foldlM (fun m p => kfreePage L p m) m

/-- the pages are free, and nobody else's page has changed -/
structure GivenBack (L : Layout) (m : PageMem) (l ps : List ℕ) (m' : PageMem) : Prop where
  free : FreeList L m' (ps.reverse ++ l)
  ref : ∀ x, Allocatable L x → m'.ref (pageIndex x) = if x ∈ ps then 0 else m.ref (pageIndex x)
  cell : ∀ x, Owned L m x → x ∉ ps → ∀ a, x ≤ a ∧ a < x + pageSize → m'.cell a = m.cell a

theorem kfreeAll_ok {ps : List ℕ} (h : FreeList L m l) (hl : l ≠ []) (hnd : ps.Nodup)
    (hone : ∀ p ∈ ps, Allocatable L p ∧ m.ref (pageIndex p) = 1) : ∃ m', kfreeAll L ps m = some m' ∧ GivenBack L m l ps m' := by
  induction ps generalizing m l with
  | nil => exact ⟨m, rfl, h, fun x _ => by simp, fun _ _ _ _ _ => rfl⟩
  | cons p ps ih =>
    obtain ⟨hp, hp1⟩ := hone p List.mem_cons_self
    obtain ⟨hpps, hnd⟩ := List.nodup_cons.1 hnd
    obtain ⟨m1, hk, hfree, href, hcell⟩ := h.kfree hp hp1 hl
    have hother : ∀ x, Allocatable L x → x ≠ p → m1.ref (pageIndex x) = m.ref (pageIndex x) := by
      intro x hx hxp
      have hne : pageIndex x ≠ pageIndex p := fun hi => hxp (hx.index_inj hp hi)
      rw [href, update_of_ne hne]
    have hkeep : ∀ x, Owned L m x → x ≠ p → ∀ a, x ≤ a ∧ a < x + pageSize → m1.cell a = m.cell a := by
      intro x hx hxp a ha
      -- the first free page and p are other pages than x
      have hhead : m.freePages ∈ l := by
        cases l with
        | nil => exact absurd rfl hl
        | cons q l => exact h.chain.1 ▸ List.mem_cons_self
      have h0 := ((h.mem _).1 hhead).2
      refine hcell a (fun hx0 => ?_) fun hx8 => hxp (IsPage.apart (Or.inl hx.1) (Or.inl hp) ha (by simp only [pageSize]; omega))
      have heq : x = m.freePages := IsPage.apart (Or.inl hx.1) (Or.inl (h.allocatable hhead)) ha
        (by simp only [pageSize]; omega)
      exact hx.2.ne' (by rw [heq, h0])
    obtain ⟨m', hrest, hback⟩ := ih hfree (List.cons_ne_nil _ _) hnd fun q hq => by
      have hqp : q ≠ p := fun hx => hpps (hx ▸ hq)
      obtain ⟨hqa, hq1⟩ := hone q (List.mem_cons_of_mem p hq)
      exact ⟨hqa, by rw [hother q hqa hqp, hq1]⟩
    refine ⟨m', ?_, ?_, fun x hx => ?_, fun x hx hxps a ha => ?_⟩
    · rw [kfreeAll, List.foldlM_cons, hk]
      exact hrest
    · have := hback.free
      rwa [List.reverse_cons, List.append_assoc]
    · rw [hback.ref x hx]
      by_cases hxp : x = p
      · subst hxp
        rw [if_neg hpps, if_pos List.mem_cons_self, href, update_self]
      · rw [hother x hx hxp]
        simp only [List.mem_cons, hxp, false_or]
    · have hxp : x ≠ p := fun hx' => hxps (hx' ▸ List.mem_cons_self)
      have hx1 : Owned L m1 x := ⟨hx.1, by rw [hother x hx.1 hxp]; exact hx.2⟩
      rw [hback.cell x hx1 (fun hx' => hxps (List.mem_cons_of_mem p hx')) a ha, hkeep x hx hxp a ha]

theorem kfreeAll_append (ps qs : List ℕ) (m : PageMem) :
    kfreeAll L (ps ++ qs) m = (kfreeAll L ps m).bind (kfreeAll L qs) := by
  rw [kfreeAll, List.foldlM_append]
  rfl

/-- one turn of a loop of `free_pgdir` -/
def freeEntry (L : Layout) (d t : ℕ) (m : PageMem) (i : ℕ) : Option PageMem :=
  let e := m.cell (t + 8 * i)
  if e &&& pteValid = 0 then some m else freeTables L d (frame e) m

theorem freeTables_succ (d t : ℕ) (m : PageMem) :
    freeTables L (d + 1) t m = ((List.range 512).foldlM (freeEntry L d t) m).bind (kfreePage L t) := rfl

/-- **The order of free_pgdir.** It is `kfree_page` on the tables of the tree, each before the table that points to it: what has
been given back is not read again. -/
theorem freeTables_eq {d t : ℕ} (h : FreeList L m l) (hl : l ≠ []) (hnd : (below tableOf 512 m.cell d t).Nodup)
    (hone : ∀ p ∈ below tableOf 512 m.cell d t, Allocatable L p ∧ m.ref (pageIndex p) = 1) :
    freeTables L d t m = kfreeAll L (below tableOf 512 m.cell d t) m := by
  induction d generalizing t m l with
  | zero =>
    rw [freeTables, below, kfreeAll, List.foldlM_cons]
    exact (bind_pure _).symm
  | succ d ih =>
    -- the loop, from any of its turns on: t is still there, and so is everything below the entries to come
    have hloop : ∀ (is : List ℕ) (m : PageMem) (l : List ℕ), FreeList L m l → l ≠ [] → (∀ i ∈ is, i < 512) →
        (is.flatMap (belowEntry tableOf 512 m.cell d t)).Nodup → t ∉ is.flatMap (belowEntry tableOf 512 m.cell d t) →
        Allocatable L t ∧ m.ref (pageIndex t) = 1 →
        (∀ p ∈ is.flatMap (belowEntry tableOf 512 m.cell d t), Allocatable L p ∧ m.ref (pageIndex p) = 1) →
        is.foldlM (freeEntry L d t) m = kfreeAll L (is.flatMap (belowEntry tableOf 512 m.cell d t)) m := by
      intro is
      induction is with
      | nil => exact fun _ _ _ _ _ _ _ _ _ => rfl
      | cons i is ihis =>
        intro m l h hl hlt hnd ht htone hone
        rw [List.flatMap_cons] at hnd ht hone
        obtain ⟨hnd1, hnd2, hdisj⟩ := List.nodup_append.1 hnd
        have hone1 : ∀ p ∈ belowEntry tableOf 512 m.cell d t i, Allocatable L p ∧ m.ref (pageIndex p) = 1 :=
          fun p hp => hone p (List.mem_append_left _ hp)
        -- this turn
        have hturn : freeEntry L d t m i = kfreeAll L (belowEntry tableOf 512 m.cell d t i) m := by
          by_cases hv : m.cell (t + 8 * i) &&& pteValid = 0
          · have hnone : tableOf (m.cell (t + 8 * i)) = none := if_pos hv
            rw [belowEntry_none hnone]
            exact if_pos hv
          · have hsome : tableOf (m.cell (t + 8 * i)) = some (frame (m.cell (t + 8 * i))) := if_neg hv
            rw [belowEntry_some hsome] at hnd1 hone1 ⊢
            have hfe : freeEntry L d t m i = freeTables L d (frame (m.cell (t + 8 * i))) m := if_neg hv
            rw [hfe, ih h hl hnd1 hone1]
        obtain ⟨m1, hk1, hback⟩ := kfreeAll_ok h hl hnd1 hone1
        -- what the later turns need is as it was
        have hkeep : ∀ p, Allocatable L p ∧ m.ref (pageIndex p) = 1 → p ∉ belowEntry tableOf 512 m.cell d t i →
            (∀ j < 512, m1.cell (p + 8 * j) = m.cell (p + 8 * j)) ∧ m1.ref (pageIndex p) = 1 := by
          intro p hp hnot
          have hown : Owned L m p := ⟨hp.1, by rw [hp.2]; exact Int.one_pos⟩
          exact ⟨fun j hj => hback.cell p hown hnot _ (slot_mem hj), by rw [hback.ref p hp.1, if_neg hnot, hp.2]⟩
        have hnot : ∀ p ∈ is.flatMap (belowEntry tableOf 512 m.cell d t), p ∉ belowEntry tableOf 512 m.cell d t i :=
          fun p hp hp' => hdisj p hp' p hp rfl
        have htkeep := hkeep t htone fun hx => ht (List.mem_append_left _ hx)
        have hsame : is.flatMap (belowEntry tableOf 512 m1.cell d t) = is.flatMap (belowEntry tableOf 512 m.cell d t) := by
          refine List.flatMap_congr fun j hj => belowEntry_congr (htkeep.1 j (hlt j (List.mem_cons_of_mem i hj))) ?_
          intro p hp
          have hpr : p ∈ is.flatMap (belowEntry tableOf 512 m.cell d t) := List.mem_flatMap.2 ⟨j, hj, hp⟩
          exact (hkeep p (hone p (List.mem_append_right _ hpr)) (hnot p hpr)).1
        have hrest := ihis m1 _ hback.free (List.append_ne_nil_of_right_ne_nil _ hl)
          (fun j hj => hlt j (List.mem_cons_of_mem i hj)) (by rw [hsame]; exact hnd2)
          (by rw [hsame]; exact fun hx => ht (List.mem_append_right _ hx)) ⟨htone.1, htkeep.2⟩
          (by
            rw [hsame]
            intro p hp
            have hp1 := hone p (List.mem_append_right _ hp)
            exact ⟨hp1.1, (hkeep p hp1 (hnot p hp)).2⟩)
        rw [hsame] at hrest
        rw [List.foldlM_cons, List.flatMap_cons, kfreeAll_append, hturn, hk1]
        exact hrest
    rw [below_succ] at hnd hone ⊢
    obtain ⟨hnd1, -, hdisj⟩ := List.nodup_append.1 hnd
    rw [freeTables_succ, hloop _ m l h hl (fun i hi => List.mem_range.1 hi) hnd1
      (fun hx => hdisj t hx t (List.mem_singleton_self t) rfl) (hone t (List.mem_append_right _ (List.mem_singleton_self t)))
      fun p hp => hone p (List.mem_append_left _ hp), kfreeAll_append]
    congr 1
    funext m2
    rw [kfreeAll, List.foldlM_cons]
    exact (bind_pure _).symm

end Free

/-! ## Counts -/

/-- a count stays, or becomes 1 when the page is handed out -/
def Handed (m m' : PageMem) : Prop := ∀ i, m'.ref i = m.ref i ∨ m.ref i = 0 ∧ m'.ref i = 1

section Counts

variable {m m' m'' : PageMem}

theorem Handed.refl (m : PageMem) : Handed m m := fun _ => Or.inl rfl

theorem Handed.trans (h : Handed m m') (h' : Handed m' m'') : Handed m m'' := by
  intro i
  rcases h' i with heq | ⟨h0, h1⟩
  · rw [heq]
    exact h i
  · rcases h i with heq | ⟨-, hone⟩
    · exact Or.inr ⟨heq ▸ h0, h1⟩
    · rw [hone] at h0
      cases h0

theorem handed_kalloc {r : ℕ × PageMem} (h : kallocPage m = some r) : Handed m r.2 := by
  simp only [kallocPage] at h
  split_ifs at h with hnull h0
  rw [← Option.some.inj h]
  intro i
  by_cases hi : i = pageIndex m.freePages
  · subst hi
    exact Or.inr ⟨h0, by simp only [update_self, h0, zero_add]⟩
  · exact Or.inl (update_of_ne hi _ _)

theorem handed_rootTable {pt : ℕ} {alloc : Bool} {r : ℕ × PageMem} (h : rootTable alloc pt m = some r) :
    Handed m r.2 := by
  simp only [rootTable] at h
  split_ifs at h
  · obtain ⟨r1, hk, rfl⟩ := Option.map_eq_some_iff.1 h
    have hh : Handed m r1.2 := handed_kalloc hk
    exact hh
  · exact Option.some.inj h ▸ Handed.refl m
  · exact Option.some.inj h ▸ Handed.refl m

theorem handed_nextTable {t i : ℕ} {alloc : Bool} {r : ℕ × PageMem} (h : nextTable alloc t i m = some r) :
    Handed m r.2 := by
  simp only [nextTable] at h
  split_ifs at h
  · obtain ⟨r1, hk, rfl⟩ := Option.map_eq_some_iff.1 h
    have hh : Handed m r1.2 := handed_kalloc hk
    exact hh
  · exact Option.some.inj h ▸ Handed.refl m
  · exact Option.some.inj h ▸ Handed.refl m

theorem handed_descend {t : ℕ} {q : List ℕ} {alloc : Bool} {r : ℕ × PageMem} (h : descend alloc t q m = some r) :
    Handed m r.2 := by
  induction q generalizing t m with
  | nil => exact Option.some.inj h ▸ Handed.refl m
  | cons i q ih =>
    obtain ⟨r1, hn, h⟩ := Option.bind_eq_some_iff.1 h
    split_ifs at h
    · have hh : Handed m r1.2 := handed_nextTable hn
      exact Option.some.inj h ▸ hh
    · exact (handed_nextTable hn).trans (ih h)

theorem handed_getPte {pt va : ℕ} {alloc : Bool} {r : ℕ × ℕ × PageMem} (h : getPte alloc pt va m = some r) :
    Handed m r.2.2 := by
  obtain ⟨r0, hroot, h⟩ := Option.bind_eq_some_iff.1 h
  split_ifs at h
  · have hh : Handed m r0.2 := handed_rootTable hroot
    exact Option.some.inj h ▸ hh
  · obtain ⟨r1, hd, rfl⟩ := Option.map_eq_some_iff.1 h
    have hh : Handed m r1.2 := (handed_rootTable hroot).trans (handed_descend hd)
    exact hh

theorem handed_vmmap {pt va ka flags : ℕ} {r : ℕ × PageMem} (h : vmmap pt va ka flags m = some r) : Handed m r.2 := by
  obtain ⟨r0, hg, h⟩ := Option.bind_eq_some_iff.1 h
  split_ifs at h
  rw [← Option.some.inj h]
  exact handed_getPte hg

end Counts

/-! ## Refinement -/

section Refine

variable {L : Layout} {m0 : PageMem} {l0 : List ℕ}

/-- the tree at s is the map a; since m0 nothing but tables has been taken from the allocator -/
structure Refines (L : Layout) (m0 : PageMem) (a : Map) (s : Sys) : Prop where
  ok : ∃ l, SpacesOk L s.m (fun _ : Unit => s.pt) l
  grown : TableStep L m0 (fun _ : Unit => 0) s.m (fun _ : Unit => s.pt)
  handed : Handed m0 s.m
  entry : ∀ va, entry s.m s.pt va = a.entry (vpn va)
  made : ∀ va, path va ∈ a.made → ∃ t, tableAt tableOf s.m.cell s.pt (path va) = some t

theorem hasTable_null {m : PageMem} {q : List ℕ} {t : ℕ} : ¬ HasTable m (fun _ : Unit => 0) () q t := fun h => by
  have := h.2
  rw [tableAt, if_pos rfl] at this
  cases this

theorem refines_init (h : FreeList L m0 l0) : Refines L m0 Map.empty (init m0) where
  ok := ⟨l0, h, fun _ _ _ ht => absurd ht hasTable_null, fun _ _ _ _ _ ht => absurd ht hasTable_null⟩
  grown := TableStep.refl L m0 _
  handed := Handed.refl m0
  entry va := entry_of_none (if_pos rfl)
  made va hva := by cases hva

theorem update_unit (pt r : ℕ) : update (fun _ : Unit => pt) () r = fun _ => r := by
  funext k
  exact update_self _ _ _

theorem refines_step {a : Map} {s s' : Sys} {e : Call} (h : Refines L m0 a s) (hs : step s e = some s') :
    Refines L m0 (a.apply e) s' := by
  obtain ⟨l, hok⟩ := h.ok
  cases e with
  | getPte va alloc =>
    obtain ⟨⟨pte, r, m'⟩, hg, rfl⟩ := Option.map_eq_some_iff.1 hs
    cases alloc with
    | false =>
      -- nothing changes, whether the levels are there or not
      have hsame : (⟨r, m'⟩ : Sys) = s := by
        cases ht : tableAt tableOf s.m.cell s.pt (path va) with
        | none =>
          rw [getPte_none ht] at hg
          cases hg
          rfl
        | some t =>
          rw [(getPte_of_table ht).1] at hg
          cases hg
          rfl
      exact hsame ▸ h
    | true =>
      obtain ⟨t, hreach, -⟩ := getPte_alloc hok () va hg
      obtain ⟨l', hok'⟩ := hreach.ok
      have hgrown := hreach.grown
      have htable := hreach.table
      rw [update_unit] at hok' hgrown htable
      refine ⟨⟨l', hok'⟩, h.grown.trans hgrown.toTableStep, h.handed.trans (handed_getPte hg), fun va' => ?_, fun va' hva' => ?_⟩
      · rw [hgrown.entry () va', h.entry va']
        rfl
      · rcases List.mem_cons.1 hva' with heq | hold
        · exact ⟨t, heq ▸ htable⟩
        · obtain ⟨t', ht'⟩ := h.made va' hold
          exact ⟨t', (hgrown.table () _ t' ⟨isPath_path va', ht'⟩).2⟩
  | vmmap va ka flags =>
    obtain ⟨⟨r, m'⟩, hv, rfl⟩ := Option.map_eq_some_iff.1 hs
    obtain ⟨l', hok', hstep, hentry⟩ := vmmap_spec hok () hv
    obtain ⟨⟨pte, r1, m1⟩, hg, hset⟩ := Option.bind_eq_some_iff.1 hv
    obtain ⟨t, hreach, hpte, hne⟩ := getPte_alloc hok () va hg
    simp only [if_neg hne, Option.some.injEq, Prod.mk.injEq] at hset
    obtain ⟨rfl, rfl⟩ := hset
    obtain ⟨l1, hok1⟩ := hreach.ok
    have hwrite := (entry_write hok1 hreach.table (pageBase (k2p ka) ||| flags)).2.1.table () (path va) t
      ⟨isPath_path va, hreach.table⟩
    rw [← hpte] at hwrite
    simp only [update_unit] at hok' hstep hentry hwrite
    refine ⟨⟨l', hok'⟩, h.grown.trans hstep, h.handed.trans (handed_vmmap hv), fun va' => ?_, fun va' hva' => ?_⟩
    · rw [hentry () va']
      by_cases hvpn : vpn va' = vpn va
      · simp only [Map.apply, hvpn, update_self, and_self, if_true]
      · simp only [Map.apply, update_of_ne hvpn, hvpn, and_false, if_false, h.entry va']
    · rcases List.mem_cons.1 hva' with heq | hold
      · exact ⟨t, heq ▸ hwrite.2⟩
      · obtain ⟨t', ht'⟩ := h.made va' hold
        exact ⟨t', (hstep.table () _ t' ⟨isPath_path va', ht'⟩).2⟩

end Refine

/-! ## Results -/

section Results

variable {L : Layout} {m0 : PageMem} {l0 : List ℕ} {a : Map} {s : Sys}

/-- p is a table of the page directory -/
def IsTable (s : Sys) (p : ℕ) : Prop := ∃ q, IsPath 512 3 q ∧ tableAt tableOf s.m.cell s.pt q = some p

/-- all tables, in the order in which `free_pgdir` gives them back -/
def tables (s : Sys) : List ℕ := if s.pt = 0 then [] else below tableOf 512 s.m.cell 3 s.pt

theorem mem_tables {p : ℕ} : p ∈ tables s ↔ IsTable s p := by
  rw [tables]
  split_ifs with hpt
  · simp only [List.not_mem_nil, IsTable, tableAt, if_pos hpt, reduceCtorEq, and_false, exists_false]
  · simp only [mem_below, IsTable, tableAt, if_neg hpt]

variable (h : Refines L m0 a s) (h0 : FreeList L m0 l0)
include h

theorem tables_inj {q q' : List ℕ} {t : ℕ} (hq : IsPath 512 3 q) (hq' : IsPath 512 3 q')
    (ht : tableAt tableOf s.m.cell s.pt q = some t) (ht' : tableAt tableOf s.m.cell s.pt q' = some t) : q = q' := by
  obtain ⟨l, hok⟩ := h.ok
  exact (hok.tables.inj () q () q' t ⟨hq, ht⟩ ⟨hq', ht'⟩).2

theorem tables_nodup : (tables s).Nodup := by
  rw [tables]
  split_ifs with hpt
  · exact List.nodup_nil
  · refine nodup_below fun q q' p hq hq' hp hp' => tables_inj (t := p) h hq hq' ?_ ?_
    · rw [tableAt, if_neg hpt, hp]
    · rw [tableAt, if_neg hpt, hp']

/-- a table was free before the first call -/
theorem table_fresh {p : ℕ} (hp : IsTable s p) : ¬ Owned L m0 p := by
  obtain ⟨q, hq, ht⟩ := hp
  rcases h.grown.fresh () q p ⟨hq, ht⟩ with hold | hno
  · exact absurd hold hasTable_null
  · exact hno

include h0

theorem table_one {p : ℕ} (hp : IsTable s p) : Allocatable L p ∧ s.m.ref (pageIndex p) = 1 := by
  have hfresh := table_fresh h hp
  obtain ⟨q, hq, ht⟩ := hp
  obtain ⟨l, hok⟩ := h.ok
  obtain ⟨hal, hpos⟩ := hok.tables.owned () q p ⟨hq, ht⟩
  have hzero : m0.ref (pageIndex p) = 0 := by
    have hnot : ¬ 0 < m0.ref (pageIndex p) := fun hx => hfresh ⟨hal, hx⟩
    have := h0.nonneg p hal
    omega
  rcases h.handed (pageIndex p) with heq | ⟨-, hone⟩
  · rw [heq, hzero] at hpos
    exact absurd hpos (by decide)
  · exact ⟨hal, hone⟩

/-- without the tables, the free pages are those there were before the first call -/
theorem free_again {m' : PageMem} {l' : List ℕ} (hfree : FreeList L m' l')
    (href : ∀ x, Allocatable L x → m'.ref (pageIndex x) = if x ∈ tables s then 0 else s.m.ref (pageIndex x)) :
    m'.cnt = m0.cnt := by
  have hmem : ∀ x, x ∈ l' ↔ x ∈ l0 := by
    intro x
    rw [hfree.mem, h0.mem]
    refine and_congr_right fun hx => ?_
    rw [href x hx]
    by_cases ht : x ∈ tables s
    · rw [if_pos ht]
      have hno := table_fresh h (mem_tables.1 ht)
      have hnot : ¬ 0 < m0.ref (pageIndex x) := fun hpos => hno ⟨hx, hpos⟩
      have := h0.nonneg x hx
      constructor
      · intro _
        omega
      · intro _
        rfl
    · rw [if_neg ht]
      constructor
      · intro hz
        by_contra hne
        have hown : Owned L m0 x := ⟨hx, by have := h0.nonneg x hx; omega⟩
        exact hne (h.grown.ref x hown ▸ hz)
      · intro hz
        rcases h.grown.newref x hx hz with hz' | ⟨k, q, hq⟩
        · exact hz'
        · exact absurd (mem_tables.2 ⟨q, hq⟩) ht
  have hlen : l'.length = l0.length :=
    ((List.perm_ext_iff_of_nodup hfree.chain.nodup h0.chain.nodup).2 hmem).length_eq
  have h1 := hfree.cnt
  have h2 := h0.cnt
  omega

/-- a page the caller had is as it was -/
theorem owned_kept {x : ℕ} (hx : Owned L m0 x) : Owned L s.m x ∧ x ∉ tables s ∧ s.m.ref (pageIndex x) = m0.ref (pageIndex x) ∧
    ∀ b, x ≤ b ∧ b < x + pageSize → s.m.cell b = m0.cell b := by
  have href := h.grown.ref x hx
  have hnot : x ∉ tables s := fun ht => table_fresh h (mem_tables.1 ht) hx
  refine ⟨⟨hx.1, by rw [href]; exact hx.2⟩, hnot, href, fun b hb => h.grown.cell b fun _ q t ht hbt => ?_⟩
  have hxt : x = t := IsPage.apart (Or.inl hx.1) (Or.inl (table_one h h0 ⟨q, ht⟩).1) hb hbt
  rw [hxt] at hnot
  exact hnot (mem_tables.2 ⟨q, ht⟩)

theorem free_ok (hfree : s.pt = 0 ∨ s.m.freePages ≠ 0) :
    ∃ m', kfreeAll L (tables s) s.m = some m' ∧ freePgdir L s.pt s.m = some (0, m') ∧ m'.cnt = m0.cnt ∧
      (∃ l', FreeList L m' l') ∧ ∀ x, Owned L m0 x → m'.ref (pageIndex x) = m0.ref (pageIndex x) ∧
        ∀ b, x ≤ b ∧ b < x + pageSize → m'.cell b = m0.cell b := by
  obtain ⟨l, hok⟩ := h.ok
  have hone : ∀ p ∈ tables s, Allocatable L p ∧ s.m.ref (pageIndex p) = 1 := fun p hp => table_one h h0 (mem_tables.1 hp)
  by_cases hpt : s.pt = 0
  · have hnil : tables s = [] := if_pos hpt
    refine ⟨s.m, by rw [hnil]; rfl, by rw [freePgdir, if_pos hpt, hpt], ?_, ⟨l, hok.free⟩, fun x hx => ?_⟩
    · exact free_again h h0 hok.free fun x _ => by simp [hnil]
    · exact (owned_kept h h0 hx).2.2
  · have hl : l ≠ [] := fun hx => (hfree.resolve_left hpt) (hok.free.chain.head_eq_zero.2 hx)
    obtain ⟨m', hk, hback⟩ := kfreeAll_ok hok.free hl (tables_nodup h) hone
    have htab : tables s = below tableOf 512 s.m.cell 3 s.pt := if_neg hpt
    have heq : freeTables L 3 s.pt s.m = kfreeAll L (tables s) s.m := by
      have hnd := tables_nodup h
      rw [htab] at hnd hone ⊢
      exact freeTables_eq hok.free hl hnd hone
    refine ⟨m', hk, by rw [freePgdir, if_neg hpt, heq, hk]; rfl, free_again h h0 hback.free hback.ref, ⟨_, hback.free⟩,
      fun x hx => ?_⟩
    obtain ⟨hown, hnot, href, hcell⟩ := owned_kept h h0 hx
    exact ⟨by rw [hback.ref x hx.1, if_neg hnot, href], fun b hb => (hback.cell x hown hnot b hb).trans (hcell b hb)⟩

end Results

/-- **A page directory is a map.** After any calls on a new page directory, from any state of the page allocator:
- `get_pte` without allocation returns the entry that the calls have given the virtual page, or NULL, and NULL only when no call
  has made the table that holds the entry;
- no page is used for two tables;
- if a page is free, `free_pgdir` is `kfree_page` on every table, once each. The count of allocated pages is what it was
  before the calls, and the pages that were allocated then have kept their counts and their contents. -/
theorem tree_is_map {L : Layout} {m0 : PageMem} {l0 : List ℕ} (h0 : FreeList L m0 l0) {calls : List Call} {s : Sys}
    (hr : run step (init m0) calls = some s) :
    (∀ va, ∃ pte, getPte false s.pt va s.m = some (pte, s.pt, s.m) ∧ (pte = 0 → path va ∉ (mapOf calls).made) ∧
      (pte ≠ 0 → s.m.cell pte = (mapOf calls).entry (vpn va))) ∧
    (∀ q q' t, IsPath 512 3 q → IsPath 512 3 q' → tableAt tableOf s.m.cell s.pt q = some t →
      tableAt tableOf s.m.cell s.pt q' = some t → q = q') ∧
    (s.pt = 0 ∨ s.m.freePages ≠ 0 → ∃ ps m', ps.Nodup ∧ (∀ p, p ∈ ps ↔ IsTable s p) ∧ kfreeAll L ps s.m = some m' ∧
      freePgdir L s.pt s.m = some (0, m') ∧ m'.cnt = m0.cnt ∧ (∃ l', FreeList L m' l') ∧
      ∀ x, Owned L m0 x → m'.ref (pageIndex x) = m0.ref (pageIndex x) ∧
        ∀ b, x ≤ b ∧ b < x + pageSize → m'.cell b = m0.cell b) := by
  have h : Refines L m0 (mapOf calls) s :=
    run_simulates (C := fun _ _ => True) (f := Map.apply) (fun _ _ _ _ hR _ hs => refines_step hR hs) (refines_init h0)
      (meets_true step _ calls) hr
  refine ⟨fun va => ?_, fun q q' t => tables_inj h, fun hfree => ?_⟩
  · cases ht : tableAt tableOf s.m.cell s.pt (path va) with
    | none =>
      refine ⟨0, getPte_none ht, fun _ hmade => ?_, fun hne => absurd rfl hne⟩
      obtain ⟨t, ht'⟩ := h.made va hmade
      rw [ht] at ht'
      cases ht'
    | some t =>
      obtain ⟨hg, hne⟩ : getPte false s.pt va s.m = _ ∧ t ≠ 0 := getPte_of_table ht
      exact ⟨_, hg, fun hz => absurd hz (by omega), fun _ => by rw [← h.entry va, entry_of_table ht]⟩
  · obtain ⟨m', hrest⟩ := free_ok h h0 hfree
    exact ⟨tables s, m', tables_nodup h, fun p => mem_tables, hrest⟩

/-- six pages to hand out -/
def sixPages : Layout := ⟨kernelStop - 8 * pageSize, by decide, by decide⟩

/-- two pages of two regions -/
def twoRegions : List Call := [.vmmap 0x400000 (zeroPage sixPages) pteUserData, .getPte 0x600000 true]

/-- five tables are made and given back -/
theorem tree_is_map_twoRegions : ∃ m0 s m' pte, kinit sixPages (fun _ => 1) = some m0 ∧
    run step (init m0) twoRegions = some s ∧ s.m.cnt = 5 ∧ getPte false s.pt 0x400008 s.m = some (pte, s.pt, s.m) ∧
    s.m.cell pte = k2p (zeroPage sixPages) ||| pteUserData ∧ freePgdir sixPages s.pt s.m = some (0, m') ∧ m'.cnt = m0.cnt := by
  obtain ⟨m0, l0, hk, hpages, -⟩ := kinit_ok sixPages fun _ => 1
  have hrun : ((kinit sixPages fun _ => 1).bind fun m0 => (run step (init m0) twoRegions).map fun s =>
      decide (s.m.cnt = 5 ∧ s.m.freePages ≠ 0)) = some true := by
    decide +kernel
  rw [hk, Option.bind_some] at hrun
  obtain ⟨s, hs, hcnt, hfree⟩ := run_computes hrun
  obtain ⟨hentry, -, hback⟩ := tree_is_map hpages.toFreeList hs
  obtain ⟨pte, hg, hmade, hval⟩ := hentry 0x400008
  obtain ⟨-, m', -, -, -, hret, hcnt', -⟩ := hback (Or.inr hfree)
  have hne : pte ≠ 0 := fun hz => hmade hz (by decide)
  exact ⟨m0, s, m', pte, hk, hs, hcnt, hg, (hval hne).trans (by decide), hret, hcnt'⟩

/-- four pages to hand out -/
def fourPages : Layout := ⟨kernelStop - 6 * pageSize, by decide, by decide⟩

/-- the first entry takes all four pages; `free_pgdir` then writes through the null `free_pages` -/
theorem free_without_free_page : ∃ m0 s, kinit fourPages (fun _ => 1) = some m0 ∧
    run step (init m0) [.getPte 0x400000 true] = some s ∧ s.pt ≠ 0 ∧ freePgdir fourPages s.pt s.m = none := by
  obtain ⟨m0, l0, hk, -⟩ := kinit_ok fourPages fun _ => 1
  have hrun : ((kinit fourPages fun _ => 1).bind fun m0 => (run step (init m0) [.getPte 0x400000 true]).map fun s =>
      decide (s.pt ≠ 0 ∧ (freePgdir fourPages s.pt s.m).isNone)) = some true := by
    decide +kernel
  rw [hk, Option.bind_some] at hrun
  obtain ⟨s, hs, hpt, hnone⟩ := run_computes hrun
  exact ⟨m0, s, hk, hs, hpt, Option.isNone_iff_eq_none.1 hnone⟩

end OsKernel.Kernel.PageMap
