/-
The regions under `log.lock` and the space they hand out (`cache_begin_op`, `cache_sync`, `cache_end_op`).

`begin_op` reserves `opMaxNumBlocks` log blocks, `sync` turns one reserved block into a used one unless the block is
absorbed, and `end_op` gives back what is left. `Space` relates the counters of `log` to the operations that are running
and to what each has left, and every region keeps it (`Space.begin`, `Space.sync`, `Space.ended`, `Space.cleared`). It says
nothing about who runs when, so it serves the interleaving model as well as a caller that runs alone.
-/
import OsKernel.Fs.Commit

namespace OsKernel.Fs

open Function (update update_eq_self update_of_ne update_self)

/-! ## The regions, when nothing wraps -/

theorem listed_store {h h' : LogHeader} {n : ℕ} (hlt : h.numBlocks < logMaxSize)
    (hs : { h with numBlocks := h.numBlocks + 1 }.store h.numBlocks n = some h') :
    h'.numBlocks = h.numBlocks + 1 ∧ h'.listed = h.listed ++ [n] := by
  simp only [LogHeader.store, hlt, dite_true, Option.some.injEq] at hs
  subst hs
  refine ⟨rfl, ?_⟩
  simp only [LogHeader.listed, List.range_succ, List.filterMap_append]
  congr 1
  · apply List.filterMap_congr
    intro i hi
    have hi := List.mem_range.1 hi
    have hne : (⟨i, by omega⟩ : Fin logMaxSize) ≠ ⟨h.numBlocks, hlt⟩ := by simp; omega
    simp [LogHeader.entry, show i < logMaxSize by omega, hne]
  · simp [LogHeader.entry, hlt]

theorem syncRegion_absorbed {n : ℕ} {l : Log} (rm : ℕ) (h : n ∈ l.header.listed) :
    syncRegion n rm l = .ok (rm, false, l) := if_pos h

theorem syncRegion_opened {n rm : ℕ} {l : Log} (h : n ∉ l.header.listed) (hrm : 1 ≤ rm) (hrm' : rm < 2 ^ 64)
    (hlt : l.header.numBlocks < logMaxSize) (hu : 1 ≤ l.unused) (hu' : l.unused < 2 ^ 64) :
    ∃ h', h'.numBlocks = l.header.numBlocks + 1 ∧ h'.listed = l.header.listed ++ [n] ∧
      syncRegion n rm l = .ok (rm - 1, true, { l with header := h', unused := l.unused - 1 }) := by
  have hmax : logMaxSize = 63 := rfl
  have hadd : addU l.header.numBlocks 1 = l.header.numBlocks + 1 := addU_of_lt (by omega)
  have hsub : subU (l.header.numBlocks + 1) 1 = l.header.numBlocks := subU_of_le (by omega) (by omega)
  obtain ⟨h', hs⟩ : ∃ h', { l.header with numBlocks := l.header.numBlocks + 1 }.store l.header.numBlocks n = some h' :=
    ⟨_, dif_pos hlt⟩
  obtain ⟨hn, hl⟩ := listed_store hlt hs
  refine ⟨h', hn, hl, ?_⟩
  unfold syncRegion
  rw [if_neg h, if_neg (show rm ≠ 0 by omega)]
  simp only [hadd, hsub]
  rw [hs]
  simp only [subU_of_le hrm hrm', subU_of_le hu hu']

/-- the panic of `cache_sync` -/
theorem syncRegion_exhausted {n : ℕ} {l : Log} (h : n ∉ l.header.listed) : syncRegion n 0 l = .error .panic := by
  simp [syncRegion, h]

theorem endRegion_eq {rm : ℕ} {l : Log} (ho : 1 ≤ l.numOps) (ho' : l.numOps < 2 ^ 64) (hu : rm ≤ l.unused)
    (hu' : l.unused < 2 ^ 64) :
    endRegion rm l = ⟨l.header, l.numOps - 1, l.unused - rm, if l.numOps = 1 then true else l.committing⟩ := by
  simp only [endRegion, subU_of_le ho ho', subU_of_le hu hu']
  by_cases h : l.numOps = 1
  · simp [h]
  · rw [if_neg (by omega), if_neg h]

/-! ## Accounting -/

/-- the counters count the operations in ops, and those are the running ones -/
structure Account (l : Log) (rm : ℕ → ℕ) (act : ℕ → Prop) (ops : List ℕ) : Prop where
  nodup : ops.Nodup
  mem : ∀ c, c ∈ ops ↔ act c
  numOps : l.numOps = ops.length
  unused : l.unused = (ops.map rm).sum
  /-- every running operation has its blocks in the log or reserved -/
  covered : opMaxNumBlocks * ops.length ≤ l.header.numBlocks + l.unused

structure Space (sb : SuperBlock) (l : Log) (rm : ℕ → ℕ) (act : ℕ → Prop) : Prop where
  account : ∃ ops, Account l rm act ops
  bound : l.header.numBlocks + l.unused ≤ logMax sb
  nodup : l.header.listed.Nodup
  budget : ∀ c, act c → rm c ≤ opMaxNumBlocks

theorem logMax_le (sb : SuperBlock) : logMax sb ≤ 63 := min_le_left _ _

theorem map_update_of_notMem {f : ℕ → ℕ} {c : ℕ} (v : ℕ) {l : List ℕ} (hc : c ∉ l) :
    l.map (update f c v) = l.map f := by
  apply List.map_congr_left
  intro d hd
  have hdc : d ≠ c := by rintro rfl; exact hc hd
  exact update_of_ne hdc v f

namespace Space

variable {sb : SuperBlock} {l : Log} {rm : ℕ → ℕ} {act : ℕ → Prop} (h : Space sb l rm act) {c : ℕ}
include h

theorem congr {l' : Log} {act' : ℕ → Prop} (ho : l'.numOps = l.numOps) (hu : l'.unused = l.unused)
    (hh : l'.header = l.header) (hact : ∀ c, act' c ↔ act c) : Space sb l' rm act' := by
  obtain ⟨ops, hops⟩ := h.account
  refine ⟨⟨ops, hops.nodup, fun c => (hops.mem c).trans (hact c).symm, ho.trans hops.numOps, hu.trans hops.unused, ?_⟩,
    ?_, ?_, fun c hc => h.budget c ((hact c).1 hc)⟩
  · rw [hu, hh]; exact hops.covered
  · rw [hu, hh]; exact h.bound
  · rw [hh]; exact h.nodup

/-- how much room the counters leave: at most six operations run at a time -/
theorem bounds : l.numOps ≤ 6 ∧ l.unused ≤ 63 ∧ l.header.numBlocks ≤ logMaxSize := by
  obtain ⟨ops, hops⟩ := h.account
  have h1 := hops.covered
  have h2 := h.bound
  have h3 := logMax_le sb
  have h4 : logMaxSize = 63 := rfl
  rw [hops.numOps]
  simp only [opMaxNumBlocks] at h1
  omega

theorem length_listed : l.header.listed.length = l.header.numBlocks := Fs.length_listed h.bounds.2.2

theorem rm_le (hc : act c) : rm c ≤ opMaxNumBlocks ∧ rm c ≤ l.unused := by
  obtain ⟨ops, hops⟩ := h.account
  refine ⟨h.budget c hc, ?_⟩
  rw [hops.unused]
  exact List.single_le_sum (by simp) _ (List.mem_map_of_mem ((hops.mem c).2 hc))

theorem ops_pos (hc : act c) : 1 ≤ l.numOps := by
  obtain ⟨ops, hops⟩ := h.account
  rw [hops.numOps]
  exact List.length_pos_of_mem ((hops.mem c).2 hc)

theorem last_active (hc : act c) (hone : l.numOps = 1) (d : ℕ) (hd : act d) : d = c := by
  obtain ⟨ops, hops⟩ := h.account
  obtain ⟨a, ha⟩ := List.length_eq_one_iff.1 (hops.numOps.symm.trans hone)
  have hca := (hops.mem c).2 hc
  have hda := (hops.mem d).2 hd
  rw [ha, List.mem_singleton] at hca hda
  exact hda.trans hca.symm

theorem other_active (hc : act c) (hne : l.numOps ≠ 1) : ∃ d, d ≠ c ∧ act d := by
  obtain ⟨ops, hops⟩ := h.account
  have hcl := (hops.mem c).2 hc
  have hlen := List.length_erase_of_mem hcl
  have hpos := h.ops_pos hc
  rw [hops.numOps] at hne hpos
  obtain ⟨d, hd⟩ := List.exists_mem_of_length_pos (show 0 < (ops.erase c).length by omega)
  rw [hops.nodup.mem_erase_iff] at hd
  exact ⟨d, hd.1, (hops.mem d).1 hd.2⟩

theorem admits (ha : Admits sb l) : l.unused + opMaxNumBlocks + l.header.numBlocks ≤ logMax sb ∧
    beginRegion l = { l with unused := l.unused + opMaxNumBlocks, numOps := l.numOps + 1 } := by
  obtain ⟨hn, hu, hb⟩ := h.bounds
  have h4 : logMaxSize = 63 := rfl
  have h1 : addU l.unused opMaxNumBlocks = l.unused + opMaxNumBlocks :=
    addU_of_lt (by simp only [opMaxNumBlocks]; omega)
  have h2 : addU l.numOps 1 = l.numOps + 1 := addU_of_lt (by omega)
  have h3 := ha.1
  rw [h1, addU_of_lt (by simp only [opMaxNumBlocks]; omega)] at h3
  exact ⟨h3, by simp only [beginRegion, h1, h2]⟩

theorem begin (hc : ¬ act c) (ha : Admits sb l) {act' : ℕ → Prop} (hact : ∀ d, act' d ↔ d = c ∨ act d) :
    Space sb (beginRegion l) (update rm c opMaxNumBlocks) act' := by
  obtain ⟨hroom, hreg⟩ := h.admits ha
  obtain ⟨ops, hops⟩ := h.account
  have hcl : c ∉ ops := fun hm => hc ((hops.mem c).1 hm)
  rw [hreg]
  refine ⟨⟨c :: ops, List.nodup_cons.2 ⟨hcl, hops.nodup⟩, fun d => ?_, ?_, ?_, ?_⟩, ?_, h.nodup, fun d hd => ?_⟩
  · rw [List.mem_cons, hact, hops.mem d]
  · simp [hops.numOps]
  · rw [List.map_cons, List.sum_cons, update_self, map_update_of_notMem _ hcl, ← hops.unused]
    exact Nat.add_comm _ _
  · have := hops.covered
    rw [List.length_cons]
    simp only [opMaxNumBlocks] at this ⊢
    omega
  · show l.header.numBlocks + (l.unused + opMaxNumBlocks) ≤ logMax sb
    omega
  · by_cases hdc : d = c
    · rw [hdc, update_self]
    · rw [update_of_ne hdc]
      exact h.budget d (((hact d).1 hd).resolve_left hdc)

/-- a running operation whose block is not listed finds a free entry, unless it has used up its blocks -/
theorem sync_opened {n : ℕ} (hc : act c) (hn : n ∉ l.header.listed) (hrm : rm c ≠ 0) :
    l.header.numBlocks < logMaxSize ∧
    ∃ h', h'.numBlocks = l.header.numBlocks + 1 ∧ h'.listed = l.header.listed ++ [n] ∧
      syncRegion n (rm c) l = .ok (rm c - 1, true, { l with header := h', unused := l.unused - 1 }) := by
  have h1 := (h.rm_le hc).2
  have h2 := h.bound
  have h3 := logMax_le sb
  have h4 : logMaxSize = 63 := rfl
  have hlt : l.header.numBlocks < logMaxSize := by omega
  exact ⟨hlt, syncRegion_opened hn (by omega) (by omega) hlt (by omega) (by omega)⟩

/-- what a sync that returns has done: the block was absorbed, or one reserved block has become a used one -/
theorem sync_cases {n rm' : ℕ} {opened : Bool} {l' : Log} (hc : act c)
    (hr : syncRegion n (rm c) l = .ok (rm', opened, l')) :
    (opened = false ∧ n ∈ l.header.listed ∧ rm' = rm c ∧ l' = l) ∨
    (opened = true ∧ n ∉ l.header.listed ∧ 1 ≤ rm c ∧ rm' = rm c - 1 ∧
      ∃ h', h'.numBlocks = l.header.numBlocks + 1 ∧ h'.listed = l.header.listed ++ [n] ∧
        l' = { l with header := h', unused := l.unused - 1 }) := by
  by_cases hn : n ∈ l.header.listed
  · rw [syncRegion_absorbed _ hn] at hr
    cases hr
    exact Or.inl ⟨rfl, hn, rfl, rfl⟩
  by_cases hrm : rm c = 0
  · rw [hrm, syncRegion_exhausted hn] at hr
    cases hr
  obtain ⟨-, h', h1, h2, hok⟩ := h.sync_opened hc hn hrm
  rw [hok] at hr
  cases hr
  exact Or.inr ⟨rfl, hn, Nat.one_le_iff_ne_zero.2 hrm, rfl, h', h1, h2, rfl⟩

theorem sync {n rm' : ℕ} {opened : Bool} {l' : Log} (hc : act c)
    (hr : syncRegion n (rm c) l = .ok (rm', opened, l')) : Space sb l' (update rm c rm') act := by
  rcases h.sync_cases hc hr with ⟨-, -, rfl, rfl⟩ | ⟨-, hn, hpos, rfl, hdr, hcount, hlisted, rfl⟩
  · rw [update_eq_self]
    exact h
  have hrm := (h.rm_le hc).2
  obtain ⟨ops, hops⟩ := h.account
  have hcl := (hops.mem c).2 hc
  have hsum := List.sum_map_erase rm hcl
  have hsum' := List.sum_map_erase (update rm c (rm c - 1)) hcl
  rw [update_self, map_update_of_notMem _ hops.nodup.not_mem_erase] at hsum'
  have hu := hops.unused
  have hcov := hops.covered
  have hbound := h.bound
  refine ⟨⟨ops, hops.nodup, hops.mem, hops.numOps, ?_, ?_⟩, ?_, ?_, fun d hd => ?_⟩
  · show l.unused - 1 = _
    omega
  · show _ ≤ hdr.numBlocks + (l.unused - 1)
    omega
  · show hdr.numBlocks + (l.unused - 1) ≤ logMax sb
    omega
  · show hdr.listed.Nodup
    rw [hlisted]
    exact List.nodup_append.2 ⟨h.nodup, by simp, by rintro a ha b hb rfl; simp at hb; exact hn (hb ▸ ha)⟩
  · have := h.budget d hd
    by_cases hdc : d = c
    · subst hdc
      rw [update_self]
      omega
    · rw [update_of_ne hdc]
      exact this

theorem endRegion_active (hc : act c) (hcm : l.committing = false) :
    endRegion (rm c) l = ⟨l.header, l.numOps - 1, l.unused - rm c, decide (l.numOps = 1)⟩ := by
  obtain ⟨hn, hu, -⟩ := h.bounds
  rw [endRegion_eq (h.ops_pos hc) (by omega) (h.rm_le hc).2 (by omega), hcm]
  by_cases h1 : l.numOps = 1 <;> simp [h1]

theorem ended (hc : act c) (hcm : l.committing = false) {act' : ℕ → Prop} (hact : ∀ d, act' d ↔ act d ∧ d ≠ c) :
    Space sb (endRegion (rm c) l) rm act' := by
  obtain ⟨ops, hops⟩ := h.account
  have hle := h.rm_le hc
  have hcl := (hops.mem c).2 hc
  have hsum := List.sum_map_erase rm hcl
  have hlen := List.length_erase_of_mem hcl
  have hpos := List.length_pos_of_mem hcl
  have hun := hops.unused
  rw [h.endRegion_active hc hcm]
  refine ⟨⟨ops.erase c, hops.nodup.erase c, fun d => ?_, ?_, ?_, ?_⟩, ?_, h.nodup, fun d hd => ?_⟩
  · rw [hops.nodup.mem_erase_iff, hops.mem d, hact]
    exact and_comm
  · rw [hlen]
    exact congrArg (· - 1) hops.numOps
  · show l.unused - rm c = _
    omega
  · have hcov := hops.covered
    have := hle.1
    rw [hlen]
    simp only [opMaxNumBlocks] at hcov this ⊢
    omega
  · have := h.bound
    show l.header.numBlocks + (l.unused - rm c) ≤ logMax sb
    omega
  · exact h.budget d ((hact d).1 hd).1

/-- the header is emptied while nothing runs -/
theorem cleared (hno : ∀ c, ¬ act c) : Space sb { l with header := l.header.cleared } rm act := by
  obtain ⟨ops, hops⟩ := h.account
  have hnil : ops = [] := List.eq_nil_iff_forall_not_mem.2 fun d hd => hno d ((hops.mem d).1 hd)
  subst hnil
  have hbound := h.bound
  refine ⟨⟨[], hops.nodup, hops.mem, hops.numOps, hops.unused, by simp⟩, ?_, ?_, h.budget⟩
  · show 0 + l.unused ≤ logMax sb
    omega
  · simp [LogHeader.listed, LogHeader.cleared]

end Space

/-- nothing runs and nothing is logged -/
theorem space_empty (sb : SuperBlock) (entries : Fin logMaxSize → ℕ) (committing : Bool) (rm : ℕ → ℕ) {act : ℕ → Prop}
    (hno : ∀ c, ¬ act c) : Space sb ⟨⟨0, entries⟩, 0, 0, committing⟩ rm act :=
  ⟨⟨[], by simp, fun c => by simp [hno c], rfl, rfl, by simp⟩, Nat.zero_le _, by simp [LogHeader.listed],
    fun c hc => absurd hc (hno c)⟩

end OsKernel.Fs
