/-
The block cache as a plain block store (`fs/cache.c`).

Clients call `acquire`, `release`, `begin_op`, `sync` and `end_op` one after the other, and write to blocks they hold
(`Call`, `step`). A call that would sleep or panic is not enabled, with one exception: an `end_op` that is not the last of
its batch sleeps until the batch commits while the other clients go on. The abstract store is a function from block numbers
to contents, and the only call that changes it is a write of a holder (`leave`).

The authoritative copy of a block is in the cache when it is cached, and else at its home location; `Refines` says so, and
`refines_step` shows that every call keeps it under three conditions (`Fair`):
- a block is released clean, or the log already lists it;
- a commit fits in the log area;
- nobody acquires a block of the log area, which commits write without going through the cache.
`log_block_changes` shows that the third cannot be left out.
-/
import OsKernel.Lib.Runs
import OsKernel.Fs.CacheList
import OsKernel.Fs.LogRegions

namespace OsKernel.Fs.BlockStore

open OsKernel.Bytes OsKernel.Sem OsKernel.Runs OsKernel.Writes
open Function (update update_apply update_of_ne update_self)

/-! ## Clients of the cache -/

inductive Call where
  | acquire (n : ℕ)
  /-- the holder of block n writes to it -/
  | modify (n : ℕ) (d : BlockData)
  | sync (ctx : Option ℕ) (n : ℕ)
  | release (n : ℕ)
  | beginOp (c : ℕ)
  | endOp (c : ℕ)

structure Sys where
  m : Machine
  /-- the struct of each block a client holds -/
  held : ℕ → Option ℕ
  /-- blocks written since they were last synced -/
  dirty : ℕ → Bool
  /-- contexts between `begin_op` and `end_op` -/
  active : ℕ → Bool
  /-- blocks synced with a context since the last commit -/
  batch : List ℕ

def init (m : Machine) : Sys := ⟨m, fun _ => none, fun _ => false, fun _ => false, []⟩

/-- the machine when `end_op` of context c has updated the counters -/
def Sys.ending (s : Sys) (c : ℕ) : Machine := { s.m with log := endRegion (s.m.rm c) s.m.log }

theorem Sys.ending_log (s : Sys) (c : ℕ) : (s.ending c).log = endRegion (s.m.rm c) s.m.log := by rw [Sys.ending]
theorem Sys.ending_cache (s : Sys) (c : ℕ) : (s.ending c).cache = s.m.cache := by rw [Sys.ending]
theorem Sys.ending_dev (s : Sys) (c : ℕ) : (s.ending c).dev = s.m.dev := by rw [Sys.ending]
theorem Sys.ending_rm (s : Sys) (c : ℕ) : (s.ending c).rm = s.m.rm := by rw [Sys.ending]

def step (sb : SuperBlock) (s : Sys) : Call → Option Sys
  | .acquire n =>
    match cacheAcquire n s.m with
    | .ok a m => some { s with m, held := update s.held n (some a) }
    | .error _ _ => none
  | .modify n d =>
    match s.held n with
    | none => none
    | some a => some { s with
        m := { s.m with cache := s.m.cache.update a (Block.fill d) }, dirty := update s.dirty n true }
  | .sync ctx n =>
    match s.held n with
    | none => none
    | some a =>
      if ctx.all s.active then
        match cacheSync ctx a s.m with
        | .ok _ m => some { s with
            m, dirty := update s.dirty n false, batch := if ctx.isSome then n :: s.batch else s.batch }
        | .error _ _ => none
      else none
  | .release n =>
    match s.held n with
    | none => none
    | some a =>
      match cacheRelease a s.m with
      | .ok _ m => some { s with m, held := update s.held n none }
      | .error _ _ => none
  | .beginOp c =>
    if s.active c then none
    else
      match cacheBeginOp sb c s.m with
      | .ok _ m => some { s with m, active := update s.active c true }
      | .error _ _ => none
  | .endOp c =>
    if s.active c then
      if (s.ending c).log.committing then
        match cacheEndOp sb c s.m with
        | .ok _ m => some { s with
            m, active := update s.active c false, batch := []
            -- a block in the log is in place now, whether or not it was synced after its last write
            dirty := fun n => s.dirty n && !decide (n ∈ s.m.log.header.listed) }
        | .error _ _ => none
      else some { s with m := s.ending c, active := update s.active c false }
    else none

/-- the abstract store: the data last left in each block -/
def leave (st : ℕ → BlockData) : Call → ℕ → BlockData
  | .modify n d => update st n d
  | _ => st

/-! ## Conditions on the clients -/

/-- a block is synced before it is released -/
def Disciplined (s : Sys) : Call → Prop
  | .release n => s.dirty n = false
  | _ => True

/-- a commit fits in the log area -/
def LogRoom (sb : SuperBlock) (s : Sys) : Call → Prop
  | .endOp c => (s.ending c).log.committing = true → s.m.log.header.numBlocks + 1 ≤ sb.numLogBlocks.toNat
  | _ => True

/-- no block of the log area is acquired -/
def OffLog (sb : SuperBlock) : Call → Prop
  | .acquire n => ¬ InLogArea sb n
  | _ => True

/-- clients that keep all three -/
def WellBehaved (sb : SuperBlock) (s : Sys) (e : Call) : Prop := Disciplined s e ∧ LogRoom sb s e ∧ OffLog sb e

instance (s : Sys) : (e : Call) → Decidable (Disciplined s e)
  | .release n => inferInstanceAs (Decidable (s.dirty n = false))
  | .acquire _ | .modify _ _ | .sync _ _ | .beginOp _ | .endOp _ => inferInstanceAs (Decidable True)

instance (sb : SuperBlock) (s : Sys) : (e : Call) → Decidable (LogRoom sb s e)
  | .endOp _ => inferInstanceAs (Decidable (_ = true → _ ≤ _))
  | .acquire _ | .modify _ _ | .sync _ _ | .release _ | .beginOp _ => inferInstanceAs (Decidable True)

instance (sb : SuperBlock) : (e : Call) → Decidable (OffLog sb e)
  | .acquire n => inferInstanceAs (Decidable (¬ InLogArea sb n))
  | .modify _ _ | .sync _ _ | .release _ | .beginOp _ | .endOp _ => inferInstanceAs (Decidable True)

instance (sb : SuperBlock) (s : Sys) (e : Call) : Decidable (WellBehaved sb s e) := inferInstanceAs (Decidable (_ ∧ _ ∧ _))

/-- what the refinement needs: a block that is released dirty is one the log already lists -/
def Fair (sb : SuperBlock) (s : Sys) (e : Call) : Prop :=
  (∀ n, e = .release n → s.dirty n = true → n ∈ s.m.log.header.listed) ∧ LogRoom sb s e ∧ OffLog sb e

variable {e : Call} {s s' : Sys} {sb : SuperBlock} {m u : Machine} {c i : ℕ} {c' : Cache}

theorem WellBehaved.fair (h : WellBehaved sb s e) : Fair sb s e := by
  refine ⟨?_, h.2⟩
  rintro n rfl hd
  exact absurd (h.1.symm.trans hd) (by decide)

/-! ## The relation between store and machine -/

structure Refines (sb : SuperBlock) (st : ℕ → BlockData) (s : Sys) : Prop where
  ok : CacheOk s.m.cache
  held : ∀ n a, s.held n = some a ↔
    a ∈ s.m.cache.list ∧ (s.m.cache.heap a).blockNo = n ∧ (s.m.cache.heap a).acquired = true
  outside : ∀ n a, s.held n = some a → ¬ InLogArea sb n
  dirty : ∀ n, s.dirty n = true → (∃ a, s.held n = some a) ∨ n ∈ s.m.log.header.listed
  data : ∀ a ∈ s.m.cache.list, (s.m.cache.heap a).data = st (s.m.cache.heap a).blockNo
  home : ∀ n, ¬ InLogArea sb n → n ∉ s.m.log.header.listed → s.dirty n = false → s.m.dev.blocks n = st n
  space : Space sb s.m.log s.m.rm fun c => s.active c = true
  idle : s.m.log.committing = false
  pinned : ∀ n ∈ s.m.log.header.listed, ∃ a ∈ s.m.cache.list,
    (s.m.cache.heap a).blockNo = n ∧ (s.m.cache.heap a).pinned = true
  logged : ∀ n ∈ s.m.log.header.listed, ¬ InLogArea sb n
  batch : ∀ n ∈ s.batch, n ∈ s.m.log.header.listed
  clean : InLogArea sb sb.logStart.toNat → (decode (s.m.dev.blocks sb.logStart.toNat)).numBlocks = 0

theorem refines_init {d : ℕ → BlockData} (h : initBcache sb d = .ok () m) :
    Refines sb m.dev.blocks (init m) := by
  obtain ⟨hm, hclean⟩ := initBcache_ok h
  have hcache : m.cache = ⟨fun _ => initBlock, [], 0⟩ := by rw [hm]; rfl
  have hlog : m.log = ⟨(decode (d sb.logStart.toNat)).cleared, 0, 0, false⟩ := by rw [hm]
  have hlist : m.log.header.listed = [] := by rw [hlog]; rfl
  refine ⟨?_, ?_, by simp [init], by simp [init], ?_, fun n _ _ _ => rfl, ?_, ?_, ?_, ?_, by simp [init], fun _ => hclean⟩
  · simp only [init, hcache]
    exact cacheOk_empty _
  · simp [init, hcache]
  · simp [init, hcache]
  · simp only [init, hlog]
    exact space_empty sb _ false m.rm (by simp)
  · simp [init, hlog]
  · simp [init, hlist]
  · simp [init, hlist]

section Steps

variable {sb : SuperBlock} {st : ℕ → BlockData} {s : Sys} (h : Refines sb st s) {n a : ℕ}
include h

/-- a block that is not cached has its contents on the device -/
theorem Refines.uncached (hn : ¬ InLogArea sb n) (hno : ∀ b ∈ s.m.cache.list, (s.m.cache.heap b).blockNo ≠ n) :
    s.m.dev.blocks n = st n := by
  have hlisted : n ∉ s.m.log.header.listed := by
    intro hl
    obtain ⟨b, hb, hbn, -⟩ := h.pinned n hl
    exact hno b hb hbn
  refine h.home n hn hlisted ?_
  by_contra hd
  rcases h.dirty n (by simpa using hd) with ⟨b, hb⟩ | hl
  · exact hno b ((h.held n b).1 hb).1 ((h.held n b).1 hb).2.1
  · exact hlisted hl

theorem Refines.acquired (hn : ¬ InLogArea sb n) (ha : Acquired s.m.dev.blocks s.m.cache n a c') :
    (c'.heap a).data = st n := by
  rcases ha.before with ⟨hmem, hno, -, hdata, -⟩ | ⟨-, hno, hdata⟩
  · rw [hdata, h.data a hmem, hno]
  · rw [hdata]
    exact h.uncached hn hno

theorem refines_acquire (hn : ¬ InLogArea sb n) (ha : Acquired s.m.dev.blocks s.m.cache n a c') :
    Refines sb st { s with m := { s.m with cache := c' }, held := update s.held n (some a) } := by
  refine ⟨ha.ok, fun k b => ?_, fun k b hk => ?_, fun k hk => ?_, fun b hb => ?_, h.home, h.space, h.idle,
    fun k hk => ?_, h.logged, h.batch, h.clean⟩
  · by_cases hkn : k = n
    · subst hkn
      simp only [update_self, Option.some.injEq]
      constructor
      · rintro rfl
        exact ⟨ha.mem, ha.number, ha.taken⟩
      · rintro ⟨hb, hbn, -⟩
        exact ha.ok.copies a ha.mem b hb (ha.number.trans hbn.symm)
    · simp only [update_of_ne hkn]
      rw [h.held]
      constructor
      · rintro ⟨hb, hbk, hacq⟩
        -- b is not the block just taken: that one was free, or new
        have hba : b ≠ a := by
          rintro rfl
          rcases ha.before with ⟨-, hno, -⟩ | ⟨hnew, -⟩
          · exact hkn (hbk.symm.trans hno)
          · exact hnew hb
        have hb' := ha.kept b hb (Or.inr hacq)
        rw [(ha.others b hb' hba).2]
        exact ⟨hb', hbk, hacq⟩
      · rintro ⟨hb, hbk, hacq⟩
        have hba : b ≠ a := by
          rintro rfl
          exact hkn (hbk.symm.trans ha.number)
        obtain ⟨hold, hsame⟩ := ha.others b hb hba
        rw [hsame] at hbk hacq
        exact ⟨hold, hbk, hacq⟩
  · by_cases hkn : k = n
    · exact hkn ▸ hn
    · simp only [update_of_ne hkn] at hk
      exact h.outside k b hk
  · by_cases hkn : k = n
    · exact Or.inl ⟨a, by rw [hkn]; exact update_self _ _ _⟩
    · simp only [update_of_ne hkn]
      exact h.dirty k hk
  · by_cases hba : b = a
    · subst hba
      rw [ha.number]
      exact h.acquired hn ha
    · obtain ⟨hold, hsame⟩ := ha.others b hb hba
      simp only [hsame]
      exact h.data b hold
  · obtain ⟨b, hb, hbk, hpin⟩ := h.pinned k hk
    have hb' := ha.kept b hb (Or.inl hpin)
    refine ⟨b, hb', ?_⟩
    by_cases hba : b = a
    · subst hba
      rcases ha.before with ⟨-, hno, -, -, hp⟩ | ⟨hnew, -⟩
      · exact ⟨ha.number.trans (hno.symm.trans hbk), hp.trans hpin⟩
      · exact absurd hb hnew
    · simp only [(ha.others b hb' hba).2]
      exact ⟨hbk, hpin⟩

theorem refines_modify (hh : s.held n = some a) (d : BlockData) :
    Refines sb (update st n d) { s with
      m := { s.m with cache := s.m.cache.update a (Block.fill d) }, dirty := update s.dirty n true } := by
  obtain ⟨ha, han, -⟩ := (h.held n a).1 hh
  have hno := update_field Block.blockNo s.m.cache a (Block.fill d) fun _ => rfl
  have hacq := update_field Block.acquired s.m.cache a (Block.fill d) fun _ => rfl
  have hpin := update_field Block.pinned s.m.cache a (Block.fill d) fun _ => rfl
  refine ⟨h.ok.fill d, fun k b => ?_, h.outside, fun k hk => ?_, fun b hb => ?_, fun k hk hl hd => ?_, h.space, h.idle,
    fun k hk => ?_, h.logged, h.batch, h.clean⟩
  · simp only [hno, hacq, update_list]
    exact h.held k b
  · by_cases hkn : k = n
    · exact Or.inl ⟨a, hkn ▸ hh⟩
    · simp only [update_of_ne hkn] at hk
      exact h.dirty k hk
  · rw [hno]
    by_cases hba : b = a
    · subst hba
      rw [update_heap_self, han, update_self]
      rfl
    · have hne : (s.m.cache.heap b).blockNo ≠ n := fun hbn => hba (h.ok.copies b hb a ha (hbn.trans han.symm))
      rw [update_heap_ne _ _ hba, update_of_ne hne]
      exact h.data b hb
  · by_cases hkn : k = n
    · subst hkn
      simp at hd
    · simp only [update_of_ne hkn] at hd ⊢
      exact h.home k hk hl hd
  · obtain ⟨b, hb, hbk, hp⟩ := h.pinned k hk
    exact ⟨b, hb, (hno b).trans hbk, (hpin b).trans hp⟩

theorem refines_writeThrough (hh : s.held n = some a) :
    Refines sb st { s with
      m := { s.m with dev := s.m.dev.write (s.m.cache.heap a).blockNo (s.m.cache.heap a).data }
      dirty := update s.dirty n false } := by
  obtain ⟨ha, han, -⟩ := (h.held n a).1 hh
  rw [h.data a ha, han]
  refine ⟨h.ok, h.held, h.outside, fun k hk => ?_, h.data, fun k hk hl hd => ?_, h.space, h.idle, h.pinned, h.logged,
    h.batch, fun hlog => ?_⟩
  · by_cases hkn : k = n
    · subst hkn
      simp at hk
    · simp only [update_of_ne hkn] at hk
      exact h.dirty k hk
  · by_cases hkn : k = n
    · subst hkn
      exact update_self _ _ _
    · simp only [update_of_ne hkn] at hd
      exact (update_of_ne hkn _ _).trans (h.home k hk hl hd)
  · have hne : sb.logStart.toNat ≠ n := fun hln => h.outside n a hh (hln ▸ hlog)
    simp only [Device.write, update_of_ne hne]
    exact h.clean hlog

theorem refines_logged {rm' : ℕ} {opened : Bool} {l' : Log} (hh : s.held n = some a) (hc : s.active c = true)
    (hr : syncRegion (s.m.cache.heap a).blockNo (s.m.rm c) s.m.log = .ok (rm', opened, l')) :
    Refines sb st { s with
      m := { s.m with
        log := l', rm := update s.m.rm c rm'
        cache := if opened then s.m.cache.update a (Block.pin true) else s.m.cache }
      dirty := update s.dirty n false, batch := n :: s.batch } := by
  obtain ⟨ha, han, -⟩ := (h.held n a).1 hh
  have hspace := h.space.sync hc hr
  rw [han] at hr
  have hdirty : ∀ k, update s.dirty n false k = true → s.dirty k = true := by
    intro k hk
    by_cases hkn : k = n
    · subst hkn
      simp at hk
    · simpa only [update_of_ne hkn] using hk
  have hundirty : ∀ k, k ≠ n → update s.dirty n false k = false → s.dirty k = false := by
    intro k hkn hk
    simpa only [update_of_ne hkn] using hk
  rcases h.space.sync_cases hc hr with ⟨rfl, hn, -, rfl⟩ | ⟨rfl, hn, -, -, hdr, -, hlisted, rfl⟩
  · -- absorbed: the log lists n already
    refine ⟨h.ok, h.held, h.outside, fun k hk => h.dirty k (hdirty k hk), h.data, fun k hk hl hd => ?_, hspace, h.idle,
      h.pinned, h.logged, fun k hk => ?_, h.clean⟩
    · have hkn : k ≠ n := fun hkn => hl (hkn ▸ hn)
      exact h.home k hk hl (hundirty k hkn hd)
    · rcases List.mem_cons.1 hk with rfl | hk
      · exact hn
      · exact h.batch k hk
  · -- a log block is opened: n is pinned and listed
    have hno := update_field Block.blockNo s.m.cache a (Block.pin true) fun _ => rfl
    have hacq := update_field Block.acquired s.m.cache a (Block.pin true) fun _ => rfl
    have hdata := update_field Block.data s.m.cache a (Block.pin true) fun _ => rfl
    have hmem : ∀ k, k ∈ hdr.listed ↔ k ∈ s.m.log.header.listed ∨ k = n := by
      intro k
      rw [hlisted, List.mem_append, List.mem_singleton]
    refine ⟨h.ok.pin true, fun k b => ?_, h.outside, fun k hk => ?_, fun b hb => ?_, fun k hk hl hd => ?_, hspace, h.idle,
      fun k hk => ?_, fun k hk => ?_, fun k hk => ?_, h.clean⟩
    · simp only [hno, hacq, update_list, if_true]
      exact h.held k b
    · rcases h.dirty k (hdirty k hk) with hheld | hl
      · exact Or.inl hheld
      · exact Or.inr ((hmem k).2 (Or.inl hl))
    · simp only [hno, hdata, if_true] at hb ⊢
      exact h.data b hb
    · have hl' : ¬ (k ∈ s.m.log.header.listed ∨ k = n) := fun hx => hl ((hmem k).2 hx)
      have hkn : k ≠ n := fun hkn => hl' (Or.inr hkn)
      exact h.home k hk (fun hx => hl' (Or.inl hx)) (hundirty k hkn hd)
    · simp only [if_true]
      rcases (hmem k).1 hk with hk | rfl
      · obtain ⟨b, hb, hbk, hp⟩ := h.pinned k hk
        refine ⟨b, hb, (hno b).trans hbk, ?_⟩
        by_cases hba : b = a
        · rw [hba, update_heap_self]
          rfl
        · rw [update_heap_ne _ _ hba]
          exact hp
      · exact ⟨a, ha, (hno a).trans han, by rw [update_heap_self]; rfl⟩
    · rcases (hmem k).1 hk with hk | rfl
      · exact h.logged k hk
      · exact h.outside k a hh
    · rcases List.mem_cons.1 hk with rfl | hk
      · exact (hmem k).2 (Or.inr rfl)
      · exact (hmem k).2 (Or.inl (h.batch k hk))

theorem refines_release (hh : s.held n = some a) (hd : s.dirty n = true → n ∈ s.m.log.header.listed)
    (hok : CacheOk (s.m.cache.update a (Block.release ⟨1, []⟩))) :
    Refines sb st { s with
      m := { s.m with cache := s.m.cache.update a (Block.release ⟨1, []⟩) }, held := update s.held n none } := by
  obtain ⟨ha, han, -⟩ := (h.held n a).1 hh
  have hno := update_field Block.blockNo s.m.cache a (Block.release ⟨1, []⟩) fun _ => rfl
  have hdata := update_field Block.data s.m.cache a (Block.release ⟨1, []⟩) fun _ => rfl
  have hpin := update_field Block.pinned s.m.cache a (Block.release ⟨1, []⟩) fun _ => rfl
  refine ⟨hok, fun k b => ?_, fun k b hk => ?_, fun k hk => ?_, fun b hb => ?_, h.home, h.space, h.idle, fun k hk => ?_,
    h.logged, h.batch, h.clean⟩
  · by_cases hba : b = a
    · subst hba
      simp only [update_heap_self, update_apply]
      constructor
      · intro hk
        split_ifs at hk with hkn
        exact absurd (((h.held k b).1 hk).2.1.symm.trans han) hkn
      · rintro ⟨-, -, hacq⟩
        exact absurd hacq (by simp [Block.release])
    · simp only [update_heap_ne _ _ hba, update_apply, update_list]
      rw [← h.held]
      constructor
      · intro hk
        split_ifs at hk
        exact hk
      · intro hk
        have hkn : k ≠ n := by
          rintro rfl
          exact hba (Option.some.inj (hk.symm.trans hh))
        rw [if_neg hkn]
        exact hk
  · simp only [update_apply] at hk
    split_ifs at hk
    exact h.outside k b hk
  · by_cases hkn : k = n
    · exact Or.inr (hkn ▸ hd (hkn ▸ hk))
    · simp only [update_of_ne hkn]
      exact h.dirty k hk
  · rw [hno, hdata]
    exact h.data b hb
  · obtain ⟨b, hb, hbk, hp⟩ := h.pinned k hk
    exact ⟨b, hb, (hno b).trans hbk, (hpin b).trans hp⟩

/-- counters of the log change, its entries do not -/
theorem Refines.relog {l : Log} {rm : ℕ → ℕ} {active : ℕ → Bool} (hl : l.header = s.m.log.header)
    (hs : Space sb l rm fun c => active c = true) (hi : l.committing = false) :
    Refines sb st { s with m := { s.m with log := l, rm }, active } := by
  refine ⟨h.ok, h.held, h.outside, ?_, h.data, ?_, hs, hi, ?_, ?_, ?_, h.clean⟩ <;> simp only [hl]
  · exact h.dirty
  · exact h.home
  · exact h.pinned
  · exact h.logged
  · exact h.batch

theorem refines_begin (hc : s.active c = false) (ha : Admits sb s.m.log) :
    Refines sb st { s with
      m := { s.m with log := beginRegion s.m.log, rm := update s.m.rm c opMaxNumBlocks }
      active := update s.active c true } := by
  refine h.relog rfl (h.space.begin (by simp [hc]) ha fun d => ?_) h.idle
  by_cases hdc : d = c
  · simp [hdc]
  · simp [hdc]

/-- the space left when the operation in c has ended -/
theorem Refines.ended (hc : s.active c = true) :
    Space sb (s.ending c).log s.m.rm fun d => update s.active c false d = true := by
  rw [Sys.ending_log]
  refine h.space.ended hc h.idle fun d => ?_
  by_cases hdc : d = c
  · simp [hdc]
  · simp [hdc]

theorem Refines.ending_log (hc : s.active c = true) : (s.ending c).log =
    ⟨s.m.log.header, s.m.log.numOps - 1, s.m.log.unused - s.m.rm c, decide (s.m.log.numOps = 1)⟩ := by
  rw [Sys.ending_log]
  exact h.space.endRegion_active hc h.idle

theorem refines_park (hc : s.active c = true) (hcm : (s.ending c).log.committing = false) :
    Refines sb st { s with m := s.ending c, active := update s.active c false } := by
  have hhdr : (s.ending c).log.header = s.m.log.header := by rw [h.ending_log hc]
  have hspace := h.ended hc
  unfold Sys.ending at hhdr hspace hcm ⊢
  generalize endRegion (s.m.rm c) s.m.log = l at *
  exact h.relog hhdr hspace hcm

/-! ## Commit -/

theorem Refines.cached (hi : i < s.m.log.header.numBlocks) :
    ∃ n, s.m.log.header.entry i = some n ∧ ∃ a ∈ s.m.cache.list, (s.m.cache.heap a).blockNo = n := by
  have he := entry_of_lt s.m.log.header (lt_of_lt_of_le hi h.space.bounds.2.2)
  obtain ⟨a, ha, hn, -⟩ := h.pinned _ (mem_listed.2 ⟨i, hi, he⟩)
  exact ⟨_, he, a, ha, hn⟩

theorem Refines.ending_header (hc : s.active c = true) : (s.ending c).log.header = s.m.log.header := by
  rw [h.ending_log hc]

/-- `wblog` has passed the first i slots -/
theorem Refines.passed (hc : s.active c = true) (hi : i ≤ s.m.log.header.numBlocks)
    (hu : (List.range i).forM (wblogBody sb) (s.ending c) = .ok () u) :
    u = { s.ending c with dev := u.dev, cache := u.cache } ∧
      Unpinned (fun n => ∃ j ∈ List.range i, s.m.log.header.entry j = some n) s.m.cache u.cache := by
  have hcached : ∀ j ∈ List.range i, ∃ n, (s.ending c).log.header.entry j = some n ∧
      ∃ a ∈ (s.ending c).cache.list, ((s.ending c).cache.heap a).blockNo = n := by
    intro j hj
    rw [h.ending_header hc, Sys.ending_cache]
    exact h.cached (lt_of_lt_of_le (List.mem_range.1 hj) hi)
  have hok : CacheOk (s.ending c).cache := by
    rw [Sys.ending_cache]
    exact h.ok
  have hun := wblogLoop_unpins hok hcached hu
  rw [h.ending_header hc, Sys.ending_cache] at hun
  exact hun

/-- `wblog` finds every listed block cached and pinned -/
theorem Refines.wblog_reaches (hc : s.active c = true) (hi : i < s.m.log.header.numBlocks)
    (hu : (List.range i).forM (wblogBody sb) (s.ending c) = .ok () u) :
    ∃ n a, s.m.log.header.entry i = some n ∧ findCache u.cache n = some a ∧ (u.cache.heap a).pinned = true := by
  have hlt := h.space.bounds.2.2
  obtain ⟨-, hun⟩ := h.passed hc hi.le hu
  have he := entry_of_lt s.m.log.header (lt_of_lt_of_le hi hlt)
  obtain ⟨a, ha, hn, hp⟩ := h.pinned _ (mem_listed.2 ⟨i, hi, he⟩)
  refine ⟨_, a, he, (hun.ok h.ok).find_iff.2 ⟨hun.perm.mem_iff.2 ha, (hun.blockNo a).trans hn⟩, ?_⟩
  rw [hun.kept a]
  · exact hp
  -- the entries already passed are others
  rintro ⟨j, hj, hej⟩
  have hj := List.mem_range.1 hj
  have hnd := h.space.nodup
  rw [listed_eq_home hlt] at hnd
  have hhome : s.m.log.header.home j = s.m.log.header.home i := by
    rw [home_eq he, home_eq hej, hn]
  have hij := List.inj_on_of_nodup_map hnd (List.mem_range.2 (hj.trans hi)) (List.mem_range.2 hi) hhome
  omega

/-- what a commit that returns has done -/
theorem Refines.committed (hc : s.active c = true)
    (hroom : s.m.log.header.numBlocks + 1 ≤ sb.numLogBlocks.toNat)
    (hu : commit sb (s.ending c) = .ok () u) :
    u.rm = s.m.rm ∧ u.log = { (s.ending c).log with header := s.m.log.header.cleared, committing := false } ∧
      (∃ S, Unpinned S s.m.cache u.cache) ∧
      u.dev.blocks = applyWrites (commitWrites sb s.m.log.header s.m.cache) s.m.dev.blocks := by
  have hhdr := h.ending_header hc
  have hlt := h.space.bounds.2.2
  have hout : ∀ i j, i < s.m.log.header.numBlocks → j < s.m.log.header.numBlocks →
      s.m.log.header.home i ≠ logSlot sb j := by
    intro i j hi hj hij
    exact h.logged _ (home_mem hlt hi) (hij ▸ slot_inLogArea hroom hj)
  have hpresent : ∀ n ∈ s.m.log.header.listed, ∃ a, findCache (s.ending c).cache n = some a := by
    intro n hn
    obtain ⟨a, ha, hna, -⟩ := h.pinned n hn
    rw [Sys.ending_cache]
    exact ⟨a, h.ok.find_iff.2 ⟨ha, hna⟩⟩
  have hnd := h.space.nodup
  rw [← hhdr] at hlt hout hpresent hnd
  obtain ⟨t, hwb, hw, hfr⟩ := commit_ok sb hlt hnd hpresent hout hu
  have hloop : (List.range s.m.log.header.numBlocks).forM (wblogBody sb) (s.ending c) = .ok () t := by
    rw [← hwb, ← hhdr]
    simp only [wblog, bind_run, get_run, List.forM_eq_forM]
  obtain ⟨hfr', hun⟩ := h.passed hc le_rfl hloop
  have hcache : u.cache = t.cache := by rw [hfr]
  refine ⟨?_, ?_, ⟨_, hcache ▸ hun⟩, ?_⟩
  · rw [hfr, hfr', Sys.ending_rm]
  · rw [hfr, hhdr]
  · rw [hw.2, hhdr, Sys.ending_cache, Sys.ending_dev]

theorem refines_commit (hc : s.active c = true) (hcm : (s.ending c).log.committing = true)
    (hroom : s.m.log.header.numBlocks + 1 ≤ sb.numLogBlocks.toNat)
    (hu : commit sb (s.ending c) = .ok () u) :
    Refines sb st { s with
      m := u, active := update s.active c false, batch := []
      dirty := fun n => s.dirty n && !decide (n ∈ s.m.log.header.listed) } := by
  obtain ⟨hrm, hlog, ⟨S, hun⟩, hdev⟩ := h.committed hc hroom hu
  have hlisted : u.log.header.listed = [] := by rw [hlog]; rfl
  have hone : s.m.log.numOps = 1 := by
    rw [h.ending_log hc] at hcm
    simpa using hcm
  have hnone : ∀ d, ¬ update s.active c false d = true := by
    intro d hd
    by_cases hdc : d = c
    · simp [hdc] at hd
    · rw [update_of_ne hdc] at hd
      exact hdc (h.space.last_active hc hone d hd)
  have hspace : Space sb u.log u.rm fun d => update s.active c false d = true := by
    rw [hrm, hlog]
    have hcl := (h.ended hc).cleared hnone
    exact hcl.congr rfl rfl (by rw [h.ending_log hc]) fun _ => Iff.rfl
  refine ⟨hun.ok h.ok, fun k b => ?_, h.outside, fun k hk => ?_, fun b hb => ?_, fun k hk _ hd => ?_, hspace,
    by rw [hlog], by simp [hlisted], by simp [hlisted], by simp, fun hlogarea => ?_⟩
  · obtain ⟨p, hp⟩ := hun.same b
    simp only [hun.perm.mem_iff, hp]
    exact h.held k b
  · simp only [Bool.and_eq_true, Bool.not_eq_true', decide_eq_false_iff_not] at hk
    exact Or.inl ((h.dirty k hk.1).resolve_right hk.2)
  · obtain ⟨p, hp⟩ := hun.same b
    simp only [hp]
    exact h.data b (hun.perm.mem_iff.1 hb)
  · simp only [hdev, commitWrites_outside _ h.space.bounds.2.2 h.space.nodup hroom _ hk]
    split_ifs with hkl
    · obtain ⟨a, ha, hn, -⟩ := h.pinned k hkl
      rw [h.ok.cachedData_eq ha hn, h.data a ha, hn]
    · exact h.home k hk hkl (by simpa [hkl] using hd)
  · have hcount := decode_count s.m.log.header.cleared
    simp only [hdev, commitWrites, applyWrites_append, applyWrites_cons, applyWrites_nil, update_self, hcount]
    rfl

end Steps

/-! ## Runs -/

/-- **Refinement step.** -/
theorem refines_step (st : ℕ → BlockData) (s : Sys) (e : Call) (s' : Sys) (h : Refines sb st s)
    (hf : Fair sb s e) (hs : step sb s e = some s') : Refines sb (leave st e) s' := by
  obtain ⟨hrel, hroom, hoff⟩ := hf
  cases e with
  | acquire n =>
    simp only [step] at hs
    split at hs
    · rename_i a m ha
      obtain ⟨hm, hacq⟩ := cacheAcquire_ok h.ok ha
      rw [hm] at hs
      rw [← Option.some.inj hs]
      exact refines_acquire h hoff hacq
    · cases hs
  | modify n d =>
    simp only [step] at hs
    split at hs
    · cases hs
    · rename_i a ha
      rw [← Option.some.inj hs]
      exact refines_modify h ha d
  | sync ctx n =>
    simp only [step] at hs
    split at hs
    · cases hs
    · rename_i a ha
      cases ctx with
      | none =>
        simp only [cacheSync, bind_run, get_run, deviceWrite, modify_run, Option.all_none, Option.isSome_none, if_true,
          Bool.false_eq_true, if_false] at hs
        rw [← Option.some.inj hs]
        exact refines_writeThrough h ha
      | some c =>
        simp only [Option.all_some, Option.isSome_some, if_true] at hs
        split_ifs at hs with hact
        cases hr : syncRegion (s.m.cache.heap a).blockNo (s.m.rm c) s.m.log with
        | error e => simp [cacheSync, hr] at hs
        | ok r =>
          obtain ⟨rm', opened, l'⟩ := r
          simp only [cacheSync, bind_run, get_run, hr, set_run] at hs
          rw [← Option.some.inj hs]
          exact refines_logged h ha hact hr
  | release n =>
    simp only [step] at hs
    split at hs
    · cases hs
    · rename_i a ha
      split at hs
      · rename_i m hm
        obtain ⟨hok, rfl⟩ := cacheRelease_ok h.ok ((h.held n a).1 ha).1 hm
        rw [← Option.some.inj hs]
        exact refines_release h ha (hrel n rfl) hok
      · cases hs
  | beginOp c =>
    simp only [step] at hs
    split_ifs at hs with hact
    by_cases hadm : Admits sb s.m.log
    · simp only [cacheBeginOp, bind_run, get_run, if_pos hadm, set_run] at hs
      rw [← Option.some.inj hs]
      exact refines_begin h (by simpa using hact) hadm
    · simp [cacheBeginOp, hadm] at hs
  | endOp c =>
    simp only [step] at hs
    split_ifs at hs with hact hcm
    · have hrun : cacheEndOp sb c s.m = commit sb (s.ending c) := by
        have hcm' : (endRegion (s.m.rm c) s.m.log).committing = true := hcm
        simp [cacheEndOp, hcm', Sys.ending]
      rw [hrun] at hs
      split at hs
      · rename_i m hm
        rw [← Option.some.inj hs]
        exact refines_commit h hact hcm (hroom hcm) hm
      · cases hs
    · rw [← Option.some.inj hs]
      exact refines_park h hact (by simpa using hcm)

/-- an `end_op` after which nothing runs has committed -/
theorem Refines.last_endOp {st : ℕ → BlockData} (h : Refines sb st s)
    (hs : step sb s (.endOp c) = some s') (hnone : ∀ d, s'.active d = false) :
    s.active c = true ∧ (s.ending c).log.committing = true ∧ commit sb (s.ending c) = .ok () s'.m := by
  simp only [step] at hs
  split_ifs at hs with hact hcm
  · have hrun : cacheEndOp sb c s.m = commit sb (s.ending c) := by
      have hcm' : (endRegion (s.m.rm c) s.m.log).committing = true := hcm
      simp [cacheEndOp, hcm', Sys.ending]
    rw [hrun] at hs
    split at hs
    · rename_i m hm
      rw [← Option.some.inj hs]
      exact ⟨hact, hcm, hm⟩
    · cases hs
  · -- it is asleep, and somebody else is running
    exfalso
    rw [h.ending_log hact] at hcm
    obtain ⟨d, hdc, hd⟩ := h.space.other_active hact (by simpa using hcm)
    have hoff := hnone d
    rw [← Option.some.inj hs] at hoff
    simp only [update_of_ne hdc] at hoff
    exact absurd (hd.symm.trans hoff) (by decide)

/-- **Refinement.** In every run of well-behaved clients: `acquire(n)` hands out the data last left in n; `wblog` finds
every listed block in the cache list and pinned; after an `end_op` with nothing left running, every block synced in the
batch is at its home location as it is in the cache; and `get_num_cached_blocks` is the length of the list. -/
theorem cache_refines_store (sb : SuperBlock) (d : ℕ → BlockData) (m : Machine) (calls : List Call) (s : Sys)
    (hm : initBcache sb d = .ok () m) (hcalls : Meets (step sb) (WellBehaved sb) (init m) calls)
    (hrun : run (step sb) (init m) calls = some s) :
    (∀ n a m', ¬ InLogArea sb n → cacheAcquire n s.m = .ok a m' →
      (m'.cache.heap a).blockNo = n ∧ (m'.cache.heap a).data = calls.foldl leave m.dev.blocks n) ∧
    (∀ c, s.active c = true → ∀ i < s.m.log.header.numBlocks, ∀ u,
      (List.range i).forM (wblogBody sb) (s.ending c) = .ok () u →
      ∃ n a, s.m.log.header.entry i = some n ∧ findCache u.cache n = some a ∧ (u.cache.heap a).pinned = true) ∧
    (∀ c s', LogRoom sb s (.endOp c) → step sb s (.endOp c) = some s' → (∀ x, s'.active x = false) →
      ∀ n ∈ s.batch, ∃ a ∈ s'.m.cache.list, (s'.m.cache.heap a).blockNo = n ∧
        s'.m.dev.blocks n = (s'.m.cache.heap a).data) ∧
    getNumCachedBlocks s.m = .ok s.m.cache.list.length s.m := by
  have h := run_simulates (C := Fair sb) refines_step (refines_init hm) (hcalls.mono fun _ _ => WellBehaved.fair) hrun
  refine ⟨fun n a m' hn ha => ?_, fun c hc i hi u hu => h.wblog_reaches hc hi hu, fun c s' hroom hs hnone n hn => ?_, ?_⟩
  · obtain ⟨-, hacq⟩ := cacheAcquire_ok h.ok ha
    exact ⟨hacq.number, h.acquired hn hacq⟩
  · obtain ⟨hc, hcm, hcommit⟩ := h.last_endOp hs hnone
    obtain ⟨-, -, ⟨S, hun⟩, hdev⟩ := h.committed hc (hroom hcm) hcommit
    have hl := h.batch n hn
    obtain ⟨a, ha, han, -⟩ := h.pinned n hl
    obtain ⟨p, hp⟩ := hun.same a
    refine ⟨a, hun.perm.mem_iff.2 ha, by rw [hun.blockNo]; exact han, ?_⟩
    rw [hdev, commitWrites_outside _ h.space.bounds.2.2 h.space.nodup (hroom hcm) _ (h.logged n hl), if_pos hl,
      h.ok.cachedData_eq ha han, hp]
    rfl
  · simp [getNumCachedBlocks, h.ok.size]

/-- which contexts run after a call -/
def marks (act : ℕ → Bool) : Call → ℕ → Bool
  | .beginOp c => update act c true
  | .endOp c => update act c false
  | _ => act

theorem step_active (hs : step sb s e = some s') :
    s'.active = marks s.active e := by
  cases e <;> simp only [step] at hs
  case endOp c =>
    split_ifs at hs
    · split at hs
      · rw [← Option.some.inj hs]; rfl
      · cases hs
    · rw [← Option.some.inj hs]; rfl
  case beginOp c =>
    split_ifs at hs
    split at hs
    · rw [← Option.some.inj hs]; rfl
    · cases hs
  case acquire n =>
    split at hs
    · rw [← Option.some.inj hs]; rfl
    · cases hs
  case modify n d =>
    split at hs
    · cases hs
    · rw [← Option.some.inj hs]; rfl
  case sync ctx n =>
    split at hs
    · cases hs
    · split_ifs at hs <;> split at hs <;> first | (rw [← Option.some.inj hs]; rfl) | cases hs
  case release n =>
    split at hs
    · cases hs
    · split at hs
      · rw [← Option.some.inj hs]; rfl
      · cases hs

/-- one operation writes block 100 -/
def writeBlock (d : BlockData) : List Call := [.beginOp 0, .acquire 100, .modify 100 d, .sync (some 0) 100, .release 100]

/-- the state after the given calls on an empty disk made by mkfs; every call is checked against C -/
def onEmptyDisk (C : Sys → Call → Prop) [∀ s e, Decidable (C s e)] (calls : List Call) : Option (Machine × Sys) :=
  match initBcache mkfsSuperBlock fun _ => zeros with
  | .ok _ m => (run (fun s e => if C s e then step mkfsSuperBlock s e else none) (init m) calls).map fun s => (m, s)
  | .error _ _ => none

theorem onEmptyDisk_some {C : Sys → Call → Prop} [∀ s e, Decidable (C s e)] {calls : List Call}
    (h : onEmptyDisk C calls = some (m, s)) :
    initBcache mkfsSuperBlock (fun _ => zeros) = .ok () m ∧ Meets (step mkfsSuperBlock) C (init m) calls ∧
      run (step mkfsSuperBlock) (init m) calls = some s := by
  unfold onEmptyDisk at h
  split at h
  · rename_i m' hm
    obtain ⟨s', hs', heq⟩ := Option.map_eq_some_iff.1 h
    obtain ⟨rfl, rfl⟩ := Prod.mk.inj heq
    exact ⟨hm, run_guarded hs'⟩
  · cases h

/-- after the operation on block 100 has ended, its home location holds what was written -/
theorem cache_refines_store_writeBlock :
    ∃ m s s', initBcache mkfsSuperBlock (fun _ => zeros) = .ok () m ∧
      run (step mkfsSuperBlock) (init m) (writeBlock fun _ => 1) = some s ∧
      step mkfsSuperBlock s (.endOp 0) = some s' ∧
      ∃ a ∈ s'.m.cache.list, (s'.m.cache.heap a).blockNo = 100 ∧ s'.m.dev.blocks 100 = (s'.m.cache.heap a).data := by
  have hrun : ((onEmptyDisk (WellBehaved mkfsSuperBlock) (writeBlock fun _ => 1)).bind fun r =>
      (step mkfsSuperBlock r.2 (.endOp 0)).map fun s' =>
        (r.2.batch, decide (LogRoom mkfsSuperBlock r.2 (.endOp 0)))) = some ([100], true) := by decide +kernel
  obtain ⟨⟨m, s⟩, hms, hval⟩ := Option.bind_eq_some_iff.1 hrun
  obtain ⟨s', hs', hval⟩ := Option.map_eq_some_iff.1 hval
  obtain ⟨hbatch, hroom⟩ := Prod.mk.inj hval
  obtain ⟨hm, hmeets, hr⟩ := onEmptyDisk_some hms
  refine ⟨m, s, s', hm, hr, hs', ?_⟩
  refine (cache_refines_store _ _ m _ s hm hmeets hr).2.2.1 0 s' (of_decide_eq_true hroom) hs' ?_ 100 ?_
  · intro x
    have hact : s.active = (writeBlock fun _ => 1).foldl marks fun _ => false :=
      run_simulates (C := fun _ _ => True) (R := fun act s => s.active = act)
        (fun act s e s' hR _ hs => by rw [step_active hs, hR]) rfl (meets_true _ _ _) hr
    rw [step_active hs', hact]
    simp only [writeBlock, List.foldl, marks, update_apply]
    split_ifs <;> rfl
  · simp only at hbatch
    rw [hbatch]
    exact List.mem_singleton_self _

/-- A client reads block 3 of an empty disk after another has written block 100: block 3 is the first slot of the log, and
the commit has left the new content of block 100 there. -/
theorem log_block_changes :
    ∃ m s a m', initBcache mkfsSuperBlock (fun _ => zeros) = .ok () m ∧
      Meets (step mkfsSuperBlock) (fun s e => Disciplined s e ∧ LogRoom mkfsSuperBlock s e) (init m)
        (writeBlock (fun _ => 1) ++ [.endOp 0]) ∧
      run (step mkfsSuperBlock) (init m) (writeBlock (fun _ => 1) ++ [.endOp 0]) = some s ∧
      cacheAcquire 3 s.m = .ok a m' ∧
      (m'.cache.heap a).data ≠ (writeBlock (fun _ => 1) ++ [Call.endOp 0]).foldl leave m.dev.blocks 3 := by
  have hrun : ((onEmptyDisk (fun s e => Disciplined s e ∧ LogRoom mkfsSuperBlock s e)
      (writeBlock (fun _ => 1) ++ [.endOp 0])).bind fun r =>
        match cacheAcquire 3 r.2.m with
        | .ok a m' => some ((m'.cache.heap a).data 0, r.1.dev.blocks 3 0)
        | .error _ _ => none) = some (1, 0) := by decide +kernel
  obtain ⟨⟨m, s⟩, hms, hval⟩ := Option.bind_eq_some_iff.1 hrun
  obtain ⟨hm, hmeets, hr⟩ := onEmptyDisk_some hms
  split at hval
  · rename_i a m' ha
    obtain ⟨hdata, hold⟩ := Prod.mk.inj (Option.some.inj hval)
    refine ⟨m, s, a, m', hm, hmeets, hr, ha, fun heq => ?_⟩
    have h0 := congrFun heq 0
    have hleft : (writeBlock (fun _ => 1) ++ [Call.endOp 0]).foldl leave m.dev.blocks 3 = m.dev.blocks 3 := by
      simp [writeBlock, leave]
    rw [hdata, hleft, hold] at h0
    exact absurd h0 (by decide)
  · cases hval

end OsKernel.Fs.BlockStore
