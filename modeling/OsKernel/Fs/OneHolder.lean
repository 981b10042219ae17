/-
At most one cached copy and one holder per block (`cache_acquire`, `cache_release`).

`Live` says that everybody's block struct is what it was when the process found it: a waiter's is still in the list, a
holder's is in the list and taken, and nobody else holds it. It needs one thing the code does not ensure, that no miss
evicts a struct somebody waits for (`SafeEvict`). `Single` says that a block number has one struct; it needs that no miss on
n starts while another process is reading n in (`NoDoubleMiss`).

Results: `one_copy_one_holder` (both hold along every run that avoids the two races) and `two_copies_two_holders` (each of
the races alone breaks them); `awaited_block_stays` (the struct a process waits for or gets stays the one it asked for, along
every run that avoids the first race, whatever the second does) and `awaited_block_reused` (otherwise `cache_acquire(5)` may
return a struct of block 6).
-/
import OsKernel.Fs.CacheSys

namespace OsKernel.Fs.CacheSys

open OsKernel.Sem OsKernel.Runs
open Function (update update_of_ne update_self)

/-! ## Structs in use -/

/-- what a process may rely on about the struct it has the address of -/
def Fits (c : Cache) (live : List ℕ) : Proc → Prop
  | .idle => True
  | .toWait n a | .asleep n a | .woken n a => a ∈ c.list ∧ (c.heap a).blockNo = n
  | .loading n a | .loaded n a => a ∈ live ∧ a ∉ c.list ∧ (c.heap a).blockNo = n ∧ (c.heap a).acquired = true
  | .holding n a => a ∈ c.list ∧ (c.heap a).blockNo = n ∧ (c.heap a).acquired = true

variable {s : Proc} {a p q x : ℕ} {w w' : World} {e : Call} {l : Semaphore}

theorem Fits.frame {c c' : Cache} {live live' : List ℕ} (h : Fits c live s)
    (hx : ∀ x, s.addr = some x → (x ∈ c'.list ↔ x ∈ c.list) ∧ (x ∈ live → x ∈ live') ∧
      (c'.heap x).blockNo = (c.heap x).blockNo ∧ (s.owned = some x → (c'.heap x).acquired = (c.heap x).acquired)) :
    Fits c' live' s := by
  cases s with
  | idle => trivial
  | loading n a | loaded n a =>
    obtain ⟨h1, h2, h3, h4⟩ := hx a rfl
    exact ⟨h2 h.1, fun hm => h.2.1 (h1.1 hm), h3.trans h.2.2.1, (h4 rfl).trans h.2.2.2⟩
  | holding n a =>
    obtain ⟨h1, -, h3, h4⟩ := hx a rfl
    exact ⟨h1.2 h.1, h3.trans h.2.1, (h4 rfl).trans h.2.2⟩
  | toWait n a | asleep n a | woken n a =>
    obtain ⟨h1, -, h3, -⟩ := hx a rfl
    exact ⟨h1.2 h.1, h3.trans h.2⟩

/-- the semaphore of the struct at a: a taken block leaves no token, a free one at most one, and the sleepers are the
processes asleep on it -/
structure LockOk (w : World) (a : ℕ) : Prop where
  ok : SemOk (w.cache.heap a).lock
  taken : (w.cache.heap a).acquired = true → (w.cache.heap a).lock.val ≤ 0
  free : (w.cache.heap a).lock.val ≤ 1
  nodup : (w.cache.heap a).lock.sleeplist.Nodup
  asleep : ∀ q ∈ (w.cache.heap a).lock.sleeplist, w.proc q = .asleep (w.cache.heap a).blockNo a

theorem LockOk.frame (h : LockOk w a) (hl : (w'.cache.heap a).lock = (w.cache.heap a).lock)
    (ha : (w'.cache.heap a).acquired = (w.cache.heap a).acquired)
    (hb : (w'.cache.heap a).blockNo = (w.cache.heap a).blockNo)
    (hq : ∀ q, w.proc q = .asleep (w.cache.heap a).blockNo a → w'.proc q = w.proc q) : LockOk w' a where
  ok := by rw [hl]; exact h.ok
  taken := by rw [hl, ha]; exact h.taken
  free := by rw [hl]; exact h.free
  nodup := by rw [hl]; exact h.nodup
  asleep q hm := by
    rw [hl] at hm
    rw [hb, hq q (h.asleep q hm)]
    exact h.asleep q hm

structure Live (w : World) : Prop where
  nodup : w.cache.list.Nodup
  alloc : ∀ a ∈ w.cache.list, a ∈ w.live
  fits : ∀ p, Fits w.cache w.live (w.proc p)
  sole : ∀ p q a, (w.proc p).owned = some a → (w.proc q).owned = some a → p = q
  locks : ∀ a ∈ w.live, LockOk w a

/-- one process moves: the others keep what they rely on, and it takes no struct that another one owns -/
theorem Live.one (h : Live w) (hproc : ∀ q, q ≠ p → w'.proc q = w.proc q)
    (hnodup : w'.cache.list.Nodup) (halloc : ∀ a ∈ w'.cache.list, a ∈ w'.live)
    (hp : Fits w'.cache w'.live (w'.proc p)) (hothers : ∀ q, q ≠ p → Fits w'.cache w'.live (w.proc q))
    (hown : ∀ a, (w'.proc p).owned = some a → ∀ q, q ≠ p → (w.proc q).owned ≠ some a)
    (hlocks : ∀ a ∈ w'.live, LockOk w' a) : Live w' := by
  refine ⟨hnodup, halloc, fun q => ?_, fun q r a hq hr => ?_, hlocks⟩
  · by_cases hqp : q = p
    · rw [hqp]; exact hp
    · rw [hproc q hqp]; exact hothers q hqp
  · by_cases hqp : q = p
    · by_cases hrp : r = p
      · rw [hqp, hrp]
      · rw [hqp] at hq
        rw [hproc r hrp] at hr
        exact absurd hr (hown a hq r hrp)
    · rw [hproc q hqp] at hq
      by_cases hrp : r = p
      · rw [hrp] at hr
        exact absurd hq (hown a hr q hqp)
      · rw [hproc r hrp] at hr
        exact h.sole q r a hq hr

/-- a free struct of the list belongs to nobody -/
theorem Live.not_owned (h : Live w) (ha : a ∈ w.cache.list)
    (hacq : (w.cache.heap a).acquired = false) (q : ℕ) : (w.proc q).owned ≠ some a := by
  intro hq
  have hf := h.fits q
  cases hs : w.proc q with
  | loading n x | loaded n x =>
    rw [hs] at hq hf
    cases hq
    exact hf.2.1 ha
  | holding n x =>
    rw [hs] at hq hf
    cases hq
    exact absurd (hf.2.2.symm.trans hacq) (by simp)
  | _ => rw [hs] at hq; cases hq

/-- no process waits for a struct that `evict` may free, when the cache is full -/
def SafeEvict (w : World) : Prop :=
  evictionThreshold ≤ w.cache.cachesize → ∀ q a, (w.proc q).awaited = some a → ¬ Evictable (w.cache.heap a)

theorem mem_liveAfter :
    x ∈ liveAfter w ↔ x ∈ w.live ∧ (x ∈ w.cache.list → x ∈ (makeRoom w.cache).list) := by
  simp [liveAfter, imp_iff_not_or]

/-- a struct somebody has the address of survives a safe eviction -/
theorem Live.survives (h : Live w) (hs : SafeEvict w) (hx : (w.proc q).addr = some x) :
    x ∈ liveAfter w ∧ (x ∈ (makeRoom w.cache).list ↔ x ∈ w.cache.list) := by
  have hsub := (makeRoom_sublist w.cache).subset
  have hkeep : x ∈ w.cache.list → ¬ (evictionThreshold ≤ w.cache.cachesize ∧ Evictable (w.cache.heap x)) →
      x ∈ liveAfter w ∧ (x ∈ (makeRoom w.cache).list ↔ x ∈ w.cache.list) := by
    intro hm hev
    have hm' : x ∈ (makeRoom w.cache).list := by
      by_contra hn
      exact hev (makeRoom_dropped hm hn)
    exact ⟨mem_liveAfter.2 ⟨h.alloc x hm, fun _ => hm'⟩, fun _ => hm, fun _ => hm'⟩
  have hf := h.fits q
  have hw : ∀ a, (w.proc q).awaited = some a → ¬ (evictionThreshold ≤ w.cache.cachesize ∧ Evictable (w.cache.heap a)) :=
    fun a ha hev => hs hev.1 q a ha hev.2
  cases hq : w.proc q with
  | idle => rw [hq] at hx; cases hx
  | loading n a | loaded n a =>
    rw [hq] at hx hf
    cases hx
    exact ⟨mem_liveAfter.2 ⟨hf.1, fun hm => absurd hm hf.2.1⟩, fun hm => hsub hm, fun hm => absurd hm hf.2.1⟩
  | holding n a =>
    rw [hq] at hx hf
    cases hx
    exact hkeep hf.1 fun hev => absurd (hf.2.2.symm.trans hev.2.2.1) (by simp)
  | toWait n a | asleep n a | woken n a =>
    rw [hq] at hx hf hw
    cases hx
    exact hkeep hf.1 (hw x rfl)

section Moves

variable {w : World} (h : Live w) {p n a : ℕ}
include h

/-- a process takes a free block of the list -/
theorem live_take (hp : w.proc p = .idle ∨ w.proc p = .woken n a) (ha : a ∈ w.cache.list)
    (hn : (w.cache.heap a).blockNo = n) (hacq : (w.cache.heap a).acquired = false) :
    Live ({ w with cache := takeBlock a w.cache }.to p (.holding n a)) := by
  have hperm : (takeBlock a w.cache).list.Perm w.cache.list := takeBlock_perm ha
  have hne : ∀ x, x ≠ a → (takeBlock a w.cache).heap x = w.cache.heap x := fun x hx => update_heap_ne _ _ hx
  have hself : (takeBlock a w.cache).heap a = (w.cache.heap a).take := update_heap_self _ _ _
  have hasleep : ∀ q m x, w.proc q = .asleep m x → q ≠ p := by
    rintro q m x hq rfl
    rw [hq] at hp
    simp at hp
  refine h.one (p := p) (fun q hq => update_of_ne hq _ _) (hperm.nodup_iff.2 h.nodup)
    (fun x hx => h.alloc x (hperm.mem_iff.1 hx)) ?_ (fun q _ => (h.fits q).frame fun x hx => ?_) ?_ fun x hx => ?_
  · simp only [World.to_proc, update_self]
    exact ⟨hperm.mem_iff.2 ha, by simp only [World.to_cache, hself]; exact hn, by simp only [World.to_cache, hself]; rfl⟩
  · refine ⟨hperm.mem_iff, fun hx => hx, update_field Block.blockNo w.cache a Block.take (fun _ => rfl) x, fun ho => ?_⟩
    have hxa : x ≠ a := by rintro rfl; exact h.not_owned ha hacq q ho
    simp only [World.to_cache, hne x hxa]
  · simp only [World.to_proc, update_self]
    rintro x hx q -
    cases hx
    exact h.not_owned ha hacq q
  · have hlock := h.locks x hx
    by_cases hxa : x = a
    · subst hxa
      have hval : (getSem (w.cache.heap x).lock).2.val ≤ 0 ∧
          (getSem (w.cache.heap x).lock).2.sleeplist = (w.cache.heap x).lock.sleeplist := by
        have := hlock.free
        unfold getSem
        split_ifs
        · exact ⟨by simp only; omega, rfl⟩
        · exact ⟨by simp only; omega, rfl⟩
      constructor
      all_goals simp only [World.to_cache, World.to_proc, hself, Block.take, hval.2]
      · exact semOk_getSem hlock.ok
      · exact fun _ => hval.1
      · exact hval.1.trans (by decide)
      · exact hlock.nodup
      · intro q hq
        have := hlock.asleep q hq
        rw [update_of_ne (hasleep q _ _ this)]
        exact this
    · exact hlock.frame (by simp [hne x hxa]) (by simp [hne x hxa]) (by simp [hne x hxa]) fun q hq =>
        update_of_ne (hasleep q _ _ hq) _ _

/-- a process that is not asleep changes its phase and nothing else -/
theorem live_toWait (hp : w.proc p = .idle ∨ w.proc p = .woken n a) (ha : a ∈ w.cache.list)
    (hn : (w.cache.heap a).blockNo = n) : Live (w.to p (.toWait n a)) := by
  refine h.one (p := p) (fun q hq => update_of_ne hq _ _) h.nodup h.alloc ?_ (fun q _ => h.fits q) ?_
    fun x hx => (h.locks x hx).frame rfl rfl rfl fun q hq => ?_
  · simp only [World.to_proc, update_self]
    exact ⟨ha, hn⟩
  · simp [Proc.owned]
  · have hqp : q ≠ p := by
      rintro rfl
      rw [hq] at hp
      simp at hp
    exact update_of_ne hqp _ _

theorem live_wait (hp : w.proc p = .toWait n a) :
    Live ({ w with cache := w.cache.update a (setLock (waitSem p (w.cache.heap a).lock).2) }.to p
      (if (waitSem p (w.cache.heap a).lock).1 then .woken n a else .asleep n a)) := by
  have hfp := h.fits p
  rw [hp] at hfp
  have hasleep : ∀ q m x, w.proc q = .asleep m x → q ≠ p := by
    rintro q m x hq rfl
    rw [hq] at hp
    simp at hp
  set l := waitSem p (w.cache.heap a).lock with hl
  have hno := update_field Block.blockNo w.cache a (setLock l.2) fun _ => rfl
  have hacq := update_field Block.acquired w.cache a (setLock l.2) fun _ => rfl
  refine h.one (p := p) (fun q hq => update_of_ne hq _ _) h.nodup h.alloc ?_
    (fun q _ => (h.fits q).frame fun x _ => ⟨Iff.rfl, fun hx => hx, hno x, fun _ => hacq x⟩) ?_ fun x hx => ?_
  · simp only [World.to_proc, update_self]
    split_ifs
    · exact ⟨hfp.1, (hno a).trans hfp.2⟩
    · exact ⟨hfp.1, (hno a).trans hfp.2⟩
  · simp only [World.to_proc, update_self]
    split_ifs <;> simp [Proc.owned]
  · have hlock := h.locks x hx
    by_cases hxa : x = a
    · subst hxa
      have hnot : p ∉ (w.cache.heap x).lock.sleeplist := fun hm => hasleep p _ _ (hlock.asleep p hm) rfl
      have hfree := hlock.free
      constructor
      all_goals simp only [World.to_cache, World.to_proc, update_heap_self, setLock]
      · exact semOk_waitSem p hlock.ok
      · intro ht
        have := hlock.taken ht
        simp only [hl, waitSem]
        split_ifs
        · simp only; omega
        · simp only; omega
      · simp only [hl, waitSem]
        split_ifs
        · simp only; omega
        · simp only; omega
      · simp only [hl, waitSem]
        split_ifs
        · exact hlock.nodup
        · exact List.nodup_cons.2 ⟨hnot, hlock.nodup⟩
      · intro q hq
        have hold : q ∈ (w.cache.heap x).lock.sleeplist → w.proc q = .asleep (w.cache.heap x).blockNo x ∧ q ≠ p :=
          fun hm => ⟨hlock.asleep q hm, hasleep q _ _ (hlock.asleep q hm)⟩
        by_cases hv : (w.cache.heap x).lock.val - 1 ≥ 0
        · rw [hl, waitSem, if_pos hv] at hq
          obtain ⟨h1, h2⟩ := hold hq
          rw [update_of_ne h2]
          exact h1
        · rw [hl, waitSem, if_neg hv] at hq
          rcases List.mem_cons.1 hq with rfl | hq
          · rw [update_self, hl, waitSem, if_neg hv, hfp.2]
            rfl
          · obtain ⟨h1, h2⟩ := hold hq
            rw [update_of_ne h2]
            exact h1
    · have hne := update_heap_ne w.cache (setLock l.2) hxa
      exact hlock.frame (by simp [hne]) (by simp [hne]) (by simp [hne]) fun q hq =>
        update_of_ne (hasleep q _ _ hq) _ _

theorem live_miss (hp : w.proc p = .idle) (ha : a ∉ liveAfter w) (hs : SafeEvict w) :
    Live ({ w with cache := (makeRoom w.cache).update a fun _ => newBlock n, live := a :: liveAfter w }.to p
      (.loading n a)) := by
  have hsub := makeRoom_sublist w.cache
  have hasleep : ∀ q m x, w.proc q = .asleep m x → q ≠ p := by
    rintro q m x hq rfl
    rw [hq] at hp
    cases hp
  have hne : ∀ x ∈ liveAfter w, ((makeRoom w.cache).update a fun _ => newBlock n).heap x = w.cache.heap x := by
    intro x hx
    have hxa : x ≠ a := by rintro rfl; exact ha hx
    rw [update_heap_ne _ _ hxa, makeRoom_heap]
  have hself : ((makeRoom w.cache).update a fun _ => newBlock n).heap a = newBlock n := update_heap_self _ _ _
  have hlist : ∀ x ∈ (makeRoom w.cache).list, x ∈ liveAfter w := fun x hx =>
    mem_liveAfter.2 ⟨h.alloc x (hsub.subset hx), fun _ => hx⟩
  refine h.one (p := p) (fun q hq => update_of_ne hq _ _) (h.nodup.sublist hsub)
    (fun x hx => List.mem_cons_of_mem a (hlist x hx)) ?_ (fun q _ => (h.fits q).frame fun x hx => ?_) ?_ fun x hx => ?_
  · simp only [World.to_proc, update_self, World.to_cache]
    exact ⟨List.mem_cons_self, fun hm => ha (hlist a hm), by rw [hself]; rfl, by rw [hself]; rfl⟩
  · obtain ⟨h1, h2⟩ := h.survives hs hx
    simp only [World.to_cache, World.to_live, hne x h1]
    exact ⟨h2, fun _ => List.mem_cons_of_mem a h1, trivial, fun _ => trivial⟩
  · simp only [World.to_proc, update_self]
    rintro x hx q - ho
    cases hx
    have haddr : (w.proc q).addr = some a := by
      cases hq : w.proc q <;> simp_all [Proc.owned, Proc.addr]
    exact ha (h.survives hs haddr).1
  · by_cases hxa : x = a
    · subst hxa
      constructor
      all_goals simp only [World.to_cache, hself]
      · simp [newBlock, initBlock, initSleeplock, initSem, getSem, SemOk]
      · simp [newBlock, initBlock, initSleeplock, initSem, getSem]
      · simp [newBlock, initBlock, initSleeplock, initSem, getSem]
      · simp [newBlock, initBlock, initSleeplock, initSem, getSem]
      · simp [newBlock, initBlock, initSleeplock, initSem, getSem]
    · have hx := (List.mem_cons.1 hx).resolve_left hxa
      exact (h.locks x (mem_liveAfter.1 hx).1).frame (by simp [hne x hx]) (by simp [hne x hx]) (by simp [hne x hx])
        fun q hq => update_of_ne (hasleep q _ _ hq) _ _

theorem live_read (hp : w.proc p = .loading n a) (d : BlockData) :
    Live ({ w with cache := readRegion a d w.cache }.to p (.loaded n a)) := by
  have hfp := h.fits p
  rw [hp] at hfp
  have hno := update_field Block.blockNo w.cache a (Block.fill d) fun _ => rfl
  have hacq := update_field Block.acquired w.cache a (Block.fill d) fun _ => rfl
  have hlock := update_field Block.lock w.cache a (Block.fill d) fun _ => rfl
  refine h.one (p := p) (fun q hq => update_of_ne hq _ _) h.nodup h.alloc ?_
    (fun q _ => (h.fits q).frame fun x _ => ⟨Iff.rfl, fun hx => hx, hno x, fun _ => hacq x⟩) ?_
    fun x hx => (h.locks x hx).frame (hlock x) (hacq x) (hno x) fun q hq => ?_
  · simp only [World.to_proc, update_self]
    exact ⟨hfp.1, hfp.2.1, (hno a).trans hfp.2.2.1, (hacq a).trans hfp.2.2.2⟩
  · simp only [World.to_proc, update_self]
    rintro x hx q hq ho
    cases hx
    exact hq (h.sole q p a ho (by rw [hp]; rfl))
  · have hqp : q ≠ p := by rintro rfl; rw [hp] at hq; cases hq
    exact update_of_ne hqp _ _

theorem live_insert (hp : w.proc p = .loaded n a) :
    Live ({ w with cache := insertRegion a w.cache }.to p (.holding n a)) := by
  have hfp := h.fits p
  rw [hp] at hfp
  have hno := update_field Block.blockNo w.cache a Block.load fun _ => rfl
  have hacq := update_field Block.acquired w.cache a Block.load fun _ => rfl
  have hlock := update_field Block.lock w.cache a Block.load fun _ => rfl
  have hnotOwned : ∀ q, q ≠ p → (w.proc q).owned ≠ some a := fun q hq ho => hq (h.sole q p a ho (by rw [hp]; rfl))
  have hmem : ∀ x, x ∈ (insertRegion a w.cache).list ↔ x ∈ w.cache.list ∨ x = a := by simp [insertRegion]
  refine h.one (p := p) (fun q hq => update_of_ne hq _ _) ?_ ?_ ?_
    (fun q hq => (h.fits q).frame fun x hx => ⟨?_, fun hx => hx, hno x, fun _ => hacq x⟩) ?_
    fun x hx => (h.locks x hx).frame (hlock x) (hacq x) (hno x) fun q hq => ?_
  · exact List.nodup_append.2 ⟨h.nodup, by simp, by rintro x hx y hy rfl; simp at hy; exact hfp.2.1 (hy ▸ hx)⟩
  · intro x hx
    rcases (hmem x).1 hx with hx | rfl
    · exact h.alloc x hx
    · exact hfp.1
  · simp only [World.to_proc, update_self]
    exact ⟨(hmem a).2 (Or.inr rfl), (hno a).trans hfp.2.2.1, (hacq a).trans hfp.2.2.2⟩
  · -- nobody else has the address of the new struct
    have hxa : x ≠ a := by
      rintro rfl
      have hfq := h.fits q
      cases hs : w.proc q with
      | idle => rw [hs] at hx; cases hx
      | toWait m y | asleep m y | woken m y =>
        rw [hs] at hx hfq
        cases hx
        exact hfp.2.1 hfq.1
      | loading m y | loaded m y | holding m y =>
        rw [hs] at hx
        cases hx
        exact hnotOwned q hq (by rw [hs]; rfl)
    rw [World.to_cache, hmem]
    simp [hxa]
  · simp only [World.to_proc, update_self]
    rintro x hx q hq
    cases hx
    exact hnotOwned q hq
  · have hqp : q ≠ p := by rintro rfl; rw [hp] at hq; cases hq
    exact update_of_ne hqp _ _

/-- p gives its block back; l is the semaphore after the post -/
theorem live_release (hp : w.proc p = .holding n a) {q : Option ℕ}
    (hs : postSem (w.cache.heap a).lock = some (q, l)) (last : ℕ → BlockData) :
    Live ({ w with cache := w.cache.update a (Block.release l), last := last }.to p .idle) := by
  have hfp := h.fits p
  rw [hp] at hfp
  obtain ⟨hval, hsl⟩ := postSem_eq hs
  have hno := update_field Block.blockNo w.cache a (Block.release l) fun _ => rfl
  have hasleep : ∀ q m x, w.proc q = .asleep m x → q ≠ p := by
    rintro q m x hq rfl
    rw [hq] at hp
    cases hp
  refine h.one (p := p) (fun q hq => update_of_ne hq _ _) h.nodup h.alloc (by simp [Fits])
    (fun q hq => (h.fits q).frame fun x hx => ⟨Iff.rfl, fun hx => hx, hno x, fun ho => ?_⟩) (by simp [Proc.owned])
    fun x hx => ?_
  · have hxa : x ≠ a := by rintro rfl; exact hq (h.sole q p x ho (by rw [hp]; rfl))
    rw [World.to_cache, update_heap_ne _ _ hxa]
  · have hlock := h.locks x hx
    by_cases hxa : x = a
    · subst hxa
      have htaken := hlock.taken hfp.2.2
      have hnodup := hlock.nodup
      rw [hsl] at hnodup
      constructor
      all_goals simp only [World.to_cache, World.to_proc, update_heap_self, Block.release]
      · exact semOk_postSem hlock.ok hs
      · simp
      · omega
      · exact (List.nodup_append.1 hnodup).1
      · intro r hr
        have := hlock.asleep r (by rw [hsl]; exact List.mem_append_left _ hr)
        rw [update_of_ne (hasleep r _ _ this)]
        exact this
    · have hne := update_heap_ne w.cache (Block.release l) hxa
      exact hlock.frame (by simp [hne]) (by simp [hne]) (by simp [hne]) fun q hq =>
        update_of_ne (hasleep q _ _ hq) _ _

/-- a process that is on no sleep list any more wakes up -/
theorem live_wake (hq : ∀ x ∈ w.live, p ∉ (w.cache.heap x).lock.sleeplist) : Live (w.to p (wake (w.proc p))) := by
  have howned : (wake (w.proc p)).owned = (w.proc p).owned := by
    cases w.proc p <;> rfl
  refine h.one (p := p) (fun q hq => update_of_ne hq _ _) h.nodup h.alloc ?_ (fun q _ => h.fits q) ?_
    fun x hx => ?_
  · have hf := h.fits p
    simp only [World.to_proc, update_self, World.to_cache, World.to_live]
    cases hs : w.proc p <;> rw [hs] at hf <;> exact hf
  · simp only [World.to_proc, update_self, howned]
    intro x hx q hqp ho
    exact hqp (h.sole q p x ho hx)
  · have hlock := h.locks x hx
    refine ⟨hlock.ok, hlock.taken, hlock.free, hlock.nodup, fun q hm => ?_⟩
    have hqp : q ≠ p := by rintro rfl; exact hq x hx hm
    rw [World.to_proc, update_of_ne hqp]
    exact hlock.asleep q hm

theorem live_handOver (hp : w.proc p = .holding n a)
    (hs : postSem (w.cache.heap a).lock = some (some q, l)) (last : ℕ → BlockData) :
    Live (({ w with cache := w.cache.update a (Block.release l), last := last }.to p .idle).to q
      (wake (update w.proc p .idle q))) := by
  have hfp := h.fits p
  rw [hp] at hfp
  obtain ⟨-, hsl⟩ := postSem_eq hs
  have hlive := h.alloc a hfp.1
  have hqa : q ∈ (w.cache.heap a).lock.sleeplist := by rw [hsl]; simp
  have hqasleep := (h.locks a hlive).asleep q hqa
  refine live_wake (live_release h hp hs last) fun x hx hm => ?_
  by_cases hxa : x = a
  · -- q was on the list once and has been taken off
    subst hxa
    have hnodup := (h.locks x hlive).nodup
    rw [hsl] at hnodup
    simp only [World.to_cache, update_heap_self, Block.release] at hm
    exact (List.nodup_append.1 hnodup).2.2 q hm q (by simp) rfl
  · rw [World.to_cache, update_heap_ne _ _ hxa] at hm
    have := (h.locks x hx).asleep q hm
    rw [hqasleep] at this
    exact hxa (Proc.asleep.inj this).2.symm

theorem live_move (hm : Move w e w')
    (hs : ∀ p n fresh, e = .acquire p n fresh → findCache w.cache n = none → SafeEvict w) : Live w' := by
  cases hm with
  | hit p n a fresh hp hf ha =>
    obtain ⟨hmem, hn⟩ := findCache_some hf
    exact live_take h (Or.inl hp) hmem hn ha
  | busy p n a fresh hp hf ha =>
    obtain ⟨hmem, hn⟩ := findCache_some hf
    exact live_toWait h (Or.inl hp) hmem hn
  | miss p n a hp hf ha => exact live_miss h hp ha (hs p n a rfl hf)
  | wait p n a hp => exact live_wait h hp
  | retake p n a hp ha =>
    have hf := h.fits p
    rw [hp] at hf
    have hlock := h.locks a (h.alloc a hf.1)
    refine live_take h (Or.inr hp) hf.1 hf.2 ?_
    rcases ha with ha | ha
    · -- a token on the semaphore means that nobody has the block
      by_contra hacq
      have := hlock.taken (by simpa using hacq)
      simp only [getSem] at ha
      split_ifs at ha with hv
      omega
    · exact ha
  | again p n a hp ha =>
    have hf := h.fits p
    rw [hp] at hf
    exact live_toWait h (Or.inr hp) hf.1 hf.2
  | read p n a hp => exact live_read h hp _
  | insert p n a hp => exact live_insert h hp
  | release p n a l hp hpost => exact live_release h hp hpost _
  | handOver p n a q l hp hpost => exact live_handOver h hp hpost _

end Moves

/-! ## One struct per block -/

structure Single (w : World) : Prop where
  copies : ∀ a ∈ w.cache.list, ∀ b ∈ w.cache.list, (w.cache.heap a).blockNo = (w.cache.heap b).blockNo → a = b
  absent : ∀ p n, (w.proc p).loads = some n → ∀ a ∈ w.cache.list, (w.cache.heap a).blockNo ≠ n
  once : ∀ p q n, (w.proc p).loads = some n → (w.proc q).loads = some n → p = q

/-- the list gains no struct and nobody starts to read a block in -/
theorem Single.frame (h : Single w) (hl : ∀ a ∈ w'.cache.list, a ∈ w.cache.list)
    (hb : ∀ a ∈ w'.cache.list, (w'.cache.heap a).blockNo = (w.cache.heap a).blockNo)
    (hp : ∀ q n, (w'.proc q).loads = some n → (w.proc q).loads = some n) : Single w' where
  copies a ha b hb' hab := by
    rw [hb a ha, hb b hb'] at hab
    exact h.copies a (hl a ha) b (hl b hb') hab
  absent q n hq a ha := by
    rw [hb a ha]
    exact h.absent q n (hp q n hq) a (hl a ha)
  once q r n hq hr := h.once q r n (hp q n hq) (hp r n hr)

theorem loads_update {proc : ℕ → Proc} (hs : ∀ n, s.loads = some n → (proc p).loads = some n)
    (q n : ℕ) (hq : (update proc p s q).loads = some n) : (proc q).loads = some n := by
  by_cases hqp : q = p
  · subst hqp
    rw [update_self] at hq
    exact hs n hq
  · rwa [update_of_ne hqp] at hq

/-- no other process is reading n in -/
def NoDoubleMiss (w : World) (n : ℕ) : Prop := ∀ q, (w.proc q).loads ≠ some n

theorem single_take (hs : Single w) {n : ℕ} (ha : a ∈ w.cache.list) :
    Single ({ w with cache := takeBlock a w.cache }.to p (.holding n a)) := by
  have hperm : (takeBlock a w.cache).list.Perm w.cache.list := takeBlock_perm ha
  exact hs.frame (fun x hx => hperm.mem_iff.1 hx)
    (fun x _ => update_field Block.blockNo w.cache a Block.take (fun _ => rfl) x) (loads_update (by simp [Proc.loads]))

section Moves

variable {w : World} (h : Live w) (hs : Single w) {p n a : ℕ}
include h hs

theorem single_miss (hf : findCache w.cache n = none) (ha : a ∉ liveAfter w) (hd : NoDoubleMiss w n) :
    Single ({ w with cache := (makeRoom w.cache).update a fun _ => newBlock n, live := a :: liveAfter w }.to p
      (.loading n a)) := by
  have hsub := (makeRoom_sublist w.cache).subset
  have hb : ∀ x ∈ (makeRoom w.cache).list,
      ((makeRoom w.cache).update a fun _ => newBlock n).heap x = w.cache.heap x := by
    intro x hx
    have hxa : x ≠ a := by
      rintro rfl
      exact ha (mem_liveAfter.2 ⟨h.alloc x (hsub hx), fun _ => hx⟩)
    rw [update_heap_ne _ _ hxa, makeRoom_heap]
  have hcases : ∀ q m, (update w.proc p (.loading n a) q).loads = some m →
      (q = p ∧ m = n) ∨ (q ≠ p ∧ (w.proc q).loads = some m) := by
    intro q m hq
    by_cases hqp : q = p
    · subst hqp
      rw [update_self] at hq
      exact Or.inl ⟨rfl, (Option.some.inj hq).symm⟩
    · rw [update_of_ne hqp] at hq
      exact Or.inr ⟨hqp, hq⟩
  refine ⟨fun x hx y hy hxy => ?_, fun q m hq x hx => ?_, fun q r m hq hr => ?_⟩
  · simp only [World.to_cache, hb x hx, hb y hy] at hxy
    exact hs.copies x (hsub hx) y (hsub hy) hxy
  · simp only [World.to_cache, hb x hx]
    rcases hcases q m hq with ⟨-, rfl⟩ | ⟨-, hq⟩
    · exact findCache_none hf x (hsub hx)
    · exact hs.absent q m hq x (hsub hx)
  · rcases hcases q m hq with ⟨hqp, hmn⟩ | ⟨-, hq'⟩
    · rcases hcases r m hr with ⟨hrp, -⟩ | ⟨-, hr'⟩
      · rw [hqp, hrp]
      · exact absurd (hmn ▸ hr') (hd r)
    · rcases hcases r m hr with ⟨-, hmn⟩ | ⟨-, hr'⟩
      · exact absurd (hmn ▸ hq') (hd q)
      · exact hs.once q r m hq' hr'

theorem single_insert (hp : w.proc p = .loaded n a) :
    Single ({ w with cache := insertRegion a w.cache }.to p (.holding n a)) := by
  have hfp := h.fits p
  rw [hp] at hfp
  have hload : (w.proc p).loads = some n := by rw [hp]; rfl
  have hno := update_field Block.blockNo w.cache a Block.load fun _ => rfl
  have hmem : ∀ x, x ∈ (insertRegion a w.cache).list ↔ x ∈ w.cache.list ∨ x = a := by simp [insertRegion]
  have hloads : ∀ q m, (update w.proc p (.holding n a) q).loads = some m → (w.proc q).loads = some m :=
    loads_update (by simp [Proc.loads])
  have hother : ∀ q, (update w.proc p (.holding n a) q).loads ≠ some n := by
    intro q hq
    have hqp := hs.once q p n (hloads q n hq) hload
    rw [hqp, update_self] at hq
    cases hq
  refine ⟨fun x hx y hy hxy => ?_, fun q m hq x hx => ?_, fun q r m hq hr => ?_⟩
  · change ((w.cache.update a Block.load).heap x).blockNo = ((w.cache.update a Block.load).heap y).blockNo at hxy
    rw [hno, hno] at hxy
    rcases (hmem x).1 hx with hx' | hxa
    · rcases (hmem y).1 hy with hy' | hya
      · exact hs.copies x hx' y hy' hxy
      · rw [hya, hfp.2.2.1] at hxy
        exact absurd hxy (hs.absent p n hload x hx')
    · rcases (hmem y).1 hy with hy' | hya
      · rw [hxa, hfp.2.2.1] at hxy
        exact absurd hxy.symm (hs.absent p n hload y hy')
      · rw [hxa, hya]
  · change ((w.cache.update a Block.load).heap x).blockNo ≠ m
    rw [hno]
    rcases (hmem x).1 hx with hx | rfl
    · exact hs.absent q m (hloads q m hq) x hx
    · rw [hfp.2.2.1]
      rintro rfl
      exact hother q hq
  · exact hs.once q r m (hloads q m hq) (hloads r m hr)

theorem single_move (hm : Move w e w')
    (hd : ∀ p n fresh, e = .acquire p n fresh → findCache w.cache n = none → NoDoubleMiss w n) : Single w' := by
  have hnone : ∀ (s : Proc) (p n : ℕ), s.loads = none → s.loads = some n → (w.proc p).loads = some n := by
    intro s p n h1 h2
    rw [h1] at h2
    cases h2
  cases hm with
  | hit p n a fresh hp hf ha => exact single_take hs (findCache_some hf).1
  | busy p n a fresh hp hf ha => exact hs.frame (fun _ hx => hx) (fun _ _ => rfl) (loads_update fun m => hnone _ p m rfl)
  | miss p n a hp hf ha => exact single_miss h hs hf ha (hd p n a rfl hf)
  | wait p n a hp =>
    refine hs.frame (fun _ hx => hx) (fun x _ => update_field Block.blockNo w.cache a (setLock _) (fun _ => rfl) x)
      (loads_update fun m => hnone _ p m ?_)
    split_ifs <;> rfl
  | retake p n a hp ha =>
    have hf := h.fits p
    rw [hp] at hf
    exact single_take hs hf.1
  | again p n a hp ha => exact hs.frame (fun _ hx => hx) (fun _ _ => rfl) (loads_update fun m => hnone _ p m rfl)
  | read p n a hp =>
    refine hs.frame (fun _ hx => hx) (fun x _ => update_field Block.blockNo w.cache a (Block.fill _) (fun _ => rfl) x)
      (loads_update fun m hm => ?_)
    rw [hp]
    exact hm
  | insert p n a hp => exact single_insert h hs hp
  | release p n a l hp hpost =>
    exact hs.frame (fun _ hx => hx) (fun x _ => update_field Block.blockNo w.cache a (Block.release l) (fun _ => rfl) x)
      (loads_update fun m => hnone _ p m rfl)
  | handOver p n a q l hp hpost =>
    refine hs.frame (fun _ hx => hx)
      (fun x _ => update_field Block.blockNo w.cache a (Block.release l) (fun _ => rfl) x) fun r m hr => ?_
    refine loads_update (p := p) (s := .idle) (fun m => hnone _ p m rfl) r m (loads_update (p := q) (fun m hm => ?_) r m hr)
    cases hs : update w.proc p .idle q <;> rw [hs] at hm <;> exact hm

end Moves

/-! ## Runs -/

theorem live_init (dev : ℕ → BlockData) : Live (init dev) :=
  ⟨by simp [init], by simp [init], fun _ => trivial, by simp [init, Proc.owned], by simp [init]⟩

theorem single_init (dev : ℕ → BlockData) : Single (init dev) :=
  ⟨by simp [init], by simp [init], by simp [init, Proc.loads]⟩

/-- the miss of an acquire races with no other miss on its block, and frees no struct somebody waits for -/
def Calm (w : World) : Call → Prop
  | .acquire _ n _ => findCache w.cache n = none → NoDoubleMiss w n ∧ SafeEvict w
  | _ => True

theorem calm_step (h : Live w ∧ Single w) (hc : Calm w e) (hs : step w e = some w') :
    Live w' ∧ Single w' := by
  have hm := step_move hs
  refine ⟨live_move h.1 hm fun p n fresh he hf => ?_, single_move h.1 h.2 hm fun p n fresh he hf => ?_⟩
  · subst he; exact (hc hf).2
  · subst he; exact (hc hf).1

/-- the structs of block n in the list -/
def copiesOf (w : World) (n : ℕ) : List ℕ := w.cache.list.filter fun a => (w.cache.heap a).blockNo = n

/-- **One copy, one holder.** Along every run whose misses are calm, each block has at most one struct in the list and at
most one process holds it. -/
theorem one_copy_one_holder (dev : ℕ → BlockData) (es : List Call) (w : World) (hm : Meets step Calm (init dev) es)
    (hr : run step (init dev) es = some w) (n : ℕ) :
    (copiesOf w n).length ≤ 1 ∧
      ∀ p q a b, w.proc p = .holding n a → w.proc q = .holding n b → p = q := by
  obtain ⟨h, hs⟩ := run_invariant (I := fun w => Live w ∧ Single w) (fun _ _ _ => calm_step)
    ⟨live_init dev, single_init dev⟩ hm hr
  refine ⟨?_, fun p q a b hp hq => ?_⟩
  · -- two entries of the filtered list would be one struct listed twice
    by_contra hlt
    obtain ⟨x, y, l, hl⟩ : ∃ x y l, copiesOf w n = x :: y :: l := by
      match hl : copiesOf w n with
      | [] => simp [hl] at hlt
      | [x] => simp [hl] at hlt
      | x :: y :: l => exact ⟨x, y, l, rfl⟩
    have hmem : ∀ z ∈ copiesOf w n, z ∈ w.cache.list ∧ (w.cache.heap z).blockNo = n := by simp [copiesOf]
    obtain ⟨hx, hxn⟩ := hmem x (by simp [hl])
    obtain ⟨hy, hyn⟩ := hmem y (by simp [hl])
    have hnd : (copiesOf w n).Nodup := h.nodup.filter _
    rw [hl, hs.copies x hx y hy (hxn.trans hyn.symm)] at hnd
    simp at hnd
  · have hfp := h.fits p
    have hfq := h.fits q
    rw [hp] at hfp
    rw [hq] at hfq
    have hab := hs.copies a hfp.1 b hfq.1 (hfp.2.1.trans hfq.2.1.symm)
    exact h.sole p q a (by rw [hp]; rfl) (by rw [hq, hab]; rfl)

/-- process 0 reads block 5 in, process 1 finds it held and goes to sleep -/
def holdAndWait : List Call := [.acquire 0 5 1, .read 0, .insert 0, .acquire 1 5 2, .wait 1]

/-- the one miss is the first call, on an empty cache -/
theorem holdAndWait_calm : Meets step Calm (init fun _ => Bytes.zeros) holdAndWait := by
  refine ⟨fun _ => ⟨by simp [NoDoubleMiss, init, Proc.loads], by simp [SafeEvict, init]⟩, fun w1 h1 =>
    ⟨trivial, fun w2 h2 => ⟨trivial, fun w3 h3 => ⟨?_, fun _ _ => ⟨trivial, fun _ _ => trivial⟩⟩⟩⟩⟩
  have hfound : (run step (init fun _ => Bytes.zeros) [.acquire 0 5 1, .read 0, .insert 0]).map
      (fun w => findCache w.cache 5) = some (some 1) := by decide +kernel
  simp only [run, h1, h2, h3, Option.bind_some, Option.map_some, Option.some.injEq] at hfound
  intro hnone
  rw [hfound] at hnone
  cases hnone

/-- process 1 asks for the block that process 0 holds: it sleeps, the list has one copy and nobody else holds it -/
theorem one_copy_one_holder_waiter :
    ∃ w, run step (init fun _ => Bytes.zeros) holdAndWait = some w ∧ w.proc 0 = .holding 5 1 ∧ w.proc 1 = .asleep 5 1 ∧
      (copiesOf w 5).length ≤ 1 ∧ ∀ q b, w.proc q = .holding 5 b → 0 = q := by
  obtain ⟨w, hw, hp0, hp1⟩ : ∃ w, run step (init fun _ => Bytes.zeros) holdAndWait = some w ∧
      w.proc 0 = .holding 5 1 ∧ w.proc 1 = .asleep 5 1 := run_computes (by decide +kernel)
  obtain ⟨hcopies, hholder⟩ := one_copy_one_holder _ _ w holdAndWait_calm hw 5
  exact ⟨w, hw, hp0, hp1, hcopies, fun q b hq => hholder 0 q 1 b hp0 hq⟩

/-- Each race alone breaks it. Two processes miss on block 5 and both read it in. Or process 21 sleeps on the struct of
block 5 and is woken, a miss of process 22 on the full cache frees that struct, process 23 reads block 5 in again, and then
21 takes the freed struct. -/
theorem two_copies_two_holders :
    (∃ w, run step (init fun _ => Bytes.zeros)
        [.acquire 0 5 1, .acquire 1 5 2, .read 0, .insert 0, .read 1, .insert 1] = some w ∧
      copiesOf w 5 = [1, 2] ∧ w.proc 0 = .holding 5 1 ∧ w.proc 1 = .holding 5 2) ∧
    (∃ w, run step (init fun _ => Bytes.zeros)
        (((List.range 19).flatMap fun i => [.acquire (i + 1) (100 + i) (i + 1), .read (i + 1), .insert (i + 1)]) ++
          [.acquire 20 5 20, .read 20, .insert 20, .acquire 21 5 0, .wait 21, .release 20, .acquire 22 6 23,
            .acquire 23 5 24, .read 23, .insert 23, .retake 21]) = some w ∧
      w.proc 21 = .holding 5 20 ∧ w.proc 23 = .holding 5 24) :=
  ⟨run_computes (by decide +kernel), run_computes (by decide +kernel)⟩

/-! ## The struct of a waiter -/

/-- the miss of an acquire frees no struct somebody waits for -/
def SparesWaiters (w : World) : Call → Prop
  | .acquire _ n _ => findCache w.cache n = none → SafeEvict w
  | _ => True

theorem spares_step (h : Live w) (hc : SparesWaiters w e) (hs : step w e = some w') : Live w' :=
  live_move h (step_move hs) fun p n fresh he hf => by
    subst he
    exact hc hf

/-- p is in `cache_acquire(n)` past a lookup that found the struct at a, or has returned from it with that struct -/
def Relies (w : World) (p n a : ℕ) : Prop :=
  w.proc p = .toWait n a ∨ w.proc p = .asleep n a ∨ w.proc p = .woken n a ∨ w.proc p = .holding n a

/-- **A waiter keeps its block.** Along every run whose misses spare the waiters, the struct a process has found, sleeps on,
was woken by or has been given is in the list and has the block number the process asked for. -/
theorem awaited_block_stays (dev : ℕ → BlockData) (es : List Call) (w : World)
    (hm : Meets step SparesWaiters (init dev) es) (hr : run step (init dev) es = some w) (p n a : ℕ) (hp : Relies w p n a) :
    a ∈ w.cache.list ∧ (w.cache.heap a).blockNo = n := by
  have h : Live w := run_invariant (fun _ _ _ => spares_step) (live_init dev) hm hr
  have hf := h.fits p
  rcases hp with hp | hp | hp | hp
  · rw [hp] at hf; exact hf
  · rw [hp] at hf; exact hf
  · rw [hp] at hf; exact hf
  · rw [hp] at hf; exact ⟨hf.1, hf.2.1⟩

/-- process 1 sleeps on block 5, which process 0 holds -/
theorem awaited_block_stays_asleep :
    ∃ w, run step (init fun _ => Bytes.zeros) holdAndWait = some w ∧
      w.proc 1 = .asleep 5 1 ∧ 1 ∈ w.cache.list ∧ (w.cache.heap 1).blockNo = 5 := by
  obtain ⟨w, hw, hp⟩ : ∃ w, run step (init fun _ => Bytes.zeros) holdAndWait = some w ∧ w.proc 1 = .asleep 5 1 :=
    run_computes (by decide +kernel)
  have hm : Meets step SparesWaiters (init fun _ => Bytes.zeros) holdAndWait :=
    holdAndWait_calm.mono fun w e h => by
      cases e with
      | acquire p n fresh => exact fun hf => (h hf).2
      | _ => trivial
  exact ⟨w, hw, hp, awaited_block_stays _ _ w hm hw 1 5 1 (Or.inr (Or.inl hp))⟩

/-- 20 processes fill the cache, the last one with block 5; process 21 sleeps on it and is woken; process 22 misses on block
6, which frees the struct of block 5, and `kalloc` returns the same address -/
def evictUnderWaiter : List Call :=
  ((List.range 19).flatMap fun i => [.acquire (i + 1) (100 + i) (i + 1), .read (i + 1), .insert (i + 1)]) ++
    [.acquire 20 5 20, .read 20, .insert 20, .acquire 21 5 0, .wait 21, .release 20, .acquire 22 6 20]

/-- The struct is out of the list while process 21 has been woken by it, and once process 22 has released block 6, the
`cache_acquire(5)` of process 21 returns the struct of block 6. -/
theorem awaited_block_reused :
    (∃ w, run step (init fun _ => Bytes.zeros) evictUnderWaiter = some w ∧ Relies w 21 5 20 ∧ 20 ∉ w.cache.list) ∧
    ∃ w, run step (init fun _ => Bytes.zeros)
        (evictUnderWaiter ++ [.read 22, .insert 22, .release 22, .retake 21]) = some w ∧
      w.proc 21 = .holding 5 20 ∧ (w.cache.heap 20).blockNo = 6 := by
  obtain ⟨w, hw, hwoken, hout⟩ : ∃ w, run step (init fun _ => Bytes.zeros) evictUnderWaiter = some w ∧
      w.proc 21 = .woken 5 20 ∧ 20 ∉ w.cache.list := run_computes (by decide +kernel)
  exact ⟨⟨w, hw, Or.inr (Or.inr (Or.inl hwoken)), hout⟩, run_computes (by decide +kernel)⟩

end OsKernel.Fs.CacheSys
