/-
The cache list under calls that do not overlap (`fs/cache.c`).

`CacheOk`: the list has no duplicates, `cachesize` is its length, every block number is cached at most once, and the lock
of a block tells whether it is held. Each function of the interface gets one lemma that says what it does to the list.
- `cacheAcquire_ok`: `cache_acquire` takes the cached block or reads a new one from the device (`Acquired`); whatever it
  evicts is neither pinned nor held;
- `cacheRelease_ok`: `cache_release` gives the block back;
- `wblogLoop_unpins`: `wblog` unpins the blocks it has passed and leaves everything else alone (`Unpinned`).
-/
import OsKernel.Fs.Commit

namespace OsKernel.Fs

open OsKernel.Bytes OsKernel.Sem

structure CacheOk (c : Cache) : Prop where
  nodup : c.list.Nodup
  size : c.cachesize = c.list.length
  copies : ∀ a ∈ c.list, ∀ b ∈ c.list, (c.heap a).blockNo = (c.heap b).blockNo → a = b
  /-- nobody sleeps, and the token is there unless the block is held -/
  locks : ∀ a ∈ c.list, (c.heap a).lock = ⟨if (c.heap a).acquired then 0 else 1, []⟩

theorem cacheOk_empty (heap : ℕ → Block) : CacheOk ⟨heap, [], 0⟩ := ⟨by simp, rfl, by simp, by simp⟩

namespace CacheOk

variable {c : Cache} (h : CacheOk c) {n a : ℕ}
include h

theorem find_iff : findCache c n = some a ↔ a ∈ c.list ∧ (c.heap a).blockNo = n := by
  constructor
  · exact findCache_some
  · rintro ⟨ha, rfl⟩
    cases hf : findCache c (c.heap a).blockNo with
    | none => exact absurd rfl (findCache_none hf a ha)
    | some b =>
      obtain ⟨hb, hn⟩ := findCache_some hf
      rw [h.copies b hb a ha hn]

theorem cachedData_eq (ha : a ∈ c.list) (hn : (c.heap a).blockNo = n) : cachedData c n = (c.heap a).data := by
  simp only [cachedData, h.find_iff.2 ⟨ha, hn⟩]

/-- the list is permuted and structs keep their numbers -/
theorem frame {c' : Cache} (hp : c'.list.Perm c.list) (hs : c'.cachesize = c.cachesize)
    (hb : ∀ x ∈ c.list, (c'.heap x).blockNo = (c.heap x).blockNo)
    (hl : ∀ x ∈ c.list, (c'.heap x).lock = ⟨if (c'.heap x).acquired then 0 else 1, []⟩) : CacheOk c' := by
  refine ⟨hp.nodup_iff.2 h.nodup, by rw [hs, h.size, hp.length_eq], fun x hx y hy hxy => ?_, fun x hx => ?_⟩
  · have hx := hp.mem_iff.1 hx
    have hy := hp.mem_iff.1 hy
    rw [hb x hx, hb y hy] at hxy
    exact h.copies x hx y hy hxy
  · exact hl x (hp.mem_iff.1 hx)

/-- one struct of the list is changed -/
theorem update {f : Block → Block} (hb : ∀ b, (f b).blockNo = b.blockNo)
    (hl : a ∈ c.list → (f (c.heap a)).lock = ⟨if (f (c.heap a)).acquired then 0 else 1, []⟩) : CacheOk (c.update a f) := by
  refine h.frame (List.Perm.refl _) rfl (fun x _ => update_field Block.blockNo c a f hb x) fun x hx => ?_
  by_cases hxa : x = a
  · subst hxa
    rw [update_heap_self]
    exact hl hx
  · rw [update_heap_ne _ _ hxa]
    exact h.locks x hx

theorem pin (p : Bool) : CacheOk (c.update a (Block.pin p)) :=
  h.update (fun _ => rfl) fun ha => h.locks a ha

theorem fill (d : BlockData) : CacheOk (c.update a (Block.fill d)) :=
  h.update (fun _ => rfl) fun ha => h.locks a ha

/-! ## cache_acquire -/

theorem take (ha : a ∈ c.list) (hacq : (c.heap a).acquired = false) : CacheOk (takeBlock a c) := by
  refine h.frame (takeBlock_perm ha) rfl (fun x _ => takeBlock_blockNo a c x) fun x hx => ?_
  have hlock := h.locks x hx
  by_cases hxa : x = a
  · subst hxa
    rw [hacq] at hlock
    have hself : (takeBlock x c).heap x = (c.heap x).take := update_heap_self _ _ _
    rw [hself]
    simp [Block.take, hlock, getSem]
  · have hne : (takeBlock a c).heap x = c.heap x := update_heap_ne _ _ hxa
    rw [hne]
    exact hlock

theorem room : CacheOk (makeRoom c) := by
  have hsub := (makeRoom_sublist c).subset
  refine ⟨h.nodup.sublist (makeRoom_sublist c), makeRoom_cachesize h.size, fun x hx y hy hxy => ?_, fun x hx => ?_⟩
  · rw [makeRoom_heap] at hxy
    exact h.copies x (hsub hx) y (hsub hy) hxy
  · rw [makeRoom_heap]
    exact h.locks x (hsub hx)

/-- a struct that was not in the list is set up for a block that is not cached, and inserted -/
theorem insert (ha : a ∉ c.list) (hn : ∀ b ∈ c.list, (c.heap b).blockNo ≠ n) {b : Block} (hb : b.blockNo = n)
    (hl : b.lock = ⟨if b.acquired then 0 else 1, []⟩) :
    CacheOk ⟨Function.update c.heap a b, c.list ++ [a], c.cachesize + 1⟩ := by
  have hself : Function.update c.heap a b a = b := Function.update_self _ _ _
  have hne : ∀ x ∈ c.list, Function.update c.heap a b x = c.heap x := by
    intro x hx
    have hxa : x ≠ a := fun hxa => ha (hxa ▸ hx)
    exact Function.update_of_ne hxa _ _
  refine ⟨?_, by simp [h.size], fun x hx y hy hxy => ?_, fun x hx => ?_⟩
  · exact List.nodup_append.2 ⟨h.nodup, by simp, fun x hx y hy hxy => ha (by simp_all)⟩
  · simp only [List.mem_append, List.mem_singleton] at hx hy
    rcases hx with hx | rfl
    · rcases hy with hy | rfl
      · simp only [hne x hx, hne y hy] at hxy
        exact h.copies x hx y hy hxy
      · simp only [hne x hx, hself, hb] at hxy
        exact absurd hxy (hn x hx)
    · rcases hy with hy | rfl
      · simp only [hne y hy, hself, hb] at hxy
        exact absurd hxy.symm (hn y hy)
      · rfl
  · simp only [List.mem_append, List.mem_singleton] at hx
    rcases hx with hx | rfl
    · simp only [hne x hx]
      exact h.locks x hx
    · simp only [hself]
      exact hl

end CacheOk

/-- what `cache_acquire(n)` has done when it returns struct a; d is the device -/
structure Acquired (d : ℕ → BlockData) (c : Cache) (n a : ℕ) (c' : Cache) : Prop where
  ok : CacheOk c'
  mem : a ∈ c'.list
  number : (c'.heap a).blockNo = n
  taken : (c'.heap a).acquired = true
  others : ∀ b ∈ c'.list, b ≠ a → b ∈ c.list ∧ c'.heap b = c.heap b
  kept : ∀ b ∈ c.list, (c.heap b).pinned = true ∨ (c.heap b).acquired = true → b ∈ c'.list
  before : (a ∈ c.list ∧ (c.heap a).blockNo = n ∧ (c.heap a).acquired = false ∧ (c'.heap a).data = (c.heap a).data ∧
      (c'.heap a).pinned = (c.heap a).pinned) ∨
    (a ∉ c.list ∧ (∀ b ∈ c.list, (c.heap b).blockNo ≠ n) ∧ (c'.heap a).data = d n)

theorem cacheAcquire_cases {m m' : Machine} {n a : ℕ} (h : cacheAcquire n m = .ok a m') :
    (findCache m.cache n = some a ∧ (m.cache.heap a).acquired = false ∧ m' = { m with cache := takeBlock a m.cache }) ∨
    (findCache m.cache n = none ∧ a = freshAddr m.cache ∧ m' = { m with
      cache := insertRegion a (readRegion a (m.dev.blocks n) ((makeRoom m.cache).update a fun _ => newBlock n)) }) := by
  cases hf : findCache m.cache n with
  | none =>
    have hrun : cacheAcquire n m = .ok (freshAddr m.cache) { m with
        cache := insertRegion (freshAddr m.cache) (readRegion (freshAddr m.cache) (m.dev.blocks n)
          ((makeRoom m.cache).update (freshAddr m.cache) fun _ => newBlock n)) } := by
      simp [cacheAcquire, acquireRegion, hf]
    rw [hrun] at h
    cases h
    exact Or.inr ⟨rfl, rfl, rfl⟩
  | some b =>
    cases hacq : (m.cache.heap b).acquired with
    | true => simp [cacheAcquire, acquireRegion, hf, hacq] at h
    | false =>
      have hrun : cacheAcquire n m = .ok b { m with cache := takeBlock b m.cache } := by
        simp [cacheAcquire, acquireRegion, hf, hacq]
      rw [hrun] at h
      cases h
      exact Or.inl ⟨rfl, hacq, rfl⟩

theorem acquired_hit {d : ℕ → BlockData} {c : Cache} {n a : ℕ} (hc : CacheOk c) (hf : findCache c n = some a)
    (hacq : (c.heap a).acquired = false) : Acquired d c n a (takeBlock a c) := by
  obtain ⟨ha, hn⟩ := findCache_some hf
  have hperm := takeBlock_perm ha
  have hself : (takeBlock a c).heap a = (c.heap a).take := update_heap_self _ _ _
  refine ⟨hc.take ha hacq, hperm.mem_iff.2 ha, by rw [hself]; exact hn, by rw [hself]; rfl, fun b hb hba => ?_,
    fun b hb _ => hperm.mem_iff.2 hb, Or.inl ⟨ha, hn, hacq, by rw [hself]; rfl, by rw [hself]; rfl⟩⟩
  exact ⟨hperm.mem_iff.1 hb, update_heap_ne _ _ hba⟩

theorem acquired_miss {d : ℕ → BlockData} {c : Cache} {n a : ℕ} (hc : CacheOk c) (hf : findCache c n = none)
    (ha : a ∉ c.list) :
    Acquired d c n a (insertRegion a (readRegion a (d n) ((makeRoom c).update a fun _ => newBlock n))) := by
  have hn := findCache_none hf
  have hsub := (makeRoom_sublist c).subset
  have hroom : a ∉ (makeRoom c).list := fun hx => ha (hsub hx)
  set b : Block := Block.load (Block.fill (d n) (newBlock n)) with hb
  have heq : insertRegion a (readRegion a (d n) ((makeRoom c).update a fun _ => newBlock n)) =
      ⟨Function.update (makeRoom c).heap a b, (makeRoom c).list ++ [a], (makeRoom c).cachesize + 1⟩ := by
    simp [insertRegion, readRegion, Cache.update, hb]
  rw [heq]
  have hself : Function.update (makeRoom c).heap a b a = b := Function.update_self _ _ _
  refine ⟨hc.room.insert hroom (fun x hx => by rw [makeRoom_heap]; exact hn x (hsub hx)) rfl
    (by simp [hb, Block.load, Block.fill, newBlock, initBlock, initSleeplock, initSem, getSem]), by simp,
    by simp only [hself]; rfl, by simp only [hself]; rfl, fun x hx hxa => ?_, fun x hx hkeep => ?_,
    Or.inr ⟨ha, hn, by simp only [hself]; rfl⟩⟩
  · have hx : x ∈ (makeRoom c).list := by simpa [hxa] using hx
    refine ⟨hsub hx, ?_⟩
    rw [← makeRoom_heap c]
    exact Function.update_of_ne hxa _ _
  · refine List.mem_append_left _ ?_
    by_contra hgone
    obtain ⟨-, hpin, hacq, -⟩ := makeRoom_dropped hx hgone
    rcases hkeep with hk | hk
    · exact absurd (hpin.symm.trans hk) (by decide)
    · exact absurd (hacq.symm.trans hk) (by decide)

theorem cacheAcquire_ok {m m' : Machine} {n a : ℕ} (hc : CacheOk m.cache) (h : cacheAcquire n m = .ok a m') :
    m' = { m with cache := m'.cache } ∧ Acquired m.dev.blocks m.cache n a m'.cache := by
  rcases cacheAcquire_cases h with ⟨hf, hacq, rfl⟩ | ⟨hf, rfl, rfl⟩
  · exact ⟨rfl, acquired_hit hc hf hacq⟩
  · exact ⟨rfl, acquired_miss hc hf (freshAddr_notMem _)⟩

/-! ## cache_release -/

theorem cacheRelease_ok {m m' : Machine} {a : ℕ} (hc : CacheOk m.cache) (ha : a ∈ m.cache.list)
    (h : cacheRelease a m = .ok () m') :
    CacheOk m'.cache ∧ m' = { m with cache := m.cache.update a (Block.release ⟨1, []⟩) } := by
  rcases cacheRelease_cases m a with hp | ⟨w, l, hpost, hacq, hrun⟩
  · rw [hp] at h
    cases h
  · have hlock := hc.locks a ha
    rw [hacq] at hlock
    rw [hlock] at hpost
    have hl : l = ⟨1, []⟩ := by
      simp only [postSem] at hpost
      simpa using (congrArg Prod.snd (Option.some.inj hpost)).symm
    subst hl
    rw [hrun] at h
    cases h
    exact ⟨hc.update (fun _ => rfl) fun _ => rfl, rfl⟩

/-! ## wblog -/

/-- c' is c with some blocks unpinned, all of them with numbers in S; the list may have been reordered -/
structure Unpinned (S : ℕ → Prop) (c c' : Cache) : Prop where
  perm : c'.list.Perm c.list
  size : c'.cachesize = c.cachesize
  same : ∀ x, ∃ p, c'.heap x = (c.heap x).pin p
  kept : ∀ x, ¬ S (c.heap x).blockNo → c'.heap x = c.heap x

theorem Unpinned.refl (c : Cache) : Unpinned (fun _ => False) c c :=
  ⟨List.Perm.refl _, rfl, fun x => ⟨(c.heap x).pinned, rfl⟩, fun _ _ => rfl⟩

theorem Unpinned.blockNo {S : ℕ → Prop} {c c' : Cache} (h : Unpinned S c c') (x : ℕ) :
    (c'.heap x).blockNo = (c.heap x).blockNo := by
  obtain ⟨p, hp⟩ := h.same x
  rw [hp]
  rfl

theorem Unpinned.trans {S T U : ℕ → Prop} {c c' c'' : Cache} (h : Unpinned S c c') (h' : Unpinned T c' c'')
    (hS : ∀ n, S n → U n) (hT : ∀ n, T n → U n) : Unpinned U c c'' := by
  refine ⟨h'.perm.trans h.perm, h'.size.trans h.size, fun x => ?_, fun x hx => ?_⟩
  · obtain ⟨p, hp⟩ := h.same x
    obtain ⟨q, hq⟩ := h'.same x
    exact ⟨q, by rw [hq, hp]; rfl⟩
  · rw [h'.kept x fun ht => hx (hT _ (h.blockNo x ▸ ht)), h.kept x fun hs => hx (hS _ hs)]

theorem Unpinned.ok {S : ℕ → Prop} {c c' : Cache} (h : Unpinned S c c') (hc : CacheOk c) : CacheOk c' := by
  refine hc.frame h.perm h.size (fun x _ => h.blockNo x) fun x hx => ?_
  obtain ⟨p, hp⟩ := h.same x
  rw [hp]
  exact hc.locks x hx

/-- a turn of `wblog` that returns has unpinned its block -/
theorem wblogBody_unpins {sb : SuperBlock} {s t : Machine} {i n : ℕ} (hc : CacheOk s.cache)
    (he : s.log.header.entry i = some n) (hp : ∃ a ∈ s.cache.list, (s.cache.heap a).blockNo = n)
    (h : wblogBody sb i s = .ok () t) :
    t = { s with dev := t.dev, cache := t.cache } ∧ Unpinned (· = n) s.cache t.cache := by
  obtain ⟨a, ha, hn⟩ := hp
  have hf := hc.find_iff.2 ⟨ha, hn⟩
  have hlock := hc.locks a ha
  cases hacq : (s.cache.heap a).acquired with
  | true => simp [wblogBody, headerEntry, he, cacheAcquire, acquireRegion, hf, hacq] at h
  | false =>
    have hperm := takeBlock_perm ha
    have hok : CacheOk ((takeBlock a s.cache).update a (Block.pin false)) := (hc.take ha hacq).pin false
    rw [wblogBody_hit sb he hf hacq] at h
    obtain ⟨-, rfl⟩ := cacheRelease_ok hok (hperm.mem_iff.2 ha) h
    rw [hacq] at hlock
    refine ⟨rfl, hperm, rfl, fun x => ?_, fun x hx => ?_⟩
    · by_cases hxa : x = a
      · -- taken and released again: only the pin is gone
        subst hxa
        refine ⟨false, ?_⟩
        have hself : (takeBlock x s.cache).heap x = (s.cache.heap x).take := update_heap_self _ _ _
        rw [update_heap_self, update_heap_self, hself]
        simp [Block.release, Block.pin, Block.take, hacq, hlock]
      · refine ⟨(s.cache.heap x).pinned, ?_⟩
        rw [update_heap_ne _ _ hxa, update_heap_ne _ _ hxa]
        exact update_heap_ne _ _ hxa
    · have hxa : x ≠ a := fun hxa => hx (hxa ▸ hn)
      rw [update_heap_ne _ _ hxa, update_heap_ne _ _ hxa]
      exact update_heap_ne _ _ hxa

/-- **The loop of wblog.** When it has passed the slots `is`, only their blocks have been unpinned. -/
theorem wblogLoop_unpins {sb : SuperBlock} {is : List ℕ} {s t : Machine} (hc : CacheOk s.cache)
    (hp : ∀ i ∈ is, ∃ n, s.log.header.entry i = some n ∧ ∃ a ∈ s.cache.list, (s.cache.heap a).blockNo = n)
    (h : is.forM (wblogBody sb) s = .ok () t) :
    t = { s with dev := t.dev, cache := t.cache } ∧
      Unpinned (fun n => ∃ i ∈ is, s.log.header.entry i = some n) s.cache t.cache := by
  induction is generalizing s with
  | nil =>
    have hts : t = s := by simpa using h.symm
    subst hts
    have hr := Unpinned.refl t.cache
    exact ⟨rfl, hr.perm, hr.size, hr.same, fun x _ => rfl⟩
  | cons i is ih =>
    obtain ⟨n, he, hcached⟩ := hp i List.mem_cons_self
    cases hb : wblogBody sb i s with
    | error e u => rw [forM_cons_error is hb] at h; cases h
    | ok x u =>
      rw [forM_cons_ok is hb] at h
      obtain ⟨hfr, hun⟩ := wblogBody_unpins hc he hcached hb
      have hlog : u.log = s.log := by rw [hfr]
      have hp' : ∀ j ∈ is, ∃ m, u.log.header.entry j = some m ∧ ∃ a ∈ u.cache.list, (u.cache.heap a).blockNo = m := by
        intro j hj
        obtain ⟨m, hm, a, ha, hn⟩ := hp j (List.mem_cons_of_mem i hj)
        exact ⟨m, by rw [hlog]; exact hm, a, hun.perm.mem_iff.2 ha, by rw [hun.blockNo]; exact hn⟩
      obtain ⟨hfr', hun'⟩ := ih (hun.ok hc) hp' h
      rw [hlog] at hun'
      refine ⟨by rw [hfr', hfr], hun.trans hun' ?_ ?_⟩
      · rintro m rfl
        exact ⟨i, List.mem_cons_self, he⟩
      · rintro m ⟨j, hj, hm⟩
        exact ⟨j, List.mem_cons_of_mem i hj, hm⟩

end OsKernel.Fs
