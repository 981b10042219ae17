/-
The block cache (`fs/cache.c`).

`Block` structs live in a heap indexed by their address; the cache list holds addresses from `head.next` (least recently
used) to `head.prev`. Each stretch of code the source runs with the cache spinlock held is one pure function on `Cache`
(`acquireRegion`, `retakeRegion`, `insertRegion`, `releaseRegion`), and each stretch under `log.lock` one on `Log`
(`admits`, `syncRegion`, `endRegion`), so that the interleaving models take them as their steps. The functions of the
`BlockCache` interface below them compose the regions for a caller that runs alone, in the monad `Kernel`:
- `CacheStop.panic`: the source reaches `PANIC()` or a failing `ASSERT`;
- `CacheStop.sleep`: the call sleeps, and with nobody else running it does not return;
- `CacheStop.wild`: an array is accessed outside its bounds.
The state at the stop is kept. The device records the writes issued to it, in order (`Device.writes`).
-/
import OsKernel.Common.Sem
import OsKernel.Fs.Defines

namespace OsKernel.Fs

open OsKernel.Bytes OsKernel.Sem

/-! ## Blocks and the cache list -/

/-- `Block` -/
structure Block where
  blockNo : ℕ
  acquired : Bool
  pinned : Bool
  lock : Semaphore
  valid : Bool
  data : BlockData
  ref : ℕ

/-- `init_block` -/
def initBlock : Block := ⟨0, false, false, initSleeplock, false, zeros, 0⟩

/-- `get_sem(&b->lock); b->acquired = TRUE; b->ref++`; the result of `get_sem` is ignored -/
def Block.take (b : Block) : Block := { b with lock := (getSem b.lock).2, acquired := true, ref := b.ref + 1 }

/-- `b->pinned = p` -/
def Block.pin (p : Bool) (b : Block) : Block := { b with pinned := p }

/-- what a release writes; l is the semaphore after the post -/
def Block.release (l : Semaphore) (b : Block) : Block := { b with acquired := false, ref := b.ref - 1, lock := l }

/-- `b->valid = TRUE; b->ref++` -/
def Block.load (b : Block) : Block := { b with valid := true, ref := b.ref + 1 }

/-- `memcpy(b->data, d, BLOCK_SIZE)` -/
def Block.fill (d : BlockData) (b : Block) : Block := { b with data := d }

/-- what the cache spinlock protects: block structs by address, the list from `head.next` on, and `cachesize` -/
structure Cache where
  heap : ℕ → Block
  list : List ℕ
  cachesize : ℕ

/-- write to the struct at address a -/
def Cache.update (c : Cache) (a : ℕ) (f : Block → Block) : Cache :=
  { c with heap := Function.update c.heap a (f (c.heap a)) }

/-- `find_cache` -/
def findCache (c : Cache) (n : ℕ) : Option ℕ := c.list.find? fun a => (c.heap a).blockNo = n

/-- `recently_used`: detach, then insert before the head -/
def recentlyUsed (a : ℕ) (c : Cache) : Cache := { c with list := c.list.erase a ++ [a] }

/-- the test `evict` makes before it frees a block -/
def Evictable (b : Block) : Prop := b.pinned = false ∧ b.acquired = false ∧ b.ref = 0

instance (b : Block) : Decidable (Evictable b) := by unfold Evictable; infer_instance

/-- the walk of `evict` over the list: `kept` is the part already passed. Freeing the first node sets the loop
variable to the list head, and the loop's own increment then ends it. -/
def evictLoop (heap : ℕ → Block) : List ℕ → List ℕ → ℕ → List ℕ × ℕ
  | kept, [], size => (kept, size)
  | kept, a :: rest, size =>
    if Evictable (heap a) then
      if size - 1 < evictionThreshold then (kept ++ rest, size - 1)
      else if kept = [] then (rest, size - 1)
      else evictLoop heap kept rest (size - 1)
    else evictLoop heap (kept ++ [a]) rest size

/-- `evict`; its result is not used by its caller -/
def evict (c : Cache) : Cache :=
  let r := evictLoop c.heap [] c.list c.cachesize
  { c with list := r.1, cachesize := r.2 }

/-! ## Regions under the cache spinlock -/

/-- how the first region of `cache_acquire` ends: the block is taken, is held by another process, or must be read -/
inductive Acq where
  | hit (a : ℕ)
  | wait (a : ℕ)
  | miss (a : ℕ)
deriving DecidableEq, Repr

/-- a free block is taken and becomes the most recently used -/
def takeBlock (a : ℕ) (c : Cache) : Cache := recentlyUsed a (c.update a Block.take)

/-- the struct a miss allocates: initialised, locked, not yet read -/
def newBlock (n : ℕ) : Block :=
  { initBlock with lock := (getSem initBlock.lock).2, acquired := true, blockNo := n }

/-- the eviction a miss makes first -/
def makeRoom (c : Cache) : Cache := if evictionThreshold ≤ c.cachesize then evict c else c

/-- the first region of `cache_acquire(n)`; `fresh` is the address `kalloc` would return -/
def acquireRegion (n fresh : ℕ) (c : Cache) : Acq × Cache :=
  match findCache c n with
  | some a => if (c.heap a).acquired then (.wait a, c) else (.hit a, takeBlock a c)
  | none =>
    (.miss fresh, (makeRoom c).update fresh fun _ => newBlock n)

/-- the region after a sleep on `b->lock`: one turn of the loop, and the code behind it when the loop ends -/
def retakeRegion (a : ℕ) (c : Cache) : Acq × Cache :=
  if (getSem (c.heap a).lock).1 ∨ (c.heap a).acquired = false then (.hit a, takeBlock a c) else (.wait a, c)

/-- `device_read(b)` -/
def readRegion (a : ℕ) (d : BlockData) (c : Cache) : Cache := c.update a (Block.fill d)

/-- the last region of a miss -/
def insertRegion (a : ℕ) (c : Cache) : Cache :=
  let c := c.update a Block.load
  { c with list := c.list ++ [a], cachesize := c.cachesize + 1 }

/-- the region of `cache_release`: the process it wakes, if any -/
def releaseRegion (a : ℕ) (c : Cache) : Option (Option ℕ × Cache) :=
  match postSem (c.heap a).lock with
  | none => none
  | some (w, l) => some (w, c.update a (Block.release l))

/-! ## Regions under log.lock -/

/-- what `log.lock` protects: the in-memory header and the counters of `log` -/
structure Log where
  header : LogHeader
  numOps : ℕ
  /-- `blocks_allocated_but_unused` -/
  unused : ℕ
  committing : Bool

/-- `LOG_MAX` of `cache_begin_op`; the subtraction is u32 -/
def logMax (sb : SuperBlock) : ℕ := min logMaxSize (sb.numBlocks - 1).toNat

/-- the negation of the loop test of `cache_begin_op` -/
def Admits (sb : SuperBlock) (l : Log) : Prop :=
  addU (addU l.unused opMaxNumBlocks) l.header.numBlocks ≤ logMax sb ∧ l.committing = false

instance (sb : SuperBlock) (l : Log) : Decidable (Admits sb l) := by unfold Admits; infer_instance

/-- the region of `cache_begin_op` behind its loop -/
def beginRegion (l : Log) : Log :=
  { l with unused := addU l.unused opMaxNumBlocks, numOps := addU l.numOps 1 }

inductive CacheStop where
  | panic
  | sleep
  | wild
deriving DecidableEq, Repr

/-- the region of `cache_sync`: the new `ctx->rm` and whether a log block was opened for n -/
def syncRegion (n rm : ℕ) (l : Log) : Except CacheStop (ℕ × Bool × Log) :=
  if n ∈ l.header.listed then .ok (rm, false, l)
  else if rm = 0 then .error .panic
  else
    let count := addU l.header.numBlocks 1
    match { l.header with numBlocks := count }.store (subU count 1) n with
    | none => .error .wild
    | some h => .ok (subU rm 1, true, { l with header := h, unused := subU l.unused 1 })

/-- the first region of `cache_end_op`, up to the test of `log.committing` -/
def endRegion (rm : ℕ) (l : Log) : Log :=
  let l := { l with numOps := subU l.numOps 1, unused := subU l.unused rm }
  if l.numOps = 0 then { l with committing := true } else l

/-! ## The interface, for a caller that runs alone -/

/-- the block device: contents, and the writes issued so far in order -/
structure Device where
  blocks : ℕ → BlockData
  writes : List (ℕ × BlockData)

/-- `device->write` -/
def Device.write (d : Device) (n : ℕ) (x : BlockData) : Device :=
  ⟨Function.update d.blocks n x, d.writes ++ [(n, x)]⟩

/-- the state of cache.c, the device behind it and the operation contexts of its callers -/
structure Machine where
  dev : Device
  cache : Cache
  log : Log
  /-- `ctx->rm` by address of the context -/
  rm : ℕ → ℕ

abbrev Kernel := EStateM CacheStop Machine

/-- an address no block of the list has -/
def freshAddr (c : Cache) : ℕ := c.list.foldr max 0 + 1

/-- `get_num_cached_blocks` -/
def getNumCachedBlocks : Kernel ℕ := do return (← get).cache.cachesize

/-- `cache_acquire` -/
def cacheAcquire (n : ℕ) : Kernel ℕ := do
  let s ← get
  match acquireRegion n (freshAddr s.cache) s.cache with
  | (.hit a, c) => set { s with cache := c }; return a
  | (.wait _, _) => throw .sleep
  | (.miss a, c) => set { s with cache := insertRegion a (readRegion a (s.dev.blocks n) c) }; return a

/-- `cache_release` -/
def cacheRelease (a : ℕ) : Kernel Unit := do
  let s ← get
  if (s.cache.heap a).acquired = false then throw .panic
  match releaseRegion a s.cache with
  | none => throw .panic
  | some (_, c) => set { s with cache := c }

/-- `device->write` -/
def deviceWrite (n : ℕ) (x : BlockData) : Kernel Unit := modify fun s => { s with dev := s.dev.write n x }

/-- `write_header` -/
def writeHeader (sb : SuperBlock) : Kernel Unit := do
  deviceWrite sb.logStart.toNat (encode (← get).log.header)

/-- `read_header` -/
def readHeader (sb : SuperBlock) : Kernel Unit :=
  modify fun s => { s with log := { s.log with header := decode (s.dev.blocks sb.logStart.toNat) } }

/-- `header.block_no[i]` -/
def headerEntry (i : ℕ) : Kernel ℕ := do
  match (← get).log.header.entry i with
  | none => throw .wild
  | some n => return n

/-- the body of `wblog`'s loop -/
def wblogBody (sb : SuperBlock) (i : ℕ) : Kernel Unit := do
  let n ← headerEntry i
  let a ← cacheAcquire n
  deviceWrite (logSlot sb i) ((← get).cache.heap a).data
  modify fun s => { s with cache := s.cache.update a (Block.pin false) }
  cacheRelease a

/-- `wblog` -/
def wblog (sb : SuperBlock) : Kernel Unit := do
  let s ← get
  (List.range s.log.header.numBlocks).forM (wblogBody sb)

/-- the body of `create_checkpoint`'s loop -/
def checkpointBody (sb : SuperBlock) (i : ℕ) : Kernel Unit := do
  let n ← headerEntry i
  deviceWrite n ((← get).dev.blocks (logSlot sb i))

/-- `create_checkpoint` -/
def createCheckpoint (sb : SuperBlock) : Kernel Unit := do
  let s ← get
  (List.range s.log.header.numBlocks).forM (checkpointBody sb)
  modify fun s => { s with log := { s.log with header := { s.log.header with numBlocks := 0 } } }

/-- the part of `init_bcache` behind the initialisers -/
def restoreLog (sb : SuperBlock) : Kernel Unit := do
  readHeader sb
  createCheckpoint sb
  writeHeader sb

/-- memory at boot: the static variables of cache.c are zero, `init_bcache` sets up the list and the counters -/
def boot (d : ℕ → BlockData) : Machine where
  dev := ⟨d, []⟩
  cache := ⟨fun _ => initBlock, [], 0⟩
  log := ⟨⟨0, fun _ => 0⟩, 0, 0, false⟩
  rm := fun _ => 0

/-- `init_bcache` on a device with contents d -/
def initBcache (sb : SuperBlock) (d : ℕ → BlockData) : EStateM.Result CacheStop Machine Unit := restoreLog sb (boot d)

/-- `cache_begin_op` -/
def cacheBeginOp (sb : SuperBlock) (ctx : ℕ) : Kernel Unit := do
  let s ← get
  if Admits sb s.log then
    set { s with log := beginRegion s.log, rm := Function.update s.rm ctx opMaxNumBlocks }
  else throw .sleep

/-- `cache_sync`; a NULL context writes through -/
def cacheSync (ctx : Option ℕ) (a : ℕ) : Kernel Unit := do
  let s ← get
  let b := s.cache.heap a
  match ctx with
  | none => deviceWrite b.blockNo b.data
  | some x =>
    match syncRegion b.blockNo (s.rm x) s.log with
    | .error e => throw e
    | .ok (rm, opened, l) =>
      set { s with
        log := l, rm := Function.update s.rm x rm,
        cache := if opened then s.cache.update a (Block.pin true) else s.cache }

/-- the commit of `cache_end_op`, run by the last operation of the batch -/
def commit (sb : SuperBlock) : Kernel Unit := do
  wblog sb
  writeHeader sb
  createCheckpoint sb
  writeHeader sb
  modify fun s => { s with log := { s.log with committing := false } }

/-- `cache_end_op` -/
def cacheEndOp (sb : SuperBlock) (ctx : ℕ) : Kernel Unit := do
  modify fun s => { s with log := endRegion (s.rm ctx) s.log }
  if (← get).log.committing then commit sb else throw .sleep

/-! ## Running a kernel function -/

section Run

variable {α β : Type} (s : Machine)

@[simp] theorem bind_run (x : Kernel α) (f : α → Kernel β) :
    (x >>= f) s = match x s with
      | .ok a s' => f a s'
      | .error e s' => .error e s' := by
  cases h : x s <;> simp [bind, EStateM.bind, h]

@[simp] theorem map_run (f : α → β) (x : Kernel α) :
    (f <$> x) s = match x s with
      | .ok a s' => .ok (f a) s'
      | .error e s' => .error e s' := by
  cases h : x s <;> simp [Functor.map, EStateM.map, h]

@[simp] theorem pure_run (a : α) : (pure a : Kernel α) s = .ok a s := rfl

@[simp] theorem get_run : (get : Kernel Machine) s = .ok s s := rfl

@[simp] theorem set_run (t : Machine) : (set t : Kernel PUnit) s = .ok ⟨⟩ t := rfl

@[simp] theorem modify_run (f : Machine → Machine) : (modify f : Kernel PUnit) s = .ok ⟨⟩ (f s) := rfl

@[simp] theorem throw_run (e : CacheStop) : (throw e : Kernel α) s = .error e s := rfl

end Run

theorem forM_cons_ok {α : Type} {f : α → Kernel PUnit} {x : α} {s t : Machine} (xs : List α) (h : f x s = .ok ⟨⟩ t) :
    (x :: xs).forM f s = xs.forM f t := by
  simp [h]

theorem forM_cons_error {α : Type} {f : α → Kernel PUnit} {x : α} {s t : Machine} {e : CacheStop} (xs : List α)
    (h : f x s = .error e t) : (x :: xs).forM f s = .error e t := by
  simp [h]

/-- the state a kernel function ends in, whether it returns or stops -/
def finalState {α : Type} : EStateM.Result CacheStop Machine α → Machine
  | .ok _ s => s
  | .error _ s => s

/-! ## The cache list -/

@[simp] theorem update_list (c : Cache) (a : ℕ) (f : Block → Block) : (c.update a f).list = c.list := rfl

@[simp] theorem update_cachesize (c : Cache) (a : ℕ) (f : Block → Block) : (c.update a f).cachesize = c.cachesize := rfl

@[simp] theorem update_heap_self (c : Cache) (a : ℕ) (f : Block → Block) : (c.update a f).heap a = f (c.heap a) := by
  simp [Cache.update]

theorem update_heap_ne (c : Cache) {a x : ℕ} (f : Block → Block) (h : x ≠ a) : (c.update a f).heap x = c.heap x := by
  simp [Cache.update, h]

/-- a field that an update leaves alone is unchanged at every address -/
theorem update_field {γ : Type} (g : Block → γ) (c : Cache) (a : ℕ) (f : Block → Block) (h : ∀ b, g (f b) = g b)
    (x : ℕ) : g ((c.update a f).heap x) = g (c.heap x) := by
  by_cases hx : x = a
  · subst hx; simp [h]
  · rw [update_heap_ne c f hx]

theorem findCache_some {c : Cache} {n a : ℕ} (h : findCache c n = some a) : a ∈ c.list ∧ (c.heap a).blockNo = n :=
  ⟨List.mem_of_find?_eq_some h, by simpa using List.find?_some h⟩

theorem findCache_none {c : Cache} {n : ℕ} (h : findCache c n = none) : ∀ a ∈ c.list, (c.heap a).blockNo ≠ n := by
  intro a ha
  simpa using List.find?_eq_none.1 h a ha

theorem findCache_congr {c c' : Cache} (hl : c'.list = c.list) (hb : ∀ x, (c'.heap x).blockNo = (c.heap x).blockNo)
    (n : ℕ) : findCache c' n = findCache c n := by
  simp only [findCache, hl, hb]

/-- moving a block to the end of the list does not change which block is found for another number -/
theorem findCache_recentlyUsed {c : Cache} {a n : ℕ} (h : (c.heap a).blockNo ≠ n) :
    findCache (recentlyUsed a c) n = findCache c n := by
  have herase : ∀ l : List ℕ, (l.erase a).find? (fun x => (c.heap x).blockNo = n) =
      l.find? (fun x => (c.heap x).blockNo = n) := by
    intro l
    induction l with
    | nil => rfl
    | cons x l ih =>
      by_cases hx : x = a
      · subst hx; simp [h]
      · rw [List.erase_cons_tail (by simpa using hx)]
        simp only [List.find?_cons, ih]
  show (c.list.erase a ++ [a]).find? (fun x => (c.heap x).blockNo = n) = _
  rw [List.find?_append, herase]
  simp [findCache, h]

theorem takeBlock_perm {c : Cache} {a : ℕ} (ha : a ∈ c.list) : (takeBlock a c).list.Perm c.list :=
  (List.perm_append_singleton a (c.list.erase a)).trans (List.perm_cons_erase ha).symm

theorem freshAddr_notMem (c : Cache) : freshAddr c ∉ c.list := by
  have hle : ∀ (l : List ℕ), ∀ a ∈ l, a ≤ l.foldr max 0 := by
    intro l
    induction l with
    | nil => simp
    | cons x l ih =>
      intro a ha
      rcases List.mem_cons.1 ha with rfl | ha
      · exact le_max_left _ _
      · exact (ih a ha).trans (le_max_right _ _)
  intro h
  exact absurd (hle c.list _ h) (by simp [freshAddr])

/-! ## Eviction -/

/-- the walk of `evict` drops only evictable blocks of the part still ahead, and the size follows the list -/
theorem evictLoop_spec (heap : ℕ → Block) (rest kept : List ℕ) (size : ℕ) :
    (evictLoop heap kept rest size).1.Sublist (kept ++ rest) ∧
    (∀ a ∈ kept ++ rest, a ∉ (evictLoop heap kept rest size).1 → Evictable (heap a)) ∧
    (size = (kept ++ rest).length → (evictLoop heap kept rest size).2 = (evictLoop heap kept rest size).1.length) := by
  induction rest generalizing kept size with
  | nil => exact ⟨by simp [evictLoop], fun a ha hn => by simp [evictLoop] at ha hn; exact absurd ha hn, by simp [evictLoop]⟩
  | cons x rest ih =>
    have hdrop : (kept ++ rest).Sublist (kept ++ x :: rest) := (List.sublist_cons_self x rest).append_left kept
    have hsize : size = (kept ++ x :: rest).length → size - 1 = (kept ++ rest).length := by
      intro h
      simp only [List.length_append, List.length_cons] at h ⊢
      omega
    by_cases hx : Evictable (heap x)
    · -- x is dropped; whatever else goes is dropped from kept ++ rest
      have hgone : ∀ l : List ℕ, (∀ a ∈ kept ++ rest, a ∉ l → Evictable (heap a)) →
          ∀ a ∈ kept ++ x :: rest, a ∉ l → Evictable (heap a) := by
        intro l hl a ha hn
        rcases List.mem_append.1 ha with ha | ha
        · exact hl a (List.mem_append_left _ ha) hn
        · rcases List.mem_cons.1 ha with rfl | ha
          · exact hx
          · exact hl a (List.mem_append_right _ ha) hn
      have hstop : ∀ a ∈ kept ++ rest, a ∉ kept ++ rest → Evictable (heap a) := fun a ha hn => absurd ha hn
      by_cases hlt : size - 1 < evictionThreshold
      · simp only [evictLoop, if_pos hx, if_pos hlt]
        exact ⟨hdrop, hgone _ hstop, hsize⟩
      · by_cases hk : kept = []
        · subst hk
          simp only [evictLoop, if_pos hx, if_neg hlt, if_true]
          exact ⟨hdrop, hgone _ hstop, hsize⟩
        · simp only [evictLoop, if_pos hx, if_neg hlt, if_neg hk]
          obtain ⟨h1, h2, h3⟩ := ih kept (size - 1)
          exact ⟨h1.trans hdrop, hgone _ h2, fun h => h3 (hsize h)⟩
    · simp only [evictLoop, if_neg hx]
      simpa using ih (kept ++ [x]) size

theorem makeRoom_heap (c : Cache) : (makeRoom c).heap = c.heap := by
  unfold makeRoom evict
  split_ifs <;> rfl

theorem makeRoom_sublist (c : Cache) : (makeRoom c).list.Sublist c.list := by
  unfold makeRoom
  split_ifs
  · exact (evictLoop_spec c.heap c.list [] c.cachesize).1
  · exact List.Sublist.refl _

/-- a miss frees a block only when the cache is full and the block is evictable -/
theorem makeRoom_dropped {c : Cache} {a : ℕ} (ha : a ∈ c.list) (hn : a ∉ (makeRoom c).list) :
    evictionThreshold ≤ c.cachesize ∧ Evictable (c.heap a) := by
  unfold makeRoom at hn
  split_ifs at hn with hfull
  · exact ⟨hfull, (evictLoop_spec c.heap c.list [] c.cachesize).2.1 a ha hn⟩
  · exact absurd ha hn

theorem makeRoom_cachesize {c : Cache} (h : c.cachesize = c.list.length) :
    (makeRoom c).cachesize = (makeRoom c).list.length := by
  unfold makeRoom
  split_ifs
  · exact (evictLoop_spec c.heap c.list [] c.cachesize).2.2 h
  · exact h

end OsKernel.Fs
