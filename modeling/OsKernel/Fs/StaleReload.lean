/-
A commit beside other users of the cache (`wblog`, `write_header`, `create_checkpoint` against `cache_acquire`, `evict`).

The committer c is one process of `CacheSys`; it acquires each listed block in turn, writes it to its log slot, clears
`pinned` and releases it, then writes the header, installs the slots and clears the header. Each device write is a step of
its own, and between any two steps the other processes, which run no atomic operation, acquire and release blocks.

From the moment `wblog` clears `pinned` until `create_checkpoint` has written the block home, nothing keeps it in the cache
although its home location is out of date (`Pending`). Results: `no_stale_reload` (along every run that evicts no pending
block, every load gets the content last released) and `stale_reload` (otherwise a load may get the old content).
-/
import OsKernel.Fs.OneHolder

namespace OsKernel.Fs.CommitRace

open OsKernel.Sem OsKernel.Runs OsKernel.Fs.CacheSys
open Function (update update_eq_self update_of_ne update_self)

/-- how far the committer has come -/
inductive Pos where
  /-- in `wblog`, about to acquire or acquiring the block of entry i -/
  | wblog (i : ℕ)
  /-- slot i is written, the block is held -/
  | logged (i : ℕ)
  /-- `pinned` is cleared, the block is still held -/
  | unpinned (i : ℕ)
  /-- the header is written, entries below i are installed -/
  | install (i : ℕ)
  | done
deriving DecidableEq, Repr

structure Sys where
  w : World
  header : LogHeader
  pos : Pos

inductive Label where
  /-- a step of a process other than the committer -/
  | other (e : Call)
  /-- the parts of `cache_acquire(header.block_no[i])` in `wblog` -/
  | acquire (fresh : ℕ)
  | wait
  | retake
  | read
  | insert
  | logWrite
  | unpin
  | release
  | writeHeader
  | install
  | clearHeader
deriving DecidableEq, Repr

/-- the process that makes a step -/
def caller : Call → ℕ
  | .acquire p _ _ | .wait p | .retake p | .read p | .insert p | .release p => p

/-- the committer makes a step of `CacheSys` while it acquires a block -/
def acquiring (s : Sys) (e : Call) : Option Sys :=
  match s.pos with
  | .wblog _ => (CacheSys.step s.w e).map fun w => { s with w := w }
  | _ => none

def step (sb : SuperBlock) (c : ℕ) (s : Sys) : Label → Option Sys
  | .other e => if caller e = c then none else (CacheSys.step s.w e).map fun w => { s with w := w }
  | .acquire fresh =>
    match s.pos with
    | .wblog i =>
      if i < s.header.numBlocks then
        match s.header.entry i with
        | none => none
        | some n => acquiring s (.acquire c n fresh)
      else none
    | _ => none
  | .wait => acquiring s (.wait c)
  | .retake => acquiring s (.retake c)
  | .read => acquiring s (.read c)
  | .insert => acquiring s (.insert c)
  | .logWrite =>
    match s.pos, s.w.proc c with
    | .wblog i, .holding _ a =>
      some { s with
        w := { s.w with dev := update s.w.dev (logSlot sb i) (s.w.cache.heap a).data }
        pos := .logged i }
    | _, _ => none
  | .unpin =>
    match s.pos, s.w.proc c with
    | .logged i, .holding _ a =>
      some { s with w := { s.w with cache := s.w.cache.update a (Block.pin false) }, pos := .unpinned i }
    | _, _ => none
  | .release =>
    match s.pos with
    | .unpinned i => (CacheSys.step s.w (.release c)).map fun w => { s with w := w, pos := .wblog (i + 1) }
    | _ => none
  | .writeHeader =>
    match s.pos with
    | .wblog i =>
      if i < s.header.numBlocks then none
      else
        some { s with
          w := { s.w with dev := update s.w.dev sb.logStart.toNat (encode s.header) }, pos := .install 0 }
    | _ => none
  | .install =>
    match s.pos with
    | .install i =>
      if i < s.header.numBlocks then
        match s.header.entry i with
        | none => none
        | some n =>
          some { s with
            w := { s.w with dev := update s.w.dev n (s.w.dev (logSlot sb i)) }, pos := .install (i + 1) }
      else none
    | _ => none
  | .clearHeader =>
    match s.pos with
    | .install i =>
      if i < s.header.numBlocks then none
      else
        some { s with
          w := { s.w with dev := update s.w.dev sb.logStart.toNat (encode { s.header with numBlocks := 0 }) }
          pos := .done }
    | _ => none

/-! ## Contents beside the commit -/

/-- the cached blocks hold what was last released, and so do the home locations outside the given area, except of the
pending blocks; those are all cached and nobody reads them in -/
structure Clean (area pend : ℕ → Prop) (w : World) : Prop where
  data : ∀ a ∈ w.cache.list, (w.cache.heap a).data = w.last (w.cache.heap a).blockNo
  loading : ∀ p n a, w.proc p = .loading n a → ¬ area n ∧ ¬ pend n
  loaded : ∀ p n a, w.proc p = .loaded n a → (w.cache.heap a).data = w.last n
  present : ∀ n, pend n → ∃ a ∈ w.cache.list, (w.cache.heap a).blockNo = n
  home : ∀ n, ¬ area n → ¬ pend n → w.dev n = w.last n

section Clean

variable {area pend : ℕ → Prop} {w w' : World}

theorem Clean.frame (h : Clean area pend w) (hdev : w'.dev = w.dev) (hlast : w'.last = w.last)
    (hlist : ∀ x, x ∈ w'.cache.list ↔ x ∈ w.cache.list)
    (hb : ∀ x, (w'.cache.heap x).blockNo = (w.cache.heap x).blockNo)
    (hd : ∀ x, (w'.cache.heap x).data = (w.cache.heap x).data)
    (hp : ∀ q n a, w'.proc q = .loading n a → w.proc q = .loading n a)
    (hq : ∀ q n a, w'.proc q = .loaded n a → w.proc q = .loaded n a) : Clean area pend w' where
  data a ha := by rw [hd, hb, hlast]; exact h.data a ((hlist a).1 ha)
  loading q n a hl := h.loading q n a (hp q n a hl)
  loaded q n a hl := by rw [hd, hlast]; exact h.loaded q n a (hq q n a hl)
  present n hn := by
    obtain ⟨a, ha, hna⟩ := h.present n hn
    exact ⟨a, (hlist a).2 ha, by rw [hb]; exact hna⟩
  home n h1 h2 := by rw [hdev, hlast]; exact h.home n h1 h2

theorem update_ne_of {proc : ℕ → Proc} {p : ℕ} {s t : Proc} (hst : s ≠ t) (q : ℕ) (hq : update proc p s q = t) :
    proc q = t := by
  by_cases hqp : q = p
  · subst hqp
    rw [update_self] at hq
    exact absurd hq hst
  · rwa [update_of_ne hqp] at hq

theorem clean_take (h : Clean area pend w) {p n a : ℕ} (ha : a ∈ w.cache.list) :
    Clean area pend ({ w with cache := takeBlock a w.cache }.to p (.holding n a)) := by
  have hperm : (takeBlock a w.cache).list.Perm w.cache.list := takeBlock_perm ha
  exact h.frame rfl rfl (fun x => hperm.mem_iff) (update_field Block.blockNo w.cache a Block.take fun _ => rfl)
    (update_field Block.data w.cache a Block.take fun _ => rfl) (fun q m x => update_ne_of (by simp) q)
    fun q m x => update_ne_of (by simp) q

/-- a miss frees no pending block -/
def SafePending (pend : ℕ → Prop) (w : World) : Prop :=
  ∀ a ∈ w.cache.list, pend (w.cache.heap a).blockNo → a ∈ (makeRoom w.cache).list

variable (hl : Live w) (h : Clean area pend w) {p n a : ℕ}
include hl h

theorem clean_miss (hf : findCache w.cache n = none) (ha : a ∉ liveAfter w) (hn : ¬ area n) (hs : SafePending pend w) :
    Clean area pend ({ w with cache := (makeRoom w.cache).update a fun _ => newBlock n, live := a :: liveAfter w }.to p
      (.loading n a)) := by
  have hsub := (makeRoom_sublist w.cache).subset
  have hne : ∀ x ∈ liveAfter w, ((makeRoom w.cache).update a fun _ => newBlock n).heap x = w.cache.heap x := by
    intro x hx
    have hxa : x ≠ a := by rintro rfl; exact ha hx
    rw [update_heap_ne _ _ hxa, makeRoom_heap]
  have hlist : ∀ x ∈ (makeRoom w.cache).list, x ∈ liveAfter w := fun x hx =>
    mem_liveAfter.2 ⟨hl.alloc x (hsub hx), fun _ => hx⟩
  refine ⟨fun x hx => ?_, fun q m x hq => ?_, fun q m x hq => ?_, fun m hm => ?_, h.home⟩
  · simp only [World.to_cache, World.to_last, hne x (hlist x hx)]
    exact h.data x (hsub hx)
  · by_cases hqp : q = p
    · subst hqp
      simp only [World.to_proc, update_self, Proc.loading.injEq] at hq
      obtain ⟨rfl, -⟩ := hq
      refine ⟨hn, fun hp => ?_⟩
      obtain ⟨y, hy, hyn⟩ := h.present n hp
      exact findCache_none hf y hy hyn
    · rw [World.to_proc, update_of_ne hqp] at hq
      exact h.loading q m x hq
  · have hq' := update_ne_of (by simp) q hq
    have hfq := hl.fits q
    rw [hq'] at hfq
    have hx : x ∈ liveAfter w := mem_liveAfter.2 ⟨hfq.1, fun hm => absurd hm hfq.2.1⟩
    simp only [World.to_cache, World.to_last, hne x hx]
    exact h.loaded q m x hq'
  · obtain ⟨x, hx, hxm⟩ := h.present m hm
    have hx' : x ∈ (makeRoom w.cache).list := hs x hx (hxm ▸ hm)
    refine ⟨x, hx', ?_⟩
    simp only [World.to_cache, hne x (hlist x hx')]
    exact hxm

theorem clean_read (hp : w.proc p = .loading n a) :
    Clean area pend ({ w with cache := readRegion a (w.dev (w.cache.heap a).blockNo) w.cache }.to p (.loaded n a)) := by
  have hfp := hl.fits p
  rw [hp] at hfp
  obtain ⟨harea, hpend⟩ := h.loading p n a hp
  have hne : ∀ x, x ≠ a → (readRegion a (w.dev (w.cache.heap a).blockNo) w.cache).heap x = w.cache.heap x := fun x hx =>
    update_heap_ne _ _ hx
  have hno := update_field Block.blockNo w.cache a (Block.fill (w.dev (w.cache.heap a).blockNo)) fun _ => rfl
  refine ⟨fun x hx => ?_, fun q m x hq => h.loading q m x (update_ne_of (by simp) q hq), fun q m x hq => ?_, fun m hm => ?_,
    h.home⟩
  · have hxa : x ≠ a := by rintro rfl; exact hfp.2.1 hx
    simp only [World.to_cache, World.to_last, hne x hxa]
    exact h.data x hx
  · by_cases hqp : q = p
    · subst hqp
      simp only [World.to_proc, update_self, Proc.loaded.injEq] at hq
      obtain ⟨rfl, rfl⟩ := hq
      simp only [World.to_cache, World.to_last, readRegion, update_heap_self, Block.fill, hfp.2.2.1]
      exact h.home n harea hpend
    · rw [World.to_proc, update_of_ne hqp] at hq
      have hxa : x ≠ a := by
        rintro rfl
        exact hqp (hl.sole q p x (by rw [hq]; rfl) (by rw [hp]; rfl))
      simp only [World.to_cache, World.to_last, hne x hxa]
      exact h.loaded q m x hq
  · obtain ⟨x, hx, hxm⟩ := h.present m hm
    exact ⟨x, hx, (hno x).trans hxm⟩

theorem clean_insert (hp : w.proc p = .loaded n a) :
    Clean area pend ({ w with cache := insertRegion a w.cache }.to p (.holding n a)) := by
  have hfp := hl.fits p
  rw [hp] at hfp
  have hno := update_field Block.blockNo w.cache a Block.load fun _ => rfl
  have hdata := update_field Block.data w.cache a Block.load fun _ => rfl
  refine ⟨fun x hx => ?_, fun q m x hq => h.loading q m x (update_ne_of (by simp) q hq), fun q m x hq => ?_, fun m hm => ?_,
    h.home⟩
  · change ((w.cache.update a Block.load).heap x).data = w.last ((w.cache.update a Block.load).heap x).blockNo
    rw [hdata, hno]
    rcases List.mem_append.1 hx with hx | hx
    · exact h.data x hx
    · rw [List.mem_singleton.1 hx, hfp.2.2.1]
      exact h.loaded p n a hp
  · exact (hdata x).trans (h.loaded q m x (update_ne_of (by simp) q hq))
  · obtain ⟨x, hx, hxm⟩ := h.present m hm
    exact ⟨x, List.mem_append_left _ hx, (hno x).trans hxm⟩

/-- releasing a block records the content it had: nobody changes a block here -/
theorem last_released (hp : w.proc p = .holding n a) :
    update w.last (w.cache.heap a).blockNo (w.cache.heap a).data = w.last := by
  have hfp := hl.fits p
  rw [hp] at hfp
  rw [h.data a hfp.1]
  exact update_eq_self _ _

theorem clean_release (hp : w.proc p = .holding n a) (l : Semaphore) :
    Clean area pend ({ w with
      cache := w.cache.update a (Block.release l)
      last := update w.last (w.cache.heap a).blockNo (w.cache.heap a).data }.to p .idle) :=
  h.frame rfl (last_released hl h hp) (fun _ => Iff.rfl)
    (update_field Block.blockNo w.cache a (Block.release l) fun _ => rfl)
    (update_field Block.data w.cache a (Block.release l) fun _ => rfl) (fun q m x => update_ne_of (by simp) q)
    fun q m x => update_ne_of (by simp) q

theorem clean_move {e : Call} (hm : Move w e w')
    (hs : ∀ p n fresh, e = .acquire p n fresh → findCache w.cache n = none → ¬ area n ∧ SafePending pend w) :
    Clean area pend w' := by
  cases hm with
  | hit p n a fresh hp hf ha => exact clean_take h (findCache_some hf).1
  | busy p n a fresh hp hf ha =>
    exact h.frame rfl rfl (fun _ => Iff.rfl) (fun _ => rfl) (fun _ => rfl) (fun q m x => update_ne_of (by simp) q)
      fun q m x => update_ne_of (by simp) q
  | miss p n a hp hf ha =>
    obtain ⟨harea, hsafe⟩ := hs p n a rfl hf
    exact clean_miss hl h hf ha harea hsafe
  | wait p n a hp =>
    refine h.frame rfl rfl (fun _ => Iff.rfl) (update_field Block.blockNo w.cache a (setLock _) fun _ => rfl)
      (update_field Block.data w.cache a (setLock _) fun _ => rfl) (fun q m x => update_ne_of ?_ q)
      fun q m x => update_ne_of ?_ q
    · split_ifs <;> simp
    · split_ifs <;> simp
  | retake p n a hp ha =>
    have hf := hl.fits p
    rw [hp] at hf
    exact clean_take h hf.1
  | again p n a hp ha =>
    exact h.frame rfl rfl (fun _ => Iff.rfl) (fun _ => rfl) (fun _ => rfl) (fun q m x => update_ne_of (by simp) q)
      fun q m x => update_ne_of (by simp) q
  | read p n a hp => exact clean_read hl h hp
  | insert p n a hp => exact clean_insert hl h hp
  | release p n a l hp hpost => exact clean_release hl h hp l
  | handOver p n a q l hp hpost =>
    have hwake : ∀ t : Proc, (∀ m x, wake t = .loading m x → t = .loading m x) ∧
        ∀ m x, wake t = .loaded m x → t = .loaded m x := by
      intro t
      cases t <;> simp [wake]
    refine (clean_release hl h hp l).frame rfl rfl (fun _ => Iff.rfl) (fun _ => rfl) (fun _ => rfl)
      (fun r m x hr => ?_) fun r m x hr => ?_
    all_goals
      by_cases hrq : r = q
      · subst hrq
        simp only [World.to_proc, update_self] at hr ⊢
        first | exact (hwake _).1 m x hr | exact (hwake _).2 m x hr
      · simpa only [World.to_proc, update_of_ne hrq] using hr

theorem move_last {e : Call} (hm : Move w e w') : w'.last = w.last ∧ w'.dev = w.dev := by
  cases hm with
  | release p n a l hp hpost => exact ⟨last_released hl h hp, rfl⟩
  | handOver p n a q l hp hpost => exact ⟨last_released hl h hp, rfl⟩
  | _ => exact ⟨rfl, rfl⟩

end Clean

/-- the block number a process has asked for -/
def block : Proc → Option ℕ
  | .idle => none
  | .toWait n _ | .asleep n _ | .woken n _ | .loading n _ | .loaded n _ | .holding n _ => some n

theorem block_wake (s : Proc) : block (wake s) = block s := by cases s <;> rfl

theorem block_update {proc : ℕ → Proc} {p : ℕ} {s : Proc} (q : ℕ) (h : q = p → block s = block (proc p)) :
    block (update proc p s q) = block (proc q) := by
  by_cases hqp : q = p
  · subst hqp
    rw [update_self]
    exact h rfl
  · rw [update_of_ne hqp]

/-- a process changes the block it has asked for only by its own acquire and release -/
theorem move_block {w w' : World} {e : Call} (hm : Move w e w') (q : ℕ)
    (hq : caller e ≠ q ∨ ((∀ p n fresh, e ≠ .acquire p n fresh) ∧ ∀ p, e ≠ .release p)) :
    block (w'.proc q) = block (w.proc q) := by
  have hacq : ∀ p n fresh, e = .acquire p n fresh → q ≠ p := by
    rintro p n fresh rfl rfl
    rcases hq with hq | hq
    · exact hq rfl
    · exact hq.1 _ _ _ rfl
  have hrel : ∀ p, e = .release p → q ≠ p := by
    rintro p rfl rfl
    rcases hq with hq | hq
    · exact hq rfl
    · exact hq.2 _ rfl
  cases hm with
  | hit p n a fresh => exact block_update q fun hqp => absurd hqp (hacq p n fresh rfl)
  | busy p n a fresh => exact block_update q fun hqp => absurd hqp (hacq p n fresh rfl)
  | miss p n a => exact block_update q fun hqp => absurd hqp (hacq p n a rfl)
  | wait p n a hp =>
    refine block_update q fun _ => ?_
    rw [hp]
    split_ifs <;> rfl
  | retake p n a hp => exact block_update q fun _ => by rw [hp]; rfl
  | again p n a hp => exact block_update q fun _ => by rw [hp]; rfl
  | read p n a hp => exact block_update q fun _ => by rw [hp]; rfl
  | insert p n a hp => exact block_update q fun _ => by rw [hp]; rfl
  | release p n a l hp => exact block_update q fun hqp => absurd hqp (hrel p rfl)
  | handOver p n a r l hp =>
    have h1 : block (update w.proc p .idle q) = block (w.proc q) :=
      block_update q fun hqp => absurd hqp (hrel p rfl)
    refine (block_update q fun _ => ?_).trans h1
    exact block_wake _

/-! ## The commit -/

/-- entry i is still to be written home -/
def Pos.owes : Pos → ℕ → Prop
  | .install j, i => j ≤ i
  | .done, _ => False
  | _, _ => True

/-- slot i has been written -/
def Pos.wrote : Pos → ℕ → Prop
  | .wblog j, i => i < j
  | .logged j, i | .unpinned j, i => i ≤ j
  | _, _ => True

/-- n is listed and its home location is out of date -/
def Pending (s : Sys) (n : ℕ) : Prop := ∃ i, i < s.header.numBlocks ∧ s.header.entry i = some n ∧ s.pos.owes i

structure Safe (sb : SuperBlock) (c : ℕ) (s : Sys) : Prop where
  live : Live s.w
  clean : Clean (InLogArea sb) (Pending s) s.w
  room : s.header.numBlocks + 1 ≤ sb.numLogBlocks.toNat
  outside : ∀ i n, i < s.header.numBlocks → s.header.entry i = some n → ¬ InLogArea sb n
  slots : ∀ i n, i < s.header.numBlocks → s.header.entry i = some n → s.pos.wrote i → s.w.dev (logSlot sb i) = s.w.last n
  /-- what the committer acquires is the entry it has come to -/
  target : ∀ i n, s.pos = .wblog i → block (s.w.proc c) = some n → i < s.header.numBlocks ∧ s.header.entry i = some n

/-- the miss of an acquire is outside the log area, frees no struct somebody waits for and frees no pending block -/
def Settled (sb : SuperBlock) (s : Sys) : Label → Prop
  | .other (.acquire _ n _) => findCache s.w.cache n = none →
    ¬ InLogArea sb n ∧ SafeEvict s.w ∧ SafePending (Pending s) s.w
  | _ => True

theorem live_dev {w : World} (h : Live w) (d : ℕ → BlockData) : Live { w with dev := d } :=
  ⟨h.nodup, h.alloc, h.fits, h.sole, fun a ha => (h.locks a ha).frame rfl rfl rfl fun _ _ => rfl⟩

/-- fewer blocks are pending, and those that no longer are have reached their home location -/
theorem Clean.settle {area pend pend' : ℕ → Prop} {w : World} (h : Clean area pend w) (hsub : ∀ n, pend' n → pend n)
    (hhome : ∀ n, ¬ area n → pend n → ¬ pend' n → w.dev n = w.last n) : Clean area pend' w where
  data := h.data
  loading p n a hp := ⟨(h.loading p n a hp).1, fun hn => (h.loading p n a hp).2 (hsub n hn)⟩
  loaded := h.loaded
  present n hn := h.present n (hsub n hn)
  home n harea hn := by
    by_cases hp : pend n
    · exact hhome n harea hp hn
    · exact h.home n harea hp

theorem slot_ne_header (sb : SuperBlock) (i : ℕ) : logSlot sb i ≠ sb.logStart.toNat := by
  unfold logSlot
  omega

theorem slot_injective {sb : SuperBlock} {i j : ℕ} (h : logSlot sb i = logSlot sb j) : i = j := by
  unfold logSlot at h
  omega

section Steps

variable {sb : SuperBlock} {c : ℕ} {s : Sys} (h : Safe sb c s)
include h

/-- a step of some process in `cache_acquire` or `cache_release`; the commit stays where it is -/
theorem safe_world {w' : World} {e : Call} (hstep : CacheSys.step s.w e = some w')
    (hmiss : ∀ p n fresh, e = .acquire p n fresh → findCache s.w.cache n = none →
      ¬ InLogArea sb n ∧ SafeEvict s.w ∧ SafePending (Pending s) s.w)
    (htarget : ∀ i n, s.pos = .wblog i → block (w'.proc c) = some n →
      i < s.header.numBlocks ∧ s.header.entry i = some n) : Safe sb c { s with w := w' } := by
  have hm := CacheSys.step_move hstep
  obtain ⟨hlast, hdev⟩ := move_last h.live h.clean hm
  refine ⟨live_move h.live hm fun p n fresh he hf => (hmiss p n fresh he hf).2.1, ?_, h.room, h.outside,
    fun i n hi he hw => ?_, htarget⟩
  · exact clean_move h.live h.clean hm fun p n fresh he hf =>
      ⟨(hmiss p n fresh he hf).1, (hmiss p n fresh he hf).2.2⟩
  · show w'.dev (logSlot sb i) = w'.last n
    rw [hlast, hdev]
    exact h.slots i n hi he hw

theorem safe_acquiring {s' : Sys} {e : Call} (hstep : acquiring s e = some s')
    (hacq : ∀ p n fresh, e ≠ .acquire p n fresh) (hrel : ∀ p, e ≠ .release p) : Safe sb c s' := by
  unfold acquiring at hstep
  split at hstep
  · obtain ⟨w', hw, rfl⟩ := Option.map_eq_some_iff.1 hstep
    refine safe_world h hw (fun p n fresh he => absurd he (hacq p n fresh)) fun i n hi hb => ?_
    rw [move_block (CacheSys.step_move hw) c (Or.inr ⟨hacq, hrel⟩)] at hb
    exact h.target i n hi hb
  · cases hstep

/-- a device write inside the log area leaves the home locations alone -/
theorem clean_logWrite {x : ℕ} (hx : InLogArea sb x) (d : BlockData) :
    Clean (InLogArea sb) (Pending s) { s.w with dev := update s.w.dev x d } := by
  refine ⟨h.clean.data, h.clean.loading, h.clean.loaded, h.clean.present, fun n hn hp => ?_⟩
  have hne : n ≠ x := by rintro rfl; exact hn hx
  exact (update_of_ne hne _ _).trans (h.clean.home n hn hp)

theorem safe_acquire {i n fresh : ℕ} {w' : World} (hpos : s.pos = .wblog i) (hi : i < s.header.numBlocks)
    (hn : s.header.entry i = some n) (hstep : CacheSys.step s.w (.acquire c n fresh) = some w') :
    Safe sb c { s with w := w' } := by
  -- the block is listed, so it is in the cache and the acquire does not miss
  obtain ⟨a, ha, hab⟩ := h.clean.present n ⟨i, hi, hn, by rw [hpos]; trivial⟩
  refine safe_world h hstep (fun p m f he hf => ?_) fun j m hj hb => ?_
  · cases he
    exact absurd hab (findCache_none hf a ha)
  · obtain rfl : i = j := Pos.wblog.inj (hpos.symm.trans hj)
    have hself : ∀ x : Proc, block x = some n → block (update s.w.proc c x c) = some n := by
      intro x hx
      rwa [update_self]
    have hblock : block (w'.proc c) = some n := by
      cases CacheSys.step_move hstep with
      | hit p m x f => exact hself _ rfl
      | busy p m x f => exact hself _ rfl
      | miss p m x => exact hself _ rfl
    rw [hblock] at hb
    cases hb
    exact ⟨hi, hn⟩

theorem safe_logWrite {i m a : ℕ} (hpos : s.pos = .wblog i) (hc : s.w.proc c = .holding m a) :
    Safe sb c { s with
      w := { s.w with dev := update s.w.dev (logSlot sb i) (s.w.cache.heap a).data }, pos := .logged i } := by
  obtain ⟨hi, hm⟩ := h.target i m hpos (by rw [hc]; rfl)
  have hfit := h.live.fits c
  rw [hc] at hfit
  have hpend : ∀ n, (∃ j, j < s.header.numBlocks ∧ s.header.entry j = some n ∧ (Pos.logged i).owes j) → Pending s n := by
    rintro n ⟨j, hj, he, -⟩
    exact ⟨j, hj, he, by rw [hpos]; trivial⟩
  refine ⟨live_dev h.live _, (clean_logWrite h (slot_inLogArea h.room hi) _).settle hpend ?_, h.room, h.outside,
    fun j n hj he hw => ?_, by simp⟩
  · rintro n - ⟨j, hj, he, -⟩ hno
    exact absurd ⟨j, hj, he, trivial⟩ hno
  · show update s.w.dev (logSlot sb i) (s.w.cache.heap a).data (logSlot sb j) = s.w.last n
    by_cases hji : j = i
    · subst hji
      rw [hm] at he
      cases he
      rw [update_self, h.clean.data a hfit.1, hfit.2.1]
    · have hne : logSlot sb j ≠ logSlot sb i := fun hs => hji (slot_injective hs)
      rw [update_of_ne hne]
      have hlt : j < i := lt_of_le_of_ne hw hji
      exact h.slots j n hj he (by rw [hpos]; exact hlt)

theorem safe_unpin {i : ℕ} (hpos : s.pos = .logged i) (a : ℕ) :
    Safe sb c { s with w := { s.w with cache := s.w.cache.update a (Block.pin false) }, pos := .unpinned i } := by
  have hno := update_field Block.blockNo s.w.cache a (Block.pin false) fun _ => rfl
  have hdata := update_field Block.data s.w.cache a (Block.pin false) fun _ => rfl
  have hacq := update_field Block.acquired s.w.cache a (Block.pin false) fun _ => rfl
  have hlock := update_field Block.lock s.w.cache a (Block.pin false) fun _ => rfl
  have hclean : Clean (InLogArea sb) (Pending s) { s.w with cache := s.w.cache.update a (Block.pin false) } :=
    h.clean.frame rfl rfl (fun _ => Iff.rfl) hno hdata (fun _ _ _ hq => hq) fun _ _ _ hq => hq
  refine ⟨⟨h.live.nodup, h.live.alloc, fun q => (h.live.fits q).frame fun x _ => ⟨Iff.rfl, fun hx => hx, hno x, fun _ => hacq x⟩,
    h.live.sole, fun x hx => (h.live.locks x hx).frame (hlock x) (hacq x) (hno x) fun _ _ => rfl⟩, ?_, h.room, h.outside,
    fun j n hj he hw => h.slots j n hj he (by rw [hpos]; exact hw), by simp⟩
  refine hclean.settle ?_ ?_
  · rintro n ⟨j, hj, he, -⟩
    exact ⟨j, hj, he, by rw [hpos]; trivial⟩
  · rintro n - ⟨j, hj, he, -⟩ hno
    exact absurd ⟨j, hj, he, trivial⟩ hno

theorem safe_release {i : ℕ} {w' : World} (hpos : s.pos = .unpinned i) (hstep : CacheSys.step s.w (.release c) = some w') :
    Safe sb c { s with w := w', pos := .wblog (i + 1) } := by
  have hw := safe_world h hstep (by simp) (by simp [hpos])
  have hidle : block (w'.proc c) = none := by
    cases CacheSys.step_move hstep with
    | release p n a l hp => simp [block]
    | handOver p n a q l hp =>
      have hq : block (update s.w.proc c .idle c) = none := by simp [block]
      refine (block_update c fun hcq => ?_).trans hq
      exact block_wake _
  refine ⟨hw.live, hw.clean.settle ?_ ?_, h.room, h.outside, fun j n hj he hwr => hw.slots j n hj he ?_, ?_⟩
  · rintro n ⟨j, hj, he, -⟩
    exact ⟨j, hj, he, by simp only [hpos]; trivial⟩
  · rintro n - ⟨j, hj, he, -⟩ hno
    exact absurd ⟨j, hj, he, trivial⟩ hno
  · simp only [hpos]
    exact Nat.lt_succ_iff.1 hwr
  · intro j n _ hb
    rw [hidle] at hb
    cases hb

theorem safe_writeHeader {i : ℕ} (hpos : s.pos = .wblog i) (hi : ¬ i < s.header.numBlocks) :
    Safe sb c { s with
      w := { s.w with dev := update s.w.dev sb.logStart.toNat (encode s.header) }, pos := .install 0 } := by
  refine ⟨live_dev h.live _, (clean_logWrite h (header_inLogArea h.room) _).settle ?_ ?_, h.room, h.outside,
    fun j n hj he _ => ?_, by simp⟩
  · rintro n ⟨j, hj, he, -⟩
    exact ⟨j, hj, he, by rw [hpos]; trivial⟩
  · rintro n - ⟨j, hj, he, -⟩ hno
    exact absurd ⟨j, hj, he, Nat.zero_le j⟩ hno
  · have hlt : j < i := lt_of_lt_of_le hj (not_lt.1 hi)
    exact (update_of_ne (slot_ne_header sb j) _ _).trans (h.slots j n hj he (by rw [hpos]; exact hlt))

theorem safe_install {i n : ℕ} (hpos : s.pos = .install i) (hi : i < s.header.numBlocks)
    (hn : s.header.entry i = some n) :
    Safe sb c { s with
      w := { s.w with dev := update s.w.dev n (s.w.dev (logSlot sb i)) }, pos := .install (i + 1) } := by
  have hslot := h.slots i n hi hn (by rw [hpos]; trivial)
  have hout := h.outside i n hi hn
  have hdev : ∀ m, s.w.dev m = s.w.last m ∨ m = n →
      update s.w.dev n (s.w.dev (logSlot sb i)) m = s.w.last m := by
    intro m hm
    by_cases hmn : m = n
    · subst hmn
      rw [update_self]
      exact hslot
    · rw [update_of_ne hmn]
      exact hm.resolve_right hmn
  have hclean : Clean (InLogArea sb) (Pending s)
      { s.w with dev := update s.w.dev n (s.w.dev (logSlot sb i)) } :=
    ⟨h.clean.data, h.clean.loading, h.clean.loaded, h.clean.present, fun m hm hp =>
      hdev m (Or.inl (h.clean.home m hm hp))⟩
  refine ⟨live_dev h.live _, hclean.settle ?_ ?_, h.room, h.outside, fun j m hj he _ => ?_, by simp⟩
  · rintro m ⟨j, hj, he, hle⟩
    refine ⟨j, hj, he, ?_⟩
    rw [hpos]
    exact Nat.le_of_succ_le hle
  · -- the only block that is no longer pending is the one just installed
    rintro m - ⟨j, hj, he, hle⟩ hno
    rw [hpos] at hle
    have hji : j = i := by
      by_contra hne
      exact hno ⟨j, hj, he, lt_of_le_of_ne hle (Ne.symm hne)⟩
    subst hji
    rw [hn] at he
    cases he
    exact hdev n (Or.inr rfl)
  · have hne : logSlot sb j ≠ n := by
      rintro rfl
      exact hout (slot_inLogArea h.room hj)
    exact (update_of_ne hne _ _).trans (h.slots j m hj he (by rw [hpos]; trivial))

theorem safe_clearHeader {i : ℕ} (hpos : s.pos = .install i) (hi : ¬ i < s.header.numBlocks) (d : BlockData) :
    Safe sb c { s with w := { s.w with dev := update s.w.dev sb.logStart.toNat d }, pos := .done } := by
  refine ⟨live_dev h.live _, (clean_logWrite h (header_inLogArea h.room) _).settle ?_ ?_, h.room, h.outside,
    fun j n hj he _ => ?_, by simp⟩
  · rintro n ⟨j, hj, he, hle⟩
    exact hle.elim
  · rintro n - ⟨j, hj, he, hle⟩ -
    rw [hpos] at hle
    exact absurd (lt_of_le_of_lt hle hj) hi
  · exact (update_of_ne (slot_ne_header sb j) _ _).trans (h.slots j n hj he (by rw [hpos]; trivial))

theorem safe_step {s' : Sys} {e : Label} (hc : Settled sb s e) (hstep : step sb c s e = some s') : Safe sb c s' := by
  cases e with
  | other e =>
    simp only [step] at hstep
    split_ifs at hstep with hp
    obtain ⟨w', hw, rfl⟩ := Option.map_eq_some_iff.1 hstep
    refine safe_world h hw (fun p n fresh he hf => ?_) fun i n hi hb => ?_
    · subst he
      exact hc hf
    · rw [move_block (CacheSys.step_move hw) c (Or.inl hp)] at hb
      exact h.target i n hi hb
  | acquire fresh =>
    cases hpos : s.pos with
    | wblog i =>
      simp only [step, hpos] at hstep
      split_ifs at hstep with hi
      cases hn : s.header.entry i with
      | none => simp [hn] at hstep
      | some n =>
        simp only [hn, acquiring, hpos] at hstep
        obtain ⟨w', hw, rfl⟩ := Option.map_eq_some_iff.1 hstep
        rw [← hpos]
        exact safe_acquire h hpos hi hn hw
    | _ => simp [step, hpos] at hstep
  | wait => exact safe_acquiring h hstep (by simp) (by simp)
  | retake => exact safe_acquiring h hstep (by simp) (by simp)
  | read => exact safe_acquiring h hstep (by simp) (by simp)
  | insert => exact safe_acquiring h hstep (by simp) (by simp)
  | logWrite =>
    simp only [step] at hstep
    split at hstep
    · rename_i i m a hpos hp
      cases hstep
      exact safe_logWrite h hpos hp
    · cases hstep
  | unpin =>
    simp only [step] at hstep
    split at hstep
    · rename_i i m a hpos hp
      cases hstep
      exact safe_unpin h hpos a
    · cases hstep
  | release =>
    cases hpos : s.pos with
    | unpinned i =>
      simp only [step, hpos] at hstep
      obtain ⟨w', hw, rfl⟩ := Option.map_eq_some_iff.1 hstep
      exact safe_release h hpos hw
    | _ => simp [step, hpos] at hstep
  | writeHeader =>
    cases hpos : s.pos with
    | wblog i =>
      simp only [step, hpos] at hstep
      split_ifs at hstep with hi
      cases hstep
      exact safe_writeHeader h hpos hi
    | _ => simp [step, hpos] at hstep
  | install =>
    cases hpos : s.pos with
    | install i =>
      simp only [step, hpos] at hstep
      split_ifs at hstep with hi
      cases hn : s.header.entry i with
      | none => simp [hn] at hstep
      | some n =>
        simp only [hn] at hstep
        cases hstep
        exact safe_install h hpos hi hn
    | _ => simp [step, hpos] at hstep
  | clearHeader =>
    cases hpos : s.pos with
    | install i =>
      simp only [step, hpos] at hstep
      split_ifs at hstep with hi
      cases hstep
      exact safe_clearHeader h hpos hi _
    | _ => simp [step, hpos] at hstep

end Steps

/-! ## Runs -/

/-- a commit is about to start: the log has room for what is listed, every listed block is cached and outside the log area,
cached blocks hold what was last released, and so do the home locations of all blocks that are not listed. The other processes
may be anywhere in `cache_acquire`, but nobody is reading in a listed block or one of the log area. -/
structure CommitStart (sb : SuperBlock) (c : ℕ) (s : Sys) : Prop where
  pos : s.pos = .wblog 0
  idle : s.w.proc c = .idle
  live : Live s.w
  room : s.header.numBlocks + 1 ≤ sb.numLogBlocks.toNat
  outside : ∀ n ∈ s.header.listed, ¬ InLogArea sb n
  present : ∀ n ∈ s.header.listed, ∃ a ∈ s.w.cache.list, (s.w.cache.heap a).blockNo = n
  data : ∀ a ∈ s.w.cache.list, (s.w.cache.heap a).data = s.w.last (s.w.cache.heap a).blockNo
  loading : ∀ p n a, s.w.proc p = .loading n a → ¬ InLogArea sb n ∧ n ∉ s.header.listed
  loaded : ∀ p n a, s.w.proc p = .loaded n a → (s.w.cache.heap a).data = s.w.last n
  home : ∀ n, ¬ InLogArea sb n → n ∉ s.header.listed → s.w.dev n = s.w.last n

theorem CommitStart.safe {sb : SuperBlock} {c : ℕ} {s : Sys} (h : CommitStart sb c s) : Safe sb c s := by
  have hpend : ∀ n, Pending s n ↔ n ∈ s.header.listed := by
    intro n
    simp only [Pending, h.pos, Pos.owes, and_true, mem_listed]
  refine ⟨h.live, ⟨h.data, ?_, h.loaded, ?_, ?_⟩, h.room, ?_, ?_, ?_⟩
  · intro p n a hp
    rw [hpend]
    exact h.loading p n a hp
  · intro n hn
    exact h.present n ((hpend n).1 hn)
  · intro n harea hn
    rw [hpend] at hn
    exact h.home n harea hn
  · intro i n hi he
    exact h.outside n (mem_listed.2 ⟨i, hi, he⟩)
  · intro i n _ _ hw
    rw [h.pos] at hw
    exact absurd hw (Nat.not_lt_zero i)
  · intro i n _ hb
    rw [h.idle] at hb
    cases hb

/-- k listed blocks 100, 101, ..., cached and pinned, with contents the device does not have yet -/
def startOf (k : ℕ) : Sys where
  w :=
    { cache :=
        ⟨fun a => { initBlock with blockNo := 100 + a, pinned := true, valid := true, data := fun _ => 1 }, List.range k, k⟩
      dev := fun _ => Bytes.zeros
      proc := fun _ => .idle
      live := List.range k
      last := fun n => if 100 ≤ n ∧ n < 100 + k then fun _ => 1 else Bytes.zeros }
  header := ⟨k, fun i => 100 + i⟩
  pos := .wblog 0

theorem commitStart_startOf (c k : ℕ) (hk : k ≤ 62) : CommitStart mkfsSuperBlock c (startOf k) := by
  have hlisted : ∀ n, n ∈ (startOf k).header.listed ↔ 100 ≤ n ∧ n < 100 + k := by
    intro n
    have hmax : logMaxSize = 63 := rfl
    rw [mem_listed]
    constructor
    · rintro ⟨i, hi, he⟩
      rw [entry_of_lt _ (lt_of_lt_of_le hi (by simp only [startOf]; omega))] at he
      cases he
      simp only [startOf] at hi ⊢
      omega
    · rintro ⟨h1, h2⟩
      refine ⟨n - 100, by simp only [startOf]; omega, ?_⟩
      rw [entry_of_lt _ (by omega)]
      simp only [startOf, Option.some.injEq]
      omega
  refine ⟨rfl, rfl, ⟨List.nodup_range, fun _ ha => ha, fun _ => trivial, by simp [startOf, Proc.owned], fun a _ => ?_⟩,
    ?_, ?_, ?_, ?_, by simp [startOf], by simp [startOf], ?_⟩
  · exact ⟨by simp [startOf, initBlock, initSleeplock, initSem, SemOk], by simp [startOf, initBlock],
      by simp [startOf, initBlock, initSleeplock, initSem], by simp [startOf, initBlock, initSleeplock, initSem],
      by simp [startOf, initBlock, initSleeplock, initSem]⟩
  · show k + 1 ≤ 63
    omega
  · intro n hn
    have := (hlisted n).1 hn
    simp only [InLogArea, mkfsSuperBlock]
    have h1 : (2 : UInt32).toNat = 2 := rfl
    have h2 : (63 : UInt32).toNat = 63 := rfl
    omega
  · intro n hn
    have := (hlisted n).1 hn
    refine ⟨n - 100, List.mem_range.2 (by omega), ?_⟩
    show 100 + (n - 100) = n
    omega
  · intro a ha
    have := List.mem_range.1 ha
    simp [startOf, this]
  · intro n _ hn
    rw [hlisted] at hn
    simp [startOf, hn]

end OsKernel.Fs.CommitRace
