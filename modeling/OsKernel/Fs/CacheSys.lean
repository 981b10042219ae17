/-
`cache_acquire` and `cache_release` as an interleaving of the regions between them.

Any number of processes run the two functions concurrently. Every stretch of code with the cache spinlock held is one
step (`acquireRegion`, `retakeRegion`, `insertRegion`, `releaseRegion`); going to sleep on `b->lock` and the
`device_read` of a miss are steps of their own. A process that has found its block held remembers the address of the
struct and nothing protects that struct from `evict`: `ref` counts holders only. The address a miss gets from `kalloc` is
part of the label and may be any address that is not allocated, one just freed included. A freed struct keeps its fields here;
`kfree` writes the link of its slab over `block_no`, so nothing is stated about the number of a struct after it was freed.

`World.last` is a ghost: the content of each block when it was last released.
-/
import OsKernel.Lib.Runs
import OsKernel.Fs.Cache

namespace OsKernel.Fs.CacheSys

open OsKernel.Fs OsKernel.Sem OsKernel.Runs

/-- where a process is in `cache_acquire(n)`; a is the address of the block struct -/
inductive Proc where
  | idle
  /-- found the block held and has dropped the spinlock -/
  | toWait (n a : ℕ)
  | asleep (n a : ℕ)
  /-- back from `unalertable_wait_sem` -/
  | woken (n a : ℕ)
  /-- missed; about to read the block from the device -/
  | loading (n a : ℕ)
  | loaded (n a : ℕ)
  /-- `cache_acquire` has returned -/
  | holding (n a : ℕ)
deriving DecidableEq, Repr

/-- the block struct the process has an address of -/
def Proc.addr : Proc → Option ℕ
  | .idle => none
  | .toWait _ a | .asleep _ a | .woken _ a | .loading _ a | .loaded _ a | .holding _ a => some a

/-- the struct it has to itself -/
def Proc.owned : Proc → Option ℕ
  | .loading _ a | .loaded _ a | .holding _ a => some a
  | _ => none

/-- the struct it waits for -/
def Proc.awaited : Proc → Option ℕ
  | .toWait _ a | .asleep _ a | .woken _ a => some a
  | _ => none

/-- the block it is reading in -/
def Proc.loads : Proc → Option ℕ
  | .loading n _ | .loaded n _ => some n
  | _ => none

structure World where
  cache : Cache
  dev : ℕ → BlockData
  proc : ℕ → Proc
  /-- addresses of block structs that are allocated -/
  live : List ℕ
  last : ℕ → BlockData

/-- after `init_bcache`: nothing is cached, nobody runs -/
def init (dev : ℕ → BlockData) : World := ⟨⟨fun _ => initBlock, [], 0⟩, dev, fun _ => .idle, [], dev⟩

inductive Call where
  /-- `fresh` is what `kalloc` returns if the block is not cached -/
  | acquire (p n fresh : ℕ)
  | wait (p : ℕ)
  | retake (p : ℕ)
  | read (p : ℕ)
  | insert (p : ℕ)
  | release (p : ℕ)
deriving DecidableEq, Repr

@[simps -fullyApplied]
def World.to (w : World) (p : ℕ) (s : Proc) : World := { w with proc := Function.update w.proc p s }

/-- `b->lock = l` -/
def setLock (l : Semaphore) (b : Block) : Block := { b with lock := l }

/-- a process that `_post_sem` has woken -/
def wake (s : Proc) : Proc :=
  match s with
  | .asleep n a => .woken n a
  | s => s

/-- the allocated structs after the eviction of a miss -/
def liveAfter (w : World) : List ℕ := w.live.filter fun a => ¬ (a ∈ w.cache.list ∧ a ∉ (makeRoom w.cache).list)

def step (w : World) : Call → Option World
  | .acquire p n fresh =>
    if w.proc p = .idle then
      match acquireRegion n fresh w.cache with
      | (.hit a, c) => some ({ w with cache := c }.to p (.holding n a))
      | (.wait a, c) => some ({ w with cache := c }.to p (.toWait n a))
      | (.miss a, c) =>
        if a ∈ liveAfter w then none
        else some ({ w with cache := c, live := a :: liveAfter w }.to p (.loading n a))
    else none
  | .wait p =>
    match w.proc p with
    | .toWait n a =>
      let r := waitSem p (w.cache.heap a).lock
      some ({ w with cache := w.cache.update a (setLock r.2) }.to p (if r.1 then .woken n a else .asleep n a))
    | _ => none
  | .retake p =>
    match w.proc p with
    | .woken n a =>
      match retakeRegion a w.cache with
      | (.hit _, c) => some ({ w with cache := c }.to p (.holding n a))
      | (_, c) => some ({ w with cache := c }.to p (.toWait n a))
    | _ => none
  | .read p =>
    match w.proc p with
    | .loading n a =>
      some ({ w with cache := readRegion a (w.dev (w.cache.heap a).blockNo) w.cache }.to p (.loaded n a))
    | _ => none
  | .insert p =>
    match w.proc p with
    | .loaded n a => some ({ w with cache := insertRegion a w.cache }.to p (.holding n a))
    | _ => none
  | .release p =>
    match w.proc p with
    | .holding _ a =>
      -- the ASSERT of cache_release
      if (w.cache.heap a).acquired = false then none
      else
        match releaseRegion a w.cache with
        | none => none
        | some (q, c) =>
          let b := w.cache.heap a
          let w := { w with cache := c, last := Function.update w.last b.blockNo b.data }.to p .idle
          match q with
          | none => some w
          | some q => some (w.to q (wake (w.proc q)))
    | _ => none

/-! ## One step -/

/-- what one step can do, with its guards -/
inductive Move (w : World) : Call → World → Prop
  | hit (p n a fresh : ℕ) (hp : w.proc p = .idle) (hf : findCache w.cache n = some a) (ha : (w.cache.heap a).acquired = false) :
    Move w (.acquire p n fresh) ({ w with cache := takeBlock a w.cache }.to p (.holding n a))
  | busy (p n a fresh : ℕ) (hp : w.proc p = .idle) (hf : findCache w.cache n = some a)
      (ha : (w.cache.heap a).acquired = true) : Move w (.acquire p n fresh) (w.to p (.toWait n a))
  | miss (p n a : ℕ) (hp : w.proc p = .idle) (hf : findCache w.cache n = none) (ha : a ∉ liveAfter w) :
    Move w (.acquire p n a) ({ w with cache := (makeRoom w.cache).update a fun _ => newBlock n, live := a :: liveAfter w }.to p
      (.loading n a))
  | wait (p n a : ℕ) (hp : w.proc p = .toWait n a) :
    Move w (.wait p) ({ w with cache := w.cache.update a (setLock (waitSem p (w.cache.heap a).lock).2) }.to p
      (if (waitSem p (w.cache.heap a).lock).1 then .woken n a else .asleep n a))
  | retake (p n a : ℕ) (hp : w.proc p = .woken n a)
      (ha : (getSem (w.cache.heap a).lock).1 = true ∨ (w.cache.heap a).acquired = false) :
    Move w (.retake p) ({ w with cache := takeBlock a w.cache }.to p (.holding n a))
  | again (p n a : ℕ) (hp : w.proc p = .woken n a) (ha : (w.cache.heap a).acquired = true) :
    Move w (.retake p) (w.to p (.toWait n a))
  | read (p n a : ℕ) (hp : w.proc p = .loading n a) :
    Move w (.read p) ({ w with cache := readRegion a (w.dev (w.cache.heap a).blockNo) w.cache }.to p (.loaded n a))
  | insert (p n a : ℕ) (hp : w.proc p = .loaded n a) :
    Move w (.insert p) ({ w with cache := insertRegion a w.cache }.to p (.holding n a))
  | release (p n a : ℕ) (l : Semaphore) (hp : w.proc p = .holding n a)
      (hs : postSem (w.cache.heap a).lock = some (none, l)) :
    Move w (.release p) ({ w with
      cache := w.cache.update a (Block.release l)
      last := Function.update w.last (w.cache.heap a).blockNo (w.cache.heap a).data }.to p .idle)
  | handOver (p n a q : ℕ) (l : Semaphore) (hp : w.proc p = .holding n a)
      (hs : postSem (w.cache.heap a).lock = some (some q, l)) :
    Move w (.release p) (({ w with
      cache := w.cache.update a (Block.release l)
      last := Function.update w.last (w.cache.heap a).blockNo (w.cache.heap a).data }.to p .idle).to q
        (wake (Function.update w.proc p .idle q)))

theorem acquire_move {w w' : World} {p n fresh : ℕ} (h : step w (.acquire p n fresh) = some w') :
    Move w (.acquire p n fresh) w' := by
  obtain ⟨hp, h⟩ := Option.ite_none_right_eq_some.1 h
  unfold acquireRegion at h
  cases hf : findCache w.cache n with
  | some a =>
    cases ha : (w.cache.heap a).acquired with
    | true =>
      simp only [hf, ha, if_true] at h
      cases h
      exact .busy p n a fresh hp hf ha
    | false =>
      simp only [hf, ha, Bool.false_eq_true, if_false] at h
      cases h
      exact .hit p n a fresh hp hf ha
  | none =>
    simp only [hf] at h
    split_ifs at h with hl
    cases h
    exact .miss p n fresh hp hf hl

theorem retake_move {w w' : World} {p : ℕ} (h : step w (.retake p) = some w') : Move w (.retake p) w' := by
  cases hp : w.proc p with
  | woken n a =>
    simp only [step, hp, retakeRegion] at h
    by_cases ha : (getSem (w.cache.heap a).lock).1 = true ∨ (w.cache.heap a).acquired = false
    · simp only [if_pos ha] at h
      cases h
      exact .retake p n a hp ha
    · simp only [if_neg ha] at h
      cases h
      exact .again p n a hp (by simpa using (not_or.1 ha).2)
  | _ => simp [step, hp] at h

theorem release_move {w w' : World} {p : ℕ} (h : step w (.release p) = some w') : Move w (.release p) w' := by
  cases hp : w.proc p with
  | holding n a =>
    simp only [step, hp, releaseRegion] at h
    split_ifs at h with ha
    cases hs : postSem (w.cache.heap a).lock with
    | none => simp [hs] at h
    | some r =>
      obtain ⟨q, l⟩ := r
      cases q with
      | none =>
        simp only [hs] at h
        cases h
        exact .release p n a l hp hs
      | some q =>
        simp only [hs] at h
        cases h
        exact .handOver p n a q l hp hs
  | _ => simp [step, hp] at h

theorem step_move {w w' : World} {e : Call} (h : step w e = some w') : Move w e w' := by
  cases e with
  | acquire p n fresh => exact acquire_move h
  | wait p =>
    cases hp : w.proc p with
    | toWait n a =>
      simp only [step, hp] at h
      cases h
      exact .wait p n a hp
    | _ => simp [step, hp] at h
  | retake p => exact retake_move h
  | read p =>
    cases hp : w.proc p with
    | loading n a =>
      simp only [step, hp] at h
      cases h
      exact .read p n a hp
    | _ => simp [step, hp] at h
  | insert p =>
    cases hp : w.proc p with
    | loaded n a =>
      simp only [step, hp] at h
      cases h
      exact .insert p n a hp
    | _ => simp [step, hp] at h
  | release p => exact release_move h

end OsKernel.Fs.CacheSys
