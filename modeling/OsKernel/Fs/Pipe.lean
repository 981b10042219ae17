/-
Pipes (`fs/pipe.c`).

Any number of processes run `pipe_write` and `pipe_read` on one pipe. A stretch of code with `pi->lock` held is one step
(`writeRegion`, `readRegion`, `close`), as are the `post_all_sem` a full pipe's writer makes without that lock, the
`_wait_sem` calls, and a wake-up by another source. A process that has dropped `pi->lock` to wait still holds the spinlock of
the semaphore it waits on (`rheld`, `wheld`), and nobody can post or wait there meanwhile.

`Sys.stored` and `Sys.delivered` are ghosts, the bytes put into the pipe and the bytes handed to readers. Result
(`pipe_fifo`): the second is a prefix of the first, what is between them is the content of the ring, and a read returns 0
only at the end of the data. The counters are u32 and the test of a full pipe adds in u32; it therefore takes every pipe as
full whose `nread` is within 512 of the top, and `nwrite` never wraps (`Inv.stored_lt`).
-/
import OsKernel.Lib.Ring
import OsKernel.Lib.Runs
import OsKernel.Common.Sem

namespace OsKernel.Fs.PipeSys

open OsKernel.Ring OsKernel.Runs OsKernel.Sem

/-! ## The functions -/

def pipeSize : ℕ := 512

/-- addition of u32 -/
def add32 (a b : ℕ) : ℕ := (a + b) % 2 ^ 32

/-- `Pipe`; the spinlocks are in `Sys` -/
structure Pipe where
  wlock : Semaphore
  rlock : Semaphore
  data : ℕ → UInt8
  nread : ℕ
  nwrite : ℕ
  readopen : Bool
  writeopen : Bool

/-- `init_pipe`, on memory that holds anything -/
def initPipe (data : ℕ → UInt8) : Pipe := ⟨initSem 0, initSem 0, data, 0, 0, true, true⟩

inductive WriteOut where
  | done
  /-- the read end is closed -/
  | closed
  /-- the buffer is full -/
  | full
deriving DecidableEq, Repr

/-- the loop of `pipe_write` up to where it gives up `pi->lock`: why, the bytes not written yet, the pipe -/
def writeLoop : List UInt8 → Pipe → WriteOut × List UInt8 × Pipe
  | [], pi => (.done, [], pi)
  | c :: rest, pi =>
    if pi.readopen = false then (.closed, c :: rest, pi)
    else if add32 pi.nread pipeSize ≤ pi.nwrite then (.full, c :: rest, pi)
    else writeLoop rest { pi with
      data := Function.update pi.data (pi.nwrite % pipeSize) c
      nwrite := add32 pi.nwrite 1 }

/-- the second loop of `pipe_read`, n turns at most -/
def readLoop : ℕ → Pipe → List UInt8 × Pipe
  | 0, pi => ([], pi)
  | n + 1, pi =>
    if pi.nwrite = pi.nread then ([], pi)
    else
      let r := readLoop n { pi with nread := add32 pi.nread 1 }
      (pi.data (pi.nread % pipeSize) :: r.1, r.2)

/-! ## The processes -/

/-- where a process is -/
inductive Phase where
  /-- in neither function; what the last one returned -/
  | out (ret : ℤ)
  /-- in `pipe_write`, before `acquire_spinlock`; len bytes are written, rest is to come -/
  | toWrite (len : ℕ) (rest : List UInt8)
  /-- found the buffer full -/
  | toPost (len : ℕ) (rest : List UInt8)
  | toWait (len : ℕ) (rest : List UInt8)
  | writerAsleep (len : ℕ) (rest : List UInt8)
  /-- in `pipe_read`, before `acquire_spinlock` -/
  | toRead (n : ℤ)
  /-- found the buffer empty -/
  | toWaitRead (n : ℤ)
  | readerAsleep (n : ℤ)
deriving DecidableEq, Repr

structure Sys where
  pi : Pipe
  phase : ℕ → Phase
  /-- the spinlocks of the two semaphores -/
  rheld : Bool
  wheld : Bool
  stored : List UInt8
  delivered : List UInt8

def init (data : ℕ → UInt8) : Sys := ⟨initPipe data, fun _ => .out 0, false, false, [], []⟩

inductive Call where
  /-- p calls `pipe_write` with these bytes -/
  | write (p : ℕ) (src : List UInt8)
  | read (p : ℕ) (n : ℤ)
  /-- the next step of p inside its call -/
  | go (p : ℕ)
  /-- p is woken by something else than a post -/
  | interrupt (p : ℕ)
  | close (writable : Bool)

/-- a sleeper that has been posted -/
def wakePhase : Phase → Phase
  | .writerAsleep len rest => .toWrite len rest
  | .readerAsleep n => .toRead n
  | ph => ph

def Sys.wake (s : Sys) (woken : List ℕ) : Sys :=
  { s with phase := fun p => if p ∈ woken then wakePhase (s.phase p) else s.phase p }

def Sys.to (s : Sys) (p : ℕ) (ph : Phase) : Sys := { s with phase := Function.update s.phase p ph }

/-- `post_all_sem(&pi->rlock)`; it spins while the spinlock is held -/
def postReaders (s : Sys) : Option Sys :=
  if s.rheld then none
  else (postAllSem s.pi.rlock).map fun r => ({ s with pi := { s.pi with rlock := r.2 } } : Sys).wake r.1

/-- `post_all_sem(&pi->wlock)` -/
def postWriters (s : Sys) : Option Sys :=
  if s.wheld then none
  else (postAllSem s.pi.wlock).map fun r => ({ s with pi := { s.pi with wlock := r.2 } } : Sys).wake r.1

/-- `pipe_write` from `acquire_spinlock` to where it releases the lock -/
def writeRegion (s : Sys) (p len : ℕ) (src : List UInt8) : Option Sys :=
  let r := writeLoop src s.pi
  let rest := r.2.1
  let len := len + (src.length - rest.length)
  let s := { s with pi := r.2.2, stored := s.stored ++ src.take (src.length - rest.length) }
  match r.1 with
  | .closed => some (s.to p (.out (-1)))
  | .full => if s.wheld then none else some { s.to p (.toPost len rest) with wheld := true }
  | .done => (postReaders s).map fun s => s.to p (.out len)

/-- `pipe_read` from `acquire_spinlock` to where it releases the lock -/
def readRegion (s : Sys) (p : ℕ) (n : ℤ) : Option Sys :=
  if s.pi.nwrite = s.pi.nread ∧ s.pi.writeopen = true then
    if s.rheld then none else some { s.to p (.toWaitRead n) with rheld := true }
  else
    let r := readLoop n.toNat s.pi
    (postWriters { s with pi := r.2, delivered := s.delivered ++ r.1 }).map fun s => s.to p (.out r.1.length)

/-- `pipe_close` -/
def close (s : Sys) (writable : Bool) : Option Sys :=
  if writable then postReaders { s with pi := { s.pi with writeopen := false } }
  else postWriters { s with pi := { s.pi with readopen := false } }

/-- the next step of a process inside its call -/
def go (s : Sys) (p : ℕ) : Option Sys :=
  match s.phase p with
  | .toWrite len rest => writeRegion s p len rest
  | .toPost len rest => (postReaders s).map fun s => s.to p (.toWait len rest)
  | .toWait len rest =>
    let r := waitSem p s.pi.wlock
    some { s.to p (if r.1 then .toWrite len rest else .writerAsleep len rest) with
      pi := { s.pi with wlock := r.2 }, wheld := false }
  | .toRead n => readRegion s p n
  | .toWaitRead n =>
    let r := waitSem p s.pi.rlock
    some { s.to p (if r.1 then .toRead n else .readerAsleep n) with pi := { s.pi with rlock := r.2 }, rheld := false }
  | .out _ | .writerAsleep _ _ | .readerAsleep _ => none

/-- the second half of `_wait_sem` when nobody has posted -/
def unwait (p : ℕ) (l : Semaphore) : Semaphore := ⟨l.val + 1, l.sleeplist.erase p⟩

/-- a sleeper leaves its call without having been posted -/
def interrupt (s : Sys) (p : ℕ) : Option Sys :=
  match s.phase p with
  | .writerAsleep len _ =>
    if s.wheld then none else some { s.to p (.out len) with pi := { s.pi with wlock := unwait p s.pi.wlock } }
  | .readerAsleep _ =>
    if s.rheld then none else some { s.to p (.out (-1)) with pi := { s.pi with rlock := unwait p s.pi.rlock } }
  | _ => none

/-- one step; the pipe is freed when both ends are closed, and an assert stops a call on a closed end -/
def step (s : Sys) (e : Call) : Option Sys :=
  if s.pi.readopen = false ∧ s.pi.writeopen = false then none
  else
    match e with
    | .write p src =>
      match s.phase p with
      | .out _ => if s.pi.writeopen then writeRegion s p 0 src else none
      | _ => none
    | .read p n =>
      match s.phase p with
      | .out _ => if s.pi.readopen then readRegion s p n else none
      | _ => none
    | .go p => go s p
    | .interrupt p => interrupt s p
    | .close writable => close s writable

/-! ## The ring -/

/-- what the ring holds, with the two ghosts -/
def Sys.ring (s : Sys) : (ℕ → UInt8) × ℕ × ℕ × List UInt8 × List UInt8 :=
  (s.pi.data, s.pi.nread, s.pi.nwrite, s.stored, s.delivered)

/-- the ring holds what has been stored and not delivered -/
structure Inv (s : Sys) : Prop where
  nread : s.pi.nread = s.delivered.length
  nwrite : s.pi.nwrite = s.stored.length
  room : s.stored.length ≤ s.delivered.length + pipeSize
  stored_lt : s.stored.length < 2 ^ 32
  queue : s.delivered ++ window pipeSize s.pi.data s.pi.nread s.pi.nwrite = s.stored

theorem inv_init (data : ℕ → UInt8) : Inv (init data) := by
  refine ⟨rfl, rfl, ?_, ?_, ?_⟩ <;> simp [init, initPipe]

theorem Inv.congr {s s' : Sys} (h : Inv s) (hr : s'.ring = s.ring) : Inv s' := by
  simp only [Sys.ring, Prod.mk.injEq] at hr
  obtain ⟨hd, hnr, hnw, hs, hdel⟩ := hr
  exact ⟨by rw [hnr, hdel, h.nread], by rw [hnw, hs, h.nwrite], by rw [hs, hdel]; exact h.room,
    by rw [hs]; exact h.stored_lt, by rw [hdel, hd, hnr, hnw, hs, h.queue]⟩

theorem Inv.le {s : Sys} (h : Inv s) : s.delivered.length ≤ s.stored.length := by
  rw [← h.queue, List.length_append]
  omega

section Ring

variable {s : Sys} (h : Inv s)
include h

/-- one byte is stored: the test in u32 keeps the counter below the top -/
theorem inv_push {c : UInt8} (hroom : ¬ add32 s.pi.nread pipeSize ≤ s.pi.nwrite) :
    Inv { s with
      pi := { s.pi with data := Function.update s.pi.data (s.pi.nwrite % pipeSize) c, nwrite := add32 s.pi.nwrite 1 }
      stored := s.stored ++ [c] } := by
  have hle := h.le
  have hlt := h.stored_lt
  rw [h.nread, h.nwrite, add32] at hroom
  have hbound : s.stored.length + 1 < 2 ^ 32 ∧ s.stored.length < s.delivered.length + pipeSize := by
    simp only [pipeSize] at hroom ⊢
    omega
  have hsucc : add32 s.pi.nwrite 1 = s.stored.length + 1 := by
    rw [add32, h.nwrite]
    exact Nat.mod_eq_of_lt hbound.1
  refine ⟨h.nread, ?_, ?_, ?_, ?_⟩
  · simp [hsucc]
  · simp only [List.length_append, List.length_singleton]
    omega
  · simp only [List.length_append, List.length_singleton]
    exact hbound.1
  · simp only [hsucc]
    rw [← h.nwrite, window_push c (by rw [h.nread, h.nwrite]; exact hle) (by rw [h.nread, h.nwrite]; exact hbound.2),
      ← List.append_assoc, h.queue]

/-- one byte is delivered -/
theorem inv_pop (hne : s.pi.nwrite ≠ s.pi.nread) :
    Inv { s with
      pi := { s.pi with nread := add32 s.pi.nread 1 }
      delivered := s.delivered ++ [s.pi.data (s.pi.nread % pipeSize)] } := by
  have hle := h.le
  have hlt := h.stored_lt
  have hroom := h.room
  have hnr := h.nread
  have hnw := h.nwrite
  have hsucc : add32 s.pi.nread 1 = s.pi.nread + 1 := Nat.mod_eq_of_lt (by omega)
  refine ⟨?_, h.nwrite, ?_, hlt, ?_⟩
  · rw [List.length_append, List.length_singleton, ← hnr]
    exact hsucc
  · simp only [List.length_append, List.length_singleton]
    omega
  · simp only [hsucc]
    rw [List.append_assoc, List.singleton_append, ← window_pop (by omega)]
    exact h.queue

end Ring

theorem writeLoop_length (src : List UInt8) (pi : Pipe) : (writeLoop src pi).2.1.length ≤ src.length := by
  induction src generalizing pi with
  | nil => exact le_rfl
  | cons c rest ih =>
    rw [writeLoop]
    split_ifs with hopen hfull
    · exact le_rfl
    · exact le_rfl
    · exact (ih _).trans (Nat.le_succ _)

/-- the loop of `pipe_write` stores what it takes off the front of the bytes -/
theorem inv_writeLoop (src : List UInt8) {s : Sys} (h : Inv s) :
    Inv { s with
      pi := (writeLoop src s.pi).2.2
      stored := s.stored ++ src.take (src.length - (writeLoop src s.pi).2.1.length) } := by
  induction src generalizing s with
  | nil => simpa [writeLoop] using h
  | cons c rest ih =>
    rw [writeLoop]
    split_ifs with hopen hfull
    · simpa using h
    · simpa using h
    · have hstep := ih (inv_push h (c := c) hfull)
      have hlen := writeLoop_length rest { s.pi with
        data := Function.update s.pi.data (s.pi.nwrite % pipeSize) c
        nwrite := add32 s.pi.nwrite 1 }
      rw [List.length_cons, Nat.succ_sub hlen, List.take_succ_cons]
      simpa only [List.append_assoc, List.singleton_append] using hstep

/-- the loop of `pipe_read` delivers what it takes out of the ring -/
theorem inv_readLoop (n : ℕ) {s : Sys} (h : Inv s) :
    Inv { s with pi := (readLoop n s.pi).2, delivered := s.delivered ++ (readLoop n s.pi).1 } := by
  induction n generalizing s with
  | zero => simpa [readLoop] using h
  | succ n ih =>
    rw [readLoop]
    split_ifs with hempty
    · simpa using h
    · have hstep := ih (inv_pop h hempty)
      simpa only [List.append_assoc, List.singleton_append] using hstep

/-! ## Runs -/

theorem postReaders_ring {s s' : Sys} (h : postReaders s = some s') : s'.ring = s.ring := by
  obtain ⟨-, h⟩ := Option.ite_none_left_eq_some.1 h
  obtain ⟨r, -, rfl⟩ := Option.map_eq_some_iff.1 h
  rfl

theorem postWriters_ring {s s' : Sys} (h : postWriters s = some s') : s'.ring = s.ring := by
  obtain ⟨-, h⟩ := Option.ite_none_left_eq_some.1 h
  obtain ⟨r, -, rfl⟩ := Option.map_eq_some_iff.1 h
  rfl

section Steps

variable {s s' : Sys} (h : Inv s)
include h

theorem inv_writeRegion {p len : ℕ} {src : List UInt8} (hs : writeRegion s p len src = some s') : Inv s' := by
  have hloop := inv_writeLoop src h
  rw [writeRegion] at hs
  dsimp only at hs
  split at hs
  · rw [← Option.some.inj hs]
    exact hloop.congr rfl
  · obtain ⟨-, hs⟩ := Option.ite_none_left_eq_some.1 hs
    rw [← Option.some.inj hs]
    exact hloop.congr rfl
  · obtain ⟨t, ht, rfl⟩ := Option.map_eq_some_iff.1 hs
    exact (hloop.congr (postReaders_ring ht)).congr rfl

theorem inv_readRegion {p : ℕ} {n : ℤ} (hs : readRegion s p n = some s') : Inv s' := by
  unfold readRegion at hs
  split at hs
  · obtain ⟨-, hs⟩ := Option.ite_none_left_eq_some.1 hs
    rw [← Option.some.inj hs]
    exact h.congr rfl
  · obtain ⟨t, ht, rfl⟩ := Option.map_eq_some_iff.1 hs
    exact ((inv_readLoop n.toNat h).congr (postWriters_ring ht)).congr rfl

theorem inv_close {writable : Bool} (hs : close s writable = some s') : Inv s' := by
  unfold close at hs
  split at hs
  · exact h.congr ((postReaders_ring hs).trans rfl)
  · exact h.congr ((postWriters_ring hs).trans rfl)

theorem inv_go {p : ℕ} (hs : go s p = some s') : Inv s' := by
  unfold go at hs
  split at hs
  · exact inv_writeRegion h hs
  · obtain ⟨t, ht, rfl⟩ := Option.map_eq_some_iff.1 hs
    exact (h.congr (postReaders_ring ht)).congr rfl
  · rw [← Option.some.inj hs]
    exact h.congr rfl
  · exact inv_readRegion h hs
  · rw [← Option.some.inj hs]
    exact h.congr rfl
  all_goals cases hs

theorem inv_interrupt {p : ℕ} (hs : interrupt s p = some s') : Inv s' := by
  unfold interrupt at hs
  split at hs
  · obtain ⟨-, hs⟩ := Option.ite_none_left_eq_some.1 hs
    rw [← Option.some.inj hs]
    exact h.congr rfl
  · obtain ⟨-, hs⟩ := Option.ite_none_left_eq_some.1 hs
    rw [← Option.some.inj hs]
    exact h.congr rfl
  · cases hs

theorem inv_step {e : Call} (hs : step s e = some s') : Inv s' := by
  obtain ⟨-, hs⟩ := Option.ite_none_left_eq_some.1 hs
  cases e with
  | write p src =>
    dsimp only at hs
    split at hs
    · exact inv_writeRegion h (Option.ite_none_right_eq_some.1 hs).2
    · cases hs
  | read p n =>
    dsimp only at hs
    split at hs
    · exact inv_readRegion h (Option.ite_none_right_eq_some.1 hs).2
    · cases hs
  | go p => exact inv_go h hs
  | interrupt p => exact inv_interrupt h hs
  | close writable => exact inv_close h hs

end Steps

/-- the step is the region of a `pipe_read(n)` by p that ends with `pi->lock` released -/
def Reads (s : Sys) (p : ℕ) (n : ℤ) : Call → Prop
  | .read q m => q = p ∧ m = n
  | .go q => q = p ∧ s.phase p = .toRead n
  | _ => False

/-- a read of something returns nothing only at the end of the data -/
theorem readRegion_zero {s s' : Sys} {p : ℕ} {n : ℤ} (hn : 0 < n) (hs : readRegion s p n = some s')
    (hret : s'.phase p = .out 0) : s.pi.nwrite = s.pi.nread ∧ s.pi.writeopen = false := by
  unfold readRegion at hs
  split_ifs at hs with hwait hheld
  · rw [← Option.some.inj hs] at hret
    simp [Sys.to] at hret
  · obtain ⟨t, ht, rfl⟩ := Option.map_eq_some_iff.1 hs
    have hlen : (readLoop n.toNat s.pi).1.length = 0 := by simpa [Sys.to] using hret
    obtain ⟨k, hk⟩ : ∃ k, n.toNat = k + 1 := ⟨n.toNat - 1, by omega⟩
    have hempty : s.pi.nwrite = s.pi.nread := by
      by_contra hne
      simp [hk, readLoop, hne] at hlen
    exact ⟨hempty, Bool.eq_false_of_not_eq_true fun hopen => hwait ⟨hempty, hopen⟩⟩

theorem reads_zero {s s' : Sys} {p : ℕ} {n : ℤ} {e : Call} (hs : step s e = some s') (he : Reads s p n e) (hn : 0 < n)
    (hret : s'.phase p = .out 0) : s.pi.nwrite = s.pi.nread ∧ s.pi.writeopen = false := by
  obtain ⟨-, hs⟩ := Option.ite_none_left_eq_some.1 hs
  cases e with
  | read q m =>
    obtain ⟨rfl, rfl⟩ := he
    dsimp only at hs
    split at hs
    · exact readRegion_zero hn (Option.ite_none_right_eq_some.1 hs).2 hret
    · cases hs
  | go q =>
    obtain ⟨rfl, hph⟩ := he
    simp only [go, hph] at hs
    exact readRegion_zero hn hs hret
  | write q src => exact absurd he id
  | interrupt q => exact absurd he id
  | close writable => exact absurd he id

/-- **Pipes are FIFOs.** In every state of every run, what readers got is a prefix of what writers put in, the rest is the
`nwrite - nread` bytes in the ring, at most `PIPE_SIZE` of them, and a `pipe_read` of at least one byte that returns 0 finds
the pipe empty and its write end closed. -/
theorem pipe_fifo (data : ℕ → UInt8) (calls : List Call) (s : Sys) (hr : run step (init data) calls = some s) :
    s.delivered <+: s.stored ∧
    (s.pi.nwrite + (2 ^ 32 - s.pi.nread)) % 2 ^ 32 ≤ pipeSize ∧
    (s.pi.nwrite + (2 ^ 32 - s.pi.nread)) % 2 ^ 32 = s.stored.length - s.delivered.length ∧
    ∀ e s' p n, step s e = some s' → Reads s p n e → 0 < n → s'.phase p = .out 0 →
      s.pi.nwrite = s.pi.nread ∧ s.pi.writeopen = false := by
  have h : Inv s := run_invariant (fun s e s' hI _ hs => inv_step hI hs) (inv_init data) (meets_true _ _ _) hr
  have hle := h.le
  have hlt := h.stored_lt
  have hdiff : (s.pi.nwrite + (2 ^ 32 - s.pi.nread)) % 2 ^ 32 = s.stored.length - s.delivered.length := by
    rw [h.nread, h.nwrite]
    omega
  refine ⟨⟨_, h.queue⟩, ?_, hdiff, fun e s' p n hs he hn hret => reads_zero hs he hn hret⟩
  have hroom := h.room
  rw [hdiff]
  omega

/-- a reader goes to sleep on the empty pipe, a writer stores three bytes and wakes it, and it takes two of them -/
def sleepThenRead : List Call := [.read 1 2, .go 1, .write 2 [10, 11, 12], .go 1]

theorem pipe_fifo_sleepThenRead : ∃ s, run step (init fun _ => 0) sleepThenRead = some s ∧
    s.phase 1 = .out 2 ∧ s.delivered = [10, 11] ∧ s.delivered <+: s.stored ∧ s.stored = [10, 11, 12] := by
  obtain ⟨s, hs, hout, hdelivered, hstored⟩ : ∃ s, run step (init fun _ => 0) sleepThenRead = some s ∧
      s.phase 1 = .out 2 ∧ s.delivered = [10, 11] ∧ s.stored = [10, 11, 12] := run_computes (by decide +kernel)
  exact ⟨s, hs, hout, hdelivered, (pipe_fifo _ _ s hs).1, hstored⟩

end OsKernel.Fs.PipeSys
