/-
Atomic operations as an interleaving of the regions of `cache_begin_op`, `cache_sync` and `cache_end_op`.

Any number of operations, named by their contexts, run concurrently. Every stretch of code between acquiring and
releasing `log.lock` is one step; going to sleep on `log.begin` or `log.end`, each `write_header` of a commit and each
`post_all_sem` are steps of their own. A process that decides to sleep takes the semaphore's lock before it drops
`log.lock` and keeps it until it is on the sleep list (`beginPark`, `endPark`), so `post_all_sem` cannot slip in between.
The committer keeps `log.lock` from `committing = FALSE` to the end of its two `post_all_sem` calls (`Sys.lock`).

`Sys.hist` is a ghost: the events so far, newest first.
-/
import OsKernel.Lib.Runs
import OsKernel.Fs.Commit

namespace OsKernel.Fs.LogSys

open OsKernel.Fs OsKernel.Sem OsKernel.Runs
open Function (update)

/-- how far the operation that ended last has come with its commit -/
inductive Stage where
  /-- `wblog` has run -/
  | logged
  /-- the first `write_header` has completed -/
  | headerWritten
  /-- `create_checkpoint` has run -/
  | installed
  /-- the second `write_header` has completed -/
  | cleared
  /-- `committing` is FALSE again, `log.lock` is held, nobody has been woken -/
  | finishing
  /-- the sleepers on `log.end` have been woken -/
  | postedEnd
deriving DecidableEq, Repr

inductive Phase where
  | idle
  /-- must wait; holds the lock of `log.begin` -/
  | beginPark
  | beginAsleep
  | beginWoken
  | active
  /-- has ended; holds the lock of `log.end` -/
  | endPark
  | endAsleep
  | endWoken
  | commit (k : Stage)
deriving DecidableEq, Repr

inductive Event where
  | began (c : ℕ)
  /-- the flag tells whether a log block was opened for n -/
  | synced (c n : ℕ) (opened : Bool)
  | ended (c : ℕ)
  /-- `wblog` has written the listed blocks to the log -/
  | commitStart (listed : List ℕ)
  /-- the first `write_header`, and the block numbers it put on disk -/
  | headerWritten (listed : List ℕ)
  /-- `create_checkpoint`, and the blocks it wrote home -/
  | installed (listed : List ℕ)
  /-- the second `write_header` has completed -/
  | commitDone
  /-- `cache_end_op(c)` returns -/
  | returned (c : ℕ)
deriving DecidableEq, Repr

structure Sys where
  log : Log
  beginSem : Semaphore
  endSem : Semaphore
  /-- who holds `log.lock`, `log.begin.lock` and `log.end.lock` between steps -/
  lock : Option ℕ
  beginLock : Option ℕ
  endLock : Option ℕ
  phase : ℕ → Phase
  /-- `ctx->rm` -/
  rm : ℕ → ℕ
  hist : List Event

/-- the state `init_bcache` leaves: an empty log (entries may be stale), zero counters, nobody running -/
def init (entries : Fin logMaxSize → ℕ) : Sys :=
  ⟨⟨⟨0, entries⟩, 0, 0, false⟩, initSem 0, initSem 0, none, none, none, fun _ => .idle, fun _ => 0, []⟩

inductive Call where
  | beginOp (c : ℕ)
  | waitBegin (c : ℕ)
  | resumeBegin (c : ℕ)
  | sync (c n : ℕ)
  | endOp (c : ℕ)
  | waitEnd (c : ℕ)
  | resumeEnd (c : ℕ)
  | writeHeader (c : ℕ)
  | checkpoint (c : ℕ)
  | clearHeader (c : ℕ)
  | finish (c : ℕ)
  | postEnd (c : ℕ)
  | postBegin (c : ℕ)
deriving DecidableEq, Repr

@[simps -fullyApplied]
def Sys.to (s : Sys) (c : ℕ) (p : Phase) : Sys := { s with phase := update s.phase c p }

@[simps -fullyApplied]
def Sys.note (s : Sys) (e : Event) : Sys := { s with hist := e :: s.hist }

/-- the processes in l are taken off their sleep -/
def wake (l : List ℕ) (p : Phase) (phase : ℕ → Phase) : ℕ → Phase := fun c => if c ∈ l then p else phase c

/-- one pass of the loop of `cache_begin_op`, with `log.lock` held -/
def tryBegin (sb : SuperBlock) (s : Sys) (c : ℕ) : Option Sys :=
  if Admits sb s.log then
    some (({ s with log := beginRegion s.log, rm := update s.rm c opMaxNumBlocks }.to c .active).note (.began c))
  else if s.beginLock = none then some ({ s with beginLock := some c }.to c .beginPark)
  else none

/-- the region of `cache_sync(c, b)` for a block with number n; none when the kernel panics -/
def trySync (s : Sys) (c n : ℕ) : Option Sys :=
  match syncRegion n (s.rm c) s.log with
  | .error _ => none
  | .ok (rm, opened, l) => some ({ s with log := l, rm := update s.rm c rm }.note (.synced c n opened))

/-- the first region of `cache_end_op`: the last operation goes on to `wblog`, any other one to sleep -/
def tryEnd (s : Sys) (c : ℕ) : Option Sys :=
  let l := endRegion (s.rm c) s.log
  if l.committing then
    some ((({ s with log := l }.to c (.commit .logged)).note (.ended c)).note (.commitStart l.header.listed))
  else if s.endLock = none then some (({ s with log := l, endLock := some c }.to c .endPark).note (.ended c))
  else none

def step (sb : SuperBlock) (s : Sys) : Call → Option Sys
  | .beginOp c => if s.phase c = .idle ∧ s.lock = none then tryBegin sb s c else none
  | .waitBegin c =>
    if s.phase c = .beginPark then
      let r := waitSem c s.beginSem
      some ({ s with beginSem := r.2, beginLock := none }.to c (if r.1 then .beginWoken else .beginAsleep))
    else none
  | .resumeBegin c => if s.phase c = .beginWoken ∧ s.lock = none then tryBegin sb s c else none
  | .sync c n => if s.phase c = .active ∧ s.lock = none then trySync s c n else none
  | .endOp c => if s.phase c = .active ∧ s.lock = none then tryEnd s c else none
  | .waitEnd c =>
    if s.phase c = .endPark then
      let r := waitSem c s.endSem
      some ({ s with endSem := r.2, endLock := none }.to c (if r.1 then .endWoken else .endAsleep))
    else none
  | .resumeEnd c => if s.phase c = .endWoken then some ((s.to c .idle).note (.returned c)) else none
  | .writeHeader c =>
    if s.phase c = .commit .logged then
      some ((s.to c (.commit .headerWritten)).note (.headerWritten s.log.header.listed))
    else none
  | .checkpoint c =>
    if s.phase c = .commit .headerWritten ∧ s.lock = none then
      some (({ s with log := { s.log with header := s.log.header.cleared } }.to c (.commit .installed)).note
        (.installed s.log.header.listed))
    else none
  | .clearHeader c =>
    if s.phase c = .commit .installed then some ((s.to c (.commit .cleared)).note .commitDone) else none
  | .finish c =>
    if s.phase c = .commit .cleared ∧ s.lock = none then
      some ({ s with log := { s.log with committing := false }, lock := some c }.to c (.commit .finishing))
    else none
  | .postEnd c =>
    if s.phase c = .commit .finishing ∧ s.endLock = none then
      match postAllSem s.endSem with
      | none => none
      | some (l, sem) =>
        some ({ s with endSem := sem, phase := wake l .endWoken s.phase }.to c (.commit .postedEnd))
    else none
  | .postBegin c =>
    if s.phase c = .commit .postedEnd ∧ s.beginLock = none then
      match postAllSem s.beginSem with
      | none => none
      | some (l, sem) =>
        some (({ s with beginSem := sem, lock := none, phase := wake l .beginWoken s.phase }.to c .idle).note
          (.returned c))
    else none

/-- what one step can do, with its guards -/
inductive Move (sb : SuperBlock) (s : Sys) : Sys → Prop
  | began (c : ℕ) (hp : s.phase c = .idle ∨ s.phase c = .beginWoken) (hl : s.lock = none) (ha : Admits sb s.log) :
    Move sb s (({ s with log := beginRegion s.log, rm := update s.rm c opMaxNumBlocks }.to c .active).note
      (.began c))
  | parkBegin (c : ℕ) (hp : s.phase c = .idle ∨ s.phase c = .beginWoken) :
    Move sb s ({ s with beginLock := some c }.to c .beginPark)
  | waitBegin (c : ℕ) (hp : s.phase c = .beginPark) :
    Move sb s ({ s with beginSem := (waitSem c s.beginSem).2, beginLock := none }.to c
      (if (waitSem c s.beginSem).1 then .beginWoken else .beginAsleep))
  | synced (c n rm : ℕ) (opened : Bool) (l : Log) (hp : s.phase c = .active) (hl : s.lock = none)
      (hr : syncRegion n (s.rm c) s.log = .ok (rm, opened, l)) :
    Move sb s ({ s with log := l, rm := update s.rm c rm }.note (.synced c n opened))
  | endLast (c : ℕ) (hp : s.phase c = .active) (hl : s.lock = none)
      (hc : (endRegion (s.rm c) s.log).committing = true) :
    Move sb s ((({ s with log := endRegion (s.rm c) s.log }.to c (.commit .logged)).note (.ended c)).note
      (.commitStart (endRegion (s.rm c) s.log).header.listed))
  | endPark (c : ℕ) (hp : s.phase c = .active) (hl : s.lock = none)
      (hc : (endRegion (s.rm c) s.log).committing = false) :
    Move sb s (({ s with log := endRegion (s.rm c) s.log, endLock := some c }.to c .endPark).note (.ended c))
  | waitEnd (c : ℕ) (hp : s.phase c = .endPark) :
    Move sb s ({ s with endSem := (waitSem c s.endSem).2, endLock := none }.to c
      (if (waitSem c s.endSem).1 then .endWoken else .endAsleep))
  | resumeEnd (c : ℕ) (hp : s.phase c = .endWoken) : Move sb s ((s.to c .idle).note (.returned c))
  | writeHeader (c : ℕ) (hp : s.phase c = .commit .logged) :
    Move sb s ((s.to c (.commit .headerWritten)).note (.headerWritten s.log.header.listed))
  | checkpoint (c : ℕ) (hp : s.phase c = .commit .headerWritten) (hl : s.lock = none) :
    Move sb s (({ s with log := { s.log with header := s.log.header.cleared } }.to c (.commit .installed)).note
      (.installed s.log.header.listed))
  | clearHeader (c : ℕ) (hp : s.phase c = .commit .installed) :
    Move sb s ((s.to c (.commit .cleared)).note .commitDone)
  | finish (c : ℕ) (hp : s.phase c = .commit .cleared) (hl : s.lock = none) :
    Move sb s ({ s with log := { s.log with committing := false }, lock := some c }.to c (.commit .finishing))
  | postEnd (c : ℕ) (l : List ℕ) (sem : Semaphore) (hp : s.phase c = .commit .finishing) (hl : s.endLock = none)
      (hs : postAllSem s.endSem = some (l, sem)) :
    Move sb s ({ s with endSem := sem, phase := wake l .endWoken s.phase }.to c (.commit .postedEnd))
  | postBegin (c : ℕ) (l : List ℕ) (sem : Semaphore) (hp : s.phase c = .commit .postedEnd) (hl : s.beginLock = none)
      (hs : postAllSem s.beginSem = some (l, sem)) :
    Move sb s (({ s with beginSem := sem, lock := none, phase := wake l .beginWoken s.phase }.to c .idle).note
      (.returned c))

theorem tryBegin_move {sb : SuperBlock} {s s' : Sys} {c : ℕ} (hp : s.phase c = .idle ∨ s.phase c = .beginWoken)
    (hl : s.lock = none) (h : tryBegin sb s c = some s') : Move sb s s' := by
  unfold tryBegin at h
  split_ifs at h with ha hb
  · cases h; exact .began c hp hl ha
  · cases h; exact .parkBegin c hp

theorem step_move {sb : SuperBlock} {s s' : Sys} {e : Call} (h : step sb s e = some s') : Move sb s s' := by
  cases e with
  | beginOp c =>
    obtain ⟨⟨hp, hl⟩, h⟩ := Option.ite_none_right_eq_some.1 h
    exact tryBegin_move (Or.inl hp) hl h
  | waitBegin c =>
    obtain ⟨hp, h⟩ := Option.ite_none_right_eq_some.1 h
    cases h; exact .waitBegin c hp
  | resumeBegin c =>
    obtain ⟨⟨hp, hl⟩, h⟩ := Option.ite_none_right_eq_some.1 h
    exact tryBegin_move (Or.inr hp) hl h
  | sync c n =>
    obtain ⟨⟨hp, hl⟩, h⟩ := Option.ite_none_right_eq_some.1 h
    unfold trySync at h
    cases hr : syncRegion n (s.rm c) s.log with
    | error e => simp [hr] at h
    | ok r =>
      simp only [hr] at h
      cases h; exact .synced c n _ _ _ hp hl hr
  | endOp c =>
    obtain ⟨⟨hp, hl⟩, h⟩ := Option.ite_none_right_eq_some.1 h
    unfold tryEnd at h
    dsimp only at h
    split_ifs at h with hc
    · rw [← Option.some.inj h]
      exact .endLast c hp hl hc
    · rw [← Option.some.inj h]
      exact .endPark c hp hl (Bool.eq_false_iff.2 hc)
  | waitEnd c =>
    obtain ⟨hp, h⟩ := Option.ite_none_right_eq_some.1 h
    cases h; exact .waitEnd c hp
  | resumeEnd c =>
    obtain ⟨hp, h⟩ := Option.ite_none_right_eq_some.1 h
    cases h; exact .resumeEnd c hp
  | writeHeader c =>
    obtain ⟨hp, h⟩ := Option.ite_none_right_eq_some.1 h
    cases h; exact .writeHeader c hp
  | checkpoint c =>
    obtain ⟨⟨hp, hl⟩, h⟩ := Option.ite_none_right_eq_some.1 h
    cases h; exact .checkpoint c hp hl
  | clearHeader c =>
    obtain ⟨hp, h⟩ := Option.ite_none_right_eq_some.1 h
    cases h; exact .clearHeader c hp
  | finish c =>
    obtain ⟨⟨hp, hl⟩, h⟩ := Option.ite_none_right_eq_some.1 h
    cases h; exact .finish c hp hl
  | postEnd c =>
    obtain ⟨⟨hp, hl⟩, h⟩ := Option.ite_none_right_eq_some.1 h
    cases hs : postAllSem s.endSem with
    | none => simp [hs] at h
    | some r =>
      simp only [hs] at h
      cases h; exact .postEnd c _ _ hp hl hs
  | postBegin c =>
    obtain ⟨⟨hp, hl⟩, h⟩ := Option.ite_none_right_eq_some.1 h
    cases hs : postAllSem s.beginSem with
    | none => simp [hs] at h
    | some r =>
      simp only [hs] at h
      cases h; exact .postBegin c _ _ hp hl hs

/-! ## Enabled steps -/

section Enabled

variable (sb : SuperBlock) {s : Sys} {c : ℕ}

theorem step_beginOp (hc : s.phase c = .idle) (hl : s.lock = none) (ha : Admits sb s.log) :
    step sb s (.beginOp c) =
      some (({ s with log := beginRegion s.log, rm := update s.rm c opMaxNumBlocks }.to c .active).note
        (.began c)) := by
  simp only [step, hc, hl, and_self, if_true, tryBegin, if_pos ha]

theorem step_sync {n rm : ℕ} {opened : Bool} {l : Log} (hc : s.phase c = .active) (hl : s.lock = none)
    (hr : syncRegion n (s.rm c) s.log = .ok (rm, opened, l)) :
    step sb s (.sync c n) = some ({ s with log := l, rm := update s.rm c rm }.note (.synced c n opened)) := by
  simp only [step, hc, hl, and_self, if_true, trySync, hr]

theorem step_endOp_park (hc : s.phase c = .active) (hl : s.lock = none) (he : s.endLock = none)
    (hcm : (endRegion (s.rm c) s.log).committing = false) :
    step sb s (.endOp c) =
      some (({ s with log := endRegion (s.rm c) s.log, endLock := some c }.to c .endPark).note (.ended c)) := by
  simp only [step, hc, hl, and_self, if_true, tryEnd, hcm, he, Bool.false_eq_true, if_false]

theorem step_endOp_last (hc : s.phase c = .active) (hl : s.lock = none)
    (hcm : (endRegion (s.rm c) s.log).committing = true) :
    step sb s (.endOp c) =
      some ((({ s with log := endRegion (s.rm c) s.log }.to c (.commit .logged)).note (.ended c)).note
        (.commitStart (endRegion (s.rm c) s.log).header.listed)) := by
  simp only [step, hc, hl, and_self, if_true, tryEnd, hcm]

theorem step_waitEnd (hc : s.phase c = .endPark) :
    step sb s (.waitEnd c) =
      some ({ s with endSem := (waitSem c s.endSem).2, endLock := none }.to c
        (if (waitSem c s.endSem).1 then .endWoken else .endAsleep)) := by
  simp only [step, hc, if_true]

end Enabled

end OsKernel.Fs.LogSys
