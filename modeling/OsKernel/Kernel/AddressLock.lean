/-
The lock of an address space (`pd->lock`) on every path of `sbrk`, `pgfault_handler`, `fork` and `free_sections`
(`kernel/paging.c`, `kernel/proc.c`).

Only the process that owns the address space takes the lock, so a call that finds it held waits for itself (`deadlock`). Two
paths do not give it back: `sbrk(0)` returns early, and a fault in a text section of length 0 leaves the handler through `exit`,
which frees the sections and takes the lock once more.

Result (`lock_balanced`): in every run of calls that take neither path, the lock is free between the calls, and no call waits for
it. `lock_leaks` has a run for each path.
-/
import OsKernel.Kernel.Sbrk

namespace OsKernel.Kernel.AddressLock

open OsKernel.Mem OsKernel.Fallible OsKernel.Runs OsKernel.Kernel.PageTable OsKernel.Kernel.Paging OsKernel.Kernel.Sbrk

/-! ## The calls -/

inductive Call where
  | sbrk (size : I64)
  /-- a fault at addr with syndrome iss -/
  | pgfault (addr iss : ℕ)
  | fork (child : ℕ)
  | freeSections

/-- `free_sections` -/
def lockedFreeSections (L : Layout) (p : ℕ) (s : Locked) : Except Fate Locked := do
  let s ← acquire s
  let s ← inside (freeSections L p s.sys) s
  .ok (release s)

/-- `exit`, as far as it has to do with the address space: `free_pgdir` looks for sections only if there is a page table -/
def exitProc (L : Layout) (p : ℕ) (s : Locked) : Except Fate Locked := do
  let _ ← if (s.sys.space p).pt = 0 then .ok s else lockedFreeSections L p s
  .error (.halt .exit)

/-- `pgfault_handler`; `exit` is called before anything has changed -/
def lockedPgfault (L : Layout) (p addr iss : ℕ) (s : Locked) : Except Fate Locked := do
  let s ← acquire s
  match pgfaultHandler L p addr iss s.sys with
  | .ok t => .ok (release { s with sys := t })
  | .error .exit => exitProc L p s
  | .error e => .error (.halt e)

/-- the sections in `fork` -/
def lockedFork (p child : ℕ) (s : Locked) : Except Fate Locked := do
  let s ← acquire s
  let s ← inside (forkSections p child s.sys) s
  .ok (release s)

def call (L : Layout) (p : ℕ) (s : Locked) : Call → Except Fate Locked
  | .sbrk size => (sbrk L p size s).map Prod.snd
  | .pgfault addr iss => lockedPgfault L p addr iss s
  | .fork child => lockedFork p child s
  | .freeSections => lockedFreeSections L p s

def step (L : Layout) (p : ℕ) (s : Locked) (c : Call) : Option Locked := (call L p s c).toOption

/-- neither `sbrk(0)` nor a fault in a text section of length 0 -/
def Guarded (p : ℕ) (s : Locked) : Call → Prop
  | .sbrk size => size.1 ≠ 0
  | .pgfault addr _ => ∀ sec, findSection (s.sys.space p).sections addr = some sec → sec.flags = .text → sec.length ≠ 0
  | .fork _ => True
  | .freeSections => True

/-! ## Only the text branch exits -/

/-- the process does not exit -/
def Stays (e : Paging.Halt) : Prop := e ≠ .exit

theorem stays_allocPage (s : Paging.Sys) : Ends Stays (fun _ => True) (allocPage s) := by
  rw [allocPage]
  cases kallocPage s.mem with
  | none => exact fun h => by cases h
  | some r => trivial

theorem stays_freePage (L : Layout) (x : ℕ) (s : Paging.Sys) : Ends Stays (fun _ => True) (freePage L x s) := by
  rw [freePage]
  cases kfreePage L x s.mem with
  | none => exact fun h => by cases h
  | some m => trivial

theorem stays_mapPage (p va ka flags : ℕ) (s : Paging.Sys) : Ends Stays (fun _ => True) (mapPage p va ka flags s) := by
  rw [mapPage]
  cases vmmap (s.space p).pt va ka flags s.mem with
  | none => exact fun h => by cases h
  | some r => trivial

theorem stays_allocPte (p va : ℕ) (s : Paging.Sys) : Ends Stays (fun _ => True) (allocPte p va s) := by
  rw [allocPte]
  cases getPte true (s.space p).pt va s.mem with
  | none => exact fun h => by cases h
  | some r => trivial

theorem stays_panic {α : Type} : Ends Stays (fun _ : α => True) (.error .panic) := fun h => by cases h

theorem stays_copyOnWrite (L : Layout) (p addr : ℕ) (s : Paging.Sys) : Ends Stays (fun _ => True) (copyOnWrite L p addr s) := by
  refine (stays_allocPage s).bind fun r _ => ?_
  obtain ⟨pg, s1⟩ := r
  simp only
  split_ifs
  · exact stays_panic
  · generalize frame _ = old
    refine Ends.bind (R := fun _ => True) ?_ fun s2 _ => ?_
    · exact stays_freePage L old _
    · exact stays_mapPage p addr pg (pteUserData ||| pteRw) s2

theorem stays_mapProc (p addr : ℕ) (s : Paging.Sys) : Ends Stays (fun _ => True) (mapProc p addr s) := by
  refine (stays_allocPage s).bind fun r _ => ?_
  obtain ⟨pg, s1⟩ := r
  exact stays_mapPage p addr (s1.space p).proc (pteUserData ||| pteRw) s1

theorem stays_textPage (p va : ℕ) (s : Paging.Sys) : Ends Stays (fun _ => True) (textPage p va s) := by
  refine (stays_allocPte p va s).bind fun r _ => ?_
  obtain ⟨pte, s1⟩ := r
  simp only
  split_ifs
  · refine (stays_allocPage s1).bind fun r _ => ?_
    refine (stays_mapPage p va r.1 (pteUserData ||| pteRo) r.2).bind fun s2 _ => ?_
    trivial
  · trivial

theorem stays_fileRead (f dst n : ℕ) (s : Paging.Sys) : Ends Stays (fun _ => True) (fileRead f dst n s) := by
  rw [fileRead]
  cases (s.file f).ip with
  | none => trivial
  | some ip =>
    simp only
    split_ifs
    · exact stays_panic
    · trivial

theorem stays_loadText (p f fuel len va : ℕ) (s : Paging.Sys) : Ends Stays (fun _ => True) (loadText p f fuel len va s) := by
  induction fuel generalizing len va s with
  | zero => trivial
  | succ fuel ih =>
    rw [loadText]
    split_ifs
    · trivial
    · refine (stays_textPage p va s).bind fun r _ => ?_
      obtain ⟨pte, s1⟩ := r
      refine (stays_fileRead f _ _ s1).bind fun r' _ => ?_
      obtain ⟨n, s2⟩ := r'
      simp only
      split_ifs
      · exact ih _ _ _
      · exact stays_panic

theorem stays_fileClose (f : ℕ) (s : Paging.Sys) : Ends Stays (fun _ => True) (Paging.fileClose f s) := by
  rw [Paging.fileClose]
  split_ifs
  · exact stays_panic
  · trivial

theorem stays_textFault {p addr : ℕ} {sec : Section} (hlen : sec.length ≠ 0) (s : Paging.Sys) :
    Ends Stays (fun _ => True) (textFault p addr sec s) := by
  rw [textFault, if_neg hlen]
  cases sec.fp with
  | none => exact fun h => by cases h
  | some f =>
    refine (stays_loadText p f _ _ _ _).bind fun s1 _ => ?_
    refine (stays_fileClose f s1).bind fun s2 _ => ?_
    trivial

/-- the handler exits for a text section of length 0 and for no other -/
theorem pgfault_stays {L : Layout} {p addr iss : ℕ} {s : Paging.Sys}
    (h : ∀ sec, findSection (s.space p).sections addr = some sec → sec.flags = .text → sec.length ≠ 0) :
    Ends Stays (fun _ => True) (pgfaultHandler L p addr iss s) := by
  rw [pgfaultHandler]
  cases hsec : findSection (s.space p).sections addr with
  | none => exact stays_panic
  | some sec =>
    simp only
    cases hflags : sec.flags with
    | heap => exact stays_mapProc p addr s
    | data =>
      simp only
      split_ifs
      · exact stays_copyOnWrite L p addr s
      · exact stays_panic
    | text => exact stays_textFault (h sec hsec hflags) s
    | userStack =>
      simp only
      split_ifs
      · exact stays_copyOnWrite L p addr s
      · exact stays_mapProc p addr s
    | mmapShared => trivial
    | mmapPrivate => trivial
    | other => trivial

/-! ## One call -/

/-- a call that starts with the lock free does not wait for it, and if it returns the lock is free again -/
def Balanced (x : Except Fate Locked) : Prop := Ends (· ≠ .deadlock) (fun s => s.held = false) x

theorem balanced_acquire {s : Locked} (h : s.held = false) : acquire s = .ok { s with held := true } := by
  rw [acquire, h]
  rfl

/-- take the lock, change memory, give it back -/
theorem balanced_body (x : Except Paging.Halt Paging.Sys) (s : Locked) :
    Balanced (do let s ← inside x s; .ok (release s)) := by
  cases x with
  | error e => exact fun h => by cases h
  | ok t => exact rfl

theorem balanced_sbrk {L : Layout} {p : ℕ} {s : Locked} {size : I64} (hfree : s.held = false) (h0 : size.1 ≠ 0) :
    Balanced ((sbrk L p size s).map Prod.snd) := by
  rw [sbrk, balanced_acquire hfree]
  by_cases hmod : size.1 % pageSize ≠ 0
  · rw [if_pos hmod]
    exact fun h => by cases h
  · rw [if_neg hmod]
    simp only [bind, Except.bind]
    cases findTypeSection (s.sys.space p).sections .heap with
    | none => exact fun h => by cases h
    | some sec =>
      simp only [if_neg h0]
      split_ifs
      · exact rfl
      · exact fun h => by cases h
      · -- the pages are released, then the lock
        generalize (pagesBetween (movedEnd sec.endVa size.1) sec.endVa).foldlM (unmapPage L p) _ = x
        cases x with
        | error e => exact fun h => by cases h
        | ok t => exact rfl
      · exact fun h => by cases h

theorem balanced_pgfault {L : Layout} {p addr iss : ℕ} {s : Locked} (hfree : s.held = false)
    (h : ∀ sec, findSection (s.sys.space p).sections addr = some sec → sec.flags = .text → sec.length ≠ 0) :
    Balanced (lockedPgfault L p addr iss s) := by
  have hstays : Ends Stays (fun _ => True) (pgfaultHandler L p addr iss s.sys) := pgfault_stays h
  rw [lockedPgfault, balanced_acquire hfree]
  simp only [bind, Except.bind]
  cases hx : pgfaultHandler L p addr iss s.sys with
  | ok t => exact rfl
  | error e =>
    rw [hx] at hstays
    cases e with
    | exit => exact absurd rfl hstays
    | panic => exact fun h => by cases h
    | fault => exact fun h => by cases h

/-- **One call.** -/
theorem balanced_call {L : Layout} {p : ℕ} {s : Locked} {c : Call} (hfree : s.held = false) (hg : Guarded p s c) :
    Balanced (call L p s c) := by
  cases c with
  | sbrk size => exact balanced_sbrk hfree hg
  | pgfault addr iss => exact balanced_pgfault hfree hg
  | fork child =>
    rw [call, lockedFork, balanced_acquire hfree]
    exact balanced_body _ _
  | freeSections =>
    rw [call, lockedFreeSections, balanced_acquire hfree]
    exact balanced_body _ _

/-- **The lock is balanced.** In every run, from a free lock, of calls other than `sbrk(0)` and faults in a text section of length
0, the lock is free in every state reached, and no such call there waits for it. -/
theorem lock_balanced {L : Layout} {p : ℕ} {s t : Locked} {cs : List Call} (hfree : s.held = false)
    (hm : Meets (step L p) (Guarded p) s cs) (hr : run (step L p) s cs = some t) :
    t.held = false ∧ ∀ c, Guarded p t c → call L p t c ≠ .error .deadlock ∧ ∀ t', call L p t c = .ok t' → t'.held = false := by
  have hinv : t.held = false := by
    refine run_invariant (I := fun s => s.held = false) ?_ hfree hm hr
    intro u c u' hu hg hstep
    have hb := balanced_call (L := L) hu hg
    rw [ok_of_toOption hstep] at hb
    exact hb
  refine ⟨hinv, fun c hg => ?_⟩
  have hb := balanced_call (L := L) hinv hg
  refine ⟨fun hx => ?_, fun t' hx => ?_⟩
  · rw [hx] at hb
    exact hb rfl
  · rw [hx] at hb
    exact hb

/-- memory without a free page -/
def noMemory : PageMem := ⟨fun _ => 0, 0, fun _ => 0, 0⟩

/-- the heap grows by a page, then the sections are freed -/
theorem lock_balanced_small : ∃ t, run (step twelvePages 0) ⟨smallSpace noMemory, false⟩ [.sbrk ⟨0x1000, by decide⟩, .freeSections] =
      some t ∧ t.held = false ∧
    ∀ c, Guarded 0 t c → call twelvePages 0 t c ≠ .error .deadlock ∧
      ∀ t', call twelvePages 0 t c = .ok t' → t'.held = false := by
  have hrun : (run (step twelvePages 0) ⟨smallSpace noMemory, false⟩
      [.sbrk ⟨0x1000, by decide⟩, .freeSections]).isSome = true := by
    decide +kernel
  obtain ⟨t, ht⟩ := Option.isSome_iff_exists.1 hrun
  have hmeets : Meets (step twelvePages 0) (Guarded 0) ⟨smallSpace noMemory, false⟩
      [.sbrk ⟨0x1000, by decide⟩, .freeSections] := by
    refine ⟨?_, fun _ _ => ⟨trivial, fun _ _ => trivial⟩⟩
    change (0x1000 : ℤ) ≠ 0
    decide
  exact ⟨t, ht, lock_balanced rfl hmeets ht⟩

/-- a text section that is loaded (its length is 0 and the process has a page table), and a heap -/
def loadedText : Paging.Sys where
  mem := noMemory
  space q := ⟨0, 0xFFFF000000300000, if q = 0 then [⟨.text, 0x1000, 0x2000, none, 0, 0⟩, ⟨.heap, 0x5000, 0x6000, none, 0, 0⟩] else []⟩
  file _ := ⟨none, 0, 0⟩
  content _ := ⟨[], nil_small⟩
  written := []

/-- `sbrk(0)` returns with the lock held, so the next call waits for ever; and so does a write to the loaded text -/
theorem lock_leaks :
    (∃ s, call twelvePages 0 ⟨loadedText, false⟩ (.sbrk ⟨0, by decide⟩) = .ok s ∧ s.held = true ∧
      call twelvePages 0 s .freeSections = .error .deadlock) ∧
    call twelvePages 0 ⟨loadedText, false⟩ (.pgfault 0x1008 issPermiFault) = .error .deadlock :=
  ⟨⟨⟨loadedText, true⟩, rfl, rfl, rfl⟩, rfl⟩

end OsKernel.Kernel.AddressLock
