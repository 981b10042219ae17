/-
`sbrk` (`kernel/paging.c`), with the lock of the address space.

The lock is a flag: `acquire` on a lock that is held never returns (`deadlock`), since only the process itself takes it. `sbrk`
finds the heap section, moves its end by a signed size, and on shrinking clears the entries between the new end and the old one.
The sum wraps, but the assertions behind it let no sum that has wrapped pass. Nothing compares the new end with the beginning of
the heap or with the other sections.

Results, for the sections of one process below 2^48, where its addresses have page table entries of their own:
- `sbrk_frame`: in every run of calls that keep the end of the heap between its beginning and the next section, the heap stays
  in order, and each call does what it should and touches nothing else (`Moved`);
- `sbrk_below_begin`: a call that moves the end below the beginning unmaps the section before the heap.
-/
import OsKernel.Kernel.PageSharing
import OsKernel.Lib.Runs

namespace OsKernel.Kernel.Sbrk

open OsKernel.Mem OsKernel.Words OsKernel.Fallible OsKernel.Links OsKernel.Runs OsKernel.Kernel.PageTable OsKernel.Kernel.Paging

/-! ## The address space and its lock -/

/-- all of memory, and whether `pd->lock` of the process is held -/
structure Locked where
  sys : Paging.Sys
  held : Bool

/-- why a call does not return -/
inductive Fate where
  | halt (h : Paging.Halt)
  /-- the process waits for a lock that it holds itself -/
  | deadlock
deriving DecidableEq, Repr

/-- `acquire_spinlock(&pd->lock)` -/
def acquire (s : Locked) : Except Fate Locked := if s.held then .error .deadlock else .ok { s with held := true }

/-- `release_spinlock(&pd->lock)` -/
def release (s : Locked) : Locked := { s with held := false }

/-- a part of a call that has to do with memory only -/
def inside (x : Except Paging.Halt Paging.Sys) (s : Locked) : Except Fate Locked :=
  match x with
  | .ok t => .ok { s with sys := t }
  | .error e => .error (.halt e)

/-! ## sbrk -/

/-- i64 -/
abbrev I64 : Type := { n : ℤ // -2 ^ 63 ≤ n ∧ n < 2 ^ 63 }

/-- `find_type_section` -/
def findTypeSection (secs : List Section) (st : SectionType) : Option Section := secs.find? fun sec => sec.flags = st

/-- `sec->end = e` for the section it has found -/
def setEnd (st : SectionType) (e : ℕ) : List Section → List Section
  | [] => []
  | sec :: rest => if sec.flags = st then { sec with endVa := e } :: rest else sec :: setEnd st e rest

/-- the addresses of the loop `for (i = a; i < b; i += PAGE_SIZE)` -/
def pagesBetween (a b : ℕ) : List ℕ := (List.range ((b - a + (pageSize - 1)) / pageSize)).map fun i => a + pageSize * i

/-- `sec->end + size` in u64 -/
def movedEnd (e : ℕ) (size : ℤ) : ℕ := ((e + size) % 2 ^ 64).toNat

/-- `sbrk` of process p: the value and the state -/
def sbrk (L : Layout) (p : ℕ) (size : I64) (s : Locked) : Except Fate (ℕ × Locked) :=
  if size.1 % pageSize ≠ 0 then .error (.halt .panic)
  else do
    let s ← acquire s
    match findTypeSection (s.sys.space p).sections .heap with
    | none => .error (.halt .panic)
    | some sec =>
      -- this return keeps the lock
      if size.1 = 0 then .ok (sec.endVa, s)
      else
        let ret := sec.endVa
        let stop := movedEnd ret size.1
        let s := { s with sys := s.sys.setSpace p { s.sys.space p with
          sections := setEnd .heap stop (s.sys.space p).sections } }
        if 0 < size.1 then
          if ret < stop then .ok (ret, release s) else .error (.halt .panic)
        else if stop < ret then do
          let s ← inside ((pagesBetween stop ret).foldlM (unmapPage L p) s.sys) s
          .ok (ret, release s)
        else .error (.halt .panic)

/-- a run of calls -/
def step (L : Layout) (p : ℕ) (s : Locked) (size : I64) : Option Locked := (sbrk L p size s).toOption.map Prod.snd

/-! ## Sections -/

/-- the sections but the heap -/
def otherSections (secs : List Section) : List Section := secs.eraseP fun sec => sec.flags = .heap

/-- the section has no address in [a, b) -/
def Apart (a b : ℕ) (sec : Section) : Prop := ∀ va, sec.Holds va → ¬ (a ≤ va ∧ va < b)

theorem findTypeSection_setEnd {secs : List Section} {sec : Section} {st : SectionType}
    (h : findTypeSection secs st = some sec) (e : ℕ) : findTypeSection (setEnd st e secs) st = some { sec with endVa := e } := by
  induction secs with
  | nil => cases h
  | cons a secs ih =>
    rw [findTypeSection, List.find?_cons] at h
    by_cases ha : a.flags = st
    · simp only [ha, decide_true] at h
      obtain rfl := Option.some.inj h
      simp [setEnd, ha, findTypeSection]
    · simp only [ha, decide_false] at h
      rw [setEnd, if_neg ha, findTypeSection, List.find?_cons]
      simp only [ha, decide_false]
      exact ih h

theorem otherSections_setEnd (secs : List Section) (e : ℕ) : otherSections (setEnd .heap e secs) = otherSections secs := by
  induction secs with
  | nil => rfl
  | cons a secs ih =>
    by_cases ha : a.flags = .heap
    · simp [setEnd, otherSections, ha]
    · rw [setEnd, if_neg ha, otherSections, otherSections, List.eraseP_cons_of_neg (by simpa using ha),
        List.eraseP_cons_of_neg (by simpa using ha)]
      exact congrArg (List.cons a) ih

/-! ## The heap -/

/-- the heap section of p -/
def heapOf (p : ℕ) (s : Locked) : Option Section := findTypeSection (s.sys.space p).sections .heap

def othersOf (p : ℕ) (s : Locked) : List Section := otherSections (s.sys.space p).sections

/-- the heap is in order, page-aligned and apart from the other sections, and the counts of the mapped pages are right -/
structure HeapOk (L : Layout) (p : ℕ) (s : Locked) (heap : Section) : Prop where
  found : heapOf p s = some heap
  ordered : heap.begin ≤ heap.endVa
  begin_dvd : pageSize ∣ heap.begin
  end_dvd : pageSize ∣ heap.endVa
  below : heap.endVa ≤ 2 ^ 48
  others : ∀ sec ∈ othersOf p s, sec.endVa ≤ 2 ^ 48 ∧ Apart heap.begin heap.endVa sec
  counted : PagesCounted L s.sys

/-- the call leaves the end of the heap between its beginning and the next section -/
def Keeps (p : ℕ) (s : Locked) (size : I64) : Prop :=
  ∀ heap, heapOf p s = some heap → (heap.begin : ℤ) ≤ heap.endVa + size.1 ∧ heap.endVa + size.1 ≤ 2 ^ 48 ∧
    ∀ sec ∈ othersOf p s, Apart heap.begin (heap.endVa + size.1).toNat sec

/-- what a call that returns should have done -/
structure Moved (L : Layout) (p : ℕ) (size : I64) (s : Locked) (heap : Section) (ret : ℕ) (s' : Locked) : Prop where
  ret : ret = heap.endVa
  moved : ∃ heap', heapOf p s' = some heap' ∧ heap'.begin = heap.begin ∧ (heap'.endVa : ℤ) = heap.endVa + size.1
  others : othersOf p s' = othersOf p s
  grown : 0 ≤ size.1 → s'.sys.mem = s.sys.mem ∧ s'.sys.pts = s.sys.pts
  /-- the mapped pages between the new end and the old one are released, and those only -/
  shrunk : size.1 < 0 → Cleared L p (pagesBetween (heap.endVa + size.1).toNat heap.endVa) s.sys s'.sys
  unmapped : size.1 < 0 → ∀ va : ℕ, heap.endVa + size.1 ≤ va → va < heap.endVa → ¬ Valid (s'.sys.entry p va)
  mapped : ∀ q (va : ℕ), va < 2 ^ 48 → ¬ (q = p ∧ heap.endVa + size.1 ≤ va ∧ va < heap.endVa) →
    s'.sys.entry q va = s.sys.entry q va
  /-- the other sections keep their mappings and what is in their pages -/
  frame : ∀ sec ∈ othersOf p s, ∀ va, sec.Holds va → s'.sys.entry p va = s.sys.entry p va ∧
    (Valid (s.sys.entry p va) → s'.sys.userByte p va = s.sys.userByte p va)

/-- an address with the page number of a page in [a, b) lies there -/
theorem among_pagesBetween {a b va : ℕ} (ha : pageSize ∣ a) (hb : pageSize ∣ b) (hb48 : b ≤ 2 ^ 48) (hva : va < 2 ^ 48)
    (h : Among (pagesBetween a b) va) : a ≤ va ∧ va < b := by
  obtain ⟨w, hw, hvpn⟩ := h
  obtain ⟨i, hi, rfl⟩ := List.mem_map.1 hw
  rw [List.mem_range] at hi
  obtain ⟨a, rfl⟩ := ha
  obtain ⟨b, rfl⟩ := hb
  simp only [vpn, pageSize] at *
  omega

theorem pagesBetween_among {a b va : ℕ} (ha : pageSize ∣ a) (h : a ≤ va ∧ va < b) : Among (pagesBetween a b) va := by
  obtain ⟨a, rfl⟩ := ha
  refine ⟨pageSize * a + pageSize * (va / pageSize - a), List.mem_map.2 ⟨va / pageSize - a, ?_, rfl⟩, ?_⟩
  · rw [List.mem_range]
    simp only [pageSize] at *
    omega
  · simp only [vpn, pageSize] at *
    omega

theorem movedEnd_eq {e : ℕ} {size : ℤ} (h0 : 0 ≤ e + size) (h : e + size ≤ 2 ^ 48) : (movedEnd e size : ℤ) = e + size := by
  rw [movedEnd, Int.emod_eq_of_lt h0 (by omega), Int.toNat_of_nonneg h0]

theorem inside_ok {x : Except Paging.Halt Paging.Sys} {s s' : Locked} (h : inside x s = .ok s') :
    ∃ t, x = .ok t ∧ s' = { s with sys := t } := by
  cases x with
  | error e => cases h
  | ok t =>
    cases h
    exact ⟨t, rfl, rfl⟩

theorem acquire_ok {s s' : Locked} (h : acquire s = .ok s') : s.held = false ∧ s' = { s with held := true } := by
  rw [acquire] at h
  split_ifs at h with hheld
  cases h
  exact ⟨Bool.not_eq_true _ ▸ hheld, rfl⟩

section Step

variable {L : Layout} {p : ℕ} {s : Locked} {heap : Section}

/-- the state with the end of the heap moved -/
def moveEnd (p stop : ℕ) (s : Locked) : Locked :=
  { s with sys := s.sys.setSpace p { s.sys.space p with sections := setEnd .heap stop (s.sys.space p).sections } }

theorem moveEnd_mem (p stop : ℕ) (s : Locked) : (moveEnd p stop s).sys.mem = s.sys.mem := rfl

theorem moveEnd_pts (p stop : ℕ) (s : Locked) : (moveEnd p stop s).sys.pts = s.sys.pts := pts_setSections s.sys p _

theorem sections_moveEnd (p stop : ℕ) (s : Locked) :
    ((moveEnd p stop s).sys.space p).sections = setEnd .heap stop (s.sys.space p).sections := by
  simp [moveEnd, Sys.setSpace]

/-- the three ways in which `sbrk` returns -/
theorem sbrk_cases {size : I64} {ret : ℕ} {s' : Locked} (hfound : heapOf p s = some heap)
    (h : sbrk L p size s = .ok (ret, s')) : s.held = false ∧ pageSize ∣ size.1.natAbs ∧ ret = heap.endVa ∧
    ((size.1 = 0 ∧ s' = { s with held := true }) ∨
      (0 < size.1 ∧ s' = release (moveEnd p (movedEnd heap.endVa size.1) s)) ∨
      (size.1 < 0 ∧ ∃ t, (pagesBetween (movedEnd heap.endVa size.1) heap.endVa).foldlM (unmapPage L p)
        (moveEnd p (movedEnd heap.endVa size.1) s).sys = .ok t ∧ s' = ⟨t, false⟩)) := by
  rw [sbrk] at h
  by_cases hmod : size.1 % pageSize ≠ 0
  · rw [if_pos hmod] at h
    cases h
  rw [if_neg hmod] at h
  obtain ⟨s1, ha, h⟩ := bind_ok h
  obtain ⟨hheld, rfl⟩ := acquire_ok ha
  have hfound' : findTypeSection (s.sys.space p).sections .heap = some heap := hfound
  simp only [hfound'] at h
  have hdvd : pageSize ∣ size.1.natAbs := by
    simp only [pageSize] at hmod ⊢
    omega
  refine ⟨hheld, hdvd, ?_⟩
  split_ifs at h with h0 hpos hlt hlt
  · cases h
    exact ⟨rfl, Or.inl ⟨h0, rfl⟩⟩
  · cases h
    exact ⟨rfl, Or.inr (Or.inl ⟨hpos, rfl⟩)⟩
  · obtain ⟨s2, hin, h⟩ := bind_ok h
    obtain ⟨t, ht, rfl⟩ := inside_ok hin
    cases h
    exact ⟨rfl, Or.inr (Or.inr ⟨by omega, t, ht, rfl⟩)⟩

/-- the heap after its end has moved to stop -/
theorem HeapOk.move (h : HeapOk L p s heap) {stop : ℕ} (hstop : heap.begin ≤ stop) (hdvd : pageSize ∣ stop) (h48 : stop ≤ 2 ^ 48)
    (hapart : ∀ sec ∈ othersOf p s, Apart heap.begin stop sec) {s' : Locked}
    (hsec : (s'.sys.space p).sections = setEnd .heap stop (s.sys.space p).sections) (hcount : PagesCounted L s'.sys) :
    HeapOk L p s' { heap with endVa := stop } := by
  have hothers : othersOf p s' = othersOf p s := by rw [othersOf, hsec, otherSections_setEnd, othersOf]
  refine ⟨?_, hstop, h.begin_dvd, hdvd, h48, fun sec hs => ?_, hcount⟩
  · rw [heapOf, hsec]
    exact findTypeSection_setEnd h.found stop
  · rw [hothers] at hs
    exact ⟨(h.others sec hs).1, hapart sec hs⟩

/-- the pages that are cleared on shrinking are not those of another section -/
theorem HeapOk.not_among (h : HeapOk L p s heap) {stop : ℕ} (hstop : heap.begin ≤ stop) (hdvd : pageSize ∣ stop) {sec : Section}
    (hs : sec ∈ othersOf p s) {va : ℕ} (hva : sec.Holds va) : ¬ Among (pagesBetween stop heap.endVa) va := by
  intro hamong
  obtain ⟨h48, hapart⟩ := h.others sec hs
  obtain ⟨hlo, hhi⟩ := among_pagesBetween hdvd h.end_dvd h.below (lt_of_lt_of_le hva.2 h48) hamong
  exact hapart va hva ⟨hstop.trans hlo, hhi⟩

/-- clearing other entries leaves what is behind this one -/
theorem Cleared.userByte {s s' : Paging.Sys} {q : ℕ} {ws : List ℕ} (h : Cleared L q ws s s') {va : ℕ} (hva : ¬ Among ws va)
    (hv : Valid (s.entry q va)) : s'.userByte q va = s.userByte q va := by
  have hent : s'.entry q va = s.entry q va := h.entry q va fun hx => hva hx.2
  have huser : (s'.users (frame (s'.entry q va))).Nonempty := ⟨_, target_of_valid (hent.symm ▸ hv)⟩
  obtain ⟨l, hok⟩ := h.counted.ok
  have hdvd := (user_page hok huser).use.isPage.dvd
  have hlt := vaOffset_lt va
  rw [Sys.userByte, Sys.userByte, ← hent]
  refine byteAt_congr (h.kept _ _ huser ?_)
  simp only [Paging.InPage, pageSize] at hlt ⊢
  omega

theorem dvd_stop {e stop : ℕ} {size : ℤ} (he : pageSize ∣ e) (hsize : pageSize ∣ size.natAbs) (hstop : (stop : ℤ) = e + size) :
    pageSize ∣ stop := by
  simp only [pageSize] at *
  omega

/-- **One call.** -/
theorem sbrk_moved (h : HeapOk L p s heap) {size : I64} (hk : Keeps p s size) {ret : ℕ} {s' : Locked}
    (hs : sbrk L p size s = .ok (ret, s')) : Moved L p size s heap ret s' ∧ ∃ heap', HeapOk L p s' heap' := by
  obtain ⟨hlo, hhi, hapart⟩ := hk heap h.found
  have hstop : (movedEnd heap.endVa size.1 : ℤ) = heap.endVa + size.1 := movedEnd_eq (by omega) hhi
  obtain ⟨-, hdvd, rfl, hcase⟩ := sbrk_cases h.found hs
  have hstop' : (heap.endVa + size.1).toNat = movedEnd heap.endVa size.1 := by omega
  rw [hstop'] at hapart
  have hend := dvd_stop h.end_dvd hdvd hstop
  have hle : heap.begin ≤ movedEnd heap.endVa size.1 := by omega
  have hpts := moveEnd_pts p (movedEnd heap.endVa size.1) s
  have hcount : PagesCounted L (moveEnd p (movedEnd heap.endVa size.1) s).sys := h.counted.congr (moveEnd_mem p _ s) hpts
  rcases hcase with ⟨h0, rfl⟩ | ⟨hpos, rfl⟩ | ⟨hneg, t, ht, rfl⟩
  · refine ⟨⟨rfl, ⟨heap, h.found, rfl, by omega⟩, rfl, fun _ => ⟨rfl, rfl⟩, fun hlt => by omega, fun hlt => by omega,
      fun _ _ _ _ => rfl, fun sec _ va _ => ⟨rfl, fun _ => rfl⟩⟩, heap, ?_⟩
    exact ⟨h.found, h.ordered, h.begin_dvd, h.end_dvd, h.below, h.others, h.counted⟩
  · have hok : HeapOk L p (release (moveEnd p (movedEnd heap.endVa size.1) s)) _ :=
      h.move hle hend (by omega) hapart (sections_moveEnd p _ s) hcount
    have hent : ∀ q va, (moveEnd p (movedEnd heap.endVa size.1) s).sys.entry q va = s.sys.entry q va := fun q va =>
      entry_of_eq (moveEnd_mem p _ s) hpts q va
    refine ⟨⟨rfl, ⟨_, hok.found, rfl, hstop⟩, ?_, fun _ => ⟨rfl, hpts⟩, fun hlt => by omega, fun hlt => by omega,
      fun q va _ _ => hent q va, fun sec _ va _ => ⟨hent p va, fun _ => ?_⟩⟩, _, hok⟩
    · exact (congrArg otherSections (sections_moveEnd p _ s)).trans (otherSections_setEnd _ _)
    · rw [Sys.userByte, Sys.userByte]
      exact congrArg (fun e => byteAt s.sys.mem.cell (frame e + vaOffset va)) (hent p va)
  · obtain ⟨hcl, hsame⟩ := unmapPages_spec hcount ht
    have hcl' : Cleared L p _ s.sys t := hcl.congr (moveEnd_mem p _ s) hpts
    have hsec : (t.space p).sections = setEnd .heap (movedEnd heap.endVa size.1) (s.sys.space p).sections :=
      (hsame.sections p).trans (sections_moveEnd p _ s)
    have hok : HeapOk L p ⟨t, false⟩ _ := h.move hle hend (by omega) hapart hsec hcl.counted
    refine ⟨⟨rfl, ⟨_, hok.found, rfl, hstop⟩, ?_, fun hge => by omega, fun _ => hstop' ▸ hcl', fun _ va hlo hhi => ?_,
      fun q va h48 hne => ?_, fun sec hs va hva => ⟨?_, fun hv => ?_⟩⟩, _, hok⟩
    · exact (congrArg otherSections hsec).trans (otherSections_setEnd _ _)
    · exact hcl'.cleared va (pagesBetween_among hend ⟨by omega, hhi⟩)
    · refine hcl'.entry q va fun hx => hne ⟨hx.1, ?_⟩
      have hin := among_pagesBetween hend h.end_dvd h.below h48 hx.2
      omega
    · exact hcl'.entry p va fun hx => h.not_among hle hend hs hva hx.2
    · exact Cleared.userByte hcl' (h.not_among hle hend hs hva) hv

end Step

/-- **sbrk touches only the heap.** In every run of calls that leave the end of the heap between its beginning and the next
section, the heap is in order in every state reached, and each such call that returns there has done what it should. -/
theorem sbrk_frame {L : Layout} {p : ℕ} {s0 s : Locked} {heap0 : Section} {es : List I64} (h0 : HeapOk L p s0 heap0)
    (hm : Meets (step L p) (Keeps p) s0 es) (hr : run (step L p) s0 es = some s) :
    ∃ heap, HeapOk L p s heap ∧
      ∀ size ret s', Keeps p s size → sbrk L p size s = .ok (ret, s') → Moved L p size s heap ret s' := by
  have hinv : ∃ heap, HeapOk L p s heap := by
    refine run_invariant (I := fun s => ∃ heap, HeapOk L p s heap) ?_ ⟨heap0, h0⟩ hm hr
    intro t size t' ht hk hstep
    obtain ⟨heap, hok⟩ := ht
    obtain ⟨⟨ret, u⟩, hs, rfl⟩ := Option.map_eq_some_iff.1 hstep
    exact (sbrk_moved hok hk (ok_of_toOption hs)).2
  obtain ⟨heap, hok⟩ := hinv
  exact ⟨heap, hok, fun size ret s' hk hs => (sbrk_moved hok hk hs).1⟩

theorem nil_small : ([] : List UInt8).length < 2 ^ 32 := by decide

/-- process 0 with a page of bss at 0x4000 and a heap of one page behind it, none of it mapped -/
def smallSpace (m : PageMem) : Paging.Sys where
  mem := m
  space q := ⟨0, 0, if q = 0 then [⟨.heap, 0x5000, 0x6000, none, 0, 0⟩, ⟨.data, 0x4000, 0x5000, none, 0, 0⟩] else []⟩
  file _ := ⟨none, 0, 0⟩
  content _ := ⟨[], nil_small⟩
  written := []

/-- the same with both pages mapped: the zero page at 0x4000, a page of its own at 0x5000 -/
def smallImage (m : PageMem) : Except Paging.Halt Paging.Sys := do
  let s ← mapPage 0 0x4000 (zeroPage twelvePages) (pteUserData ||| pteRo) (smallSpace m)
  let (pg, s) ← allocPage s
  mapPage 0 0x5000 pg (pteUserData ||| pteRw) s

theorem smallImage_sections {m : PageMem} {s : Paging.Sys} (h : smallImage m = .ok s) :
    (s.space 0).sections = [⟨.heap, 0x5000, 0x6000, none, 0, 0⟩, ⟨.data, 0x4000, 0x5000, none, 0, 0⟩] := by
  obtain ⟨s1, hm1, h⟩ := bind_ok h
  obtain ⟨⟨pg, s2⟩, ha, hm2⟩ := bind_ok h
  obtain ⟨m2, -, rfl⟩ := allocPage_ok ha
  exact ((mapPage_same hm2).sections 0).trans ((mapPage_same hm1).sections 0)

theorem smallImage_others {m : PageMem} {s : Paging.Sys} (h : smallImage m = .ok s) {sec : Section}
    (hs : sec ∈ othersOf 0 ⟨s, false⟩) : sec = ⟨.data, 0x4000, 0x5000, none, 0, 0⟩ := by
  rw [othersOf, smallImage_sections h] at hs
  exact List.mem_singleton.1 hs

theorem data_apart (stop : ℕ) : Apart 0x5000 stop ⟨.data, 0x4000, 0x5000, none, 0, 0⟩ := by
  intro va hva hx
  have hlt : va < 0x5000 := hva.2
  have hge : 0x5000 ≤ va := hx.1
  omega

theorem smallImage_ok {m : PageMem} {l : List ℕ} (hfree : FreeList twelvePages m l) {s : Paging.Sys}
    (himage : smallImage m = .ok s) : HeapOk twelvePages 0 ⟨s, false⟩ ⟨.heap, 0x5000, 0x6000, none, 0, 0⟩ := by
  obtain ⟨s1, hm1, h⟩ := bind_ok himage
  obtain ⟨⟨pg, s2⟩, ha, hm2⟩ := bind_ok h
  obtain ⟨hc0, hent0⟩ : PagesCounted twelvePages (smallSpace m) ∧ _ := bare_counted hfree fun _ => rfl
  obtain ⟨l0, hok0⟩ := hc0.ok
  have hzero := zeroPage_user hok0.spaces
  have hframe0 : frame (pageBase (k2p (zeroPage twelvePages)) ||| (pteUserData ||| pteRo)) = zeroPage twelvePages :=
    frame_new (Or.inr rfl) (by decide)
  have hc1 := map_counted hc0 hzero hframe0 (by rw [hent0]; exact not_valid_zero) (Or.inl rfl) hm1
  obtain ⟨l1, hok1, -, hent1⟩ := map_spec hok0 hzero hframe0 hm1
  obtain ⟨hc2, hpg, hempty, hone, hent2⟩ := alloc_counted hc1 ha
  have hframe : frame (pageBase (k2p pg) ||| (pteUserData ||| pteRw)) = pg := frame_new hpg.use.isPage (by decide)
  have hnew : ¬ Valid (s2.entry 0 0x5000) := by
    rw [hent2, hent1, if_neg (by decide), hent0]
    exact not_valid_zero
  have hc3 := map_counted hc2 hpg hframe hnew (Or.inr ⟨hempty, hone⟩) hm2
  refine ⟨?_, by decide, by decide, by decide, by decide, fun sec hs => ?_, hc3⟩
  · rw [heapOf, smallImage_sections himage]
    rfl
  · obtain rfl := smallImage_others himage hs
    exact ⟨by decide, data_apart 0x6000⟩

/-- one more page, and then two less -/
theorem sbrk_frame_small : ∃ m s t t' ret, smallImage m = .ok s ∧
    run (step twelvePages 0) ⟨s, false⟩ [⟨0x1000, by decide⟩] = some t ∧
    sbrk twelvePages 0 ⟨-0x2000, by decide⟩ t = .ok (ret, t') ∧
    ∃ heap, HeapOk twelvePages 0 t heap ∧
      ∀ size ret s', Keeps 0 t size → sbrk twelvePages 0 size t = .ok (ret, s') → Moved twelvePages 0 size t heap ret s' := by
  obtain ⟨m, l, hk, hpages, -⟩ := kinit_ok twelvePages fun _ => 0
  have hrun : ((((kinit twelvePages fun _ => 0).bind fun m => (smallImage m).toOption).bind fun s =>
      run (step twelvePages 0) ⟨s, false⟩ [⟨0x1000, by decide⟩]).bind fun t =>
      (sbrk twelvePages 0 ⟨-0x2000, by decide⟩ t).toOption).isSome = true := by
    decide +kernel
  obtain ⟨⟨ret, t'⟩, hrun⟩ := Option.isSome_iff_exists.1 hrun
  rw [hk, Option.bind_some] at hrun
  obtain ⟨t, hrun, hret⟩ := Option.bind_eq_some_iff.1 hrun
  obtain ⟨s, himage, hrun⟩ := Option.bind_eq_some_iff.1 hrun
  have hok := smallImage_ok hpages.toFreeList (ok_of_toOption himage)
  have hkeeps : Keeps 0 ⟨s, false⟩ ⟨0x1000, by decide⟩ := by
    intro heap hheap
    rw [hok.found] at hheap
    obtain rfl := Option.some.inj hheap
    refine ⟨by decide, by decide, fun sec hs => ?_⟩
    obtain rfl := smallImage_others (ok_of_toOption himage) hs
    exact data_apart _
  have hmeets : Meets (step twelvePages 0) (Keeps 0) ⟨s, false⟩ [⟨0x1000, by decide⟩] := ⟨hkeeps, fun _ _ => trivial⟩
  exact ⟨m, s, t, t', ret, ok_of_toOption himage, hrun, ok_of_toOption hret, sbrk_frame hok hmeets hrun⟩

/-- two pages less than there are: the end of the heap is below its beginning, and the page of bss before it is unmapped -/
theorem sbrk_below_begin : ∃ m s t ret heap, smallImage m = .ok s ∧
    HeapOk twelvePages 0 ⟨s, false⟩ ⟨.heap, 0x5000, 0x6000, none, 0, 0⟩ ∧
    sbrk twelvePages 0 ⟨-0x2000, by decide⟩ ⟨s, false⟩ = .ok (ret, t) ∧
    heapOf 0 t = some heap ∧ heap.endVa < heap.begin ∧ ⟨.data, 0x4000, 0x5000, none, 0, 0⟩ ∈ othersOf 0 t ∧
    Valid (s.entry 0 0x4000) ∧ ¬ Valid (t.sys.entry 0 0x4000) := by
  obtain ⟨m, l, hk, hpages, -⟩ := kinit_ok twelvePages fun _ => 0
  have hrun : ((kinit twelvePages fun _ => 0).bind fun m => (smallImage m).toOption).bind (fun s =>
      (sbrk twelvePages 0 ⟨-0x2000, by decide⟩ ⟨s, false⟩).toOption.map fun r =>
        decide (heapOf 0 r.2 = some ⟨.heap, 0x5000, 0x4000, none, 0, 0⟩ ∧
          ⟨.data, 0x4000, 0x5000, none, 0, 0⟩ ∈ othersOf 0 r.2 ∧
          Valid (s.entry 0 0x4000) ∧ ¬ Valid (r.2.sys.entry 0 0x4000))) = some true := by
    decide +kernel
  rw [hk, Option.bind_some] at hrun
  obtain ⟨s, himage, hrun⟩ := Option.bind_eq_some_iff.1 hrun
  obtain ⟨⟨ret, t⟩, hret, hheap, hdata, hv, hno⟩ := ok_computes hrun
  exact ⟨m, s, t, ret, _, ok_of_toOption himage, smallImage_ok hpages.toFreeList (ok_of_toOption himage),
    hret, hheap, by decide, hdata, hv, hno⟩

end OsKernel.Kernel.Sbrk
