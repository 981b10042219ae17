/-
The console's line discipline (`kernel/console.c`).

`console_intr` edits the current line in a circular buffer and commits it at a newline or Ctrl-D; `console_read` takes
committed characters out and waits on a semaphore when there are none. The interrupts come at any time the lock is free,
also while a reader waits. The echo on the UART is left out.

`typeChar` says what typing means; `Sys.typed` and `Sys.delivered` are ghosts. Result (`line_discipline`): what readers got
is a prefix of the committed text, in every run in which the buffer never fills up to its end and no read waits on the token
of a line that has been read already. Both conditions are needed (`stale_input`): the edit and write indices are not reduced
modulo the buffer while the read index is, and the semaphore counts lines that reads may have taken without waiting.
-/
import OsKernel.Lib.Ring
import OsKernel.Lib.Runs
import OsKernel.Common.Sem
import OsKernel.Fs.Defines

namespace OsKernel.ConsoleSys

open OsKernel.Ring OsKernel.Runs OsKernel.Sem OsKernel.Fs

/-! ## The functions -/

def inputBuf : ℕ := 128

def ctrlD : UInt8 := 4
def newline : UInt8 := 10
def carriage : UInt8 := 13
def ctrlU : UInt8 := 21
def backspace : UInt8 := 127

/-- `struct console`; its spinlock is held exactly during a step -/
structure Console where
  sem : Semaphore
  buf : ℕ → UInt8
  readIdx : ℕ
  writeIdx : ℕ
  editIdx : ℕ

/-- `console_init`, on memory that is zero -/
def consoleInit : Console := ⟨initSem 0, fun _ => 0, 0, 0, 0⟩

/-- the loop of Ctrl-U. After one turn the index is below 128, so a loop that runs out of 256 turns never ends. -/
def eraseLoop : ℕ → Console → Option Console
  | 0, _ => none
  | fuel + 1, c =>
    if c.editIdx ≠ c.writeIdx ∧ c.buf (subU c.editIdx 1 % inputBuf) ≠ newline then
      eraseLoop fuel { c with editIdx := subU c.editIdx 1 % inputBuf }
    else some c

/-- `console_intr`, with the processes its `post_sem` wakes; none when it does not return -/
def consoleIntr (ch : UInt8) (c : Console) : Option (List ℕ × Console) :=
  if ch = ctrlU then (eraseLoop 256 c).map fun c => ([], c)
  else if ch = backspace then
    some ([], if c.editIdx ≠ c.writeIdx then { c with editIdx := subU c.editIdx 1 % inputBuf } else c)
  else if ch ≠ 0 ∧ subU c.editIdx c.readIdx < inputBuf then
    let ch := if ch = carriage then newline else ch
    let c := { c with buf := Function.update c.buf (c.editIdx % inputBuf) ch, editIdx := addU c.editIdx 1 }
    if ch = newline ∨ ch = ctrlD then
      (postSem c.sem).map fun r => (r.1.toList, { c with writeIdx := c.editIdx, sem := r.2 })
    else some ([], c)
  else some ([], c)

inductive ReadOut where
  /-- released the lock to wait, with i bytes to go -/
  | wait (i : ℕ)
  | ret (len : ℕ)

/-- the loop of `console_read(n)` with i bytes to go, up to where it releases the lock: why, the bytes delivered, the
console. `waited` is true in the turn that has just come back from `wait_sem`. -/
def readLoop (n : ℕ) : ℕ → Bool → Console → ReadOut × List UInt8 × Console
  | 0, _, c => (.ret n, [], c)
  | i + 1, waited, c =>
    if waited = false ∧ c.writeIdx = c.readIdx then (.wait (i + 1), [], c)
    else
      let ch := c.buf c.readIdx
      if ch = ctrlD then
        (.ret (n - (i + 1)), [], if i + 1 = n then { c with readIdx := addU c.readIdx 1 % inputBuf } else c)
      else
        let c := { c with readIdx := addU c.readIdx 1 % inputBuf }
        if ch = newline then (.ret (n - i), [ch], c)
        else
          let r := readLoop n i false c
          (r.1, ch :: r.2.1, r.2.2)

/-! ## Typing and reading -/

/-- where the reader is -/
inductive Phase where
  /-- outside `console_read`; what the last one returned -/
  | out (ret : ℤ)
  | toWait (i n : ℕ)
  | asleep (i n : ℕ)
  /-- back from `wait_sem` -/
  | toRead (i n : ℕ)

structure Sys where
  cons : Console
  phase : Phase
  typed : List UInt8
  delivered : List UInt8

def init : Sys := ⟨consoleInit, .out 0, [], []⟩

inductive Call where
  | intr (ch : UInt8)
  | read (n : ℕ)
  /-- the reader's next step inside its call -/
  | go
  /-- the sleeping reader is woken by something else than a post -/
  | interrupt

def wake : Phase → Phase
  | .asleep i n => .toRead i n
  | ph => ph

/-- `console_read` from where it has the lock to where it releases it -/
def readRegion (s : Sys) (n i : ℕ) (waited : Bool) : Sys :=
  let r := readLoop n i waited s.cons
  { s with
    cons := r.2.2
    delivered := s.delivered ++ r.2.1
    phase := match r.1 with
      | .wait i => .toWait i n
      | .ret len => .out len }

/-- one step; the reader has pid 0 -/
def step (s : Sys) : Call → Option Sys
  | .intr ch =>
    (consoleIntr ch s.cons).map fun r =>
      { s with cons := r.2, phase := if r.1 = [] then s.phase else wake s.phase, typed := s.typed ++ [ch] }
  | .read n =>
    match s.phase with
    | .out _ => some (readRegion s n n false)
    | _ => none
  | .go =>
    match s.phase with
    | .toWait i n =>
      let r := waitSem 0 s.cons.sem
      some { s with cons := { s.cons with sem := r.2 }, phase := if r.1 then .toRead i n else .asleep i n }
    | .toRead i n => some (readRegion s n i true)
    | .out _ | .asleep _ _ => none
  | .interrupt =>
    match s.phase with
    | .asleep _ _ =>
      some { s with
        cons := { s.cons with sem := ⟨s.cons.sem.val + 1, s.cons.sem.sleeplist.erase 0⟩ }
        phase := .out (-1) }
    | _ => none

/-- what has been typed: the text up to the last commit and the line since then -/
structure Text where
  committed : List UInt8
  line : List UInt8

/-- the line discipline -/
def typeChar (t : Text) (ch : UInt8) : Text :=
  if ch = ctrlU then { t with line := [] }
  else if ch = backspace then { t with line := t.line.dropLast }
  else if ch = 0 then t
  else
    let ch := if ch = carriage then newline else ch
    if ch = newline ∨ ch = ctrlD then ⟨t.committed ++ (t.line ++ [ch]), []⟩ else { t with line := t.line ++ [ch] }

def textOf (typed : List UInt8) : Text := typed.foldl typeChar ⟨[], []⟩

/-- what readers see of a text: Ctrl-D only ends a read -/
def visible (l : List UInt8) : List UInt8 := l.filter fun ch => ch ≠ ctrlD

/-- a character is stored only below the last cell, and a read that finds nothing finds no token either -/
def Fair (s : Sys) : Call → Prop
  | .intr ch => ch ≠ ctrlU → ch ≠ backspace → ch ≠ 0 → s.cons.editIdx < inputBuf - 1
  | .go =>
    match s.phase with
    | .toWait _ _ => 0 < s.cons.sem.val → s.cons.writeIdx ≠ s.cons.readIdx
    | _ => True
  | .read _ | .interrupt => True

/-! ## The invariant -/

/-- the reader sleeps exactly when it is on the list of the semaphore, and has something to read when it is back -/
def PhaseOk (c : Console) : Phase → Prop
  | .asleep _ _ => c.sem.sleeplist = [0]
  | .toRead _ _ => c.sem.sleeplist = [] ∧ c.readIdx < c.writeIdx
  | .out _ | .toWait _ _ => c.sem.sleeplist = []

/-- the buffer holds the committed text behind what has been taken, and then the line -/
structure Inv (s : Sys) (taken : List UInt8) : Prop where
  read_le : s.cons.readIdx ≤ s.cons.writeIdx
  write_le : s.cons.writeIdx ≤ s.cons.editIdx
  edit_lt : s.cons.editIdx < inputBuf
  committed : taken ++ window inputBuf s.cons.buf s.cons.readIdx s.cons.writeIdx = (textOf s.typed).committed
  line : window inputBuf s.cons.buf s.cons.writeIdx s.cons.editIdx = (textOf s.typed).line
  one_line : newline ∉ (textOf s.typed).line
  delivered : s.delivered = visible taken
  sem : SemOk s.cons.sem
  phase : PhaseOk s.cons s.phase

theorem inv_init : Inv init [] := by
  refine ⟨le_rfl, le_rfl, by decide, ?_, ?_, ?_, rfl, semOk_init le_rfl, rfl⟩ <;> simp [init, consoleInit, textOf]

theorem textOf_snoc (typed : List UInt8) (ch : UInt8) : textOf (typed ++ [ch]) = typeChar (textOf typed) ch := by
  simp [textOf, List.foldl_append]

theorem dec_index {k : ℕ} (h0 : 0 < k) (hk : k < inputBuf) : subU k 1 % inputBuf = k - 1 := by
  simp only [inputBuf] at hk ⊢
  rw [subU_of_le h0 (by omega)]
  omega

theorem inc_index {k : ℕ} (hk : k + 1 < inputBuf) : addU k 1 % inputBuf = k + 1 := by
  simp only [inputBuf] at hk ⊢
  rw [addU_of_lt (by omega)]
  omega

/-! ## console_read -/

/-- del is what is visible of a piece that was taken off the front of the committed text of c -/
def Took (c : Console) (del : List UInt8) (c' : Console) : Prop :=
  ∃ t k, c' = { c with readIdx := k } ∧ k ≤ c.writeIdx ∧
    window inputBuf c.buf c.readIdx c.writeIdx = t ++ window inputBuf c.buf k c.writeIdx ∧ del = visible t

theorem Took.none {c : Console} (hle : c.readIdx ≤ c.writeIdx) : Took c [] c := ⟨[], c.readIdx, rfl, hle, rfl, rfl⟩

/-- the loop of `console_read` takes committed text only -/
theorem readLoop_took (n i : ℕ) (waited : Bool) (c : Console) (hle : c.readIdx ≤ c.writeIdx) (hlt : c.writeIdx < inputBuf)
    (hw : waited = true → c.readIdx < c.writeIdx) :
    Took c (readLoop n i waited c).2.1 (readLoop n i waited c).2.2 := by
  induction i generalizing waited c with
  | zero => exact Took.none hle
  | succ i ih =>
    rw [readLoop]
    by_cases hwait : waited = false ∧ c.writeIdx = c.readIdx
    · rw [if_pos hwait]
      exact Took.none hle
    · have hread : c.readIdx < c.writeIdx := by
        cases waited with
        | true => exact hw rfl
        | false => exact lt_of_le_of_ne hle fun hx => hwait ⟨rfl, hx.symm⟩
      have hpop : window inputBuf c.buf c.readIdx c.writeIdx =
          c.buf c.readIdx :: window inputBuf c.buf (c.readIdx + 1) c.writeIdx := by
        rw [window_pop hread, Nat.mod_eq_of_lt (show c.readIdx < inputBuf by omega)]
      have hinc : addU c.readIdx 1 % inputBuf = c.readIdx + 1 := inc_index (by omega)
      rw [if_neg hwait, hinc]
      dsimp only
      by_cases hD : c.buf c.readIdx = ctrlD
      · rw [if_pos hD]
        by_cases hn : i + 1 = n
        · rw [if_pos hn]
          exact ⟨[c.buf c.readIdx], c.readIdx + 1, rfl, hread, hpop, by rw [hD]; rfl⟩
        · rw [if_neg hn]
          exact Took.none hle
      · have hvis : ∀ t, visible (c.buf c.readIdx :: t) = c.buf c.readIdx :: visible t := by
          intro t
          simp [visible, hD]
        rw [if_neg hD]
        by_cases hnl : c.buf c.readIdx = newline
        · rw [if_pos hnl]
          exact ⟨[c.buf c.readIdx], c.readIdx + 1, rfl, hread, hpop, (hvis []).symm⟩
        · rw [if_neg hnl]
          obtain ⟨t, k, hc, hk, hwin, hdel⟩ := ih false { c with readIdx := c.readIdx + 1 } hread hlt
            fun h => absurd h (by decide)
          refine ⟨c.buf c.readIdx :: t, k, hc, hk, ?_, ?_⟩
          · rw [hpop, List.cons_append, ← hwin]
          · rw [hvis, ← hdel]

section Steps

variable {s : Sys} {taken : List UInt8} (h : Inv s taken)
include h

theorem inv_readRegion {n i : ℕ} {waited : Bool} (hw : waited = true → s.cons.readIdx < s.cons.writeIdx)
    (hsleep : s.cons.sem.sleeplist = []) : ∃ taken', Inv (readRegion s n i waited) taken' := by
  obtain ⟨t, k, hc, hk, hwin, hdel⟩ := readLoop_took n i waited s.cons h.read_le
    (lt_of_le_of_lt h.write_le h.edit_lt) hw
  have hcons : (readRegion s n i waited).cons = { s.cons with readIdx := k } := hc
  refine ⟨taken ++ t, ?_, ?_, ?_, ?_, ?_, h.one_line, ?_, ?_, ?_⟩
  · rw [hcons]
    exact hk
  · rw [hcons]
    exact h.write_le
  · rw [hcons]
    exact h.edit_lt
  · rw [hcons, List.append_assoc]
    simp only [← hwin]
    exact h.committed
  · rw [hcons]
    exact h.line
  · show s.delivered ++ _ = _
    rw [hdel, h.delivered, visible, visible, visible, List.filter_append]
  · rw [hcons]
    exact h.sem
  · rw [hcons, readRegion]
    dsimp only
    split <;> exact hsleep

/-! ## console_intr -/

omit h in
/-- Ctrl-U goes back to the last commit -/
theorem eraseLoop_ok (fuel : ℕ) (c : Console) (hle : c.writeIdx ≤ c.editIdx) (hlt : c.editIdx < inputBuf)
    (hline : newline ∉ window inputBuf c.buf c.writeIdx c.editIdx) (hf : c.editIdx - c.writeIdx < fuel) :
    eraseLoop fuel c = some { c with editIdx := c.writeIdx } := by
  induction fuel generalizing c with
  | zero => exact absurd hf (Nat.not_lt_zero _)
  | succ fuel ih =>
    rw [eraseLoop]
    by_cases heq : c.editIdx = c.writeIdx
    · rw [if_neg fun hx => hx.1 heq]
      exact congrArg some (by cases c; cases heq; rfl)
    · have hdec := dec_index (k := c.editIdx) (by omega) hlt
      obtain ⟨e, he⟩ : ∃ e, c.editIdx = e + 1 := ⟨c.editIdx - 1, by omega⟩
      rw [he, window_succ (by omega), Nat.mod_eq_of_lt (by omega)] at hline
      simp only [List.mem_append, List.mem_singleton, not_or] at hline
      have hpred : c.editIdx - 1 = e := by omega
      rw [hdec, hpred, if_pos ⟨heq, Ne.symm hline.2⟩]
      exact ih { c with editIdx := e } (show c.writeIdx ≤ e by omega) (show e < inputBuf by omega) hline.1
        (show e - c.writeIdx < fuel by omega)

omit h in
/-- an erased character goes off the end of the line -/
theorem window_erase {c : Console} (hlt : c.writeIdx < c.editIdx) :
    window inputBuf c.buf c.writeIdx (c.editIdx - 1) = (window inputBuf c.buf c.writeIdx c.editIdx).dropLast := by
  obtain ⟨e, he⟩ : ∃ e, c.editIdx = e + 1 := ⟨c.editIdx - 1, by omega⟩
  rw [he, window_succ (by omega), List.dropLast_concat, Nat.add_sub_cancel]

/-- a character that only moves the end of the line back -/
theorem inv_erase {e : ℕ} {ch : UInt8} (h1 : s.cons.writeIdx ≤ e) (h2 : e ≤ s.cons.editIdx)
    (hcom : (typeChar (textOf s.typed) ch).committed = (textOf s.typed).committed)
    (hline : window inputBuf s.cons.buf s.cons.writeIdx e = (typeChar (textOf s.typed) ch).line)
    (hsub : (typeChar (textOf s.typed) ch).line ⊆ (textOf s.typed).line) :
    Inv { s with cons := { s.cons with editIdx := e }, typed := s.typed ++ [ch] } taken := by
  refine ⟨h.read_le, h1, lt_of_le_of_lt h2 h.edit_lt, ?_, ?_, ?_, h.delivered, h.sem, ?_⟩
  · rw [textOf_snoc, hcom]
    exact h.committed
  · rw [textOf_snoc]
    exact hline
  · rw [textOf_snoc]
    exact fun hx => h.one_line (hsub hx)
  · have hph := h.phase
    cases hp : s.phase <;> rw [hp] at hph <;> exact hph

/-- a commit posts the semaphore, which wakes the reader if it sleeps -/
theorem inv_post {c : Console} (hsem : c.sem = s.cons.sem) (hlt : c.readIdx < c.editIdx) :
    ∃ woken sem, postSem c.sem = some (woken, sem) ∧ SemOk sem ∧
      PhaseOk { c with writeIdx := c.editIdx, sem } (if woken.toList = [] then s.phase else wake s.phase) := by
  have hph := h.phase
  cases hp : s.phase with
  | asleep i n =>
    rw [hp] at hph
    have hlist : s.cons.sem.sleeplist = [] ++ [0] := hph
    have hpost := postSem_wake h.sem hlist
    refine ⟨some 0, _, by rw [hsem]; exact hpost, semOk_postSem h.sem hpost, ?_⟩
    exact ⟨rfl, hlt⟩
  | out ret =>
    rw [hp] at hph
    have hpost := postSem_token h.sem hph
    exact ⟨none, _, by rw [hsem]; exact hpost, semOk_postSem h.sem hpost, hph⟩
  | toWait i n =>
    rw [hp] at hph
    have hpost := postSem_token h.sem hph
    exact ⟨none, _, by rw [hsem]; exact hpost, semOk_postSem h.sem hpost, hph⟩
  | toRead i n =>
    rw [hp] at hph
    have hpost := postSem_token h.sem hph.1
    exact ⟨none, _, by rw [hsem]; exact hpost, semOk_postSem h.sem hpost, hph.1, hlt⟩

/-- a character is stored at the end of the line -/
theorem inv_store {ch : UInt8} (hU : ch ≠ ctrlU) (hB : ch ≠ backspace) (h0 : ch ≠ 0) (hroom : s.cons.editIdx < inputBuf - 1) :
    ∃ s', step s (.intr ch) = some s' ∧ Inv s' taken := by
  have hread := h.read_le
  have hwrite := h.write_le
  have hfit : subU s.cons.editIdx s.cons.readIdx < inputBuf := by
    simp only [inputBuf] at hroom ⊢
    rw [subU_of_le (by omega) (by omega)]
    omega
  have hinc : addU s.cons.editIdx 1 = s.cons.editIdx + 1 := by
    simp only [inputBuf] at hroom
    exact addU_of_lt (by omega)
  set c' := if ch = carriage then newline else ch with hc'
  set buf := Function.update s.cons.buf (s.cons.editIdx % inputBuf) c' with hbuf
  have hkeep : window inputBuf buf s.cons.readIdx s.cons.writeIdx =
      window inputBuf s.cons.buf s.cons.readIdx s.cons.writeIdx :=
    window_update c' fun i _ hi => mod_ne (by omega) (by omega)
  have hline : window inputBuf buf s.cons.writeIdx (s.cons.editIdx + 1) = (textOf s.typed).line ++ [c'] := by
    rw [hbuf, window_push c' hwrite (by omega), h.line]
  simp only [step, consoleIntr, if_neg hU, if_neg hB, if_pos (And.intro h0 hfit), hinc, ← hc', ← hbuf]
  by_cases hcommit : c' = newline ∨ c' = ctrlD
  · rw [if_pos hcommit]
    obtain ⟨woken, sem, hpost, hsem, hphase⟩ := inv_post h
      (c := { s.cons with buf := buf, editIdx := s.cons.editIdx + 1 }) rfl
      (show s.cons.readIdx < s.cons.editIdx + 1 by omega)
    have htext : textOf (s.typed ++ [ch]) = ⟨(textOf s.typed).committed ++ ((textOf s.typed).line ++ [c']), []⟩ := by
      rw [textOf_snoc, typeChar]
      simp only [if_neg hU, if_neg hB, if_neg h0, ← hc', if_pos hcommit]
    rw [hpost]
    refine ⟨_, rfl, ?_, le_rfl, ?_, ?_, ?_, ?_, h.delivered, hsem, hphase⟩
    · show s.cons.readIdx ≤ s.cons.editIdx + 1
      omega
    · show s.cons.editIdx + 1 < inputBuf
      omega
    · show taken ++ window inputBuf buf s.cons.readIdx (s.cons.editIdx + 1) = _
      rw [htext, ← window_append hread (by omega), hkeep, hline, ← List.append_assoc, h.committed]
    · rw [htext]
      exact window_self _ _ _
    · rw [htext]
      exact List.not_mem_nil
  · rw [if_neg hcommit]
    have htext : textOf (s.typed ++ [ch]) = { textOf s.typed with line := (textOf s.typed).line ++ [c'] } := by
      rw [textOf_snoc, typeChar]
      simp only [if_neg hU, if_neg hB, if_neg h0, ← hc', if_neg hcommit]
    refine ⟨_, rfl, hread, ?_, ?_, ?_, ?_, ?_, h.delivered, h.sem, ?_⟩
    · show s.cons.writeIdx ≤ s.cons.editIdx + 1
      omega
    · show s.cons.editIdx + 1 < inputBuf
      omega
    · show taken ++ window inputBuf buf s.cons.readIdx s.cons.writeIdx = _
      rw [htext, hkeep, h.committed]
    · rw [htext]
      exact hline
    · rw [htext]
      simp only [List.mem_append, List.mem_singleton, not_or]
      exact ⟨h.one_line, fun hx => hcommit (Or.inl hx.symm)⟩
    · have hph := h.phase
      cases hp : s.phase <;> rw [hp] at hph <;> exact hph

/-- **Typing.** Every character is taken, Ctrl-U included, and edits the text as it should. -/
theorem inv_intr {ch : UInt8} (hfair : Fair s (.intr ch)) : ∃ s', step s (.intr ch) = some s' ∧ Inv s' taken := by
  have hread := h.read_le
  have hwrite := h.write_le
  have hedit := h.edit_lt
  by_cases hU : ch = ctrlU
  · have hloop := eraseLoop_ok 256 s.cons hwrite hedit (by rw [h.line]; exact h.one_line)
      (by simp only [inputBuf] at hedit; omega)
    refine ⟨{ s with cons := { s.cons with editIdx := s.cons.writeIdx }, typed := s.typed ++ [ch] }, ?_,
      inv_erase h le_rfl hwrite ?_ ?_ ?_⟩
    · simp [step, consoleIntr, hU, hloop]
    · simp [typeChar, hU]
    · simp [typeChar, hU]
    · simp [typeChar, hU]
  · by_cases hB : ch = backspace
    · have htext : typeChar (textOf s.typed) ch = { textOf s.typed with line := (textOf s.typed).line.dropLast } := by
        rw [typeChar, if_neg hU, if_pos hB]
      have hsub : (typeChar (textOf s.typed) ch).line ⊆ (textOf s.typed).line := by
        rw [htext]
        exact fun x hx => List.mem_of_mem_dropLast hx
      by_cases heq : s.cons.editIdx = s.cons.writeIdx
      · refine ⟨{ s with typed := s.typed ++ [ch] }, ?_, inv_erase h (e := s.cons.editIdx) hwrite le_rfl ?_ ?_ hsub⟩
        · rw [step, consoleIntr, if_neg hU, if_pos hB, if_neg (not_not.2 heq)]
          rfl
        · rw [htext]
        · have hnil : (textOf s.typed).line = [] := by rw [← h.line, heq, window_self]
          rw [htext, heq, window_self, hnil]
          rfl
      · have hdec := dec_index (k := s.cons.editIdx) (by omega) hedit
        refine ⟨{ s with cons := { s.cons with editIdx := s.cons.editIdx - 1 }, typed := s.typed ++ [ch] }, ?_,
          inv_erase h (by omega) (by omega) ?_ ?_ hsub⟩
        · rw [step, consoleIntr, if_neg hU, if_pos hB, if_pos heq, hdec]
          rfl
        · rw [htext]
        · rw [htext, window_erase (by omega), h.line]
    · by_cases h0 : ch = 0
      · have htext : typeChar (textOf s.typed) ch = textOf s.typed := by
          rw [typeChar, if_neg hU, if_neg hB, if_pos h0]
        refine ⟨{ s with typed := s.typed ++ [ch] }, ?_, inv_erase h (e := s.cons.editIdx) hwrite le_rfl ?_ ?_ ?_⟩
        · rw [step, consoleIntr, if_neg hU, if_neg hB, if_neg fun hx => hx.1 h0]
          rfl
        · rw [htext]
        · rw [htext, h.line]
        · rw [htext]
          exact List.Subset.refl _
      · exact inv_store h hU hB h0 (hfair hU hB h0)

theorem inv_step {e : Call} {s' : Sys} (hfair : Fair s e) (hs : step s e = some s') : ∃ taken', Inv s' taken' := by
  have hph := h.phase
  cases e with
  | intr ch =>
    obtain ⟨t, ht, hinv⟩ := inv_intr h hfair
    rw [← Option.some.inj (ht.symm.trans hs)]
    exact ⟨taken, hinv⟩
  | read n =>
    cases hp : s.phase with
    | out ret =>
      simp only [step, hp, Option.some.injEq] at hs
      rw [hp] at hph
      rw [← hs]
      exact inv_readRegion h (fun hx => absurd hx (by decide)) hph
    | toWait i n => simp [step, hp] at hs
    | asleep i n => simp [step, hp] at hs
    | toRead i n => simp [step, hp] at hs
  | go =>
    cases hp : s.phase with
    | toWait i n =>
      simp only [step, hp, Option.some.injEq] at hs
      simp only [Fair, hp] at hfair
      rw [hp] at hph
      have hsem := semOk_waitSem 0 h.sem
      rw [← hs]
      refine ⟨taken, h.read_le, h.write_le, h.edit_lt, h.committed, h.line, h.one_line, h.delivered, hsem, ?_⟩
      unfold waitSem
      split_ifs with hv hx hx
      · exact ⟨hph, lt_of_le_of_ne h.read_le (hfair (by omega)).symm⟩
      · exact absurd rfl hx
      · exact absurd hx (by decide)
      · exact congrArg (List.cons 0) hph
    | toRead i n =>
      simp only [step, hp, Option.some.injEq] at hs
      rw [hp] at hph
      rw [← hs]
      exact inv_readRegion h (fun _ => hph.2) hph.1
    | out ret => simp [step, hp] at hs
    | asleep i n => simp [step, hp] at hs
  | interrupt =>
    cases hp : s.phase with
    | asleep i n =>
      simp only [step, hp, Option.some.injEq] at hs
      rw [hp] at hph
      have hlist : s.cons.sem.sleeplist = [0] := hph
      have hsem := h.sem
      simp only [SemOk, hlist, List.length_singleton] at hsem
      rw [← hs]
      refine ⟨taken, h.read_le, h.write_le, h.edit_lt, h.committed, h.line, h.one_line, h.delivered, ?_, ?_⟩
      · simp only [SemOk, hlist, List.erase_cons_head, List.length_nil]
        omega
      · show s.cons.sem.sleeplist.erase 0 = []
        rw [hlist]
        rfl
    | out ret => simp [step, hp] at hs
    | toWait i n => simp [step, hp] at hs
    | toRead i n => simp [step, hp] at hs

end Steps

/-- **The line discipline.** In every fair run, what readers got is what is visible of a piece at the front of the committed
text, the buffer holds the rest of that text and then the current line, and every further character is taken, Ctrl-U
included. -/
theorem line_discipline (calls : List Call) (s : Sys) (hfair : Meets step Fair init calls)
    (hr : run step init calls = some s) :
    s.delivered <+: visible (textOf s.typed).committed ∧
    (∃ taken, s.delivered = visible taken ∧
      taken ++ window inputBuf s.cons.buf s.cons.readIdx s.cons.writeIdx = (textOf s.typed).committed) ∧
    window inputBuf s.cons.buf s.cons.writeIdx s.cons.editIdx = (textOf s.typed).line ∧
    ∀ ch, Fair s (.intr ch) → ∃ s', step s (.intr ch) = some s' := by
  obtain ⟨taken, h⟩ := run_invariant (I := fun s => ∃ taken, Inv s taken)
    (fun s e s' hI hC hs => inv_step hI.choose_spec hC hs) ⟨[], inv_init⟩ hfair hr
  refine ⟨?_, ⟨taken, h.delivered, h.committed⟩, h.line, fun ch hch => ?_⟩
  · rw [← h.committed, h.delivered, visible, visible, List.filter_append]
    exact List.prefix_append _ _
  · obtain ⟨s', hs', -⟩ := inv_intr h hch
    exact ⟨s', hs'⟩

instance (s : Sys) : (e : Call) → Decidable (Fair s e)
  | .intr _ => inferInstanceAs (Decidable (_ → _ → _ → _))
  | .go => by
    unfold Fair
    cases s.phase <;> infer_instance
  | .read _ | .interrupt => inferInstanceAs (Decidable True)

/-- a reader waits for a line that is typed with a correction, and takes part of it -/
def correctedLine : List Call := [.read 2, .go, .intr 97, .intr 98, .intr 127, .intr 99, .intr 13, .go, .intr 21]

theorem line_discipline_correctedLine : ∃ s, run step init correctedLine = some s ∧ s.delivered = [97, 99] ∧
    (textOf s.typed).committed = [97, 99, 10] ∧ s.delivered <+: visible (textOf s.typed).committed := by
  obtain ⟨s, hm, hr, hdelivered, htext⟩ : ∃ s, Meets step Fair init correctedLine ∧ run step init correctedLine = some s ∧
      s.delivered = [97, 99] ∧ (textOf s.typed).committed = [97, 99, 10] := guarded_computes (by decide +kernel)
  exact ⟨s, hr, hdelivered, htext, (line_discipline _ s hm hr).1⟩

/-- 127 times the letter a -/
def fullLine : List Call := List.replicate 127 (.intr 97)

/-- **Stale input.** (1) A line that was typed before it was read leaves its token, and the next read delivers a byte nobody
typed. (2) After 128 characters the read index wraps and the write index does not: the first character is delivered again.
(3) Ctrl-U loops when the write index is behind the end of the buffer and no newline is in it. -/
theorem stale_input :
    (∃ s, run step init [.intr 97, .intr 10, .read 2, .read 1, .go, .go] = some s ∧
      ¬ s.delivered <+: visible (textOf s.typed).committed) ∧
    (∃ s, run step init (fullLine ++ [.intr 10, .read 128, .read 1]) = some s ∧
      ¬ s.delivered <+: visible (textOf s.typed).committed) ∧
    ∃ s, run step init (fullLine ++ [.intr 4, .read 1, .intr 98]) = some s ∧ step s (.intr 21) = none :=
  ⟨run_computes (by decide +kernel), run_computes (by decide +kernel), run_computes (by decide +kernel)⟩

end OsKernel.ConsoleSys
