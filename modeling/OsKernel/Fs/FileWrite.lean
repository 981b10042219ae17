/-
`file_write` on one shared open file (`fs/file.c`).

Any number of processes call `file_write` on the same `File` of a regular inode. A call cuts its bytes into chunks; for each
chunk it writes at `f->off` with the inode locked, inside a transaction of its own, and advances `f->off` only after
`end_op` has returned. The locked write is one step, the update of the offset another; the wait in between can be long, since
`end_op` waits for the other operations of its batch. The inode's content is a list of bytes, and `inodeWrite` is what
`inode_write` does to it, with its asserts.

Result (`chunks_disjoint`): if no chunk is written while another one waits for its offset update, chunks never overlap, all
of them are in the file, the offset advances by what the calls return, and no assert fails. Without that, two writers write
the same range (`chunks_overlap`).
-/
import OsKernel.Lib.Runs
import OsKernel.Lib.Splice
import OsKernel.Fs.InodeEntry

namespace OsKernel.Fs.FileWrite

open OsKernel.Runs OsKernel.Splice
open Function (update update_of_ne update_self)

/-! ## The functions -/

/-- `(OP_MAX_NUM_BLOCKS / 2) * BLOCK_SIZE` -/
def chunkBytes : ℕ := opMaxNumBlocks / 2 * blockSize

/-- `inode_write` on the content of a regular file; none is a failed assert -/
def inodeWrite (content : List UInt8) (off : ℕ) (src : List UInt8) : Option (List UInt8) :=
  if off ≤ content.length ∧ addU off src.length ≤ inodeMaxBytes ∧ off ≤ addU off src.length then
    some (splice content off src)
  else none

/-- `inode_read` on the same; none is a failed assert -/
def inodeRead (content : List UInt8) (offset count : ℕ) : Option (List UInt8) :=
  let size := content.length
  let count := if addU count offset > size then subU size offset else count
  let stop := addU offset count
  if offset ≤ size ∧ stop ≤ size ∧ offset ≤ stop then some ((content.drop offset).take (stop - offset)) else none

/-- the assert on the offset is the one that counts -/
theorem inodeRead_length {content bs : List UInt8} {offset count : ℕ} (h : inodeRead content offset count = some bs) :
    bs.length ≤ count := by
  simp only [inodeRead, Option.ite_none_right_eq_some, Option.some.injEq] at h
  obtain ⟨-, rfl⟩ := h
  rw [List.length_take, List.length_drop, addU, addU]
  split_ifs <;> omega

theorem inodeRead_eq {content : List UInt8} (hsize : content.length < 2 ^ 32) {offset count : ℕ} (hno : count < 2 ^ 63) :
    inodeRead content offset count = if offset ≤ content.length then some ((content.drop offset).take count) else none := by
  by_cases hoff : offset ≤ content.length
  · have hadd : addU count offset = count + offset := addU_of_lt (by omega)
    have hsub : subU content.length offset = content.length - offset := subU_of_le hoff (by omega)
    simp only [inodeRead, hadd, hsub, hoff, true_and, if_true]
    by_cases hlong : count + offset > content.length
    · have hstop : addU offset (content.length - offset) = content.length := by
        rw [addU_of_lt (by omega)]
        omega
      simp only [if_pos hlong, hstop, le_refl, hoff, and_self, if_true]
      rw [List.take_of_length_le (by rw [List.length_drop]), List.take_of_length_le (by rw [List.length_drop]; omega)]
    · have hstop : addU offset count = offset + count := addU_of_lt (by omega)
      have hle : offset + count ≤ content.length := by omega
      simp only [if_neg hlong, hstop, hle, Nat.le_add_right, and_self, if_true, Nat.add_sub_cancel_left]
  · simp only [inodeRead, hoff, false_and, if_false]

inductive Stage where
  /-- at the head of the loop, with something left to write -/
  | loop
  /-- has written a chunk of this size, inside `end_op` -/
  | written (size : ℕ)
  | returned
deriving DecidableEq, Repr

/-- a call of `file_write(f, addr, n)`, src being the n bytes at `addr` -/
structure Act where
  src : List UInt8
  writeSize : ℕ
  writePointer : ℕ
  ret : ℕ
  stage : Stage

/-- where the loop goes after its test -/
def Act.test (a : Act) : Act := { a with stage := if a.writePointer ≠ a.writeSize then .loop else .returned }

/-- `file_write` up to its loop -/
def fileWrite (off : ℕ) (src : List UInt8) : Act :=
  Act.test ⟨src, min (subU inodeMaxBytes off) src.length, 0, 0, .loop⟩

/-- the bytes of the next chunk -/
def Act.chunk (a : Act) : List UInt8 := slice a.src a.writePointer (min (a.writeSize - a.writePointer) chunkBytes)

/-- the end of a turn of the loop -/
def Act.advance (a : Act) (size : ℕ) : Act :=
  Act.test { a with writePointer := a.writePointer + size, ret := a.ret + size }

/-! ## Concurrent calls -/

structure Sys where
  /-- `f->off` -/
  off : ℕ
  content : List UInt8
  /-- calls are numbered in the order they start -/
  started : ℕ
  act : ℕ → Act
  /-- the offset before the first call -/
  start : ℕ
  /-- the chunks written, latest first: where, and what -/
  chunks : List (ℕ × List UInt8)

def init (off : ℕ) (content : List UInt8) : Sys :=
  ⟨off, content, 0, fun _ => ⟨[], 0, 0, 0, .returned⟩, off, []⟩

inductive Call where
  | call (src : List UInt8)
  /-- call p writes its next chunk -/
  | write (p : ℕ)
  /-- call p is back from `end_op` -/
  | advance (p : ℕ)

def step (s : Sys) : Call → Option Sys
  | .call src => some { s with started := s.started + 1, act := update s.act s.started (fileWrite s.off src) }
  | .write p =>
    let a := s.act p
    if p < s.started ∧ a.stage = .loop then
      (inodeWrite s.content s.off a.chunk).map fun content =>
        { s with
          content
          act := update s.act p { a with stage := .written a.chunk.length }
          chunks := (s.off, a.chunk) :: s.chunks }
    else none
  | .advance p =>
    let a := s.act p
    match a.stage with
    | .written size =>
      if p < s.started then some { s with off := addU s.off size, act := update s.act p (a.advance size) }
      else none
    | .loop | .returned => none

/-- the bytes all calls so far want to write fit into the file -/
def Fits (s : Sys) (src : List UInt8) : Prop :=
  s.start + (∑ p ∈ Finset.range s.started, (s.act p).src.length) + src.length ≤ inodeMaxBytes

/-- no call is between the write of a chunk and the update of the offset -/
def NoneWaits (s : Sys) : Prop := ∀ p < s.started, ∀ size, (s.act p).stage ≠ .written size

/-- the calls fit into the file, and no chunk is written while another one waits for its update -/
def Alone (s : Sys) : Call → Prop
  | .call src => Fits s src
  | .write _ => NoneWaits s
  | .advance _ => True

/-! ## The invariant -/

/-- bytes written and not yet added to the offset -/
def Stage.pending : Stage → ℕ
  | .written size => size
  | .loop | .returned => 0

/-- a call has advanced by what it will return, and its chunk in hand fits into what is left -/
structure ActOk (a : Act) : Prop where
  size : a.writeSize = a.src.length
  ret : a.ret = a.writePointer
  fits : a.writePointer + a.stage.pending ≤ a.writeSize
  loop : a.stage = .loop → a.writePointer < a.writeSize

/-- every chunk lies behind the place where the next one goes -/
structure Inv (s : Sys) : Prop where
  acts : ∀ p < s.started, ActOk (s.act p)
  off : s.off = s.start + ∑ p ∈ Finset.range s.started, (s.act p).ret
  total : s.start + ∑ p ∈ Finset.range s.started, (s.act p).src.length ≤ inodeMaxBytes
  inside : s.off + ∑ p ∈ Finset.range s.started, (s.act p).stage.pending ≤ s.content.length
  behind : ∀ c ∈ s.chunks, c.1 + c.2.length ≤ s.off + ∑ p ∈ Finset.range s.started, (s.act p).stage.pending
  apart : s.chunks.Pairwise fun c d => c.1 + c.2.length ≤ d.1 ∨ d.1 + d.2.length ≤ c.1
  present : ∀ c ∈ s.chunks, slice s.content c.1 c.2.length = c.2

theorem inv_init {off : ℕ} {content : List UInt8} (h : off ≤ content.length) (hmax : off ≤ inodeMaxBytes) :
    Inv (init off content) := by
  refine ⟨fun p hp => absurd hp (Nat.not_lt_zero p), ?_, ?_, ?_, ?_, List.Pairwise.nil, ?_⟩ <;> simp [init, h, hmax]

/-- one call changes, and a sum over the calls changes by its part -/
theorem sum_update (f : Act → ℕ) (act : ℕ → Act) {p n : ℕ} (hp : p < n) (a : Act) :
    (∑ q ∈ Finset.range n, f (update act p a q)) + f (act p) = (∑ q ∈ Finset.range n, f (act q)) + f a := by
  have hmem := Finset.mem_range.2 hp
  rw [← Finset.add_sum_erase _ _ hmem, ← Finset.add_sum_erase _ (fun q => f (act q)) hmem, update_self]
  have hrest : ∑ q ∈ (Finset.range n).erase p, f (update act p a q) =
      ∑ q ∈ (Finset.range n).erase p, f (act q) := by
    apply Finset.sum_congr rfl
    intro q hq
    rw [update_of_ne (Finset.ne_of_mem_erase hq)]
  rw [hrest]
  omega

/-- a new call comes last -/
theorem sum_new (f : Act → ℕ) (act : ℕ → Act) (n : ℕ) (a : Act) :
    ∑ q ∈ Finset.range (n + 1), f (update act n a q) = (∑ q ∈ Finset.range n, f (act q)) + f a := by
  rw [Finset.sum_range_succ, update_self]
  congr 1
  apply Finset.sum_congr rfl
  intro q hq
  rw [update_of_ne (Finset.mem_range.1 hq).ne]

theorem Act.test_pending (a : Act) : a.test.stage.pending = 0 := by
  unfold Act.test
  dsimp only
  split_ifs <;> rfl

/-- the loop test keeps a call in order -/
theorem actOk_test {a : Act} (hsize : a.writeSize = a.src.length) (hret : a.ret = a.writePointer)
    (hle : a.writePointer ≤ a.writeSize) : ActOk a.test := by
  refine ⟨hsize, hret, ?_, fun hstage => ?_⟩
  · rw [Act.test_pending]
    exact hle
  · unfold Act.test at hstage ⊢
    dsimp only at hstage ⊢
    split_ifs at hstage with hne
    exact lt_of_le_of_ne hle hne

section Steps

variable {s : Sys} (h : Inv s)
include h

/-- what a call has still to write fits behind the offset -/
theorem off_add_le {p k : ℕ} (hp : p < s.started) (hk : (s.act p).ret + k ≤ (s.act p).src.length) :
    s.off + k ≤ inodeMaxBytes := by
  obtain ⟨b, hb⟩ : ∃ b : Act, b.ret = (s.act p).ret + k := ⟨{ s.act p with ret := (s.act p).ret + k }, rfl⟩
  have hsum := sum_update Act.ret s.act hp b
  have hle : ∑ q ∈ Finset.range s.started, (update s.act p b q).ret ≤
      ∑ q ∈ Finset.range s.started, (s.act q).src.length := by
    apply Finset.sum_le_sum
    intro q hq
    by_cases hqp : q = p
    · subst hqp
      rw [update_self, hb]
      exact hk
    · rw [update_of_ne hqp]
      obtain ⟨hsize, hret, hfits, -⟩ := h.acts q (Finset.mem_range.1 hq)
      omega
  have hoff := h.off
  have htotal := h.total
  omega

theorem inv_call {src : List UInt8} (hfits : Fits s src) :
    Inv { s with started := s.started + 1, act := update s.act s.started (fileWrite s.off src) } := by
  unfold Fits at hfits
  have hle : s.off + src.length ≤ inodeMaxBytes := by
    have hret : ∑ q ∈ Finset.range s.started, (s.act q).ret ≤ ∑ q ∈ Finset.range s.started, (s.act q).src.length := by
      apply Finset.sum_le_sum
      intro q hq
      obtain ⟨hsize, hret, hfits, -⟩ := h.acts q (Finset.mem_range.1 hq)
      omega
    have hoff := h.off
    omega
  have hsize : min (subU inodeMaxBytes s.off) src.length = src.length := by
    rw [subU_of_le (by omega) (by decide)]
    omega
  have hpend : (fileWrite s.off src).stage.pending = 0 := Act.test_pending _
  refine ⟨fun p hp => ?_, ?_, ?_, ?_, ?_, h.apart, h.present⟩
  · dsimp only at hp ⊢
    by_cases hps : p = s.started
    · subst hps
      rw [update_self]
      exact actOk_test hsize rfl (Nat.zero_le _)
    · rw [update_of_ne hps]
      exact h.acts p (by omega)
  · show s.off = s.start + _
    rw [sum_new Act.ret]
    exact h.off
  · show s.start + _ ≤ _
    rw [sum_new fun a => a.src.length, ← add_assoc]
    exact hfits
  · show s.off + _ ≤ _
    rw [sum_new fun a => a.stage.pending, hpend]
    exact h.inside
  · intro c hc
    show _ ≤ s.off + _
    rw [sum_new fun a => a.stage.pending, hpend]
    exact h.behind c hc

/-- **Writing a chunk.** Alone behind all other chunks, it meets the asserts and keeps the invariant. -/
theorem inv_write {p : ℕ} (hp : p < s.started) (hloop : (s.act p).stage = .loop) (hnone : NoneWaits s) :
    ∃ s', step s (.write p) = some s' ∧ Inv s' := by
  obtain ⟨hsize, hret, -, hlt⟩ := h.acts p hp
  have hlt := hlt hloop
  set a := s.act p with ha
  have hchunk : a.chunk.length ≤ a.writeSize - a.writePointer := by
    unfold Act.chunk slice
    rw [List.length_take]
    omega
  have hnothing : ∑ q ∈ Finset.range s.started, (s.act q).stage.pending = 0 := by
    apply Finset.sum_eq_zero
    intro q hq
    cases hst : (s.act q).stage with
    | written size => exact absurd hst (hnone q (Finset.mem_range.1 hq) size)
    | loop => rfl
    | returned => rfl
  have hinside := h.inside
  have hmax := off_add_le h hp (k := a.chunk.length) (by rw [← ha]; omega)
  have hadd : addU s.off a.chunk.length = s.off + a.chunk.length := by
    refine addU_of_lt (lt_of_le_of_lt hmax ?_)
    decide
  rw [hnothing, Nat.add_zero] at hinside
  have hasserts : s.off ≤ s.content.length ∧ addU s.off a.chunk.length ≤ inodeMaxBytes ∧
      s.off ≤ addU s.off a.chunk.length := by
    rw [hadd]
    exact ⟨hinside, hmax, Nat.le_add_right _ _⟩
  have hstep : step s (.write p) = some { s with
      content := splice s.content s.off a.chunk
      act := update s.act p { a with stage := .written a.chunk.length }
      chunks := (s.off, a.chunk) :: s.chunks } := by
    simp only [step, ← ha, if_pos (And.intro hp hloop), inodeWrite, if_pos hasserts, Option.map_some]
  refine ⟨_, hstep, ?_⟩
  -- from here on only these facts about the new record of the call matter
  obtain ⟨b, hb, hbok, hbret, hbsrc, hbpend⟩ : ∃ b : Act, { a with stage := .written a.chunk.length } = b ∧ ActOk b ∧
      b.ret = a.ret ∧ b.src = a.src ∧ b.stage.pending = a.chunk.length :=
    ⟨_, rfl, ⟨hsize, hret, show a.writePointer + a.chunk.length ≤ a.writeSize by omega, fun hst => by cases hst⟩,
      rfl, rfl, rfl⟩
  rw [hb]
  have hpending := sum_update (fun a => a.stage.pending) s.act hp b
  rw [hnothing, hbpend, ← ha, hloop, Stage.pending] at hpending
  refine ⟨fun q hq => ?_, ?_, ?_, ?_, ?_, ?_, ?_⟩
  · dsimp only at hq ⊢
    by_cases hqp : q = p
    · rw [hqp, update_self]
      exact hbok
    · rw [update_of_ne hqp]
      exact h.acts q hq
  · have hsum := sum_update Act.ret s.act hp b
    rw [← ha, hbret] at hsum
    have hoff := h.off
    dsimp only
    omega
  · have hsum := sum_update (fun a => a.src.length) s.act hp b
    rw [← ha, hbsrc] at hsum
    have htotal := h.total
    dsimp only
    omega
  · have hlen := splice_length (d := a.chunk) hinside
    dsimp only
    omega
  · intro c hc
    rcases List.mem_cons.1 hc with rfl | hc
    · dsimp only
      omega
    · dsimp only
      have hbehind := h.behind c hc
      omega
  · refine List.pairwise_cons.2 ⟨fun c hc => ?_, h.apart⟩
    have hbehind := h.behind c hc
    rw [hnothing] at hbehind
    exact Or.inr hbehind
  · intro c hc
    rcases List.mem_cons.1 hc with rfl | hc
    · exact slice_splice_self hinside
    · have hbehind := h.behind c hc
      rw [hnothing] at hbehind
      rw [slice_splice_before hinside hbehind]
      exact h.present c hc

theorem inv_advance {p size : ℕ} (hp : p < s.started) (hw : (s.act p).stage = .written size) :
    Inv { s with off := addU s.off size, act := update s.act p ((s.act p).advance size) } := by
  obtain ⟨hsize, hret, hfits, -⟩ := h.acts p hp
  rw [hw, Stage.pending] at hfits
  have hmax := off_add_le h hp (k := size) (by omega)
  have hadd : addU s.off size = s.off + size := addU_of_lt (lt_of_le_of_lt hmax (by decide))
  have hpending := sum_update (fun a => a.stage.pending) s.act hp ((s.act p).advance size)
  have hnew : ((s.act p).advance size).stage.pending = 0 := Act.test_pending _
  rw [hnew, hw, Stage.pending] at hpending
  refine ⟨fun q hq => ?_, ?_, ?_, ?_, fun c hc => ?_, h.apart, h.present⟩
  · dsimp only at hq ⊢
    by_cases hqp : q = p
    · subst hqp
      rw [update_self]
      exact actOk_test hsize (by dsimp only; omega) hfits
    · rw [update_of_ne hqp]
      exact h.acts q hq
  · have hsum := sum_update Act.ret s.act hp ((s.act p).advance size)
    have hadv : ((s.act p).advance size).ret = (s.act p).ret + size := rfl
    have hoff := h.off
    dsimp only
    omega
  · have hsum := sum_update (fun a => a.src.length) s.act hp ((s.act p).advance size)
    have hadv : ((s.act p).advance size).src = (s.act p).src := rfl
    have htotal := h.total
    rw [hadv] at hsum
    dsimp only
    omega
  · have hinside := h.inside
    dsimp only
    omega
  · have hbehind := h.behind c hc
    dsimp only
    omega

theorem inv_step {e : Call} {s' : Sys} (ha : Alone s e) (hs : step s e = some s') : Inv s' := by
  cases e with
  | call src =>
    rw [← Option.some.inj hs]
    exact inv_call h ha
  | write p =>
    obtain ⟨⟨hp, hloop⟩, -⟩ := Option.ite_none_right_eq_some.1 hs
    obtain ⟨t, ht, hinv⟩ := inv_write h hp hloop ha
    rwa [← Option.some.inj (ht.symm.trans hs)]
  | advance p =>
    simp only [step] at hs
    split at hs
    · next size hw =>
      obtain ⟨hp, hs⟩ := Option.ite_none_right_eq_some.1 hs
      rw [← Option.some.inj hs]
      exact inv_advance h hp hw
    all_goals cases hs

end Steps

/-- **Shared-offset writes.** In every run in which no chunk is written while another waits for its offset update: chunks do
not overlap; each is in the file; when all calls have returned the offset has advanced by the sum of what they returned; and
a chunk that is written alone meets the asserts of `inode_write`. -/
theorem chunks_disjoint (off : ℕ) (content : List UInt8) (h1 : off ≤ content.length) (h2 : off ≤ inodeMaxBytes)
    (calls : List Call) (s : Sys) (ha : Meets step Alone (init off content) calls)
    (hr : run step (init off content) calls = some s) :
    s.chunks.Pairwise (fun c d => c.1 + c.2.length ≤ d.1 ∨ d.1 + d.2.length ≤ c.1) ∧
    (∀ c ∈ s.chunks, slice s.content c.1 c.2.length = c.2) ∧
    ((∀ p < s.started, (s.act p).stage = .returned) → s.off = off + ∑ p ∈ Finset.range s.started, (s.act p).ret) ∧
    ∀ p < s.started, (s.act p).stage = .loop → NoneWaits s → ∃ s', step s (.write p) = some s' := by
  have hinv : Inv s ∧ s.start = off := by
    refine run_invariant (I := fun s => Inv s ∧ s.start = off) (fun s e s' hI hC hs => ⟨inv_step hI.1 hC hs, ?_⟩)
      ⟨inv_init h1 h2, rfl⟩ ha hr
    rw [← hI.2]
    cases e with
    | call src => rw [← Option.some.inj hs]
    | write p =>
      obtain ⟨-, hs⟩ := Option.ite_none_right_eq_some.1 hs
      obtain ⟨content, -, rfl⟩ := Option.map_eq_some_iff.1 hs
      rfl
    | advance p =>
      simp only [step] at hs
      split at hs
      · rw [← Option.some.inj (Option.ite_none_right_eq_some.1 hs).2]
      all_goals cases hs
  obtain ⟨h, hstart⟩ := hinv
  refine ⟨h.apart, h.present, fun _ => ?_, fun p hp hloop hnone => ?_⟩
  · rw [← hstart]
    exact h.off
  · obtain ⟨s', hs', -⟩ := inv_write h hp hloop hnone
    exact ⟨s', hs'⟩

instance (s : Sys) : Decidable (NoneWaits s) :=
  decidable_of_iff (∀ p < s.started, (s.act p).stage = .loop ∨ (s.act p).stage = .returned) <| by
    refine forall₂_congr fun p _ => ?_
    cases (s.act p).stage <;> simp

instance (s : Sys) : (e : Call) → Decidable (Alone s e)
  | .call _ => inferInstanceAs (Decidable (_ ≤ _))
  | .write _ => inferInstanceAs (Decidable (NoneWaits s))
  | .advance _ => inferInstanceAs (Decidable True)

/-- two calls take turns -/
def takeTurns : List Call := [.call [1, 2], .call [3], .write 0, .advance 0, .write 1, .advance 1]

theorem chunks_disjoint_takeTurns : ∃ s, run step (init 1 [9]) takeTurns = some s ∧ s.content = [9, 1, 2, 3] ∧
    s.chunks = [(3, [3]), (1, [1, 2])] ∧ ∀ c ∈ s.chunks, slice s.content c.1 c.2.length = c.2 := by
  obtain ⟨s, hm, hr, hcontent, hchunks⟩ : ∃ s, Meets step Alone (init 1 [9]) takeTurns ∧
      run step (init 1 [9]) takeTurns = some s ∧ s.content = [9, 1, 2, 3] ∧ s.chunks = [(3, [3]), (1, [1, 2])] :=
    guarded_computes (by decide +kernel)
  exact ⟨s, hr, hcontent, hchunks, (chunks_disjoint 1 [9] (by decide) (by decide) _ s hm hr).2.1⟩

/-- **Two writers, one range.** The second chunk goes to the offset of the first, which is still waiting; a byte of the first
is lost, the offset ends behind the file, and the next write fails its assert. -/
theorem chunks_overlap : ∃ s,
    run step (init 0 []) [.call [1, 2], .call [3], .write 0, .write 1, .advance 0, .advance 1, .call [4]] = some s ∧
    s.chunks = [(0, [3]), (0, [1, 2])] ∧ s.content = [3, 2] ∧ s.off = 3 ∧ step s (.write 2) = none :=
  run_computes (by decide +kernel)

end OsKernel.Fs.FileWrite
