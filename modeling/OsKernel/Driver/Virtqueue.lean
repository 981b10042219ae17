/-
The descriptor pool of the disk driver (`driver/virtio_blk.c`, `struct virtq` in `driver/virtio.h`).

Any number of calls of `virtio_blk_rw` are under way. What a call does with `disk.lk` held is one step: the request up to the
loop that waits for `done` (`submit`), and each later turn of that loop (`wake`, at any time). A turn of the loop in
`virtio_blk_intr` is one step. The device is on its own: it fetches heads from the available ring, completes what it has
fetched in any order, writes the status byte where the third descriptor of the chain says, and puts the head on the used ring.
Step none is a PANIC, or a loop in `free_desc` that does not end.

Ghosts: the Bufs whose semaphore the handler has posted, and how often each head has been submitted and its completion handled.

Invariants: the free descriptors are linked from `free_head`, every call has its own chain of three, and together they are all
descriptors (`Pool`). Every head under way is in one place: the available ring, the device, the used ring, or `done` (`Flow`).
Result (`virtqueue_pool`), over all runs; the ring indices may wrap.
-/
import OsKernel.Lib.Runs
import OsKernel.Lib.Ring

namespace OsKernel.Driver.Virtqueue

open OsKernel.Runs OsKernel.Ring
open Function (update update_of_ne update_self)

/-! ## Model -/

/-- `NQUEUE` -/
abbrev nqueue : ℕ := 16
/-- `VIRTQ_DESC_F_NEXT` -/
abbrev descFNext : ℕ := 1
/-- `VIRTQ_DESC_F_WRITE` -/
abbrev descFWrite : ℕ := 2

/-- what a descriptor points to -/
inductive Addr where
  | null
  | hdr (caller : ℕ)
  | data (buf : ℕ)
  | status (head : ℕ)
deriving DecidableEq

/-- `struct virtq_desc` -/
structure Desc where
  addr : Addr
  len : ℕ
  flags : ℕ
  next : ℕ
deriving DecidableEq

def Desc.HasNext (d : Desc) : Prop := d.flags &&& descFNext ≠ 0

instance (d : Desc) : Decidable d.HasNext := inferInstanceAs (Decidable (_ ≠ _))

structure Info where
  status : UInt8
  done : Bool
  /-- the Buf that has this data -/
  buf : Option ℕ

/-- `struct virtq`; of an element of the used ring the id -/
structure Virtq where
  desc : ℕ → Desc
  availIdx : UInt16
  availRing : ℕ → ℕ
  usedIdx : UInt16
  usedRing : ℕ → ℕ
  freeHead : ℕ
  nfree : ℕ
  lastUsedIdx : UInt16
  info : ℕ → Info

def Virtq.setDesc (q : Virtq) (d : ℕ) (x : Desc) : Virtq := { q with desc := update q.desc d x }

/-- `desc_init` -/
def descInit (desc : ℕ → Desc) : ℕ → Desc :=
  (List.range nqueue).foldl (fun desc i =>
    if i ≠ nqueue - 1 then update desc i { desc i with flags := descFNext, next := i + 1 } else desc) desc

/-- `virtq_init` -/
def virtqInit : Virtq where
  desc := descInit fun _ => ⟨.null, 0, 0, 0⟩
  availIdx := 0
  availRing _ := 0
  usedIdx := 0
  usedRing _ := 0
  freeHead := 0
  nfree := nqueue
  lastUsedIdx := 0
  info _ := ⟨0, false, none⟩

/-- `alloc_desc` -/
def allocDesc (q : Virtq) : Option (ℕ × Virtq) :=
  if q.nfree = 0 then none
  else
    let d := q.freeHead
    some (d, { q with
      freeHead := if (q.desc d).HasNext then (q.desc d).next else q.freeHead
      nfree := q.nfree - 1 })

/-- the loop of `free_desc`: the last descriptor of the chain and the count -/
def freeLoop (desc : ℕ → Desc) : ℕ → ℕ → ℕ → Option (ℕ × ℕ)
  | 0, _, _ => none
  | fuel + 1, n, nfree => if (desc n).HasNext then freeLoop desc fuel (desc n).next (nfree + 1) else some (n, nfree + 1)

/-- `free_desc` -/
def freeDesc (q : Virtq) (head : ℕ) : Option Virtq :=
  (freeLoop q.desc nqueue head q.nfree).map fun r =>
    let n := r.1
    { q.setDesc n { q.desc n with
        flags := descFNext
        next := if q.nfree = 0 then (q.desc n).next else q.freeHead } with
      freeHead := head
      nfree := r.2 }

/-- a call of `virtio_blk_rw`: its arguments and `d0`, `d1`, `d2` -/
structure Call where
  caller : ℕ
  buf : ℕ
  /-- the Buf is B_DIRTY -/
  write : Bool
  d0 : ℕ
  d1 : ℕ
  d2 : ℕ
deriving DecidableEq

def Call.chain (c : Call) : List ℕ := [c.d0, c.d1, c.d2]

/-- `virtio_blk_rw` up to its loop -/
def request (caller buf : ℕ) (write : Bool) (q : Virtq) : Option (Call × Virtq) :=
  (allocDesc q).bind fun r0 =>
    let d0 := r0.1
    let q := r0.2.setDesc d0 { r0.2.desc d0 with addr := .hdr caller, len := 16, flags := descFNext }
    (allocDesc q).bind fun r1 =>
      let d1 := r1.1
      let q := r1.2.setDesc d0 { r1.2.desc d0 with next := d1 }
      let q := q.setDesc d1 { q.desc d1 with
        addr := .data buf, len := 512, flags := if write then descFNext else descFNext ||| descFWrite }
      (allocDesc q).bind fun r2 =>
        let d2 := r2.1
        let q := r2.2.setDesc d1 { r2.2.desc d1 with next := d2 }
        let q := q.setDesc d2 ⟨.status d0, 1, descFWrite, 0⟩
        some (⟨caller, buf, write, d0, d1, d2⟩, { q with
          availRing := update q.availRing (q.availIdx.toNat % nqueue) d0
          availIdx := q.availIdx + 1
          info := update q.info d0 { q.info d0 with buf := some buf } })

/-- the test of the loop in `virtio_blk_rw` and, when `done` is set, what follows the loop -/
def finish (c : Call) (q : Virtq) : Option (Bool × Virtq) :=
  if (q.info c.d0).done then
    (freeDesc { q with info := update q.info c.d0 { q.info c.d0 with done := false } } c.d0).map fun q => (true, q)
  else some (false, q)

structure Sys where
  q : Virtq
  /-- the calls that wait for `done` -/
  calls : List Call
  /-- the device: its place in the available ring, and what it works on -/
  devIdx : UInt16
  pending : List ℕ
  posts : List ℕ
  submitted : ℕ → ℕ
  handled : ℕ → ℕ

def init : Sys := ⟨virtqInit, [], 0, [], [], fun _ => 0, fun _ => 0⟩

inductive Event where
  | submit (caller buf : ℕ) (write : Bool)
  | wake (c : Call)
  | fetch
  | complete (head : ℕ) (status : UInt8)
  | intr

/-- where the device writes the status of the request with this head -/
def statusOf (q : Virtq) (head : ℕ) : ℕ :=
  match (q.desc (q.desc (q.desc head).next).next).addr with
  | .status d => d
  | _ => head

def step (s : Sys) : Event → Option Sys
  | .submit caller buf write =>
    (request caller buf write s.q).bind fun r => (finish r.1 r.2).map fun t =>
      { s with
        q := t.2
        calls := if t.1 then s.calls else r.1 :: s.calls
        submitted := update s.submitted r.1.d0 (s.submitted r.1.d0 + 1) }
  | .wake c =>
    if c ∈ s.calls then
      (finish c s.q).map fun t => { s with q := t.2, calls := if t.1 then s.calls.erase c else s.calls }
    else none
  | .fetch =>
    if s.devIdx = s.q.availIdx then none
    else some { s with devIdx := s.devIdx + 1, pending := s.q.availRing (s.devIdx.toNat % nqueue) :: s.pending }
  | .complete head st =>
    if head ∈ s.pending then
      let d := statusOf s.q head
      some { s with
        q := { s.q with
          info := update s.q.info d { s.q.info d with status := st }
          usedRing := update s.q.usedRing (s.q.usedIdx.toNat % nqueue) head
          usedIdx := s.q.usedIdx + 1 }
        pending := s.pending.erase head }
    else none
  | .intr =>
    if s.q.lastUsedIdx = s.q.usedIdx then some s
    else
      let d := s.q.usedRing (s.q.lastUsedIdx.toNat % nqueue)
      if (s.q.info d).status ≠ 0 then none
      else
        match (s.q.info d).buf with
        | none => none
        | some b =>
          some { s with
            q := { s.q with
              info := update s.q.info d { s.q.info d with done := true, buf := none }
              lastUsedIdx := s.q.lastUsedIdx + 1 }
            posts := b :: s.posts
            handled := update s.handled d (s.handled d + 1) }

/-! ## The free descriptors -/

/-- h leads through the descriptors l; the link of the last one is not used -/
def FreeFrom (desc : ℕ → Desc) : ℕ → List ℕ → Prop
  | _, [] => True
  | h, [d] => h = d
  | h, d :: e :: l => h = d ∧ (desc d).HasNext ∧ FreeFrom desc (desc d).next (e :: l)

/-- n steps from h -/
def walkFree (desc : ℕ → Desc) : ℕ → ℕ → List ℕ
  | _, 0 => []
  | h, n + 1 => h :: walkFree desc (desc h).next n

section Free

variable {desc desc' : ℕ → Desc} {h : ℕ} {l : List ℕ}

theorem FreeFrom.head {d : ℕ} (hf : FreeFrom desc h (d :: l)) : h = d := by
  cases l with
  | nil => exact hf
  | cons e l => exact hf.1

theorem FreeFrom.congr (hf : FreeFrom desc h l) (heq : ∀ d ∈ l, desc' d = desc d) : FreeFrom desc' h l := by
  induction l generalizing h with
  | nil => exact hf
  | cons d l ih =>
    cases l with
    | nil => exact hf
    | cons e l =>
      obtain ⟨hh, hn, hrest⟩ := hf
      have hd := heq d List.mem_cons_self
      refine ⟨hh, by rw [hd]; exact hn, ?_⟩
      rw [hd]
      exact ih hrest fun x hx => heq x (List.mem_cons_of_mem d hx)

theorem FreeFrom.walk (hf : FreeFrom desc h l) : walkFree desc h l.length = l := by
  induction l generalizing h with
  | nil => rfl
  | cons d l ih =>
    cases l with
    | nil => rw [hf.head]; rfl
    | cons e l =>
      obtain ⟨rfl, -, hrest⟩ := hf
      rw [List.length_cons, walkFree, ih hrest]

end Free

/-- with two free descriptors the first is handed out -/
theorem allocDesc_cons {q : Virtq} {d e : ℕ} {l : List ℕ} (hf : FreeFrom q.desc q.freeHead (d :: e :: l))
    (hn : q.nfree = l.length + 2) : allocDesc q = some (d, { q with freeHead := e, nfree := l.length + 1 }) := by
  obtain ⟨hd, hnext, hrest⟩ := hf
  have hne : q.nfree ≠ 0 := by omega
  rw [allocDesc, if_neg hne, hd]
  simp only [if_pos hnext, hrest.head, hn]
  rfl

/-! ## The pool -/

/-- the three descriptors of a request -/
structure Chained (desc : ℕ → Desc) (c : Call) : Prop where
  first : desc c.d0 = ⟨.hdr c.caller, 16, descFNext, c.d1⟩
  second : desc c.d1 = ⟨.data c.buf, 512, if c.write then descFNext else descFNext ||| descFWrite, c.d2⟩
  third : desc c.d2 = ⟨.status c.d0, 1, descFWrite, 0⟩

theorem Chained.congr {desc desc' : ℕ → Desc} {c : Call} (h : Chained desc c) (heq : ∀ d ∈ c.chain, desc' d = desc d) :
    Chained desc' c :=
  ⟨(heq _ (by simp [Call.chain])).trans h.first, (heq _ (by simp [Call.chain])).trans h.second,
    (heq _ (by simp [Call.chain])).trans h.third⟩

structure Pool (q : Virtq) (calls : List Call) (l : List ℕ) : Prop where
  free : FreeFrom q.desc q.freeHead l
  count : l.length = q.nfree
  parts : (l ++ calls.flatMap Call.chain).Perm (List.range nqueue)
  chained : ∀ c ∈ calls, Chained q.desc c

theorem pool_init : Pool virtqInit [] (List.range nqueue) := by
  refine ⟨?_, by decide, by simp, fun c hc => by cases hc⟩
  have hrange : List.range nqueue = [0, 1, 2, 3, 4, 5, 6, 7, 8, 9, 10, 11, 12, 13, 14, 15] := by decide
  rw [hrange]
  have hlink : ∀ d < 15, (virtqInit.desc d).HasNext ∧ (virtqInit.desc d).next = d + 1 := by decide
  simp only [FreeFrom, hlink, Nat.reduceLT, Nat.reduceAdd, and_true]
  decide

section Pool

variable {q : Virtq} {calls : List Call} {l : List ℕ} (h : Pool q calls l)
include h

theorem Pool.nodup : (l ++ calls.flatMap Call.chain).Nodup := h.parts.nodup_iff.2 List.nodup_range

theorem Pool.size : l.length + 3 * calls.length = nqueue := by
  have hlen := h.parts.length_eq
  have hflat : (calls.flatMap Call.chain).length = 3 * calls.length := by
    simp only [List.length_flatMap, Call.chain, List.length_cons, List.length_nil, List.map_const', List.sum_replicate,
      smul_eq_mul]
    omega
  rw [List.length_append, hflat, List.length_range] at hlen
  exact hlen

theorem Pool.congr {q' : Virtq} (hdesc : ∀ d ∈ l ++ calls.flatMap Call.chain, q'.desc d = q.desc d)
    (hfree : q'.freeHead = q.freeHead) (hcount : q'.nfree = q.nfree) : Pool q' calls l := by
  refine ⟨?_, by rw [hcount]; exact h.count, h.parts, fun c hc => (h.chained c hc).congr fun d hd => ?_⟩
  · rw [hfree]
    exact h.free.congr fun d hd => hdesc d (List.mem_append_left _ hd)
  · exact hdesc d (List.mem_append_right _ (List.mem_flatMap.2 ⟨c, hc, hd⟩))

/-- the request with the three first free descriptors -/
theorem Pool.request {d0 d1 d2 e : ℕ} {l' : List ℕ} (hl : l = d0 :: d1 :: d2 :: e :: l') (caller buf : ℕ) (write : Bool) :
    ∃ q', Virtqueue.request caller buf write q = some (⟨caller, buf, write, d0, d1, d2⟩, q') ∧
      Pool q' (⟨caller, buf, write, d0, d1, d2⟩ :: calls) (e :: l') ∧
      q'.availRing = update q.availRing (q.availIdx.toNat % nqueue) d0 ∧ q'.availIdx = q.availIdx + 1 ∧
      q'.usedRing = q.usedRing ∧ q'.usedIdx = q.usedIdx ∧ q'.lastUsedIdx = q.lastUsedIdx ∧
      q'.info = update q.info d0 { q.info d0 with buf := some buf } := by
  subst hl
  have hnd0 := List.nodup_cons.1 h.nodup
  have hnd1 := List.nodup_cons.1 hnd0.2
  have hnd2 := List.nodup_cons.1 hnd1.2
  -- each of the three is none of the descriptors behind it, and none of the other calls'
  have hmem1 : ∀ d ∈ d1 :: d2 :: e :: l', d ≠ d0 := fun d hd =>
    ne_of_mem_of_not_mem (List.mem_append_left _ hd) hnd0.1
  have hmem2 : ∀ d ∈ d2 :: e :: l', d ≠ d1 := fun d hd => ne_of_mem_of_not_mem (List.mem_append_left _ hd) hnd1.1
  have hmem3 : ∀ d ∈ e :: l', d ≠ d2 := fun d hd => ne_of_mem_of_not_mem (List.mem_append_left _ hd) hnd2.1
  have hothers : ∀ d ∈ calls.flatMap Call.chain, d ≠ d0 ∧ d ≠ d1 ∧ d ≠ d2 := fun d hd =>
    ⟨ne_of_mem_of_not_mem (List.mem_append_right (d1 :: d2 :: e :: l') hd) hnd0.1,
      ne_of_mem_of_not_mem (List.mem_append_right (d2 :: e :: l') hd) hnd1.1,
      ne_of_mem_of_not_mem (List.mem_append_right (e :: l') hd) hnd2.1⟩
  have h01 : d0 ≠ d1 := (hmem1 d1 (by simp)).symm
  have h02 : d0 ≠ d2 := (hmem1 d2 (by simp)).symm
  have h12 : d1 ≠ d2 := (hmem2 d2 (by simp)).symm
  have hcount : q.nfree = l'.length + 4 := by rw [← h.count]; rfl
  -- the links of the free list, one descriptor after the other
  have hf0 := h.free
  have hf1 : FreeFrom q.desc d1 (d1 :: d2 :: e :: l') := by
    have hrest := hf0.2.2
    rwa [hrest.head] at hrest
  have hf2 : FreeFrom q.desc d2 (d2 :: e :: l') := by
    have hrest := hf1.2.2
    rwa [hrest.head] at hrest
  have hf3 : FreeFrom q.desc e (e :: l') := by
    have hrest := hf2.2.2
    rwa [hrest.head] at hrest
  have ha0 : allocDesc q = some (d0, { q with freeHead := d1, nfree := l'.length + 3 }) :=
    allocDesc_cons hf0 (by rw [hcount]; rfl)
  set x0 : Desc := { q.desc d0 with addr := .hdr caller, len := 16, flags := descFNext } with hx0
  set x1 : Desc := { q.desc d1 with
    addr := .data buf, len := 512, flags := if write then descFNext else descFNext ||| descFWrite } with hx1
  -- the second one, with the first filled in
  set q1 : Virtq := { q with desc := update q.desc d0 x0, freeHead := d1, nfree := l'.length + 3 } with hq1
  have ha1 : allocDesc q1 = some (d1, { q1 with freeHead := d2, nfree := l'.length + 2 }) := by
    have hfree1 : FreeFrom q1.desc q1.freeHead (d1 :: d2 :: e :: l') :=
      hf1.congr fun d hd => update_of_ne (hmem1 d hd) _ _
    exact allocDesc_cons hfree1 rfl
  -- and the third
  set desc2 := update (update (update q.desc d0 x0) d0 { x0 with next := d1 }) d1 x1 with hdesc2
  set q2 : Virtq := { q with desc := desc2, freeHead := d2, nfree := l'.length + 2 } with hq2
  have hkeep2 : ∀ d, d ≠ d0 → d ≠ d1 → desc2 d = q.desc d := by
    intro d hd0 hd1
    rw [hdesc2, update_of_ne hd1, update_of_ne hd0, update_of_ne hd0]
  have ha2 : allocDesc q2 = some (d2, { q2 with freeHead := e, nfree := l'.length + 1 }) := by
    have hfree2 : FreeFrom q2.desc q2.freeHead (d2 :: e :: l') :=
      hf2.congr fun d hd => hkeep2 d (hmem1 d (List.mem_cons_of_mem d1 hd)) (hmem2 d hd)
    exact allocDesc_cons hfree2 rfl
  set desc3 := update (update desc2 d1 { x1 with next := d2 }) d2 ⟨.status d0, 1, descFWrite, 0⟩ with hdesc3
  have hkeep3 : ∀ d, d ≠ d0 → d ≠ d1 → d ≠ d2 → desc3 d = q.desc d := by
    intro d hd0 hd1 hd2
    rw [hdesc3, update_of_ne hd2, update_of_ne hd1, hkeep2 d hd0 hd1]
  set q3 : Virtq := { q with
    desc := desc3, freeHead := e, nfree := l'.length + 1
    availRing := update q.availRing (q.availIdx.toNat % nqueue) d0
    availIdx := q.availIdx + 1
    info := update q.info d0 { q.info d0 with buf := some buf } } with hq3
  have hchained : Chained desc3 ⟨caller, buf, write, d0, d1, d2⟩ := by
    refine ⟨?_, ?_, ?_⟩
    · simp only [hdesc3, hdesc2, update_of_ne h02, update_of_ne h01, update_self, hx0]
    · simp only [hdesc3, update_of_ne h12, update_self, hx1]
    · simp only [hdesc3, update_self]
  refine ⟨q3, ?_, ⟨?_, rfl, ?_, fun c hc => ?_⟩, rfl, rfl, rfl, rfl, rfl, rfl⟩
  · -- what the source computes, allocation by allocation
    have hset1 : Virtq.setDesc { q with freeHead := d1, nfree := l'.length + 3 } d0 x0 = q1 := rfl
    have hget1 : q1.desc d0 = x0 := update_self _ _ _
    have hget2 : (Virtq.setDesc { q1 with freeHead := d2, nfree := l'.length + 2 } d0 { x0 with next := d1 }).desc d1 =
        q.desc d1 := by
      simp only [Virtq.setDesc, hq1, update_of_ne (Ne.symm h01)]
    have hset2 : Virtq.setDesc (Virtq.setDesc { q1 with freeHead := d2, nfree := l'.length + 2 } d0 { x0 with next := d1 }) d1 x1 =
        q2 := rfl
    have hget3 : q2.desc d1 = x1 := update_self _ _ _
    rw [Virtqueue.request, ha0]
    simp only [Option.bind_some]
    rw [← hx0, hset1, ha1]
    simp only [Option.bind_some, hget1, hget2]
    rw [← hx1, hset2, ha2]
    simp only [Option.bind_some, hget3]
    rfl
  · exact hf3.congr fun d hd => hkeep3 d (hmem1 d (by simp only [List.mem_cons] at hd ⊢; tauto))
      (hmem2 d (List.mem_cons_of_mem d2 hd)) (hmem3 d hd)
  · refine List.Perm.trans ?_ h.parts
    rw [List.flatMap_cons, ← List.append_assoc]
    have hcomm : (e :: l' ++ [d0, d1, d2]).Perm ([d0, d1, d2] ++ e :: l') := List.perm_append_comm
    exact hcomm.append_right _
  · rcases List.mem_cons.1 hc with rfl | hc
    · exact hchained
    · refine (h.chained c hc).congr fun d hd => ?_
      obtain ⟨hd0, hd1, hd2⟩ := hothers d (List.mem_flatMap.2 ⟨c, hc, hd⟩)
      exact hkeep3 d hd0 hd1 hd2

/-- there is always a free descriptor, and a request never takes the last one -/
theorem Pool.cases : (∃ d, l = [d]) ∨ ∃ d0 d1 d2 e l', l = d0 :: d1 :: d2 :: e :: l' := by
  have hsize := h.size
  simp only [nqueue] at hsize
  match l with
  | [] => simp only [List.length_nil] at hsize; omega
  | [d] => exact Or.inl ⟨d, rfl⟩
  | [_, _] => simp only [List.length_cons, List.length_nil] at hsize; omega
  | [_, _, _] => simp only [List.length_cons, List.length_nil] at hsize; omega
  | d0 :: d1 :: d2 :: e :: l' => exact Or.inr ⟨d0, d1, d2, e, l', rfl⟩

/-- with one free descriptor the second `alloc_desc` panics -/
theorem Pool.request_none {d : ℕ} (hl : l = [d]) (caller buf : ℕ) (write : Bool) :
    Virtqueue.request caller buf write q = none := by
  have hone : q.nfree = 1 := by rw [← h.count, hl]; rfl
  have halloc : ∃ q', allocDesc q = some (q.freeHead, q') ∧ q'.nfree = 0 := by
    rw [allocDesc, if_neg (by omega), hone]
    exact ⟨_, rfl, rfl⟩
  obtain ⟨q', ha, h0⟩ := halloc
  rw [Virtqueue.request, ha]
  simp only [Option.bind_some]
  have hnone : ∀ x, allocDesc (q'.setDesc q.freeHead x) = none := fun x => if_pos h0
  rw [hnone]
  rfl

theorem Pool.parts_split {c : Call} (hc : c ∈ calls) :
    (l ++ (c.chain ++ (calls.erase c).flatMap Call.chain)).Perm (List.range nqueue) := by
  have hperm : (calls.flatMap Call.chain).Perm (c.chain ++ (calls.erase c).flatMap Call.chain) :=
    (List.perm_cons_erase hc).flatMap_right Call.chain
  exact (hperm.append_left l).symm.trans h.parts

/-- the chain of a request goes back in front of the free descriptors -/
theorem Pool.freeDesc {c : Call} (hc : c ∈ calls) :
    ∃ q', Virtqueue.freeDesc q c.d0 = some q' ∧ Pool q' (calls.erase c) (c.d0 :: c.d1 :: c.d2 :: l) ∧
      q'.availRing = q.availRing ∧ q'.availIdx = q.availIdx ∧ q'.usedRing = q.usedRing ∧ q'.usedIdx = q.usedIdx ∧
      q'.lastUsedIdx = q.lastUsedIdx ∧ q'.info = q.info := by
  have hch := h.chained c hc
  have hsplit := h.parts_split hc
  have hnd : (l ++ (c.chain ++ (calls.erase c).flatMap Call.chain)).Nodup := hsplit.nodup_iff.2 List.nodup_range
  obtain ⟨-, hnd2, hdl⟩ := List.nodup_append.1 hnd
  obtain ⟨hnd3, -, hdr⟩ := List.nodup_append.1 hnd2
  simp only [Call.chain, List.nodup_cons, List.mem_cons, List.not_mem_nil, or_false, not_or] at hnd3
  obtain ⟨⟨h01, h02⟩, h12, -⟩ := hnd3
  have hn0 : (q.desc c.d0).HasNext := by
    rw [hch.first]
    simp only [Desc.HasNext]
    decide
  have hn1 : (q.desc c.d1).HasNext := by
    rw [hch.second]
    cases c.write <;> simp only [Desc.HasNext, if_true, Bool.false_eq_true, if_false] <;> decide
  have hn2 : ¬ (q.desc c.d2).HasNext := by
    rw [hch.third]
    simp only [Desc.HasNext]
    decide
  have hloop : freeLoop q.desc nqueue c.d0 q.nfree = some (c.d2, q.nfree + 3) := by
    rw [freeLoop, if_pos hn0, hch.first, freeLoop, if_pos hn1, hch.second, freeLoop, if_neg hn2]
  have hne : q.nfree ≠ 0 := by
    rw [← h.count]
    rcases h.cases with ⟨d, rfl⟩ | ⟨d0, d1, d2, e, l', rfl⟩ <;> simp
  set x2 : Desc := ⟨.status c.d0, 1, descFNext, q.freeHead⟩ with hx2
  set q' : Virtq := { q with
    desc := update q.desc c.d2 x2, freeHead := c.d0, nfree := q.nfree + 3 } with hq'
  have hkeep : ∀ d, d ≠ c.d2 → q'.desc d = q.desc d := fun d hd => update_of_ne hd _ _
  refine ⟨q', ?_, ⟨?_, ?_, ?_, fun c' hc' => ?_⟩, rfl, rfl, rfl, rfl, rfl, rfl⟩
  · rw [Virtqueue.freeDesc, hloop]
    simp only [Option.map_some, if_neg hne, hch.third]
    rfl
  · -- the three links, then the old list
    have hd2 : q'.desc c.d2 = x2 := update_self _ _ _
    have hold : FreeFrom q'.desc q.freeHead l := h.free.congr fun d hd =>
      hkeep d fun hx => hdl d hd c.d2 (List.mem_append_left _ (by simp [Call.chain])) hx
    have hfrom2 : FreeFrom q'.desc c.d2 (c.d2 :: l) := by
      cases l with
      | nil => rfl
      | cons d l => exact ⟨rfl, by rw [hd2]; simp only [Desc.HasNext, hx2]; decide, by rw [hd2]; exact hold⟩
    have hfrom1 : FreeFrom q'.desc c.d1 (c.d1 :: c.d2 :: l) := by
      refine ⟨rfl, by rw [hkeep _ h12]; exact hn1, ?_⟩
      rw [hkeep _ h12, hch.second]
      exact hfrom2
    refine ⟨rfl, by rw [hkeep _ h02]; exact hn0, ?_⟩
    rw [hkeep _ h02, hch.first]
    exact hfrom1
  · simp only [List.length_cons, h.count, hq']
  · refine List.Perm.trans ?_ hsplit
    rw [← List.append_assoc]
    have hcomm : (c.chain ++ l).Perm (l ++ c.chain) := List.perm_append_comm
    exact hcomm.append_right _
  · refine (h.chained c' (List.mem_of_mem_erase hc')).congr fun d hd => hkeep d fun hx => ?_
    exact hdr c.d2 (by simp [Call.chain]) d (List.mem_flatMap.2 ⟨c', hc', hd⟩) hx.symm

/-- every head belongs to one call -/
theorem Pool.heads_nodup : (calls.map Call.d0).Nodup := by
  have hsub : (calls.map Call.d0).Sublist (calls.flatMap Call.chain) := by
    clear h
    induction calls with
    | nil => exact List.Sublist.refl _
    | cons c calls ih =>
      rw [List.map_cons, List.flatMap_cons]
      exact (ih.trans (List.sublist_append_right [c.d1, c.d2] _)).cons_cons c.d0
  exact hsub.nodup (List.nodup_append.1 h.nodup).2.1

end Pool

/-! ## Where the heads are -/

/-- the heads of the calls: in the available ring (A), at the device, in the used ring (U), or done (D) -/
structure Flow (s : Sys) (A U D : List ℕ) : Prop where
  heads : (s.calls.map Call.d0).Perm (A ++ (s.pending ++ (U ++ D)))
  avail : Queue nqueue s.q.availRing s.devIdx s.q.availIdx A
  used : Queue nqueue s.q.usedRing s.q.lastUsedIdx s.q.usedIdx U
  done : ∀ x, (s.q.info x).done = true ↔ x ∈ D
  buf : ∀ c ∈ s.calls, c.d0 ∉ D → (s.q.info c.d0).buf = some c.buf
  count : ∀ x, s.submitted x = s.handled x + if x ∈ A ++ (s.pending ++ U) then 1 else 0

structure Inv (s : Sys) : Prop where
  pool : ∃ l, Pool s.q s.calls l
  flow : ∃ A U D, Flow s A U D

theorem inv_init : Inv init := by
  refine ⟨⟨_, pool_init⟩, [], [], [], ?_, queue_nil _ _, queue_nil _ _, ?_, ?_, ?_⟩
  · exact List.Perm.refl _
  · intro x
    simp [init, virtqInit]
  · intro c hc
    cases hc
  · intro x
    simp [init]

section Steps

variable {s : Sys} {l A U D : List ℕ} (hp : Pool s.q s.calls l) (hf : Flow s A U D)
include hp hf

theorem flow_nodup : (A ++ (s.pending ++ (U ++ D))).Nodup := hf.heads.nodup_iff.1 hp.heads_nodup

omit hp in
theorem flow_call {x : ℕ} (hx : x ∈ A ++ (s.pending ++ (U ++ D))) : ∃ c ∈ s.calls, c.d0 = x :=
  List.mem_map.1 (hf.heads.mem_iff.2 hx)

/-- the rings are never full -/
theorem flow_length : A.length < nqueue ∧ U.length < nqueue := by
  have hlen := hf.heads.length_eq
  have hsize := hp.size
  simp only [List.length_map, List.length_append, nqueue] at hlen hsize ⊢
  omega

/-- a free descriptor is nowhere -/
theorem flow_free {x : ℕ} (hx : x ∈ l) : x ∉ A ++ (s.pending ++ (U ++ D)) := by
  intro hin
  obtain ⟨c, hc, rfl⟩ := flow_call hf hin
  have hchain : c.d0 ∈ s.calls.flatMap Call.chain := List.mem_flatMap.2 ⟨c, hc, by simp [Call.chain]⟩
  exact List.disjoint_of_nodup_append hp.nodup hx hchain

omit hf in
/-- a call that finds `done` set gives back its chain -/
theorem wake_done {c : Call} (hc : c ∈ s.calls) (hdone : (s.q.info c.d0).done = true) :
    ∃ q', step s (.wake c) = some { s with q := q', calls := s.calls.erase c } ∧
      Pool q' (s.calls.erase c) (c.d0 :: c.d1 :: c.d2 :: l) ∧ q'.availRing = s.q.availRing ∧
      q'.availIdx = s.q.availIdx ∧ q'.usedRing = s.q.usedRing ∧ q'.usedIdx = s.q.usedIdx ∧
      q'.lastUsedIdx = s.q.lastUsedIdx ∧ q'.info = update s.q.info c.d0 { s.q.info c.d0 with done := false } := by
  have hp' : Pool { s.q with info := update s.q.info c.d0 { s.q.info c.d0 with done := false } } s.calls l :=
    hp.congr (fun _ _ => rfl) rfl rfl
  obtain ⟨q', hfree, hpool⟩ := hp'.freeDesc hc
  exact ⟨q', by simp [step, hc, finish, hdone, hfree], hpool⟩

omit hp hf in
theorem wake_cases {c : Call} {s' : Sys} (hs : step s (.wake c) = some s') :
    c ∈ s.calls ∧ ((s.q.info c.d0).done = true ∨ s' = s) := by
  simp only [step, finish, Option.ite_none_right_eq_some] at hs
  refine ⟨hs.1, ?_⟩
  by_cases hdone : (s.q.info c.d0).done = true
  · exact Or.inl hdone
  · rw [if_neg hdone] at hs
    exact Or.inr (Option.some.inj hs.2).symm

/-- a request with the first free descriptors; it is not done yet -/
theorem submit_some {d0 d1 d2 e : ℕ} {l' : List ℕ} (hl : l = d0 :: d1 :: d2 :: e :: l') (caller buf : ℕ) (write : Bool) :
    ∃ q', step s (.submit caller buf write) = some { s with
        q := q', calls := ⟨caller, buf, write, d0, d1, d2⟩ :: s.calls
        submitted := update s.submitted d0 (s.submitted d0 + 1) } ∧
      Pool q' (⟨caller, buf, write, d0, d1, d2⟩ :: s.calls) (e :: l') ∧
      q'.availRing = update s.q.availRing (s.q.availIdx.toNat % nqueue) d0 ∧ q'.availIdx = s.q.availIdx + 1 ∧
      q'.usedRing = s.q.usedRing ∧ q'.usedIdx = s.q.usedIdx ∧ q'.lastUsedIdx = s.q.lastUsedIdx ∧
      q'.info = update s.q.info d0 { s.q.info d0 with buf := some buf } := by
  obtain ⟨q', hreq, hpool⟩ := hp.request hl caller buf write
  have hnot : ¬ (q'.info d0).done = true := by
    rw [hpool.2.2.2.2.2.2, update_self]
    exact fun hd => flow_free hp hf (by rw [hl]; exact List.mem_cons_self) (by simp [(hf.done d0).1 hd])
  exact ⟨q', by simp [step, hreq, finish, hnot], hpool⟩

theorem inv_submit {caller buf : ℕ} {write : Bool} {s' : Sys} (hs : step s (.submit caller buf write) = some s') : Inv s' := by
  rcases hp.cases with ⟨d, hl⟩ | ⟨d0, d1, d2, e, l', hl⟩
  · rw [step, hp.request_none hl] at hs
    cases hs
  obtain ⟨q1, hstep, hpool, hring, hidx, hur, hui, hlu, hinfo⟩ := submit_some hp hf hl caller buf write
  obtain rfl := Option.some.inj (hstep.symm.trans hs)
  have hnew : d0 ∉ A ++ (s.pending ++ (U ++ D)) := flow_free hp hf (by rw [hl]; exact List.mem_cons_self)
  refine ⟨⟨_, hpool⟩, A ++ [d0], U, D, ?_, ?_, ?_, fun x => ?_, fun c hc hcD => ?_, fun x => ?_⟩
  · have hperm : (d0 :: (A ++ (s.pending ++ (U ++ D)))).Perm (A ++ [d0] ++ (s.pending ++ (U ++ D))) := by
      rw [List.append_assoc]
      exact List.perm_middle.symm
    exact (hf.heads.cons d0).trans hperm
  · have hpush := hf.avail.push (by decide) (flow_length hp hf).1 d0
    simp only [hring, hidx]
    exact hpush
  · simp only [hur, hui, hlu]
    exact hf.used
  · rw [← hf.done x]
    simp only [hinfo]
    by_cases hx : x = d0
    · rw [hx, update_self]
    · rw [update_of_ne hx]
  · change (q1.info c.d0).buf = _
    rw [hinfo]
    rcases List.mem_cons.1 hc with rfl | hc
    · rw [update_self]
    · have hne : c.d0 ≠ d0 := fun hx => hnew (hx ▸ hf.heads.mem_iff.1 (List.mem_map_of_mem hc))
      rw [update_of_ne hne]
      exact hf.buf c hc hcD
  · have hcount := hf.count x
    by_cases hx : x = d0
    · subst hx
      have hout : x ∉ A ++ (s.pending ++ U) := fun hin => hnew (by simp only [List.mem_append] at hin ⊢; tauto)
      rw [if_neg hout] at hcount
      have hin : x ∈ A ++ [x] ++ (s.pending ++ U) := by simp
      simp only [if_pos hin, update_self, hcount, Nat.add_zero]
    · have hiff : x ∈ A ++ [d0] ++ (s.pending ++ U) ↔ x ∈ A ++ (s.pending ++ U) := by
        simp only [List.mem_append, List.mem_singleton, hx, or_false]
      simp only [hiff, update_of_ne hx]
      exact hcount

theorem inv_wake {c : Call} {s' : Sys} (hs : step s (.wake c) = some s') : Inv s' := by
  obtain ⟨hc, hdone | rfl⟩ := wake_cases hs
  · obtain ⟨q1, hstep, hpool, hring, hidx, hur, hui, hlu, hinfo⟩ := wake_done hp hc hdone
    obtain rfl := Option.some.inj (hstep.symm.trans hs)
    have hcD : c.d0 ∈ D := (hf.done _).1 hdone
    have hnd := flow_nodup hp hf
    have hDnd : D.Nodup := (List.nodup_append.1 (List.nodup_append.1 (List.nodup_append.1 hnd).2.1).2.1).2.1
    have hcalls : (s.calls.map Call.d0).Perm (c.d0 :: (s.calls.erase c).map Call.d0) :=
      (List.perm_cons_erase hc).map Call.d0
    have hother : ∀ c' ∈ s.calls.erase c, c'.d0 ≠ c.d0 := fun c' hc' hx =>
      (List.nodup_cons.1 (hcalls.nodup_iff.1 hp.heads_nodup)).1 (hx ▸ List.mem_map_of_mem hc')
    refine ⟨⟨_, hpool⟩, A, U, D.erase c.d0, ?_, ?_, ?_, fun x => ?_, fun c' hc' hcD' => ?_, hf.count⟩
    · -- its head leaves both lists
      have hplaces : (A ++ (s.pending ++ (U ++ D))).Perm (c.d0 :: (A ++ (s.pending ++ (U ++ D.erase c.d0)))) := by
        have hD := List.perm_cons_erase hcD
        have h1 : (A ++ (s.pending ++ (U ++ D))).Perm ((A ++ (s.pending ++ U)) ++ (c.d0 :: D.erase c.d0)) := by
          simpa only [List.append_assoc] using (hD.append_left (A ++ (s.pending ++ U)))
        refine h1.trans (List.perm_middle.trans ?_)
        simp only [List.append_assoc]
        exact List.Perm.refl _
      exact (hcalls.symm.trans (hf.heads.trans hplaces)).cons_inv
    · simp only [hring, hidx]
      exact hf.avail
    · simp only [hur, hui, hlu]
      exact hf.used
    · rw [hDnd.mem_erase_iff]
      simp only [hinfo]
      by_cases hx : x = c.d0
      · simp [hx]
      · simp only [update_of_ne hx, hf.done x, ne_eq, hx, not_false_eq_true, true_and]
    · simp only [hinfo, update_of_ne (hother c' hc')]
      exact hf.buf c' (List.mem_of_mem_erase hc') fun hin => hcD' ((hDnd.mem_erase_iff).2 ⟨hother c' hc', hin⟩)
  · exact ⟨⟨l, hp⟩, A, U, D, hf⟩

theorem inv_fetch {s' : Sys} (hs : step s .fetch = some s') : Inv s' := by
  simp only [step, Option.ite_none_left_eq_some, Option.some.injEq] at hs
  obtain ⟨hne, rfl⟩ := hs
  obtain ⟨A', rfl, hq⟩ := hf.avail.pop (by decide) hne
  refine ⟨⟨l, hp⟩, A', U, D, ?_, hq, hf.used, hf.done, hf.buf, fun x => ?_⟩
  · refine hf.heads.trans ?_
    rw [List.cons_append, List.cons_append]
    exact List.perm_middle.symm
  · refine (hf.count x).trans ?_
    simp only [List.mem_append, List.mem_cons, or_assoc, or_left_comm]

theorem inv_complete {head : ℕ} {st : UInt8} {s' : Sys} (hs : step s (.complete head st) = some s') : Inv s' := by
  obtain ⟨hin, rfl⟩ := guard_enabled hs
  set d := statusOf s.q head
  have hinfo : ∀ x, (update s.q.info d { s.q.info d with status := st } x).done = (s.q.info x).done ∧
      (update s.q.info d { s.q.info d with status := st } x).buf = (s.q.info x).buf := by
    intro x
    by_cases hx : x = d
    · simp only [hx, update_self, and_self]
    · simp only [update_of_ne hx, and_self]
  refine ⟨⟨l, hp.congr (fun _ _ => rfl) rfl rfl⟩, A, U ++ [head], D, ?_, hf.avail,
    hf.used.push (by decide) (flow_length hp hf).2 head, fun x => ?_, fun c hc hcD => ?_, fun x => ?_⟩
  · refine hf.heads.trans (List.Perm.append_left A ?_)
    have hpend := List.perm_cons_erase hin
    have h1 : (s.pending ++ (U ++ D)).Perm (head :: (s.pending.erase head ++ (U ++ D))) := hpend.append_right _
    refine h1.trans (List.perm_middle.symm.trans ?_)
    refine List.Perm.append_left _ ?_
    rw [List.append_assoc]
    exact List.perm_middle.symm
  · rw [← hf.done x]
    simp only [(hinfo x).1]
  · simp only [(hinfo c.d0).2]
    exact hf.buf c hc hcD
  · refine (hf.count x).trans ?_
    have hiff : x ∈ A ++ (s.pending ++ U) ↔ x ∈ A ++ (s.pending.erase head ++ (U ++ [head])) := by
      have hmem := (List.perm_cons_erase hin).mem_iff (a := x)
      simp only [List.mem_append, List.mem_cons, List.not_mem_nil, or_false] at hmem ⊢
      tauto
    simp only [hiff]

/-- a turn of the handler: the head names a call, and its Buf is the one that is posted -/
theorem intr_turn (hne : s.q.lastUsedIdx ≠ s.q.usedIdx) :
    ∃ U' c, U = c.d0 :: U' ∧ c ∈ s.calls ∧ c.d0 = s.q.usedRing (s.q.lastUsedIdx.toNat % nqueue) ∧
      (s.q.info c.d0).buf = some c.buf ∧ Queue nqueue s.q.usedRing (s.q.lastUsedIdx + 1) s.q.usedIdx U' := by
  obtain ⟨U', hU, hq⟩ := hf.used.pop (by decide) hne
  obtain ⟨c, hc, hd⟩ := flow_call hf (x := s.q.usedRing (s.q.lastUsedIdx.toNat % nqueue)) (by rw [hU]; simp)
  have hnd := flow_nodup hp hf
  have hnotD : c.d0 ∉ D := by
    intro hin
    have hUD := (List.nodup_append.1 (List.nodup_append.1 hnd).2.1).2.1
    rw [hU] at hUD
    exact List.disjoint_of_nodup_append hUD List.mem_cons_self (hd ▸ hin)
  exact ⟨U', c, by rw [hU, hd], hc, hd, hf.buf c hc hnotD, hq⟩

theorem inv_intr {s' : Sys} (hs : step s .intr = some s') : Inv s' := by
  simp only [step] at hs
  by_cases hne : s.q.lastUsedIdx = s.q.usedIdx
  · rw [if_pos hne] at hs
    exact Option.some.inj hs ▸ ⟨⟨l, hp⟩, A, U, D, hf⟩
  · obtain ⟨U', c, rfl, hc, hd, hbuf, hq⟩ := intr_turn hp hf hne
    rw [if_neg hne, ← hd, hbuf] at hs
    simp only [ne_eq, Option.ite_none_left_eq_some, Option.some.injEq] at hs
    obtain ⟨-, rfl⟩ := hs
    have hnd := flow_nodup hp hf
    have hnot : c.d0 ∉ A ++ (s.pending ++ U') := by
      have hperm : (A ++ (s.pending ++ (c.d0 :: U' ++ D))).Perm (c.d0 :: (A ++ (s.pending ++ (U' ++ D)))) := by
        have h1 : (s.pending ++ (c.d0 :: (U' ++ D))).Perm (c.d0 :: (s.pending ++ (U' ++ D))) := List.perm_middle
        exact (h1.append_left A).trans List.perm_middle
      have hout := (List.nodup_cons.1 (hperm.nodup_iff.1 hnd)).1
      exact fun hin => hout (by simp only [List.mem_append] at hin ⊢; tauto)
    refine ⟨⟨l, hp.congr (fun _ _ => rfl) rfl rfl⟩, A, U', c.d0 :: D, ?_, hf.avail, hq, fun x => ?_, fun c' hc' hcD => ?_,
      fun x => ?_⟩
    · refine hf.heads.trans (List.Perm.append_left A (List.Perm.append_left _ ?_))
      rw [List.cons_append]
      exact List.perm_middle.symm
    · by_cases hx : x = c.d0
      · simp [hx]
      · simp only [update_of_ne hx, hf.done x, List.mem_cons, hx, false_or]
    · have hx : c'.d0 ≠ c.d0 := fun hx => hcD (hx ▸ List.mem_cons_self)
      simp only [update_of_ne hx]
      exact hf.buf c' hc' fun hin => hcD (List.mem_cons_of_mem _ hin)
    · have hcount := hf.count x
      by_cases hx : x = c.d0
      · rw [hx] at hcount ⊢
        rw [if_pos (by simp)] at hcount
        simp only [update_self, hcount, if_neg hnot]
      · have hiff : x ∈ A ++ (s.pending ++ c.d0 :: U') ↔ x ∈ A ++ (s.pending ++ U') := by
          simp only [List.mem_append, List.mem_cons, hx, false_or]
        simp only [hiff] at hcount
        simp only [update_of_ne hx]
        exact hcount

end Steps

theorem inv_step {s s' : Sys} {e : Event} (h : Inv s) (hs : step s e = some s') : Inv s' := by
  obtain ⟨⟨l, hp⟩, A, U, D, hf⟩ := h
  cases e with
  | submit caller buf write => exact inv_submit hp hf hs
  | wake c => exact inv_wake hp hf hs
  | fetch => exact inv_fetch hp hf hs
  | complete head st => exact inv_complete hp hf hs
  | intr => exact inv_intr hp hf hs

theorem inv_run {es : List Event} {s : Sys} (hr : run step init es = some s) : Inv s :=
  run_invariant (C := fun _ _ => True) (fun _ _ _ hI _ hs => inv_step hI hs) inv_init (meets_true step _ es) hr

/-- **The descriptor pool.** In every state that any calls, the device and the handler can reach:
- `nfree` steps from `free_head` list `nfree` different descriptors; these and the chains of the calls under way are all
  descriptors, each once;
- the chain of a call is linked from its head, through three descriptors;
- a turn of the handler sets `done` for the head it finds on the used ring, and posts the Buf of the call with this head,
  unless the device has reported an error (a PANIC);
- a turn of the loop in `virtio_blk_rw` changes nothing, or it gives back the chain of its call; then every submission of
  its head has been completed and handled. -/
theorem virtqueue_pool {es : List Event} {s : Sys} (hr : run step init es = some s) :
    (walkFree s.q.desc s.q.freeHead s.q.nfree ++ s.calls.flatMap Call.chain).Perm (List.range nqueue) ∧
    (∀ c ∈ s.calls, Chained s.q.desc c) ∧
    (s.q.lastUsedIdx ≠ s.q.usedIdx → ∃ c ∈ s.calls, c.d0 = s.q.usedRing (s.q.lastUsedIdx.toNat % nqueue) ∧
      ((s.q.info c.d0).status ≠ 0 ∧ step s .intr = none ∨
        ∃ s', step s .intr = some s' ∧ (s'.q.info c.d0).done = true ∧
          (∀ x, x ≠ c.d0 → s'.q.info x = s.q.info x) ∧ s'.posts = c.buf :: s.posts ∧ s'.calls = s.calls)) ∧
    (∀ c s', step s (.wake c) = some s' → s' = s ∨
      (s'.calls = s.calls.erase c ∧ c ∈ s.calls ∧ s.handled c.d0 = s.submitted c.d0 ∧
        walkFree s'.q.desc s'.q.freeHead s'.q.nfree = c.chain ++ walkFree s.q.desc s.q.freeHead s.q.nfree)) := by
  obtain ⟨⟨l, hp⟩, A, U, D, hf⟩ := inv_run hr
  have hwalk : walkFree s.q.desc s.q.freeHead s.q.nfree = l := by rw [← hp.count]; exact hp.free.walk
  refine ⟨by rw [hwalk]; exact hp.parts, hp.chained, fun hne => ?_, fun c s' hs => ?_⟩
  · obtain ⟨U', c, -, hc, hd, hbuf, -⟩ := intr_turn hp hf hne
    refine ⟨c, hc, hd, ?_⟩
    by_cases hst : (s.q.info c.d0).status = 0
    · simp only [step, if_neg hne, ← hd, hbuf, hst, ne_eq, not_true_eq_false, if_false]
      refine Or.inr ⟨_, rfl, ?_, fun x hx => ?_, rfl, rfl⟩
      · simp only [update_self]
      · simp only [update_of_ne hx]
    · exact Or.inl ⟨hst, by simp only [step, if_neg hne, ← hd, ne_eq, hst, not_false_eq_true, if_true]⟩
  · obtain ⟨hc, hdone | rfl⟩ := wake_cases hs
    · obtain ⟨q1, hstep, hpool, -⟩ := wake_done hp hc hdone
      obtain rfl := Option.some.inj (hstep.symm.trans hs)
      have hout : c.d0 ∉ A ++ (s.pending ++ U) := by
        have hnd := flow_nodup hp hf
        rw [← List.append_assoc, ← List.append_assoc, List.append_assoc A] at hnd
        exact fun hin => List.disjoint_of_nodup_append hnd hin ((hf.done _).1 hdone)
      have hcount := hf.count c.d0
      rw [if_neg hout, Nat.add_zero] at hcount
      refine Or.inr ⟨rfl, hc, hcount.symm, ?_⟩
      rw [hwalk]
      change walkFree q1.desc q1.freeHead q1.nfree = _
      rw [← hpool.count]
      exact hpool.free.walk
    · exact Or.inl rfl

/-- two requests, completed in the other order -/
def twoRequests : List Event :=
  [.submit 0 5 false, .submit 1 6 true, .fetch, .fetch, .complete 3 0, .intr, .wake ⟨1, 6, true, 3, 4, 5⟩]

/-- the second chain is back, in front of the descriptors that were never used -/
theorem virtqueue_pool_twoRequests : ∃ s, run step init twoRequests = some s ∧
    (walkFree s.q.desc s.q.freeHead s.q.nfree ++ s.calls.flatMap Call.chain).Perm (List.range nqueue) ∧
    s.calls = [⟨0, 5, false, 0, 1, 2⟩] ∧ s.posts = [6] := by
  obtain ⟨s, hr, hcalls, hposts⟩ : ∃ s, run step init twoRequests = some s ∧ s.calls = [⟨0, 5, false, 0, 1, 2⟩] ∧
      s.posts = [6] := run_computes (by decide +kernel)
  exact ⟨s, hr, (virtqueue_pool hr).1, hcalls, hposts⟩

/-! ## Running out of descriptors -/

/-- **Five calls at most.** In every state reached, a request goes through and takes three descriptors as long as fewer than
five calls are under way, which is when three descriptors are free. With five, the second `alloc_desc` panics. -/
theorem request_needs_three {es : List Event} {s : Sys} (hr : run step init es = some s) (caller buf : ℕ) (write : Bool) :
    (s.calls.length < 5 ↔ 3 ≤ s.q.nfree) ∧
    (s.calls.length < 5 → ∃ c s', step s (.submit caller buf write) = some s' ∧ s'.calls = c :: s.calls ∧
      s'.q.nfree + 3 = s.q.nfree) ∧
    (5 ≤ s.calls.length → step s (.submit caller buf write) = none) := by
  obtain ⟨⟨l, hp⟩, A, U, D, hf⟩ := inv_run hr
  have hsize := hp.size
  have hcount := hp.count
  simp only [nqueue] at hsize
  rcases hp.cases with ⟨d, hl⟩ | ⟨d0, d1, d2, e, l', hl⟩
  · simp only [hl, List.length_singleton] at hsize hcount
    refine ⟨by omega, fun hlt => by omega, fun _ => ?_⟩
    rw [step, hp.request_none hl]
    rfl
  · obtain ⟨q', hs, hpool, -⟩ := submit_some hp hf hl caller buf write
    have hcount' := hpool.count
    simp only [hl, List.length_cons] at hsize hcount hcount'
    refine ⟨by omega, fun _ => ⟨_, _, hs, rfl, ?_⟩, fun hge => by omega⟩
    change q'.nfree + 3 = s.q.nfree
    omega

/-- with four calls under way the fifth request goes through and leaves one descriptor -/
theorem request_needs_three_fifth : ∃ s c s', run step init (List.replicate 4 (.submit 0 5 false)) = some s ∧
    s.calls.length = 4 ∧ step s (.submit 1 6 true) = some s' ∧ s'.calls = c :: s.calls ∧ s'.q.nfree = 1 := by
  obtain ⟨s, hs, hlen, hnfree⟩ : ∃ s, run step init (List.replicate 4 (.submit 0 5 false)) = some s ∧
      s.calls.length = 4 ∧ s.q.nfree = 4 := run_computes (by decide +kernel)
  obtain ⟨c, s', hstep, hcalls, hfree⟩ := (request_needs_three hs 1 6 true).2.1 (by omega)
  exact ⟨s, c, s', hs, hlen, hstep, hcalls, by omega⟩

/-- five requests that are not completed yet, and a sixth -/
theorem sixth_request_panics : ∃ s, run step init (List.replicate 5 (.submit 0 5 false)) = some s ∧ s.q.nfree = 1 ∧
    step s (.submit 1 6 false) = none :=
  run_computes (by decide +kernel)

/-! ## Nothing gets lost -/

/-- **No request is lost.** Whatever happened before, wrapped ring indices included: once the device has fetched and completed
everything and the handler has caught up, every call under way finds `done` set, returns, and gives back its descriptors. -/
theorem idle_calls_return {es : List Event} {s : Sys} (hr : run step init es = some s) (havail : s.devIdx = s.q.availIdx)
    (hdev : s.pending = []) (hused : s.q.lastUsedIdx = s.q.usedIdx) :
    ∀ c ∈ s.calls, ∃ s', step s (.wake c) = some s' ∧ s'.calls = s.calls.erase c ∧ s'.q.nfree = s.q.nfree + 3 := by
  obtain ⟨⟨l, hp⟩, A, U, D, hf⟩ := inv_run hr
  intro c hc
  obtain ⟨hA, hU⟩ := flow_length hp hf
  have hheads := hf.heads
  -- both rings are empty, so every head is done
  rw [hf.avail.eq_nil havail (hA.trans (by decide)), hdev, hf.used.eq_nil hused (hU.trans (by decide))] at hheads
  have hdone : (s.q.info c.d0).done = true := (hf.done _).2 (hheads.mem_iff.1 (List.mem_map_of_mem hc))
  obtain ⟨q', hstep, hpool, -⟩ := wake_done hp hc hdone
  have hcount := hpool.count
  rw [List.length_cons, List.length_cons, List.length_cons, hp.count] at hcount
  exact ⟨_, hstep, rfl, hcount.symm⟩

theorem idle_calls_return_one : ∃ s s', run step init [.submit 0 5 false, .fetch, .complete 0 0, .intr] = some s ∧
    step s (.wake ⟨0, 5, false, 0, 1, 2⟩) = some s' ∧ s'.q.nfree = s.q.nfree + 3 := by
  obtain ⟨s, hs, havail, hdev, hused, hc⟩ : ∃ s, run step init [.submit 0 5 false, .fetch, .complete 0 0, .intr] = some s ∧
      s.devIdx = s.q.availIdx ∧ s.pending = [] ∧ s.q.lastUsedIdx = s.q.usedIdx ∧ ⟨0, 5, false, 0, 1, 2⟩ ∈ s.calls :=
    run_computes (by decide +kernel)
  obtain ⟨s', hstep, -, hfree⟩ := idle_calls_return hs havail hdev hused _ hc
  exact ⟨s, s', hs, hstep, hfree⟩

end OsKernel.Driver.Virtqueue
