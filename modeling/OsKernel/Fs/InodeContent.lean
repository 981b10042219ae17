/-
Inode contents are byte arrays.

Any number of inodes, none of them a device, live on one block cache and are written, read and cleared in any order
(`Call`, `act`). The abstract state is one list of bytes for each inode (`Contents`): a write splices, a read returns a slice,
clearing leaves nothing. A call is made when the assertions its function starts with hold (`Asserts`).

The invariant is `Good`: no block is owned twice (`Sound`), and no file has a hole below its size (`NoHole`). The latter is
what keeps `inode_read` from its PANIC.

Result (`contents_refine`): after every sequence of calls, each inode's bytes and everything read are those of the abstract
state, and the next call returns; a write can also find the disk full.
-/
import OsKernel.Lib.Runs
import OsKernel.Fs.FileWrite
import OsKernel.Fs.InodeClear

namespace OsKernel.Fs.InodeContent

open OsKernel.Fs.Inodes OsKernel.Bytes OsKernel.Program OsKernel.Owner OsKernel.Splice OsKernel.Runs
open Function (update update_of_ne update_self)

/-! ## Calls -/

/-- inodes over a cache -/
structure Sys (σ ι : Type) where
  cache : σ
  inode : ι → Inode
  /-- what the reads returned, latest first -/
  reads : List (List UInt8)

inductive Call (ι : Type) where
  | write (i : ι) (off : ℕ) (src : List UInt8)
  | read (i : ι) (off count : ℕ)
  | clear (i : ι)

section System

variable {σ ι : Type} [DecidableEq ι] (C : AbstractCache σ) (sb : SuperBlock)

/-- the cache and one inode have changed -/
def Sys.put (s : Sys σ ι) (c : σ) (i : ι) (inode : Inode) : Sys σ ι :=
  { s with cache := c, inode := update s.inode i inode }

@[simp] theorem Sys.put_cache (s : Sys σ ι) (c : σ) (i : ι) (inode : Inode) : (s.put c i inode).cache = c := rfl

@[simp] theorem Sys.put_same (s : Sys σ ι) (c : σ) (i : ι) (inode : Inode) : (s.put c i inode).inode i = inode :=
  update_self ..

theorem Sys.put_other (s : Sys σ ι) (c : σ) {i j : ι} (inode : Inode) (h : j ≠ i) :
    (s.put c i inode).inode j = s.inode j := update_of_ne h ..

/-- one call, run to its end -/
def act (s : Sys σ ι) : Call ι → Except Stop (Sys σ ι)
  | .write i off src =>
    (exec C.handle (inodeWrite sb (s.inode i) src off) s.cache).map fun r => s.put r.2 i r.1.2
  | .read i off count =>
    (exec C.handle (inodeRead (s.inode i) off count) s.cache).map fun r =>
      { s with cache := r.2, reads := r.1 :: s.reads }
  | .clear i =>
    (exec C.handle (inodeClear sb (s.inode i)) s.cache).map fun r => s.put r.2 i r.1

def step (s : Sys σ ι) (e : Call ι) : Option (Sys σ ι) := (act C sb s e).toOption

/-- the assertions at the start of `inode_write` and `inode_read`; counts are usize -/
def Asserts (s : Sys σ ι) : Call ι → Prop
  | .write i off src =>
    src.length < 2 ^ 64 ∧ off ≤ (s.inode i).entry.numBytes.toNat ∧ addU off src.length ≤ inodeMaxBytes ∧
      off ≤ addU off src.length
  | .read i off count =>
    count < 2 ^ 64 ∧ off ≤ (s.inode i).entry.numBytes.toNat ∧
      addU off (readCount (s.inode i) off count) ≤ (s.inode i).entry.numBytes.toNat ∧
      off ≤ addU off (readCount (s.inode i) off count)
  | .clear _ => True

instance (s : Sys σ ι) (e : Call ι) : Decidable (Asserts s e) := by
  cases e <;> unfold Asserts <;> infer_instance

/-- the bytes of inode i: as many as its size says -/
def content (s : Sys σ ι) (i : ι) : List UInt8 :=
  (fileOf (C.view s.cache).blk (s.inode i).entry).content (s.inode i).entry.numBytes.toNat

/-- freshly allocated inodes: no bytes, no blocks, and their home blocks are not free -/
structure Fresh (s : Sys σ ι) : Prop where
  zero : 0 ∈ (C.view s.cache).used
  inner : C.inner ⊆ (C.view s.cache).used
  valid : ∀ i, (s.inode i).valid = true
  home : ∀ i, toBlockNo sb (s.inode i).inodeNo ∈ (C.view s.cache).used
  outer : ∀ i, toBlockNo sb (s.inode i).inodeNo ∉ C.inner
  file : ∀ i, (s.inode i).entry.type ≠ inodeDevice
  empty : ∀ i, (s.inode i).entry.numBytes = 0
  blocks : ∀ i, (s.inode i).entry.addrs = fun _ => 0
  indirect : ∀ i, (s.inode i).entry.indirect = 0

end System

/-- the abstract state: the bytes of each inode, and what was read -/
structure Contents (ι : Type) where
  bytes : ι → List UInt8
  reads : List (List UInt8)

def Contents.empty {ι : Type} : Contents ι := ⟨fun _ => [], []⟩

def Contents.step {ι : Type} [DecidableEq ι] (a : Contents ι) : Call ι → Contents ι
  | .write i off src => { a with bytes := update a.bytes i (splice (a.bytes i) off src) }
  | .read i off count => { a with reads := slice (a.bytes i) off count :: a.reads }
  | .clear i => { a with bytes := update a.bytes i [] }

/-! ## The invariant -/

section Refinement

variable {σ ι : Type} [DecidableEq ι] (C : AbstractCache σ) (sb : SuperBlock) {base : Set ℕ} {s : Sys σ ι} {i : ι}

/-- the entries of all inodes -/
def Sys.entries (s : Sys σ ι) (i : ι) : InodeEntry := (s.inode i).entry

structure Good (base : Set ℕ) (s : Sys σ ι) : Prop where
  sound : Sound base C.inner (C.view s.cache) s.entries
  stored : ∀ i, Stored C sb base (s.inode i)
  file : ∀ i, (s.inode i).entry.type ≠ inodeDevice
  noHole : ∀ i, NoHole (C.view s.cache).blk (s.inode i).entry

/-- the abstract state matches -/
structure Refines (base : Set ℕ) (a : Contents ι) (s : Sys σ ι) : Prop where
  good : Good C sb base s
  bytes : ∀ i, content C s i = a.bytes i
  reads : s.reads = a.reads

omit [DecidableEq ι] in
theorem content_length (i : ι) : (content C s i).length = (s.inode i).entry.numBytes.toNat :=
  File.content_length ..

theorem entries_put (inode : Inode) (c : σ) : (s.put c i inode).entries = update s.entries i inode.entry := by
  funext j
  by_cases hj : j = i
  · subst hj
    simp only [Sys.entries, Sys.put_same, update_self]
  · simp only [Sys.entries, s.put_other c inode hj, update_of_ne hj]

variable {a : Contents ι}

/-- an inode changes: what has to be shown of it, the others being untouched -/
theorem Refines.replace (h : Refines C sb base a s) {inode : Inode} {c : σ} {d : List UInt8}
    (hsound : Sound base C.inner (C.view c) (update s.entries i inode.entry))
    (hothers : ∀ j, j ≠ i → fileOf (C.view c).blk (s.entries j) = fileOf (C.view s.cache).blk (s.entries j))
    (hno : inode.inodeNo = (s.inode i).inodeNo) (hvalid : inode.valid = true) (htype : inode.entry.type ≠ inodeDevice)
    (hhole : NoHole (C.view c).blk inode.entry)
    (hbytes : (fileOf (C.view c).blk inode.entry).content inode.entry.numBytes.toNat = d) :
    Refines C sb base { a with bytes := update a.bytes i d } (s.put c i inode) := by
  have hst := h.good.stored i
  have hfile : ∀ j, j ≠ i → fileOf (C.view c).blk (s.inode j).entry = fileOf (C.view s.cache).blk (s.inode j).entry :=
    hothers
  refine ⟨⟨?_, ?_, ?_, ?_⟩, ?_, h.reads⟩
  · rw [entries_put, Sys.put_cache]
    exact hsound
  · intro j
    by_cases hj : j = i
    · rw [hj, Sys.put_same]
      exact ⟨hvalid, hno ▸ hst.home, hno ▸ hst.outer⟩
    · rw [s.put_other c inode hj]
      exact h.good.stored j
  · intro j
    by_cases hj : j = i
    · rwa [hj, Sys.put_same]
    · rw [s.put_other c inode hj]
      exact h.good.file j
  · intro j
    by_cases hj : j = i
    · rwa [hj, Sys.put_same]
    · intro k hk
      rw [s.put_other c inode hj] at hk ⊢
      rw [Sys.put_cache, hfile j hj]
      exact h.good.noHole j k hk
  · intro j
    by_cases hj : j = i
    · rw [hj, content, Sys.put_same, Sys.put_cache, hbytes]
      simp only [update_self]
    · rw [content, s.put_other c inode hj, Sys.put_cache, hfile j hj]
      simp only [update_of_ne hj, ← h.bytes j, content]

/-- a write that starts inside the file and passes its end leaves no hole -/
theorem noHole_write {f : File} {size off k : ℕ} {src : List UInt8} (h : ∀ k, k * blockSize < size → f.mapped k = true)
    (hoff : off ≤ size) (hk : k * blockSize < max size (off + src.length)) : (f.write off src).mapped k = true := by
  simp only [File.write, Bool.or_eq_true, decide_eq_true_eq]
  by_cases hlt : k * blockSize < size
  · exact Or.inl (h k hlt)
  · right
    unfold Overlaps
    simp only [blockSize] at *
    omega

theorem write_refines {E : Stop → Prop} (h : Refines C sb base a s) {off : ℕ} {src : List UInt8}
    (hoff : off ≤ (s.inode i).entry.numBytes.toNat) (hmax : off + src.length ≤ inodeMaxBytes)
    (hE : off + src.length > (s.inode i).entry.numBytes.toNat → E .noSpace) :
    After C.handle E (fun r c => Refines C sb base (a.step (.write i off src)) (s.put c i r.2) ∧
      r.2.entry.type = (s.inode i).entry.type) (inodeWrite sb (s.inode i) src off) s.cache := by
  -- inside the file no block is missing
  have hmiss : ∀ k, Overlaps off src.length k →
      (fileOf (C.view s.cache).blk (s.inode i).entry).mapped k = false → E .noSpace := by
    intro k hk hm
    apply hE
    by_contra hle
    have hmapped := h.good.noHole i k (by unfold Overlaps at hk; omega)
    rw [hmapped] at hm
    cases hm
  rw [inodeWrite, if_neg (h.good.file i)]
  refine (fileWrite_spec C (i := i) h.good.sound rfl (h.good.stored i) hoff hmax hmiss).mono fun r c hr => ?_
  refine ⟨?_, by rw [hr.head]⟩
  apply h.replace C sb hr.sound hr.others
  · rw [hr.rest]
  · rw [hr.rest]
    exact (h.good.stored i).valid
  · rw [hr.head]
    exact h.good.file i
  · intro k hk
    rw [hr.size] at hk
    rw [hr.file]
    exact noHole_write (h.good.noHole i) hoff hk
  · rw [hr.size, hr.file, File.content_write _ _ hoff, ← h.bytes i]
    rfl

theorem read_refines (h : Refines C sb base a s) {off count : ℕ} (hoff : off ≤ (s.inode i).entry.numBytes.toNat)
    (hno : off + count < 2 ^ 64) :
    After C.handle (fun _ => False) (fun r c => Refines C sb base (a.step (.read i off count))
      { s with cache := c, reads := r :: s.reads }) (inodeRead (s.inode i) off count) s.cache := by
  rw [inodeRead, if_neg (h.good.file i)]
  refine (fileRead_spec C (i := i) h.good.sound rfl (h.good.noHole i) hoff hno).mono fun r c hr => ?_
  obtain ⟨hr, hv⟩ := hr
  refine ⟨⟨?_, h.good.stored, h.good.file, ?_⟩, ?_, ?_⟩
  · change Sound base C.inner (C.view c) s.entries
    rw [hv]
    exact h.good.sound
  · change ∀ i, NoHole (C.view c).blk (s.inode i).entry
    rw [hv]
    exact h.good.noHole
  · intro j
    change (fileOf (C.view c).blk (s.inode j).entry).content _ = a.bytes j
    rw [hv]
    exact h.bytes j
  · change r :: s.reads = slice (a.bytes i) off count :: a.reads
    rw [h.reads, hr, ← h.bytes i]
    rfl

theorem clear_refines (h : Refines C sb base a s) :
    After C.handle (fun _ => False) (fun r c => Refines C sb base (a.step (.clear i)) (s.put c i r))
      (inodeClear sb (s.inode i)) s.cache := by
  refine (inodeClear_spec C (i := i) h.good.sound rfl (h.good.stored i)).mono fun r c hr => ?_
  apply h.replace C sb hr.sound hr.others
  · rw [hr.rest]
  · rw [hr.rest]
    exact (h.good.stored i).valid
  · rw [hr.rest]
    exact h.good.file i
  · intro k hk
    rw [hr.rest] at hk
    exact absurd hk (Nat.not_lt_zero _)
  · rw [hr.rest]
    rfl

/-! ## Runs -/

/-- a read whose sum wraps fails an assertion -/
theorem readAsserts_noWrap {inode : Inode} {off count : ℕ} (hc : count < 2 ^ 64)
    (hoff : off ≤ inode.entry.numBytes.toNat) (hle : off ≤ addU off (readCount inode off count)) : off + count < 2 ^ 64 := by
  have hsize : inode.entry.numBytes.toNat < 2 ^ 32 := inode.entry.numBytes.toNat_lt
  by_contra hge
  have hwrap : addU count off = count + off - 2 ^ 64 := by
    unfold addU
    omega
  have hsame : readCount inode off count = count := by
    rw [readCount, if_neg (by omega)]
  have hwrap' : addU off count = off + count - 2 ^ 64 := by
    unfold addU
    omega
  rw [hsame, hwrap'] at hle
  omega

/-- the outcome of a call, when the program it runs is known to satisfy a specification -/
theorem map_outcome {α β : Type} {p : CacheM α} {c : σ} {E : Stop → Prop} {Q : α → σ → Prop} {f : α × σ → β}
    (h : After C.handle E Q p c) :
    (∃ a c', (exec C.handle p c).map f = .ok (f (a, c')) ∧ Q a c') ∨ ∃ e, E e ∧ (exec C.handle p c).map f = .error e := by
  unfold After at h
  cases hr : exec C.handle p c with
  | error e =>
    rw [hr] at h
    exact Or.inr ⟨e, h, rfl⟩
  | ok r =>
    rw [hr] at h
    exact Or.inl ⟨r.1, r.2, rfl, h⟩

/-- one call: it returns with the abstract state matching, or it is a write on a full disk -/
theorem act_refines (h : Refines C sb base a s) {e : Call ι} (he : Asserts s e) :
    (∃ s', act C sb s e = .ok s' ∧ Refines C sb base (a.step e) s') ∨
      (act C sb s e = .error .noSpace ∧ ∃ i off src, e = .write i off src) := by
  cases e with
  | write i off src =>
    obtain ⟨hlen, hasserts⟩ := he
    obtain ⟨hoff, hmax⟩ := (writeAsserts_iff hlen).1 hasserts
    obtain ⟨r, c, hok, hq⟩ | ⟨e, rfl, herr⟩ := map_outcome C
      (write_refines C sb (E := fun e => e = .noSpace) h hoff hmax fun _ => rfl)
      (f := fun r => s.put r.2 i r.1.2)
    · exact Or.inl ⟨_, hok, hq.1⟩
    · exact Or.inr ⟨herr, i, off, src, rfl⟩
  | read i off count =>
    obtain ⟨hc, hoff, -, hle⟩ := he
    obtain ⟨r, c, hok, hq⟩ | ⟨e, hf, -⟩ := map_outcome C (read_refines C sb h hoff (readAsserts_noWrap hc hoff hle))
      (f := fun r => { s with cache := r.2, reads := r.1 :: s.reads })
    · exact Or.inl ⟨_, hok, hq⟩
    · exact absurd hf id
  | clear i =>
    obtain ⟨r, c, hok, hq⟩ | ⟨e, hf, -⟩ := map_outcome C (clear_refines C sb h)
      (f := fun r => s.put r.2 i r.1)
    · exact Or.inl ⟨_, hok, hq⟩
    · exact absurd hf id

/-- `inode_write` on bytes (`FileWrite`) says what becomes of the content -/
theorem act_write_bytes (h : Refines C sb base a s) {off : ℕ} {src bytes : List UInt8} (hlen : src.length < 2 ^ 64)
    (hw : FileWrite.inodeWrite (content C s i) off src = some bytes) :
    (∃ s', act C sb s (.write i off src) = .ok s' ∧ content C s' i = bytes) ∨ act C sb s (.write i off src) = .error .noSpace := by
  unfold FileWrite.inodeWrite at hw
  split_ifs at hw with hasserts
  cases hw
  rw [content_length] at hasserts
  obtain ⟨s', hok, href⟩ | ⟨herr, -⟩ := act_refines C sb h (e := .write i off src) ⟨hlen, hasserts⟩
  · refine Or.inl ⟨s', hok, ?_⟩
    rw [href.bytes, h.bytes]
    exact update_self ..
  · exact Or.inr herr

/-- `inode_read` on bytes says what is read -/
theorem act_read_bytes (h : Refines C sb base a s) {off count : ℕ} {bs : List UInt8} (hc : count < 2 ^ 63)
    (hr : FileWrite.inodeRead (content C s i) off count = some bs) :
    ∃ s', act C sb s (.read i off count) = .ok s' ∧ s'.reads = bs :: s.reads := by
  have hasserts : Asserts s (.read i off count) := by
    simp only [FileWrite.inodeRead, content_length, Option.ite_none_right_eq_some] at hr
    exact ⟨by omega, hr.1⟩
  rw [FileWrite.inodeRead_eq (by rw [content_length]; exact UInt32.toNat_lt _) hc] at hr
  obtain ⟨-, hbs⟩ := Option.ite_none_right_eq_some.1 hr
  obtain ⟨s', hok, href⟩ | ⟨-, _, _, _, hno⟩ := act_refines C sb h hasserts
  · refine ⟨s', hok, ?_⟩
    rw [href.reads, h.reads, ← Option.some.inj hbs, h.bytes]
    rfl
  · cases hno

theorem step_refines (h : Refines C sb base a s) {e : Call ι} {s' : Sys σ ι} (he : Asserts s e)
    (hs : step C sb s e = some s') : Refines C sb base (a.step e) s' := by
  unfold step at hs
  obtain ⟨t, hok, ht⟩ | ⟨herr, -⟩ := act_refines C sb h he
  · rw [hok] at hs
    exact Option.some.inj hs ▸ ht
  · rw [herr] at hs
    cases hs

omit [DecidableEq ι] in
theorem refines_fresh {s : Sys σ ι} (h : Fresh C sb s) (hr : s.reads = []) :
    Refines C sb (C.view s.cache).used Contents.empty s := by
  have hzero : ∀ i t, ref (C.view s.cache).blk (s.entries i) t = 0 := by
    intro i t
    cases t with
    | direct k =>
      simp only [ref, Sys.entries, h.blocks i]
      rfl
    | indirect =>
      simp only [ref, Sys.entries, h.indirect i]
      rfl
    | leaf k => simp only [ref, Sys.entries, h.indirect i, if_true]
  have hplaces : places (C.view s.cache).blk s.entries = fun _ => 0 := by
    funext p
    exact hzero p.1 p.2
  have hsize : ∀ i, (s.inode i).entry.numBytes.toNat = 0 := by
    intro i
    rw [h.empty i]
    rfl
  refine ⟨⟨⟨?_, h.inner⟩, fun i => ⟨h.valid i, h.home i, h.outer i⟩, h.file, ?_⟩, ?_, hr⟩
  · rw [hplaces]
    refine ⟨h.zero, ?_, fun _ h0 => absurd rfl h0, fun _ _ _ h0 => absurd rfl h0⟩
    apply (Set.union_eq_self_of_subset_right _).symm
    rintro n ⟨_, rfl⟩
    exact h.zero
  · intro i k hk
    rw [hsize i] at hk
    exact absurd hk (Nat.not_lt_zero _)
  · intro i
    rw [content, hsize i]
    rfl

/-- **Inode contents refine byte arrays.** From any freshly allocated inodes, on any block cache, every sequence of writes,
reads and clears that meets the assertions leaves each inode with the bytes, and has returned the reads, of the abstract
state; and whatever call meets the assertions next returns, unless it is a write and no block is left. -/
theorem contents_refine {s t : Sys σ ι} {es : List (Call ι)} (hfresh : Fresh C sb s) (hreads : s.reads = [])
    (hm : Meets (step C sb) Asserts s es) (hr : run (step C sb) s es = some t) :
    (∀ i, content C t i = (es.foldl Contents.step Contents.empty).bytes i ∧
      (t.inode i).entry.numBytes.toNat = ((es.foldl Contents.step Contents.empty).bytes i).length) ∧
    t.reads = (es.foldl Contents.step Contents.empty).reads ∧
    ∀ e, Asserts t e → (∃ t', act C sb t e = .ok t') ∨
      (act C sb t e = .error .noSpace ∧ ∃ i off src, e = .write i off src) := by
  have h : Refines C sb (C.view s.cache).used (es.foldl Contents.step Contents.empty) t :=
    run_simulates (R := Refines C sb (C.view s.cache).used) (f := Contents.step)
      (fun _ _ _ _ ha he hs => step_refines C sb ha he hs) (refines_fresh C sb hfresh hreads) hm hr
  refine ⟨fun i => ⟨h.bytes i, ?_⟩, h.reads, fun e he => ?_⟩
  · rw [← h.bytes i, content_length]
  · obtain ⟨t', hok, -⟩ | herr := act_refines C sb h he
    · exact Or.inl ⟨t', hok⟩
    · exact Or.inr herr

end Refinement

/-! ## A cache -/

/-- the plainest cache: the blocks, and which of them are in use -/
structure Store where
  blk : ℕ → BlockData
  used : Finset ℕ

/-- the block behind the last one in use is handed out -/
def Store.handle : Handler CacheOp CacheOp.Res Stop Store
  | .acquire _, s => .ok ((), s)
  | .load n, s => .ok (s.blk n, s)
  | .modify n f, s => .ok ((), { s with blk := update s.blk n (f (s.blk n)) })
  | .sync _, s => .ok ((), s)
  | .release _, s => .ok ((), s)
  | .alloc, s =>
    let n := s.used.sup id + 1
    if n < 2 ^ 32 then .ok (n, ⟨update s.blk n zeros, insert n s.used⟩) else .error .noSpace
  | .free n, s => .ok ((), { s with used := s.used.erase n })
  | .consoleRead _, s => .ok ([], s)
  | .consoleWrite src, s => .ok (src.length, s)

def storeCache : AbstractCache Store where
  handle := Store.handle
  view s := ⟨s.blk, s.used⟩
  inner := ∅
  acquire_spec s _ _ := ⟨s, rfl, rfl⟩
  load_spec s _ _ := ⟨s, rfl, rfl⟩
  modify_spec s n f _ := ⟨{ s with blk := update s.blk n (f (s.blk n)) }, rfl, rfl⟩
  sync_spec s _ _ := ⟨s, rfl, rfl⟩
  release_spec s _ _ := ⟨s, rfl, rfl⟩
  alloc_spec s _ _ := by
    have hfresh : s.used.sup id + 1 ∉ s.used := fun h =>
      absurd (Finset.le_sup (f := id) h) (Nat.not_succ_le_self _)
    by_cases hlt : s.used.sup id + 1 < 2 ^ 32
    · refine Or.inr ⟨s.used.sup id + 1, _, if_pos hlt, fun h => hfresh (Finset.mem_coe.1 h), hlt, ?_⟩
      simp only [View.take, Finset.coe_insert]
    · exact Or.inl (if_neg hlt)
  free_spec s n _ _ := by
    refine ⟨{ s with used := s.used.erase n }, rfl, ?_⟩
    simp only [View.drop, Finset.coe_erase]

/-- two empty files of a fresh disk -/
def twoFiles : Sys Store Bool where
  cache := ⟨fun _ => zeros, {0, 65}⟩
  inode b := ⟨if b then 2 else 1, 1, true, .fresh inodeRegular⟩
  reads := []

/-- a file grows over a block boundary while another one is written and cleared -/
theorem contents_refine_twoFiles : ∃ t, run (step storeCache mkfsSuperBlock) twoFiles
      [.write false 0 (List.replicate 511 1), .write true 0 [8, 9], .write false 510 [2, 3, 4], .read false 509 9,
        .clear true] = some t ∧
    t.reads = [[1, 2, 3, 4]] ∧ content storeCache t true = [] ∧
    content storeCache t false = List.replicate 510 1 ++ [2, 3, 4] := by
  obtain ⟨t, ht⟩ := Option.isSome_iff_exists.1 (by decide +kernel :
    (run (fun s e => if Asserts s e then step storeCache mkfsSuperBlock s e else none) twoFiles
      [.write false 0 (List.replicate 511 1), .write true 0 [8, 9], .write false 510 [2, 3, 4], .read false 509 9,
        .clear true]).isSome)
  obtain ⟨hm, hr⟩ := run_guarded ht
  have hfresh : Fresh storeCache mkfsSuperBlock twoFiles := by
    refine ⟨?_, Set.empty_subset _, fun _ => rfl, ?_, fun _ => Set.notMem_empty _, ?_, fun _ => rfl, fun _ => rfl, fun _ => rfl⟩
    · simp [storeCache, twoFiles]
    · intro b
      have hhome : toBlockNo mkfsSuperBlock (twoFiles.inode b).inodeNo = 65 := by cases b <;> rfl
      rw [hhome]
      simp [storeCache, twoFiles]
    · intro b
      exact nofun
  obtain ⟨hbytes, hreads, -⟩ := contents_refine storeCache mkfsSuperBlock hfresh rfl hm hr
  exact ⟨t, hr, hreads.trans (by decide +kernel), (hbytes true).1.trans rfl, (hbytes false).1.trans (by decide +kernel)⟩

end OsKernel.Fs.InodeContent
