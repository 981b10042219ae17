/-
The block cache as the inode layer sees it, and who owns which block.

`AbstractCache` is a block cache as its clients see it: every block has a current content, some blocks are in use, and
`alloc` hands out a fresh zeroed one or finds none. `Sound` is the ownership invariant over a family of inodes: every block
in use is in a fixed set `base` (metadata, and whatever else is not theirs) or in exactly one slot of one of them.

`Moves i` relates the states before and after an operation on inode i: the invariant holds again, the files of all other
inodes are unchanged, and so is every block of `base`. `Sound.grow` is the one way to gain a block; the three lemmas on
pointer updates say that a slot of an inode, the indirect pointer or a leaf of the indirect block is what changes.
-/
import OsKernel.Lib.Owner
import OsKernel.Fs.Inode
import OsKernel.Fs.FileBlocks

namespace OsKernel.Fs.Inodes

open OsKernel.Bytes OsKernel.Program OsKernel.Owner OsKernel.Splice
open Function (update update_of_ne update_self)

/-! ## The cache -/

/-- what clients see of the cache: the content of each block, and which are in use -/
structure View where
  blk : ℕ → BlockData
  used : Set ℕ

def View.set (v : View) (n : ℕ) (d : BlockData) : View := { v with blk := update v.blk n d }

/-- block n is handed out -/
def View.take (v : View) (n : ℕ) : View := ⟨update v.blk n zeros, insert n v.used⟩

/-- block n is taken back -/
def View.drop (v : View) (n : ℕ) : View := { v with used := v.used \ {n} }

structure AbstractCache (σ : Type) where
  handle : Handler CacheOp CacheOp.Res Stop σ
  view : σ → View
  /-- blocks only the allocator touches -/
  inner : Set ℕ
  acquire_spec : ∀ s n, n ∉ inner → ∃ s', handle (.acquire n) s = .ok ((), s') ∧ view s' = view s
  load_spec : ∀ s n, n ∉ inner → ∃ s', handle (.load n) s = .ok ((view s).blk n, s') ∧ view s' = view s
  modify_spec : ∀ s n f, n ∉ inner →
    ∃ s', handle (.modify n f) s = .ok ((), s') ∧ view s' = (view s).set n (f ((view s).blk n))
  sync_spec : ∀ s n, n ∉ inner → ∃ s', handle (.sync n) s = .ok ((), s') ∧ view s' = view s
  release_spec : ∀ s n, n ∉ inner → ∃ s', handle (.release n) s = .ok ((), s') ∧ view s' = view s
  alloc_spec : ∀ s, 0 ∈ (view s).used → inner ⊆ (view s).used → handle .alloc s = .error .noSpace ∨
    ∃ n s', handle .alloc s = .ok (n, s') ∧ n ∉ (view s).used ∧ n < 2 ^ 32 ∧ view s' = (view s).take n
  free_spec : ∀ s n, n ∈ (view s).used → n ∉ inner →
    ∃ s', handle (.free n) s = .ok ((), s') ∧ view s' = (view s).drop n

section Rules

variable {σ : Type} (C : AbstractCache σ) {E : Stop → Prop} {s : σ} {n : ℕ}

/-- a call that returns a for sure -/
theorem after_of_ok {o : CacheOp} {a : o.Res} {v : View} {Q : o.Res → σ → Prop}
    (h : ∃ s', C.handle o s = .ok (a, s') ∧ C.view s' = v) (hQ : ∀ s', C.view s' = v → Q a s') :
    After C.handle E Q (perform o) s := by
  obtain ⟨s', h1, h2⟩ := h
  rw [after_call, h1]
  exact hQ s' h2

theorem after_acquire {Q : Unit → σ → Prop} (hn : n ∉ C.inner) (hQ : ∀ s', C.view s' = C.view s → Q () s') :
    After C.handle E Q (acquire n) s := after_of_ok C (C.acquire_spec s n hn) hQ

theorem after_load {Q : BlockData → σ → Prop} (hn : n ∉ C.inner)
    (hQ : ∀ s', C.view s' = C.view s → Q ((C.view s).blk n) s') : After C.handle E Q (load n) s :=
  after_of_ok C (C.load_spec s n hn) hQ

theorem after_modify {f : BlockData → BlockData} {Q : Unit → σ → Prop} (hn : n ∉ C.inner)
    (hQ : ∀ s', C.view s' = (C.view s).set n (f ((C.view s).blk n)) → Q () s') :
    After C.handle E Q (modify n f) s := after_of_ok C (C.modify_spec s n f hn) hQ

theorem after_sync {Q : Unit → σ → Prop} (hn : n ∉ C.inner) (hQ : ∀ s', C.view s' = C.view s → Q () s') :
    After C.handle E Q (sync n) s := after_of_ok C (C.sync_spec s n hn) hQ

theorem after_release {Q : Unit → σ → Prop} (hn : n ∉ C.inner) (hQ : ∀ s', C.view s' = C.view s → Q () s') :
    After C.handle E Q (release n) s := after_of_ok C (C.release_spec s n hn) hQ

theorem after_free {Q : Unit → σ → Prop} (hu : n ∈ (C.view s).used) (hn : n ∉ C.inner)
    (hQ : ∀ s', C.view s' = (C.view s).drop n → Q () s') : After C.handle E Q (free n) s :=
  after_of_ok C (C.free_spec s n hu hn) hQ

theorem after_alloc {Q : ℕ → σ → Prop} (h0 : 0 ∈ (C.view s).used) (hin : C.inner ⊆ (C.view s).used) (hE : E .noSpace)
    (hQ : ∀ n s', n ∉ (C.view s).used → n < 2 ^ 32 → C.view s' = (C.view s).take n → Q n s') :
    After C.handle E Q alloc s := by
  suffices hcall : Outcome E Q (C.handle .alloc s) from (after_call (h := C.handle) (o := .alloc)).2 hcall
  obtain h | ⟨n, s', h, hn, hlt, hv⟩ := C.alloc_spec s h0 hin
  · rw [h]
    exact hE
  · rw [h]
    exact hQ n s' hn hlt hv

end Rules

/-- blocks without a cache around them; nothing is left to allocate -/
def viewCache : AbstractCache View where
  handle
    | .acquire _, v => .ok ((), v)
    | .load n, v => .ok (v.blk n, v)
    | .modify n f, v => .ok ((), v.set n (f (v.blk n)))
    | .sync _, v => .ok ((), v)
    | .release _, v => .ok ((), v)
    | .alloc, _ => .error .noSpace
    | .free n, v => .ok ((), v.drop n)
    | .consoleRead _, v => .ok ([], v)
    | .consoleWrite src, v => .ok (src.length, v)
  view := id
  inner := ∅
  acquire_spec v _ _ := ⟨v, rfl, rfl⟩
  load_spec v _ _ := ⟨v, rfl, rfl⟩
  modify_spec _ _ _ _ := ⟨_, rfl, rfl⟩
  sync_spec v _ _ := ⟨v, rfl, rfl⟩
  release_spec v _ _ := ⟨v, rfl, rfl⟩
  alloc_spec _ _ _ := Or.inl rfl
  free_spec _ _ _ _ := ⟨_, rfl, rfl⟩

/-! ## Ownership -/

section Ownership

variable {ι : Type} {base inner : Set ℕ} {v v' : View} {F F' : ι → InodeEntry} {i : ι}

/-- where the slots of a family of inodes point -/
def places (blk : ℕ → BlockData) (F : ι → InodeEntry) (p : ι × Slot) : ℕ := ref blk (F p.1) p.2

structure Sound (base inner : Set ℕ) (v : View) (F : ι → InodeEntry) : Prop where
  owns : Owns base v.used (places v.blk F)
  inner : inner ⊆ base

theorem Sound.zero_used (h : Sound base inner v F) : 0 ∈ v.used := h.owns.base_subset h.owns.zero

theorem Sound.inner_used (h : Sound base inner v F) : inner ⊆ v.used := h.inner.trans h.owns.base_subset

theorem Sound.ref_not_base (h : Sound base inner v F) {t : Slot} (ht : ref v.blk (F i) t ≠ 0) :
    ref v.blk (F i) t ∉ base := h.owns.apart (i, t) ht

theorem Sound.ref_not_inner (h : Sound base inner v F) {t : Slot} (ht : ref v.blk (F i) t ≠ 0) :
    ref v.blk (F i) t ∉ inner := fun hi => h.ref_not_base ht (h.inner hi)

theorem Sound.ref_inj (h : Sound base inner v F) {i j : ι} {t u : Slot} (ht : ref v.blk (F i) t ≠ 0)
    (he : ref v.blk (F i) t = ref v.blk (F j) u) : i = j ∧ t = u := by
  have := h.owns.inj (i, t) (j, u) he ht
  exact ⟨congrArg Prod.fst this, congrArg Prod.snd this⟩

/-- the entries agree except for their block numbers -/
def SameHead (e e' : InodeEntry) : Prop := e' = { e with addrs := e'.addrs, indirect := e'.indirect }

/-- an operation on inode i -/
structure Moves (base inner : Set ℕ) (i : ι) (v : View) (F : ι → InodeEntry) (v' : View) (F' : ι → InodeEntry) :
    Prop where
  sound : Sound base inner v' F'
  same : ∀ j, j ≠ i → F' j = F j
  others : ∀ j, j ≠ i → fileOf v'.blk (F' j) = fileOf v.blk (F j)
  metas : ∀ n ∈ base, v'.blk n = v.blk n
  head : SameHead (F i) (F' i)

theorem Moves.refl (h : Sound base inner v F) (i : ι) : Moves base inner i v F v F :=
  ⟨h, fun _ _ => rfl, fun _ _ => rfl, fun _ _ => rfl, rfl⟩

theorem Moves.trans {v'' : View} {F'' : ι → InodeEntry} (h : Moves base inner i v F v' F')
    (h' : Moves base inner i v' F' v'' F'') : Moves base inner i v F v'' F'' := by
  refine ⟨h'.sound, fun j hj => ?_, fun j hj => ?_, fun n hn => ?_, ?_⟩
  · rw [h'.same j hj, h.same j hj]
  · rw [h'.others j hj, h.others j hj]
  · rw [h'.metas n hn, h.metas n hn]
  · have h1 := h.head
    have h2 := h'.head
    unfold SameHead at h1 h2 ⊢
    rw [h2, h1]

/-- A fresh block goes to an empty slot t of inode i. Apart from that block, only the indirect block of i may change. -/
theorem Sound.grow [DecidableEq ι] (h : Sound base inner v F) {t : Slot} {n : ℕ} (hn : n ∉ v.used)
    (h0 : ref v.blk (F i) t = 0) (hu : v'.used = insert n v.used)
    (hp : places v'.blk F' = update (places v.blk F) (i, t) n)
    (hb : ∀ m, m ≠ n → ¬ (m ≠ 0 ∧ m = ref v.blk (F i) .indirect) → v'.blk m = v.blk m) :
    Sound base inner v' F' ∧ (∀ j, j ≠ i → fileOf v'.blk (F' j) = fileOf v.blk (F j)) ∧
      (∀ m ∈ base, v'.blk m = v.blk m) ∧
      (t = .indirect → fileOf v'.blk (F' i) = fileOf v.blk (F i)) ∧
      (v'.blk n = zeros → ∀ k, slotOf k = some t → fileOf v'.blk (F' i) = (fileOf v.blk (F i)).touch k) := by
  have href : ∀ j u, (j, u) ≠ (i, t) → ref v'.blk (F' j) u = ref v.blk (F j) u := by
    intro j u hju
    have := congrFun hp (j, u)
    rwa [update_of_ne hju] at this
  have hreft : ref v'.blk (F' i) t = n := by
    have := congrFun hp (i, t)
    rwa [update_self] at this
  -- a block of some file is neither the fresh one nor the indirect block of i
  have hpage : ∀ j u, u ≠ .indirect → ref v.blk (F j) u ≠ 0 →
      v'.blk (ref v.blk (F j) u) = v.blk (ref v.blk (F j) u) := by
    intro j u hu' hne
    apply hb
    · exact h.owns.ne_ref hn (j, u)
    · rintro ⟨-, he⟩
      exact hu' (h.ref_inj hne he).2
  refine ⟨⟨?_, h.inner⟩, ?_, ?_, ?_, ?_⟩
  · rw [hu, hp]
    exact h.owns.take hn h0
  · intro j hj
    apply fileVia_congr
    · intro u _
      exact href j u fun he => hj (congrArg Prod.fst he)
    · intro u hu'
      exact hpage j u hu'
  · intro m hm
    apply hb
    · rintro rfl
      exact hn (h.owns.base_subset hm)
    · rintro ⟨hm0, rfl⟩
      exact h.ref_not_base hm0 hm
  · rintro rfl
    apply fileVia_congr
    · intro u hu'
      exact href i u fun he => hu' (congrArg Prod.snd he)
    · intro u hu'
      exact hpage i u hu'
  · intro hz k hk
    apply fileVia_take hk
    · intro u _ hut
      exact href i u fun he => hut (congrArg Prod.snd he)
    · exact h0
    · rw [hreft]
      exact h.owns.ne_zero hn
    · rwa [hreft]
    · intro u hu'
      exact hpage i u hu'

/-- entries with the same block numbers own the same blocks -/
theorem ref_of_ptrs {blk : ℕ → BlockData} {e e' : InodeEntry} (ha : e'.addrs = e.addrs) (hi : e'.indirect = e.indirect) :
    ref blk e' = ref blk e := by
  funext t
  cases t with
  | direct k => simp only [ref, ha]
  | indirect => simp only [ref, hi]
  | leaf k => simp only [ref, hi]

theorem Sound.of_ptrs (h : Sound base inner v F) (ha : ∀ j, (F' j).addrs = (F j).addrs)
    (hi : ∀ j, (F' j).indirect = (F j).indirect) : Sound base inner v F' := by
  have hp : places v.blk F' = places v.blk F := by
    funext p
    simp only [places, ref_of_ptrs (ha p.1) (hi p.1)]
  exact ⟨hp ▸ h.owns, h.inner⟩

/-! ## Pointer updates -/

theorem ref_congr {blk blk' : ℕ → BlockData} {e : InodeEntry}
    (h : e.indirect ≠ 0 → blk' e.indirect.toNat = blk e.indirect.toNat) (t : Slot) : ref blk' e t = ref blk e t := by
  cases t with
  | direct k => rfl
  | indirect => rfl
  | leaf k =>
    simp only [ref]
    by_cases h0 : e.indirect = 0
    · rw [if_pos h0, if_pos h0]
    · rw [if_neg h0, if_neg h0, h h0]

theorem toNat_ne_zero {x : UInt32} : x.toNat ≠ 0 ↔ x ≠ 0 := by
  rw [Ne, Ne, ← UInt32.toNat_inj]
  rfl

/-- a block that no indirect pointer names can change without moving a slot -/
theorem places_update {blk : ℕ → BlockData} {n : ℕ} {d : BlockData}
    (h : ∀ j, (F j).indirect ≠ 0 → (F j).indirect.toNat ≠ n) : places (update blk n d) F = places blk F := by
  funext p
  apply ref_congr
  intro h0
  rw [update_of_ne (h p.1 h0)]

/-- a block that is not in use can change without moving a slot -/
theorem Sound.places_fresh (h : Sound base inner v F) {n : ℕ} (hn : n ∉ v.used) (d : BlockData) :
    places (update v.blk n d) F = places v.blk F :=
  places_update fun j _ => h.owns.ne_ref hn (j, .indirect)

/-- a block of `base` can change without any file noticing -/
theorem Sound.set_base (h : Sound base inner v F) {n : ℕ} (hn : n ∈ base) (d : BlockData) :
    Sound base inner (v.set n d) F ∧ ∀ j, fileOf (v.set n d).blk (F j) = fileOf v.blk (F j) := by
  have hne : ∀ j t, ref v.blk (F j) t ≠ 0 → ref v.blk (F j) t ≠ n := fun j t h0 he => h.ref_not_base h0 (he ▸ hn)
  have hp : places (v.set n d).blk F = places v.blk F :=
    places_update fun j hj => hne j .indirect (toNat_ne_zero.2 hj)
  refine ⟨⟨?_, h.inner⟩, fun j => ?_⟩
  · rw [hp]
    exact h.owns
  · apply fileVia_congr
    · intro t _
      exact congrFun hp (j, t)
    · intro t _ h0
      exact update_of_ne (hne j t h0) ..

/-- blocks that agree outside `base` store the same files -/
theorem Sound.agree (h : Sound base inner v F) {inner' : Set ℕ} (hin : inner' ⊆ base) (hu : v'.used = v.used)
    (hb : ∀ n, n ∉ base → v'.blk n = v.blk n) :
    Sound base inner' v' F ∧ ∀ j, fileOf v'.blk (F j) = fileOf v.blk (F j) := by
  have hp : places v'.blk F = places v.blk F := by
    funext p
    apply ref_congr
    intro h0
    exact hb _ (h.ref_not_base (i := p.1) (t := .indirect) (toNat_ne_zero.2 h0))
  refine ⟨⟨?_, hin⟩, fun j => ?_⟩
  · rw [hu, hp]
    exact h.owns
  · apply fileVia_congr
    · intro t _
      exact congrFun hp (j, t)
    · intro t _ h0
      exact hb _ (h.ref_not_base h0)

variable [DecidableEq ι]

/-- only the block numbers of an entry matter -/
theorem Sound.retag {e e' : InodeEntry} (h : Sound base inner v (update F i e)) (ha : e'.addrs = e.addrs)
    (hi : e'.indirect = e.indirect) : Sound base inner v (update F i e') := by
  apply h.of_ptrs
  all_goals
    intro j
    by_cases hj : j = i
    · rw [hj, update_self, update_self]
      assumption
    · rw [update_of_ne hj, update_of_ne hj]

theorem places_setAddr (blk : ℕ → BlockData) (F : ι → InodeEntry) (i : ι) (k : Fin inodeNumDirect) (b : UInt32) :
    places blk (update F i { F i with addrs := update (F i).addrs k b }) =
      update (places blk F) (i, .direct k) b.toNat := by
  funext ⟨j, t⟩
  by_cases hj : j = i
  · subst hj
    simp only [places, update_self]
    by_cases ht : t = .direct k
    · subst ht
      simp [ref]
    · rw [update_of_ne fun h => ht (congrArg Prod.snd h)]
      cases t with
      | direct l =>
        have hl : l ≠ k := fun h => ht (congrArg Slot.direct h)
        simp [ref, places, update_of_ne hl]
      | indirect => rfl
      | leaf l => rfl
  · rw [update_of_ne fun h => hj (congrArg Prod.fst h)]
    simp only [places, update_of_ne hj]

theorem places_setIndirect {blk : ℕ → BlockData} {b : UInt32} (hz : blk b.toNat = zeros) (h0 : (F i).indirect = 0) :
    places blk (update F i { F i with indirect := b }) =
      update (places blk F) (i, .indirect) b.toNat := by
  funext ⟨j, t⟩
  by_cases hj : j = i
  · subst hj
    simp only [places, update_self]
    cases t with
    | direct l => rw [update_of_ne (by simp)]; rfl
    | indirect => simp [ref]
    | leaf l =>
      rw [update_of_ne (by simp)]
      simp [ref, places, h0, hz, getLE_zeros]
  · rw [update_of_ne fun h => hj (congrArg Prod.fst h)]
    simp only [places, update_of_ne hj]

theorem places_setLeaf (blk : ℕ → BlockData) {k : Fin inodeNumIndirect} {b : ℕ} (hb : b < 2 ^ 32)
    (h0 : (F i).indirect ≠ 0) (hother : ∀ j, j ≠ i → (F j).indirect ≠ 0 → (F j).indirect.toNat ≠ (F i).indirect.toNat)
    (d : BlockData) (hd : d = putLE (blk (F i).indirect.toNat) (4 * k) 4 1 fun _ => b) :
    places (update blk (F i).indirect.toNat d) F = update (places blk F) (i, .leaf k) b := by
  have hk : k.val < 128 := k.isLt
  funext ⟨j, t⟩
  by_cases hj : j = i
  · subst hj
    cases t with
    | direct l => rw [update_of_ne (by simp)]; rfl
    | indirect => rw [update_of_ne (by simp)]; rfl
    | leaf l =>
      have hl : l.val < 128 := l.isLt
      simp only [places, ref, if_neg h0, update_self, hd]
      by_cases hlk : l = k
      · subst hlk
        rw [update_self]
        have := getLE_putLE (blk (F j).indirect.toNat) (4 * l.val) (w := 4) (k := 1) (i := 0) (fun _ => b) (by omega)
          (by change _ ≤ 512; omega)
        rw [Nat.mul_zero, Nat.add_zero] at this
        rw [this, Nat.mod_eq_of_lt (by omega)]
      · have hne : l.val ≠ k.val := fun h => hlk (Fin.ext h)
        rw [update_of_ne fun h => hlk (Slot.leaf.inj (congrArg Prod.snd h)),
          getLE_putLE_disjoint _ _ (by omega)]
        simp only [places, ref, if_neg h0]
  · rw [update_of_ne fun h => hj (congrArg Prod.fst h)]
    apply ref_congr
    intro hj0
    rw [update_of_ne (hother j hj hj0)]

end Ownership

end OsKernel.Fs.Inodes
