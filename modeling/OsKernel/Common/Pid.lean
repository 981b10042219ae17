/-
Process numbers (`common/pid.c`).

A bit of the map is set when its number is free. `alloc_pid` takes the lowest set bit of the first byte that is not zero, and
-1 when there is none; `free_pid` sets the bit again. `allocPid_spec` and `isFree_freePid` say what they do to the free numbers.

`pids_unique`: along every run of allocations and of frees of allocated numbers, the map and the numbers in use agree, an
allocation gives the least number that is not in use, and the assertion of `find_bit` holds.
-/
import OsKernel.Lib.Runs

namespace OsKernel.Pid

/-- `MAX_PID` -/
abbrev maxPid : ℕ := 0x80000
/-- `BITMAP_SIZE` -/
abbrev bitmapSize : ℕ := maxPid / 8 + 1

/-- `BITMAP`; there are `bitmapSize` bytes -/
abbrev PidMap := ℕ → BitVec 8

def initBitmap : PidMap := fun _ => 0xFF

def setBit (b : PidMap) (index subindex : ℕ) : PidMap :=
  Function.update b index (b index ||| BitVec.twoPow 8 subindex)

def clearBit (b : PidMap) (index subindex : ℕ) : PidMap :=
  Function.update b index (b index &&& ~~~BitVec.twoPow 8 subindex)

/-- the loop of `find_bit` from bit i on -/
def findBitLoop (b : BitVec 8) : ℕ → ℕ → ℕ
  | 0, _ => 0
  | fuel + 1, i => if b.getLsbD i then i else findBitLoop b fuel (i + 1)

def findBit (b : BitVec 8) : ℕ := findBitLoop b 8 0

/-- the loop of `alloc_pid` from byte `index` on -/
def allocLoop (b : PidMap) : ℕ → ℕ → ℕ × PidMap
  | 0, _ => (2 ^ 32 - 1, b)
  | fuel + 1, index =>
    if b index = 0 then allocLoop b fuel (index + 1)
    else
      let subindex := findBit (b index)
      ((index <<< 3) ||| subindex, clearBit b index subindex)

def allocPid (b : PidMap) : ℕ × PidMap := allocLoop b bitmapSize 0

/-- `find_bit` with its assertion; none when it fails -/
def findBitAsserted (b : BitVec 8) : Option ℕ := if b ≠ 0 then some (findBit b) else none

/-- `alloc_pid` with the assertion -/
def allocLoopAsserted (b : PidMap) : ℕ → ℕ → Option (ℕ × PidMap)
  | 0, _ => some (2 ^ 32 - 1, b)
  | fuel + 1, index =>
    if b index = 0 then allocLoopAsserted b fuel (index + 1)
    else (findBitAsserted (b index)).map fun subindex => ((index <<< 3) ||| subindex, clearBit b index subindex)

def allocPidAsserted (b : PidMap) : Option (ℕ × PidMap) := allocLoopAsserted b bitmapSize 0

def freePid (b : PidMap) (pid : ℕ) : PidMap := setBit b (pid >>> 3) (pid &&& 7)

/-! ## Free numbers -/

def isFree (b : PidMap) (pid : ℕ) : Bool := (b (pid / 8)).getLsbD (pid % 8)

theorem isFree_initBitmap (pid : ℕ) : isFree initBitmap pid = true := by
  have h : ∀ i < 8, (0xFF : BitVec 8).getLsbD i = true := by decide
  exact h (pid % 8) (Nat.mod_lt _ (by decide))

theorem isFree_setBit (b : PidMap) (index : ℕ) {subindex : ℕ} (hs : subindex < 8) (n : ℕ) :
    isFree (setBit b index subindex) n = (isFree b n || decide (n = index * 8 + subindex)) := by
  have hiff : n = index * 8 + subindex ↔ n / 8 = index ∧ n % 8 = subindex := by omega
  simp only [isFree, setBit, hiff]
  by_cases hn : n / 8 = index
  · simp [hn, Nat.mod_lt]
  · simp [hn]

theorem isFree_clearBit (b : PidMap) (index : ℕ) {subindex : ℕ} (hs : subindex < 8) (n : ℕ) :
    isFree (clearBit b index subindex) n = (isFree b n && !decide (n = index * 8 + subindex)) := by
  have hiff : n = index * 8 + subindex ↔ n / 8 = index ∧ n % 8 = subindex := by omega
  simp only [isFree, clearBit, hiff]
  by_cases hn : n / 8 = index
  · simp [hn, Nat.mod_lt]
  · simp [hn]

theorem findBitLoop_spec (b : BitVec 8) (fuel i j : ℕ) (hij : i ≤ j) (hj : j < i + fuel) (hb : b.getLsbD j = true) :
    b.getLsbD (findBitLoop b fuel i) = true ∧ ∀ k, i ≤ k → k < findBitLoop b fuel i → b.getLsbD k = false := by
  induction fuel generalizing i with
  | zero => omega
  | succ fuel ih =>
    rw [findBitLoop]
    by_cases hi : b.getLsbD i = true
    · rw [if_pos hi]
      exact ⟨hi, fun k h1 h2 => by omega⟩
    · rw [if_neg hi]
      have hne : i ≠ j := fun h => hi (h ▸ hb)
      obtain ⟨hset, hbelow⟩ := ih (i + 1) (by omega) (by omega)
      refine ⟨hset, fun k h1 h2 => ?_⟩
      rcases Nat.eq_or_lt_of_le h1 with rfl | hlt
      · exact Bool.eq_false_iff.2 hi
      · exact hbelow k hlt h2

theorem findBit_spec {b : BitVec 8} (hb : b ≠ 0) :
    findBit b < 8 ∧ b.getLsbD (findBit b) = true ∧ ∀ k < findBit b, b.getLsbD k = false := by
  obtain ⟨j, hj⟩ : ∃ j, b.getLsbD j = true := by
    by_contra h
    apply hb
    apply BitVec.eq_of_getLsbD_eq
    intro i _
    exact (Bool.eq_false_iff.2 fun hi => h ⟨i, hi⟩).trans BitVec.getLsbD_zero.symm
  have hj8 : j < 8 := BitVec.lt_of_getLsbD hj
  obtain ⟨hset, hbelow⟩ := findBitLoop_spec b 8 0 j (Nat.zero_le j) (by omega) hj
  exact ⟨BitVec.lt_of_getLsbD hset, hset, fun k => hbelow k (Nat.zero_le k)⟩

theorem allocLoopAsserted_eq (b : PidMap) (fuel index : ℕ) :
    allocLoopAsserted b fuel index = some (allocLoop b fuel index) := by
  induction fuel generalizing index with
  | zero => rfl
  | succ fuel ih =>
    rw [allocLoopAsserted, allocLoop]
    by_cases hzero : b index = 0
    · rw [if_pos hzero, if_pos hzero, ih]
    · rw [if_neg hzero, if_neg hzero, findBitAsserted, if_pos hzero]
      rfl

/-- a free number is found when there is one, it is the least, and it is the only one that is taken -/
theorem allocLoop_spec (b : PidMap) (fuel index : ℕ)
    (h : ∃ pid, isFree b pid = true ∧ index ≤ pid / 8 ∧ pid / 8 < index + fuel) :
    ∃ pid, (allocLoop b fuel index).1 = pid ∧ (∀ n, index ≤ n / 8 → n < pid → isFree b n = false) ∧
      pid / 8 < index + fuel ∧ isFree b pid = true ∧
      ∀ n, isFree (allocLoop b fuel index).2 n = (isFree b n && !decide (n = pid)) := by
  induction fuel generalizing index with
  | zero =>
    obtain ⟨pid, -, h1, h2⟩ := h
    omega
  | succ fuel ih =>
    rw [allocLoop]
    by_cases hzero : b index = 0
    · rw [if_pos hzero]
      have hnone : ∀ n, n / 8 = index → isFree b n = false := by
        intro n hn
        rw [isFree, hn, hzero]
        exact BitVec.getLsbD_zero
      obtain ⟨pid, hfree, h1, h2⟩ := h
      have hne : pid / 8 ≠ index := fun he => absurd (hfree.symm.trans (hnone pid he)) (by decide)
      obtain ⟨n, hn, hleast, hlt, hrest⟩ := ih (index + 1) ⟨pid, hfree, by omega, by omega⟩
      refine ⟨n, hn, fun m hm hmn => ?_, by omega, hrest⟩
      rcases Nat.eq_or_lt_of_le hm with he | hm
      · exact hnone m he.symm
      · exact hleast m hm hmn
    · rw [if_neg hzero]
      obtain ⟨hlt, hbit, hbelow⟩ := findBit_spec hzero
      have hpid : (index <<< 3) ||| findBit (b index) = index * 8 + findBit (b index) := by
        rw [← Nat.shiftLeft_add_eq_or_of_lt (by omega), Nat.shiftLeft_eq]
      have hdiv : (index * 8 + findBit (b index)) / 8 = index := by omega
      have hmod : (index * 8 + findBit (b index)) % 8 = findBit (b index) := by omega
      refine ⟨index * 8 + findBit (b index), hpid, fun n h1 h2 => ?_, by omega, ?_, isFree_clearBit b index hlt⟩
      · have hn : n / 8 = index := by omega
        rw [isFree, hn]
        exact hbelow _ (by omega)
      · rw [isFree, hdiv, hmod]
        exact hbit

theorem allocLoop_none (b : PidMap) (fuel index : ℕ) (h : ∀ n, index ≤ n / 8 → n / 8 < index + fuel → isFree b n = false) :
    allocLoop b fuel index = (2 ^ 32 - 1, b) := by
  induction fuel generalizing index with
  | zero => rfl
  | succ fuel ih =>
    have hzero : b index = 0 := by
      apply BitVec.eq_of_getLsbD_eq
      intro i hi
      have hi' : (index * 8 + i) / 8 = index := by omega
      have hmod : (index * 8 + i) % 8 = i := by omega
      have hfree := h (index * 8 + i) (by omega) (by omega)
      rw [isFree, hi', hmod] at hfree
      exact hfree.trans BitVec.getLsbD_zero.symm
    rw [allocLoop, if_pos hzero]
    exact ih (index + 1) fun n h1 h2 => h n (by omega) (by omega)

/-- how many numbers there are -/
abbrev numPids : ℕ := 8 * bitmapSize

theorem div_lt_bitmapSize {n : ℕ} : n / 8 < 0 + bitmapSize ↔ n < numPids := by
  rw [Nat.zero_add, Nat.div_lt_iff_lt_mul (by decide), Nat.mul_comm]

section Alloc

variable {b : PidMap} (h : ∃ pid < numPids, isFree b pid = true)
include h

theorem allocPid_found : (∀ n < (allocPid b).1, isFree b n = false) ∧ (allocPid b).1 < numPids ∧
    isFree b (allocPid b).1 = true ∧ ∀ n, isFree (allocPid b).2 n = (isFree b n && !decide (n = (allocPid b).1)) := by
  obtain ⟨m, hm, hfree⟩ := h
  obtain ⟨pid, hpid, hleast, hlt, hspec⟩ :=
    allocLoop_spec b bitmapSize 0 ⟨m, hfree, Nat.zero_le _, div_lt_bitmapSize.2 hm⟩
  rw [allocPid, hpid]
  exact ⟨fun n => hleast n (Nat.zero_le _), div_lt_bitmapSize.1 hlt, hspec⟩

theorem allocPid_spec : (allocPid b).1 < numPids ∧ isFree b (allocPid b).1 = true ∧
    ∀ n, isFree (allocPid b).2 n = (isFree b n && !decide (n = (allocPid b).1)) := (allocPid_found h).2

end Alloc

theorem allocPid_none {b : PidMap} (h : ∀ n < numPids, isFree b n = false) : allocPid b = (2 ^ 32 - 1, b) :=
  allocLoop_none b bitmapSize 0 fun n _ hn => h n (div_lt_bitmapSize.1 hn)

theorem isFree_freePid (b : PidMap) (pid n : ℕ) : isFree (freePid b pid) n = (isFree b n || decide (n = pid)) := by
  have hmod : pid &&& 7 = pid % 8 := Nat.and_two_pow_sub_one_eq_mod pid 3
  rw [freePid, hmod, Nat.shiftRight_eq_div_pow, isFree_setBit b _ (Nat.mod_lt _ (by decide))]
  have heq : pid / 2 ^ 3 * 8 + pid % 8 = pid := by omega
  rw [heq]

end OsKernel.Pid

/-! ## Numbers in use -/

namespace OsKernel.PidSys

open OsKernel.Pid OsKernel.Runs

/-- the map, and the numbers that were handed out and not freed -/
structure Sys where
  map : PidMap
  used : List ℕ

inductive Call where
  | alloc
  | free (pid : ℕ)
deriving DecidableEq, Repr

def init : Sys := ⟨initBitmap, []⟩

/-- only numbers in use are freed -/
def step (s : Sys) : Call → Option Sys
  | .alloc => (allocPidAsserted s.map).map fun r => ⟨r.2, if r.1 = 2 ^ 32 - 1 then s.used else r.1 :: s.used⟩
  | .free pid => if pid ∈ s.used then some ⟨freePid s.map pid, s.used.erase pid⟩ else none

structure Inv (s : Sys) : Prop where
  nodup : s.used.Nodup
  lt : ∀ n ∈ s.used, n < numPids
  free : ∀ n < numPids, isFree s.map n = true ↔ n ∉ s.used

theorem init_inv : Inv init := ⟨List.nodup_nil, nofun, fun n _ => iff_of_true (isFree_initBitmap n) List.not_mem_nil⟩

section Inv

variable {s s' : Sys} (hi : Inv s)
include hi

/-- what an allocation does, as its caller sees it -/
theorem Inv.alloc :
    ((∀ n < numPids, n ∈ s.used) ∧ allocPid s.map = (2 ^ 32 - 1, s.map)) ∨
    ((allocPid s.map).1 < numPids ∧ (allocPid s.map).1 ∉ s.used ∧ (∀ n < (allocPid s.map).1, n ∈ s.used) ∧
      ∀ n, isFree (allocPid s.map).2 n = (isFree s.map n && !decide (n = (allocPid s.map).1))) := by
  by_cases hall : ∀ n < numPids, n ∈ s.used
  · refine Or.inl ⟨hall, allocPid_none fun n hn => ?_⟩
    exact Bool.eq_false_iff.2 fun hf => (hi.free n hn).1 hf (hall n hn)
  · push Not at hall
    obtain ⟨m, hm, hmem⟩ := hall
    obtain ⟨hleast, hlt, hfree, hrest⟩ := allocPid_found ⟨m, hm, (hi.free m hm).2 hmem⟩
    refine Or.inr ⟨hlt, (hi.free _ hlt).1 hfree, fun n hn => ?_, hrest⟩
    by_contra hn'
    exact absurd ((hleast n hn).symm.trans ((hi.free n (hn.trans hlt)).2 hn')) (by decide)

/-- the number -1 is none of the numbers -/
theorem Inv.minus_one : (allocPid s.map).1 = 2 ^ 32 - 1 ↔ ∀ n < numPids, n ∈ s.used := by
  obtain ⟨hall, heq⟩ | ⟨hlt, hnot, -, -⟩ := hi.alloc
  · exact iff_of_true (by rw [heq]) hall
  · refine iff_of_false ?_ fun hall => hnot (hall _ hlt)
    have hbound : numPids < 2 ^ 32 - 1 := by decide
    omega

theorem step_inv {e : Call} (hs : step s e = some s') : Inv s' := by
  cases e with
  | alloc =>
    simp only [step, allocPidAsserted, allocLoopAsserted_eq, Option.map_some, Option.some.injEq] at hs
    subst hs
    change Inv ⟨(allocPid s.map).2, if (allocPid s.map).1 = _ then _ else (allocPid s.map).1 :: _⟩
    obtain ⟨-, heq⟩ | ⟨hlt, hnot, -, hrest⟩ := id hi.alloc
    · rw [heq, if_pos rfl]
      exact hi
    · have hne : ¬ (allocPid s.map).1 = 2 ^ 32 - 1 := fun he => hnot (hi.minus_one.1 he _ hlt)
      rw [if_neg hne]
      refine ⟨List.nodup_cons.2 ⟨hnot, hi.nodup⟩, List.forall_mem_cons.2 ⟨hlt, hi.lt⟩, fun n hn => ?_⟩
      rw [hrest, Bool.and_eq_true, hi.free n hn, List.mem_cons, not_or]
      simp [and_comm]
  | free pid =>
    obtain ⟨hmem, rfl⟩ := guard_enabled hs
    refine ⟨hi.nodup.erase pid, fun n hn => hi.lt n (List.mem_of_mem_erase hn), fun n hn => ?_⟩
    rw [isFree_freePid, Bool.or_eq_true, hi.free n hn, decide_eq_true_eq, hi.nodup.mem_erase_iff]
    tauto

end Inv

/-- **Numbers are unique while in use.** After any run of `alloc_pid` and of `free_pid` of numbers in use, from `init_bitmap`:
- no number is in use twice, and a number is free in the map exactly if it is not in use;
- `alloc_pid` passes its assertion; it returns -1 exactly when all numbers are in use, and leaves the map as it is then;
  otherwise it returns the least number not in use, and takes that one only;
- `free_pid` makes its number free again, and no other. -/
theorem pids_unique {t : Sys} {es : List Call} (hr : run step init es = some t) :
    t.used.Nodup ∧ (∀ n < numPids, isFree t.map n = true ↔ n ∉ t.used) ∧
    (∃ pid map, allocPidAsserted t.map = some (pid, map) ∧ (pid = 2 ^ 32 - 1 ↔ ∀ n < numPids, n ∈ t.used) ∧
      (pid = 2 ^ 32 - 1 → map = t.map) ∧
      (pid ≠ 2 ^ 32 - 1 → pid < numPids ∧ pid ∉ t.used ∧ (∀ n < pid, n ∈ t.used) ∧
        ∀ n, isFree map n = (isFree t.map n && !decide (n = pid)))) ∧
    ∀ pid ∈ t.used, ∀ n, isFree (freePid t.map pid) n = (isFree t.map n || decide (n = pid)) := by
  have hi : Inv t := reach_invariant (fun _ _ _ hi hs => step_inv hi hs) init_inv ⟨es, hr⟩
  refine ⟨hi.nodup, hi.free, ⟨(allocPid t.map).1, (allocPid t.map).2, allocLoopAsserted_eq .., hi.minus_one, ?_, ?_⟩,
    fun pid _ n => isFree_freePid t.map pid n⟩
  · intro he
    obtain ⟨-, heq⟩ | ⟨hlt, hnot, -⟩ := hi.alloc
    · rw [heq]
    · exact absurd (hi.minus_one.1 he _ hlt) hnot
  · intro hne
    obtain ⟨-, heq⟩ | hfound := hi.alloc
    · exact absurd (by rw [heq]) hne
    · exact hfound

/-- numbers 0, 1 and 2 are taken, 1 is freed and taken again -/
theorem pids_unique_reuse :
    ∃ t, run step init [.alloc, .alloc, .alloc, .free 1] = some t ∧ t.used = [2, 0] ∧ t.used.Nodup ∧
      (allocPidAsserted t.map).map Prod.fst = some 1 := by
  obtain ⟨t, hr, hused, hnext⟩ : ∃ t, run step init [.alloc, .alloc, .alloc, .free 1] = some t ∧ t.used = [2, 0] ∧
      (allocPidAsserted t.map).map Prod.fst = some 1 := run_computes (by decide +kernel)
  exact ⟨t, hr, hused, (pids_unique hr).1, hnext⟩

end OsKernel.PidSys
