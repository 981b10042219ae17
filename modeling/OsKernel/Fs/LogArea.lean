/-
How large a batch gets, and whether it fits its area on disk (`cache_begin_op`, `wblog`).

`begin_op` admits operations against `LOG_MAX = MIN(LOG_MAX_SIZE, sblock->num_blocks - 1)`: the size of the whole disk,
not of the log. The largest batch some schedule produces is
- none at all when `LOG_MAX < 10`, since no operation is admitted;
- 10 blocks when `10 ≤ LOG_MAX < 20`, since operations run one at a time (`Batch.small`);
- `LOG_MAX` blocks otherwise: one operation holds its reservation while others come, fill the log and go, and then adds
  its own ten (`full_batch`).
So the log stays in its area exactly for the super blocks with `RoomFor` (`log_stays_in_area_iff`). The disk `mkfs` makes is
not one of them: a batch of 63 blocks writes over the first inode block (`mkfs_log_overruns_inodes`).
-/
import OsKernel.Fs.Commit
import OsKernel.Fs.LogSpace

namespace OsKernel.Fs.LogSys

open OsKernel.Sem OsKernel.Runs
open Function (update update_of_ne update_self)

/-- the device blocks `wblog` writes for a batch of listed blocks -/
def wblogTargets (sb : SuperBlock) (listed : List ℕ) : List ℕ := (List.range listed.length).map (logSlot sb)

/-- `wblog` writes these blocks in this order, and all of them when it returns -/
theorem wblog_targets (sb : SuperBlock) {m : Machine} (hc : m.log.header.numBlocks ≤ logMaxSize)
    (hnd : m.log.header.listed.Nodup) (hp : ∀ n ∈ m.log.header.listed, ∃ a, findCache m.cache n = some a) :
    ∃ ws, Wrote m ws (finalState (wblog sb m)) ∧ ws.map Prod.fst <+: wblogTargets sb m.log.header.listed ∧
      ∀ t, wblog sb m = .ok () t → ws.map Prod.fst = wblogTargets sb m.log.header.listed := by
  have htargets : (slotWrites sb m.log.header m.cache (List.range m.log.header.numBlocks)).map Prod.fst =
      wblogTargets sb m.log.header.listed := by
    rw [wblogTargets, Fs.length_listed hc, slotWrites, List.map_map]
    rfl
  obtain ⟨ws, hw, hpre, hall⟩ := wblog_writes sb hc hnd hp
  exact ⟨ws, hw, htargets ▸ hpre.map Prod.fst, fun t ht => by rw [(hall t ht).1, htargets]⟩

/-! ## An upper bound -/

/-- the stages between `create_checkpoint` and `committing = FALSE` -/
def Installed (p : Phase) : Prop := p = .commit .installed ∨ p = .commit .cleared

/-- the size of the batch that is being collected, and of every batch so far -/
structure Batch (sb : SuperBlock) (s : Sys) : Prop where
  fresh : s.log.committing = false → s.log.numOps = 0 → s.log.header.numBlocks = 0
  cleared : ∀ c, Installed (s.phase c) → s.log.header.numBlocks = 0
  small : logMax sb < 2 * opMaxNumBlocks → s.log.header.numBlocks + s.log.unused ≤ opMaxNumBlocks
  past : ∀ l, .commitStart l ∈ s.hist → opMaxNumBlocks ≤ logMax sb ∧ l.length ≤ logMax sb ∧
    (logMax sb < 2 * opMaxNumBlocks → l.length ≤ opMaxNumBlocks)

variable {s s' : Sys} {sb : SuperBlock} {c i m : ℕ} {p : Phase} {phase : ℕ → Phase}

/-- a move that keeps the log and starts no commit -/
theorem Batch.frame (h : Batch sb s) (hlog : s'.log = s.log)
    (hp : ∀ d, Installed (s'.phase d) → ∃ d, Installed (s.phase d))
    (hhist : ∀ l, .commitStart l ∈ s'.hist → .commitStart l ∈ s.hist) : Batch sb s' where
  fresh := by rw [hlog]; exact h.fresh
  cleared d hd := by
    obtain ⟨d', hd'⟩ := hp d hd
    rw [hlog]
    exact h.cleared d' hd'
  small := by rw [hlog]; exact h.small
  past l hl := h.past l (hhist l hl)

theorem installed_update (hp : ¬ Installed p) (d : ℕ)
    (hd : Installed (update phase c p d)) : ∃ d, Installed (phase d) := by
  by_cases hdc : d = c
  · subst hdc
    rw [update_self] at hd
    exact absurd hd hp
  · rw [update_of_ne hdc] at hd
    exact ⟨d, hd⟩

theorem installed_wake {q : Phase} {l : List ℕ} (hp : ¬ Installed p) (hq : ¬ Installed q)
    (d : ℕ) (hd : Installed (update (wake l p phase) c q d)) : ∃ d, Installed (phase d) := by
  obtain ⟨e, he⟩ := installed_update hq d hd
  unfold wake at he
  split_ifs at he
  · exact absurd he hp
  · exact ⟨e, he⟩

/-- with a running operation and `log.lock` free, no commit is under way -/
theorem not_installed (h : Inv sb s) (hc : s.phase c = .active) (hl : s.lock = none)
    (d : ℕ) : ¬ Installed (s.phase d) := by
  have hturn := h.turn
  rw [hl] at hturn
  rintro (hd | hd)
  · exact hturn.noCommit hc d _ hd
  · exact hturn.noCommit hc d _ hd

section Moves

variable {sb : SuperBlock} {s : Sys} (hI : Inv sb s) (h : Batch sb s) {c : ℕ}
include hI h

theorem batch_began (ha : Admits sb s.log) :
    Batch sb (({ s with log := beginRegion s.log, rm := update s.rm c opMaxNumBlocks }.to c .active).note
      (.began c)) := by
  obtain ⟨hroom, hreg⟩ := hI.room.admits ha
  obtain ⟨l, hl⟩ := hI.room.account
  refine ⟨?_, fun d hd => ?_, fun hsmall => ?_, fun b hb => h.past b (by simpa using hb)⟩
  · simp only [Sys.note_log, Sys.to_log, hreg]
    omega
  · obtain ⟨e, he⟩ := installed_update (by simp [Installed]) d hd
    exact h.cleared e he
  · -- there is room for one operation only, so none was running and the log is empty
    simp only [Sys.note_log, Sys.to_log, hreg]
    have hcov := hl.covered
    have hops : s.log.numOps = 0 := by
      rw [hl.numOps]
      simp only [opMaxNumBlocks] at hcov hroom hsmall
      omega
    have hempty := h.fresh ha.2 hops
    have hun := h.small hsmall
    have hlen : l.length = 0 := hl.numOps.symm.trans hops
    have hunused : s.log.unused = 0 := by rw [hl.unused, List.length_eq_zero_iff.1 hlen]; rfl
    omega

theorem batch_synced {n rm : ℕ} {opened : Bool} {l : Log} (hp : s.phase c = .active) (hl : s.lock = none)
    (hr : syncRegion n (s.rm c) s.log = .ok (rm, opened, l)) :
    Batch sb ({ s with log := l, rm := update s.rm c rm }.note (.synced c n opened)) := by
  have hpast : ∀ b, .commitStart b ∈ .synced c n opened :: s.hist → .commitStart b ∈ s.hist := by simp
  rcases hI.room.sync_cases hp hr with ⟨-, -, rfl, rfl⟩ | ⟨-, -, hpos, rfl, hdr, hcount, -, rfl⟩
  · exact h.frame rfl (fun d hd => ⟨d, hd⟩) hpast
  have hops := hI.room.ops_pos hp
  have hrmle := (hI.room.rm_le hp).2
  refine ⟨fun _ h0 => ?_, fun d hd => absurd hd (not_installed hI hp hl d), fun hsmall => ?_,
    fun b hb => h.past b (hpast b hb)⟩
  · exact absurd h0 (Nat.one_le_iff_ne_zero.1 hops)
  · have := h.small hsmall
    show hdr.numBlocks + (s.log.unused - 1) ≤ opMaxNumBlocks
    omega

theorem batch_ended (hp : s.phase c = .active) (hl : s.lock = none)
    (hpi : ¬ Installed p) (hlog : s'.log = endRegion (s.rm c) s.log) (hphase : s'.phase = update s.phase c p)
    (hpast : ∀ b, .commitStart b ∈ s'.hist → b = s.log.header.listed ∨ .commitStart b ∈ s.hist) : Batch sb s' := by
  rw [hI.endRegion_active hp] at hlog
  have hops := hI.room.ops_pos hp
  obtain ⟨ops, hacc⟩ := hI.room.account
  refine ⟨fun hc h0 => ?_, fun d hd => ?_, fun hsmall => ?_, fun b hb => ?_⟩
  · rw [hlog] at hc h0
    simp only [decide_eq_false_iff_not] at hc h0
    omega
  · rw [hphase] at hd
    obtain ⟨e, he⟩ := installed_update hpi d hd
    exact absurd he (not_installed hI hp hl e)
  · have := h.small hsmall
    rw [hlog]
    show s.log.header.numBlocks + (s.log.unused - s.rm c) ≤ opMaxNumBlocks
    omega
  · rcases hpast b hb with rfl | hb
    · have hspace := hI.room.bound
      have hcov := hacc.covered
      rw [← hacc.numOps] at hcov
      simp only [opMaxNumBlocks] at hcov
      rw [hI.room.length_listed]
      refine ⟨by simp only [opMaxNumBlocks]; omega, by omega, fun hsmall => ?_⟩
      have := h.small hsmall
      omega
    · exact h.past b hb

theorem batch_move (hm : Move sb s s') : Batch sb s' := by
  have hnot : ∀ p, (∀ k, p ≠ .commit k) → ¬ Installed p := by
    rintro p hp (rfl | rfl)
    · exact hp _ rfl
    · exact hp _ rfl
  cases hm with
  | began c hp hl ha => exact batch_began hI h ha
  | parkBegin c hp => exact h.frame rfl (installed_update (hnot _ (by simp))) (by simp)
  | waitBegin c hp =>
    refine h.frame rfl (installed_update (hnot _ fun k => ?_)) (by simp)
    cases (waitSem c s.beginSem).1 <;> simp
  | synced c n rm opened l hp hl hr => exact batch_synced hI h hp hl hr
  | endLast c hp hl hc =>
    have hreg := hI.endRegion_active hp
    exact batch_ended hI h hp hl (p := .commit .logged) (by simp [Installed]) (by simp) (by simp) (by simp [hreg])
  | endPark c hp hl hc =>
    exact batch_ended hI h hp hl (p := .endPark) (hnot _ (by simp)) (by simp) (by simp)
      fun b hb => Or.inr (by simpa using hb)
  | waitEnd c hp =>
    refine h.frame rfl (installed_update (hnot _ fun k => ?_)) (by simp)
    cases (waitSem c s.endSem).1 <;> simp
  | resumeEnd c hp => exact h.frame rfl (installed_update (hnot _ (by simp))) (by simp)
  | writeHeader c hp => exact h.frame rfl (installed_update (by simp [Installed])) (by simp)
  | checkpoint c hp hl =>
    refine ⟨fun _ _ => rfl, fun _ _ => rfl, fun hsmall => ?_, fun b hb => h.past b (by simpa using hb)⟩
    have := h.small hsmall
    show 0 + s.log.unused ≤ opMaxNumBlocks
    omega
  | clearHeader c hp =>
    exact h.frame rfl (fun _ _ => ⟨c, Or.inl hp⟩) (by simp)
  | finish c hp hl =>
    have hzero := h.cleared c (Or.inr hp)
    exact ⟨fun _ _ => hzero, fun _ _ => hzero, h.small, h.past⟩
  | postEnd c l sem hp hl hs =>
    exact h.frame rfl (installed_wake (hnot _ (by simp)) (by simp [Installed])) (by simp)
  | postBegin c l sem hp hl hs =>
    exact h.frame rfl (installed_wake (hnot _ (by simp)) (hnot _ (by simp))) (by simp)

end Moves

theorem batch_reach {entries : Fin logMaxSize → ℕ} (hs : Reach (step sb) (init entries) s) :
    Inv sb s ∧ Batch sb s := by
  refine reach_invariant (I := fun s => Inv sb s ∧ Batch sb s) (fun s e s' hI hstep => ?_) ⟨inv_init sb entries, ?_⟩ hs
  · have hm := step_move hstep
    exact ⟨inv_move hI.1 hm, batch_move hI.1 hI.2 hm⟩
  · exact ⟨fun _ _ => rfl, fun _ _ => rfl, fun _ => Nat.zero_le _, by simp [init]⟩

/-! ## The bound is reached -/

/-- c has added k blocks to the log: numbers m, m + 1, ... behind those listed before -/
structure Added (c m k : ℕ) (s s' : Sys) : Prop where
  listed : s'.log.header.listed = List.range (m + k)
  numOps : s'.log.numOps = s.log.numOps
  unused : s'.log.unused + k = s.log.unused
  rm : s'.rm c + k = s.rm c
  others : ∀ d, d ≠ c → s'.rm d = s.rm d
  phase : s'.phase = s.phase
  lock : s'.lock = s.lock
  endLock : s'.endLock = s.endLock

section Filling

variable {sb : SuperBlock} {entries : Fin logMaxSize → ℕ} {s : Sys}

theorem syncs_added (hs : Reach (step sb) (init entries) s) (hc : s.phase c = .active) (hl : s.lock = none)
    (hlisted : s.log.header.listed = List.range m) (k : ℕ) (hk : k ≤ s.rm c) :
    ∃ s', Reach (step sb) (init entries) s' ∧ Added c m k s s' := by
  induction k with
  | zero => exact ⟨s, hs, hlisted, rfl, rfl, rfl, fun _ _ => rfl, rfl, rfl, rfl⟩
  | succ k ih =>
    obtain ⟨t, ht, hadd⟩ := ih (by omega)
    have hI := inv_reach ht
    have hct : t.phase c = .active := by rw [hadd.phase]; exact hc
    have hlt : t.lock = none := by rw [hadd.lock]; exact hl
    have hrm : t.rm c ≠ 0 := by have := hadd.rm; omega
    have hnew : m + k ∉ t.log.header.listed := by rw [hadd.listed]; simp
    obtain ⟨-, hdr, -, hdl, hok⟩ := hI.room.sync_opened hct hnew hrm
    refine ⟨_, ht.tail (step_sync sb hct hlt hok), ?_, hadd.numOps, ?_, ?_, fun d hd => ?_, hadd.phase, hadd.lock, hadd.endLock⟩
    · show hdr.listed = List.range (m + (k + 1))
      rw [hdl, hadd.listed, ← Nat.add_assoc, List.range_succ]
    · have h1 := hadd.unused
      have h2 := (hI.room.rm_le hct).2
      show t.log.unused - 1 + (k + 1) = s.log.unused
      omega
    · have h1 := hadd.rm
      simp only [Sys.note_rm, update_self]
      omega
    · simp only [Sys.note_rm, update_of_ne hd]
      exact hadd.others d hd

/-- operation 0 runs and has added nothing; the others have left m blocks in the log; from i on nobody has begun -/
structure Filling (sb : SuperBlock) (entries : Fin logMaxSize → ℕ) (i m : ℕ) (s : Sys) : Prop where
  reach : Reach (step sb) (init entries) s
  first : s.phase 0 = .active
  rm : s.rm 0 = opMaxNumBlocks
  numOps : s.log.numOps = 1
  unused : s.log.unused = opMaxNumBlocks
  listed : s.log.header.listed = List.range m
  idle : ∀ c, i ≤ c → s.phase c = .idle
  pos : 0 < i
  lock : s.lock = none
  endLock : s.endLock = none

theorem Filling.numBlocks (h : Filling sb entries i m s) : s.log.header.numBlocks = m := by
  have := (inv_reach h.reach).room.length_listed
  rw [h.listed, List.length_range] at this
  exact this.symm

theorem filling_start (sb : SuperBlock) (entries : Fin logMaxSize → ℕ) (hroom : opMaxNumBlocks ≤ logMax sb) :
    ∃ s, Filling sb entries 1 0 s := by
  have hadm : Admits sb (init entries).log := ⟨hroom, rfl⟩
  have hstep := step_beginOp sb (s := init entries) (c := 0) rfl rfl hadm
  refine ⟨_, (Reach.refl _ _).tail hstep, rfl, rfl, rfl, rfl, rfl, fun c hc => ?_, Nat.one_pos, rfl, rfl⟩
  have hne : c ≠ 0 := by omega
  simp [init, hne]

/-- an idle operation begins while operation 0 runs -/
theorem filling_begin (h : Filling sb entries i m s) (hroom : m + 2 * opMaxNumBlocks ≤ logMax sb) :
    ∃ t, Reach (step sb) (init entries) t ∧ t.phase = update s.phase i .active ∧
      t.rm = update s.rm i opMaxNumBlocks ∧ t.log.header = s.log.header ∧ t.log.numOps = 2 ∧
      t.log.unused = 2 * opMaxNumBlocks ∧ t.lock = none ∧ t.endLock = none := by
  have hI := inv_reach h.reach
  have hmax := logMax_le sb
  have hadm : Admits sb s.log := by
    refine ⟨?_, hI.turn.committing_false h.first⟩
    rw [h.unused, h.numBlocks, addU_of_lt (b := opMaxNumBlocks) (by decide),
      addU_of_lt (by simp only [opMaxNumBlocks] at hroom ⊢; omega)]
    omega
  have hreg := (hI.room.admits hadm).2
  refine ⟨_, h.reach.tail (step_beginOp sb (h.idle i le_rfl) h.lock hadm), rfl, rfl, rfl, ?_, ?_, h.lock, h.endLock⟩
  · simp only [Sys.note_log, Sys.to_log, hreg, h.numOps]
  · simp only [Sys.note_log, Sys.to_log, hreg, h.unused]
    exact (Nat.two_mul _).symm

/-- an operation ends beside another one and goes to sleep -/
theorem ends_asleep (hs : Reach (step sb) (init entries) s) (hi : s.phase i = .active) (hops : s.log.numOps = 2)
    (hl : s.lock = none) (he : s.endLock = none) :
    ∃ t p, Reach (step sb) (init entries) t ∧ t.phase = update s.phase i p ∧ t.rm = s.rm ∧
      t.log.header = s.log.header ∧ t.log.numOps = 1 ∧ t.log.unused = s.log.unused - s.rm i ∧ t.lock = none ∧
      t.endLock = none := by
  have hend := (inv_reach hs).endRegion_active hi
  have hpark := step_endOp_park sb hi hl he (by rw [hend]; simp [hops])
  have hwait := step_waitEnd sb (c := i)
    (s := (({ s with log := endRegion (s.rm i) s.log, endLock := some i }.to i .endPark).note (.ended i))) (by simp)
  exact ⟨_, if (waitSem i s.endSem).1 then .endWoken else .endAsleep, (hs.tail hpark).tail hwait, by simp, by simp,
    by simp [hend], by simp [hend, hops], by simp [hend], by simpa using hl, by simp⟩

/-- operation i begins, adds k blocks, ends and goes to sleep -/
theorem filling_op (h : Filling sb entries i m s) {k : ℕ} (hk : k ≤ opMaxNumBlocks)
    (hroom : m + 2 * opMaxNumBlocks ≤ logMax sb) : ∃ s', Filling sb entries (i + 1) (m + k) s' := by
  have hi0 : (0 : ℕ) ≠ i := by have := h.pos; omega
  obtain ⟨t, ht, hphase, hrm, hhdr, hops, hun, hlock, hendl⟩ := filling_begin h hroom
  obtain ⟨u, hu, hadd⟩ := syncs_added ht (c := i) (m := m) (by simp [hphase]) hlock
    (by rw [hhdr]; exact h.listed) k (by simpa [hrm] using hk)
  obtain ⟨v, p, hv, hphase', hrm', hhdr', hops', hun', hlock', hendl'⟩ := ends_asleep hu (i := i)
    (by rw [hadd.phase, hphase]; simp) (hadd.numOps.trans hops) (hadd.lock.trans hlock) (hadd.endLock.trans hendl)
  refine ⟨v, hv, ?_, ?_, hops', ?_, ?_, fun c hc => ?_, by omega, hlock', hendl'⟩
  · rw [hphase', hadd.phase, hphase, update_of_ne hi0, update_of_ne hi0]
    exact h.first
  · rw [hrm', hadd.others 0 hi0, hrm, update_of_ne hi0]
    exact h.rm
  · have h1 := hadd.unused
    have h2 := hadd.rm
    rw [hrm, update_self] at h2
    omega
  · rw [hhdr', hadd.listed]
  · have hci : c ≠ i := by omega
    rw [hphase', hadd.phase, hphase, update_of_ne hci, update_of_ne hci]
    exact h.idle c (by omega)

/-- q operations in a row add ten blocks each -/
theorem filling_ops (q : ℕ) (h : Filling sb entries i m s)
    (hroom : m + opMaxNumBlocks * q + opMaxNumBlocks ≤ logMax sb) :
    ∃ i' s', Filling sb entries i' (m + opMaxNumBlocks * q) s' := by
  induction q with
  | zero => exact ⟨i, s, h⟩
  | succ q ih =>
    simp only [opMaxNumBlocks] at hroom ih ⊢
    obtain ⟨i', t, ht⟩ := ih (by omega)
    obtain ⟨u, hu⟩ := filling_op ht (k := 10) le_rfl (by simp only [opMaxNumBlocks]; omega)
    exact ⟨i' + 1, u, hu⟩

/-- operation 0 adds its ten blocks and ends: everything in the log is committed -/
theorem filling_commit (h : Filling sb entries i m s) :
    ∃ s' l, Reach (step sb) (init entries) s' ∧ .commitStart l ∈ s'.hist ∧ l.length = m + opMaxNumBlocks := by
  obtain ⟨t, ht, hadd⟩ := syncs_added h.reach h.first h.lock h.listed opMaxNumBlocks h.rm.ge
  have hact : t.phase 0 = .active := by rw [hadd.phase]; exact h.first
  have hend := (inv_reach ht).endRegion_active hact
  have hstep := step_endOp_last sb hact (hadd.lock.trans h.lock)
    (by rw [hend]; simp [hadd.numOps, h.numOps])
  refine ⟨_, _, ht.tail hstep, List.mem_cons_self, ?_⟩
  rw [hend, hadd.listed, List.length_range]

/-- **Full batch.** When two operations fit at a time, some schedule fills the log up to `LOG_MAX`. -/
theorem full_batch (sb : SuperBlock) (entries : Fin logMaxSize → ℕ) (hroom : 2 * opMaxNumBlocks ≤ logMax sb) :
    ∃ s l, Reach (step sb) (init entries) s ∧ .commitStart l ∈ s.hist ∧ l.length = logMax sb := by
  obtain ⟨s0, h0⟩ := filling_start sb entries (by simp only [opMaxNumBlocks] at hroom ⊢; omega)
  -- the first operation to come and go adds the odd blocks, the next ones ten each
  have hmod : (logMax sb - opMaxNumBlocks) % opMaxNumBlocks < opMaxNumBlocks := Nat.mod_lt _ (by decide)
  have hdiv := Nat.mod_add_div (logMax sb - opMaxNumBlocks) opMaxNumBlocks
  obtain ⟨s1, h1⟩ := filling_op h0 hmod.le (by omega)
  obtain ⟨i, s2, h2⟩ := filling_ops ((logMax sb - opMaxNumBlocks) / opMaxNumBlocks) h1 (by omega)
  obtain ⟨s3, l, h3, hl, hlen⟩ := filling_commit h2
  exact ⟨s3, l, h3, hl, by omega⟩

end Filling

/-! ## Which disks are safe -/

/-- the log area holds the largest batch `begin_op` lets through -/
def RoomFor (sb : SuperBlock) : Prop :=
  logMax sb < opMaxNumBlocks ∨
  (logMax sb < 2 * opMaxNumBlocks ∧ opMaxNumBlocks + 1 ≤ sb.numLogBlocks.toNat) ∨
  logMax sb + 1 ≤ sb.numLogBlocks.toNat

/-- **The log stays in its area** on exactly the disks with `RoomFor`: there every commit has at most
`num_log_blocks - 1` blocks and `wblog` writes only between the log header and the end of the log. -/
theorem log_stays_in_area_iff (sb : SuperBlock) :
    (∀ entries s l, Reach (step sb) (init entries) s → .commitStart l ∈ s.hist →
      l.length + 1 ≤ sb.numLogBlocks.toNat ∧
        ∀ x ∈ wblogTargets sb l, sb.logStart.toNat + 1 ≤ x ∧ x < sb.logStart.toNat + sb.numLogBlocks.toNat) ↔
    RoomFor sb := by
  constructor
  · intro h
    by_contra hno
    simp only [RoomFor, not_or, not_and, not_lt, not_le] at hno
    obtain ⟨hten, hmid, hbig⟩ := hno
    by_cases htwo : 2 * opMaxNumBlocks ≤ logMax sb
    · obtain ⟨s, l, hs, hl, hlen⟩ := full_batch sb (fun _ => 0) htwo
      have := (h _ s l hs hl).1
      omega
    · obtain ⟨s, hs⟩ := filling_start sb (fun _ => 0) hten
      obtain ⟨t, l, ht, hl, hlen⟩ := filling_commit hs
      have h1 := (h _ t l ht hl).1
      have h2 := hmid (by omega)
      omega
  · intro h entries s l hs hl
    obtain ⟨hten, hbig, hsmall⟩ := (batch_reach hs).2.past l hl
    have hfit : l.length + 1 ≤ sb.numLogBlocks.toNat := by
      rcases h with h | ⟨h1, h2⟩ | h
      · omega
      · have := hsmall h1
        omega
      · omega
    refine ⟨hfit, fun x hx => ?_⟩
    obtain ⟨i, hi, rfl⟩ := List.mem_map.1 hx
    have hi := List.mem_range.1 hi
    unfold logSlot
    omega

/-- On the disk `mkfs` makes, some schedule commits 63 blocks, and `wblog` writes the last one over the first inode
block. -/
theorem mkfs_log_overruns_inodes :
    ∃ s l, Reach (step mkfsSuperBlock) (init fun _ => 0) s ∧ .commitStart l ∈ s.hist ∧
      mkfsSuperBlock.numLogBlocks.toNat ≤ l.length ∧ mkfsSuperBlock.inodeStart.toNat ∈ wblogTargets mkfsSuperBlock l := by
  have hmax : logMax mkfsSuperBlock = 63 := by decide
  obtain ⟨s, l, hs, hl, hlen⟩ := full_batch mkfsSuperBlock (fun _ => 0) (by rw [hmax]; decide)
  rw [hmax] at hlen
  refine ⟨s, l, hs, hl, by rw [hlen]; decide, ?_⟩
  rw [wblogTargets, hlen]
  exact List.mem_map.2 ⟨62, by decide, by decide⟩

end OsKernel.Fs.LogSys
