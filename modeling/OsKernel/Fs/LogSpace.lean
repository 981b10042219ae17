/-
Space in the log, for every interleaving (`cache_begin_op`, `cache_sync`, `cache_end_op`).

`Inv` is the invariant of the system: the counters fit the running operations (`Space`), at most one operation commits and
nothing runs beside it (`Turn`), and the sleep lists name the processes that sleep (`Sleepers`); every step keeps it
(`inv_move`).

Result, for every state that any interleaving reaches: `log_space_accounting` (the counters are exact, the header has no
duplicates and stays below `LOG_MAX`, no counter wraps, `sync` panics exactly when the operation has used up its blocks).
-/
import OsKernel.Fs.LogRegions
import OsKernel.Fs.LogSys

namespace OsKernel.Fs.LogSys

open OsKernel.Sem OsKernel.Runs

/-- blocks c has added to the log since it began -/
def openedBy (c : ℕ) : List Event → ℕ
  | [] => 0
  | .began d :: es => if d = c then 0 else openedBy c es
  | .synced d _ opened :: es => if d = c ∧ opened then openedBy c es + 1 else openedBy c es
  | _ :: es => openedBy c es

theorem update_active {phase : ℕ → Phase} {c : ℕ} {p : Phase} (hc : phase c ≠ .active) (hp : p ≠ .active) (d : ℕ) :
    Function.update phase c p d = .active ↔ phase d = .active := by
  by_cases hdc : d = c
  · subst hdc; simp [hc, hp]
  · rw [Function.update_of_ne hdc]

/-! ## Whose turn it is -/

/-- the stages at which `log.committing` is set; at the others the committer holds `log.lock` -/
def Stage.early : Stage → Bool
  | .finishing | .postedEnd => false
  | _ => true

/-- phases, `log.committing` and `log.lock` fit together: one committer at most, and nobody running beside it -/
structure Turn (phase : ℕ → Phase) (committing : Bool) (lock : Option ℕ) : Prop where
  quiet : committing = true → ∀ c, phase c ≠ .active
  early : ∀ c k, phase c = .commit k → k.early = true → committing = true
  late : ∀ c k, phase c = .commit k → k.early = false → lock = some c
  sole : ∀ c d j k, phase c = .commit j → phase d = .commit k → c = d

namespace Turn

variable {phase : ℕ → Phase} {committing : Bool} {lock : Option ℕ} {c : ℕ}

/-- no commit runs while an operation is running and `log.lock` is free -/
theorem noCommit (h : Turn phase committing none) (hc : phase c = .active) (d : ℕ) (k : Stage) :
    phase d ≠ .commit k := by
  intro hd
  cases hk : k.early with
  | true => exact h.quiet (h.early d k hd hk) c hc
  | false => exact absurd (h.late d k hd hk) (by simp)

theorem committing_false (h : Turn phase committing lock) (hc : phase c = .active) : committing = false := by
  rw [← Bool.not_eq_true]
  exact fun hcm => h.quiet hcm c hc

/-- c goes to a phase outside the commit -/
theorem leave (h : Turn phase committing lock) {p : Phase} (hp : ∀ k, p ≠ .commit k)
    (ha : p = .active → committing = false) : Turn (Function.update phase c p) committing lock := by
  have hcm : ∀ d k, Function.update phase c p d = .commit k → phase d = .commit k := by
    intro d k hd
    by_cases hdc : d = c
    · subst hdc; rw [Function.update_self] at hd; exact absurd hd (hp k)
    · rwa [Function.update_of_ne hdc] at hd
  refine ⟨fun hc d => ?_, fun d k hd => h.early d k (hcm d k hd), fun d k hd => h.late d k (hcm d k hd),
    fun d e j k hd he => h.sole d e j k (hcm d j hd) (hcm e k he)⟩
  by_cases hdc : d = c
  · subst hdc
    rw [Function.update_self]
    intro hp'
    simp [ha hp'] at hc
  · rw [Function.update_of_ne hdc]; exact h.quiet hc d

/-- c is at stage k of the commit and nobody else is in a commit -/
theorem enter {committing' : Bool} {lock' : Option ℕ} {k : Stage} (hothers : ∀ d, d ≠ c → ∀ j, phase d ≠ .commit j)
    (hquiet : committing' = true → ∀ d, d ≠ c → phase d ≠ .active) (hearly : k.early = true → committing' = true)
    (hlate : k.early = false → lock' = some c) : Turn (Function.update phase c (.commit k)) committing' lock' := by
  have hcm : ∀ d j, Function.update phase c (.commit k) d = .commit j → d = c ∧ j = k := by
    intro d j hd
    by_cases hdc : d = c
    · subst hdc
      rw [Function.update_self] at hd
      exact ⟨rfl, (Phase.commit.inj hd).symm⟩
    · rw [Function.update_of_ne hdc] at hd
      exact absurd hd (hothers d hdc j)
  refine ⟨fun hc d => ?_, fun d j hd hj => ?_, fun d j hd hj => ?_, fun d e j j' hd he => ?_⟩
  · by_cases hdc : d = c
    · subst hdc; simp
    · rw [Function.update_of_ne hdc]; exact hquiet hc d hdc
  · obtain ⟨-, rfl⟩ := hcm d j hd; exact hearly hj
  · obtain ⟨rfl, rfl⟩ := hcm d j hd; exact hlate hj
  · rw [(hcm d j hd).1, (hcm e j' he).1]

theorem others (h : Turn phase committing lock) {k : Stage} (hc : phase c = .commit k) (d : ℕ) (hd : d ≠ c) (j : Stage) :
    phase d ≠ .commit j := fun hj => hd (h.sole d c j k hj hc)

/-- the committer is done and gives `log.lock` back -/
theorem done (h : Turn phase committing lock) {k : Stage} (hc : phase c = .commit k) :
    Turn (Function.update phase c .idle) committing none := by
  have hno : ∀ d j, Function.update phase c .idle d ≠ .commit j := by
    intro d j hd
    by_cases hdc : d = c
    · subst hdc; simp at hd
    · rw [Function.update_of_ne hdc] at hd
      exact h.others hc d hdc j hd
  exact ⟨(h.leave (c := c) (p := .idle) (by simp) (by simp)).quiet, fun d j hd => absurd hd (hno d j),
    fun d j hd => absurd hd (hno d j), fun d _ j _ hd => absurd hd (hno d j)⟩

/-- sleepers are woken -/
theorem wake (h : Turn phase committing lock) (l : List ℕ) {p : Phase} (hp : ∀ k, p ≠ .commit k) (ha : p ≠ .active) :
    Turn (wake l p phase) committing lock := by
  have hcm : ∀ d k, LogSys.wake l p phase d = .commit k → phase d = .commit k := by
    intro d k hd
    unfold LogSys.wake at hd
    split_ifs at hd
    · exact absurd hd (hp k)
    · exact hd
  refine ⟨fun hc d => ?_, fun d k hd => h.early d k (hcm d k hd), fun d k hd => h.late d k (hcm d k hd),
    fun d e j k hd he => h.sole d e j k (hcm d j hd) (hcm e k he)⟩
  unfold LogSys.wake
  split_ifs
  · exact ha
  · exact h.quiet hc d

end Turn

/-! ## Who sleeps where -/

/-- the processes on the list of sem are those asleep in phase p -/
structure Sleepers (sem : Semaphore) (p : Phase) (phase : ℕ → Phase) : Prop where
  ok : SemOk sem
  asleep : ∀ c ∈ sem.sleeplist, phase c = p

namespace Sleepers

variable {sem : Semaphore} {p : Phase} {phase : ℕ → Phase} {c : ℕ}

theorem update (h : Sleepers sem p phase) (hc : phase c ≠ p) (q : Phase) :
    Sleepers sem p (Function.update phase c q) := by
  refine ⟨h.ok, fun d hd => ?_⟩
  have hdc : d ≠ c := by rintro rfl; exact hc (h.asleep d hd)
  rw [Function.update_of_ne hdc]
  exact h.asleep d hd

theorem wait (h : Sleepers sem p phase) (hc : phase c ≠ p) (q : Phase) :
    Sleepers (waitSem c sem).2 p (Function.update phase c (if (waitSem c sem).1 then q else p)) := by
  refine ⟨semOk_waitSem c h.ok, fun d hd => ?_⟩
  by_cases hv : sem.val - 1 ≥ 0
  · simp only [waitSem, if_pos hv] at hd ⊢
    exact (h.update hc _).asleep d hd
  · simp only [waitSem, if_neg hv] at hd ⊢
    rcases List.mem_cons.1 hd with rfl | hd
    · simp
    · exact (h.update hc _).asleep d hd

theorem wake (h : Sleepers sem p phase) {l : List ℕ} (hl : ∀ d ∈ l, phase d ≠ p) (q : Phase) :
    Sleepers sem p (wake l q phase) := by
  refine ⟨h.ok, fun d hd => ?_⟩
  have hdl : d ∉ l := fun hdl => hl d hdl (h.asleep d hd)
  simp only [LogSys.wake, if_neg hdl]
  exact h.asleep d hd

/-- `post_all_sem` empties the list -/
theorem posted (h : Sleepers sem p phase) {l : List ℕ} {sem' : Semaphore} (hs : postAllSem sem = some (l, sem'))
    (phase' : ℕ → Phase) : Sleepers sem' p phase' ∧ sem'.val = max sem.val 0 ∧ ∀ d ∈ l, phase d = p := by
  rw [postAllSem_ok h.ok, Option.some.injEq, Prod.mk.injEq] at hs
  obtain ⟨rfl, rfl⟩ := hs
  refine ⟨⟨?_, by simp⟩, rfl, fun d hd => h.asleep d (List.mem_reverse.1 hd)⟩
  simp only [SemOk, List.length_nil]
  omega

end Sleepers

/-! ## The invariant -/

structure Inv (sb : SuperBlock) (s : Sys) : Prop where
  room : Space sb s.log s.rm fun c => s.phase c = .active
  budget : ∀ c, s.phase c = .active → s.rm c + openedBy c s.hist = opMaxNumBlocks
  turn : Turn s.phase s.log.committing s.lock
  begins : Sleepers s.beginSem .beginAsleep s.phase
  ends : Sleepers s.endSem .endAsleep s.phase
  /-- nobody gets past `log.end` without a `post_all_sem` -/
  endVal : s.endSem.val ≤ 0

/-- the counter of `log.end` is never positive, so the caller goes to sleep -/
theorem Inv.waitEnd_sleeps {sb : SuperBlock} {s : Sys} (h : Inv sb s) (c : ℕ) :
    waitSem c s.endSem = (false, ⟨s.endSem.val - 1, c :: s.endSem.sleeplist⟩) :=
  if_neg (by have := h.endVal; omega)

theorem Inv.endRegion_active {sb : SuperBlock} {s : Sys} (h : Inv sb s) {c : ℕ} (hc : s.phase c = .active) :
    endRegion (s.rm c) s.log = ⟨s.log.header, s.log.numOps - 1, s.log.unused - s.rm c, decide (s.log.numOps = 1)⟩ :=
  h.room.endRegion_active hc (h.turn.committing_false hc)

section Moves

variable {sb : SuperBlock} {s : Sys} (h : Inv sb s) {c : ℕ}
include h

theorem inv_began (hp : s.phase c = .idle ∨ s.phase c = .beginWoken) (ha : Admits sb s.log) :
    Inv sb (({ s with log := beginRegion s.log, rm := Function.update s.rm c opMaxNumBlocks }.to c .active).note
      (.began c)) := by
  have hidle : ∀ q, q = .active ∨ q = .beginAsleep ∨ q = .endAsleep → s.phase c ≠ q := by
    rintro q (rfl | rfl | rfl) <;> rcases hp with hp | hp <;> simp [hp]
  refine ⟨h.room.begin (hidle _ (by simp)) ha fun d => ?_, fun d hd => ?_, ?_,
    h.begins.update (hidle _ (by simp)) _, h.ends.update (hidle _ (by simp)) _, h.endVal⟩
  · by_cases hdc : d = c
    · simp [hdc]
    · simp [hdc]
  · show Function.update s.rm c opMaxNumBlocks d + openedBy d (.began c :: s.hist) = opMaxNumBlocks
    by_cases hdc : d = c
    · subst hdc; simp [openedBy]
    · have hda : s.phase d = .active := by simpa [Sys.to, Sys.note, hdc] using hd
      simpa [openedBy, hdc, Ne.symm hdc] using h.budget d hda
  · exact h.turn.leave (by simp) fun _ => ha.2

theorem inv_synced {n rm : ℕ} {opened : Bool} {l : Log} (hp : s.phase c = .active)
    (hr : syncRegion n (s.rm c) s.log = .ok (rm, opened, l)) :
    Inv sb ({ s with log := l, rm := Function.update s.rm c rm }.note (.synced c n opened)) := by
  have hsync := h.room.sync hp hr
  have hcases := h.room.sync_cases hp hr
  refine ⟨hsync, fun d hd => ?_, ?_, h.begins, h.ends, h.endVal⟩
  · have hb := h.budget d hd
    show Function.update s.rm c rm d + openedBy d (.synced c n opened :: s.hist) = opMaxNumBlocks
    by_cases hdc : d = c
    · subst hdc
      rcases hcases with ⟨rfl, -, rfl, -⟩ | ⟨rfl, -, hpos, rfl, -⟩
      · simpa [openedBy] using hb
      · simp only [Function.update_self, openedBy, and_self, if_true]
        omega
    · simpa [openedBy, hdc, Ne.symm hdc] using hb
  · have hcm : l.committing = s.log.committing := by
      rcases hcases with ⟨-, -, -, rfl⟩ | ⟨-, -, -, -, hdr, -, -, rfl⟩
      · rfl
      · rfl
    show Turn s.phase l.committing s.lock
    rw [hcm]
    exact h.turn

/-- an operation ends; what becomes of it is left open -/
theorem inv_ended {s' : Sys} {p : Phase} (hp : s.phase c = .active) (hpa : p ≠ .active)
    (hlog : s'.log = endRegion (s.rm c) s.log) (hrm : s'.rm = s.rm) (hphase : s'.phase = Function.update s.phase c p)
    (hes : ∀ d, openedBy d s'.hist = openedBy d s.hist) (hb : s'.beginSem = s.beginSem)
    (he : s'.endSem = s.endSem) (hturn : Turn s'.phase s'.log.committing s'.lock) : Inv sb s' := by
  have hact : ∀ d, s'.phase d = .active ↔ s.phase d = .active ∧ d ≠ c := by
    intro d
    rw [hphase]
    by_cases hdc : d = c
    · simp [hdc, hpa]
    · simp [hdc]
  refine ⟨?_, fun d hd => ?_, hturn, ?_, ?_, ?_⟩
  · rw [hlog, hrm]
    exact h.room.ended hp (h.turn.committing_false hp) hact
  · rw [hrm, hes]
    exact h.budget d ((hact d).1 hd).1
  · rw [hb, hphase]; exact h.begins.update (by simp [hp]) p
  · rw [he, hphase]; exact h.ends.update (by simp [hp]) p
  · rw [he]; exact h.endVal

/-- a move that keeps the counters, the header and the set of running operations -/
theorem inv_frame {s' : Sys} (ho : s'.log.numOps = s.log.numOps) (hu : s'.log.unused = s.log.unused)
    (hh : s'.log.header = s.log.header) (hrm : s'.rm = s.rm) (hes : ∀ d, openedBy d s'.hist = openedBy d s.hist)
    (hact : ∀ d, s'.phase d = .active ↔ s.phase d = .active) (hturn : Turn s'.phase s'.log.committing s'.lock)
    (hb : Sleepers s'.beginSem .beginAsleep s'.phase) (he : Sleepers s'.endSem .endAsleep s'.phase)
    (hv : s'.endSem.val ≤ 0) : Inv sb s' := by
  refine ⟨?_, fun d hd => ?_, hturn, hb, he, hv⟩
  · rw [hrm]
    exact h.room.congr ho hu hh hact
  · rw [hrm, hes]; exact h.budget d ((hact d).1 hd)

/-- c goes from one stage of the commit to the next -/
theorem inv_stage {j k : Stage} {e : Event} (hp : s.phase c = .commit j) (hj : j.early = true) (hk : k.early = true)
    (hes : ∀ d, openedBy d (e :: s.hist) = openedBy d s.hist) : Inv sb ((s.to c (.commit k)).note e) := by
  have hcm := h.turn.early c j hp hj
  refine inv_frame h rfl rfl rfl rfl hes (update_active (by simp [hp]) (by simp)) ?_ (h.begins.update (by simp [hp]) _)
    (h.ends.update (by simp [hp]) _) h.endVal
  exact Turn.enter (h.turn.others hp) (fun hc d _ => h.turn.quiet hc d) (fun _ => hcm) (by simp [hk])

theorem inv_checkpoint (hp : s.phase c = .commit .headerWritten) :
    Inv sb (({ s with log := { s.log with header := s.log.header.cleared } }.to c (.commit .installed)).note
      (.installed s.log.header.listed)) := by
  have hcm := h.turn.early c _ hp rfl
  -- nothing runs during a commit
  have hno : ∀ d, Function.update s.phase c (.commit .installed) d ≠ .active := fun d hd =>
    h.turn.quiet hcm d ((update_active (by simp [hp]) (by simp) d).1 hd)
  refine ⟨?_, fun d hd => absurd hd (hno d), ?_, h.begins.update (by simp [hp]) _, h.ends.update (by simp [hp]) _, h.endVal⟩
  · exact (h.room.congr rfl rfl rfl (update_active (by simp [hp]) (by simp))).cleared hno
  · exact Turn.enter (h.turn.others hp) (fun hc d _ => h.turn.quiet hc d) (fun _ => hcm) (by simp [Stage.early])

theorem inv_move {s' : Sys} (hm : Move sb s s') : Inv sb s' := by
  cases hm with
  | began c hp hl ha => exact inv_began h hp ha
  | parkBegin c hp =>
    have hne : ∀ q, q = .active ∨ q = .beginAsleep ∨ q = .endAsleep → s.phase c ≠ q := by
      rintro q (rfl | rfl | rfl) <;> rcases hp with hp | hp <;> simp [hp]
    exact inv_frame h rfl rfl rfl rfl (fun _ => rfl) (update_active (hne _ (by simp)) (by simp))
      (h.turn.leave (by simp) (by simp)) (h.begins.update (hne _ (by simp)) _) (h.ends.update (hne _ (by simp)) _) h.endVal
  | waitBegin c hp =>
    have hnew : ∀ b : Bool, ∀ q, q = .active ∨ (∃ k, q = .commit k) → (if b then Phase.beginWoken else .beginAsleep) ≠ q := by
      rintro b q (rfl | ⟨k, rfl⟩) <;> cases b <;> simp
    exact inv_frame h rfl rfl rfl rfl (fun _ => rfl) (update_active (by simp [hp]) (hnew _ _ (by simp)))
      (h.turn.leave (fun k => hnew _ _ (by simp)) fun ha => absurd ha (hnew _ _ (by simp)))
      (h.begins.wait (by simp [hp]) _) (h.ends.update (by simp [hp]) _) h.endVal
  | synced c n rm opened l hp hl hr => exact inv_synced h hp hr
  | endLast c hp hl hc =>
    have hone : s.log.numOps = 1 := by rw [h.endRegion_active hp] at hc; simpa using hc
    have hturn := h.turn
    rw [hl] at hturn
    refine inv_ended h hp (p := .commit .logged) (by simp) (by simp) (by simp) (by simp)
      (fun d => by simp [openedBy]) (by simp) (by simp) ?_
    exact Turn.enter (fun d _ j => hturn.noCommit hp d j) (fun _ d hd hda => hd (h.room.last_active hp hone d hda)) (fun _ => hc)
      (by simp [Stage.early])
  | endPark c hp hl hc =>
    refine inv_ended h hp (p := .endPark) (by simp) (by simp) (by simp) (by simp)
      (fun d => by simp [openedBy]) (by simp) (by simp) ?_
    have hturn := h.turn.leave (c := c) (p := .endPark) (by simp) (by simp)
    rw [h.turn.committing_false hp, ← hc] at hturn
    simpa using hturn
  | waitEnd c hp =>
    have hw := h.waitEnd_sleeps c
    refine inv_frame h rfl rfl rfl rfl (fun _ => rfl) ?_ ?_ ?_ (h.ends.wait (by simp [hp]) _) ?_
    · exact update_active (by simp [hp]) (by simp [hw])
    · exact h.turn.leave (by simp [hw]) (by simp [hw])
    · exact h.begins.update (by simp [hp]) _
    · have := h.endVal
      simp only [Sys.to_endSem, hw]
      omega
  | resumeEnd c hp =>
    exact inv_frame h rfl rfl rfl rfl (fun _ => rfl) (update_active (by simp [hp]) (by simp))
      (h.turn.leave (by simp) (by simp)) (h.begins.update (by simp [hp]) _) (h.ends.update (by simp [hp]) _) h.endVal
  | writeHeader c hp => exact inv_stage h hp rfl rfl fun _ => rfl
  | checkpoint c hp hl => exact inv_checkpoint h hp
  | clearHeader c hp => exact inv_stage h hp rfl rfl fun _ => rfl
  | finish c hp hl =>
    exact inv_frame h rfl rfl rfl rfl (fun _ => rfl) (update_active (by simp [hp]) (by simp))
      (Turn.enter (h.turn.others hp) (by simp [Sys.to]) (by simp [Stage.early]) fun _ => rfl) (h.begins.update (by simp [hp]) _)
      (h.ends.update (by simp [hp]) _) h.endVal
  | postEnd c l sem hp hl hs =>
    obtain ⟨hends, hval, hasleep⟩ := h.ends.posted hs (Function.update (wake l .endWoken s.phase) c (.commit .postedEnd))
    have hcl : c ∉ l := fun hc => by simp [hasleep c hc] at hp
    have hpc : wake l .endWoken s.phase c = .commit .finishing := by simp [wake, hcl, hp]
    have hturn := h.turn.wake l (p := .endWoken) (by simp) (by simp)
    have hact : ∀ d, wake l .endWoken s.phase d = .active ↔ s.phase d = .active := by
      intro d
      by_cases hd : d ∈ l <;> simp [wake, hd]
      simp [hasleep d hd]
    refine inv_frame h rfl rfl rfl rfl (fun _ => rfl) (fun d => (update_active (by simp [hpc]) (by simp) d).trans (hact d))
      ?_ ?_ hends ?_
    · exact Turn.enter (hturn.others hpc) (fun hc d _ => hturn.quiet hc d) (by simp [Stage.early])
        fun _ => h.turn.late c _ hp rfl
    · exact (h.begins.wake (fun d hd => by simp [hasleep d hd]) _).update (by simp [hpc]) _
    · have := h.endVal
      show sem.val ≤ 0
      omega
  | postBegin c l sem hp hl hs =>
    obtain ⟨hbegins, -, hasleep⟩ := h.begins.posted hs (Function.update (wake l .beginWoken s.phase) c .idle)
    have hcl : c ∉ l := fun hc => by simp [hasleep c hc] at hp
    have hpc : wake l .beginWoken s.phase c = .commit .postedEnd := by simp [wake, hcl, hp]
    have hturn := h.turn.wake l (p := .beginWoken) (by simp) (by simp)
    have hact : ∀ d, wake l .beginWoken s.phase d = .active ↔ s.phase d = .active := by
      intro d
      by_cases hd : d ∈ l <;> simp [wake, hd]
      simp [hasleep d hd]
    refine inv_frame h rfl rfl rfl rfl (fun _ => rfl) (fun d => (update_active (by simp [hpc]) (by simp) d).trans (hact d))
      ?_ hbegins ?_ h.endVal
    · exact hturn.done hpc
    · exact (h.ends.wake (fun d hd => by simp [hasleep d hd]) _).update (by simp [hpc]) _

end Moves

theorem inv_init (sb : SuperBlock) (entries : Fin logMaxSize → ℕ) : Inv sb (init entries) where
  room := space_empty sb entries false _ (by simp [init])
  budget := by simp [init]
  turn := ⟨by simp [init], by simp [init], by simp [init], by simp [init]⟩
  begins := ⟨semOk_init le_rfl, by simp [init, initSem]⟩
  ends := ⟨semOk_init le_rfl, by simp [init, initSem]⟩
  endVal := le_rfl

theorem inv_reach {sb : SuperBlock} {entries : Fin logMaxSize → ℕ} {s : Sys} (h : Reach (step sb) (init entries) s) :
    Inv sb s :=
  reach_invariant (fun _ _ _ hI hs => inv_move hI (step_move hs)) (inv_init sb entries) h

/-- **Log space accounting.** In every reachable state the counters are exact: `num_ops` counts the running operations,
`blocks_allocated_but_unused` is what they have left, the listed blocks are distinct, and used plus reserved blocks stay
within `LOG_MAX`. So for a running operation c neither `end_op` nor `sync` wraps a counter, a new entry is stored inside
the array, and `sync` panics exactly when c has added its ten blocks and n is not listed. -/
theorem log_space_accounting (sb : SuperBlock) (entries : Fin logMaxSize → ℕ) (s : Sys)
    (hs : Reach (step sb) (init entries) s) :
    (∃ l : List ℕ, l.Nodup ∧ (∀ c, c ∈ l ↔ s.phase c = .active) ∧ s.log.numOps = l.length ∧
      s.log.unused = (l.map s.rm).sum) ∧
    s.log.header.listed.length = s.log.header.numBlocks ∧ s.log.header.listed.Nodup ∧
    s.log.header.numBlocks + s.log.unused ≤ min logMaxSize (sb.numBlocks - 1).toNat ∧
    ∀ c, s.phase c = .active → (1 ≤ s.log.numOps ∧ s.rm c ≤ s.log.unused) ∧
      ∀ n, (n ∉ s.log.header.listed → s.rm c ≠ 0 → s.log.header.numBlocks < logMaxSize ∧ 1 ≤ s.log.unused) ∧
        syncRegion n (s.rm c) s.log ≠ .error .wild ∧
        (syncRegion n (s.rm c) s.log = .error .panic ↔
          openedBy c s.hist = opMaxNumBlocks ∧ n ∉ s.log.header.listed) := by
  have h := inv_reach hs
  obtain ⟨l, hl⟩ := h.room.account
  refine ⟨⟨l, hl.nodup, hl.mem, hl.numOps, hl.unused⟩, h.room.length_listed, h.room.nodup, h.room.bound, fun c hc => ?_⟩
  have hrm := (h.room.rm_le hc).2
  have hbudget := h.budget c hc
  refine ⟨⟨h.room.ops_pos hc, hrm⟩, fun n => ⟨fun hn hr => ⟨(h.room.sync_opened hc hn hr).1, by omega⟩, ?_⟩⟩
  by_cases hn : n ∈ s.log.header.listed
  · simp [syncRegion_absorbed _ hn, hn]
  by_cases hr : s.rm c = 0
  · have hopened : openedBy c s.hist = opMaxNumBlocks := by omega
    simp [hr, syncRegion_exhausted hn, hn, hopened]
  · obtain ⟨-, hdr, -, -, hok⟩ := h.room.sync_opened hc hn hr
    have hopened : openedBy c s.hist ≠ opMaxNumBlocks := by omega
    simp only [hok, reduceCtorEq, not_false_eq_true, ne_eq, hopened, false_and, true_and]

/-- one operation that has added block 100 on the disk `mkfs` makes: it may still add nine -/
theorem log_space_accounting_oneOp :
    ∃ s, Reach (step mkfsSuperBlock) (init fun _ => 0) s ∧ s.phase 0 = .active ∧ openedBy 0 s.hist = 1 ∧
      syncRegion 101 (s.rm 0) s.log ≠ .error .panic := by
  obtain ⟨s, hs, hp, ho⟩ : ∃ s, run (step mkfsSuperBlock) (init fun _ => 0) [.beginOp 0, .sync 0 100] = some s ∧
      s.phase 0 = .active ∧ openedBy 0 s.hist = 1 := run_computes (by decide +kernel)
  refine ⟨s, ⟨_, hs⟩, hp, ho, fun hpanic => ?_⟩
  obtain ⟨-, -, -, -, h⟩ := log_space_accounting mkfsSuperBlock _ s ⟨_, hs⟩
  have := (((h 0 hp).2 101).2.2.1 hpanic).1
  rw [ho] at this
  exact absurd this (by decide)

end OsKernel.Fs.LogSys
