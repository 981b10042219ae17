/-
The group commit protocol (`cache_begin_op`, `cache_sync`, `cache_end_op`, `post_all_sem`).

An operation that ends while others run goes to sleep; the last one commits for all of them. The results are about the
history of every run (`group_commit_protocol`):
- while `log.committing` is set no operation runs and none begins;
- a commit covers every block synced since the previous commit started, and its header write and its checkpoint are
  about the very blocks `wblog` logged;
- `cache_end_op(c)` returns only when a commit that started after c's last sync has written its final header.

`Started` is what the history says about a commit that has come to some stage; it is carried from `wblog` to the wake-up,
where it becomes `Covered` for everybody who is woken.
-/
import OsKernel.Fs.LogSpace

namespace OsKernel.Fs.LogSys

open OsKernel.Sem OsKernel.Runs

/-! ## Reading the history -/

/-- block numbers synced since the last commit started -/
def syncedSince : List Event → List ℕ
  | [] => []
  | .commitStart _ :: _ => []
  | .synced _ n _ :: es => n :: syncedSince es
  | _ :: es => syncedSince es

/-- the blocks of the last commit that has started -/
def lastStart : List Event → Option (List ℕ)
  | [] => none
  | .commitStart l :: _ => some l
  | _ :: es => lastStart es

/-- that commit has written its final header -/
def doneSince : List Event → Bool
  | [] => false
  | .commitStart _ :: _ => false
  | .commitDone :: _ => true
  | _ :: es => doneSince es

/-- a commit that started after the last sync of c has written its final header -/
def Covered (c : ℕ) (es : List Event) : Prop :=
  ∃ a l b, es = a ++ .commitStart l :: b ∧ .commitDone ∈ a ∧ ∀ n opened, .synced c n opened ∉ a

variable {c : ℕ} {e : Event} {es : List Event} {l listed : List ℕ} {k : Stage} {p : Phase} {s s' : Sys} {sb : SuperBlock}
  {phase : ℕ → Phase}

theorem Covered.cons (h : Covered c es) (he : ∀ n opened, e ≠ .synced c n opened) :
    Covered c (e :: es) := by
  obtain ⟨a, l, b, rfl, hd, hn⟩ := h
  refine ⟨e :: a, l, b, rfl, List.mem_cons_of_mem e hd, fun n opened hm => ?_⟩
  rcases List.mem_cons.1 hm with hm | hm
  · exact he n opened hm.symm
  · exact hn n opened hm

/-- events that are neither a sync nor the start of a commit -/
def Event.Plain : Event → Prop
  | .synced _ _ _ => False
  | .commitStart _ => False
  | _ => True

theorem syncedSince_plain (he : e.Plain) (es : List Event) : syncedSince (e :: es) = syncedSince es := by
  cases e <;> first | rfl | exact he.elim

theorem lastStart_plain (he : e.Plain) (es : List Event) : lastStart (e :: es) = lastStart es := by
  cases e <;> first | rfl | exact he.elim

theorem doneSince_plain (he : e.Plain) (h : doneSince es = true) :
    doneSince (e :: es) = true := by
  cases e <;> first | exact h | exact he.elim | rfl

/-- with nothing synced since, the history splits at the start of the last commit -/
theorem start_split (hs : syncedSince es = []) (hl : lastStart es = some l) :
    ∃ a b, es = a ++ .commitStart l :: b ∧ (∀ c n opened, .synced c n opened ∉ a) ∧
      (doneSince es = true → .commitDone ∈ a) := by
  induction es with
  | nil => simp [lastStart] at hl
  | cons e es ih =>
    have hplain : e.Plain → syncedSince es = [] → lastStart es = some l → (doneSince (e :: es) = true → e = .commitDone ∨
        doneSince es = true) → ∃ a b, e :: es = a ++ .commitStart l :: b ∧ (∀ c n opened, .synced c n opened ∉ a) ∧
        (doneSince (e :: es) = true → .commitDone ∈ a) := by
      intro he hs' hl' hd
      obtain ⟨a, b, rfl, hno, hdone⟩ := ih hs' hl'
      refine ⟨e :: a, b, rfl, fun c n opened hm => ?_, fun h => ?_⟩
      · rcases List.mem_cons.1 hm with rfl | hm
        · exact he
        · exact hno c n opened hm
      · rcases hd h with rfl | h
        · exact List.mem_cons_self
        · exact List.mem_cons_of_mem e (hdone h)
    cases e with
    | commitStart l' =>
      obtain rfl : l' = l := by simpa [lastStart] using hl
      exact ⟨[], es, rfl, by simp, by simp [doneSince]⟩
    | synced d n opened => simp [syncedSince] at hs
    | commitDone => exact hplain trivial hs hl fun _ => Or.inl rfl
    | _ => exact hplain trivial hs hl fun h => Or.inr h

theorem covered_of_done (hs : syncedSince es = []) (hl : lastStart es = some l)
    (hd : doneSince es = true) (c : ℕ) : Covered c es := by
  obtain ⟨a, b, hes, hno, hdone⟩ := start_split hs hl
  exact ⟨a, l, b, hes, hdone hd, hno c⟩

/-! ## The invariant -/

/-- the log still lists the blocks of the commit -/
def Stage.logging : Stage → Bool
  | .logged | .headerWritten => true
  | _ => false

/-- the commit has written its final header -/
def Stage.done : Stage → Bool
  | .cleared | .finishing | .postedEnd => true
  | _ => false

/-- what the history says about a commit at stage k, with the given blocks listed in memory -/
structure Started (k : Stage) (listed : List ℕ) (es : List Event) : Prop where
  synced : syncedSince es = []
  start : ∃ l, lastStart es = some l ∧ (k.logging = true → l = listed)
  done : k.done = true → doneSince es = true

theorem Started.plain (h : Started k listed es)
    (he : e.Plain) : Started k listed (e :: es) where
  synced := (syncedSince_plain he es).trans h.synced
  start := by rw [lastStart_plain he]; exact h.start
  done hk := doneSince_plain he (h.done hk)

theorem Started.covered (h : Started k listed es) (hk : k.done = true)
    (c : ℕ) : Covered c es := by
  obtain ⟨l, hl, -⟩ := h.start
  exact covered_of_done h.synced hl (h.done hk) c

/-- what an event says about the events before it -/
def Good : Event → List Event → Prop
  | .commitStart l, es => ∀ n ∈ syncedSince es, n ∈ l
  | .headerWritten l, es => lastStart es = some l
  | .installed l, es => lastStart es = some l
  | .returned c, es => Covered c es
  | _, _ => True

structure Hist (s : Sys) : Prop where
  listed : ∀ n ∈ syncedSince s.hist, n ∈ s.log.header.listed
  during : ∀ c k, s.phase c = .commit k → Started k s.log.header.listed s.hist
  woken : ∀ c, s.phase c = .endWoken → Covered c s.hist
  past : Past Good s.hist

namespace Hist

variable {s s' : Sys}

/-- header and history stay; every process keeps its phase or goes to one that the history allows -/
theorem phases (h : Hist s) (hh : s'.log.header = s.log.header) (he : s'.hist = s.hist)
    (hp : ∀ d, s'.phase d = s.phase d ∨ (∀ k, s'.phase d = .commit k → Started k s.log.header.listed s.hist) ∧
      (s'.phase d = .endWoken → Covered d s.hist)) : Hist s' := by
  refine ⟨by rw [hh, he]; exact h.listed, fun d k hd => ?_, fun d hd => ?_, by rw [he]; exact h.past⟩
  · rw [hh, he]
    rcases hp d with hs | ⟨hs, -⟩
    · exact h.during d k (hs ▸ hd)
    · exact hs k hd
  · rw [he]
    rcases hp d with hs | ⟨-, hs⟩
    · exact h.woken d (hs ▸ hd)
    · exact hs hd

/-- one process goes to a phase that the history allows -/
theorem update (h : Hist s) (hh : s'.log.header = s.log.header) (he : s'.hist = s.hist)
    (hp : s'.phase = Function.update s.phase c p) (hk : ∀ k, p = .commit k → Started k s.log.header.listed s.hist)
    (hw : p = .endWoken → Covered c s.hist) : Hist s' := by
  refine h.phases hh he fun d => ?_
  rw [hp]
  by_cases hdc : d = c
  · subst hdc
    rw [Function.update_self]
    exact Or.inr ⟨hk, hw⟩
  · exact Or.inl (Function.update_of_ne hdc _ _)

theorem note (h : Hist s) (he : e.Plain) (hg : Good e s.hist) : Hist (s.note e) := by
  refine ⟨?_, fun d k hd => (h.during d k hd).plain he, fun d hd => (h.woken d hd).cons ?_, hg, h.past⟩
  · simpa only [Sys.note_hist, Sys.note_log, syncedSince_plain he] using h.listed
  · rintro n opened rfl
    exact he

end Hist

section Moves

variable {sb : SuperBlock} {s : Sys} (hI : Inv sb s) (h : Hist s) {c : ℕ}
include hI h

theorem hist_synced {n rm : ℕ} {opened : Bool} {l : Log} (hp : s.phase c = .active) (hl : s.lock = none)
    (hr : syncRegion n (s.rm c) s.log = .ok (rm, opened, l)) :
    Hist ({ s with log := l, rm := Function.update s.rm c rm }.note (.synced c n opened)) := by
  have hturn := hI.turn
  rw [hl] at hturn
  -- the log lists what it listed before, and n
  have hlisted : n ∈ l.header.listed ∧ ∀ m ∈ s.log.header.listed, m ∈ l.header.listed := by
    rcases hI.room.sync_cases hp hr with ⟨-, hn, -, rfl⟩ | ⟨-, -, -, -, hdr, -, hdl, rfl⟩
    · exact ⟨hn, fun m hm => hm⟩
    · simp only [hdl]
      exact ⟨by simp, fun m hm => List.mem_append_left _ hm⟩
  refine ⟨fun m hm => ?_, fun d k hd => absurd hd (hturn.noCommit hp d k), fun d hd => (h.woken d hd).cons ?_, trivial,
    h.past⟩
  · rcases List.mem_cons.1 hm with rfl | hm
    · exact hlisted.1
    · exact hlisted.2 m (h.listed m hm)
  · rintro m o heq
    cases heq
    rw [Sys.note_phase] at hd
    rw [hp] at hd
    cases hd

theorem hist_endLast (hp : s.phase c = .active) (hl : s.lock = none) :
    Hist ((({ s with log := endRegion (s.rm c) s.log }.to c (.commit .logged)).note (.ended c)).note
      (.commitStart (endRegion (s.rm c) s.log).header.listed)) := by
  have hturn := hI.turn
  rw [hl] at hturn
  have hreg := hI.endRegion_active hp
  refine ⟨by simp [syncedSince], fun d k hd => ?_, fun d hd => ?_, ?_⟩
  · simp only [Sys.note_phase, Sys.to_phase] at hd
    by_cases hdc : d = c
    · subst hdc
      rw [Function.update_self, Phase.commit.injEq] at hd
      subst hd
      exact ⟨rfl, ⟨_, rfl, fun _ => rfl⟩, by simp [Stage.done]⟩
    · rw [Function.update_of_ne hdc] at hd
      exact absurd hd (hturn.noCommit hp d k)
  · simp only [Sys.note_phase, Sys.to_phase] at hd
    by_cases hdc : d = c
    · subst hdc; simp at hd
    · rw [Function.update_of_ne hdc] at hd
      have hcov : Covered d (.ended c :: s.hist) := (h.woken d hd).cons (by simp)
      simpa only [Sys.note_hist, Sys.to_hist] using hcov.cons (by simp)
  · simp only [Sys.note_hist, Sys.to_hist, hreg]
    exact ⟨h.listed, trivial, h.past⟩

theorem hist_move (hm : Move sb s s') : Hist s' := by
  cases hm with
  | began c hp hl ha =>
    refine Hist.note ?_ trivial trivial
    exact h.update rfl rfl rfl (by simp) (by simp)
  | parkBegin c hp => exact h.update rfl rfl rfl (by simp) (by simp)
  | waitBegin c hp =>
    refine h.update rfl rfl rfl (fun k hk => ?_) fun hw => ?_
    · cases hb : (waitSem c s.beginSem).1 <;> simp [hb] at hk
    · cases hb : (waitSem c s.beginSem).1 <;> simp [hb] at hw
  | synced c n rm opened l hp hl hr => exact hist_synced hI h hp hl hr
  | endLast c hp hl hc => exact hist_endLast hI h hp hl
  | endPark c hp hl hc =>
    have hreg := hI.endRegion_active hp
    refine Hist.note ?_ trivial trivial
    exact h.update (c := c) (p := .endPark) (by simp [hreg]) (by simp) (by simp) (by simp) (by simp)
  | waitEnd c hp =>
    have hw := hI.waitEnd_sleeps c
    exact h.update rfl rfl rfl (by simp [hw]) (by simp [hw])
  | resumeEnd c hp =>
    have hg : Good (.returned c) s.hist := h.woken c hp
    refine Hist.note ?_ trivial hg
    exact h.update rfl rfl rfl (by simp) (by simp)
  | writeHeader c hp =>
    have hst := h.during c _ hp
    obtain ⟨l, hl, hlog⟩ := hst.start
    have hg : Good (.headerWritten s.log.header.listed) s.hist := by rw [← hlog rfl]; exact hl
    refine Hist.note ?_ trivial hg
    refine h.update rfl rfl rfl (fun k hk => ?_) (by simp)
    cases hk
    exact ⟨hst.synced, hst.start, by simp [Stage.done]⟩
  | checkpoint c hp hl =>
    have hst := h.during c _ hp
    obtain ⟨l, hl, hlog⟩ := hst.start
    have hg : Good (.installed s.log.header.listed) s.hist := by rw [← hlog rfl]; exact hl
    refine ⟨?_, fun d k hd => ?_, fun d hd => ?_, hg, h.past⟩
    · simp [syncedSince, hst.synced]
    · by_cases hdc : d = c
      · subst hdc
        simp only [Sys.note_phase, Sys.to_phase, Function.update_self, Phase.commit.injEq] at hd
        subst hd
        exact ⟨hst.synced, ⟨l, hl, by simp [Stage.logging]⟩, by simp [Stage.done]⟩
      · simp only [Sys.note_phase, Sys.to_phase, Function.update_of_ne hdc] at hd
        exact absurd hd (hI.turn.others hp d hdc k)
    · have hdc : d ≠ c := by rintro rfl; simp at hd
      simp only [Sys.note_phase, Sys.to_phase, Function.update_of_ne hdc] at hd
      exact (h.woken d hd).cons (by simp)
  | clearHeader c hp =>
    have hst := h.during c _ hp
    have hnote : Hist (s.note .commitDone) := h.note trivial trivial
    refine hnote.update (c := c) (p := .commit .cleared) rfl rfl rfl (fun k hk => ?_) (by simp)
    cases hk
    obtain ⟨l, hl, -⟩ := hst.start
    exact ⟨hst.synced, ⟨l, hl, by simp [Stage.logging]⟩, fun _ => rfl⟩
  | finish c hp hl =>
    have hst := h.during c _ hp
    refine h.update rfl rfl rfl (fun k hk => ?_) (by simp)
    cases hk
    obtain ⟨l, hl, -⟩ := hst.start
    exact ⟨hst.synced, ⟨l, hl, by simp [Stage.logging]⟩, fun _ => hst.done rfl⟩
  | postEnd c l sem hp hl hs =>
    have hst := h.during c _ hp
    refine h.phases rfl rfl fun d => ?_
    by_cases hdc : d = c
    · subst hdc
      simp only [Sys.to_phase, Function.update_self]
      refine Or.inr ⟨fun k hk => ?_, by simp⟩
      cases hk
      obtain ⟨l, hl, -⟩ := hst.start
      exact ⟨hst.synced, ⟨l, hl, by simp [Stage.logging]⟩, fun _ => hst.done rfl⟩
    · simp only [Sys.to_phase, Function.update_of_ne hdc, wake]
      by_cases hd : d ∈ l
      · rw [if_pos hd]
        exact Or.inr ⟨by simp, fun _ => hst.covered rfl d⟩
      · exact Or.inl (if_neg hd)
  | postBegin c l sem hp hl hs =>
    have hg : Good (.returned c) s.hist := (h.during c _ hp).covered rfl c
    refine Hist.note ?_ trivial hg
    refine h.phases rfl rfl fun d => ?_
    by_cases hdc : d = c
    · subst hdc
      exact Or.inr ⟨by simp, by simp⟩
    · simp only [Sys.to_phase, Function.update_of_ne hdc, wake]
      by_cases hd : d ∈ l
      · rw [if_pos hd]
        exact Or.inr ⟨by simp, by simp⟩
      · exact Or.inl (if_neg hd)

end Moves

theorem hist_reach {entries : Fin logMaxSize → ℕ} (hs : Reach (step sb) (init entries) s) :
    Inv sb s ∧ Hist s := by
  refine reach_invariant (I := fun s => Inv sb s ∧ Hist s) (fun s e s' hI hstep => ?_) ⟨inv_init sb entries, ?_⟩ hs
  · have hm := step_move hstep
    exact ⟨inv_move hI.1 hm, hist_move hI.1 hI.2 hm⟩
  · exact ⟨by simp [init, syncedSince], by simp [init], by simp [init], trivial⟩

theorem quiet_update (h : ∀ d, phase d ≠ .active) (hp : p ≠ .active) (c d : ℕ) :
    Function.update phase c p d ≠ .active := fun hd => h d ((update_active (h c) hp d).1 hd)

theorem quiet_wake (h : ∀ d, phase d ≠ .active) (hp : p ≠ .active) (l : List ℕ) (d : ℕ) :
    wake l p phase d ≠ .active := by
  unfold wake
  split_ifs
  · exact hp
  · exact h d

/-- no step begins an operation while `log.committing` is set -/
theorem no_begin_while_committing (hI : Inv sb s) (hc : s.log.committing = true)
    (hm : Move sb s s') (d : ℕ) : s'.phase d ≠ .active := by
  have hq := hI.turn.quiet hc
  cases hm with
  | began c hp hl ha => exact absurd (ha.2.symm.trans hc) (by simp)
  | waitBegin c hp =>
    refine quiet_update hq ?_ c d
    cases (waitSem c s.beginSem).1 <;> simp
  | synced c n rm opened l hp => exact absurd hp (hq c)
  | endLast c hp => exact absurd hp (hq c)
  | endPark c hp => exact absurd hp (hq c)
  | waitEnd c hp =>
    refine quiet_update hq ?_ c d
    cases (waitSem c s.endSem).1 <;> simp
  | postEnd c l sem hp => exact quiet_update (quiet_wake hq (by simp) l) (by simp) c d
  | postBegin c l sem hp => exact quiet_update (quiet_wake hq (by simp) l) (by simp) c d
  | _ => exact quiet_update hq (by simp) _ d

/-- **Group commit.** In every run: while `log.committing` is set no operation runs and no `begin_op` completes; a commit
lists every block synced since the previous one started, and the header it writes and the blocks it installs are those it
logged; `end_op(c)` returns only after a commit that started after c's last sync has written its final header. -/
theorem group_commit_protocol (sb : SuperBlock) (entries : Fin logMaxSize → ℕ) (s : Sys)
    (hs : Reach (step sb) (init entries) s) :
    (s.log.committing = true → (∀ c, s.phase c ≠ .active) ∧ ∀ e s', step sb s e = some s' → ∀ c, s'.phase c ≠ .active) ∧
    (∀ a l b, s.hist = a ++ .commitStart l :: b → ∀ n ∈ syncedSince b, n ∈ l) ∧
    (∀ a l b, s.hist = a ++ .headerWritten l :: b ∨ s.hist = a ++ .installed l :: b → lastStart b = some l) ∧
    ∀ a c b, s.hist = a ++ .returned c :: b → Covered c b := by
  obtain ⟨hI, h⟩ := hist_reach hs
  have hpast := past_iff.1 h.past
  refine ⟨fun hc => ⟨hI.turn.quiet hc, fun e s' hstep c => ?_⟩, fun a l b hab => hpast a _ b hab, fun a l b hab => ?_,
    fun a c b hab => hpast a _ b hab⟩
  · exact no_begin_while_committing hI hc (step_move hstep) c
  · rcases hab with hab | hab
    · exact hpast a _ b hab
    · exact hpast a _ b hab

/-- two operations sync one block each; 1 ends first and sleeps until 0 has committed for both -/
theorem group_commit_protocol_two :
    ∃ s a b, run (step mkfsSuperBlock) (init fun _ => 0)
        [.beginOp 0, .beginOp 1, .sync 0 100, .sync 1 101, .endOp 1, .waitEnd 1, .endOp 0, .writeHeader 0, .checkpoint 0,
          .clearHeader 0, .finish 0, .postEnd 0, .postBegin 0, .resumeEnd 1] = some s ∧
      s.hist = a ++ .returned 1 :: b ∧ Covered 1 b := by
  have hrun : (run (step mkfsSuperBlock) (init fun _ => 0)
      [.beginOp 0, .beginOp 1, .sync 0 100, .sync 1 101, .endOp 1, .waitEnd 1, .endOp 0, .writeHeader 0, .checkpoint 0,
        .clearHeader 0, .finish 0, .postEnd 0, .postBegin 0, .resumeEnd 1]).map (fun s => s.hist.head?) =
      some (some (.returned 1)) := by decide +kernel
  obtain ⟨s, hs, hhead⟩ := Option.map_eq_some_iff.1 hrun
  obtain ⟨b, hb⟩ := List.head?_eq_some_iff.1 hhead
  exact ⟨s, [], b, hs, hb, (group_commit_protocol mkfsSuperBlock _ s ⟨_, hs⟩).2.2.2 [] 1 b hb⟩

end OsKernel.Fs.LogSys
