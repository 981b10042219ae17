/-
Crash atomicity of a commit (`cache_end_op`, `init_bcache`).

A power cut stops the device after a prefix of the writes a kernel function issues (`issued`). `CrashState sb s b d` is
the device d left by a cut somewhere in the commit that starts in s, followed by any number of recoveries that are cut in
turn; b tells whether the first `write_header` of the commit had completed.

Result (`commit_crash_atomic`): from every such device `init_bcache` completes, and off the log area it leaves either
the old contents or the old contents with every listed block replaced by its cached content; the latter when b holds.

The argument follows the header block. Until it is written the commit has only touched log slots (`Quiet` about the old
contents). While it lists the blocks, every slot keeps its content and only listed blocks have changed, so replaying the
log gives the new contents from any point (`Logged`). Once it is cleared they are all in place (`Quiet` about `committed`).
-/
import OsKernel.Fs.Commit

namespace OsKernel.Fs

open OsKernel.Bytes OsKernel.Writes
open Function (update update_of_ne)

/-! ## The writes of a commit -/

/-- a state in which `cache_end_op` starts a commit -/
structure CommitReady (sb : SuperBlock) (s : Machine) : Prop where
  /-- the count stays inside the array and every field is a usize -/
  count : s.log.header.numBlocks ≤ logMaxSize
  fits : s.log.header.Fits
  nodup : s.log.header.listed.Nodup
  outside : ∀ n ∈ s.log.header.listed, ¬ InLogArea sb n
  room : s.log.header.numBlocks + 1 ≤ sb.numLogBlocks.toNat
  clean : (decode (s.dev.blocks sb.logStart.toNat)).numBlocks = 0
  present : ∀ n ∈ s.log.header.listed, ∃ a, findCache s.cache n = some a

namespace CommitReady

variable {sb : SuperBlock} {s : Machine} (hr : CommitReady sb s)
include hr

theorem home_outside {i : ℕ} (hi : i < s.log.header.numBlocks) : ¬ InLogArea sb (s.log.header.home i) :=
  hr.outside _ (home_mem hr.count hi)

theorem home_ne_slot (i j : ℕ) (hi : i < s.log.header.numBlocks) (hj : j < s.log.header.numBlocks) :
    s.log.header.home i ≠ logSlot sb j := by
  intro h
  exact hr.home_outside hi (h ▸ slot_inLogArea hr.room hj)

/-- **Writes of a commit.** They are `commitWrites`, cut short when `wblog` stops. -/
theorem issued_prefix : issued (commit sb) s <+: commitWrites sb s.log.header s.cache := by
  obtain ⟨ws, hw, hpre, hok⟩ := wblog_writes sb hr.count hr.nodup hr.present
  cases hwb : wblog sb s with
  | error e t =>
    -- wblog stops: nothing else is written
    have hc : commit sb s = .error e t := by simp [commit, hwb]
    have : issued (commit sb) s = ws := Wrote.issued_eq (by rw [hc]; rw [hwb] at hw; exact hw)
    rw [this]
    exact hpre.trans (List.prefix_append _ _)
  | ok u t =>
    obtain ⟨hws, hlog⟩ := hok t hwb
    rw [hwb, hws] at hw
    have hw : Wrote s (slotWrites sb s.log.header s.cache (List.range s.log.header.numBlocks)) t := hw
    obtain ⟨t3, hc3, hall, -⟩ := commit_run sb rfl hwb hlog hw hr.count hr.home_ne_slot
    have : issued (commit sb) s = commitWrites sb s.log.header s.cache := Wrote.issued_eq (by rw [hc3]; exact hall)
    rw [this]

end CommitReady

/-! ## What a power cut leaves -/

/-- the device after a cut in the commit from s and any number of cut recoveries; the flag tells whether the first
`write_header` had completed -/
inductive CrashState (sb : SuperBlock) (s : Machine) : Bool → (ℕ → BlockData) → Prop
  | cut (k : ℕ) (hk : k ≤ (issued (commit sb) s).length) :
    CrashState sb s (decide (s.log.header.numBlocks < k)) (applyWrites ((issued (commit sb) s).take k) s.dev.blocks)
  | again {b : Bool} {d : ℕ → BlockData} (k : ℕ) (h : CrashState sb s b d) :
    CrashState sb s b (applyWrites ((issued (restoreLog sb) (boot d)).take k) d)

/-- the on-disk count is 0 and the blocks off the log area are those of e -/
def Quiet (sb : SuperBlock) (e d : ℕ → BlockData) : Prop :=
  (decode (d sb.logStart.toNat)).numBlocks = 0 ∧ SameOutside (InLogArea sb) d e

/-- the log holds the batch: the header lists it, every slot has its content, nothing but listed blocks has changed -/
structure Logged (sb : SuperBlock) (s : Machine) (d : ℕ → BlockData) : Prop where
  header : d sb.logStart.toNat = encode s.log.header
  slots : ∀ i, i < s.log.header.numBlocks → d (logSlot sb i) = cachedData s.cache (s.log.header.home i)
  rest : ∀ x, ¬ InLogArea sb x → x ∉ s.log.header.listed → d x = s.dev.blocks x

/-- the contents after the commit -/
def committed (s : Machine) : ℕ → BlockData := applyWrites (homeWrites s.log.header s.cache) s.dev.blocks

/-- the writes that follow the first `write_header`, in the commit and in every recovery -/
def redo (sb : SuperBlock) (s : Machine) : List (ℕ × BlockData) :=
  homeWrites s.log.header s.cache ++ [(sb.logStart.toNat, encode s.log.header.cleared)]

theorem cleared_count (h : LogHeader) : (decode (encode h.cleared)).numBlocks = 0 := by
  rw [decode_count]
  rfl

variable {d e : ℕ → BlockData} {sb : SuperBlock} {w : ℕ × BlockData}

/-- a recovery that finds count 0 replays nothing and keeps the count -/
theorem Quiet.recover (hlog : InLogArea sb sb.logStart.toNat)
    (h : Quiet sb e d) (k : ℕ) :
    issued (restoreLog sb) (boot d) = recoverWrites sb d ∧ Quiet sb e (applyWrites ((recoverWrites sb d).take k) d) ∧
      ∃ m, initBcache sb d = .ok () m ∧ m.dev.blocks = applyWrites (recoverWrites sb d) d := by
  have hc : (decode (d sb.logStart.toNat)).numBlocks ≤ logMaxSize := by rw [h.1]; exact Nat.zero_le _
  have hout : ∀ i j, i < (decode (d sb.logStart.toNat)).numBlocks → j < (decode (d sb.logStart.toNat)).numBlocks →
      (decode (d sb.logStart.toNat)).home i ≠ logSlot sb j := by
    intro i j hi
    rw [h.1] at hi
    exact absurd hi (Nat.not_lt_zero i)
  have hone : recoverWrites sb d = [(sb.logStart.toNat, encode (decode (d sb.logStart.toNat)).cleared)] := by
    simp [recoverWrites, h.1, installWrites]
  refine ⟨recoverWrites_issued sb rfl hc hout, ?_, ?_⟩
  · rw [hone]
    cases k with
    | zero => simpa using h
    | succ k =>
      refine ⟨by simp [cleared_count], fun x hx => ?_⟩
      have hne : x ≠ sb.logStart.toNat := fun hxe => hx (hxe ▸ hlog)
      simp [update_of_ne hne, h.2 x hx]
  · obtain ⟨m, hm, hw⟩ := initBcache_run sb rfl hc hout
    exact ⟨m, hm, hw.2⟩

namespace CommitReady

variable {sb : SuperBlock} {s : Machine} (hr : CommitReady sb s)
include hr

theorem homeWrites_outside (hw : w ∈ homeWrites s.log.header s.cache) : ¬ InLogArea sb w.1 := by
  obtain ⟨i, hi, rfl⟩ := List.mem_map.1 hw
  exact hr.home_outside (List.mem_range.1 hi)

theorem homeWrites_listed (hw : w ∈ homeWrites s.log.header s.cache) :
    w.1 ∈ s.log.header.listed := by
  obtain ⟨i, hi, rfl⟩ := List.mem_map.1 hw
  exact home_mem hr.count (List.mem_range.1 hi)

theorem homeWrites_keys : (homeWrites s.log.header s.cache).map Prod.fst = s.log.header.listed := by
  rw [listed_eq_home hr.count]
  simp [homeWrites]

/-- installing part of the batch keeps the log -/
theorem logged_install (h : Logged sb s d) (j : ℕ) :
    Logged sb s (applyWrites ((homeWrites s.log.header s.cache).take j) d) := by
  have hkeep : ∀ x, InLogArea sb x → applyWrites ((homeWrites s.log.header s.cache).take j) d x = d x := by
    intro x hx
    apply applyWrites_of_notMem
    rintro w hw rfl
    exact hr.homeWrites_outside (List.mem_of_mem_take hw) hx
  refine ⟨?_, fun i hi => ?_, fun x hx hxl => ?_⟩
  · rw [hkeep _ (header_inLogArea hr.room)]; exact h.header
  · rw [hkeep _ (slot_inLogArea hr.room hi)]; exact h.slots i hi
  · rw [applyWrites_of_notMem]
    · exact h.rest x hx hxl
    · rintro w hw rfl
      exact hxl (hr.homeWrites_listed (List.mem_of_mem_take hw))

/-- installing the whole batch over a logged device gives the contents after the commit -/
theorem logged_committed (h : Logged sb s d) :
    SameOutside (InLogArea sb) (applyWrites (homeWrites s.log.header s.cache) d) (committed s) := by
  intro x hx
  apply applyWrites_congr
  by_cases hxl : x ∈ s.log.header.listed
  · left
    rw [← hr.homeWrites_keys] at hxl
    obtain ⟨w, hw, hwx⟩ := List.mem_map.1 hxl
    exact ⟨w, hw, hwx⟩
  · exact Or.inr (h.rest x hx hxl)

/-- **Redo from any point.** A prefix of the redo writes leaves the batch logged, or installed and the log cleared. -/
theorem redo_prefix (h : Logged sb s d) (j : ℕ) :
    Logged sb s (applyWrites ((redo sb s).take j) d) ∨
      Quiet sb (committed s) (applyWrites ((redo sb s).take j) d) := by
  unfold redo
  by_cases hj : j ≤ (homeWrites s.log.header s.cache).length
  · left
    rw [List.take_append_of_le_length hj]
    exact hr.logged_install h j
  · right
    rw [List.take_of_length_le (by simp; omega), applyWrites_append]
    refine ⟨by simp [cleared_count], fun x hx => ?_⟩
    have hne : x ≠ sb.logStart.toNat := fun hxe => hx (hxe ▸ header_inLogArea hr.room)
    simp only [applyWrites_cons, applyWrites_nil, update_of_ne hne]
    exact hr.logged_committed h x hx

theorem redo_all (h : Logged sb s d) : Quiet sb (committed s) (applyWrites (redo sb s) d) := by
  refine ⟨by simp [redo, applyWrites_append, cleared_count], fun x hx => ?_⟩
  have hne : x ≠ sb.logStart.toNat := fun hxe => hx (hxe ▸ header_inLogArea hr.room)
  simp only [redo, applyWrites_append, applyWrites_cons, applyWrites_nil, update_of_ne hne]
  exact hr.logged_committed h x hx

/-- a recovery from a logged device issues the redo writes -/
theorem logged_recover (h : Logged sb s d) :
    issued (restoreLog sb) (boot d) = redo sb s ∧
      ∃ m, initBcache sb d = .ok () m ∧ m.dev.blocks = applyWrites (redo sb s) d := by
  have hd : decode (d sb.logStart.toNat) = s.log.header := by rw [h.header]; exact decode_encode hr.fits
  have hwr : recoverWrites sb d = redo sb s := by
    have : installWrites sb s.log.header d (List.range s.log.header.numBlocks) = homeWrites s.log.header s.cache := by
      apply List.map_congr_left
      intro i hi
      rw [h.slots i (List.mem_range.1 hi)]
    simp [recoverWrites, hd, redo, this]
  obtain ⟨m, hm, hw⟩ := initBcache_run sb hd hr.count hr.home_ne_slot
  rw [hwr] at hw
  exact ⟨(recoverWrites_issued sb hd hr.count hr.home_ne_slot).trans hwr, m, hm, hw.2⟩

theorem slotWrites_inLogArea
    (hw : w ∈ slotWrites sb s.log.header s.cache (List.range s.log.header.numBlocks)) :
    InLogArea sb w.1 ∧ w.1 ≠ sb.logStart.toNat := by
  obtain ⟨i, hi, rfl⟩ := List.mem_map.1 hw
  refine ⟨slot_inLogArea hr.room (List.mem_range.1 hi), ?_⟩
  simp only [logSlot]
  omega

/-- a cut before the first `write_header` -/
theorem cut_early (k : ℕ) : Quiet sb s.dev.blocks (applyWrites
    ((slotWrites sb s.log.header s.cache (List.range s.log.header.numBlocks)).take k) s.dev.blocks) := by
  refine ⟨?_, sameOutside_applyWrites _ fun w hw => (hr.slotWrites_inLogArea (List.mem_of_mem_take hw)).1⟩
  rw [applyWrites_of_notMem _ fun w hw => (hr.slotWrites_inLogArea (List.mem_of_mem_take hw)).2]
  exact hr.clean

/-- the device right after the first `write_header` -/
theorem logged_start : Logged sb s (update (applyWrites
    (slotWrites sb s.log.header s.cache (List.range s.log.header.numBlocks)) s.dev.blocks)
      sb.logStart.toNat (encode s.log.header)) := by
  refine ⟨by simp, fun i hi => ?_, fun x hx hxl => ?_⟩
  · have hne : logSlot sb i ≠ sb.logStart.toNat := by unfold logSlot; omega
    rw [update_of_ne hne]
    exact slot_content sb _ _ hi _
  · have hne : x ≠ sb.logStart.toNat := fun hxe => hx (hxe ▸ header_inLogArea hr.room)
    rw [update_of_ne hne, applyWrites_of_notMem]
    rintro w hw rfl
    exact hx (hr.slotWrites_inLogArea hw).1

/-- **Crash invariant.** Before the header write nothing outside the log has changed; after it the batch is logged or
installed. -/
theorem crashState_inv {b : Bool} (h : CrashState sb s b d) :
    (b = false ∧ Quiet sb s.dev.blocks d) ∨ (b = true ∧ (Logged sb s d ∨ Quiet sb (committed s) d)) := by
  induction h with
  | cut k hk =>
    have htake : (issued (commit sb) s).take k = (commitWrites sb s.log.header s.cache).take k := by
      obtain ⟨r, hrest⟩ := hr.issued_prefix
      rw [← hrest, List.take_append_of_le_length hk]
    rw [htake, commitWrites]
    have hlen : (slotWrites sb s.log.header s.cache (List.range s.log.header.numBlocks)).length =
        s.log.header.numBlocks := by simp [slotWrites]
    by_cases hkn : k ≤ s.log.header.numBlocks
    · left
      refine ⟨by simp [hkn], ?_⟩
      rw [List.take_append_of_le_length (by omega)]
      exact hr.cut_early k
    · right
      refine ⟨by simp; omega, ?_⟩
      obtain ⟨j, rfl⟩ : ∃ j, k = s.log.header.numBlocks + (j + 1) := ⟨k - s.log.header.numBlocks - 1, by omega⟩
      rw [List.take_append, hlen, List.take_of_length_le (by omega), Nat.add_sub_cancel_left, List.take_succ_cons,
        applyWrites_append]
      exact hr.redo_prefix hr.logged_start j
  | again k _ ih =>
    have hlog := header_inLogArea hr.room
    rcases ih with ⟨hb, hq⟩ | ⟨hb, hl | hq⟩
    · obtain ⟨hi, hq', -⟩ := hq.recover hlog k
      rw [hi]
      exact Or.inl ⟨hb, hq'⟩
    · rw [(hr.logged_recover hl).1]
      exact Or.inr ⟨hb, hr.redo_prefix hl k⟩
    · obtain ⟨hi, hq', -⟩ := hq.recover hlog k
      rw [hi]
      exact Or.inr ⟨hb, Or.inr hq'⟩

end CommitReady

theorem Quiet.recovered (hlog : InLogArea sb sb.logStart.toNat)
    (h : Quiet sb e d) : ∃ m, initBcache sb d = .ok () m ∧ Quiet sb e m.dev.blocks := by
  obtain ⟨-, hq, m, hm, hdev⟩ := h.recover hlog (recoverWrites sb d).length
  rw [List.take_length] at hq
  exact ⟨m, hm, by rw [hdev]; exact hq⟩

/-- **Crash atomicity.** After a cut anywhere in a commit and any number of cut recoveries, `init_bcache` completes with
on-disk count 0. The blocks off the log area are those from before the commit, or every listed block has its cached
content and every other block is unchanged; the latter whenever the first `write_header` had completed. -/
theorem commit_crash_atomic (sb : SuperBlock) (s : Machine) (hr : CommitReady sb s) (b : Bool) (d : ℕ → BlockData)
    (h : CrashState sb s b d) :
    ∃ m, initBcache sb d = .ok () m ∧ (decode (m.dev.blocks sb.logStart.toNat)).numBlocks = 0 ∧
      ((b = false ∧ ∀ x, ¬ InLogArea sb x → m.dev.blocks x = s.dev.blocks x) ∨
        ((∀ n ∈ s.log.header.listed, ∀ a, findCache s.cache n = some a → m.dev.blocks n = (s.cache.heap a).data) ∧
          ∀ x, ¬ InLogArea sb x → x ∉ s.log.header.listed → m.dev.blocks x = s.dev.blocks x)) := by
  have hnew : ∀ m : Machine, Quiet sb (committed s) m.dev.blocks →
      (∀ n ∈ s.log.header.listed, ∀ a, findCache s.cache n = some a → m.dev.blocks n = (s.cache.heap a).data) ∧
        ∀ x, ¬ InLogArea sb x → x ∉ s.log.header.listed → m.dev.blocks x = s.dev.blocks x := by
    intro m hm
    refine ⟨fun n hn a ha => ?_, fun x hx hxl => ?_⟩
    · rw [hm.2 n (hr.outside n hn), committed]
      apply applyWrites_of_mem _ (by rw [hr.homeWrites_keys]; exact hr.nodup)
      rw [listed_eq_home hr.count] at hn
      obtain ⟨i, hi, rfl⟩ := List.mem_map.1 hn
      exact List.mem_map.2 ⟨i, hi, by simp [cachedData, ha]⟩
    · rw [hm.2 x hx, committed, applyWrites_of_notMem]
      rintro w hw rfl
      exact hxl (hr.homeWrites_listed hw)
  have hlog := header_inLogArea hr.room
  rcases hr.crashState_inv h with ⟨hb, hq⟩ | ⟨-, hl | hq⟩
  · obtain ⟨m, hm, hqm⟩ := hq.recovered hlog
    exact ⟨m, hm, hqm.1, Or.inl ⟨hb, hqm.2⟩⟩
  · obtain ⟨-, m, hm, hdev⟩ := hr.logged_recover hl
    have hqm : Quiet sb (committed s) m.dev.blocks := by rw [hdev]; exact hr.redo_all hl
    exact ⟨m, hm, hqm.1, Or.inr (hnew m hqm)⟩
  · obtain ⟨m, hm, hqm⟩ := hq.recovered hlog
    exact ⟨m, hm, hqm.1, Or.inr (hnew m hqm)⟩

/-- a batch of one block: 100 is cached, pinned and listed, the device is all zeros -/
def oneBlockBatch : Machine where
  dev := ⟨fun _ => zeros, []⟩
  cache := ⟨fun _ => { initBlock with blockNo := 100, pinned := true, valid := true, data := fun _ => 1 }, [7], 1⟩
  log := ⟨⟨1, fun _ => 100⟩, 0, 0, true⟩
  rm := fun _ => 0

theorem commitReady_oneBlockBatch : CommitReady mkfsSuperBlock oneBlockBatch := by
  have hl : oneBlockBatch.log.header.listed = [100] := by decide
  refine ⟨by decide, ⟨by decide, fun _ => by simp [oneBlockBatch]⟩, by rw [hl]; decide, ?_, by decide, getLE_zeros 0 8, ?_⟩
  · intro n hn
    rw [hl, List.mem_singleton] at hn
    simp [hn, InLogArea, mkfsSuperBlock]
  · intro n hn
    rw [hl, List.mem_singleton] at hn
    exact ⟨7, by simp [hn, findCache, oneBlockBatch]⟩

/-- power fails right after the first `write_header`, and again before recovery has written anything: the next
`init_bcache` brings block 100 to its cached content -/
theorem commit_crash_atomic_oneBlockBatch :
    ∃ d m, CrashState mkfsSuperBlock oneBlockBatch true d ∧ initBcache mkfsSuperBlock d = .ok () m ∧
      m.dev.blocks 100 = fun _ => 1 := by
  have hcut : CrashState mkfsSuperBlock oneBlockBatch true _ := CrashState.cut 2 (by decide)
  have hagain := CrashState.again 0 hcut
  obtain ⟨m, hm, -, h | ⟨hnew, -⟩⟩ := commit_crash_atomic _ _ commitReady_oneBlockBatch true _ hagain
  · exact absurd h.1 (by decide)
  · exact ⟨_, m, hagain, hm, hnew 100 (by decide) 7 (by simp [findCache, oneBlockBatch])⟩

end OsKernel.Fs
