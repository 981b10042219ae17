/-
What a commit (`wblog`, `write_header`, `create_checkpoint`) and a recovery (`init_bcache`) write to the device.

Each function gets one lemma that says which writes it issues and what it leaves alone; nothing later unfolds them.
- `wblogLoop`: `wblog` issues a prefix of the slot writes, all of them when it returns (it may sleep on a held block);
- `createCheckpoint_run`: the checkpoint copies every slot home and clears the count;
- `commit_run`: once `wblog` has returned, the whole commit issues `commitWrites`;
- `initBcache_run`: a recovery installs what the on-disk header lists and clears the header.
-/
import OsKernel.Lib.Writes
import OsKernel.Fs.Cache

namespace OsKernel.Fs

open OsKernel.Bytes OsKernel.Sem OsKernel.Writes

/-! ## Writes issued by a kernel function -/

/-- the device writes x issues from s, whether it returns or stops -/
def issued (x : Kernel Unit) (s : Machine) : List (ℕ × BlockData) :=
  (finalState (x s)).dev.writes.drop s.dev.writes.length

/-- t's device is s's device after the writes ws -/
def Wrote (s : Machine) (ws : List (ℕ × BlockData)) (t : Machine) : Prop :=
  t.dev.writes = s.dev.writes ++ ws ∧ t.dev.blocks = applyWrites ws s.dev.blocks

variable {s t u : Machine} {ws : List (ℕ × BlockData)} {a i n : ℕ} {h : LogHeader} {c : Cache} {is : List ℕ}
  {sb : SuperBlock} {d : ℕ → BlockData}

theorem Wrote.refl (h : t.dev = s.dev) : Wrote s [] t := by simp [Wrote, h]

theorem Wrote.trans {vs : List (ℕ × BlockData)} (h : Wrote s ws t) (h' : Wrote t vs u) :
    Wrote s (ws ++ vs) u := by
  refine ⟨?_, ?_⟩
  · rw [h'.1, h.1, List.append_assoc]
  · rw [h'.2, h.2, applyWrites_append]

theorem Wrote.one {x : BlockData} (h : t.dev = s.dev.write n x) : Wrote s [(n, x)] t := by
  simp [Wrote, h, Device.write]

theorem Wrote.issued_eq {x : Kernel Unit}
    (h : Wrote s ws (finalState (x s))) : issued x s = ws := by
  simp [issued, h.1]

/-! ## wblog -/

/-- `header.block_no[i]` for an index inside the array -/
def LogHeader.home (h : LogHeader) (i : ℕ) : ℕ := (h.entry i).getD 0

theorem listed_eq_home (hc : h.numBlocks ≤ logMaxSize) :
    h.listed = (List.range h.numBlocks).map h.home := listed_eq hc

theorem home_mem (hc : h.numBlocks ≤ logMaxSize) (hi : i < h.numBlocks) :
    h.home i ∈ h.listed := by
  rw [listed_eq_home hc]
  exact List.mem_map_of_mem (List.mem_range.2 hi)

/-- the cached content of block n -/
def cachedData (c : Cache) (n : ℕ) : BlockData :=
  match findCache c n with
  | some a => (c.heap a).data
  | none => zeros

/-- what a pass over slot i leaves alone: the log, every content, and which block is found for another number -/
structure SlotDone (n : ℕ) (s t : Machine) : Prop where
  log : t.log = s.log
  data : ∀ x, (t.cache.heap x).data = (s.cache.heap x).data
  find : ∀ m, m ≠ n → findCache t.cache m = findCache s.cache m

theorem SlotDone.cached_eq {m : ℕ} (h : SlotDone n s t) (hm : m ≠ n) :
    cachedData t.cache m = cachedData s.cache m := by
  unfold cachedData
  rw [h.find m hm]
  cases findCache s.cache m with
  | none => rfl
  | some a => exact h.data a

theorem takeBlock_data (a : ℕ) (c : Cache) (x : ℕ) : ((takeBlock a c).heap x).data = (c.heap x).data :=
  update_field Block.data c a Block.take (fun _ => rfl) x

theorem takeBlock_blockNo (a : ℕ) (c : Cache) (x : ℕ) : ((takeBlock a c).heap x).blockNo = (c.heap x).blockNo :=
  update_field Block.blockNo c a Block.take (fun _ => rfl) x

theorem findCache_update (c : Cache) (a : ℕ) (f : Block → Block) (hf : ∀ b, (f b).blockNo = b.blockNo) (n : ℕ) :
    findCache (c.update a f) n = findCache c n :=
  findCache_congr (update_list c a f) (update_field Block.blockNo c a f hf) n

theorem findCache_takeBlock (h : (c.heap a).blockNo ≠ n) :
    findCache (takeBlock a c) n = findCache c n := by
  unfold takeBlock
  rw [findCache_recentlyUsed (by simpa [Block.take] using h)]
  exact findCache_update c a Block.take (fun _ => rfl) n

theorem cacheRelease_cases (s : Machine) (a : ℕ) :
    cacheRelease a s = .error .panic s ∨
    ∃ w l, postSem (s.cache.heap a).lock = some (w, l) ∧ (s.cache.heap a).acquired = true ∧
      cacheRelease a s = .ok () { s with cache := s.cache.update a (Block.release l) } := by
  cases hacq : (s.cache.heap a).acquired with
  | false => left; simp [cacheRelease, hacq]
  | true =>
    cases hp : postSem (s.cache.heap a).lock with
    | none => left; simp [cacheRelease, hacq, releaseRegion, hp]
    | some r =>
      obtain ⟨w, l⟩ := r
      right
      exact ⟨w, l, rfl, rfl, by simp [cacheRelease, hacq, releaseRegion, hp]⟩

theorem wblogBody_hit (sb : SuperBlock) (he : s.log.header.entry i = some n)
    (hf : findCache s.cache n = some a) (ha : (s.cache.heap a).acquired = false) :
    wblogBody sb i s = cacheRelease a
      { s with dev := s.dev.write (logSlot sb i) (s.cache.heap a).data
               cache := (takeBlock a s.cache).update a (Block.pin false) } := by
  simp [wblogBody, headerEntry, he, cacheAcquire, acquireRegion, hf, ha, deviceWrite, takeBlock_data]

/-- one turn of `wblog`: it may stop before or after the slot is written; when it does not, the slot is done -/
theorem wblogBody_cases (sb : SuperBlock) (he : s.log.header.entry i = some n)
    (hf : findCache s.cache n = some a) :
    (∃ e t, wblogBody sb i s = .error e t ∧
      (t.dev = s.dev ∨ t.dev = s.dev.write (logSlot sb i) (s.cache.heap a).data)) ∨
    ∃ t, wblogBody sb i s = .ok () t ∧ t.dev = s.dev.write (logSlot sb i) (s.cache.heap a).data ∧ SlotDone n s t := by
  have hn := (findCache_some hf).2
  cases ha : (s.cache.heap a).acquired with
  | true =>
    refine Or.inl ⟨.sleep, s, ?_, Or.inl rfl⟩
    simp [wblogBody, headerEntry, he, cacheAcquire, acquireRegion, hf, ha]
  | false =>
    rw [wblogBody_hit sb he hf ha]
    rcases cacheRelease_cases _ a with h | ⟨w, l, -, -, h⟩
    · exact Or.inl ⟨.panic, _, h, Or.inr rfl⟩
    · refine Or.inr ⟨_, h, rfl, rfl, fun x => ?_, fun m hm => ?_⟩
      · rw [update_field Block.data _ a (Block.release l) (fun _ => rfl),
          update_field Block.data _ a (Block.pin false) (fun _ => rfl), takeBlock_data]
      · have hne : (s.cache.heap a).blockNo ≠ m := by rw [hn]; exact hm.symm
        exact (findCache_update _ a (Block.release l) (fun _ => rfl) m).trans
          ((findCache_update _ a (Block.pin false) (fun _ => rfl) m).trans (findCache_takeBlock hne))

/-- the writes of `wblog` over the slots `is`: slot i gets the cached content of the block it is for -/
def slotWrites (sb : SuperBlock) (h : LogHeader) (c : Cache) (is : List ℕ) : List (ℕ × BlockData) :=
  is.map fun i => (logSlot sb i, cachedData c (h.home i))

theorem home_eq (he : h.entry i = some n) : h.home i = n := by simp [LogHeader.home, he]

theorem slotWrites_congr (sb : SuperBlock) (h : LogHeader) {c' : Cache}
    (hc : ∀ i ∈ is, cachedData c' (h.home i) = cachedData c (h.home i)) : slotWrites sb h c' is = slotWrites sb h c is := by
  apply List.map_congr_left
  intro i hi
  rw [hc i hi]

/-- `wblog` issues a prefix of the slot writes, and all of them when it returns -/
theorem wblogLoop (sb : SuperBlock) (h : LogHeader) (is : List ℕ) (s : Machine) (hh : s.log.header = h)
    (hr : ∀ i ∈ is, ∃ n a, h.entry i = some n ∧ findCache s.cache n = some a) (hnd : (is.map h.home).Nodup) :
    ∃ ws, Wrote s ws (finalState (is.forM (wblogBody sb) s)) ∧ ws <+: slotWrites sb h s.cache is ∧
      ∀ t, is.forM (wblogBody sb) s = .ok () t → ws = slotWrites sb h s.cache is ∧ t.log = s.log := by
  induction is generalizing s with
  | nil =>
    refine ⟨[], Wrote.refl rfl, List.nil_prefix, fun t ht => ⟨rfl, ?_⟩⟩
    have : t = s := by simpa using ht.symm
    rw [this]
  | cons i is ih =>
    obtain ⟨n, a, he, hf⟩ := hr i List.mem_cons_self
    simp only [List.map_cons, List.nodup_cons, home_eq he] at hnd
    have hca : cachedData s.cache (h.home i) = (s.cache.heap a).data := by simp [cachedData, home_eq he, hf]
    have hall : slotWrites sb h s.cache (i :: is) =
        (logSlot sb i, (s.cache.heap a).data) :: slotWrites sb h s.cache is := by simp [slotWrites, hca]
    rw [hall]
    rw [← hh] at he
    rcases wblogBody_cases sb he hf with ⟨e, t, hrun, hdev⟩ | ⟨t, hrun, hdev, hdone⟩
    · have hfin : (i :: is).forM (wblogBody sb) s = .error e t := forM_cons_error is hrun
      rw [hfin]
      rcases hdev with hdev | hdev
      · exact ⟨[], Wrote.refl hdev, List.nil_prefix, fun t ht => by simp at ht⟩
      · exact ⟨_, Wrote.one hdev, by simp, fun t ht => by simp at ht⟩
    · have hfin : (i :: is).forM (wblogBody sb) s = is.forM (wblogBody sb) t := forM_cons_ok is hrun
      have hne : ∀ j ∈ is, h.home j ≠ n := fun j hj hjn => hnd.1 (List.mem_map.2 ⟨j, hj, hjn⟩)
      have hrt : ∀ j ∈ is, ∃ m b, h.entry j = some m ∧ findCache t.cache m = some b := by
        intro j hj
        obtain ⟨m, b, hm, hb⟩ := hr j (List.mem_cons_of_mem i hj)
        refine ⟨m, b, hm, ?_⟩
        rw [hdone.find m (by rw [← home_eq hm]; exact hne j hj), hb]
      obtain ⟨ws, hw, hpre, hok⟩ := ih t (by rw [hdone.log, hh]) hrt hnd.2
      have hsame : slotWrites sb h t.cache is = slotWrites sb h s.cache is :=
        slotWrites_congr sb h fun j hj => hdone.cached_eq (hne j hj)
      rw [hsame] at hpre hok
      rw [hfin]
      refine ⟨(logSlot sb i, (s.cache.heap a).data) :: ws, ?_, ?_, fun u hu => ?_⟩
      · exact Wrote.trans (Wrote.one hdev) hw
      · exact List.cons_prefix_cons.2 ⟨rfl, hpre⟩
      · obtain ⟨h1, h2⟩ := hok u hu
        exact ⟨by rw [h1], h2.trans hdone.log⟩

/-- `wblog` over a header all of whose blocks are cached -/
theorem wblog_writes (sb : SuperBlock) (hc : s.log.header.numBlocks ≤ logMaxSize)
    (hnd : s.log.header.listed.Nodup) (hp : ∀ n ∈ s.log.header.listed, ∃ a, findCache s.cache n = some a) :
    ∃ ws, Wrote s ws (finalState (wblog sb s)) ∧
      ws <+: slotWrites sb s.log.header s.cache (List.range s.log.header.numBlocks) ∧
      ∀ t, wblog sb s = .ok () t →
        ws = slotWrites sb s.log.header s.cache (List.range s.log.header.numBlocks) ∧ t.log = s.log := by
  have hrun : wblog sb s = (List.range s.log.header.numBlocks).forM (wblogBody sb) s := by simp [wblog]
  rw [listed_eq_home hc] at hnd
  rw [hrun]
  refine wblogLoop sb s.log.header _ s rfl (fun i hi => ?_) hnd
  have hi := List.mem_range.1 hi
  have he := entry_of_lt s.log.header (lt_of_lt_of_le hi hc)
  obtain ⟨a, ha⟩ := hp _ (home_mem hc hi)
  rw [home_eq he] at ha
  exact ⟨_, a, he, ha⟩

/-! ## create_checkpoint -/

/-- the writes of `create_checkpoint`: each listed block gets what its slot holds on the device d -/
def installWrites (sb : SuperBlock) (h : LogHeader) (d : ℕ → BlockData) (is : List ℕ) : List (ℕ × BlockData) :=
  is.map fun i => (h.home i, d (logSlot sb i))

theorem checkpointLoop (sb : SuperBlock) (h : LogHeader) (is : List ℕ) (s : Machine) (hh : s.log.header = h)
    (hlt : ∀ i ∈ is, i < logMaxSize) (hout : ∀ i ∈ is, ∀ j ∈ is, h.home i ≠ logSlot sb j) :
    ∃ t, is.forM (checkpointBody sb) s = .ok () t ∧ Wrote s (installWrites sb h s.dev.blocks is) t ∧
      t = { s with dev := t.dev } := by
  induction is generalizing s with
  | nil => exact ⟨s, by simp, Wrote.refl rfl, rfl⟩
  | cons i is ih =>
    have he := entry_of_lt h (hlt i List.mem_cons_self)
    have hhome := home_eq he
    have hrun : checkpointBody sb i s =
        .ok () { s with dev := s.dev.write (h.home i) (s.dev.blocks (logSlot sb i)) } := by
      simp [checkpointBody, headerEntry, hh, he, hhome, deviceWrite]
    obtain ⟨t, ht, hw, hfr⟩ := ih { s with dev := s.dev.write (h.home i) (s.dev.blocks (logSlot sb i)) } hh
      (fun j hj => hlt j (List.mem_cons_of_mem i hj))
      (fun j hj k hk => hout j (List.mem_cons_of_mem i hj) k (List.mem_cons_of_mem i hk))
    refine ⟨t, (forM_cons_ok is hrun).trans ht, ?_, by rw [hfr]⟩
    -- the slots still to be read are not the block just written
    have hsame : installWrites sb h (s.dev.write (h.home i) (s.dev.blocks (logSlot sb i))).blocks is =
        installWrites sb h s.dev.blocks is := by
      apply List.map_congr_left
      intro j hj
      have hne := hout i List.mem_cons_self j (List.mem_cons_of_mem i hj)
      simp [Device.write, Function.update_of_ne hne.symm]
    simp only [hsame] at hw
    exact Wrote.trans (Wrote.one rfl) hw

/-- the header `create_checkpoint` leaves behind: the same entries, none of them counted -/
def LogHeader.cleared (h : LogHeader) : LogHeader := { h with numBlocks := 0 }

theorem createCheckpoint_run (sb : SuperBlock) (hh : s.log.header = h)
    (hc : h.numBlocks ≤ logMaxSize) (hout : ∀ i j, i < h.numBlocks → j < h.numBlocks → h.home i ≠ logSlot sb j) :
    ∃ t, createCheckpoint sb s = .ok () t ∧ Wrote s (installWrites sb h s.dev.blocks (List.range h.numBlocks)) t ∧
      t = { s with dev := t.dev, log := { s.log with header := h.cleared } } := by
  obtain ⟨t, ht, hw, hfr⟩ := checkpointLoop sb h (List.range h.numBlocks) s hh
    (fun i hi => lt_of_lt_of_le (List.mem_range.1 hi) hc)
    (fun i hi j hj => hout i j (List.mem_range.1 hi) (List.mem_range.1 hj))
  refine ⟨{ t with log := { t.log with header := h.cleared } }, ?_, hw, by rw [hfr]⟩
  have hth : t.log.header = h := by rw [hfr]; exact hh
  have ht' : forM (List.range h.numBlocks) (checkpointBody sb) s = .ok ⟨⟩ t := by simpa using ht
  simp [createCheckpoint, hh, ht', hth, LogHeader.cleared]

/-! ## The whole commit -/

/-- the writes that bring the listed blocks to their cached contents -/
def homeWrites (h : LogHeader) (c : Cache) : List (ℕ × BlockData) :=
  (List.range h.numBlocks).map fun i => (h.home i, cachedData c (h.home i))

/-- all writes of a commit that nobody stops -/
def commitWrites (sb : SuperBlock) (h : LogHeader) (c : Cache) : List (ℕ × BlockData) :=
  slotWrites sb h c (List.range h.numBlocks) ++ ((sb.logStart.toNat, encode h) ::
    (homeWrites h c ++ [(sb.logStart.toNat, encode h.cleared)]))

/-- the slots hold the cached contents once they have all been written -/
theorem slot_content (sb : SuperBlock) (h : LogHeader) (c : Cache) (hi : i < h.numBlocks) (d : ℕ → BlockData) :
    applyWrites (slotWrites sb h c (List.range h.numBlocks)) d (logSlot sb i) = cachedData c (h.home i) := by
  apply applyWrites_of_mem
  · simp only [slotWrites, List.map_map]
    refine List.Nodup.map ?_ List.nodup_range
    intro x y hxy
    simp only [Function.comp, logSlot] at hxy
    omega
  · exact List.mem_map.2 ⟨i, List.mem_range.2 hi, rfl⟩

/-- once `wblog` has returned, the rest of the commit runs to its end -/
theorem commit_run (sb : SuperBlock) (hh : s.log.header = h)
    (hwb : wblog sb s = .ok () t) (hlog : t.log = s.log)
    (hw : Wrote s (slotWrites sb h s.cache (List.range h.numBlocks)) t) (hc : h.numBlocks ≤ logMaxSize)
    (hout : ∀ i j, i < h.numBlocks → j < h.numBlocks → h.home i ≠ logSlot sb j) :
    ∃ u, commit sb s = .ok () u ∧ Wrote s (commitWrites sb h s.cache) u ∧
      u = { t with dev := u.dev, log := { s.log with header := h.cleared, committing := false } } := by
  have hth : t.log.header = h := by rw [hlog, hh]
  -- t1: the header is written; t2: the listed blocks are installed
  set t1 : Machine := { t with dev := t.dev.write sb.logStart.toNat (encode h) } with ht1
  obtain ⟨t2, ht2, hw2, hfr⟩ := createCheckpoint_run sb (s := t1) hth hc hout
  have ht2h : t2.log.header = h.cleared := by rw [hfr]
  have hinst : installWrites sb h t1.dev.blocks (List.range h.numBlocks) = homeWrites h s.cache := by
    apply List.map_congr_left
    intro i hi
    have hi := List.mem_range.1 hi
    have hne : logSlot sb i ≠ sb.logStart.toNat := by unfold logSlot; omega
    simp only [ht1, Device.write, Function.update_of_ne hne, hw.2, slot_content sb h s.cache hi]
  rw [hinst] at hw2
  have hrun : commit sb s = .ok () { t2 with
      dev := t2.dev.write sb.logStart.toNat (encode h.cleared), log := { t2.log with committing := false } } := by
    have hw1 : writeHeader sb t = .ok ⟨⟩ t1 := by simp [writeHeader, deviceWrite, hth, ht1]
    have hw3 : writeHeader sb t2 = .ok ⟨⟩ { t2 with dev := t2.dev.write sb.logStart.toNat (encode h.cleared) } := by
      simp [writeHeader, deviceWrite, ht2h]
    simp [commit, hwb, hw1, ht2, hw3]
  refine ⟨_, hrun, ?_, ?_⟩
  · have h1 : Wrote t [(sb.logStart.toNat, encode h)] t1 := Wrote.one rfl
    exact hw.trans (h1.trans (hw2.trans (Wrote.one rfl)))
  · rw [hfr, ht1]
    simp [hlog]

/-- a commit that returns has come through `wblog` and has issued all its writes -/
theorem commit_ok (sb : SuperBlock) (hc : s.log.header.numBlocks ≤ logMaxSize)
    (hnd : s.log.header.listed.Nodup) (hp : ∀ n ∈ s.log.header.listed, ∃ a, findCache s.cache n = some a)
    (hout : ∀ i j, i < s.log.header.numBlocks → j < s.log.header.numBlocks → s.log.header.home i ≠ logSlot sb j)
    (h : commit sb s = .ok () u) :
    ∃ t, wblog sb s = .ok () t ∧ Wrote s (commitWrites sb s.log.header s.cache) u ∧
      u = { t with dev := u.dev, log := { s.log with header := s.log.header.cleared, committing := false } } := by
  obtain ⟨ws, hw, -, hok⟩ := wblog_writes sb hc hnd hp
  cases hwb : wblog sb s with
  | error e t => simp [commit, hwb] at h
  | ok x t =>
    obtain ⟨rfl, hlog⟩ := hok t hwb
    rw [hwb] at hw
    obtain ⟨u', hu', hall, hfr⟩ := commit_run sb rfl hwb hlog hw hc hout
    rw [hu'] at h
    cases h
    exact ⟨t, rfl, hall, hfr⟩

/-- off the log area a commit leaves the listed blocks with their cached contents and the rest as it was -/
theorem commitWrites_outside (c : Cache) (hc : h.numBlocks ≤ logMaxSize)
    (hnd : h.listed.Nodup) (hroom : h.numBlocks + 1 ≤ sb.numLogBlocks.toNat) (d : ℕ → BlockData) {x : ℕ}
    (hx : ¬ InLogArea sb x) :
    applyWrites (commitWrites sb h c) d x = if x ∈ h.listed then cachedData c x else d x := by
  have hslots : applyWrites (slotWrites sb h c (List.range h.numBlocks)) d x = d x := by
    apply applyWrites_of_notMem
    intro w hw hwx
    obtain ⟨i, hi, rfl⟩ := List.mem_map.1 hw
    exact hx (hwx ▸ slot_inLogArea hroom (List.mem_range.1 hi))
  have hne : x ≠ sb.logStart.toNat := fun hxe => hx (hxe ▸ header_inLogArea hroom)
  have hkeys : (homeWrites h c).map Prod.fst = h.listed := by rw [listed_eq_home hc]; simp [homeWrites]
  simp only [commitWrites, applyWrites_append, applyWrites_cons, applyWrites_nil, Function.update_of_ne hne]
  split_ifs with hxl
  · rw [listed_eq_home hc] at hxl
    obtain ⟨i, hi, rfl⟩ := List.mem_map.1 hxl
    exact applyWrites_of_mem _ (hkeys ▸ hnd) (List.mem_map.2 ⟨i, hi, rfl⟩)
  · rw [applyWrites_of_notMem _ fun w hw hwx => hxl (hkeys ▸ List.mem_map.2 ⟨w, hw, hwx⟩),
      Function.update_of_ne hne, hslots]

/-! ## Recovery -/

/-- the writes of a recovery from the device d -/
def recoverWrites (sb : SuperBlock) (d : ℕ → BlockData) : List (ℕ × BlockData) :=
  installWrites sb (decode (d sb.logStart.toNat)) d (List.range (decode (d sb.logStart.toNat)).numBlocks) ++
    [(sb.logStart.toNat, encode (decode (d sb.logStart.toNat)).cleared)]

theorem initBcache_run (sb : SuperBlock) (hd : decode (d sb.logStart.toNat) = h)
    (hc : h.numBlocks ≤ logMaxSize) (hout : ∀ i j, i < h.numBlocks → j < h.numBlocks → h.home i ≠ logSlot sb j) :
    ∃ m, initBcache sb d = .ok () m ∧ Wrote (boot d) (recoverWrites sb d) m := by
  obtain ⟨t, ht, hw, hfr⟩ := createCheckpoint_run sb
    (s := { boot d with log := { (boot d).log with header := h } }) rfl hc hout
  have hth : t.log.header = h.cleared := by rw [hfr]
  refine ⟨{ t with dev := t.dev.write sb.logStart.toNat (encode h.cleared) }, ?_, ?_⟩
  · have hread : readHeader sb (boot d) = .ok ⟨⟩ { boot d with log := { (boot d).log with header := h } } := by
      simp [readHeader, boot, hd]
    simp [initBcache, restoreLog, hread, ht, writeHeader, deviceWrite, hth]
  · have : recoverWrites sb d = installWrites sb h d (List.range h.numBlocks) ++
        [(sb.logStart.toNat, encode h.cleared)] := by simp [recoverWrites, hd]
    rw [this]
    exact Wrote.trans hw (Wrote.one rfl)

theorem checkpointLoop_frame
    (h : is.forM (checkpointBody sb) s = .ok () t) : t = { s with dev := t.dev } := by
  induction is generalizing s with
  | nil =>
    have hts : t = s := by simpa using h.symm
    rw [hts]
  | cons i is ih =>
    cases he : s.log.header.entry i with
    | none =>
      have hb : checkpointBody sb i s = .error .wild s := by simp [checkpointBody, headerEntry, he]
      rw [forM_cons_error is hb] at h
      cases h
    | some n =>
      have hb : checkpointBody sb i s = .ok () { s with dev := s.dev.write n (s.dev.blocks (logSlot sb i)) } := by
        simp [checkpointBody, headerEntry, he, deviceWrite]
      rw [forM_cons_ok is hb] at h
      rw [ih h]

/-- a recovery that returns leaves an empty cache, an idle log and an on-disk count of 0 -/
theorem initBcache_ok {m : Machine} (h : initBcache sb d = .ok () m) :
    m = { boot d with dev := m.dev, log := ⟨(decode (d sb.logStart.toNat)).cleared, 0, 0, false⟩ } ∧
      (decode (m.dev.blocks sb.logStart.toNat)).numBlocks = 0 := by
  set s : Machine := { boot d with log := ⟨decode (d sb.logStart.toNat), 0, 0, false⟩ } with hs
  have hread : readHeader sb (boot d) = .ok ⟨⟩ s := by simp [readHeader, boot, hs]
  cases hloop : (List.range s.log.header.numBlocks).forM (checkpointBody sb) s with
  | error e t =>
    have hloop' : forM (List.range s.log.header.numBlocks) (checkpointBody sb) s = .error e t := by simpa using hloop
    simp [initBcache, restoreLog, hread, createCheckpoint, hloop'] at h
  | ok x t =>
    have hloop' : forM (List.range s.log.header.numBlocks) (checkpointBody sb) s = .ok x t := by simpa using hloop
    have hfr := checkpointLoop_frame hloop
    have hth : t.log = s.log := by rw [hfr]
    have hrun : initBcache sb d = .ok ⟨⟩ { t with
        dev := t.dev.write sb.logStart.toNat (encode s.log.header.cleared)
        log := { s.log with header := s.log.header.cleared } } := by
      simp [initBcache, restoreLog, hread, createCheckpoint, hloop', writeHeader, deviceWrite, hth, LogHeader.cleared]
    rw [hrun] at h
    cases h
    refine ⟨by rw [hfr], ?_⟩
    have hcount := decode_count s.log.header.cleared
    simpa [Device.write, LogHeader.cleared] using hcount

theorem recoverWrites_issued (sb : SuperBlock)
    (hd : decode (d sb.logStart.toNat) = h) (hc : h.numBlocks ≤ logMaxSize)
    (hout : ∀ i j, i < h.numBlocks → j < h.numBlocks → h.home i ≠ logSlot sb j) :
    issued (restoreLog sb) (boot d) = recoverWrites sb d := by
  obtain ⟨m, hm, hw⟩ := initBcache_run sb hd hc hout
  apply Wrote.issued_eq
  unfold initBcache at hm
  rw [hm]
  exact hw

end OsKernel.Fs
