/-
What `pgfault_handler` leaves behind, by the kind of the section.

`Installed` is what a fault in a heap, data or stack section should do: the address is mapped, writable, to a page that this
call took from `kalloc_page`, with the old content, and every page taken is in use somewhere. `Loaded` is the same for
text: the bytes of the file, mapped read-only.

Result (`pgfault_installs`): that holds for data sections, for permission faults in a stack section, and for text sections
whose pages are not mapped yet or mapped for the user to read; and it holds for no other fault. For every fault in a heap section
and for translation faults in a stack section (`heap_fault_maps_proc`) the handler takes a page and then maps the `Proc`, because
the variable it names is p.
-/
import OsKernel.Kernel.AddressSpace

namespace OsKernel.Kernel.Paging

open OsKernel.Mem OsKernel.Kernel.PageTable OsKernel.Words OsKernel.Radix OsKernel.Fallible
open Function (update update_of_ne update_self)

/-! ## Flags of a new entry -/

section Flags

variable {L : Layout} {x : ℕ} (h : IsPage L x)
include h

theorem frame_new {flags : ℕ} (hf : flags < 4096) : frame (pageBase (k2p x) ||| flags) = x := by
  rw [h.k2p_eq, h.frame_eq hf]

theorem flags_rw : Valid (k2p x ||| (pteUserData ||| pteRw)) ∧ User (k2p x ||| (pteUserData ||| pteRw)) ∧
    ¬ ReadOnly (k2p x ||| (pteUserData ||| pteRw)) := by
  have hg : ∀ g < 4096, (k2p x ||| (pteUserData ||| pteRw)) &&& g = (pteUserData ||| pteRw) &&& g := fun g hg =>
    h.and_flags (by decide) hg
  simp only [Valid, User, ReadOnly, hg pteValid (by decide), hg pteUser (by decide), hg pteRo (by decide)]
  decide

theorem flags_ro : Valid (k2p x ||| (pteUserData ||| pteRo)) ∧ User (k2p x ||| (pteUserData ||| pteRo)) ∧
    ReadOnly (k2p x ||| (pteUserData ||| pteRo)) := by
  have hg : ∀ g < 4096, (k2p x ||| (pteUserData ||| pteRo)) &&& g = (pteUserData ||| pteRo) &&& g := fun g hg =>
    h.and_flags (by decide) hg
  simp only [Valid, User, ReadOnly, hg pteValid (by decide), hg pteUser (by decide), hg pteRo (by decide)]
  decide

end Flags

/-! ## Loading text -/

theorem textPage_same {p va pte : ℕ} {s s' : Sys} (ht : textPage p va s = .ok (pte, s')) : SameSpaces s s' := by
  obtain ⟨⟨pte1, s1⟩, ha, ht⟩ := bind_ok ht
  have h1 := allocPte_same ha
  simp only at ht
  split_ifs at ht
  · obtain ⟨⟨pg, s2⟩, hk, ht⟩ := bind_ok ht
    obtain ⟨m2, -, rfl⟩ := allocPage_ok hk
    obtain ⟨s3, hm, ht⟩ := bind_ok ht
    cases ht
    exact h1.trans ((sameSpaces_setMem s1 m2).trans (mapPage_same hm))
  · cases ht
    exact h1

/-- the page of the section at va: the one that was mapped, or one that nobody had -/
theorem textPage_spec {L : Layout} {s s' : Sys} {l : List ℕ} (h : Ok L s l) {p va pte : ℕ}
    (ht : textPage p va s = .ok (pte, s')) :
    ∃ l', Ok L s' l' ∧ Undisturbed L s s' ∧ s'.mem.cell pte = s'.entry p va ∧ Valid (s'.entry p va) ∧
      (Valid (s.entry p va) ∧ s'.entry p va = s.entry p va ∨
        ¬ Valid (s.entry p va) ∧ User (s'.entry p va) ∧ ReadOnly (s'.entry p va) ∧ ¬ InUse L s.mem (frame (s'.entry p va))) ∧
      ∀ q va', ¬ (q = p ∧ vpn va' = vpn va) → s'.entry q va' = s.entry q va' := by
  obtain ⟨⟨pte1, s1⟩, ha, ht⟩ := bind_ok ht
  obtain ⟨l1, t, hok1, hgrown, htab, rfl⟩ := allocPte_spec h.spaces ha
  have hund1 : Undisturbed L s s1 := undisturbed_tables hok1 hgrown.toTableStep
  have hent1 : ∀ q va', s1.entry q va' = s.entry q va' := hgrown.entry
  have h1 : Ok L s1 l1 := ⟨hok1, fun q va' hv => by
    rw [hent1] at hv ⊢
    exact hund1.page _ (h.mapped q va' hv)⟩
  have hcell : s1.mem.cell (t + 8 * vaPart3 va) = s1.entry p va := (entry_of_table htab).symm
  have hz : s1.mem.cell (t + 8 * vaPart3 va) &&& pteValid = 0 ↔ ¬ Valid (s.entry p va) := by
    rw [hcell, hent1]
    exact not_not.symm
  by_cases hinv : Valid (s.entry p va)
  · simp only [if_neg fun hx => hz.1 hx hinv] at ht
    cases ht
    rw [← hent1] at hinv
    exact ⟨l1, h1, hund1, hcell, hinv, Or.inl ⟨hent1 p va ▸ hinv, hent1 p va⟩, fun q va' _ => hent1 q va'⟩
  · simp only [if_pos (hz.2 hinv)] at ht
    obtain ⟨⟨pg, s2⟩, hk, ht⟩ := bind_ok ht
    obtain ⟨l2, h2, hund2, hent2, hown2, hpage2, h0⟩ := alloc_spec h1 hk
    obtain ⟨s3, hm, ht⟩ := bind_ok ht
    cases ht
    have hpg : IsPage L pg := Or.inl hown2.1
    obtain ⟨l3, h3, hund3, hent3⟩ := map_spec h2 hpage2 (frame_new hpg (by decide)) hm
    have hund : Undisturbed L s1 s' := hund2.trans hund3
    have he : s'.entry p va = k2p pg ||| (pteUserData ||| pteRo) := by rw [hent3, if_pos ⟨rfl, rfl⟩, hpg.k2p_eq]
    obtain ⟨hv, hu, hro⟩ := flags_ro hpg
    refine ⟨l3, h3, hund1.trans hund, ?_, he ▸ hv, Or.inr ⟨hinv, he ▸ hu, he ▸ hro, ?_⟩, fun q va' hne => ?_⟩
    · exact (entry_of_table (hund.table p _ t ⟨isPath_path va, htab⟩).2).symm
    · rw [he, hpg.frame_eq (by decide)]
      rintro (hx | hx)
      · exact hx.2.ne' (by rw [← hund1.ref pg hx, h0])
      · exact hown2.1.ne_zeroPage hx
    · rw [hent3, if_neg hne, hent2, hent1]

/-- `file_read` that returns all it was asked for -/
theorem fileRead_full {f dst n : ℕ} {k : ℤ} {s s' : Sys} (hr : fileRead f dst n s = .ok (k, s')) (hk : k = n) :
    ∃ ip, (s.file f).ip = some ip ∧ (s.file f).off + n ≤ (s.content ip).bytes.length ∧
      s' = (s.setMem { s.mem with
        cell := storeBytes s.mem.cell dst (((s.content ip).bytes.drop (s.file f).off).take n) }).setFile f
          { s.file f with off := (s.file f).off + n } := by
  rw [fileRead] at hr
  split at hr
  · cases hr
    omega
  · next ip hip =>
    simp only at hr
    split_ifs at hr with hlen
    cases hr
    have hn : (((s.content ip).bytes.drop (s.file f).off).take n).length = n := by exact_mod_cast hk
    have hle : n ≤ (s.content ip).bytes.length - (s.file f).off := by
      rw [List.length_take, List.length_drop] at hn
      omega
    exact ⟨ip, hip, by omega, by rw [hn]⟩

/-- one turn of the loop is a page and a read -/
theorem loadText_turn {p f fuel len va : ℕ} {s s' : Sys} (hlen : len ≠ 0)
    (h : loadText p f (fuel + 1) len va s = .ok s') :
    ∃ pte s1 s2 k, textPage p va s = .ok (pte, s1) ∧
      fileRead f (frame (s1.mem.cell pte) + vaOffset va) (min len (pageSize - vaOffset va)) s1 = .ok (k, s2) ∧
      k = (min len (pageSize - vaOffset va) : ℕ) ∧
      loadText p f fuel (len - min len (pageSize - vaOffset va)) (va + min len (pageSize - vaOffset va)) s2 = .ok s' := by
  rw [loadText, if_neg hlen] at h
  obtain ⟨⟨pte, s1⟩, ht, h⟩ := bind_ok h
  obtain ⟨⟨k, s2⟩, hr, h⟩ := bind_ok h
  simp only at h
  split_ifs at h with hk
  exact ⟨pte, s1, s2, k, ht, hr, hk, h⟩

theorem vaOffset_lt (va : ℕ) : vaOffset va < pageSize := by
  rw [vaOffset_eq]
  exact Nat.mod_lt _ (by decide)

/-- the file has all the bytes that were loaded -/
theorem loadText_fits {p f fuel len va : ℕ} {s s' : Sys} (hfuel : len ≤ fuel) (hlen : len ≠ 0)
    (h : loadText p f fuel len va s = .ok s') :
    ∃ ip, (s.file f).ip = some ip ∧ (s.file f).off + len ≤ (s.content ip).bytes.length := by
  induction fuel generalizing len va s with
  | zero => omega
  | succ fuel ih =>
    have hoff := vaOffset_lt va
    obtain ⟨pte, s1, s2, k, ht, hr, hk, h⟩ := loadText_turn hlen h
    obtain ⟨ip, hip, hle, rfl⟩ := fileRead_full hr hk
    have hsame := textPage_same ht
    rw [hsame.file, hsame.content] at hle
    rw [hsame.file] at hip
    refine ⟨ip, hip, ?_⟩
    by_cases hrest : len - min len (pageSize - vaOffset va) = 0
    · omega
    · obtain ⟨ip', hip', hle'⟩ := ih (by omega) hrest h
      simp only [Sys.setFile, Sys.setMem, update_self, hsame.file, hsame.content] at hip' hle'
      rw [hip] at hip'
      rw [← Option.some.inj hip'] at hle'
      omega

/-- the bytes of `cnt` addresses from va on are mapped read-only and come from the file, from byte off on -/
def Loaded (s : Sys) (p va cnt : ℕ) (bytes : List UInt8) (off : ℕ) : Prop :=
  ∀ i < cnt, Valid (s.entry p (va + i)) ∧ User (s.entry p (va + i)) ∧ ReadOnly (s.entry p (va + i)) ∧
    bytes[off + i]? = some (s.userByte p (va + i))

theorem Loaded.congr {s s' : Sys} {p va cnt off : ℕ} {bytes : List UInt8} (hm : s'.mem = s.mem) (hp : s'.pts = s.pts) :
    Loaded s' p va cnt bytes off ↔ Loaded s p va cnt bytes off := by
  refine forall₂_congr fun i hi => ?_
  rw [Sys.userByte, Sys.userByte, entry_of_eq hm hp, hm]

/-- the text of cnt addresses from va on: each is mapped, as it was before or for reading only, and holds its byte of the file -/
structure Filled (L : Layout) (s s' : Sys) (p va cnt : ℕ) (bytes : List UInt8) (off : ℕ) : Prop where
  byte : ∀ i < cnt, Valid (s'.entry p (va + i)) ∧ bytes[off + i]? = some (s'.userByte p (va + i))
  flags : ∀ i < cnt, Valid (s.entry p (va + i)) ∧ s'.entry p (va + i) = s.entry p (va + i) ∨
    ¬ Valid (s.entry p (va + i)) ∧ User (s'.entry p (va + i)) ∧ ReadOnly (s'.entry p (va + i))
  others : ∀ q va', (∀ i < cnt, ¬ (q = p ∧ vpn va' = vpn (va + i))) → s'.entry q va' = s.entry q va'
  page : ∀ x, UserPage L s x → UserPage L s' x
  cell : ∀ x a, UserPage L s x → (∀ i < cnt, Valid (s.entry p (va + i)) → frame (s.entry p (va + i)) ≠ x) → InPage x a →
    s'.mem.cell a = s.mem.cell a

/-- no page is mapped twice among cnt addresses from va on -/
def Apart (s : Sys) (p va cnt : ℕ) : Prop :=
  ∀ i < cnt, ∀ j < cnt, Valid (s.entry p (va + i)) → Valid (s.entry p (va + j)) →
    frame (s.entry p (va + i)) = frame (s.entry p (va + j)) → vpn (va + i) = vpn (va + j)

/-- the chunk that ends at a page boundary: its addresses share a page, later ones do not -/
theorem chunk_same {va i : ℕ} (hi : i < pageSize - vaOffset va) :
    vpn (va + i) = vpn va ∧ vaOffset (va + i) = vaOffset va + i := by
  rw [vaOffset_eq] at hi
  simp only [vpn, vaOffset_eq, pageSize] at hi ⊢
  omega

theorem chunk_other {va i : ℕ} (hi : pageSize - vaOffset va ≤ i) (hlt : i < 2 ^ 32) : vpn (va + i) ≠ vpn va := by
  rw [vaOffset_eq] at hi
  simp only [vpn, pageSize] at hi ⊢
  omega

/-- one turn -/
theorem chunk_spec {L : Layout} {s s1 s2 : Sys} {l : List ℕ} (h : Ok L s l) {p f va pte n : ℕ} {k : ℤ}
    (hpos : 0 < n) (hn : n ≤ pageSize - vaOffset va) (ht : textPage p va s = .ok (pte, s1))
    (hr : fileRead f (frame (s1.mem.cell pte) + vaOffset va) n s1 = .ok (k, s2)) (hk : k = n) :
    ∃ ip l', (s.file f).ip = some ip ∧ Ok L s2 l' ∧
      s2.file = update s.file f { s.file f with off := (s.file f).off + n } ∧ s2.content = s.content ∧
      Filled L s s2 p va n (s.content ip).bytes (s.file f).off ∧
      ∀ i < n, ¬ Valid (s.entry p (va + i)) → ¬ InUse L s.mem (frame (s2.entry p (va + i))) := by
  obtain ⟨l1, h1, hund1, hcell, hv, hcase, hent1⟩ := textPage_spec h ht
  have hsame := textPage_same ht
  have hpage := h1.mapped p va hv
  have hdvd := hpage.use.isPage.dvd
  have hoff := vaOffset_lt va
  rw [hcell] at hr
  obtain ⟨ip, hip, hle, rfl⟩ := fileRead_full hr hk
  rw [hsame.file, hsame.content] at hle
  rw [hsame.file] at hip
  rw [hsame.file, hsame.content]
  set pg := frame (s1.entry p va) with hpg
  set bs := ((s.content ip).bytes.drop (s.file f).off).take n with hbs
  have hlen : bs.length = n := by
    rw [hbs, List.length_take, List.length_drop]
    omega
  -- the store stays inside the page
  have hout : ∀ a, ¬ InPage pg a → storeBytes s1.mem.cell (pg + vaOffset va) bs a = s1.mem.cell a := by
    intro a ha
    refine storeBytes_cell fun b hb hb' hab => ha ?_
    rw [hlen] at hb'
    simp only [InPage, pageSize] at hn hoff ⊢
    omega
  obtain ⟨h2, hent2, hpages, hkept⟩ := write_spec h1 hpage hout
  have hent : ∀ q va', (s1.setMem { s1.mem with cell := storeBytes s1.mem.cell (pg + vaOffset va) bs }).entry q va' =
      s1.entry q va' := hent2
  have hchunk : ∀ i < n, vpn (va + i) = vpn va := fun i hi => (chunk_same (lt_of_lt_of_le hi hn)).1
  have hsame1 : ∀ i < n, s1.entry p (va + i) = s1.entry p va := fun i hi => entry_vpn _ _ (hchunk i hi)
  have hsame0 : ∀ i < n, s.entry p (va + i) = s.entry p va := fun i hi => entry_vpn _ _ (hchunk i hi)
  refine ⟨ip, l1, hip, h2.congr rfl rfl, ?_, hsame.content, ⟨fun i hi => ⟨?_, ?_⟩, fun i hi => ?_, fun q va' hne => ?_,
    fun x hx => ?_, fun x a hx hne ha => ?_⟩, fun i hi hno => ?_⟩
  · simp only [Sys.setFile, Sys.setMem, hsame.file]
  · exact ((hent p (va + i)).trans (hsame1 i hi)).symm ▸ hv
  · obtain ⟨b, hb⟩ : ∃ b, bs[i]? = some b := ⟨_, List.getElem?_eq_getElem (by omega)⟩
    have hbyte : byteAt (storeBytes s1.mem.cell (pg + vaOffset va) bs) (pg + vaOffset (va + i)) = b := by
      have hvoff := (chunk_same (lt_of_lt_of_le hi hn)).2
      have hidx : pg + vaOffset (va + i) - (pg + vaOffset va) = i := by omega
      rw [byteAt_storeBytes, if_pos (by omega), hidx, List.getD_eq_getElem?_getD, hb]
      rfl
    have hget : (s.content ip).bytes[(s.file f).off + i]? = some b := by
      rw [← hb, hbs, List.getElem?_take_of_lt hi, List.getElem?_drop]
    refine hget.trans (congrArg some (Eq.symm ?_))
    change byteAt _ (frame ((s1.setMem { s1.mem with cell := storeBytes s1.mem.cell (pg + vaOffset va) bs }).entry p
      (va + i)) + _) = _
    rw [hent, hsame1 i hi]
    exact hbyte
  · have he := (hent p (va + i)).trans (hsame1 i hi)
    rw [hsame0 i hi]
    rcases hcase with ⟨hv0, heq⟩ | ⟨hno, hu, hro, -⟩
    · exact Or.inl ⟨hv0, he.trans heq⟩
    · exact Or.inr ⟨hno, he.symm ▸ hu, he.symm ▸ hro⟩
  · exact (hent q va').trans (hent1 q va' (hne 0 hpos))
  · have hmid := (hpages x).2 (hund1.page x hx)
    exact ⟨hmid.use, hmid.plain⟩
  · have hxpg : x ≠ pg := by
      rintro rfl
      rcases hcase with ⟨hv0, heq⟩ | ⟨-, -, -, hnew⟩
      · exact hne 0 hpos hv0 (congrArg frame heq.symm)
      · exact hnew hx.use
    exact (hkept x a (hund1.page x hx) hxpg ha).trans (hund1.cell x a hx ha)
  · rcases hcase with ⟨hv0, -⟩ | ⟨-, -, -, hnew⟩
    · exact absurd hv0 (hsame0 i hi ▸ hno)
    · exact ((hent p (va + i)).trans (hsame1 i hi)).symm ▸ hnew

section Filled

variable {L : Layout} {s s1 s' : Sys} {l l1 : List ℕ} {p va n k off : ℕ} {bytes : List UInt8}

theorem Filled.refl : Filled L s s p va 0 bytes off :=
  ⟨by simp, by simp, fun _ _ _ => rfl, fun _ hx => hx, fun _ _ _ _ _ => rfl⟩

/-- what is left lies in other pages, and is mapped as before -/
theorem Filled.left (h : Filled L s s1 p va n bytes off) (hother : ∀ i < n, ∀ j < k, vpn (va + n + j) ≠ vpn (va + i)) {j : ℕ}
    (hj : j < k) : s1.entry p (va + n + j) = s.entry p (va + (n + j)) := by
  rw [← Nat.add_assoc]
  exact h.others p _ fun i hi hx => hother i hi j hj hx.2

/-- one chunk and then the others -/
theorem Filled.append (hok : Ok L s l) (hok1 : Ok L s1 l1) (hapart : Apart s p va (n + k))
    (hother : ∀ i < n, ∀ j < k, vpn (va + n + j) ≠ vpn (va + i)) (hfirst : Filled L s s1 p va n bytes off)
    (hnew : ∀ i < n, ¬ Valid (s.entry p (va + i)) → ¬ InUse L s.mem (frame (s1.entry p (va + i))))
    (hrest : Filled L s1 s' p (va + n) k bytes (off + n)) : Filled L s s' p va (n + k) bytes off := by
  have hkeep : ∀ i < n, s'.entry p (va + i) = s1.entry p (va + i) := fun i hi =>
    hrest.others p _ fun j hj hx => hother i hi j hj hx.2.symm
  have hsplit : ∀ i, ¬ i < n → va + n + (i - n) = va + i ∧ off + n + (i - n) = off + i := by omega
  refine ⟨fun i hi => ?_, fun i hi => ?_, fun q va' hne => ?_, fun x hx => hrest.page x (hfirst.page x hx),
    fun x a hx hne ha => ?_⟩
  · by_cases hin : i < n
    · -- loaded in the first chunk, and left alone by the others
      obtain ⟨hv, hget⟩ := hfirst.byte i hin
      have hbyte : s'.userByte p (va + i) = s1.userByte p (va + i) := by
        rw [Sys.userByte, hkeep i hin]
        have hpage := hok1.mapped p _ hv
        have hdvd := hpage.use.isPage.dvd
        refine byteAt_congr (hrest.cell _ _ hpage (fun j hj hvj hf => ?_) ?_)
        · rw [hfirst.left hother hj] at hvj hf
          rcases hfirst.flags i hin with ⟨hv0, he⟩ | ⟨hno, -⟩
          · rw [he] at hf
            have := hapart (n + j) (by omega) i (by omega) hvj hv0 hf
            rw [← Nat.add_assoc] at this
            exact hother i hin j hj this
          · exact hnew i hin hno (hf ▸ (hok.mapped p _ hvj).use)
        · have := vaOffset_lt (va + i)
          simp only [InPage, pageSize] at this ⊢
          omega
      rw [hkeep i hin, hbyte]
      exact ⟨hv, hget⟩
    · have := hrest.byte (i - n) (by omega)
      rwa [(hsplit i hin).1, (hsplit i hin).2] at this
  · by_cases hin : i < n
    · rw [hkeep i hin]
      exact hfirst.flags i hin
    · have hj : i - n < k := by omega
      have := hrest.flags (i - n) hj
      rwa [hfirst.left hother hj, (hsplit i hin).1, Nat.add_sub_of_le (by omega)] at this
  · rw [hrest.others q va' fun j hj => ?_]
    · exact hfirst.others q va' fun i hi => hne i (by omega)
    · have := hne (n + j) (by omega)
      rwa [← Nat.add_assoc] at this
  · have hmid := hfirst.cell x a hx (fun i hi => hne i (by omega)) ha
    refine (hrest.cell x a (hfirst.page x hx) (fun j hj hvj => ?_) ha).trans hmid
    rw [hfirst.left hother hj] at hvj ⊢
    exact hne (n + j) (by omega) hvj

end Filled

/-- **The loop of the text fault**, when no page of the range is mapped twice. -/
theorem loadText_spec {L : Layout} {s s' : Sys} {l : List ℕ} (h : Ok L s l) {p f fuel len va ip : ℕ} (hfuel : len ≤ fuel)
    (hsmall : len < 2 ^ 32) (hip : (s.file f).ip = some ip) (hapart : Apart s p va len)
    (hload : loadText p f fuel len va s = .ok s') :
    (∃ l', Ok L s' l') ∧ Filled L s s' p va len (s.content ip).bytes (s.file f).off := by
  induction fuel generalizing len va s l with
  | zero =>
    cases hload
    obtain rfl : len = 0 := by omega
    exact ⟨⟨l, h⟩, .refl⟩
  | succ fuel ih =>
    by_cases hlen : len = 0
    · rw [loadText, if_pos hlen] at hload
      cases hload
      subst hlen
      exact ⟨⟨l, h⟩, .refl⟩
    · obtain ⟨pte, s1, s2, k, ht, hr, hk, hload⟩ := loadText_turn hlen hload
      have hoff := vaOffset_lt va
      set n := min len (pageSize - vaOffset va) with hn
      obtain ⟨ip', l2, hip', h2, hfile, hcont, hfirst, hnew⟩ := chunk_spec h (by omega) (by omega) ht hr hk
      rw [hip] at hip'
      obtain rfl := Option.some.inj hip'
      have hother : ∀ i < n, ∀ j < len - n, vpn (va + n + j) ≠ vpn (va + i) := by
        intro i hi j hj
        rw [(chunk_same (by omega : i < pageSize - vaOffset va)).1, Nat.add_assoc]
        exact chunk_other (by omega) (by omega)
      have hapart' : Apart s2 p (va + n) (len - n) := by
        intro i hi j hj hvi hvj hf
        rw [hfirst.left hother hi] at hvi hf
        rw [hfirst.left hother hj] at hvj hf
        have := hapart (n + i) (by omega) (n + j) (by omega) hvi hvj hf
        rwa [← Nat.add_assoc, ← Nat.add_assoc] at this
      obtain ⟨hok, hrest⟩ := ih h2 (by omega) (by omega) (by rw [hfile, update_self]; exact hip) hapart' hload
      rw [hcont, hfile, update_self] at hrest
      have hsum : n + (len - n) = len := by omega
      exact ⟨hok, hsum ▸ hfirst.append h h2 (hsum.symm ▸ hapart) hother hnew hrest⟩

/-! ## The handler -/

/-- the fault is one that the hardware reports: a permission fault of a mapped address, or a translation fault of one that is
not mapped -/
def Fault (s : Sys) (p addr iss : ℕ) : Prop :=
  (issTypeMask &&& iss = issPermiFault ∧ Valid (s.entry p addr)) ∨
    (issTypeMask &&& iss = issTransFault ∧ ¬ Valid (s.entry p addr))

/-- what a fault in a heap, data or stack section should do -/
structure Installed (L : Layout) (s : Sys) (p addr : ℕ) (s' : Sys) : Prop where
  valid : Valid (s'.entry p addr)
  user : User (s'.entry p addr)
  writable : ¬ ReadOnly (s'.entry p addr)
  taken : ∃ m, kallocPage s.mem = some (frame (s'.entry p addr), m)
  content : ∀ i < pageSize, byteAt s'.mem.cell (frame (s'.entry p addr) + i) =
    if Valid (s.entry p addr) then byteAt s.mem.cell (frame (s.entry p addr) + i) else 0
  /-- the zero page has no references to lose -/
  released : Valid (s.entry p addr) → frame (s.entry p addr) ≠ zeroPage L →
    s'.mem.ref (pageIndex (frame (s.entry p addr))) = s.mem.ref (pageIndex (frame (s.entry p addr))) - 1
  others : ∀ q va, ¬ (q = p ∧ vpn va = vpn addr) → s'.entry q va = s.entry q va
  referenced : ∀ x, Owned L s'.mem x → Owned L s.mem x ∨ (∃ q va, Valid (s'.entry q va) ∧ frame (s'.entry q va) = x) ∨
    ∃ k q, HasTable s'.mem s'.pts k q x

theorem Unshared.installed {L : Layout} {s s' : Sys} {p addr pg : ℕ} {l' : List ℕ} (hv : Valid (s.entry p addr))
    (hold : UserPage L s (frame (s.entry p addr))) (h : Unshared L s p addr pg s' l') : Installed L s p addr s' := by
  have hpg : IsPage L pg := Or.inl h.fresh.1
  have he : s'.entry p addr = k2p pg ||| (pteUserData ||| pteRw) := by rw [h.entry, if_pos ⟨rfl, rfl⟩]
  have hframe : frame (s'.entry p addr) = pg := by rw [he, hpg.frame_eq (by decide)]
  obtain ⟨hval, huser, hrw⟩ := flags_rw hpg
  refine ⟨he ▸ hval, he ▸ huser, he ▸ hrw, hframe.symm ▸ h.alloc, fun i hi => ?_, fun _ hne => ?_, fun q va hq => ?_,
    fun x hx => ?_⟩
  · rw [hframe, if_pos hv]
    refine byteAt_shift (Dvd.dvd.trans (by decide) hold.use.isPage.dvd) (Dvd.dvd.trans (by decide) hpg.dvd) ?_
    exact h.copied _ (by simp only [pageSize] at hi ⊢; omega)
  · rw [h.ref, if_neg hne, update_self]
  · rw [h.entry, if_neg hq]
  · by_cases hxp : x = pg
    · exact Or.inr (Or.inl ⟨p, addr, he ▸ hval, hframe.trans hxp.symm⟩)
    · left
      refine ⟨hx.1, ?_⟩
      have hpos := hx.2
      have hne : pageIndex x ≠ pageIndex pg := fun hi => hxp (hx.1.index_inj h.fresh.1 hi)
      rw [h.ref] at hpos
      split_ifs at hpos
      · rwa [update_of_ne hne] at hpos
      · by_cases hxo : pageIndex x = pageIndex (frame (s.entry p addr))
        · rw [hxo, update_self] at hpos
          rw [hxo]
          omega
        · rwa [update_of_ne hxo, update_of_ne hne] at hpos

/-- the faults that are served: not in a heap section, for a stack section only of mapped addresses, and for a text section
only if those of its pages that are mapped are so for the user to read -/
def Served (s : Sys) (p addr : ℕ) (sec : Section) : Prop :=
  match sec.flags with
  | .heap => False
  | .userStack => Valid (s.entry p addr)
  | .text => ∀ i < sec.length, Valid (s.entry p (sec.begin + i)) →
      User (s.entry p (sec.begin + i)) ∧ ReadOnly (s.entry p (sec.begin + i))
  | .data | .mmapShared | .mmapPrivate | .other => True

/-- the `Proc` is mapped, which is not the page that was taken -/
theorem mapProc_not_installed {L : Layout} {s s' : Sys} {l : List ℕ} {p addr : ℕ} (h : Ok L s l)
    (hproc : Owned L s.mem (pageBase (s.space p).proc)) (hm : mapProc p addr s = .ok s') : ¬ Installed L s p addr s' := by
  intro hi
  obtain ⟨⟨pg, s1⟩, ha, hm⟩ := bind_ok hm
  obtain ⟨l1, h1, -, -, -, -, h0⟩ := alloc_spec h ha
  obtain ⟨m1, hk, rfl⟩ := allocPage_ok ha
  obtain ⟨-, -, -, hent⟩ := mapPage_spec h1.spaces hm
  obtain ⟨m2, htaken⟩ := hi.taken
  have hpage : IsPage L (pageBase (s.space p).proc) := Or.inl hproc.1
  have hbase : pageBase (k2p (s.space p).proc) = k2p (pageBase (s.space p).proc) := by
    obtain ⟨j, hj, hlt⟩ := hpage.eq
    obtain ⟨o, ho, hoff⟩ : ∃ o, (s.space p).proc = kspaceMask + (4096 * j + o) ∧ o < 4096 := by
      rw [pageBase, pageSize] at hj
      exact ⟨(s.space p).proc % 4096, by omega, by omega⟩
    rw [hj, ho, k2p_add (by omega), k2p_add (by omega), pageBase, pageSize]
    omega
  rw [hent, if_pos ⟨rfl, rfl⟩] at htaken
  simp only [Sys.setMem] at htaken
  rw [hbase, hpage.frame_eq (by decide), hk] at htaken
  have hsame := (Prod.mk.inj (Option.some.inj htaken)).1
  exact hproc.2.ne' (by rw [← hsame, h0])

/-- **Page faults.** When `pgfault_handler` returns from a fault in a heap, data or stack section, the address is mapped as it
should be if and only if the fault is one that is served; in a text section, all of it holds the bytes of the file, mapped
read-only, if and only if it is. No page of the text may be mapped twice, and the `Proc` is in a page that is in use. -/
theorem pgfault_installs {L : Layout} {s s' : Sys} {l : List ℕ} {p addr iss : ℕ} {sec : Section} (h : Ok L s l)
    (hproc : Owned L s.mem (pageBase (s.space p).proc)) (hsec : findSection (s.space p).sections addr = some sec)
    (hfault : Fault s p addr iss) (hapart : sec.flags = .text → Apart s p sec.begin sec.length)
    (hret : pgfaultHandler L p addr iss s = .ok s') :
    (sec.flags = .heap ∨ sec.flags = .data ∨ sec.flags = .userStack → (Installed L s p addr s' ↔ Served s p addr sec)) ∧
      (sec.flags = .text → ∃ f ip, sec.fp = some f ∧ (s.file f).ip = some ip ∧
        (Loaded s' p sec.begin sec.length (s.content ip).bytes sec.offset ↔ Served s p addr sec)) := by
  rw [pgfaultHandler, hsec] at hret
  simp only at hret
  rw [Served]
  -- a permission fault copies the page
  have hcow : issTypeMask &&& iss = issPermiFault → copyOnWrite L p addr s = .ok s' → Installed L s p addr s' := by
    intro hperm hc
    have hv : Valid (s.entry p addr) := by
      rcases hfault with ⟨-, hv⟩ | ⟨htrans, -⟩
      · exact hv
      · rw [hperm] at htrans
        exact absurd htrans (by decide)
    obtain ⟨pg, l', hun⟩ := copyOnWrite_spec h hv hc
    exact hun.installed hv (h.mapped p addr hv)
  cases hflags : sec.flags with
  | heap =>
    simp only [hflags] at hret
    exact ⟨fun _ => iff_of_false (mapProc_not_installed h hproc hret) id, fun hx => by cases hx⟩
  | data =>
    simp only [hflags] at hret
    split_ifs at hret with hperm
    exact ⟨fun _ => iff_of_true (hcow hperm hret) trivial, fun hx => by cases hx⟩
  | userStack =>
    simp only [hflags] at hret
    refine ⟨fun _ => ?_, fun hx => by cases hx⟩
    rcases hfault with ⟨hperm, hv⟩ | ⟨htrans, hno⟩
    · rw [if_pos hperm] at hret
      exact iff_of_true (hcow hperm hret) hv
    · rw [if_neg (by rw [htrans]; decide)] at hret
      exact iff_of_false (mapProc_not_installed h hproc hret) hno
  | text =>
    simp only [hflags] at hret
    refine ⟨fun hx => by simp at hx, fun _ => ?_⟩
    rw [textFault] at hret
    split_ifs at hret with hlen
    split at hret
    · cases hret
    · next f hfp =>
      obtain ⟨s1, hload, hret⟩ := bind_ok hret
      obtain ⟨s2, hclose, hret⟩ := bind_ok hret
      obtain ⟨ip, hip, hfits⟩ := loadText_fits le_rfl hlen hload
      simp only [Sys.setFile, update_self] at hip hfits
      have hsmall := (s.content ip).small
      have h0 : Ok L (s.setFile f { s.file f with off := sec.offset }) l := h.congr rfl rfl
      obtain ⟨-, hfilled⟩ := loadText_spec h0 le_rfl (by omega) (by simp only [Sys.setFile, update_self]; exact hip)
        (hapart hflags) hload
      simp only [Sys.setFile, update_self] at hfilled
      -- closing the file and marking the section leave memory and tables alone
      obtain rfl := fileClose_ok hclose
      cases hret
      refine ⟨f, ip, hfp, hip, Iff.trans (Loaded.congr (s := s1) ?_ ?_) ⟨fun hl i hi hv => ?_, fun hs i hi => ?_⟩⟩
      · rfl
      · exact pts_setSections _ p _
      · obtain ⟨-, hu, hro, -⟩ := hl i hi
        rcases hfilled.flags i hi with ⟨-, he⟩ | ⟨hno, -⟩
        · exact ⟨he ▸ hu, he ▸ hro⟩
        · exact absurd hv hno
      · obtain ⟨hv, hget⟩ := hfilled.byte i hi
        rcases hfilled.flags i hi with ⟨hv0, he⟩ | ⟨-, hu, hro⟩
        · obtain ⟨hu, hro⟩ := hs i hi hv0
          exact ⟨hv, he ▸ hu, he ▸ hro, hget⟩
        · exact ⟨hv, hu, hro, hget⟩
  | mmapShared => exact ⟨fun hx => by simp at hx, fun hx => by cases hx⟩
  | mmapPrivate => exact ⟨fun hx => by simp at hx, fun hx => by cases hx⟩
  | other => exact ⟨fun hx => by simp at hx, fun hx => by cases hx⟩

/-- `end` fourteen pages below the top of memory: twelve pages to hand out -/
def twelvePages : Layout := ⟨kernelStop - 14 * pageSize, by decide, by decide⟩

/-- process 0 alone, with one section at 0x1000, no page table, and its `Proc` in the first page of the allocator -/
def oneSection (flags : SectionType) (m : PageMem) : Sys where
  mem := m
  space q := ⟨kernelStop - 12 * pageSize + 64, 0, if q = 0 then [⟨flags, 0x1000, 0x2000, none, 0, 0⟩] else []⟩
  file _ := ⟨none, 0, 0⟩
  content _ := ⟨[], by decide⟩
  written := []

theorem oneSection_ok {L : Layout} {m : PageMem} {l : List ℕ} (flags : SectionType) (h : FreeList L m l) :
    Ok L (oneSection flags m) l := ok_bare h fun _ => rfl

/-- the zero page is in use from the start -/
theorem zeroPage_user {L : Layout} {s : Sys} {l : List ℕ} (h : SpacesOk L s.mem s.pts l) : UserPage L s (zeroPage L) :=
  ⟨Or.inr rfl, fun k q ht => (h.tables.owned k q _ ht).1.ne_zeroPage rfl⟩

/-- a page of bss is the zero page until it is written to -/
theorem pgfault_installs_bss : ∃ s s' l, Ok twelvePages s l ∧
    pgfaultHandler twelvePages 0 0x1008 issPermiFault s = .ok s' ∧ Installed twelvePages s 0 0x1008 s' := by
  obtain ⟨m, l, hk, hpages, -⟩ := kinit_ok twelvePages fun _ => 0
  -- the state before the fault, and what is needed of it
  have hrun : (((kinit twelvePages fun _ => 0).bind fun m =>
      (kallocPage m).bind fun r =>
        (mapPage 0 0x1000 (zeroPage twelvePages) (pteUserData ||| pteRo) (oneSection .data r.2)).toOption).bind fun s =>
      (pgfaultHandler twelvePages 0 0x1008 issPermiFault s).toOption.map fun _ =>
        decide (findSection (s.space 0).sections 0x1008 = some ⟨.data, 0x1000, 0x2000, none, 0, 0⟩ ∧
          Valid (s.entry 0 0x1008) ∧ Allocatable twelvePages (pageBase (s.space 0).proc) ∧
          0 < s.mem.ref (pageIndex (pageBase (s.space 0).proc)))) = some true := by
    decide +kernel
  rw [hk, Option.bind_some] at hrun
  obtain ⟨s, hstart, hrun⟩ := Option.bind_eq_some_iff.1 hrun
  obtain ⟨⟨pg, m1⟩, hproc, hmap⟩ := Option.bind_eq_some_iff.1 hstart
  obtain ⟨s', hret, hsec, hv, hown⟩ := ok_computes hrun
  have hmap' := ok_of_toOption hmap
  obtain ⟨l1, -, hfree, -⟩ := hpages.toFreeList.kalloc_some hproc
  have h0 := oneSection_ok .data hfree
  obtain ⟨l', hok, -⟩ := map_spec h0 (zeroPage_user h0.spaces) (frame_new (Or.inr rfl) (by decide)) hmap'
  obtain ⟨hinstalled, -⟩ := pgfault_installs hok hown hsec (Or.inl ⟨by decide, hv⟩) (fun hx => by cases hx) hret
  exact ⟨s, s', l', hok, hret, (hinstalled (Or.inr (Or.inl rfl))).2 trivial⟩

/-- a heap section that has just grown: the page of the `Proc` is mapped, writable, and the page taken for it is lost -/
theorem heap_fault_maps_proc : ∃ s s' l sec, Ok twelvePages s l ∧
    findSection (s.space 0).sections 0x1008 = some sec ∧ sec.flags = .heap ∧ Fault s 0 0x1008 issTransFault ∧
    pgfaultHandler twelvePages 0 0x1008 issTransFault s = .ok s' ∧
    frame (s'.entry 0 0x1008) = pageBase (s.space 0).proc ∧ ¬ ReadOnly (s'.entry 0 0x1008) ∧
    ¬ Installed twelvePages s 0 0x1008 s' := by
  obtain ⟨m, l, hk, hpages, -⟩ := kinit_ok twelvePages fun _ => 0
  -- the first page goes to the `Proc`
  have hrun : (((kinit twelvePages fun _ => 0).bind kallocPage).bind fun r =>
      (pgfaultHandler twelvePages 0 0x1008 issTransFault (oneSection .heap r.2)).toOption.map fun s' =>
        decide (frame (s'.entry 0 0x1008) = kernelStop - 12 * pageSize ∧ ¬ ReadOnly (s'.entry 0 0x1008) ∧
          (kallocPage r.2).map Prod.fst = some (kernelStop - 11 * pageSize))) = some true := by
    decide +kernel
  rw [hk, Option.bind_some] at hrun
  obtain ⟨⟨pg, m1⟩, hproc, hrun⟩ := Option.bind_eq_some_iff.1 hrun
  obtain ⟨s', hret, hframe, hrw, htaken⟩ := ok_computes hrun
  obtain ⟨l1, -, hfree, -⟩ := hpages.toFreeList.kalloc_some hproc
  refine ⟨oneSection .heap m1, s', l1, ⟨.heap, 0x1000, 0x2000, none, 0, 0⟩, oneSection_ok .heap hfree, rfl, rfl,
    Or.inr ⟨by decide, fun hv => valid_ne_zero hv (entry_of_none (if_pos rfl))⟩, hret, ?_, hrw, ?_⟩
  · exact hframe.trans (by decide : _ = pageBase (kernelStop - 12 * pageSize + 64))
  · intro hbad
    obtain ⟨m2, htake⟩ := hbad.taken
    simp only [oneSection] at htake
    rw [htake, hframe, Option.map_some] at htaken
    exact absurd (Option.some.inj htaken) (by decide : kernelStop - 12 * pageSize ≠ kernelStop - 11 * pageSize)

end OsKernel.Kernel.Paging
