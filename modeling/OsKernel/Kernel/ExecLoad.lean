/-
Which files stop the kernel in the loader of `execve`.

All offsets come from the file. `inode_read` stops the kernel when it is given an offset behind the end of the file, so the
program headers must not start there, and neither may the data of a segment that the loader gets to (`Readable`). Nothing else
in the file can fail an assertion: the sums that wrap do so on both sides.

The rest is memory. `Room` says that there are enough free pages to map n more virtual pages in a row: a table of the last
level serves 512 of them, and making it takes at most four pages. So the need of a file can be read off its headers
(`needPages`, `needFiles`).

Result (`load_returns`): a file that is readable in this sense fails no assertion, whatever the memory; and if pages and
entries of the file table last, the loader returns if and only if it is.
-/
import OsKernel.Kernel.Exec
import OsKernel.Kernel.AddressSpace

namespace OsKernel.Kernel.Exec

open OsKernel.Mem OsKernel.Words OsKernel.Radix OsKernel.Fallible OsKernel.Kernel.PageTable
open OsKernel.Fs (addU subU)
open OsKernel.Fs.FileTable (File fileAlloc fileAllocLoop fileAllocLoop_ref nfile)
open OsKernel.Kernel.Paging (Content kalloc_spaces write_spaces)

/-! ## What a file asks for -/

/-- the number of last-level tables for n virtual pages from va on -/
def regions (va n : ℕ) : ℕ := if n = 0 then 0 else (va / pageSize % 512 + n + 511) / 512

/-- the number of virtual pages that the n bytes from va on lie in -/
def pagesIn (va n : ℕ) : ℕ := if n = 0 then 0 else (va % pageSize + n + (pageSize - 1)) / pageSize

/-- the data of a segment is in the file -/
def DataIn (c : Content) (h : Phdr) : Prop := h.filesz = 0 ∨ h.offset + h.filesz ≤ c.bytes.length

/-- what is tried to read for a segment: up to the first byte behind the end of the file -/
def tried (c : Content) (filesz offset : ℕ) : ℕ := min filesz (c.bytes.length - offset + 1)

/-- the first page of the bss section, and its size -/
def bssStart (h : Phdr) : ℕ := addU (pageBase (addU h.vaddr h.filesz)) pageSize
def bssSize (h : Phdr) : ℕ := addU h.vaddr h.memsz - bssStart h

/-- the loader goes on after this header -/
def Accepts (c : Content) (h : Phdr) : Prop :=
  h.type = ptLoad → h.flags = pfRx ∨ (h.flags = pfRw ∧ DataIn c h)

instance (c : Content) (h : Phdr) : Decidable (DataIn c h) := inferInstanceAs (Decidable (_ ∨ _))
instance (c : Content) (h : Phdr) : Decidable (Accepts c h) := inferInstanceAs (Decidable (_ → _))

/-- the program headers that the loader gets to, n of them at most, from offset off on -/
def headers (c : Content) : ℕ → ℕ → List Phdr
  | 0, _ => []
  | n + 1, off =>
    if off + phdrSize ≤ c.bytes.length then
      let h := Phdr.ofBytes ((c.bytes.drop off).take phdrSize)
      h :: if Accepts c h then headers c n (off + phdrSize) else []
    else []

/-- the data of a segment does not start behind the end of the file -/
def Fits (c : Content) (h : Phdr) : Prop :=
  h.type = ptLoad → h.flags = pfRw → h.filesz ≠ 0 → h.offset ≤ c.bytes.length

instance (c : Content) (h : Phdr) : Decidable (Fits c h) := inferInstanceAs (Decidable (_ → _))

/-- pages for a segment: the data pages, and the tables for data and bss -/
def pages (c : Content) (h : Phdr) : ℕ :=
  if h.type = ptLoad ∧ h.flags = pfRw then
    let n := pagesIn h.vaddr (tried c h.filesz h.offset)
    4 * regions h.vaddr n + (n + if DataIn c h then 4 * regions (bssStart h) (pagesIn (bssStart h) (bssSize h)) else 0)
  else 0

/-- entries of the file table for a segment -/
def files (h : Phdr) : ℕ := if h.type = ptLoad ∧ h.flags = pfRx then 1 else 0

/-- the headers of a file -/
def fileHeaders (c : Content) : List Phdr :=
  let e := Ehdr.ofBytes (c.bytes.take ehdrSize)
  headers c e.phnum e.phoff

/-- the pages of the address space; those that `kalloc` takes for structs come from the slabs and are not counted -/
def needPages (c : Content) : ℕ := ((fileHeaders c).map (pages c)).sum
def needFiles (c : Content) : ℕ := ((fileHeaders c).map files).sum

/-- neither the program headers nor any data the loader gets to start behind the end of the file -/
def Readable (c : Content) : Prop :=
  Header c →
    ((Ehdr.ofBytes (c.bytes.take ehdrSize)).phnum ≠ 0 → (Ehdr.ofBytes (c.bytes.take ehdrSize)).phoff ≤ c.bytes.length) ∧
      ∀ h ∈ fileHeaders c, Fits c h

instance (c : Content) : Decidable (Readable c) := inferInstanceAs (Decidable (_ → _))

/-! ## Room in memory -/

/-- if `enough` holds, k pages are free -/
def Spare (enough : Prop) (L : Layout) (m : PageMem) (pt k : ℕ) : Prop :=
  ∃ l, SpacesOk L m (fun _ : Unit => pt) l ∧ (enough → k ≤ l.length)

/-- if `enough` holds, there are pages to map n virtual pages from va on, and k more. The table for va may be there already
when va is not the first page of its region. -/
def Room (enough : Prop) (L : Layout) (m : PageMem) (pt va n k : ℕ) : Prop :=
  ∃ l, SpacesOk L m (fun _ : Unit => pt) l ∧ (enough → 4 * regions va n + k ≤ l.length ∨
    (n ≠ 0 ∧ va / pageSize % 512 ≠ 0 ∧ (∃ t, tableAt tableOf m.cell pt (path va) = some t) ∧
      4 * regions va n + k ≤ l.length + 4))

/-- the loader stops for want of pages or of entries in the file table -/
def Wants (enough : Prop) (e : Stop) : Prop := (e = .noPage ∨ e = .noFile) ∧ ¬ enough

/-- a page for the loader to write to -/
structure Own (L : Layout) (m : PageMem) (pt x : ℕ) : Prop where
  owned : Owned L m x
  plain : ∀ q, ¬ HasTable m (fun _ : Unit => pt) () q x

section Room

variable {enough : Prop} {L : Layout} {m : PageMem} {pt va va' n k x : ℕ}

theorem Spare.room (h : Spare enough L m pt (4 * regions va n + k)) : Room enough L m pt va n k := by
  obtain ⟨l, hok, hl⟩ := h
  exact ⟨l, hok, fun he => Or.inl (hl he)⟩

theorem regions_pos (va : ℕ) (hn : n ≠ 0) : 1 ≤ regions va n := by
  rw [regions, if_neg hn]
  omega

theorem Room.spare (h : Room enough L m pt va n k) : Spare enough L m pt k := by
  obtain ⟨l, hok, hl⟩ := h
  refine ⟨l, hok, fun he => ?_⟩
  rcases hl he with hle | ⟨hn, -, -, hle⟩
  · omega
  · have := regions_pos va hn
    omega

theorem Spare.mono {k' : ℕ} (h : Spare enough L m pt k) (hk : k' ≤ k) : Spare enough L m pt k' := by
  obtain ⟨l, hok, hl⟩ := h
  exact ⟨l, hok, fun he => hk.trans (hl he)⟩

/-- unless va is in the last page of its region, the next page has the same tables -/
theorem path_next (h : va / pageSize % 512 ≠ 511) : path (addU (pageBase va) pageSize) = path va := by
  simp only [path, vaPart0_eq, vaPart1_eq, vaPart2_eq, addU, pageBase, pageSize] at h ⊢
  refine List.cons_eq_cons.2 ⟨by omega, List.cons_eq_cons.2 ⟨by omega, List.cons_eq_cons.2 ⟨by omega, rfl⟩⟩⟩

theorem index_next (va : ℕ) : addU (pageBase va) pageSize / pageSize % 512 = (va / pageSize % 512 + 1) % 512 := by
  simp only [addU, pageBase, pageSize]
  omega

theorem path_pageBase (va : ℕ) : path (pageBase va) = path va := by
  simp only [path, vaPart0_eq, vaPart1_eq, vaPart2_eq, pageBase, pageSize]
  refine List.cons_eq_cons.2 ⟨by omega, List.cons_eq_cons.2 ⟨by omega, List.cons_eq_cons.2 ⟨by omega, rfl⟩⟩⟩

/-- a page more in a row costs a table when a region begins -/
theorem regions_next (va n : ℕ) : regions va (n + 1) =
    if n = 0 ∨ va / pageSize % 512 = 511 then regions (addU (pageBase va) pageSize) n + 1
    else regions (addU (pageBase va) pageSize) n := by
  have hlt : va / pageSize % 512 < 512 := Nat.mod_lt _ (by decide)
  simp only [regions, index_next, Nat.add_eq_zero_iff, one_ne_zero, and_false, if_false]
  split_ifs <;> omega

theorem room_alloc (h : Room enough L m pt va n (k + 1)) :
    Ends (Wants enough) (fun r => Room enough L r.2 pt va n k ∧ Own L r.2 pt r.1) (allocPage m) := by
  obtain ⟨l1, hok1, hl1⟩ := h.spare
  obtain ⟨l, hok, hl⟩ := h
  unfold allocPage
  cases hk : kallocPage m with
  | none =>
    refine ⟨Or.inl rfl, fun he => ?_⟩
    have hpos := hl1 he
    obtain ⟨r, hr, -⟩ := kallocPage_total hok1 (by omega)
    rw [hk] at hr
    cases hr
  | some r =>
    obtain ⟨pg, m'⟩ := r
    obtain ⟨l', rfl, hok', hiff, -, hpg, h0, href, hcell⟩ := kalloc_spaces hok hk
    rw [List.length_cons] at hl
    refine ⟨⟨l', hok', fun he => ?_⟩, ⟨hpg, ?_⟩, fun q hq => ?_⟩
    · rw [hcell]
      rcases hl he with hle | ⟨hn, hne, ht, hle⟩
      · exact Or.inl (by omega)
      · exact Or.inr ⟨hn, hne, ht, by omega⟩
    · rw [href, Function.update_self]
      exact Int.one_pos
    · exact hok.tables.not_free h0 () q ((hiff () q pg).1 hq)

theorem room_write (h : Room enough L m pt va n k) (hx : Own L m pt x) {cell' : ℕ → ℕ}
    (hcell : ∀ a, ¬ Paging.InPage x a → cell' a = m.cell a) :
    Room enough L { m with cell := cell' } pt va n k ∧ Own L { m with cell := cell' } pt x := by
  obtain ⟨l, hok, hl⟩ := h
  obtain ⟨hok', hiff, -⟩ := write_spaces hok hx.owned (fun _ q => hx.plain q) hcell
  refine ⟨⟨l, hok', fun he => ?_⟩, hx.owned, fun q hq => hx.plain q ((hiff () q x).1 hq)⟩
  rcases hl he with hle | ⟨hn, hne, ⟨t, ht⟩, hle⟩
  · exact Or.inl hle
  · exact Or.inr ⟨hn, hne, ⟨t, ((hiff () _ t).2 ⟨isPath_path va, ht⟩).2⟩, hle⟩

theorem Own.step {m' : PageMem} {pt' : ℕ} (hx : Own L m pt x)
    (h : TableStep L m (fun _ : Unit => pt) m' fun _ : Unit => pt') : Own L m' pt' x := by
  refine ⟨⟨hx.owned.1, by rw [h.ref x hx.owned]; exact hx.owned.2⟩, fun q hq => ?_⟩
  rcases h.fresh () q x hq with ht | hno
  · exact hx.plain q ht
  · exact hno hx.owned

/-- **One page of a row is mapped.** -/
theorem room_map (h : Room enough L m pt va (n + 1) k) (ka flags : ℕ) :
    Ends (Wants enough) (fun r => Room enough L r.2 r.1 (addU (pageBase va) pageSize) n k ∧
      ∀ x, Own L m pt x → Own L r.2 r.1 x) (mapPage pt (pageBase va) ka flags m) := by
  obtain ⟨l, hok, hl⟩ := h
  have hpos : 1 ≤ regions va (n + 1) := regions_pos va (Nat.succ_ne_zero n)
  unfold mapPage
  cases hg : getPte true pt (pageBase va) m with
  | none =>
    refine ⟨Or.inl rfl, fun he => ?_⟩
    rcases hl he with hle | ⟨-, -, ⟨t, ht⟩, -⟩
    · obtain ⟨r, hr, -⟩ : ∃ r, getPte true pt (pageBase va) m = some r ∧ _ := getPte_total hok () (pageBase va) (by omega)
      rw [hg] at hr
      cases hr
    · rw [(getPte_of_table (by rw [path_pageBase]; exact ht)).1] at hg
      cases hg
  | some r =>
    obtain ⟨pte, pt', m'⟩ := r
    obtain ⟨t, hreach, rfl, hne⟩ := getPte_alloc hok () (pageBase va) hg
    have hpt : Function.update (fun _ : Unit => pt) () pt' = fun _ => pt' := funext fun _ => Function.update_self ..
    rw [hpt] at hreach
    obtain ⟨l', hok'⟩ := hreach.ok
    have htable : tableAt tableOf m'.cell ((fun _ : Unit => pt') ()) (path (pageBase va)) = some t := hreach.table
    obtain ⟨hok2, hstep, -⟩ := entry_write hok' (k := ()) htable (pageBase (k2p ka) ||| flags)
    simp only [if_neg hne]
    refine ⟨⟨l', hok2, fun he => ?_⟩, fun x hx => hx.step (hreach.grown.toTableStep.trans hstep)⟩
    -- at most four pages have become tables, and none if the table was there
    have hcost : 4 * regions va (n + 1) + k ≤ l'.length + 4 := by
      have hcnt := hok.free.cnt
      have hcnt' := hok'.free.cnt
      rcases hl he with hle | ⟨-, -, ⟨t', ht'⟩, hle⟩
      · obtain ⟨r, hr, htook⟩ : ∃ r, getPte true pt (pageBase va) m = some r ∧ r.2.2.cnt ≤ m.cnt + 4 :=
          getPte_total hok () (pageBase va) (by omega)
        rw [hg] at hr
        obtain rfl := Option.some.inj hr
        simp only at htook
        omega
      · rw [(getPte_of_table (by rw [path_pageBase]; exact ht')).1] at hg
        obtain ⟨-, hrest⟩ := Prod.mk.inj (Option.some.inj hg)
        obtain ⟨-, rfl⟩ := Prod.mk.inj hrest
        omega
    rw [regions_next] at hcost
    split_ifs at hcost with hlast
    · exact Or.inl (by omega)
    · rw [not_or] at hlast
      refine Or.inr ⟨hlast.1, ?_, ⟨t, ?_⟩, hcost⟩
      · have hlt : va / pageSize % 512 < 512 := Nat.mod_lt _ (by decide)
        rw [index_next]
        omega
      · rw [path_next hlast.2, ← path_pageBase]
        exact (hstep.table () _ t ⟨isPath_path _, hreach.table⟩).2

theorem Room.of_pages_zero (h : Room enough L m pt va 0 k) : Room enough L m pt va' 0 k := by
  obtain ⟨l, hok, hl⟩ := h.spare
  refine ⟨l, hok, fun he => Or.inl ?_⟩
  have := hl he
  simpa [regions] using this

end Room

/-! ## The two loops -/

variable {f filesz fuel k n off offset pt va : ℕ} {h : Phdr} {m : PageMem} {table : ℕ → File} {r : Bool × Pgdir × Sys}

/-- one turn of a loop over the n bytes from va on takes cur of them: all, or those up to the end of the page -/
theorem pagesIn_turn {cur : ℕ} (hn : n ≠ 0) (hcur : cur ≤ n) (hpage : cur ≤ pageSize - va % pageSize)
    (hend : n - cur = 0 ∨ cur = pageSize - va % pageSize) :
    pagesIn va n = pagesIn (addU va cur) (n - cur) + 1 ∧
      (pagesIn (addU va cur) (n - cur) = 0 ∨ addU va cur = addU (pageBase va) pageSize) := by
  have hmod : va % pageSize < pageSize := Nat.mod_lt _ (by decide)
  simp only [pagesIn, if_neg hn]
  rcases Nat.eq_zero_or_pos (n - cur) with hdone | hmore
  · rw [hdone, if_pos rfl]
    refine ⟨?_, Or.inl rfl⟩
    simp only [pageSize] at *
    omega
  · have hc : cur = pageSize - va % pageSize := hend.resolve_left hmore.ne'
    have heq : addU va cur = addU (pageBase va) pageSize := by
      simp only [addU, pageBase, pageSize] at *
      omega
    have hzero : addU (pageBase va) pageSize % pageSize = 0 := by
      simp only [addU, pageBase, pageSize]
      omega
    refine ⟨?_, Or.inr heq⟩
    rw [if_neg hmore.ne', heq, hzero]
    simp only [pageSize] at *
    omega

section Loops

variable {enough : Prop} {L : Layout} {k : ℕ}

/-- the next turn starts at the next page, or there is none -/
theorem Room.turn (h : Room enough L m pt (addU (pageBase va) pageSize) n k)
    (hva : n = 0 ∨ va' = addU (pageBase va) pageSize) : Room enough L m pt va' n k := by
  rcases hva with hn | hva
  · rw [hn] at h ⊢
    exact h.of_pages_zero
  · rw [hva]
    exact h

theorem addU_addU (a b d : ℕ) : addU (addU a b) d = addU a (b + d) := by
  simp only [addU, Nat.mod_add_mod, Nat.add_assoc]

theorem addU_lt (a b : ℕ) : addU a b < 2 ^ 64 := Nat.mod_lt _ (by decide)

theorem addU_zero {a : ℕ} (h : a < 2 ^ 64) : addU a 0 = a := by
  rw [addU, Nat.add_zero, Nat.mod_eq_of_lt h]

/-- the loop over the data ends, for want of pages or at its end; it was loaded if it is in the file -/
theorem loadData_ends (c : Content) (hfuel : filesz ≤ fuel)
    (hva : va < 2 ^ 64) (hoff : filesz ≠ 0 → offset ≤ c.bytes.length)
    (h : Room enough L m pt va (pagesIn va (tried c filesz offset)) (pagesIn va (tried c filesz offset) + k)) :
    Ends (Wants enough) (fun r => Spare enough L r.2.2.2 r.2.2.1 k ∧
      (r.1 = true ↔ filesz = 0 ∨ offset + filesz ≤ c.bytes.length) ∧ (r.1 = true → r.2.1 = addU va filesz))
      (loadData c fuel filesz offset va pt m) := by
  have hsize := c.small
  induction fuel generalizing filesz offset va pt m with
  | zero =>
    obtain rfl : filesz = 0 := by omega
    refine ⟨h.spare.mono (by omega), by simp, fun _ => ?_⟩
    exact (addU_zero hva).symm
  | succ fuel ih =>
    rw [loadData]
    by_cases hzero : filesz = 0
    · rw [if_pos hzero]
      subst hzero
      refine ⟨h.spare.mono (by omega), by simp, fun _ => ?_⟩
      exact (addU_zero hva).symm
    · rw [if_neg hzero]
      have hoff := hoff hzero
      have hmod : va % pageSize < pageSize := Nat.mod_lt _ (by decide)
      have hvo := vaOffset_eq va
      obtain ⟨cur, hcur⟩ : ∃ cur, cur = min filesz (pageSize - vaOffset va) := ⟨_, rfl⟩
      have hpos : tried c filesz offset ≠ 0 := by
        simp only [tried]
        omega
      obtain ⟨n, hn⟩ : ∃ n, pagesIn va (tried c filesz offset) = n + 1 := by
        refine ⟨pagesIn va (tried c filesz offset) - 1, ?_⟩
        simp only [pagesIn, if_neg hpos, pageSize]
        omega
      rw [hn, Nat.add_right_comm n 1 k] at h
      simp only [← hcur]
      refine (room_alloc h).bind fun r1 h1 => ?_
      obtain ⟨p, m1⟩ := r1
      obtain ⟨hroom1, hown1⟩ := h1
      have hclear : ∀ a, ¬ Paging.InPage p a → clearPage p m1.cell a = m1.cell a := fun a ha => clearPage_out ha _
      obtain ⟨hroom2, hown2⟩ := room_write hroom1 hown1 hclear
      refine (room_map hroom2 _ _).bind fun r3 h3 => ?_
      obtain ⟨pt3, m3⟩ := r3
      obtain ⟨hroom3, hkeep⟩ := h3
      rw [inodeRead_eq c (by simp only [pageSize] at hcur; omega), if_pos hoff]
      have hlen : ((c.bytes.drop offset).take cur).length = min cur (c.bytes.length - offset) := by
        rw [List.length_take, List.length_drop]
      have hstore : ∀ a, ¬ Paging.InPage p a →
          storeBytes m3.cell (p + vaOffset va) ((c.bytes.drop offset).take cur) a = m3.cell a := by
        intro a ha
        refine storeBytes_cell fun b hb hb' hab => ha ?_
        have hdvd := IsPage.dvd (Or.inl hown1.owned.1)
        simp only [Paging.InPage, pageSize] at *
        omega
      obtain ⟨hroom4, -⟩ := room_write hroom3 (hkeep p hown2) hstore
      simp only [bind, Except.bind, hlen]
      by_cases hfull : min cur (c.bytes.length - offset) = cur
      · rw [if_pos hfull]
        have hle : cur ≤ tried c filesz offset := by
          simp only [tried]
          omega
        have hend : tried c filesz offset - cur = 0 ∨ cur = pageSize - va % pageSize := by
          simp only [tried]
          omega
        obtain ⟨hturn, hnext⟩ := pagesIn_turn hpos hle (by omega) hend
        have htried : tried c filesz offset - cur = tried c (filesz - cur) (addU offset cur) := by
          rw [Fs.addU_of_lt (by omega)]
          simp only [tried]
          omega
        obtain rfl : n = pagesIn (addU va cur) (tried c filesz offset - cur) := by omega
        have hroom5 := hroom4.turn hnext
        rw [htried] at hroom5
        refine (ih (by omega) (addU_lt va cur) ?_ hroom5).mono fun r hr => ?_
        · intro _
          rw [Fs.addU_of_lt (by omega)]
          omega
        · obtain ⟨hspare, hloaded, hend'⟩ := hr
          rw [Fs.addU_of_lt (by omega)] at hloaded
          refine ⟨hspare, hloaded.trans (by omega), fun hx => ?_⟩
          rw [hend' hx, addU_addU, Nat.add_sub_cancel' (by omega)]
      · rw [if_neg hfull]
        refine ⟨hroom4.spare.mono (by omega), ?_, fun hx => by cases hx⟩
        simp only [Bool.false_eq_true, false_iff]
        omega

/-- the loop over the bss section, which starts at a page -/
theorem mapBss_ends (hfuel : filesz ≤ fuel) (hva : va < 2 ^ 64)
    (hpage : va % pageSize = 0) (h : Room enough L m pt va (pagesIn va filesz) k) :
    Ends (Wants enough) (fun r => Spare enough L r.2.2.2 r.2.2.1 k ∧ r.1 = 0 ∧ r.2.1 = addU va filesz)
      (mapBss L fuel filesz va pt m) := by
  induction fuel generalizing filesz va pt m with
  | zero =>
    obtain rfl : filesz = 0 := by omega
    exact ⟨h.spare, rfl, (addU_zero hva).symm⟩
  | succ fuel ih =>
    rw [mapBss]
    by_cases hzero : filesz = 0
    · rw [if_pos hzero]
      subst hzero
      exact ⟨h.spare, rfl, (addU_zero hva).symm⟩
    · rw [if_neg hzero]
      obtain ⟨cur, hcur⟩ : ∃ cur, cur = min pageSize filesz := ⟨_, rfl⟩
      have hpos : 0 < pageSize := by decide
      have hend : filesz - cur = 0 ∨ cur = pageSize - va % pageSize := by omega
      obtain ⟨hturn, hnext⟩ := pagesIn_turn hzero (by omega : cur ≤ filesz) (by omega) hend
      rw [hturn] at h
      simp only [← hcur]
      refine (room_map h _ _).bind fun r hr => ?_
      obtain ⟨pt1, m1⟩ := r
      have hroom := hr.1.turn hnext
      rcases hend with hdone | hfull
      · -- the last turn: the rest of the loop does nothing
        have hrest : mapBss L fuel (filesz - cur) (addU va cur) pt1 m1 = .ok (0, addU va cur, pt1, m1) := by
          rw [hdone]
          cases fuel with
          | zero => rfl
          | succ fuel => rw [mapBss, if_pos rfl]
        have hall : cur = filesz := by omega
        simp only [hrest]
        exact ⟨hroom.spare, rfl, by rw [hall]⟩
      · have hpage' : addU va cur % pageSize = 0 := by
          simp only [addU, pageSize] at *
          omega
        refine (ih (by omega) (addU_lt va cur) hpage' hroom).mono fun r hr => ?_
        obtain ⟨hspare, hzero', hend⟩ := hr
        refine ⟨hspare, hzero', ?_⟩
        rw [hend, addU_addU, Nat.add_sub_cancel' (by omega)]

-- the number of turns is a difference modulo 2 ^ 64, which must not be unfolded
attribute [local irreducible] mapBss

/-- the two assertions behind the loop do not fail -/
theorem mapBss_checked {start top : ℕ} (htop : addU start n = top) (hstart : start < 2 ^ 64)
    (hpage : start % pageSize = 0) (h : Room enough L m pt start (pagesIn start n) k) :
    Ends (Wants enough) (fun r => Spare enough L r.2 r.1 k) (do
      let r ← mapBss L n n start pt m
      if r.1 ≠ 0 then .error .assertion
      else if r.2.1 ≠ top then .error .assertion
      else .ok (r.2.2.1, r.2.2.2)) := by
  refine (mapBss_ends le_rfl hstart hpage h).bind fun r hr => ?_
  obtain ⟨hspare, hzero, hva⟩ := hr
  rw [if_neg (not_not.2 hzero), if_neg (not_not.2 (hva.trans htop))]
  exact hspare

theorem loadBss_ends
    (hs : Spare enough L m pt (4 * regions (bssStart h) (pagesIn (bssStart h) (bssSize h)) + k)) :
    Ends (Wants enough) (fun r => Spare enough L r.2 r.1 k) (loadBss L h (addU h.vaddr h.filesz) pt m) := by
  have htop := addU_lt h.vaddr h.memsz
  have hstart : bssStart h < 2 ^ 64 := addU_lt _ _
  have hnext : addU (pageBase (addU h.vaddr h.filesz)) pageSize = bssStart h := rfl
  rw [loadBss, if_neg (not_not.2 rfl)]
  simp only [hnext]
  by_cases hlt : bssStart h < addU h.vaddr h.memsz
  · have hsize : subU (addU h.vaddr h.memsz) (bssStart h) = bssSize h := Fs.subU_of_le hlt.le htop
    have hpage : bssStart h % pageSize = 0 := by
      simp only [bssStart, addU, pageBase, pageSize]
      omega
    have hend : addU (bssStart h) (bssSize h) = addU h.vaddr h.memsz := by
      have hsum : bssStart h + bssSize h = addU h.vaddr h.memsz := Nat.add_sub_cancel' hlt.le
      rw [Fs.addU_of_lt (by omega), hsum]
    rw [if_pos hlt, hsize]
    exact mapBss_checked hend hstart hpage hs.room
  · rw [if_neg hlt]
    exact hs.mono (Nat.le_add_left _ _)

/-- a segment with flags RW whose data does not start behind the end of the file -/
theorem loadRw_ends (c : Content) (hload : h.type = ptLoad) (hrw : h.flags = pfRw)
    (hvaddr : h.vaddr < 2 ^ 64) (hfits : Fits c h) (hs : Spare enough L m pt (pages c h + k)) :
    Ends (Wants enough) (fun r => Spare enough L r.2.2 r.2.1 k ∧ (r.1 = true ↔ DataIn c h)) (loadRw L c h pt m) := by
  rw [pages, if_pos ⟨hload, hrw⟩] at hs
  simp only [Nat.add_assoc] at hs
  refine (loadData_ends c le_rfl hvaddr (hfits hload hrw) hs.room).bind fun r hr => ?_
  obtain ⟨ok, va, pt1, m1⟩ := r
  obtain ⟨hspare, hok, hva⟩ := hr
  cases ok with
  | false => exact ⟨hspare.mono (by omega), hok⟩
  | true =>
    have hin : DataIn c h := hok.1 rfl
    rw [if_pos hin] at hspare
    obtain rfl : va = addU h.vaddr h.filesz := hva rfl
    refine (loadBss_ends hspare).bind fun r hr => ?_
    exact ⟨hr, hok⟩

/-- data behind the end of the file is not loaded -/
theorem loadData_behind (c : Content) (hzero : filesz ≠ 0)
    (hoff : ¬ offset ≤ c.bytes.length) (r : Bool × ℕ × ℕ × PageMem) :
    loadData c filesz filesz offset va pt m ≠ .ok r := by
  intro h
  obtain ⟨fuel, rfl⟩ := Nat.exists_eq_succ_of_ne_zero hzero
  rw [loadData, if_neg hzero] at h
  obtain ⟨r1, -, h⟩ := bind_ok h
  obtain ⟨r2, -, h⟩ := bind_ok h
  obtain ⟨d, hd, -⟩ := bind_ok h
  rw [inodeRead_eq c (by simp only [pageSize]; omega), if_neg hoff] at hd
  cases hd

end Loops

/-! ## The file table -/

/-- the number of entries that are not used -/
def freeEntries (table : ℕ → File) : ℕ := ((Finset.range nfile).filter fun i => (table i).ref = 0).card

theorem fileAllocLoop_some (h : fileAllocLoop table fuel k = some f) :
    k ≤ f ∧ f < k + fuel := by
  induction fuel generalizing k with
  | zero => cases h
  | succ fuel ih =>
    rw [fileAllocLoop] at h
    split_ifs at h with hk
    · rw [← Option.some.inj h]
      omega
    · have := ih h
      omega

theorem fileAllocLoop_none {i : ℕ} (h : fileAllocLoop table fuel k = none) (hi : k ≤ i)
    (hlt : i < k + fuel) : (table i).ref ≠ 0 := by
  induction fuel generalizing k with
  | zero => omega
  | succ fuel ih =>
    rw [fileAllocLoop] at h
    split_ifs at h with hk
    rcases Nat.eq_or_lt_of_le hi with rfl | hi
    · exact hk
    · exact ih h hi (by omega)

theorem fileAlloc_none (h : fileAlloc table = none) : freeEntries table = 0 := by
  rw [freeEntries, Finset.card_eq_zero, Finset.filter_eq_empty_iff]
  intro i hi
  exact fileAllocLoop_none h (Nat.zero_le i) (by rw [Nat.zero_add]; exact Finset.mem_range.1 hi)

theorem freeEntries_alloc (h : fileAlloc table = some f) {x : File} (hx : x.ref ≠ 0) :
    freeEntries (Function.update table f x) + 1 = freeEntries table := by
  have href := fileAllocLoop_ref h
  have hlt := (fileAllocLoop_some h).2
  rw [Nat.zero_add] at hlt
  have hmem : f ∈ (Finset.range nfile).filter fun i => (table i).ref = 0 :=
    Finset.mem_filter.2 ⟨Finset.mem_range.2 hlt, href⟩
  have hset : ((Finset.range nfile).filter fun i => (Function.update table f x i).ref = 0) =
      ((Finset.range nfile).filter fun i => (table i).ref = 0).erase f := by
    ext i
    by_cases hi : i = f
    · simp [hi, hx]
    · simp [hi]
  rw [freeEntries, freeEntries, hset, Finset.card_erase_add_one hmem]

/-! ## The loop over the headers -/

/-- if `enough` holds, there are k pages and j entries of the file table to take -/
structure Ready (enough : Prop) (L : Layout) (d : Pgdir) (s : Sys) (k j : ℕ) : Prop where
  pages : Spare enough L s.mem d.pt k
  files : enough → j ≤ freeEntries s.table

section Headers

variable {enough : Prop} {L : Layout} {c : Content} {d : Pgdir} {s : Sys} {k j : ℕ}

theorem ofBytes_vaddr_lt (b : List UInt8) : (Phdr.ofBytes b).vaddr < 2 ^ 64 := Bytes.getLE_lt (struct phdrSize b) 16 8

/-- a segment is accepted or refused, by what the header says -/
theorem loadSegment_ends (hload : h.type = ptLoad) (hvaddr : h.vaddr < 2 ^ 64) (hfits : Fits c h)
    (hr : Ready enough L d s (pages c h + k) (files h + j)) :
    Ends (Wants enough) (fun r => Ready enough L r.2.1 r.2.2 k j ∧ (r.1 = true ↔ Accepts c h)) (loadSegment L c h d s) := by
  obtain ⟨hpages, hfiles⟩ := hr
  unfold loadSegment
  by_cases hrx : h.flags = pfRx
  · have hacc : Accepts c h := fun _ => Or.inl hrx
    rw [files, if_pos ⟨hload, hrx⟩] at hfiles
    rw [if_pos hrx, loadRx]
    cases hf : fileAlloc s.table with
    | none =>
      refine ⟨Or.inr rfl, fun he => ?_⟩
      have := hfiles he
      rw [fileAlloc_none hf] at this
      omega
    | some f =>
      refine ⟨⟨hpages.mono (by omega), fun he => ?_⟩, iff_of_true rfl hacc⟩
      have := hfiles he
      have hone := freeEntries_alloc hf (x := ⟨.inode, 1, true, false, theInode, 0⟩) one_ne_zero
      simp only
      omega
  · rw [if_neg hrx]
    by_cases hrw : h.flags = pfRw
    · rw [if_pos hrw]
      refine (loadRw_ends c hload hrw hvaddr hfits hpages).bind fun r hr => ?_
      obtain ⟨ok, pt, m⟩ := r
      obtain ⟨hspare, hok⟩ := hr
      refine ⟨⟨hspare, fun he => (Nat.le_add_left _ _).trans (hfiles he)⟩, hok.trans ?_⟩
      simp only [Accepts, hload, hrw, true_and, forall_const]
      exact ⟨Or.inr, fun hx => hx.resolve_left (by decide)⟩
    · rw [if_neg hrw]
      refine ⟨⟨hpages.mono (by omega), fun he => (Nat.le_add_left _ _).trans (hfiles he)⟩, iff_of_false (by simp) ?_⟩
      simp only [Accepts, hload, hrx, hrw, false_and, or_self, forall_const, not_false_eq_true]

/-- a segment with data behind the end of the file is neither accepted nor refused -/
theorem loadSegment_fits (hr : loadSegment L c h d s = .ok r) : Fits c h := by
  intro _ hrw hzero
  by_contra hoff
  have hrx : h.flags ≠ pfRx := by
    rw [hrw]
    decide
  rw [loadSegment, if_neg hrx, if_pos hrw] at hr
  obtain ⟨r1, hload, -⟩ := bind_ok hr
  obtain ⟨r2, hdata, -⟩ := bind_ok hload
  exact loadData_behind c hzero hoff r2 hdata

theorem headers_succ (n off : ℕ) (hlen : off + phdrSize ≤ c.bytes.length) :
    headers c (n + 1) off = Phdr.ofBytes ((c.bytes.drop off).take phdrSize) ::
      if Accepts c (Phdr.ofBytes ((c.bytes.drop off).take phdrSize)) then headers c n (off + phdrSize) else [] := by
  rw [headers, if_pos hlen]

/-- one turn of the loop over the headers -/
theorem loadLoop_succ (n : ℕ) (hoff : off ≤ c.bytes.length) :
    loadLoop L c (n + 1) off d s =
      if off + phdrSize ≤ c.bytes.length then
        if (Phdr.ofBytes ((c.bytes.drop off).take phdrSize)).type = ptLoad then do
          let r ← loadSegment L c (Phdr.ofBytes ((c.bytes.drop off).take phdrSize)) d s
          if r.1 then loadLoop L c n (off + phdrSize) r.2.1 r.2.2 else .ok (false, r.2.1, r.2.2)
        else loadLoop L c n (off + phdrSize) d s
      else .ok (false, d, s) := by
  have hsize := c.small
  have hlen : ((c.bytes.drop off).take phdrSize).length = phdrSize ↔ off + phdrSize ≤ c.bytes.length := by
    rw [List.length_take, List.length_drop]
    omega
  have hadd : addU off phdrSize = off + phdrSize := Fs.addU_of_lt (by simp only [phdrSize]; omega)
  rw [loadLoop, inodeRead_eq c (by decide), if_pos hoff, hadd]
  simp only [bind, Except.bind, hlen]

theorem loadLoop_ends (hoff : n ≠ 0 → off ≤ c.bytes.length) (hfits : ∀ h ∈ headers c n off, Fits c h)
    (hr : Ready enough L d s ((headers c n off).map (pages c)).sum ((headers c n off).map files).sum) :
    Ends (Wants enough) (fun _ => True) (loadLoop L c n off d s) := by
  induction n generalizing off d s with
  | zero => trivial
  | succ n ih =>
    rw [loadLoop_succ n (hoff (Nat.succ_ne_zero n))]
    by_cases hlen : off + phdrSize ≤ c.bytes.length
    · rw [if_pos hlen]
      rw [headers_succ n off hlen] at hfits hr
      set h := Phdr.ofBytes ((c.bytes.drop off).take phdrSize) with hh
      simp only [List.map_cons, List.sum_cons] at hr
      by_cases hload : h.type = ptLoad
      · rw [if_pos hload]
        refine (loadSegment_ends hload (hh ▸ ofBytes_vaddr_lt _) (hfits h List.mem_cons_self) hr).bind fun r hr => ?_
        obtain ⟨hready, hok⟩ := hr
        by_cases hacc : Accepts c h
        · rw [if_pos hacc] at hfits hready
          rw [if_pos (hok.2 hacc)]
          exact ih (fun _ => hlen) (fun h' hh' => hfits h' (List.mem_cons_of_mem _ hh')) hready
        · rw [if_neg fun hx => hacc (hok.1 hx)]
          trivial
      · rw [if_neg hload]
        have hacc : Accepts c h := fun hx => absurd hx hload
        rw [if_pos hacc] at hfits hr
        exact ih (fun _ => hlen) (fun h' hh' => hfits h' (List.mem_cons_of_mem _ hh'))
          ⟨hr.pages.mono (Nat.le_add_left _ _), fun he => (Nat.le_add_left _ _).trans (hr.files he)⟩
    · rw [if_neg hlen]
      trivial

/-- what the loop gets to is in the file -/
theorem loadLoop_fits (hspaces : ∃ l, SpacesOk L s.mem (fun _ : Unit => d.pt) l)
    (hr : loadLoop L c n off d s = .ok r) : (n ≠ 0 → off ≤ c.bytes.length) ∧ ∀ h ∈ headers c n off, Fits c h := by
  induction n generalizing off d s with
  | zero => exact ⟨fun hx => absurd rfl hx, fun h hh => by cases hh⟩
  | succ n ih =>
    have hoff : off ≤ c.bytes.length := by
      by_contra hno
      rw [loadLoop, inodeRead_eq c (by decide), if_neg hno] at hr
      cases hr
    refine ⟨fun _ => hoff, ?_⟩
    rw [loadLoop_succ n hoff] at hr
    by_cases hlen : off + phdrSize ≤ c.bytes.length
    · rw [if_pos hlen] at hr
      rw [headers_succ n off hlen]
      set h := Phdr.ofBytes ((c.bytes.drop off).take phdrSize) with hh
      by_cases hload : h.type = ptLoad
      · rw [if_pos hload] at hr
        obtain ⟨r1, hseg, hr⟩ := bind_ok hr
        have hfits := loadSegment_fits hseg
        obtain ⟨l, hok⟩ := hspaces
        have hends : Ends (Wants False) (fun r => Ready False L r.2.1 r.2.2 0 0 ∧ (r.1 = true ↔ Accepts c h)) (.ok r1) := by
          rw [← hseg]
          exact loadSegment_ends hload (hh ▸ ofBytes_vaddr_lt _) hfits ⟨⟨l, hok, False.elim⟩, False.elim⟩
        obtain ⟨⟨⟨l1, hok1, -⟩, -⟩, hacc⟩ := hends
        by_cases hx : r1.1 = true
        · rw [if_pos hx] at hr
          rw [if_pos (hacc.1 hx), List.forall_mem_cons]
          exact ⟨hfits, (ih ⟨l1, hok1⟩ hr).2⟩
        · rw [if_neg fun h' => hx (hacc.2 h'), List.forall_mem_singleton]
          exact hfits
      · rw [if_neg hload] at hr
        have hacc : Accepts c h := fun hx => absurd hx hload
        rw [if_pos hacc, List.forall_mem_cons]
        exact ⟨fun hx => absurd hx hload, (ih hspaces hr).2⟩
    · rw [headers, if_neg hlen]
      intro h hh
      cases hh

end Headers

/-- before the first segment there is no page table -/
theorem spaces_empty {L : Layout} {l : List ℕ} (h : FreeList L m l) :
    SpacesOk L m (fun _ : Unit => 0) l := by
  have hno : ∀ k q t, ¬ HasTable m (fun _ : Unit => 0) k q t := fun k q t ht => by
    have := ht.2
    rw [tableAt, if_pos rfl] at this
    cases this
  exact ⟨h, fun k q t ht => absurd ht (hno k q t), fun k q _ _ t ht => absurd ht (hno k q t)⟩

/-- **The loader and its files.** On a file in which neither the program headers nor any data the loader gets to start behind the
end, no assertion fails, whatever memory there is. With enough pages and entries of the file table, the loader returns on
these files and on no others. -/
theorem load_returns {L : Layout} {c : Content} {s : Sys} {l : List ℕ} (hfree : FreeList L s.mem l) :
    (Readable c → ∀ e, load L c s = .error e → e = .noPage ∨ e = .noFile) ∧
    (needPages c ≤ l.length → needFiles c ≤ freeEntries s.table → (Readable c ↔ ∃ r, load L c s = .ok r)) := by
  have hspaces := spaces_empty hfree
  have hends : Readable c → Ends (Wants (needPages c ≤ l.length ∧ needFiles c ≤ freeEntries s.table)) (fun _ => True)
      (load L c s) := by
    intro hread
    rw [load_eq]
    by_cases hc : Header c
    · rw [if_pos hc]
      obtain ⟨hoff, hfits⟩ := hread hc
      exact (loadLoop_ends hoff hfits ⟨⟨l, hspaces, fun he => he.1⟩, fun he => he.2⟩).bind fun r _ => trivial
    · rw [if_neg hc]
      trivial
  refine ⟨fun hread e he => ?_, fun hp hf => ⟨fun hread => ?_, fun ⟨r, hr⟩ hc => ?_⟩⟩
  · have := hends hread
    rw [he] at this
    exact this.1
  · have := hends hread
    cases hl : load L c s with
    | ok r => exact ⟨r, rfl⟩
    | error e =>
      rw [hl] at this
      exact absurd ⟨hp, hf⟩ this.2
  · rw [load_eq, if_pos hc] at hr
    obtain ⟨r1, hloop, -⟩ := bind_ok hr
    exact loadLoop_fits ⟨l, hspaces⟩ hloop

/-- after `kinit` all pages are free -/
theorem kinit_length {L : Layout} {cell : ℕ → ℕ} {m : PageMem} {l : List ℕ} (hk : kinit L cell = some m)
    (h : FreeList L m l) : l.length = allocatablePageCount L := by
  simp only [kinit, Option.map_eq_some_iff] at hk
  obtain ⟨cell', -, rfl⟩ := hk
  have hcnt := h.cnt
  simp only at hcnt
  omega

/-- ten pages to hand out -/
def tenPages : Layout := ⟨kernelStop - 12 * pageSize, by decide, by decide⟩

/-- a text segment, and a data segment with a bss section -/
def textAndData : Content :=
  ⟨ehdrBytes 64 2 ++ phdrBytes pfRx 0 0x400000 16 16 ++ phdrBytes pfRw 8 0x600000 100 9000, by decide +kernel⟩

/-- with one entry of the file table and nine pages that file is loaded -/
theorem load_returns_textAndData : ∃ m r, kinit tenPages (fun _ => 0) = some m ∧ load tenPages textAndData (start m) = .ok r := by
  obtain ⟨m, l, hk, hpages, -, -⟩ := kinit_ok tenPages fun _ => 0
  have hread : Readable textAndData := by decide +kernel
  have hneed : needPages textAndData = 9 ∧ needFiles textAndData = 1 := by decide +kernel
  have hentries : freeEntries (start m).table = nfile := by simp [freeEntries, start]
  have hlen : l.length = 10 := by
    rw [kinit_length hk hpages.toFreeList]
    decide
  obtain ⟨r, hr⟩ := ((load_returns hpages.toFreeList).2 (by rw [hneed.1, hlen]; decide)
    (by rw [hneed.2, hentries]; decide)).1 hread
  exact ⟨m, r, hk, hr⟩

/-- the program headers start behind the end of the file -/
def farHeaders : Content := ⟨ehdrBytes 4096 1, by decide +kernel⟩

/-- the data of a segment starts behind the end of the file -/
def farData : Content := ⟨ehdrBytes 64 1 ++ phdrBytes pfRw 4096 0x400000 8 8, by decide +kernel⟩

/-- **Two files of at most 120 bytes that stop the kernel.** -/
theorem load_asserts : farHeaders.bytes.length = 64 ∧ farData.bytes.length = 120 ∧
    ∃ m, kinit eightPages (fun _ => 0) = some m ∧
      load eightPages farHeaders (start m) = .error .assertion ∧ load eightPages farData (start m) = .error .assertion := by
  obtain ⟨m, -, hk, -⟩ := kinit_ok eightPages fun _ => 0
  have hrun : ((kinit eightPages fun _ => 0).map fun m =>
      decide (reason (load eightPages farHeaders (start m)) = some .assertion ∧
        reason (load eightPages farData (start m)) = some .assertion)) = some true := by
    decide +kernel
  rw [hk, Option.map_some] at hrun
  obtain ⟨hheaders, hdata⟩ := of_decide_eq_true (Option.some.inj hrun)
  exact ⟨by decide +kernel, by decide +kernel, m, hk, error_of_reason hheaders, error_of_reason hdata⟩

end OsKernel.Kernel.Exec
