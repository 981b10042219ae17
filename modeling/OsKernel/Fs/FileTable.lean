/-
The file table (`fs/file.c`).

Any number of processes open, duplicate and close files. A region with `ftable.lock` held is one step; so are the writes by
which an opener sets up the entry `file_alloc` gave it, which take no lock, and the `inodes.put` inside its own transaction
that `file_close` makes with the lock released. Calls in flight are kept as lists of the entries they work on: `opening`
(handed out, not set up yet), `closing` (count at 0, inode not put yet), `putDone` (inode put, entry not cleared yet).

`Entry` says which four situations an entry can be in. Result (`entry_safety`): every entry with handles counts them and is
as its opener set it up, nothing that is still closing touches an entry that is handed out, and a live handle can be closed;
in every run in which `file_alloc` does not pick an entry whose close is in flight. It can pick such an entry, because the
count is already 0 there, and then the end of that close destroys the new file (`closed_under_the_opener`).
-/
import OsKernel.Lib.Runs

namespace OsKernel.Fs.FileTable

open OsKernel.Runs
open Function (update update_of_ne update_self)

/-! ## The functions -/

def nfile : ℕ := 65536

inductive FileType where
  | none
  | pipe
  | inode
deriving DecidableEq, Repr

/-- `File`; obj is the union of `pipe` and `ip` -/
structure File where
  type : FileType
  ref : ℤ
  readable : Bool
  writable : Bool
  obj : ℕ
  off : ℕ
deriving DecidableEq, Repr

/-- what an opener sets -/
structure Setup where
  type : FileType
  obj : ℕ
  readable : Bool
  writable : Bool
deriving DecidableEq, Repr

def File.setup (f : File) : Setup := ⟨f.type, f.obj, f.readable, f.writable⟩

/-- an opener has an object to set: `openat`, `execve` an inode, `pipe_alloc` a pipe -/
def Setup.Valid (o : Setup) : Prop := o.type ≠ .none ∧ (o.type = .inode → o.obj ≠ 0)

instance (o : Setup) : Decidable o.Valid := inferInstanceAs (Decidable (_ ∧ _))

/-- the loop of `file_alloc` from entry i on -/
def fileAllocLoop (table : ℕ → File) : ℕ → ℕ → Option ℕ
  | 0, _ => none
  | fuel + 1, i => if (table i).ref = 0 then some i else fileAllocLoop table fuel (i + 1)

/-- the entry `file_alloc` picks; none is the PANIC -/
def fileAlloc (table : ℕ → File) : Option ℕ := fileAllocLoop table nfile 0

/-- the first region of `file_close`: the entry, and whether the inode is to be put; none is a PANIC or a failed assert -/
def fileClose (f : File) : Option (File × Bool) :=
  if f.ref < 1 then none
  else
    let f := { f with ref := f.ref - 1 }
    if f.ref > 0 then some (f, false)
    else
      match f.type with
      | .inode => if f.obj = 0 then none else some (f, true)
      -- a pipe is closed here, with both locks held
      | .pipe | .none => some (f, false)

/-- the second region of `file_close` on an inode -/
def fileClear (f : File) : File := { f with type := .none, ref := 0, readable := false, writable := false }

/-! ## Calls in flight -/

structure Sys where
  table : ℕ → File
  /-- one element per reference that somebody holds to an entry that is set up -/
  handles : List ℕ
  opening : List ℕ
  closing : List ℕ
  putDone : List ℕ
  /-- the last setup of each entry -/
  opened : ℕ → Setup
  /-- the inodes put -/
  puts : List ℕ

def init : Sys := ⟨fun _ => ⟨.none, 0, false, false, 0, 0⟩, [], [], [], [], fun _ => ⟨.none, 0, false, false⟩, []⟩

inductive Call where
  | alloc
  | setup (i : ℕ) (o : Setup)
  | dup (i : ℕ)
  | close (i : ℕ)
  /-- the opener has no descriptor left and closes the entry again -/
  | abandon (i : ℕ)
  | put (i : ℕ)
  | clear (i : ℕ)

/-- `file_close` of a reference to entry i, after the reference was dropped from its list -/
def closeRegion (s : Sys) (i : ℕ) : Option Sys :=
  (fileClose (s.table i)).map fun r =>
    { s with
      table := update s.table i r.1
      closing := if r.2 then i :: s.closing else s.closing }

def step (s : Sys) : Call → Option Sys
  | .alloc =>
    (fileAlloc s.table).map fun i =>
      { s with table := update s.table i { s.table i with ref := 1 }, opening := i :: s.opening }
  | .setup i o =>
    if i ∈ s.opening ∧ o.Valid then
      some { s with
        table := update s.table i
          { s.table i with type := o.type, obj := o.obj, readable := o.readable, writable := o.writable, off := 0 }
        opening := s.opening.erase i
        handles := i :: s.handles
        opened := update s.opened i o }
    else none
  | .dup i =>
    if i ∈ s.handles then
      some { s with
        table := update s.table i { s.table i with ref := (s.table i).ref + 1 }
        handles := i :: s.handles }
    else none
  | .close i => if i ∈ s.handles then closeRegion { s with handles := s.handles.erase i } i else none
  | .abandon i => if i ∈ s.opening then closeRegion { s with opening := s.opening.erase i } i else none
  | .put i =>
    if i ∈ s.closing then
      some { s with
        closing := s.closing.erase i
        putDone := i :: s.putDone
        -- `f->ip` is read here, without the lock
        puts := (s.table i).obj :: s.puts }
    else none
  | .clear i =>
    if i ∈ s.putDone then
      some { s with putDone := s.putDone.erase i, table := update s.table i (fileClear (s.table i)) }
    else none

/-- `file_alloc` does not pick an entry whose close is in flight -/
def Undisturbed (s : Sys) : Call → Prop
  | .alloc => ∀ i ∈ fileAlloc s.table, i ∉ s.closing ∧ i ∉ s.putDone
  | _ => True

/-! ## The four situations of an entry -/

/-- an entry f last set up as o, with h handles, p openings, c closings and d closings whose inode is put -/
inductive Entry (f : File) (o : Setup) : ℕ → ℕ → ℕ → ℕ → Prop
  | free (href : f.ref = 0) (htype : f.type ≠ .inode) : Entry f o 0 0 0 0
  | opening (href : f.ref = 1) (htype : f.type ≠ .inode) : Entry f o 0 1 0 0
  | live (n : ℕ) (hn : 0 < n) (href : f.ref = n) (hset : f.setup = o) (hvalid : o.Valid) : Entry f o n 0 0 0
  | closing (c d : ℕ) (hone : c + d = 1) (href : f.ref = 0) (hset : f.setup = o) : Entry f o 0 0 c d

/-- entry i is in one of them -/
def EntryAt (s : Sys) (i : ℕ) : Prop :=
  Entry (s.table i) (s.opened i) (s.handles.count i) (s.opening.count i) (s.closing.count i) (s.putDone.count i)

def Inv (s : Sys) : Prop := ∀ i, EntryAt s i

theorem inv_init : Inv init := fun _ => .free rfl FileType.noConfusion

/-- a step that works on entry i leaves the others as they are -/
theorem EntryAt.congr {s s' : Sys} {j : ℕ} (h : EntryAt s j) (ht : s'.table j = s.table j)
    (ho : s'.opened j = s.opened j) (h1 : s'.handles.count j = s.handles.count j)
    (h2 : s'.opening.count j = s.opening.count j) (h3 : s'.closing.count j = s.closing.count j)
    (h4 : s'.putDone.count j = s.putDone.count j) : EntryAt s' j := by
  unfold EntryAt
  rw [ht, ho, h1, h2, h3, h4]
  exact h

theorem fileAllocLoop_ref {table : ℕ → File} {fuel k i : ℕ} (h : fileAllocLoop table fuel k = some i) :
    (table i).ref = 0 := by
  induction fuel generalizing k with
  | zero => cases h
  | succ fuel ih =>
    rw [fileAllocLoop] at h
    split_ifs at h with hk
    · rwa [← Option.some.inj h]
    · exact ih h

/-- the close of a single reference -/
theorem fileClose_last {f : File} (href : f.ref = 1) : fileClose f =
    if f.type = .inode then if f.obj = 0 then none else some ({ f with ref := 0 }, true)
    else some ({ f with ref := 0 }, false) := by
  obtain ⟨type, ref, readable, writable, obj, off⟩ := f
  obtain rfl : ref = 1 := href
  cases type <;> rfl

section Entry

variable {f : File} {o : Setup} {h p c d : ℕ} (e : Entry f o h p c d)
include e

theorem Entry.of_free (href : f.ref = 0) (hc : c = 0) (hd : d = 0) : f.type ≠ .inode ∧ h = 0 ∧ p = 0 := by
  cases e with
  | free _ htype => exact ⟨htype, rfl, rfl⟩
  | opening hone _ => rw [href] at hone; exact absurd hone (by decide)
  | live n hn hcount _ _ => omega
  | closing c d hone _ _ => omega

theorem Entry.of_opening (hp : 0 < p) : f.ref = 1 ∧ f.type ≠ .inode ∧ h = 0 ∧ p = 1 ∧ c = 0 ∧ d = 0 := by
  cases e with
  | opening href htype => exact ⟨href, htype, rfl, rfl, rfl, rfl⟩
  | _ => exact absurd hp (lt_irrefl 0)

theorem Entry.of_live (hh : 0 < h) : f.ref = h ∧ f.setup = o ∧ o.Valid ∧ p = 0 ∧ c = 0 ∧ d = 0 := by
  cases e with
  | live n hn href hset hvalid => exact ⟨href, hset, hvalid, rfl, rfl, rfl⟩
  | _ => exact absurd hh (lt_irrefl 0)

theorem Entry.of_closing (hcd : 0 < c + d) : f.ref = 0 ∧ f.setup = o ∧ h = 0 ∧ p = 0 ∧ c + d = 1 := by
  cases e with
  | closing c d hone href hset => exact ⟨href, hset, rfl, rfl, hone⟩
  | _ => exact absurd hcd (lt_irrefl 0)

end Entry

/-! ## Steps -/

section Steps

variable {s s' : Sys} (inv : Inv s)
include inv

theorem inv_alloc (hu : Undisturbed s .alloc) (hs : step s .alloc = some s') : Inv s' := by
  obtain ⟨i, hi, rfl⟩ := Option.map_eq_some_iff.1 hs
  obtain ⟨hc, hd⟩ := hu i hi
  have hc0 := List.count_eq_zero.2 hc
  have hd0 := List.count_eq_zero.2 hd
  obtain ⟨htype, hh0, hp0⟩ := (inv i).of_free (fileAllocLoop_ref hi) hc0 hd0
  intro j
  by_cases hji : j = i
  · subst hji
    unfold EntryAt
    simp only [update_self, List.count_cons_self, hc0, hd0, hh0, hp0]
    exact .opening rfl htype
  · exact (inv j).congr (update_of_ne hji _ _) rfl rfl (List.count_cons_of_ne (Ne.symm hji)) rfl rfl

theorem inv_setup {i : ℕ} {o : Setup} (hs : step s (.setup i o) = some s') : Inv s' := by
  obtain ⟨⟨hi, hvalid⟩, hs⟩ := Option.ite_none_right_eq_some.1 hs
  obtain ⟨href, -, hh0, hp1, hc0, hd0⟩ := (inv i).of_opening (List.count_pos_iff.2 hi)
  rw [← Option.some.inj hs]
  intro j
  by_cases hji : j = i
  · subst hji
    unfold EntryAt
    simp only [update_self, List.count_cons_self, List.count_erase_self, hc0, hd0, hh0, hp1]
    exact .live 1 one_pos href rfl hvalid
  · exact (inv j).congr (update_of_ne hji _ _) (update_of_ne hji _ _)
      (List.count_cons_of_ne (Ne.symm hji)) (List.count_erase_of_ne hji) rfl rfl

theorem inv_dup {i : ℕ} (hs : step s (.dup i) = some s') : Inv s' := by
  obtain ⟨hi, hs⟩ := Option.ite_none_right_eq_some.1 hs
  obtain ⟨href, hset, hvalid, hp0, hc0, hd0⟩ := (inv i).of_live (List.count_pos_iff.2 hi)
  rw [← Option.some.inj hs]
  intro j
  by_cases hji : j = i
  · subst hji
    unfold EntryAt
    simp only [update_self, List.count_cons_self, hc0, hd0, hp0]
    exact .live _ (Nat.succ_pos _) (by rw [href]; rfl) hset hvalid
  · exact (inv j).congr (update_of_ne hji _ _) rfl (List.count_cons_of_ne (Ne.symm hji)) rfl rfl rfl

/-- the close of a handle returns; its entry is still live, free, or waits for its inode to be put -/
theorem close_entry {i : ℕ} (hi : i ∈ s.handles) :
    ∃ f b, fileClose (s.table i) = some (f, b) ∧
      Entry f (s.opened i) (s.handles.count i - 1) 0 (if b then 1 else 0) 0 := by
  have hpos := List.count_pos_iff.2 hi
  obtain ⟨href, hset, hvalid, -⟩ := (inv i).of_live hpos
  by_cases hmore : 1 < s.handles.count i
  · have hnot : ¬ (s.table i).ref < 1 := by omega
    have hgt : (s.table i).ref - 1 > 0 := by omega
    refine ⟨{ s.table i with ref := (s.table i).ref - 1 }, false, ?_, ?_⟩
    · rw [fileClose, if_neg hnot]
      exact if_pos hgt
    · exact .live _ (by omega) (show (s.table i).ref - 1 = _ by omega) hset hvalid
  · have hlast : s.handles.count i - 1 = 0 := by omega
    have htype : (s.table i).type = (s.opened i).type := congrArg Setup.type hset
    have hobj : (s.table i).obj = (s.opened i).obj := congrArg Setup.obj hset
    rw [hlast, fileClose_last (by omega)]
    by_cases ht : (s.table i).type = .inode
    · have hne : (s.table i).obj ≠ 0 := by
        rw [hobj]
        exact hvalid.2 (htype.symm.trans ht)
      rw [if_pos ht, if_neg hne]
      exact ⟨_, true, rfl, .closing 1 0 rfl rfl hset⟩
    · rw [if_neg ht]
      exact ⟨_, false, rfl, .free rfl ht⟩

theorem inv_close {i : ℕ} (hs : step s (.close i) = some s') : Inv s' := by
  obtain ⟨hi, hs⟩ := Option.ite_none_right_eq_some.1 hs
  obtain ⟨f, b, hclose, hentry⟩ := close_entry inv hi
  obtain ⟨-, -, -, hp0, hc0, hd0⟩ := (inv i).of_live (List.count_pos_iff.2 hi)
  simp only [closeRegion, hclose, Option.map_some, Option.some.injEq] at hs
  rw [← hs]
  intro j
  by_cases hji : j = i
  · subst hji
    unfold EntryAt
    cases b <;> simpa [hp0, hc0, hd0] using hentry
  · refine (inv j).congr (update_of_ne hji _ _) rfl (List.count_erase_of_ne hji) rfl ?_ rfl
    cases b with
    | false => rfl
    | true => exact List.count_cons_of_ne (Ne.symm hji)

theorem inv_abandon {i : ℕ} (hs : step s (.abandon i) = some s') : Inv s' := by
  obtain ⟨hi, hs⟩ := Option.ite_none_right_eq_some.1 hs
  obtain ⟨href, htype, hh0, hp1, hc0, hd0⟩ := (inv i).of_opening (List.count_pos_iff.2 hi)
  have hclose : fileClose (s.table i) = some ({ s.table i with ref := 0 }, false) := by
    rw [fileClose_last href, if_neg htype]
  simp only [closeRegion, hclose, Option.map_some, Option.some.injEq] at hs
  rw [← hs]
  intro j
  by_cases hji : j = i
  · subst hji
    unfold EntryAt
    simp only [update_self, List.count_erase_self, Bool.false_eq_true, if_false, hc0, hd0, hh0, hp1]
    exact .free rfl htype
  · exact (inv j).congr (update_of_ne hji _ _) rfl rfl (List.count_erase_of_ne hji) rfl rfl

theorem inv_put {i : ℕ} (hs : step s (.put i) = some s') : Inv s' := by
  obtain ⟨hi, hs⟩ := Option.ite_none_right_eq_some.1 hs
  have hpos := List.count_pos_iff.2 hi
  obtain ⟨href, hset, hh0, hp0, hone⟩ := (inv i).of_closing (by omega)
  rw [← Option.some.inj hs]
  intro j
  by_cases hji : j = i
  · subst hji
    unfold EntryAt
    simp only [List.count_cons_self, List.count_erase_self, hh0, hp0]
    exact .closing _ _ (by omega) href hset
  · exact (inv j).congr rfl rfl rfl rfl (List.count_erase_of_ne hji) (List.count_cons_of_ne (Ne.symm hji))

theorem inv_clear {i : ℕ} (hs : step s (.clear i) = some s') : Inv s' := by
  obtain ⟨hi, hs⟩ := Option.ite_none_right_eq_some.1 hs
  have hpos := List.count_pos_iff.2 hi
  obtain ⟨-, -, hh0, hp0, hone⟩ := (inv i).of_closing (by omega)
  have hc0 : s.closing.count i = 0 := by omega
  have hd1 : s.putDone.count i - 1 = 0 := by omega
  rw [← Option.some.inj hs]
  intro j
  by_cases hji : j = i
  · subst hji
    unfold EntryAt
    simp only [update_self, List.count_erase_self, hh0, hp0, hc0, hd1]
    exact .free rfl FileType.noConfusion
  · exact (inv j).congr (update_of_ne hji _ _) rfl rfl rfl rfl (List.count_erase_of_ne hji)

theorem inv_step {e : Call} (hu : Undisturbed s e) (hs : step s e = some s') : Inv s' := by
  cases e with
  | alloc => exact inv_alloc inv hu hs
  | setup i o => exact inv_setup inv hs
  | dup i => exact inv_dup inv hs
  | close i => exact inv_close inv hs
  | abandon i => exact inv_abandon inv hs
  | put i => exact inv_put inv hs
  | clear i => exact inv_clear inv hs

/-- nobody has an entry that is being closed -/
theorem closing_apart {i j : ℕ} (hi : i ∈ s.closing ∨ i ∈ s.putDone) (hj : j ∈ s.handles ∨ j ∈ s.opening) : j ≠ i := by
  rintro rfl
  have hcd : 0 < s.closing.count j + s.putDone.count j := by
    rcases hi with hi | hi <;> have := List.count_pos_iff.2 hi <;> omega
  obtain ⟨-, -, hh0, hp0, -⟩ := (inv j).of_closing hcd
  rcases hj with hj | hj
  · exact List.count_eq_zero.1 hh0 hj
  · exact List.count_eq_zero.1 hp0 hj

end Steps

/-- the step is a later part of a `file_close` -/
def Call.EndsClose : Call → Prop
  | .put _ | .clear _ => True
  | _ => False

/-- **The file table.** In every run whose `file_alloc` calls pick no entry that is still being closed: an entry with handles
counts them and is as its opener set it up; the rest of a `file_close` changes no entry that somebody has; and the close of a
handle does not panic. -/
theorem entry_safety (calls : List Call) (s : Sys) (hu : Meets step Undisturbed init calls)
    (hr : run step init calls = some s) :
    (∀ i ∈ s.handles, (s.table i).ref = s.handles.count i ∧ (s.table i).setup = s.opened i) ∧
    (∀ e s', e.EndsClose → step s e = some s' → ∀ j, j ∈ s.handles ∨ j ∈ s.opening → s'.table j = s.table j) ∧
    ∀ i ∈ s.handles, ∃ s', step s (.close i) = some s' := by
  have inv : Inv s := run_invariant (fun s e s' hI hC hs => inv_step hI hC hs) inv_init hu hr
  refine ⟨fun i hi => ?_, fun e s' he hs j hj => ?_, fun i hi => ?_⟩
  · obtain ⟨href, hset, -⟩ := (inv i).of_live (List.count_pos_iff.2 hi)
    exact ⟨href, hset⟩
  · cases e with
    | put i =>
      obtain ⟨-, hs⟩ := Option.ite_none_right_eq_some.1 hs
      rw [← Option.some.inj hs]
    | clear i =>
      obtain ⟨hi, hs⟩ := Option.ite_none_right_eq_some.1 hs
      rw [← Option.some.inj hs]
      exact update_of_ne (closing_apart inv (Or.inr hi) hj) _ _
    | _ => exact absurd he id
  · obtain ⟨f, b, hclose, -⟩ := close_entry inv hi
    refine ⟨{ s with
      handles := s.handles.erase i
      table := update s.table i f
      closing := if b then i :: s.closing else s.closing }, ?_⟩
    simp only [step, if_pos hi, closeRegion, hclose, Option.map_some]

instance (s : Sys) : (e : Call) → Decidable (Undisturbed s e)
  | .alloc => inferInstanceAs (Decidable (∀ i ∈ fileAlloc s.table, _))
  | .setup _ _ | .dup _ | .close _ | .abandon _ | .put _ | .clear _ => inferInstanceAs (Decidable True)

/-- an inode file, opened for reading -/
def readOnly (ip : ℕ) : Setup := ⟨.inode, ip, true, false⟩

/-- one file is opened, duplicated and closed twice; another one is opened after that -/
def openTwice : List Call :=
  [.alloc, .setup 0 (readOnly 7), .dup 0, .close 0, .close 0, .put 0, .clear 0, .alloc, .setup 0 (readOnly 8)]

theorem entry_safety_openTwice : ∃ s, run step init openTwice = some s ∧ s.handles = [0] ∧ (s.table 0).ref = 1 ∧
    (s.table 0).setup = s.opened 0 := by
  obtain ⟨s, hm, hr, hh⟩ : ∃ s, Meets step Undisturbed init openTwice ∧ run step init openTwice = some s ∧
      s.handles = [0] := guarded_computes (by decide +kernel)
  obtain ⟨hlive, -⟩ := entry_safety _ s hm hr
  obtain ⟨href, hset⟩ := hlive 0 (by rw [hh]; exact List.mem_singleton_self 0)
  rw [hh] at href
  exact ⟨s, hr, hh, href, hset⟩

/-- **A file closed under its opener.** The second opener gets the entry between the two regions of the first close; the put
releases the new inode, the entry is cleared under its handle, and the close of that handle panics. -/
theorem closed_under_the_opener : ∃ s,
    run step init [.alloc, .setup 0 (readOnly 7), .close 0, .alloc, .setup 0 (readOnly 8), .put 0, .clear 0] = some s ∧
    s.handles = [0] ∧ s.opened 0 = readOnly 8 ∧ (s.table 0).ref = 0 ∧ (s.table 0).type = .none ∧ s.puts = [8] ∧
    step s (.close 0) = none :=
  run_computes (by decide +kernel)

end OsKernel.Fs.FileTable
