/-
The checks of user pointers (`user_readable`, `user_writeable`, `user_strlen` in `kernel/syscall.c`) and the system calls that
store through one (`read`, `fstat`, `newfstatat` in `kernel/sysfile.c`).

Both checks walk the circular list of the sections of a process, but from a copy of its head on the stack. The list leads back
to the head itself, never to the copy, so the walk does not end there: it takes the head for the list node of a
`struct section`, whose fields are then the three words before it (`schinfo.runtime`, `pgdir.pt`, and `pgdir.lock` with its
padding), and goes round again. Memory is therefore modelled by its words. `fuel` bounds the nodes that are visited; a walk
that returns for no fuel does not return.

Results:
- `scan_finds`, `scan_endless`: a walk returns if a section passes the test, and does not if neither a section nor the head
  does; it never returns false;
- `user_range_exact`: `user_readable` and `user_strlen` are right about addresses that lie in sections;
- `writeable_range`: `user_writeable` accepts a range that does not wrap only if it lies in a section that is not text, exactly
  as long as no range outside lies between `pgdir.pt` and the lock word.
-/
import Mathlib.Tactic

namespace OsKernel.Kernel.UserRange

/-! ## Memory and the section list -/

structure Memory where
  /-- by address -/
  word : ℕ → ℕ
  small : ∀ a, word a < 2 ^ 64

variable (m : Memory)

/-- `node->next` -/
def Memory.next (node : ℕ) : ℕ := m.word (node + 8)

/-- `container_of(node, struct section, stnode)`: `flags`, `begin` and `end` -/
def Memory.flags (node : ℕ) : ℕ := m.word (node - 24)
def Memory.begin (node : ℕ) : ℕ := m.word (node - 16)
def Memory.endVa (node : ℕ) : ℕ := m.word (node - 8)

/-- `ST_TEXT` -/
abbrev stText : ℕ := 5

/-- a process: where `pgdir.section_head` is, the nodes of its sections in order, and the address of the copy of the head -/
structure Process where
  mem : Memory
  head : ℕ
  nodes : List ℕ
  copy : ℕ
  /-- the list is circular -/
  linked : List.IsChain (fun a b => mem.next a = b) (head :: (nodes ++ [head]))
  nonnull : ∀ n ∈ head :: nodes, n ≠ 0
  /-- the copy is not on the list -/
  apart : copy ∉ head :: nodes

/-! ## The functions of syscall.c -/

/-- the test of `user_readable` on the section behind a node; the sum wraps -/
def Readable (start size node : ℕ) : Prop := m.begin node ≤ start ∧ (start + size) % 2 ^ 64 ≤ m.endVa node

/-- the test of `user_writeable` -/
def Writeable (start size node : ℕ) : Prop := Readable m start size node ∧ m.flags node ≠ stText

instance (start size node : ℕ) : Decidable (Readable m start size node) := inferInstanceAs (Decidable (_ ∧ _))
instance (start size node : ℕ) : Decidable (Writeable m start size node) := inferInstanceAs (Decidable (_ ∧ _))

/-- `_for_in_list(node, &head)` with the body of the two checks: flag is the address of the copy, ret the value at the end of
the loop -/
def scan (flag : ℕ) (test : ℕ → Bool) (ret : Bool) : ℕ → ℕ → Option Bool
  | 0, _ => none
  | fuel + 1, node =>
    if node = 0 then some ret
    else if node ≠ flag ∧ test node then some true
    else scan flag test ret fuel (if node = flag then 0 else m.next node)

variable (p : Process)

/-- `user_readable`; the copy of the head has the same first node -/
def userReadable (fuel start size : ℕ) : Option Bool :=
  scan p.mem p.copy (fun n => Readable p.mem start size n) false fuel (p.mem.next p.head)

/-- `user_writeable` -/
def userWriteable (fuel start size : ℕ) : Option Bool :=
  scan p.mem p.copy (fun n => Writeable p.mem start size n) true fuel (p.mem.next p.head)

/-- `&str[i]` -/
def charAt (str i : ℕ) : ℕ := (str + i) % 2 ^ 64

/-- the loop of `user_strlen` from i on, n characters left; user is the memory of the process -/
def strlenLoop (user : ℕ → UInt8) (fuel str : ℕ) : ℕ → ℕ → Option ℕ
  | 0, _ => some 0
  | n + 1, i =>
    match userReadable p fuel (charAt str i) 1 with
    | none => none
    | some true => if user (charAt str i) = 0 then some (i + 1) else strlenLoop user fuel str n (i + 1)
    | some false => some 0

/-- `user_strlen` -/
def userStrlen (user : ℕ → UInt8) (fuel str maxlen : ℕ) : Option ℕ := strlenLoop p user fuel str maxlen 0

/-! ## The system calls that store -/

/-- what `file_read` or `stati` does with a buffer of n bytes: the value, and the bytes stored from its start on -/
structure Fill (n : ℕ) where
  ret : ℤ
  bytes : List UInt8
  fits : bytes.length ≤ n

/-- a system call that has returned: its value, and the bytes it has stored from addr on -/
structure Outcome where
  ret : ℤ
  addr : ℕ
  bytes : List UInt8

def Fill.at {n : ℕ} (f : Fill n) (addr : ℕ) : Outcome := ⟨f.ret, addr, f.bytes⟩

/-- nothing is stored -/
def refused : Outcome := ⟨-1, 0, []⟩

/-- `sizeof(struct stat)` -/
abbrev statSize : ℕ := 128

/-- `AT_FDCWD` -/
abbrev atFdcwd : ℤ := -100

/-- `read(fd, buffer, size)`: file is `fd2file(fd)`, as far as `file_read` uses it; none when the call does not return -/
def sysRead (file : Option (∀ n, Fill n)) (fuel buffer size : ℕ) : Option Outcome :=
  -- ASSERT(size > 0)
  if size = 0 then none
  else
    match file with
    | none => some refused
    | some fileRead => (userWriteable p fuel buffer size).map fun ok => if ok then (fileRead size).at buffer else refused

/-- `fstat(fd, st)`: file is `fd2file(fd)`, as far as `file_stat` uses it -/
def sysFstat (file : Option (Fill statSize)) (fuel st : ℕ) : Option Outcome :=
  match file with
  | none => some refused
  | some fileStat => (userWriteable p fuel st statSize).map fun ok => if ok then fileStat.at st else refused

/-- `newfstatat(dirfd, path, st, flags)`: inode is `namei(path)`, as far as `stati` uses it -/
def sysNewfstatat (user : ℕ → UInt8) (inode : Option (Fill statSize)) (fuel : ℕ) (dirfd : ℤ) (path st flags : ℕ) :
    Option Outcome :=
  (userStrlen p user fuel path 256).bind fun len =>
    if len = 0 then some refused
    else
      (userWriteable p fuel st statSize).map fun ok =>
        if !ok then refused
        else if dirfd ≠ atFdcwd then refused
        else if flags ≠ 0 then refused
        else
          match inode with
          | none => refused
          | some stati => { stati.at st with ret := 0 }

/-! ## The walk -/

section Walk

variable {p} {test : ℕ → Bool} {ret : Bool}

theorem scan_node {fuel node : ℕ} (h0 : node ≠ 0) (hc : node ≠ p.copy) (ht : test node = false) :
    scan p.mem p.copy test ret (fuel + 1) node = scan p.mem p.copy test ret fuel (p.mem.next node) := by
  simp [scan, h0, hc, ht]

/-- the walk from a node on gets to the first one that passes -/
theorem scan_hit {l : List ℕ} {node n : ℕ} (hl : List.IsChain (fun a b => p.mem.next a = b) (node :: l))
    (hon : ∀ a ∈ node :: l, a ∈ p.head :: p.nodes) (hn : n ∈ node :: l) (ht : test n = true) :
    ∃ fuel, ∀ k, fuel ≤ k → scan p.mem p.copy test ret k node = some true := by
  induction l generalizing node with
  | nil =>
    obtain rfl := List.mem_singleton.1 hn
    have hmem := hon n List.mem_cons_self
    have hc : n ≠ p.copy := fun h => p.apart (h ▸ hmem)
    refine ⟨1, fun k hk => ?_⟩
    obtain ⟨k, rfl⟩ := Nat.exists_eq_add_of_le' hk
    simp [scan, p.nonnull n hmem, hc, ht]
  | cons b l ih =>
    have hmem := hon node List.mem_cons_self
    have h0 := p.nonnull node hmem
    have hc : node ≠ p.copy := fun h => p.apart (h ▸ hmem)
    obtain ⟨hb, hl⟩ := List.isChain_cons_cons.1 hl
    cases htest : test node with
    | true =>
      refine ⟨1, fun k hk => ?_⟩
      obtain ⟨k, rfl⟩ := Nat.exists_eq_add_of_le' hk
      simp [scan, h0, hc, htest]
    | false =>
      have hrest : n ∈ b :: l := by
        rcases List.mem_cons.1 hn with hnode | hrest
        · rw [hnode, htest] at ht
          cases ht
        · exact hrest
      obtain ⟨fuel, hfuel⟩ := ih hl (fun a ha => hon a (List.mem_cons_of_mem node ha)) hrest
      refine ⟨fuel + 1, fun k hk => ?_⟩
      obtain ⟨k, rfl⟩ := Nat.exists_eq_add_of_le' (Nat.le_of_add_left_le hk)
      rw [scan_node h0 hc htest, hb]
      exact hfuel k (by omega)

/-- a section that passes is found, and so is the head -/
theorem scan_finds {n : ℕ} (hn : n ∈ p.head :: p.nodes) (ht : test n = true) :
    ∃ fuel, ∀ k, fuel ≤ k → scan p.mem p.copy test ret k (p.mem.next p.head) = some true := by
  have hchain := p.linked
  obtain ⟨a, l, hround⟩ : ∃ a l, p.nodes ++ [p.head] = a :: l := List.exists_cons_of_ne_nil (by simp)
  have hmem : ∀ b, b ∈ a :: l ↔ b ∈ p.head :: p.nodes := by
    intro b
    rw [← hround, List.mem_append, List.mem_singleton, List.mem_cons, or_comm]
  rw [hround] at hchain
  obtain ⟨ha, hl⟩ := List.isChain_cons_cons.1 hchain
  rw [ha]
  exact scan_hit hl (fun b hb => (hmem b).1 hb) ((hmem n).2 hn) ht

/-- a node of the list leads to a node of the list -/
theorem next_mem {a : ℕ} (ha : a ∈ p.head :: p.nodes) : p.mem.next a ∈ p.head :: p.nodes := by
  have hmem : ∀ {l : List ℕ} {x y : ℕ}, List.IsChain (fun a b => p.mem.next a = b) (x :: (l ++ [y])) → a ∈ x :: l →
      p.mem.next a ∈ l ++ [y] := by
    intro l
    induction l with
    | nil =>
      intro x y hl hx
      obtain rfl := List.mem_singleton.1 hx
      exact List.mem_singleton.2 (List.isChain_cons_cons.1 hl).1
    | cons b l ih =>
      intro x y hl hx
      obtain ⟨hb, hl⟩ := List.isChain_cons_cons.1 hl
      rcases List.mem_cons.1 hx with rfl | hx
      · rw [hb]
        exact List.mem_cons_self
      · exact List.mem_cons_of_mem b (ih hl hx)
  rcases List.mem_append.1 (hmem p.linked ha) with h | h
  · exact List.mem_cons_of_mem _ h
  · rw [List.mem_singleton.1 h]
    exact List.mem_cons_self

/-- what can be returned: true, because of a section or of the head -/
theorem scan_returns {fuel node : ℕ} {r : Bool} (hnode : node ∈ p.head :: p.nodes)
    (h : scan p.mem p.copy test ret fuel node = some r) : r = true ∧ ∃ n ∈ p.head :: p.nodes, test n = true := by
  induction fuel generalizing node with
  | zero => cases h
  | succ fuel ih =>
    have hc : node ≠ p.copy := fun hx => p.apart (hx ▸ hnode)
    cases htest : test node with
    | true =>
      simp only [scan, p.nonnull node hnode, hc, htest, if_false, ne_eq, not_false_eq_true, and_self, if_true] at h
      exact ⟨(Option.some.inj h).symm, node, hnode, htest⟩
    | false =>
      rw [scan_node (p.nonnull node hnode) hc htest] at h
      exact ih (next_mem hnode) h

/-- if neither a section nor the head passes, the walk goes round for ever -/
theorem scan_endless (hno : ∀ n ∈ p.head :: p.nodes, test n = false) (fuel : ℕ) :
    scan p.mem p.copy test ret fuel (p.mem.next p.head) = none := by
  cases h : scan p.mem p.copy test ret fuel (p.mem.next p.head) with
  | none => rfl
  | some r =>
    obtain ⟨-, n, hn, ht⟩ := scan_returns (next_mem List.mem_cons_self) h
    rw [hno n hn] at ht
    cases ht

end Walk

/-! ## What the checks say -/

/-- the interval [start, start + size) lies in the section behind node n -/
def Contains (start size n : ℕ) : Prop := m.begin n ≤ start ∧ start + size ≤ m.endVa n

/-- it lies in some section of the process -/
def InSection (start size : ℕ) : Prop := ∃ n ∈ p.nodes, Contains p.mem start size n

/-- a computation with fuel returns r -/
def Returns {α : Type} (f : ℕ → Option α) (r : α) : Prop := ∃ fuel, ∀ k, fuel ≤ k → f k = some r

/-- no address up to the first NUL, or to maxlen, lies outside the sections -/
def Covered (user : ℕ → UInt8) (str maxlen : ℕ) : Prop :=
  ∀ i < maxlen, (∀ j < i, user (charAt str j) ≠ 0) → InSection p (charAt str i) 1

/-- the first NUL is byte k, within maxlen bytes, and every byte up to it lies in a section -/
structure Terminated (user : ℕ → UInt8) (str maxlen k : ℕ) : Prop where
  within : k < maxlen
  nul : user (charAt str k) = 0
  first : ∀ j < k, user (charAt str j) ≠ 0
  mapped : ∀ j ≤ k, InSection p (charAt str j) 1

/-- the length with the terminator, and 0 if there is none -/
def IsLength (user : ℕ → UInt8) (str maxlen len : ℕ) : Prop :=
  (∃ k, Terminated p user str maxlen k ∧ len = k + 1) ∨ ((∀ k, ¬ Terminated p user str maxlen k) ∧ len = 0)

variable {p}

/-- an interval in a section does not wrap -/
theorem readable_of_contains {start size n : ℕ} (h : Contains p.mem start size n) : Readable p.mem start size n := by
  have hsmall := p.mem.small (n - 8)
  have hend : start + size ≤ p.mem.word (n - 8) := h.2
  refine ⟨h.1, ?_⟩
  rw [Nat.mod_eq_of_lt (by omega)]
  exact h.2

theorem contains_of_readable {start size n : ℕ} (hno : start + size < 2 ^ 64) (h : Readable p.mem start size n) :
    Contains p.mem start size n := by
  refine ⟨h.1, ?_⟩
  have hend := h.2
  rwa [Nat.mod_eq_of_lt hno] at hend

theorem userReadable_returns {start size : ℕ} (h : InSection p start size) :
    Returns (fun fuel => userReadable p fuel start size) true := by
  obtain ⟨n, hn, hc⟩ := h
  exact scan_finds (List.mem_cons_of_mem _ hn) (decide_eq_true (readable_of_contains hc))

/-- the loop of `user_strlen` from i on, when the i bytes before are not NUL -/
theorem strlenLoop_returns {user : ℕ → UInt8} {str n i : ℕ} (hcov : Covered p user str (i + n))
    (hbefore : ∀ j < i, user (charAt str j) ≠ 0) :
    ∃ len, Returns (fun fuel => strlenLoop p user fuel str n i) len ∧ IsLength p user str (i + n) len := by
  induction n generalizing i with
  | zero => exact ⟨0, ⟨0, fun _ _ => rfl⟩, Or.inr ⟨fun k hk => hbefore k hk.within hk.nul, rfl⟩⟩
  | succ n ih =>
    obtain ⟨fuel, hread⟩ := userReadable_returns (hcov i (by omega) hbefore)
    by_cases hnul : user (charAt str i) = 0
    · refine ⟨i + 1, ⟨fuel, fun k hk => ?_⟩, Or.inl ⟨i, ⟨by omega, hnul, hbefore, fun j hj => ?_⟩, rfl⟩⟩
      · simp only [strlenLoop, hread k hk, hnul, if_true]
      · exact hcov j (by omega) fun j' hj' => hbefore j' (by omega)
    · have hnext : ∀ j < i + 1, user (charAt str j) ≠ 0 := by
        intro j hj
        rcases Nat.lt_succ_iff_lt_or_eq.1 hj with hj | rfl
        · exact hbefore j hj
        · exact hnul
      have hsum : i + (n + 1) = i + 1 + n := by omega
      rw [hsum] at hcov ⊢
      obtain ⟨len, ⟨fuel', hrest⟩, hlen⟩ := ih hcov hnext
      refine ⟨len, ⟨max fuel fuel', fun k hk => ?_⟩, hlen⟩
      simp only [strlenLoop, hread k (le_of_max_le_left hk), hnul, if_false]
      exact hrest k (le_of_max_le_right hk)

/-- **user_readable and user_strlen.** For an interval that lies in a section, `user_readable` returns, and the right answer; so
does `user_strlen` for a string all of whose bytes, up to the first NUL or to maxlen, lie in sections. -/
theorem user_range_exact {p : Process} {user : ℕ → UInt8} {start size str maxlen : ℕ} (hin : InSection p start size)
    (hcov : Covered p user str maxlen) :
    (∃ r, Returns (fun fuel => userReadable p fuel start size) r ∧ (r = true ↔ InSection p start size)) ∧
      ∃ len, Returns (fun fuel => userStrlen p user fuel str maxlen) len ∧ IsLength p user str maxlen len := by
  refine ⟨⟨true, userReadable_returns hin, fun _ => hin, fun _ => rfl⟩, ?_⟩
  have hsum : 0 + maxlen = maxlen := Nat.zero_add maxlen
  have h := strlenLoop_returns (i := 0) (n := maxlen) (hsum.symm ▸ hcov) (fun j hj => absurd hj (Nat.not_lt_zero j))
  rwa [hsum] at h

/-- one section [0x400000, 0x401000) of data; lock is the word of `pgdir.lock` -/
def sampleMemory (lock : ℕ) : Memory where
  word a :=
    if a = 0xFFFF000000500FF0 then 0xFFFF000000300000
    else if a = 0xFFFF000000500FF8 then lock % 2 ^ 64
    else if a = 0xFFFF000000501008 then 0xFFFF000000600018
    else if a = 0xFFFF000000600000 then 1
    else if a = 0xFFFF000000600008 then 0x400000
    else if a = 0xFFFF000000600010 then 0x401000
    else if a = 0xFFFF000000600020 then 0xFFFF000000501000
    else 0
  small a := by split_ifs <;> omega

def sampleProcess (lock : ℕ) : Process where
  mem := sampleMemory lock
  head := 0xFFFF000000501000
  nodes := [0xFFFF000000600018]
  copy := 0xFFFF000000700000
  linked := .cons_cons rfl (.cons_cons rfl (.singleton _))
  nonnull := by decide
  apart := by decide

theorem sample_inSection {lock a size : ℕ} (ha : 0x400000 ≤ a) (hsize : a + size ≤ 0x401000) :
    InSection (sampleProcess lock) a size :=
  ⟨0xFFFF000000600018, List.mem_singleton_self _, ha, hsize⟩

/-- the string "a" in the section -/
theorem user_range_exact_sample :
    (∃ r, Returns (fun fuel => userReadable (sampleProcess 0) fuel 0x400000 16) r ∧
      (r = true ↔ InSection (sampleProcess 0) 0x400000 16)) ∧
    ∃ len, Returns (fun fuel => userStrlen (sampleProcess 0) (fun a => if a = 0x400800 then 97 else 0) fuel 0x400800 256) len ∧
      IsLength (sampleProcess 0) (fun a => if a = 0x400800 then 97 else 0) 0x400800 256 len := by
  refine user_range_exact (sample_inSection (by decide) (by decide)) fun i hi _ => ?_
  have hchar : charAt 0x400800 i = 0x400800 + i := Nat.mod_eq_of_lt (by omega)
  rw [hchar]
  exact sample_inSection (by omega) (by omega)

/-- an address behind the last section: `user_readable` does not return. And a range that wraps: it returns true. -/
theorem user_readable_endless :
    (¬ InSection (sampleProcess 0) 0x500000 1 ∧ ∀ fuel, userReadable (sampleProcess 0) fuel 0x500000 1 = none) ∧
      ¬ InSection (sampleProcess 0) (2 ^ 64 - 8) 16 ∧
      Returns (fun fuel => userReadable (sampleProcess 0) fuel (2 ^ 64 - 8) 16) true := by
  refine ⟨⟨?_, fun fuel => scan_endless ?_ fuel⟩, ?_, scan_finds (n := 0xFFFF000000600018) (by decide) (by decide)⟩
  · rintro ⟨n, hn, hc⟩
    obtain rfl := List.mem_singleton.1 hn
    exact absurd hc.2 (by decide)
  · intro n hn
    rcases List.mem_cons.1 hn with rfl | hn
    · decide
    · obtain rfl := List.mem_singleton.1 hn
      decide
  · rintro ⟨n, hn, hc⟩
    obtain rfl := List.mem_singleton.1 hn
    exact absurd hc.2 (by decide)

/-! ## Stores of the kernel through user pointers -/

/-- the range lies in one section of the process that is not text -/
def InWriteable (p : Process) (start size : ℕ) : Prop := ∃ n ∈ p.nodes, p.mem.flags n ≠ stText ∧ Contains p.mem start size n

/-- every byte the call has stored lies in one section of the process that is not text -/
def StoresInSection (p : Process) (o : Outcome) : Prop := o.bytes = [] ∨ InWriteable p o.addr o.bytes.length

/-- the three words before the head look like a section around the range that is not text -/
def HeadAccepts (p : Process) (start size : ℕ) : Prop :=
  Contains p.mem start size p.head ∧ p.mem.flags p.head ≠ stText

/-- `user_writeable` accepts the range only if it lies in a section that is not text, and what `read`, `fstat` and `newfstatat`
store there does -/
structure StoresOnlyWriteable (p : Process) (start size : ℕ) : Prop where
  accepted : ∀ fuel, userWriteable p fuel start size = some true → InWriteable p start size
  read : ∀ fuel file o, sysRead p file fuel start size = some o → StoresInSection p o
  fstat : size = statSize → ∀ fuel file o, sysFstat p file fuel start = some o → StoresInSection p o
  newfstatat : size = statSize → ∀ fuel user inode dirfd path flags o,
    sysNewfstatat p user inode fuel dirfd path start flags = some o → StoresInSection p o

theorem userWriteable_true {fuel start size : ℕ} {r : Bool} (hno : start + size < 2 ^ 64)
    (hhead : HeadAccepts p start size → InWriteable p start size) (h : userWriteable p fuel start size = some r) :
    InWriteable p start size := by
  obtain ⟨-, n, hn, ht⟩ := scan_returns (next_mem List.mem_cons_self) h
  obtain ⟨hread, hflags⟩ := of_decide_eq_true ht
  have hc := contains_of_readable hno hread
  rcases List.mem_cons.1 hn with rfl | hn
  · exact hhead ⟨hc, hflags⟩
  · exact ⟨n, hn, hflags, hc⟩

theorem Contains.mono {start size size' n : ℕ} (h : Contains p.mem start size n) (hle : size' ≤ size) :
    Contains p.mem start size' n := ⟨h.1, le_trans (Nat.add_le_add_left hle start) h.2⟩

theorem refused_stores : StoresInSection p refused := Or.inl rfl

/-- a call that stores into a buffer it has checked -/
theorem stores_checked {size start : ℕ} (f : Fill size) (h : InWriteable p start size) : StoresInSection p (f.at start) := by
  obtain ⟨n, hn, hflags, hc⟩ := h
  exact Or.inr ⟨n, hn, hflags, hc.mono f.fits⟩

/-- **user_writeable.** A range that does not wrap is accepted only if it lies in one section that is not text, and what `read`,
`fstat` and `newfstatat` store into it lies there; this holds if and only if the three words before the list head do not look
like a section around a range that lies in no such section. -/
theorem writeable_range {p : Process} {start size : ℕ} (hno : start + size < 2 ^ 64) :
    StoresOnlyWriteable p start size ↔ (HeadAccepts p start size → InWriteable p start size) := by
  constructor
  · rintro h ⟨hc, hflags⟩
    obtain ⟨fuel, hfuel⟩ : ∃ fuel, ∀ k, fuel ≤ k → userWriteable p k start size = some true :=
      scan_finds List.mem_cons_self (decide_eq_true ⟨readable_of_contains hc, hflags⟩)
    exact h.accepted fuel (hfuel fuel le_rfl)
  intro hhead
  refine ⟨fun fuel => userWriteable_true hno hhead, fun fuel file o h => ?_, fun hsize fuel file o h => ?_, ?_⟩
  · unfold sysRead at h
    split_ifs at h
    cases file with
    | none => exact Option.some.inj h ▸ refused_stores
    | some fileRead =>
      obtain ⟨ok, hw, rfl⟩ := Option.map_eq_some_iff.1 h
      have hsec := userWriteable_true hno hhead hw
      cases ok with
      | false => exact refused_stores
      | true => exact stores_checked (fileRead size) hsec
  · subst hsize
    cases file with
    | none => exact Option.some.inj h ▸ refused_stores
    | some fileStat =>
      obtain ⟨ok, hw, rfl⟩ := Option.map_eq_some_iff.1 h
      have hsec := userWriteable_true hno hhead hw
      cases ok with
      | false => exact refused_stores
      | true => exact stores_checked fileStat hsec
  · rintro rfl fuel user inode dirfd path flags o h
    obtain ⟨len, -, h⟩ := Option.bind_eq_some_iff.1 h
    by_cases hlen : len = 0
    · rw [if_pos hlen] at h
      exact Option.some.inj h ▸ refused_stores
    · rw [if_neg hlen] at h
      obtain ⟨ok, hw, rfl⟩ := Option.map_eq_some_iff.1 h
      have hsec := userWriteable_true hno hhead hw
      split_ifs
      · exact refused_stores
      · exact refused_stores
      · exact refused_stores
      · cases inode with
        | none => exact refused_stores
        | some stati => exact stores_checked stati hsec

/-- a buffer in the section -/
theorem writeable_range_sample : userWriteable (sampleProcess 0) 1 0x400000 16 = some true ∧
    StoresOnlyWriteable (sampleProcess 0) 0x400000 16 :=
  ⟨by decide, (writeable_range (by decide)).2 fun h => absurd h.1.2 (by decide)⟩

/-- the padding behind `pgdir.lock` holds the rest of a kernel pointer: `user_writeable` accepts the page table, and `read` stores
into it -/
theorem writeable_page_table : ∃ p o, (¬ ∃ n ∈ p.nodes, Contains p.mem 0xFFFF000000300000 8 n) ∧
    userWriteable p 2 0xFFFF000000300000 8 = some true ∧
    sysRead p (some fun n => ⟨n, List.replicate n 65, by simp⟩) 2 0xFFFF000000300000 8 = some o ∧
    o.addr = p.mem.begin p.head ∧ ¬ StoresInSection p o := by
  have hout : ¬ ∃ n ∈ (sampleProcess 0xFFFF0000007FF000).nodes,
      Contains (sampleProcess 0xFFFF0000007FF000).mem 0xFFFF000000300000 8 n := by
    rintro ⟨n, hn, hc⟩
    obtain rfl := List.mem_singleton.1 hn
    exact absurd hc.2 (by decide)
  refine ⟨sampleProcess 0xFFFF0000007FF000, _, hout, by decide, rfl, rfl, ?_⟩
  rintro (hnil | ⟨n, hn, -, hc⟩)
  · cases hnil
  · exact hout ⟨n, hn, hc⟩

end OsKernel.Kernel.UserRange
