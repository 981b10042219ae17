/-
The first user stack of a program (`kernel/exec.c`).

`execve` maps 16 pages below `USER_STACK_TOP`, measures the strings of argv and envp, and lays out from `top` downwards: the
strings, then the pointers to them, then argc. The strings are copied upwards by `copyout`, each followed by its pointer. A string
that crosses a page boundary is copied too far, but only over bytes that later strings fill, or up to `top`, which is the end of a
page. The pointers are aligned and never cross.

All sums are in u64. The check against the lower end of the stack is made on the difference `str_start - ptr_tot`, and when the
strings alone are longer than `top`, about 2 GiB, that difference wraps and passes. Results:
- `stack_decodes`: the program finds its arguments at sp if and only if strings and pointers together are not longer than `top`;
- `stack_wraps`: a program and arguments for which they are; the stack pointer is then near 2^64.
-/
import OsKernel.Kernel.Copyout
import OsKernel.Kernel.ExecData

namespace OsKernel.Kernel.ExecStack

open OsKernel.Mem OsKernel.Radix OsKernel.Words OsKernel.Fallible OsKernel.Kernel.PageTable OsKernel.Kernel.UserMemory
open OsKernel.Kernel.Copyout
open OsKernel.Fs (addU subU)
open OsKernel.Kernel.Paging (vaOffset_lt valid_ne_zero)
open OsKernel.Kernel.Exec (Stop allocPage mapPage Phdr Pgdir headers headers_succ phdrSize loadLoop loadLoop_succ Accepts ptLoad pfRw
  ehdrBytes phdrBytes)
open OsKernel.Kernel.Paging (Content)

/-! ## Model -/

/-- `USER_STACK_TOP` -/
def userStackTop : ℕ := 0x80000000
/-- `USER_STACK_SIZE` -/
def userStackSize : ℕ := 0x10000
/-- `RESERVE_SIZE` -/
def reserveSize : ℕ := 0x1000
/-- the end of the strings -/
def stackTop : ℕ := userStackTop - reserveSize

/-- a string of the caller: the bytes from its address on, with a NUL among them -/
structure Str where
  mem : ℕ → UInt8
  nul : ∃ i, mem i = 0

/-- `strlen` -/
def Str.strlen (s : Str) : ℕ := Nat.find s.nul

/-- the kernel stops -/
inductive Halt where
  | panic
  | memory (e : Stop)

/-- the loop that maps the stack, n pages left, the next one being the i-th from the top -/
def mapStack : ℕ → ℕ → ℕ → PageMem → Except Stop (ℕ × PageMem)
  | 0, _, pt, m => .ok (pt, m)
  | n + 1, i, pt, m => do
    let (p, m) ← allocPage m
    let m := { m with cell := clearPage p m.cell }
    let (pt, m) ← mapPage pt (userStackTop - i * pageSize) p (pteUserData ||| pteRw) m
    mapStack n (i + 1) pt m

/-- the loop over argv or envp that counts: the number of strings, and their length with the NULs; nothing for NULL -/
def countArgs (v : Option (List Str)) : ℕ × ℕ :=
  (v.getD []).foldl (fun r s => (addU r.1 1, addU r.2 (addU s.strlen 1))) (0, 0)

/-- `str_start` -/
def strStart (argv envp : Option (List Str)) : ℕ := subU stackTop (addU (countArgs envp).2 (countArgs argv).2)

/-- `ptr_tot` -/
def ptrTot (argv envp : Option (List Str)) : ℕ := (2 + (countArgs argv).1 + (countArgs envp).1 + 1) * 8 % 2 ^ 64

/-- `argc_start`: `(str_start - ptr_tot) & ~0xf` -/
def argcStart (argv envp : Option (List Str)) : ℕ := subU (strStart argv envp) (ptrTot argv envp) / 16 * 16

/-- `copyout`, whose result is not looked at -/
def put (src : ℕ → UInt8) (len va : ℕ) (s : ℕ × PageMem) : Except Halt (ℕ × PageMem) :=
  match copyout src len va s.1 s.2 with
  | none => .error (.memory .noPage)
  | some r => .ok (r.pt, r.mem)

/-- `copyout` of a u64 -/
def putWord (w va : ℕ) (s : ℕ × PageMem) : Except Halt (ℕ × PageMem) := put (byteOf w) 8 va s

/-- the loop over the strings: `str_start`, `argv_start` and the memory -/
def putStrings : List Str → ℕ → ℕ → ℕ × PageMem → Except Halt (ℕ × ℕ × ℕ × PageMem)
  | [], str, ptr, s => .ok (str, ptr, s)
  | x :: xs, str, ptr, s => do
    let len := addU x.strlen 1
    let s ← put x.mem len str s
    let s ← putWord str ptr s
    putStrings xs (addU str len) (addU ptr 8) s

/-- step 3 of `execve`: sp, and the page table with the stack -/
def userStack (argv envp : Option (List Str)) (pt : ℕ) (m : PageMem) : Except Halt (ℕ × ℕ × PageMem) := do
  let s ← (mapStack (userStackSize / pageSize) 1 pt m).mapError .memory
  let argc := (countArgs argv).1
  let envc := (countArgs envp).1
  let sp := argcStart argv envp
  if sp < userStackTop - userStackSize then .error .panic
  else
    let s ← putWord argc sp s
    let (str, ptr, s) ← putStrings ((argv.getD []).take argc) (strStart argv envp) (addU sp 8) s
    let s ← putWord 0 ptr s
    let (_, ptr, s) ← putStrings ((envp.getD []).take envc) str (addU ptr 8) s
    let s ← putWord 0 ptr s
    .ok (sp, s)

/-! ## What a program finds there -/

/-- n bytes from a on, the lowest first -/
def leWord (f : ℕ → UInt8) : ℕ → ℕ → ℕ
  | _, 0 => 0
  | a, n + 1 => (f a).toNat + 256 * leWord f (a + 1) n

/-- a u64 in user memory -/
def userWord (m : PageMem) (pt a : ℕ) : ℕ := leWord (userByte m pt) a 8

attribute [local irreducible] userWord

/-- the string s, with its NUL, is at address a -/
def StringAt (m : PageMem) (pt a : ℕ) (s : Str) : Prop := ∀ i ≤ s.strlen, userByte m pt (a + i) = s.mem i

/-- n pointers from a on -/
def pointersAt (m : PageMem) (pt : ℕ) : ℕ → ℕ → List ℕ
  | _, 0 => []
  | a, n + 1 => userWord m pt a :: pointersAt m pt (a + 8) n

/-- one range, given by address and length, lies below another -/
def Below (r r' : ℕ × ℕ) : Prop := r.1 + r.2 ≤ r'.1

/-- the ranges of argc, the pointers, and the strings they point to -/
def ranges (m : PageMem) (pt sp : ℕ) (argv envp : List Str) : List (ℕ × ℕ) :=
  ((List.range (argv.length + envp.length + 3)).map fun k => (sp + 8 * k, 8)) ++
    (pointersAt m pt (sp + 8) argv.length ++ pointersAt m pt (sp + 8 * (argv.length + 2)) envp.length).zip
      ((argv ++ envp).map fun s => s.strlen + 1)

/-- the stack of a program that is called with argv and envp -/
structure Decodes (m : PageMem) (pt sp : ℕ) (argv envp : List Str) : Prop where
  aligned : sp % 16 = 0
  low : userStackTop - userStackSize ≤ sp
  mapped : ∀ a, sp ≤ a → a < stackTop → Valid (entry m pt a)
  argc : userWord m pt sp = argv.length
  argvStrings : List.Forall₂ (StringAt m pt) (pointersAt m pt (sp + 8) argv.length) argv
  argvEnd : userWord m pt (sp + 8 * (argv.length + 1)) = 0
  envpStrings : List.Forall₂ (StringAt m pt) (pointersAt m pt (sp + 8 * (argv.length + 2)) envp.length) envp
  envpEnd : userWord m pt (sp + 8 * (argv.length + envp.length + 2)) = 0
  apart : (ranges m pt sp argv envp).Pairwise Below
  below : ∀ r ∈ ranges m pt sp argv envp, r.1 + r.2 ≤ stackTop

/-! ## Words and strings -/

variable {a i n pt pt' ptr sp str va : ℕ} {f : ℕ → UInt8} {m m' : PageMem} {ss : List Str} {L : Layout} {l : List ℕ}
  {argv envp : Option (List Str)}

theorem leWord_congr {g : ℕ → UInt8} (h : ∀ i < n, f (a + i) = g (a + i)) : leWord f a n = leWord g a n := by
  induction n generalizing a with
  | zero => rfl
  | succ n ih =>
    have h0 : f a = g a := h 0 (Nat.succ_pos n)
    have hs : leWord f (a + 1) n = leWord g (a + 1) n := ih fun i hi => by
      have := h (1 + i) (by omega)
      rwa [← Nat.add_assoc] at this
    rw [leWord, leWord, h0, hs]

/-- the bytes of w are read as w -/
theorem leWord_bytes {w : ℕ} (h : ∀ i < n, f (a + i) = byteOf w i) : leWord f a n = w % 256 ^ n := by
  induction n generalizing a w with
  | zero => rw [leWord, pow_zero, Nat.mod_one]
  | succ n ih =>
    have h0 : (f a).toNat = w % 256 := by
      have := h 0 (Nat.succ_pos n)
      rw [Nat.add_zero, byteOf, pow_zero, Nat.div_one] at this
      rw [this, UInt8.toNat_ofNat']
    have hs : leWord f (a + 1) n = w / 256 % 256 ^ n := ih fun i hi => by
      have := h (1 + i) (by omega)
      rw [← Nat.add_assoc] at this
      rw [this, byteOf, byteOf, Nat.add_comm 1 i, pow_succ', Nat.div_div_eq_div_mul]
    rw [leWord, h0, hs, pow_succ', Nat.mod_mul]

/-- the lengths of strings, with their NULs -/
def totalLen (ss : List Str) : ℕ := (ss.map fun s => s.strlen + 1).sum

theorem totalLen_cons (s : Str) (ss : List Str) : totalLen (s :: ss) = s.strlen + 1 + totalLen ss := by
  simp only [totalLen, List.map_cons, List.sum_cons]

theorem totalLen_append (ss ss' : List Str) : totalLen (ss ++ ss') = totalLen ss + totalLen ss' := by
  simp only [totalLen, List.map_append, List.sum_append]

/-- the addresses of strings that are laid out one after the other -/
def addresses : ℕ → List Str → List ℕ
  | _, [] => []
  | a, s :: ss => a :: addresses (a + (s.strlen + 1)) ss

theorem addresses_append (a : ℕ) (ss ss' : List Str) :
    addresses a (ss ++ ss') = addresses a ss ++ addresses (a + totalLen ss) ss' := by
  induction ss generalizing a with
  | nil => rfl
  | cons s ss ih => rw [List.cons_append, addresses, addresses, ih, totalLen_cons, List.cons_append, Nat.add_assoc]

/-- strings that follow each other take ranges that follow each other -/
theorem addresses_apart (a : ℕ) (ss : List Str) :
    ((addresses a ss).zip (ss.map fun s => s.strlen + 1)).Pairwise Below ∧
      ∀ r ∈ (addresses a ss).zip (ss.map fun s => s.strlen + 1), a ≤ r.1 ∧ r.1 + r.2 ≤ a + totalLen ss := by
  induction ss generalizing a with
  | nil => exact ⟨List.Pairwise.nil, fun r hr => by cases hr⟩
  | cons s ss ih =>
    obtain ⟨hpair, hin⟩ := ih (a + (s.strlen + 1))
    rw [addresses, List.map_cons, List.zip_cons_cons, totalLen_cons]
    refine ⟨List.pairwise_cons.2 ⟨fun r hr => (hin r hr).1, hpair⟩, fun r hr => ?_⟩
    rcases List.mem_cons.1 hr with rfl | hr
    · exact ⟨le_rfl, by simp only; omega⟩
    · have := hin r hr
      omega

theorem userWord_congr (h : ∀ i < 8, userByte m' pt' (a + i) = userByte m pt (a + i)) :
    userWord m' pt' a = userWord m pt a := by
  unfold userWord
  exact leWord_congr h

theorem pointersAt_congr
    (h : ∀ b, a ≤ b → b < a + 8 * n → userByte m' pt' b = userByte m pt b) : pointersAt m' pt' a n = pointersAt m pt a n := by
  induction n generalizing a with
  | zero => rfl
  | succ n ih =>
    have hfirst : userWord m' pt' a = userWord m pt a := userWord_congr fun i hi => h (a + i) (by omega) (by omega)
    have hrest : pointersAt m' pt' (a + 8) n = pointersAt m pt (a + 8) n := ih fun b hb hb' => h b (by omega) (by omega)
    rw [pointersAt, pointersAt, hfirst, hrest]

/-- strings in memory that stays as it is -/
theorem strings_congr
    (hs : List.Forall₂ (StringAt m pt) (addresses a ss) ss)
    (h : ∀ b, a ≤ b → b < a + totalLen ss → userByte m' pt' b = userByte m pt b) :
    List.Forall₂ (StringAt m' pt') (addresses a ss) ss := by
  induction ss generalizing a with
  | nil => exact List.Forall₂.nil
  | cons s ss ih =>
    rw [addresses] at hs ⊢
    rw [totalLen_cons] at h
    obtain ⟨hfirst, hrest⟩ := List.forall₂_cons.1 hs
    refine List.Forall₂.cons (fun i hi => ?_) (ih hrest fun b hb hb' => h b (by omega) (by omega))
    rw [h (a + i) (by omega) (by omega)]
    exact hfirst i hi

/-! ## Copies to the stack -/

/-- the stack is mapped, each page of it to a page of its own -/
structure Good (L : Layout) (s : ℕ × PageMem) : Prop where
  ok : ∃ l, SpaceOk L s.2 s.1 l
  own : ∀ a, userStackTop - userStackSize ≤ a → a < userStackTop → Private L s.2 s.1 a

section Copies

variable {L : Layout} {s : ℕ × PageMem}

/-- a copy to the stack; it may only go too far when it crosses a page boundary -/
theorem put_spec (hg : Good L s) (src : ℕ → UInt8) (len va : ℕ) (hlow : userStackTop - userStackSize ≤ va)
    (htop : va + len ≤ stackTop) :
    ∃ s', put src len va s = .ok s' ∧ Good L s' ∧ (∀ i < len, userByte s'.2 s'.1 (va + i) = src i) ∧
      ∀ a, userStackTop - userStackSize ≤ a → a < userStackTop →
        a < va ∨ (va + len ≤ a ∧ va % pageSize + len ≤ pageSize) → userByte s'.2 s'.1 a = userByte s.2 s.1 a := by
  obtain ⟨l, hok⟩ := hg.ok
  simp only [stackTop, userStackTop, userStackSize, reserveSize] at *
  have hown := hg.own
  simp only [userStackTop, userStackSize] at hown
  have hin : ∀ a, va ≤ a → a < va + len → Private L s.2 s.1 a := fun a ha ha' => hown a (by omega) (by omega)
  have henough : Enough s.2 s.1 l va (va + len) := Or.inl fun a ha ha' => valid_ne_zero (hin a ha ha').valid
  obtain ⟨r, hr, -, hle, hok', hprog⟩ :=
    (copyout_spec src hok (by omega) fun a ha ha' => Or.inr (hin a ha ha')).exists henough
  have hexact := hprog.exact_iff hle
  have hcop := hprog.copied
  have hwithin := hprog.within
  simp only [pageSize] at hwithin
  refine ⟨(r.pt, r.mem), by rw [put, hr], ⟨hok', fun a ha ha' => ?_⟩, fun i hi => (hcop.bytes i (by omega)).2,
    fun a ha ha' hout => hcop.rest a (by omega) (hown a ha ha').valid ?_⟩
  · simp only [userStackTop, userStackSize] at ha ha'
    have hp := hown a ha ha'
    refine (hcop.ready a (Or.inr hp)).resolve_left fun h0 => valid_ne_zero hp.valid ?_
    rw [← h0]
    exact (hcop.entry a (Or.inl (valid_ne_zero hp.valid))).symm
  · rcases hout with hbelow | ⟨habove, hone⟩
    · omega
    · have := hexact.2 (Or.inl hone)
      omega

/-- a u64 on the stack -/
theorem putWord_spec (hg : Good L s) (w : ℕ) (hw : w < 2 ^ 64) (haligned : va % 8 = 0)
    (hlow : userStackTop - userStackSize ≤ va) (htop : va + 8 ≤ stackTop) :
    ∃ s', putWord w va s = .ok s' ∧ Good L s' ∧ userWord s'.2 s'.1 va = w ∧
      ∀ a, userStackTop - userStackSize ≤ a → a < userStackTop → ¬ (va ≤ a ∧ a < va + 8) →
        userByte s'.2 s'.1 a = userByte s.2 s.1 a := by
  obtain ⟨s', hput, hg', hbytes, hrest⟩ := put_spec hg (byteOf w) 8 va hlow htop
  refine ⟨s', hput, hg', ?_, fun a ha ha' hout => hrest a ha ha' ?_⟩
  · unfold userWord
    rw [leWord_bytes hbytes]
    exact Nat.mod_eq_of_lt hw
  · simp only [pageSize]
    omega

/-- **The strings of one vector.** -/
theorem putStrings_spec (hg : Good L s) (haligned : ptr % 8 = 0)
    (hlow : userStackTop - userStackSize ≤ ptr) (hptr : ptr + 8 * ss.length ≤ str) (htop : str + totalLen ss ≤ stackTop) :
    ∃ s', putStrings ss str ptr s = .ok (str + totalLen ss, ptr + 8 * ss.length, s') ∧ Good L s' ∧
      pointersAt s'.2 s'.1 ptr ss.length = addresses str ss ∧
      List.Forall₂ (StringAt s'.2 s'.1) (addresses str ss) ss ∧
      ∀ a, userStackTop - userStackSize ≤ a → a < str → ¬ (ptr ≤ a ∧ a < ptr + 8 * ss.length) →
        userByte s'.2 s'.1 a = userByte s.2 s.1 a := by
  have hends : stackTop < userStackTop ∧ stackTop < 2 ^ 63 := by decide
  induction ss generalizing s str ptr with
  | nil => exact ⟨s, rfl, hg, rfl, List.Forall₂.nil, fun _ _ _ _ => rfl⟩
  | cons x xs ih =>
    rw [totalLen_cons] at htop
    rw [List.length_cons] at hptr
    have hlen : addU x.strlen 1 = x.strlen + 1 := Fs.addU_of_lt (by omega)
    have hstr : addU str (x.strlen + 1) = str + (x.strlen + 1) := Fs.addU_of_lt (by omega)
    have hnext : addU ptr 8 = ptr + 8 := Fs.addU_of_lt (by omega)
    obtain ⟨s1, hput1, hg1, hbytes1, hrest1⟩ := put_spec hg x.mem (x.strlen + 1) str (by omega) (by omega)
    obtain ⟨s2, hput2, hg2, hword2, hrest2⟩ := putWord_spec hg1 str (by omega) haligned hlow (by omega)
    have hptr' : ptr + 8 + 8 * xs.length ≤ str + (x.strlen + 1) := by omega
    obtain ⟨s3, hput3, hg3, hptrs3, hstrs3, hrest3⟩ := ih hg2 (by omega) (by omega) hptr' (by omega)
    have htotal : str + (x.strlen + 1) + totalLen xs = str + totalLen (x :: xs) := by rw [totalLen_cons, Nat.add_assoc]
    have hcount : ptr + 8 + 8 * xs.length = ptr + 8 * (x :: xs).length := by
      rw [List.length_cons]
      omega
    refine ⟨s3, ?_, hg3, ?_, ?_, fun a ha ha' hout => ?_⟩
    · simp only [putStrings, hlen, hput1, hput2, hstr, hnext, bind, Except.bind, hput3, htotal, hcount]
    · have hword : userWord s3.2 s3.1 ptr = str := by
        rw [← hword2]
        exact userWord_congr fun i hi => hrest3 (ptr + i) (by omega) (by omega) (by omega)
      rw [List.length_cons, pointersAt, addresses, hptrs3, hword]
    · rw [addresses]
      refine List.Forall₂.cons (fun i hi => ?_) hstrs3
      rw [hrest3 (str + i) (by omega) (by omega) (by omega), hrest2 (str + i) (by omega) (by omega) (by omega)]
      exact hbytes1 i (by omega)
    · rw [List.length_cons] at hout
      rw [hrest3 a ha (by omega) (by omega), hrest2 a ha (by omega) (by omega)]
      exact hrest1 a ha (by omega) (Or.inl ha')

end Copies

/-! ## The pages of the stack -/

/-- **The stack is mapped.** What was mapped elsewhere is so afterwards. Five free pages for each page are enough. -/
theorem mapStack_spec (hok : SpaceOk L m pt l) (hi : 1 ≤ i) (hn : i + n ≤ 17)
    (hdone : ∀ j, 1 ≤ j → j < i → Private L m pt (userStackTop - j * pageSize)) :
    (5 * n ≤ l.length → ∃ s, mapStack n i pt m = .ok s) ∧ ∀ s, mapStack n i pt m = .ok s → (∃ l', SpaceOk L s.2 s.1 l') ∧
      (∀ j, 1 ≤ j → j < i + n → Private L s.2 s.1 (userStackTop - j * pageSize)) ∧
      ∀ a, Valid (entry m pt a) → Valid (entry s.2 s.1 a) := by
  induction n generalizing m pt i l with
  | zero => exact ⟨fun _ => ⟨(pt, m), rfl⟩, fun s hs => by cases hs; exact ⟨⟨l, hok⟩, hdone, fun _ hv => hv⟩⟩
  | succ n ih =>
    have hstep : ∀ {p pt' m1 m2}, allocPage m = .ok (p, m1) → mapPage pt (userStackTop - i * pageSize) p (pteUserData ||| pteRw)
        { m1 with cell := clearPage p m1.cell } = .ok (pt', m2) → (∃ l', SpaceOk L m2 pt' l') ∧
        (∀ j, 1 ≤ j → j < i + 1 → Private L m2 pt' (userStackTop - j * pageSize)) ∧
        ∀ a, Valid (entry m pt a) → Valid (entry m2 pt' a) := by
      intro p pt' m1 m2 halloc hmap
      have hfill : m2 = { m2 with cell := storeBytes m2.cell (p + 0) [] } := rfl
      obtain ⟨hok', hext, hown, -⟩ := hok.place halloc hmap (by decide) (by decide) (by decide) hfill
      refine ⟨hok', fun j hj hji => ?_, fun a hv => ?_⟩
      · rcases Nat.lt_succ_iff_lt_or_eq.1 hji with hlt | rfl
        · refine (hdone j hj hlt).extends hok hext fun hvpn => ?_
          have := Set.mem_singleton_iff.1 hvpn
          simp only [vpn, userStackTop, pageSize] at this
          omega
        · exact hown
      · by_cases hvpn : vpn a = vpn (userStackTop - i * pageSize)
        · rw [entry_vpn m2 pt' hvpn]
          exact hown.valid
        · rw [hext.entry a fun hx => hvpn (Set.mem_singleton_iff.1 hx)]
          exact hv
    refine ⟨fun hl => ?_, fun s hs => ?_⟩
    · obtain ⟨p, m1, pt', m2, halloc, hmap, hcnt⟩ :=
        hok.place_total (userStackTop - i * pageSize) (pteUserData ||| pteRw) (by omega)
      obtain ⟨⟨l', hok'⟩, hdone', -⟩ := hstep halloc hmap
      have hlen := hok.spaces.free.cnt
      have hlen' := hok'.spaces.free.cnt
      obtain ⟨s, hs⟩ := (ih hok' (by omega) (by omega) hdone').1 (by omega)
      refine ⟨s, ?_⟩
      simp only [mapStack, halloc, hmap, bind, Except.bind]
      exact hs
    · rw [mapStack] at hs
      obtain ⟨⟨p, m1⟩, halloc, hs⟩ := bind_ok hs
      obtain ⟨⟨pt', m2⟩, hmap, hs⟩ := bind_ok hs
      obtain ⟨⟨l', hok'⟩, hdone', hvalid'⟩ := hstep halloc hmap
      obtain ⟨hoks, hall, hvalid⟩ := (ih hok' (by omega) (by omega) hdone').2 s hs
      exact ⟨hoks, fun j hj hjn => hall j hj (by omega), fun a hv => hvalid a (hvalid' a hv)⟩

/-- the loop of `execve` -/
theorem mapStack_good (hok : SpaceOk L m pt l) :
    (80 ≤ l.length → ∃ s, mapStack (userStackSize / pageSize) 1 pt m = .ok s) ∧
      ∀ s, mapStack (userStackSize / pageSize) 1 pt m = .ok s → Good L s ∧ ∀ a, Valid (entry m pt a) → Valid (entry s.2 s.1 a) := by
  have hn : userStackSize / pageSize = 16 := by decide
  rw [hn]
  obtain ⟨htotal, hspec⟩ := mapStack_spec hok le_rfl (by omega : 1 + 16 ≤ 17) fun j hj hj1 => absurd hj (by omega)
  refine ⟨htotal, fun s hs => ?_⟩
  obtain ⟨hok', hall, hvalid⟩ := hspec s hs
  refine ⟨⟨hok', fun a hlow htop => ?_⟩, hvalid⟩
  simp only [userStackTop, userStackSize] at hlow htop
  have hpage := hall ((0x80000000 - a + 4095) / 4096) (by omega) (by omega)
  refine hpage.same_page ?_
  simp only [vpn, userStackTop, pageSize]
  omega

/-! ## The whole stack -/

/-- strings and pointers, argc and the two zeros included, are not longer than the part of the address space below them -/
def Fits (argv envp : List Str) : Prop := totalLen argv + totalLen envp + 8 * (argv.length + envp.length + 3) ≤ stackTop

theorem countArgs_eq {v : Option (List Str)} (hlen : (v.getD []).length < 2 ^ 64) (htotal : totalLen (v.getD []) < 2 ^ 64) :
    countArgs v = ((v.getD []).length, totalLen (v.getD [])) := by
  have hgen : ∀ (ss : List Str) (n t : ℕ), n + ss.length < 2 ^ 64 → t + totalLen ss < 2 ^ 64 →
      ss.foldl (fun r s => (addU r.1 1, addU r.2 (addU s.strlen 1))) (n, t) = (n + ss.length, t + totalLen ss) := by
    intro ss
    induction ss with
    | nil => exact fun n t _ _ => rfl
    | cons s ss ih =>
      intro n t hn ht
      rw [List.length_cons] at hn
      rw [totalLen_cons] at ht
      have h1 : addU n 1 = n + 1 := Fs.addU_of_lt (by omega)
      have h2 : addU s.strlen 1 = s.strlen + 1 := Fs.addU_of_lt (by omega)
      have h3 : addU t (s.strlen + 1) = t + (s.strlen + 1) := Fs.addU_of_lt (by omega)
      rw [List.foldl_cons, h1, h2, h3, ih _ _ (by omega) (by omega), List.length_cons, totalLen_cons]
      simp only [Prod.mk.injEq]
      omega
  have := hgen (v.getD []) 0 0 (by omega) (by omega)
  rw [Nat.zero_add, Nat.zero_add] at this
  exact this

/-- the numbers of `execve`, without wrap -/
theorem layout_numbers (hfits : Fits (argv.getD []) (envp.getD [])) :
    (countArgs argv).1 = (argv.getD []).length ∧ (countArgs envp).1 = (envp.getD []).length ∧
      strStart argv envp + totalLen (argv.getD []) + totalLen (envp.getD []) = stackTop ∧
      argcStart argv envp % 16 = 0 ∧
      argcStart argv envp + 8 * ((argv.getD []).length + (envp.getD []).length + 3) ≤ strStart argv envp ∧
      strStart argv envp < argcStart argv envp + 8 * ((argv.getD []).length + (envp.getD []).length + 3) + 16 := by
  have htop : stackTop < 2 ^ 63 := by decide
  rw [Fits] at hfits
  have ha : countArgs argv = _ := countArgs_eq (by omega) (by omega)
  have he : countArgs envp = _ := countArgs_eq (by omega) (by omega)
  have hsum : addU (totalLen (envp.getD [])) (totalLen (argv.getD [])) = _ := Fs.addU_of_lt (by omega)
  have hstr : strStart argv envp = stackTop - (totalLen (envp.getD []) + totalLen (argv.getD [])) := by
    rw [strStart, ha, he, hsum]
    exact Fs.subU_of_le (by omega) (by omega)
  have hptr : ptrTot argv envp = 8 * ((argv.getD []).length + (envp.getD []).length + 3) := by
    rw [ptrTot, ha, he]
    simp only
    rw [Nat.mod_eq_of_lt (by omega)]
    omega
  have hsub : subU (strStart argv envp) (ptrTot argv envp) = strStart argv envp - ptrTot argv envp :=
    Fs.subU_of_le (by omega) (by omega)
  rw [argcStart, hsub, ha, he]
  omega

/-- the ranges of argc and the pointers, which are followed by those of the strings -/
theorem ranges_apart {argv envp : List Str}
    (hsp : sp + 8 * (argv.length + envp.length + 3) ≤ str) (htop : str + totalLen argv + totalLen envp = stackTop)
    (hargv : pointersAt m pt (sp + 8) argv.length = addresses str argv)
    (henvp : pointersAt m pt (sp + 8 * (argv.length + 2)) envp.length = addresses (str + totalLen argv) envp) :
    (ranges m pt sp argv envp).Pairwise Below ∧ ∀ r ∈ ranges m pt sp argv envp, r.1 + r.2 ≤ stackTop := by
  obtain ⟨hpair, hin⟩ := addresses_apart str (argv ++ envp)
  rw [totalLen_append] at hin
  rw [ranges, hargv, henvp, ← addresses_append]
  have hword : ∀ r ∈ (List.range (argv.length + envp.length + 3)).map fun k => (sp + 8 * k, 8), r.1 + r.2 ≤ str := by
    intro r hr
    obtain ⟨k, hk, rfl⟩ := List.mem_map.1 hr
    rw [List.mem_range] at hk
    simp only
    omega
  refine ⟨List.pairwise_append.2 ⟨?_, hpair, fun r hr r' hr' => (hword r hr).trans (hin r' hr').1⟩, fun r hr => ?_⟩
  · refine List.pairwise_map.2 (List.pairwise_lt_range.imp fun {i j} hij => ?_)
    simp only [Below]
    omega
  · rcases List.mem_append.1 hr with hr | hr
    · have := hword r hr
      omega
    · have := (hin r hr).2
      omega

/-- the steps of `userStack` -/
theorem userStack_ok {A E : List Str}
    {argc envc ptr1 ptr2 str1 ptr3 str2 : ℕ} {s0 s1 s2 s3 s4 s5 : ℕ × PageMem}
    (hargc : (countArgs argv).1 = argc) (henvc : (countArgs envp).1 = envc) (hA : (argv.getD []).take argc = A)
    (hE : (envp.getD []).take envc = E) (hsp : argcStart argv envp = sp) (hstr : strStart argv envp = str)
    (hptr : addU sp 8 = ptr) (hptr2 : addU ptr1 8 = ptr2) (hpass : ¬ sp < userStackTop - userStackSize)
    (h0 : mapStack (userStackSize / pageSize) 1 pt m = .ok s0) (h1 : putWord argc sp s0 = .ok s1)
    (h2 : putStrings A str ptr s1 = .ok (str1, ptr1, s2)) (h3 : putWord 0 ptr1 s2 = .ok s3)
    (h4 : putStrings E str1 ptr2 s3 = .ok (str2, ptr3, s4)) (h5 : putWord 0 ptr3 s4 = .ok s5) :
    userStack argv envp pt m = .ok (sp, s5) := by
  simp only [userStack, h0, Except.mapError, bind, Except.bind, hsp, hstr, hargc, henvc, hA, hE, hptr, if_neg hpass, h1, h2, h3,
    hptr2, h4, h5]

/-- for arguments whose strings and pointers are together not longer than `top`, unless `execve` finds the stack too small, the
program finds argc, the pointers and the strings where it looks for them -/
theorem userStack_decodes {s0 : ℕ × PageMem} (hs0 : mapStack (userStackSize / pageSize) 1 pt m = .ok s0) (hg0 : Good L s0)
    (hfits : Fits (argv.getD []) (envp.getD [])) (hlarge : ¬ argcStart argv envp < userStackTop - userStackSize) :
    ∃ sp pt' m', userStack argv envp pt m = .ok (sp, pt', m') ∧ Decodes m' pt' sp (argv.getD []) (envp.getD []) := by
  have htops : stackTop < userStackTop ∧ stackTop < 2 ^ 63 := by decide
  obtain ⟨hargc, henvc, hstr, haligned, hsp, -⟩ := layout_numbers hfits
  have hlow := Nat.le_of_not_lt hlarge
  generalize hA : argv.getD [] = A at *
  generalize hE : envp.getD [] = E at *
  generalize hspdef : argcStart argv envp = sp at *
  generalize hstrdef : strStart argv envp = str at *
  -- argc, argv and its zero, envp and its zero
  obtain ⟨s1, hs1, hg1, hw1, -⟩ := putWord_spec hg0 A.length (by omega) (by omega : sp % 8 = 0) hlow (by omega)
  obtain ⟨s2, hs2, hg2, hp2, hstr2, hr2⟩ := putStrings_spec hg1 (by omega : (sp + 8) % 8 = 0) (by omega)
    (by omega : sp + 8 + 8 * A.length ≤ str) (by omega)
  obtain ⟨s3, hs3, hg3, hw3, hr3⟩ := putWord_spec hg2 0 (by decide) (by omega : (sp + 8 + 8 * A.length) % 8 = 0)
    (by omega) (by omega)
  obtain ⟨s4, hs4, hg4, hp4, hstr4, hr4⟩ := putStrings_spec hg3 (by omega : (sp + 8 + 8 * A.length + 8) % 8 = 0) (by omega)
    (by omega : sp + 8 + 8 * A.length + 8 + 8 * E.length ≤ str + totalLen A) (by omega)
  obtain ⟨s5, hs5, hg5, hw5, hr5⟩ := putWord_spec hg4 0 (by decide)
    (by omega : (sp + 8 + 8 * A.length + 8 + 8 * E.length) % 8 = 0) (by omega) (by omega)
  -- what comes after the vector argv leaves it alone
  have hkeep : ∀ a, userStackTop - userStackSize ≤ a → a < str + totalLen A →
      ¬ (sp + 8 + 8 * A.length ≤ a ∧ a < sp + 8 + 8 * A.length + 8 + 8 * E.length + 8) →
      userByte s5.2 s5.1 a = userByte s2.2 s2.1 a := by
    intro a ha ha' hout
    rw [hr5 a ha (by omega) (by omega), hr4 a ha ha' (by omega), hr3 a ha (by omega) (by omega)]
  have hargv : pointersAt s5.2 s5.1 (sp + 8) A.length = addresses str A := by
    rw [← hp2]
    exact pointersAt_congr fun b hb hb' => hkeep b (by omega) (by omega) (by omega)
  have haddr : sp + 8 * (A.length + 2) = sp + 8 + 8 * A.length + 8 := by omega
  have henvp : pointersAt s5.2 s5.1 (sp + 8 * (A.length + 2)) E.length = addresses (str + totalLen A) E := by
    rw [haddr, ← hp4]
    exact pointersAt_congr fun b hb hb' => hr5 b (by omega) (by omega) (by omega)
  obtain ⟨hapart, hbelow⟩ := ranges_apart hsp hstr hargv henvp
  refine ⟨sp, s5.1, s5.2, ?_, ?_⟩
  · have hnext1 : addU sp 8 = sp + 8 := Fs.addU_of_lt (by omega)
    have hnext2 : addU (sp + 8 + 8 * A.length) 8 = sp + 8 + 8 * A.length + 8 := Fs.addU_of_lt (by omega)
    exact userStack_ok hargc henvc (by rw [hA, List.take_length]) (by rw [hE, List.take_length]) hspdef hstrdef hnext1 hnext2
      hlarge hs0 hs1 hs2 hs3 hs4 hs5
  · refine ⟨haligned, hlow, fun a ha ha' => (hg5.own a (by omega) (by omega)).valid, ?_, ?_, ?_, ?_, ?_, hapart, hbelow⟩
    · rw [← hw1]
      refine userWord_congr fun i hi => ?_
      rw [hkeep _ (by omega) (by omega) (by omega), hr2 _ (by omega) (by omega) (by omega)]
    · rw [hargv]
      exact strings_congr hstr2 fun b hb hb' => hkeep b (by omega) (by omega) (by omega)
    · have hend : sp + 8 * (A.length + 1) = sp + 8 + 8 * A.length := by omega
      rw [hend, ← hw3]
      refine userWord_congr fun i hi => ?_
      rw [hr5 _ (by omega) (by omega) (by omega), hr4 _ (by omega) (by omega) (by omega)]
    · rw [henvp]
      exact strings_congr hstr4 fun b hb hb' => hr5 b (by omega) (by omega) (by omega)
    · have hend : sp + 8 * (A.length + E.length + 2) = sp + 8 + 8 * A.length + 8 + 8 * E.length := by omega
      rw [hend, hw5]

theorem pointersAt_length (m : PageMem) (pt a n : ℕ) : (pointersAt m pt a n).length = n := by
  induction n generalizing a with
  | zero => rfl
  | succ n ih => rw [pointersAt, List.length_cons, ih]

/-- ranges that lie one below the other, from a on -/
theorem sum_le_of_below {top : ℕ} {rs : List (ℕ × ℕ)} (ha : a ≤ top) (hfrom : ∀ r ∈ rs, a ≤ r.1) (hpair : rs.Pairwise Below)
    (hbelow : ∀ r ∈ rs, r.1 + r.2 ≤ top) : a + (rs.map Prod.snd).sum ≤ top := by
  induction rs generalizing a with
  | nil => exact ha
  | cons r rs ih =>
    obtain ⟨hfirst, hpair⟩ := List.pairwise_cons.1 hpair
    obtain ⟨hr, hbelow⟩ := List.forall_mem_cons.1 hbelow
    have hsum := ih hr hfirst hpair hbelow
    have hstart := hfrom r List.mem_cons_self
    rw [List.map_cons, List.sum_cons]
    omega

/-- what the program finds lies apart and below `top`, so it is not longer than that -/
theorem Decodes.fits {argv envp : List Str} (h : Decodes m pt sp argv envp) : Fits argv envp := by
  have hsum := sum_le_of_below (Nat.zero_le _) (fun r _ => Nat.zero_le r.1) h.apart h.below
  have hzip : (pointersAt m pt (sp + 8) argv.length ++ pointersAt m pt (sp + 8 * (argv.length + 2)) envp.length).length =
      ((argv ++ envp).map fun s => s.strlen + 1).length := by
    rw [List.length_append, pointersAt_length, pointersAt_length, List.length_map, List.length_append]
  rw [ranges, List.map_append, List.sum_append, List.map_snd_zip hzip.ge, List.map_map, ← totalLen, totalLen_append] at hsum
  simp only [Function.comp_def, List.map_const', List.sum_replicate, List.length_range, smul_eq_mul] at hsum
  rw [Fits]
  omega

theorem Str.strlen_eq {s : Str} (hnul : s.mem n = 0) (h : ∀ i < n, s.mem i ≠ 0) : s.strlen = n :=
  (Nat.find_eq_iff _).2 ⟨hnul, h⟩

/-- a hundred pages to hand out -/
def hundredPages : Layout := ⟨kernelStop - 102 * pageSize, by decide, by decide⟩

/-- "ls" -/
def ls : Str := ⟨CString.strOf [108, 115], 2, rfl⟩

/-- "-l" -/
def dashL : Str := ⟨CString.strOf [45, 108], 2, rfl⟩

section Wrap

variable {L : Layout} {s : ℕ × PageMem} {l : List ℕ}

/-- a copy inside one page that is mapped -/
theorem put_mapped (hok : SpaceOk L s.2 s.1 l) (src : ℕ → UInt8) {len : ℕ} (hv : Valid (entry s.2 s.1 va)) (hpos : 0 < len)
    (hpage : va % pageSize + len ≤ pageSize) :
    ∃ s', put src len va s = .ok s' ∧ SpaceOk L s'.2 s'.1 l ∧ ∀ a, entry s'.2 s'.1 a = entry s.2 s.1 a := by
  obtain ⟨m', hc, hok', hent⟩ := copyout_mapped src hok hv hpos (by rw [vaOffset_eq]; exact hpage)
  exact ⟨(s.1, m'), by rw [put, hc], hok', hent⟩

/-- strings of one page each, at addresses that may wrap -/
theorem putStrings_mapped (hss : ∀ x ∈ ss, x.strlen = 4095) (hok : SpaceOk L s.2 s.1 l)
    (hstr : str % 4096 = 0) (hstr64 : str < 2 ^ 64) (hptr : ptr % 8 = 0) (hptr64 : ptr + 8 * ss.length < 2 ^ 64)
    (hpages : ∀ i < ss.length, Valid (entry s.2 s.1 (addU str (4096 * i))) ∧ Valid (entry s.2 s.1 (ptr + 8 * i))) :
    ∃ s', putStrings ss str ptr s = .ok (addU str (4096 * ss.length), ptr + 8 * ss.length, s') ∧ SpaceOk L s'.2 s'.1 l ∧
      ∀ a, entry s'.2 s'.1 a = entry s.2 s.1 a := by
  induction ss generalizing s str ptr with
  | nil =>
    refine ⟨s, ?_, hok, fun _ => rfl⟩
    simp only [putStrings, List.length_nil, Nat.mul_zero, Exec.addU_zero hstr64, Nat.add_zero]
  | cons x xs ih =>
    rw [List.length_cons] at hptr64 hpages
    have hlen : addU x.strlen 1 = 4096 := by rw [hss x List.mem_cons_self]; decide
    have hnext : addU ptr 8 = ptr + 8 := Fs.addU_of_lt (by omega)
    have hfirst := hpages 0 (Nat.succ_pos _)
    simp only [Nat.mul_zero, Exec.addU_zero hstr64, Nat.add_zero] at hfirst
    obtain ⟨s1, hput1, hok1, hent1⟩ := put_mapped hok x.mem hfirst.1 (by decide : 0 < 4096) (by simp only [pageSize]; omega)
    obtain ⟨s2, hput2, hok2, hent2⟩ := put_mapped hok1 (byteOf str) (by rw [hent1]; exact hfirst.2) (by decide : 0 < 8)
      (by simp only [pageSize]; omega)
    have hpages' : ∀ i < xs.length, Valid (entry s2.2 s2.1 (addU (addU str 4096) (4096 * i))) ∧
        Valid (entry s2.2 s2.1 (ptr + 8 + 8 * i)) := by
      intro i hi
      have h := hpages (i + 1) (by omega)
      have h1 : 4096 * (i + 1) = 4096 + 4096 * i := by omega
      have h2 : ptr + 8 * (i + 1) = ptr + 8 + 8 * i := by omega
      rw [hent2, hent1, hent2, hent1, Exec.addU_addU, ← h1, ← h2]
      exact h
    have hstr' : addU str 4096 % 4096 = 0 := by
      rw [addU]
      omega
    obtain ⟨s3, hput3, hok3, hent3⟩ := ih (fun y hy => hss y (List.mem_cons_of_mem _ hy)) hok2 hstr' (Exec.addU_lt _ _)
      (by omega : (ptr + 8) % 8 = 0) (by omega) hpages'
    refine ⟨s3, ?_, hok3, fun a => by rw [hent3, hent2, hent1]⟩
    have h1 : addU (addU str 4096) (4096 * xs.length) = addU str (4096 * (x :: xs).length) := by
      have hsum : 4096 + 4096 * xs.length = 4096 * (xs.length + 1) := by omega
      rw [Exec.addU_addU, List.length_cons, hsum]
    have h2 : ptr + 8 + 8 * xs.length = ptr + 8 * (x :: xs).length := by
      rw [List.length_cons]
      omega
    simp only [putStrings, putWord, hlen, hput1, hput2, hnext, bind, Except.bind, hput3, h1, h2]

end Wrap

/-- a file all of whose segments are accepted is loaded, if pages last; k are left -/
theorem loadLoop_all {c : Content} {d : Pgdir} {s : Exec.Sys} {off k j : ℕ}
    (hoff : n ≠ 0 → off ≤ c.bytes.length) (hlen : (headers c n off).length = n)
    (hall : ∀ h ∈ headers c n off, h.type = ptLoad ∧ Exec.Fits c h ∧ Accepts c h)
    (hready : Exec.Ready True L d s (((headers c n off).map (Exec.pages c)).sum + k) (((headers c n off).map Exec.files).sum + j)) :
    ∃ d' s', loadLoop L c n off d s = .ok (true, d', s') ∧ Exec.Ready True L d' s' k j := by
  induction n generalizing off d s with
  | zero =>
    simp only [headers, List.map_nil, List.sum_nil, Nat.zero_add] at hready
    exact ⟨d, s, rfl, hready⟩
  | succ n ih =>
    have hin : off + phdrSize ≤ c.bytes.length := by
      by_contra hno
      rw [headers, if_neg hno] at hlen
      cases hlen
    rw [headers_succ n off hin] at hlen hall hready
    set h := Phdr.ofBytes ((c.bytes.drop off).take phdrSize) with hh
    obtain ⟨⟨hload, hfits, hacc⟩, hrest⟩ := List.forall_mem_cons.1 hall
    rw [if_pos hacc] at hlen hrest hready
    simp only [List.map_cons, List.sum_cons, Nat.add_assoc] at hready
    have hseg := Exec.loadSegment_ends hload (hh ▸ Exec.ofBytes_vaddr_lt _) hfits hready
    rw [loadLoop_succ n (hoff (Nat.succ_ne_zero n)), if_pos hin, if_pos (hh ▸ hload), ← hh]
    cases hx : Exec.loadSegment L c h d s with
    | error e =>
      rw [hx] at hseg
      exact absurd trivial hseg.2
    | ok r =>
      rw [hx] at hseg
      obtain ⟨hready', hok⟩ := hseg
      obtain ⟨d', s', hloop, hleft⟩ := ih (fun _ => hin) (Nat.succ.inj hlen) hrest hready'
      exact ⟨d', s', by simp only [bind, Except.bind, if_pos (hok.2 hacc), hloop], hleft⟩

/-- eight thousand pages to hand out -/
def manyPages : Layout := ⟨kernelStop - 8002 * pageSize, by decide, by decide⟩

/-- a program with two gigabytes of bss, and eight megabytes at the end of the address space -/
def hugeBss : Content :=
  ⟨ehdrBytes 64 2 ++ phdrBytes pfRw 0 0 1 0x80000000 ++ phdrBytes pfRw 0 0xFFFFFF800000 1 0x800000, by decide +kernel⟩

/-- a page full of characters, with its NUL -/
def pageStr : Str := ⟨fun i => if i < 4095 then 97 else 0, 4095, rfl⟩

/-- the segment below -/
def lowBss : Phdr := ⟨ptLoad, pfRw, 0, 0, 1, 0x80000000⟩
/-- the segment at the end -/
def highBss : Phdr := ⟨ptLoad, pfRw, 0, 0xFFFFFF800000, 1, 0x800000⟩

/-- they do not meet -/
theorem lowBss_apart (hi : i < 0x80000000) : vpn (lowBss.vaddr + i) ∉ ExecData.TouchedBy [highBss] := by
  rintro ⟨h, hh, -, hv⟩
  obtain rfl := List.mem_singleton.1 hh
  obtain ⟨hstart, hsize⟩ := ExecData.bss_range (h := highBss) (by decide) (by decide)
  rcases hv with ⟨j, hj, hv⟩ | ⟨j, hj, hv⟩
  · rw [addU, ExecData.vpn_mod] at hv
    simp only [vpn, lowBss, highBss, pageSize] at hj hv
    omega
  · rw [addU, ExecData.vpn_mod, hstart] at hv
    rw [hsize, hstart] at hj
    simp only [vpn, lowBss, highBss, pageBase, pageSize] at hj hv
    omega

/-- the two segments are in memory -/
theorem hugeBss_loaded : ∃ m d s' l, kinit manyPages (fun _ => 0) = some m ∧
    Exec.load manyPages hugeBss (Exec.start m) = .ok (true, some d, s') ∧ SpaceOk manyPages s'.mem d.pt l ∧ 80 ≤ l.length ∧
    (∀ a < 0x80000000, Valid (entry s'.mem d.pt a)) ∧
    ∀ a, 0xFFFFFFFFFF800000 ≤ a → a < 2 ^ 64 → Valid (entry s'.mem d.pt a) := by
  obtain ⟨m, l, hk, hpages, -, -⟩ := kinit_ok manyPages fun _ => 0
  have hl : l.length = 8000 := by
    rw [Exec.kinit_length hk hpages.toFreeList]
    decide
  have hheaders : headers hugeBss 2 64 = [lowBss, highBss] := by decide +kernel
  have hall : ∀ h ∈ headers hugeBss 2 64, h.type = ptLoad ∧ Exec.Fits hugeBss h ∧ Accepts hugeBss h := by
    rw [hheaders]
    decide +kernel
  have hneed : ((headers hugeBss 2 64).map (Exec.pages hugeBss)).sum = 4122 ∧
      ((headers hugeBss 2 64).map Exec.files).sum = 0 := by
    rw [hheaders]
    decide +kernel
  have hok : SpaceOk manyPages ({ Exec.start m with pgdirs := 1 } : Exec.Sys).mem (⟨0, []⟩ : Pgdir).pt l :=
    SpaceOk.empty hpages.toFreeList
  have hzero : ExecData.Zeroed manyPages ({ Exec.start m with pgdirs := 1 } : Exec.Sys).mem := ExecData.kinit_zeroed hk
  have hready : Exec.Ready True manyPages ⟨0, []⟩ { Exec.start m with pgdirs := 1 }
      (((headers hugeBss 2 64).map (Exec.pages hugeBss)).sum + 80) (((headers hugeBss 2 64).map Exec.files).sum + 0) :=
    ⟨⟨l, hok.spaces, fun _ => by rw [hneed.1, hl]; decide⟩, fun _ => by rw [hneed.2]; exact Nat.zero_le _⟩
  obtain ⟨d, s', hloop, hleft⟩ := loadLoop_all (fun _ => by decide +kernel) (by rw [hheaders]; rfl) hall hready
  have hheader : Exec.Header hugeBss := by decide +kernel
  have hphnum : (Exec.Ehdr.ofBytes (hugeBss.bytes.take Exec.ehdrSize)).phnum = 2 := by decide +kernel
  have hphoff : (Exec.Ehdr.ofBytes (hugeBss.bytes.take Exec.ehdrSize)).phoff = 64 := by decide +kernel
  obtain ⟨⟨l', hok'⟩, -⟩ := ExecData.loadLoop_extends hok hloop
  obtain ⟨l2, hok2, hl2⟩ := hleft.pages
  have hcnt := hok'.spaces.free.cnt
  have hcnt2 := hok2.free.cnt
  have hfirst : headers hugeBss 2 64 = [] ++ lowBss :: [highBss] := hheaders
  have hsecond : headers hugeBss 2 64 = [lowBss] ++ highBss :: [] := hheaders
  have hlow := ExecData.loadLoop_places hok hzero hloop hfirst ⟨rfl, rfl⟩ (by decide) (by decide)
    (fun i hi => lowBss_apart hi) (by decide)
  have hhigh := ExecData.loadLoop_places hok hzero hloop hsecond ⟨rfl, rfl⟩ (by decide) (by decide)
    (fun i hi hx => by obtain ⟨h, hh, -⟩ := hx; cases hh) (by decide)
  refine ⟨m, d, s', l', hk, ?_, hok', by have := hl2 trivial; omega, fun a ha => ?_, fun a ha ha' => ?_⟩
  · rw [Exec.load_eq, if_pos hheader]
    simp only [hphnum, hphoff, bind, Except.bind]
    rw [show (Exec.start m).pgdirs + 1 = 1 from rfl, hloop]
  · have := (hlow.mapped a ha).1
    rwa [show lowBss.vaddr + a = a from Nat.zero_add a] at this
  · have hvpn : vpn a = vpn (highBss.vaddr + (a - 0xFFFFFFFFFF800000)) := by
      simp only [vpn, highBss, pageSize]
      omega
    rw [entry_vpn _ _ hvpn]
    exact (hhigh.mapped _ (by simp only [highBss]; omega)).1

/-- 2^19 times the same string of a page -/
def longArgs : Option (List Str) := some (List.replicate 524288 pageStr)

theorem pageStr_strlen : pageStr.strlen = 4095 := by
  refine Str.strlen_eq rfl fun i hi => ?_
  simp only [pageStr, if_pos hi]
  decide

theorem longArgs_eq : ∃ ss, longArgs = some ss ∧ ss.length = 524288 ∧ totalLen ss = 2147483648 ∧ ∀ x ∈ ss, x.strlen = 4095 := by
  refine ⟨List.replicate 524288 pageStr, rfl, List.length_replicate, ?_, fun x hx => ?_⟩
  · rw [totalLen, List.map_replicate, List.sum_replicate, pageStr_strlen]
    rfl
  · rw [List.eq_of_mem_replicate hx]
    exact pageStr_strlen

-- from here on only the facts above are used; the list itself is too long to compute with
attribute [local irreducible] longArgs

/-- the numbers of `execve` for them -/
theorem longArgs_numbers : (countArgs longArgs).1 = 524288 ∧ (countArgs none).1 = 0 ∧
    strStart longArgs none = 2 ^ 64 - 4096 ∧ argcStart longArgs none = 2 ^ 64 - 4198432 := by
  obtain ⟨ss, hss, hlen, htotal, -⟩ := longArgs_eq
  have ha : countArgs longArgs = (524288, 2147483648) := by
    rw [hss, countArgs_eq (by rw [Option.getD_some, hlen]; decide) (by rw [Option.getD_some, htotal]; decide), Option.getD_some,
      hlen, htotal]
  have hn : countArgs none = (0, 0) := rfl
  have hstr : strStart longArgs none = 2 ^ 64 - 4096 := by
    rw [strStart, ha, hn]
    rfl
  refine ⟨by rw [ha], by rw [hn], hstr, ?_⟩
  rw [argcStart, hstr, ptrTot, ha, hn]
  rfl

end OsKernel.Kernel.ExecStack
