/-
The kernel on the image of `mkfs`.

`mkfs` and the kernel compute where things are with code of their own: the block of an inode and its slot in it, the bits of the
bitmap, the entries of the log. `Mounted` says that a cache shows the image: all blocks the inode layer reads, and as blocks in
use those the bitmap marks.

Results:
- `mkfs_read_back`: the kernel finds every file by its name and reads back its type, its size and its bytes; the log is empty;
  the allocator hands out no block that is in use.
- `fresh_image_scans`: scanning the root directory, with a name that is there or one that is not, stays inside the blocks it
  has, exactly when its entries do not fill its last block and there are at most 206 files. Otherwise its rounded size takes in
  a block that does not exist (`full_root_block_panics`), or an inode is in the bitmap block (`hole_in_bitmap`).
-/
import OsKernel.Fs.Commit
import OsKernel.Fs.InodeLife
import OsKernel.User.MkfsImage

namespace OsKernel.User.Mkfs

open OsKernel.Fs OsKernel.Fs.Inodes OsKernel.Bytes OsKernel.Fallible OsKernel.CString OsKernel.Program OsKernel.SlotMap
open OsKernel.Fs.Directory (encode_length Lists answer slots)

/-! ## The bitmap -/

/-- one turn of the loop of `balloc` sets one bit -/
theorem bitmapGet_mark (buf : BlockData) {n : ℕ} (hn : n < bitPerBlock) (i : ℕ) :
    bitmapGet (patch buf (n / 8) 1 fun _ => getByte buf (n / 8) ||| .ofNat (1 <<< (n % 8))) i =
      (decide (i = n) || bitmapGet buf i) := by
  have hbyte : n / 8 < 512 := Nat.div_lt_of_lt_mul hn
  rw [bitmapGet_eq, bitmapGet_eq]
  by_cases h : i / 8 = n / 8
  · have hlt : n % 8 < 8 := Nat.mod_lt _ (by decide)
    have hbit : (UInt8.ofNat (1 <<< (n % 8))).toNat = 2 ^ (n % 8) := by
      rw [Nat.one_shiftLeft]
      exact UInt8.toNat_ofNat_of_lt' (Nat.pow_lt_pow_right (by decide) hlt)
    have hiff : (n % 8 = i % 8) ↔ i = n := by omega
    rw [h, getByte_patch_in _ _ le_rfl (Nat.lt_succ_self _) hbyte, UInt8.toNat_or, hbit, Nat.testBit_or,
      Nat.testBit_two_pow, Bool.or_comm, decide_eq_decide.2 hiff]
  · have hne : i ≠ n := fun he => h (by rw [he])
    rw [getByte_patch_out _ _ (by omega), decide_eq_false hne, Bool.false_or]

theorem bitmapGet_ballocBuf {used : ℕ} (hu : used ≤ bitPerBlock) (i : ℕ) : bitmapGet (ballocBuf used) i = decide (i < used) := by
  induction used with
  | zero =>
    rw [bitmapGet_eq, ballocBuf, List.range_zero, List.foldl_nil, getByte_zeros]
    simp
  | succ used ih =>
    have hstep : ballocBuf (used + 1) = patch (ballocBuf used) (used / 8) 1
        fun _ => getByte (ballocBuf used) (used / 8) ||| .ofNat (1 <<< (used % 8)) := by
      rw [ballocBuf, List.range_succ, List.foldl_append]
      rfl
    rw [hstep, bitmapGet_mark _ hu, ih (Nat.le_of_succ_le hu), ← Bool.decide_or]
    apply decide_eq_decide.2
    omega

/-! ## The image in a cache -/

/-- `get_super_block`, from block 1 -/
def getSuperBlock (disk : ℕ → BlockData) : SuperBlock where
  numBlocks := .ofNat (getLE (disk 1) 0 4)
  numDataBlocks := .ofNat (getLE (disk 1) 4 4)
  numInodes := .ofNat (getLE (disk 1) 8 4)
  numLogBlocks := .ofNat (getLE (disk 1) 12 4)
  logStart := .ofNat (getLE (disk 1) 16 4)
  inodeStart := .ofNat (getLE (disk 1) 20 4)
  bitmapStart := .ofNat (getLE (disk 1) 24 4)

/-- the cache shows the blocks of the disk, but for those of its allocator, and what the bitmap marks is in use -/
structure Mounted {σ : Type} (C : AbstractCache σ) (disk : ℕ → BlockData) (s : σ) : Prop where
  inner : C.inner ⊆ {superBlock.bitmapStart.toNat}
  blk : ∀ n, n ≠ superBlock.bitmapStart.toNat → (C.view s).blk n = disk n
  used : (C.view s).used = { n | n < bitPerBlock ∧ bitmapGet (disk superBlock.bitmapStart.toNat) n = true }

/-- one bitmap block covers the disk -/
theorem oneBitmap : OneBitmap superBlock := ⟨by decide, by decide⟩

/-- the kernel's own allocator on the disk -/
theorem mounted_disk (disk : ℕ → BlockData) (frees : List (ℕ × Bool)) :
    Mounted (bitmapCache superBlock oneBitmap) disk ⟨disk, frees⟩ :=
  ⟨Set.Subset.rfl, fun _ hn => if_neg hn, rfl⟩

section Kernel

variable {σ : Type} (C : AbstractCache σ) {E : Inodes.Stop → Prop} {files : List HostFile} {img : Image} {F : ℕ → InodeEntry} {s s' : σ}

theorem Built.getSuperBlock_eq (h : Built files img F) : getSuperBlock img.disk = superBlock := by
  have hword : ∀ i, i < 7 → getLE (img.disk 1) (4 * i) 4 = superWords superBlock i % 256 ^ 4 := by
    intro i hi
    have hdisk : img.disk 1 = putLE zeros 0 4 7 (superWords superBlock) := by
      rw [h.front 1 (by decide)]
      simp only [formatted, Function.update_self]
    have := getLE_putLE (zeros : BlockData) 0 (w := 4) (superWords superBlock) hi (by decide)
    rw [Nat.zero_add] at this
    rw [hdisk, this]
  have h0 := hword 0 (by decide)
  have h1 := hword 1 (by decide)
  have h2 := hword 2 (by decide)
  have h3 := hword 3 (by decide)
  have h4 := hword 4 (by decide)
  have h5 := hword 5 (by decide)
  have h6 := hword 6 (by decide)
  simp only [Nat.reduceMul] at h0 h1 h2 h3 h4 h5 h6
  rw [getSuperBlock, h0, h1, h2, h3, h4, h5, h6]
  decide

theorem Built.marked_iff (h : Built files img F) {n : ℕ} :
    (n < bitPerBlock ∧ bitmapGet (img.disk superBlock.bitmapStart.toNat) n = true) ↔ n < img.freeblock := by
  have hle := h.le
  have hsize : fsSize ≤ bitPerBlock := by decide
  rw [h.bitmap, bitmapGet_ballocBuf (hle.trans hsize), decide_eq_true_eq]
  omega

/-- the files are in the cache as they are on the image -/
theorem Built.mounted (h : Built files img F) (hm : Mounted C img.disk s) :
    Sound base C.inner (C.view s) F ∧ ∀ i, fileOf (C.view s).blk (F i) = fileOf img.disk (F i) := by
  have hbm : superBlock.bitmapStart.toNat ∈ base := show 91 < nmeta by decide
  apply h.sound.agree
  · exact hm.inner.trans (Set.singleton_subset_iff.2 hbm)
  · rw [hm.used]
    ext n
    exact h.marked_iff
  · intro n hn
    exact hm.blk n fun he => hn (he ▸ hbm)

theorem toBlockNo_eq (i : ℕ) : toBlockNo superBlock i = iblock i := Nat.add_comm ..

theorem iblock_ne_bitmap {i : ℕ} (hi : i < 208) : iblock i < superBlock.bitmapStart.toNat := by
  have : i / 8 + 65 < 91 := by omega
  exact this

/-- `to_block_no` and `get_entry` find the entry that `winode` wrote -/
theorem Built.onDisk_eq (h : Built files img F) {i : ℕ} (hi : i < 208) : onDisk superBlock img.disk i = F i := by
  rw [Inodes.onDisk, toBlockNo_eq]
  exact h.home i (iblock_ne_bitmap hi)

/-- the inode the kernel has of an entry -/
def loaded (F : ℕ → InodeEntry) (i : ℕ) : Inode := ⟨i, 1, true, F i⟩

/-- `inode_get` -/
theorem Built.get (h : Built files img F) (hm : Mounted C img.disk s) (hv : C.view s' = C.view s) {i : ℕ} (h0 : 0 < i)
    (hi : i < numInodes) :
    After C.handle E (fun r s'' => r = loaded F i ∧ C.view s'' = C.view s) (inodeGet superBlock i) s' := by
  have hi' : i < 208 := lt_trans hi (by decide)
  have hnum : i < superBlock.numInodes.toNat := hi
  have hne := ne_of_lt (iblock_ne_bitmap hi')
  have hout : toBlockNo superBlock i ∉ C.inner := by
    rw [toBlockNo_eq]
    exact fun hin => hne (hm.inner hin)
  refine (inodeGet_spec C h0 hnum hout).mono fun r s'' hr => ?_
  obtain ⟨rfl, hv''⟩ := hr
  refine ⟨?_, hv''.trans hv⟩
  rw [loaded, ← h.onDisk_eq hi', Inodes.onDisk, Inodes.onDisk, hv, toBlockNo_eq, hm.blk _ hne]

/-! ## The root directory -/

theorem slot_dirent {name : List UInt8} (h : 0 ∉ name) {inum : ℕ} (h0 : 0 < inum) (hlt : inum < 65536) :
    (dirent name inum).slot = some (name.take fileNameMaxLength, inum) := by
  rw [dirent, DirEntry.slot_assign _ _ h0 hlt, key, cstr_strOf h]

/-- the entry of file j -/
theorem slots_rootEntries (hlen : files.length ≤ 214) (j : ℕ) :
    (slots (rootEntries files))[j + 2]? = files[j]?.map fun f => some (f.name.take fileNameMaxLength, j + 2) := by
  rw [Directory.slots_getElem?]
  simp only [rootEntries, List.getElem?_cons_succ, List.getElem?_mapIdx, Option.map_map]
  cases hj : files[j]? with
  | none => rfl
  | some f =>
    have hlt : j < files.length := (List.getElem?_eq_some_iff.1 hj).1
    simp only [Option.map_some, Function.comp_apply]
    rw [slot_dirent f.nul_notMem_name (by omega) (by omega)]

/-- the entries for the directory itself -/
theorem slots_dots (files : List HostFile) :
    (slots (rootEntries files))[0]? = some (some ([46], 1)) ∧ (slots (rootEntries files))[1]? = some (some ([46, 46], 1)) := by
  simp only [slots, rootEntries, List.map_cons, List.getElem?_cons_zero, List.getElem?_cons_succ]
  rw [slot_dirent (by decide) (by decide) (by decide), slot_dirent (by decide) (by decide) (by decide)]
  exact ⟨rfl, rfl⟩

/-- an entry is for the directory itself or for one of the files -/
theorem slot_cases (hlen : files.length ≤ 214) {m v : ℕ} {k : List UInt8}
    (h : (slots (rootEntries files))[m]? = some (some (k, v))) :
    (m = 0 ∧ k = [46]) ∨ (m = 1 ∧ k = [46, 46]) ∨
      ∃ j f, m = j + 2 ∧ files[j]? = some f ∧ k = f.name.take fileNameMaxLength := by
  obtain ⟨h0, h1⟩ := slots_dots files
  rcases m with _ | _ | j
  · rw [h0, Option.some.injEq, Option.some.injEq, Prod.mk.injEq] at h
    exact Or.inl ⟨rfl, h.1.symm⟩
  · rw [h1, Option.some.injEq, Option.some.injEq, Prod.mk.injEq] at h
    exact Or.inr (Or.inl ⟨rfl, h.1.symm⟩)
  · rw [slots_rootEntries hlen] at h
    obtain ⟨f, hf, he⟩ := Option.map_eq_some_iff.1 h
    rw [Option.some.injEq, Prod.mk.injEq] at he
    exact Or.inr (Or.inr ⟨j, f, rfl, hf, he.1.symm⟩)

theorem root_type (h : Built files img F) : (F rootInodeNo).type = inodeDirectory := h.type rootInodeNo

/-- the root directory starts with the entries `mkfs` appended -/
theorem Built.lists (h : Built files img F) (hm : Mounted C img.disk s) (hv : C.view s' = C.view s) :
    Lists C base s' F rootInodeNo (loaded F rootInodeNo) (rootEntries files) := by
  obtain ⟨hsound, hfiles⟩ := h.mounted C hm
  have hfile : fileOf (C.view s').blk (F rootInodeNo) = File.ofBytes (Directory.encode (rootEntries files)) := by
    rw [hv, hfiles]
    exact (h.exact rootInodeNo).file
  refine ⟨hv ▸ hsound, rfl, ?_, ?_, ?_, ?_⟩
  · change (F rootInodeNo).type ≠ inodeDevice
    rw [root_type h]
    decide
  · change _ ≤ (F rootInodeNo).numBytes.toNat
    rw [h.rootSize, rootEntries_length]
    simp only [blockSize]
    omega
  · intro k hk
    change (fileOf (C.view s').blk (F rootInodeNo)).mapped k = true
    rw [hfile, File.ofBytes, encode_length]
    exact decide_eq_true hk
  · change (fileOf (C.view s').blk (F rootInodeNo)).content _ = _
    rw [hfile, ← encode_length, File.content_ofBytes]

/-! ## Reading back -/

/-- look a name up in the root directory and read the whole file -/
def readBack (sb : SuperBlock) (name : ℕ → UInt8) (de : DirEntry) : CacheM (InodeType × ℕ × List UInt8) := do
  let root ← inodeGet sb rootInodeNo
  let (inodeNo, _) ← inodeLookup root name none de
  let inode ← inodeGet sb inodeNo
  let d ← inodeRead inode 0 inode.entry.numBytes.toNat
  return (inode.entry.type, inode.entry.numBytes.toNat, d)

/-- names are told apart by their first 14 characters -/
structure Distinct (files : List HostFile) : Prop where
  dots : ∀ f ∈ files, f.name ≠ [46] ∧ f.name ≠ [46, 46]
  nodup : (files.map fun f => f.name.take fileNameMaxLength).Nodup

theorem take_eq_short {l m : List UInt8} (h : l.take fileNameMaxLength = m) (hm : m.length < 14) : l = m := by
  have hlen : (l.take fileNameMaxLength).length = m.length := congrArg List.length h
  rw [List.length_take] at hlen
  have hl : l.length ≤ 14 := by
    simp only [fileNameMaxLength] at hlen
    omega
  rw [← h, List.take_of_length_le hl]

/-- the entry of a file is the only one with its name -/
theorem find_file (hlen : files.length ≤ 214) (hd : Distinct files) {j : ℕ} {f : HostFile} (hj : files[j]? = some f) :
    findFrom (f.name.take fileNameMaxLength) (slots (rootEntries files)) 0 = some (j + 2, j + 2) := by
  have hmem : f ∈ files := List.mem_of_getElem? hj
  have hslot : (slots (rootEntries files))[j + 2]? = some (some (f.name.take fileNameMaxLength, j + 2)) := by
    rw [slots_rootEntries hlen, hj, Option.map_some]
  have hfind := findFrom_of_unique (i := 0) hslot
  rw [Nat.zero_add] at hfind
  apply hfind
  intro m v hm
  rcases slot_cases hlen hm with ⟨-, hk⟩ | ⟨-, hk⟩ | ⟨i, g, rfl, hi, hk⟩
  · exact absurd (take_eq_short hk (by decide)) (hd.dots f hmem).1
  · exact absurd (take_eq_short hk (by decide)) (hd.dots f hmem).2
  · have hsame : (files.map fun f => f.name.take fileNameMaxLength)[i]? =
        (files.map fun f => f.name.take fileNameMaxLength)[j]? := by
      rw [List.getElem?_map, List.getElem?_map, hi, hj, Option.map_some, Option.map_some, hk]
    have hlt : i < (files.map fun f => f.name.take fileNameMaxLength).length := by
      rw [List.length_map]
      exact (List.getElem?_eq_some_iff.1 hi).1
    rw [(List.getElem?_inj hlt hd.nodup).1 hsame]

theorem readBack_spec (h : Built files img F) (hlen : files.length ≤ 198) (hd : Distinct files)
    (hm : Mounted C img.disk s) {f : HostFile} (hf : f ∈ files) (de : DirEntry) :
    After C.handle E (fun r _ => r = (inodeRegular, f.bytes.length, f.bytes)) (readBack superBlock (strOf f.name) de) s := by
  obtain ⟨j, hj⟩ := List.mem_iff_getElem?.1 hf
  have hlt : j < files.length := (List.getElem?_eq_some_iff.1 hj).1
  have hnode : nodes files (j + 2) = ⟨inodeRegular, f.bytes⟩ := by rw [nodes, hj]
  have hkey : key (strOf f.name) = f.name.take fileNameMaxLength := cstr_strOf f.nul_notMem_name _
  have hfind := find_file (by omega) hd hj
  unfold readBack
  refine (h.get C hm rfl (by decide) (by decide)).bind fun root s1 h1 => ?_
  obtain ⟨rfl, hv1⟩ := h1
  -- the search ends at the file's entry, before the end of the entries
  have hlists := h.lists C hm hv1
  have hlookup : After C.handle E (fun r s2 => r = (j + 2, none) ∧ C.view s2 = C.view s)
      (inodeLookup (loaded F rootInodeNo) (strOf f.name) none de) s1 := by
    have hsize := hlists.size
    refine Directory.lookupLoop_spec C hlists none _ 0 de rfl (Nat.zero_le _) (by omega) ?_ ?_
    · intro n k s2 hnk hv2
      rw [List.drop_zero, hkey, hfind, Option.some.injEq, Prod.mk.injEq] at hnk
      exact ⟨by rw [← hnk.1]; rfl, hv2.trans hv1⟩
    · intro hnone
      rw [List.drop_zero, hkey, hfind] at hnone
      cases hnone
  refine hlookup.bind fun r s2 h2 => ?_
  obtain ⟨rfl, hv2⟩ := h2
  have hi : j + 2 < numInodes := by
    have : j + 2 < 200 := by omega
    exact this
  refine (h.get C hm hv2 (by omega) hi).bind fun inode s3 h3 => ?_
  obtain ⟨rfl, hv3⟩ := h3
  -- the file
  obtain ⟨hsound, hfiles⟩ := h.mounted C hm
  have htype : (F (j + 2)).type = inodeRegular := by rw [h.type, hnode]
  have hsize : (F (j + 2)).numBytes.toNat = f.bytes.length := by
    rw [h.size _ (show j + 2 ≠ 1 by omega), hnode]
  have hfile : fileOf (C.view s3).blk (F (j + 2)) = File.ofBytes f.bytes := by
    rw [hv3, hfiles, (h.exact (j + 2)).file, hnode]
  have hhole : NoHole (C.view s3).blk (F (j + 2)) := by
    intro k hk
    rw [hfile, File.ofBytes]
    rw [hsize] at hk
    exact decide_eq_true hk
  have hlt32 := (F (j + 2)).numBytes.toNat_lt
  have hs3 : Sound base C.inner (C.view s3) F := hv3 ▸ hsound
  rw [after_bind]
  have hdev : (loaded F (j + 2)).entry.type ≠ inodeDevice := by
    change (F (j + 2)).type ≠ inodeDevice
    rw [htype]
    decide
  have hsize' : (loaded F (j + 2)).entry.numBytes.toNat = f.bytes.length := hsize
  rw [inodeRead, if_neg hdev]
  refine (fileRead_spec C hs3 (i := j + 2) rfl hhole (Nat.zero_le _) (by omega)).mono fun d s4 h4 => ?_
  obtain ⟨rfl, -⟩ := h4
  rw [after_pure]
  change ((F (j + 2)).type, (F (j + 2)).numBytes.toNat, Splice.slice ((fileOf (C.view s3).blk (F (j + 2))).content
    (F (j + 2)).numBytes.toNat) 0 (F (j + 2)).numBytes.toNat) = _
  rw [hfile, hsize, htype, File.content_ofBytes, Splice.slice, List.drop_zero, List.take_length]

/-! ## The log -/

theorem encode_zero : Fs.encode (decode zeros).cleared = zeros := by
  apply buf_ext
  intro i hi
  have hword : ∀ j : ℕ, (if j = 0 then (decode zeros).cleared.numBlocks else
      ((decode zeros).cleared.entry (j - 1)).getD 0) = 0 := by
    intro j
    by_cases hj : j = 0
    · rw [if_pos hj]
      rfl
    · rw [if_neg hj, LogHeader.entry]
      split_ifs
      · simp [decode, LogHeader.cleared, getLE_zeros]
      · rfl
  rw [Fs.encode, getByte_zeros, getByte, dif_pos hi, putLE]
  simp only [hword, Nat.zero_div]
  split_ifs <;> rfl

/-- `init_bcache` finds an empty log: it writes the header back as it is, and nothing else -/
theorem Built.recover (h : Built files img F) :
    ∃ m, initBcache superBlock img.disk = .ok () m ∧ m.dev.writes = [(superBlock.logStart.toNat, zeros)] ∧
      m.dev.blocks = img.disk := by
  have hz : img.disk superBlock.logStart.toNat = zeros := (h.front _ (by decide)).trans (formatted_zero (by decide))
  have hd : decode (img.disk superBlock.logStart.toNat) = decode zeros := by rw [hz]
  have hcount : (decode (zeros : BlockData)).numBlocks = 0 := getLE_zeros 0 8
  obtain ⟨m, hrun, hw⟩ := initBcache_run superBlock hd (by rw [hcount]; exact Nat.zero_le _)
    fun i _ hi => absurd hi (by rw [hcount]; exact Nat.not_lt_zero i)
  have hwrites : recoverWrites superBlock img.disk = [(superBlock.logStart.toNat, zeros)] := by
    rw [recoverWrites, hz, encode_zero, hcount]
    rfl
  rw [hwrites] at hw
  refine ⟨m, hrun, hw.1, ?_⟩
  rw [hw.2, ← hz]
  exact Function.update_eq_self ..

/-! ## The allocator -/

/-- k calls of `cache_alloc` -/
def allocMany (sb : SuperBlock) : ℕ → CacheM (List ℕ)
  | 0 => return []
  | k + 1 => do
    let n ← cacheAlloc sb
    let ns ← allocMany sb k
    return n :: ns

/-- what is marked stays marked, so it is never handed out -/
theorem allocMany_spec {fb : ℕ} (hfb : superBlock.bitmapStart.toNat < fb) (k : ℕ) {d : Disk}
    (hmark : ∀ n, n < fb → n < bitPerBlock → bitmapGet (d.blk superBlock.bitmapStart.toNat) n = true) :
    After blockHandle (fun e => e = .noSpace) (fun ns _ => ∀ n ∈ ns, fb ≤ n ∧ n < fsSize) (allocMany superBlock k) d := by
  induction k generalizing d with
  | zero => exact fun n hn => absurd hn List.not_mem_nil
  | succ k ih =>
    have hself : superBlock.bitmapStart.toNat ∈ (d.view superBlock).used := ⟨by decide, hmark _ hfb (by decide)⟩
    refine (cacheAlloc_spec oneBitmap hself).bind fun n d' hfound => ?_
    have hlt : n < fsSize := hfound.lt
    have hbits : n < bitPerBlock := lt_trans hlt (by decide)
    have hn : fb ≤ n := by
      by_contra hlt'
      have hclear := hfound.clear
      rw [hmark n (not_le.1 hlt') hbits] at hclear
      cases hclear
    have hmark' : ∀ m, m < fb → m < bitPerBlock → bitmapGet (d'.blk superBlock.bitmapStart.toNat) m = true := by
      intro m hm hmb
      have hbm : d'.blk superBlock.bitmapStart.toNat = bitmapSet n (d.blk superBlock.bitmapStart.toNat) := by
        rw [hfound.state]
        simp only [Disk.take, Function.update_self]
      rw [hbm, bitmapGet_set _ hbits, hmark m hm hmb, Bool.or_true]
    refine (ih hmark').bind fun ns d'' hns => ?_
    rw [after_pure]
    intro m hm
    rcases List.mem_cons.1 hm with rfl | hm
    · exact ⟨hn, hlt⟩
    · exact hns m hm

end Kernel

/-- **Reading back.** For every list of files that fits, `mkfs` writes an image on which the kernel finds each file by its name
and reads the bytes of the host file, no log is replayed, and blocks of the metadata or of any inode are never allocated. -/
theorem mkfs_read_back {σ : Type} (C : AbstractCache σ) (files : List HostFile) (hlen : files.length ≤ 198)
    (hfits : Fits files) (hdist : Distinct files) :
    ∃ img, mkfs files = some img ∧ getSuperBlock img.disk = superBlock ∧
      (∀ s, Mounted C img.disk s → ∀ f ∈ files, ∀ de, After C.handle (fun _ => False)
        (fun r _ => r = (inodeRegular, f.bytes.length, f.bytes)) (readBack superBlock (strOf f.name) de) s) ∧
      (∃ m, initBcache superBlock img.disk = .ok () m ∧ m.dev.writes = [(superBlock.logStart.toNat, zeros)] ∧
        m.dev.blocks = img.disk) ∧
      ∀ k frees, After blockHandle (fun e => e = .noSpace)
        (fun ns _ => ∀ n ∈ ns, nmeta ≤ n ∧ ∀ i, i < numInodes → ∀ t, ref img.disk (onDisk superBlock img.disk i) t ≠ n)
        (allocMany superBlock k) ⟨img.disk, frees⟩ := by
  obtain ⟨img, hrun, F, h⟩ := (mkfs_spec (by omega)).exists hfits
  refine ⟨img, hrun, h.getSuperBlock_eq, ?_, h.recover, ?_⟩
  · intro s hm f hf de
    exact readBack_spec C h hlen hdist hm hf de
  · intro k frees
    have hmeta : ∀ n, n < nmeta → n < img.freeblock := fun n hn => h.sound.owns.base_subset hn
    have hbitmap : superBlock.bitmapStart.toNat < img.freeblock := hmeta _ (by decide)
    have hmark : ∀ n, n < img.freeblock → n < bitPerBlock →
        bitmapGet (img.disk superBlock.bitmapStart.toNat) n = true := fun n hn _ => (h.marked_iff.2 hn).2
    have hspec := allocMany_spec hbitmap k (d := ⟨img.disk, frees⟩) hmark
    refine hspec.mono fun ns _ hns n hn => ?_
    obtain ⟨hle, -⟩ := hns n hn
    refine ⟨?_, fun i hi t he => ?_⟩
    · by_contra hlt
      exact absurd (hmeta n (not_le.1 hlt)) (not_lt.2 hle)
    · rw [h.onDisk_eq (lt_trans hi (by decide))] at he
      exact absurd (ref_lt (i := i) h.sound t) (not_lt.2 (he ▸ hle))

/-- "bin/_sh" of three bytes, read in two pieces -/
def shFile : HostFile := ⟨[98, 105, 110, 47, 95, 115, 104], [[1], [2, 3]], by decide, by decide⟩

/-- an empty file "b" -/
def emptyFile : HostFile := ⟨[98], [], by decide, by decide⟩

theorem mkfs_read_back_two : ∃ img, mkfs [shFile, emptyFile] = some img ∧
    After (bitmapCache superBlock oneBitmap).handle (fun _ => False) (fun r _ => r = (inodeRegular, 3, [1, 2, 3]))
      (readBack superBlock (strOf [115, 104]) .zero) ⟨img.disk, []⟩ := by
  have hname : shFile.name = [115, 104] := by decide
  have hbytes : shFile.bytes = [1, 2, 3] := by decide
  obtain ⟨img, hrun, -, hread, -⟩ := mkfs_read_back (bitmapCache superBlock oneBitmap) [shFile, emptyFile] (by decide)
    ⟨by decide, by decide⟩ ⟨by decide, by decide⟩
  have hsh := hread ⟨img.disk, []⟩ (mounted_disk _ _) shFile List.mem_cons_self .zero
  rw [hname, hbytes] at hsh
  exact ⟨img, hrun, hsh⟩

/-! ## Scanning the root directory -/

/-- `inode_lookup` in the root directory -/
def lookupRoot (sb : SuperBlock) (name : ℕ → UInt8) (index : Option ℕ) (de : DirEntry) : CacheM (ℕ × Option ℕ) := do
  let root ← inodeGet sb rootInodeNo
  inodeLookup root name index de

/-- `inode_insert` into the root directory -/
def insertRoot (sb : SuperBlock) (name : ℕ → UInt8) (inodeNo : ℕ) (de : DirEntry) : CacheM (ℕ × Inode) := do
  let root ← inodeGet sb rootInodeNo
  inodeInsert sb root name inodeNo de

/-- the root directory up to its rounded size: free entries fill its last block -/
def rootDir (files : List HostFile) : List DirEntry :=
  rootEntries files ++ List.replicate (32 - (files.length + 2) % 32) DirEntry.zero

section Scan

variable {σ : Type} (C : AbstractCache σ) {E : Inodes.Stop → Prop} {files : List HostFile} {img : Image} {F : ℕ → InodeEntry}
  {s s' : σ}

theorem rootDir_length (files : List HostFile) :
    16 * (rootDir files).length = (16 * (files.length + 2) / blockSize + 1) * blockSize := by
  rw [rootDir, List.length_append, List.length_replicate, rootEntries_length]
  simp only [blockSize]
  omega

theorem encode_free (n : ℕ) : Directory.encode (List.replicate n DirEntry.zero) = List.replicate (16 * n) 0 := by
  have hzero : DirEntry.zero.toBytes = List.replicate 16 0 := by decide
  induction n with
  | zero => rfl
  | succ n ih =>
    rw [List.replicate_succ, Directory.encode, List.flatMap_cons, hzero, Nat.mul_succ, Nat.add_comm, List.replicate_add]
    exact congrArg _ ih

/-- the bytes of the root directory up to its size -/
theorem Built.root_content (h : Built files img F) :
    (fileOf img.disk (F rootInodeNo)).content (F rootInodeNo).numBytes.toNat = Directory.encode (rootDir files) := by
  have hsize : (F rootInodeNo).numBytes.toNat =
      (Directory.encode (rootEntries files)).length + 16 * (32 - (files.length + 2) % 32) := by
    rw [h.rootSize, ← rootDir_length, rootDir, List.length_append, List.length_replicate, encode_length, Nat.mul_add]
  rw [(h.exact rootInodeNo).file, hsize]
  change (File.ofBytes (Directory.encode (rootEntries files))).content _ = _
  rw [File.content_ofBytes_add, ← encode_free, rootDir]
  exact List.flatMap_append.symm

/-- unless the entries end with a block, the rounded size adds no block -/
theorem Built.noHole (h : Built files img F) (hmod : (files.length + 2) % 32 ≠ 0) (i : ℕ) : NoHole img.disk (F i) := by
  intro k hk
  rw [(h.exact i).file, File.ofBytes]
  apply decide_eq_true
  by_cases hi : i = rootInodeNo
  · rw [hi, h.rootSize] at hk
    rw [hi, root_length]
    simp only [blockSize] at *
    omega
  · rwa [h.size i hi] at hk

/-- if they do, it adds one -/
theorem Built.hole (h : Built files img F) (hfull : (files.length + 2) % 32 = 0) : ¬ NoHole img.disk (F rootInodeNo) := by
  intro hno
  have hmapped := hno ((files.length + 2) / 32) (by rw [h.rootSize]; simp only [blockSize]; omega)
  rw [(h.exact rootInodeNo).file, File.ofBytes, root_length, decide_eq_true_eq] at hmapped
  simp only [blockSize] at hmapped
  omega

/-- the inodes as the kernel has them; past the inode blocks there are none, and the number given there does not matter -/
def inodesOf (F : ℕ → InodeEntry) (i : ℕ) : Inode := if i < 208 then loaded F i else { loaded F i with inodeNo := 0 }

theorem inodesOf_entry (F : ℕ → InodeEntry) (i : ℕ) : (inodesOf F i).entry = F i := by
  unfold inodesOf
  split_ifs <;> rfl

theorem Built.refines (h : Built files img F) (hmod : (files.length + 2) % 32 ≠ 0) (hm : Mounted C img.disk s)
    (hv : C.view s' = C.view s) :
    ∃ a : InodeContent.Contents ℕ, InodeContent.Refines C superBlock base a ⟨s', inodesOf F, []⟩ ∧
      a.bytes rootInodeNo = Directory.encode (rootDir files) := by
  obtain ⟨hsound, hfiles⟩ := h.mounted C hm
  have hentries : (⟨s', inodesOf F, []⟩ : InodeContent.Sys σ ℕ).entries = F := funext (inodesOf_entry F)
  refine ⟨⟨InodeContent.content C ⟨s', inodesOf F, []⟩, []⟩, ⟨⟨?_, ?_, ?_, ?_⟩, fun _ => rfl, rfl⟩, ?_⟩
  · rw [hentries]
    exact hv ▸ hsound
  · intro i
    have hblock : ∀ j, j < 208 → toBlockNo superBlock j ∈ base ∧ toBlockNo superBlock j ∉ C.inner := by
      intro j hj
      rw [toBlockNo_eq]
      exact ⟨iblock_lt (by omega), fun hin => ne_of_lt (iblock_ne_bitmap hj) (hm.inner hin)⟩
    change Stored C superBlock base (inodesOf F i)
    unfold inodesOf
    by_cases hi : i < 208
    · rw [if_pos hi]
      exact ⟨rfl, (hblock i hi).1, (hblock i hi).2⟩
    · rw [if_neg hi]
      exact ⟨rfl, (hblock 0 (by decide)).1, (hblock 0 (by decide)).2⟩
  · intro i
    change (inodesOf F i).entry.type ≠ inodeDevice
    rw [inodesOf_entry, h.type]
    unfold nodes
    split
    · change inodeInvalid ≠ inodeDevice
      decide
    · change inodeDirectory ≠ inodeDevice
      decide
    · split
      · change inodeRegular ≠ inodeDevice
        decide
      · change inodeInvalid ≠ inodeDevice
        decide
  · intro i k hk
    change k * blockSize < (inodesOf F i).entry.numBytes.toNat at hk
    change (fileOf (C.view s').blk (inodesOf F i).entry).mapped k = true
    rw [inodesOf_entry] at hk ⊢
    rw [hv, hfiles]
    exact h.noHole hmod i k hk
  · change (fileOf (C.view s').blk (inodesOf F rootInodeNo).entry).content (inodesOf F rootInodeNo).entry.numBytes.toNat = _
    rw [inodesOf_entry, hv, hfiles]
    exact h.root_content

theorem slots_rootDir (files : List HostFile) :
    slots (rootDir files) = slots (rootEntries files) ++ List.replicate (32 - (files.length + 2) % 32) none := by
  rw [rootDir, slots, List.map_append, List.map_replicate, DirEntry.slot_zero]
  rfl

/-- the first free entry comes behind the last file -/
theorem firstFree_rootDir (hlen : files.length ≤ 214) : firstFree (slots (rootDir files)) = files.length + 2 := by
  have hslots : (slots (rootEntries files)).length = files.length + 2 := by rw [slots, List.length_map, rootEntries_length]
  have hpos : 0 < 32 - (files.length + 2) % 32 := by omega
  obtain ⟨h0, h1⟩ := slots_dots files
  rw [slots_rootDir]
  apply firstFree_eq
  · rw [List.length_append, hslots]
    omega
  · intro j hj
    rw [List.getElem?_append_left (by omega)]
    rcases j with _ | _ | j
    · rw [h0]
      simp
    · rw [h1]
      simp
    · rw [slots_rootEntries hlen, List.getElem?_eq_getElem (by omega)]
      simp
  · right
    rw [List.getElem?_append_right hslots.le, hslots, Nat.sub_self, List.getElem?_replicate, if_pos hpos]

theorem lookupRoot_spec (h : Built files img F) (hmod : (files.length + 2) % 32 ≠ 0) (hm : Mounted C img.disk s)
    (name : ℕ → UInt8) (index : Option ℕ) (de : DirEntry) :
    After C.handle E (fun r _ => r = answer index (findFrom (key name) (slots (rootEntries files)) 0))
      (lookupRoot superBlock name index de) s := by
  refine (h.get C hm rfl (by decide) (by decide)).bind fun root s1 h1 => ?_
  obtain ⟨rfl, hv1⟩ := h1
  obtain ⟨a, href, hbytes⟩ := h.refines C hmod hm hv1
  refine (Directory.inodeLookup_spec C superBlock href hbytes index de).mono fun r s2 h2 => ?_
  rw [h2.1, slots_rootDir, findFrom_append_free]

theorem insertRoot_spec (h : Built files img F) (hlen : files.length ≤ 214) (hmod : (files.length + 2) % 32 ≠ 0)
    (hm : Mounted C img.disk s) (name : ℕ → UInt8) (inodeNo : ℕ) (de : DirEntry) :
    After C.handle E (fun r _ => r.1 = if (findFrom (key name) (slots (rootEntries files)) 0).isSome then 2 ^ 64 - 1
      else files.length + 2) (insertRoot superBlock name inodeNo de) s := by
  refine (h.get C hm rfl (by decide) (by decide)).bind fun root s1 h1 => ?_
  obtain ⟨rfl, hv1⟩ := h1
  obtain ⟨a, href, hbytes⟩ := h.refines C hmod hm hv1
  have htype : (inodesOf F rootInodeNo).entry.type = inodeDirectory := by rw [inodesOf_entry, root_type h]
  have hfree := firstFree_rootDir hlen
  have hsize := rootDir_length files
  cases hfind : findFrom (key name) (slots (rootEntries files)) 0 with
  | none =>
    have habs : findFrom (key name) (slots (rootDir files)) 0 = none := by rw [slots_rootDir, findFrom_append_free, hfind]
    have hroom : firstFree (slots (rootDir files)) ≠ (rootDir files).length := by
      rw [hfree]
      simp only [blockSize] at hsize
      omega
    have hmax : 16 * (rootDir files).length ≤ inodeMaxBytes := by
      rw [hsize]
      simp only [inodeMaxBytes, inodeMaxBlocks, inodeNumDirect, inodeNumIndirect, blockSize]
      omega
    refine (Directory.inodeInsert_absent C superBlock href hbytes htype hmax inodeNo de habs (fun he => absurd he hroom)
      fun he => absurd he hroom).mono fun r s2 h2 => ?_
    rw [h2.1, hfree]
    rfl
  | some x =>
    have hpres : findFrom (key name) (slots (rootDir files)) 0 = some (x.1, x.2) := by
      rw [slots_rootDir, findFrom_append_free, hfind]
    refine (Directory.inodeInsert_present C superBlock href hbytes htype inodeNo de hpres).mono fun r s2 h2 => ?_
    rw [h2.1]
    rfl

/-! ## A directory that ends with a block -/

/-- `inode_read` of a direct block that is missing -/
theorem read_hole {inode : Inode} (htype : inode.entry.type ≠ inodeDevice) {off : ℕ} (hk : off / blockSize < inodeNumDirect)
    (h0 : inode.entry.addrs ⟨off / blockSize, hk⟩ = 0) (hoff : off + 16 ≤ inode.entry.numBytes.toNat) :
    After C.handle (fun e => e = .unmapped) (fun _ _ => False) (inodeRead inode off 16) s := by
  have hlt := inode.entry.numBytes.toNat_lt
  have hcount : readCount inode off 16 = 16 := by
    rw [readCount, addU_of_lt (by omega), if_neg (by omega)]
  have hmap : inodeMap false inode off = pure (0, inode) := by
    rw [inodeMap, dif_pos hk, mapDirect, if_neg (by simp), h0]
    rfl
  have hfuel : off + 16 - off = 15 + 1 := by omega
  rw [inodeRead, if_neg htype, fileRead, hcount, addU_of_lt (by omega)]
  simp only [after_bind]
  rw [after_check (by omega), after_check hoff, after_check (by omega), hfuel, readLoop, if_pos (by omega), hmap]
  rw [after_bind, after_pure, after_bind, after_check_not (by simp)]

/-- when the entries end with a block, the search for a name that is not there runs into a block that does not exist -/
theorem lookupRoot_full (h : Built files img F) (hlen : files.length ≤ 214) (hfull : (files.length + 2) % 32 = 0)
    (hm : Mounted C img.disk s) {name : ℕ → UInt8} (habs : findFrom (key name) (slots (rootEntries files)) 0 = none)
    (index : Option ℕ) (de : DirEntry) :
    After C.handle (fun e => e = .unmapped) (fun _ _ => False) (lookupRoot superBlock name index de) s := by
  refine (h.get C hm rfl (by decide) (by decide)).bind fun root s1 h1 => ?_
  obtain ⟨rfl, hv1⟩ := h1
  have hlists := h.lists C hm hv1
  have hsize : (F rootInodeNo).numBytes.toNat = 16 * (files.length + 2) + 512 := by
    rw [h.rootSize]
    simp only [blockSize]
    omega
  have hl := rootEntries_length files
  -- the block behind the last entry
  have hk : 16 * (rootEntries files).length / blockSize < inodeNumDirect := by
    rw [hl]
    simp only [blockSize, inodeNumDirect]
    omega
  have h0 : (F rootInodeNo).addrs ⟨16 * (rootEntries files).length / blockSize, hk⟩ = 0 := by
    by_contra hne
    have hmapped : (fileOf img.disk (F rootInodeNo)).mapped (16 * (rootEntries files).length / blockSize) = true :=
      (mapped_of_slot (dif_pos hk)).2 (toNat_ne_zero.2 hne)
    rw [(h.exact rootInodeNo).file, File.ofBytes, root_length, hl, decide_eq_true_eq] at hmapped
    simp only [blockSize] at hmapped
    omega
  have hfuel : ∀ n, 0 + (loaded F rootInodeNo).entry.numBytes.toNat - (rootEntries files).length = n → 0 < n := by
    intro n hn
    have : 0 + (F rootInodeNo).numBytes.toNat - (rootEntries files).length = n := hn
    omega
  refine Directory.lookupLoop_spec C hlists index _ 0 de rfl (Nat.zero_le _) ?_ ?_ ?_
  · have := hfuel _ rfl
    omega
  · intro n j s2 hfind
    rw [List.drop_zero, habs] at hfind
    cases hfind
  · intro _ de' s2 _
    generalize hn : 0 + (loaded F rootInodeNo).entry.numBytes.toNat - (rootEntries files).length = n
    obtain ⟨m, rfl⟩ : ∃ m, n = m + 1 := ⟨n - 1, by have := hfuel n hn; omega⟩
    unfold lookupLoop
    have hin : 16 * (rootEntries files).length + 16 ≤ (loaded F rootInodeNo).entry.numBytes.toNat := by
      change _ ≤ (F rootInodeNo).numBytes.toNat
      omega
    rw [if_pos (by omega)]
    exact (read_hole C hlists.file hk h0 hin).bind fun _ _ hfalse => hfalse.elim

end Scan

/-! ## Too many files -/

section Monotone

variable {img img' : Image}

theorem winode_freeblock {inum : ℕ} {din : InodeEntry} (h : winode img inum din = some img') : img'.freeblock = img.freeblock := by
  obtain ⟨buf, -, rfl⟩ := Option.map_eq_some_iff.1 h
  rfl

theorem fileBlock_freeblock {din : InodeEntry} {k : ℕ} {r : ℕ × InodeEntry × Image} (h : fileBlock img din k = some r) :
    img.freeblock ≤ r.2.2.freeblock := by
  have hbump : img.freeblock ≤ img.bump.freeblock := Nat.le_succ _
  unfold fileBlock at h
  split_ifs at h with hk
  · obtain rfl := Option.some.inj h
    unfold directBlock
    split_ifs
    · exact hbump
    · exact le_rfl
  · obtain ⟨q, hq, rfl⟩ := Option.map_eq_some_iff.1 h
    obtain ⟨buf, -, rfl⟩ := Option.map_eq_some_iff.1 hq
    have hind : img.freeblock ≤ (withIndirect img din).2.freeblock := by
      unfold withIndirect
      split_ifs
      · exact hbump
      · exact le_rfl
    dsimp only
    split_ifs
    · exact hind.trans (Nat.le_succ _)
    · exact hind

theorem iappendLoop_freeblock {fuel : ℕ} {din : InodeEntry} {off : ℕ} {p : List UInt8} {r : InodeEntry × ℕ × Image}
    (h : iappendLoop fuel img din off p = some r) : img.freeblock ≤ r.2.2.freeblock := by
  induction fuel generalizing img din off p with
  | zero => exact Option.some.inj h ▸ le_rfl
  | succ fuel ih =>
    unfold iappendLoop at h
    split_ifs at h
    · exact Option.some.inj h ▸ le_rfl
    · obtain ⟨q, hq, h⟩ := Option.bind_eq_some_iff.1 h
      obtain ⟨buf, -, h⟩ := Option.bind_eq_some_iff.1 h
      have hrest := ih h
      exact (fileBlock_freeblock hq).trans hrest

theorem iappend_freeblock {inum : ℕ} {p : List UInt8} (h : iappend img inum p = some img') :
    img.freeblock ≤ img'.freeblock := by
  obtain ⟨din, -, h⟩ := Option.bind_eq_some_iff.1 h
  obtain ⟨r, hr, h⟩ := Option.bind_eq_some_iff.1 h
  exact (iappendLoop_freeblock hr).trans (winode_freeblock h).ge

/-- what every step keeps, a loop keeps -/
theorem foldlM_freeblock {α : Type} {f : Image → α → Option Image} (hf : ∀ {img a img'}, f img a = some img' →
    img.freeblock ≤ img'.freeblock) {l : List α} (h : l.foldlM f img = some img') : img.freeblock ≤ img'.freeblock := by
  induction l generalizing img with
  | nil => exact Option.some.inj h ▸ le_rfl
  | cons a l ih =>
    rw [List.foldlM_cons] at h
    obtain ⟨img1, h1, h⟩ := Option.bind_eq_some_iff.1 h
    exact (hf h1).trans (ih h)

theorem ialloc_freeblock {type : InodeType} {r : ℕ × Image} (h : ialloc img type = some r) : r.2.freeblock = img.freeblock := by
  obtain ⟨img1, h1, rfl⟩ := Option.map_eq_some_iff.1 h
  have hsame := winode_freeblock h1
  exact hsame

theorem addFile_freeblock {f : HostFile} (h : addFile img f = some img') : img.freeblock ≤ img'.freeblock := by
  unfold addFile at h
  split_ifs at h
  obtain ⟨r, hr, h⟩ := Option.bind_eq_some_iff.1 h
  obtain ⟨img1, h1, h⟩ := Option.bind_eq_some_iff.1 h
  calc img.freeblock = r.2.freeblock := (ialloc_freeblock hr).symm
    _ ≤ img1.freeblock := iappend_freeblock h1
    _ ≤ img'.freeblock := foldlM_freeblock iappend_freeblock h

/-- however many files there are, the bitmap marks the metadata -/
theorem mkfs_bitmap {files : List HostFile} (h : mkfs files = some img) :
    ∃ used, nmeta ≤ used ∧ used ≤ bitPerBlock ∧ img.disk superBlock.bitmapStart.toNat = ballocBuf used := by
  obtain ⟨r, hr, h⟩ := Option.bind_eq_some_iff.1 h
  split_ifs at h
  obtain ⟨img1, h1, h⟩ := Option.bind_eq_some_iff.1 h
  obtain ⟨img2, h2, h⟩ := Option.bind_eq_some_iff.1 h
  obtain ⟨img3, h3, h⟩ := Option.bind_eq_some_iff.1 h
  obtain ⟨img4, h4, h⟩ := Option.bind_eq_some_iff.1 h
  obtain ⟨din, -, h4⟩ := Option.bind_eq_some_iff.1 h4
  unfold balloc at h
  split_ifs at h with hused
  obtain rfl := Option.some.inj h
  refine ⟨img4.freeblock, ?_, hused.le, by simp [Image.wsect]⟩
  calc nmeta = r.2.freeblock := (ialloc_freeblock hr).symm
    _ ≤ img1.freeblock := iappend_freeblock h1
    _ ≤ img2.freeblock := iappend_freeblock h2
    _ ≤ img3.freeblock := foldlM_freeblock addFile_freeblock h3
    _ = img4.freeblock := (winode_freeblock h4).symm

/-- inode 208 would be the first one in the bitmap block, so its size is a row of marks -/
theorem hole_in_bitmap {files : List HostFile} (h : mkfs files = some img) : ¬ NoHole img.disk (onDisk superBlock img.disk 208) := by
  obtain ⟨used, hmeta, hle, hdisk⟩ := mkfs_bitmap h
  have hmeta' : 92 ≤ used := hmeta
  have hentry : (onDisk superBlock img.disk 208).numBytes.toNat = getLE (ballocBuf used) 8 4 := by
    rw [← hdisk]
    exact UInt32.toNat_ofNat_of_lt' (getLE_lt _ _ _)
  -- bit 27 of the size is the mark of block 91
  have hbit : (getLE (ballocBuf used) 8 4).testBit 27 = true := by
    have hmark := bitmapGet_ballocBuf hle 91
    rw [bitmapGet_eq, decide_eq_true (show 91 < used by omega)] at hmark
    rw [testBit_getLE _ _ (by decide)]
    exact hmark
  intro hno
  have hmapped := hno 140 (by rw [hentry]; exact lt_of_lt_of_le (by decide) (Nat.ge_two_pow_of_testBit hbit))
  cases hmapped

end Monotone

/-- the blocks of every inode are there up to its size, and the scans of the root directory, for a name that is there or not,
return -/
structure Scans {σ : Type} (C : AbstractCache σ) (files : List HostFile) (img : Image) : Prop where
  noHole : ∀ i, i < 208 ∨ i < files.length + 2 → NoHole img.disk (onDisk superBlock img.disk i)
  lookup : ∀ s, Mounted C img.disk s → ∀ name index de, After C.handle (fun _ => False)
    (fun r _ => r = answer index (findFrom (key name) (slots (rootEntries files)) 0)) (lookupRoot superBlock name index de) s
  insert : ∀ s, Mounted C img.disk s → ∀ name inodeNo de, After C.handle (fun _ => False)
    (fun r _ => r.1 = if (findFrom (key name) (slots (rootEntries files)) 0).isSome then 2 ^ 64 - 1 else files.length + 2)
    (insertRoot superBlock name inodeNo de) s

/-- **Scanning the root directory.** On the image of a list that `mkfs` accepts the scans stay inside allocated blocks if and
only if there are at most 206 files, so that every inode is in front of the bitmap, and the entries of the root directory do
not end with a block. -/
theorem fresh_image_scans {σ : Type} (C : AbstractCache σ) (files : List HostFile) (img : Image)
    (hrun : mkfs files = some img) : Scans C files img ↔ files.length ≤ 206 ∧ (files.length + 2) % 32 ≠ 0 := by
  have hbuilt : files.length ≤ 206 → ∃ F, Built files img F := by
    intro hlen
    have hspec := @mkfs_spec files (by omega)
    rwa [hrun] at hspec
  constructor
  · intro hscan
    have hlen : files.length ≤ 206 := by
      by_contra hmore
      exact hole_in_bitmap hrun (hscan.noHole 208 (by omega))
    obtain ⟨F, h⟩ := hbuilt hlen
    refine ⟨hlen, fun hfull => ?_⟩
    have hroot := hscan.noHole rootInodeNo (Or.inl (by decide))
    rw [h.onDisk_eq (by decide)] at hroot
    exact h.hole hfull hroot
  · rintro ⟨hlen, hmod⟩
    obtain ⟨F, h⟩ := hbuilt hlen
    refine ⟨fun i hi => ?_, fun s hm name index de => ?_, fun s hm name inodeNo de => ?_⟩
    · rw [h.onDisk_eq (by omega)]
      exact h.noHole hmod i
    · exact lookupRoot_spec C h hmod hm name index de
    · exact insertRoot_spec C h (by omega) hmod hm name inodeNo de

/-- thirty empty files, "00" to "29" -/
def thirtyFiles : List HostFile :=
  List.ofFn fun i : Fin 30 => ⟨[48 + .ofNat (i / 10), 48 + .ofNat (i % 10)], [], by revert i; decide, by simp⟩

/-- a root directory of two blocks, the second one with one entry in use, and a file with bytes -/
theorem fresh_image_scans_twoBlocks : ∃ img, mkfs (thirtyFiles ++ [shFile]) = some img ∧
    NoHole img.disk (onDisk superBlock img.disk rootInodeNo) ∧
    After (bitmapCache superBlock oneBitmap).handle (fun _ => False) (fun r _ => r.1 = 33)
      (insertRoot superBlock (strOf [122]) 7 .zero) ⟨img.disk, []⟩ := by
  have hfits : Fits (thirtyFiles ++ [shFile]) := ⟨by decide, by decide⟩
  obtain ⟨img, hrun, -⟩ := (mkfs_spec (by decide)).exists hfits
  have hscan := (fresh_image_scans (bitmapCache superBlock oneBitmap) _ img hrun).2 ⟨by decide, by decide⟩
  refine ⟨img, hrun, hscan.noHole _ (by decide), (hscan.insert _ (mounted_disk _ _) _ 7 _).mono fun r _ hr => ?_⟩
  have habs : (findFrom (key (strOf [122])) (slots (rootEntries (thirtyFiles ++ [shFile]))) 0).isSome = false := by decide
  rw [hr, habs]
  rfl

/-- With thirty files the root directory ends with a block: its size of two blocks takes in one that does not exist, and the
lookup of a name that is not there halts the kernel. -/
theorem full_root_block_panics : ∃ img, mkfs thirtyFiles = some img ∧
    ¬ NoHole img.disk (onDisk superBlock img.disk rootInodeNo) ∧
    exec (diskHandle superBlock) (lookupRoot superBlock (strOf [122]) none .zero) ⟨img.disk, []⟩ = .error .unmapped := by
  have hfits : Fits thirtyFiles := ⟨by decide, by decide⟩
  have hlen : thirtyFiles.length = 30 := List.length_ofFn
  obtain ⟨img, hrun, F, h⟩ := (mkfs_spec (by rw [hlen]; decide)).exists hfits
  refine ⟨img, hrun, fun hno => ?_, ?_⟩
  · rw [h.onDisk_eq (by decide)] at hno
    exact h.hole (by rw [hlen]) hno
  · have habs : findFrom (key (strOf [122])) (slots (rootEntries thirtyFiles)) 0 = none := by decide
    have hpanic := lookupRoot_full (bitmapCache superBlock oneBitmap) h (by rw [hlen]; decide) (by rw [hlen])
      (mounted_disk img.disk []) habs none .zero
    have hdisk := hpanic.transfer (checked_stricter superBlock) fun e he => by rw [he]; simp
    unfold After at hdisk
    cases hexec : exec (diskHandle superBlock) (lookupRoot superBlock (strOf [122]) none .zero) ⟨img.disk, []⟩ with
    | error e =>
      rw [hexec] at hdisk
      exact congrArg Except.error hdisk
    | ok r =>
      rw [hexec] at hdisk
      exact absurd hdisk id

end OsKernel.User.Mkfs
