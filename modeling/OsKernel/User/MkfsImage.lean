/-
What the image of `mkfs` holds.

Every block in use is metadata or in exactly one slot of one inode (`Sound`, as for the kernel), blocks are handed out in order
and those not yet handed out are zero. A file has the bytes appended to it, on just the blocks they need (`File.ofBytes`).

`iappendLoop_spec` is by induction on the bytes left, one turn for one block; it uses the lemmas on slots that `inode_map` rests
on. `Holds` is the invariant between the calls: inode i has the type and the bytes `node i`, and its entry is in the inode
blocks. `mkfs_spec`: the program goes through if the files fit, and then the image is as `Built` says.
-/
import OsKernel.Lib.Fallible
import OsKernel.Fs.Bitmap
import OsKernel.Fs.Directory
import OsKernel.User.Mkfs

namespace OsKernel.User.Mkfs

open OsKernel.Fs OsKernel.Fs.Inodes OsKernel.Bytes OsKernel.Fallible OsKernel.CString
open OsKernel.Fs.Directory (encode encode_length)
open Function (update update_eq_self update_idem update_of_ne update_self)

/-- the metadata blocks -/
def base : Set ℕ := { n | n < nmeta }

/-- blocks below `freeblock` are in use -/
def Image.view (img : Image) : View := ⟨img.disk, { n | n < img.freeblock }⟩

/-- what is not in use is there, and zero -/
structure Blank (img : Image) : Prop where
  le : img.freeblock ≤ fsSize
  zero : ∀ n, img.freeblock ≤ n → img.disk n = zeros

theorem Blank.lt32 {img : Image} (hb : Blank img) : img.freeblock < 2 ^ 32 := lt_of_le_of_lt hb.le (by decide)

/-- how many blocks a file of len bytes takes, its indirect block included -/
def blocksOf (len : ℕ) : ℕ := (len + blockSize - 1) / blockSize + if inodeNumDirect * blockSize < len then 1 else 0

theorem blocksOf_mono {m n : ℕ} (h : m ≤ n) : blocksOf m ≤ blocksOf n := by
  simp only [blocksOf, blockSize, inodeNumDirect]
  split_ifs <;> omega

/-! ## Finding a block -/

section Append

/-- an inode in memory, as the lemmas on slots have it -/
def inMemory (din : InodeEntry) : Inode := ⟨0, 1, true, din⟩

variable {img : Image} {F : ℕ → InodeEntry} {i k : ℕ} {din : InodeEntry}

theorem view_bump (hz : img.disk img.freeblock = zeros) : img.bump.view = img.view.take img.freeblock := by
  simp only [Image.view, Image.bump, View.take, View.mk.injEq]
  constructor
  · rw [← hz, update_eq_self]
  · ext n
    simp only [Set.mem_ofPred_eq, Set.mem_insert_iff]
    omega

theorem view_wsect (img : Image) (n : ℕ) (d : BlockData) : (img.wsect n d).view = img.view.set n d := rfl

theorem freeblock_notMem (img : Image) : img.freeblock ∉ img.view.used := lt_irrefl img.freeblock

/-- how many blocks `fileBlock` allocates -/
def cost (img : Image) (din : InodeEntry) (k : ℕ) : ℕ :=
  (if (fileOf img.disk din).mapped k then 0 else 1) + if din.indirect = 0 ∧ inodeNumDirect ≤ k then 1 else 0

/-- what finding block k of file i guarantees -/
structure Placed (i : ℕ) (img : Image) (F : ℕ → InodeEntry) (din : InodeEntry) (k : ℕ) (r : ℕ × InodeEntry × Image) :
    Prop where
  maps : Maps viewCache base i img.view F (inMemory din) k (r.1, inMemory r.2.1) r.2.2.view
  count : r.2.2.freeblock = img.freeblock + cost img din k
  lt : r.1 < r.2.2.freeblock
  /-- the last block handed out is the one returned, so reading it tells whether the disk was full -/
  last : fsSize < r.2.2.freeblock → fsSize ≤ r.1
  zero : ∀ n, r.2.2.freeblock ≤ n → r.2.2.disk n = zeros
  freeinode : r.2.2.freeinode = img.freeinode
  indirect : r.2.1.indirect = 0 ↔ din.indirect = 0 ∧ k < inodeNumDirect

/-- what a slot points to is in use -/
theorem ref_lt (hs : Sound base ∅ img.view F) (t : Slot) : ref img.disk (F i) t < img.freeblock := hs.owns.mem_used (i, t)

theorem directBlock_spec (hs : Sound base ∅ img.view F) (hF : F i = din) (hb : Blank img) (k : Fin inodeNumDirect) :
    Placed i img F din k (directBlock img din k) := by
  have hle := hb.le
  have hlt := hb.lt32
  have hslot : slotOf k.val = some (.direct k) := dif_pos k.isLt
  have hnot : ¬ (din.indirect = 0 ∧ inodeNumDirect ≤ k.val) := fun h => absurd k.isLt (not_lt.2 h.2)
  unfold directBlock
  by_cases h0 : din.addrs k = 0
  · have hmapped : (fileOf img.disk din).mapped k.val = false := by
      rw [Bool.eq_false_iff]
      intro hm
      exact (mapped_of_slot hslot).1 hm (by rw [ref, h0]; rfl)
    have hcost : cost img din k = 1 := by simp [cost, hmapped, hnot]
    rw [if_pos h0, toNat_ofNat32 hlt]
    refine ⟨?_, by rw [hcost]; rfl, Nat.lt_succ_self _, fun h => Nat.lt_succ_iff.1 h, ?_, rfl, ?_⟩
    · exact maps_of_direct viewCache hs hF h0 (freeblock_notMem img) hlt (view_bump (hb.zero _ le_rfl))
    · intro n hn
      exact hb.zero n (Nat.le_of_succ_le hn)
    · exact ⟨fun h => ⟨h, k.isLt⟩, fun h => h.1⟩
  · have hne : ref img.disk din (.direct k) ≠ 0 := toNat_ne_zero.2 h0
    have hcost : cost img din k = 0 := by simp [cost, (mapped_of_slot hslot).2 hne, hnot, fileOf]
    rw [if_neg h0]
    refine ⟨?_, by rw [hcost]; rfl, ?_, fun h => absurd h (not_lt.2 hle), hb.zero, rfl, ?_⟩
    · exact maps_of_mapped viewCache hs hF hslot rfl hne
    · exact hF ▸ ref_lt (i := i) hs (.direct k)
    · exact ⟨fun h => ⟨h, k.isLt⟩, fun h => h.1⟩

/-- the indirect block exists afterwards -/
theorem withIndirect_spec (hs : Sound base ∅ img.view F) (hF : F i = din) (hb : Blank img) :
    HasIndirect viewCache base i img.view F (inMemory din) (inMemory (withIndirect img din).1) (withIndirect img din).2.view ∧
      (withIndirect img din).2.freeblock = img.freeblock + (if din.indirect = 0 then 1 else 0) ∧
      (withIndirect img din).2.disk = img.disk ∧ (withIndirect img din).2.freeinode = img.freeinode := by
  have hle := hb.le
  have hlt := hb.lt32
  unfold withIndirect
  by_cases h0 : din.indirect = 0
  · rw [if_pos h0, if_pos h0]
    refine ⟨?_, rfl, rfl, rfl⟩
    exact hasIndirect_of_take viewCache hs hF h0 (freeblock_notMem img) hlt (view_bump (hb.zero _ le_rfl))
  · rw [if_neg h0, if_neg h0]
    exact ⟨hasIndirect_of_ne viewCache hs hF h0, rfl, rfl, rfl⟩

theorem leafBlock_spec (hs : Sound base ∅ img.view F) (hF : F i = din) (hb : Blank img) (h0 : din.indirect ≠ 0)
    (t : Fin inodeNumIndirect) (hk : slotOf k = some (.leaf t)) :
    ∃ q, leafBlock img din t = some q ∧
      Maps viewCache base i img.view F (inMemory din) k (q.1, inMemory din) q.2.view ∧
      q.2.freeblock = img.freeblock + (if (fileOf img.disk din).mapped k then 0 else 1) ∧ q.1 < q.2.freeblock ∧
      (fsSize < q.2.freeblock → fsSize ≤ q.1) ∧ (∀ n, q.2.freeblock ≤ n → q.2.disk n = zeros) ∧
      q.2.freeinode = img.freeinode := by
  have hle := hb.le
  have hlt := hb.lt32
  have hib : din.indirect.toNat < img.freeblock := by
    have := ref_lt (i := i) hs .indirect
    rwa [hF] at this
  have href : ref img.disk din (.leaf t) = getLE (img.disk din.indirect.toNat) (4 * t) 4 := if_neg h0
  unfold leafBlock Image.rsect
  rw [if_pos (by omega), Option.map_some]
  refine ⟨_, rfl, ?_⟩
  by_cases hz : getLE (img.disk din.indirect.toNat) (4 * t) 4 = 0
  · have hmapped : (fileOf img.disk din).mapped k = false := by
      rw [Bool.eq_false_iff]
      intro hm
      exact (mapped_of_slot hk).1 hm (href.trans hz)
    have hread : getLE (putLE (img.disk din.indirect.toNat) (4 * t) 4 1 fun _ => img.freeblock) (4 * t) 4 =
        img.freeblock := by
      have ht : t.val < 128 := t.isLt
      have := getLE_putLE (img.disk din.indirect.toNat) (4 * t) (w := 4) (k := 1) (i := 0) (fun _ => img.freeblock)
        (by omega) (by change _ ≤ 512; omega)
      rw [Nat.mul_zero, Nat.add_zero] at this
      rw [this, Nat.mod_eq_of_lt (by omega)]
    rw [if_pos hz, hmapped]
    dsimp only
    rw [hread]
    refine ⟨?_, rfl, Nat.lt_succ_self _, fun h => Nat.lt_succ_iff.1 h, ?_, rfl⟩
    · have hview : (img.bump.wsect din.indirect.toNat
            (putLE (img.disk din.indirect.toNat) (4 * t) 4 1 fun _ => img.freeblock)).view =
          (img.view.take img.freeblock).set din.indirect.toNat
            (putLE ((img.view.take img.freeblock).blk din.indirect.toNat) (4 * t) 4 1 fun _ => img.freeblock) := by
        have hsame : (img.view.take img.freeblock).blk din.indirect.toNat = img.disk din.indirect.toNat :=
          update_of_ne (ne_of_lt hib) ..
        rw [view_wsect, view_bump (hb.zero _ le_rfl), hsame]
      have hentry : F i = (inMemory din).entry := hF
      exact maps_of_leaf viewCache (s := img.view) hs hentry h0 hk hz (freeblock_notMem img) hlt hview
    · intro n hn
      have hne : n ≠ din.indirect.toNat := by
        have : img.freeblock + 1 ≤ n := hn
        omega
      change update img.disk din.indirect.toNat _ n = zeros
      rw [update_of_ne hne]
      exact hb.zero n (Nat.le_of_succ_le hn)
  · have hne : ref img.disk din (.leaf t) ≠ 0 := fun h => hz (href.symm.trans h)
    have hmapped : (fileOf img.disk din).mapped k = true := (mapped_of_slot hk).2 hne
    rw [if_neg hz, hmapped, ← href]
    refine ⟨?_, rfl, ?_, fun h => absurd h (not_lt.2 hle), hb.zero, rfl⟩
    · exact maps_of_mapped viewCache hs hF hk rfl hne
    · have := ref_lt (i := i) hs (.leaf t)
      rwa [hF] at this

/-- **Finding a block.** -/
theorem fileBlock_spec (hs : Sound base ∅ img.view F) (hF : F i = din) (hb : Blank img) (hk : k < inodeMaxBlocks) :
    Yields (img.freeblock + cost img din k ≤ fsSize) (Placed i img F din k) (fileBlock img din k) := by
  unfold fileBlock
  by_cases hd : k < inodeNumDirect
  · rw [dif_pos hd]
    exact directBlock_spec hs hF hb ⟨k, hd⟩
  · have hidx : k - inodeNumDirect < inodeNumIndirect := Nat.sub_lt_left_of_lt_add (not_lt.1 hd) hk
    have hslot : slotOf k = some (.leaf ⟨_, hidx⟩) := by rw [slotOf, dif_neg hd, dif_pos hidx]
    have hcost : cost img din k = (if (fileOf img.disk din).mapped k then 0 else 1) + if din.indirect = 0 then 1 else 0 := by
      simp only [cost, not_lt.1 hd, and_true]
    have hle := hb.le
    rw [dif_neg hd]
    by_cases hfull : din.indirect = 0 ∧ fsSize ≤ img.freeblock
    · -- the indirect block itself is behind the end of the disk
      have hstop : leafBlock (withIndirect img din).2 (withIndirect img din).1 (k - inodeNumDirect) = none := by
        have hat : (UInt32.ofNat img.freeblock).toNat = img.freeblock := toNat_ofNat32 hb.lt32
        simp only [withIndirect, if_pos hfull.1, leafBlock, Image.rsect, hat, if_neg (not_lt.2 hfull.2), Option.map_none]
      dsimp only
      rw [hstop]
      intro hc
      rw [hcost, if_pos hfull.1] at hc
      omega
    · obtain ⟨h1, hcount, hdisk, hino⟩ := withIndirect_spec hs hF hb
      generalize withIndirect img din = r at h1 hcount hdisk hino ⊢
      obtain ⟨din1, img1⟩ := r
      dsimp only at h1 hcount hdisk hino ⊢
      have hfile : fileOf img1.disk din1 = fileOf img.disk din := h1.file
      have hne : din1.indirect ≠ 0 := h1.ne
      have hb1 : Blank img1 := by
        refine ⟨?_, fun n hn => ?_⟩
        · by_cases h0 : din.indirect = 0
          · have : ¬ fsSize ≤ img.freeblock := fun h => hfull ⟨h0, h⟩
            rw [hcount, if_pos h0]
            omega
          · rw [hcount, if_neg h0]
            exact hle
        · rw [hdisk]
          exact hb.zero n (by omega)
      have hF1 : update F i din1 i = din1 := update_self ..
      obtain ⟨q, hq, hmaps, hc, hlt, hlast, hzero, hino1⟩ := leafBlock_spec h1.moves.sound hF1 hb1 hne ⟨_, hidx⟩ hslot
      rw [hq, Option.map_some]
      refine ⟨h1.maps viewCache hmaps, ?_, hlt, hlast, hzero, hino1.trans hino, ?_⟩
      · rw [hc, hfile, hcount, hcost]
        omega
      · exact ⟨fun h => absurd h hne, fun h => absurd h.2 hd⟩

/-! ## Appending -/

/-- a file that holds just the bytes d -/
structure Exact (img : Image) (din : InodeEntry) (d : List UInt8) : Prop where
  file : fileOf img.disk din = File.ofBytes d
  indirect : din.indirect = 0 ↔ d.length ≤ inodeNumDirect * blockSize

/-- the blocks one turn allocates are those the longer file needs -/
theorem cost_eq {d : List UInt8} (h : Exact img din d) {n : ℕ} (hn : 0 < n) (hfit : d.length % blockSize + n ≤ blockSize) :
    cost img din (d.length / blockSize) + blocksOf d.length = blocksOf (d.length + n) := by
  have hind := h.indirect
  simp only [cost, h.file, File.ofBytes, decide_eq_true_eq, hind, blocksOf]
  simp only [blockSize, inodeNumDirect] at *
  split_ifs <;> omega

/-- the longer file fits into an inode and onto the disk -/
def Room (img : Image) (len n : ℕ) : Prop :=
  len + n ≤ inodeMaxBytes ∧ img.freeblock + blocksOf (len + n) ≤ fsSize + blocksOf len

/-- what appending p to the bytes d guarantees -/
structure Appended (i : ℕ) (img : Image) (F : ℕ → InodeEntry) (d p : List UInt8) (r : InodeEntry × ℕ × Image) : Prop where
  stop : r.2.1 = d.length + p.length
  moves : Moves base ∅ i img.view F r.2.2.view (update F i r.1)
  exact : Exact r.2.2 r.1 (d ++ p)
  count : r.2.2.freeblock + blocksOf d.length = img.freeblock + blocksOf (d.length + p.length)
  max : d.length ≤ inodeMaxBytes → d.length + p.length ≤ inodeMaxBytes
  blank : Blank r.2.2
  freeinode : r.2.2.freeinode = img.freeinode

theorem appended_nil {d : List UInt8} (hs : Sound base ∅ img.view F) (hF : F i = din) (hb : Blank img) (he : Exact img din d) :
    Appended i img F d [] (din, d.length, img) := by
  refine ⟨rfl, ?_, ?_, rfl, id, hb, rfl⟩
  · rw [← hF, update_eq_self]
    exact Moves.refl hs i
  · rw [List.append_nil]
    exact he

/-- one turn: bytes are copied into the block found for the end of the file -/
theorem copy_spec {d p : List UInt8} {n x : ℕ} {din1 : InodeEntry} {img1 : Image}
    (hr : Placed i img F din (d.length / blockSize) (x, din1, img1)) (he : Exact img din d)
    (hk : d.length / blockSize < inodeMaxBlocks) (hx : x < fsSize) (hn : 0 < n) (hnp : n ≤ p.length)
    (hfit : d.length % blockSize + n ≤ blockSize) :
    let img2 := img1.wsect x (patch (img1.disk x) (d.length % blockSize) n fun j => p.getD j 0)
    Moves base ∅ i img.view F img2.view (update F i din1) ∧ Blank img2 ∧ Exact img2 din1 (d ++ p.take n) := by
  intro img2
  obtain ⟨t, ht⟩ := slotOf_isSome hk
  have hblock : x = ref img1.disk (update F i din1 i) t := by
    rw [update_self, ← blockAt_eq ht]
    exact hr.maps.block
  have hv : img2.view = img1.view.set x (patch (img1.view.blk x) (d.length % blockSize) n fun j => p.getD j 0) := rfl
  obtain ⟨hmoves, hfile⟩ := hr.maps.moves.sound.patch viewCache ht hblock hr.maps.ne hfit hv
  refine ⟨hr.maps.moves.trans hmoves, ⟨?_, fun m hm => ?_⟩, ⟨?_, ?_⟩⟩
  · by_contra hgt
    exact absurd hx (not_lt.2 (hr.last (not_le.1 hgt)))
  · have hne : m ≠ x := fun h => absurd hr.lt (not_lt.2 (h ▸ hm))
    change update img1.disk x _ m = zeros
    rw [update_of_ne hne]
    exact hr.zero m hm
  · have htouch : fileOf img1.disk din1 = (fileOf img.disk din).touch (d.length / blockSize) := hr.maps.file
    calc fileOf img2.disk din1
        = (fileOf img1.disk din1).patch (d.length / blockSize * blockSize + d.length % blockSize) n
            fun j => p.getD j 0 := by
          have := hfile
          rw [update_self] at this
          exact this
      _ = ((fileOf img.disk din).touch (d.length / blockSize)).patch
            (d.length / blockSize * blockSize + d.length % blockSize) n fun j => p.getD j 0 := by rw [htouch]
      _ = (File.ofBytes d).write d.length (p.take n) := by rw [File.chunk_eq_write _ hn hfit hnp, he.file]
      _ = File.ofBytes (d ++ p.take n) := File.write_ofBytes d _
  · have hind : din1.indirect = 0 ↔ din.indirect = 0 ∧ d.length / blockSize < inodeNumDirect := hr.indirect
    have hind0 := he.indirect
    rw [hind, hind0, List.length_append, List.length_take_of_le hnp]
    simp only [blockSize, inodeNumDirect] at *
    omega

/-- The loop of `iappend`: by induction on the fuel, one turn being a block found and bytes copied into it. -/
theorem iappendLoop_spec (fuel : ℕ) {img : Image} {F : ℕ → InodeEntry} {din : InodeEntry} {d : List UInt8} (p : List UInt8)
    (hs : Sound base ∅ img.view F) (hF : F i = din) (hb : Blank img) (he : Exact img din d) (hfuel : p.length ≤ fuel) :
    Yields (Room img d.length p.length) (Appended i img F d p) (iappendLoop fuel img din d.length p) := by
  induction fuel generalizing img F din d p with
  | zero =>
    obtain rfl : p = [] := List.length_eq_zero_iff.1 (Nat.le_zero.1 hfuel)
    exact appended_nil hs hF hb he
  | succ fuel ih =>
    unfold iappendLoop
    by_cases hp : p = []
    · rw [if_pos hp, hp]
      exact appended_nil hs hF hb he
    rw [if_neg hp]
    have hpos : 0 < p.length := List.length_pos_of_ne_nil hp
    have hmod : d.length % blockSize < blockSize := Nat.mod_lt _ (by decide)
    by_cases hk : d.length / blockSize < inodeMaxBlocks
    · rw [if_pos hk]
      -- the bytes of this turn
      generalize hn1 : min p.length ((d.length / blockSize + 1) * blockSize - d.length) = n1
      have hn : 0 < n1 := by simp only [blockSize] at *; omega
      have hnp : n1 ≤ p.length := by omega
      have hfit : d.length % blockSize + n1 ≤ blockSize := by simp only [blockSize] at *; omega
      have hcost := cost_eq he hn hfit
      have hmono := blocksOf_mono (Nat.add_le_add_left hnp d.length)
      refine ((fileBlock_spec hs hF hb hk).of_imp fun hroom => ?_).bind fun r hr => ?_
      · have := hroom.2
        omega
      obtain ⟨x, din1, img1⟩ := r
      have hcount : img1.freeblock = img.freeblock + cost img din (d.length / blockSize) := hr.count
      have hstart : d.length - d.length / blockSize * blockSize = d.length % blockSize := by
        simp only [blockSize]
        omega
      by_cases hx : x < fsSize
      · simp only [Image.rsect, if_pos hx, Option.bind_some]
        rw [hstart]
        obtain ⟨hmoves, hblank, hexact⟩ := copy_spec hr he hk hx hn hnp hfit
        have hlen : (d ++ p.take n1).length = d.length + n1 := by
          rw [List.length_append, List.length_take_of_le hnp]
        have hsum : d.length + n1 + (p.length - n1) = d.length + p.length := by omega
        have hrest := ih (p.drop n1) hmoves.sound (update_self ..) hblank hexact (by rw [List.length_drop]; omega)
        rw [hlen, List.length_drop] at hrest
        refine (hrest.of_imp fun hroom => ?_).mono fun q hq => ?_
        · refine ⟨by rw [hsum]; exact hroom.1, ?_⟩
          have := hroom.2
          change img1.freeblock + _ ≤ _
          rw [hsum]
          omega
        · obtain ⟨hstop, hmv, hex, hct, hmax, hbl, hino⟩ := hq
          have hct' : q.2.2.freeblock + blocksOf (d ++ p.take n1).length =
              img1.freeblock + blocksOf ((d ++ p.take n1).length + (p.drop n1).length) := hct
          rw [List.append_assoc, List.take_append_drop] at hex
          rw [hlen, List.length_drop, hsum] at hct'
          rw [hlen, List.length_drop, hsum] at hmax
          have hturn : d.length + n1 ≤ inodeMaxBytes := by
            simp only [blockSize, inodeMaxBytes, inodeMaxBlocks, inodeNumDirect, inodeNumIndirect] at *
            omega
          refine ⟨?_, ?_, hex, by omega, fun _ => hmax hturn, hbl, hino.trans hr.freeinode⟩
          · rw [hstop, hlen, List.length_drop, hsum]
          · have := hmoves.trans hmv
            rwa [update_idem] at this
      · simp only [Image.rsect, if_neg hx, Option.bind_none]
        intro hroom
        have h1 := hroom.2
        have h2 : x < img1.freeblock := hr.lt
        omega
    · rw [if_neg hk]
      intro hroom
      have h1 := hroom.1
      simp only [blockSize, inodeMaxBytes, inodeMaxBlocks, inodeNumDirect, inodeNumIndirect] at *
      omega

end Append

/-! ## The state between calls -/

/-- what an inode is: its type, and the bytes of its file -/
structure Node where
  type : InodeType
  bytes : List UInt8

/-- the image holds the inodes `node`, with entries F -/
structure Holds (img : Image) (node : ℕ → Node) (F : ℕ → InodeEntry) : Prop where
  sound : Sound base ∅ img.view F
  blank : Blank img
  /-- the entries are in the inode blocks, as far as these reach -/
  home : ∀ i, iblock i < nmeta → getEntry (img.disk (iblock i)) i = F i
  /-- what lies before the inode blocks is as formatted -/
  front : ∀ n, n < superBlock.inodeStart.toNat → img.disk n = formatted.disk n
  type : ∀ i, (F i).type = (node i).type
  size : ∀ i, (F i).numBytes.toNat = (node i).bytes.length
  exact : ∀ i, Exact img (F i) (node i).bytes
  max : ∀ i, (node i).bytes.length ≤ inodeMaxBytes
  fresh : ∀ i, img.freeinode ≤ i → F i = .zero

section Calls

variable {img : Image} {node : ℕ → Node} {F : ℕ → InodeEntry} {i : ℕ} {e : InodeEntry}

theorem inodeStart_eq : superBlock.inodeStart.toNat = 65 := rfl

theorem rsect_meta {n : ℕ} (hn : n < nmeta) : img.rsect n = some (img.disk n) :=
  if_pos (lt_of_lt_of_le hn (by decide))

/-- the image after the entry of inode i has been written -/
def Image.store (img : Image) (i : ℕ) (e : InodeEntry) : Image :=
  img.wsect (iblock i) (putEntry i e (img.disk (iblock i)))

theorem winode_eq (hi : iblock i < nmeta) (e : InodeEntry) : winode img i e = some (img.store i e) := by
  rw [winode, rsect_meta hi]
  rfl

theorem rinode_eq (hi : iblock i < nmeta) : rinode img i = some (getEntry (img.disk (iblock i)) i) := by
  rw [rinode, rsect_meta hi]
  rfl

theorem getEntry_store_self (e : InodeEntry) : getEntry ((img.store i e).disk (iblock i)) i = e := by
  change getEntry (update img.disk (iblock i) _ (iblock i)) i = e
  rw [update_self, getEntry_putEntry]

/-- an entry that is written changes no other one -/
theorem getEntry_store {j : ℕ} (e : InodeEntry) (hj : j ≠ i) :
    getEntry ((img.store i e).disk (iblock j)) j = getEntry (img.disk (iblock j)) j := by
  change getEntry (update img.disk (iblock i) _ (iblock j)) j = _
  by_cases hblk : iblock j = iblock i
  · have hslot : i % inodePerBlock ≠ j % inodePerBlock := by
      have h : j / inodePerBlock + _ = i / inodePerBlock + _ := hblk
      simp only [inodePerBlock, blockSize] at *
      omega
    rw [hblk, update_self, getEntry_putEntry_other _ _ hslot]
  · rw [update_of_ne hblk]

/-- The entry of inode i is written, the blocks of its file being in place; nothing else has changed since the image held
the inodes `node`. -/
theorem Holds.store {img' : Image} {x : Node} (h : Holds img node F) (hi : iblock i < nmeta) (hb : Blank img')
    (hs : Sound base ∅ img'.view (update F i e))
    (hothers : ∀ j, j ≠ i → fileOf img'.disk (F j) = fileOf img.disk (F j))
    (hmetas : ∀ n ∈ base, img'.disk n = img.disk n) (hexact : Exact img' e x.bytes) (htype : e.type = x.type)
    (hsize : e.numBytes.toNat = x.bytes.length) (hmax : x.bytes.length ≤ inodeMaxBytes)
    (hfresh : ∀ j, img'.freeinode ≤ j → img.freeinode ≤ j ∧ j ≠ i) :
    Holds (img'.store i e) (update node i x) (update F i e) := by
  obtain ⟨hs', hfiles⟩ := hs.set_base (show iblock i ∈ base from hi) (putEntry i e (img'.disk (iblock i)))
  have hlow : iblock i < img'.freeblock := hs.owns.base_subset (show iblock i ∈ base from hi)
  have hfile : ∀ j, fileOf (img'.store i e).disk (update F i e j) = fileOf img'.disk (update F i e j) := hfiles
  refine ⟨hs', ⟨hb.le, ?_⟩, ?_, ?_, ?_, ?_, ?_, ?_, ?_⟩
  · intro n hn
    have hne : n ≠ iblock i := fun he => absurd hlow (not_lt.2 (he ▸ hn))
    change update img'.disk (iblock i) _ n = zeros
    rw [update_of_ne hne]
    exact hb.zero n hn
  · intro j hj
    by_cases hji : j = i
    · rw [hji, update_self, getEntry_store_self]
    · rw [getEntry_store e hji, update_of_ne hji, hmetas _ hj]
      exact h.home j hj
  · intro n hn
    have hne : n ≠ iblock i := by
      intro he
      rw [he] at hn
      exact absurd hn (not_lt.2 (Nat.le_add_left ..))
    have hbase : n ∈ base := by
      rw [inodeStart_eq] at hn
      exact lt_trans hn (by decide)
    change update img'.disk (iblock i) _ n = _
    rw [update_of_ne hne, hmetas n hbase]
    exact h.front n hn
  · intro j
    by_cases hji : j = i
    · rw [hji, update_self, update_self]
      exact htype
    · rw [update_of_ne hji, update_of_ne hji]
      exact h.type j
  · intro j
    by_cases hji : j = i
    · rw [hji, update_self, update_self]
      exact hsize
    · rw [update_of_ne hji, update_of_ne hji]
      exact h.size j
  · intro j
    by_cases hji : j = i
    · have := hfile j
      rw [hji, update_self] at this
      rw [hji, update_self, update_self]
      exact ⟨this.trans hexact.file, hexact.indirect⟩
    · have := hfile j
      rw [update_of_ne hji] at this
      rw [update_of_ne hji, update_of_ne hji]
      exact ⟨this.trans ((hothers j hji).trans (h.exact j).file), (h.exact j).indirect⟩
  · intro j
    by_cases hji : j = i
    · rw [hji, update_self]
      exact hmax
    · rw [update_of_ne hji]
      exact h.max j
  · intro j hj
    obtain ⟨hold, hne⟩ := hfresh j hj
    rw [update_of_ne hne]
    exact h.fresh j hold

theorem exact_nil (img : Image) (e : InodeEntry) (ha : e.addrs = fun _ => 0) (hi : e.indirect = 0) : Exact img e [] := by
  have href : ref img.disk e = fun _ => 0 := by
    funext t
    cases t with
    | direct k => rw [ref, ha]; rfl
    | indirect => rw [ref, hi]; rfl
    | leaf k => rw [ref, if_pos hi]
  refine ⟨?_, iff_of_true hi (Nat.zero_le _)⟩
  rw [fileOf, href]
  ext k
  · simp [fileVia, File.ofBytes]
  · cases hk : slotOf (k / blockSize) <;> simp [fileVia, File.ofBytes, hk]

/-- `ialloc`: a new inode, without bytes -/
theorem ialloc_spec (h : Holds img node F) (hi : iblock img.freeinode < nmeta) (type : InodeType) :
    ∃ img', ialloc img type = some (img.freeinode, img') ∧ img'.freeblock = img.freeblock ∧
      img'.freeinode = img.freeinode + 1 ∧
      ∃ F', Holds img' (update node img.freeinode ⟨type, []⟩) F' := by
  have hzero := h.fresh img.freeinode le_rfl
  set e : InodeEntry := { InodeEntry.zero with type := type, numLinks := 1 } with he
  set img' : Image := { img with freeinode := img.freeinode + 1 } with himg
  have hs : Sound base ∅ img'.view (update F img.freeinode e) := by
    have hsame : update F img.freeinode InodeEntry.zero = F := by rw [← hzero, update_eq_self]
    have hs0 : Sound base ∅ img.view (update F img.freeinode InodeEntry.zero) := hsame.symm ▸ h.sound
    exact hs0.retag rfl rfl
  refine ⟨img'.store img.freeinode e, ?_, rfl, rfl, update F img.freeinode e, ?_⟩
  · rw [ialloc, winode_eq hi]
    rfl
  · have hb : Blank img' := ⟨h.blank.le, h.blank.zero⟩
    apply h.store hi hb hs
    · intro j _
      rfl
    · intro n _
      rfl
    · exact exact_nil _ e rfl rfl
    · rfl
    · rfl
    · exact Nat.zero_le _
    · intro j hj
      have : img.freeinode + 1 ≤ j := hj
      omega

/-- **Appending.** -/
theorem iappend_spec (h : Holds img node F) (hi : iblock i < nmeta) (hlt : i < img.freeinode) (p : List UInt8) :
    Yields (Room img (node i).bytes.length p.length)
      (fun img' => img'.freeinode = img.freeinode ∧
        img'.freeblock + blocksOf (node i).bytes.length = img.freeblock + blocksOf ((node i).bytes.length + p.length) ∧
        ∃ F', Holds img' (update node i ⟨(node i).type, (node i).bytes ++ p⟩) F')
      (iappend img i p) := by
  rw [iappend, rinode_eq hi, Option.bind_some, h.home i hi, h.size i]
  refine (iappendLoop_spec p.length p h.sound rfl h.blank (h.exact i) le_rfl).bind fun r hr => ?_
  obtain ⟨din, off, img1⟩ := r
  have hoff : off = (node i).bytes.length + p.length := hr.stop
  have hmax : (node i).bytes.length + p.length ≤ inodeMaxBytes := hr.max (h.max i)
  have hsize : (UInt32.ofNat off).toNat = (node i).bytes.length + p.length := by
    rw [hoff]
    exact toNat_ofNat32 (lt_of_le_of_lt hmax (by decide))
  have hhead : din = { F i with addrs := din.addrs, indirect := din.indirect } := by
    have := hr.moves.head
    rwa [update_self] at this
  have hs : Sound base ∅ img1.view (update F i { din with numBytes := .ofNat off }) :=
    hr.moves.sound.retag rfl rfl
  rw [winode_eq hi]
  refine ⟨hr.freeinode, hr.count, update F i { din with numBytes := .ofNat off }, ?_⟩
  dsimp only
  apply h.store hi hr.blank hs
  · intro j hj
    have := hr.moves.others j hj
    rwa [update_of_ne hj] at this
  · exact hr.moves.metas
  · exact ⟨hr.exact.file, hr.exact.indirect⟩
  · change din.type = (node i).type
    rw [hhead]
    exact h.type i
  · rw [List.length_append]
    exact hsize
  · rw [List.length_append]
    exact hmax
  · intro j hj
    have : img1.freeinode = img.freeinode := hr.freeinode
    have hj' : img1.freeinode ≤ j := hj
    omega

/-- the pieces of a file, one after the other -/
theorem appendChunks_spec (h : Holds img node F) (hi : iblock i < nmeta) (hlt : i < img.freeinode) {type : InodeType}
    (hnode : node i = ⟨type, []⟩) (chunks : List (List UInt8)) :
    Yields (Room img 0 chunks.flatten.length)
      (fun img' => img'.freeinode = img.freeinode ∧ img'.freeblock = img.freeblock + blocksOf chunks.flatten.length ∧
        ∃ F', Holds img' (update node i ⟨type, chunks.flatten⟩) F')
      (chunks.foldlM (fun img c => iappend img i c) img) := by
  have h0 : ∃ F', Holds img (update node i ⟨type, [].flatten⟩) F' := by
    refine ⟨F, ?_⟩
    rwa [List.flatten_nil, ← hnode, update_eq_self]
  refine yields_foldlM (fun front img' => img'.freeinode = img.freeinode ∧
    img'.freeblock = img.freeblock + blocksOf front.flatten.length ∧
    ∃ F', Holds img' (update node i ⟨type, front.flatten⟩) F') ⟨rfl, rfl, h0⟩ ?_
  rintro front c back img1 hsplit ⟨hino, hfb, F1, h1⟩
  have hspec := iappend_spec h1 hi (hino ▸ hlt) c
  rw [update_self, update_idem] at hspec
  dsimp only at hspec
  have hflat : (front ++ [c]).flatten = front.flatten ++ c := by simp
  have hlen : (front ++ c :: back).flatten.length = front.flatten.length + c.length + back.flatten.length := by
    simp [Nat.add_assoc]
  have hmono : blocksOf (front.flatten.length + c.length) ≤ blocksOf chunks.flatten.length :=
    blocksOf_mono (by rw [hsplit, hlen]; omega)
  refine (hspec.of_imp fun hroom => ?_).mono fun img2 h2 => ?_
  · obtain ⟨hmax, hfit⟩ := hroom
    rw [Nat.zero_add] at hmax hfit
    have hz : blocksOf 0 = 0 := rfl
    refine ⟨?_, by omega⟩
    rw [hsplit, hlen] at hmax
    omega
  · obtain ⟨hino2, hfb2, hF2⟩ := h2
    rw [hflat, List.length_append]
    exact ⟨hino2.trans hino, by omega, hF2⟩

end Calls

/-! ## The program -/

/-- the root directory -/
def rootEntries (files : List HostFile) : List DirEntry :=
  dirent [46] rootInodeNo :: dirent [46, 46] rootInodeNo :: files.mapIdx fun j f => dirent f.name (j + 2)

/-- the inodes of a file system with these files -/
def nodes (files : List HostFile) : ℕ → Node
  | 0 => ⟨inodeInvalid, []⟩
  | 1 => ⟨inodeDirectory, encode (rootEntries files)⟩
  | i + 2 =>
    match files[i]? with
    | some f => ⟨inodeRegular, f.bytes⟩
    | none => ⟨inodeInvalid, []⟩

/-- the blocks the files and the root directory take -/
def need (files : List HostFile) : ℕ :=
  blocksOf (16 * (files.length + 2)) + (files.map fun f => blocksOf f.bytes.length).sum

structure Fits (files : List HostFile) : Prop where
  max : ∀ f ∈ files, f.bytes.length ≤ inodeMaxBytes
  room : nmeta + need files ≤ fsSize

/-- the files in `done` have been added -/
structure Added (done : List HostFile) (img : Image) : Prop where
  holds : ∃ F, Holds img (nodes done) F
  freeinode : img.freeinode = done.length + 2
  freeblock : img.freeblock = nmeta + need done

theorem rootEntries_length (files : List HostFile) : (rootEntries files).length = files.length + 2 := by
  simp [rootEntries]

theorem root_length (files : List HostFile) : (nodes files 1).bytes.length = 16 * (files.length + 2) := by
  rw [nodes, encode_length, rootEntries_length]

/-- one more file: an inode for it, an entry in the root directory, its bytes -/
theorem nodes_append (done : List HostFile) (f : HostFile) :
    update (update (update (nodes done) (done.length + 2) ⟨inodeRegular, []⟩) 1
      ⟨inodeDirectory, encode (rootEntries done) ++ (dirent f.name (done.length + 2)).toBytes⟩) (done.length + 2)
      ⟨inodeRegular, f.bytes⟩ = nodes (done ++ [f]) := by
  funext i
  match i with
  | 0 => rfl
  | 1 =>
    rw [update_of_ne (by omega), update_self]
    simp [nodes, Directory.encode, rootEntries]
  | i + 2 =>
    by_cases hi : i = done.length
    · subst hi
      rw [update_self, nodes]
      simp
    · rw [update_of_ne (by omega), update_of_ne (by omega), update_of_ne (by omega), nodes, nodes]
      by_cases hlt : i < done.length
      · rw [List.getElem?_append_left hlt]
      · rw [List.getElem?_eq_none (not_lt.1 hlt), List.getElem?_eq_none (by simp; omega)]

theorem need_append (done : List HostFile) (f : HostFile) :
    need (done ++ [f]) + blocksOf (16 * (done.length + 2)) =
      need done + blocksOf (16 * (done.length + 3)) + blocksOf f.bytes.length := by
  simp only [need, List.length_append, List.length_singleton, List.map_append, List.map_cons, List.map_nil, List.sum_append,
    List.sum_singleton, Nat.add_assoc, Nat.reduceAdd]
  omega

theorem iblock_lt {i : ℕ} (h : i < 216) : iblock i < nmeta := by
  have hi : i / 8 + 65 < 92 := by omega
  exact hi

/-- the body of the loop over the arguments -/
theorem addFile_spec {done : List HostFile} {f : HostFile} {img : Image} (h : Added done img) (hlen : done.length < 214) :
    Yields (Fits (done ++ [f])) (Added (done ++ [f])) (addFile img f) := by
  obtain ⟨⟨F, hF⟩, hino, hfb⟩ := h
  have hslot : iblock img.freeinode < nmeta := iblock_lt (by omega)
  have hroot : iblock rootInodeNo < nmeta := iblock_lt (by decide)
  have hneed := need_append done f
  rw [addFile, if_neg (slash_notMem_baseName f.path)]
  obtain ⟨img1, hrun1, hfb1, hino1, F1, h1⟩ := ialloc_spec hF hslot inodeRegular
  rw [hrun1, Option.bind_some]
  dsimp only
  rw [hino] at h1 hino1 hslot ⊢
  -- the entry in the root directory
  have hne : (1 : ℕ) ≠ done.length + 2 := by omega
  have hold : rootInodeNo < img1.freeinode := by
    rw [hino1]
    exact Nat.lt_of_sub_pos (Nat.succ_pos _)
  have hspec := iappend_spec h1 hroot hold (dirent f.name (done.length + 2)).toBytes
  rw [update_of_ne hne, root_length, DirEntry.toBytes_length] at hspec
  refine (hspec.of_imp fun hfits => ⟨?_, ?_⟩).bind fun img2 h2 => ?_
  · simp only [inodeMaxBytes, inodeMaxBlocks, inodeNumDirect, inodeNumIndirect, blockSize]
    omega
  · have hroom := hfits.room
    have h16 : 16 * (done.length + 2) + 16 = 16 * (done.length + 3) := by omega
    rw [h16]
    omega
  -- its bytes
  obtain ⟨hino2, hfb2, F2, h2⟩ := h2
  have hnode : update (update (nodes done) (done.length + 2) ⟨inodeRegular, []⟩) 1
      ⟨(nodes done 1).type, (nodes done 1).bytes ++ (dirent f.name (done.length + 2)).toBytes⟩ (done.length + 2) =
      ⟨inodeRegular, []⟩ := by
    rw [update_of_ne hne.symm, update_self]
  have h16 : 16 * (done.length + 2) + 16 = 16 * (done.length + 3) := by omega
  rw [h16] at hfb2
  refine ((appendChunks_spec h2 hslot (by omega) hnode f.chunks).of_imp fun hfits => ⟨?_, ?_⟩).mono fun img3 h3 => ?_
  · rw [Nat.zero_add]
    exact hfits.max f (List.mem_append_right _ (List.mem_singleton_self f))
  · have hroom := hfits.room
    have hz : blocksOf 0 = 0 := rfl
    change _ + blocksOf (0 + f.bytes.length) ≤ _
    rw [Nat.zero_add]
    omega
  · obtain ⟨hino3, hfb3, F3, h3⟩ := h3
    refine ⟨⟨F3, ?_⟩, ?_, ?_⟩
    · rw [← nodes_append]
      exact h3
    · rw [List.length_append, List.length_singleton]
      omega
    · change img3.freeblock = img2.freeblock + blocksOf f.bytes.length at hfb3
      omega

theorem getEntry_zeros (i : ℕ) : getEntry zeros i = InodeEntry.zero := by
  simp only [getEntry, getLE_zeros]
  rfl

theorem formatted_zero {n : ℕ} (h : n ≠ 1) : formatted.disk n = zeros := by
  simp only [formatted, update_of_ne h]

theorem formatted_holds : Holds formatted (fun _ => ⟨inodeInvalid, []⟩) fun _ => .zero := by
  have hplaces : places formatted.view.blk (fun _ : ℕ => InodeEntry.zero) = fun _ => 0 := by
    funext ⟨i, t⟩
    cases t <;> rfl
  refine ⟨⟨?_, Set.empty_subset _⟩, ⟨by decide, ?_⟩, ?_, fun _ _ => rfl, fun _ => rfl, fun _ => rfl, ?_,
    fun _ => Nat.zero_le _, fun _ _ => rfl⟩
  · rw [hplaces]
    have h0 : (0 : ℕ) ∈ base := show 0 < nmeta by decide
    refine ⟨h0, ?_, fun _ h => absurd rfl h, fun _ _ _ h => absurd rfl h⟩
    have hrange : Set.range (fun _ : ℕ × Slot => 0) ⊆ base := by
      rintro n ⟨_, rfl⟩
      exact h0
    rw [Set.union_eq_left.2 hrange]
    rfl
  · intro n hn
    have : 92 ≤ n := hn
    exact formatted_zero (by omega)
  · intro i _
    have hne : iblock i ≠ 1 := by
      change i / 8 + 65 ≠ 1
      omega
    rw [formatted_zero hne, getEntry_zeros]
  · intro i
    exact exact_nil _ _ rfl rfl

/-- the part of the program before the loop -/
theorem mkroot_spec : ∃ img1 img2 img3, ialloc formatted inodeDirectory = some (rootInodeNo, img1) ∧
    iappend img1 rootInodeNo (dirent [46] rootInodeNo).toBytes = some img2 ∧
    iappend img2 rootInodeNo (dirent [46, 46] rootInodeNo).toBytes = some img3 ∧ Added [] img3 := by
  have hroot : iblock rootInodeNo < nmeta := iblock_lt (by decide)
  obtain ⟨img1, hrun1, hfb1, hino1, F1, h1⟩ := ialloc_spec formatted_holds hroot inodeDirectory
  have hino1' : img1.freeinode = 2 := hino1
  have hfb1' : img1.freeblock = 92 := hfb1
  have hs1 := iappend_spec h1 hroot (by rw [hino1']; decide) (dirent [46] rootInodeNo).toBytes
  rw [show formatted.freeinode = rootInodeNo from rfl, update_self, DirEntry.toBytes_length] at hs1
  obtain ⟨img2, hrun2, hino2, hfb2, F2, h2⟩ := hs1.exists ⟨by decide, by rw [hfb1']; decide⟩
  have hfb2' : img2.freeblock = 93 := by
    rw [hfb1'] at hfb2
    exact hfb2
  have hs2 := iappend_spec h2 hroot (by rw [hino2, hino1']; decide) (dirent [46, 46] rootInodeNo).toBytes
  rw [update_self] at hs2
  simp only [List.nil_append, DirEntry.toBytes_length] at hs2
  obtain ⟨img3, hrun3, hino3, hfb3, F3, h3⟩ := hs2.exists ⟨by decide, by rw [hfb2']; decide⟩
  refine ⟨img1, img2, img3, hrun1, hrun2, hrun3, ⟨F3, ?_⟩, ?_, ?_⟩
  · rw [update_idem, update_idem] at h3
    have hnodes : nodes [] = update (fun _ => ⟨inodeInvalid, []⟩) rootInodeNo
        ⟨inodeDirectory, (dirent [46] rootInodeNo).toBytes ++ (dirent [46, 46] rootInodeNo).toBytes⟩ := by
      funext i
      match i with
      | 0 => rfl
      | 1 =>
        rw [update_self]
        simp [nodes, Directory.encode, rootEntries]
      | i + 2 =>
        have hne : i + 2 ≠ rootInodeNo := Nat.succ_ne_succ_iff.2 (Nat.succ_ne_zero i)
        rw [update_of_ne hne]
        rfl
    rw [hnodes]
    exact h3
  · rw [hino3, hino2, hino1']
    rfl
  · rw [hfb2'] at hfb3
    have : blocksOf 16 = 1 := rfl
    have : blocksOf (16 + 16) = 1 := rfl
    have : nmeta + need [] = 93 := rfl
    omega

/-! ## The image -/

/-- what is on the image of `mkfs`, F being the entries of its inodes -/
structure Built (files : List HostFile) (img : Image) (F : ℕ → InodeEntry) : Prop where
  sound : Sound base ∅ img.view F
  bitmap : img.disk superBlock.bitmapStart.toNat = ballocBuf img.freeblock
  home : ∀ i, iblock i < superBlock.bitmapStart.toNat → getEntry (img.disk (iblock i)) i = F i
  front : ∀ n, n < superBlock.inodeStart.toNat → img.disk n = formatted.disk n
  type : ∀ i, (F i).type = (nodes files i).type
  size : ∀ i, i ≠ rootInodeNo → (F i).numBytes.toNat = (nodes files i).bytes.length
  /-- the size of the root directory is rounded up, and by a whole block if it ends with one -/
  rootSize : (F rootInodeNo).numBytes.toNat = (16 * (files.length + 2) / blockSize + 1) * blockSize
  exact : ∀ i, Exact img (F i) (nodes files i).bytes
  freeblock : img.freeblock = nmeta + need files
  le : img.freeblock ≤ fsSize

/-- the size of the root directory is changed, the bitmap is written -/
theorem finish_spec {files : List HostFile} {img : Image} (h : Added files img) (hlen : files.length ≤ 214) :
    ∃ img' img'', fixRoot img = some img' ∧ balloc img' img'.freeblock = some img'' ∧ ∃ F, Built files img'' F := by
  obtain ⟨⟨F, hF⟩, -, hfb⟩ := h
  have hroot : iblock rootInodeNo < nmeta := iblock_lt (by decide)
  have hsize : (F rootInodeNo).numBytes.toNat = 16 * (files.length + 2) := (hF.size 1).trans (root_length files)
  set e : InodeEntry := { F rootInodeNo with
    numBytes := .ofNat ((16 * (files.length + 2) / blockSize + 1) * blockSize) } with he
  have hfix : fixRoot img = some (img.store rootInodeNo e) := by
    rw [fixRoot, rinode_eq hroot, Option.bind_some, hF.home _ hroot, winode_eq hroot, hsize]
  set img1 := img.store rootInodeNo e with himg1
  have hle : img.freeblock ≤ fsSize := hF.blank.le
  have hbits : balloc img1 img1.freeblock = some (img1.wsect superBlock.bitmapStart.toNat (ballocBuf img.freeblock)) :=
    if_pos (lt_of_le_of_lt hle (by decide))
  have hs0 : Sound base ∅ img.view (update F rootInodeNo e) := by
    have hsame : update F rootInodeNo (F rootInodeNo) = F := update_eq_self ..
    have hs : Sound base ∅ img.view (update F rootInodeNo (F rootInodeNo)) := hsame.symm ▸ hF.sound
    exact hs.retag rfl rfl
  obtain ⟨hs1, hfile1⟩ := hs0.set_base (show iblock rootInodeNo ∈ base from hroot)
    (putEntry rootInodeNo e (img.disk (iblock rootInodeNo)))
  have hbm : superBlock.bitmapStart.toNat ∈ base := show 91 < nmeta by decide
  obtain ⟨hs2, hfile2⟩ := hs1.set_base hbm (ballocBuf img.freeblock)
  -- the root entry differs in its size only
  have hfile : ∀ i, fileOf (img1.wsect superBlock.bitmapStart.toNat (ballocBuf img.freeblock)).disk
      (update F rootInodeNo e i) = fileOf img.disk (F i) := by
    intro i
    refine (hfile2 i).trans ((hfile1 i).trans ?_)
    by_cases hi : i = rootInodeNo
    · rw [hi, update_self]
      rfl
    · rw [update_of_ne hi]
      rfl
  refine ⟨img1, _, hfix, hbits, update F rootInodeNo e, hs2, ?_, ?_, ?_, ?_, ?_, ?_, ?_, hfb, hle⟩
  · change update img1.disk superBlock.bitmapStart.toNat (ballocBuf img.freeblock) superBlock.bitmapStart.toNat = _
    rw [update_self]
    rfl
  · intro i hi
    have hne : iblock i ≠ superBlock.bitmapStart.toNat := ne_of_lt hi
    change getEntry (update img1.disk superBlock.bitmapStart.toNat _ (iblock i)) i = _
    rw [update_of_ne hne]
    by_cases hir : i = rootInodeNo
    · rw [hir, update_self, himg1, getEntry_store_self]
    · rw [himg1, getEntry_store e hir, update_of_ne hir]
      exact hF.home i (lt_trans hi (by decide))
  · intro n hn
    have hn' : n < 65 := hn
    have h1 : n ≠ superBlock.bitmapStart.toNat := by
      change n ≠ 91
      omega
    have h2 : n ≠ iblock rootInodeNo := by
      change n ≠ 65
      omega
    change update (update img.disk (iblock rootInodeNo) _) superBlock.bitmapStart.toNat _ n = _
    rw [update_of_ne h1, update_of_ne h2]
    exact hF.front n hn
  · intro i
    by_cases hi : i = rootInodeNo
    · rw [hi, update_self]
      exact hF.type rootInodeNo
    · rw [update_of_ne hi]
      exact hF.type i
  · intro i hi
    rw [update_of_ne hi]
    exact hF.size i
  · rw [update_self]
    apply toNat_ofNat32
    simp only [blockSize]
    omega
  · intro i
    refine ⟨(hfile i).trans (hF.exact i).file, ?_⟩
    by_cases hi : i = rootInodeNo
    · rw [hi, update_self]
      exact (hF.exact rootInodeNo).indirect
    · rw [update_of_ne hi]
      exact (hF.exact i).indirect

theorem Fits.of_append {front back : List HostFile} (h : Fits (front ++ back)) : Fits front := by
  refine ⟨fun f hf => h.max f (List.mem_append_left _ hf), ?_⟩
  have hroom := h.room
  have hroot : blocksOf (16 * (front.length + 2)) ≤ blocksOf (16 * ((front ++ back).length + 2)) :=
    blocksOf_mono (by rw [List.length_append]; omega)
  simp only [need, List.map_append, List.sum_append] at hroom ⊢
  omega

/-- **The program.** With at most 214 files every inode has its entry in front of the data blocks. -/
theorem mkfs_spec {files : List HostFile} (hlen : files.length ≤ 214) :
    Yields (Fits files) (fun img => ∃ F, Built files img F) (mkfs files) := by
  obtain ⟨img1, img2, img3, h1, h2, h3, hadded⟩ := mkroot_spec
  rw [mkfs, h1, Option.bind_some]
  dsimp only
  rw [if_pos rfl, h2, Option.bind_some, h3, Option.bind_some]
  have hloop : Yields (Fits files) (Added files) (files.foldlM addFile img3) := by
    refine yields_foldlM Added hadded fun front f back img hsplit hfront => ?_
    have hfits : Fits files → Fits (front ++ [f]) := by
      intro hf
      rw [hsplit, ← List.singleton_append, ← List.append_assoc] at hf
      exact hf.of_append
    refine (addFile_spec hfront ?_).of_imp hfits
    rw [hsplit, List.length_append, List.length_cons] at hlen
    omega
  refine hloop.bind fun img h => ?_
  obtain ⟨img', img'', hfix, hbits, hbuilt⟩ := finish_spec h hlen
  rw [hfix, Option.bind_some, hbits]
  exact hbuilt

end OsKernel.User.Mkfs
