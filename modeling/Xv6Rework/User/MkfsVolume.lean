import Xv6Rework.User.Mkfs
import Xv6Rework.Fs.Lookup
import Xv6Rework.Fs.Names

/-!
# The volume that `mkfs` builds

While `mkfs` runs, the image is a volume whose free map has not been written yet: the
blocks before `freeblock` are in use, and those from there on are zeros.  `Imaged` says so,
and with it `freeblock++` is what `balloc` of the kernel does.  A round of `iappend` is
then a round of `writei`, and the results about those carry over.

`Stage` is what holds between the rounds of the loop over the input files.
-/

namespace Xv6Rework

open Function
open Prog hiding update update_apply
open Fs (IBLOCK)

theorem mkfsSb_sound : mkfsSb.Sound where
  size_le := le_rfl
  inode_lt i hi := by
    have hi : i < 200 := hi
    change i / 8 + 32 < 58
    omega
  bmap_lt := by decide

theorem dataStart_mkfsSb : mkfsSb.dataStart = nmeta := by decide

namespace Mkfs

/-- The program returns, with `Q`. -/
abbrev runs {α : Type} (x : MkfsM α) (Q : α → Mkfs → Prop) (m : Mkfs) : Prop :=
  wp x Q (fun _ _ => False) m

/-- What returns does not stop. -/
theorem wp_of_runs {α : Type} {x : MkfsM α} {Q : α → Mkfs → Prop} {m : Mkfs}
    {E : Stop → Mkfs → Prop} (h : runs x Q m) : wp x Q E m := h.mono (fun _ _ hQ => hQ)
    fun _ _ => False.elim

theorem bits_succ (n : Nat) : bits (n + 1) = setBit (bits n) n := by
  simp [bits, List.range_succ]

theorem bitSet_bits {n j : Nat} (h : n ≤ BPB) : bitSet (bits n) j = decide (j < n) := by
  induction n with
  | zero => simp [bits, bitSet]
  | succ n ih =>
    rw [bits_succ, bitSet_setBit (by omega), ih (by omega), ← Bool.decide_or, decide_eq_decide]
    omega

/-- How many blocks a file of `n` bytes takes. -/
def blocksOf (n : Nat) : Nat := (n + (BSIZE - 1)) / BSIZE + if NDIRECT * BSIZE < n then 1 else 0

/-- Store a sector that the image has. -/
def setSector (m : Mkfs) (b : Nat) (y : Block) : Mkfs :=
  { m with image := update m.image b y }

theorem setSector_image {m : Mkfs} {b b' : Nat} {y : Block} :
    (m.setSector b y).image b' = if b' = b then y else m.image b' := update_apply ..

/-- The image has the blocks and inodes of the volume; the one that is `stale` differs. -/
structure Imaged (m : Mkfs) (V : Volume) (stale : Option Nat) : Prop where
  sectors : m.sectors = FSSIZE
  low : nmeta ≤ m.freeblock
  high : m.freeblock ≤ FSSIZE
  super : m.image 1 = mkfsSb.store
  block : ∀ b, b ≠ mkfsSb.bmapstart → V.block b = m.image b
  bmap : V.block mkfsSb.bmapstart = bits m.freeblock
  zero : ∀ b, m.freeblock ≤ b → m.image b = Bytes.zero
  ino : ∀ i < NINODES, stale ≠ some i → Dinode.ofBlock (m.image (IBLOCK i mkfsSb))
    (i % IPB) = V.ino i
  fits : ∀ i, (V.ino i).Fits

section

variable {α : Type} {m m' : Mkfs} {V V' : Volume} {stale : Option Nat} {i q b n fbn off kind : Nat}
  {x : Dinode} {y : Block}

theorem iblock_lt (hi : i < NINODES) : IBLOCK i mkfsSb < mkfsSb.bmapstart :=
  mkfsSb_sound.inode_lt i hi

namespace Imaged

theorem used (h : Imaged m V stale) (hb : b < FSSIZE) :
    V.used mkfsSb b = decide (b < m.freeblock) := by
  have := h.high
  rw [Volume.used, mkfsSb_sound.bblock_eq hb, h.bmap, bitSet_bits
    (by simp only [FSSIZE, BPB, BSIZE] at *; omega), Nat.mod_eq_of_lt (mkfsSb_sound.bpb_lt hb)]

/-- `freeblock++` takes a free block. -/
theorem take (h : Imaged m V stale) (hroom : m.freeblock < FSSIZE) :
    Imaged { m with freeblock := m.freeblock + 1 } (V.take mkfsSb m.freeblock) stale := by
  have hne : m.freeblock ≠ mkfsSb.bmapstart := by
    have := h.low
    have : mkfsSb.bmapstart < nmeta := by decide
    omega
  refine ⟨h.sectors, ?_, hroom, h.super, fun b hb => ?_, ?_, fun b hb => ?_, h.ino, h.fits⟩
  · exact h.low.trans (Nat.le_succ _)
  · by_cases heq : b = m.freeblock
    · rw [heq, Volume.take_block_self]
      exact (h.zero _ le_rfl).symm
    · rw [Volume.take_block heq hb]
      exact h.block b hb
  · rw [Volume.take, Volume.setBlock_block, if_neg hne.symm, Volume.setBlock_block,
      if_pos rfl, h.bmap, bits_succ]
  · exact h.zero b ((Nat.le_succ _).trans hb)

theorem free (h : Imaged m V stale) (hroom : m.freeblock < FSSIZE) :
    mkfsSb.Data m.freeblock ∧ V.used mkfsSb m.freeblock = false := by
  refine ⟨⟨?_, hroom⟩, ?_⟩
  · rw [dataStart_mkfsSb]
    exact h.low
  · rw [h.used hroom, decide_eq_false (lt_irrefl _)]

/-- The inode in memory changes. -/
theorem setIno (h : Imaged m V stale) (hstale : stale = none ∨ stale = some i) (hx : x.Fits) :
    Imaged m (V.setIno i x) (some i) := by
  refine ⟨h.sectors, h.low, h.high, h.super, h.block, h.bmap, h.zero, fun i' hi' hne => ?_,
    fun i' => ?_⟩
  · have hne : i' ≠ i := fun e => hne (congrArg some e.symm)
    rw [Volume.setIno_ino, if_neg hne]
    refine h.ino i' hi' ?_
    rcases hstale with rfl | rfl
    · exact (by rintro ⟨⟩)
    · exact fun e => hne (Option.some.inj e).symm
  · rw [Volume.setIno_ino]
    split
    · exact hx
    · exact h.fits i'

theorem weaken (h : Imaged m V stale) (hstale : stale = none ∨ stale = some i) :
    Imaged m V (some i) := by
  have := h.setIno hstale (h.fits i)
  simpa only [Volume.setIno, update_eq_self] using this

/-- A data block is written. -/
theorem setBlock (h : Imaged m V stale) (hb : mkfsSb.Data b) (hlt : b < m.freeblock) :
    Imaged (m.setSector b y) (V.setBlock b y) stale := by
  have hlow : mkfsSb.bmapstart < b := mkfsSb_sound.bmap_lt.trans_le hb.1
  have hone : 1 < mkfsSb.bmapstart := by decide
  refine ⟨h.sectors, h.low, h.high, ?_, fun b' hb' => ?_, ?_, fun b' hb' => ?_,
    fun i hi hne => ?_, h.fits⟩
  · rw [setSector_image, if_neg (by omega), h.super]
  · rw [Volume.setBlock_block, setSector_image, h.block b' hb']
  · rw [Volume.setBlock_block, if_neg hlow.ne]
    exact h.bmap
  · have hb' : m.freeblock ≤ b' := hb'
    rw [setSector_image, if_neg (by omega), h.zero b' hb']
  · have := iblock_lt hi
    rw [setSector_image, if_neg (by omega)]
    exact h.ino i hi hne

/-- An inode is written to its block. -/
theorem winode (h : Imaged m V stale) (hstale : stale = none ∨ stale = some i) (hi : i < NINODES)
    (hx : x.Fits) : Imaged
      (m.setSector (IBLOCK i mkfsSb) (x.store (i % IPB) (m.image (IBLOCK i mkfsSb))))
      ((V.setBlock (IBLOCK i mkfsSb) (x.store (i % IPB) (m.image (IBLOCK i mkfsSb)))).setIno i x)
      none := by
  have hlt := iblock_lt hi
  have hone : 1 < IBLOCK i mkfsSb := Nat.lt_of_lt_of_le (by decide)
    (Nat.le_add_left mkfsSb.inodestart _)
  have hmeta : mkfsSb.bmapstart < nmeta := by decide
  have hlow := h.low
  refine ⟨h.sectors, h.low, h.high, ?_, fun b hb => ?_, ?_, fun b hb => ?_, fun i' hi' _ => ?_,
    fun i' => ?_⟩
  · rw [setSector_image, if_neg (by omega), h.super]
  · rw [Volume.setIno_block, Volume.setBlock_block, setSector_image, h.block b hb]
  · rw [Volume.setIno_block, Volume.setBlock_block, if_neg hlt.ne']
    exact h.bmap
  · have hb : m.freeblock ≤ b := hb
    rw [setSector_image, if_neg (by omega), h.zero b hb]
  · rw [Volume.setIno_ino]
    by_cases heq : i' = i
    · subst heq
      rw [if_pos rfl, setSector_image, if_pos rfl]
      exact Dinode.ofBlock_store hx (Nat.mod_lt _ (by decide))
    · rw [if_neg heq, setSector_image, Dinode.ofBlock_store_other heq]
      refine h.ino i' hi' ?_
      rcases hstale with rfl | rfl
      · exact (by rintro ⟨⟩)
      · exact fun e => heq (Option.some.inj e).symm
  · rw [Volume.setIno_ino]
    split
    · exact hx
    · exact h.fits i'

end Imaged

/-! ## Sectors and inodes -/

theorem runs_rsect {Q : Block → Mkfs → Prop} (h : Imaged m V stale) (hb : b < FSSIZE)
    (ok : Q (m.image b) m) : runs (rsect b) Q m := by
  simp only [rsect, wp_bind, wp_gets, wp_ite, wp_halt, h.sectors, hb, not_true_eq_false,
    false_implies, and_true, true_implies]
  exact ok

theorem runs_wsect {Q : Unit → Mkfs → Prop} (h : Imaged m V stale) (hb : b < FSSIZE)
    (ok : Q () (m.setSector b y)) : runs (wsect b y) Q m := by
  have hmax : max m.sectors (b + 1) = m.sectors := by
    rw [h.sectors]
    exact max_eq_left hb
  simp only [wsect, wp_update, hmax]
  exact ok

theorem runs_rinode {Q : Dinode → Mkfs → Prop} (h : Imaged m V none) (hi : i < NINODES)
    (ok : Q (V.ino i) m) : runs (rinode i) Q m := by
  simp only [rinode, wp_bind, wp_pure]
  refine runs_rsect h ((iblock_lt hi).trans mkfsSb_sound.bmap_fssize) ?_
  rwa [h.ino i hi (by rintro ⟨⟩)]

theorem runs_winode {Q : Unit → Mkfs → Prop} (h : Imaged m V stale) (hi : i < NINODES)
    (ok : Q () (m.setSector (IBLOCK i mkfsSb) (x.store (i % IPB) (m.image (IBLOCK i mkfsSb))))) :
    runs (winode i x) Q m := by
  have hlt := (iblock_lt hi).trans mkfsSb_sound.bmap_fssize
  simp only [winode, wp_bind]
  exact runs_rsect h hlt (runs_wsect h hlt ok)

/-- What storing an inode leaves that has the pointers it had. -/
structure Stored (m m' : Mkfs) (V V' : Volume) (i : Nat) (x : Dinode) : Prop where
  imaged : Imaged m' V' none
  intact : V'.Intact mkfsSb
  ino : V'.ino = update V.ino i x
  file : V'.file mkfsSb = V.file mkfsSb
  freeblock : m'.freeblock = m.freeblock
  freeinode : m'.freeinode = m.freeinode

theorem runs_winode_stored {Q : Unit → Mkfs → Prop} (h : Imaged m V stale)
    (hstale : stale = none ∨ stale = some i) (hI : V.Intact mkfsSb) (hi : i < NINODES) (hx : x.Fits)
    (hsame : (x.type ≠ 0 ↔ (V.ino i).type ≠ 0) ∧ x.addrs = (V.ino i).addrs ∨
      (V.ino i).type = 0 ∧ ∀ q, x.addrs q = 0)
    (ok : ∀ m' V', Stored m m' V V' i x → Q () m') : runs (winode i x) Q m := by
  refine runs_winode h hi ?_
  obtain ⟨hI1, -, hfile1⟩ := hI.setBlock_low mkfsSb_sound (iblock_lt hi)
    (d := x.store (i % IPB) (m.image (IBLOCK i mkfsSb)))
  have himaged := h.winode hstale hi hx
  generalize hV1 : V.setBlock (IBLOCK i mkfsSb) (x.store (i % IPB) (m.image (IBLOCK i mkfsSb))) = V1
    at himaged hI1 hfile1
  have hino1 : V1.ino = V.ino := by rw [← hV1, Volume.setBlock_ino]
  have hptr : (V1.setIno i x).ptr mkfsSb = V1.ptr mkfsSb := by
    rcases hsame with ⟨htype, haddrs⟩ | ⟨hfree, haddrs⟩
    · exact Volume.ptr_setIno_same (by rw [hino1, htype]) (by rw [hino1, haddrs])
    · exact Volume.ptr_setIno_fresh (by rw [hino1, hfree]) haddrs
  obtain ⟨hI2, hfile2⟩ := hI1.setIno hptr
  exact ok _ _ ⟨himaged, hI2, by rw [Volume.setIno, hino1], by rw [hfile2, hfile1], rfl, rfl⟩

theorem Stored.self (h : Stored m m' V V' i x) : V'.ino i = x := by rw [h.ino, update_self]

theorem Stored.other {i' : Nat} (h : Stored m m' V V' i x) (hi : i' ≠ i) :
    V'.ino i' = V.ino i' ∧ V'.file mkfsSb i' = V.file mkfsSb i' :=
  ⟨by rw [h.ino, update_of_ne hi], by rw [h.file]⟩

/-! ## A block of a file -/

/-- How many blocks the `fbn`-th block of a file takes that are not there yet. -/
def cost (V : Volume) (i fbn : Nat) : Nat :=
  (if V.file mkfsSb i fbn = none then 1 else 0) +
    if NDIRECT ≤ fbn ∧ (V.ino i).addrs NDIRECT = 0 then 1 else 0

theorem runs_nextBlock {Q : Nat → Mkfs → Prop}
    (ok : Q m.freeblock { m with freeblock := m.freeblock + 1 }) : runs nextBlock Q m := ok

/-- A pointer in the inode that is set. -/
theorem runs_appendAddr_mapped {Q : Dinode → Mkfs → Prop} (hq : x.addrs q ≠ 0) (ok : Q x m) :
    runs (appendAddr x q) Q m := by
  simp only [appendAddr, wp_ite, wp_pure, hq, false_implies, true_and, not_false_eq_true,
    true_implies]
  exact ok

/-- A pointer in the inode that is not. -/
theorem runs_appendAddr_alloc {Q : Dinode → Mkfs → Prop} (h : Imaged m V stale)
    (hstale : stale = none ∨ stale = some i) (hroom : m.freeblock < FSSIZE) (hle : q ≤ NDIRECT)
    (hq : (V.ino i).addrs q = 0)
    (ok : Imaged { m with freeblock := m.freeblock + 1 } ((V.take mkfsSb m.freeblock).setIno i
      ((V.ino i).setAddr q m.freeblock)) (some i) →
      Q ((V.ino i).setAddr q m.freeblock) { m with freeblock := m.freeblock + 1 }) :
    runs (appendAddr (V.ino i) q) Q m := by
  simp only [appendAddr, wp_ite, wp_bind, wp_pure, hq, true_implies, not_true_eq_false,
    false_implies, and_true]
  refine runs_nextBlock (ok ((h.take hroom).setIno hstale ((h.fits i).setAddr (.inl hle) ?_)))
  exact hroom.trans (by decide)

/-- What `appendBlock` leaves: the file has the block, and as many blocks have been taken
as that needed. -/
structure Appends (m m' : Mkfs) (V V' : Volume) (i fbn b : Nat) : Prop where
  imaged : Imaged m' V' (some i)
  has : Volume.Has mkfsSb V V' i fbn b
  freeblock : m'.freeblock = m.freeblock + cost V i fbn
  freeinode : m'.freeinode = m.freeinode
  indirect : (V'.ino i).addrs NDIRECT ≠ 0 ↔ (V.ino i).addrs NDIRECT ≠ 0 ∨ NDIRECT ≤ fbn

/-- The indirect block is in the image. -/
theorem Imaged.ptr_indirect {j : Nat} (h : Imaged m V stale) (hI : V.Intact mkfsSb)
    (hlive : V.Live mkfsSb i) (hj : j < NINDIRECT) (hind : (V.ino i).addrs NDIRECT ≠ 0) :
    V.ptr mkfsSb (i, place (NDIRECT + j)) =
      (m.image ((V.ino i).addrs NDIRECT)).getLE (4 * j) 4 := by
  have hpind := Volume.ptr_indirect hlive
  have hmem := hI.owned.mem (i, NDIRECT) (hpind ▸ hind)
  rw [hpind] at hmem
  have hmax : NDIRECT + 1 + j ≤ MAXFILE := by
    have : MAXFILE = NDIRECT + NINDIRECT := rfl
    omega
  rw [place_indirect, Volume.ptr_of_live hlive hmax, Dinode.addrAt_indirect hind,
    h.block _ (mkfsSb_sound.ne_bmap hmem.1)]

/-- An entry of the indirect block, which is set if it is null. -/
theorem runs_appendIndirect {Q : Dinode × Nat → Mkfs → Prop} {j : Nat} (h : Imaged m V stale)
    (hstale : stale = none ∨ stale = some i) (hI : V.Intact mkfsSb) (hlive : V.Live mkfsSb i)
    (hj : j < NINDIRECT) (hind : (V.ino i).addrs NDIRECT ≠ 0)
    (hroom : m.freeblock + cost V i (NDIRECT + j) ≤ FSSIZE)
    (ok : ∀ m' V' b, Appends m m' V V' i (NDIRECT + j) b → Q (V'.ino i, b) m') :
    runs (appendIndirect (V.ino i) j) Q m := by
  have hpind := Volume.ptr_indirect hlive
  have hmem := hI.owned.mem (i, NDIRECT) (hpind ▸ hind)
  rw [hpind] at hmem
  obtain ⟨hdata, hused⟩ := hmem
  have hlt : (V.ino i).addrs NDIRECT < m.freeblock := by
    rw [h.used hdata.2] at hused
    exact of_decide_eq_true hused
  have himage := h.block _ (mkfsSb_sound.ne_bmap hdata)
  have hptr := h.ptr_indirect hI hlive hj hind
  simp only [appendIndirect, wp_bind]
  refine runs_rsect h hdata.2 ?_
  simp only [wp_ite, wp_bind, wp_pure]
  refine ⟨fun hzero => ?_, fun hne => ?_⟩
  · have hnone : V.file mkfsSb i (NDIRECT + j) = none := if_pos (hptr.trans hzero)
    have hcost : cost V i (NDIRECT + j) = 1 := by simp [cost, hnone, hind]
    have hfree : m.freeblock < FSSIZE := by omega
    obtain ⟨hb, hunused⟩ := h.free hfree
    have hmaps := hI.maps_indirect mkfsSb_sound hlive hj hind (by rw [himage, hzero]) hb hunused
    rw [himage] at hmaps
    have himaged := ((h.take hfree).setBlock (y := (m.image ((V.ino i).addrs NDIRECT)).setLE
      (4 * j) 4 m.freeblock) hdata (hlt.trans (Nat.lt_succ_self _))).weaken hstale
    have hres := ok _ _ _ ⟨himaged, hmaps.has hnone, by rw [hcost]; rfl, rfl,
      iff_of_true hind (.inl hind)⟩
    exact runs_nextBlock (runs_wsect (h.take hfree) hdata.2 hres)
  · have hp : V.ptr mkfsSb (i, place (NDIRECT + j)) ≠ 0 := by rwa [hptr]
    have hcost : cost V i (NDIRECT + j) = 0 := by simp [cost, Volume.file, hp, hind]
    rw [← hptr]
    refine ok m V _ ⟨h.weaken hstale, hI.has hp, by rw [hcost]; rfl, rfl, ?_⟩
    exact iff_of_true hind (.inl hind)

/-- The first part of a round of `iappend`. -/
theorem runs_appendBlock {Q : Dinode × Nat → Mkfs → Prop} (h : Imaged m V stale)
    (hstale : stale = none ∨ stale = some i) (hI : V.Intact mkfsSb) (hlive : V.Live mkfsSb i)
    (hfbn : fbn < MAXFILE) (hroom : m.freeblock + cost V i fbn ≤ FSSIZE)
    (ok : ∀ m' V' b, Appends m m' V V' i fbn b → Q (V'.ino i, b) m') :
    runs (appendBlock (V.ino i) fbn) Q m := by
  have hmax : MAXFILE = NDIRECT + NINDIRECT := rfl
  simp only [appendBlock, wp_ite, wp_bind]
  refine ⟨fun hdirect => ?_, fun hdirect => ?_⟩
  · have hptr : V.ptr mkfsSb (i, place fbn) = (V.ino i).addrs fbn := by
      rw [place_direct hdirect, Volume.ptr_of_live hlive (by omega),
        Dinode.addrAt_direct hdirect.le]
    by_cases hq : (V.ino i).addrs fbn = 0
    · have hnone : V.file mkfsSb i fbn = none := if_pos (hptr.trans hq)
      have hcost : cost V i fbn = 1 := by simp [cost, hnone, Nat.not_le.2 hdirect]
      have hfree : m.freeblock < FSSIZE := by omega
      obtain ⟨hb, hunused⟩ := h.free hfree
      refine runs_appendAddr_alloc h hstale hfree hdirect.le hq fun h' => ?_
      have hmaps := hI.maps_direct mkfsSb_sound hlive hdirect hq hb hunused
      have hself : ((V.take mkfsSb m.freeblock).setIno i ((V.ino i).setAddr fbn m.freeblock)).ino
          i = (V.ino i).setAddr fbn m.freeblock := by rw [Volume.setIno_ino, if_pos rfl]
      have hres := ok _ _ _ ⟨h', hmaps.has hnone, by rw [hcost], rfl, ?_⟩
      · rw [hself] at hres
        rwa [Dinode.setAddr_addrs, if_pos rfl]
      · rw [hself, Dinode.setAddr_addrs, if_neg (by omega)]
        exact ⟨.inl, fun hor => hor.resolve_right (by omega)⟩
    · refine runs_appendAddr_mapped hq ?_
      have hp : V.ptr mkfsSb (i, place fbn) ≠ 0 := by rwa [hptr]
      have hcost : cost V i fbn = 0 := by simp [cost, Volume.file, hp, Nat.not_le.2 hdirect]
      rw [← hptr]
      refine ok m V _ ⟨h.weaken hstale, hI.has hp, by rw [hcost]; rfl, rfl, ?_⟩
      exact ⟨.inl, fun hor => hor.resolve_right (by omega)⟩
  · obtain ⟨j, rfl⟩ : ∃ j, fbn = NDIRECT + j := ⟨fbn - NDIRECT, by omega⟩
    simp only [Nat.add_sub_cancel_left]
    by_cases hind : (V.ino i).addrs NDIRECT = 0
    · -- the indirect block comes first
      have hnone : V.file mkfsSb i (NDIRECT + j) = none := by
        refine if_pos ?_
        rw [place_indirect, Volume.ptr_of_live hlive (by omega), Dinode.addrAt_zero hind (by omega)]
      have hcost : cost V i (NDIRECT + j) = 2 := by simp [cost, hnone, hind]
      have hfree : m.freeblock < FSSIZE := by omega
      obtain ⟨hb, hunused⟩ := h.free hfree
      refine runs_appendAddr_alloc h hstale hfree le_rfl hind fun h1 => ?_
      have hV1 := hI.indirected mkfsSb_sound hlive hind hb hunused
      have hself := hV1.self
      generalize (V.take mkfsSb m.freeblock).setIno i ((V.ino i).setAddr NDIRECT m.freeblock) =
        V1 at h1 hV1 hself
      have hind1 : (V1.ino i).addrs NDIRECT ≠ 0 := by
        rw [hV1.addr]
        exact mkfsSb_sound.data_ne_zero hb
      have hcost1 : cost V1 i (NDIRECT + j) = 1 := by simp [cost, hV1.file, hnone, hind1]
      rw [← hself]
      refine runs_appendIndirect h1 (.inr rfl) hV1.intact hV1.live (by omega) hind1 ?_
        fun m' V' b hm => ?_
      · rw [hcost1]
        change m.freeblock + 1 + 1 ≤ FSSIZE
        omega
      · refine ok m' V' b ⟨hm.imaged, hV1.has hm.has, ?_, hm.freeinode, ?_⟩
        · rw [hm.freeblock, hcost1, hcost]
        · exact iff_of_true (hm.indirect.2 (.inl hind1)) (.inr (Nat.le_add_right _ _))
    · refine runs_appendAddr_mapped hind ?_
      exact runs_appendIndirect h hstale hI hlive (by omega) hind hroom ok

/-- Without room for it, `appendBlock` stops, or the block is behind the end of the image. -/
theorem wp_appendBlock_full (h : Imaged m V stale) (hI : V.Intact mkfsSb) (hlive : V.Live mkfsSb i)
    (hfbn : fbn < MAXFILE) (hfull : FSSIZE < m.freeblock + cost V i fbn) :
    wp (appendBlock (V.ino i) fbn) (fun r m' => m'.sectors ≤ r.2) (fun _ _ => True) m := by
  have hmax : MAXFILE = NDIRECT + NINDIRECT := rfl
  have hhigh := h.high
  have hsectors := h.sectors
  simp only [appendBlock, appendAddr, nextBlock, appendIndirect, rsect, wsect, wp_ite, wp_bind,
    wp_gets, wp_update, wp_pure, wp_halt]
  refine ⟨fun hdirect => ⟨fun hq => ?_, fun hq => ?_⟩, fun hdirect => ?_⟩
  · have hcost : cost V i fbn ≤ 1 := by
      simp only [cost, if_neg (show ¬(NDIRECT ≤ fbn ∧ _) from fun hn => hdirect.not_ge hn.1)]
      split <;> omega
    rw [Dinode.setAddr_addrs, if_pos rfl]
    show m.sectors ≤ m.freeblock
    omega
  · have hcost : cost V i fbn = 0 := by
      have hp : V.ptr mkfsSb (i, place fbn) ≠ 0 := by
        rwa [place_direct hdirect, Volume.ptr_of_live hlive (by omega),
          Dinode.addrAt_direct hdirect.le]
      simp [cost, Volume.file, hp, Nat.not_le.2 hdirect]
    omega
  obtain ⟨j, rfl⟩ : ∃ j, fbn = NDIRECT + j := ⟨fbn - NDIRECT, by omega⟩
  refine ⟨fun hind => ?_, fun hind => ⟨fun hlt => ⟨fun hzero => ?_, fun hne => ?_⟩,
    fun _ => trivial⟩⟩
  · -- the indirect block is the last one there is, and empty
    rw [Dinode.setAddr_addrs, if_pos rfl]
    refine ⟨fun hlt => ?_, fun _ => trivial⟩
    have hcost : cost V i (NDIRECT + j) ≤ 2 := by
      simp only [cost]
      split <;> split <;> omega
    have hfree : m.freeblock + 1 = FSSIZE := by
      have hlt : m.freeblock < m.sectors := hlt
      omega
    show (_ → _) ∧ (¬_ → _)
    rw [h.zero _ le_rfl, Bytes.getLE_zero]
    refine ⟨fun _ => ?_, fun hne => absurd rfl hne⟩
    show max m.sectors (m.freeblock + 1) ≤ m.freeblock + 1
    omega
  · have hcost : cost V i (NDIRECT + j) ≤ 1 := by
      simp only [cost, if_neg (show ¬(_ ∧ (V.ino i).addrs NDIRECT = 0) from fun hn => hind hn.2)]
      split <;> omega
    show max m.sectors ((V.ino i).addrs NDIRECT + 1) ≤ m.freeblock
    omega
  · have hcost : cost V i (NDIRECT + j) = 0 := by
      rw [Nat.add_sub_cancel_left, ← h.ptr_indirect hI hlive (by omega) hind] at hne
      simp [cost, Volume.file, hne, hind]
    omega

/-! ## Appending -/

/-- A file has the blocks of its first `n` bytes and no others. -/
structure Sized (V : Volume) (i n : Nat) : Prop where
  file : ∀ bn, V.file mkfsSb i bn ≠ none ↔ bn * BSIZE < n
  indirect : (V.ino i).addrs NDIRECT ≠ 0 ↔ NDIRECT * BSIZE < n

/-- What a round costs is what the file takes more after it. -/
theorem Sized.cost_eq (h : Sized V i off) (hpos : 0 < n) (hn : off % BSIZE + n ≤ BSIZE) :
    cost V i (off / BSIZE) + blocksOf off = blocksOf (off + n) := by
  have hfile : V.file mkfsSb i (off / BSIZE) = none ↔ ¬off / BSIZE * BSIZE < off := by
    rw [← h.file, not_not]
  have hind : (V.ino i).addrs NDIRECT = 0 ↔ ¬NDIRECT * BSIZE < off := by rw [← h.indirect, not_not]
  simp only [cost, blocksOf, hfile, hind]
  split_ifs <;> simp only [BSIZE, NDIRECT] at * <;> omega

/-- The blocks after a round. -/
theorem Sized.written {p : Nat → UInt8} (h : Sized V i off)
    (hw : Volume.Written mkfsSb V V' i off n p)
    (hind : (V'.ino i).addrs NDIRECT ≠ 0 ↔ (V.ino i).addrs NDIRECT ≠ 0 ∨ NDIRECT ≤ off / BSIZE)
    (hpos : 0 < n) (hn : off % BSIZE + n ≤ BSIZE) : Sized V' i (off + n) := by
  refine ⟨fun bn => ?_, ?_⟩
  · rw [hw.mapped, h.file]
    refine ⟨?_, fun hlt => ?_⟩
    · rintro (hlt | ⟨o, h1, h2, rfl⟩)
      · omega
      · have := Nat.div_mul_le_self o BSIZE
        omega
    · by_cases hold : bn * BSIZE < off
      · exact .inl hold
      · refine .inr ⟨bn * BSIZE, by omega, hlt, Nat.mul_div_cancel _ (by decide)⟩
  · rw [hind, h.indirect]
    simp only [BSIZE, NDIRECT] at *
    omega

/-- The blocks that a file has are those that an inode can have. -/
theorem Sized.le (h : Sized V i n) : n ≤ MAXFILE * BSIZE := by
  by_contra hlt
  refine (h.file MAXFILE).2 (not_le.1 hlt) (if_pos (if_neg fun hmax => ?_))
  exact absurd hmax.2 (show ¬place MAXFILE ≤ MAXFILE by decide)

/-- There is room for `n` bytes more at the end of a file of `off` bytes. -/
def Room (m : Mkfs) (off n : Nat) : Prop :=
  off + n ≤ MAXFILE * BSIZE ∧ m.freeblock + blocksOf (off + n) ≤ FSSIZE + blocksOf off

theorem blocksOf_mono {n n' : Nat} (h : n ≤ n') : blocksOf n ≤ blocksOf n' := by
  unfold blocksOf
  have : (n + (BSIZE - 1)) / BSIZE ≤ (n' + (BSIZE - 1)) / BSIZE := Nat.div_le_div_right (by omega)
  split_ifs <;> omega

/-- The loop of `iappend` ends if there is room. -/
theorem wp_appendLoop {Q : Dinode × Nat → Mkfs → Prop} {k : Nat} {p : Nat → UInt8}
    (h : Imaged m V stale) (hstale : stale = none ∨ stale = some i) (hI : V.Intact mkfsSb)
    (hlive : V.Live mkfsSb i) (hsized : Sized V i off) (hk : n ≤ k)
    (ok : ∀ m' V', Imaged m' V' (some i) → Volume.Written mkfsSb V V' i off n p →
      Sized V' i (off + n) → m'.freeblock + blocksOf off = m.freeblock + blocksOf (off + n) →
      m'.freeinode = m.freeinode → Q (V'.ino i, off + n) m') :
    wp (appendLoop k (V.ino i) p off n) Q (fun _ _ => ¬Room m off n) m := by
  induction k generalizing m V stale p off n with
  | zero =>
    obtain rfl : n = 0 := by omega
    exact ok m V (h.weaken hstale) (.refl hI) hsized rfl rfl
  | succ k ih =>
    simp only [appendLoop, wp_ite, wp_pure, wp_bind, wp_halt]
    refine ⟨?_, fun hn => ⟨fun hge hroom => ?_, fun hlt => ?_⟩⟩
    · rintro rfl
      exact ok m V (h.weaken hstale) (.refl hI) hsized rfl rfl
    · have := hroom.1
      simp only [MAXFILE, NDIRECT, NINDIRECT, BSIZE] at *
      omega
    have hn1 : min n ((off / BSIZE + 1) * BSIZE - off) = min n (BSIZE - off % BSIZE) := by
      simp only [BSIZE]
      omega
    have hoff : off - off / BSIZE * BSIZE = off % BSIZE := by
      simp only [BSIZE]
      omega
    have hmod : off % BSIZE < BSIZE := Nat.mod_lt _ (by decide)
    rw [hn1, hoff]
    generalize hn2 : min n (BSIZE - off % BSIZE) = n1
    have hcost := hsized.cost_eq (n := n1) (by omega) (by omega)
    have hmono : blocksOf (off + n1) ≤ blocksOf (off + n) := blocksOf_mono (by omega)
    by_cases hfull : FSSIZE < m.freeblock + cost V i (off / BSIZE)
    · have hno : ¬Room m off n := fun hroom => by
        have := hroom.2
        omega
      refine (wp_appendBlock_full h hI hlive (Nat.not_le.1 hlt) hfull).mono (fun r m' hle => ?_)
        fun _ _ _ => hno
      simp only [rsect, wp_bind, wp_gets, wp_ite, wp_halt]
      exact ⟨fun hr => absurd hle (not_le.2 hr), fun _ => hno⟩
    refine wp_of_runs (runs_appendBlock h hstale hI hlive (Nat.not_le.1 hlt) (not_lt.1 hfull)
      fun m1 V1 b h1 => ?_)
    have hp : V1.ptr mkfsSb (i, place (off / BSIZE)) ≠ 0 := by
      rw [h1.has.ptr]
      exact h1.has.pos
    obtain ⟨hdata, hused⟩ := h1.has.intact.owned.mem _ hp
    rw [h1.has.ptr] at hdata hused
    have hblock := h1.imaged.block b (mkfsSb_sound.ne_bmap hdata)
    have hbelow : b < m1.freeblock := by
      rw [h1.imaged.used hdata.2] at hused
      exact of_decide_eq_true hused
    refine wp_of_runs (runs_rsect h1.imaged hdata.2 (wp_of_runs (runs_wsect h1.imaged hdata.2 ?_)))
    dsimp only
    rw [← hblock]
    have hw : Volume.Written mkfsSb V _ i off n1 p :=
      h1.has.written mkfsSb_sound (by omega) (by omega)
    have himaged := h1.imaged.setBlock (y := (V1.block b).blit (off % BSIZE) n1 p) hdata hbelow
    generalize hV2 : V1.setBlock b ((V1.block b).blit (off % BSIZE) n1 p) = V2 at hw himaged
    have hino : V1.ino i = V2.ino i := by rw [← hV2, Volume.setBlock_ino]
    have hlive2 : V2.Live mkfsSb i := by
      obtain ⟨a, ha⟩ := hw.self
      exact ⟨hlive.1, by rw [ha]; exact hlive.2⟩
    have hsized2 := hsized.written hw (by rw [← hino]; exact h1.indirect) (by omega) (by omega)
    have hfree : (m1.setSector b ((V1.block b).blit (off % BSIZE) n1 p)).freeblock =
        m.freeblock + cost V i (off / BSIZE) := h1.freeblock
    rw [hino]
    have hsum : off + n1 + (n - n1) = off + n := by omega
    refine (ih himaged (.inr rfl) hw.intact hlive2 hsized2 (by omega)
      fun m3 V3 h3 hw3 hsized3 hfree3 hinode3 => ?_).mono (fun _ _ hQ => hQ)
      fun _ _ hno hroom => hno ?_
    · rw [hsum] at hsized3 hfree3 ⊢
      exact ok m3 V3 h3 (hw.append hw3 (by omega)) hsized3 (by omega) (hinode3.trans h1.freeinode)
    · -- what is left for the other rounds
      have := hroom.2
      exact ⟨hsum ▸ hroom.1, by rw [hsum]; omega⟩

/-- A file of the volume, of a type and with these contents. -/
structure Holds (V : Volume) (i kind : Nat) (l : List UInt8) : Prop where
  lt : i < NINODES
  type : (V.ino i).type = kind
  live : kind ≠ 0
  linked : (V.ino i).nlink ≠ 0
  size : (V.ino i).size = l.length
  sized : Sized V i l.length
  byte : ∀ o < l.length, V.byte mkfsSb i o = cstr l o

theorem Holds.congr {l : List UInt8} (h : Holds V i kind l)
    (hV : V'.ino i = V.ino i ∧ V'.file mkfsSb i = V.file mkfsSb i) : Holds V' i kind l := by
  obtain ⟨hino, hfile⟩ := hV
  refine ⟨h.lt, by rw [hino, h.type], h.live, by rw [hino]; exact h.linked, by rw [hino, h.size],
    ⟨?_, ?_⟩, fun o ho => ?_⟩
  · rw [hfile]
    exact h.sized.file
  · rw [hino]
    exact h.sized.indirect
  · rw [← h.byte o ho, Volume.byte, Volume.byte, hfile]

/-- Bytes are appended to a file, and the others stay as they are. -/
structure Grown (m m' : Mkfs) (V V' : Volume) (i kind : Nat) (l l' : List UInt8) : Prop where
  imaged : Imaged m' V' none
  intact : V'.Intact mkfsSb
  holds : Holds V' i kind l'
  other : ∀ i', i' ≠ i → V'.ino i' = V.ino i' ∧ V'.file mkfsSb i' = V.file mkfsSb i'
  freeblock : m'.freeblock + blocksOf l.length = m.freeblock + blocksOf l'.length
  freeinode : m'.freeinode = m.freeinode

/-- `iappend` ends if there is room. -/
theorem wp_iappend {Q : Unit → Mkfs → Prop} {l xp : List UInt8} (h : Imaged m V none)
    (hI : V.Intact mkfsSb) (hV : Holds V i kind l)
    (ok : ∀ m' V', Grown m m' V V' i kind l (l ++ xp) → Q () m') :
    wp (iappend i xp) Q (fun _ _ => ¬Room m l.length xp.length) m := by
  have hlive : V.Live mkfsSb i := ⟨hV.lt, by rw [hV.type]; exact hV.live⟩
  simp only [iappend, wp_bind]
  refine wp_of_runs (runs_rinode h hV.lt ?_)
  rw [hV.size]
  refine wp_appendLoop h (.inl rfl) hI hlive hV.sized le_rfl
    fun m1 V1 h1 hw hsized hfree hinode => ?_
  obtain ⟨a, ha⟩ := hw.self
  have hfits : ({ V1.ino i with size := l.length + xp.length } : Dinode).Fits := by
    have hfit := h1.fits i
    refine ⟨hfit.type, hfit.major, hfit.minor, hfit.nlink, ?_, hfit.addrs, hfit.beyond⟩
    exact hsized.le.trans_lt (by decide)
  refine wp_of_runs (runs_winode_stored h1 (.inr rfl) hw.intact hV.lt hfits (.inl ⟨Iff.rfl, rfl⟩)
    fun m2 V2 h2 => ?_)
  have hself := h2.self
  have hlen : (l ++ xp).length = l.length + xp.length := List.length_append
  refine ok _ _ ⟨h2.imaged, h2.intact, ⟨hV.lt, ?_, hV.live, ?_, ?_, ⟨?_, ?_⟩, fun o ho => ?_⟩,
    fun i' hi => ⟨?_, ?_⟩, ?_, ?_⟩
  · rw [hself, ha]
    exact hV.type
  · rw [hself, ha]
    exact hV.linked
  · rw [hself, hlen]
  · rw [h2.file, hlen]
    exact hsized.file
  · rw [hself, hlen]
    exact hsized.indirect
  · rw [Volume.byte, h2.file, ← Volume.byte, hw.byte]
    split
    · next hin => rw [cstr, cstr, List.getD_append_right _ _ _ _ hin.1]
    · next hout =>
      have hlt : o < l.length := by omega
      rw [hV.byte o hlt, cstr, cstr, List.getD_append _ _ _ _ hlt]
  · rw [(h2.other hi).1, (hw.other i' hi).1]
  · rw [(h2.other hi).2, (hw.other i' hi).2]
  · rw [hlen, h2.freeblock]
    exact hfree
  · exact h2.freeinode.trans hinode

theorem runs_iappend {Q : Unit → Mkfs → Prop} {l xp : List UInt8} (h : Imaged m V none)
    (hI : V.Intact mkfsSb) (hV : Holds V i kind l) (hroom : Room m l.length xp.length)
    (ok : ∀ m' V', Grown m m' V V' i kind l (l ++ xp) → Q () m') : runs (iappend i xp) Q m :=
  (wp_iappend h hI hV ok).mono (fun _ _ hQ => hQ) fun _ _ hno => hno hroom

theorem Grown.refl {l : List UInt8} (h : Imaged m V none) (hI : V.Intact mkfsSb)
    (hV : Holds V i kind l) : Grown m m V V i kind l l :=
    ⟨h, hI, hV, fun _ _ => ⟨rfl, rfl⟩, rfl, rfl⟩

theorem Grown.trans {m1 m2 m3 : Mkfs} {V1 V2 V3 : Volume} {l1 l2 l3 : List UInt8}
    (h : Grown m1 m2 V1 V2 i kind l1 l2) (h' : Grown m2 m3 V2 V3 i kind l2 l3) :
    Grown m1 m3 V1 V3 i kind l1 l3 := by
  refine ⟨h'.imaged, h'.intact, h'.holds, fun i' hi => ?_, ?_, h'.freeinode.trans h.freeinode⟩
  · obtain ⟨hino, hfile⟩ := h.other i' hi
    obtain ⟨hino', hfile'⟩ := h'.other i' hi
    exact ⟨hino'.trans hino, hfile'.trans hfile⟩
  · have := h.freeblock
    have := h'.freeblock
    omega

/-- The loop that reads an input file ends if there is room for all of it. -/
theorem wp_reads {Q : Unit → Mkfs → Prop} {l : List UInt8} {reads : List (List UInt8)}
    (h : Imaged m V none) (hI : V.Intact mkfsSb) (hV : Holds V i kind l)
    (ok : ∀ m' V', Grown m m' V V' i kind l (l ++ reads.flatten) → Q () m') :
    wp (reads.forM (iappend i)) Q (fun _ _ => ¬Room m l.length reads.flatten.length) m := by
  induction reads generalizing m V l with
  | nil => exact ok m V (by simpa using Grown.refl h hI hV)
  | cons r reads ih =>
    simp only [List.flatten_cons, ← List.append_assoc] at ok
    have hlen : (r :: reads).flatten.length = r.length + reads.flatten.length := by
      rw [List.flatten_cons, List.length_append]
    have hmono : blocksOf (l.length + r.length) ≤ blocksOf
        (l.length + (r.length + reads.flatten.length)) :=
      blocksOf_mono (by omega)
    rw [List.forM, wp_bind, hlen]
    refine (wp_iappend h hI hV fun m1 V1 h1 => ?_).mono (fun _ _ hQ => hQ)
      fun _ _ hno hroom => hno ?_
    · have hfree := h1.freeblock
      refine (ih h1.imaged h1.intact h1.holds fun m2 V2 h2 => ok m2 V2 (h1.trans h2)).mono
        (fun _ _ hQ => hQ) fun _ _ hno hroom => hno ?_
      rw [List.length_append] at hfree ⊢
      have := hroom.2
      exact ⟨by have := hroom.1; omega, by rw [Nat.add_assoc]; omega⟩
    · have := hroom.2
      exact ⟨by have := hroom.1; omega, by omega⟩

/-- What `ialloc` leaves: a new inode without contents. -/
structure Allocated (m m' : Mkfs) (V V' : Volume) (kind : Nat) : Prop where
  imaged : Imaged m' V' none
  intact : V'.Intact mkfsSb
  holds : Holds V' m.freeinode kind []
  other : ∀ i', i' ≠ m.freeinode → V'.ino i' = V.ino i' ∧ V'.file mkfsSb i' = V.file mkfsSb i'
  freeblock : m'.freeblock = m.freeblock
  freeinode : m'.freeinode = m.freeinode + 1

theorem runs_ialloc {Q : Nat → Mkfs → Prop} (h : Imaged m V none) (hI : V.Intact mkfsSb)
    (hi : m.freeinode < NINODES) (hfree : (V.ino m.freeinode).type = 0) (hkind : kind ≠ 0)
    (hlt : kind < 2 ^ 16) (ok : ∀ m' V', Allocated m m' V V' kind → Q m.freeinode m') :
    runs (ialloc kind) Q m := by
  simp only [ialloc, wp_bind, wp_gets, wp_update, wp_pure]
  have h1 : Imaged { m with freeinode := m.freeinode + 1 } V none :=
    ⟨h.sectors, h.low, h.high, h.super, h.block, h.bmap, h.zero, h.ino, h.fits⟩
  have hfits : ({ Dinode.zero with type := kind, nlink := 1 } : Dinode).Fits :=
    ⟨hlt, Dinode.fits_zero.major, Dinode.fits_zero.minor, show 1 < 2 ^ 16 by decide,
      Dinode.fits_zero.size, Dinode.fits_zero.addrs, Dinode.fits_zero.beyond⟩
  refine runs_winode_stored h1 (.inl rfl) hI hi hfits (.inr ⟨hfree, fun _ => rfl⟩)
    fun m2 V2 h2 => ?_
  have hself := h2.self
  have hnone : ∀ bn, V.file mkfsSb m.freeinode bn = none := fun bn =>
    if_pos (if_neg fun hlive => hlive.1.2 hfree)
  refine ok _ _ ⟨h2.imaged, h2.intact, ⟨hi, ?_, hkind, ?_, ?_, ⟨fun bn => ?_, ?_⟩, fun o ho => ?_⟩,
    fun i' hi' => h2.other hi', h2.freeblock, h2.freeinode⟩
  · rw [hself]
  · rw [hself]
    exact one_ne_zero
  · rw [hself]
    rfl
  · rw [h2.file, hnone]
    simp
  · rw [hself]
    simp [Dinode.zero]
  · exact absurd ho (Nat.not_lt_zero o)

end

/-! ## The loop over the input files -/

/-- The entries of the root directory. -/
def entries (files : List Input) : List (List UInt8) :=
  direntBytes ROOTINO (cstr [dot]) :: direntBytes ROOTINO (cstr [dot, dot]) ::
    files.mapIdx fun k f => direntBytes (k + 2) (cstr f.bare)

/-- How many blocks the files take, with the root directory and the blocks of the file
system itself. -/
def space (files : List Input) : Nat :=
  nmeta + blocksOf (DIRENTSIZE * (files.length + 2)) +
    (files.map fun f => blocksOf f.bytes.length).sum

theorem entries_concat (files : List Input) (f : Input) :
    entries (files ++ [f]) = entries files ++ [direntBytes (files.length + 2) (cstr f.bare)] := by
  simp [entries, List.mapIdx_concat]

theorem length_of_mem_entries {files : List Input} {e : List UInt8} (h : e ∈ entries files) :
    e.length = DIRENTSIZE := by
  simp only [entries, List.mem_cons, List.mem_mapIdx] at h
  rcases h with rfl | rfl | ⟨k, hk, rfl⟩ <;> exact length_direntBytes

theorem length_entries (files : List Input) : (entries files).length = files.length + 2 := by
  simp [entries]

theorem length_flatten_entries (files : List Input) :
    (entries files).flatten.length = DIRENTSIZE * (files.length + 2) := by
  rw [List.length_flatten, List.eq_replicate_of_mem (l := (entries files).map List.length)
    (a := DIRENTSIZE)]
  · simp [length_entries, Nat.mul_comm]
  · intro n hn
    obtain ⟨e, he, rfl⟩ := List.mem_map.1 hn
    exact length_of_mem_entries he

/-- The state after some of the input files. -/
structure Stage (m : Mkfs) (V : Volume) (done : List Input) : Prop where
  imaged : Imaged m V none
  intact : V.Intact mkfsSb
  root : Holds V ROOTINO T_DIR (entries done).flatten
  file : ∀ k (hk : k < done.length), Holds V (k + 2) T_FILE (done.get ⟨k, hk⟩).bytes
  free : ∀ i, done.length + 2 ≤ i → (V.ino i).type = 0
  freeinode : m.freeinode = done.length + 2
  freeblock : m.freeblock = space done

section

variable {m : Mkfs} {V : Volume} {done files : List Input} {f : Input}

/-- The directory stays within the direct blocks. -/
theorem root_le (h : done.length + 2 < NINODES) :
    DIRENTSIZE * (done.length + 3) ≤ MAXFILE * BSIZE := by
  simp only [NINODES, DIRENTSIZE, MAXFILE, NDIRECT, NINDIRECT, BSIZE] at *
  omega

theorem space_concat (done : List Input) (f : Input) :
    space (done ++ [f]) + blocksOf (DIRENTSIZE * (done.length + 2)) =
      space done + blocksOf (DIRENTSIZE * (done.length + 3)) + blocksOf f.bytes.length := by
  simp only [space, List.length_append, List.length_singleton, List.map_append, List.sum_append,
    List.map_cons, List.map_nil, List.sum_cons, List.sum_nil, show done.length + 1 + 2 =
    done.length + 3 from rfl]
  omega

/-- A round of the loop over the input files ends if the name has no slash and there is room. -/
theorem wp_addFile {Q : Unit → Mkfs → Prop} (h : Stage m V done)
    (hcount : done.length + 2 < NINODES)
    (ok : ∀ m' V', slash ∉ f.name → Stage m' V' (done ++ [f]) → Q () m') :
    wp (addFile ROOTINO f) Q
      (fun _ _ => slash ∈ f.name ∨
        ¬(f.bytes.length ≤ MAXFILE * BSIZE ∧ space (done ++ [f]) ≤ FSSIZE)) m := by
  have hspace := space_concat done f
  have hmono := blocksOf_mono (show DIRENTSIZE * (done.length + 2) ≤ DIRENTSIZE * (done.length + 3)
      from
    Nat.mul_le_mul_left _ (by omega))
  have hrootmax := root_le hcount
  have hnext : DIRENTSIZE * (done.length + 3) = DIRENTSIZE * (done.length + 2) + DIRENTSIZE :=
    Nat.mul_add_one ..
  have hzero : blocksOf 0 = 0 := by decide
  simp only [addFile, wp_ite, wp_bind, wp_halt]
  refine ⟨.inl, fun hslash => ?_⟩
  refine wp_of_runs (runs_ialloc h.imaged h.intact (by rw [h.freeinode]; exact hcount)
    (h.free _ h.freeinode.ge) (by decide) (by decide) fun m1 V1 h1 => ?_)
  have hinum := h.freeinode
  have hroot1 := h.root.congr (h1.other ROOTINO (by rw [hinum, ROOTINO]; omega))
  have hfree1 := h1.freeblock
  have hblock := h.freeblock
  refine (wp_iappend h1.imaged h1.intact hroot1 fun m2 V2 h2 => ?_).mono (fun _ _ hQ => hQ)
    fun _ _ hno => .inr fun hroom => hno ?_
  swap
  · rw [Room, length_direntBytes, length_flatten_entries, ← hnext]
    omega
  have hnew2 := h1.holds.congr (h2.other m.freeinode (by rw [hinum, ROOTINO]; omega))
  have hfree2 := h2.freeblock
  rw [List.length_append, length_direntBytes, length_flatten_entries, ← hnext] at hfree2
  refine (wp_reads h2.imaged h2.intact hnew2 fun m3 V3 h3 => ?_).mono (fun _ _ hQ => hQ)
    fun _ _ hno => .inr fun hroom => hno ?_
  swap
  · show 0 + f.bytes.length ≤ _ ∧ m2.freeblock + blocksOf (0 + f.bytes.length) ≤ FSSIZE + blocksOf 0
    rw [Nat.zero_add]
    omega
  have hfree3 : m3.freeblock + blocksOf 0 = m2.freeblock + blocksOf f.bytes.length := h3.freeblock
  have hkeep : ∀ i, i ≠ ROOTINO → i ≠ m.freeinode →
      V3.ino i = V.ino i ∧ V3.file mkfsSb i = V.file mkfsSb i := by
    intro i hroot hnew
    obtain ⟨hino1, hfile1⟩ := h1.other i hnew
    obtain ⟨hino2, hfile2⟩ := h2.other i hroot
    obtain ⟨hino3, hfile3⟩ := h3.other i hnew
    exact ⟨by rw [hino3, hino2, hino1], by rw [hfile3, hfile2, hfile1]⟩
  refine ok m3 V3 hslash ⟨h3.imaged, h3.intact, ?_, fun k hk => ?_, fun i hi => ?_, ?_, by omega⟩
  · rw [entries_concat, List.flatten_append, List.flatten_singleton, ← hinum]
    exact h2.holds.congr (h3.other ROOTINO (by rw [hinum, ROOTINO]; omega))
  · rw [List.length_append, List.length_singleton] at hk
    rcases Nat.lt_succ_iff_lt_or_eq.1 hk with hlt | rfl
    · have := (h.file k hlt).congr (hkeep (k + 2) (by rw [ROOTINO]; omega) (by omega))
      simpa [List.getElem_append_left hlt] using this
    · have := h3.holds
      rw [hinum] at this
      simpa [Input.bytes] using this
  · rw [List.length_append, List.length_singleton] at hi
    rw [(hkeep i (by rw [ROOTINO]; omega) (by omega)).1]
    exact h.free i (by omega)
  · rw [h3.freeinode, h2.freeinode, h1.freeinode, hinum, List.length_append, List.length_singleton]

theorem space_le_append (done rest : List Input) : space done ≤ space (done ++ rest) := by
  have hmono := blocksOf_mono (show DIRENTSIZE * (done.length + 2) ≤ DIRENTSIZE *
      ((done ++ rest).length + 2) from
    Nat.mul_le_mul_left _ (by simp))
  simp only [space, List.map_append, List.sum_append]
  omega

/-- What is asked of the input files. -/
structure Suitable (files : List Input) : Prop where
  inodes : files.length + 1 < NINODES
  size : ∀ f ∈ files, f.bytes.length ≤ MAXFILE * BSIZE
  space : space files ≤ FSSIZE

/-- The loop over the input files ends if no name has a slash and the files are suitable. -/
theorem wp_files {Q : Unit → Mkfs → Prop} {rest : List Input} (h : Stage m V done)
    (hcount : (done ++ rest).length + 1 < NINODES)
    (ok : ∀ m' V', Stage m' V' (done ++ rest) → (∀ f ∈ rest, slash ∉ f.name) → Q () m') :
    wp (rest.forM (addFile ROOTINO)) Q
      (fun _ _ => (∃ f ∈ rest, slash ∈ f.name) ∨ ¬Suitable (done ++ rest)) m := by
  induction rest generalizing m V done with
  | nil =>
    rw [List.append_nil] at ok
    exact ok m V h (by simp)
  | cons f rest ih =>
    rw [List.append_cons] at hcount ok ⊢
    have hlen := hcount
    simp only [List.length_append, List.length_singleton] at hlen
    rw [List.forM, wp_bind]
    refine (wp_addFile h (by omega) fun m1 V1 hslash h1 => ?_).mono (fun _ _ hQ => hQ) ?_
    · refine (ih h1 hcount fun m2 V2 h2 hrest => ok m2 V2 h2 ?_).mono (fun _ _ hQ => hQ) ?_
      · exact List.forall_mem_cons.2 ⟨hslash, hrest⟩
      · rintro _ _ (⟨f', hf', hs⟩ | hno)
        · exact .inl ⟨f', List.mem_cons_of_mem _ hf', hs⟩
        · exact .inr hno
    · rintro _ _ (hs | hno)
      · exact .inl ⟨f, List.mem_cons_self, hs⟩
      · exact .inr fun hfiles => hno ⟨hfiles.size f (by simp), (space_le_append _ rest).trans
          hfiles.space⟩

/-! ## The program -/

/-- The volume of the image before the first inode. -/
def blank : Volume where
  block b := if b = 1 then mkfsSb.store else if b = mkfsSb.bmapstart then bits nmeta else Bytes.zero
  ino _ := Dinode.zero

theorem intact_blank : blank.Intact mkfsSb := by
  have hptr : ∀ k, blank.ptr mkfsSb k = 0 := fun k => if_neg fun hlive => hlive.1.2 rfl
  have hused : ∀ b < FSSIZE, blank.used mkfsSb b = decide (b < nmeta) := by
    intro b hb
    rw [Volume.used, mkfsSb_sound.bblock_eq hb, Nat.mod_eq_of_lt (mkfsSb_sound.bpb_lt hb)]
    exact bitSet_bits (by decide)
  refine ⟨fun b hb => ?_, ⟨fun b => mkfsSb_sound.data_ne_zero, ?_, ?_, fun b hb hu => ?_⟩⟩
  · rw [dataStart_mkfsSb] at hb
    rw [hused b (hb.trans (by decide)), decide_eq_true hb]
  · exact fun k hk => absurd (hptr k) hk
  · exact fun k k' hk => absurd (hptr k) hk
  · have hlow := hb.1
    rw [dataStart_mkfsSb] at hlow
    rw [hused b hb.2, decide_eq_true_eq] at hu
    omega

theorem imaged_formatted : Imaged formatted blank none := by
  have himage : ∀ b, formatted.image b = if b = 1 then mkfsSb.store else Bytes.zero := by
    simp only [formatted, update_apply, implies_true]
  refine ⟨rfl, le_rfl, by decide, himage 1, fun b hb => ?_, rfl, fun b hb => ?_,
    fun i _ _ => ?_, fun _ => ?_⟩
  · rw [himage]
    exact if_congr Iff.rfl rfl (if_neg hb)
  · have : nmeta ≤ b := hb
    have : 1 < nmeta := by decide
    rw [himage, if_neg (by omega)]
  · have hone : 1 < IBLOCK i mkfsSb := Nat.lt_of_lt_of_le (by decide)
      (Nat.le_add_left mkfsSb.inodestart _)
    rw [himage, if_neg hone.ne', Dinode.ofBlock_zero]
    rfl
  · exact Dinode.fits_zero

theorem runs_makeRoot {Q : Nat → Mkfs → Prop} (hm : m = formatted)
    (ok : ∀ m' V', Stage m' V' [] → Q ROOTINO m') :
    runs makeRoot Q m := by
  have hinode : m.freeinode = ROOTINO := by rw [hm]; rfl
  have hblock : m.freeblock = nmeta := by rw [hm]; rfl
  simp only [makeRoot, wp_bind]
  refine runs_ialloc (hm ▸ imaged_formatted) intact_blank (by rw [hinode]; decide) rfl (by decide)
    (by decide) fun m1 V1 h1 => ?_
  have hroot1 := h1.holds
  have hfree1 := h1.freeblock.trans hblock
  rw [hinode] at hroot1 ⊢
  simp only [wp_ite, wp_bind, wp_halt, wp_pure, true_implies, not_true_eq_false,
    false_implies, and_true]
  refine runs_iappend h1.imaged h1.intact hroot1 ?_ fun m2 V2 h2 => ?_
  · rw [Room, length_direntBytes, hfree1]
    decide
  have hfree2 := h2.freeblock
  rw [List.nil_append, length_direntBytes, hfree1, List.length_nil] at hfree2
  refine runs_iappend h2.imaged h2.intact h2.holds ?_ fun m3 V3 h3 => ?_
  · rw [Room, List.nil_append, length_direntBytes, length_direntBytes]
    have : nmeta + blocksOf (DIRENTSIZE + DIRENTSIZE) + blocksOf DIRENTSIZE ≤ FSSIZE := by decide
    exact ⟨by decide, by omega⟩
  have hfree3 := h3.freeblock
  rw [List.nil_append, List.length_append, length_direntBytes, length_direntBytes] at hfree3
  refine ok m3 V3 ⟨h3.imaged, h3.intact, ?_, (by rintro _ ⟨⟩), fun i hi => ?_, ?_, ?_⟩
  · have := h3.holds
    simpa [entries] using this
  · have hi : 2 ≤ i := hi
    have hne : i ≠ ROOTINO := by
      rw [ROOTINO]
      omega
    rw [(h3.other i hne).1, (h2.other i hne).1, (h1.other i (hinode ▸ hne)).1]
    rfl
  · rw [h3.freeinode, h2.freeinode, h1.freeinode, hinode]
    rfl
  · have : space [] = nmeta + blocksOf (DIRENTSIZE + DIRENTSIZE) := by decide
    have : blocksOf 0 = 0 := by decide
    omega

/-- The volume of the finished image. -/
structure Made (image : Nat → Block) (V : Volume) (files : List Input) : Prop where
  super : image 1 = mkfsSb.store
  block : V.block = image
  ino : ∀ i < NINODES, Dinode.ofBlock (image (IBLOCK i mkfsSb)) (i % IPB) = V.ino i
  fits : ∀ i, (V.ino i).Fits
  intact : V.Intact mkfsSb
  bmap : image mkfsSb.bmapstart = bits (space files)
  rootType : (V.ino ROOTINO).type = T_DIR
  rootLinked : (V.ino ROOTINO).nlink ≠ 0
  rootSize : DIRENTSIZE * (files.length + 2) ≤ (V.ino ROOTINO).size
  rootMapped : V.Mapped mkfsSb ROOTINO (DIRENTSIZE * (files.length + 2))
  rootByte : ∀ o < DIRENTSIZE * (files.length + 2), V.byte mkfsSb ROOTINO o = cstr
    (entries files).flatten o
  file : ∀ k (hk : k < files.length), Holds V (k + 2) T_FILE (files.get ⟨k, hk⟩).bytes

/-- How `main` ends. -/
structure Ends (m : Mkfs) (V : Volume) (files : List Input) : Prop where
  made : Made m.image V files
  size : (V.ino ROOTINO).size = (DIRENTSIZE * (files.length + 2) / BSIZE + 1) * BSIZE
  sized : Sized V ROOTINO (DIRENTSIZE * (files.length + 2))
  freeinode : m.freeinode = files.length + 2
  freeblock : m.freeblock = space files
  room : space files ≤ FSSIZE

theorem Sized.mapped {i n : Nat} (h : Sized V i n) : V.Mapped mkfsSb i n := fun o ho =>
  (h.file _).2 ((Nat.div_mul_le_self o BSIZE).trans_lt ho)

/-- The end of `main`. -/
theorem runs_finish {Q : Unit → Mkfs → Prop} (h : Stage m V files)
    (hcount : files.length + 1 < NINODES) (ok : ∀ m' V', Ends m' V' files → Q () m') :
    runs (do fixSize ROOTINO; balloc (← gets Mkfs.freeblock)) Q m := by
  have hroot := h.root
  have hlen := length_flatten_entries files
  have hsize := hroot.size
  rw [hlen] at hsize
  have hround := Nat.lt_mul_div_succ (DIRENTSIZE * (files.length + 2)) (show 0 < BSIZE by decide)
  rw [Nat.mul_comm BSIZE] at hround
  simp only [fixSize, wp_bind, wp_gets]
  refine runs_rinode h.imaged hroot.lt ?_
  rw [hsize]
  have hfits :
      ({ V.ino ROOTINO with size := (DIRENTSIZE * (files.length + 2) / BSIZE + 1) * BSIZE } :
        Dinode).Fits := by
    have hfit := h.imaged.fits ROOTINO
    refine ⟨hfit.type, hfit.major, hfit.minor, hfit.nlink, ?_, hfit.addrs, hfit.beyond⟩
    simp only [NINODES, DIRENTSIZE, BSIZE] at hcount ⊢
    omega
  refine runs_winode_stored h.imaged (.inl rfl) h.intact hroot.lt hfits (.inl ⟨Iff.rfl, rfl⟩)
    fun m1 V1 h1 => ?_
  have hused : m1.freeblock < BSIZE * 8 := h1.imaged.high.trans_lt (by decide)
  have hbmap : mkfsSb.bmapstart < FSSIZE := mkfsSb_sound.bmap_fssize
  have hother : ∀ b, b ≠ mkfsSb.bmapstart → (m1.setSector mkfsSb.bmapstart
      (bits m1.freeblock)).image b = m1.image b :=
    fun b hb => by rw [setSector_image, if_neg hb]
  simp only [balloc, wp_ite, hused, wp_halt, not_true_eq_false, false_implies, and_true,
    true_implies]
  have hsized : Sized V1 ROOTINO (DIRENTSIZE * (files.length + 2)) := by
    rw [← hlen]
    refine ⟨?_, ?_⟩
    · rw [h1.file]
      exact hroot.sized.file
    · rw [h1.self]
      exact hroot.sized.indirect
  refine runs_wsect h1.imaged hbmap (ok _ V1 ⟨⟨?_, ?_, fun i hi => ?_, h1.imaged.fits, h1.intact,
    ?_, ?_, ?_, ?_, hsized.mapped, ?_, fun k hk => (h.file k hk).congr
    (h1.other (by rw [ROOTINO]; omega))⟩, by rw [h1.self], hsized, h1.freeinode.trans h.freeinode,
    h1.freeblock.trans h.freeblock, h.freeblock ▸ h.imaged.high⟩)
  · rw [hother 1 (by decide), h1.imaged.super]
  · funext b
    by_cases hb : b = mkfsSb.bmapstart
    · rw [setSector_image, if_pos hb, hb, h1.imaged.bmap]
    · rw [hother b hb, h1.imaged.block b hb]
  · rw [hother _ (iblock_lt hi).ne]
    exact h1.imaged.ino i hi (by rintro ⟨⟩)
  · rw [setSector_image, if_pos rfl, h1.freeblock, h.freeblock]
  · rw [h1.self]
    exact hroot.type
  · rw [h1.self]
    exact hroot.linked
  · rw [h1.self]
    exact hround.le
  · intro o ho
    rw [Volume.byte, h1.file, ← Volume.byte]
    exact hroot.byte o (by rwa [hlen])

/-- `main` writes an image if no name has a slash and the files are suitable.  The number of files
is the one thing that it does not notice. -/
theorem wp_main {x : MkfsM Unit} (hx : x = main files) (hm : m = start)
    (hcount : files.length + 1 < NINODES) :
    wp x (fun _ m' => (∃ V, Ends m' V files) ∧ ∀ f ∈ files, slash ∉ f.name)
      (fun _ _ => (∃ f ∈ files, slash ∈ f.name) ∨ ¬Suitable files) m := by
  simp only [hx, hm, main, wp_bind]
  rw [wp_of_ok format_start]
  obtain ⟨m1, hm1⟩ : ∃ m, m = formatted := ⟨_, rfl⟩
  rw [← hm1]
  simp only [fill, wp_bind]
  refine wp_of_runs (runs_makeRoot hm1 fun m2 V2 h2 => ?_)
  refine wp_files h2 hcount fun m3 V3 h3 hslash => ?_
  have hend := runs_finish (Q := fun _ m => (∃ V, Ends m V files) ∧ ∀ f ∈ files, slash ∉ f.name) h3
    hcount fun m' V' h' => ⟨⟨V', h'⟩, hslash⟩
  simpa only [wp_bind] using wp_of_runs hend

/-- The image that `mkfs` writes is that of a volume with the files. -/
theorem output_spec (hfiles : Suitable files) :
    ((∃ image, output files = some image) ↔ ∀ f ∈ files, slash ∉ f.name) ∧
      ∀ image, output files = some image → ∃ V, Made image V files := by
  -- the run is named, so that nothing evaluates it
  obtain ⟨x, hx⟩ : ∃ x, x = main files := ⟨_, rfl⟩
  obtain ⟨m, hm⟩ : ∃ m, m = start := ⟨_, rfl⟩
  have hmain := wp_iff.1 (wp_main hx hm hfiles.inodes)
  rw [output, ← hx, ← hm]
  rcases hrun : x m with ⟨e | a, m'⟩
  · refine ⟨⟨fun h => ?_, fun hslash => ?_⟩, (by rintro _ ⟨⟩)⟩
    · obtain ⟨_, h⟩ := h
      cases h
    · rcases hmain.2 e m' hrun with ⟨f, hf, hs⟩ | hno
      · exact absurd hs (hslash f hf)
      · exact absurd hfiles hno
  · obtain ⟨⟨V, hends⟩, hslash⟩ := hmain.1 a m' hrun
    refine ⟨iff_of_true ⟨_, rfl⟩ hslash, ?_⟩
    rintro _ ⟨⟩
    exact ⟨V, hends.made⟩

end

/-! ## Without files -/

section

/-- The root when it has this size. -/
def rootOf (size : Nat) : Dinode :=
  ⟨T_DIR, 0, 0, 1, size, if size = 0 then fun _ => 0 else update (fun _ => 0) 0 nmeta⟩

/-- The state while the root is filled. -/
def rooting (size : Nat) (root data : Block) : Mkfs where
  image := update (update formatted.image nmeta data) (IBLOCK ROOTINO mkfsSb)
    ((rootOf size).store (ROOTINO % IPB) root)
  sectors := FSSIZE
  freeinode := ROOTINO + 1
  freeblock := if size = 0 then nmeta else nmeta + 1

variable {size : Nat} {root data : Block}

/-- What `makeRoot` and `fixSize` leave. -/
def rooted : Mkfs :=
  rooting BSIZE ([0, 16, 32].foldl (fun d size => (rootOf size).store (ROOTINO % IPB) d) Bytes.zero)
    (mkfs nmeta)

end

end Mkfs

end Xv6Rework
