import Xv6Rework.Fs.Inode
import Xv6Rework.Lib.Owner

/-!
# Who owns which block

The blocks of a device and its inodes as one value, a `Volume`, apart from where they
are kept.  Every block pointer of an inode has a place: `q < NDIRECT` for a direct
pointer, `NDIRECT` for the pointer to the indirect block, and `NDIRECT + 1 + j` for the
`j`-th entry of that block.  `ptr` looks a place up, and a volume is `Intact` if its
pointers own the blocks of the data area that the free map has as used.

The lemmas say what the single stores of the code do to the pointers and to the blocks
of files (`file`).
-/

namespace Xv6Rework

open Function
open Fs (IBLOCK BBLOCK)

/-! ## Geometry -/

/-- The first block of the data area. -/
def Superblock.dataStart (sb : Superblock) : Nat := sb.size - sb.nblocks

/-- The layout of a device: inodes, then the free map, then data, on one disk. -/
structure Superblock.Sound (sb : Superblock) : Prop where
  size_le : sb.size ≤ FSSIZE
  inode_lt : ∀ i < sb.ninodes, IBLOCK i sb < sb.bmapstart
  bmap_lt : sb.bmapstart < sb.dataStart

/-- A block of the data area. -/
def Superblock.Data (sb : Superblock) (b : Nat) : Prop := sb.dataStart ≤ b ∧ b < sb.size

section

variable {sb : Superblock} {b : Nat}

theorem Superblock.Sound.bpb_lt (h : sb.Sound) (hb : b < sb.size) : b < BPB :=
  (hb.trans_le h.size_le).trans (by decide)

/-- One block of the free map is enough. -/
theorem Superblock.Sound.bblock_eq (h : sb.Sound) (hb : b < sb.size) :
    BBLOCK b sb = sb.bmapstart := by
  rw [BBLOCK, Nat.div_eq_of_lt (h.bpb_lt hb), Nat.zero_add]

theorem Superblock.Sound.ne_bmap (h : sb.Sound) (hb : sb.Data b) : b ≠ sb.bmapstart := by
  have := h.bmap_lt
  have := hb.1
  omega

theorem Superblock.Sound.data_ne_zero (h : sb.Sound) (hb : sb.Data b) : b ≠ 0 := by
  have := h.bmap_lt
  have := hb.1
  omega

theorem Superblock.dataStart_le (sb : Superblock) : sb.dataStart ≤ sb.size := Nat.sub_le ..

theorem Superblock.Sound.bmap_fssize (h : sb.Sound) : sb.bmapstart < FSSIZE := by
  have := h.bmap_lt
  have := h.size_le
  have := sb.dataStart_le
  omega

end

/-- Storing an inode leaves the others alone, also those of its block. -/
theorem Dinode.ofBlock_store_other {sb : Superblock} {i i' : Nat} {x : Dinode} {block : Nat → Block}
    (hi : i' ≠ i) : Dinode.ofBlock (if IBLOCK i' sb = IBLOCK i sb then
      x.store (i % IPB) (block (IBLOCK i sb)) else block (IBLOCK i' sb)) (i' % IPB) =
      Dinode.ofBlock (block (IBLOCK i' sb)) (i' % IPB) := by
  split
  · next hblock =>
    have hmod : i' % IPB ≠ i % IPB := by
      simp only [IBLOCK] at hblock
      intro hmod
      refine hi ?_
      rw [← Nat.div_add_mod i' IPB, hmod, Nat.add_right_cancel hblock, Nat.div_add_mod]
    rw [Dinode.ofBlock_store_of_ne hmod, ← hblock]
  · rfl

/-! ## Volumes -/

/-- The blocks of a device, and its inodes. -/
structure Volume where
  block : Nat → Block
  ino : Nat → Dinode

/-- The place of the pointer to the `bn`-th block of a file. -/
def place (bn : Nat) : Nat := if bn < NDIRECT then bn else bn + 1

/-- The pointer of an inode at a place. -/
def Dinode.addrAt (x : Dinode) (block : Nat → Block) (q : Nat) : Nat :=
  if q ≤ NDIRECT then
    x.addrs q
  else if x.addrs NDIRECT = 0 then
    0
  else
    (block (x.addrs NDIRECT)).getLE (4 * (q - (NDIRECT + 1))) 4

/-- Set a pointer of an inode. -/
def Dinode.setAddr (x : Dinode) (q b : Nat) : Dinode :=
  { x with addrs := update x.addrs q b }

namespace Volume

/-- Store a block. -/
def setBlock (v : Volume) (b : Nat) (d : Block) : Volume :=
  { v with block := update v.block b d }

/-- Store an inode. -/
def setIno (v : Volume) (i : Nat) (x : Dinode) : Volume :=
  { v with ino := update v.ino i x }

@[simp] theorem setBlock_ino {v : Volume} {b : Nat} {d : Block} :
    (v.setBlock b d).ino = v.ino := rfl
@[simp] theorem setIno_block {v : Volume} {i : Nat} {x : Dinode} :
    (v.setIno i x).block = v.block := rfl

theorem setBlock_block {v : Volume} {b b' : Nat} {d : Block} :
    (v.setBlock b d).block b' = if b' = b then d else v.block b' := by
  simp [setBlock, update_apply]

theorem setIno_ino {v : Volume} {i i' : Nat} {x : Dinode} :
    (v.setIno i x).ino i' = if i' = i then x else v.ino i' := by
  simp [setIno, update_apply]

variable (sb : Superblock) (v : Volume)

/-- The free map has a block as used. -/
def used (b : Nat) : Bool := bitSet (v.block (BBLOCK b sb)) (b % BPB)

/-- An inode that is allocated. -/
def Live (i : Nat) : Prop := i < sb.ninodes ∧ (v.ino i).type ≠ 0

instance (i : Nat) : Decidable (v.Live sb i) := inferInstanceAs (Decidable (_ ∧ _))

/-- The pointer of an allocated inode at a place. -/
def ptr (k : Nat × Nat) : Nat :=
  if v.Live sb k.1 ∧ k.2 ≤ MAXFILE then (v.ino k.1).addrAt v.block k.2 else 0

/-- The `bn`-th block of a file, if it has one. -/
def file (i bn : Nat) : Option Block :=
  if v.ptr sb (i, place bn) = 0 then none else some (v.block (v.ptr sb (i, place bn)))

/-- The pointers `p` own the data blocks that are in use, and no block before them is
free. -/
structure Backs (p : Nat × Nat → Nat) : Prop where
  low : ∀ b < sb.dataStart, v.used sb b = true
  owned : Owned sb.Data (v.used sb) p

/-- The pointers of the inodes own the data blocks that are in use. -/
def Intact : Prop := v.Backs sb (v.ptr sb)

/-- What `balloc` does: mark a block used, and clear it. -/
def take (b : Nat) : Volume :=
  (v.setBlock sb.bmapstart (setBit (v.block sb.bmapstart) b)).setBlock b Bytes.zero

end Volume

/-- Change one value of a table with two indices. -/
def set2 {α : Type} (f : Nat → Nat → α) (i j : Nat) (a : α) : Nat → Nat → α := fun i' j' =>
  if i' = i ∧ j' = j then a else f i' j'

theorem place_ne {bn : Nat} : place bn ≠ NDIRECT := by
  unfold place
  split <;> omega

theorem place_inj {bn bn' : Nat} : place bn = place bn' ↔ bn = bn' := by
  unfold place
  split <;> split <;> omega

theorem place_direct {bn : Nat} (h : bn < NDIRECT) : place bn = bn := if_pos h

theorem place_indirect {j : Nat} : place (NDIRECT + j) = NDIRECT + 1 + j := by
  rw [place, if_neg (by omega)]
  omega

namespace Dinode

theorem setAddr_addrs {x : Dinode} {q q' b : Nat} :
    (x.setAddr q b).addrs q' = if q' = q then b else x.addrs q' := by
  simp [setAddr, update_apply]

variable {x : Dinode} {block block' : Nat → Block} {q : Nat}

theorem Fits.setAddr {b : Nat} (h : x.Fits) (hq : q ≤ NDIRECT ∨ b = 0) (hb : b < 2 ^ 32) :
    (x.setAddr q b).Fits := by
  refine ⟨h.type, h.major, h.minor, h.nlink, h.size, fun q' => ?_, fun q' hq' => ?_⟩
  · rw [setAddr_addrs]
    split
    · exact hb
    · exact h.addrs q'
  · rw [setAddr_addrs]
    split
    · omega
    · exact h.beyond q' hq'

theorem addrAt_direct (hq : q ≤ NDIRECT) : x.addrAt block q = x.addrs q := if_pos hq

theorem addrAt_indirect {j : Nat} (hx : x.addrs NDIRECT ≠ 0) :
    x.addrAt block (NDIRECT + 1 + j) = (block (x.addrs NDIRECT)).getLE (4 * j) 4 := by
  rw [addrAt, if_neg (by omega), if_neg hx, Nat.add_sub_cancel_left]

theorem addrAt_zero (hx : x.addrs NDIRECT = 0) (hq : NDIRECT < q) : x.addrAt block q = 0 := by
  rw [addrAt, if_neg (by omega), if_pos hx]

/-- Only the indirect block is looked into. -/
theorem addrAt_congr
    (h : x.addrs NDIRECT ≠ 0 → block' (x.addrs NDIRECT) = block (x.addrs NDIRECT)) :
    x.addrAt block' q = x.addrAt block q := by
  unfold addrAt
  split
  · rfl
  · split
    · rfl
    · next hx => rw [h hx]

end Dinode

namespace Volume

variable {sb : Superblock} {v v' : Volume} {p : Nat × Nat → Nat} {i bn q b : Nat}
  {d : Block} {x : Dinode}

theorem ptr_of_live (h : v.Live sb i) (hq : q ≤ MAXFILE) :
    v.ptr sb (i, q) = (v.ino i).addrAt v.block q := if_pos ⟨h, hq⟩

theorem live_of_ptr (h : v.ptr sb (i, q) ≠ 0) : v.Live sb i ∧ q ≤ MAXFILE := by
  by_contra hn
  exact h (if_neg hn)

/-- The pointer to the indirect block. -/
theorem ptr_indirect (h : v.Live sb i) : v.ptr sb (i, NDIRECT) = (v.ino i).addrs NDIRECT := by
  rw [ptr_of_live h (by decide), Dinode.addrAt_direct le_rfl]

/-! ## Stores to blocks -/

/-- A store to no indirect block leaves the pointers. -/
theorem ptr_setBlock (hb : ∀ i, v.ptr sb (i, NDIRECT) ≠ 0 → v.ptr sb (i, NDIRECT) ≠ b) :
    (v.setBlock b d).ptr sb = v.ptr sb := by
  funext ⟨i, q⟩
  by_cases hk : v.Live sb i ∧ q ≤ MAXFILE
  · rw [ptr_of_live (v := v.setBlock b d) hk.1 hk.2, ptr_of_live hk.1 hk.2]
    refine Dinode.addrAt_congr fun hx => ?_
    rw [setBlock_ino, ← ptr_indirect hk.1] at hx ⊢
    rw [setBlock_block, if_neg (hb i hx)]
  · exact (if_neg hk).trans (if_neg hk).symm

theorem used_setBlock (hs : sb.Sound) (hb : b ≠ sb.bmapstart) {b' : Nat} (hb' : b' < sb.size) :
    (v.setBlock b d).used sb b' = v.used sb b' := by
  unfold used
  rw [hs.bblock_eq hb', setBlock_block, if_neg hb.symm]

theorem Backs.setBlock (h : v.Backs sb p) (hs : sb.Sound) (hb : b ≠ sb.bmapstart) :
    (v.setBlock b d).Backs sb p := by
  refine ⟨fun b' hb' => ?_, h.owned.congr fun b' hb' => used_setBlock hs hb hb'.2⟩
  rw [used_setBlock hs hb (hb'.trans_le sb.dataStart_le)]
  exact h.low b' hb'

/-- A block of a file lies in the data area. -/
theorem Backs.data (h : v.Backs sb p) {k : Nat × Nat} (hk : p k ≠ 0) : sb.Data (p k) :=
  (h.owned.mem k hk).1

/-- A block before the free map belongs to no file. -/
theorem Backs.ne_of_lt (h : v.Backs sb p) (hs : sb.Sound) (hb : b < sb.bmapstart) {k : Nat × Nat}
    (hk : p k ≠ 0) : p k ≠ b := by
  have := (h.data hk).1
  have := hs.bmap_lt
  omega

theorem Backs.ne_bmap (h : v.Backs sb p) (hs : sb.Sound) {k : Nat × Nat} (hk : p k ≠ 0) :
    p k ≠ sb.bmapstart := hs.ne_bmap (h.data hk)

/-- The blocks of files, where the pointers are the same. -/
theorem file_congr (hptr : v'.ptr sb = v.ptr sb)
    (hblock : ∀ k, k.2 ≠ NDIRECT → v.ptr sb k ≠ 0 → v'.block (v.ptr sb k) = v.block (v.ptr sb k)) :
    v'.file sb = v.file sb := by
  funext i bn
  unfold file
  rw [hptr]
  split
  · rfl
  · next hk => rw [hblock _ place_ne hk]

/-- The blocks of files, where one pointer is new. -/
theorem file_update (hptr : v'.ptr sb = update (v.ptr sb) (i, place bn) b) (hb : b ≠ 0)
    (hnew : v'.block b = d) (hblock : ∀ k, k.2 ≠ NDIRECT → k ≠ (i, place bn) → v.ptr sb k ≠ 0 →
      v'.block (v.ptr sb k) = v.block (v.ptr sb k)) :
    v'.file sb = set2 (v.file sb) i bn (some d) := by
  funext i' bn'
  simp only [file, set2, hptr]
  by_cases hk : (i', place bn') = (i, place bn)
  · have hkk : i' = i ∧ bn' = bn := by simpa [place_inj] using hk
    rw [hk, update_self, if_neg hb, if_pos hkk, hnew]
  · have hkk : ¬(i' = i ∧ bn' = bn) := by simpa [place_inj] using hk
    rw [update_of_ne hk, if_neg hkk]
    split
    · rfl
    · next hne => rw [hblock _ place_ne hk hne]

/-- A store before the free map leaves the files. -/
theorem Intact.setBlock_low (h : v.Intact sb) (hs : sb.Sound) (hb : b < sb.bmapstart) :
    (v.setBlock b d).Intact sb ∧ (v.setBlock b d).ptr sb = v.ptr sb ∧
      (v.setBlock b d).file sb = v.file sb := by
  have hptr : (v.setBlock b d).ptr sb = v.ptr sb :=
    ptr_setBlock fun i hi => Backs.ne_of_lt h hs hb hi
  refine ⟨?_, hptr, file_congr hptr fun k _ hk => ?_⟩
  · unfold Intact
    rw [hptr]
    exact Backs.setBlock h hs hb.ne
  · rw [setBlock_block, if_neg (Backs.ne_of_lt h hs hb hk)]

/-- A store to a block of a file. -/
theorem Intact.setBlock_file (h : v.Intact sb) (hs : sb.Sound) (hb : v.ptr sb (i, place bn) ≠ 0) :
    (v.setBlock (v.ptr sb (i, place bn)) d).Intact sb ∧
      (v.setBlock (v.ptr sb (i, place bn)) d).ptr sb = v.ptr sb ∧
      (v.setBlock (v.ptr sb (i, place bn)) d).file sb = set2 (v.file sb) i bn (some d) := by
  have hne : ∀ k, k ≠ (i, place bn) → v.ptr sb k ≠ 0 → v.ptr sb k ≠ v.ptr sb (i, place bn) :=
    fun k hk hp heq => hk (Owned.inj (Backs.owned h) k _ hp heq)
  have hptr : (v.setBlock (v.ptr sb (i, place bn)) d).ptr sb = v.ptr sb := by
    refine ptr_setBlock fun i' hi' => hne _ ?_ hi'
    exact fun heq => place_ne (congrArg Prod.snd heq).symm
  refine ⟨?_, hptr, ?_⟩
  · unfold Intact
    rw [hptr]
    exact Backs.setBlock h hs (Backs.ne_bmap h hs hb)
  · refine file_update (by rw [hptr, update_eq_self]) hb ?_ fun k _ hk hp => ?_
    · rw [setBlock_block, if_pos rfl]
    · rw [setBlock_block, if_neg (hne k hk hp)]

/-! ## Stores to inodes -/

/-- An inode is stored that has the same pointers. -/
theorem ptr_setIno (h : ∀ q ≤ MAXFILE,
      (if i < sb.ninodes ∧ x.type ≠ 0 then x.addrAt v.block q else 0) = v.ptr sb (i, q)) :
    (v.setIno i x).ptr sb = v.ptr sb := by
  funext ⟨i', q⟩
  by_cases hq : q ≤ MAXFILE
  · by_cases hi : i' = i
    · subst hi
      rw [← h q hq]
      simp [ptr, Live, setIno_ino, hq]
    · have hlive : (v.setIno i x).Live sb i' ↔ v.Live sb i' := by simp [Live, setIno_ino, hi]
      simp only [ptr, hlive, setIno_block, setIno_ino, if_neg hi]
  · simp [ptr, hq]

theorem Intact.setIno (h : v.Intact sb) (hptr : (v.setIno i x).ptr sb = v.ptr sb) :
    (v.setIno i x).Intact sb ∧ (v.setIno i x).file sb = v.file sb := by
  refine ⟨?_, file_congr hptr fun _ _ _ => rfl⟩
  unfold Intact
  rw [hptr]
  exact ⟨h.low, h.owned⟩

/-- The fields of an inode other than its pointers. -/
theorem ptr_setIno_same (htype : x.type ≠ 0 ↔ (v.ino i).type ≠ 0)
    (haddrs : x.addrs = (v.ino i).addrs) : (v.setIno i x).ptr sb = v.ptr sb := by
  refine ptr_setIno fun q hq => ?_
  have hat : x.addrAt v.block q = (v.ino i).addrAt v.block q := by
    unfold Dinode.addrAt
    rw [haddrs]
  simp only [ptr, Live, htype, hat, hq, and_true]

/-- A free inode is allocated. -/
theorem ptr_setIno_fresh (hfree : (v.ino i).type = 0) (haddrs : ∀ q, x.addrs q = 0) :
    (v.setIno i x).ptr sb = v.ptr sb := by
  refine ptr_setIno fun q hq => ?_
  have hat : x.addrAt v.block q = 0 := by simp [Dinode.addrAt, haddrs]
  have hp : v.ptr sb (i, q) = 0 := if_neg fun h => h.1.2 hfree
  rw [hat, hp, ite_self]

/-! ## Taking a block -/

theorem take_block {b' : Nat} (hb : b' ≠ b) (hmap : b' ≠ sb.bmapstart) :
    (v.take sb b).block b' = v.block b' := by
  rw [take, setBlock_block, if_neg hb, setBlock_block, if_neg hmap]

theorem take_block_self : (v.take sb b).block b = Bytes.zero := by
  rw [take, setBlock_block, if_pos rfl]

theorem used_take (hs : sb.Sound) (hb : sb.Data b) {b' : Nat} (hb' : b' < sb.size) :
    (v.take sb b).used sb b' = update (v.used sb) b true b' := by
  have hne := hs.ne_bmap hb
  unfold used
  rw [hs.bblock_eq hb', take, setBlock_block, if_neg hne.symm, setBlock_block, if_pos rfl,
    bitSet_setBit (hs.bpb_lt hb.2), Nat.mod_eq_of_lt (hs.bpb_lt hb')]
  by_cases h : b' = b
  · rw [h, update_self, decide_eq_true rfl, Bool.true_or]
  · rw [update_of_ne h, decide_eq_false h, Bool.false_or, hs.bblock_eq hb',
      Nat.mod_eq_of_lt (hs.bpb_lt hb')]

/-- A pointer to the block is set. -/
theorem Backs.take (h : v.Backs sb p) (hs : sb.Sound) (hb : sb.Data b) (hfree : v.used sb b = false)
    {k : Nat × Nat} (hk : p k = 0) : (v.take sb b).Backs sb (update p k b) := by
  refine ⟨fun b' hb' => ?_, (h.owned.alloc hk hb hfree).congr fun b' hb' => used_take hs hb hb'.2⟩
  have hne : b' ≠ b := by
    have := hb.1
    omega
  rw [used_take hs hb (hb'.trans_le sb.dataStart_le), update_of_ne hne]
  exact h.low b' hb'

theorem Backs.take_block (h : v.Backs sb p) (hs : sb.Sound) (hfree : v.used sb b = false)
    {k : Nat × Nat} (hk : p k ≠ 0) : (v.take sb b).block (p k) = v.block (p k) :=
  Volume.take_block (h.owned.ne_of_free hfree hk) (h.ne_bmap hs hk)

/-- The pointers of inodes that have not changed, nor their indirect blocks. -/
theorem ptr_of_ne (hino : ∀ i', i' ≠ i → v'.ino i' = v.ino i')
    (hblock : ∀ i', i' ≠ i → v.ptr sb (i', NDIRECT) ≠ 0 →
      v'.block (v.ptr sb (i', NDIRECT)) = v.block (v.ptr sb (i', NDIRECT)))
    {i' : Nat} (hi : i' ≠ i) : v'.ptr sb (i', q) = v.ptr sb (i', q) := by
  have hlive : v'.Live sb i' ↔ v.Live sb i' := by rw [Live, Live, hino i' hi]
  by_cases hk : v.Live sb i' ∧ q ≤ MAXFILE
  · rw [ptr_of_live hk.1 hk.2, ptr_of_live (hlive.2 hk.1) hk.2, hino i' hi]
    refine Dinode.addrAt_congr fun hx => ?_
    rw [← ptr_indirect hk.1] at hx ⊢
    exact hblock i' hi hx
  · rw [ptr, ptr, if_neg hk, if_neg fun h => hk ⟨hlive.1 h.1, h.2⟩]

/-- The new pointer stands in the inode itself. -/
theorem Intact.allocAddr (h : v.Intact sb) (hs : sb.Sound) (hlive : v.Live sb i) (hq : q ≤ NDIRECT)
    (hzero : (v.ino i).addrs q = 0) (hfree : v.used sb b = false) :
    ((v.take sb b).setIno i ((v.ino i).setAddr q b)).ptr sb = update (v.ptr sb) (i, q) b := by
  have hmax : NDIRECT < MAXFILE := by decide
  have hsame : ∀ k, v.ptr sb k ≠ 0 → (v.take sb b).block (v.ptr sb k) = v.block (v.ptr sb k) :=
    fun k hk => Backs.take_block h hs hfree hk
  funext ⟨i', q'⟩
  by_cases hi : i' = i
  · subst hi
    by_cases hq' : q' ≤ MAXFILE
    · have hlive' : ((v.take sb b).setIno i' ((v.ino i').setAddr q b)).Live sb i' := by
        simpa [Live, setIno_ino, Dinode.setAddr] using hlive
      rw [ptr_of_live hlive' hq', setIno_ino, if_pos rfl, setIno_block]
      by_cases hdirect : q' ≤ NDIRECT
      · rw [Dinode.addrAt_direct hdirect, Dinode.setAddr_addrs]
        by_cases heq : q' = q
        · rw [if_pos heq, heq, update_self]
        · rw [if_neg heq, update_of_ne (by simpa using heq), ptr_of_live hlive hq',
            Dinode.addrAt_direct hdirect]
      · have hne : q' ≠ q := by omega
        rw [update_of_ne (by simpa using hne), ptr_of_live hlive hq']
        by_cases hind : q = NDIRECT
        · -- the indirect block is new, and empty
          subst hind
          rw [Dinode.addrAt_zero hzero (by omega), Dinode.addrAt, if_neg hdirect,
            Dinode.setAddr_addrs, if_pos rfl, take_block_self, Bytes.getLE_zero, ite_self]
        · simp only [Dinode.addrAt, if_neg hdirect, Dinode.setAddr_addrs, if_neg (Ne.symm hind)]
          split
          · rfl
          · next hx =>
            rw [← ptr_indirect hlive] at hx ⊢
            rw [hsame _ hx]
    · rw [update_of_ne (by simp; omega), ptr, ptr, if_neg (by simp [hq']), if_neg
        (by simp [hq'])]
  · rw [update_of_ne (by simp [hi])]
    refine ptr_of_ne ?_ ?_ hi
    · intro i1 h1
      rw [setIno_ino, if_neg h1]
      rfl
    · exact fun i1 _ hk => hsame _ hk

/-- The new pointer stands in the indirect block. -/
theorem Intact.allocEntry (h : v.Intact sb) (hs : sb.Sound) (hlive : v.Live sb i) {j : Nat}
    (hj : j < NINDIRECT) (hind : (v.ino i).addrs NDIRECT ≠ 0) (hb : sb.Data b)
    (hfree : v.used sb b = false) :
    ((v.take sb b).setBlock ((v.ino i).addrs NDIRECT)
      ((v.block ((v.ino i).addrs NDIRECT)).setLE (4 * j) 4 b)).ptr sb =
      update (v.ptr sb) (i, NDIRECT + 1 + j) b := by
  have hsame : ∀ k, v.ptr sb k ≠ 0 → (v.take sb b).block (v.ptr sb k) = v.block (v.ptr sb k) :=
    fun k hk => Backs.take_block h hs hfree hk
  have hmax : MAXFILE = NDIRECT + NINDIRECT := rfl
  have hn : NINDIRECT = 128 := rfl
  funext ⟨i', q'⟩
  by_cases hi : i' = i
  · subst hi
    by_cases hq' : q' ≤ MAXFILE
    · rw [ptr_of_live (by exact hlive) hq']
      by_cases hdirect : q' ≤ NDIRECT
      · rw [Dinode.addrAt_direct hdirect, update_of_ne (by simp; omega),
          ptr_of_live hlive hq', Dinode.addrAt_direct hdirect]
        rfl
      · obtain ⟨j', rfl⟩ : ∃ j', q' = NDIRECT + 1 + j' := ⟨q' - (NDIRECT + 1), by omega⟩
        rw [Dinode.addrAt_indirect (by exact hind), setBlock_block, if_pos (by rfl)]
        by_cases hjj : j' = j
        · rw [hjj, update_self, Bytes.getLE_setLE _ _ (by simp only [BSIZE]; omega)]
          have := hb.2.trans_le hs.size_le
          exact Nat.mod_eq_of_lt (this.trans (by decide))
        · rw [update_of_ne (by simpa using hjj),
            Bytes.getLE_setLE_of_disjoint _ _ (by omega), ptr_of_live hlive hq',
            Dinode.addrAt_indirect hind]
    · rw [update_of_ne (by simp; omega), ptr, ptr, if_neg (by simp [hq']), if_neg
        (by simp [hq'])]
  · rw [update_of_ne (by simp [hi])]
    refine ptr_of_ne ?_ ?_ hi
    · exact fun _ _ => rfl
    intro i1 h1 hk
    have hne : v.ptr sb (i1, NDIRECT) ≠ (v.ino i).addrs NDIRECT := by
      rw [← ptr_indirect hlive]
      exact fun heq => h1 (congrArg Prod.fst (h.owned.inj _ _ hk heq))
    rw [setBlock_block, if_neg hne, hsame _ hk]

/-- A file gets a block, at an index where it had none. -/
structure Maps (sb : Superblock) (v v' : Volume) (i bn b : Nat) : Prop where
  intact : v'.Intact sb
  ptr : v'.ptr sb (i, place bn) = b
  pos : b ≠ 0
  other : ∀ i', i' ≠ i → v'.ino i' = v.ino i'
  self : ∃ a, v'.ino i = { v.ino i with addrs := a }
  file : v'.file sb = set2 (v.file sb) i bn (some Bytes.zero)

theorem Intact.take_setIno (h : v.Intact sb) (hs : sb.Sound) (hlive : v.Live sb i)
    (hq : q ≤ NDIRECT) (hzero : (v.ino i).addrs q = 0) (hb : sb.Data b)
    (hfree : v.used sb b = false) : ((v.take sb b).setIno i ((v.ino i).setAddr q b)).Intact sb := by
  have hp : v.ptr sb (i, q) = 0 := by
    have hmax : NDIRECT < MAXFILE := by decide
    rw [ptr_of_live hlive (by omega), Dinode.addrAt_direct hq, hzero]
  have hbacks := Backs.take h hs hb hfree hp
  unfold Intact
  rw [h.allocAddr hs hlive hq hzero hfree]
  exact ⟨hbacks.low, hbacks.owned⟩

/-- A direct block. -/
theorem Intact.maps_direct (h : v.Intact sb) (hs : sb.Sound) (hlive : v.Live sb i)
    (hbn : bn < NDIRECT) (hzero : (v.ino i).addrs bn = 0) (hb : sb.Data b)
    (hfree : v.used sb b = false) :
    Maps sb v ((v.take sb b).setIno i ((v.ino i).setAddr bn b)) i bn b := by
  have hptr := h.allocAddr hs hlive hbn.le hzero hfree
  have hplace := place_direct hbn
  refine ⟨h.take_setIno hs hlive hbn.le hzero hb hfree, ?_, hs.data_ne_zero hb,
    fun i' hi => ?_, ?_, ?_⟩
  · rw [hptr, hplace, update_self]
  · rw [setIno_ino, if_neg hi]
    rfl
  · exact ⟨_, by rw [setIno_ino, if_pos rfl, Dinode.setAddr]⟩
  · refine file_update (by rw [hptr, hplace]) (hs.data_ne_zero hb) ?_ fun k _ _ hk => ?_
    · exact take_block_self
    · exact Backs.take_block h hs hfree hk

/-- The indirect block itself, which leaves the files as they were. -/
theorem Intact.file_indirect (h : v.Intact sb) (hs : sb.Sound) (hlive : v.Live sb i)
    (hzero : (v.ino i).addrs NDIRECT = 0) (hfree : v.used sb b = false) :
    ((v.take sb b).setIno i ((v.ino i).setAddr NDIRECT b)).file sb = v.file sb := by
  have hptr := h.allocAddr hs hlive le_rfl hzero hfree
  have hne : ∀ i' bn', (i', place bn') ≠ (i, NDIRECT) :=
    fun i' bn' e => place_ne (congrArg Prod.snd e)
  funext i' bn'
  simp only [file, hptr, update_of_ne (hne i' bn'), setIno_block]
  split
  · rfl
  · next hk => rw [Backs.take_block h hs hfree hk]

/-- An inode has got an indirect block, which is empty. -/
structure Indirected (sb : Superblock) (v v' : Volume) (i b : Nat) : Prop where
  intact : v'.Intact sb
  live : v'.Live sb i
  used : v'.used sb b = true
  zero : v'.block b = Bytes.zero
  other : ∀ i', i' ≠ i → v'.ino i' = v.ino i'
  self : v'.ino i = (v.ino i).setAddr NDIRECT b
  file : v'.file sb = v.file sb

theorem Indirected.addr (h : Indirected sb v v' i b) : (v'.ino i).addrs NDIRECT = b := by
  rw [h.self, Dinode.setAddr_addrs, if_pos rfl]

theorem Intact.indirected (h : v.Intact sb) (hs : sb.Sound) (hlive : v.Live sb i)
    (hzero : (v.ino i).addrs NDIRECT = 0) (hb : sb.Data b) (hfree : v.used sb b = false) :
    Indirected sb v ((v.take sb b).setIno i ((v.ino i).setAddr NDIRECT b)) i b := by
  have hI := h.take_setIno hs hlive le_rfl hzero hb hfree
  have hself : ((v.take sb b).setIno i ((v.ino i).setAddr NDIRECT b)).ino i =
      (v.ino i).setAddr NDIRECT b := by rw [setIno_ino, if_pos rfl]
  have hlive' : ((v.take sb b).setIno i ((v.ino i).setAddr NDIRECT b)).Live sb i :=
    ⟨hlive.1, by rw [hself]; exact hlive.2⟩
  refine ⟨hI, hlive', ?_, take_block_self, fun i' hi => ?_, hself, h.file_indirect hs
    hlive hzero hfree⟩
  · have hp := ptr_indirect hlive'
    rw [hself, Dinode.setAddr_addrs, if_pos rfl] at hp
    have hmem := (hI.owned.mem (i, NDIRECT) (by rw [hp]; exact hs.data_ne_zero hb)).2
    rwa [hp] at hmem
  · rw [setIno_ino, if_neg hi]
    rfl

/-- A block listed in the indirect block. -/
theorem Intact.maps_indirect (h : v.Intact sb) (hs : sb.Sound) (hlive : v.Live sb i) {j : Nat}
    (hj : j < NINDIRECT) (hind : (v.ino i).addrs NDIRECT ≠ 0)
    (hzero : (v.block ((v.ino i).addrs NDIRECT)).getLE (4 * j) 4 = 0) (hb : sb.Data b)
    (hfree : v.used sb b = false) :
    Maps sb v ((v.take sb b).setBlock ((v.ino i).addrs NDIRECT)
      ((v.block ((v.ino i).addrs NDIRECT)).setLE (4 * j) 4 b)) i (NDIRECT + j) b := by
  have hptr := h.allocEntry hs hlive hj hind hb hfree
  have hle : NDIRECT + 1 + j ≤ MAXFILE := by
    have hmax : MAXFILE = NDIRECT + NINDIRECT := rfl
    omega
  have hp : v.ptr sb (i, NDIRECT + 1 + j) = 0 := by
    rw [ptr_of_live hlive hle, Dinode.addrAt_indirect hind, hzero]
  have hpind := ptr_indirect hlive
  have hpne : v.ptr sb (i, NDIRECT) ≠ 0 := by rwa [hpind]
  have hne : b ≠ (v.ino i).addrs NDIRECT := by
    rw [← hpind]
    exact (h.owned.ne_of_free hfree hpne).symm
  refine ⟨?_, ?_, hs.data_ne_zero hb, fun _ _ => rfl, ⟨_, rfl⟩, ?_⟩
  · have hbacks := Backs.take h hs hb hfree hp
    unfold Intact
    rw [hptr]
    refine Backs.setBlock ⟨hbacks.low, hbacks.owned⟩ hs ?_
    rw [← hpind]
    exact Backs.ne_bmap h hs hpne
  · rw [hptr, place_indirect, update_self]
  · refine file_update (by rw [hptr, place_indirect]) (hs.data_ne_zero hb) ?_ fun k hk _ hkp => ?_
    · rw [setBlock_block, if_neg hne, take_block_self]
    · have hkind : v.ptr sb k ≠ (v.ino i).addrs NDIRECT := by
        rw [← hpind]
        exact fun heq => hk (congrArg Prod.snd (h.owned.inj _ _ hkp heq))
      rw [setBlock_block, if_neg hkind, Backs.take_block h hs hfree hkp]

end Volume

end Xv6Rework
