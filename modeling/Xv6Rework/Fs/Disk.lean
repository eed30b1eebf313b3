import Xv6Rework.Fs.Blocks
import Xv6Rework.Fs.Effects

/-!
# Inodes in memory and on disk

`Disk` relates a state to the volumes of its drives.  The inodes of a volume are those
that count: the copy in memory for an inode that is cached and valid, and what is on disk
for the others.  The two may differ for one inode, which is then `stale` on disk; this
happens inside functions only.

The rules are for finding the blocks of a file.
-/

namespace Xv6Rework.Fs

open Prog

/-- The state has these volumes on its drives, and these buffers held. -/
structure Disk (D : Drives) (s : Fs) (vol : Volumes) (held : List (Fin NBUF × BlockId))
    (stale : Option (Nat × Nat)) : Prop where
  blocks : Blocks D s.store vol held
  sound : ∀ d ∈ D, (s.superblock d).Sound
  mem : ∀ ip, 0 < (s.inode ip).ref → (s.inode ip).dev ∈ D → (s.inode ip).valid = true →
    (s.inode ip).toDinode = (vol (s.inode ip).dev).ino (s.inode ip).inum
  disk : ∀ d ∈ D, ∀ i < (s.superblock d).ninodes, stale ≠ some (d, i) →
    Dinode.ofBlock ((vol d).block (IBLOCK i (s.superblock d))) (i % IPB) = (vol d).ino i
  fits : ∀ d ∈ D, ∀ i, ((vol d).ino i).Fits
  range : ∀ ip, 0 < (s.inode ip).ref → (s.inode ip).dev ∈ D →
    (s.inode ip).inum < (s.superblock (s.inode ip).dev).ninodes
  unique : ∀ ip ip', 0 < (s.inode ip).ref → 0 < (s.inode ip').ref →
    (s.inode ip).dev = (s.inode ip').dev → (s.inode ip).inum = (s.inode ip').inum → ip = ip'

/-- An entry of the cache that has an inode of a drive. -/
structure At (D : Drives) (s : Fs) (ip : Slot) (d i : Nat) : Prop where
  mem : d ∈ D
  ref : 0 < (s.inode ip).ref
  dev : (s.inode ip).dev = d
  inum : (s.inode ip).inum = i
  valid : (s.inode ip).valid = true

section

variable {α : Type} {D : Drives} {E : Stop → Prop} {l : Log} {s s' : Fs} {st : Store}
  {tr : List Event} {vol vol' : Volumes} {held held' : List (Fin NBUF × BlockId)}
  {stale stale' : Option (Nat × Nat)} {ip : Slot} {bp : Fin NBUF} {d i b q bn : Nat} {V : Volume}
  {sb : Superblock}

/-- What is known of a quiet function comes for free. -/
theorem within_quiet {x : FsM α} {Q : α → Fs → Prop} (hx : Keeps Quiet x)
    (h : within E x (fun a s' => Quiet s s' → Q a s') s) : within E x Q s := by
  rw [within, wp_iff] at h ⊢
  exact ⟨fun a s' hrun => h.1 a s' hrun (hx s a s' hrun), h.2⟩

theorem Quiet.superblock (h : Quiet s s') : s'.superblock = s.superblock := by
  funext d
  simp only [Fs.superblock, h.tables]

theorem At.quiet (h : At D s ip d i) (hq : Quiet s s') : At D s' ip d i := by
  have hframe := hq.inode ip
  refine ⟨h.mem, ?_, ?_, ?_, ?_⟩
  · rw [show (s'.inode ip).ref = (s.inode ip).ref from (congrArg Inode.ref hframe :)]
    exact h.ref
  · exact (congrArg Inode.dev hframe :).trans h.dev
  · exact (congrArg Inode.inum hframe :).trans h.inum
  · exact (congrArg Inode.valid hframe :).trans h.valid

theorem Disk.at (h : Disk D s vol held stale) (hat : At D s ip d i) :
    (s.inode ip).toDinode = (vol d).ino i ∧ i < (s.superblock d).ninodes := by
  obtain ⟨hmem, href, rfl, rfl, hvalid⟩ := hat
  exact ⟨h.mem ip href hmem hvalid, h.range ip href hmem⟩

/-- The store has changed, but not the inodes. -/
theorem Disk.store (h : Disk D s vol held stale) (hb : Blocks D st vol' held')
    (hino : ∀ d ∈ D, (vol' d).ino = (vol d).ino)
    (hdisk : ∀ d ∈ D, ∀ i < (s.superblock d).ninodes, stale' ≠ some (d, i) →
      Dinode.ofBlock ((vol' d).block (IBLOCK i (s.superblock d))) (i % IPB) = (vol d).ino i) :
    Disk D { s with store := st, trace := tr } vol' held' stale' where
  blocks := hb
  sound := h.sound
  mem ip href hdev hvalid := by
    rw [hino _ hdev]
    exact h.mem ip href hdev hvalid
  disk d hd i hi hstale := by
    rw [hino d hd]
    exact hdisk d hd i hi hstale
  fits d hd i := by
    rw [hino d hd]
    exact h.fits d hd i
  range := h.range
  unique := h.unique

/-- Nothing but the state of buffers has changed. -/
theorem Disk.same (h : Disk D s vol held stale) (hb : Blocks D st vol held') :
    Disk D { s with store := st, trace := tr } vol held' stale :=
  h.store hb (fun _ _ => rfl) h.disk

/-! ## The blocks of a file -/

/-- A pointer in the inode that is set. -/
theorem within_bmapAddr_mapped {Q : Nat → Fs → Prop} (h : Disk D s vol held stale)
    (hat : At D s ip d i) (hq : ((vol d).ino i).addrs q ≠ 0) (ok : Q (((vol d).ino i).addrs q) s) :
    within E (bmapAddr ip q) Q s := by
  simp only [bmapAddr, wp_bind, wp_gets, wp_ite, wp_pure, (h.at hat).1]
  exact ⟨fun hzero => absurd hzero hq, fun _ => ok⟩

/-- An entry of the indirect block that is set. -/
theorem within_bmapIndirect_mapped {Q : Nat → Fs → Prop} {j : Nat} (hE : Supplied E l s.store)
    (h : Disk D s vol [] stale) (hd : d ∈ D) (hb : b < FSSIZE)
    (hj : ((vol d).block b).getLE (4 * j) 4 ≠ 0)
    (ok : ∀ s', Quiet s s' → Supplied E l s'.store → Disk D s' vol [] stale →
      Q (((vol d).block b).getLE (4 * j) 4) s') :
    within E (bmapIndirect d b j) Q s := by
  refine within_quiet bmapIndirect_quiet ?_
  simp only [bmapIndirect, wp_bind, data, wp_gets, wp_ite, wp_pure]
  refine within_bread_supplied hE h.blocks (by decide) hd hb (by simp) fun bp st1 hE1 h1 => ?_
  simp only [h1.data hd List.mem_cons_self]
  refine ⟨fun hzero => absurd hzero hj, fun _ => ?_⟩
  exact within_brelse_supplied hE1 h1 fun st2 hE2 h2 hquiet => ok _ hquiet hE2 (h.same h2)

/-- `bmap` of a block that the file has. -/
theorem within_bmap_mapped {Q : Nat → Fs → Prop} (hE : Supplied E l s.store)
    (h : Disk D s vol [] stale) (hI : (vol d).Intact (s.superblock d)) (hat : At D s ip d i)
    (hp : (vol d).ptr (s.superblock d) (i, place bn) ≠ 0)
    (ok : ∀ s', Quiet s s' → Supplied E l s'.store → Disk D s' vol [] stale →
      Q ((vol d).ptr (s.superblock d) (i, place bn)) s') : within E (bmap ip bn) Q s := by
  obtain ⟨hlive, hle⟩ := Volume.live_of_ptr hp
  have hptr := Volume.ptr_of_live hlive hle
  rw [hptr] at hp ok
  simp only [bmap, wp_ite, wp_bind, wp_gets, wp_halt]
  refine ⟨fun hbn => ?_, fun hbn => ⟨fun hj => ?_, fun hge => ?_⟩⟩
  · rw [place_direct hbn, Dinode.addrAt_direct hbn.le] at hp ok
    exact within_bmapAddr_mapped h hat hp (ok s (refl s) hE h)
  · obtain ⟨j, rfl⟩ : ∃ j, bn = NDIRECT + j := ⟨bn - NDIRECT, by omega⟩
    have hind : ((vol d).ino i).addrs NDIRECT ≠ 0 := by
      intro hzero
      rw [place_indirect, Dinode.addrAt_zero hzero (by omega)] at hp
      exact hp rfl
    rw [place_indirect, Dinode.addrAt_indirect hind] at hp ok
    refine within_bmapAddr_mapped h hat hind ?_
    rw [hat.dev, Nat.add_sub_cancel_left]
    have hpind : (vol d).ptr (s.superblock d) (i, NDIRECT) ≠ 0 := by rwa [Volume.ptr_indirect hlive]
    have hdata := Volume.Backs.data hI hpind
    rw [Volume.ptr_indirect hlive] at hdata
    exact within_bmapIndirect_mapped hE h hat.mem (hdata.2.trans_le (h.sound d hat.mem).size_le) hp
      ok
  · have hmax : MAXFILE = NDIRECT + NINDIRECT := rfl
    rw [place, if_neg hbn] at hle
    omega

end

end Xv6Rework.Fs
