import Xv6Rework.User.MkfsVolume

/-!
# The geometry of an image

`mkfs` numbers blocks and inodes as it needs them, and compares the counters with nothing but the
bits of one bitmap block.  A block that is not in the image is noticed all the same: `iappend`
reads a block before it writes it, and there is nothing to read behind the last sector.  Nothing
notices an inode with a number that the super block does not allow for, and the size of the root
directory is rounded up to the next block even when its last block is full.
-/

namespace Xv6Rework.Mkfs

open Prog
open Fs (IBLOCK)

/-- An inode of the image. -/
def inodeAt (image : Nat → Block) (i : Nat) : Dinode :=
  Dinode.ofBlock (image (IBLOCK i mkfsSb)) (i % IPB)

/-- The blocks and inodes that were allocated are those that the super block speaks of, and each
inode has all blocks of its size. -/
structure Geometry (m : Mkfs) : Prop where
  blocks : ∀ b, nmeta ≤ b → b < m.freeblock → b < FSSIZE
  inodes : ∀ i, ROOTINO ≤ i → i < m.freeinode → i < NINODES
  mapped : ∀ i, ROOTINO ≤ i → i < m.freeinode → ∀ bn, bn <
    ((inodeAt m.image i).size + (BSIZE - 1)) / BSIZE → (inodeAt m.image i).addrAt m.image
    (place bn) ≠ 0

/-! ## The number of inodes -/

theorem keeps_rsect (sec : Nat) : Keeps (Same freeinode) (rsect sec) :=
  .bind .gets fun _ => .ite .gets .halt

theorem keeps_wsect (sec : Nat) (buf : Block) : Keeps (Same freeinode) (wsect sec buf) :=
  .update fun _ => rfl

theorem keeps_winode (inum : Nat) (ip : Dinode) : Keeps (Same freeinode) (winode inum ip) :=
  .bind (keeps_rsect _) fun _ => keeps_wsect _ _

theorem keeps_rinode (inum : Nat) : Keeps (Same freeinode) (rinode inum) :=
  .bind (keeps_rsect _) fun _ => .pure

theorem keeps_nextBlock : Keeps (Same freeinode) nextBlock :=
  .bind .gets fun _ => .bind (.update fun _ => rfl) fun _ => .pure

theorem keeps_appendAddr (din : Dinode) (q : Nat) : Keeps (Same freeinode) (appendAddr din q) :=
  .ite (.bind keeps_nextBlock fun _ => .pure) .pure

theorem keeps_appendIndirect (din : Dinode) (j : Nat) :
    Keeps (Same freeinode) (appendIndirect din j) :=
  .bind (keeps_rsect _) fun _ =>
    .ite (.bind keeps_nextBlock fun _ => .bind (keeps_wsect _ _) fun _ => .pure) .pure

theorem keeps_appendBlock (din : Dinode) (fbn : Nat) :
    Keeps (Same freeinode) (appendBlock din fbn) :=
  .ite (.bind (keeps_appendAddr _ _) fun _ => .pure)
    (.bind (keeps_appendAddr _ _) fun _ => keeps_appendIndirect _ _)

theorem keeps_appendLoop (k : Nat) (din : Dinode) (p : Nat → UInt8) (off n : Nat) :
    Keeps (Same freeinode) (appendLoop k din p off n) := by
  induction k generalizing din p off n with
  | zero => exact .pure
  | succ k ih =>
    refine .ite .pure (.ite .halt (.bind (keeps_appendBlock _ _) fun _ => ?_))
    exact .bind (keeps_rsect _) fun _ => .bind (keeps_wsect _ _) fun _ => ih _ _ _ _

theorem keeps_iappend (inum : Nat) (xp : List UInt8) : Keeps (Same freeinode) (iappend inum xp) :=
  .bind (keeps_rinode _) fun _ => .bind (keeps_appendLoop _ _ _ _ _) fun _ => keeps_winode _ _

/-- `n` inodes are allocated. -/
def Allots (n : Nat) (m m' : Mkfs) : Prop := m'.freeinode = m.freeinode + n

theorem Allots.bind {α β : Type} {x : MkfsM α} {f : α → MkfsM β} {a b : Nat}
    (hx : Keeps (Allots a) x) (hf : ∀ r, Keeps (Allots b) (f r)) :
    Keeps (Allots (a + b)) (x >>= f) := by
  intro m r m' h
  obtain ⟨s, m1, h1, h2⟩ := bind_eq_ok h
  have hfirst : m1.freeinode = m.freeinode + a := hx m s m1 h1
  have hrest : m'.freeinode = m1.freeinode + b := hf s m1 r m' h2
  show m'.freeinode = m.freeinode + (a + b)
  omega

theorem Allots.none {α : Type} {x : MkfsM α} (h : Keeps (Same freeinode) x) :
    Keeps (Allots 0) x := h

theorem allots_ialloc (type : Nat) : Keeps (Allots 1) (ialloc type) := by
  intro m inum m' h
  obtain ⟨i, m1, ⟨⟩, h⟩ := bind_eq_ok h
  obtain ⟨-, m2, ⟨⟩, h⟩ := bind_eq_ok h
  have hrest : ∀ ip, Keeps (Same freeinode) (do winode m.freeinode ip; pure m.freeinode) := fun _ =>
    .bind (keeps_winode _ _) fun _ => .pure
  exact hrest _ _ _ _ h

theorem allots_addFile (rootino : Nat) (f : Input) : Keeps (Allots 1) (addFile rootino f) :=
  .ite .halt (Allots.bind (allots_ialloc _) fun _ => Allots.none
    (.bind (keeps_iappend _ _) fun _ => .forM fun _ => keeps_iappend _ _))

theorem allots_files (rootino : Nat) (files : List Input) :
    Keeps (Allots files.length) (files.forM (addFile rootino)) := by
  induction files with
  | nil => exact Allots.none .pure
  | cons f files ih =>
    rw [List.length_cons, Nat.add_comm]
    exact Allots.bind (allots_addFile rootino f) fun _ => ih

theorem keeps_format : Keeps (Same freeinode) format :=
  .bind (.update fun _ => rfl) fun _ => .bind (.forM fun _ => keeps_wsect _ _) fun _ =>
    keeps_wsect _ _

theorem allots_makeRoot : Keeps (Allots 1) makeRoot :=
  Allots.bind (allots_ialloc _) fun _ => Allots.none
    (.ite (.bind (keeps_iappend _ _) fun _ => .bind (keeps_iappend _ _) fun _ => .pure) .halt)

/-- The root and each file have an inode. -/
theorem allots_main (files : List Input) : Keeps (Allots (files.length + 1)) (main files) := by
  have hend : ∀ rootino, Keeps (Same freeinode) (do
      fixSize rootino
      balloc (← gets Mkfs.freeblock)) := by
    refine fun rootino => .bind (.bind (keeps_rinode _) fun _ => keeps_winode _ _) fun _ => ?_
    exact .bind .gets fun _ => .ite (keeps_wsect _ _) .halt
  have hsum : files.length + 1 = 0 + (1 + (files.length + 0)) := by omega
  rw [hsum]
  exact Allots.bind (Allots.none keeps_format) fun _ => Allots.bind allots_makeRoot fun rootino =>
    Allots.bind (allots_files rootino files) fun _ => Allots.none (hend rootino)

/-! ## The blocks of the inodes -/

section

variable {m : Mkfs} {V : Volume} {files : List Input} {i n bn : Nat}

theorem Ends.inodeAt_eq (h : Ends m V files) (hi : i < NINODES) : inodeAt m.image i = V.ino i :=
  h.made.ino i hi

/-- The address of a block, as the kernel follows it. -/
theorem Ends.addrAt_ne_zero (h : Ends m V files) (hi : i < NINODES)
    (hfile : V.file mkfsSb i bn ≠ none) : (inodeAt m.image i).addrAt m.image (place bn) ≠ 0 := by
  have hp : V.ptr mkfsSb (i, place bn) ≠ 0 := fun hp => hfile (if_pos hp)
  obtain ⟨hlive, hmax⟩ := Volume.live_of_ptr hp
  rwa [Volume.ptr_of_live hlive hmax, ← h.inodeAt_eq hi, h.made.block] at hp

theorem Ends.addrAt_eq_zero (h : Ends m V files) (hi : i < NINODES) (htype : (V.ino i).type ≠ 0)
    (hbn : place bn ≤ MAXFILE) (hfile : V.file mkfsSb i bn = none) :
    (inodeAt m.image i).addrAt m.image (place bn) = 0 := by
  have hp : V.ptr mkfsSb (i, place bn) = 0 := by
    by_contra hp
    exact absurd hfile (by simp [Volume.file, hp])
  rwa [Volume.ptr_of_live ⟨hi, htype⟩ hbn, ← h.inodeAt_eq hi, h.made.block] at hp

/-- The last block of the root directory is missing when its entries fill their blocks. -/
theorem Ends.not_geometry (h : Ends m V files) (hcount : files.length + 1 < NINODES)
    (hfull : (files.length + 2) % (BSIZE / DIRENTSIZE) = 0) : ¬Geometry m := by
  intro hgeo
  have hroot : ROOTINO < NINODES := by decide
  have hfree := h.freeinode
  have hbytes : DIRENTSIZE * (files.length + 2) / BSIZE * BSIZE =
      DIRENTSIZE * (files.length + 2) := by
    simp only [BSIZE, DIRENTSIZE] at *
    omega
  refine hgeo.mapped ROOTINO le_rfl (by rw [hfree, ROOTINO]; omega)
    (DIRENTSIZE * (files.length + 2) / BSIZE) ?_ ?_
  · rw [h.inodeAt_eq hroot, h.size]
    simp only [BSIZE]
    omega
  · refine h.addrAt_eq_zero hroot (by rw [h.made.rootType]; decide) ?_ ?_
    · have hplace : ∀ bn, place bn ≤ bn + 1 := fun bn => by
        unfold place
        split <;> omega
      refine (hplace _).trans ?_
      simp only [NINODES, BSIZE, DIRENTSIZE, NDIRECT, MAXFILE, NINDIRECT] at *
      omega
    · by_contra hfile
      have := (h.sized.file _).1 hfile
      omega

/-- Otherwise all blocks are there. -/
theorem Ends.geometry (h : Ends m V files) (hcount : files.length + 1 < NINODES)
    (hpart : (files.length + 2) % (BSIZE / DIRENTSIZE) ≠ 0) : Geometry m where
  blocks b _ hb := by
    have := h.freeblock
    have := h.room
    omega
  inodes i _ hi := by
    have := h.freeinode
    omega
  mapped i hlow hi bn hbn := by
    have hlt : i < NINODES := by
      have := h.freeinode
      omega
    rw [h.inodeAt_eq hlt] at hbn
    refine h.addrAt_ne_zero hlt ?_
    by_cases hroot : i = ROOTINO
    · subst hroot
      rw [h.size] at hbn
      refine (h.sized.file bn).2 ?_
      simp only [BSIZE, DIRENTSIZE] at *
      omega
    · obtain ⟨k, rfl⟩ : ∃ k, i = k + 2 := ⟨i - 2, by rw [ROOTINO] at *; omega⟩
      have hfile := h.made.file k (by have := h.freeinode; omega)
      rw [hfile.size] at hbn
      refine (hfile.sized.file bn).2 ?_
      simp only [BSIZE] at *
      omega

end

/-- How a run of `main` that gets to the end leaves the image. -/
theorem ends_of_run {files : List Input} {m : Mkfs} (hcount : files.length + 1 < NINODES)
    (hrun : main files start = (.ok (), m)) : ∃ V, Ends m V files := by
  -- the run is named, so that nothing evaluates it
  obtain ⟨x, hx⟩ : ∃ x, x = main files := ⟨_, rfl⟩
  obtain ⟨m0, hm0⟩ : ∃ m, m = start := ⟨_, rfl⟩
  rw [← hx, ← hm0] at hrun
  exact ((wp_iff.1 (wp_main hx hm0 hcount)).1 () m hrun).1

/-- `main` gets to the end with files that are suitable. -/
theorem Suitable.runs {files : List Input} (hfiles : Suitable files)
    (hslash : ∀ f ∈ files, slash ∉ f.name) : ∃ m V, main files start = (.ok (), m) ∧
    Ends m V files := by
  obtain ⟨x, hx⟩ : ∃ x, x = main files := ⟨_, rfl⟩
  obtain ⟨m0, hm0⟩ : ∃ m, m = start := ⟨_, rfl⟩
  have hmain := wp_iff.1 (wp_main hx hm0 hfiles.inodes)
  rw [← hx, ← hm0]
  rcases hrun : x m0 with ⟨e | ⟨⟩, m⟩
  · rcases hmain.2 e m hrun with ⟨f, hf, hs⟩ | hno
    · exact absurd hs (hslash f hf)
    · exact absurd hfiles hno
  · obtain ⟨⟨V, hends⟩, -⟩ := hmain.1 () m hrun
    exact ⟨m, V, rfl, hends⟩

/-- An image respects its geometry exactly when there are inodes for all files and the entries of
the root directory do not fill its blocks. -/
theorem geometry_iff (files : List Input) (m : Mkfs) (hrun : main files start = (.ok (), m)) :
    Geometry m ↔ files.length + 1 < NINODES ∧ (files.length + 2) % (BSIZE / DIRENTSIZE) ≠ 0 := by
  have hinode : m.freeinode = start.freeinode + (files.length + 1) := allots_main files _ _ _ hrun
  have hstart : start.freeinode = 1 := rfl
  by_cases hcount : files.length + 1 < NINODES
  · obtain ⟨V, hends⟩ := ends_of_run hcount hrun
    constructor
    · intro hgeo
      exact ⟨hcount, fun hfull => hends.not_geometry hcount hfull hgeo⟩
    · rintro ⟨-, hpart⟩
      exact hends.geometry hcount hpart
  · constructor
    · intro hgeo
      have := hgeo.inodes (files.length + 1) (by rw [ROOTINO]; omega) (by omega)
      exact absurd this hcount
    · rintro ⟨hlt, -⟩
      exact absurd hlt hcount

/-- A file `a` that is empty. -/
def emptyFile : Input := ⟨[97], [], by simp, (by rintro _ ⟨⟩), (by rintro _ ⟨⟩)⟩

theorem runs_replicate {n : Nat} (h : Suitable (List.replicate n emptyFile)) :
    ∃ m V, main (List.replicate n emptyFile) start = (.ok (), m) ∧
    Ends m V (List.replicate n emptyFile) := by
  refine h.runs fun f hf => ?_
  rw [List.eq_of_mem_replicate hf]
  decide

/-- With 29 files the root directory has 31 entries, and room for one more in its block. -/
theorem geometry_files :
    ∃ m, main (List.replicate 29 emptyFile) start = (.ok (), m) ∧ Geometry m := by
  obtain ⟨m, V, hrun, -⟩ := runs_replicate (n := 29) ⟨by decide, by decide, by decide⟩
  exact ⟨m, hrun, (geometry_iff _ m hrun).2 (by decide)⟩

/-- With thirty files the root directory has 32 entries in a block, and a size of two blocks. -/
theorem not_geometry_thirty :
    ∃ m, main (List.replicate 30 emptyFile) start = (.ok (), m) ∧ ¬Geometry m := by
  obtain ⟨m, V, hrun, hends⟩ := runs_replicate (n := 30) ⟨by decide, by decide, by decide⟩
  exact ⟨m, hrun, hends.not_geometry (by decide) (by decide)⟩

end Xv6Rework.Mkfs
