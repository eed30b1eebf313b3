import Xv6Rework.Fs.Contents

/-!
# Finding an inode and reading it

The rules for `iget`, `ilock`, `readi` and `dirlookup` on the volumes that a state has.
None of these functions changes a volume, as long as what is read are blocks that files
have.

What may stop them is asked for where it comes up: a buffer (`Supplied`), an entry of the
inode cache, and locks that are free.
-/

namespace Xv6Rework

/-- The bytes of a file from an offset on. -/
def Volume.bytes (sb : Superblock) (v : Volume) (i off n : Nat) : List UInt8 :=
  (List.range n).map fun o => v.byte sb i (off + o)

/-- The `k`-th entry of a directory. -/
def Volume.dirent (sb : Superblock) (v : Volume) (i k : Nat) : Dirent :=
  .ofBytes (v.bytes sb i (DIRENTSIZE * k) DIRENTSIZE)

/-- A file has the blocks of its first `n` bytes. -/
def Volume.Mapped (sb : Superblock) (v : Volume) (i n : Nat) : Prop :=
  ∀ o < n, v.file sb i (o / BSIZE) ≠ none

/-- The first entry of a directory with a name. -/
structure Volume.Finds (sb : Superblock) (v : Volume) (i : Nat) (name : List UInt8) (k : Nat) :
    Prop where
  live : (v.dirent sb i k).inum ≠ 0
  named : namecmp (cstr name) (v.dirent sb i k).name = 0
  skip : ∀ j < k, (v.dirent sb i j).inum = 0 ∨ namecmp (cstr name) (v.dirent sb i j).name ≠ 0

namespace Fs

open Prog

/-- An entry of the cache in use for an inode of a drive; its copy need not be valid. -/
structure Entry (D : Drives) (s : Fs) (ip : Slot) (d i : Nat) : Prop where
  mem : d ∈ D
  ref : 0 < (s.inode ip).ref
  dev : (s.inode ip).dev = d
  inum : (s.inode ip).inum = i

/-- The entries in use are in the cache of their device. -/
def Placed (s : Fs) : Prop := ∀ ip, 0 < (s.inode ip).ref → ip.1 = decide ((s.inode ip).dev = 2)

/-- Store to an entry of the cache. -/
def withInode (s : Fs) (ip : Slot) (x : Inode) : Fs :=
  { s with inode := Function.update s.inode ip x }

section

variable {D : Drives} {E : Stop → Prop} {l : Log} {s s' : Fs} {vol : Volumes}
  {held : List (Fin NBUF × BlockId)} {stale : Option (Nat × Nat)} {ip dp : Slot}
  {d i : Nat} {x : Inode}

@[simp] theorem withInode_self : (s.withInode ip x).inode ip = x := Function.update_self ..

theorem withInode_of_ne {ip' : Slot} (h : ip' ≠ ip) : (s.withInode ip x).inode ip' = s.inode ip' :=
  Function.update_of_ne h ..

@[simp] theorem withInode_store : (s.withInode ip x).store = s.store := rfl

@[simp] theorem withInode_superblock : (s.withInode ip x).superblock = s.superblock := rfl

theorem wp_setInode {f : Inode → Inode} {Q : Unit → Fs → Prop} {F : Stop → Fs → Prop} :
    wp (setInode ip f) Q F s ↔ Q () (s.withInode ip (f (s.inode ip))) := Iff.rfl

/-! ## The inode cache -/

/-- An entry is stored that is no second one for its inode. -/
theorem Disk.withInode (h : Disk D s vol held stale)
    (hmem : 0 < x.ref → x.dev ∈ D → x.valid = true → x.toDinode = (vol x.dev).ino x.inum)
    (hrange : 0 < x.ref → x.dev ∈ D → x.inum < (s.superblock x.dev).ninodes)
    (hunique : 0 < x.ref → ∀ ip', ip' ≠ ip → 0 < (s.inode ip').ref → (s.inode ip').dev = x.dev →
      (s.inode ip').inum ≠ x.inum) : Disk D (s.withInode ip x) vol held stale where
  blocks := h.blocks
  sound := h.sound
  mem ip' := by
    by_cases hip : ip' = ip
    · subst hip
      rw [withInode_self]
      exact hmem
    · rw [withInode_of_ne hip]
      exact h.mem ip'
  disk := h.disk
  fits := h.fits
  range ip' := by
    by_cases hip : ip' = ip
    · subst hip
      rw [withInode_self]
      exact hrange
    · rw [withInode_of_ne hip]
      exact h.range ip'
  unique ip1 ip2 := by
    by_cases h1 : ip1 = ip <;> by_cases h2 : ip2 = ip
    · exact fun _ _ _ _ => h1.trans h2.symm
    · subst h1
      rw [withInode_self, withInode_of_ne h2]
      exact fun hr1 hr2 hdev hinum => absurd hinum.symm (hunique hr1 ip2 h2 hr2 hdev.symm)
    · subst h2
      rw [withInode_self, withInode_of_ne h1]
      exact fun hr1 hr2 hdev hinum => absurd hinum (hunique hr2 ip1 h1 hr1 hdev)
    · rw [withInode_of_ne h1, withInode_of_ne h2]
      exact h.unique ip1 ip2

/-- What `iget` stores: one more reference, or a new entry. -/
inductive Fetched (s : Fs) (d i : Nat) (ip : Slot) : Inode → Prop where
  | hit (ref : 0 < (s.inode ip).ref) (dev : (s.inode ip).dev = d) (inum : (s.inode ip).inum = i) :
    Fetched s d i ip { s.inode ip with ref := (s.inode ip).ref + 1 }
  | fresh (ref : (s.inode ip).ref = 0) :
    Fetched s d i ip { s.inode ip with dev := d, inum := i, ref := 1, valid := false }

theorem Fetched.ref (h : Fetched s d i ip x) : 0 < x.ref := by
  cases h with
  | hit ref => exact ref.trans (Int.lt_succ _)
  | fresh => exact Int.zero_lt_one

theorem Fetched.dev (h : Fetched s d i ip x) : x.dev = d := by
  cases h with
  | hit _ dev => exact dev
  | fresh => rfl

theorem Fetched.inum (h : Fetched s d i ip x) : x.inum = i := by
  cases h with
  | hit _ _ inum => exact inum
  | fresh => rfl

theorem Fetched.locked (h : Fetched s d i ip x) : x.locked = (s.inode ip).locked := by
  cases h <;> rfl

theorem Fetched.isMountPoint (h : Fetched s d i ip x) :
    x.isMountPoint = (s.inode ip).isMountPoint := by cases h <;> rfl

theorem Fetched.entry (h : Fetched s d i ip x) (hd : d ∈ D) : Entry D (s.withInode ip x) ip d i :=
  ⟨hd, by simpa using h.ref, by simpa using h.dev, by simpa using h.inum⟩

/-- An inode that is not found has no entry. -/
theorem Placed.not_cached (h : Placed s) (hnone : s.cached d i = none) (href : 0 < (s.inode ip).ref)
    (hdev : (s.inode ip).dev = d) : (s.inode ip).inum ≠ i := by
  intro hinum
  have hmem : ip ∈ icache d := by
    refine List.mem_map.2 ⟨ip.2, List.mem_finRange _, Prod.ext ?_ rfl⟩
    rw [h ip href, hdev]
  have := List.find?_eq_none.1 hnone ip hmem
  simp [href, hdev, hinum] at this

theorem Placed.quiet (h : Placed s) (hq : Quiet s s') : Placed s' := by
  intro ip href
  have hframe := hq.inode ip
  rw [show (s'.inode ip).ref = (s.inode ip).ref from (congrArg Inode.ref hframe :)] at href
  rw [show (s'.inode ip).dev = (s.inode ip).dev from (congrArg Inode.dev hframe :)]
  exact h ip href

/-- `iget`, with an entry to spare if the inode has none yet. -/
theorem within_iget {Q : Slot → Fs → Prop} (h : Disk D s vol held stale) (hplace : Placed s)
    (hi : i < (s.superblock d).ninodes)
    (full : s.cached d i = none → s.empty d = none → E (.panic "iget: no inodes"))
    (ok : ∀ ip x, Fetched s d i ip x → Disk D (s.withInode ip x) vol held stale →
      Placed (s.withInode ip x) → Q ip (s.withInode ip x)) : within E (iget d i) Q s := by
  simp only [iget, wp_bind, wp_gets]
  split
  · next ip hfound =>
    have hip := List.find?_some hfound
    simp only [Bool.and_eq_true, decide_eq_true_eq, beq_iff_eq] at hip
    obtain ⟨⟨href, hdev⟩, hinum⟩ := hip
    simp only [wp_bind, wp_setInode, wp_pure]
    refine ok ip _ (.hit href hdev hinum) (h.withInode ?_ ?_ ?_) fun ip' => ?_
    · exact fun _ => h.mem ip href
    · exact fun _ => h.range ip href
    · exact fun _ ip' hne href' hdev' hinum' => hne (h.unique ip' ip href' href hdev' hinum')
    · by_cases hip : ip' = ip
      · subst hip
        rw [withInode_self]
        exact fun _ => hplace ip' href
      · rw [withInode_of_ne hip]
        exact hplace ip'
  · next hnone =>
    simp only [wp_bind, wp_gets]
    split
    · next ip hempty =>
      have href : (s.inode ip).ref = 0 := by simpa using List.find?_some hempty
      simp only [wp_bind, wp_setInode, wp_pure]
      refine ok ip _ (.fresh href) (h.withInode (fun _ _ => (by rintro ⟨⟩)) (fun _ _ => hi) ?_)
        fun ip' => ?_
      · exact fun _ ip' _ => hplace.not_cached hnone
      · by_cases hip : ip' = ip
        · subst hip
          rw [withInode_self]
          obtain ⟨_, -, rfl⟩ := List.mem_map.1 (List.mem_of_find?_eq_some hempty)
          exact fun _ => rfl
        · rw [withInode_of_ne hip]
          exact hplace ip'
    · next hempty => exact full hnone hempty

/-- What `ilock` stores: the inode is locked and its copy valid. -/
def lockedCopy (x : Inode) (y : Dinode) : Inode :=
  { x with toDinode := y, locked := true, valid := true }

/-- A state after `ilock`. -/
structure Locks (s s' : Fs) (ip : Slot) (y : Dinode) : Prop where
  tables : s'.toTables = s.toTables
  trace : s'.trace = s.trace
  inode : s'.inode = Function.update s.inode ip (lockedCopy (s.inode ip) y)

theorem Locks.self {y : Dinode} (h : Locks s s' ip y) :
    s'.inode ip = lockedCopy (s.inode ip) y := by
  rw [h.inode, Function.update_self]

theorem Locks.other {y : Dinode} {ip' : Slot} (h : Locks s s' ip y) (hip : ip' ≠ ip) :
    s'.inode ip' = s.inode ip' := by
  rw [h.inode, Function.update_of_ne hip]

theorem Locks.superblock {y : Dinode} (h : Locks s s' ip y) : s'.superblock = s.superblock := by
  funext d
  simp only [Fs.superblock, h.tables]

theorem Locks.placed {y : Dinode} (h : Locks s s' ip y) (hplace : Placed s) : Placed s' := by
  intro ip' href
  by_cases hip : ip' = ip
  · subst hip
    rw [h.self] at href ⊢
    exact hplace ip' href
  · rw [h.other hip] at href ⊢
    exact hplace ip' href

/-- `ilock` of an inode that is not locked. -/
theorem within_ilock {Q : Unit → Fs → Prop} (hE : Supplied E l s.store) (h : Disk D s vol [] none)
    (hip : Entry D s ip d i) (hfree : (s.inode ip).locked = false)
    (htype : ((vol d).ino i).type ≠ 0)
    (ok : ∀ s', Locks s s' ip ((vol d).ino i) → Supplied E l s'.store → Disk D s' vol [] none →
      At D s' ip d i → Q () s') : within E (ilock ip) Q s := by
  obtain ⟨hd, href, hdev, hinum⟩ := hip
  have hnot : ¬(s.inode ip).ref < 1 := Int.not_lt.2 href
  have hrange := h.range ip href (hdev ▸ hd)
  rw [hdev, hinum] at hrange
  have hok : ∀ st, Supplied E l st → Blocks D st vol [] →
      Q () { s.withInode ip (lockedCopy (s.inode ip) ((vol d).ino i)) with store := st } := by
    intro st hE' hst
    refine ok _ ⟨rfl, rfl, rfl⟩ hE' ((h.withInode ?_ ?_ ?_).same hst) ⟨hd, ?_, ?_, ?_, ?_⟩
    · simp [lockedCopy, hdev, hinum]
    · simpa [lockedCopy, hdev, hinum] using fun _ _ => hrange
    · exact fun _ ip' hne href' hdev' hinum' => hne (h.unique ip' ip href' href hdev' hinum')
    all_goals rw [withInode_self]
    · exact href
    · exact hdev
    · exact hinum
    · rfl
  simp only [ilock, acquiresleep, wp_bind, wp_gets, wp_ite, wp_halt, wp_stop, wp_pure,
    wp_setInode, hnot, hfree, false_implies, true_and, not_false_eq_true, true_implies,
    Bool.false_eq_true, withInode_self]
  refine ⟨fun hvalid => ?_, fun hvalid => ?_⟩
  · have hs := h.sound d hd
    simp only [hdev, hinum]
    refine within_bread_supplied hE h.blocks (by decide) hd
      ((hs.inode_lt i hrange).trans hs.bmap_fssize) (by simp) fun bp st1 hE1 h1 => ?_
    simp only [data, wp_gets, h1.data hd List.mem_cons_self]
    refine within_brelse_supplied hE1 h1 fun st2 hE2 h2 => ?_
    simp only [withInode_superblock, h.disk d hd i hrange (by rintro ⟨⟩)]
    refine ⟨fun hzero => absurd hzero htype, fun _ => ?_⟩
    have hres := hok st2 hE2 h2
    simpa only [withInode, Function.update_self, Function.update_idem, lockedCopy, hdev,
      hinum] using hres
  · have hcopy : lockedCopy (s.inode ip) ((vol d).ino i) = { s.inode ip with locked := true } := by
      have hv : (s.inode ip).valid = true := by simpa using hvalid
      have hmem := h.mem ip href (hdev ▸ hd) hv
      rw [hdev, hinum] at hmem
      rw [lockedCopy, ← hmem, ← hv]
    have := hok s.store hE h.blocks
    rwa [hcopy] at this

/-! ## Reading -/

/-- `readi` of blocks that the file has. -/
theorem within_readi {Q : Int × List UInt8 → Fs → Prop} {off n : UInt32} {m : Nat}
    (hE : Supplied E l s.store) (h : Disk D s vol [] stale) (hI : (vol d).Intact (s.superblock d))
    (hat : At D s ip d i) (htype : ((vol d).ino i).type ≠ T_DEV)
    (hoff : off.toNat ≤ ((vol d).ino i).size) (hwrap : off.toNat + n.toNat < 2 ^ 32)
    (hm : m = min n.toNat (((vol d).ino i).size - off.toNat))
    (hmapped : (vol d).Mapped (s.superblock d) i (off.toNat + m))
    (ok : ∀ s', Quiet s s' → Supplied E l s'.store → Disk D s' vol [] stale →
      Q (toInt32 m, (vol d).bytes (s.superblock d) i off.toNat m) s') :
      within E (readi ip off n) Q s := by
  have hsum : (off + n).toNat = off.toNat + n.toNat := by
    rw [UInt32.toNat_add, Nat.mod_eq_of_lt hwrap]
  have hrange : ¬(((vol d).ino i).size < off.toNat ∨ off + n < off) := by
    rw [UInt32.lt_iff_toNat_lt, hsum]
    omega
  have hcount : (if ((vol d).ino i).size < (off + n).toNat then
    ((vol d).ino i).size - off.toNat else n.toNat) =
      m := by
    rw [hsum, hm]
    split <;> omega
  simp only [readi, wp_bind, wp_gets, wp_ite, wp_pure, (h.at hat).1, htype, hrange, hcount,
    false_implies, true_and, not_false_eq_true, true_implies]
  exact within_readLoop hE h hI hat le_rfl (fun o _ ho => hmapped o ho) ok

/-! ## Directories -/

variable {name : List UInt8} {k : Nat}

/-- The entry of a directory that is read. -/
theorem within_readDirent {Q : Dirent → Fs → Prop} {msg : String} (hE : Supplied E l s.store)
    (h : Disk D s vol [] stale) (hI : (vol d).Intact (s.superblock d)) (hat : At D s dp d i)
    (htype : ((vol d).ino i).type = T_DIR) (hsize : DIRENTSIZE * (k + 1) ≤ ((vol d).ino i).size)
    (hmapped : (vol d).Mapped (s.superblock d) i (DIRENTSIZE * (k + 1)))
    (ok : ∀ s', Quiet s s' → Supplied E l s'.store → Disk D s' vol [] stale →
      Q ((vol d).dirent (s.superblock d) i k) s') :
    within E (readDirent dp (DIRENTSIZE * k) msg) Q s := by
  have hfit := (h.fits d hat.mem i).size
  have hnext := Nat.mul_add_one DIRENTSIZE k
  have hoff : (UInt32.ofNat (DIRENTSIZE * k)).toNat = DIRENTSIZE * k :=
    UInt32.toNat_ofNat_of_lt' (show _ < 2 ^ 32 by omega)
  have hn : direntSize.toNat = DIRENTSIZE := rfl
  simp only [readDirent, wp_bind]
  refine within_readi (m := DIRENTSIZE) hE h hI hat (by rw [htype]; decide) (by omega)
    (by omega) (by omega) (by rwa [hoff, ← hnext]) fun s' hq hE' h' => ?_
  rw [hoff]
  exact ok s' hq hE' h'

/-- The loop of `dirlookup` passes over entries without the name. -/
theorem within_dirlookupLoop_skip {Q : Option (Nat × Nat) → Fs → Prop} {fuel j m : Nat}
    (hE : Supplied E l s.store) (h : Disk D s vol [] stale) (hI : (vol d).Intact (s.superblock d))
    (hat : At D s dp d i) (htype : ((vol d).ino i).type = T_DIR)
    (hsize : DIRENTSIZE * (j + m) ≤ ((vol d).ino i).size)
    (hmapped : (vol d).Mapped (s.superblock d) i (DIRENTSIZE * (j + m)))
    (hskip : ∀ k < j + m, ((vol d).dirent (s.superblock d) i k).inum = 0 ∨
      namecmp (cstr name) ((vol d).dirent (s.superblock d) i k).name ≠ 0)
    (ok : ∀ s', Quiet s s' → Supplied E l s'.store → Disk D s' vol [] stale →
      within E (dirlookupLoop dp name fuel (DIRENTSIZE * (j + m))) Q s') :
    within E (dirlookupLoop dp name (m + fuel) (DIRENTSIZE * j)) Q s := by
  induction m generalizing s j with
  | zero =>
    rw [Nat.zero_add]
    exact ok s (refl s) hE h
  | succ m ih =>
    have hnext := Nat.mul_add_one DIRENTSIZE j
    have hle : DIRENTSIZE * (j + 1) ≤ DIRENTSIZE * (j + (m + 1)) := Nat.mul_le_mul_left _ (by omega)
    have hd : 0 < DIRENTSIZE := by decide
    rw [Nat.add_right_comm m 1 fuel]
    simp only [dirlookupLoop, wp_bind, wp_gets, wp_ite, (h.at hat).1]
    refine ⟨fun _ => ?_, fun hge => absurd (by omega) hge⟩
    refine within_readDirent hE h hI hat htype (by omega) (fun o ho => hmapped o (by omega))
      fun s1 hq1 hE1 h1 => ?_
    have hsb := hq1.superblock
    have hshift : j + 1 + m = j + (m + 1) := by omega
    have hrest : within E (dirlookupLoop dp name (m + fuel) (DIRENTSIZE * j + DIRENTSIZE)) Q
        s1 := by
      refine ih (j := j + 1) hE1 h1 (by rwa [hsb]) (hat.quiet hq1) (by rwa [hshift])
        (by rwa [hsb, hshift]) (by rwa [hsb, hshift]) fun s2 hq2 hE2 h2 => ?_
      rw [hshift]
      exact ok s2 (IsTrans.trans _ _ _ hq1 hq2) hE2 h2
    exact ⟨fun _ => hrest, fun hlive => ⟨fun hname => absurd hname
      ((hskip j (by omega)).resolve_left hlive), fun _ => hrest⟩⟩

end

end Fs

end Xv6Rework
