import Xv6Rework.Fs.Walk
import Xv6Rework.User.MkfsVolume

/-!
# What the kernel finds on an image of `mkfs`

A kernel that has such an image on a drive, and has not changed it, finds each of the
files by its name in the root directory and reads from it what the file contained.  The
free map has the blocks that the file system itself takes and those that the inodes refer
to, and no others.
-/

namespace Xv6Rework

open Prog
open Fs (IBLOCK)

/-! ## The root directory -/

namespace Mkfs

/-- What is asked of the names. -/
structure Named (files : List Input) : Prop where
  nonempty : ∀ f ∈ files, f.stored ≠ []
  nodup : (files.map Input.stored).Nodup
  ne_dot : ∀ f ∈ files, f.stored ≠ [dot]
  ne_dotdot : ∀ f ∈ files, f.stored ≠ [dot, dot]

/-- The names in the root directory. -/
def names (files : List Input) : List (List UInt8) := [dot] :: [dot, dot] :: files.map Input.stored

section

variable {files : List Input} {f : Input} {image : Nat → Block} {V : Volume} {k : Nat}
  {name : List UInt8}

theorem bare_ne (f : Input) : ∀ c ∈ f.bare, c ≠ 0 := by
  intro c hc
  refine f.name_ne c ?_
  rw [Input.bare] at hc
  split at hc
  · exact List.mem_of_mem_tail hc
  · exact hc

theorem length_names (files : List Input) : (names files).length = files.length + 2 := by
  simp [names]

theorem ne_of_mem_names (h : name ∈ names files) : ∀ c ∈ name, c ≠ 0 := by
  simp only [names, List.mem_cons, List.mem_map] at h
  rcases h with rfl | rfl | ⟨f, -, rfl⟩
  · decide +kernel
  · decide +kernel
  · exact fun c hc => bare_ne f c (List.mem_of_mem_take hc)

theorem length_of_mem_names (h : name ∈ names files) : name.length ≤ DIRSIZ := by
  simp only [names, List.mem_cons, List.mem_map] at h
  rcases h with rfl | rfl | ⟨f, -, rfl⟩
  · decide
  · decide
  · exact List.length_take_le ..

theorem Named.nodup_names (h : Named files) : (names files).Nodup := by
  have hmem : ∀ n, (∀ f ∈ files, f.stored ≠ n) → n ∉ files.map Input.stored := by
    intro n hn hmem
    obtain ⟨f, hf, heq⟩ := List.mem_map.1 hmem
    exact hn f hf heq
  rw [names, List.nodup_cons, List.nodup_cons, List.mem_cons, not_or]
  exact ⟨⟨by decide, hmem _ h.ne_dot⟩, hmem _ h.ne_dotdot, h.nodup⟩

/-- The bytes of the `k`-th of several lists of one length. -/
theorem cstr_flatten {L : List (List UInt8)} {n : Nat} (hL : ∀ l ∈ L, l.length = n)
    (hk : k < L.length) {o : Nat} (ho : o < n) :
    cstr L.flatten (n * k + o) = cstr (L.get ⟨k, hk⟩) o := by
  induction L generalizing k with
  | nil => exact absurd hk (Nat.not_lt_zero k)
  | cons l L ih =>
    obtain ⟨rfl, hL⟩ := List.forall_mem_cons.1 hL
    cases k with
    | zero =>
      rw [cstr, Nat.mul_zero, Nat.zero_add, List.flatten_cons, List.getD_append _ _ _ _ ho]
      rfl
    | succ k =>
      have hle : l.length ≤ l.length * (k + 1) + o := by
        rw [Nat.mul_add_one]
        omega
      have hsub : l.length * (k + 1) + o - l.length = l.length * k + o := by
        rw [Nat.mul_add_one]
        omega
      have hrest := ih hL (k := k) (Nat.lt_of_succ_lt_succ hk)
      rw [cstr, List.flatten_cons, List.getD_append_right _ _ _ _ hle, hsub]
      exact hrest

/-- The entries of the root directory, as they are read back. -/
theorem Made.dirent (h : Made image V files) (hk : k < files.length + 2) :
    V.dirent mkfsSb ROOTINO k = .ofBytes ((entries files).get ⟨k, by rwa [length_entries]⟩) := by
  have hk' : k < (entries files).length := by rwa [length_entries]
  have hlen : ((entries files).get ⟨k, hk'⟩).length = DIRENTSIZE :=
    length_of_mem_entries (List.get_mem ..)
  rw [Volume.dirent]
  congr 1
  refine List.ext_getElem ?_ fun o ho _ => ?_
  · rw [hlen, Volume.bytes, List.length_map, List.length_range]
  have ho : o < DIRENTSIZE := by simpa [Volume.bytes] using ho
  have hlt : DIRENTSIZE * k + o < DIRENTSIZE * (files.length + 2) := by
    have : DIRENTSIZE * (k + 1) ≤ DIRENTSIZE * (files.length + 2) := Nat.mul_le_mul_left _ hk
    rw [Nat.mul_add_one] at this
    omega
  simp only [Volume.bytes, List.getElem_map, List.getElem_range]
  rw [h.rootByte _ hlt, cstr_flatten (fun e he => length_of_mem_entries he) hk' ho, cstr,
    List.getD_eq_getElem _ _ (by rwa [hlen])]

/-- The inode number of the `k`-th entry. -/
def inumAt (k : Nat) : Nat := if k < 2 then ROOTINO else k

theorem get_entries (files : List Input) (hk : k < (entries files).length) : ∃ x, (∀ c ∈ x, c ≠ 0) ∧
    x.take DIRSIZ = (names files).get ⟨k, by rwa [length_names, ← length_entries]⟩ ∧
    (entries files).get ⟨k, hk⟩ = direntBytes (inumAt k) (cstr x) := by
  match k with
  | 0 => exact ⟨[dot], by decide +kernel, rfl, rfl⟩
  | 1 => exact ⟨[dot, dot], by decide +kernel, rfl, rfl⟩
  | k + 2 =>
    rw [length_entries] at hk
    refine ⟨(files.get ⟨k, by omega⟩).bare, bare_ne _, ?_, ?_⟩
    · simp [names, Input.stored]
    · rw [inumAt, if_neg (by omega)]
      simp [entries]

theorem Made.dirent_spec (h : Made image V files) (hk : k < files.length + 2)
    (hcount : files.length + 1 < NINODES) : (V.dirent mkfsSb ROOTINO k).inum = inumAt k ∧
      ∀ j < DIRSIZ, (V.dirent mkfsSb ROOTINO k).name j = cstr
      ((names files).get ⟨k, by rwa [length_names]⟩) j := by
  obtain ⟨x, hx, hname, hentry⟩ := get_entries files (k := k) (by rwa [length_entries])
  have hlt : inumAt k < 2 ^ 16 := by
    simp only [inumAt, ROOTINO, NINODES] at *
    split <;> omega
  rw [h.dirent hk, hentry, ← hname]
  exact Dirent.ofBytes_direntBytes hx hlt

/-- The kernel finds an entry of the root directory by its name. -/
theorem Made.lists (h : Made image V files) (hnames : Named files)
    (hcount : files.length + 1 < NINODES) (hname : (names files)[k]? = some name) :
    V.Lists mkfsSb ROOTINO name k ∧ (V.dirent mkfsSb ROOTINO k).inum = inumAt k := by
  obtain ⟨hlen, hget⟩ := List.getElem?_eq_some_iff.1 hname
  have hmem : name ∈ names files := List.mem_of_getElem? hname
  have hk : k < files.length + 2 := length_names files ▸ hlen
  have hcmp : ∀ j (hj : j < files.length + 2), namecmp (cstr name)
      (V.dirent mkfsSb ROOTINO j).name = 0 ↔ j = k := by
    intro j hj
    have hmem' : (names files).get ⟨j, by rwa [length_names]⟩ ∈ names files := List.get_mem ..
    rw [namecmp_eq_zero (ne_of_mem_names hmem) (ne_of_mem_names hmem') (length_of_mem_names hmem)
      (length_of_mem_names hmem') (h.dirent_spec hj hcount).2, ← hget, List.get_eq_getElem,
      hnames.nodup_names.getElem_inj_iff]
    exact eq_comm
  have hinum : (V.dirent mkfsSb ROOTINO k).inum = inumAt k := (h.dirent_spec hk hcount).1
  have hrange : inumAt k ≠ 0 ∧ inumAt k < NINODES := by
    simp only [inumAt, ROOTINO, NINODES] at hcount ⊢
    split <;> omega
  have hle : DIRENTSIZE * (k + 1) ≤ DIRENTSIZE * (files.length + 2) := Nat.mul_le_mul_left _ hk
  refine ⟨⟨⟨?_, (hcmp k hk).2 rfl, fun j hj => .inr fun hzero => ?_⟩, h.rootType,
    hle.trans h.rootSize, fun o ho => h.rootMapped o (ho.trans_le hle), ?_⟩, hinum⟩
  · rw [hinum]
    exact hrange.1
  · exact hj.ne ((hcmp j (hj.trans hk)).1 hzero)
  · rw [hinum]
    exact hrange.2

/-- A path of one name leads to what has the name, if it is no mount point. -/
theorem Made.goes {path : List UInt8} {marked held : Nat → Prop} (h : Made image V files)
    (hnames : Named files) (hcount : files.length + 1 < NINODES)
    (hname : (names files)[k]? = some name) (hpath : skipelem path = some (name, []))
    (hmarked : ¬marked (inumAt k)) :
    V.Goes mkfsSb marked held ROOTINO path (.finds (inumAt k)) := by
  obtain ⟨hlists, hinum⟩ := h.lists hnames hcount hname
  refine .step hpath hlists ?_ (.inl h.rootLinked) ?_
  · rwa [hinum]
  · rw [hinum]
    exact .done rfl

@[simp] theorem inumAt_file (k : Nat) : inumAt (k + 2) = k + 2 := if_neg (by omega)

theorem names_file (hk : k < files.length) :
    (names files)[k + 2]? = some (files.get ⟨k, hk⟩).stored := by
  simp [names, hk]

theorem Holds.contains {i : Nat} {l : List UInt8} (h : Holds V i T_FILE l) :
    V.Contains mkfsSb i l where
  type := by rw [h.type]; exact h.live
  file := by rw [h.type]; decide
  linked := h.linked
  size := h.size
  mapped := h.sized.mapped
  bytes := by
    refine List.ext_getElem (by simp [Volume.bytes]) fun o ho ho' => ?_
    simp only [Volume.bytes, List.getElem_map, List.getElem_range, Nat.zero_add]
    rw [h.byte o ho', cstr, List.getD_eq_getElem _ _ ho']

end

end Mkfs

/-! ## The kernel -/

/-- The volume that is on an image, by its super block. -/
def Volume.ofImage (image : Nat → Block) : Volume where
  block := image
  ino i := Dinode.ofBlock (image (IBLOCK i (.ofBlock (image 1)))) (i % IPB)

namespace Fs

/-- The kernel has the image on a drive.  Nothing waits to be written, and what the cache holds
of the drive is what the image has. -/
structure Imprint (s : Fs) (d : Nat) (image : Nat → Block) : Prop where
  drive : d = 1 ∨ d = 2
  super : s.superblock d = .ofBlock (image 1)
  store : ∃ w, StoreRep s.store w ∧ w.held = [] ∧ w.Roomy ∧ ∀ b, w.disk (d, b) = image b
  copies : ∀ ip, 0 < (s.inode ip).ref → (s.inode ip).dev = d → (s.inode ip).valid = true →
    (s.inode ip).toDinode =
      Dinode.ofBlock (image (IBLOCK (s.inode ip).inum (s.superblock d))) ((s.inode ip).inum % IPB)
  range : ∀ ip, 0 < (s.inode ip).ref → (s.inode ip).dev = d →
    (s.inode ip).inum < (s.superblock d).ninodes
  unique : ∀ ip ip', 0 < (s.inode ip).ref → 0 < (s.inode ip').ref →
    (s.inode ip).dev = (s.inode ip').dev → (s.inode ip).inum = (s.inode ip').inum → ip = ip'
  placed : Placed s

/-- Besides no inode is locked, nothing is mounted, and two entries of the cache are not in use. -/
structure Carries (s : Fs) (d : Nat) (image : Nat → Block) : Prop extends Imprint s d image where
  unlocked : ∀ ip, (s.inode ip).locked = false
  unmounted : ∀ ip, (s.inode ip).isMountPoint = false
  room : ∃ ip ip', ip ≠ ip' ∧ ip ∈ icache d ∧ ip' ∈ icache d ∧ (s.inode ip).ref = 0 ∧
    (s.inode ip').ref = 0

/-- Look a name up in a directory, and read the file found as far as it goes. -/
def readFrom (dp : Slot) (name : List UInt8) (leavingMount : Bool) :
    FsM (Option (Int × List UInt8)) := do
  match (← dirlookup dp name leavingMount) with
  | none => pure none
  | some (ip, _) =>
    ilock ip
    let size ← gets fun s => (s.inode ip).size
    let r ← readi ip 0 (UInt32.ofNat size)
    pure (some r)

/-- The same in the root directory of a drive. -/
def readFile (d : Nat) (name : List UInt8) (leavingMount : Bool) :
    FsM (Option (Int × List UInt8)) := do
  let dp ← iget d ROOTINO
  ilock dp
  readFrom dp name leavingMount

section

open Mkfs

variable {s : Fs} {d k : Nat} {image : Nat → Block} {V : Volume} {files : List Input}

theorem ofBlock_store_mkfsSb : Superblock.ofBlock mkfsSb.store = mkfsSb := by decide +kernel

/-- One drive. -/
def oneDrive (d : Nat) (hd : d = 1 ∨ d = 2) : Drives := ⟨(· = d), fun _ h => h ▸ hd⟩

theorem Imprint.disk (h : Imprint s d image) (hV : Made image V files) :
    Disk (oneDrive d h.drive) s (fun _ => V) [] none := by
  have hsb : s.superblock d = mkfsSb := by rw [h.super, hV.super, ofBlock_store_mkfsSb]
  constructor
  · obtain ⟨w, hw, hheld, hroomy, hdisk⟩ := h.store
    refine ⟨w, hw, hheld, ?_⟩
    rintro ⟨d', b⟩ hd'
    have hd' : d' = d := hd'
    rw [hroomy.block, hd', hdisk, hV.block]
  · intro d' hd'
    have hd' : d' = d := hd'
    rw [hd', hsb]
    exact mkfsSb_sound
  · intro ip href hdev hvalid
    have hdev : (s.inode ip).dev = d := hdev
    have hlt := h.range ip href hdev
    rw [h.copies ip href hdev hvalid, hsb]
    rw [hsb] at hlt
    exact hV.ino _ hlt
  · intro d' hd' i hi _
    have hd' : d' = d := hd'
    rw [hd', hsb] at hi ⊢
    rw [hV.block]
    exact hV.ino i hi
  · exact fun _ _ => hV.fits
  · intro ip href hdev
    have hdev : (s.inode ip).dev = d := hdev
    rw [hdev]
    exact h.range ip href hdev
  · exact h.unique

theorem Imprint.superblock (h : Imprint s d image) (hV : Made image V files) :
    s.superblock d = mkfsSb := by
  rw [h.super, hV.super, ofBlock_store_mkfsSb]

theorem Imprint.rest (h : Imprint s d image) (hV : Made image V files) :
    Rest (fun _ => False) s.store.log (oneDrive d h.drive) s.superblock (fun _ => V)
      (ledger s) s := by
  obtain ⟨w, hw, -, hroomy, -⟩ := h.store
  refine ⟨.inr ⟨hw.clean hroomy, rfl⟩, h.disk hV, rfl, ?_, h.placed, shows_ledger rfl unwatched⟩
  intro d' hd'
  rw [show d' = d from hd', h.superblock hV]
  exact hV.intact

/-- From the root directory to the bytes of a file. -/
theorem Carries.within_readFile {leavingMount : Bool} (h : Carries s d image)
    (hV : Made image V files) (hnames : Named files) (hcount : files.length + 1 < NINODES)
    (hsize : ∀ f ∈ files, f.bytes.length ≤ MAXFILE * BSIZE) (hk : k < files.length) :
    within (fun _ => False) (readFile d (files.get ⟨k, hk⟩).stored leavingMount)
      (fun r _ => r = some (((files.get ⟨k, hk⟩).bytes.length : Int), (files.get ⟨k, hk⟩).bytes))
      s := by
  obtain ⟨hlists, hinum⟩ := hV.lists hnames hcount (names_file hk)
  rw [inumAt_file] at hinum
  have hfile := hV.file k hk
  have hlen := hsize _ (List.get_mem files ⟨k, hk⟩)
  generalize files.get ⟨k, hk⟩ = f at hlists hfile hlen ⊢
  have hsb := h.superblock hV
  rw [← hsb] at hlists hinum
  have hspare : (ledger s).Spare d := h.room
  simp only [readFile, readFrom, wp_bind]
  refine (h.rest hV).within_iget rfl (by rw [hsb]; decide) (.inr ?_) fun dp s1 h1 he1 _ => ?_
  · obtain ⟨e, -, -, he, -, hzero, -⟩ := hspare
    exact ⟨e, he, hzero⟩
  refine h1.within_ilock he1 (.inr (h.unlocked dp)) (by rw [hV.rootType]; decide)
    fun s2 _ h2 hat2 _ => ?_
  refine h2.within_dirlookup hat2 (.inr (h.unmounted dp)) hlists (.inr (hspare.get dp))
    fun ip off s3 h3 he3 hsame => ?_
  have hne : ip ≠ dp := by
    rintro rfl
    have := he3.inum
    rw [(hsame ip hat2.ref).inum, hat2.inum, hinum, ROOTINO] at this
    omega
  rw [hinum] at he3
  simp only [wp_bind]
  refine h3.within_ilock he3 (.inr ?_) (by rw [hfile.type]; exact hfile.live)
    fun s4 _ h4 hat4 _ => ?_
  · exact (Function.update_of_ne hne ..).trans (h.unlocked ip)
  have hsmall : f.bytes.length < 2 ^ 31 := hlen.trans_lt (by decide)
  have hn : (UInt32.ofNat f.bytes.length).toNat = f.bytes.length :=
    UInt32.toNat_ofNat_of_lt' (show _ < 2 ^ 32 by omega)
  simp only [wp_gets, (h4.disk.at hat4).1, hfile.size]
  have hdata : V.Contains (s.superblock d) (k + 2) f.bytes := hsb ▸ hfile.contains
  refine h4.within_readi hat4 hdata (by rwa [hn]) fun s5 _ _ => ?_
  rw [hn, wp_pure, fileRead, if_neg (by simp only [UInt32.toNat_zero]; omega)]
  simp

/-- The volume that is on the image has the same pointers. -/
theorem ptr_ofImage (hV : Made image V files) :
    (Volume.ofImage image).ptr mkfsSb = V.ptr mkfsSb := by
  have hsb : Superblock.ofBlock (image 1) = mkfsSb := by rw [hV.super, ofBlock_store_mkfsSb]
  funext ⟨i, q⟩
  by_cases hi : i < NINODES
  · have hino : (Volume.ofImage image).ino i = V.ino i := by
      rw [Volume.ofImage, hsb]
      exact hV.ino i hi
    have hblock : (Volume.ofImage image).block = V.block := hV.block.symm
    rw [Volume.ptr, Volume.ptr]
    refine if_congr ?_ (by rw [hino, hblock]) rfl
    rw [Volume.Live, Volume.Live, hino]
  · have hdead : ∀ v : Volume, v.ptr mkfsSb (i, q) = 0 := fun v => if_neg fun h => hi h.1.1
    rw [hdead, hdead]

/-- The blocks that the free map has as used. -/
theorem bitSet_bmap (hV : Made image V files) (hspace : space files ≤ FSSIZE) {b : Nat} :
    bitSet (image mkfsSb.bmapstart) b = true ↔
      b < nmeta ∨ b ≠ 0 ∧ ∃ k, (Volume.ofImage image).ptr mkfsSb k = b := by
  have hmeta : nmeta ≤ space files := by
    rw [space, Nat.add_assoc]
    exact Nat.le_add_right ..
  have hbit : bitSet (image mkfsSb.bmapstart) b = decide (b < space files) := by
    rw [hV.bmap, bitSet_bits (hspace.trans (by decide))]
  have hused : ∀ b < FSSIZE, V.used mkfsSb b = decide (b < space files) := by
    intro b hb
    rw [Volume.used, mkfsSb_sound.bblock_eq hb, hV.block, hV.bmap, bitSet_bits
      (hspace.trans (by decide)), Nat.mod_eq_of_lt (mkfsSb_sound.bpb_lt hb)]
  rw [hbit, decide_eq_true_eq, ptr_ofImage hV]
  refine ⟨fun hb => ?_, ?_⟩
  · rcases Nat.lt_or_ge b nmeta with hlow | hhigh
    · exact .inl hlow
    · have hdata : mkfsSb.Data b := ⟨dataStart_mkfsSb.le.trans hhigh, hb.trans_le hspace⟩
      refine .inr ⟨mkfsSb_sound.data_ne_zero hdata, hV.intact.owned.onto b hdata ?_⟩
      rw [hused b hdata.2, decide_eq_true hb]
  · rintro (hlow | ⟨hne, k, rfl⟩)
    · omega
    · obtain ⟨hdata, hu⟩ := hV.intact.owned.mem k hne
      rw [hused _ hdata.2] at hu
      exact of_decide_eq_true hu

/-- `mkfs` and the kernel agree on what is on the disk. -/
theorem mkfs_readFile (files : List Input) (hfiles : Suitable files) (hnames : Named files) :
    ((∃ image, output files = some image) ↔ ∀ f ∈ files, slash ∉ f.name) ∧
    ∀ image, output files = some image →
      (∀ f ∈ files, ∀ s d leavingMount, Carries s d image →
        ∃ s', readFile d f.stored leavingMount s =
          (.ok (some ((f.bytes.length : Int), f.bytes)), s')) ∧
      ∀ b, bitSet (image mkfsSb.bmapstart) b = true ↔
        b < nmeta ∨ b ≠ 0 ∧ ∃ k, (Volume.ofImage image).ptr (.ofBlock (image 1)) k = b := by
  obtain ⟨hiff, hmade⟩ := output_spec hfiles
  refine ⟨hiff, fun image himage => ?_⟩
  obtain ⟨V, hV⟩ := hmade image himage
  refine ⟨fun f hf s d leavingMount hs => ?_, fun b => ?_⟩
  · obtain ⟨⟨k, hk⟩, rfl⟩ := List.get_of_mem hf
    obtain ⟨r, s', hrun, rfl⟩ := (hs.within_readFile hV hnames hfiles.inodes hfiles.size
      hk).exists_ok
    exact ⟨s', hrun⟩
  · rw [bitSet_bmap hV hfiles.space, hV.super, ofBlock_store_mkfsSb]

/-! ## A fresh kernel -/

/-- The kernel when it has been loaded, with the image on both disks. -/
def loaded (image : Nat → Block) : Fs :=
  zeroed (binit fun k => image k.2) (.ofBlock (image 1)) (.ofBlock (image 1)) 3 init

theorem carries_loaded (image : Nat → Block) (hd : d = 1 ∨ d = 2) :
    Carries (loaded image) d image where
  drive := hd
  super := ite_self _
  store := ⟨_, rep_binit _, rfl, ⟨fun _ => rfl, rfl⟩, fun _ => rfl⟩
  copies _ h := absurd h (lt_irrefl _)
  range _ h := absurd h (lt_irrefl _)
  unique _ _ h := absurd h (lt_irrefl _)
  placed _ h := absurd h (lt_irrefl _)
  unlocked _ := rfl
  unmounted _ := rfl
  room := by
    refine ⟨(decide (d = 2), ⟨0, by decide⟩), (decide (d = 2), ⟨1, by decide⟩), by simp, ?_,
      ?_, rfl, rfl⟩
    · exact List.mem_map.2 ⟨_, List.mem_finRange _, rfl⟩
    · exact List.mem_map.2 ⟨_, List.mem_finRange _, rfl⟩

/-- The file `_cat`, which the host reads in two pieces. -/
def catFile : Input :=
  ⟨[95, 99, 97, 116], [[127, 69], [76]], by decide +kernel, by decide, by decide⟩

theorem mkfs_readFile_cat : ∃ image s', output [catFile] = some image ∧
    readFile 1 [99, 97, 116] false (loaded image) = (.ok (some (3, [127, 69, 76])), s') := by
  obtain ⟨hiff, hread⟩ := mkfs_readFile [catFile] ⟨by decide, by decide, by decide⟩
    ⟨by decide, by decide, by decide, by decide⟩
  obtain ⟨image, himage⟩ := hiff.2 (by decide)
  obtain ⟨s', hs'⟩ := (hread image himage).1 catFile (by simp) (loaded image) 1 false
    (carries_loaded image (.inl rfl))
  exact ⟨image, s', himage, hs'⟩

end

end Fs

end Xv6Rework
