import Xv6Rework.Fs.Lookup
import Xv6Rework.Fs.LogSpec
import Xv6Rework.Fs.PathRefs

/-!
# Following a path to a file

What `namei` finds and what `readi` gives of it, said of the volumes that a state has.
`Volume.Goes` is the meaning of a path: each of its elements is the first entry of that
name in the directory reached so far, up to the first mount point.  `Volume.Contains` is the
meaning of an inode: a run of bytes, of any length.

Between calls a state is at `Rest`: its volumes are on its drives and the ledger accounts for
its inodes.  The rules bring a state from rest to rest; what may stop them is named, so that
they serve for partial and for total correctness.
-/

namespace Xv6Rework

open Prog

/-- The `k`-th entry of a directory is the first with a name.  The directory has the blocks up
to there, and the entry has an inode of the device. -/
structure Volume.Lists (sb : Superblock) (v : Volume) (i : Nat) (name : List UInt8) (k : Nat) : Prop
    extends v.Finds sb i name k where
  type : (v.ino i).type = T_DIR
  size : DIRENTSIZE * (k + 1) ≤ (v.ino i).size
  mapped : v.Mapped sb i (DIRENTSIZE * (k + 1))
  range : (v.dirent sb i k).inum < sb.ninodes

/-- No entry of a directory has a name.  The directory has all of its blocks. -/
structure Volume.Lacks (sb : Superblock) (v : Volume) (i : Nat) (name : List UInt8) (n : Nat) :
    Prop where
  type : (v.ino i).type = T_DIR
  size : (v.ino i).size = DIRENTSIZE * n
  mapped : v.Mapped sb i (DIRENTSIZE * n)
  skip : ∀ j < n, (v.dirent sb i j).inum = 0 ∨ namecmp (cstr name) (v.dirent sb i j).name ≠ 0

/-- What a lookup comes to: a mount point, no inode, or an inode. -/
inductive Comes where
  | crosses
  | fails
  | finds (i : Nat)

/-- How a lookup goes on that has come to the inode `i`, where the inodes of `marked` are
mount points.  A directory that it leaves again is linked or `held` by others, so that it is
not freed. -/
inductive Volume.Goes (sb : Superblock) (v : Volume) (marked held : Nat → Prop) :
    Nat → List UInt8 → Comes → Prop
  | /-- There is no element left. -/
    done {i : Nat} {path : List UInt8} (last : skipelem path = none) :
      Goes sb v marked held i path (.finds i)
  | /-- There is an element left, and the inode is no directory. -/
    stray {i : Nat} {path name rest : List UInt8} (split : skipelem path = some (name, rest))
      (live : (v.ino i).type ≠ 0) (type : (v.ino i).type ≠ T_DIR)
      (linked : (v.ino i).nlink ≠ 0 ∨ held i) : Goes sb v marked held i path .fails
  | /-- The next element is not found. -/
    miss {i n : Nat} {path name rest : List UInt8} (split : skipelem path = some (name, rest))
      (lacks : v.Lacks sb i name n) (linked : (v.ino i).nlink ≠ 0 ∨ held i) :
      Goes sb v marked held i path .fails
  | /-- The next element is a mount point. -/
    cross {i k : Nat} {path name rest : List UInt8} (split : skipelem path = some (name, rest))
      (lists : v.Lists sb i name k) (mark : marked (v.dirent sb i k).inum) :
      Goes sb v marked held i path .crosses
  | /-- The next element is found, and the lookup goes on from there. -/
    step {i k : Nat} {path name rest : List UInt8} {g : Comes}
      (split : skipelem path = some (name, rest)) (lists : v.Lists sb i name k)
      (pass : ¬marked (v.dirent sb i k).inum) (linked : (v.ino i).nlink ≠ 0 ∨ held i)
      (next : Goes sb v marked held (v.dirent sb i k).inum rest g) : Goes sb v marked held i path g

/-- The inode `i` is linked, no device, and has the contents `data`. -/
structure Volume.Contains (sb : Superblock) (v : Volume) (i : Nat) (data : List UInt8) : Prop where
  type : (v.ino i).type ≠ 0
  file : (v.ino i).type ≠ T_DEV
  linked : (v.ino i).nlink ≠ 0
  size : (v.ino i).size = data.length
  mapped : v.Mapped sb i data.length
  bytes : v.bytes sb i 0 data.length = data

/-- What `readi` gives of a file: its result, and the bytes it stores. -/
def fileRead (data : List UInt8) (off n : Nat) : Int × List UInt8 :=
  if data.length < off ∨ 2 ^ 32 ≤ off + n then
    (-1, [])
  else
    (((data.drop off).take n).length, (data.drop off).take n)

section

variable {sb : Superblock} {v : Volume} {i off n : Nat} {data : List UInt8}

/-- A file is no longer than its blocks. -/
theorem Volume.Contains.length_le (h : v.Contains sb i data) : data.length ≤ MAXFILE * BSIZE := by
  by_contra hgt
  have hfile := h.mapped (MAXFILE * BSIZE) (by omega)
  rw [Nat.mul_div_cancel _ (by decide)] at hfile
  have hptr : v.ptr sb (i, place MAXFILE) ≠ 0 := fun hzero => hfile (if_pos hzero)
  exact absurd (Volume.live_of_ptr hptr).2 (by decide)

theorem Volume.Contains.slice (h : v.Contains sb i data) (hle : off + n ≤ data.length) :
    v.bytes sb i off n = (data.drop off).take n := by
  refine List.ext_getElem ?_ fun o ho ho' => ?_
  · simp only [Volume.bytes, List.length_map, List.length_range, List.length_take, List.length_drop]
    omega
  · have hlt : o < n := by simpa [Volume.bytes] using ho
    have hbyte : v.byte sb i (off + o) = data[off + o] := by
      have hget := congrArg (fun l : List UInt8 => l[off + o]?) h.bytes
      simpa [Volume.bytes, List.getElem?_range (show off + o < data.length by omega),
        List.getElem?_eq_getElem (show off + o < data.length by omega)] using hget
    simpa [Volume.bytes] using hbyte

end

/-- An entry of the inode cache still has its inode, and the copy of it if that was valid. -/
structure Inode.Same (x y : Inode) : Prop where
  dev : y.dev = x.dev
  inum : y.inum = x.inum
  valid : x.valid = true → y.valid = true

theorem Inode.Same.trans {x y z : Inode} (h : x.Same y) (h' : y.Same z) : x.Same z :=
  ⟨h'.dev.trans h.dev, h'.inum.trans h.inum, h'.valid ∘ h.valid⟩

namespace Fs

/-- A state between calls: it has these volumes, its inodes and tables are those of the
ledger `c`, and its log is `l` unless running short of buffers is allowed. -/
structure Rest (E : Stop → Prop) (l : Log) (D : Drives) (sb : Nat → Superblock)
    (vol : Volumes) (c : Ledger) (s : Fs) : Prop where
  supplied : Supplied E l s.store
  disk : Disk D s vol [] none
  super : s.superblock = sb
  intact : ∀ d ∈ D, (vol d).Intact (sb d)
  placed : Placed s
  shows : Shows ledgerOnly s c

section

variable {E : Stop → Prop} {l : Log} {D : Drives} {sb : Nat → Superblock} {vol : Volumes}
  {c : Ledger} {s s' : Fs} {ip dp : Slot} {d i j k : Nat} {p : PId}

theorem Rest.quiet (h : Rest E l D sb vol c s) (hq : Quiet s s') (hE : Supplied E l s'.store)
    (hdisk : Disk D s' vol [] none) : Rest E l D sb vol c s' :=
  ⟨hE, hdisk, hq.superblock.trans h.super, h.intact, h.placed.quiet hq, h.shows.quiet hq⟩

theorem Quiet.same (h : Quiet s s') (e : Slot) : (s.inode e).Same (s'.inode e) :=
  ⟨(congrArg Inode.dev (h.inode e) :), (congrArg Inode.inum (h.inode e) :),
    ((congrArg Inode.valid (h.inode e) :).trans ·)⟩

theorem Locks.same {y : Dinode} (h : Locks s s' ip y) (e : Slot) :
    (s.inode e).Same (s'.inode e) := by
  by_cases he : e = ip
  · subst he
    rw [h.self]
    exact ⟨rfl, rfl, fun _ => rfl⟩
  · rw [h.other he]
    exact ⟨rfl, rfl, id⟩

/-- `iget` takes no entry that is in use. -/
theorem Fetched.same {x : Inode} {e : Slot} (h : Fetched s d i ip x) (href : 0 < (s.inode e).ref) :
    (s.inode e).Same ((s.withInode ip x).inode e) := by
  by_cases he : e = ip
  · subst he
    rw [withInode_self]
    cases h with
    | hit => exact ⟨rfl, rfl, id⟩
    | fresh hzero => exact absurd hzero href.ne'
  · rw [withInode_of_ne he]
    exact ⟨rfl, rfl, id⟩

/-- Storing to the entry that `iget` returns. -/
theorem Shows.fetched {x : Inode} (h : Shows ledgerOnly s c) (hx : Fetched s d i ip x) :
    Shows ledgerOnly (s.withInode ip x) (c.get ip) := by
  refine h.update (fun ip' hne => Ledger.get_ref_of_ne hne) (fun _ _ => rfl)
    (fun _ _ => rfl) rfl rfl ⟨?_, hx.locked.trans (h.locked ip), hx.isMountPoint.trans (h.mount ip)⟩
    unwatched
  rw [Ledger.get_ref_self, ← h.ref]
  cases hx with
  | hit => rfl
  | fresh hzero => simp [hzero]

/-- There is an entry that is not in use. -/
theorem Rest.empty_ne_none (h : Rest E l D sb vol c s) (hroom : ∃ e ∈ icache d, c.ref e = 0) :
    s.empty d ≠ none := by
  obtain ⟨e, he, hzero⟩ := hroom
  intro hempty
  have := List.find?_eq_none.1 hempty e he
  simp [h.shows.ref, hzero] at this

/-- `iget`, with an entry to spare. -/
theorem Rest.within_iget {Q : Slot → Fs → Prop} (h : Rest E l D sb vol c s) (hd : d ∈ D)
    (hi : i < (sb d).ninodes) (hroom : E (.panic "iget: no inodes") ∨ ∃ e ∈ icache d, c.ref e = 0)
    (ok : ∀ ip s', Rest E l D sb vol (c.get ip) s' → Entry D s' ip d i →
      (∀ e, 0 < (s.inode e).ref → (s.inode e).Same (s'.inode e)) → Q ip s') :
      within E (iget d i) Q s := by
  refine Fs.within_iget h.disk h.placed (by rwa [h.super]) (fun _ hempty => ?_)
    fun ip x hx hdisk hplaced => ?_
  · exact hroom.resolve_right fun hroom => h.empty_ne_none hroom hempty
  · exact ok ip _ ⟨h.supplied, hdisk, h.super, h.intact, hplaced, h.shows.fetched hx⟩ (hx.entry hd)
      fun e => hx.same

/-- One more reference to an entry in use. -/
theorem Rest.within_idup {Q : Slot → Fs → Prop} (h : Rest E l D sb vol c s) (he : Entry D s ip d i)
    (ok : ∀ s', Rest E l D sb vol (c.get ip) s' → Entry D s' ip d i →
      (∀ e, 0 < (s.inode e).ref → (s.inode e).Same (s'.inode e)) → Q ip s') :
      within E (idup ip) Q s := by
  obtain ⟨hd, href, hdev, hinum⟩ := he
  have hx : Fetched s d i ip { s.inode ip with ref := (s.inode ip).ref + 1 } := .hit href hdev hinum
  simp only [idup, wp_bind, wp_setInode, wp_pure]
  refine ok _ ⟨h.supplied, h.disk.withInode ?_ ?_ ?_, h.super, h.intact,
    fun ip' => ?_, h.shows.fetched hx⟩ (hx.entry hd) fun e => hx.same
  · exact fun _ => h.disk.mem ip href
  · exact fun _ => h.disk.range ip href
  · exact fun _ ip' hne href' hdev' hinum' => hne (h.disk.unique ip' ip href' href hdev' hinum')
  · by_cases hip : ip' = ip
    · subst hip
      rw [withInode_self]
      exact fun _ => h.placed ip' href
    · rw [withInode_of_ne hip]
      exact h.placed ip'

/-- `ilock` of an inode that is there. -/
theorem Rest.within_ilock {Q : Unit → Fs → Prop} (h : Rest E l D sb vol c s) (he : Entry D s ip d i)
    (hfree : E .hang ∨ c.locked ip = false) (htype : ((vol d).ino i).type ≠ 0)
    (ok : ∀ s', c.locked ip = false → Rest E l D sb vol (c.lock ip) s' → At D s' ip d i →
      (∀ e, (s.inode e).Same (s'.inode e)) → Q () s') : within E (ilock ip) Q s := by
  by_cases hlocked : c.locked ip = false
  case neg =>
    have hhang : E .hang := hfree.resolve_right hlocked
    have hnot : ¬(s.inode ip).ref < 1 := Int.not_lt.2 he.ref
    rw [Bool.not_eq_false, ← h.shows.locked] at hlocked
    simp only [ilock, acquiresleep, wp_bind, wp_gets, wp_ite, wp_halt, wp_stop, wp_pure,
      hnot, hlocked]
    exact ⟨(by rintro ⟨⟩), fun _ => ⟨fun _ => hhang, fun hn => absurd trivial hn⟩⟩
  refine Fs.within_ilock h.supplied h.disk he ((h.shows.locked ip).trans hlocked) htype
    fun s' hl hE' hdisk hat => ok s' hlocked
      ⟨hE', hdisk, hl.superblock.trans h.super, h.intact, hl.placed h.placed, ?_⟩ hat hl.same
  have hshow : Shows ledgerOnly { s with
      inode := Function.update s.inode ip (lockedCopy (s.inode ip) ((vol d).ino i)) } (c.lock ip) :=
        h.shows.update
    (fun _ _ => rfl) (fun ip' hne => Function.update_of_ne hne ..) (fun _ _ => rfl) rfl rfl
    ⟨h.shows.ref ip, by simp [lockedCopy, Ledger.lock], h.shows.mount ip⟩ unwatched
  refine ⟨fun ip' => ?_, fun ip' => ?_, fun ip' => ?_, ?_, ?_, unwatched, unwatched⟩
  · rw [hl.inode]
    exact hshow.ref ip'
  · rw [hl.inode]
    exact hshow.locked ip'
  · rw [hl.inode]
    exact hshow.mount ip'
  · rw [hl.tables]
    exact h.shows.tables
  · rw [hl.trace]
    exact h.shows.crossed

/-- `iunlockput` of a file that is linked, or that others refer to: it is not freed. -/
theorem Rest.within_iunlockput {Q : Unit → Fs → Prop} (h : Rest E l D sb vol ((c.get ip).lock ip) s)
    (hat : At D s ip d i) (hlinked : ((vol d).ino i).nlink ≠ 0 ∨ 0 < c.ref ip)
    (hfree : c.locked ip = false)
    (ok : ∀ s', Rest E l D sb vol c s' → (∀ e, (s.inode e).Same (s'.inode e)) → Q () s') :
    within E (iunlockput ip) Q s := by
  have hlocked : (s.inode ip).locked = true := by
    rw [h.shows.locked]
    exact Function.update_self ..
  have hnot : ¬(s.inode ip).ref < 1 := Int.not_lt.2 hat.ref
  have href : (s.inode ip).ref = c.ref ip + 1 := by
    rw [h.shows.ref]
    exact Ledger.get_ref_self
  have hkept : ¬((s.inode ip).nlink = 0 ∧ (s.inode ip).ref = 1) := by
    rw [(h.disk.at hat).1]
    omega
  have hgoal :
      Q () { s.withInode ip { s.inode ip with ref := (s.inode ip).ref - 1, locked := false } with
      trace := s.trace ++ [.iput ip (s.inode ip).ref] } := by
    refine ok _ ⟨h.supplied, (h.disk.withInode ?_ ?_ ?_).same h.disk.blocks, h.super, h.intact,
      fun ip' => ?_, ?_⟩ fun ip' => ?_
    · exact fun _ => h.disk.mem ip hat.ref
    · exact fun _ => h.disk.range ip hat.ref
    · exact fun _ ip' hne href' hdev hinum => hne (h.disk.unique ip' ip href' hat.ref hdev hinum)
    · by_cases hip : ip' = ip
      · subst hip
        intro _
        simpa using h.placed ip' hat.ref
      · simpa [withInode_of_ne hip] using h.placed ip'
    · have hput : Shows ledgerOnly { s with
          inode := Function.update s.inode ip
            { s.inode ip with ref := (s.inode ip).ref - 1, locked := false } }
          c := h.shows.update
        (fun ip' hne => (Ledger.get_ref_of_ne hne).symm)
          (fun ip' hne => (Function.update_of_ne hne ..).symm)
        (fun _ _ => rfl) rfl rfl ⟨by simp [href], hfree.symm, h.shows.mount ip⟩ unwatched
      refine ⟨hput.ref, hput.locked, hput.mount, hput.tables, ?_, unwatched,
        unwatched⟩
      rw [List.count_append, h.shows.crossed]
      rfl
    · by_cases hip : ip' = ip
      · subst hip
        exact ⟨by simp, by simp, by simp⟩
      · exact ⟨by simp [withInode_of_ne hip], by simp [withInode_of_ne
          hip], by simp [withInode_of_ne hip]⟩
  simp only [iunlockput, iunlock, iput, acquiresleep, releasesleep, record, wp_bind, wp_gets,
    wp_ite, wp_halt, wp_stop, wp_setInode, wp_update, hlocked, hnot, Bool.not_true,
    Bool.false_eq_true, or_self, false_implies, true_and, not_false_eq_true, true_implies,
    withInode_self]
  refine ⟨fun hdrop => absurd hdrop.2 hkept, fun _ => ?_⟩
  simpa only [withInode, Function.update_self, Function.update_idem] using hgoal

theorem At.same (h : At D s dp d i) (hs : (s.inode dp).Same (s'.inode dp))
    (href : 0 < (s'.inode dp).ref) : At D s' dp d i :=
  ⟨h.mem, href, hs.dev.trans h.dev, hs.inum.trans h.inum, hs.valid h.valid⟩

/-- `dirlookup` of a name that a directory has. -/
theorem Rest.within_dirlookup {Q : Option (Slot × Nat) → Fs → Prop} {name : List UInt8}
    {leaving : Bool} (h : Rest E l D sb vol c s) (hat : At D s dp d i)
    (hmount : leaving = true ∨ c.mount dp = false) (hlists : (vol d).Lists (sb d) i name k)
    (hroom : E (.panic "iget: no inodes") ∨ ∃ e ∈ icache d, c.ref e = 0)
    (ok : ∀ ip off s', Rest E l D sb vol (c.get ip) s' →
      Entry D s' ip d ((vol d).dirent (sb d) i k).inum →
      (∀ e, 0 < (s.inode e).ref → (s.inode e).Same (s'.inode e)) → Q (some (ip, off)) s') :
    within E (dirlookup dp name leaving) Q s := by
  have hsb := h.super
  subst hsb
  have hscan : within E (dirscan dp name) Q s := by
    have hle : k + 1 ≤ ((vol d).ino i).size / DIRENTSIZE :=
      (Nat.le_div_iff_mul_le (by decide)).2 (by rw [Nat.mul_comm]; exact hlists.size)
    obtain ⟨fuel, hfuel⟩ : ∃ fuel, ((vol d).ino i).size / DIRENTSIZE + 2 = k + (fuel + 1) :=
      ⟨((vol d).ino i).size / DIRENTSIZE + 1 - k, by omega⟩
    have hnext := Nat.mul_add_one DIRENTSIZE k
    have hsize := hlists.size
    have hd : 0 < DIRENTSIZE := by decide
    simp only [dirscan, wp_bind, wp_gets, wp_ite, wp_halt, (h.disk.at hat).1, hlists.type, ne_eq,
      not_true_eq_false, false_implies, true_and, not_false_eq_true, true_implies, hfuel]
    refine within_dirlookupLoop_skip (j := 0) h.supplied h.disk (h.intact d hat.mem) hat hlists.type
      (by rw [Nat.zero_add]; omega) (fun o ho => hlists.mapped o
      (by rw [Nat.zero_add] at ho; omega)) (by rw [Nat.zero_add]; exact hlists.skip)
      fun s1 hq1 hE1 h1 => ?_
    have hsb1 := hq1.superblock
    have hat1 := hat.quiet hq1
    simp only [Nat.zero_add, dirlookupLoop, wp_bind, wp_gets, wp_ite, (h1.at hat1).1]
    refine ⟨fun _ => ?_, fun hge => absurd (by omega) hge⟩
    refine within_readDirent hE1 h1 (by rw [hsb1]; exact h.intact d hat.mem) hat1 hlists.type hsize
      (by rw [hsb1]; exact hlists.mapped) fun s2 hq2 hE2 h2 => ?_
    rw [hsb1]
    have hq := IsTrans.trans _ _ _ hq1 hq2
    simp only [wp_bind, wp_pure, hat.dev]
    refine ⟨fun hzero => absurd hzero hlists.live, fun _ =>
      ⟨fun _ => ?_, fun hne => absurd hlists.named hne⟩⟩
    refine (h.quiet hq hE2 h2).within_iget hat.mem hlists.range hroom fun ip s3 h3 he3 hsame => ?_
    refine ok ip _ s3 h3 he3 fun e href => (hq.same e).trans (hsame e ?_)
    rw [(h.shows.quiet hq).ref, ← h.shows.ref]
    exact href
  rcases hmount with rfl | hmount
  · exact hscan
  · rw [← h.shows.mount] at hmount
    cases leaving with
    | true => exact hscan
    | false =>
      simp only [dirlookup, mounted, wp_bind, wp_gets, wp_ite, wp_pure, hmount,
        Bool.false_eq_true, if_false, false_implies, true_and, not_false_eq_true, true_implies]
      exact hscan

/-- `dirlookup` of a name that a directory does not have. -/
theorem Rest.within_dirlookup_none {Q : Option (Slot × Nat) → Fs → Prop}
    {name : List UInt8} {n : Nat} (h : Rest E l D sb vol c s) (hat : At D s dp d i)
    (hlacks : (vol d).Lacks (sb d) i name n)
    (ok : ∀ s', Rest E l D sb vol c s' → (∀ e, (s.inode e).Same (s'.inode e)) → Q none s') :
    within E (dirlookup dp name true) Q s := by
  have hsb := h.super
  subst hsb
  have hfuel : ((vol d).ino i).size / DIRENTSIZE + 2 = n + 2 := by
    rw [hlacks.size, Nat.mul_div_cancel_left _ (by decide)]
  simp only [dirlookup, dirscan, wp_bind, wp_gets, wp_ite, wp_halt, (h.disk.at hat).1,
    hlacks.type, ne_eq, not_true_eq_false, false_implies, true_and, not_false_eq_true, true_implies,
    hfuel, if_true]
  refine within_dirlookupLoop_skip (j := 0) h.supplied h.disk (h.intact d hat.mem) hat hlacks.type
    (by rw [Nat.zero_add, hlacks.size]) (by rw [Nat.zero_add]; exact hlacks.mapped)
    (by rw [Nat.zero_add]; exact hlacks.skip) fun s1 hq hE1 h1 => ?_
  simp only [Nat.zero_add, dirlookupLoop, wp_bind, wp_gets, wp_ite, wp_pure,
    (h1.at (hat.quiet hq)).1, hlacks.size, lt_irrefl, false_implies, true_and, not_false_eq_true,
    true_implies]
  exact ok s1 (h.quiet hq hE1 h1) hq.same

/-- Two entries of a cache are not in use. -/
def Ledger.Spare (c : Ledger) (d : Nat) : Prop :=
  ∃ e e', e ≠ e' ∧ e ∈ icache d ∧ e' ∈ icache d ∧ c.ref e = 0 ∧ c.ref e' = 0

theorem Ledger.Spare.get (h : c.Spare d) (ip : Slot) : ∃ e ∈ icache d, (c.get ip).ref e = 0 := by
  obtain ⟨e, e', hne, he, he', hzero, hzero'⟩ := h
  by_cases hip : e = ip
  · exact ⟨e', he', (Ledger.get_ref_of_ne (hip ▸ hne.symm)).trans hzero'⟩
  · exact ⟨e, he, (Ledger.get_ref_of_ne hip).trans hzero⟩

/-- An inode of a device that is a mount point. -/
def Marked (s : Fs) (d j : Nat) : Prop :=
  ∃ e, (s.inode e).isMountPoint = true ∧ (s.inode e).dev = d ∧ (s.inode e).inum = j

/-- An inode of a device that is in use. -/
def Held (s : Fs) (d j : Nat) : Prop :=
  ∃ e, 0 < (s.inode e).ref ∧ (s.inode e).dev = d ∧ (s.inode e).inum = j

/-- The entries that are in use by the ledger `c` have kept their inodes. -/
def Stays (c : Ledger) (s0 s : Fs) : Prop := ∀ e, 0 < c.ref e → (s0.inode e).Same (s.inode e)

theorem Stays.trans {s0 : Fs} (h : Stays c s0 s) (hrest : Rest E l D sb vol (c.get ip) s)
    (hsame : ∀ e, 0 < (s.inode e).ref → (s.inode e).Same (s'.inode e)) : Stays c s0 s' := by
  intro e href
  refine (h e href).trans (hsame e ?_)
  rw [hrest.shows.ref]
  exact href.trans_le Ledger.le_get_ref

/-- No other entry has the inode of an entry that was in use. -/
theorem Stays.eq_of_entry {s0 : Fs} {c' : Ledger} {e e' : Slot} (h : Stays c s0 s)
    (hrest : Rest E l D sb vol c' s) (hle : c.ref e' ≤ c'.ref e') (he : Entry D s e d i)
    (href : 0 < c.ref e') (hdev : (s0.inode e').dev = d) (hinum : (s0.inode e').inum = i) :
    e = e' := by
  refine hrest.disk.unique e e' he.ref ?_ ?_ ?_
  · rw [hrest.shows.ref]
    exact href.trans_le hle
  · rw [he.dev, (h e' href).dev, hdev]
  · rw [he.inum, (h e' href).inum, hinum]

/-- What a lookup from the state `s0`, which showed the ledger `c`, has done when it has come to
`g`: it has crossed a mount point, or it has got its result and no more. -/
def Arrives (E : Stop → Prop) (l : Log) (D : Drives) (sb : Nat → Superblock)
    (vol : Volumes) (c : Ledger) (s0 : Fs) (d : Nat) : Comes → Option Slot → Fs → Prop
  | .crosses, _, s => c.crossed < s.trace.count .crossMount
  | .fails, r, s => r = none ∧ Rest E l D sb vol c s
  | .finds j, r, s =>
    ∃ ip, r = some ip ∧ Rest E l D sb vol (c.get ip) s ∧ Entry D s ip d j ∧ Stays c s0 s

/-- Where everything may stop a run, only runs that return count. -/
theorem within_of_wlp {α : Type} {x : FsM α} {Q : α → Fs → Prop} (hE : ∀ e, E e) (h : wlp x Q s) :
    within E x Q s :=
  wp_iff.2 ⟨h, fun e _ _ => hE e⟩

/-- The rest of the lookup, from a mount point on. -/
theorem wlp_crosses {next : Slot} {fuel : Nat} {path : List UInt8}
    (h : Shows ledgerOnly s (((c.get next).get ip).lock ip)) (hfree : c.locked ip = false)
    (hmark : c.mount next = true) :
    wlp (do
      let next ← crossMount false next
      iunlockput ip
      namexLoop false fuel next path) (fun _ s' => c.crossed < s'.trace.count .crossMount) s := by
  have hcount : ∀ l, c.crossed < ((c.leak next).leaks l).crossed := by
    intro l
    rw [Ledger.leaks_crossed]
    exact Nat.lt_add_right _ (Nat.lt_succ_self _)
  have hcomm : ((c.get next).get ip).lock ip = ((c.get ip).lock ip).get next := by
    rw [Ledger.get_get_comm, Ledger.get_lock_comm]
  rw [hcomm] at h
  simp only [wlp_bind]
  refine wlp_crossMount h unwatched (fun s1 hpass => ?_) fun root s1 _ _ h1 => ?_
  · exact absurd (hmark.symm.trans (hpass rfl)) (by decide)
  · have hcomm : ((((c.get ip).lock ip).leak next).get root) =
        (((c.leak next).get root).get ip).lock ip := by
      simp [Ledger.get, Ledger.leak, Ledger.lock, add_right_comm]
    rw [hcomm] at h1
    refine wlp_iunlockput h1 unwatched hfree fun s2 h2 =>
      wlp_namexLoop h2 ⟨unwatched, unwatched⟩ (fun l s' _ h' => ?_)
        fun l ip' name s' _ h' => ?_
    · rw [h'.crossed]
      exact hcount l
    · rw [h'.crossed]
      exact hcount l

/-- A round of the loop of `namex` that finds the next element. -/
theorem Rest.within_namexLoop_found {path name rest : List UInt8} {fuel : Nat}
    {Q : Option (Slot × List UInt8) → Fs → Prop} (h : Rest E l D sb vol (c.get ip) s)
    (he : Entry D s ip d i) (hfree : E .hang ∨ ∀ ip, c.locked ip = false)
    (hroom : E (.panic "iget: no inodes") ∨ c.Spare d) (split : skipelem path = some (name, rest))
    (lists : (vol d).Lists (sb d) i name k)
    (ok : ∀ next s', c.locked ip = false → Rest E l D sb vol (((c.get next).get ip).lock ip) s' →
      At D s' ip d i → Entry D s' next d ((vol d).dirent (sb d) i k).inum →
      (∀ e, 0 < (s.inode e).ref → (s.inode e).Same (s'.inode e)) → within E (do
        let next ← crossMount false next
        iunlockput ip
        namexLoop false fuel next rest) Q s') :
    within E (namexLoop false (fuel + 1) ip path) Q s := by
  simp only [namexLoop, split, wp_bind]
  refine h.within_ilock he (hfree.imp_right fun h => h ip) (by rw [lists.type]; decide)
    fun s1 hip h1 hat1 hsame1 => ?_
  simp only [wp_gets, wp_ite, wp_bind, (h1.disk.at hat1).1, lists.type, Bool.false_eq_true,
    false_and, ne_eq, not_true_eq_false, false_implies, not_false_eq_true, true_implies, true_and]
  refine h1.within_dirlookup hat1 (.inl rfl) lists (hroom.imp_right fun hspare => hspare.get ip)
    fun next off s2 h2 he2 hsame2 => ?_
  have href : ∀ e, (s1.inode e).ref = (s.inode e).ref := fun e => by
    rw [h1.shows.ref, h.shows.ref]
    rfl
  have hat2 : At D s2 ip d i := by
    refine hat1.same (hsame2 ip hat1.ref) ?_
    rw [h2.shows.ref]
    exact (h1.shows.ref ip ▸ hat1.ref).trans_le Ledger.le_get_ref
  have hcomm : ((c.get ip).lock ip).get next = ((c.get next).get ip).lock ip :=
    congrArg (Ledger.lock · ip) (Ledger.get_get_comm c ip next)
  rw [hcomm] at h2
  have hok := ok next s2 hip h2 hat2 he2 fun e he => (hsame1 e).trans
    (hsame2 e ((href e).symm ▸ he))
  simpa only [wp_bind] using hok

/-- The loop of `namex` goes as the directories say. -/
theorem Rest.within_namexLoop {s0 : Fs} {path : List UInt8} {fuel : Nat} {g : Comes}
    (hg : (vol d).Goes (sb d) (s0.Marked d) (s0.Held d) i path g) (h0 : Shows ledgerOnly s0 c)
    (hused : ∀ e, c.mount e = true → 0 < c.ref e) (h : Rest E l D sb vol (c.get ip) s)
    (he : Entry D s ip d i) (hstay : Stays c s0 s) (hfuel : path.length < fuel)
    (hfree : E .hang ∨ ∀ ip, c.locked ip = false) (hroom : E (.panic "iget: no inodes") ∨ c.Spare d)
    (hcross : (∃ e, c.mount e = true) → ∀ e, E e) :
    within E (namexLoop false fuel ip path)
      (fun r s' => Arrives E l D sb vol c s0 d g (r.map Prod.fst) s') s := by
  have hkept : ∀ {ip s i}, Rest E l D sb vol (c.get ip) s → Stays c s0 s → Entry D s ip d i →
      ((vol d).ino i).nlink ≠ 0 ∨ s0.Held d i → ((vol d).ino i).nlink ≠ 0 ∨ 0 < c.ref ip := by
    intro ip s i h hstay he hlinked
    refine hlinked.imp_right ?_
    rintro ⟨e, href, hdev, hinum⟩
    rw [h0.ref] at href
    rwa [hstay.eq_of_entry h Ledger.le_get_ref he href hdev hinum]
  induction hg generalizing fuel ip s with
  | done last =>
    obtain ⟨fuel, rfl⟩ := Nat.exists_eq_succ_of_ne_zero (Nat.ne_zero_of_lt hfuel)
    simp only [namexLoop, last]
    exact ⟨ip, rfl, h, he, hstay⟩
  | stray split live type linked =>
    obtain ⟨fuel, rfl⟩ := Nat.exists_eq_succ_of_ne_zero (Nat.ne_zero_of_lt hfuel)
    simp only [namexLoop, split, wp_bind]
    refine h.within_ilock he (hfree.imp_right fun h => h ip) live fun s1 hip h1 hat1 _ => ?_
    simp only [wp_gets, wp_ite, wp_bind, wp_pure, (h1.disk.at hat1).1, type, ne_eq,
      not_false_eq_true, true_implies, not_true_eq_false, false_implies, and_true]
    exact h1.within_iunlockput hat1 (hkept h hstay he linked) hip fun s2 h2 _ => ⟨rfl, h2⟩
  | miss split lacks linked =>
    obtain ⟨fuel, rfl⟩ := Nat.exists_eq_succ_of_ne_zero (Nat.ne_zero_of_lt hfuel)
    simp only [namexLoop, split, wp_bind]
    refine h.within_ilock he (hfree.imp_right fun h => h ip) (by rw [lacks.type]; decide)
      fun s1 hip h1 hat1 _ => ?_
    simp only [wp_gets, wp_ite, wp_bind, (h1.disk.at hat1).1, lacks.type, Bool.false_eq_true,
      false_and, ne_eq, not_true_eq_false, false_implies, not_false_eq_true, true_implies, true_and]
    refine h1.within_dirlookup_none hat1 lacks fun s2 h2 hsame2 => ?_
    have hat2 := hat1.same (hsame2 ip) (by rw [h2.shows.ref, ← h1.shows.ref]; exact hat1.ref)
    simp only [wp_bind, wp_pure]
    exact h2.within_iunlockput hat2 (hkept h hstay he linked) hip fun s3 h3 _ => ⟨rfl, h3⟩
  | @cross i k path name rest split lists mark =>
    obtain ⟨fuel, rfl⟩ := Nat.exists_eq_succ_of_ne_zero (Nat.ne_zero_of_lt hfuel)
    refine h.within_namexLoop_found he hfree hroom split lists fun next s1 hip h1 _ he1 hsame1 => ?_
    obtain ⟨e, hmark, hdev, hinum⟩ := mark
    rw [h0.mount] at hmark
    -- the entry that `dirlookup` has found is the one with the mark
    obtain rfl := (hstay.trans h hsame1).eq_of_entry h1 (Ledger.le_get_ref.trans Ledger.le_get_ref)
      he1 (hused e hmark) hdev hinum
    exact within_of_wlp (hcross ⟨_, hmark⟩) (wlp_crosses h1.shows hip hmark)
  | @step i k path name rest g split lists pass linked _ ih =>
    obtain ⟨fuel, rfl⟩ := Nat.exists_eq_succ_of_ne_zero (Nat.ne_zero_of_lt hfuel)
    have hlen := length_skipelem split
    refine h.within_namexLoop_found he hfree hroom split lists
      fun next s1 hip h1 hat1 he1 hsame1 => ?_
    have hstay1 := hstay.trans h hsame1
    have hmount : c.mount next = false := by
      by_contra hmark
      rw [Bool.not_eq_false] at hmark
      have hs := hstay1 next (hused next hmark)
      exact pass ⟨next, (h0.mount next).trans hmark, hs.dev.symm.trans he1.dev,
        hs.inum.symm.trans he1.inum⟩
    have hnext : (s1.inode next).isMountPoint = false := (h1.shows.mount next).trans hmount
    simp only [crossMount, wp_bind, wp_gets, wp_ite, wp_pure, hnext, Bool.not_false, Bool.and_false,
      Bool.false_eq_true, false_implies, not_false_eq_true, true_implies, true_and]
    refine h1.within_iunlockput hat1 ((hkept h hstay he linked).imp_right
      (·.trans_le Ledger.le_get_ref)) hip fun s2 h2 hsame2 => ih h2 ⟨he1.mem, ?_, ?_, ?_⟩
      (fun e href => (hstay1 e href).trans (hsame2 e)) (by omega)
    · -- the reference to `next` is one that `dirlookup` has taken
      have hold : 0 < c.ref ip + 1 := by
        rw [← Ledger.get_ref_self, ← h.shows.ref]
        exact he.ref
      have hnew := he1.ref
      rw [h1.shows.ref, Ledger.lock_ref] at hnew
      rw [h2.shows.ref, Ledger.get_ref_self]
      by_cases hne : next = ip
      · subst hne
        exact hold
      · rwa [Ledger.get_ref_of_ne hne, Ledger.get_ref_self] at hnew
    · rw [(hsame2 next).dev, he1.dev]
    · rw [(hsame2 next).inum, he1.inum]

/-- Where a path starts: at the root of a device, or in the working directory. -/
def Starts (D : Drives) (s : Fs) (p : PId) (dev : Nat) (path : List UInt8) (d i : Nat) : Prop :=
  if path.head? = some slash then
    d = dev ∧ i = ROOTINO ∧ d ∈ D ∧ i < (s.superblock d).ninodes
  else
    ∃ ip, (s.proc p).cwd = some ip ∧ Entry D s ip d i

/-- What the lookup of a path on a device comes to, as the directories of the device `d` are
before it. -/
def Resolves (D : Drives) (s : Fs) (vol : Volumes) (p : PId) (dev : Nat)
    (path : List UInt8) (d : Nat) (g : Comes) : Prop :=
  ∃ i, s.Starts D p dev path d i ∧ (vol d).Goes (s.superblock d) (s.Marked d) (s.Held d) i path g

/-- What a path comes to depends on the inodes, the working directory and the super blocks. -/
theorem Resolves.congr {dev : Nat} {path : List UInt8} {g : Comes}
    (h : s.Resolves D vol p dev path d g) (hinode : s'.inode = s.inode) (hproc : s'.proc = s.proc)
    (hsb : s'.superblock = s.superblock) : s'.Resolves D vol p dev path d g := by
  have hentry : ∀ ip d i, Entry D s ip d i → Entry D s' ip d i := fun ip d i he =>
    ⟨he.mem, by rw [hinode]; exact he.ref, by rw [hinode, he.dev], by rw [hinode, he.inum]⟩
  have hmarked : s'.Marked d = s.Marked d := by simp only [funext_iff, Marked, hinode, implies_true]
  have hheld : s'.Held d = s.Held d := by simp only [funext_iff, Held, hinode, implies_true]
  obtain ⟨i, hstart, hgoes⟩ := h
  refine ⟨i, ?_, by rwa [hmarked, hheld, hsb]⟩
  rw [Starts] at hstart ⊢
  rw [hsb, hproc]
  split at hstart
  next hslash => rwa [if_pos hslash]
  next hslash =>
    rw [if_neg hslash]
    obtain ⟨ip, hcwd, he⟩ := hstart
    exact ⟨ip, hcwd, hentry ip d i he⟩

/-- `namex` comes to what the path does. -/
theorem Rest.within_namex {dev : Nat} {path : List UInt8} {g : Comes} (h : Rest E l D sb vol c s)
    (hres : s.Resolves D vol p dev path d g) (hused : ∀ e, c.mount e = true → 0 < c.ref e)
    (hfree : E .hang ∨ ∀ ip, c.locked ip = false) (hroom : E (.panic "iget: no inodes") ∨ c.Spare d)
    (hcross : (∃ e, c.mount e = true) → ∀ e, E e) :
    within E (namex p dev path false)
      (fun r s' => Arrives E l D sb vol c s d g (r.map Prod.fst) s') s := by
  obtain ⟨i, hstart, hgoes⟩ := hres
  have hsb := h.super
  subst hsb
  have hloop : ∀ ip s', Rest E l D s.superblock vol (c.get ip) s' → Entry D s' ip d i →
      (∀ e, 0 < (s.inode e).ref → (s.inode e).Same (s'.inode e)) →
      within E (namexLoop false (path.length + 1) ip path)
        (fun r s'' => Arrives E l D s.superblock vol c s d g (r.map Prod.fst) s'') s' := by
    intro ip s' h' he hsame
    refine h'.within_namexLoop hgoes h.shows hused he (fun e href => hsame e ?_)
      (Nat.lt_succ_self _) hfree hroom hcross
    rwa [h.shows.ref]
  rw [Starts] at hstart
  simp only [namex, namexStart, wp_bind, wp_ite]
  refine ⟨fun hslash => ?_, fun hslash => ?_⟩
  · rw [if_pos hslash] at hstart
    obtain ⟨rfl, rfl, hd, hi⟩ := hstart
    refine h.within_iget hd hi (hroom.imp_right ?_) hloop
    rintro ⟨e, -, -, he, -, hzero, -⟩
    exact ⟨e, he, hzero⟩
  · rw [if_neg hslash] at hstart
    obtain ⟨ip, hcwd, he⟩ := hstart
    simp only [cwd, hcwd, deref, wp_bind, wp_gets, wp_pure]
    exact h.within_idup he fun s' => hloop ip s'

/-- `namei` on the first device comes to what the path does. -/
theorem Rest.within_namei {path : List UInt8} {g : Comes} (h : Rest E l D sb vol c s)
    (hres : s.Resolves D vol p 1 path d g) (hused : ∀ e, c.mount e = true → 0 < c.ref e)
    (hfree : E .hang ∨ ∀ ip, c.locked ip = false) (hroom : E (.panic "iget: no inodes") ∨ c.Spare d)
    (hcross : (∃ e, c.mount e = true) → ∀ e, E e) :
    within E (namei p 1 path) (Arrives E l D sb vol c s d g) s := by
  have hleave : s.leavesMount p 1 path = false := by simp [leavesMount]
  simp only [namei, nameiDev, wp_bind, wp_pure, wp_gets, wp_ite, hleave, one_ne_zero,
    Bool.false_eq_true, false_implies, not_false_eq_true, true_implies, true_and]
  exact h.within_namex hres hused hfree hroom hcross

/-! ## Reading -/

/-- `readi` of a file, at any offset. -/
theorem Rest.within_readi {data : List UInt8} {off n : UInt32} {Q : Int × List UInt8 → Fs → Prop}
    (h : Rest E l D sb vol c s) (hat : At D s ip d i) (hdata : (vol d).Contains (sb d) i data)
    (hn : n.toNat < 2 ^ 31)
    (ok : ∀ s', Rest E l D sb vol c s' → At D s' ip d i → Q (fileRead data off.toNat n.toNat) s') :
    within E (readi ip off n) Q s := by
  have hsb := h.super
  subst hsb
  by_cases hbad : data.length < off.toNat ∨ 2 ^ 32 ≤ off.toNat + n.toNat
  · have hcond : (s.inode ip).size < off.toNat ∨ off + n < off := by
      rw [(h.disk.at hat).1, hdata.size, UInt32.lt_iff_toNat_lt, UInt32.toNat_add]
      have := off.toNat_lt
      have := n.toNat_lt
      omega
    have htype : (s.inode ip).type ≠ T_DEV := by
      rw [(h.disk.at hat).1]
      exact hdata.file
    have hQ := ok s h hat
    rw [fileRead, if_pos hbad] at hQ
    simp only [readi, wp_bind, wp_gets, wp_ite, wp_pure, htype, hcond, false_implies,
      true_implies, true_and, not_false_eq_true, not_true_eq_false, and_true]
    exact hQ
  · have hQ : ∀ s', Rest E l D s.superblock vol c s' → At D s' ip d i → _ := ok
    rw [fileRead, if_neg hbad] at hQ
    have hle : off.toNat ≤ data.length := by omega
    have hm : toInt32 (min n.toNat (data.length - off.toNat)) =
        (min n.toNat (data.length - off.toNat) : Nat) :=
      if_pos (by omega)
    have hslice : (vol d).bytes (s.superblock d) i off.toNat
        (min n.toNat (data.length - off.toNat)) = (data.drop off.toNat).take n.toNat := by
      rw [hdata.slice (by omega), List.take_eq_take_iff, List.length_drop]
      omega
    rw [List.length_take, List.length_drop] at hQ
    refine Fs.within_readi (m := min n.toNat (data.length - off.toNat)) h.supplied h.disk
      (h.intact d hat.mem) hat hdata.file (by rw [hdata.size]; exact hle) (by omega)
      (by rw [hdata.size]) (fun o ho => hdata.mapped o (by omega)) fun s' hq hE' hdisk => ?_
    rw [hslice, hm]
    exact hQ s' (h.quiet hq hE' hdisk) (hat.quiet hq)

/-! ## Transactions -/

/-- Another record of the log. -/
theorem Rest.setLog {l' l'' : Log} {tr : List Event} (h : Rest E l D sb vol c s)
    (hlog : s.store.log = l → l' = l'') (htr : ∃ t, tr = s.trace ++ t ∧ Silent t) :
    Rest E l'' D sb vol c { s with store := { s.store with log := l' }, trace := tr } := by
  obtain ⟨w, hw, hheld, hblock⟩ := h.disk.blocks
  refine ⟨h.supplied.imp_right fun ⟨hc, hl⟩ => ⟨hc, hlog hl⟩, ?_, h.super, h.intact, h.placed, ?_⟩
  · exact h.disk.same ⟨_, hw.setLog l', hheld, hblock⟩
  · exact h.shows.of_frame (fun _ => rfl) h.shows.tables htr

/-- `begin_op` where the log has room. -/
theorem Rest.within_beginOp {Q : Unit → Fs → Prop} (h : Rest E l D sb vol c s)
    (hlog : E .hang ∨ s.store.log.committing = false ∧
      s.store.log.n + (s.store.log.outstanding + 1) * MAXOPBLOCKS ≤ LOGSIZE)
    (ok : ∀ s', Rest E { l with outstanding := l.outstanding + 1 } D sb vol c s' →
      s'.inode = s.inode → s'.toTables = s.toTables → Q () s') :
    within E beginOp Q s := by
  simp only [beginOp, wp_bind, record, wp_update]
  refine within_lift.2 ?_
  simp only [Xv6Rework.beginOp, wp_bind, wp_gets, wp_ite, wp_stop]
  refine ⟨fun hcom => hlog.resolve_right fun hlog => ?_,
    fun _ => ⟨fun hroom => hlog.resolve_right fun hlog => ?_,
    fun _ => ok _ (h.setLog (fun hl => by rw [hl]) ⟨_, rfl, by simp [Silent]⟩) rfl rfl⟩⟩
  · rw [hlog.1] at hcom
    cases hcom
  · exact absurd hlog.2 (by omega)

/-- `end_op` where nothing has been logged. -/
theorem Rest.within_endOp {Q : Unit → Fs → Prop} (h : Rest E l D sb vol c s)
    (hcom : s.store.log.committing = false) (hblock : s.store.log.block = [])
    (ok : ∀ s', Rest E { l with outstanding := l.outstanding - 1 } D sb vol c s' →
      s'.inode = s.inode → s'.toTables = s.toTables → Q () s') :
    within E endOp Q s := by
  have hQ : ∀ l', (s.store.log = l → l' = { l with outstanding := l.outstanding - 1 }) →
      Q () { s with store := { s.store with log := l' }, trace := s.trace ++ [.endOp] } :=
      fun l' hl =>
    ok _ (h.setLog hl ⟨_, rfl, by simp [Silent]⟩) rfl rfl
  simp only [endOp, wp_bind, record, wp_update]
  refine within_lift.2 ?_
  simp only [Xv6Rework.endOp, commit, wp_bind, wp_gets, wp_ite, wp_halt, wp_pure, Xv6Rework.setLog,
    wp_update, hcom]
  refine ⟨(by rintro ⟨⟩), fun _ => ⟨fun _ => ⟨fun hpos => ?_, fun _ => ?_⟩, fun _ => ?_⟩⟩
  · exact absurd hpos (by simpa [Log.n] using hblock)
  · exact hQ _ fun hl => by rw [← hl, hcom]
  · exact hQ _ fun hl => by rw [← hl, hcom]

end

end Fs

end Xv6Rework
