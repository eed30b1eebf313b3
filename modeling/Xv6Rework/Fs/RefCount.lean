import Xv6Rework.Fs.Refs
import Xv6Rework.Lib.Count
import Xv6Rework.Lib.Machine
import Mathlib.Algebra.Order.Pi

/-!
# Inode references are conserved

The machine here is the file system with any number of processes that make system
calls, each of which runs from its call to its return, and nothing mounted.  The main
result is that between calls the reference count of an inode is the number of working
directories and open files that refer to it, that no inode is locked, and that no two
entries of the cache in use are for the same inode.  It does not depend on what the
disks hold.

During a call the reference count of an inode exceeds the number of its holders by the
references the call has in its variables (`own`).
-/

namespace Xv6Rework.Fs

open Prog

/-! ## Holders -/

/-- One for a process in the directory, and none for another. -/
def procUses (x : FsProc) (ip : Slot) : Nat := if x.cwd = some ip then 1 else 0

/-- One for an open file of the inode. -/
def fileUses (x : File) (ip : Slot) : Nat := if x.type = .FD_INODE ∧ x.ip = some ip then 1 else 0

/-- The number of working directories and open files that refer to an inode. -/
def holders (t : Tables) (ip : Slot) : Nat :=
  count (fun x : FsProc => x.cwd = some ip) t.proc +
    count (fun x : File => x.type = .FD_INODE ∧ x.ip = some ip) t.file

section

variable {t : Tables} {ip : Slot}

theorem holders_setProc (t : Tables) (p : PId) (x : FsProc) (ip : Slot) :
    holders (t.setProc p x) ip + procUses (t.proc p) ip =
      holders t ip + procUses x ip := by
  have := count_update (P := fun x : FsProc => x.cwd = some ip) t.proc p x
  simp only [holders, procUses, Tables.setProc] at *
  omega

theorem holders_setFile (t : Tables) (f : Fin NFILE) (x : File) (ip : Slot) :
    holders (t.setFile f x) ip + fileUses (t.file f) ip =
      holders t ip + fileUses x ip := by
  have := count_update (P := fun x : File => x.type = .FD_INODE ∧ x.ip = some ip) t.file f x
  simp only [holders, fileUses, Tables.setFile] at *
  omega

theorem holders_pos {p : PId} (h : (t.proc p).cwd = some ip) : 0 < holders t ip := by
  have := (count_pos (P := fun x : FsProc => x.cwd = some ip)).2 ⟨p, h⟩
  simp only [holders]
  omega

end

/-! ## A call that holds references -/

/-- Device numbers that occur while nothing is mounted. -/
def Low (dev : Nat) : Prop := dev ≤ 1

/-- What is followed: that the cache is in order, with these devices. -/
def lowDevs : Watch := ⟨some Low, none⟩

/-- Nothing is mounted; an unused file refers to no inode; and neither does a process
that is not there or has exited. -/
structure Fine (t : Tables) : Prop where
  mountRoot : t.mountRoot = none
  files : ∀ f, (t.file f).ref = 0 → (t.file f).type ≠ .FD_INODE
  procs : ∀ p, (t.proc p).state = .unused ∨ (t.proc p).state = .zombie → (t.proc p).cwd = none

/-- Nothing is mounted, and the reference counts are those of the holders and of what
the running call owns. -/
structure Ledger.Sound (c : Ledger) (own : Slot → Int) : Prop where
  nonneg : ∀ ip, 0 ≤ own ip
  ref : ∀ ip, c.ref ip = holders c.tables ip + own ip
  mount : ∀ ip, c.mount ip = false
  fine : Fine c.tables

section

variable {t : Tables} (h : Fine t)

include h

theorem Fine.setProc {p : PId} {x : FsProc}
    (hx : x.state = .unused ∨ x.state = .zombie → x.cwd = none) :
    Fine (t.setProc p x) := by
  refine ⟨h.mountRoot, h.files, fun q => ?_⟩
  by_cases hq : q = p
  · subst hq
    simpa [Tables.setProc] using hx
  · simpa [Tables.setProc, Function.update_of_ne hq] using h.procs q

theorem Fine.setFile {f : Fin NFILE} {x : File} (hx : x.ref = 0 → x.type ≠ .FD_INODE) :
    Fine (t.setFile f x) := by
  refine ⟨h.mountRoot, fun g => ?_, h.procs⟩
  by_cases hg : g = f
  · subst hg
    simpa [Tables.setFile] using hx
  · simpa [Tables.setFile, Function.update_of_ne hg] using h.files g

end

section

variable {α : Type} {s s' : Fs} {c : Ledger} {own : Slot → Int} {ip dp : Slot} {p : PId} {dev : Nat}

namespace Ledger.Sound

theorem get (h : c.Sound own) : (c.get ip).Sound (own + Pi.single ip 1) := by
  have hone : (0 : Slot → Int) ≤ Pi.single ip 1 := Pi.single_nonneg.2 Int.one_nonneg
  refine ⟨fun ip' => Int.add_nonneg (h.nonneg ip') (hone ip'), fun ip' => ?_, h.mount, h.fine⟩
  simp only [Ledger.get, Pi.add_apply, h.ref]
  rw [add_assoc]

theorem lock (h : c.Sound own) : (c.lock ip).Sound own :=
  ⟨h.nonneg, h.ref, h.mount, h.fine⟩

theorem ref_nonneg (h : c.Sound own) : 0 ≤ c.ref ip := by
  have := h.nonneg ip
  rw [h.ref]
  omega

theorem pos (h : c.Sound own) : 0 < (c.get ip).ref ip := by
  rw [Ledger.get_ref_self]
  exact Int.lt_add_one_iff.2 h.ref_nonneg

theorem cwd_pos (h : c.Sound own) (hip : (c.tables.proc p).cwd = some ip) : 0 < c.ref ip := by
  have := holders_pos hip
  have := h.nonneg ip
  rw [h.ref]
  omega

theorem ready (h : c.Sound own) : c.Ready lowDevs := by
  refine ⟨fun _ _ root hr => ?_, unwatched⟩
  rw [h.fine.mountRoot] at hr
  cases hr

theorem leaks_eq (h : c.Sound own) {l : List Slot} {parent : Bool}
    (hl : ∀ mp ∈ l, parent = false ∧ c.mount mp = true) : c.leaks l = c := by
  cases l with
  | nil => rfl
  | cons mp l =>
    have := (hl mp List.mem_cons_self).2
    rw [h.mount] at this
    cases this

end Ledger.Sound

/-! ## Path resolution with nothing mounted -/

theorem low_of_mem (h : Low dev) : ∀ D ∈ lowDevs.devs, D dev := by
  rintro D ⟨⟩
  exact h

/-- The device of an entry in use. -/
theorem Shows.low (h : Shows lowDevs s c) (hip : 0 < c.ref ip) : Low (s.inode ip).dev :=
  (h.order Low rfl).devs ip hip

/-- A lookup on the root device, where nothing is mounted. -/
theorem wlp_namex_low {path : List UInt8} {parent : Bool}
    {Q : Option (Slot × List UInt8) → Fs → Prop} (h : Shows lowDevs s c) (hc : c.Sound own)
    (hdev : Low dev) (absent : ∀ s', Shows lowDevs s' c → Q none s')
    (found : ∀ ip name s', Shows lowDevs s' (c.get ip) → Q (some (ip, name)) s') :
    wlp (namex p dev path parent) Q s := by
  refine wlp_namex h hc.ready (low_of_mem hdev) (fun _ _ _ => hc.cwd_pos)
    (fun l s' hl h' => absent s' ?_) fun l ip name s' hl h' =>
    found ip name s' ?_
  · rwa [hc.leaks_eq hl] at h'
  · rwa [hc.leaks_eq hl] at h'

theorem wlp_namei {path : List UInt8} {Q : Option Slot → Fs → Prop}
    (h : Shows lowDevs s c) (hc : c.Sound own) (hdev : Low dev)
    (absent : ∀ s', Shows lowDevs s' c → Q none s')
    (found : ∀ ip s', Shows lowDevs s' (c.get ip) → Q (some ip) s') :
    wlp (namei p dev path) Q s := by
  have hlow : Low (if dev = 0 then s.cwdDev p else dev) := by
    split
    · rw [cwdDev, h.proc]
      cases hcwd : (c.tables.proc p).cwd with
      | none => exact Nat.zero_le 1
      | some ip => exact h.low (hc.cwd_pos hcwd)
    · exact hdev
  refine wlp_namei_cases (fun hleave => ?_) fun _ => wlp_namex_low h hc hlow absent
    fun ip _ => found ip
  simp [leavesMount, Nat.not_lt.2 hlow] at hleave

theorem wlp_dirlookup {name : List UInt8} {leavingMount : Bool}
    {Q : Option (Slot × Nat) → Fs → Prop} (h : Shows lowDevs s c) (hc : ∀ ip, c.mount ip = false)
    (hdp : 0 < c.ref dp) (absent : ∀ s', Shows lowDevs s' c → Q none s')
    (found : ∀ ip off s', Shows lowDevs s' (c.get ip) → Q (some (ip, off)) s') :
    wlp (dirlookup dp name leavingMount) Q s := by
  have hdir : wlp (dirscan dp name) Q s := wlp_dirscan h (fun _ _ => hdp) absent found
  simp only [dirlookup, mounted, wlp_ite, wlp_bind, wlp_gets, wlp_pure, h.mount, hc]
  exact ⟨fun _ => hdir, fun _ => ⟨(by rintro ⟨⟩), fun _ => hdir⟩⟩

theorem wlp_dirlink {name : List UInt8} {inum : Nat} {Q : Int → Fs → Prop} (h : Shows lowDevs s c)
    (hc : ∀ ip, c.mount ip = false) (hdp : 0 < c.ref dp)
    (ok : ∀ r s', Shows lowDevs s' c → Q r s') : wlp (dirlink dp name inum) Q s := by
  have hloop : ∀ k off {s} {Q : Nat → Fs → Prop}, Shows lowDevs s c →
      (∀ r s', Shows lowDevs s' c → Q r s') → wlp (dirlinkLoop dp k off) Q s := by
    intro k
    induction k with
    | zero => exact fun off s Q _ _ => by simp [dirlinkLoop]
    | succ k ih =>
      intro off s Q h ok
      simp only [dirlinkLoop, wlp_bind, wlp_gets, wlp_ite, wlp_pure]
      exact ⟨fun _ => wlp_readDirent h fun de s1 h1 => ⟨fun _ => ok _ _ h1, fun _ => ih _ h1 ok⟩,
        fun _ => ok _ _ h⟩
  simp only [dirlink, mounted, wlp_bind, wlp_gets, wlp_ite, wlp_pure, h.mount, hc]
  refine ⟨(by rintro ⟨⟩), fun _ => wlp_dirlookup h hc hdp (fun s1 h1 => ?_) fun ip off s1 h1 => ?_⟩
  · simp only [wlp_bind, wlp_gets, direntWrite, wlp_ite, wlp_halt, wlp_pure]
    refine hloop _ _ h1 fun off s2 h2 => ?_
    refine wlp_setInode h2 (fun _ => ⟨rfl, rfl, rfl, rfl, rfl⟩) fun s3 h3 => wlp_writei h3
      fun r s4 h4 => ?_
    exact ⟨fun _ => trivial, fun _ => wlp_quiet iupdate_quiet h4 fun _ s5 h5 => ok _ _ h5⟩
  · simp only [wlp_bind, wlp_pure]
    refine wlp_iput h1 unwatched fun s2 _ h2 => ok _ _ ?_
    rwa [Ledger.put_get] at h2

/-! ## Tables -/

/-- New tables, with the references that their holders have. -/
def Ledger.rebook (c : Ledger) (t : Tables) : Ledger :=
  { c with tables := t, ref := fun ip => c.ref ip + ((holders t ip : Int) - holders c.tables ip) }

section

variable {t t' : Tables}

@[simp] theorem rebook_tables : (c.rebook t).tables = t := rfl

theorem Ledger.Sound.rebook (h : c.Sound own) (ht : Fine t) : (c.rebook t).Sound own := by
  refine ⟨h.nonneg, fun ip => ?_, h.mount, ht⟩
  simp only [Ledger.rebook, h.ref]
  omega

theorem rebook_get : (c.get ip).rebook t = (c.rebook t).get ip := by
  simp only [Ledger.rebook, Ledger.get, Ledger.mk.injEq, and_true]
  funext ip'
  simp only [Pi.add_apply]
  omega

theorem rebook_lock : (c.lock ip).rebook t = (c.rebook t).lock ip := rfl

theorem rebook_rebook : (c.rebook t).rebook t' = c.rebook t' := by
  simp only [Ledger.rebook, Ledger.mk.injEq, and_true]
  funext ip
  omega

/-- The holders are the same. -/
theorem withTables_eq_rebook (h : ∀ ip, holders t ip = holders c.tables ip) :
    c.withTables t = c.rebook t := by
  simp only [Ledger.withTables, Ledger.rebook, h, Int.sub_self, Int.add_zero]

theorem rebook_self : c.rebook c.tables = c := (withTables_eq_rebook fun _ => rfl).symm

theorem single_apply' {ip ip' : Slot} :
    (Pi.single ip 1 : Slot → Int) ip' = if some ip = some ip' then 1 else 0 := by
  simp [Pi.single_apply, eq_comm]

/-- A holder has gone, and its reference is put. -/
theorem withTables_put
    (h : ∀ ip', holders t ip' + (if some ip = some ip' then 1 else 0) = holders c.tables ip') :
    (c.put ip).withTables t = c.rebook t := by
  simp only [Ledger.withTables, Ledger.put, Ledger.rebook, Ledger.mk.injEq, and_true]
  funext ip'
  have := h ip'
  simp only [Pi.sub_apply, single_apply']
  split_ifs at this ⊢ <;> omega

/-- A reference that was got has found a holder. -/
theorem withTables_get
    (h : ∀ ip', holders t ip' = holders c.tables ip' + if some ip = some ip' then 1 else 0) :
    (c.get ip).withTables t = c.rebook t := by
  simp only [Ledger.withTables, Ledger.get, Ledger.rebook, Ledger.mk.injEq, and_true]
  funext ip'
  have := h ip'
  simp only [Pi.add_apply, single_apply']
  split_ifs at this ⊢ <;> omega

end

/-! ## Files -/

/-- A change of a file that keeps what it refers to. -/
theorem wlp_setFile_same {f : Fin NFILE} {g : File → File} {Q : Unit → Fs → Prop}
    (h : Shows lowDevs s c) (hc : Fine c.tables) (href : (g (c.tables.file f)).ref ≠ 0)
    (hg : ∀ x, (g x).type = x.type ∧ (g x).ip = x.ip)
    (ok : ∀ s', Fine (c.tables.setFile f (g (c.tables.file f))) →
      Shows lowDevs s' (c.rebook (c.tables.setFile f (g (c.tables.file f)))) → Q () s') :
    wlp (setFile f g) Q s := by
  refine wlp_setFile h fun s1 h1 => ok s1 (hc.setFile fun h => absurd h href) ?_
  rwa [withTables_eq_rebook] at h1
  intro ip
  refine Nat.add_right_cancel ((holders_setFile _ _ _ _).trans ?_)
  simp only [fileUses, (hg _).1, (hg _).2]

/-- A file that referred to no inode takes over a reference that was got. -/
theorem wlp_setFile_hold {f : Fin NFILE} {g : File → File} {Q : Unit → Fs → Prop}
    (h : Shows lowDevs s (c.get ip)) (hc : Fine c.tables)
    (htype : (c.tables.file f).type ≠ .FD_INODE) (href : (c.tables.file f).ref ≠ 0)
    (hg : ∀ x, (g x).type = .FD_INODE ∧ (g x).ip = some ip ∧ (g x).ref = x.ref)
    (ok : ∀ t s', Fine t → Shows lowDevs s' (c.rebook t) → Q () s') : wlp (setFile f g) Q s := by
  refine wlp_setFile h fun s1 h1 => ok (c.tables.setFile f (g (c.tables.file f))) s1
    (hc.setFile fun h => absurd ((hg _).2.2 ▸ h) href) ?_
  rwa [withTables_get] at h1
  intro ip'
  have := holders_setFile c.tables f (g (c.tables.file f)) ip'
  simp only [fileUses, (hg _).1, (hg _).2.1, htype, true_and, false_and, if_false,
    Nat.add_zero] at this
  exact this

/-- A change of a process that keeps its working directory. -/
theorem wlp_setProc_same {g : FsProc → FsProc} {Q : Unit → Fs → Prop} (h : Shows lowDevs s c)
    (hc : Fine c.tables) (hg : (g (c.tables.proc p)).cwd = (c.tables.proc p).cwd)
    (hstate : (g (c.tables.proc p)).state = .unused ∨ (g (c.tables.proc p)).state = .zombie →
      (c.tables.proc p).cwd = none)
    (ok : ∀ s', Fine (c.tables.setProc p (g (c.tables.proc p))) →
      Shows lowDevs s' (c.rebook (c.tables.setProc p (g (c.tables.proc p)))) → Q () s') :
    wlp (setProc p g) Q s := by
  refine wlp_setProc h fun s1 h1 => ok s1 (hc.setProc fun h => hg.trans (hstate h)) ?_
  rwa [withTables_eq_rebook] at h1
  intro ip
  refine Nat.add_right_cancel ((holders_setProc _ _ _ _).trans ?_)
  simp only [procUses, hg]

theorem wlp_setOfile {fd : Fin NOFILE} {f : Option (Fin NFILE)} {Q : Unit → Fs → Prop}
    (h : Shows lowDevs s c) (hc : Fine c.tables)
    (ok : ∀ t s', Fine t → t.file = c.tables.file → (∀ q, (t.proc q).cwd = (c.tables.proc q).cwd) →
      Shows lowDevs s' (c.rebook t) → Q () s') : wlp (setOfile p fd f) Q s := by
  refine wlp_setProc_same h hc rfl (hc.procs p) fun s1 ht h1 => ok _ s1 ht rfl (fun q => ?_) h1
  by_cases hq : q = p
  · subst hq
    simp [Tables.setProc]
  · simp [Tables.setProc, Function.update_of_ne hq]

/-- `fileclose` drops the reference of a file that nobody has open any more. -/
theorem wlp_fileclose {f : Fin NFILE} {Q : Unit → Fs → Prop} (h : Shows lowDevs s c)
    (hc : c.Sound own)
    (ok : ∀ t s', Fine t → t.proc = c.tables.proc → Shows lowDevs s' (c.rebook t) → Q () s') :
    wlp (fileclose f) Q s := by
  simp only [fileclose, wlp_bind, wlp_gets, wlp_ite, wlp_halt]
  refine ⟨fun _ => trivial, fun _ => wlp_setFile h fun s1 h1 => ?_⟩
  generalize ht1 : c.tables.setFile f { c.tables.file f with ref := (c.tables.file f).ref - 1 } =
    t1 at h1
  have hfile : t1.file f = { c.tables.file f with ref := (c.tables.file f).ref - 1 } := by
    simp [← ht1, Tables.setFile]
  have hholders : ∀ ip, holders t1 ip = holders c.tables ip := by
    intro ip
    rw [← ht1]
    exact Nat.add_right_cancel (holders_setFile _ _ _ _)
  have hproc : t1.proc = c.tables.proc := by rw [← ht1]; rfl
  simp only [h1.file, Ledger.withTables, hfile, wlp_pure]
  refine ⟨fun hpos => ok t1 s1 ?_ hproc (withTables_eq_rebook hholders ▸ h1), fun _ => ?_⟩
  · rw [← ht1]
    exact hc.fine.setFile fun h => absurd h (by simp only at h; omega)
  · refine wlp_setFile h1 fun s2 h2 => ?_
    simp only [Ledger.withTables, hfile] at h2
    generalize ht2 : t1.setFile f { c.tables.file f with ref := 0, type := .FD_NONE } = t2 at h2
    have hset : t2 = c.tables.setFile f { c.tables.file f with ref := 0, type := .FD_NONE } := by
      simp [← ht2, ← ht1, Tables.setFile]
    have hfine : Fine t2 := hset ▸ hc.fine.setFile fun _ => by simp
    have hproc : t2.proc = c.tables.proc := by rw [hset]; rfl
    have hgone : ∀ ip, holders t2 ip + fileUses (c.tables.file f) ip = holders c.tables ip := by
      intro ip
      rw [hset, holders_setFile]
      simp [fileUses]
    change Shows lowDevs s2 (c.withTables t2) at h2
    refine ⟨fun htype => wlp_beginOp h2 fun s3 h3 => wlp_deref fun ip hip => ?_, fun htype => ?_⟩
    · refine wlp_iput h3 unwatched fun s4 _ h4 => wlp_endOp h4 fun s5 h5 =>
        ok t2 s5 hfine hproc ?_
      change Shows lowDevs s5 ((c.put ip).withTables t2) at h5
      rwa [withTables_put] at h5
      intro ip'
      rw [← hgone, fileUses, hip]
      simp [htype]
    · refine ok t2 s2 hfine hproc (withTables_eq_rebook (fun ip => ?_) ▸ h2)
      rw [← hgone, fileUses, if_neg fun h => htype h.1, Nat.add_zero]

/-! ## Creating -/

theorem lock_get_comm (h : ip ≠ dp) :
    (((c.get dp).lock dp).get ip).lock ip = (((c.get ip).lock ip).get dp).lock dp := by
  simp [Ledger.get, Ledger.lock, add_right_comm, Function.update_comm h]

theorem ne_of_locked (h : (((c.get dp).lock dp).get ip).locked ip = false) : ip ≠ dp := by
  rintro rfl
  simp [Ledger.get, Ledger.lock] at h

/-- A directory that the call has locked, and goes on to use. -/
theorem wlp_dirlink_locked {name : List UInt8} {inum : Nat} {Q : Int → Fs → Prop}
    (h : Shows lowDevs s ((c.get dp).lock dp)) (hc : c.Sound own)
    (ok : ∀ r s', Shows lowDevs s' ((c.get dp).lock dp) → Q r s') :
    wlp (dirlink dp name inum) Q s :=
  wlp_dirlink h hc.mount hc.pos ok

theorem wlp_createLink {name : List UInt8} {Q : Option Slot → Fs → Prop}
    (h : Shows lowDevs s ((c.get dp).lock dp)) (hc : c.Sound own) (hfree : c.locked dp = false)
    (ok : ∀ s', Shows lowDevs s' c → Q (some ip) s') : wlp (createLink dp ip name) Q s := by
  simp only [createLink, wlp_bind, wlp_gets]
  refine wlp_dirlink_locked h hc fun r s1 h1 => ?_
  simp only [wlp_ite, wlp_halt, wlp_bind, wlp_pure]
  exact ⟨fun _ => trivial, fun _ => wlp_iunlockput h1 unwatched hfree fun s2 h2 => ok s2 h2⟩

theorem wlp_createDots {Q : Unit → Fs → Prop} (h : Shows lowDevs s ((c.get ip).lock ip))
    (hc : c.Sound own) (ok : ∀ s', Shows lowDevs s' ((c.get ip).lock ip) → Q () s') :
    wlp (createDots dp ip) Q s := by
  simp only [createDots, incNlink, wlp_bind, wlp_gets]
  refine wlp_setInode h (fun _ => ⟨rfl, rfl, rfl, rfl, rfl⟩) fun s1 h1 => ?_
  refine wlp_quiet iupdate_quiet h1 fun _ s2 h2 => wlp_dirlink_locked h2 hc fun r s3 h3 => ?_
  simp only [wlp_ite, wlp_halt, wlp_bind, wlp_gets, wlp_pure]
  refine ⟨fun _ => trivial, fun _ => wlp_dirlink_locked h3 hc fun r s4 h4 => ?_⟩
  exact ⟨fun _ => trivial, fun _ => ok s4 h4⟩

theorem wlp_createNew {name : List UInt8} {type major minor : Nat} {Q : Option Slot → Fs → Prop}
    (h : Shows lowDevs s ((c.get dp).lock dp)) (hc : c.Sound own) (hfree : c.locked dp = false)
    (ok : ∀ ip s', c.locked ip = false → Shows lowDevs s' ((c.get ip).lock ip) → Q (some ip) s') :
    wlp (createNew dp name type major minor) Q s := by
  simp only [createNew, wlp_bind, wlp_gets]
  refine wlp_ialloc h (low_of_mem (h.low hc.pos)) fun ip s1 h1 => ?_
  refine wlp_ilock h1 fun s2 _ hip h2 => ?_
  have hne : ip ≠ dp := ne_of_locked hip
  have hip : c.locked ip = false := by simpa [Ledger.get, Ledger.lock, hne] using hip
  have hcommon : ∀ {s}, Shows lowDevs s ((((c.get dp).lock dp).get ip).lock ip) →
      wlp (createLink dp ip name) Q s := by
    intro s h
    rw [lock_get_comm hne] at h
    refine wlp_createLink h hc.get.lock ?_ fun s' h' => ok ip s' hip h'
    simpa [Ledger.get, Ledger.lock, hne.symm] using hfree
  refine wlp_setInode h2 (fun _ => ⟨rfl, rfl, rfl, rfl, rfl⟩) fun s3 h3 => ?_
  refine wlp_quiet iupdate_quiet h3 fun _ s4 h4 => ?_
  simp only [wlp_ite, wlp_bind]
  exact ⟨fun _ => wlp_createDots h4 hc.get.lock fun s5 h5 => hcommon h5, fun _ => hcommon h4⟩

/-- `create` returns an inode that it has got and locked. -/
theorem wlp_create {path : List UInt8} {type major minor : Nat} {Q : Option Slot → Fs → Prop}
    (h : Shows lowDevs s c) (hc : c.Sound own) (absent : ∀ s', Shows lowDevs s' c → Q none s')
    (ok : ∀ ip s', c.locked ip = false → Shows lowDevs s' ((c.get ip).lock ip) → Q (some ip) s') :
    wlp (create p path type major minor) Q s := by
  simp only [create, wlp_bind]
  refine wlp_namex_low h hc (Nat.zero_le 1) (fun s1 h1 => wlp_pure.2 (absent s1 h1))
    fun dp name s1 h1 => ?_
  simp only [wlp_bind]
  refine wlp_ilock h1 fun s2 hdp hfree h2 => ?_
  refine wlp_dirlookup h2 hc.mount hdp (fun s3 h3 => wlp_createNew h3 hc hfree ok)
    fun ip off s3 h3 => ?_
  simp only [wlp_bind, wlp_gets, wlp_ite, wlp_pure]
  rw [← Ledger.get_lock_comm, Ledger.get_get_comm] at h3
  refine wlp_iunlockput h3 unwatched hfree fun s4 h4 => wlp_ilock h4 fun s5 _ hip h5 => ?_
  exact ⟨fun _ => ok ip s5 hip h5, fun _ => wlp_iunlockput h5 unwatched hip fun s6 h6 =>
    absent s6 h6⟩

/-! ## System calls -/

/-- The state between calls. -/
def Settled (s : Fs) : Prop := ∃ c : Ledger, Shows lowDevs s c ∧ c.Sound 0 ∧
    ∀ ip, c.locked ip = false

/-- The end of a call. -/
theorem settled_return {a : Int} (h : Shows lowDevs s c) (hc : c.Sound 0)
    (hfree : ∀ ip, c.locked ip = false) :
    wlp (endOp >>= fun _ => pure a) (fun _ s' => Settled s') s := by
  simp only [wlp_bind, wlp_pure]
  exact wlp_endOp h fun s' h' => ⟨c, h', hc, hfree⟩

theorem settled_sysCreate {type : Nat} {path : Option (List UInt8)} {dev : Option (Nat × Nat)}
    (h : Settled s) : wlp (sysCreate p type path dev) (fun _ s' => Settled s') s := by
  obtain ⟨c, h, hc, hfree⟩ := h
  have harg : ∀ {s} {Q : Option Slot → Fs → Prop}, Shows lowDevs s c →
      (∀ s', Shows lowDevs s' c → Q none s') → (∀ ip s', c.locked ip = false → Shows lowDevs s'
      ((c.get ip).lock ip) → Q (some ip) s') → wlp (createArg p type path dev) Q s := by
    intro s Q h absent ok
    unfold createArg
    split
    · exact wlp_create h hc absent ok
    · exact wlp_pure.2 (absent s h)
  simp only [sysCreate, wlp_bind]
  refine wlp_beginOp h fun s1 h1 => harg h1 (fun s2 h2 => ?_) fun ip s2 hip h2 => ?_
  · exact settled_return h2 hc hfree
  · rw [wlp_bind]
    exact wlp_iunlockput h2 unwatched hip fun s3 h3 => settled_return h3 hc hfree

theorem wlp_sysLinkBad {Q : Int → Fs → Prop} (h : Shows lowDevs s (c.get ip))
    (hfree : c.locked ip = false) (ok : ∀ s', Shows lowDevs s' c → Q (-1) s') :
    wlp (sysLinkBad ip) Q s := by
  simp only [sysLinkBad, decNlink, wlp_bind, wlp_pure]
  refine wlp_ilock h fun s1 _ _ h1 => wlp_setInode h1 (fun _ => ⟨rfl, rfl, rfl, rfl, rfl⟩)
    fun s2 h2 => ?_
  refine wlp_quiet iupdate_quiet h2 fun _ s3 h3 => wlp_iunlockput h3 unwatched hfree
    fun s4 h4 => ?_
  exact wlp_endOp h4 ok

theorem wlp_linkInto {name : List UInt8} {Q : Bool → Fs → Prop}
    (h : Shows lowDevs s ((c.get dp).lock dp)) (hc : c.Sound own)
    (ok : ∀ r s', Shows lowDevs s' ((c.get dp).lock dp) → Q r s') :
    wlp (linkInto dp ip name) Q s := by
  simp only [linkInto, wlp_bind, wlp_gets, wlp_ite, wlp_pure]
  exact ⟨fun _ => ok _ _ h, fun _ => wlp_dirlink_locked h hc fun r s1 h1 => ok _ _ h1⟩

theorem settled_sysLink {old new : Option (List UInt8)} (h : Settled s) :
    wlp (sysLink p old new) (fun _ s' => Settled s') s := by
  obtain ⟨c, h, hc, hfree⟩ := h
  unfold sysLink
  split
  · next old new =>
    rw [wlp_bind]
    refine wlp_beginOp h fun s1 h1 => ?_
    rw [wlp_bind]
    refine wlp_namei h1 hc (Nat.zero_le 1) (fun s2 h2 => settled_return h2 hc hfree)
      fun ip s2 h2 => ?_
    rw [wlp_bind]
    refine wlp_ilock h2 fun s3 _ hip h3 => ?_
    rw [wlp_bind, wlp_gets, wlp_ite]
    refine ⟨fun _ => ?_, fun _ => ?_⟩
    · rw [wlp_bind]
      exact wlp_iunlockput h3 unwatched hip fun s4 h4 => settled_return h4 hc hfree
    · simp only [incNlink, wlp_bind]
      refine wlp_setInode h3 (fun _ => ⟨rfl, rfl, rfl, rfl, rfl⟩) fun s4 h4 => ?_
      refine wlp_quiet iupdate_quiet h4 fun _ s5 h5 => wlp_iunlock h5 fun s6 _ h6 => ?_
      rw [Ledger.unlock_lock hip] at h6
      simp only [sysLinkNew, wlp_bind]
      refine wlp_namex_low h6 hc.get (Nat.zero_le 1) (fun s7 h7 => ?_) fun dp name s7 h7 => ?_
      · exact wlp_sysLinkBad h7 hip fun s8 h8 => ⟨c, h8, hc, hfree⟩
      · rw [wlp_bind]
        refine wlp_ilock h7 fun s8 _ hdp h8 => ?_
        rw [wlp_bind]
        refine wlp_linkInto h8 hc.get fun r s9 h9 => ?_
        rw [wlp_bind]
        refine wlp_iunlockput h9 unwatched hdp fun s10 h10 => ?_
        rw [wlp_ite]
        refine ⟨fun _ => ?_, fun _ => ?_⟩
        · rw [wlp_bind]
          refine wlp_iput h10 unwatched fun s11 _ h11 => ?_
          rw [Ledger.put_get] at h11
          exact settled_return h11 hc hfree
        · exact wlp_sysLinkBad h10 hip fun s11 h11 => ⟨c, h11, hc, hfree⟩
  · exact wlp_pure.2 ⟨c, h, hc, hfree⟩

theorem wlp_isFull {Q : Bool → Fs → Prop} (h : Shows lowDevs s c)
    (ok : ∀ r s', Shows lowDevs s' c → Q r s') : wlp (isFull ip) Q s := by
  have hloop : ∀ k off {s} {Q : Bool → Fs → Prop}, Shows lowDevs s c →
      (∀ r s', Shows lowDevs s' c → Q r s') → wlp (isdiremptyLoop ip k off) Q s := by
    intro k
    induction k with
    | zero => exact fun off s Q _ _ => by simp [isdiremptyLoop]
    | succ k ih =>
      intro off s Q h ok
      simp only [isdiremptyLoop, wlp_bind, wlp_gets, wlp_ite, wlp_pure]
      exact ⟨fun _ => wlp_readDirent h fun de s1 h1 => ⟨fun _ => ok _ _ h1, fun _ => ih _ h1 ok⟩,
        fun _ => ok _ _ h⟩
  simp only [isFull, isdirempty, wlp_bind, wlp_gets, wlp_ite, wlp_pure]
  exact ⟨fun _ => hloop _ _ h fun r s1 h1 => ok _ _ h1, fun _ => ok _ _ h⟩

theorem wlp_unlinkEntry {off : Nat} {Q : Unit → Fs → Prop} (h : Shows lowDevs s c)
    (ok : ∀ s', Shows lowDevs s' c → Q () s') : wlp (unlinkEntry dp ip off) Q s := by
  simp only [unlinkEntry, decNlink, wlp_bind, wlp_gets, wlp_ite, wlp_halt, wlp_pure]
  refine wlp_writei h fun r s1 h1 => ⟨fun _ => trivial, fun _ => ⟨fun _ => ?_, fun _ => ok _ h1⟩⟩
  refine wlp_setInode h1 (fun _ => ⟨rfl, rfl, rfl, rfl, rfl⟩) fun s2 h2 => ?_
  exact wlp_quiet iupdate_quiet h2 fun _ s3 h3 => ok _ h3

theorem settled_sysUnlinkBad (h : Shows lowDevs s ((c.get dp).lock dp)) (hc : c.Sound 0)
    (hfree : ∀ ip, c.locked ip = false) : wlp (sysUnlinkBad dp) (fun _ s' => Settled s') s := by
  rw [sysUnlinkBad, wlp_bind]
  exact wlp_iunlockput h unwatched (hfree dp) fun s1 h1 => settled_return h1 hc hfree

theorem settled_unlinkFound {off : Nat} (h : Shows lowDevs s (((c.get dp).lock dp).get ip))
    (hc : c.Sound 0) (hfree : ∀ ip, c.locked ip = false) :
    wlp (unlinkFound dp ip off) (fun _ s' => Settled s') s := by
  rw [unlinkFound, wlp_bind]
  refine wlp_ilock h fun s1 _ hip h1 => ?_
  have hne : ip ≠ dp := ne_of_locked hip
  simp only [wlp_bind, wlp_gets, wlp_ite, wlp_halt]
  refine ⟨fun _ => trivial, fun _ => wlp_isFull h1 fun r s2 h2 => ⟨fun _ => ?_, fun _ => ?_⟩⟩
  · exact wlp_iunlockput h2 unwatched hip fun s3 h3 => settled_sysUnlinkBad h3 hc hfree
  · refine wlp_unlinkEntry h2 fun s3 h3 => ?_
    rw [lock_get_comm hne] at h3
    refine wlp_iunlockput h3 unwatched ?_ fun s4 h4 => ?_
    · simpa [Ledger.get, Ledger.lock, hne.symm] using hfree dp
    refine wlp_setInode h4 (fun _ => ⟨rfl, rfl, rfl, rfl, rfl⟩) fun s5 h5 => ?_
    refine wlp_quiet iupdate_quiet h5 fun _ s6 h6 => wlp_iunlockput h6 unwatched (hfree ip)
      fun s7 h7 => ?_
    simpa only [wlp_bind] using settled_return h7 hc hfree

theorem settled_sysUnlink {path : Option (List UInt8)} (h : Settled s) :
    wlp (sysUnlink p path) (fun _ s' => Settled s') s := by
  obtain ⟨c, h, hc, hfree⟩ := h
  unfold sysUnlink
  split
  · exact wlp_pure.2 ⟨c, h, hc, hfree⟩
  · rw [wlp_bind]
    refine wlp_beginOp h fun s1 h1 => ?_
    rw [wlp_bind]
    refine wlp_namex_low h1 hc (Nat.zero_le 1) (fun s2 h2 => settled_return h2 hc hfree)
      fun dp name s2 h2 => ?_
    rw [wlp_bind]
    refine wlp_ilock h2 fun s3 hdp _ h3 => ?_
    rw [wlp_ite, wlp_bind]
    refine ⟨fun _ => settled_sysUnlinkBad h3 hc hfree, fun _ => wlp_dirlookup h3 hc.mount hdp
      (fun s4 h4 => settled_sysUnlinkBad h4 hc hfree) fun ip off s4 h4 => ?_⟩
    exact settled_unlinkFound h4 hc hfree

theorem settled_sysChdir {path : Option (List UInt8)} (h : Settled s) :
    wlp (sysChdir p path) (fun _ s' => Settled s') s := by
  obtain ⟨c, h, hc, hfree⟩ := h
  have harg : ∀ {s} {Q : Option Slot → Fs → Prop}, Shows lowDevs s c →
      (∀ s', Shows lowDevs s' c → Q none s') → (∀ ip s', Shows lowDevs s' (c.get ip) →
        Q (some ip) s') → wlp (nameiArg p path) Q s := by
    intro s Q h absent ok
    unfold nameiArg
    split
    · exact wlp_namei h hc (Nat.zero_le 1) absent ok
    · exact wlp_pure.2 (absent s h)
  rw [sysChdir, wlp_bind]
  refine wlp_beginOp h fun s1 h1 => ?_
  rw [wlp_bind]
  refine harg h1 (fun s2 h2 => settled_return h2 hc hfree) fun ip s2 h2 => ?_
  rw [wlp_bind]
  refine wlp_ilock h2 fun s3 _ hip h3 => ?_
  rw [wlp_bind, wlp_gets, wlp_ite]
  refine ⟨fun _ => ?_, fun _ => ?_⟩
  · rw [wlp_bind]
    exact wlp_iunlockput h3 unwatched hip fun s4 h4 => settled_return h4 hc hfree
  · simp only [setCwd, wlp_bind, wlp_pure]
    refine wlp_iunlock h3 fun s4 _ h4 => ?_
    rw [Ledger.unlock_lock hip] at h4
    refine wlp_cwd h4 fun old hold => wlp_iput h4 unwatched fun s5 _ h5 => wlp_endOp h5
      fun s6 h6 => ?_
    refine wlp_setProc h6 fun s7 h7 => ?_
    simp only [Ledger.put_tables, Ledger.get_tables] at h7 hold
    generalize ht : c.tables.setProc p { c.tables.proc p with cwd := some ip } = t at h7
    have hmove : ((c.get ip).put old).withTables t = c.rebook t := by
      have hh : ∀ ip', holders t ip' + (if some old = some ip' then 1 else 0) =
          holders c.tables ip' + if some ip = some ip' then 1 else 0 := by
        intro ip'
        have := holders_setProc c.tables p { c.tables.proc p with cwd := some ip } ip'
        simpa only [ht, procUses, hold] using this
      simp only [Ledger.withTables, Ledger.put, Ledger.get, Ledger.rebook,
        Ledger.mk.injEq, and_true]
      funext ip'
      have := hh ip'
      simp only [Pi.sub_apply, Pi.add_apply, single_apply']
      split_ifs at this ⊢ <;> omega
    rw [hmove] at h7
    refine ⟨_, h7, hc.rebook ?_, hfree⟩
    rw [← ht]
    refine hc.fine.setProc fun hstate => ?_
    have := hc.fine.procs p hstate
    rw [hold] at this
    cases this

/-! ### Opening -/

theorem wlp_openInode {path : List UInt8} {omode : BitVec 32} {Q : Option Slot → Fs → Prop}
    (h : Shows lowDevs s c) (hc : c.Sound own) (absent : ∀ s', Shows lowDevs s' c → Q none s')
    (ok : ∀ ip s', c.locked ip = false → Shows lowDevs s' ((c.get ip).lock ip) → Q (some ip) s') :
    wlp (openInode p path omode) Q s := by
  simp only [openInode, wlp_ite, wlp_bind]
  refine ⟨fun _ => wlp_create h hc absent ok, fun _ => wlp_namei h hc (Nat.zero_le 1)
    (fun s1 h1 => wlp_pure.2 (absent s1 h1)) fun ip s1 h1 => ?_⟩
  simp only [wlp_bind, wlp_gets, wlp_ite, wlp_pure]
  refine wlp_ilock h1 fun s2 _ hip h2 => ⟨fun _ => ?_, fun _ => ok ip s2 hip h2⟩
  exact wlp_iunlockput h2 unwatched hip fun s3 h3 => absent s3 h3

theorem wlp_openFile {Q : Option (Fin NFILE × Fin NOFILE) → Fs → Prop} (h : Shows lowDevs s c)
    (hc : c.Sound own) (failed : ∀ t s', Fine t → Shows lowDevs s' (c.rebook t) → Q none s')
    (ok : ∀ t f fd s', Fine t → (t.file f).type ≠ .FD_INODE → (t.file f).ref = 1 →
      Shows lowDevs s' (c.rebook t) → Q (some (f, fd)) s') : wlp (openFile p) Q s := by
  simp only [openFile, filealloc, wlp_bind, wlp_gets]
  split
  · next f hf =>
    have hzero : (c.tables.file f).ref = 0 := by
      have := List.find?_some hf
      simpa [h.file] using this
    simp only [wlp_bind, wlp_pure]
    refine wlp_setFile_same h hc.fine (by simp) (fun _ => ⟨rfl, rfl⟩) fun s1 ht1 h1 => ?_
    generalize hset : c.tables.setFile f { c.tables.file f with ref := 1 } = t1 at ht1 h1
    have hfile : (t1.file f).type ≠ .FD_INODE ∧ (t1.file f).ref = 1 := by
      simpa [← hset, Tables.setFile] using hc.fine.files f hzero
    simp only [fdalloc, wlp_bind, wlp_gets]
    split
    · simp only [wlp_bind, wlp_pure]
      refine wlp_setOfile h1 ht1 fun t2 s2 ht2 hfile2 _ h2 => ?_
      rw [rebook_rebook] at h2
      exact ok t2 f _ s2 ht2 (hfile2 ▸ hfile.1) (hfile2 ▸ hfile.2) h2
    · simp only [wlp_bind, wlp_pure]
      refine wlp_fileclose h1 (hc.rebook ht1) fun t2 s2 ht2 _ h2 => failed t2 s2 ht2 ?_
      rwa [rebook_rebook] at h2
  · simp only [wlp_pure]
    exact failed c.tables s hc.fine (rebook_self.symm ▸ h)

theorem settled_sysOpen {path : Option (List UInt8)} {omode : Option (BitVec 32)} (h : Settled s) :
    wlp (sysOpen p path omode) (fun _ s' => Settled s') s := by
  obtain ⟨c, h, hc, hfree⟩ := h
  unfold sysOpen
  split
  · rw [wlp_bind]
    refine wlp_beginOp h fun s1 h1 => ?_
    rw [wlp_bind]
    refine wlp_openInode h1 hc (fun s2 h2 => settled_return h2 hc hfree) fun ip s2 hip h2 => ?_
    rw [wlp_bind]
    refine wlp_openFile h2 hc.get.lock (fun t s3 ht h3 => ?_) fun t f fd s3 ht htype href h3 => ?_
    · rw [rebook_lock, rebook_get] at h3
      rw [wlp_bind]
      exact wlp_iunlockput h3 unwatched (hfree ip) fun s4 h4 => settled_return h4
        (hc.rebook ht) hfree
    · rw [rebook_lock, rebook_get] at h3
      simp only [wlp_bind, wlp_pure]
      refine wlp_iunlock h3 fun s4 _ h4 => ?_
      rw [Ledger.unlock_lock (by exact hfree ip)] at h4
      have href : (t.file f).ref ≠ 0 := by omega
      refine wlp_endOp h4 fun s5 h5 => wlp_setFile_hold h5 ht htype href
        (fun _ => ⟨rfl, rfl, rfl⟩) fun t' s6 ht' h6 => ?_
      rw [rebook_rebook] at h6
      exact ⟨_, h6, hc.rebook ht', hfree⟩
  · exact wlp_pure.2 ⟨c, h, hc, hfree⟩

/-! ### Descriptors -/

theorem settled_argfd {Q : Option (Fin NOFILE × Fin NFILE) → Fs → Prop} {fd : Option Int}
    (ok : ∀ r, Q r s) : wlp (argfd p fd) Q s := by
  unfold argfd
  split
  · exact wlp_pure.2 (ok _)
  · split
    · simp only [wlp_bind, wlp_gets]
      split <;> exact wlp_pure.2 (ok _)
    · exact wlp_pure.2 (ok _)

theorem settled_fileclose {f : Fin NFILE} (h : Settled s) :
    wlp (fileclose f) (fun _ s' => Settled s') s := by
  obtain ⟨c, h, hc, hfree⟩ := h
  exact wlp_fileclose h hc fun t s' ht _ h' => ⟨_, h', hc.rebook ht, hfree⟩

theorem settled_setOfile {fd : Fin NOFILE} {f : Option (Fin NFILE)} (h : Settled s) :
    wlp (setOfile p fd f) (fun _ s' => Settled s') s := by
  obtain ⟨c, h, hc, hfree⟩ := h
  exact wlp_setOfile h hc.fine fun t s' ht _ _ h' => ⟨_, h', hc.rebook ht, hfree⟩

theorem settled_filedup {f : Fin NFILE} (h : Settled s) :
    wlp (filedup f) (fun _ s' => Settled s') s := by
  obtain ⟨c, h, hc, hfree⟩ := h
  simp only [filedup, wlp_bind, wlp_gets, wlp_ite, wlp_halt, h.file]
  refine ⟨fun _ => trivial, fun href => wlp_setFile_same h hc.fine (by simp only; omega)
    (fun _ => ⟨rfl, rfl⟩) fun s' ht h' => ⟨_, h', hc.rebook ht, hfree⟩⟩

theorem settled_sysClose {fd : Option Int} (h : Settled s) :
    wlp (sysClose p fd) (fun _ s' => Settled s') s := by
  rw [sysClose, wlp_bind]
  refine settled_argfd fun r => ?_
  cases r with
  | none => exact wlp_pure.2 h
  | some r =>
    simp only [wlp_bind, wlp_pure]
    exact (settled_setOfile h).mono fun _ s1 h1 => settled_fileclose h1

theorem settled_sysDup {fd : Option Int} (h : Settled s) :
    wlp (sysDup p fd) (fun _ s' => Settled s') s := by
  rw [sysDup, wlp_bind]
  refine settled_argfd fun r => ?_
  cases r with
  | none => exact wlp_pure.2 h
  | some r =>
    simp only [fdalloc, wlp_bind, wlp_gets]
    split
    · simp only [wlp_bind, wlp_pure]
      exact (settled_setOfile h).mono fun _ s1 h1 => settled_filedup h1
    · exact wlp_pure.2 (wlp_pure.2 h)

/-! ### Reading and writing -/

theorem wlp_ilockFile {f : Fin NFILE} {Q : Slot → Fs → Prop} (h : Shows lowDevs s c)
    (ok : ∀ ip s', c.locked ip = false → Shows lowDevs s' (c.lock ip) → Q ip s') :
    wlp (ilockFile f) Q s := by
  simp only [ilockFile, wlp_bind, wlp_gets]
  split
  · simp
  · simp only [wlp_bind, wlp_pure]
    exact wlp_ilock h fun s' _ hip h' => ok _ s' hip h'

/-- The offset of a file changes. -/
theorem wlp_advance {f : Fin NFILE} {r : Int} {Q : Unit → Fs → Prop} (h : Shows lowDevs s c)
    (hc : Fine c.tables) (ok : ∀ t s', Fine t → Shows lowDevs s' (c.rebook t) → Q () s') :
    wlp (advance f r) Q s := by
  simp only [advance, wlp_ite, wlp_pure]
  refine ⟨fun _ => wlp_setFile h fun s1 h1 => ?_, fun _ => ok c.tables s hc (rebook_self.symm ▸ h)⟩
  refine ok _ s1 (Fine.setFile hc (f := f) ?_) (withTables_eq_rebook (fun ip => ?_) ▸ h1)
  · exact hc.files f
  · exact Nat.add_right_cancel (holders_setFile _ _ _ _)

theorem settled_await {Q : Option (List UInt8) → Fs → Prop} (h : Settled s)
    (ok : ∀ a s', Settled s' → Q a s') : wlp await Q s := by
  obtain ⟨c, h, hc, hfree⟩ := h
  exact wlp_await h fun a s' h' => ok a s' ⟨c, h', hc, hfree⟩

theorem settled_fileread {f : Fin NFILE} {n : UInt32} (h : Settled s) :
    wlp (fileread f n) (fun _ s' => Settled s') s := by
  simp only [fileread, wlp_bind, wlp_gets, wlp_ite, wlp_pure]
  refine ⟨fun _ => h, fun _ => ?_⟩
  split
  · rw [piperead, wlp_bind]
    refine settled_await h fun r s1 h1 => ?_
    split <;> exact wlp_pure.2 h1
  · obtain ⟨c, h, hc, hfree⟩ := h
    simp only [wlp_bind, wlp_pure]
    refine wlp_ilockFile h fun ip s1 hip h1 => wlp_readi h1 fun r s2 h2 => ?_
    refine wlp_advance h2 hc.fine fun t s3 ht h3 => ?_
    rw [rebook_lock] at h3
    refine wlp_iunlock h3 fun s4 _ h4 => ?_
    rw [Ledger.unlock_lock (by exact hip)] at h4
    exact ⟨_, h4, hc.rebook ht, hfree⟩
  · simp

theorem settled_filewriteRound {f : Fin NFILE} {src : Nat → UInt8} {n : Nat} (h : Settled s) :
    wlp (filewriteRound f src n) (fun _ s' => Settled s') s := by
  obtain ⟨c, h, hc, hfree⟩ := h
  rw [filewriteRound, wlp_bind]
  refine wlp_beginOp h fun s1 h1 => ?_
  rw [wlp_bind]
  refine wlp_ilockFile h1 fun ip s2 hip h2 => ?_
  rw [wlp_bind, wlp_gets, wlp_bind]
  refine wlp_writei h2 fun r s3 h3 => ?_
  rw [wlp_bind]
  refine wlp_advance h3 hc.fine fun t s4 ht h4 => ?_
  rw [rebook_lock] at h4
  rw [wlp_bind]
  refine wlp_iunlock h4 fun s5 _ h5 => ?_
  rw [Ledger.unlock_lock (by exact hip)] at h5
  exact settled_return h5 (hc.rebook ht) hfree

theorem settled_filewrite {f : Fin NFILE} {src : Nat → UInt8} {n : Int} (h : Settled s) :
    wlp (filewrite f src n) (fun _ s' => Settled s') s := by
  have hloop : ∀ k src n {s}, Settled s → wlp (filewriteLoop f k src n)
      (fun _ s' => Settled s') s := by
    intro k
    induction k with
    | zero => exact fun src n s h => wlp_pure.2 h
    | succ k ih =>
      intro src n s h
      simp only [filewriteLoop, wlp_ite, wlp_bind, wlp_pure, wlp_halt]
      refine ⟨fun _ => h, fun _ => (settled_filewriteRound h).mono fun r s1 h1 => ?_⟩
      exact ⟨fun _ => h1, fun _ => ⟨fun _ => trivial, fun _ => ih _ _ h1⟩⟩
  simp only [filewrite, wlp_bind, wlp_gets, wlp_ite, wlp_pure]
  refine ⟨fun _ => h, fun _ => ?_⟩
  split
  · rw [pipewrite, wlp_bind]
    refine settled_await h fun r s1 h1 => ?_
    split <;> exact wlp_pure.2 h1
  · simp only [wlp_ite, wlp_bind, wlp_pure]
    exact ⟨fun _ => h, fun _ => (hloop _ _ _ h).mono fun r s1 h1 => ⟨fun _ => h1, fun _ => h1⟩⟩
  · simp

theorem settled_sysRead {fd : Option Int} {n : Option UInt32} (h : Settled s) :
    wlp (sysRead p fd n) (fun _ s' => Settled s') s := by
  rw [sysRead, wlp_bind]
  refine settled_argfd fun r => ?_
  split
  · exact settled_fileread h
  · exact wlp_pure.2 h

theorem settled_sysWrite {fd : Option Int} {buf : Option ((Nat → UInt8) × Nat)} (h : Settled s) :
    wlp (sysWrite p fd buf) (fun _ s' => Settled s') s := by
  rw [sysWrite, wlp_bind]
  refine settled_argfd fun r => ?_
  split
  · exact settled_filewrite h
  · exact wlp_pure.2 h

/-! ### Processes -/

theorem wlp_execImage {vm : Vm} {Q : Option Nat → Fs → Prop} (h : Shows lowDevs s c)
    (ok : ∀ r s', Shows lowDevs s' c → Q r s') : wlp (execImage vm ip) Q s := by
  have huvm : ∀ ph k i {s} {Q : Bool → Fs → Prop}, Shows lowDevs s c →
      (∀ r s', Shows lowDevs s' c → Q r s') → wlp (loaduvmLoop vm ip ph k i) Q s := by
    intro ph k
    induction k with
    | zero => exact fun i s Q _ _ => by simp [loaduvmLoop]
    | succ k ih =>
      intro i s Q h ok
      simp only [loaduvmLoop, wlp_ite, wlp_bind, wlp_halt, wlp_pure]
      exact ⟨fun _ => ⟨fun _ => trivial, fun _ => wlp_readi h fun r s1 h1 =>
        ⟨fun _ => ok _ _ h1, fun _ => ih _ h1 ok⟩⟩, fun _ => ok _ _ h⟩
  have hload : ∀ k off sz {s} {Q : Option Nat → Fs → Prop}, Shows lowDevs s c →
      (∀ r s', Shows lowDevs s' c → Q r s') → wlp (execLoad vm ip k off sz) Q s := by
    intro k
    induction k with
    | zero => exact fun off sz s Q h ok => wlp_pure.2 (ok _ _ h)
    | succ k ih =>
      intro off sz s Q h ok
      simp only [execLoad, wlp_bind, wlp_ite, wlp_pure]
      refine wlp_readi h fun r s1 h1 => ⟨fun _ => ok _ _ h1,
        fun _ => ⟨fun _ => ih _ _ h1 ok, fun _ =>
        ⟨fun _ => ok _ _ h1, fun _ => ⟨fun _ => ok _ _ h1, fun _ => ⟨fun _ => ok _ _ h1, fun _ =>
        ⟨fun _ => ok _ _ h1, fun _ => ?_⟩⟩⟩⟩⟩⟩
      exact huvm _ _ _ h1 fun r s2 h2 => ⟨fun _ => ok _ _ h2, fun _ => ih _ _ h2 ok⟩
  simp only [execImage, wlp_bind, wlp_ite, wlp_halt, wlp_pure]
  exact wlp_readi h fun r s1 h1 => ⟨fun _ => ok _ _ h1, fun _ => ⟨fun _ => trivial, fun _ =>
    ⟨fun _ => ok _ _ h1, fun _ => hload _ _ _ h1 ok⟩⟩⟩

theorem settled_exec {vm : Vm} {path : List UInt8} {argc : Nat} (h : Settled s) :
    wlp (exec p vm path argc) (fun _ s' => Settled s') s := by
  obtain ⟨c, h, hc, hfree⟩ := h
  rw [exec, wlp_bind]
  refine wlp_beginOp h fun s1 h1 => ?_
  rw [wlp_bind]
  refine wlp_namei h1 hc le_rfl (fun s2 h2 => settled_return h2 hc hfree) fun ip s2 h2 => ?_
  simp only [wlp_bind]
  refine wlp_ilock h2 fun s3 _ hip h3 => wlp_execImage h3 fun sz s4 h4 => ?_
  refine wlp_iunlockput h4 unwatched hip fun s5 h5 => wlp_endOp h5 fun s6 h6 => ?_
  split <;> exact wlp_pure.2 ⟨c, h6, hc, hfree⟩

/-- A process without a working directory takes over a reference that was got. -/
theorem wlp_setProc_hold {g : FsProc → FsProc} {Q : Unit → Fs → Prop}
    (h : Shows lowDevs s (c.get ip)) (hc : Fine c.tables) (hcwd : (c.tables.proc p).cwd = none)
    (hg : (g (c.tables.proc p)).cwd = some ip)
    (hstate : (g (c.tables.proc p)).state ≠ .unused ∧ (g (c.tables.proc p)).state ≠ .zombie)
    (ok : ∀ s', Fine (c.tables.setProc p (g (c.tables.proc p))) →
      Shows lowDevs s' (c.rebook (c.tables.setProc p (g (c.tables.proc p)))) → Q () s') :
    wlp (setProc p g) Q s := by
  refine wlp_setProc h fun s1 h1 => ok s1 (hc.setProc fun h => ?_) ?_
  · exact absurd h (not_or.2 hstate)
  · rwa [withTables_get] at h1
    intro ip'
    have := holders_setProc c.tables p (g (c.tables.proc p)) ip'
    simpa [procUses, hcwd, hg] using this

/-- A process drops the reference of its working directory. -/
theorem wlp_setCwd_none {Q : Unit → Fs → Prop} (h : Shows lowDevs s (c.put ip)) (hc : Fine c.tables)
    (hcwd : (c.tables.proc p).cwd = some ip)
    (ok : ∀ t s', Fine t → (t.proc p).cwd = none → Shows lowDevs s' (c.rebook t) → Q () s') :
    wlp (setCwd p none) Q s := by
  refine wlp_setProc h fun s1 h1 =>
    ok (c.tables.setProc p { c.tables.proc p with cwd := none }) s1 (hc.setProc fun _ => rfl)
      (by simp [Tables.setProc]) ?_
  rwa [withTables_put] at h1
  intro ip'
  have := holders_setProc c.tables p { c.tables.proc p with cwd := none } ip'
  simpa [procUses, hcwd] using this

theorem wlp_filedup {f : Fin NFILE} {Q : Unit → Fs → Prop} (h : Shows lowDevs s c)
    (hc : Fine c.tables)
    (ok : ∀ t s', Fine t → t.proc = c.tables.proc → Shows lowDevs s' (c.rebook t) → Q () s') :
    wlp (filedup f) Q s := by
  simp only [filedup, wlp_bind, wlp_gets, wlp_ite, wlp_halt, h.file]
  refine ⟨fun _ => trivial, fun href => wlp_setFile_same h hc (by simp only; omega)
    (fun _ => ⟨rfl, rfl⟩) fun s' ht h' => ok _ s' ht rfl h'⟩

/-- The loop of `fork` leaves working directories and states alone. -/
theorem wlp_forkFiles {np : PId} {l : List (Fin NOFILE)} {Q : Unit → Fs → Prop}
    (h : Shows lowDevs s c) (hc : Fine c.tables)
    (ok : ∀ t s', Fine t → (∀ q, (t.proc q).cwd = (c.tables.proc q).cwd ∧
      (t.proc q).state = (c.tables.proc q).state) → Shows lowDevs s' (c.rebook t) → Q () s') :
    wlp (l.forM (forkFile p np)) Q s := by
  induction l generalizing s c with
  | nil => exact wlp_pure.2 (ok c.tables s hc (fun _ => ⟨rfl, rfl⟩) (rebook_self.symm ▸ h))
  | cons fd l ih =>
    rw [List.forM, wlp_bind]
    simp only [forkFile, wlp_bind, wlp_gets]
    split
    · exact wlp_pure.2 (ih h hc ok)
    · simp only [wlp_bind]
      refine wlp_filedup h hc fun t1 s1 ht1 hproc1 h1 => ?_
      refine wlp_setProc_same h1 ht1 rfl (ht1.procs np) fun s2 ht2 h2 => ?_
      refine ih h2 ht2 fun t s' ht hq h' => ok t s' ht (fun q => ?_) ?_
      · rw [(hq q).1, (hq q).2, ← hproc1]
        by_cases hqn : q = np
        · subst hqn
          simp [Tables.setProc]
        · simp [Tables.setProc, Function.update_of_ne hqn]
      · rwa [rebook_rebook, rebook_rebook] at h'

theorem settled_fork {room : Bool} (h : Settled s) :
    wlp (fork p room) (fun _ s' => Settled s') s := by
  obtain ⟨c, h, hc, hfree⟩ := h
  simp only [fork, wlp_bind, wlp_gets]
  split
  · exact wlp_pure.2 ⟨c, h, hc, hfree⟩
  · next np hnp =>
    have hunused : (c.tables.proc np).state = .unused := by
      have := List.find?_some hnp
      simpa [h.proc] using this
    have hnone := hc.fine.procs np (.inl hunused)
    simp only [wlp_ite, wlp_bind, wlp_pure]
    refine ⟨fun _ => ⟨c, h, hc, hfree⟩, fun _ => ?_⟩
    refine wlp_setProc_same h hc.fine rfl (by simp) fun s1 ht1 h1 => ?_
    refine wlp_forkFiles h1 ht1 fun t2 s2 ht2 hproc2 h2 => ?_
    have hnp2 := hproc2 np
    simp only [rebook_tables, Tables.setProc, Function.update_self, hnone] at hnp2
    rw [rebook_rebook] at h2
    refine wlp_cwd h2 fun ip hip => ?_
    refine wlp_idup h2 (fun _ _ => (hc.rebook ht2).cwd_pos hip) fun s3 h3 => ?_
    refine wlp_setProc_hold h3 ht2 hnp2.1 rfl (by simp [hnp2.2]) fun s4 ht4 h4 => ?_
    refine wlp_setProc_same h4 ht4 rfl (by simp) fun s5 ht5 h5 => ?_
    exact ⟨_, h5, ((hc.rebook ht2).rebook ht4).rebook ht5, hfree⟩

/-- Children change their parent. -/
theorem wlp_reparent {Q : Unit → Fs → Prop} (h : Shows lowDevs s c) (hc : Fine c.tables)
    (ok : ∀ t s', Fine t → (∀ q, (t.proc q).cwd = (c.tables.proc q).cwd) →
      Shows lowDevs s' (c.rebook t) → Q () s') :
    wlp (update fun s => { s with proc := fun q => if (s.proc q).parent = some p then
      { s.proc q with parent := some s.initproc } else s.proc q }) Q s := by
  have hcwd : ∀ q, (if (c.tables.proc q).parent = some p then
      { c.tables.proc q with parent := some c.tables.initproc } else c.tables.proc q).cwd =
        (c.tables.proc q).cwd := fun q => by split <;> rfl
  have hstate : ∀ q, (if (c.tables.proc q).parent = some p then
      { c.tables.proc q with parent := some c.tables.initproc } else c.tables.proc q).state =
        (c.tables.proc q).state := fun q => by split <;> rfl
  rw [wlp_update]
  refine ok { c.tables with proc := fun q => if (c.tables.proc q).parent = some p then
    { c.tables.proc q with parent := some c.tables.initproc } else c.tables.proc q } _
    ⟨hc.mountRoot, hc.files, fun q hq => ?_⟩ hcwd ?_
  · rw [hstate] at hq
    rw [hcwd]
    exact hc.procs q hq
  · rw [← withTables_eq_rebook]
    · refine ⟨h.ref, h.locked, h.mount, ?_, h.crossed, h.order, h.puts⟩
      rw [Ledger.withTables, ← h.tables]
    · intro ip
      simp only [holders, count, hcwd]

theorem settled_exit (h : Settled s) : wlp (exit p) (fun _ s' => Settled s') s := by
  have hfiles : ∀ (l : List (Fin NOFILE)) {s}, Settled s →
      wlp (l.forM (exitFile p)) (fun _ s' => Settled s') s := by
    intro l
    induction l with
    | nil => exact fun h => wlp_pure.2 h
    | cons fd l ih =>
      intro s h
      rw [List.forM, wlp_bind]
      simp only [exitFile, wlp_bind, wlp_gets]
      split
      · exact wlp_pure.2 (ih h)
      · simp only [wlp_bind]
        exact (settled_fileclose h).mono fun _ s1 h1 => (settled_setOfile h1).mono
          fun _ s2 h2 => ih h2
  simp only [exit, wlp_bind, wlp_gets, wlp_ite, wlp_halt]
  refine ⟨fun _ => trivial, fun _ => (hfiles _ h).mono fun _ s1 h1 => ?_⟩
  obtain ⟨c, h1, hc, hfree⟩ := h1
  refine wlp_beginOp h1 fun s2 h2 => wlp_cwd h2 fun old hold => wlp_iput h2 unwatched
    fun s3 _ h3 => ?_
  refine wlp_endOp h3 fun s4 h4 => wlp_setCwd_none h4 hc.fine hold fun t5 s5 ht5 hnone5 h5 => ?_
  refine wlp_reparent h5 ht5 fun t6 s6 ht6 hcwd6 h6 => ?_
  have hnone6 : (t6.proc p).cwd = none := (hcwd6 p).trans hnone5
  refine wlp_setProc_same h6 ht6 rfl (fun _ => hnone6) fun s7 ht7 h7 => ?_
  exact ⟨_, h7, ((hc.rebook ht5).rebook ht6).rebook ht7, hfree⟩

theorem settled_wait (h : Settled s) : wlp (wait p) (fun _ s' => Settled s') s := by
  obtain ⟨c, h, hc, hfree⟩ := h
  simp only [wait, wlp_bind, wlp_gets]
  split
  · next q hq =>
    have hzombie : (c.tables.proc q).state = .zombie := by
      have := List.find?_some hq
      simp only [h.proc, Bool.and_eq_true, decide_eq_true_eq] at this
      exact this.2
    simp only [wlp_bind, wlp_pure]
    refine wlp_setProc_same h hc.fine rfl (fun _ => hc.fine.procs q (.inr hzombie))
      fun s1 ht1 h1 => ?_
    exact ⟨_, h1, hc.rebook ht1, hfree⟩
  · simp only [wlp_bind, wlp_gets, wlp_ite, wlp_pure, wlp_stop]
    exact ⟨fun _ => ⟨c, h, hc, hfree⟩, fun _ => trivial⟩

end

/-! ## The machine -/

/-- The system calls. -/
inductive Call where
  | fork (room : Bool)
  | exit
  | wait
  | sysOpen (path : Option (List UInt8)) (omode : Option (BitVec 32))
  | sysClose (fd : Option Int)
  | sysDup (fd : Option Int)
  | sysRead (fd : Option Int) (n : Option UInt32)
  | sysWrite (fd : Option Int) (buf : Option ((Nat → UInt8) × Nat))
  | sysMkdir (path : Option (List UInt8))
  | sysMknod (path : Option (List UInt8)) (dev : Option (UInt32 × UInt32))
  | sysLink (old new : Option (List UInt8))
  | sysUnlink (path : Option (List UInt8))
  | sysChdir (path : Option (List UInt8))
  | exec (vm : Vm) (path : List UInt8) (argc : Nat)

/-- The code of a call, without its result. -/
def Call.run (p : PId) : Call → FsM Unit
  | fork room => do let _ ← Fs.fork p room
  | exit => Fs.exit p
  | wait => do let _ ← Fs.wait p
  | sysOpen path omode => do let _ ← Fs.sysOpen p path omode
  | sysClose fd => do let _ ← Fs.sysClose p fd
  | sysDup fd => do let _ ← Fs.sysDup p fd
  | sysRead fd n => do let _ ← Fs.sysRead p fd n
  | sysWrite fd buf => do let _ ← Fs.sysWrite p fd buf
  | sysMkdir path => do let _ ← Fs.sysMkdir p path
  | sysMknod path dev => do let _ ← Fs.sysMknod p path dev
  | sysLink old new => do let _ ← Fs.sysLink p old new
  | sysUnlink path => do let _ ← Fs.sysUnlink p path
  | sysChdir path => do let _ ← Fs.sysChdir p path
  | exec vm path argc => do let _ ← Fs.exec p vm path argc

/-- A step of the machine: a process makes a call, or something comes from outside. -/
inductive Act where
  | call (p : PId) (c : Call)
  | arrive (io : List (Option (List UInt8)))

/-- A process that can make calls. -/
def alive (x : FsProc) : Bool := x.state ≠ .unused && x.state ≠ .embryo && x.state ≠ .zombie

/-- The steps of the machine.  A call that does not return leads nowhere. -/
def Step (s : Fs) : Act → Fs → Prop
  | .call p c, s' => alive (s.proc p) ∧ c.run p s = (.ok (), s')
  | .arrive io, s' => s' = { s with io := io }

/-- The machine as `userinit` leaves it, with any disks. -/
def Start (s : Fs) : Prop :=
  ∃ store sb sb2 disks p, userinit (zeroed store sb sb2 disks p) = (.ok (), s)

/-- References are conserved. -/
structure Conserved (s : Fs) : Prop where
  ref : ∀ ip, (s.inode ip).ref = holders s.toTables ip
  unlocked : ∀ ip, (s.inode ip).locked = false
  unique : ∀ ip ip', 0 < (s.inode ip).ref → 0 < (s.inode ip').ref →
    (s.inode ip).dev = (s.inode ip').dev → (s.inode ip).inum = (s.inode ip').inum → ip = ip'

section

variable {s s' : Fs}

theorem Settled.conserved (h : Settled s) : Conserved s := by
  obtain ⟨c, h, hc, hfree⟩ := h
  refine ⟨fun ip => ?_, fun ip => (h.locked ip).trans (hfree ip), fun ip ip' h1 h2 => ?_⟩
  · have htables : holders s.toTables ip = holders c.tables ip := by
      rw [← h.tables]
      rfl
    rw [h.ref, hc.ref, htables]
    exact Int.add_zero _
  · rw [h.ref] at h1 h2
    exact (h.order Low rfl).unique ip ip' h1 h2

theorem settled_discard {α : Type} {x : FsM α} (h : wlp x (fun _ s' => Settled s') s) :
    wlp (do let _ ← x) (fun _ s' => Settled s') s := by
  simpa only [wlp_bind, wlp_pure] using h

/-- Each call leaves the state settled. -/
theorem Settled.call {p : PId} {c : Call} (h : Settled s) :
    wlp (c.run p) (fun _ s' => Settled s') s := by
  cases c with
  | fork => exact settled_discard (settled_fork h)
  | exit => exact settled_exit h
  | wait => exact settled_discard (settled_wait h)
  | sysOpen => exact settled_discard (settled_sysOpen h)
  | sysClose => exact settled_discard (settled_sysClose h)
  | sysDup => exact settled_discard (settled_sysDup h)
  | sysRead => exact settled_discard (settled_sysRead h)
  | sysWrite => exact settled_discard (settled_sysWrite h)
  | sysMkdir => exact settled_discard (settled_sysCreate h)
  | sysMknod => exact settled_discard (settled_sysCreate h)
  | sysLink => exact settled_discard (settled_sysLink h)
  | sysUnlink => exact settled_discard (settled_sysUnlink h)
  | sysChdir => exact settled_discard (settled_sysChdir h)
  | exec => exact settled_discard (settled_exec h)

theorem Settled.step {a : Act} (h : Settled s) (hstep : Step s a s') : Settled s' := by
  cases a with
  | call p c => exact h.call () s' hstep.2
  | arrive io =>
    obtain rfl : s' = { s with io := io } := hstep
    obtain ⟨c, h, hc, hfree⟩ := h
    exact ⟨c, h.of_frame (fun _ => rfl) h.tables ⟨[], by simp, .nil⟩, hc, hfree⟩

theorem Start.settled (h : Start s) : Settled s := by
  obtain ⟨store, sb, sb2, disks, p, h⟩ := h
  let c : Ledger := ⟨fun _ => 0, fun _ => false, fun _ => false,
    (zeroed store sb sb2 disks p).toTables, 0⟩
  have hfine : Fine c.tables := ⟨rfl, fun _ _ => by simp [c, zeroed], fun _ _ => rfl⟩
  have hc : c.Sound 0 := by
    refine ⟨fun _ => le_rfl, fun ip => ?_, fun _ => rfl, hfine⟩
    simp [c, zeroed, holders, count]
  have hzero : Shows lowDevs (zeroed store sb sb2 disks p) c :=
    ⟨fun _ => rfl, fun _ => rfl, fun _ => rfl, rfl, rfl, fun _ _ =>
      ⟨by simp [c], by simp [c], by simp [c]⟩, unwatched⟩
  suffices hrun : wlp userinit (fun _ s' => Settled s') (zeroed store sb sb2 disks p)
    from hrun () s h
  simp only [userinit, wlp_bind, wlp_gets]
  refine wlp_namei hzero hc le_rfl (fun s1 h1 => ?_) fun ip s1 h1 => ?_
  · refine wlp_setProc_same h1 hfine rfl (by simp) fun s2 ht2 h2 => ?_
    exact ⟨_, h2, hc.rebook ht2, fun _ => rfl⟩
  · refine wlp_setProc_hold h1 hfine rfl rfl (by simp) fun s2 ht2 h2 => ?_
    exact ⟨_, h2, hc.rebook ht2, fun _ => rfl⟩

/-- In every state that a run of system calls reaches, references are conserved. -/
theorem references_conserved (h : Reach Start Step s) : Conserved s := by
  suffices hs : Settled s from hs.conserved
  refine Reach.invariant ?_ ?_ h
  · exact fun _ h => Start.settled h
  · exact fun _ _ _ h hstep => Settled.step h hstep

end

/-- The machine as `userinit` leaves it, with empty disks. -/
def firstFs : Fs :=
  (userinit (zeroed (binit fun _ => Bytes.zero) ⟨0, 0, 0, 0, 0, 0, 0⟩ ⟨0, 0, 0, 0, 0, 0, 0⟩ 0
    ⟨0, nproc_pos⟩)).2

/-- The first process forks: its working directory has two holders. -/
theorem references_conserved_fork : ∃ s, Reach Start Step s ∧ Conserved s ∧
    (s.inode (false, ⟨0, by decide⟩)).ref = 2 := by
  have hstart : Start firstFs := ⟨_, _, _, _, _, Prod.ext (by rfl) rfl⟩
  have hfork : Step firstFs (.call ⟨0, by decide⟩ (.fork true))
      ((Call.fork true).run ⟨0, by decide⟩ firstFs).2 := ⟨by decide +kernel, Prod.ext (by rfl) rfl⟩
  have hreach := (Reach.init hstart).step hfork
  exact ⟨_, hreach, references_conserved hreach, by decide +kernel⟩

end Xv6Rework.Fs
