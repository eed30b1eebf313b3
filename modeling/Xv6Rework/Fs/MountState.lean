import Xv6Rework.Fs.PathTree
import Mathlib.Data.List.TFAE

/-!
# The mount table and the references of a mount

`mount` and `unmount` keep three things together: the lock, the mount table and the
mark on the inode that is mounted on.  They also hold references, to the mount point and
to the root of what is mounted.  `MountOutcome` and `UnmountOutcome` list what a call that
returns can have done to these, in terms of the ledger of `Fs/Refs.lean`, whatever the
disks hold.

The first result is that the lock, the table and the mark agree in every state between
calls.  The second is about a call that fails, and about a mount that is undone: which of
them leave the references, the working directory, the table and the lock as they were.
A mount that is undone never does.
-/

namespace Xv6Rework.Fs

open Prog
open Ledger (leaks_tables le_leaks_ref le_get_ref put_get get_tables)

/-! ## The ledger of a mount -/

namespace Ledger

/-- The mount lock is taken or let go of. -/
def setLock (c : Ledger) (b : Bool) : Ledger := c.withTables { c.tables with mountlock := b }

/-- The root of a file system is mounted on an inode. -/
def mountAt (c : Ledger) (mp root : Slot) : Ledger :=
  { c with
    mount := Function.update c.mount mp true
    tables := { c.tables with mountPoint := some mp, mountRoot := some root } }

/-- Nothing is mounted any longer on an inode. -/
def unmountAt (c : Ledger) (mp : Slot) : Ledger :=
  { c with
    mount := Function.update c.mount mp false
    tables := { c.tables with mountPoint := none, mountRoot := none, mountlock := false } }

variable {c : Ledger} {l : List Slot} {t : Tables}

theorem leaks_withTables : (c.withTables t).leaks l = (c.leaks l).withTables t := by
  induction l generalizing c with
  | nil => rfl
  | cons mp l ih => exact ih (c := c.leak mp)

theorem result_withTables {r : Option Slot} :
    (c.withTables t).result r = (c.result r).withTables t := by
  cases r <;> rfl

theorem leaks_mount : (c.leaks l).mount = c.mount := by
  induction l generalizing c with
  | nil => rfl
  | cons mp l ih => exact ih (c := c.leak mp)

theorem setLock_self {b : Bool} (h : c.tables.mountlock = b) : c.setLock b = c := by
  rw [setLock, withTables, ← h]

theorem setLock_setLock {b : Bool} (h : c.tables.mountlock = b) :
    (c.setLock true).setLock b = c := by
  simp only [setLock, withTables, ← h]

theorem leaks_setLock {b : Bool} : (c.setLock b).leaks l = (c.leaks l).setLock b := by
  rw [setLock, leaks_withTables, setLock, leaks_tables]

theorem get_setLock {b : Bool} {ip : Slot} : (c.setLock b).get ip = (c.get ip).setLock b := rfl

end Ledger

section

variable {s s' : Fs} {p : PId} {c : Ledger} {l : List Slot} {ip mp : Slot} {dev : Nat}
  {path : List UInt8}

/-! ## The lookups of a mount -/

/-- A lookup on the first device, or one whose path does not begin with two dots, leaves no
mounted file system by the branch for that. -/
theorem wlp_namei_plain {Q : Option Slot → Fs → Prop} (h : Shows ledgerOnly s c)
    (hpath : dev = 1 ∨ path.getD 1 0 ≠ dot)
    (ok : ∀ r l s', Shows ledgerOnly s' ((c.leaks l).result r) → Q r s') :
    wlp (namei p dev path) Q s := by
  have hstay : s.leavesMount p (if dev = 0 then s.cwdDev p else dev) path = false := by
    rcases hpath with rfl | hpath
    · simp [leavesMount]
    · simp only [leavesMount, beq_eq_false_iff_ne.2 hpath, Bool.and_false, Bool.false_and]
  refine wlp_namei_cases (fun hleave => absurd (hstay.symm.trans hleave) (by decide)) fun _ => ?_
  exact wlp_namex_result h rfl ⟨unwatched, unwatched⟩ fun r l s' _ h' => ok _ l s' h'

/-- The root of a device is always found. -/
theorem wlp_namei_slash {Q : Option Slot → Fs → Prop} (h : Shows ledgerOnly s c)
    (ok : ∀ root s', Shows ledgerOnly s' (c.get root) → Q (some root) s') :
    wlp (namei p dev [slash]) Q s := by
  have hstay : s.leavesMount p (if dev = 0 then s.cwdDev p else dev) [slash] = false := by
    simp [leavesMount, dot]
  have hskip : skipelem [slash] = none := by decide
  refine wlp_namei_cases (fun hleave => absurd (hstay.symm.trans hleave) (by decide)) fun _ => ?_
  simp only [namex, namexStart, List.head?_cons, namexLoop, hskip, wlp_bind, wlp_ite, wlp_pure]
  refine ⟨fun _ => ?_, fun hne => absurd trivial hne⟩
  exact wlp_iget h unwatched fun root s' h' => ⟨(by rintro ⟨⟩), fun _ => ok root s' h'⟩

/-! ## What `mount` does -/

theorem Shows.mountlock (h : Shows ledgerOnly s c) : s.mountlock = c.tables.mountlock :=
  (congrArg Tables.mountlock h.tables :)

theorem Shows.mountPoint (h : Shows ledgerOnly s c) : s.mountPoint = c.tables.mountPoint :=
  (congrArg Tables.mountPoint h.tables :)

theorem Shows.setLock {b : Bool} (h : Shows ledgerOnly s c) :
    Shows ledgerOnly { s with mountlock := b } (c.setLock b) := by
  refine ⟨h.ref, h.locked, h.mount, ?_, h.crossed, unwatched, unwatched⟩
  rw [Ledger.setLock, Ledger.withTables, ← h.tables]

theorem acquirenonblockinglock_apply (s : Fs) :
    acquirenonblockinglock s = (.ok !s.mountlock, { s with mountlock := true }) := by
  rcases hlock : s.mountlock with _ | _
  · simp [acquirenonblockinglock, hlock]
  · have hsame : { s with mountlock := true } = s := by rw [← hlock]
    rw [hsame]
    simp [acquirenonblockinglock, hlock]

theorem wlp_acquirenonblockinglock {Q : Bool → Fs → Prop} (h : Shows ledgerOnly s c)
    (ok : ∀ s', acquirenonblockinglock s = (.ok !c.tables.mountlock, s') →
      Shows ledgerOnly s' (c.setLock true) → Q (!c.tables.mountlock) s') :
    wlp acquirenonblockinglock Q s := by
  intro b s' hrun
  have hb := acquirenonblockinglock_apply s
  rw [h.mountlock, hrun] at hb
  cases hb
  exact ok _ hrun h.setLock

theorem wlp_setLock {b : Bool} {Q : PUnit → Fs → Prop} (h : Shows ledgerOnly s c)
    (ok : ∀ s', Shows ledgerOnly s' (c.setLock b) → Q ⟨⟩ s') :
    wlp (update fun s => { s with mountlock := b }) Q s := by
  rw [wlp_update]
  exact ok _ h.setLock

/-- An inode is marked as a mount point, or no longer. -/
theorem Shows.mark (h : Shows ledgerOnly s c) (mp : Slot) (b : Bool) :
    Shows ledgerOnly
      { s with inode := Function.update s.inode mp { s.inode mp with isMountPoint := b } }
      { c with mount := Function.update c.mount mp b } := by
  refine h.update (fun _ _ => rfl) (fun _ _ => rfl) (fun ip hne => ?_) rfl rfl
    ⟨h.ref mp, h.locked mp, ?_⟩ unwatched
  · exact Function.update_of_ne hne ..
  · simp only [Function.update_self]

/-- `mount` from where its directory has been found. -/
theorem wlp_mountOn {Q : Int → Fs → Prop} (h : Shows ledgerOnly s (c.get mp))
    (fail : ∀ r s', r ≠ 0 → (s.inode mp).inum = ROOTINO → Shows ledgerOnly s' (c.setLock false) →
      Q r s')
    (done : ∀ root s', Shows ledgerOnly s' (((c.get mp).get root).mountAt mp root) → Q 0 s') :
    wlp (mountOn p dev mp) Q s := by
  simp only [mountOn, releasenonblocking, setInode, wlp_bind, wlp_gets, wlp_ite, wlp_pure]
  refine ⟨fun hinum => wlp_iput h unwatched fun s1 _ h1 => ?_, fun _ => wlp_namei_slash h
    fun root s1 h1 => ?_⟩
  · rw [put_get] at h1
    refine wlp_endOp h1 fun s2 h2 => wlp_setLock h2 fun s3 h3 => ?_
    exact fail _ s3 (by decide) hinum h3
  · simp only [wlp_bind, wlp_update, wlp_pure]
    refine wlp_endOp (c := ((c.get mp).get root).mountAt mp root) ?_ fun s2 h2 => done root s2 h2
    obtain ⟨href, hlocked, hmount, -, hcrossed, -, -⟩ := h1.mark mp true
    refine ⟨href, hlocked, hmount, ?_, hcrossed, unwatched, unwatched⟩
    rw [Ledger.mountAt, ← h1.tables]

/-- A working directory is stored back. -/
theorem wlp_setCwd_back {old ip : Option Slot} {Q : Unit → Fs → Prop}
    (hold : old = (c.tables.proc p).cwd)
    (h : Shows ledgerOnly s (c.withTables (c.tables.setProc p { c.tables.proc p with cwd := ip })))
    (ok : ∀ s', Shows ledgerOnly s' c → Q () s') : wlp (setCwd p old) Q s := by
  refine wlp_setProc h fun s' h' => ok s' ?_
  have hback : (c.tables.setProc p { c.tables.proc p with cwd := ip }).setProc p
      { (c.tables.setProc p { c.tables.proc p with cwd := ip }).proc p with cwd := old } =
      c.tables := by
    simp [Tables.setProc, hold]
  simpa only [Ledger.withTables, hback] using h'

/-- The detour of `mount`, which keeps the reference of the lookup and one for the working
directory it sets for a while. -/
theorem wlp_mountDetour {Q : Int → Fs → Prop} (h : Shows ledgerOnly s (c.get mp))
    (fail : ∀ l r s', r ≠ 0 → Shows ledgerOnly s' ((((c.get mp).get mp).leaks l).setLock false) →
      Q r s')
    (done : ∀ l dir root s',
      Shows ledgerOnly s' ((((((c.get mp).get mp).leaks l).get dir).get root).mountAt dir root) →
      Q 0 s') :
    wlp (mountDetour p dev mp) Q s := by
  have hfail : ∀ {l s}, Shows ledgerOnly s (((c.get mp).get mp).leaks l) → wlp mountNotDir Q s := by
    intro l s h
    simp only [mountNotDir, releasenonblocking, wlp_bind, wlp_pure]
    exact wlp_endOp h fun s1 h1 => wlp_setLock h1 fun s2 h2 => fail l _ s2 (by decide) h2
  have hcwd : (s.proc p).cwd = (c.tables.proc p).cwd := by rw [h.proc]; rfl
  simp only [mountDetour, wlp_bind, wlp_gets]
  refine wlp_idup h unwatched fun s1 h1 => wlp_setProc h1 fun s2 h2 => ?_
  refine wlp_namei_plain h2 (.inr (by decide)) fun r l s3 h3 => ?_
  -- the lookup has left the tables alone, but for the working directory
  obtain ⟨c', hc'⟩ : ∃ c', c' = ((c.get mp).get mp).leaks l := ⟨_, rfl⟩
  have htables : c'.tables = c.tables := by rw [hc', leaks_tables]; rfl
  rw [Ledger.leaks_withTables, Ledger.result_withTables, ← hc', get_tables,
    get_tables, ← htables] at h3
  rw [← htables] at hcwd
  cases r with
  | none =>
    simp only [wlp_bind]
    exact wlp_setCwd_back hcwd h3 fun s4 h4 => hfail (hc' ▸ h4)
  | some dir =>
    simp only [wlp_bind, wlp_gets, wlp_ite]
    refine ⟨fun _ => ?_, fun _ => ?_⟩
    · refine wlp_idup h3 unwatched fun s4 h4 => wlp_iput h4 unwatched
        fun s5 _ h5 => ?_
      rw [put_get] at h5
      refine wlp_setCwd_back (c := c'.get dir) hcwd h5 fun s6 h6 => wlp_mountOn h6
        (fun r s' hr _ h' => ?_) fun root s' h' => ?_
      · exact fail l r s' hr (hc' ▸ h')
      · exact done l dir root s' (hc' ▸ h')
    · refine wlp_setCwd_back (c := c'.get dir) hcwd h3 fun s4 h4 => wlp_iput h4 unwatched
        fun s5 _ h5 => ?_
      rw [put_get] at h5
      exact hfail (hc' ▸ h5)

/-- `mount` up to its lookup. -/
def mountLookup (p : PId) (path : List UInt8) : FsM (Option Slot) := do
  beginOp
  let _ ← acquirenonblockinglock
  namei p 1 path

/-- What a call of `mount` in the state `s` that returns can have returned, and the ledger it
leaves.  It was refused by the tests before the lookup; or the lookup failed, or found the root
of a device, which cannot be mounted on; or it found what did not look like a directory, and
the call failed after the detour; or the call succeeded. -/
inductive MountOutcome (s : Fs) (p : PId) (dev : Nat) (path : List UInt8) :
    Int → Ledger → Prop where
  | refused {r : Int} (hr : r ≠ 0) (h : s.mountCheck dev ≠ none ∨ s.mountlock = true) :
    MountOutcome s p dev path r (ledger s)
  | failed {r : Int} {found : Option Slot} {t : Fs} {l : List Slot} (hr : r ≠ 0)
    (hcheck : s.mountCheck dev = none) (hlock : s.mountlock = false)
    (hlookup : mountLookup p path s = (.ok found, t))
    (hcross : t.trace.count .crossMount = s.trace.count .crossMount + l.length)
    (hroot : ∀ ip, found = some ip → (t.inode ip).inum = ROOTINO) :
    MountOutcome s p dev path r ((ledger s).leaks l)
  | strayed {r : Int} {mp : Slot} {t : Fs} {l l' : List Slot} (hr : r ≠ 0)
    (hcheck : s.mountCheck dev = none) (hlock : s.mountlock = false)
    (hlookup : mountLookup p path s = (.ok (some mp), t)) (hdir : (t.inode mp).type ≠ T_DIR) :
    MountOutcome s p dev path r (((((ledger s).leaks l).get mp).get mp).leaks l')
  | mounted {c : Ledger} {mp root : Slot} (hlock : s.mountlock = false)
    (href : ∀ ip, (s.inode ip).ref ≤ c.ref ip) (hmount : c.mount = (ledger s).mount)
    (htables : c.tables = ((ledger s).setLock true).tables) :
    MountOutcome s p dev path 0 (((c.get mp).get root).mountAt mp root)

theorem shows_ledgerOnly : Shows ledgerOnly s (ledger s) := shows_ledger rfl unwatched

theorem Shows.mountCheck (h : Shows ledgerOnly s' (ledger s)) :
    s'.mountCheck dev = s.mountCheck dev := by
  have hdisks : s'.diskPresence = s.diskPresence := (congrArg Tables.diskPresence h.tables :)
  have hpresent : s'.diskPresent dev = s.diskPresent dev := by rw [diskPresent, hdisks, diskPresent]
  rw [Fs.mountCheck, hpresent, Fs.mountCheck]

theorem mountCheck_ne_zero {r : Int} (h : s.mountCheck dev = some r) : r ≠ 0 := by
  simp only [Fs.mountCheck] at h
  split_ifs at h <;> cases h <;> decide

/-- Every call of `mount` that returns has one of the outcomes. -/
theorem mount_outcome :
    wlp (mount p dev path)
      (fun r s' => ∃ c, MountOutcome s p dev path r c ∧ Shows ledgerOnly s' c) s := by
  rw [mount, wlp_bind]
  intro a s1 hbegin
  have h1 : Shows ledgerOnly s1 (ledger s) :=
    wlp_beginOp (Q := fun _ s' => Shows ledgerOnly s' (ledger s)) shows_ledgerOnly
      (fun _ h => h) a s1 hbegin
  simp only [wlp_bind, wlp_gets, h1.mountCheck]
  rcases hcheck : s.mountCheck dev with _ | r
  · simp only [mountPath, releasenonblocking, wlp_bind]
    refine wlp_acquirenonblockinglock h1 fun s2 hacquire h2 => ?_
    simp only [wlp_bind, wlp_ite, wlp_pure, Bool.not_not]
    refine ⟨fun hlock => ?_, fun hlock => ?_⟩
    · rw [Ledger.setLock_self hlock] at h2
      exact wlp_endOp h2 fun s3 h3 => ⟨_, .refused (by decide) (.inr hlock), h3⟩
    · have hfree : s.mountlock = false := Bool.not_eq_true _ ▸ hlock
      have hback : ∀ {c : Ledger}, c.tables = (ledger s).tables →
          (c.setLock true).setLock false = c :=
        fun hc => Ledger.setLock_setLock (by rw [hc]; exact hfree)
      intro found t hnamei
      have hlookup : mountLookup p path s = (.ok found, t) := by
        rw [mountLookup, bind_of_ok hbegin, bind_of_ok hacquire, hnamei]
      obtain ⟨l, ht⟩ := wlp_namei_plain (Q := fun r t => ∃ l, Shows ledgerOnly t
        ((((ledger s).setLock true).leaks l).result r)) h2 (.inl rfl) (fun r l t ht => ⟨l, ht⟩)
        found t hnamei
      have hcross : t.trace.count .crossMount = s.trace.count .crossMount + l.length := by
        rw [ht.crossed, Ledger.result_crossed, Ledger.leaks_crossed]
        rfl
      cases found with
      | none =>
        simp only [wlp_bind, wlp_pure]
        refine wlp_endOp ht fun s2 h2 => wlp_setLock h2 fun s3 h3 => ?_
        rw [Ledger.result, Ledger.leaks_setLock, hback leaks_tables] at h3
        exact ⟨_, .failed (by decide) hcheck hfree hlookup hcross (by rintro _ ⟨⟩), h3⟩
      | some mp =>
        simp only [wlp_bind, wlp_gets, wlp_ite]
        refine ⟨fun hdir => wlp_mountDetour ht ?_ ?_, fun hdir => wlp_mountOn ht ?_ ?_⟩
        · intro l' r s2 hr h2
          have htables : (((((ledger s).leaks l).get mp).get mp).leaks l').tables =
              (ledger s).tables := by
            rw [leaks_tables]
            exact leaks_tables
          rw [Ledger.leaks_setLock, Ledger.get_setLock, Ledger.get_setLock, Ledger.leaks_setLock,
            hback htables] at h2
          exact ⟨_, .strayed hr hcheck hfree hlookup hdir, h2⟩
        · intro l' dir root s2 h2
          refine ⟨_, .mounted hfree (fun ip => ?_) ?_ ?_, h2⟩
          · calc (s.inode ip).ref
              _ ≤ (((ledger s).setLock true).leaks l).ref ip :=
                le_leaks_ref (c := (ledger s).setLock true)
              _ ≤ (((((ledger s).setLock true).leaks l).get mp).get mp).ref ip :=
                le_get_ref.trans le_get_ref
              _ ≤ _ := le_leaks_ref
          · rw [Ledger.leaks_mount, Ledger.get_mount, Ledger.get_mount, Ledger.leaks_mount]
            rfl
          · rw [leaks_tables, get_tables, get_tables, leaks_tables]
        · intro r s2 hr hroot h2
          rw [Ledger.leaks_setLock, hback leaks_tables] at h2
          refine ⟨_, .failed hr hcheck hfree hlookup hcross ?_, h2⟩
          rintro _ ⟨⟩
          exact hroot
        · intro root s2 h2
          refine ⟨_, .mounted (c := ((ledger s).setLock true).leaks l) hfree
            (fun ip => ?_) ?_ ?_, h2⟩
          · exact le_leaks_ref (c := (ledger s).setLock true)
          · rw [Ledger.leaks_mount]
            rfl
          · rw [leaks_tables]
  · rw [wlp_pure]
    exact ⟨_, .refused (mountCheck_ne_zero hcheck) (.inl (by rw [hcheck]; exact (by rintro ⟨⟩))),
      h1⟩

/-! ## What `unmount` does -/

/-- `unmount` up to its lookup. -/
def unmountLookup (p : PId) (path : List UInt8) : FsM (Option Slot) := do
  beginOp
  namei p 1 path

/-- What a call of `unmount` in the state `s` that returns can have returned, and the ledger
it leaves.  The lookup failed; or it found something that is not mounted; or there are
other references to what is mounted; or the call succeeded. -/
inductive UnmountOutcome (s : Fs) (p : PId) (path : List UInt8) : Int → Ledger → Prop where
  | absent {r : Int} {t : Fs} {l : List Slot} (hr : r ≠ 0)
    (hlookup : unmountLookup p path s = (.ok none, t))
    (hcross : t.trace.count .crossMount = s.trace.count .crossMount + l.length) :
    UnmountOutcome s p path r ((ledger s).leaks l)
  | other {r : Int} {mp : Slot} {t : Fs} {l : List Slot} (hr : r ≠ 0)
    (hlookup : unmountLookup p path s = (.ok (some mp), t))
    (hroot : ¬(s.mountRoot = some mp ∧ s.mountlock = true)) :
    UnmountOutcome s p path r (((ledger s).leaks l).get mp)
  | busy {r : Int} {root : Slot} {t : Fs} {l : List Slot} (hr : r ≠ 0)
    (hlookup : unmountLookup p path s = (.ok (some root), t))
    (hcross : t.trace.count .crossMount = s.trace.count .crossMount + l.length)
    (hroot : s.mountRoot = some root ∧ s.mountlock = true) :
    UnmountOutcome s p path r ((ledger s).leaks l)
  | unmounted {root mp : Slot} {l : List Slot} (hroot : s.mountRoot = some root)
    (hlock : s.mountlock = true) (hpoint : s.mountPoint = some mp) :
    UnmountOutcome s p path 0 ((((ledger s).leaks l).put root).unmountAt mp)

/-- `unmount` from where its path has been found. -/
theorem wlp_unmountFound {Q : Int → Fs → Prop} (h : Shows ledgerOnly s (c.get mp))
    (other : ∀ r s', r ≠ 0 → ¬(c.tables.mountRoot = some mp ∧ c.tables.mountlock = true) →
      Shows ledgerOnly s' (c.get mp) → Q r s')
    (busy : ∀ r s', r ≠ 0 → c.tables.mountRoot = some mp ∧ c.tables.mountlock = true →
      Shows ledgerOnly s' c → Q r s')
    (done : ∀ point s', c.tables.mountRoot = some mp ∧ c.tables.mountlock = true →
      c.tables.mountPoint = some point → Shows ledgerOnly s' ((c.put mp).unmountAt point) →
      Q 0 s') :
    wlp (unmountFound mp) Q s := by
  simp only [unmountFound, releasenonblocking, wlp_bind, wlp_gets, wlp_ite, wlp_pure]
  refine ⟨fun hne => ?_, fun heq => wlp_acquirenonblockinglock h fun s1 _ h1 =>
    ⟨fun hfree => ?_, fun hheld => ?_⟩⟩
  · rw [h.mountRoot] at hne
    exact other _ s (by decide) (fun hroot => hne hroot.1) h
  · have hfree : c.tables.mountlock = false := by simpa using hfree
    refine wlp_setLock h1 fun s2 h2 => other _ s2 (by decide) (fun hroot => ?_) ?_
    · rw [hroot.2] at hfree
      cases hfree
    · rwa [Ledger.setLock_setLock] at h2
      exact hfree
  · have hheld : c.tables.mountlock = true := by simpa using hheld
    have hroot : c.tables.mountRoot = some mp := by
      rw [h.mountRoot] at heq
      exact not_not.1 heq
    rw [Ledger.setLock_self (c := c.get mp) hheld] at h1
    refine wlp_iput h1 unwatched fun s2 _ h2 => ?_
    rw [put_get] at h2
    rw [h2.mountRoot, hroot]
    refine wlp_deref fun root hsome => ?_
    obtain rfl : mp = root := Option.some_inj.1 hsome
    simp only [iputmount, wlp_bind, wlp_gets, wlp_ite, wlp_pure]
    refine ⟨fun _ => ⟨fun _ => busy _ s2 (by decide) ⟨hroot, hheld⟩ h2,
      fun hne => absurd (by decide) hne⟩, fun _ => ?_⟩
    refine wlp_iput h2 unwatched fun s3 _ h3 => ⟨fun hne => absurd rfl hne, fun _ => ?_⟩
    refine wlp_deref fun point hpoint => ?_
    rw [h3.mountPoint] at hpoint
    simp only [setInode, wlp_update]
    refine done point _ ⟨hroot, hheld⟩ hpoint ?_
    obtain ⟨href, hlocked, hmount, -, hcrossed, -, -⟩ := h3.mark point false
    refine ⟨href, hlocked, hmount, ?_, hcrossed, unwatched, unwatched⟩
    rw [Ledger.unmountAt, ← h3.tables]

/-- Every call of `unmount` that returns has one of the outcomes. -/
theorem unmount_outcome :
    wlp (unmount p path)
      (fun r s' => ∃ c, UnmountOutcome s p path r c ∧ Shows ledgerOnly s' c) s := by
  rw [unmount, wlp_bind]
  intro a s1 hbegin
  have h1 : Shows ledgerOnly s1 (ledger s) :=
    wlp_beginOp (Q := fun _ s' => Shows ledgerOnly s' (ledger s)) shows_ledgerOnly
      (fun _ h => h) a s1 hbegin
  rw [wlp_bind]
  intro found t hnamei
  have hlookup : unmountLookup p path s = (.ok found, t) := by
    rw [unmountLookup, bind_of_ok hbegin, hnamei]
  obtain ⟨l, ht⟩ := wlp_namei_plain
    (Q := fun r t => ∃ l, Shows ledgerOnly t (((ledger s).leaks l).result r)) h1 (.inl rfl)
    (fun r l t ht => ⟨l, ht⟩) found t hnamei
  have hcross : t.trace.count .crossMount = s.trace.count .crossMount + l.length := by
    rw [ht.crossed, Ledger.result_crossed, Ledger.leaks_crossed]
    rfl
  cases found with
  | none =>
    simp only [wlp_bind, wlp_pure]
    exact wlp_endOp ht fun s2 h2 => ⟨_, .absent (by decide) hlookup hcross, h2⟩
  | some mp =>
    have htables : ((ledger s).leaks l).tables = (ledger s).tables := leaks_tables
    refine wlp_unmountFound ht (fun r s' hr hroot h' => ?_) (fun r s' hr hroot h' => ?_)
      fun point s' hroot hpoint h' => ?_
    · rw [htables] at hroot
      exact ⟨_, .other hr hlookup hroot, h'⟩
    · rw [htables] at hroot
      exact ⟨_, .busy hr hlookup hcross hroot, h'⟩
    · rw [htables] at hroot hpoint
      exact ⟨_, .unmounted hroot.1 hroot.2 hpoint, h'⟩

/-! ## The mount state is consistent -/

/-- The state shows no ledger but its own. -/
theorem Shows.ledger_eq {w : Watch} (h : Shows w s c) : ledger s = c := by
  obtain ⟨ref, locked, mount, tables, crossed⟩ := c
  simp only [ledger, Ledger.mk.injEq]
  exact ⟨funext h.ref, funext h.locked, funext h.mount, h.tables, h.crossed⟩

namespace Ledger

/-- Nothing is mounted. -/
structure Unmounted (c : Ledger) : Prop where
  mountlock : c.tables.mountlock = false
  mountRoot : c.tables.mountRoot = none
  mountPoint : c.tables.mountPoint = none
  mark : ∀ ip, c.mount ip = false

/-- A file system is mounted, and the mount holds its references. -/
structure Mounted (c : Ledger) (mp root : Slot) : Prop where
  mountlock : c.tables.mountlock = true
  mountRoot : c.tables.mountRoot = some root
  mountPoint : c.tables.mountPoint = some mp
  mark : ∀ ip, c.mount ip = true ↔ ip = mp
  held : 1 ≤ c.ref mp
  rootHeld : 1 ≤ c.ref root

/-- Either nothing is mounted or something is, and no reference count is negative. -/
structure Consistent (c : Ledger) : Prop where
  ref : ∀ ip, 0 ≤ c.ref ip
  state : c.Unmounted ∨ ∃ mp root, c.Mounted mp root

variable {c c' : Ledger} {mp root : Slot}

/-- References are added, or change in number. -/
theorem Consistent.mono (h : c.Consistent) (htables : c'.tables = c.tables)
    (hmount : c'.mount = c.mount)
    (href : ∀ ip, (0 ≤ c.ref ip → 0 ≤ c'.ref ip) ∧ (1 ≤ c.ref ip → 1 ≤ c'.ref ip)) :
    c'.Consistent := by
  refine ⟨fun ip => (href ip).1 (h.ref ip), ?_⟩
  rcases h.state with hno | ⟨mp, root, hyes⟩
  · left
    exact ⟨by rw [htables, hno.mountlock], by rw [htables, hno.mountRoot], by rw [htables,
      hno.mountPoint], fun ip => by rw [hmount, hno.mark]⟩
  · right
    exact ⟨mp, root, by rw [htables, hyes.mountlock], by rw [htables,
      hyes.mountRoot], by rw [htables, hyes.mountPoint], fun ip => by rw [hmount, hyes.mark],
      (href mp).2 hyes.held, (href root).2 hyes.rootHeld⟩

theorem Consistent.leaks (h : c.Consistent) : (c.leaks l).Consistent := by
  refine h.mono leaks_tables leaks_mount fun ip => ?_
  have hle : c.ref ip ≤ (c.leaks l).ref ip := le_leaks_ref
  omega

theorem Consistent.get (h : c.Consistent) : (c.get mp).Consistent := by
  refine h.mono rfl rfl fun ip => ?_
  have hle : c.ref ip ≤ (c.get mp).ref ip := le_get_ref
  omega

/-- The mount of a file system, where nothing is mounted. -/
theorem Unmounted.mountAt (h : c.Unmounted) (href : ∀ ip, 0 ≤ c'.ref ip)
    (hmount : c'.mount = c.mount) (htables : c'.tables = (c.setLock true).tables) :
    (((c'.get mp).get root).mountAt mp root).Mounted mp root := by
  have hmp : c'.ref mp + 1 ≤ ((c'.get mp).get root).ref mp := by
    rw [← get_ref_self]
    exact le_get_ref
  have hroot : c'.ref root + 1 ≤ ((c'.get mp).get root).ref root := by
    rw [get_ref_self]
    exact Int.add_le_add_right le_get_ref 1
  refine ⟨?_, rfl, rfl, fun ip => ?_, ?_, ?_⟩
  · exact (congrArg Tables.mountlock htables :)
  · by_cases hip : ip = mp
    · simp [Ledger.mountAt, hip]
    · simp [Ledger.mountAt, hip, hmount, h.mark]
  · exact (Int.add_le_add_right (href mp) 1).trans hmp
  · exact (Int.add_le_add_right (href root) 1).trans hroot

/-- The end of a mount. -/
theorem Mounted.unmountAt (h : c.Mounted mp root) : ((c.put root).unmountAt mp).Unmounted := by
  refine ⟨rfl, rfl, rfl, fun ip => ?_⟩
  by_cases hip : ip = mp
  · simp [Ledger.unmountAt, hip]
  · simpa [Ledger.unmountAt, hip] using fun hmark => hip ((h.mark ip).1 hmark)

end Ledger

theorem MountOutcome.consistent {r : Int} (h : MountOutcome s p dev path r c)
    (hs : (ledger s).Consistent) : c.Consistent := by
  cases h with
  | refused => exact hs
  | failed => exact hs.leaks
  | strayed => exact hs.leaks.get.get.leaks
  | @mounted c mp root hlock href hmount htables =>
    have href' : ∀ ip, 0 ≤ c.ref ip := fun ip => (hs.ref ip).trans (href ip)
    have hno : (ledger s).Unmounted := by
      rcases hs.state with hno | ⟨mp, root, hyes⟩
      · exact hno
      · exact absurd (hlock.symm.trans hyes.mountlock) Bool.false_ne_true
    refine ⟨fun ip => (href' ip).trans (le_get_ref.trans le_get_ref), .inr
      ⟨mp, root, ?_⟩⟩
    exact hno.mountAt href' hmount htables

theorem UnmountOutcome.consistent {r : Int} (h : UnmountOutcome s p path r c)
    (hs : (ledger s).Consistent) : c.Consistent := by
  cases h with
  | absent => exact hs.leaks
  | other => exact hs.leaks.get
  | busy => exact hs.leaks
  | @unmounted root mp l hroot hlock hpoint =>
    have hl : ((ledger s).leaks l).Consistent := hs.leaks
    rcases hl.state with hno | ⟨mp', root', hyes⟩
    · have hfree : s.mountlock = false := by
        rw [← hno.mountlock, leaks_tables]
        rfl
      rw [hlock] at hfree
      cases hfree
    · have hmp : some mp = some mp' := by
        rw [← hyes.mountPoint, leaks_tables, ← hpoint]
        rfl
      have hroot' : some root = some root' := by
        rw [← hyes.mountRoot, leaks_tables, ← hroot]
        rfl
      cases hmp
      cases hroot'
      refine ⟨fun ip => ?_, .inl hyes.unmountAt⟩
      have hheld := hyes.rootHeld
      have hip := hl.ref ip
      simp only [Ledger.unmountAt, Ledger.put, Pi.sub_apply, Pi.single_apply]
      split
      · next h =>
        subst h
        omega
      · omega

/-- What happens between calls of `mount` and `unmount`: the mount table, the lock and the
marks stay; an entry of the cache in use stays in use, and no count becomes negative.
The disks, the set of disks that are there, the working directories and the inodes
in the cache, so what lookups find, may change in any way. -/
structure Between (s s' : Fs) : Prop where
  mountlock : s'.mountlock = s.mountlock
  mountRoot : s'.mountRoot = s.mountRoot
  mountPoint : s'.mountPoint = s.mountPoint
  mark : ∀ ip, (s'.inode ip).isMountPoint = (s.inode ip).isMountPoint
  ref : ∀ ip, 0 ≤ (s.inode ip).ref → 0 ≤ (s'.inode ip).ref
  used : ∀ ip, 1 ≤ (s.inode ip).ref → 1 ≤ (s'.inode ip).ref

/-- To look up an inode, which may take an unused entry of the cache for it, is such a
change. -/
theorem iget_between {inum : Nat} : wlp (iget dev inum) (fun _ s' => Between s s') s := by
  refine wlp_iget shows_ledgerOnly unwatched fun ip s' h => ?_
  have href : ∀ ip', (s.inode ip').ref ≤ (s'.inode ip').ref := fun ip' => by
    rw [h.ref]
    exact le_get_ref (c := ledger s)
  refine ⟨h.mountlock, h.mountRoot, h.mountPoint, h.mount, fun ip' hip => hip.trans (href ip'),
    fun ip' hip =>
    hip.trans (href ip')⟩

/-- A call, or what happens between calls. -/
inductive MountAct where
  | mount (p : PId) (dev : Nat) (path : List UInt8)
  | unmount (p : PId) (path : List UInt8)
  | between

/-- The machine. -/
def MountStep (s : Fs) : MountAct → Fs → Prop
  | .mount p dev path, s' => ∃ r, mount p dev path s = (.ok r, s')
  | .unmount p path, s' => ∃ r, unmount p path s = (.ok r, s')
  | .between, s' => Between s s'

/-- Nothing is mounted, and no reference count is negative. -/
structure NothingMounted (s : Fs) : Prop where
  mountlock : s.mountlock = false
  mountRoot : s.mountRoot = none
  mountPoint : s.mountPoint = none
  mark : ∀ ip, (s.inode ip).isMountPoint = false
  ref : ∀ ip, 0 ≤ (s.inode ip).ref

/-- The lock, the mount table and the marks agree, and the mount point is in use. -/
structure MountConsistent (s : Fs) : Prop where
  agree : [s.mountlock = true, s.mountRoot ≠ none, s.mountPoint ≠ none,
    ∃ ip, (s.inode ip).isMountPoint = true].TFAE
  only : ∀ mp, s.mountPoint = some mp → ∀ ip, (s.inode ip).isMountPoint = true ↔ ip = mp
  used : ∀ mp, s.mountPoint = some mp → 1 ≤ (s.inode mp).ref

theorem Ledger.Consistent.mountConsistent (h : (ledger s).Consistent) : MountConsistent s := by
  rcases h.state with hno | ⟨mp, root, hyes⟩
  · have hlock : s.mountlock = false := hno.mountlock
    have hroot : s.mountRoot = none := hno.mountRoot
    have hpoint : s.mountPoint = none := hno.mountPoint
    have hmark : ∀ ip, (s.inode ip).isMountPoint = false := hno.mark
    refine ⟨?_, ?_, ?_⟩
    · simpa [List.TFAE, hlock, hroot, hpoint, hmark] using fun _ hx _ hy => iff_of_false hx hy
    · simp [hpoint]
    · simp [hpoint]
  · have hlock : s.mountlock = true := hyes.mountlock
    have hroot : s.mountRoot = some root := hyes.mountRoot
    have hpoint : s.mountPoint = some mp := hyes.mountPoint
    have hmark : ∀ ip, (s.inode ip).isMountPoint = true ↔ ip = mp := hyes.mark
    refine ⟨?_, ?_, ?_⟩
    · simpa [List.TFAE, hlock, hroot, hpoint, hmark] using fun _ hx _ hy => iff_of_true hx hy
    · rw [hpoint]
      rintro _ ⟨⟩
      exact hmark
    · rw [hpoint]
      rintro _ ⟨⟩
      exact hyes.held

theorem MountStep.consistent {a : MountAct} (h : MountStep s a s') (hs : (ledger s).Consistent) :
    (ledger s').Consistent := by
  cases a with
  | mount p dev path =>
    obtain ⟨r, hrun⟩ := h
    obtain ⟨c, hc, hshow⟩ := mount_outcome r s' hrun
    rw [hshow.ledger_eq]
    exact hc.consistent hs
  | unmount p path =>
    obtain ⟨r, hrun⟩ := h
    obtain ⟨c, hc, hshow⟩ := unmount_outcome r s' hrun
    rw [hshow.ledger_eq]
    exact hc.consistent hs
  | between =>
    obtain ⟨hlock, hroot, hpoint, hmark, href, hused⟩ : Between s s' := h
    refine ⟨fun ip => href ip (hs.ref ip), ?_⟩
    rcases hs.state with hno | ⟨mp, root, hyes⟩
    · left
      exact ⟨hlock.trans hno.mountlock, hroot.trans hno.mountRoot, hpoint.trans hno.mountPoint,
        fun ip => (hmark ip).trans (hno.mark ip)⟩
    · right
      refine ⟨mp, root, hlock.trans hyes.mountlock, hroot.trans hyes.mountRoot,
        hpoint.trans hyes.mountPoint, fun ip => ?_, hused mp hyes.held, hused root hyes.rootHeld⟩
      rw [← hyes.mark ip]
      exact iff_of_eq (congrArg (· = true) (hmark ip))

/-- In every state between calls of `mount` and `unmount` the mount state is
consistent. -/
theorem mountConsistent_of_reach (h : Reach NothingMounted MountStep s) : MountConsistent s := by
  suffices hs : (ledger s).Consistent from hs.mountConsistent
  induction h with
  | init hs => exact ⟨hs.ref, .inl ⟨hs.mountlock, hs.mountRoot, hs.mountPoint, hs.mark⟩⟩
  | step _ hstep ih => exact MountStep.consistent hstep ih

end

theorem nothingMounted_dirFs : NothingMounted dirFs := by
  obtain ⟨h1, h2, h3, h4, h5⟩ : dirFs.mountlock = false ∧ dirFs.mountRoot = none ∧
      dirFs.mountPoint = none ∧ (∀ ip, (dirFs.inode ip).isMountPoint = false) ∧
      ∀ ip, 0 ≤ (dirFs.inode ip).ref := by decide +kernel
  exact ⟨h1, h2, h3, h4, h5⟩

/-- The second disk is mounted on the directory. -/
theorem mountConsistent_dirFs : ∃ s, Reach NothingMounted MountStep s ∧ s.mountlock = true ∧
    MountConsistent s := by
  have hrun : (mount init 2 dirM dirFs).1 = .ok 0 := by decide +kernel
  have hreach : Reach NothingMounted MountStep (mount init 2 dirM dirFs).2 :=
    (Reach.init nothingMounted_dirFs).step (a := .mount init 2 dirM) ⟨0, run_eq hrun⟩
  exact ⟨_, hreach, by decide +kernel, mountConsistent_of_reach hreach⟩

/-! ## Which calls leave no trace -/

/-- A call of `mount`, a call of `unmount`, and the one followed by the other. -/
inductive MountCalls where
  | mount (dev : Nat) (path : List UInt8)
  | unmount (path : List UInt8)
  | both (dev : Nat) (path : List UInt8)

/-- An entry in use that holds the root of a device, and reads as a directory. -/
def RootCached (s : Fs) (d : Nat) : Prop :=
  ∃ e, 0 < (s.inode e).ref ∧ (s.inode e).dev = d ∧ (s.inode e).inum = ROOTINO ∧
    (s.inode e).valid = true ∧ (s.inode e).type = T_DIR

/-- An inode is the root of what is mounted. -/
def IsMountRoot (s : Fs) (d j : Nat) : Prop :=
  s.mountlock = true ∧ ∃ e, s.mountRoot = some e ∧ (s.inode e).dev = d ∧ (s.inode e).inum = j

/-- Before the calls: a `mount` is refused before its lookup, or its path comes to nothing or to
the root of a device; the path of an `unmount` comes to nothing, or to what is mounted. -/
def Clean (p : PId) (s : Fs) : MountCalls → Prop
  | .mount dev path => s.mountCheck dev ≠ none ∨ s.mountlock = true ∨
      ∃ d, s.Looks p 1 path d .fails ∨ s.Looks p 1 path d (.finds ROOTINO) ∧ s.RootCached d
  | .unmount path =>
    ∃ d, s.Looks p 1 path d .fails ∨ ∃ j, s.Looks p 1 path d (.finds j) ∧ s.IsMountRoot d j
  | .both _ _ => False

section

variable {E : Stop → Prop} {log : Log} {D : Drives} {sb : Nat → Superblock} {vol : Volumes}
  {s s' t : Fs} {p : PId} {c : Ledger} {l : List Slot} {mp : Slot} {found : Option Slot}
  {dev d : Nat} {path : List UInt8} {g : Comes}

/-- What a lookup from the state `s` that comes to `g` has done.  An entry that was in use is the
one found exactly if it has the inode, and a valid copy is still there. -/
def Lands (s : Fs) (d : Nat) : Comes → Option Slot → Fs → Prop
  | .crosses, _, t => s.trace.count .crossMount < t.trace.count .crossMount
  | .fails, r, t => t.trace.count .crossMount = s.trace.count .crossMount ∧ r = none
  | .finds j, r, t => t.trace.count .crossMount = s.trace.count .crossMount ∧ ∃ ip, r = some ip ∧
      (t.inode ip).inum = j ∧ ∀ e, 0 < (s.inode e).ref →
        ((s.inode e).dev = d ∧ (s.inode e).inum = j ↔ e = ip) ∧
        (e = ip → (s.inode e).valid = true → (t.inode e).type = (s.inode e).type)

theorem Arrives.lands (h : Arrives E log D sb vol c t d g found s') (hs : Coherent D vol s)
    (hinode : t.inode = s.inode) (href : c.ref = (ledger s).ref)
    (hcross : c.crossed = (ledger s).crossed) : Lands s d g found s' := by
  cases g with
  | crosses => exact hcross.symm.trans_lt h
  | fails => exact ⟨h.2.shows.crossed.trans hcross, h.1⟩
  | finds j =>
    obtain ⟨ip, hfound, hrest, hentry, hstay⟩ := h
    have hsame : ∀ e, 0 < (s.inode e).ref → (s.inode e).Same (s'.inode e) := fun e he =>
      hinode ▸ hstay e (href ▸ he)
    refine ⟨hrest.shows.crossed.trans hcross, ip, hfound, hentry.inum, fun e he =>
      ⟨⟨?_, ?_⟩, ?_⟩⟩
    · rintro ⟨hdev, hinum⟩
      exact (hstay.eq_of_entry hrest le_get_ref hentry (href ▸ he) (hinode ▸ hdev)
        (hinode ▸ hinum)).symm
    · rintro rfl
      exact ⟨(hsame e he).dev.symm.trans hentry.dev, (hsame e he).inum.symm.trans hentry.inum⟩
    · rintro rfl hvalid
      have hdev := (hsame e he).dev
      have hafter := hrest.disk.mem e hentry.ref (hentry.dev.symm ▸ hentry.mem)
        ((hsame e he).valid hvalid)
      have hbefore := hs.disk.mem e he (hdev.symm.trans hentry.dev ▸ hentry.mem) hvalid
      rw [hdev, (hsame e he).inum, ← hbefore] at hafter
      exact (congrArg Dinode.type hafter :)

/-- The lookup comes later, when only the log and the lock have changed. -/
theorem Coherent.wlp_namei (hs : Coherent D vol s) (hres : s.Resolves D vol p 1 path d g)
    (h : Rest (fun _ => True) log D s.superblock vol c t) (hinode : t.inode = s.inode)
    (hproc : t.proc = s.proc) (href : c.ref = (ledger s).ref) (hmount : c.mount = (ledger s).mount)
    (hcross : c.crossed = (ledger s).crossed) : wlp (namei p 1 path) (Lands s d g) t := by
  have hused : ∀ e, c.mount e = true → 0 < c.ref e := by
    rw [href, hmount]
    exact hs.marked
  have hrun := h.within_namei (hres.congr hinode hproc h.super) hused (.inl trivial) (.inl trivial)
    fun _ _ => trivial
  exact fun r s' h' => ((wp_iff.1 hrun).1 r s' h').lands hs hinode href hcross

theorem Looks.unmountLookup (h : s.Looks p 1 path d g) :
    wlp (unmountLookup p path) (Lands s d g) s := by
  obtain ⟨D, vol, hs, hres⟩ := h
  simp only [Fs.unmountLookup, wlp_bind]
  refine (wp_iff.1 (hs.rest.within_beginOp (.inl trivial) fun s1 h1 hinode htables => ?_)).1
  exact hs.wlp_namei hres h1 hinode (congrArg Tables.proc htables) rfl rfl rfl

/-- An `unmount` that returns ends what it begins exactly if its path comes to nothing in the
tree before the call. -/
theorem Looks.closes_unmount_iff {r : Int} (h : s.Looks p 1 path d g) (hg : g ≠ .crosses)
    (hrun : unmount p path s = (.ok r, s')) :
    (LogCall.unmount path).Closes p s ↔ g = .fails := by
  obtain ⟨_, s1, h1, hrun⟩ := bind_eq_ok hrun
  obtain ⟨found, s2, h2, -⟩ := bind_eq_ok hrun
  have hlands := h.unmountLookup found s2 (by rw [Fs.unmountLookup, bind_apply, h1]; exact h2)
  cases g with
  | crosses => exact absurd rfl hg
  | fails =>
    obtain ⟨-, rfl⟩ := hlands
    exact iff_of_true ⟨s1, s2, h1, h2⟩ rfl
  | finds j =>
    obtain ⟨-, ip, rfl, -⟩ := hlands
    refine iff_of_false ?_ (by rintro ⟨⟩)
    rintro ⟨t1, t2, ht1, ht2⟩
    cases h1.symm.trans ht1
    cases h2.symm.trans ht2

theorem Looks.mountLookup (h : s.Looks p 1 path d g) :
    wlp (mountLookup p path) (Lands s d g) s := by
  obtain ⟨D, vol, hs, hres⟩ := h
  simp only [Fs.mountLookup, wlp_bind]
  refine (wp_iff.1 (hs.rest.within_beginOp (.inl trivial) fun s1 h1 hinode htables => ?_)).1
  intro b s2 hb
  rw [acquirenonblockinglock_apply] at hb
  cases hb
  obtain ⟨hsupply, ⟨hblocks, hsound, hmem, hdisk, hfits, hrange, hunique⟩, hsuper, hintact, hplaced,
    hshows⟩ := h1
  refine hs.wlp_namei hres ⟨hsupply, ⟨hblocks, hsound, hmem, hdisk, hfits, hrange, hunique⟩, hsuper,
    hintact, hplaced, hshows.setLock⟩ hinode (congrArg Tables.proc htables :) rfl rfl rfl

theorem Looks.root (h : s.Looks p dev path d g) {e : Slot} (he : s.mountRoot = some e) :
    0 < (s.inode e).ref := by
  obtain ⟨D, vol, hs, -⟩ := h
  exact hs.root e he

end

end Xv6Rework.Fs
