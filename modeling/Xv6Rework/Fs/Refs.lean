import Xv6Rework.Fs.Effects
import Mathlib.Algebra.Group.Pi.Basic
import Mathlib.Algebra.Ring.Int.Defs

/-!
# References to inodes

What the functions of the file system do to reference counts, locks and tables,
whatever the disks hold.  A `Ledger` has these and little else; `Shows w s c` says that
the state `s` shows the ledger `c`.  What else it says depends on `w`: that the cache is
in order, or that no `iput` has left a count below a bound, or neither.

Each function has one lemma that says what it does to the ledger if it returns.
-/

namespace Xv6Rework.Fs

open Prog

/-- The reference counts, the locks, the mount points and the tables, and how often
`namex` has crossed a mount point. -/
structure Ledger where
  ref : Slot → Int
  locked : Slot → Bool
  mount : Slot → Bool
  tables : Tables
  crossed : Nat

namespace Ledger

variable (c : Ledger) (ip ip' : Slot)

/-- Take a reference. -/
def get : Ledger := { c with ref := c.ref + Pi.single ip 1 }

/-- Drop a reference. -/
def put : Ledger := { c with ref := c.ref - Pi.single ip 1 }

/-- Take a lock. -/
def lock : Ledger := { c with locked := Function.update c.locked ip true }

/-- Let go of a lock. -/
def unlock : Ledger := { c with locked := Function.update c.locked ip false }

@[simp] theorem get_tables : (c.get ip).tables = c.tables := rfl
@[simp] theorem put_tables : (c.put ip).tables = c.tables := rfl
@[simp] theorem lock_tables : (c.lock ip).tables = c.tables := rfl
@[simp] theorem unlock_tables : (c.unlock ip).tables = c.tables := rfl
@[simp] theorem get_mount : (c.get ip).mount = c.mount := rfl
@[simp] theorem put_mount : (c.put ip).mount = c.mount := rfl
@[simp] theorem lock_mount : (c.lock ip).mount = c.mount := rfl
@[simp] theorem get_locked : (c.get ip).locked = c.locked := rfl
@[simp] theorem put_locked : (c.put ip).locked = c.locked := rfl
@[simp] theorem lock_ref : (c.lock ip).ref = c.ref := rfl
@[simp] theorem unlock_ref : (c.unlock ip).ref = c.ref := rfl

/-- Take a reference that is never dropped, at a mount point. -/
def leak : Ledger := { c.get ip with crossed := c.crossed + 1 }

@[simp] theorem put_get : (c.get ip).put ip = c := by simp [get, put]

theorem get_lock_comm : (c.get ip).lock ip' = (c.lock ip').get ip := rfl

theorem get_get_comm : (c.get ip).get ip' = (c.get ip').get ip := by
  simp [get, add_right_comm]

variable {c ip ip'}

theorem unlock_lock (h : c.locked ip = false) : (c.lock ip).unlock ip = c := by
  simp [lock, unlock, ← h]

theorem lock_unlock (h : c.locked ip = true) : (c.unlock ip).lock ip = c := by
  simp [lock, unlock, ← h]

theorem get_ref_self : (c.get ip).ref ip = c.ref ip + 1 := by simp [get]

theorem get_ref_of_ne (h : ip' ≠ ip) : (c.get ip).ref ip' = c.ref ip' := by simp [get, h]

theorem le_get_ref : c.ref ip' ≤ (c.get ip).ref ip' := by
  by_cases h : ip' = ip
  · subst h
    simp [get]
  · simp [get, h]

end Ledger

/-- The cache is in order: no two entries in use are for the same inode, an entry of
`icache2` in use is one for device 2, and the devices of entries in use have the
property. -/
structure Orderly (D : Nat → Prop) (inode : Slot → Inode) (ref : Slot → Int) : Prop where
  unique : ∀ ip ip', 0 < ref ip → 0 < ref ip' → (inode ip).dev = (inode ip').dev →
    (inode ip).inum = (inode ip').inum → ip = ip'
  place : ∀ ip, 0 < ref ip → ip.1 = decide ((inode ip).dev = 2)
  devs : ∀ ip, 0 < ref ip → D (inode ip).dev

/-- A bound for the counts that `iput` leaves after the events of `since`. -/
structure Floor where
  since : List Event
  count : Slot → Int

/-- After the events of `since`, each `iput` finds a count above the bound. -/
def Floor.Holds (F : Floor) (t : List Event) : Prop :=
  ∃ l, t = F.since ++ l ∧ ∀ ip ref, .iput ip ref ∈ l → F.count ip < ref

/-- What is followed beside the ledger. -/
structure Watch where
  devs : Option (Nat → Prop)
  floor : Option Floor

/-- The state shows the ledger. -/
structure Shows (w : Watch) (s : Fs) (c : Ledger) : Prop where
  ref : ∀ ip, (s.inode ip).ref = c.ref ip
  locked : ∀ ip, (s.inode ip).locked = c.locked ip
  mount : ∀ ip, (s.inode ip).isMountPoint = c.mount ip
  tables : { s.toTables with io := [] } = c.tables
  crossed : s.trace.count .crossMount = c.crossed
  order : ∀ D ∈ w.devs, Orderly D s.inode c.ref
  puts : ∀ F ∈ w.floor, F.Holds s.trace

/-- Nothing is asked of what is not watched. -/
theorem unwatched {α : Type} {P : α → Prop} : ∀ x ∈ (none : Option α), P x := by rintro _ ⟨⟩

section

variable {α : Type} {D : Nat → Prop} {w : Watch} {s s' : Fs} {c : Ledger} {ip dp : Slot} {p : PId}
  {dev : Nat}

/-- Events that are neither followed nor counted. -/
def Silent (t : List Event) : Prop := ∀ e ∈ t, e ≠ .crossMount ∧ ∀ ip ref, e ≠ .iput ip ref

theorem Silent.nil : Silent [] := by simp [Silent]

theorem Silent.replicate {n : Nat} {e : Event} (h : Silent [e]) : Silent (List.replicate n e) := by
  intro e' he
  rw [List.eq_of_mem_replicate he]
  exact h e (List.mem_singleton_self e)

theorem Silent.count {t : List Event} (h : Silent t) : t.count .crossMount = 0 :=
  List.count_eq_zero.2 fun hmem => (h _ hmem).1 rfl

theorem Floor.Holds.append {F : Floor} {t l : List Event} (h : F.Holds t)
    (hl : ∀ ip ref, .iput ip ref ∈ l → F.count ip < ref) : F.Holds (t ++ l) := by
  obtain ⟨l', rfl, hl'⟩ := h
  refine ⟨l' ++ l, List.append_assoc .., fun ip ref hmem => ?_⟩
  rcases List.mem_append.1 hmem with hmem | hmem
  · exact hl' ip ref hmem
  · exact hl ip ref hmem

/-- Only the copies of disk inodes may differ. -/
theorem Shows.of_frame (h : Shows w s c) (hinode : ∀ ip, frame (s'.inode ip) = frame (s.inode ip))
    (htables : { s'.toTables with io := [] } = c.tables)
    (htrace : ∃ t, s'.trace = s.trace ++ t ∧ Silent t) : Shows w s' c := by
  have hdev : ∀ ip, (s'.inode ip).dev = (s.inode ip).dev := fun ip =>
    (congrArg Inode.dev (hinode ip) :)
  have hinum : ∀ ip, (s'.inode ip).inum = (s.inode ip).inum := fun ip =>
    (congrArg Inode.inum (hinode ip) :)
  obtain ⟨t, ht, hsilent⟩ := htrace
  constructor
  · exact fun ip => (congrArg Inode.ref (hinode ip)).trans (h.ref ip)
  · exact fun ip => (congrArg Inode.locked (hinode ip)).trans (h.locked ip)
  · exact fun ip => (congrArg Inode.isMountPoint (hinode ip)).trans (h.mount ip)
  · exact htables
  · rw [ht, List.count_append, hsilent.count, h.crossed, Nat.add_zero]
  · intro D hD
    obtain ⟨hunique, hplace, hdevs⟩ := h.order D hD
    refine ⟨fun ip ip' h1 h2 h3 h4 => ?_, fun ip hip => ?_, fun ip hip => ?_⟩
    · rw [hdev, hdev] at h3
      rw [hinum, hinum] at h4
      exact hunique ip ip' h1 h2 h3 h4
    · rw [hdev]
      exact hplace ip hip
    · rw [hdev]
      exact hdevs ip hip
  · intro F hF
    rw [ht]
    exact (h.puts F hF).append fun ip ref hmem => absurd rfl ((hsilent _ hmem).2 ip ref)

theorem Shows.quiet (h : Shows w s c) (hq : Quiet s s') : Shows w s' c := by
  obtain ⟨n, hn⟩ := hq.trace
  exact h.of_frame hq.inode (by rw [hq.tables]; exact h.tables)
    ⟨_, hn, .replicate (by simp [Silent])⟩

/-- The rule for quiet functions. -/
theorem wlp_quiet {x : FsM α} {Q : α → Fs → Prop} (hx : Keeps Quiet x) (h : Shows w s c)
    (ok : ∀ a s', Shows w s' c → Q a s') : wlp x Q s :=
  hx.wlp fun a s' hq => ok a s' (h.quiet hq)

/-- A change of one entry.  Where it is in use afterwards, it is for the inode it was
for, or for one that no other entry is for. -/
theorem Orderly.update {x : Inode} {ref ref' : Slot → Int} (h : Orderly D s.inode ref)
    (href : ∀ ip', ip' ≠ ip → ref' ip' = ref ip')
    (hid : 0 < ref' ip → D x.dev ∧ ip.1 = decide (x.dev = 2) ∧
      ∀ ip', ip' ≠ ip → 0 < ref ip' → (s.inode ip').dev = x.dev → (s.inode ip').inum ≠ x.inum) :
    Orderly D (Function.update s.inode ip x) ref' := by
  have hsame : ∀ ip', ip' ≠ ip → Function.update s.inode ip x ip' = s.inode ip' := fun ip' hne =>
    Function.update_of_ne hne ..
  have hx : Function.update s.inode ip x ip = x := Function.update_self ..
  constructor
  · intro ip1 ip2 h1 h2 hdev hinum
    by_cases hip1 : ip1 = ip <;> by_cases hip2 : ip2 = ip
    · rw [hip1, hip2]
    · subst hip1
      simp only [hx, hsame ip2 hip2] at hdev hinum
      rw [href ip2 hip2] at h2
      exact absurd hinum.symm ((hid h1).2.2 ip2 hip2 h2 hdev.symm)
    · subst hip2
      simp only [hx, hsame ip1 hip1] at hdev hinum
      rw [href ip1 hip1] at h1
      exact absurd hinum ((hid h2).2.2 ip1 hip1 h1 hdev)
    · simp only [hsame ip1 hip1, hsame ip2 hip2] at hdev hinum
      rw [href ip1 hip1] at h1
      rw [href ip2 hip2] at h2
      exact h.unique ip1 ip2 h1 h2 hdev hinum
  · intro ip' hip'
    by_cases hip : ip' = ip
    · subst hip
      simpa only [hx] using (hid hip').2.1
    · rw [href ip' hip] at hip'
      simpa only [hsame ip' hip] using h.place ip' hip'
  · intro ip' hip'
    by_cases hip : ip' = ip
    · subst hip
      simpa only [hx] using (hid hip').1
    · rw [href ip' hip] at hip'
      simpa only [hsame ip' hip] using h.devs ip' hip'

/-- A change of one entry, if it keeps the cache in order. -/
theorem Shows.update {x : Inode} {c' : Ledger} (h : Shows w s c)
    (href : ∀ ip', ip' ≠ ip → c'.ref ip' = c.ref ip')
    (hlocked : ∀ ip', ip' ≠ ip → c'.locked ip' = c.locked ip')
    (hmount : ∀ ip', ip' ≠ ip → c'.mount ip' = c.mount ip') (htables : c'.tables = c.tables)
    (hcrossed : c'.crossed = c.crossed)
    (hself : x.ref = c'.ref ip ∧ x.locked = c'.locked ip ∧ x.isMountPoint = c'.mount ip)
    (hid : ∀ D ∈ w.devs, 0 < c'.ref ip → D x.dev ∧ ip.1 = decide (x.dev = 2) ∧
      ∀ ip', ip' ≠ ip → 0 < c.ref ip' → (s.inode ip').dev = x.dev → (s.inode ip').inum ≠ x.inum) :
    Shows w { s with inode := Function.update s.inode ip x } c' := by
  have hsame : ∀ ip', ip' ≠ ip → Function.update s.inode ip x ip' = s.inode ip' := fun ip' hne =>
    Function.update_of_ne hne ..
  have hx : Function.update s.inode ip x ip = x := Function.update_self ..
  constructor
  · intro ip'
    by_cases hip : ip' = ip
    · rw [hip]
      simpa only [hx] using hself.1
    · simpa only [hsame ip' hip, href ip' hip] using h.ref ip'
  · intro ip'
    by_cases hip : ip' = ip
    · rw [hip]
      simpa only [hx] using hself.2.1
    · simpa only [hsame ip' hip, hlocked ip' hip] using h.locked ip'
  · intro ip'
    by_cases hip : ip' = ip
    · rw [hip]
      simpa only [hx] using hself.2.2
    · simpa only [hsame ip' hip, hmount ip' hip] using h.mount ip'
  · exact h.tables.trans htables.symm
  · exact h.crossed.trans hcrossed.symm
  · exact fun D hD => (h.order D hD).update href (hid D hD)
  · exact h.puts

/-- An entry in use is for an inode that no other entry is for. -/
theorem Shows.identity (h : Shows w s c) (hD : D ∈ w.devs) (hip : 0 < c.ref ip) :
    D (s.inode ip).dev ∧ ip.1 = decide ((s.inode ip).dev = 2) ∧ ∀ ip', ip' ≠ ip → 0 < c.ref ip' →
      (s.inode ip').dev = (s.inode ip).dev → (s.inode ip').inum ≠ (s.inode ip).inum := by
  obtain ⟨hunique, hplace, hdevs⟩ := h.order D hD
  exact ⟨hdevs ip hip, hplace ip hip, fun ip' hne hip' hdev hinum =>
    hne (hunique ip' ip hip' hip hdev hinum)⟩

/-! ## The inode cache -/

theorem mem_icache : ip ∈ icache dev ↔ ip.1 = decide (dev = 2) := by
  constructor
  · intro h
    obtain ⟨i, -, rfl⟩ := List.mem_map.1 h
    rfl
  · intro h
    exact List.mem_map.2 ⟨ip.2, List.mem_finRange _, Prod.ext h.symm rfl⟩

/-- An inode that is not found is not in the cache. -/
theorem Shows.not_cached {inum : Nat} (h : Shows w s c) (hD : D ∈ w.devs)
    (hnone : s.cached dev inum = none)
    (hip : 0 < c.ref ip) (hdev : (s.inode ip).dev = dev) : (s.inode ip).inum ≠ inum := by
  intro hinum
  have hmem : ip ∈ icache dev := mem_icache.2 (by rw [(h.order D hD).place ip hip, hdev])
  have := List.find?_eq_none.1 hnone ip hmem
  simp [h.ref, hip, hdev, hinum] at this

theorem wlp_iget {inum : Nat} {Q : Slot → Fs → Prop} (h : Shows w s c) (hdev : ∀ D ∈ w.devs, D dev)
    (ok : ∀ ip s', Shows w s' (c.get ip) → Q ip s') : wlp (iget dev inum) Q s := by
  simp only [iget, wlp_bind, wlp_gets]
  split
  · next ip hfound =>
    have hip := List.find?_some hfound
    simp only [Bool.and_eq_true, decide_eq_true_eq, h.ref] at hip
    simp only [wlp_bind, setInode, wlp_update, wlp_pure]
    refine ok ip _ (h.update (fun ip' hne => Ledger.get_ref_of_ne hne) (fun _ _ => rfl)
      (fun _ _ => rfl) rfl rfl ⟨?_, h.locked ip, h.mount ip⟩ fun _ hD _ => h.identity hD hip.1.1)
    rw [Ledger.get_ref_self, h.ref]
  · next hnone =>
    simp only [wlp_bind, wlp_gets]
    split
    · next ip hempty =>
      have hzero : c.ref ip = 0 := by
        have := List.find?_some hempty
        simpa [h.ref] using this
      have hplace : ip.1 = decide (dev = 2) := mem_icache.1 (List.mem_of_find?_eq_some hempty)
      simp only [wlp_bind, setInode, wlp_update, wlp_pure]
      refine ok ip _ (h.update (fun ip' hne => Ledger.get_ref_of_ne hne) (fun _ _ => rfl)
        (fun _ _ => rfl) rfl rfl ⟨?_, h.locked ip, h.mount ip⟩ fun D hD _ =>
          ⟨hdev D hD, hplace, fun ip' _ hip' hdev' => ?_⟩)
      · rw [Ledger.get_ref_self, hzero]
        rfl
      · exact h.not_cached hD hnone hip' hdev'
    · simp

theorem wlp_idup {Q : Slot → Fs → Prop} (h : Shows w s c) (hip : ∀ D ∈ w.devs, 0 < c.ref ip)
    (ok : ∀ s', Shows w s' (c.get ip) → Q ip s') : wlp (idup ip) Q s := by
  simp only [idup, setInode, wlp_bind, wlp_update, wlp_pure]
  refine ok _ (h.update (fun ip' hne => Ledger.get_ref_of_ne hne) (fun _ _ => rfl)
    (fun _ _ => rfl) rfl rfl ⟨?_, h.locked ip, h.mount ip⟩ fun D hD _ => h.identity hD (hip D hD))
  rw [Ledger.get_ref_self, h.ref]

theorem wlp_acquiresleep {Q : Unit → Fs → Prop} (h : Shows w s c)
    (ok : ∀ s', c.locked ip = false → Shows w s' (c.lock ip) → Q () s') :
    wlp (acquiresleep ip) Q s := by
  simp only [acquiresleep, setInode, wlp_bind, wlp_gets, wlp_ite, wlp_stop, wlp_update, h.locked]
  refine ⟨fun _ => trivial, fun hlocked => ok _ (by simpa using hlocked) (h.update (fun _ _ => rfl)
    (fun ip' hne => ?_) (fun _ _ => rfl) rfl rfl ⟨h.ref ip, ?_, h.mount ip⟩ fun _ hD hip =>
    h.identity hD hip)⟩
  · exact Function.update_of_ne hne ..
  · simp [Ledger.lock]

theorem wlp_releasesleep {Q : Unit → Fs → Prop} (h : Shows w s c)
    (ok : ∀ s', Shows w s' (c.unlock ip) → Q () s') : wlp (releasesleep ip) Q s := by
  simp only [releasesleep, setInode, wlp_update]
  refine ok _ (h.update (fun _ _ => rfl) (fun ip' hne => ?_) (fun _ _ => rfl) rfl rfl
    ⟨h.ref ip, ?_, h.mount ip⟩ fun _ hD hip => h.identity hD hip)
  · exact Function.update_of_ne hne ..
  · simp [Ledger.unlock]

/-- A store to the fields of an entry that the ledger does not have. -/
theorem wlp_setInode {f : Inode → Inode} {Q : Unit → Fs → Prop} (h : Shows w s c)
    (hf : ∀ x, (f x).dev = x.dev ∧ (f x).inum = x.inum ∧ (f x).ref = x.ref ∧
      (f x).locked = x.locked ∧ (f x).isMountPoint = x.isMountPoint)
    (ok : ∀ s', Shows w s' c → Q () s') : wlp (setInode ip f) Q s := by
  obtain ⟨hdev, hinum, href, hlocked, hmount⟩ := hf (s.inode ip)
  simp only [setInode, wlp_update]
  refine ok _ (h.update (fun _ _ => rfl) (fun _ _ => rfl) (fun _ _ => rfl) rfl rfl
    ⟨href.trans (h.ref ip), hlocked.trans (h.locked ip), hmount.trans (h.mount ip)⟩
    fun D hD hip => ?_)
  rw [hdev, hinum]
  exact h.identity hD hip

theorem wlp_ilock {Q : Unit → Fs → Prop} (h : Shows w s c)
    (ok : ∀ s', 0 < c.ref ip → c.locked ip = false → Shows w s' (c.lock ip) → Q () s') :
    wlp (ilock ip) Q s := by
  simp only [ilock, data, wlp_bind, wlp_gets, wlp_pure, wlp_ite, wlp_halt, h.ref]
  refine ⟨fun _ => trivial, fun href => wlp_acquiresleep h fun s1 hfree h1 => ?_⟩
  have hip : 0 < c.ref ip := by omega
  refine ⟨fun _ => wlp_quiet bread_quiet h1 fun bp s2 h2 => ?_, fun _ => ok _ hip hfree h1⟩
  refine wlp_setInode h2 (fun _ => ⟨rfl, rfl, rfl, rfl, rfl⟩) fun s3 h3 => ?_
  refine wlp_quiet brelse_quiet h3 fun _ s4 h4 => ?_
  refine wlp_setInode h4 (fun _ => ⟨rfl, rfl, rfl, rfl, rfl⟩) fun s5 h5 => ?_
  exact ⟨fun _ => trivial, fun _ => ok _ hip hfree h5⟩

theorem wlp_iunlock {Q : Unit → Fs → Prop} (h : Shows w s c)
    (ok : ∀ s', c.locked ip = true → Shows w s' (c.unlock ip) → Q () s') :
    wlp (iunlock ip) Q s := by
  simp only [iunlock, wlp_bind, wlp_gets, wlp_ite, wlp_halt, h.locked]
  refine ⟨fun _ => trivial, fun hlocked => wlp_releasesleep h fun s' h' => ok s' ?_ h'⟩
  simpa using fun hfree => hlocked (.inl hfree)

theorem wlp_iput {Q : Unit → Fs → Prop} (h : Shows w s c)
    (hip : ∀ F ∈ w.floor, F.count ip < c.ref ip)
    (ok : ∀ s', c.locked ip = false → Shows w s' (c.put ip) → Q () s') : wlp (iput ip) Q s := by
  have hend : ∀ {s}, c.locked ip = false → Shows w s (c.lock ip) → wlp (releasesleep ip >>= fun _ =>
      setInode ip fun x => { x with ref := x.ref - 1 }) Q s := by
    intro s hfree h
    rw [wlp_bind]
    refine wlp_releasesleep h fun s1 h1 => ?_
    rw [Ledger.unlock_lock hfree] at h1
    simp only [setInode, wlp_update]
    refine ok _ hfree (h1.update (fun ip' hne => by simp [Ledger.put, hne]) (fun _ _ => rfl)
      (fun _ _ => rfl) rfl rfl ⟨?_, h1.locked ip, h1.mount ip⟩ fun D hD hip => ?_)
    · simp [Ledger.put, h1.ref]
    · refine h1.identity hD ?_
      simp only [Ledger.put, Pi.sub_apply, Pi.single_eq_same] at hip
      omega
  have hrecord : Shows w { s with trace := s.trace ++ [.iput ip (s.inode ip).ref] } c := by
    refine ⟨h.ref, h.locked, h.mount, h.tables, ?_, h.order, fun F hF => (h.puts F hF).append ?_⟩
    · rw [List.count_append, h.crossed]
      rfl
    · rintro _ _ hmem
      cases List.mem_singleton.1 hmem
      rw [h.ref]
      exact hip F hF
  simp only [iput, record, wlp_bind, wlp_gets, wlp_update]
  refine wlp_acquiresleep hrecord fun s1 hfree h1 => ?_
  simp only [wlp_ite]
  refine ⟨fun _ => ?_, fun _ => by simpa only [wlp_bind] using hend hfree h1⟩
  simp only [ifree, wlp_bind]
  refine wlp_quiet itrunc_quiet h1 fun _ s2 h2 => ?_
  refine wlp_setInode h2 (fun _ => ⟨rfl, rfl, rfl, rfl, rfl⟩) fun s3 h3 => ?_
  refine wlp_quiet iupdate_quiet h3 fun _ s4 h4 => ?_
  refine wlp_setInode h4 (fun _ => ⟨rfl, rfl, rfl, rfl, rfl⟩) fun s5 h5 => ?_
  simpa only [wlp_bind] using hend hfree h5

/-- Unlock and put what has been got and locked. -/
theorem wlp_iunlockput {Q : Unit → Fs → Prop} (h : Shows w s ((c.get ip).lock ip))
    (hip : ∀ F ∈ w.floor, F.count ip ≤ c.ref ip) (hfree : c.locked ip = false)
    (ok : ∀ s', Shows w s' c → Q () s') : wlp (iunlockput ip) Q s := by
  rw [iunlockput, wlp_bind]
  refine wlp_iunlock h fun s1 _ h1 => ?_
  rw [Ledger.unlock_lock (by exact hfree)] at h1
  refine wlp_iput h1 (fun F hF => ?_) fun s2 _ h2 => ok s2 ?_
  · rw [Ledger.get_ref_self]
    exact Int.lt_add_one_iff.2 (hip F hF)
  rwa [Ledger.put_get] at h2

theorem wlp_ialloc {type : Nat} {Q : Slot → Fs → Prop} (h : Shows w s c)
    (hdev : ∀ D ∈ w.devs, D dev) (ok : ∀ ip s', Shows w s' (c.get ip) → Q ip s') :
    wlp (ialloc dev type) Q s := by
  have hloop : ∀ sb k inum {s}, Shows w s c → wlp (iallocLoop dev sb type k inum) Q s := by
    intro sb k
    induction k with
    | zero => exact fun inum s _ => by simp [iallocLoop]
    | succ k ih =>
      intro inum s h
      simp only [iallocLoop, data, wlp_bind, wlp_gets, wlp_ite]
      refine wlp_quiet bread_quiet h fun bp s1 h1 => ⟨fun _ => ?_, fun _ => ?_⟩
      · refine wlp_quiet modifyData_quiet h1 fun _ s2 h2 => ?_
        refine wlp_quiet logWrite_quiet h2 fun _ s3 h3 => ?_
        refine wlp_quiet brelse_quiet h3 fun _ s4 h4 => ?_
        exact wlp_iget h4 hdev ok
      · exact wlp_quiet brelse_quiet h1 fun _ s2 h2 => ih _ h2
  simp only [ialloc, wlp_bind, wlp_gets]
  exact hloop _ _ _ h

/-! ## Contents -/

theorem wlp_await {Q : Option (List UInt8) → Fs → Prop} (h : Shows w s c)
    (ok : ∀ a s', Shows w s' c → Q a s') : wlp await Q s := by
  simp only [await, wlp_bind, wlp_gets]
  split
  · simp
  · simp only [wlp_bind, wlp_update, wlp_pure]
    exact ok _ _ (h.of_frame (fun _ => rfl) h.tables ⟨[], by simp, .nil⟩)

/-- The console lets go of the lock of its inode while it waits. -/
theorem wlp_consoleread {n : Int} {Q : Int × List UInt8 → Fs → Prop} (h : Shows w s c)
    (ok : ∀ a s', Shows w s' c → Q a s') : wlp (consoleread ip n) Q s := by
  simp only [consoleread, wlp_bind, wlp_ite]
  refine wlp_iunlock h fun s1 hlocked h1 => ⟨fun _ => wlp_await h1 fun r s2 h2 => ?_, fun _ => ?_⟩
  · refine wlp_ilock h2 fun s3 _ _ h3 => ?_
    rw [Ledger.lock_unlock hlocked] at h3
    split
    · exact wlp_pure.2 (ok _ _ h3)
    · exact wlp_pure.2 (ok _ _ h3)
  · refine wlp_ilock h1 fun s2 _ _ h2 => ?_
    rw [Ledger.lock_unlock hlocked] at h2
    exact wlp_pure.2 (ok _ _ h2)

theorem wlp_consolewrite {n : Int} {Q : Int → Fs → Prop} (h : Shows w s c)
    (ok : ∀ a s', Shows w s' c → Q a s') : wlp (consolewrite ip n) Q s := by
  simp only [consolewrite, wlp_bind, wlp_pure]
  refine wlp_iunlock h fun s1 hlocked h1 => wlp_ilock h1 fun s2 _ _ h2 => ?_
  rw [Ledger.lock_unlock hlocked] at h2
  exact ok _ _ h2

theorem wlp_readi {off n : UInt32} {Q : Int × List UInt8 → Fs → Prop} (h : Shows w s c)
    (ok : ∀ a s', Shows w s' c → Q a s') : wlp (readi ip off n) Q s := by
  simp only [readi, wlp_bind, wlp_gets, wlp_ite, wlp_pure]
  refine ⟨fun _ => ⟨fun _ => ok _ _ h, fun _ => wlp_consoleread h ok⟩,
    fun _ => ⟨fun _ => ok _ _ h, fun _ => ?_⟩⟩
  exact wlp_quiet readLoop_quiet h fun _ s' h' => ok _ s' h'

theorem wlp_writei {src : Nat → UInt8} {off n : UInt32} {Q : Int → Fs → Prop} (h : Shows w s c)
    (ok : ∀ a s', Shows w s' c → Q a s') : wlp (writei ip src off n) Q s := by
  simp only [writei, wlp_bind, wlp_gets, wlp_ite, wlp_pure]
  refine ⟨fun _ => ⟨fun _ => ok _ _ h, fun _ => wlp_consolewrite h ok⟩,
    fun _ => ⟨fun _ => ok _ _ h, fun _ =>
    ⟨fun _ => ok _ _ h, fun _ => ?_⟩⟩⟩
  refine wlp_quiet writeLoop_quiet h fun _ s1 h1 => ?_
  exact wlp_quiet grow_quiet h1 fun _ s2 h2 => ok _ s2 h2

/-! ## Directories -/

theorem wlp_readDirent {off : Nat} {msg : String} {Q : Dirent → Fs → Prop} (h : Shows w s c)
    (ok : ∀ a s', Shows w s' c → Q a s') : wlp (readDirent dp off msg) Q s := by
  simp only [readDirent, wlp_bind]
  refine wlp_readi h fun r s1 h1 => ?_
  simp only [wlp_ite, wlp_halt, wlp_pure]
  exact ⟨fun _ => trivial, fun _ => ok _ _ h1⟩

theorem wlp_dirscan {name : List UInt8} {Q : Option (Slot × Nat) → Fs → Prop} (h : Shows w s c)
    (hdp : ∀ D ∈ w.devs, 0 < c.ref dp) (absent : ∀ s', Shows w s' c → Q none s')
    (found : ∀ ip off s', Shows w s' (c.get ip) → Q (some (ip, off)) s') :
    wlp (dirscan dp name) Q s := by
  have hloop : ∀ k off {s} {Q : Option (Nat × Nat) → Fs → Prop}, Shows w s c →
      (∀ r s', Shows w s' c → Q r s') → wlp (dirlookupLoop dp name k off) Q s := by
    intro k
    induction k with
    | zero => exact fun off s Q _ _ => by simp [dirlookupLoop]
    | succ k ih =>
      intro off s Q h ok
      simp only [dirlookupLoop, wlp_bind, wlp_gets, wlp_ite, wlp_pure]
      refine ⟨fun _ => wlp_readDirent h fun de s1 h1 => ⟨fun _ => ih _ h1 ok, fun _ =>
        ⟨fun _ => ok _ _ h1, fun _ => ih _ h1 ok⟩⟩, fun _ => ok _ _ h⟩
  simp only [dirscan, wlp_bind, wlp_gets, wlp_ite, wlp_halt]
  refine ⟨fun _ => trivial, fun _ => hloop _ _ h fun r s1 h1 => ?_⟩
  cases r with
  | none => exact wlp_pure.2 (absent _ h1)
  | some r =>
    simp only [wlp_bind, wlp_pure]
    exact wlp_iget h1 (fun D hD => (h.order D hD).devs dp (hdp D hD)) fun ip s2 h2 =>
      found ip r.2 s2 h2

/-! ## Transactions and tables -/

theorem wlp_beginOp {Q : Unit → Fs → Prop} (h : Shows w s c) (ok : ∀ s', Shows w s' c → Q () s') :
    wlp beginOp Q s := by
  simp only [beginOp, record, wlp_bind, wlp_update]
  intro a s' hs'
  simp only [lift, Prod.mk.injEq] at hs'
  obtain ⟨-, rfl⟩ := hs'
  exact ok _ (h.of_frame (fun _ => rfl) h.tables ⟨[.beginOp], rfl, by simp [Silent]⟩)

theorem wlp_endOp {Q : Unit → Fs → Prop} (h : Shows w s c) (ok : ∀ s', Shows w s' c → Q () s') :
    wlp endOp Q s := by
  simp only [endOp, record, wlp_bind, wlp_update]
  intro a s' hs'
  simp only [lift, Prod.mk.injEq] at hs'
  obtain ⟨-, rfl⟩ := hs'
  exact ok _ (h.of_frame (fun _ => rfl) h.tables ⟨[.endOp], rfl, by simp [Silent]⟩)

theorem Shows.mountRoot (h : Shows w s c) : s.mountRoot = c.tables.mountRoot :=
  (congrArg Tables.mountRoot h.tables :)

theorem Shows.proc (h : Shows w s c) : s.proc = c.tables.proc := (congrArg Tables.proc h.tables :)

theorem Shows.file (h : Shows w s c) : s.file = c.tables.file := (congrArg Tables.file h.tables :)

/-- Change the tables. -/
def Ledger.withTables (c : Ledger) (t : Tables) : Ledger := { c with tables := t }

theorem wlp_setFile {f : Fin NFILE} {g : File → File} {Q : Unit → Fs → Prop} (h : Shows w s c)
    (ok : ∀ s', Shows w s' (c.withTables (c.tables.setFile f (g (c.tables.file f)))) → Q () s') :
    wlp (setFile f g) Q s := by
  simp only [setFile, wlp_update]
  refine ok _ ⟨h.ref, h.locked, h.mount, ?_, h.crossed, h.order, h.puts⟩
  rw [h.file, ← h.tables]
  rfl

theorem wlp_setProc {g : FsProc → FsProc} {Q : Unit → Fs → Prop} (h : Shows w s c)
    (ok : ∀ s', Shows w s' (c.withTables (c.tables.setProc p (g (c.tables.proc p)))) → Q () s') :
    wlp (setProc p g) Q s := by
  simp only [setProc, wlp_update]
  refine ok _ ⟨h.ref, h.locked, h.mount, ?_, h.crossed, h.order, h.puts⟩
  rw [h.proc, ← h.tables]
  rfl

/-! ## Paths -/

theorem wlp_deref {a : Option α} {Q : α → Fs → Prop} (ok : ∀ x, a = some x → Q x s) :
    wlp (deref a) Q s := by
  cases a with
  | none => simp [deref]
  | some x => exact wlp_pure.2 (ok x rfl)

/-- `namex` steps over a mount point, or not. -/
theorem wlp_crossMount {parent : Bool} {Q : Slot → Fs → Prop} (h : Shows w s (c.get ip))
    (hroot : ∀ D ∈ w.devs, ∀ root, c.tables.mountRoot = some root → 0 < c.ref root)
    (stay : ∀ s', (parent = false → c.mount ip = false) → Shows w s' (c.get ip) → Q ip s')
    (cross : ∀ root s', parent = false → c.mount ip = true → Shows w s' ((c.leak ip).get root) →
      Q root s') : wlp (crossMount parent ip) Q s := by
  simp only [crossMount, record, wlp_bind, wlp_gets, wlp_ite, wlp_pure, h.mount, h.mountRoot,
    Ledger.get_mount, Ledger.get_tables]
  refine ⟨fun hc => wlp_deref fun root hr => ?_, fun hc => stay _ (by simpa using hc) h⟩
  rw [Bool.and_eq_true, Bool.not_eq_true'] at hc
  have hcross : Shows w { s with trace := s.trace ++ [.crossMount] } (c.leak ip) := by
    refine ⟨h.ref, h.locked, h.mount, h.tables, ?_, h.order, fun F hF =>
      (h.puts F hF).append (by simp)⟩
    rw [List.count_append, h.crossed]
    rfl
  rw [wlp_update]
  refine wlp_idup hcross ?_ fun s' h' => cross root s' hc.1 hc.2 h'
  exact fun D hD => (hroot D hD root hr).trans_le Ledger.le_get_ref

/-- The ledger after `namex` has crossed the mount points of a list. -/
def Ledger.leaks (c : Ledger) (l : List Slot) : Ledger := l.foldl Ledger.leak c

/-- What `namex` assumes of the ledger, for what is followed: that what is mounted is in
use, and that no count is below the bound. -/
structure Ledger.Ready (c : Ledger) (w : Watch) : Prop where
  root : ∀ D ∈ w.devs, ∀ root, c.tables.mountRoot = some root → 0 < c.ref root
  floor : ∀ F ∈ w.floor, ∀ ip, F.count ip ≤ c.ref ip

theorem Ledger.Ready.get (h : c.Ready w) : (c.get ip).Ready w :=
  ⟨fun D hD root hr => (h.root D hD root hr).trans_le le_get_ref, fun F hF ip' =>
    (h.floor F hF ip').trans le_get_ref⟩

theorem Ledger.Ready.leak (h : c.Ready w) : (c.leak ip).Ready w := ⟨h.get.root, h.get.floor⟩

/-- `namex` returns the inode it has got, and none else, except that each mount point
it has crossed keeps a reference too. -/
theorem wlp_namexLoop {parent : Bool} {k : Nat} {path : List UInt8}
    {Q : Option (Slot × List UInt8) → Fs → Prop} (h : Shows w s (c.get ip)) (hc : c.Ready w)
    (absent : ∀ l s', (∀ mp ∈ l, parent = false ∧ c.mount mp = true) → Shows w s' (c.leaks l) →
      Q none s')
    (found : ∀ l ip name s', (∀ mp ∈ l, parent = false ∧ c.mount mp = true) →
      Shows w s' ((c.leaks l).get ip) → Q (some (ip, name)) s') :
    wlp (namexLoop parent k ip path) Q s := by
  induction k generalizing s c ip path with
  | zero => simp [namexLoop]
  | succ k ih =>
    have hfloor : ∀ F ∈ w.floor, F.count ip ≤ c.ref ip := fun F hF => hc.floor F hF ip
    unfold namexLoop
    split
    · simp only [wlp_ite, wlp_bind, wlp_pure]
      refine ⟨fun _ => wlp_iput h (fun F hF => ?_) fun s1 _ h1 => ?_,
        fun _ => found [] ip [] s (by simp) h⟩
      · rw [Ledger.get_ref_self]
        exact Int.lt_add_one_iff.2 (hfloor F hF)
      · rw [Ledger.put_get] at h1
        exact absent [] s1 (by simp) h1
    · simp only [wlp_bind, wlp_gets, wlp_ite, wlp_pure]
      refine wlp_ilock h fun s1 hip hfree h1 => ⟨fun _ => ?_, fun _ => ⟨fun _ => ?_, fun _ => ?_⟩⟩
      · exact wlp_iunlockput h1 hfloor hfree fun s2 h2 => absent [] s2 (by simp) h2
      · refine wlp_iunlock h1 fun s2 _ h2 => ?_
        rw [Ledger.unlock_lock hfree] at h2
        exact found [] ip _ s2 (by simp) h2
      · simp only [dirlookup, if_pos]
        refine wlp_dirscan h1 (fun _ _ => hip) (fun s2 h2 => ?_) fun next off s2 h2 => ?_
        · simp only [wlp_bind, wlp_pure]
          exact wlp_iunlockput h2 hfloor hfree fun s3 h3 => absent [] s3 (by simp) h3
        · simp only [wlp_bind]
          refine wlp_crossMount h2 hc.get.root (fun s3 _ h3 => ?_)
            fun root s3 hparent hmount h3 => ?_
          · refine wlp_iunlockput (c := c.get next) ?_ (fun F hF => hc.get.floor F hF ip)
              hfree fun s4 h4 =>
              ih h4 hc absent found
            rwa [Ledger.get_get_comm, Ledger.get_lock_comm]
          · have hcomm : ((((c.get ip).lock ip).leak next).get root) =
                (((c.leak next).get root).get ip).lock ip := by
              simp [Ledger.get, Ledger.leak, Ledger.lock, add_right_comm]
            rw [hcomm] at h3
            refine wlp_iunlockput h3 (fun F hF => hc.leak.get.floor F hF ip) hfree fun s4 h4 =>
              ih h4 hc.leak ?_ ?_
            · exact fun l s' hl => absent (next :: l) s'
                (List.forall_mem_cons.2 ⟨⟨hparent, hmount⟩, hl⟩)
            · exact fun l ip name s' hl =>
                found (next :: l) ip name s' (List.forall_mem_cons.2 ⟨⟨hparent, hmount⟩, hl⟩)

theorem wlp_cwd {Q : Slot → Fs → Prop} (h : Shows w s c)
    (ok : ∀ ip, (c.tables.proc p).cwd = some ip → Q ip s) : wlp (cwd p) Q s := by
  simp only [cwd, wlp_bind, wlp_gets, h.proc]
  exact wlp_deref ok

theorem wlp_namex {parent : Bool} {path : List UInt8} {Q : Option (Slot × List UInt8) → Fs → Prop}
    (h : Shows w s c) (hc : c.Ready w) (hdev : ∀ D ∈ w.devs, D dev)
    (hcwd : ∀ D ∈ w.devs, ∀ ip, (c.tables.proc p).cwd = some ip → 0 < c.ref ip)
    (absent : ∀ l s', (∀ mp ∈ l, parent = false ∧ c.mount mp = true) → Shows w s' (c.leaks l) →
      Q none s')
    (found : ∀ l ip name s', (∀ mp ∈ l, parent = false ∧ c.mount mp = true) →
      Shows w s' ((c.leaks l).get ip) → Q (some (ip, name)) s') :
    wlp (namex p dev path parent) Q s := by
  simp only [namex, namexStart, wlp_bind, wlp_ite]
  refine ⟨fun _ => wlp_iget h hdev fun ip s1 h1 => wlp_namexLoop h1 hc absent found, fun _ => ?_⟩
  refine wlp_cwd h fun ip hip => wlp_idup h (fun D hD => hcwd D hD ip hip) fun s1 h1 => ?_
  exact wlp_namexLoop h1 hc absent found

/-- The device of the working directory. -/
def cwdDev (s : Fs) (p : PId) : Nat := ((s.proc p).cwd.map fun ip => (s.inode ip).dev).getD 0

/-- `namei` leaves a mounted file system by its branch for that, or is `namex`. -/
theorem wlp_namei_cases {dev : Nat} {path : List UInt8} {Q : Option Slot → Fs → Prop}
    (leave : s.leavesMount p (if dev = 0 then s.cwdDev p else dev) path = true →
      wlp (leaveMount p) Q s)
    (stay : s.leavesMount p (if dev = 0 then s.cwdDev p else dev) path = false →
      wlp (namex p (if dev = 0 then s.cwdDev p else dev) path false)
        (fun r s' => Q (r.map Prod.fst) s') s) :
    wlp (namei p dev path) Q s := by
  have hdev : wlp (nameiDev p dev)
      (fun d s' => d = (if dev = 0 then s.cwdDev p else dev) ∧ s' = s) s := by
    simp only [nameiDev, cwd, wlp_ite, wlp_bind, wlp_gets, wlp_pure]
    refine ⟨fun hzero => wlp_deref fun ip hip => ⟨?_, rfl⟩, fun hne => ⟨(if_neg hne).symm, trivial⟩⟩
    rw [if_pos hzero, cwdDev, hip]
    rfl
  rw [namei, wlp_bind]
  refine hdev.mono ?_
  rintro _ _ ⟨rfl, rfl⟩
  simp only [wlp_bind, wlp_gets, wlp_ite, wlp_pure, Bool.not_eq_true]
  exact ⟨leave, stay⟩

end

end Xv6Rework.Fs
