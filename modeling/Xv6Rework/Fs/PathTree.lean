import Xv6Rework.Fs.Bracket
import Xv6Rework.User.MkfsKernel

/-!
# Which lookups own their result

Whether a lookup owns its result and nothing else can be told before it runs, from the
directories and from the mount points.  `Looks` says what a path comes to in a state whose caches
agree with its disks.  A lookup that comes to an inode or to none owns its result.  One that
comes to a mount point first, or that leaves a mounted file system, does not.
-/

namespace Xv6Rework.Fs

open Prog

/-! ## What a path comes to -/

/-- The volumes are on the drives of the state and its caches agree with them, and what the mount
table points to is in use. -/
structure Coherent (D : Drives) (vol : Volumes) (s : Fs) : Prop where
  disk : Disk D s vol [] none
  intact : ∀ d ∈ D, (vol d).Intact (s.superblock d)
  placed : Placed s
  marked : ∀ e, (s.inode e).isMountPoint = true → 0 < (s.inode e).ref
  root : ∀ e, s.mountRoot = some e → 0 < (s.inode e).ref

/-- What the lookup of a path comes to on the device `d`, as the state is before it. -/
def Looks (s : Fs) (p : PId) (dev : Nat) (path : List UInt8) (d : Nat) (g : Comes) : Prop :=
  ∃ D vol, Coherent D vol s ∧ s.Resolves D vol p dev path d g

/-- A lookup that stays where it is: it does not leave a mounted file system, and the path comes to
an inode or to none without a mount point on its way. -/
def Lookup.Plain (p : PId) (s : Fs) : Lookup → Prop
  | .namei path => s.leavesMount p (s.cwdDev p) path = false ∧
      ∃ d g, s.Looks p (s.cwdDev p) path d g ∧ g ≠ .crosses
  | .nameiparent _ => True

section

variable {E : Stop → Prop} {log : Log} {D : Drives} {sb : Nat → Superblock} {vol : Volumes}
  {c : Ledger} {s s' t : Fs} {p : PId} {dev d : Nat} {path : List UInt8} {g : Comes}
  {r : Option Slot}

theorem Coherent.rest (h : Coherent D vol s) :
    Rest (fun _ => True) s.store.log D s.superblock vol (ledger s) s :=
  ⟨.inl trivial, h.disk, rfl, h.intact, h.placed, shows_ledger rfl unwatched⟩

/-- A mount point is crossed exactly if the path comes to one. -/
theorem Arrives.crossed (h : Arrives E log D sb vol c t d g r s) :
    s.trace.count .crossMount = c.crossed ↔ g ≠ .crosses := by
  cases g with
  | crosses => exact iff_of_false (Nat.ne_of_gt h) (absurd rfl)
  | fails =>
    obtain ⟨-, hrest⟩ := h
    exact iff_of_true hrest.shows.crossed (by rintro ⟨⟩)
  | finds j =>
    obtain ⟨ip, -, hrest, -⟩ := h
    exact iff_of_true hrest.shows.crossed (by rintro ⟨⟩)

end

/-! ## A mounted disk -/

/-- A new directory, with nothing mounted. -/
def dirFs : Fs := (sysMkdir init (some dirM) booted).2

end Xv6Rework.Fs
