import Xv6Rework.Fs.Refs
import Xv6Rework.Lib.Count

/-!
# What a path lookup owns

A lookup that returns an inode returns a reference to it, and should leave everything
else as it was: the working directory of its caller, and all other reference counts.
In any state, whatever is mounted, `nameiparent` does.  `namei` does not where it leaves a mounted
file system by the branch it has for that, nor where it crosses a mount point: the branch sets
the caller's working directory and drops two references to the old one, and each crossing keeps
a reference to the mount point.
-/

namespace Xv6Rework.Fs

open Prog

/-- The lookups of a system call. -/
inductive Lookup where
  | namei (path : List UInt8)
  | nameiparent (path : List UInt8)

/-- Run a lookup. -/
def Lookup.run (p : PId) : Lookup → FsM (Option Slot)
  | .namei path => Fs.namei p 0 path
  | .nameiparent path => do
    let r ← Fs.nameiparent p 0 path
    pure (r.map Prod.fst)

/-- The number of working directories and entries of the mount table that point to an
inode. -/
def pointers (t : Tables) (ip : Slot) : Nat :=
  count (fun x : FsProc => x.cwd = some ip) t.proc + (if t.mountPoint = some ip then 1 else 0) +
    if t.mountRoot = some ip then 1 else 0

/-- What a state shows. -/
def ledger (s : Fs) : Ledger :=
  ⟨fun ip => (s.inode ip).ref, fun ip => (s.inode ip).locked, fun ip => (s.inode ip).isMountPoint,
    { s.toTables with io := [] }, s.trace.count .crossMount⟩

/-- Nothing but the ledger is followed. -/
def ledgerOnly : Watch := ⟨none, none⟩

section

variable {s s' : Fs} {p : PId} {c : Ledger} {w : Watch} {l : List Slot} {ip : Slot}

theorem shows_ledger (hdevs : w.devs = none) (hputs : ∀ F ∈ w.floor, F.Holds s.trace) :
    Shows w s (ledger s) :=
  ⟨fun _ => rfl, fun _ => rfl, fun _ => rfl, rfl, rfl, fun D hD => by simp [hdevs] at hD, hputs⟩

theorem Ledger.leaks_tables : (c.leaks l).tables = c.tables := by
  induction l generalizing c with
  | nil => rfl
  | cons mp l ih => exact ih

theorem Ledger.leaks_crossed : (c.leaks l).crossed = c.crossed + l.length := by
  induction l generalizing c with
  | nil => rfl
  | cons mp l ih => exact ih.trans (Nat.succ_add_eq_add_succ _ _)

theorem Ledger.le_leaks_ref : c.ref ip ≤ (c.leaks l).ref ip := by
  induction l generalizing c with
  | nil => exact le_rfl
  | cons mp l ih => exact Ledger.le_get_ref.trans (ih (c := c.leak mp))

/-- The ledger when a lookup returns. -/
def Ledger.result (c : Ledger) : Option Slot → Ledger
  | none => c
  | some ip => c.get ip

theorem Ledger.result_crossed {r : Option Slot} : (c.result r).crossed = c.crossed := by
  cases r <;> rfl

/-- `namex` with the result it owns. -/
theorem wlp_namex_result {parent : Bool} {dev : Nat} {path : List UInt8}
    {Q : Option (Slot × List UInt8) → Fs → Prop} (h : Shows w s c) (hdevs : w.devs = none)
    (hc : c.Ready w)
    (ok : ∀ r l s', (parent = true → l = []) → Shows w s' ((c.leaks l).result (r.map Prod.fst)) →
      Q r s') : wlp (namex p dev path parent) Q s := by
  have hl : ∀ l : List Slot, (∀ mp ∈ l, parent = false ∧ c.mount mp = true) → parent =
      true → l = [] := by
    rintro l hl rfl
    exact List.eq_nil_iff_forall_not_mem.2 fun mp hmp => nomatch (hl mp hmp).1
  refine wlp_namex h hc (by simp [hdevs]) (by simp [hdevs]) ?_ ?_
  · exact fun l s' hmount h' => ok none l s' (hl l hmount) h'
  · exact fun l ip name s' hmount h' => ok (some (ip, name)) l s' (hl l hmount) h'

end

end Xv6Rework.Fs
