import Xv6Rework.Lib.Memory
import Xv6Rework.Mem.Vm
import Xv6Rework.Sched.State

/-!
# The table of processors

`arch/x86_32/mp/mp.c`: the search for the floating pointer structure, the checks on the
configuration table, and the loop of `mpinit` over its entries.  Memory is that of the machine,
by virtual address, and the firmware may have left anything in it.

The loop advances by the size of an entry that it knows.  For one that it does not know it only
notes that this is no suitable machine: `break` leaves the `switch`, not the loop, and the same
byte is looked at again, for ever.
-/

namespace Xv6Rework

open Prog Vm

namespace Mp

/-! ## Finding the table -/

/-- `P2V`. -/
def P2V (a : Nat) : Nat := add32 a KERNBASE

/-- A 16 bit number. -/
def half (mem : Memory) (a : Nat) : Nat := (mem a).toNat + 256 * (mem (a + 1)).toNat

/-- A word. -/
def word (mem : Memory) (a : Nat) : Nat := half mem a + 2 ^ 16 * half mem (a + 2)

/-- `sum`. -/
def sum (mem : Memory) (addr len : Nat) : UInt8 :=
  (List.range len).foldl (fun acc i => acc + mem (addr + i)) 0

/-- `memcmp(p, s, 4) == 0`. -/
def signed (mem : Memory) (p : Nat) (s : List UInt8) : Bool :=
  (List.range 4).map (fun i => mem (p + i)) == s

/-- `sizeof(struct mp)`. -/
def mpSize : Nat := 16

/-- `sizeof(struct mpconf)`. -/
def mpconfSize : Nat := 44

/-- `"_MP_"`. -/
def mpSignature : List UInt8 := [95, 77, 80, 95]

/-- `"PCMP"`. -/
def confSignature : List UInt8 := [80, 67, 77, 80]

/-- `mpsearch1`. -/
def mpsearch1 (mem : Memory) (a len : Nat) : Option Nat :=
  ((List.range ((len + (mpSize - 1)) / mpSize)).map fun i => P2V a + mpSize * i).find? fun p =>
    signed mem p mpSignature && sum mem p mpSize == 0

/-- `mpsearch`. -/
def mpsearch (mem : Memory) : Option Nat :=
  let bda := P2V 0x400
  let p := 2 ^ 4 * half mem (bda + 0x0E)
  let found :=
    if p ≠ 0 then
      mpsearch1 mem p 1024
    else
      mpsearch1 mem (sub32 (half mem (bda + 0x13) * 1024) 1024) 1024
  match found with
  | some mp => some mp
  | none => mpsearch1 mem 0xF0000 0x10000

/-- `conf->length`. -/
def length (mem : Memory) (conf : Nat) : Nat := half mem (conf + 4)

/-- `mpconfig`: the floating pointer structure and the table. -/
def mpconfig (mem : Memory) : Option (Nat × Nat) :=
  match mpsearch mem with
  | none => none
  | some mp =>
    let physaddr := word mem (mp + 4)
    if physaddr = 0 then none
    else
      let conf := P2V physaddr
      if !signed mem conf confSignature then none
      else if mem (conf + 6) ≠ 1 ∧ mem (conf + 6) ≠ 4 then none
      else if sum mem conf (length mem conf) ≠ 0 then none
      else some (mp, conf)

/-! ## The entries -/

/-- The types of entries. -/
inductive Entry where
  | proc
  | bus
  | ioapic
  | iointr
  | lintr
  | unknown
deriving DecidableEq, Repr

/-- The type of an entry, by its first byte. -/
def Entry.ofByte (b : UInt8) : Entry :=
  match b.toNat with
  | 0 => .proc
  | 1 => .bus
  | 2 => .ioapic
  | 3 => .iointr
  | 4 => .lintr
  | _ => .unknown

/-- What `mpinit` stores: the `apicid` of `cpus[0]` to `cpus[ncpu - 1]`, `ioapicid`, `lapic`,
and whether the interrupt mode register has been set. -/
structure Cpus where
  apicids : List UInt8
  ioapicid : UInt8
  lapic : Nat
  imcr : Bool

/-- `ncpu`. -/
def Cpus.ncpu (c : Cpus) : Nat := c.apicids.length

/-- Code that stores to these. -/
abbrev MpM := Prog Cpus

/-- The loop of `mpinit` over the entries from `p` to `e`: `ismp`. -/
def scan (mem : Memory) (e : Nat) : Nat → Nat → Bool → MpM Bool
  | 0, _, _ => stop .hang
  | k + 1, p, ismp => do
    if p < e then
      match Entry.ofByte (mem p) with
      | .proc =>
        if (← gets Cpus.ncpu) < NCPU then
          update fun c => { c with apicids := c.apicids ++ [mem (p + 1)] }
        scan mem e k (p + 20) ismp
      | .ioapic =>
        update fun c => { c with ioapicid := mem (p + 1) }
        scan mem e k (p + 8) ismp
      | .bus => scan mem e k (p + 8) ismp
      | .iointr => scan mem e k (p + 8) ismp
      | .lintr => scan mem e k (p + 8) ismp
      | .unknown => scan mem e k p false
    else
      pure ismp

/-- `mpinit`, with at most `k` rounds of its loop. -/
def mpinit (mem : Memory) (k : Nat) : MpM Unit := do
  match mpconfig mem with
  | none => halt "Expect to run on an SMP"
  | some (mp, conf) =>
    update fun c => { c with lapic := word mem (conf + 36) }
    let ismp ← scan mem (conf + length mem conf) k (conf + mpconfSize) true
    if !ismp then
      halt "Didn't find a suitable machine"
    if mem (mp + 12) ≠ 0 then
      update fun c => { c with imcr := true }

/-! ## Which entries are met -/

/-- The size of an entry. -/
def Entry.size : Entry → Option Nat
  | .proc => some 20
  | .unknown => none
  | _ => some 8

/-- The entry at `q` is met from `p` on: the entries before it are known. -/
inductive Meets (mem : Memory) (e : Nat) : Nat → Nat → Prop
  | /-- The entry itself. -/
    here {p : Nat} : Meets mem e p p
  | /-- The one behind a known entry. -/
    next {p q k : Nat} (lt : p < e) (size : (Entry.ofByte (mem p)).size = some k)
      (rest : Meets mem e (p + k) q) : Meets mem e p q

/-- An entry of unknown type is met, from `p` on. -/
def MeetsUnknown (mem : Memory) (e p : Nat) : Prop :=
  ∃ q, Meets mem e p q ∧ q < e ∧ Entry.ofByte (mem q) = .unknown

section

variable {mem : Memory} {e p q k n : Nat} {b : Bool} {c : Cpus}

theorem size_pos (h : (Entry.ofByte (mem p)).size = some n) : 0 < n := by
  cases hb : Entry.ofByte (mem p) <;> rw [hb] at h <;> cases h <;> decide

theorem unknown_of_size {t : Entry} (h : t.size = none) : t = .unknown := by
  cases t <;> first | rfl | cases h

/-- A round on a known entry goes on behind it. -/
theorem scan_known (hp : p < e) (h : (Entry.ofByte (mem p)).size = some n) :
    ∃ c' : Cpus, (c.ncpu ≤ NCPU → c'.ncpu ≤ NCPU) ∧
      scan mem e (k + 1) p b c = scan mem e k (p + n) b c' := by
  rw [scan, if_pos hp]
  cases hb : Entry.ofByte (mem p) <;> rw [hb] at h <;> cases h
  case proc =>
    simp only
    by_cases hlt : c.ncpu < NCPU
    · refine ⟨{ c with apicids := c.apicids ++ [mem (p + 1)] }, fun _ => ?_, ?_⟩
      · simpa [Cpus.ncpu] using Nat.succ_le_of_lt hlt
      · simp [hlt]
    · exact ⟨c, id, by simp [hlt]⟩
  case ioapic => exact ⟨{ c with ioapicid := mem (p + 1) }, id, rfl⟩
  all_goals exact ⟨c, id, rfl⟩

/-- A round on an unknown entry stays where it is. -/
theorem scan_unknown (hp : p < e) (h : Entry.ofByte (mem p) = .unknown) :
    scan mem e (k + 1) p b c = scan mem e k p false c := by
  rw [scan, if_pos hp, h]

/-- An unknown entry is never left. -/
theorem scan_stuck (hp : p < e) (h : Entry.ofByte (mem p) = .unknown) :
    (scan mem e k p b c).1 = .error .hang := by
  induction k generalizing b with
  | zero => rfl
  | succ k ih => rw [scan_unknown hp h, ih]

theorem Meets.hang (hm : Meets mem e p q) (hq : q < e) (h : Entry.ofByte (mem q) = .unknown) :
    (scan mem e k p b c).1 = .error .hang := by
  induction hm generalizing k c with
  | here => exact scan_stuck hq h
  | next hlt hsize _ ih =>
    cases k with
    | zero => rfl
    | succ k =>
      obtain ⟨c', -, hround⟩ := scan_known (c := c) (k := k) (b := b) hlt hsize
      rw [hround, ih hq h]

/-- Where all entries are known the loop comes to the end of the table, in at most as many
rounds as the table has bytes. -/
theorem scan_returns (hno : ¬MeetsUnknown mem e p) :
    (scan mem e k p b c).1 = .ok b ∨ (scan mem e k p b c).1 = .error .hang ∧ k ≤ e - p := by
  induction k generalizing p c with
  | zero => exact .inr ⟨rfl, Nat.zero_le _⟩
  | succ k ih =>
    by_cases hp : p < e
    · cases hsize : (Entry.ofByte (mem p)).size with
      | none =>
        exact absurd ⟨p, .here, hp, unknown_of_size hsize⟩ hno
      | some n =>
        have hpos := size_pos hsize
        obtain ⟨c', -, hround⟩ := scan_known (c := c) (k := k) (b := b) hp hsize
        rw [hround]
        refine (ih fun ⟨q, hm, hq⟩ => hno ⟨q, .next hp hsize hm, hq⟩).imp_right
          fun ⟨hhang, hle⟩ => ⟨hhang, ?_⟩
        omega
    · exact .inl (by rw [scan, if_neg hp]; rfl)

/-- The array of processors is never written beyond its end. -/
theorem scan_ncpu (h : c.ncpu ≤ NCPU) : (scan mem e k p b c).2.ncpu ≤ NCPU := by
  induction k generalizing p b c with
  | zero => exact h
  | succ k ih =>
    by_cases hp : p < e
    · cases hsize : (Entry.ofByte (mem p)).size with
      | none =>
        rw [scan_unknown hp (unknown_of_size hsize)]
        exact ih h
      | some n =>
        obtain ⟨c', hc', hround⟩ := scan_known (c := c) (k := k) (b := b) hp hsize
        rw [hround]
        exact ih (hc' h)
    · rw [scan, if_neg hp]
      exact h

/-! ## The call -/

/-- `mpinit` behaves: its loop ends, whatever the number of rounds it never has more than `NCPU`
processors, and it panics if it has met an entry of unknown type, and only then. -/
structure ScansTable (mem : Memory) (conf : Nat) (c : Cpus) : Prop where
  ends : ∃ k, (mpinit mem k c).1 ≠ .error .hang
  bounded : ∀ k, (mpinit mem k c).2.ncpu ≤ NCPU
  panics : (∃ k, (mpinit mem k c).1 = .error (.panic "Didn't find a suitable machine")) ↔
    MeetsUnknown mem (conf + length mem conf) (conf + mpconfSize)

/-- What comes behind the loop keeps the processors. -/
theorem mpinit_eq {mp conf : Nat} (h : mpconfig mem = some (mp, conf)) :
    ∃ c1 : Cpus, c1.ncpu = c.ncpu ∧ ∀ k r c2,
      scan mem (conf + length mem conf) k (conf + mpconfSize) true c1 = (r, c2) →
      (mpinit mem k c).2.ncpu = c2.ncpu ∧
        (r = .ok true → (mpinit mem k c).1 = .ok ()) ∧
        (r = .error .hang → (mpinit mem k c).1 = .error .hang) := by
  refine ⟨{ c with lapic := word mem (conf + 36) }, rfl, fun k r c2 hscan => ?_⟩
  have hrun : mpinit mem k c = (do
      let ismp ← scan mem (conf + length mem conf) k (conf + mpconfSize) true
      if !ismp then halt "Didn't find a suitable machine"
      if mem (mp + 12) ≠ 0 then update fun c => { c with imcr := true } : MpM Unit)
        { c with lapic := word mem (conf + 36) } := by
    rw [mpinit, h]
    rfl
  rw [hrun, bind_apply, hscan]
  rcases r with e | ismp
  · refine ⟨rfl, (by rintro ⟨⟩), ?_⟩
    rintro ⟨⟩
    rfl
  · cases ismp <;> by_cases himcr : mem (mp + 12) = 0 <;> simp [himcr, Cpus.ncpu]

/-- The loop ends, and `mpinit` behaves, exactly if no entry of unknown type is met. -/
theorem scansTable_iff {mp conf : Nat} (h : mpconfig mem = some (mp, conf)) (hc : c.ncpu ≤ NCPU) :
    ScansTable mem conf c ↔ ¬MeetsUnknown mem (conf + length mem conf) (conf + mpconfSize) := by
  obtain ⟨c1, hc1, hinit⟩ := mpinit_eq (c := c) h
  constructor
  · rintro hscans ⟨q, hm, hq, hb⟩
    obtain ⟨k, hk⟩ := hscans.ends
    exact hk ((hinit k _ _ rfl).2.2 (hm.hang hq hb))
  · intro hno
    have hresult : ∀ k, (mpinit mem k c).1 = .ok () ∨
        (mpinit mem k c).1 = .error .hang ∧ k ≤ conf + length mem conf - (conf + mpconfSize) :=
        fun k =>
      (scan_returns hno).imp (hinit k _ _ rfl).2.1 (And.imp_left (hinit k _ _ rfl).2.2)
    refine ⟨⟨conf + length mem conf - (conf + mpconfSize) + 1, fun hhang => ?_⟩,
      fun k => ?_, iff_of_false ?_ hno⟩
    · rcases hresult _ with hok | ⟨-, hle⟩
      · cases hhang.symm.trans hok
      · omega
    · rw [(hinit k _ _ rfl).1]
      exact scan_ncpu (hc1.le.trans hc)
    · rintro ⟨k, hpanic⟩
      rcases hresult k with hok | ⟨hhang, -⟩
      · cases hpanic.symm.trans hok
      · cases hpanic.symm.trans hhang

end

/-- A machine whose firmware has left a table with these entries, with the checksum and the
length that belong to them. -/
def machine (check length : UInt8) (entries : List UInt8) : Memory :=
  ((Memory.put (fun _ => 0) (P2V 0x40E) [1, 0]).put (P2V 0x10)
    (mpSignature ++ [0, 0x10, 0, 0, 1, 4, 144])).put (P2V 0x1000)
    (confSignature ++ [length, 0, 4, check] ++ List.replicate 36 0 ++ entries)

/-- No processor has been found yet. -/
def noCpus : Cpus := ⟨[], 0, 0, false⟩

/-- One processor. -/
theorem scansTable_one : ScansTable (machine 133 64 [0, 7]) (P2V 0x1000) noCpus := by
  have hconf : mpconfig (machine 133 64 [0, 7]) = some (P2V 0x10, P2V 0x1000) := by decide +kernel
  refine (scansTable_iff hconf (by decide)).2 ?_
  have hend : P2V 0x1000 + length (machine 133 64 [0, 7]) (P2V 0x1000) =
      P2V 0x1000 + mpconfSize + 20 := by
    decide +kernel
  have hsize : (Entry.ofByte (machine 133 64 [0, 7] (P2V 0x1000 + mpconfSize))).size = some 20 := by
    decide +kernel
  rw [hend]
  rintro ⟨q, hm, hq, hb⟩
  cases hm with
  | here =>
    rw [hb] at hsize
    cases hsize
  | next _ hsize' hrest =>
    cases hsize.symm.trans hsize'
    cases hrest with
    | here => exact absurd hq (Nat.lt_irrefl _)
    | next hlt => exact absurd hlt (Nat.lt_irrefl _)

/-- An entry of type 5. -/
theorem not_scansTable_five : mpconfig (machine 147 52 [5]) = some (P2V 0x10, P2V 0x1000) ∧
    ∀ k, (mpinit (machine 147 52 [5]) k noCpus).1 = .error .hang := by
  have hconf : mpconfig (machine 147 52 [5]) = some (P2V 0x10, P2V 0x1000) := by decide +kernel
  obtain ⟨c1, -, hinit⟩ := mpinit_eq (c := noCpus) hconf
  exact ⟨hconf, fun k => (hinit k _ _ rfl).2.2 (scan_stuck (by decide +kernel) (by decide +kernel))⟩

end Mp

end Xv6Rework
