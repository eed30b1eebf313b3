import Xv6Rework.Fs.Layout
import Mathlib.Data.List.GetD

/-!
# Names in directories

What `strncmp` and `strncpy` do with strings of at most `DIRSIZ` bytes and with longer
ones: a name is stored cut to `DIRSIZ` bytes, without a terminator if it has that many,
and two names compare as equal if they are stored as the same bytes.
-/

namespace Xv6Rework

section

variable {x y : List UInt8} {q : Nat → UInt8}

theorem cstr_ne_zero (hx : ∀ c ∈ x, c ≠ 0) {i : Nat} (hi : i < x.length) : cstr x i ≠ 0 := by
  rw [cstr, List.getD_eq_getElem _ _ hi]
  exact hx _ (List.getElem_mem hi)

theorem cstr_of_le {i : Nat} (hi : x.length ≤ i) : cstr x i = 0 := List.getD_eq_default _ _ hi

/-- `strncmp` tells strings apart that are no longer than the bound. -/
theorem strncmp_eq_zero {n i : Nat} (hx : ∀ c ∈ x, c ≠ 0) (hy : ∀ c ∈ y, c ≠ 0)
    (hxn : x.length ≤ i + n) (hyn : y.length ≤ i + n) (hq : ∀ j < i + n, q j = cstr y j) :
    strncmp (cstr x) q i n = 0 ↔ x.drop i = y.drop i := by
  induction n generalizing i with
  | zero =>
    exact iff_of_true rfl ((List.drop_eq_nil_of_le hxn).trans (List.drop_eq_nil_of_le hyn).symm)
  | succ n ih =>
    have hqi := hq i (by omega)
    have hstep : ∀ {z : List UInt8}, (∀ c ∈ z, c ≠ 0) →
        (cstr z i = 0 ∧ z.drop i = []) ∨ (cstr z i ≠ 0 ∧ z.drop i = cstr z i :: z.drop
          (i + 1)) := by
      intro z hz
      rcases Nat.lt_or_ge i z.length with hi | hi
      · refine .inr ⟨cstr_ne_zero hz hi, ?_⟩
        rw [List.drop_eq_getElem_cons hi, cstr, List.getD_eq_getElem _ _ hi]
      · exact .inl ⟨cstr_of_le hi, List.drop_eq_nil_of_le hi⟩
    rw [strncmp, hqi]
    rcases hstep hx with ⟨hx0, hxd⟩ | ⟨hx1, hxd⟩ <;> rcases hstep hy with ⟨hy0, hyd⟩ | ⟨hy1, hyd⟩
    · simp [hx0, hy0, hxd, hyd]
    · have hne : (cstr y i).toNat ≠ 0 := fun h => hy1 (UInt8.toNat_inj.1 h)
      simp [hx0, hxd, hyd, hne]
    · have hne : (cstr x i).toNat ≠ 0 := fun h => hx1 (UInt8.toNat_inj.1 h)
      simp [hy0, hx1, hxd, hyd, hne]
    · rw [hxd, hyd]
      by_cases heq : cstr x i = cstr y i
      · rw [if_pos ⟨hx1, heq⟩, ih (by omega) (by omega) fun j hj => hq j (by omega), heq]
        simp
      · rw [if_neg fun h => heq h.2]
        have hne : (cstr x i).toNat ≠ (cstr y i).toNat := fun h => heq (UInt8.toNat_inj.1 h)
        simp only [List.cons.injEq, heq, false_and, iff_false]
        omega

/-- `namecmp` tells names apart. -/
theorem namecmp_eq_zero (hx : ∀ c ∈ x, c ≠ 0) (hy : ∀ c ∈ y, c ≠ 0) (hxn : x.length ≤ DIRSIZ)
    (hyn : y.length ≤ DIRSIZ) (hq : ∀ j < DIRSIZ, q j = cstr y j) :
    namecmp (cstr x) q = 0 ↔ x = y := by
  have := strncmp_eq_zero (n := DIRSIZ) (i := 0) hx hy (by omega) (by omega) (by simpa using hq)
  simpa [namecmp] using this

/-- `strncpy` copies a string, as far as it goes, and pads it with zeros. -/
theorem getD_strncpy {n i j : Nat} (hx : ∀ c ∈ x, c ≠ 0) (hj : j < n) :
    (strncpy (cstr x) i n).getD j 0 = cstr x (i + j) := by
  induction n generalizing i j with
  | zero => omega
  | succ n ih =>
    rw [strncpy]
    split
    · next hzero =>
      have hlen : x.length ≤ i := by
        by_contra hlt
        exact cstr_ne_zero hx (by omega) hzero
      rw [cstr_of_le (by omega), List.getD_replicate _ hj]
    · cases j with
      | zero => simp
      | succ j => rw [List.getD_cons_succ, ih (by omega), Nat.add_right_comm, Nat.add_assoc]

theorem length_strncpy {t : Nat → UInt8} {i n : Nat} : (strncpy t i n).length = n := by
  induction n generalizing i with
  | zero => rfl
  | succ n ih =>
    rw [strncpy]
    split
    · exact List.length_replicate
    · rw [List.length_cons, ih]

theorem length_direntBytes {inum : Nat} {name : Nat → UInt8} :
    (direntBytes inum name).length = DIRENTSIZE := by
  rw [direntBytes, List.length_cons, List.length_cons, length_strncpy]
  rfl

/-- The entry that is read back from what is written for a name. -/
theorem Dirent.ofBytes_direntBytes {inum : Nat} (hx : ∀ c ∈ x, c ≠ 0) (hinum : inum < 2 ^ 16) :
    (Dirent.ofBytes (direntBytes inum (cstr x))).inum = inum ∧
      ∀ j < DIRSIZ, (Dirent.ofBytes (direntBytes inum (cstr x))).name j = cstr
      (x.take DIRSIZ) j := by
  refine ⟨?_, fun j hj => ?_⟩
  · simp only [Dirent.ofBytes, direntBytes, List.getD_cons_zero, List.getD_cons_succ,
      UInt8.toNat_ofNat']
    omega
  · have hcopy := getD_strncpy (i := 0) hx hj
    simp only [Dirent.ofBytes, direntBytes, Nat.add_comm 2 j, List.getD_cons_succ, hcopy,
      Nat.zero_add]
    simp [cstr, List.getD_eq_getElem?_getD, hj]

end

end Xv6Rework
