import Xv6Rework.Kernel.Frames

/-!
# `growproc`

`growproc` moves the end of a process's memory by a signed amount.  The sizes it
computes with are unsigned, and 0 is both a size and the error code of `allocuvm` and
`deallocuvm`.  It does what it should exactly when it is not asked to take away all of
the memory there is or more: taking away all of it frees the pages and returns -1, and
taking away more returns 0 and does nothing.
-/

namespace Xv6Rework.Kernel

open Prog Vm

variable {I : Layout} {k : Kernel} {p : PId} {d : Nat} {n : Int} {F : Finset Nat}
  {S : Multiset Space} {lo : Multiset Nat}

/-- `growproc` returns 0 and the memory ends `n` bytes further on, with new pages full of
zeros and the pages that stay as they were, or it returns -1 and nothing has changed. -/
def GrowExact (I : Layout) (k : Kernel) (p : PId) (d : Nat) (n : Int) : Prop :=
  ∃ r k', growproc I p n k = (.ok r, k') ∧
    (r = true → (k'.sz p : Int) = k.sz p + n ∧ (k'.mem.space d).Covers (k'.sz p) ∧
      (∀ w, w * PGSIZE < min (k.sz p) (k'.sz p) → (k'.mem.space d).maps w =
      (k.mem.space d).maps w) ∧ ∀ w, pageUp (k.sz p) ≤ w → w < pageUp (k'.sz p) →
        ∃ f, (k'.mem.space d).maps w = some (.of PTE_WU f .zero)) ∧
    (r = false → k'.sz p = k.sz p ∧ (k'.mem.space d).maps = (k.mem.space d).maps)

/-- The size after `growproc`, or `none` if it returns -1; `fits` says up to which sizes there are
pages. -/
def newSize (fits : Nat → Bool) (sz : Nat) (n : Int) : Option Nat :=
  if n > 0 then
    let newsz := add32 sz n.toNat
    if newsz < KERNBASE ∧ fits newsz then some newsz else none
  else if n < 0 then
    let newsz := min sz (sub32 sz (-n).toNat)
    if newsz = 0 then none else some newsz
  else some sz

theorem newSize_lt {fits : Nat → Bool} {sz sz' : Nat} (hsz : sz < KERNBASE)
    (h : newSize fits sz n = some sz') : sz' < KERNBASE := by
  simp only [newSize] at h
  split_ifs at h with hn hfits hneg h0 <;> cases h
  · exact hfits.1
  · exact lt_of_le_of_lt (Nat.min_le_left _ _) hsz
  · exact hsz

/-- The address space of a directory is what the ledger says it is. -/
theorem maps_space {m : Mem} {sp : Space} (h : Heap F m (sp ::ₘ S) lo) :
    (m.space sp.dir).maps = sp.maps := by
  rw [h.maps_eq, Space.maps]
  rfl

section

variable (hd : k.pgdir p = some d) (hF : F ⊆ I.managed)
  (h : Heap F k.mem (k.mem.space d ::ₘ S) lo) (hsz : k.sz p < KERNBASE)

include hd hF h hsz

/-- Growing. -/
theorem growproc_up (hn : 0 < n) (hn' : n < 2 ^ 31) (hcov : (k.mem.space d).Covers (k.sz p)) :
    GrowExact I k p d n := by
  have hnew : add32 (k.sz p) n.toNat = k.sz p + n.toNat := by
    have hK := kernbase_eq
    simp only [add32]
    omega
  have hstep : wp (growproc I p n) (fun r k' => (r = true → (k'.sz p : Int) = k.sz p + n ∧
      ∃ sp', (k.mem.space d).Extended k.mem.freelist (pageUp (k.sz p)) (pageUp (k'.sz p)) sp' ∧
        Heap F k'.mem (sp' ::ₘ S) lo) ∧ (r = false → k'.sz p = k.sz p ∧
      ∃ sp' : Space, sp'.dir = d ∧ sp'.maps = (k.mem.space d).maps ∧ Heap F k'.mem (sp' ::ₘ S) lo))
      (fun _ _ => False) k := by
    simp only [growproc, wp_bind, wp_gets, hd, deref, wp_pure, wp_ite, wp_onMem, wp_update, hnew]
    refine ⟨fun _ => ?_, fun hn' => absurd hn hn'⟩
    by_cases hk : KERNBASE ≤ k.sz p + n.toNat
    · rw [allocuvm_high hk]
      exact ⟨fun _ => ⟨(by rintro ⟨⟩), fun _ => ⟨trivial, _, rfl, rfl, h⟩⟩, fun hn => absurd rfl hn⟩
    · refine (wp_allocuvm hF (Nat.le_add_right _ _) (not_le.mp hk) h
        (hcov.bare (not_le.mp hk))).mono ?_ fun _ _ h => h
      rintro r m' (⟨rfl, sp', hext, h', -⟩ | ⟨rfl, sp', hdir, hmaps, h', -⟩)
      · refine ⟨fun h0 => by omega, fun _ => ⟨fun _ => ?_, (by rintro ⟨⟩)⟩⟩
        simp only [setSz, Function.update_self]
        exact ⟨by omega, sp', hext, h'⟩
      · exact ⟨fun _ => ⟨(by rintro ⟨⟩), fun _ => ⟨trivial, sp', hdir, hmaps, h'⟩⟩,
          fun hn => absurd rfl hn⟩
  obtain ⟨r, k', hrun, htrue, hfalse⟩ := hstep.exists_ok
  refine ⟨r, k', hrun, fun hr => ?_, fun hr => ?_⟩
  · obtain ⟨hsz', sp', hext, h'⟩ := htrue hr
    have hmaps := maps_space h'
    rw [hext.dir_eq, Mem.dir_space] at hmaps
    have hcov' := hext.covers hcov (by omega)
    refine ⟨hsz', fun w hw => by rw [hmaps]; exact hcov' w hw, fun w hw => ?_, fun w hw hw' => ?_⟩
    · rw [hmaps]
      refine hext.old w fun hn => ?_
      have := pageUp_le.mp hn.1
      omega
    · obtain ⟨f, -, hf⟩ := hext.new w hw hw'
      exact ⟨f, by rw [hmaps, hf]⟩
  · obtain ⟨hsz', sp', hdir, hmaps, h'⟩ := hfalse hr
    have := maps_space h'
    rw [hdir] at this
    exact ⟨hsz', this.trans hmaps⟩

/-- Shrinking: what `deallocuvm` returns is the new size, and counts as an error when it
is 0. -/
theorem growproc_down (hn : n < 0) : ∃ k' sp',
    growproc I p n k = (.ok (decide (min (k.sz p) (sub32 (k.sz p) (-n).toNat) ≠ 0)), k') ∧
    (min (k.sz p) (sub32 (k.sz p) (-n).toNat) ≠ 0 →
      k'.sz p = min (k.sz p) (sub32 (k.sz p) (-n).toNat)) ∧
    (min (k.sz p) (sub32 (k.sz p) (-n).toNat) = 0 → k'.sz p = k.sz p) ∧
    (k.mem.space d).Freed sp' (pageUp (sub32 (k.sz p) (-n).toNat)) (k.sz p) ∧
    (k'.mem.space d).maps = sp'.maps := by
  have hstep : wp (growproc I p n) (fun r k' =>
      r = decide (min (k.sz p) (sub32 (k.sz p) (-n).toNat) ≠ 0) ∧
      (min (k.sz p) (sub32 (k.sz p) (-n).toNat) ≠ 0 →
        k'.sz p = min (k.sz p) (sub32 (k.sz p) (-n).toNat)) ∧
      (min (k.sz p) (sub32 (k.sz p) (-n).toNat) = 0 → k'.sz p = k.sz p) ∧
      ∃ sp', (k.mem.space d).Freed sp' (pageUp (sub32 (k.sz p) (-n).toNat)) (k.sz p) ∧
        Heap F k'.mem (sp' ::ₘ S) lo) (fun _ _ => False) k := by
    simp only [growproc, wp_bind, wp_gets, hd, deref, wp_pure, wp_ite, wp_onMem, wp_update]
    refine ⟨fun hn' => by omega, fun _ => ⟨fun _ => ?_, fun hn' => absurd hn hn'⟩⟩
    refine (wp_deallocuvm hF hsz.le h).mono ?_ fun _ _ h => h
    rintro _ m' ⟨rfl, sp', hfr, h'⟩
    refine ⟨fun h0 => ⟨by simp [h0], fun hn => absurd h0 hn, fun _ => trivial, sp', hfr, h'⟩,
      fun h0 =>
      ⟨by simp [h0], fun _ => by simp [setSz], fun h0' => absurd h0' h0, sp', hfr, h'⟩⟩
  obtain ⟨r, k', hrun, rfl, hnz, hz, sp', hfr, h'⟩ := hstep.exists_ok
  have hmaps := maps_space h'
  rw [hfr.dir_eq, Mem.dir_space] at hmaps
  exact ⟨k', sp', hrun, hnz, hz, hfr, hmaps⟩

/-- Taking away some of the memory. -/
theorem growproc_part (hcov : (k.mem.space d).Covers (k.sz p)) (hn : n < 0) (hlt : -n < k.sz p) :
    GrowExact I k p d n := by
  have hK := kernbase_eq
  obtain ⟨k', sp', hrun, hnz, -, hfr, hmaps⟩ := growproc_down hd hF h hsz hn
  have hnew : sub32 (k.sz p) (-n).toNat = k.sz p - (-n).toNat := by simp only [sub32]; omega
  rw [hnew, Nat.min_eq_right (Nat.sub_le _ _)] at hrun hnz
  rw [hnew] at hfr
  have hsz' := hnz (by omega)
  refine ⟨_, k', hrun, fun _ => ⟨by omega, fun w hw => ?_, fun w hw => ?_, fun w hw hw' => ?_⟩,
    fun hr => ?_⟩
  · rw [hmaps, hfr.maps_eq, hsz']
    split
    next hin =>
      have := pageUp_le.mp hin.1
      simp only [ne_eq, not_true_eq_false, false_iff]
      omega
    next hout =>
      rw [hcov w hw]
      rw [pageUp_le] at hout
      omega
  · rw [hmaps, hfr.maps_eq, if_neg]
    rw [pageUp_le]
    omega
  · have := pageUp_le.mp hw
    have := lt_pageUp.mp hw'
    omega
  · simp only [decide_eq_false_iff_not, ne_eq, Decidable.not_not] at hr
    omega

/-- Taking away all of it: the pages are gone and the result is -1. -/
theorem growproc_all (hcov : (k.mem.space d).Covers (k.sz p)) (hn : n < 0) (heq : -n = k.sz p) :
    ¬GrowExact I k p d n := by
  have hK := kernbase_eq
  obtain ⟨k', sp', hrun, -, -, hfr, hmaps⟩ := growproc_down hd hF h hsz hn
  have hnew : sub32 (k.sz p) (-n).toNat = 0 := by simp only [sub32]; omega
  rw [hnew, Nat.min_zero] at hrun
  rw [hnew] at hfr
  rintro ⟨r, k'', hrun', -, hfalse⟩
  cases hrun.symm.trans hrun'
  have hgone : sp'.maps 0 = none := hfr.gone (pageUp_le.mpr (Nat.zero_le _)) (by omega)
  rw [← hmaps, (hfalse (by simp)).2] at hgone
  exact (hcov 0 (by simp [KERNPAGE])).mpr (by omega) hgone

/-- Taking away more than there is: the new size wraps around, and what `deallocuvm` returns is
the old one. -/
theorem growproc_more (hn : n < 0) (hn' : -2 ^ 31 ≤ n) (hgt : k.sz p < -n) :
    GrowExact I k p d n ↔ k.sz p = 0 := by
  have hK := kernbase_eq
  obtain ⟨k', sp', hrun, hnz, hz, hfr, hmaps⟩ := growproc_down hd hF h hsz hn
  have hnew : k.sz p ≤ sub32 (k.sz p) (-n).toNat := by simp only [sub32]; omega
  rw [Nat.min_eq_left hnew] at hrun hnz hz
  constructor
  · rintro ⟨r, k'', hrun', htrue, -⟩
    cases hrun.symm.trans hrun'
    by_contra h0
    have := (htrue (by simpa using h0)).1
    rw [hnz h0] at this
    omega
  · intro h0
    refine ⟨_, k', hrun, fun hr => ?_, fun _ => ⟨hz h0, funext fun w => ?_⟩⟩
    · simp [h0] at hr
    · rw [hmaps, hfr.maps_eq, if_neg (by omega)]

/-- `growproc` is exact unless it has to take away all of the memory there is or more. -/
theorem growExact_iff (hcov : (k.mem.space d).Covers (k.sz p)) (hn : -2 ^ 31 ≤ n)
    (hn' : n < 2 ^ 31) : GrowExact I k p d n ↔ (n < 0 → k.sz p = 0 ∨ -n < k.sz p) := by
  rcases lt_trichotomy n 0 with hneg | rfl | hpos
  · simp only [hneg, true_imp_iff]
    rcases lt_trichotomy (-n) (k.sz p) with hlt | heq | hgt
    · exact iff_of_true (growproc_part hd hF h hsz hcov hneg hlt) (.inr hlt)
    · exact iff_of_false (growproc_all hd hF h hsz hcov hneg heq) (by omega)
    · rw [growproc_more hd hF h hsz hneg hn hgt]
      omega
  · have hrun : growproc I p 0 k = (.ok true, k) := by simp [growproc, hd, deref]
    refine iff_of_true ⟨true, k, hrun, fun _ => ⟨by omega, hcov, fun _ _ => rfl,
      fun w hw hw' => by omega⟩, (by rintro ⟨⟩)⟩ (by omega)
  · exact iff_of_true (growproc_up hd hF h hsz hpos hn' hcov) (by omega)

/-- What a caller of `growproc` sees: the new size, and memory up to it. -/
theorem growproc_newSize (hcov : (k.mem.space d).Covers (k.sz p)) (hn : -2 ^ 31 ≤ n)
    (hn' : n < 2 ^ 31) : ∃ fits r k', growproc I p n k = (.ok r, k') ∧
      newSize fits (k.sz p) n = (if r then some (k'.sz p) else none) ∧
      (r = true → (k'.mem.space d).Covers (k'.sz p)) := by
  have hK := kernbase_eq
  rcases lt_trichotomy n 0 with hneg | rfl | hpos
  · obtain ⟨k', sp', hrun, hnz, -, hfr, hmaps⟩ := growproc_down hd hF h hsz hneg
    refine ⟨fun _ => true, _, k', hrun, ?_, fun hr w hw => ?_⟩
    · simp only [newSize, if_neg (show ¬n > 0 by omega), if_pos hneg]
      by_cases h0 : min (k.sz p) (sub32 (k.sz p) (-n).toNat) = 0
      · simp [h0]
      · simp [h0, hnz h0]
    · rw [hnz (by simpa using hr), hmaps, hfr.maps_eq]
      split
      next hin =>
        have := pageUp_le.mp hin.1
        simp only [ne_eq, not_true_eq_false, false_iff]
        omega
      next hout =>
        rw [hcov w hw]
        rw [pageUp_le] at hout
        omega
  · have hrun : growproc I p 0 k = (.ok true, k) := by simp [growproc, hd, deref]
    exact ⟨fun _ => true, true, k, hrun, by simp [newSize], fun _ => hcov⟩
  · obtain ⟨r, k', hrun, htrue, -⟩ := growproc_up hd hF h hsz hpos hn' hcov
    have hnew : add32 (k.sz p) n.toNat = k.sz p + n.toNat := by simp only [add32]; omega
    -- beyond the user part there is no memory
    have hlow : r = true → k.sz p + n.toNat < KERNBASE := fun hr => by
      by_contra hhigh
      have hfail : growproc I p n k = (.ok false, k) := by
        simp [growproc, hd, deref, hnew, hpos, allocuvm_high (not_lt.mp hhigh)]
        rfl
      cases hrun.symm.trans hfail
      cases hr
    refine ⟨fun _ => r, r, k', hrun, ?_, fun hr => (htrue hr).2.1⟩
    simp only [newSize, if_pos hpos, hnew]
    cases r with
    | false => simp
    | true =>
      have := (htrue rfl).1
      rw [if_pos ⟨hlow rfl, rfl⟩, if_pos rfl]
      congr 1
      omega

end

/-- Process 0 has one page. -/
def onePageProc : Kernel where
  sched := Sched.boot 1
  mem := onePage
  kpgdir := none
  cpuStack := []
  kstack _ := none
  pgdir _ := some 0x201
  sz _ := PGSIZE
  pipe _ := none

/-- A process gives up the rest of its page but one byte. -/
theorem growExact_iff_onePage : GrowExact sample onePageProc 0 0x201 (-4095) := by
  have hsz : onePageProc.sz 0 = 4096 := by simp [onePageProc, PGSIZE]
  refine (growExact_iff rfl onePage_subset onePage_heap.1 ?_ onePage_covers (by decide)
    (by decide)).mpr ?_
  · simp [hsz, kernbase_eq]
  · rw [hsz]
    decide

/-- A process gives up its page. -/
theorem not_growExact_onePage : ¬GrowExact sample onePageProc 0 0x201 (-4096) := by
  have hsz : onePageProc.sz 0 = 4096 := by simp [onePageProc, PGSIZE]
  refine growproc_all rfl onePage_subset onePage_heap.1 ?_ onePage_covers (by decide) ?_
  · simp [hsz, kernbase_eq]
  · rw [hsz]
    decide

end Xv6Rework.Kernel
