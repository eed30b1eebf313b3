import Xv6Rework.Mem.UserMem

/-!
# `copyout`

`copyout` writes to user pages through the kernel's mapping of their frames.  It goes page
by page and stops with -1 at the first page that is not present or not the user's.
Where that page has no page table, `uva2ka` dereferences the null pointer it gets from
`walkpgdir`.

A directory is `Unaliased` if the frames of its user pages are different from each other and
from the frames of the directory itself; what is written to one page is then not seen
through another and does not change the mapping.
-/

namespace Xv6Rework.Vm

open Prog Function

variable {r : Ram} {m : Mem} {d f v w va : Nat} {x : Bytes 4096} {e : Pte} {buf : List UInt8}

/-! ## User pages -/

/-- The page table entry of a virtual page, if there is a page table for it. -/
def Ram.entry (r : Ram) (d v : Nat) : Option Pte :=
  (r.table d (v / NPDENTRIES)).map fun t => r.page t (v % NPDENTRIES)

/-- The frame of a page that is present and has `PTE_U`. -/
def Ram.userPage (r : Ram) (d v : Nat) : Option Nat :=
  (r.entry d v).bind fun e => if e.present && e.user then some e.frame else none

/-- The byte that the user sees at an address. -/
def Ram.byte (r : Ram) (d a : Nat) : Option UInt8 :=
  (r.userPage d (a / PGSIZE)).map fun f => (r f).get (a % PGSIZE)

/-- User pages share no frame, neither with each other nor with the directory and its
page tables. -/
structure Ram.Unaliased (r : Ram) (d : Nat) : Prop where
  inj : ∀ v w f, v < 2 ^ 20 → w < 2 ^ 20 → r.userPage d v = some f → r.userPage d w = some f → v = w
  ne_dir : ∀ v, v < 2 ^ 20 → r.userPage d v ≠ some d
  ne_table : ∀ v i t, v < 2 ^ 20 → i < NPDENTRIES → r.table d i = some t → r.userPage d v ≠ some t

theorem userPage_congr {r' : Ram} (h : r'.entry d v = r.entry d v) :
    r'.userPage d v = r.userPage d v := by
  rw [Ram.userPage, Ram.userPage, h]

/-- Writing to a user page leaves every entry as it is. -/
theorem Ram.Unaliased.entry_store (h : r.Unaliased d) (hv : v < 2 ^ 20)
    (hf : r.userPage d v = some f) (hw : w < 2 ^ 20) :
    Ram.entry (update r f x) d w = r.entry d w := by
  have hdir : update r f x d = r d := update_of_ne (by rintro rfl; exact h.ne_dir v hv hf) _ _
  have htab : Ram.table (update r f x) d (w / NPDENTRIES) = r.table d (w / NPDENTRIES) := by
    rw [Ram.table, Ram.table, Ram.page_congr hdir]
  rw [Ram.entry, Ram.entry, htab]
  cases ht : r.table d (w / NPDENTRIES) with
  | none => rfl
  | some t =>
    have hne : t ≠ f := by
      rintro rfl
      exact h.ne_table v _ t hv (div_lt_NPDENTRIES hw) ht hf
    rw [Option.map_some, Option.map_some, Ram.page_congr (update_of_ne hne _ _)]

theorem Ram.Unaliased.store (h : r.Unaliased d) (hv : v < 2 ^ 20) (hf : r.userPage d v = some f) :
    Ram.Unaliased (update r f x) d := by
  have hpage : ∀ w < 2 ^ 20, Ram.userPage (update r f x) d w = r.userPage d w := fun w hw =>
    userPage_congr (h.entry_store hv hf hw)
  have hdir : update r f x d = r d := update_of_ne (by rintro rfl; exact h.ne_dir v hv hf) _ _
  refine ⟨fun u w g hu hw hfu hfw => ?_, fun w hw hd => ?_, fun w i t hw hi ht hd => ?_⟩
  · exact h.inj u w g hu hw (hpage u hu ▸ hfu) (hpage w hw ▸ hfw)
  · exact h.ne_dir w hw (hpage w hw ▸ hd)
  · rw [Ram.table, Ram.page_congr hdir, ← Ram.table] at ht
    exact h.ne_table w i t hw hi ht (hpage w hw ▸ hd)

/-! ## `uva2ka` -/

/-- Without a page table the null pointer is dereferenced. -/
theorem uva2ka_none (hv : v < 2 ^ 20) (h : m.ram.entry d v = none) :
    uva2ka d (v * PGSIZE) m = (.error (.panic "PAGE FAULT"), m) := by
  rw [uva2ka, bind_of_ok (walkpgdir_apply d hv), Option.map_eq_none_iff.mp h]
  rfl

theorem uva2ka_some (hv : v < 2 ^ 20) (h : m.ram.entry d v = some e) :
    uva2ka d (v * PGSIZE) m = (.ok (m.ram.userPage d v), m) := by
  obtain ⟨t, ht, rfl⟩ := Option.map_eq_some_iff.mp h
  rw [uva2ka, bind_of_ok (walkpgdir_apply d hv), ht, Ram.userPage, h, Option.map_some,
    Option.bind_some]
  simp only [bind_gets]
  cases (m.ram.page t (v % NPDENTRIES)).present <;>
    cases (m.ram.page t (v % NPDENTRIES)).user <;> rfl

/-! ## The range of addresses -/

/-- Page `w` overlaps `[va, va + len)`. -/
def Overlaps (va len w : Nat) : Prop := ∃ a, va ≤ a ∧ a < va + len ∧ a / PGSIZE = w

/-- Page `w` is the first of the range that is not a page of the user's. -/
structure FirstBad (r : Ram) (d va len w : Nat) : Prop where
  overlaps : Overlaps va len w
  before : ∀ u, Overlaps va len u → u < w → r.userPage d u ≠ none
  bad : r.userPage d w = none

theorem FirstBad.unique {len : Nat} (h : FirstBad r d va len v) (h' : FirstBad r d va len w) :
    v = w := by
  rcases lt_trichotomy v w with hlt | heq | hgt
  · exact absurd h.bad (h'.before v h.overlaps hlt)
  · exact heq
  · exact absurd h'.bad (h.before w h'.overlaps hgt)

/-- The bytes of `buf` are written at `va`. -/
def Written (d va : Nat) (buf : List UInt8) (r r' : Ram) : Prop :=
  ∀ a < 2 ^ 32, r'.byte d a = if va ≤ a ∧ a < va + buf.length then buf[a - va]? else r.byte d a

/-- Only user pages of the range have changed, and no entry. -/
structure Within (d va len : Nat) (r r' : Ram) : Prop where
  entry : ∀ w < 2 ^ 20, r'.entry d w = r.entry d w
  frame : ∀ f, (∀ w, Overlaps va len w → r.userPage d w ≠ some f) → r' f = r f

theorem Within.refl (d va len : Nat) (r : Ram) : Within d va len r r :=
  ⟨fun _ _ => rfl, fun _ _ => rfl⟩

theorem not_overlaps_zero : ¬Overlaps va 0 w := by
  rintro ⟨a, h1, h2, -⟩
  omega

/-- A range that stays in one page. -/
theorem overlaps_one {len : Nat} (hpos : 0 < len) (hlen : len ≤ PGSIZE - va % PGSIZE) :
    Overlaps va len w ↔ w = va / PGSIZE := by
  constructor
  · rintro ⟨a, h1, h2, rfl⟩
    simp only [PGSIZE] at *
    omega
  · rintro rfl
    exact ⟨va, le_rfl, by omega, rfl⟩

/-- A range that goes on in the next page. -/
theorem overlaps_more {len : Nat} (hlen : PGSIZE - va % PGSIZE < len) :
    Overlaps va len w ↔ w = va / PGSIZE ∨
      Overlaps ((va / PGSIZE + 1) * PGSIZE) (len - (PGSIZE - va % PGSIZE)) w := by
  constructor
  · rintro ⟨a, h1, h2, rfl⟩
    by_cases ha : a < (va / PGSIZE + 1) * PGSIZE
    · left
      simp only [PGSIZE] at *
      omega
    · right
      refine ⟨a, by omega, ?_, rfl⟩
      simp only [PGSIZE] at *
      omega
  · rintro (rfl | ⟨a, h1, h2, rfl⟩)
    · exact ⟨va, le_rfl, by omega, rfl⟩
    · refine ⟨a, ?_, ?_, rfl⟩ <;>
      · simp only [PGSIZE] at *
        omega

/-! ## One page -/

/-- The user sees what is written to a page there and nowhere else. -/
theorem byte_setBytes {off : Nat} {l : List UInt8} (h : m.ram.Unaliased d) (hv : v < 2 ^ 20)
    (hf : m.ram.userPage d v = some f) (hl : off + l.length ≤ PGSIZE) {a : Nat} (ha : a < 2 ^ 32) :
    (m.setBytes f off l).ram.byte d a = if v * PGSIZE + off ≤ a ∧
    a < v * PGSIZE + off + l.length then
      l[a - (v * PGSIZE + off)]? else m.ram.byte d a := by
  have hw : a / PGSIZE < 2 ^ 20 := by simp only [PGSIZE]; omega
  rw [Ram.byte, Ram.byte, Mem.setBytes, Mem.ram_setPage, userPage_congr (h.entry_store hv hf hw)]
  by_cases hav : a / PGSIZE = v
  · have hmod : a = v * PGSIZE + a % PGSIZE := by simp only [PGSIZE] at hav ⊢; omega
    have hlt : a % PGSIZE < 4096 := by simp only [PGSIZE]; omega
    rw [hav, hf, Option.map_some, Option.map_some, update_self, Bytes.get_blit]
    by_cases hin : off ≤ a % PGSIZE ∧ a % PGSIZE < off + l.length
    · rw [if_pos ⟨hin.1, hin.2, hlt⟩, if_pos (by omega), List.getD_eq_getElem?_getD,
        show a - (v * PGSIZE + off) = a % PGSIZE - off by omega,
        List.getElem?_eq_getElem (by omega), Option.getD_some]
    · rw [if_neg (by omega), if_neg (by omega)]
  · have hout : ¬(v * PGSIZE + off ≤ a ∧ a < v * PGSIZE + off + l.length) := by
      simp only [PGSIZE] at *
      omega
    rw [if_neg hout]
    cases hg : m.ram.userPage d (a / PGSIZE) with
    | none => rfl
    | some g =>
      have hne : g ≠ f := by
        rintro rfl
        exact hav (h.inj _ _ _ hw hv hg hf)
      rw [Option.map_some, Option.map_some, update_of_ne hne]

/-! ## The loop -/

/-- What `copyout` has done when it returns. -/
structure CopiedOut (d va : Nat) (buf : List UInt8) (m : Mem) (ok : Bool) (m' : Mem) : Prop where
  within : Within d va buf.length m.ram m'.ram
  freelist : m'.freelist = m.freelist
  written : ok = true → Written d va buf m.ram m'.ram
  all : ok = true → ∀ w, Overlaps va buf.length w → m.ram.userPage d w ≠ none
  bad : ok = false → ∃ w, FirstBad m.ram d va buf.length w ∧ m.ram.entry d w ≠ none

/-- Where it stops. -/
def Faulted (d va len : Nat) (m : Mem) (e : Stop) : Prop :=
  e = .panic "PAGE FAULT" ∧ ∃ w, FirstBad m.ram d va len w ∧ m.ram.entry d w = none

theorem CopiedOut.nil : CopiedOut d va [] m true m :=
  ⟨.refl .., rfl, fun _ a _ => by rw [if_neg (by simp)], fun _ w hw => absurd hw not_overlaps_zero,
    (by rintro ⟨⟩)⟩

/-- All of it goes to one page. -/
theorem CopiedOut.one (h : m.ram.Unaliased d) (hv : va / PGSIZE < 2 ^ 20) (hpos : 0 < buf.length)
    (hlen : buf.length ≤ PGSIZE - va % PGSIZE) (hf : m.ram.userPage d (va / PGSIZE) = some f) :
    CopiedOut d va buf m true (m.setBytes f (va % PGSIZE) buf) where
  within :=
    ⟨fun w hw => h.entry_store hv hf hw, fun g hg => update_of_ne (by
      rintro rfl
      exact hg _ ((overlaps_one hpos hlen).mpr rfl) hf) _ _⟩
  freelist := rfl
  written _ a ha := by
    have hmod := Nat.mod_lt va (show 0 < PGSIZE by simp [PGSIZE])
    have hsum : va / PGSIZE * PGSIZE + va % PGSIZE = va := Nat.div_add_mod' va PGSIZE
    rw [byte_setBytes h hv hf (by omega) ha, hsum]
  all _ w hw := by
    rw [(overlaps_one hpos hlen).mp hw, hf]
    exact (by rintro ⟨⟩)
  bad := (by rintro ⟨⟩)

section

variable (h : m.ram.Unaliased d) (hv : va / PGSIZE < 2 ^ 20)
  (hlen : PGSIZE - va % PGSIZE < buf.length) (hf : m.ram.userPage d (va / PGSIZE) = some f)

include h hv hlen hf

/-- The first page is written, and the rest of the range has the same first page that is not
the user's. -/
theorem FirstBad.next
    (hb : FirstBad (m.setBytes f (va % PGSIZE) (buf.take (PGSIZE - va % PGSIZE))).ram d
      ((va / PGSIZE + 1) * PGSIZE) (buf.length - (PGSIZE - va % PGSIZE)) w)
    (hw : w < 2 ^ 20) : FirstBad m.ram d va buf.length w := by
  have hpage : ∀ u < 2 ^ 20, (m.setBytes f (va % PGSIZE)
      (buf.take (PGSIZE - va % PGSIZE))).ram.userPage d u = m.ram.userPage d u :=
      fun u hu => userPage_congr (h.entry_store hv hf hu)
  refine ⟨(overlaps_more hlen).mpr (.inr hb.overlaps), fun u hu huw => ?_,
    (hpage w hw).symm.trans hb.bad⟩
  rcases (overlaps_more hlen).mp hu with rfl | hu
  · rw [hf]
    exact (by rintro ⟨⟩)
  · rw [← hpage u (huw.trans hw)]
    exact hb.before u hu huw

/-- Part of it goes to the first page and the rest to the next ones. -/
theorem CopiedOut.cons (hva : va + buf.length ≤ 2 ^ 32) {ok : Bool} {m' : Mem}
    (hrest : CopiedOut d ((va / PGSIZE + 1) * PGSIZE) (buf.drop (PGSIZE - va % PGSIZE))
      (m.setBytes f (va % PGSIZE) (buf.take (PGSIZE - va % PGSIZE))) ok m') :
    CopiedOut d va buf m ok m' := by
  generalize hm1 : m.setBytes f (va % PGSIZE) (buf.take (PGSIZE - va % PGSIZE)) = m1 at hrest
  have hentry : ∀ w < 2 ^ 20, m1.ram.entry d w = m.ram.entry d w := fun w hw => by
    rw [← hm1]
    exact h.entry_store hv hf hw
  have hpage : ∀ w < 2 ^ 20, m1.ram.userPage d w = m.ram.userPage d w := fun w hw =>
    userPage_congr (hentry w hw)
  have hlt : ∀ w, Overlaps va buf.length w → w < 2 ^ 20 := by
    rintro w ⟨a, -, ha, rfl⟩
    simp only [PGSIZE]
    omega
  have hmod := Nat.mod_lt va (show 0 < PGSIZE by simp [PGSIZE])
  have hsum : va / PGSIZE * PGSIZE + va % PGSIZE = va := Nat.div_add_mod' va PGSIZE
  have hnext : (va / PGSIZE + 1) * PGSIZE = va + (PGSIZE - va % PGSIZE) := by
    rw [Nat.succ_mul]
    omega
  obtain ⟨⟨hwe, hwf⟩, hfl, hwritten, hall, hbad⟩ := hrest
  rw [List.length_drop] at hwf hall hbad
  refine ⟨⟨fun w hw => (hwe w hw).trans (hentry w hw), fun g hg => ?_⟩, ?_, fun hok a ha => ?_,
    fun hok w hw => ?_, fun hok => ?_⟩
  · have hgf : g ≠ f := by
      rintro rfl
      exact hg _ ((overlaps_more hlen).mpr (.inl rfl)) hf
    rw [hwf g fun w hw => ?_, ← hm1, Mem.setBytes, Mem.ram_setPage, update_of_ne hgf]
    have hw' := (overlaps_more hlen).mpr (.inr hw)
    rw [hpage w (hlt w hw')]
    exact hg w hw'
  · rw [hfl, ← hm1]
    rfl
  · rw [hwritten hok a ha, ← hm1, byte_setBytes h hv hf (by simp; omega) ha, hsum, hnext,
      List.length_drop, List.length_take, Nat.min_eq_left hlen.le]
    by_cases ha1 : va + (PGSIZE - va % PGSIZE) ≤ a ∧
        a < va + (PGSIZE - va % PGSIZE) + (buf.length - (PGSIZE - va % PGSIZE))
    · rw [if_pos ha1, if_pos (by omega), List.getElem?_drop,
        show PGSIZE - va % PGSIZE + (a - (va + (PGSIZE - va % PGSIZE))) = a - va by omega]
    · rw [if_neg ha1]
      by_cases ha2 : va ≤ a ∧ a < va + (PGSIZE - va % PGSIZE)
      · rw [if_pos ha2, if_pos (by omega), List.getElem?_take_of_lt (by omega)]
      · rw [if_neg ha2, if_neg (by omega)]
  · rcases (overlaps_more hlen).mp hw with rfl | hw'
    · rw [hf]
      exact (by rintro ⟨⟩)
    · rw [← hpage w (hlt w hw)]
      exact hall hok w hw'
  · obtain ⟨w, hw, hent⟩ := hbad hok
    have hw' := hlt w ((overlaps_more hlen).mpr (.inr hw.overlaps))
    rw [hentry w hw'] at hent
    rw [← hm1] at hw
    exact ⟨w, .next h hv hlen hf hw hw', hent⟩

end

theorem wp_copyoutLoop {k : Nat} (h : m.ram.Unaliased d) (hva : va + buf.length ≤ 2 ^ 32)
    (hfuel : va % PGSIZE + buf.length ≤ k * PGSIZE) :
    wp (copyoutLoop d (k + 1) va buf) (CopiedOut d va buf m)
      (fun e _ => Faulted d va buf.length m e) m := by
  induction k generalizing va buf m with
  | zero =>
    obtain rfl : buf = [] := List.length_eq_zero_iff.mp (by omega)
    exact .nil
  | succ k ih =>
    rw [copyoutLoop]
    by_cases hpos : buf.length > 0
    case neg =>
      obtain rfl : buf = [] := List.length_eq_zero_iff.mp (by omega)
      exact .nil
    have hv : va / PGSIZE < 2 ^ 20 := by simp only [PGSIZE]; omega
    have hoff : va - va / PGSIZE * PGSIZE = va % PGSIZE := by simp only [PGSIZE]; omega
    have hbefore : ∀ u, Overlaps va buf.length u → u < va / PGSIZE → m.ram.userPage d u ≠ none := by
      rintro u ⟨a, ha, -, rfl⟩ hu
      simp only [PGSIZE] at *
      omega
    have hover : Overlaps va buf.length (va / PGSIZE) := ⟨va, le_rfl, by omega, rfl⟩
    simp only [if_pos hpos, wp_bind, PGROUNDDOWN]
    cases he : m.ram.entry d (va / PGSIZE) with
    | none =>
      rw [wp_of_error (uva2ka_none hv he)]
      exact ⟨rfl, _, ⟨hover, hbefore, by rw [Ram.userPage, he]; rfl⟩, he⟩
    | some e =>
      rw [wp_of_ok (uva2ka_some hv he)]
      cases hf : m.ram.userPage d (va / PGSIZE) with
      | none =>
        exact ⟨.refl .., rfl, (by rintro ⟨⟩), (by rintro ⟨⟩),
          fun _ => ⟨_, ⟨hover, hbefore, hf⟩, by simp [he]⟩⟩
      | some f =>
        simp only [wp_bind, wp_update, hoff]
        by_cases hlen : buf.length ≤ PGSIZE - va % PGSIZE
        · rw [Nat.min_eq_right hlen, List.take_length, List.drop_length, copyoutLoop,
            if_neg (by simp)]
          exact .one h hv hpos hlen hf
        · have hlen := not_le.mp hlen
          have hnext : add32 (va / PGSIZE * PGSIZE) PGSIZE = (va / PGSIZE + 1) * PGSIZE := by
            simp only [add32, PGSIZE] at *
            omega
          rw [Nat.min_eq_left hlen.le, hnext]
          refine (ih (h.store hv hf) ?_ ?_).mono (fun ok m' h' => .cons h hv hlen hf hva h') ?_
          · rw [List.length_drop]
            simp only [PGSIZE] at *
            omega
          · rw [List.length_drop, Nat.mul_mod_left]
            rw [Nat.succ_mul] at hfuel
            have := Nat.mod_lt va (show 0 < PGSIZE by simp [PGSIZE])
            omega
          · rintro _ _ ⟨rfl, w, hw, hent⟩
            rw [List.length_drop] at hw
            have hw' : w < 2 ^ 20 := by
              obtain ⟨a, -, ha, rfl⟩ := hw.overlaps
              simp only [PGSIZE] at *
              omega
            exact ⟨rfl, w, .next h hv hlen hf hw hw', (h.entry_store hv hf hw').symm.trans hent⟩

/-- `copyout` of a range that does not go past the last address. -/
theorem wp_copyout (h : m.ram.Unaliased d) (hva : va + buf.length ≤ 2 ^ 32) :
    wp (copyout d va buf) (CopiedOut d va buf m) (fun e _ => Faulted d va buf.length m e) m := by
  refine wp_copyoutLoop h hva ?_
  have := Nat.mod_lt va (show 0 < PGSIZE by simp [PGSIZE])
  simp only [PGSIZE] at *
  omega

/-- Where the first page that is not the user's has no page table, `copyout` does not
return. -/
theorem copyout_faults (h : m.ram.Unaliased d) (hva : va + buf.length ≤ 2 ^ 32)
    (hb : FirstBad m.ram d va buf.length w) (he : m.ram.entry d w = none) :
    ∃ m', copyout d va buf m = (.error (.panic "PAGE FAULT"), m') := by
  have hrun := wp_copyout h hva
  rw [wp_iff] at hrun
  cases hr : copyout d va buf m with
  | mk r m' =>
    cases r with
    | ok ok =>
      have hres := hrun.1 ok m' hr
      cases ok with
      | true => exact absurd hb.bad (hres.all rfl w hb.overlaps)
      | false =>
        obtain ⟨w', hw', hent⟩ := hres.bad rfl
        exact absurd (hb.unique hw' ▸ he) hent
    | error e => exact ⟨m', by rw [(hrun.2 e m' hr).1]⟩

/-- `copyout` returns 0 exactly if all pages of the range are the user's, then the bytes are
written and no others have changed, and otherwise -1 with no change outside these pages. -/
def CopyoutExact (d va : Nat) (buf : List UInt8) (m : Mem) : Prop :=
  ∃ ok m', copyout d va buf m = (.ok ok, m') ∧
    (ok = true ↔ ∀ w, Overlaps va buf.length w → m.ram.userPage d w ≠ none) ∧
    (ok = true → Written d va buf m.ram m'.ram) ∧ Within d va buf.length m.ram m'.ram

/-- `copyout` is exact unless the first page of the range that is not the user's has no page
table. -/
theorem copyoutExact_iff (h : m.ram.Unaliased d) (hva : va + buf.length ≤ 2 ^ 32) :
    CopyoutExact d va buf m ↔ ∀ w, FirstBad m.ram d va buf.length w → m.ram.entry d w ≠ none := by
  constructor
  · rintro ⟨ok, m', hrun, -⟩ w hb he
    obtain ⟨m'', hfault⟩ := copyout_faults h hva hb he
    cases hrun.symm.trans hfault
  · intro hok
    have hrun : wp (copyout d va buf) (CopiedOut d va buf m) (fun _ _ => False) m := by
      refine (wp_copyout h hva).mono (fun _ _ h => h) ?_
      rintro _ _ ⟨-, w, hb, he⟩
      exact hok w hb he
    obtain ⟨ok, m', hr, hres⟩ := hrun.exists_ok
    refine ⟨ok, m', hr, ⟨hres.all, fun hall => ?_⟩, hres.written, hres.within⟩
    cases ok with
    | true => rfl
    | false =>
      obtain ⟨w, hb, -⟩ := hres.bad rfl
      exact absurd hb.bad (hall w hb.overlaps)

/-! ## Address spaces -/

section

variable {F : Finset Nat} {S : Multiset Space} {lo : Multiset Nat} {sp : Space}
  (h : Heap F m (sp ::ₘ S) lo)

include h

/-- The user's pages of an address space. -/
theorem Heap.userPage_eq (hv : v < 2 ^ 20) :
    m.ram.userPage sp.dir v =
      (sp.maps v).bind fun pg => if pg.pte.user then some pg.pte.frame else none := by
  rw [Ram.userPage, Ram.entry]
  cases ht : m.ram.table sp.dir (v / NPDENTRIES) with
  | none => rw [h.maps_none ht]; rfl
  | some t =>
    rw [h.maps_found hv ht, Option.map_some, Option.bind_some, Ram.found]
    cases (m.ram.page t (v % NPDENTRIES)).present <;> rfl

section

variable (hk : ∀ v pg, KERNPAGE ≤ v → sp.maps v = some pg → pg.pte.user = false)

include hk

/-- Where the kernel's part is closed to the user, the user's pages are below `KERNBASE`. -/
theorem Heap.pte_of_userPage (hv : v < 2 ^ 20) (hf : m.ram.userPage sp.dir v = some f) :
    v < KERNPAGE ∧ m.ram.pte sp.dir v = some f := by
  rw [h.userPage_eq hv] at hf
  obtain ⟨pg, hpg, hif⟩ := Option.bind_eq_some_iff.mp hf
  cases hu : pg.pte.user with
  | false => simp [hu] at hif
  | true =>
    refine ⟨not_le.mp fun hle => by simp [hk v pg hle hpg] at hu, ?_⟩
    rw [h.pte_maps hv, hpg]
    simpa [hu] using hif

/-- An address space whose kernel's part is closed to the user. -/
theorem Heap.unaliased : m.ram.Unaliased sp.dir := by
  refine ⟨fun v w f hv hw hfv hfw => ?_, fun v hv hd => ?_, fun v i t hv hi ht hd => ?_⟩
  · obtain ⟨hv', hv''⟩ := h.pte_of_userPage hk hv hfv
    obtain ⟨hw', hw''⟩ := h.pte_of_userPage hk hw hfw
    exact h.mapped_inj hv' hw' hv'' hw''
  · obtain ⟨hv', hv''⟩ := h.pte_of_userPage hk hv hd
    exact h.mapped_ne_dir hv' hv'' rfl
  · obtain ⟨hv', hv''⟩ := h.pte_of_userPage hk hv hd
    exact h.mapped_ne_table hv' hv'' (mem_tables.mpr ⟨i, hi, ht⟩) rfl

/-- The ledger after `copyout`, whether it has returned 0 or -1. -/
theorem Heap.within {m' : Mem} {len : Nat} (hlen : va + len ≤ 2 ^ 32)
    (hw : Within sp.dir va len m.ram m'.ram) (hfl : m'.freelist = m.freelist) :
    Heap F m' (m'.space sp.dir ::ₘ S) lo := by
  have hlt : ∀ w, Overlaps va len w → w < 2 ^ 20 := by
    rintro w ⟨a, -, ha, rfl⟩
    simp only [PGSIZE]
    omega
  have hdir : m'.ram sp.dir = m.ram sp.dir :=
    hw.frame _ fun w hov hf => (h.unaliased hk).ne_dir w (hlt w hov) hf
  have htab : m'.ram.table sp.dir = m.ram.table sp.dir := by
    funext i
    rw [Ram.table, Ram.table, Ram.page_congr hdir]
  have hpte : ∀ w < 2 ^ 20, m'.ram.pte sp.dir w = m.ram.pte sp.dir w := by
    refine fun w hw' => pte_congr (by rw [htab]) fun t ht => ?_
    have hent := hw.entry w hw'
    rw [Ram.entry, Ram.entry, htab, ht] at hent
    exact Option.some.inj hent
  refine h.of_agree_cons (fun sp' hsp' f hf => hw.frame f fun w hov hf' => ?_) hfl ?_
  · obtain ⟨hwk, hpf⟩ := h.pte_of_userPage hk (hlt w hov) hf'
    exact h.other_notMem (mapped_mem_frames hwk hpf) hsp' hf
  · rw [Ram.frames, Ram.frames, Ram.tables, Ram.tables, htab, Ram.maps, Ram.maps,
      held_congr fun w hw' => hpte w (lt_of_lt_KERNPAGE (Finset.mem_range.mp hw'))]

end

end

theorem onePage_unaliased : onePage.ram.Unaliased 0x201 := by
  refine onePage_heap.1.unaliased fun v pg hv hpg => ?_
  rw [onePage_heap.2, update_of_ne (by rintro rfl; simp [KERNPAGE] at hv)] at hpg
  cases hpg

/-- Four bytes go to the one page there is. -/
theorem copyoutExact_iff_onePage : CopyoutExact 0x201 8 [1, 2, 3, 4] onePage := by
  refine (copyoutExact_iff onePage_unaliased (by decide)).mpr fun w hw => absurd hw.bad ?_
  obtain ⟨a, ha, ha', rfl⟩ := hw.overlaps
  have h0 : a / PGSIZE = 0 := by simp only [PGSIZE, List.length] at ha' ⊢; omega
  have huser := onePage_heap.1.userPage_eq (v := 0) (by decide)
  rw [onePage_heap.2, update_self, Mem.dir_space] at huser
  rw [h0, huser]
  exact (by rintro ⟨⟩)

/-- A byte goes to an address in the second four megabytes, for which there is no page
table. -/
theorem not_copyoutExact_onePage : ¬CopyoutExact 0x201 (2 ^ 22) [1] onePage := by
  rintro ⟨ok, m', hrun, -⟩
  have ht : onePage.ram.table 0x201 1 = none := by decide +kernel
  have he : onePage.ram.entry 0x201 (2 ^ 22 / PGSIZE) = none := by
    rw [Ram.entry, show 2 ^ 22 / PGSIZE / NPDENTRIES = 1 by simp [PGSIZE, NPDENTRIES], ht]
    rfl
  have hb : FirstBad onePage.ram 0x201 (2 ^ 22) (List.length [(1 : UInt8)]) (2 ^ 22 / PGSIZE) := by
    refine ⟨⟨2 ^ 22, le_rfl, by decide, rfl⟩, ?_, ?_⟩
    · rintro u ⟨a, ha, -, rfl⟩ hu
      exact absurd (Nat.div_le_div_right ha) (not_le.mpr hu)
    · rw [Ram.userPage, he]
      rfl
  obtain ⟨m'', hfault⟩ := copyout_faults onePage_unaliased (by decide) hb he
  cases hrun.symm.trans hfault

end Xv6Rework.Vm
