import Xv6Rework.Lib.Frame
import Xv6Rework.Mem.Heap
import Mathlib.Order.Interval.Finset.Nat

/-!
# What the functions of `vm.c` do to the ledger

One lemma per function of `Mem/Vm.lean`, in terms of `Heap`.  Each is stated for
every set of other address spaces and loose pages, which it leaves alone, and says
what the address space it works on maps afterwards.  The functions return from every
such memory, except where a panic is listed as a hypothesis about what holds when the
code stops.
-/

namespace Xv6Rework.Vm

open Prog Function

variable {I : Layout} {F : Finset Nat} {m m' : Mem} {S : Multiset Space} {lo : Multiset Nat}
  {sp sp' : Space} {f v w : Nat} {perm : Flags} {E : Stop → Mem → Prop}

/-! ## The allocator -/

/-- All the frames there are. -/
def Layout.managed (I : Layout) : Finset Nat := Finset.Ico I.first I.phystop

theorem Layout.mem_managed : f ∈ I.managed ↔ I.first ≤ f ∧ f < I.phystop := Finset.mem_Ico

theorem Layout.managed_lt (hf : f ∈ I.managed) : f < 2 ^ 20 := by
  have := (I.mem_managed.mp hf).2
  have := I.phystop_le
  have := I.devspace_lt
  omega

/-- How many calls of `kalloc` find a page, for a free list and the answers to come. -/
def grants : List Nat → List Bool → Nat
  | [], _ => 0
  | _ :: l, deny => if deny.headD false then 0 else grants l deny.tail + 1

/-- The number of pages that can be had before `kalloc` fails. -/
def Mem.avail (m : Mem) : Nat := grants m.freelist m.deny

/-- The page `r` has been taken from the free list. -/
structure Took (m : Mem) (r : Nat) (m' : Mem) : Prop where
  freelist : m.freelist = r :: m'.freelist
  avail : m.avail = m'.avail + 1

/-- `kalloc` may find no page. -/
theorem wp_kalloc {Q : Option Nat → Mem → Prop} (h : Heap F m S lo)
    (hnone : ∀ m', m'.ram = m.ram → m.avail = 0 → Heap F m' S lo → Q none m')
    (hsome : ∀ r m', m'.ram = m.ram → Took m r m' → Heap F m' S (r ::ₘ lo) → Q (some r) m') :
    wp kalloc Q E m := by
  have hsame : ∀ l, Heap F { m with deny := l } S lo := fun l => h.of_ram rfl rfl
  simp only [kalloc, wp_bind, wp_gets, wp_update, wp_ite, wp_pure]
  refine ⟨fun hdeny => hnone _ rfl ?_ (hsame _), fun hdeny => ?_⟩
  · rw [Mem.avail]
    cases m.freelist with
    | nil => rfl
    | cons r l => rw [grants, if_pos hdeny]
  split
  next hl => exact hnone _ rfl (by rw [Mem.avail, hl, grants]) (hsame _)
  next r l hl =>
    refine hsome r _ rfl ⟨hl, ?_⟩ ((hsame m.deny.tail).take hl rfl rfl)
    rw [Mem.avail, hl, grants, if_neg hdeny]
    rfl

/-- `kfree` of a loose page. -/
theorem wp_kfree {Q : Unit → Mem → Prop} (h : Heap F m S (f ::ₘ lo)) (hF : F ⊆ I.managed)
    (hQ : ∀ m', (∀ g, g ≠ f → m'.ram g = m.ram g) → Heap F m' S lo → Q () m') :
    wp (kfree I f) Q E m := by
  have hmem := Multiset.mem_cons_self f lo
  have hf := I.mem_managed.mp (hF (h.mem_of_loose hmem))
  simp only [kfree, wp_bind, wp_ite, wp_update, wp_halt]
  exact ⟨fun hn => by omega, fun _ => hQ _ (fun g hg => update_of_ne hg _ _) (h.write hmem _).give⟩

/-- Clearing a loose page. -/
theorem wp_clear {Q : Unit → Mem → Prop} (h : Heap F m S (f ::ₘ lo))
    (hQ : ∀ m', m'.freelist = m.freelist ∧ m'.avail = m.avail → m'.ram = update m.ram f .zero →
      Heap F m' S (f ::ₘ lo) → Q () m') : wp (clear f) Q E m :=
  hQ _ ⟨rfl, rfl⟩ rfl (h.write (Multiset.mem_cons_self f lo) _)

/-! ## Page tables -/

theorem PDX_page (hv : v < 2 ^ 20) : PDX (v * PGSIZE) = v / NPDENTRIES := by
  simp only [PDX, PGSIZE, NPDENTRIES]
  omega

theorem PTX_page : PTX (v * PGSIZE) = v % NPDENTRIES := by
  simp only [PTX, PGSIZE, NPDENTRIES]
  omega

/-- Looking an address up. -/
theorem walkpgdir_read (d va : Nat) :
    walkpgdir d va false m = (.ok ((m.ram.table d (PDX va)).map (·, PTX va)), m) := by
  simp only [walkpgdir, bind_gets, Ram.table]
  cases hp : (m.ram.page d (PDX va)).present <;> simp [Pte.entry, hp]

theorem walkpgdir_apply (d : Nat) (hv : v < 2 ^ 20) :
    walkpgdir d (v * PGSIZE) false m =
      (.ok ((m.ram.table d (v / NPDENTRIES)).map (·, v % NPDENTRIES)), m) := by
  rw [walkpgdir_read, PDX_page hv, PTX_page]

/-- Every page table has an entry that is present. -/
def Space.Tight (sp : Space) : Prop :=
  ∀ i < NPDENTRIES, sp.ram.table sp.dir i ≠ none → ∃ v, v / NPDENTRIES = i ∧ sp.maps v ≠ none

/-- Mapping a page gives its table an entry. -/
theorem Space.Tight.changed {pg : Page} (h : sp.Tight) (hc : sp.Changed v (some pg) sp') :
    sp'.Tight := by
  intro i hi ht
  by_cases hiv : i = v / NPDENTRIES
  · exact ⟨v, hiv.symm, by simp [hc.maps_self]⟩
  · rw [hc.dir_eq, hc.table_eq i hiv] at ht
    obtain ⟨w, rfl, hw⟩ := h i hi ht
    exact ⟨w, rfl, by rwa [hc.maps_of_ne (by rintro rfl; exact hiv rfl)]⟩

/-- The number of page tables that are missing for a page. -/
def Space.missing (sp : Space) (v : Nat) : Nat :=
  if sp.ram.table sp.dir (v / NPDENTRIES) = none then 1 else 0

/-- In a tight address space that depends on what is mapped. -/
theorem Space.Tight.missing_eq (h : sp.Tight) (hv : v < 2 ^ 20) {p : Prop} [Decidable p]
    (hp : p ↔ ∀ w, w / NPDENTRIES = v / NPDENTRIES → sp.maps w = none) :
    sp.missing v = if p then 1 else 0 := by
  rw [missing]
  refine if_congr (Iff.trans ⟨fun ht w hw => ?_, fun hall => ?_⟩ hp.symm) rfl rfl
  · rw [Space.maps, Ram.view, hw, ht, Option.bind_none, ite_self]
  · by_contra ht
    obtain ⟨w, hw, hmaps⟩ := h _ (div_lt_NPDENTRIES hv) ht
    exact hmaps (hall w hw)

/-- Of the pages that can be had, `n` have been taken. -/
structure Spent (m : Mem) (n : Nat) (m' : Mem) : Prop where
  freelist : m'.freelist <:+ m.freelist
  avail : m.avail = m'.avail + n

theorem Spent.setPte {n i : Nat} {e : Pte} (h : Spent m n m') : Spent m n (m'.setPte f i e) :=
  ⟨h.freelist, h.avail⟩

/-- Looking an address up, with a new page table if there is none. -/
theorem wp_walkpgdir {Q : Option (Nat × Nat) → Mem → Prop} (h : Heap F m (sp ::ₘ S) lo)
    (hF : F ⊆ I.managed) (hv : v < 2 ^ 20)
    (hnone : ∀ m', m'.ram = m.ram → m.avail < sp.missing v → Heap F m' (sp ::ₘ S) lo → Q none m')
    (hsome : ∀ t sp' m', sp.Changed v (sp.maps v) sp' → Spent m (sp.missing v) m' →
      (∀ f ∈ lo, m'.ram f = m.ram f) → m'.ram.table sp'.dir (v / NPDENTRIES) = some t →
      Heap F m' (sp' ::ₘ S) lo → Q (some (t, v % NPDENTRIES)) m') :
    wp (walkpgdir sp.dir (v * PGSIZE) true) Q E m := by
  simp only [walkpgdir, PDX_page hv, PTX_page, wp_bind, wp_gets, wp_ite, wp_pure]
  have hmiss : sp.missing v = if m.ram.table sp.dir (v / NPDENTRIES) = none then 1 else 0 := by
    rw [Space.missing, h.table_eq]
  refine ⟨fun hp => hsome _ sp m (.refl sp v) ⟨List.suffix_rfl, ?_⟩ (fun _ _ => rfl)
    (table_present hp) h, fun hp => ⟨by simp, fun _ => ?_⟩⟩
  · rw [hmiss, if_neg (by simp [table_present hp]), Nat.add_zero]
  have hn : m.ram.table sp.dir (v / NPDENTRIES) = none := table_absent hp
  rw [if_pos hn] at hmiss
  refine wp_kalloc h (fun m' hram hav => hnone m' hram (by omega)) fun t m1 hram hfl h1 => ?_
  simp only [wp_bind]
  refine wp_clear h1 fun m2 hfl2 hram2 h2 => ?_
  have hmem := Multiset.mem_cons_self t lo
  have hsp := Multiset.mem_cons_self sp S
  have hn2 : m2.ram.table sp.dir (v / NPDENTRIES) = none := by
    rw [← hn, ← h2.table_eq, ← h.table_eq]
  have hfits : Pte.Fits ⟨⟨true, true, true, 0⟩, t⟩ :=
    ⟨Nat.two_pow_pos 9, I.managed_lt (hF (h2.mem_of_loose hmem))⟩
  obtain ⟨h3, hc, ht⟩ := h2.install hv rfl hn2 (by rw [hram2, update_self]) hfits rfl
  refine hsome t _ _ hc ⟨?_, ?_⟩ (fun f hf => ?_) ht h3
  · change m2.freelist <:+ _
    rw [hfl2.1, hfl.freelist]
    exact List.suffix_cons _ _
  · change m.avail = m2.avail + _
    rw [hfl2.2, hmiss, hfl.avail]
  · have hft : f ≠ t := by
      rintro rfl
      have hnd := (Multiset.nodup_add.mp (Multiset.nodup_add.mp h2.nodup).1).2.1
      exact (Multiset.nodup_cons.mp hnd).1 hf
    have hfd : f ≠ sp.dir := by
      rintro rfl
      exact h2.loose_notMem (Multiset.mem_cons_of_mem hf) hsp self_mem_frames
    rw [Mem.ram_setPte_of_ne hfd, hram2, update_of_ne hft, hram]

/-- The flags of an entry are within their bits. -/
def Flags.Fits (p : Flags) : Prop := p.rest < 2 ^ 9

/-- The page that `mappages` maps: the frame `f` with the contents `x`. -/
def Page.of (perm : Flags) (f : Nat) (x : Bytes 4096) : Page :=
  ⟨⟨{ perm with present := true }, f⟩, x⟩

/-- Mapping one loose page below `KERNBASE`, where nothing is mapped. -/
theorem wp_mappages {Q : Bool → Mem → Prop} (h : Heap F m (sp ::ₘ S) (f ::ₘ lo))
    (hF : F ⊆ I.managed) (hperm : perm.Fits) (hv : v < KERNPAGE) (hn : sp.maps v = none)
    (hfalse : ∀ m', m'.ram = m.ram → m.avail < sp.missing v → Heap F m' (sp ::ₘ S) (f ::ₘ lo) →
      Q false m')
    (htrue : ∀ sp' m', sp.Changed v (some (.of perm f (m.ram f))) sp' → Spent m (sp.missing v) m' →
      Heap F m' (sp' ::ₘ S) lo → Q true m') :
    wp (mappages sp.dir (v * PGSIZE) PGSIZE f perm) Q E m := by
  have hv' := lt_of_lt_KERNPAGE hv
  have hmem := Multiset.mem_cons_self f lo
  have hlast : PGROUNDDOWN (v * PGSIZE + PGSIZE - 1) = v * PGSIZE := by
    simp only [PGROUNDDOWN, PGSIZE]; omega
  have hfirst : PGROUNDDOWN (v * PGSIZE) = v * PGSIZE := by simp only [PGROUNDDOWN, PGSIZE]; omega
  rw [mappages, hlast, hfirst, show 2 ^ 20 = 1048575 + 1 from rfl, mapLoop, wp_bind]
  refine wp_walkpgdir h hF hv' hfalse fun t sp1 m1 hc hfl hlo ht h1 => ?_
  have hn1 : sp1.maps v = none := hc.maps_self.trans hn
  have hp : m1.ram.pte sp1.dir v = none := by rw [h1.pte_maps hv', hn1]; rfl
  have hpres : (m1.ram.page t (v % NPDENTRIES)).present = false := by
    rw [← Pte.entry_eq_none, ← pte_eq ht, hp]
  simp only [wp_bind, wp_gets, wp_ite, hpres, Bool.false_eq_true, false_imp_iff, not_false_iff,
    true_imp_iff, true_and, wp_pure, wp_update, not_true_eq_false, and_true]
  obtain ⟨h2, hc2⟩ := h1.map (e := ⟨{ perm with present := true }, f⟩) hv ht hp
    ⟨hperm, I.managed_lt (hF (h.mem_of_loose hmem))⟩ rfl
  rw [hlo f hmem] at hc2
  exact htrue _ _ (hc.trans hc2) hfl.setPte h2

/-- Nothing is mapped from page `a` up to page `b`. -/
def Space.Bare (sp : Space) (a b : Nat) : Prop := ∀ w, a ≤ w → w < b → sp.maps w = none

/-- Mapping a page of the kernel's part. -/
theorem wp_mapLoop_step {last k pa : Nat} {Q : Bool → Mem → Prop} (h : Heap F m (sp ::ₘ S) lo)
    (hF : F ⊆ I.managed) (hperm : perm.Fits) (hpa : pa < 2 ^ 20) (hk : KERNPAGE ≤ v)
    (hv : v < 2 ^ 20) (hn : sp.maps v = none)
    (hfalse : ∀ m', m.avail < sp.missing v → Heap F m' (sp ::ₘ S) lo → Q false m')
    (htrue : ∀ sp' m', sp.Changed v (some (.of perm pa .zero)) sp' → Spent m (sp.missing v) m' →
      Heap F m' (sp' ::ₘ S) lo → wp (if v * PGSIZE = last then pure true else
        mapLoop sp.dir last perm k (v * PGSIZE + PGSIZE) (pa + 1)) Q E m') :
    wp (mapLoop sp.dir last perm (k + 1) (v * PGSIZE) pa) Q E m := by
  rw [mapLoop, wp_bind]
  refine wp_walkpgdir h hF hv (fun m' _ => hfalse m') fun t sp1 m1 hc hspent _ ht h1 => ?_
  have hn1 : sp1.maps v = none := hc.maps_self.trans hn
  have hpres : (m1.ram.page t (v % NPDENTRIES)).present = false := by
    rw [← found_none, ← h1.maps_found hv ht, hn1]
  obtain ⟨h2, hc2⟩ := h1.mapKernel (e := ⟨{ perm with present := true }, pa⟩) hv hk ht
    ⟨hperm, hpa⟩ rfl
  have hnext := htrue _ _ (hc.trans hc2) hspent.setPte h2
  simpa only [wp_bind, wp_gets, wp_ite, hpres, Bool.false_eq_true, false_imp_iff, not_false_iff,
    true_imp_iff, true_and, wp_pure, wp_update] using hnext

/-- Pages `v` to `v + n` are mapped to the frames from `pa` on, the others as in `g`. -/
def mapsRange (perm : Flags) (pa v n : Nat) (g : Nat → Option Page) (w : Nat) : Option Page :=
  if v ≤ w ∧ w < v + n then some (.of perm (pa + (w - v)) .zero) else g w

/-- The page tables that the pages `v` to `last` need. -/
def Space.tablesTo (sp : Space) (v last : Nat) : Nat :=
  sp.missing v + (last / NPDENTRIES - v / NPDENTRIES)

/-- The page above the last one needs a table if it is the first of one. -/
theorem Space.Tight.tablesTo_succ {pg : Page} (h : sp.Tight) (hc : sp.Changed v (some pg) sp')
    (hb : sp.Bare v (2 ^ 20)) {last : Nat} (hlast : v < last) (hlt : last < 2 ^ 20) :
    sp.tablesTo v last = sp.missing v + sp'.tablesTo (v + 1) last := by
  have hnext : sp'.missing (v + 1) = if (v + 1) % NPDENTRIES = 0 then 1 else 0 := by
    refine (h.changed hc).missing_eq (by omega) ⟨fun hmod w hw => ?_, fun hall => ?_⟩
    · have hwv : v < w := by
        simp only [NPDENTRIES] at *
        omega
      by_cases hw' : w < 2 ^ 20
      · rw [hc.maps_of_ne (by omega), hb w hwv.le hw']
      · rw [Space.maps, Ram.view, if_neg hw']
    · by_contra hmod
      refine absurd (hall v ?_) (by simp [hc.maps_self])
      simp only [NPDENTRIES] at *
      omega
  have hdiv : last / NPDENTRIES - v / NPDENTRIES = (if (v + 1) % NPDENTRIES = 0 then 1 else 0) +
      (last / NPDENTRIES - (v + 1) / NPDENTRIES) := by
    simp only [NPDENTRIES]
    split <;> omega
  rw [tablesTo, tablesTo, hnext, hdiv]

/-- Mapping a range of the kernel's part, above everything that is mapped. -/
theorem wp_mapLoop_kernel (hF : F ⊆ I.managed) (hperm : perm.Fits) (hk : KERNPAGE ≤ v) {n : Nat}
    (hv : v + n < 2 ^ 20) {k : Nat} (hfuel : n < k) (pa : Nat) (hpa : pa + n < 2 ^ 20)
    (h : Heap F m (sp ::ₘ S) lo) (hb : sp.Bare v (2 ^ 20)) (ht : sp.Tight) :
    wp (mapLoop sp.dir ((v + n) * PGSIZE) perm k (v * PGSIZE) pa)
      (fun r m' => ∃ sp', sp'.dir = sp.dir ∧ Heap F m' (sp' ::ₘ S) lo ∧
        (r = true → sp'.maps = mapsRange perm pa v (n + 1) sp.maps ∧ sp'.Tight ∧
          m.avail = m'.avail + sp.tablesTo v (v + n)) ∧
        (r = false → m.avail < sp.tablesTo v (v + n))) E m := by
  induction n generalizing v k pa m sp with
  | zero =>
    obtain ⟨k, rfl⟩ := Nat.exists_eq_succ_of_ne_zero (Nat.ne_of_gt hfuel)
    have hself : sp.tablesTo v (v + 0) = sp.missing v := by simp [Space.tablesTo]
    rw [hself]
    refine wp_mapLoop_step h hF hperm (by omega) hk hv (hb v le_rfl hv)
      (fun m' hav h' => ⟨sp, rfl, h', (by rintro ⟨⟩), fun _ => hav⟩) fun sp1 m1 hc hspent h1 => ?_
    rw [if_pos (by rw [Nat.add_zero])]
    refine ⟨sp1, hc.dir_eq, h1, fun _ => ⟨funext fun w => ?_, ht.changed hc, hspent.avail⟩,
      (by rintro ⟨⟩)⟩
    rw [hc.maps_eq, mapsRange, Function.update_apply]
    by_cases hw : w = v
    · rw [if_pos hw, if_pos (by omega), hw, Nat.sub_self, Nat.add_zero]
    · rw [if_neg hw, if_neg (by omega)]
  | succ n ih =>
    obtain ⟨k, rfl⟩ := Nat.exists_eq_succ_of_ne_zero (show k ≠ 0 by omega)
    have hv' : v < 2 ^ 20 := by omega
    refine wp_mapLoop_step h hF hperm (by omega) hk hv' (hb v le_rfl hv') (fun m' hav h' => ?_)
      fun sp1 m1 hc hspent h1 => ?_
    · exact ⟨sp, rfl, h', (by rintro ⟨⟩), fun _ => hav.trans_le (Nat.le_add_right _ _)⟩
    rw [if_neg (by simp only [PGSIZE]; omega)]
    have hb1 : sp1.Bare (v + 1) (2 ^ 20) := fun w hw hw' =>
      (hc.maps_of_ne (by omega)).trans (hb w (by omega) hw')
    have hnext := ih (v := v + 1) (by omega) (by omega) (k := k) (by omega) (pa + 1)
      (by omega) h1 hb1 (ht.changed hc)
    have hcount := ht.tablesTo_succ hc hb (show v < v + (n + 1) by omega) hv
    have hav := hspent.avail
    rw [show v + 1 + n = v + (n + 1) by omega, Nat.succ_mul, hc.dir_eq] at hnext
    refine hnext.mono ?_ fun _ _ h => h
    rintro r m' ⟨sp', hdir, h', hmap, hfail⟩
    refine ⟨sp', hdir, h', fun hr => ?_, fun hr => ?_⟩
    · obtain ⟨hmaps, htight, hav'⟩ := hmap hr
      refine ⟨funext fun w => ?_, htight, by omega⟩
      rw [hmaps, mapsRange, mapsRange, hc.maps_eq, Function.update_apply]
      by_cases hw : w = v
      · rw [if_neg (by omega), if_pos hw, if_pos (by omega), hw, Nat.sub_self, Nat.add_zero]
      · by_cases hin : v + 1 ≤ w ∧ w < v + 1 + (n + 1)
        · rw [if_pos hin, if_pos (by omega), show pa + 1 + (w - (v + 1)) = pa + (w - v) by omega]
        · rw [if_neg hin, if_neg hw, if_neg (by omega)]
    · have := hfail hr
      omega

/-- Mapping a range given by its first page and its size in pages. -/
theorem wp_mappages_kernel (hF : F ⊆ I.managed) (hperm : perm.Fits) (hk : KERNPAGE ≤ v) {n : Nat}
    (hn : 0 < n) (hv : v + n ≤ 2 ^ 20) {pa : Nat} (hpa : pa + n ≤ 2 ^ 20)
    (h : Heap F m (sp ::ₘ S) lo) (hb : sp.Bare v (2 ^ 20)) (ht : sp.Tight) :
    wp (mappages sp.dir (v * PGSIZE) (n * PGSIZE) pa perm)
      (fun r m' => ∃ sp', sp'.dir = sp.dir ∧ Heap F m' (sp' ::ₘ S) lo ∧
        (r = true → sp'.maps = mapsRange perm pa v n sp.maps ∧ sp'.Tight ∧
          m.avail = m'.avail + sp.tablesTo v (v + n - 1)) ∧
        (r = false → m.avail < sp.tablesTo v (v + n - 1))) E m := by
  obtain ⟨n, rfl⟩ := Nat.exists_eq_succ_of_ne_zero (Nat.ne_of_gt hn)
  have hlast : PGROUNDDOWN (v * PGSIZE + (n + 1) * PGSIZE - 1) = (v + n) * PGSIZE := by
    simp only [PGROUNDDOWN, PGSIZE]; omega
  have hfirst : PGROUNDDOWN (v * PGSIZE) = v * PGSIZE := by simp only [PGROUNDDOWN, PGSIZE]; omega
  rw [mappages, hlast, hfirst]
  exact wp_mapLoop_kernel hF hperm hk (by omega) (by omega) pa (by omega) h hb ht

/-! ## Giving pages back -/

/-- Freeing and unmapping a user page. -/
theorem wp_kfree_unmap {Q : Unit → Mem → Prop} (h : Heap F m (sp ::ₘ S) lo) (hF : F ⊆ I.managed)
    (hv : v < KERNPAGE) {t : Nat} (ht : m.ram.table sp.dir (v / NPDENTRIES) = some t)
    (hf : m.ram.pte sp.dir v = some f)
    (hQ : ∀ sp' m', sp.Changed v none sp' → Heap F m' (sp' ::ₘ S) lo → Q () m') :
    wp (do kfree I f; update fun m => m.setPte t (v % NPDENTRIES) Pte.zero) Q E m := by
  have hfF := I.mem_managed.mp
    (hF (h.mem_of_frames (Multiset.mem_cons_self _ _) (mapped_mem_frames hv hf)))
  have hft : f ≠ t := h.mapped_ne_table hv hf
    (mem_tables.mpr ⟨_, div_lt_NPDENTRIES (lt_of_lt_KERNPAGE hv), ht⟩)
  obtain ⟨h1, hc⟩ := h.unmap hv ht hf
  have h2 := (h1.write (Multiset.mem_cons_self f lo) junk).give
  simp only [kfree, wp_bind, wp_ite, wp_update, wp_halt]
  refine ⟨fun hn => by omega, fun _ => hQ _ _ hc ?_⟩
  -- the two stores are to different pages, so their order does not matter
  refine h2.of_ram ?_ rfl
  simp only [Mem.setPte, Mem.setPage, Function.update_of_ne hft.symm]
  exact Function.update_comm hft _ _ _

/-- What a run of `deallocuvm` from page `a` to byte `oldsz` leaves of an address
space. -/
structure Space.Freed (sp sp' : Space) (a oldsz : Nat) : Prop where
  dir_eq : sp'.dir = sp.dir
  maps_eq : ∀ w, sp'.maps w = if a ≤ w ∧ w * PGSIZE < oldsz then none else sp.maps w

theorem Space.Freed.maps_none (h : sp.Freed sp' v w) {u : Nat} (hu : sp.maps u = none) :
    sp'.maps u = none := by
  rw [h.maps_eq, hu, ite_self]

theorem Space.Freed.gone {a oldsz : Nat} (h : sp.Freed sp' a oldsz) (hw : a ≤ w)
    (hw' : w * PGSIZE < oldsz) : sp'.maps w = none := by
  rw [h.maps_eq, if_pos ⟨hw, hw'⟩]

theorem wp_deallocLoop (hF : F ⊆ I.managed) {oldsz k a : Nat} (hold : oldsz ≤ KERNBASE)
    (hk : 0 < k) (hfuel : oldsz + PGSIZE ≤ a * PGSIZE + k * PGSIZE) (h : Heap F m (sp ::ₘ S) lo) :
    wp (deallocLoop I sp.dir oldsz k (a * PGSIZE))
      (fun _ m' => ∃ sp', sp.Freed sp' a oldsz ∧ Heap F m' (sp' ::ₘ S) lo) E m := by
  induction k generalizing a m sp with
  | zero => exact absurd hk (Nat.lt_irrefl 0)
  | succ k ih =>
    rw [deallocLoop]
    by_cases ha : a * PGSIZE < oldsz
    case neg =>
      rw [if_neg ha]
      refine ⟨sp, ⟨rfl, fun w => (if_neg ?_).symm⟩, h⟩
      simp only [PGSIZE] at *; omega
    have hak : a < KERNPAGE := by simp only [KERNBASE, PGSIZE] at *; omega
    have hav := lt_of_lt_KERNPAGE hak
    have hk' : 0 < k := by
      rcases Nat.eq_zero_or_pos k with rfl | hk'
      · rw [Nat.zero_add, Nat.one_mul] at hfuel; omega
      · exact hk'
    have hfuel' : oldsz + PGSIZE ≤ (a + 1) * PGSIZE + k * PGSIZE := by
      rw [Nat.succ_mul] at hfuel ⊢; omega
    rw [if_pos ha, wp_bind, wp_of_ok (walkpgdir_apply sp.dir hav)]
    cases ht : m.ram.table sp.dir (a / NPDENTRIES) with
    | none =>
      -- no page up to the next directory entry is mapped
      have hjump : (PDX (a * PGSIZE) + 1) * 2 ^ 22 = ((a / NPDENTRIES + 1) * NPDENTRIES) *
          PGSIZE := by
        rw [PDX_page hav]; simp only [NPDENTRIES, PGSIZE]; omega
      simp only [Option.map_none, hjump]
      have hle : (a + 1) * PGSIZE ≤ (a / NPDENTRIES + 1) * NPDENTRIES * PGSIZE :=
        Nat.mul_le_mul_right _ (by simp only [NPDENTRIES]; omega)
      refine (ih hk' (by omega) h).mono ?_ fun _ _ h => h
      rintro _ m' ⟨sp', hfr, h'⟩
      refine ⟨sp', ⟨hfr.dir_eq, fun w => ?_⟩, h'⟩
      rw [hfr.maps_eq]
      by_cases hw : w / NPDENTRIES = a / NPDENTRIES
      · rw [h.maps_none (by rw [hw, ht]), ite_self, ite_self]
      · have : (a / NPDENTRIES + 1) * NPDENTRIES ≤ w ↔ a ≤ w := by
          simp only [NPDENTRIES] at hw ⊢; omega
        simp only [this]
    | some t =>
      simp only [Option.map_some, wp_bind, wp_gets, wp_ite]
      -- the rest of the loop, from a state in which page `a` is not mapped
      have hrest : ∀ (m1 : Mem) (sp1 : Space), sp.Changed a none sp1 → Heap F m1 (sp1 ::ₘ S) lo →
          wp (deallocLoop I sp.dir oldsz k (a * PGSIZE + PGSIZE))
            (fun _ m' => ∃ sp', sp.Freed sp' a oldsz ∧ Heap F m' (sp' ::ₘ S) lo) E m1 := by
        intro m1 sp1 hc h1
        rw [← hc.dir_eq, ← Nat.succ_mul]
        refine (ih hk' hfuel' h1).mono ?_ fun _ _ h => h
        rintro _ m' ⟨sp', hfr, h'⟩
        refine ⟨sp', ⟨hfr.dir_eq.trans hc.dir_eq, fun w => ?_⟩, h'⟩
        rw [hfr.maps_eq]
        by_cases hw : w = a
        · rw [hw, hc.maps_self, ite_self, if_pos ⟨le_rfl, ha⟩]
        · have : a + 1 ≤ w ↔ a ≤ w := by omega
          simp only [hc.maps_of_ne hw, this]
      have hmaps := h.maps_found hav ht
      refine ⟨fun hpres => ?_, fun hpres => ?_⟩
      · have hf : m.ram.pte sp.dir a = some (m.ram.page t (a % NPDENTRIES)).frame := by
          rw [pte_eq ht]; exact Pte.entry_eq_some.mpr ⟨hpres, rfl⟩
        have hfF := I.mem_managed.mp
          (hF (h.mem_of_frames (Multiset.mem_cons_self _ _) (mapped_mem_frames hak hf)))
        have hne : (m.ram.page t (a % NPDENTRIES)).frame ≠ 0 := by
          have := I.extmem_lt; have := I.data_le; omega
        simp only [hne, false_imp_iff, not_false_iff, true_imp_iff, true_and]
        rw [← wp_bind]
        exact wp_kfree_unmap h hF hak ht hf fun sp1 m1 hc h1 => hrest m1 sp1 hc h1
      · have hnone : sp.maps a = none := by
          rw [hmaps]
          exact found_none.mpr (by simpa using hpres)
        exact hrest m sp (hnone ▸ .refl sp a) h

/-- The first page at or above an address. -/
def pageUp (sz : Nat) : Nat := (sz + PGSIZE - 1) / PGSIZE

theorem pageUp_le : pageUp v ≤ w ↔ v ≤ w * PGSIZE := by
  simp only [pageUp, PGSIZE]
  omega

theorem wp_deallocuvm (hF : F ⊆ I.managed) {oldsz newsz : Nat} (hold : oldsz ≤ KERNBASE)
    (h : Heap F m (sp ::ₘ S) lo) :
    wp (deallocuvm I sp.dir oldsz newsz)
      (fun r m' => r = min oldsz newsz ∧ ∃ sp', sp.Freed sp' (pageUp newsz) oldsz ∧
        Heap F m' (sp' ::ₘ S) lo) E m := by
  rw [deallocuvm]
  by_cases hle : newsz ≥ oldsz
  · rw [if_pos hle]
    refine ⟨by omega, sp, ⟨rfl, fun w => (if_neg ?_).symm⟩, h⟩
    rw [pageUp_le]
    omega
  · rw [if_neg hle, wp_bind, PGROUNDUP]
    refine (wp_deallocLoop hF hold (by decide) ?_ h).mono (fun _ m' h' => ⟨by omega, h'⟩)
      fun _ _ h => h
    simp only [KERNBASE, KERNPAGE, PGSIZE] at hold ⊢; omega

/-- `freevm` gives back every frame of an address space. -/
theorem wp_freevm (hF : F ⊆ I.managed) {Q : Unit → Mem → Prop} (h : Heap F m (sp ::ₘ S) lo)
    (hQ : ∀ m', Heap F m' S lo → Q () m') : wp (freevm I (some sp.dir)) Q E m := by
  simp only [freevm, wp_bind]
  refine wp.mono (wp_deallocuvm hF le_rfl h) ?_ fun _ _ h => h
  rintro _ m1 ⟨-, sp1, hfr, h1⟩
  have hbare : ∀ v < KERNPAGE, sp1.maps v = none := fun v hv =>
    hfr.gone (pageUp_le.mpr (Nat.zero_le _)) (by simp only [KERNBASE, PGSIZE]; omega)
  have h2 := h1.dissolve hbare
  rw [hfr.dir_eq] at h2
  -- round `i` has given back the tables of the entries below `i`
  refine wp_forM_range (fun i m' => m'.ram sp.dir = m1.ram sp.dir ∧ Heap F m' S (sp.dir ::ₘ
    (held (.range NPDENTRIES) (fun j => if j < i then none else m1.ram.table sp.dir j) +
      lo))) ?_ ?_ ?_
  · exact ⟨rfl, by simpa [Ram.tables] using h2⟩
  · rintro i hi m2 ⟨hram, h2⟩
    simp only [freeTable, wp_bind, wp_gets, wp_ite, wp_pure, Ram.page_congr hram]
    have hshift : ∀ j, j ≠ i → (if j < i + 1 then none else m1.ram.table sp.dir j) =
        if j < i then none else m1.ram.table sp.dir j := by
      intro j hj
      by_cases hji : j < i
      · rw [if_pos hji, if_pos (by omega)]
      · rw [if_neg hji, if_neg (by omega)]
    refine ⟨fun hpres => ?_, fun hpres => ⟨hram, ?_⟩⟩
    · have ht : (if i < i then none else m1.ram.table sp.dir i) =
          some (m1.ram.page sp.dir i).frame := by
        rw [if_neg (Nat.lt_irrefl i), table_present hpres]
      rw [held_take (Finset.mem_range.mpr hi) ht, Multiset.cons_add, Multiset.cons_swap] at h2
      have hne : sp.dir ≠ (m1.ram.page sp.dir i).frame := by
        have hnd := (Multiset.nodup_add.mp (Multiset.nodup_add.mp h2.nodup).1).2.1
        rw [Multiset.nodup_cons] at hnd
        exact fun e => hnd.1 (e ▸ Multiset.mem_cons_self _ _)
      refine wp_kfree h2 hF fun m3 hsame h3 => ⟨(hsame _ hne).trans hram, ?_⟩
      convert h3 using 3
      refine held_congr fun j _ => ?_
      by_cases hj : j = i
      · rw [hj, Function.update_self, if_pos (Nat.lt_succ_self i)]
      · rw [Function.update_of_ne hj, hshift j hj]
    · convert h2 using 3
      refine held_congr fun j _ => ?_
      by_cases hj : j = i
      · rw [hj, if_pos (Nat.lt_succ_self i), if_neg (Nat.lt_irrefl i), table_absent hpres]
      · exact hshift j hj
  · rintro m2 ⟨-, h2⟩
    rw [held_eq_zero fun j hj => if_pos (Finset.mem_range.mp hj), zero_add] at h2
    exact wp_kfree h2 hF fun m3 _ h3 => hQ m3 h3

/-! ### The free list only grows -/

/-- The free list has only been added to. -/
def Grows (m m' : Mem) : Prop := m.freelist <:+ m'.freelist

instance : IsPreorder Mem Grows where
  refl _ := List.suffix_rfl
  trans _ _ _ h h' := h.trans h'

theorem wlp_kfree : wlp (kfree I f) (fun _ m' => m'.freelist = f :: m.freelist) m := by
  simp [kfree, wlp_ite, Mem.setPage]

theorem kfree_grows : Keeps Grows (kfree I f) := by
  intro m r m' h
  rw [Grows, wlp_kfree r m' h]
  exact List.suffix_cons _ _

theorem walkpgdir_grows (d va : Nat) : Keeps Grows (walkpgdir d va false) := by
  intro m r m' h
  rw [walkpgdir_read] at h
  cases h
  exact List.suffix_rfl

theorem deallocLoop_grows {d oldsz k a : Nat} : Keeps Grows (deallocLoop I d oldsz k a) := by
  induction k generalizing a with
  | zero => exact .stop
  | succ k ih =>
    refine .ite (.bind (walkpgdir_grows d a) fun r => ?_) .pure
    cases r with
    | none => exact ih
    | some r =>
      exact .bind .gets fun _ => .ite (.ite (.bind .halt fun _ => .bind kfree_grows fun _ =>
        .bind (.update fun _ => List.suffix_rfl) fun _ => ih)
        (.bind kfree_grows fun _ => .bind (.update fun _ => List.suffix_rfl) fun _ => ih)) ih

/-- `freevm` puts the directory on the free list. -/
theorem freevm_grows {d : Nat} :
    Keeps (fun m m' => Grows m m' ∧ d ∈ m'.freelist) (freevm I (some d)) := by
  intro m r m' h
  obtain ⟨_, m1, h1, h⟩ := bind_eq_ok h
  obtain ⟨_, m2, h2, h⟩ := bind_eq_ok h
  have hd : Keeps Grows (deallocuvm I d KERNBASE 0) :=
    .ite .pure (.bind deallocLoop_grows fun _ => .pure)
  have ht : Keeps Grows ((List.range NPDENTRIES).forM (freeTable I d)) :=
    .forM fun _ => .bind .gets fun _ => .ite kfree_grows .pure
  refine ⟨(hd _ _ _ h1).trans ((ht _ _ _ h2).trans (kfree_grows _ _ _ h)), ?_⟩
  rw [wlp_kfree r m' h]
  exact List.mem_cons_self

/-! ## The kernel's part -/

/-- The number of pages of an entry of `kmap`. -/
def Kmap.pages (k : Kmap) : Nat := sub32 (k.physEnd * PGSIZE) (k.physStart * PGSIZE) / PGSIZE

/-- What is mapped where, once the entries `l` of `kmap` are. -/
def mapped (l : List Kmap) (g : Nat → Option Page) : Nat → Option Page :=
  l.foldl (fun g k => mapsRange k.perm k.physStart k.virt k.pages g) g

/-- What `setupkvm` maps. -/
def kernelMaps (I : Layout) : Nat → Option Page := mapped (kmap I) fun _ => none

/-- A property of all that is mapped. -/
theorem mapped_ind {l : List Kmap} {g : Nat → Option Page} {p : Option Page → Prop} (hg : p (g w))
    (hk : ∀ k ∈ l, k.virt ≤ w → ∀ f, p (some (.of k.perm f .zero))) : p (mapped l g w) := by
  induction l generalizing g with
  | nil => exact hg
  | cons k l ih =>
    refine ih ?_ fun k' hk' => hk k' (List.mem_cons_of_mem _ hk')
    simp only [mapsRange]
    split
    next hw => exact hk k List.mem_cons_self hw.1 _
    next => exact hg

/-- An entry of `kmap` is in the kernel's part. -/
structure Kmap.Ok (k : Kmap) : Prop where
  virt_le : KERNPAGE ≤ k.virt
  pages_pos : 0 < k.pages
  virt_add_le : k.virt + k.pages ≤ 2 ^ 20
  phys_add_le : k.physStart + k.pages ≤ 2 ^ 20
  size_eq : sub32 (k.physEnd * PGSIZE) (k.physStart * PGSIZE) = k.pages * PGSIZE
  perm_fits : k.perm.Fits
  not_user : k.perm.user = false

theorem sub32_pages {a b : Nat} (hb : b ≤ a) (ha : a < 2 ^ 20) :
    sub32 (a * PGSIZE) (b * PGSIZE) = (a - b) * PGSIZE := by
  simp only [sub32, PGSIZE]
  omega

/-- The entry of `DEVSPACE` ends where the addresses wrap around. -/
theorem sub32_zero {b : Nat} (hb : 0 < b) (hb' : b < 2 ^ 20) :
    sub32 (0 * PGSIZE) (b * PGSIZE) = (2 ^ 20 - b) * PGSIZE := by
  simp only [sub32, PGSIZE]
  omega

theorem Kmap.ok_of (virt a b : Nat) (perm : Flags) {n : Nat}
    (hsize : sub32 (b * PGSIZE) (a * PGSIZE) = n * PGSIZE) (hn : 0 < n) (hv : KERNPAGE ≤ virt)
    (hva : virt + n ≤ 2 ^ 20) (hpa : a + n ≤ 2 ^ 20) (hrest : perm.rest = 0)
    (huser : perm.user = false) : (Kmap.mk virt a b perm).Ok ∧
    (Kmap.mk virt a b perm).pages = n := by
  have hpages : (Kmap.mk virt a b perm).pages = n := by
    rw [Kmap.pages, hsize]
    simp [PGSIZE]
  refine ⟨⟨hv, ?_, ?_, ?_, ?_, ?_, huser⟩, hpages⟩
  · rwa [hpages]
  · rwa [hpages]
  · rwa [hpages]
  · rwa [hpages]
  · rw [Flags.Fits, hrest]
    exact Nat.two_pow_pos 9

/-- The entries of `kmap` go upwards. -/
theorem kmap_ok (I : Layout) : (∀ k ∈ kmap I, k.Ok) ∧
    (kmap I).Pairwise fun k k' => k.virt + k.pages ≤ k'.virt := by
  obtain ⟨hext, hdata, hphys, hdev, hdev'⟩ := And.intro I.extmem_pos <| And.intro I.extmem_lt <|
    And.intro I.data_lt <| And.intro I.phystop_le I.devspace_lt
  have hK : KERNPAGE = 2 ^ 19 := by rw [KERNPAGE]
  obtain ⟨hok1, hp1⟩ := Kmap.ok_of KERNPAGE 0 I.extmem PTE_W
    (sub32_pages (Nat.zero_le _) (by omega)) (by omega) le_rfl (by omega) (by omega) rfl rfl
  obtain ⟨hok2, hp2⟩ := Kmap.ok_of (KERNPAGE + I.extmem) I.extmem I.data ⟨false, false, false, 0⟩
    (sub32_pages hdata.le (by omega)) (by omega) (by omega) (by omega) (by omega) rfl rfl
  obtain ⟨hok3, hp3⟩ := Kmap.ok_of (KERNPAGE + I.data) I.data I.phystop PTE_W
    (sub32_pages hphys.le (by omega)) (by omega) (by omega) (by omega) (by omega) rfl rfl
  obtain ⟨hok4, -⟩ := Kmap.ok_of I.devspace I.devspace 0 PTE_W
    (sub32_zero (by omega) hdev') (by omega) (by omega) (by omega) (by omega) rfl rfl
  refine ⟨by simp [kmap, hok1, hok2, hok3, hok4], ?_⟩
  simp only [kmap, List.pairwise_cons, List.forall_mem_cons, List.not_mem_nil, false_imp_iff,
    implies_true, and_true, List.Pairwise.nil, hp1, hp2, hp3]
  omega

/-- The kernel's part has nothing below `KERNBASE` and is not open to the user. -/
theorem kernelMaps_below (hw : w < KERNPAGE) : kernelMaps I w = none :=
  mapped_ind (p := (· = none)) rfl fun k hk hle => by
    have := ((kmap_ok I).1 k hk).virt_le
    omega

theorem kernelMaps_user {pg : Page} (h : kernelMaps I w = some pg) : pg.pte.user = false :=
  mapped_ind (p := fun o => ∀ pg, o = some pg → pg.pte.user = false) (by simp)
    (fun k hk _ f pg hpg => by cases hpg; exact ((kmap_ok I).1 k hk).not_user) pg h

/-- The devices are at the top. -/
theorem kernelMaps_devspace (hw : I.devspace ≤ w) (hlt : w < 2 ^ 20) : kernelMaps I w ≠ none := by
  have hpages : Kmap.pages ⟨I.devspace, I.devspace, 0, PTE_W⟩ = 2 ^ 20 - I.devspace := by
    have hlt := I.devspace_lt
    have hpos := I.phystop_le
    simp only [Kmap.pages, sub32, PGSIZE, KERNPAGE] at hpos ⊢
    omega
  simp only [kernelMaps, kmap, mapped, List.foldl_cons, List.foldl_nil, hpages]
  rw [mapsRange, if_pos ⟨hw, by omega⟩]
  exact Option.some_ne_none _

/-- The page tables that entries of `kmap` need, where `t` is the last one so far. -/
def tablesFor : Option Nat → List Kmap → Nat
  | _, [] => 0
  | t, k :: l =>
    (if t = some (k.virt / NPDENTRIES) then 0 else 1) +
      ((k.virt + k.pages - 1) / NPDENTRIES - k.virt / NPDENTRIES) +
      tablesFor (some ((k.virt + k.pages - 1) / NPDENTRIES)) l

/-- The frames that `setupkvm` takes: a directory, and the page tables. -/
def kernelFrames (I : Layout) : Nat := tablesFor none (kmap I) + 1

/-- The loop of `setupkvm`.  `t` is the last page table, and has the last page that is mapped. -/
theorem wp_mapKernel (hF : F ⊆ I.managed) {l : List Kmap} (hok : ∀ k ∈ l, k.Ok)
    (hup : l.Pairwise fun k k' => k.virt + k.pages ≤ k'.virt) (h : Heap F m (sp ::ₘ S) lo)
    (hb : ∀ k ∈ l, sp.Bare k.virt (2 ^ 20)) (ht : sp.Tight) {t : Option Nat}
    (hlast : ∀ k ∈ l, sp.missing k.virt = if t = some (k.virt / NPDENTRIES) then 0 else 1) :
    wp (mapKernel sp.dir l) (fun r m' => ∃ sp', sp'.dir = sp.dir ∧ Heap F m' (sp' ::ₘ S) lo ∧
      (r = true → sp'.maps = mapped l sp.maps ∧ sp'.Tight ∧ m.avail = m'.avail + tablesFor t l) ∧
      (r = false → m.avail < tablesFor t l)) E m := by
  induction l generalizing sp m t with
  | nil => exact ⟨sp, rfl, h, fun _ => ⟨rfl, ht, rfl⟩, (by rintro ⟨⟩)⟩
  | cons k l ih =>
    rw [List.forall_mem_cons] at hok hb hlast
    rw [List.pairwise_cons] at hup
    obtain ⟨hvirt, hpos, hva, hpa, hsize, hperm, -⟩ := hok.1
    have hcount : tablesFor t (k :: l) = sp.tablesTo k.virt (k.virt + k.pages - 1) +
        tablesFor (some ((k.virt + k.pages - 1) / NPDENTRIES)) l := by
      rw [tablesFor, Space.tablesTo, hlast.1]
    simp only [mapKernel, wp_bind, wp_ite, wp_pure, hsize]
    refine (wp_mappages_kernel hF hperm hvirt hpos hva hpa h hb.1 ht).mono ?_ fun _ _ h => h
    rintro r m1 ⟨sp1, hdir, h1, hmap, hfail⟩
    refine ⟨fun hr => ?_, fun hr => ⟨sp1, hdir, h1, (by rintro ⟨⟩), fun _ => ?_⟩⟩
    · obtain ⟨hmaps, htight, hav⟩ := hmap hr
      have hb1 : ∀ k' ∈ l, sp1.Bare k'.virt (2 ^ 20) := by
        intro k' hk' w hw hw'
        have := hup.1 k' hk'
        rw [hmaps, mapsRange, if_neg (by omega), hb.2 k' hk' w hw hw']
      have hlast1 : ∀ k' ∈ l, sp1.missing k'.virt =
          if some ((k.virt + k.pages - 1) / NPDENTRIES) = some (k'.virt / NPDENTRIES) then
          0 else 1 := by
        intro k' hk'
        have hle := hup.1 k' hk'
        have hlt := (hok.2 k' hk').virt_add_le
        have hpos' := (hok.2 k' hk').pages_pos
        simp only [Option.some_inj, ← ite_not (_ = _) 1 0]
        refine htight.missing_eq (by omega) ⟨fun hne w hw => ?_, fun hall he => ?_⟩
        · rw [hmaps, mapsRange, if_neg (by simp only [NPDENTRIES] at *; omega)]
          by_cases hkw : k.virt ≤ w
          · by_cases hw' : w < 2 ^ 20
            · exact hb.1 w hkw hw'
            · rw [Space.maps, Ram.view, if_neg hw']
          · simp only [NPDENTRIES] at *
            omega
        · have := hall (k.virt + k.pages - 1) he
          rw [hmaps, mapsRange, if_pos (by omega)] at this
          cases this
      have hnext := ih hok.2 hup.2 h1 hb1 htight hlast1
      rw [hdir, hmaps] at hnext
      refine hnext.mono ?_ fun _ _ h => h
      rintro r' m2 ⟨sp2, hdir2, h2, hmap2, hfail2⟩
      refine ⟨sp2, hdir2, h2, fun hr' => ?_, fun hr' => ?_⟩
      · obtain ⟨hmaps2, htight2, hav2⟩ := hmap2 hr'
        exact ⟨hmaps2, htight2, by omega⟩
      · have := hfail2 hr'
        omega
    · have := hfail (by simpa using hr)
      omega

/-- `setupkvm` makes an address space without user pages, or there are not enough frames. -/
theorem wp_setupkvm (hF : F ⊆ I.managed) {Q : Option Nat → Mem → Prop} (h : Heap F m S lo)
    (hnone : ∀ m', m.avail < kernelFrames I → Heap F m' S lo → Q none m')
    (hsome : ∀ sp m', sp.maps = kernelMaps I → sp.Tight ∧ m.avail = m'.avail + kernelFrames I →
      Heap F m' (sp ::ₘ S) lo → Q (some sp.dir) m') : wp (setupkvm I) Q E m := by
  have hphys := I.phystop_le
  rw [setupkvm, wp_bind]
  refine wp_kalloc h (fun m' _ hav => hnone m' (hav ▸ Nat.succ_pos _)) fun d m1 _ htook h1 => ?_
  simp only [wp_bind, wp_ite, wp_halt, wp_pure]
  refine wp_clear h1 fun m2 hfl hram h2 => ⟨fun hn => by omega, fun _ => ?_⟩
  obtain ⟨h3, hmaps⟩ := h2.start (by rw [hram, Function.update_self])
  have hnone' : ∀ i, m2.ram.table d i = none := by
    intro i
    rw [Ram.table, Ram.page_zero (by rw [hram, Function.update_self]), Pte.entry_zero]
  have htight : (m2.space d).Tight := fun i _ ht => absurd (hnone' i) ht
  have hcount : m.avail = m2.avail + 1 := by rw [htook.avail, hfl.2]
  obtain ⟨hok, hup⟩ := kmap_ok I
  refine (wp_mapKernel hF hok hup h3 (fun k _ w _ _ => by rw [hmaps]) htight (t := none)
    fun k _ => if_pos (hnone' _)).mono ?_ fun _ _ h => h
  rintro r m4 ⟨sp, hdir, h4, hmap, hfail⟩
  rw [Mem.dir_space] at hdir
  subst hdir
  refine ⟨fun hr => ?_, fun hr => wp_freevm hF h4 fun m' => hnone m' ?_⟩
  · obtain ⟨hmaps', htight', hav⟩ := hmap hr
    refine hsome sp m4 ?_ ⟨htight', ?_⟩ h4
    · rw [hmaps', hmaps, kernelMaps]
    · rw [kernelFrames]
      omega
  · have := hfail (by simpa using hr)
    rw [kernelFrames]
    omega

end Xv6Rework.Vm
