import Xv6Rework.Mem.VmSpec

/-!
# User memory

What `allocuvm`, `deallocuvm`, `copyuvm` and the functions of `exec` do to the user
part of an address space.

A process of size `sz` has the pages that cover `[0, sz)` mapped and no others
(`Space.Covers`).  `allocuvm` adds pages of zeros at the end or leaves the user part as it
was, `deallocuvm` takes pages away, and `copyuvm` makes a copy on frames of its own.
-/

namespace Xv6Rework.Vm

open Prog

variable {I : Layout} {F : Finset Nat} {m : Mem} {S : Multiset Space} {lo : Multiset Nat}
  {sp sp' sp1 : Space} {f v w a b oldsz newsz : Nat} {perm : Flags} {E : Stop → Mem → Prop}

/-- The user part maps exactly the pages that cover `[0, sz)`. -/
def Space.Covers (sp : Space) (sz : Nat) : Prop :=
  ∀ w < KERNPAGE, sp.maps w ≠ none ↔ w * PGSIZE < sz

/-! ## Growing -/

/-- The pages `a` to `b` of `sp'` are new, full of zeros and on frames of `l`; the others are
those of `sp`. -/
structure Space.Extended (sp : Space) (l : List Nat) (a b : Nat) (sp' : Space) : Prop where
  dir_eq : sp'.dir = sp.dir
  new : ∀ w, a ≤ w → w < b → ∃ f ∈ l, sp'.maps w = some (.of PTE_WU f .zero)
  old : ∀ w, ¬(a ≤ w ∧ w < b) → sp'.maps w = sp.maps w
  tight : sp.Tight → sp'.Tight

theorem Space.Extended.refl {l : List Nat} (h : b ≤ a) : sp.Extended l a b sp :=
  ⟨rfl, fun w hw hw' => by omega, fun _ _ => rfl, id⟩

/-- One page more. -/
theorem Space.Extended.cons {l l' : List Nat} (hc : sp.Changed a (some (.of PTE_WU f .zero)) sp1)
    (h : sp1.Extended l' (a + 1) b sp') (hf : f ∈ l) (hl : l' ⊆ l) (hab : a < b) :
    sp.Extended l a b sp' where
  dir_eq := h.dir_eq.trans hc.dir_eq
  new w hw hw' := by
    by_cases hwa : w = a
    · subst hwa
      exact ⟨f, hf, (h.old w (by omega)).trans hc.maps_self⟩
    · obtain ⟨g, hg, hmaps⟩ := h.new w (by omega) hw'
      exact ⟨g, hl hg, hmaps⟩
  old w hw := (h.old w (by omega)).trans (hc.maps_of_ne (by rintro rfl; omega))
  tight ht := h.tight (ht.changed hc)

/-- Unmapping pages of which one has been mapped before. -/
theorem Space.Freed.changed {o : Option Page} (hc : sp.Changed v o sp1)
    (h : sp1.Freed sp' a oldsz) (ha : a ≤ v) (hv : v * PGSIZE < oldsz) : sp.Freed sp' a oldsz where
  dir_eq := h.dir_eq.trans hc.dir_eq
  maps_eq w := by
    rw [h.maps_eq]
    by_cases hw : w = v
    · subst hw
      rw [if_pos ⟨ha, hv⟩, if_pos ⟨ha, hv⟩]
    · rw [hc.maps_of_ne hw]

/-- The user part is the pages below `a`, and there are no page tables but those that are
needed. -/
structure Space.Packed (sp : Space) (a : Nat) : Prop where
  tight : sp.Tight
  maps : ∀ w < KERNPAGE, sp.maps w ≠ none ↔ w < a

/-- The frames that `a` pages and their page tables take. -/
def userFrames (a : Nat) : Nat := a + (a + NPDENTRIES - 1) / NPDENTRIES

theorem userFrames_mono (h : a ≤ b) : userFrames a ≤ userFrames b := by
  simp only [userFrames, NPDENTRIES]
  omega

theorem Space.Packed.missing (h : sp.Packed a) (ha : a < KERNPAGE) :
    userFrames (a + 1) = userFrames a + 1 + sp.missing a := by
  have hmiss : sp.missing a = if a % NPDENTRIES = 0 then 1 else 0 := by
    refine h.tight.missing_eq (lt_of_lt_KERNPAGE ha) ⟨fun hmod w hw => ?_, fun hall => ?_⟩
    · simp only [NPDENTRIES, KERNPAGE] at hmod hw ha
      exact not_not.1 fun hn => absurd ((h.maps w (by rw [KERNPAGE]; omega)).1 hn) (by omega)
    · by_contra hmod
      simp only [NPDENTRIES] at hmod hall
      exact (h.maps (a - 1) (by omega)).2 (by omega) (hall (a - 1) (by omega))
  rw [hmiss]
  simp only [userFrames, NPDENTRIES]
  split <;> omega

theorem Space.Packed.changed {pg : Page} (h : sp.Packed a) (hc : sp.Changed a (some pg) sp') :
    sp'.Packed (a + 1) where
  tight := h.tight.changed hc
  maps w hw := by
    by_cases hwa : w = a
    · simp [hwa, hc.maps_self]
    · rw [hc.maps_of_ne hwa, h.maps w hw]
      omega

/-- What `allocuvm` has done: all of it, or nothing to the pages below `oldsz` and nothing
left above.  It fails where there are not enough frames. -/
def Allocated (F : Finset Nat) (S : Multiset Space) (lo : Multiset Nat) (sp : Space) (m : Mem)
    (a oldsz newsz : Nat) (r : Nat) (m' : Mem) : Prop :=
  (r = newsz ∧ ∃ sp', sp.Extended m.freelist a (pageUp newsz) sp' ∧ Heap F m' (sp' ::ₘ S) lo ∧
    (sp.Packed a → a ≤ pageUp newsz →
      m.avail + userFrames a = m'.avail + userFrames (pageUp newsz))) ∨
  (r = 0 ∧ ∃ sp', sp.Freed sp' (pageUp oldsz) newsz ∧ Heap F m' (sp' ::ₘ S) lo ∧
    (sp.Packed a → m.avail + userFrames a < userFrames (pageUp newsz)))

theorem lt_pageUp : w < pageUp v ↔ w * PGSIZE < v := by
  rw [← not_le, pageUp_le, not_le]

theorem PTE_WU_fits : PTE_WU.Fits := Nat.two_pow_pos 9

/-- The loop of `allocuvm`, from page `a` on. -/
theorem wp_allocLoop (hF : F ⊆ I.managed) {k : Nat} (hnew : newsz < KERNBASE)
    (ha : pageUp oldsz ≤ a) (hk : 0 < k) (hfuel : newsz + PGSIZE ≤ a * PGSIZE + k * PGSIZE)
    (h : Heap F m (sp ::ₘ S) lo) (hb : sp.Bare a (pageUp newsz)) :
    wp (allocLoop I sp.dir oldsz newsz k (a * PGSIZE)) (Allocated F S lo sp m a oldsz newsz)
      E m := by
  induction k generalizing a m sp with
  | zero => exact absurd hk (Nat.lt_irrefl 0)
  | succ k ih =>
    rw [allocLoop]
    by_cases han : a * PGSIZE < newsz
    case neg =>
      rw [if_neg han]
      have hle : pageUp newsz ≤ a := pageUp_le.mpr (by omega)
      exact .inl ⟨rfl, sp, .refl hle, h, fun _ hge => by rw [le_antisymm hle hge]⟩
    have hau : a < pageUp newsz := lt_pageUp.mpr han
    have hak : a < KERNPAGE := by simp only [KERNBASE, PGSIZE] at hnew han; omega
    rw [if_pos han, wp_bind]
    have hframes : sp.Packed a → userFrames a + 1 + sp.missing a ≤ userFrames (pageUp newsz) :=
      fun hp =>
      (hp.missing hak).symm.trans_le (userFrames_mono hau)
    refine wp_kalloc h (fun m1 _ hav h1 => ?_) fun f m1 _ htook h1 => ?_
    · simp only [wp_bind, wp_pure]
      refine (wp_deallocuvm hF hnew.le h1).mono ?_ fun _ _ h => h
      rintro _ m' ⟨-, sp', hfr, h'⟩
      refine .inr ⟨rfl, sp', hfr, h', fun hp => ?_⟩
      have := hframes hp
      omega
    simp only [wp_bind, wp_ite, wp_pure]
    refine wp_clear h1 fun m2 hfl2 hram2 h2 => wp_mappages h2 hF PTE_WU_fits hak (hb a le_rfl hau)
      (fun m3 _ hav h3 => ?_) fun sp3 m3 hc hspent h3 => ?_
    · refine ⟨(by rintro ⟨⟩), fun _ => (wp_deallocuvm hF hnew.le h3).mono ?_ fun _ _ h => h⟩
      rintro _ m' ⟨-, sp', hfr, h'⟩
      refine wp_kfree h' hF fun m4 _ h4 => .inr ⟨rfl, sp', hfr, h4, fun hp => ?_⟩
      have := hframes hp
      have := htook.avail
      omega
    · refine ⟨fun _ => ?_, fun hn => absurd rfl hn⟩
      rw [hram2, Function.update_self] at hc
      rw [← Nat.succ_mul, ← hc.dir_eq]
      have hk' : 0 < k := by
        rcases Nat.eq_zero_or_pos k with rfl | hk'
        · rw [Nat.zero_add, Nat.one_mul] at hfuel; omega
        · exact hk'
      refine (ih (a := a + 1) (by omega) hk' ?_ h3 fun w hw hw' => ?_).mono ?_ fun _ _ h => h
      · rw [Nat.succ_mul] at hfuel ⊢; omega
      · rw [hc.maps_of_ne (by omega), hb w (by omega) hw']
      · have hav : m.avail = m3.avail + sp.missing a + 1 := by
          rw [htook.avail, ← hfl2.2, hspent.avail]
        rintro r m' (⟨rfl, sp', hext, h', hpay⟩ | ⟨rfl, sp', hfr, h', hpay⟩)
        · refine .inl ⟨rfl, sp', .cons hc hext (htook.freelist ▸ List.mem_cons_self)
            (fun g hg => ?_) hau, h', fun hp _ => ?_⟩
          · rw [htook.freelist, ← hfl2.1]
            exact List.mem_cons_of_mem _ (hspent.freelist.subset hg)
          · have := hpay (hp.changed hc) hau
            have := hp.missing hak
            omega
        · refine .inr ⟨rfl, sp', .changed hc hfr ha han, h', fun hp => ?_⟩
          have := hpay (hp.changed hc)
          have := hp.missing hak
          omega

/-- `allocuvm` upwards from `oldsz`, where nothing is mapped. -/
theorem wp_allocuvm (hF : F ⊆ I.managed) (hon : oldsz ≤ newsz) (hnew : newsz < KERNBASE)
    (h : Heap F m (sp ::ₘ S) lo) (hb : sp.Bare (pageUp oldsz) (pageUp newsz)) :
    wp (allocuvm I sp.dir oldsz newsz false) (fun r m' =>
      (r = newsz ∧ ∃ sp', sp.Extended m.freelist (pageUp oldsz) (pageUp newsz) sp' ∧
        Heap F m' (sp' ::ₘ S) lo ∧ (sp.Packed (pageUp oldsz) →
          m.avail + userFrames (pageUp oldsz) = m'.avail + userFrames (pageUp newsz))) ∨
      (r = 0 ∧ ∃ sp', sp'.dir = sp.dir ∧ sp'.maps = sp.maps ∧ Heap F m' (sp' ::ₘ S) lo ∧
        (sp.Packed (pageUp oldsz) →
          m.avail + userFrames (pageUp oldsz) < userFrames (pageUp newsz)))) E m := by
  rw [allocuvm, if_neg (by omega), if_neg (by omega), if_neg Bool.false_ne_true, PGROUNDUP]
  refine (wp_allocLoop hF hnew le_rfl (by decide) ?_ h hb).mono ?_ fun _ _ h => h
  · simp only [KERNBASE, KERNPAGE, PGSIZE] at hnew ⊢
    omega
  · rintro r m' (⟨hr, sp', hext, h', hpay⟩ | ⟨rfl, sp', hfr, h', hpay⟩)
    · exact .inl ⟨hr, sp', hext, h', fun hp => hpay hp
        (pageUp_le.mpr (hon.trans (pageUp_le.mp le_rfl)))⟩
    · refine .inr ⟨rfl, sp', hfr.dir_eq, funext fun w => ?_, h', hpay⟩
      rw [hfr.maps_eq]
      split
      next hw => exact (hb w hw.1 (lt_pageUp.mpr hw.2)).symm
      next => rfl

/-- `allocuvm` where it does nothing. -/
theorem allocuvm_high (h : KERNBASE ≤ newsz) : allocuvm I v oldsz newsz false = pure 0 := by
  rw [allocuvm, if_pos h]

theorem allocuvm_low (h : newsz < oldsz) (hk : newsz < KERNBASE) :
    allocuvm I v oldsz newsz false = pure oldsz := by
  rw [allocuvm, if_neg (by omega), if_pos h]

/-! ## Shrinking, page by page -/

/-- The body of the loop of `deallocuvm` at the address `a`. -/
def deallocPage (I : Layout) (pgdir a : Nat) : MemM Unit := do
  match (← walkpgdir pgdir a false) with
  | none => pure ()
  | some (t, j) =>
    let pte ← gets fun m => m.ram.page t j
    if pte.present then
      if pte.frame = 0 then
        halt "kfree"
      kfree I pte.frame
      update fun m => m.setPte t j Pte.zero

/-- The `n` pages from page `w` on. -/
def deallocPages (I : Layout) (pgdir : Nat) : Nat → Nat → MemM Unit
  | 0, _ => pure ()
  | n + 1, w => do
    deallocPage I pgdir (w * PGSIZE)
    deallocPages I pgdir n (w + 1)

/-- `deallocuvm` without the jump over absent page tables: every page of
`[PGROUNDUP(newsz), oldsz)` is visited. -/
def deallocuvmPages (I : Layout) (pgdir oldsz newsz : Nat) : MemM Nat := do
  if newsz ≥ oldsz then
    pure oldsz
  else
    deallocPages I pgdir (pageUp oldsz - pageUp newsz) (pageUp newsz)
    pure newsz

/-- Pages without a page table are passed over. -/
theorem deallocPages_skip {d i n : Nat}
    (h : ∀ w, a ≤ w → w < a + i → w < 2 ^ 20 ∧ m.ram.table d (w / NPDENTRIES) = none) :
    deallocPages I d (n + i) a m = deallocPages I d n (a + i) m := by
  induction i generalizing a with
  | zero => rfl
  | succ i ih =>
    obtain ⟨ha, hn⟩ := h a le_rfl (by omega)
    have hpage : deallocPage I d (a * PGSIZE) m = (.ok (), m) := by
      rw [deallocPage, bind_of_ok (walkpgdir_apply d ha), hn]
      rfl
    rw [← Nat.add_assoc, deallocPages, bind_of_ok hpage, ih fun w hw hw' => h w
      (by omega) (by omega), Nat.add_assoc, Nat.add_comm 1]

/-- The loop of `deallocuvm` and the one that visits every page. -/
theorem deallocLoop_eq {d k : Nat} (hold : oldsz ≤ KERNBASE) (hk : 0 < k)
    (hfuel : oldsz + PGSIZE ≤ a * PGSIZE + k * PGSIZE) :
    deallocLoop I d oldsz k (a * PGSIZE) m = deallocPages I d (pageUp oldsz - a) a m := by
  induction k generalizing a m with
  | zero => exact absurd hk (Nat.lt_irrefl 0)
  | succ k ih =>
    rw [deallocLoop]
    by_cases ha : a * PGSIZE < oldsz
    case neg =>
      have : pageUp oldsz ≤ a := pageUp_le.mpr (by omega)
      rw [if_neg ha, Nat.sub_eq_zero_of_le this]
      rfl
    have hau : a < pageUp oldsz := lt_pageUp.mpr ha
    have hup : pageUp oldsz ≤ KERNPAGE := pageUp_le.mpr (by rwa [KERNBASE] at hold)
    have hav := lt_of_lt_KERNPAGE (hau.trans_le hup)
    have hk' : 0 < k := by
      rcases Nat.eq_zero_or_pos k with rfl | hk'
      · rw [Nat.zero_add, Nat.one_mul] at hfuel; omega
      · exact hk'
    have hfuel' : oldsz + PGSIZE ≤ (a + 1) * PGSIZE + k * PGSIZE := by
      rw [Nat.succ_mul] at hfuel ⊢; omega
    rw [if_pos ha, bind_of_ok (walkpgdir_apply d hav)]
    cases ht : m.ram.table d (a / NPDENTRIES) with
    | none =>
      -- the page-by-page loop finds nothing up to the next directory entry
      have hjump : (PDX (a * PGSIZE) + 1) * 2 ^ 22 = ((a / NPDENTRIES + 1) * NPDENTRIES) *
          PGSIZE := by
        rw [PDX_page hav]; simp only [NPDENTRIES, PGSIZE]; omega
      have hle : (a + 1) * PGSIZE ≤ (a / NPDENTRIES + 1) * NPDENTRIES * PGSIZE :=
        Nat.mul_le_mul_right _ (by simp only [NPDENTRIES]; omega)
      simp only [Option.map_none, hjump]
      rw [ih hk' (by omega)]
      generalize hb : (a / NPDENTRIES + 1) * NPDENTRIES = b at hle ⊢
      have hskip : ∀ w, a ≤ w → w < min b (pageUp oldsz) →
          w < 2 ^ 20 ∧ m.ram.table d (w / NPDENTRIES) = none := by
        intro w hw hw'
        have hq : w / NPDENTRIES = a / NPDENTRIES := by simp only [NPDENTRIES] at hb ⊢; omega
        exact ⟨lt_of_lt_KERNPAGE (by omega), by rw [hq, ht]⟩
      have hab : a < b := by simp only [NPDENTRIES] at hb; omega
      have := deallocPages_skip (I := I) (d := d) (a := a) (m := m) (i := min b (pageUp oldsz) - a)
        (n := pageUp oldsz - b) fun w hw hw' => hskip w hw (by omega)
      rw [show pageUp oldsz - b + (min b (pageUp oldsz) - a) = pageUp oldsz - a by omega,
        show a + (min b (pageUp oldsz) - a) = min b (pageUp oldsz) by omega] at this
      rw [this]
      by_cases hbu : b ≤ pageUp oldsz
      · rw [Nat.min_eq_left hbu]
      · rw [Nat.sub_eq_zero_of_le (by omega)]
        rfl
    | some t =>
      rw [show pageUp oldsz - a = pageUp oldsz - (a + 1) + 1 by omega, deallocPages, deallocPage,
        bind_bind_apply, bind_of_ok (walkpgdir_apply d hav), ht]
      simp only [Option.map_some, bind_bind_apply, bind_gets, bind_ite_apply, bind_pure_apply]
      split
      · split
        · simp only [bind_halt]
        · refine congrFun (congrArg _ (funext fun _ =>
            congrArg _ (funext fun _ => funext fun m' => ?_))) _
          rw [← Nat.succ_mul, ih hk' hfuel']
      · rw [← Nat.succ_mul, ih hk' hfuel']

/-- The jump over absent page tables makes no difference. -/
theorem deallocuvm_eq_pages {d : Nat} (hold : oldsz ≤ KERNBASE) :
    deallocuvm I d oldsz newsz m = deallocuvmPages I d oldsz newsz m := by
  rw [deallocuvm, deallocuvmPages]
  split
  next => rfl
  next =>
    have hloop : deallocLoop I d oldsz (2 ^ 20) (PGROUNDUP newsz) =
        deallocPages I d (pageUp oldsz - pageUp newsz) (pageUp newsz) := by
      funext m
      refine deallocLoop_eq (a := pageUp newsz) hold (by decide) ?_
      simp only [KERNBASE, KERNPAGE, PGSIZE] at hold ⊢
      omega
    rw [hloop]

/-! ## Growing and shrinking again -/

theorem Space.Covers.bare (h : sp.Covers oldsz) (hnew : newsz < KERNBASE) :
    sp.Bare (pageUp oldsz) (pageUp newsz) := by
  intro w hw hw'
  by_contra hn
  have hwk : w < KERNPAGE := by
    have := lt_pageUp.mp hw'
    simp only [KERNBASE, PGSIZE] at this hnew
    omega
  have := (h w hwk).mp hn
  have := pageUp_le.mp hw
  omega

/-- The user part of an address space that has grown. -/
theorem Space.Extended.covers {l : List Nat} (h : sp.Extended l (pageUp oldsz) (pageUp newsz) sp')
    (hcov : sp.Covers oldsz) (hon : oldsz ≤ newsz) : sp'.Covers newsz := by
  intro w hw
  by_cases hnew : pageUp oldsz ≤ w ∧ w < pageUp newsz
  · obtain ⟨f, -, hf⟩ := h.new w hnew.1 hnew.2
    simp [hf, lt_pageUp.mp hnew.2]
  · rw [h.old w hnew, hcov w hw, ← lt_pageUp, ← lt_pageUp]
    have : pageUp oldsz ≤ pageUp newsz := pageUp_le.mpr (hon.trans (pageUp_le.mp le_rfl))
    omega

/-- The new pages are on different frames. -/
theorem Space.Extended.frames {l : List Nat} (h : sp.Extended l a b sp')
    (hheap : Heap F m (sp' ::ₘ S) lo) (hb : b ≤ KERNPAGE) :
    ∃ g : Nat → Nat, Set.InjOn g (Set.Ico a b) ∧
      ∀ w, a ≤ w → w < b → g w ∈ l ∧ sp'.maps w = some (.of PTE_WU (g w) .zero) := by
  choose! g hmem hmaps using h.new
  refine ⟨g, fun v hv w hw hvw => ?_, fun w hw hw' => ⟨hmem w hw hw', hmaps w hw hw'⟩⟩
  have hpte : ∀ u, a ≤ u → u < b → m.ram.pte sp'.dir u = some (g u) := by
    intro u hu hu'
    rw [hheap.pte_maps (lt_of_lt_KERNPAGE (by omega)), hmaps u hu hu']
    rfl
  refine hheap.mapped_inj (hv.2.trans_le hb) (hw.2.trans_le hb) (hpte v hv.1 hv.2) ?_
  rw [hvw]
  exact hpte w hw.1 hw.2

/-- `allocuvm` adds the pages that are missing, zeroed and on frames that were free, and
`deallocuvm` takes them away again; or it fails, and the user part is as before, with every
frame back on the free list that has not become a page table.  The jump that `deallocuvm` makes
over absent page tables makes no difference. -/
theorem allocuvm_deallocuvm_exact (I : Layout) :
    (∀ (F : Finset Nat) (m : Mem) (S : Multiset Space) (lo : Multiset Nat) (sp : Space)
      (oldsz newsz : Nat), F ⊆ I.managed → Heap F m (sp ::ₘ S) lo → sp.Covers oldsz →
      oldsz ≤ newsz → newsz < KERNBASE →
      ∃ r m' sp', allocuvm I sp.dir oldsz newsz false m = (.ok r, m') ∧ sp'.dir = sp.dir ∧
        Heap F m' (sp' ::ₘ S) lo ∧
        ((r = newsz ∧ sp'.Covers newsz ∧
          (∀ w, w < pageUp oldsz ∨ pageUp newsz ≤ w → sp'.maps w = sp.maps w) ∧
          (∃ g : Nat → Nat, Set.InjOn g (Set.Ico (pageUp oldsz) (pageUp newsz)) ∧
            ∀ w, pageUp oldsz ≤ w → w < pageUp newsz →
              g w ∈ m.freelist ∧ sp'.maps w = some (.of PTE_WU (g w) .zero)) ∧
          ∃ m'' sp'', deallocuvm I sp.dir newsz oldsz m' = (.ok oldsz, m'') ∧ sp''.dir = sp.dir ∧
            sp''.maps = sp.maps ∧ Heap F m'' (sp'' ::ₘ S) lo) ∨
        (r = 0 ∧ sp'.maps = sp.maps ∧ (m'.freelist : Multiset Nat) + sp'.ram.tables sp'.dir =
          m.freelist + sp.ram.tables sp.dir))) ∧
    ∀ (m : Mem) (d oldsz newsz : Nat), oldsz ≤ KERNBASE →
      deallocuvm I d oldsz newsz m = deallocuvmPages I d oldsz newsz m := by
  refine ⟨fun F m S lo sp oldsz newsz hF h hcov hon hnew => ?_, fun m d _ _ hold =>
    deallocuvm_eq_pages hold⟩
  have hbare := hcov.bare hnew
  obtain ⟨r, m', hrun, hres⟩ := (wp_allocuvm hF hon hnew h hbare).exists_ok
  rcases hres with ⟨rfl, sp', hext, h', -⟩ | ⟨rfl, sp', hdir, hmaps, h', -⟩
  · have hup : pageUp r ≤ KERNPAGE := pageUp_le.mpr (by rw [KERNBASE] at hnew; omega)
    have hback : wp (deallocuvm I sp'.dir r oldsz) _ (fun _ _ => False) m' :=
      wp_deallocuvm hF hnew.le h'
    obtain ⟨r', m'', hrun', rfl, sp'', hfr, h''⟩ := hback.exists_ok
    refine ⟨r, m', sp', hrun, hext.dir_eq, h', .inl ⟨rfl, hext.covers hcov hon, fun w hw =>
      hext.old w (by omega), hext.frames h' hup, m'', sp'', ?_, hfr.dir_eq.trans hext.dir_eq, ?_,
        h''⟩⟩
    · rw [← hext.dir_eq, hrun', Nat.min_eq_right hon]
    · funext w
      simp only [hfr.maps_eq, ← lt_pageUp]
      split
      next hw => exact (hbare w hw.1 hw.2).symm
      next hw => exact hext.old w hw
  · exact ⟨0, m', sp', hrun, hdir, h', .inr ⟨rfl, hmaps,
      h.free_add_tables h' hdir fun v _ => by rw [hmaps]⟩⟩

/-! ### A small memory -/

/-- A kernel that ends at page `0x201`. -/
def sample : Layout := .i386 0x200 0x201 (by decide) (by decide) (by decide)

/-- A machine with 20 page frames, of which the kernel takes three. -/
def tiny : Layout where
  extmem := 1
  data := 2
  first := 3
  early := 10
  phystop := 20
  devspace := 2 ^ 20 - 1
  extmem_pos := by decide
  extmem_lt := by decide
  data_le := by decide
  first_le := by decide
  early_le := by decide
  data_lt := by decide
  phystop_le := by simp [KERNPAGE]
  devspace_lt := by decide

/-- A directory in frame `d`, with a page table in the next frame that maps page 0 to the one
after it, which contains `x`. -/
def pageAt (d : Nat) (x : Bytes 4096) (free : List Nat) : Mem :=
  ((Mem.mk free (Function.update (fun _ => .zero) (d + 2) x) []).setPte d 0
    ⟨⟨true, true, true, 0⟩, d + 1⟩).setPte (d + 1) 0 ⟨⟨true, true, true, 0⟩, d + 2⟩

theorem pageAt_heap {d : Nat} {x : Bytes 4096} {free : List Nat} (hd : d + 2 < 2 ^ 20)
    (hF : (free : Multiset Nat) + (d ::ₘ (d + 1) ::ₘ (d + 2) ::ₘ 0) = F.val) :
    Heap F (pageAt d x free) {(pageAt d x free).space d} 0 ∧
      ((pageAt d x free).space d).maps = Function.update (fun _ => none) 0
      (some (.of PTE_WU (d + 2) x)) := by
  have h : Heap F (Mem.mk free (Function.update (fun _ => .zero) (d + 2) x) []) 0
      (d ::ₘ (d + 1) ::ₘ (d + 2) ::ₘ 0) := ⟨by simpa using hF, by simp⟩
  have hzero : ∀ f ≠ d + 2, Function.update (fun _ => Bytes.zero) (d + 2) x f = Bytes.zero :=
    fun f hf =>
    Function.update_of_ne hf ..
  obtain ⟨h1, hmaps1⟩ := h.start (hzero d (by omega))
  have hn : ∀ i, Ram.table (Function.update (fun _ => .zero) (d + 2) x) d i = none := by
    intro i
    rw [Ram.table, Ram.page_zero (hzero d (by omega)), Pte.entry_zero]
  have hz : 0 / NPDENTRIES = 0 := Nat.zero_div _
  obtain ⟨h2, hc2, ht⟩ := h1.install (v := 0) (e := ⟨⟨true, true, true, 0⟩, d + 1⟩)
    (by decide) hz (hn 0) (hzero _ (by omega)) ⟨Nat.two_pow_pos 9, by simp only; omega⟩ rfl
  have hpte := h2.pte_maps (v := 0) (by decide)
  rw [hc2.maps_self, hmaps1] at hpte
  obtain ⟨h3, hc3⟩ := h2.map (v := 0) (e := ⟨⟨true, true, true, 0⟩, d + 2⟩) (by simp [KERNPAGE])
    (by rw [hz]; exact ht) hpte ⟨Nat.two_pow_pos 9, hd⟩ rfl
  have hc := hc2.trans hc3
  rw [Nat.zero_mod] at h3 hc
  refine ⟨h3, hc.maps_eq.trans ?_⟩
  rw [hmaps1, Mem.dir_space, Mem.ram_setPte_of_ne (by omega)]
  simp only [Function.update_self]
  rfl

theorem pageAt_covers {d : Nat} {x : Bytes 4096} {free : List Nat}
    (h : ((pageAt d x free).space d).maps = Function.update (fun _ => none) 0
      (some (.of PTE_WU (d + 2) x))) :
    ((pageAt d x free).space d).Covers PGSIZE := by
  intro w _
  rw [h]
  by_cases hw : w = 0
  · simp [hw, PGSIZE]
  · simp only [Function.update_of_ne hw, ne_eq, not_true_eq_false, false_iff, PGSIZE]
    omega

/-- A page of zeros, and two free frames. -/
def onePage : Mem := pageAt 0x201 .zero [0x204, 0x205]

theorem onePage_heap :
    Heap {0x201, 0x202, 0x203, 0x204, 0x205} onePage {onePage.space 0x201} 0 ∧
      (onePage.space 0x201).maps =
        Function.update (fun _ => none) 0 (some (.of PTE_WU 0x203 .zero)) :=
  pageAt_heap (by decide) (by decide)

theorem onePage_subset : {0x201, 0x202, 0x203, 0x204, 0x205} ⊆ sample.managed := by
  intro f hf
  rw [Layout.mem_managed]
  simp only [Finset.mem_insert, Finset.mem_singleton] at hf
  rcases hf with rfl | rfl | rfl | rfl | rfl <;> decide

theorem onePage_covers : (onePage.space 0x201).Covers PGSIZE := pageAt_covers onePage_heap.2

/-- A page is added and taken away again. -/
theorem allocuvm_deallocuvm_exact_onePage : ∃ (m' : Mem) (sp' : Space),
    allocuvm sample 0x201 PGSIZE (2 * PGSIZE) false onePage = (.ok (2 * PGSIZE), m') ∧
    sp'.Covers (2 * PGSIZE) ∧ sp'.maps 0 = (onePage.space 0x201).maps 0 ∧
    (∃ f ∈ [0x204, 0x205], sp'.maps 1 = some (.of PTE_WU f .zero)) ∧
    ∃ (m'' : Mem) (sp'' : Space),
      deallocuvm sample 0x201 (2 * PGSIZE) PGSIZE m' = (.ok PGSIZE, m'') ∧
      sp''.maps = (onePage.space 0x201).maps ∧
      Heap {0x201, 0x202, 0x203, 0x204, 0x205} m'' (sp'' ::ₘ 0) 0 := by
  obtain ⟨r, m', sp', hrun, -, -, hres⟩ := (allocuvm_deallocuvm_exact sample).1 _ onePage 0 0
    (onePage.space 0x201) PGSIZE (2 * PGSIZE) onePage_subset onePage_heap.1
    onePage_covers (by omega) (by simp [KERNBASE, KERNPAGE, PGSIZE])
  have hup : pageUp PGSIZE = 1 ∧ pageUp (2 * PGSIZE) = 2 := by simp [pageUp, PGSIZE]
  rcases hres with ⟨rfl, hcov, hold, ⟨g, -, hnew⟩, m'', sp'', hback, -, hmaps, hheap⟩ | ⟨rfl, -⟩
  · rw [hup.1] at hold hnew
    rw [hup.2] at hnew
    obtain ⟨hfree, hpage⟩ := hnew 1 le_rfl (by decide)
    exact ⟨m', sp', hrun, hcov, hold 0 (.inl (by decide)), ⟨g 1, hfree, hpage⟩, m'', sp'', hback,
      hmaps, hheap⟩
  · have hfail : (allocuvm sample 0x201 PGSIZE (2 * PGSIZE) false onePage).1 ≠ .ok 0 := by
      decide +kernel
    exact absurd (congrArg Prod.fst hrun) hfail

/-! ## Copying -/

/-- The pages `a` to `b` of `sp'` are copies of those of `par`, and the others are those of
`sp`. -/
structure Space.Copied (sp par : Space) (a b : Nat) (sp' : Space) : Prop where
  dir_eq : sp'.dir = sp.dir
  copy : ∀ w, a ≤ w → w < b → ∃ pg pg', par.maps w = some pg ∧ sp'.maps w = some pg' ∧
    pg'.data = pg.data ∧ pg'.pte.toFlags = pg.pte.toFlags
  old : ∀ w, ¬(a ≤ w ∧ w < b) → sp'.maps w = sp.maps w

/-- The loop of `copyuvm`, from page `a` on.  It panics where the parent has no page. -/
theorem wp_copyLoop (hF : F ⊆ I.managed) {par : Space} {sz k : Nat}
    (hsz : sz ≤ KERNBASE) (hk : 0 < k) (hfuel : sz + PGSIZE ≤ a * PGSIZE + k * PGSIZE)
    (h : Heap F m (sp ::ₘ par ::ₘ S) lo) (hb : sp.Bare a (pageUp sz))
    (hE : ∀ w, w * PGSIZE < sz → par.maps w = none → ∀ m',
      E (.panic "copyuvm: pte should exist") m' ∧ E (.panic "copyuvm: page not present") m') :
    wp (copyLoop I par.dir sp.dir sz k (a * PGSIZE))
      (fun r m' => ∃ sp', sp'.dir = sp.dir ∧ Heap F m' (sp' ::ₘ par ::ₘ S) lo ∧
        (r = true → sp.Copied par a (pageUp sz) sp')) E m := by
  induction k generalizing a m sp with
  | zero => exact absurd hk (Nat.lt_irrefl 0)
  | succ k ih =>
    rw [copyLoop]
    by_cases ha : a * PGSIZE < sz
    case neg =>
      have hle : pageUp sz ≤ a := pageUp_le.mpr (by omega)
      rw [if_neg ha]
      exact ⟨sp, rfl, h, fun _ => ⟨rfl, fun w hw hw' => by omega, fun _ _ => rfl⟩⟩
    have hau : a < pageUp sz := lt_pageUp.mpr ha
    have hak : a < KERNPAGE := hau.trans_le (pageUp_le.mpr (by rwa [KERNBASE] at hsz))
    have hav := lt_of_lt_KERNPAGE hak
    have hpar : Heap F m (par ::ₘ sp ::ₘ S) lo := Multiset.cons_swap sp par S ▸ h
    rw [if_pos ha, wp_bind, wp_of_ok (walkpgdir_apply par.dir hav)]
    cases ht : m.ram.table par.dir (a / NPDENTRIES) with
    | none => exact (hE a ha (hpar.maps_none ht) m).1
    | some t =>
      have hfound := hpar.maps_found hav ht
      simp only [Option.map_some, wp_bind, wp_gets, wp_ite, wp_halt, Bool.not_eq_true']
      refine ⟨fun hn => (hE a ha (hfound.trans (found_none.mpr hn)) m).2, fun hpres => ?_⟩
      rw [Bool.not_eq_false] at hpres
      generalize hpte : m.ram.page t (a % NPDENTRIES) = pte at hfound hpres
      have hfits : pte.Fits := hpte ▸ Ram.page_fits
      rw [Ram.found, if_pos hpres, if_pos hak] at hfound
      refine wp_kalloc h (fun m1 _ _ h1 => ⟨sp, rfl, h1, (by rintro ⟨⟩)⟩) fun f m1 hram1 _ h1 => ?_
      simp only [wp_bind, wp_ite, wp_pure, wp_update]
      refine wp_mappages (h1.write (Multiset.mem_cons_self f lo) _) hF hfits.rest_lt hak
        (hb a le_rfl hau) (fun m2 _ _ h2 => ?_) fun sp2 m2 hc _ h2 => ?_
      · exact ⟨(by rintro ⟨⟩), fun _ => wp_kfree h2 hF fun m3 _ h3 => ⟨sp, rfl, h3, (by rintro ⟨⟩)⟩⟩
      · refine ⟨fun _ => ?_, fun hn => absurd rfl hn⟩
        rw [← Nat.succ_mul, ← hc.dir_eq]
        have hk' : 0 < k := by
          rcases Nat.eq_zero_or_pos k with rfl | hk'
          · rw [Nat.zero_add, Nat.one_mul] at hfuel; omega
          · exact hk'
        refine (ih (a := a + 1) hk' ?_ h2 fun w hw hw' => ?_).mono ?_ fun _ _ h => h
        · rw [Nat.succ_mul] at hfuel ⊢; omega
        · rw [hc.maps_of_ne (by omega), hb w (by omega) hw']
        · rintro r m' ⟨sp', hdir, h', hcopy⟩
          refine ⟨sp', hdir, h', fun hr => ?_⟩
          obtain ⟨-, hnew, hold⟩ := hcopy hr
          refine ⟨hdir.trans hc.dir_eq, fun w hw hw' => ?_, fun w hw => ?_⟩
          · by_cases hwa : w = a
            · subst hwa
              refine ⟨_, _, hfound, (hold w (by omega)).trans hc.maps_self, ?_, ?_⟩
              · change (m1.setPage f _).ram f = _
                rw [Mem.ram_setPage, Function.update_self, hram1]
              · simp only [Page.of, ← hpres]
            · exact hnew w (by omega) hw'
          · rw [hold w (by omega), hc.maps_of_ne (by rintro rfl; omega)]

/-- What `setupkvm` makes has no user pages. -/
theorem bare_of_kernelMaps (h : sp.maps = kernelMaps I) : sp.Bare 0 KERNPAGE := fun w _ hw => by
  rw [h, kernelMaps_below hw]

/-- `copyuvm` makes a copy of the address space `par`, or none. -/
theorem wp_copyuvm (hF : F ⊆ I.managed) {par : Space} {sz : Nat} (hsz : sz ≤ KERNBASE)
    {Q : Option Nat → Mem → Prop} (h : Heap F m (par ::ₘ S) lo)
    (hE : ∀ w, w * PGSIZE < sz → par.maps w = none → ∀ m',
      E (.panic "copyuvm: pte should exist") m' ∧ E (.panic "copyuvm: page not present") m')
    (hnone : ∀ m', Heap F m' (par ::ₘ S) lo → Q none m')
    (hsome : ∀ (sp sp' : Space) m', sp.maps = kernelMaps I → sp.Copied par 0 (pageUp sz) sp' →
      Heap F m' (sp' ::ₘ par ::ₘ S) lo → Q (some sp'.dir) m') :
      wp (copyuvm I par.dir sz) Q E m := by
  have hup : pageUp sz ≤ KERNPAGE := pageUp_le.mpr (by rwa [KERNBASE] at hsz)
  rw [copyuvm, wp_bind]
  refine wp_setupkvm hF h (fun m' _ => hnone m') fun sp m1 hmaps _ h1 => ?_
  simp only [wp_bind, wp_ite, wp_pure]
  rw [← Nat.zero_mul PGSIZE]
  refine (wp_copyLoop hF hsz (by decide) ?_ h1 (fun w hw hw' => ?_) hE).mono ?_ fun _ _ h => h
  · simp only [KERNBASE, KERNPAGE, PGSIZE] at hsz ⊢; omega
  · exact bare_of_kernelMaps hmaps w hw (hw'.trans_le hup)
  · rintro r m2 ⟨sp', hdir, h2, hcopy⟩
    rw [← hdir]
    exact ⟨fun hr => hsome sp sp' m2 hmaps (hcopy hr) h2, fun _ => wp_freevm hF h2 hnone⟩

/-- The directory that `copyuvm` returns has the parent's contents and flags on frames of its
own, and otherwise only the kernel's part as `setupkvm` makes it; when it returns 0 the free
frames are as before.  The parent is left alone. -/
theorem copyuvm_copies (hF : F ⊆ I.managed) {par : Space} (h : Heap F m (par ::ₘ S) lo) {sz : Nat}
    (hsz : sz < KERNBASE) (hpres : ∀ w, w * PGSIZE < sz → par.maps w ≠ none) :
    ∃ r m', copyuvm I par.dir sz m = (.ok r, m') ∧ (∀ f ∈ par.frames, m'.ram f = m.ram f) ∧
      match r with
      | none => m'.freelist.Perm m.freelist
      | some d => ∃ sp', sp'.dir = d ∧ Heap F m' (sp' ::ₘ par ::ₘ S) lo ∧
        (∀ w, w * PGSIZE < sz → ∃ pg pg', par.maps w = some pg ∧ sp'.maps w = some pg' ∧
          pg'.data = pg.data ∧ pg'.pte.toFlags = pg.pte.toFlags ∧ pg'.pte.frame ∉ par.frames) ∧
        (∀ w < KERNPAGE, sz ≤ w * PGSIZE → sp'.maps w = none) ∧
        ∀ d0 m0, setupkvm I m = (.ok (some d0), m0) →
          ∀ w, KERNPAGE ≤ w → sp'.maps w = m0.ram.view d0 w := by
  have hpar : ∀ {m' : Mem} {S' : Multiset Space}, Heap F m' S' lo → par ∈ S' →
      ∀ f ∈ par.frames, m'.ram f = m.ram f := by
    intro m' S' h' hmem f hf
    rw [Space.frames] at hf
    rw [h'.agree par hmem f hf, h.agree par (Multiset.mem_cons_self _ _) f hf]
  have hup : pageUp sz ≤ KERNPAGE := pageUp_le.mpr (by rw [KERNBASE] at hsz; omega)
  have hrun : wp (copyuvm I par.dir sz) (fun r m' => (∀ f ∈ par.frames, m'.ram f = m.ram f) ∧
      match r with
      | none => m'.freelist.Perm m.freelist
      | some d =>
        ∃ sp sp' : Space, sp'.dir = d ∧ sp.maps = kernelMaps I ∧ sp.Copied par 0 (pageUp sz) sp' ∧
          Heap F m' (sp' ::ₘ par ::ₘ S) lo) (fun _ _ => False) m := by
    refine wp_copyuvm hF hsz.le h (fun w hw hn => absurd hn (hpres w hw)) (fun m' h' => ?_)
      fun sp sp' m' hmaps hcopy h' => ?_
    · exact ⟨hpar h' (Multiset.mem_cons_self _ _), h.freelist_perm h'⟩
    · exact ⟨hpar h' (by simp), sp, sp', rfl, hmaps, hcopy, h'⟩
  obtain ⟨r, m', hr, hkeep, hres⟩ := hrun.exists_ok
  refine ⟨r, m', hr, hkeep, ?_⟩
  cases r with
  | none => exact hres
  | some d =>
    obtain ⟨sp, sp', hdir, hmaps, hcopy, h'⟩ := hres
    refine ⟨sp', hdir, h', fun w hw => ?_, fun w hw hw' => ?_, fun d0 m0 h0 w hw => ?_⟩
    · have hwu := lt_pageUp.mpr hw
      obtain ⟨pg, pg', hpg, hpg', hdata, hflags⟩ := hcopy.copy w (Nat.zero_le w) hwu
      refine ⟨pg, pg', hpg, hpg', hdata, hflags, fun hf => ?_⟩
      have hmapped : m'.ram.pte sp'.dir w = some pg'.pte.frame := by
        rw [h'.pte_maps (lt_of_lt_KERNPAGE (hwu.trans_le hup)), hpg']
        rfl
      refine h'.other_notMem (mapped_mem_frames (hwu.trans_le hup) hmapped)
        (Multiset.mem_cons_self par S) ?_
      rwa [h'.frames_eq (by simp)]
    · rw [hcopy.old w fun hn => by have := lt_pageUp.mp hn.2; omega, hmaps, kernelMaps_below hw]
    · have hsetup : wp (setupkvm I) (fun r m0 => ∀ d0, r = some d0 → m0.ram.view d0 = kernelMaps I)
          (fun _ _ => False) m := by
        refine wp_setupkvm hF h (fun _ _ _ _ hn => by cases hn) fun sp0 m0 hmaps0 _ h0 d0 hd => ?_
        cases hd
        rw [← h0.maps_eq, hmaps0]
      rw [wp_of_ok h0] at hsetup
      rw [hcopy.old w (by omega), hmaps, hsetup d0 rfl]

/-- A page that starts with `0x90`, on the small machine. -/
def tinyPage : Mem := pageAt 3 (Bytes.zero.set 0 0x90) (List.range' 6 14)

/-- The directory of the copy is frame 6. -/
theorem copyuvm_copies_tinyPage : ∃ (m' : Mem) (sp' : Space),
    copyuvm tiny 3 PGSIZE tinyPage = (.ok (some 6), m') ∧ sp'.dir = 6 ∧
    Heap tiny.managed m' (sp' ::ₘ tinyPage.space 3 ::ₘ 0) 0 ∧
    (∃ pg, sp'.maps 0 = some pg ∧ pg.data.get 0 = 0x90 ∧ pg.pte.toFlags = ⟨true, true, true, 0⟩ ∧
      pg.pte.frame ∉ (tinyPage.space 3).frames) ∧
    sp'.maps 1 = none ∧ m'.ram 5 = tinyPage.ram 5 := by
  have hframes : (List.range' 6 14 : Multiset Nat) + (3 ::ₘ 4 ::ₘ 5 ::ₘ 0) = tiny.managed.val := by
    decide +kernel
  obtain ⟨hheap, hmaps⟩ := pageAt_heap (x := Bytes.zero.set 0 0x90) (by decide) hframes
  have hpres : ∀ w, w * PGSIZE < PGSIZE → (tinyPage.space 3).maps w ≠ none := by
    intro w hw
    refine (pageAt_covers hmaps w ?_).mpr hw
    simp only [PGSIZE, KERNPAGE] at hw ⊢
    omega
  obtain ⟨r, m', hrun, hkeep, hres⟩ := copyuvm_copies (I := tiny) subset_rfl hheap
    (by simp [KERNBASE, KERNPAGE, PGSIZE]) hpres
  have hr : (copyuvm tiny 3 PGSIZE tinyPage).1 = .ok (some 6) := by decide +kernel
  obtain rfl : r = some 6 := by
    have := (congrArg Prod.fst hrun).symm.trans hr
    cases this
    rfl
  obtain ⟨sp', hdir, hheap', hcopy, hrest, -⟩ := hres
  obtain ⟨pg, pg', hpg, hpg', hdata, hflags, hframe⟩ := hcopy 0 (by simp [PGSIZE])
  rw [show (Mem.space _ _).maps = _ from hmaps, Function.update_self] at hpg
  cases hpg
  refine ⟨m', sp', hrun, hdir, hheap', ⟨pg', hpg', ?_, hflags, hframe⟩, hrest 1 ?_ ?_, hkeep 5 ?_⟩
  · rw [hdata]
    decide +kernel
  · simp [KERNPAGE]
  · simp [PGSIZE]
  · rw [Space.frames]
    refine mapped_mem_frames (v := 0) (by simp [KERNPAGE]) ?_
    decide +kernel

/-! ## The functions of `exec` and of `userinit` -/

/-- `clearpteu` closes a page to the user. -/
theorem wp_clearpteu {Q : Unit → Mem → Prop} (h : Heap F m (sp ::ₘ S) lo) {uva : Nat}
    (hv : uva / PGSIZE % 2 ^ 20 = v) (hE : sp.maps v = none → E (.panic "clearpteu") m)
    (hQ : ∀ sp' m',
      sp.Changed v ((sp.maps v).map fun pg => ⟨{ pg.pte with user := false }, pg.data⟩) sp' →
      Heap F m' (sp' ::ₘ S) lo → Q () m') :
    wp (clearpteu sp.dir uva) Q E m := by
  have hv' : v < 2 ^ 20 := hv ▸ Nat.mod_lt _ (by decide)
  have hdiv : PDX uva = v / NPDENTRIES := by
    simp only [PDX, PGSIZE, NPDENTRIES] at hv ⊢; omega
  have hmod : PTX uva = v % NPDENTRIES := by
    simp only [PTX, PGSIZE, NPDENTRIES] at hv ⊢; omega
  rw [clearpteu, wp_bind, wp_of_ok (walkpgdir_read sp.dir uva), hdiv, hmod]
  cases ht : m.ram.table sp.dir (v / NPDENTRIES) with
  | none => exact hE (h.maps_none ht)
  | some t =>
    have hfits := Ram.page_fits (r := m.ram) (f := t) (i := v % NPDENTRIES)
    have hfound := h.maps_found hv' ht
    generalize hpte : m.ram.page t (v % NPDENTRIES) = pte at hfits hfound
    obtain ⟨h', hc⟩ := h.setFlags (e := { pte with user := false }) hv' ht
      ⟨hfits.rest_lt, hfits.frame_lt⟩ (by rw [hpte]; rfl)
    simp only [Option.map_some, wp_update, hpte]
    refine hQ _ _ ?_ h'
    convert hc using 1
    rw [hfound, Ram.found, Ram.found]
    split <;> rfl

/-- Nothing is mapped at or above the address `sz`, below `KERNBASE`. -/
def Space.Below (sp : Space) (sz : Nat) : Prop :=
  ∀ w, sz ≤ w * PGSIZE → w < KERNPAGE → sp.maps w = none

theorem Space.Bare.below (h : sp.Bare 0 KERNPAGE) (sz : Nat) : sp.Below sz :=
  fun w _ hw => h w (Nat.zero_le w) hw

theorem Space.Below.mono (h : sp.Below a) (hab : a ≤ b) : sp.Below b :=
  fun w hw hw' => h w (hab.trans hw) hw'

theorem Space.Below.congr (h : sp.Below a) (hmaps : ∀ w, sp.maps w = none → sp'.maps w = none) :
    sp'.Below a :=
  fun w hw hw' => hmaps w (h w hw hw')

theorem Space.Below.bare (h : sp.Below oldsz) (hnew : newsz < KERNBASE) :
    sp.Bare (pageUp oldsz) (pageUp newsz) := by
  intro w hw hw'
  refine h w (pageUp_le.mp hw) ?_
  have := lt_pageUp.mp hw'
  simp only [KERNBASE, PGSIZE] at this hnew
  omega

theorem Space.Extended.below {l : List Nat} (h : sp.Extended l (pageUp oldsz) (pageUp newsz) sp')
    (hb : sp.Below oldsz) (hon : oldsz ≤ newsz) : sp'.Below newsz := by
  intro w hw hw'
  have := pageUp_le.mpr hw
  rw [h.old w (by omega), hb w (hon.trans hw) hw']

theorem Space.Copied.below {par : Space} {sz : Nat} (h : sp.Copied par 0 (pageUp sz) sp')
    (hmaps : sp.maps = kernelMaps I) : sp'.Below sz := by
  intro w hw hw'
  have := pageUp_le.mpr hw
  rw [h.old w (by omega), hmaps, kernelMaps_below hw']

/-- `deallocuvm` in an address space that ends at `oldsz`. -/
theorem wp_deallocuvm_below (hF : F ⊆ I.managed) (hold : oldsz ≤ KERNBASE)
    (h : Heap F m (sp ::ₘ S) lo) (hb : sp.Below oldsz) {Q : Nat → Mem → Prop}
    (hQ : ∀ sp' m', sp'.dir = sp.dir → sp'.Below (min oldsz newsz) → Heap F m' (sp' ::ₘ S) lo →
      Q (min oldsz newsz) m') : wp (deallocuvm I sp.dir oldsz newsz) Q E m := by
  refine (wp_deallocuvm hF hold h).mono ?_ fun _ _ h => h
  rintro _ m' ⟨rfl, sp', hfr, h'⟩
  refine hQ sp' m' hfr.dir_eq (fun w hw hw' => ?_) h'
  by_cases hwo : w * PGSIZE < oldsz
  · exact hfr.gone (pageUp_le.mpr (by omega)) hwo
  · exact hfr.maps_none (hb w (by omega) hw')

/-- What `allocuvm` has done when it returns: it failed and nothing is left of it, or
the address space now ends at the new size. -/
def Grown (F : Finset Nat) (S : Multiset Space) (lo : Multiset Nat) (d oldsz : Nat) (r : Nat)
    (m' : Mem) : Prop :=
  r ≤ KERNBASE ∧ ∃ sp' : Space, sp'.dir = d ∧ sp'.Below (if r = 0 then oldsz else r) ∧
    Heap F m' (sp' ::ₘ S) lo

/-- `allocuvm`, as it is called. -/
theorem wp_allocuvm_below (hF : F ⊆ I.managed) (h : Heap F m (sp ::ₘ S) lo)
    (hb : sp.Below oldsz) (hold : oldsz ≤ KERNBASE) :
    wp (allocuvm I sp.dir oldsz newsz false) (Grown F S lo sp.dir oldsz) E m := by
  by_cases hn : KERNBASE ≤ newsz
  · rw [allocuvm_high hn]
    exact ⟨Nat.zero_le _, sp, rfl, hb, h⟩
  by_cases hlt : newsz < oldsz
  · rw [allocuvm_low hlt (by omega)]
    exact ⟨hold, sp, rfl, by split <;> assumption, h⟩
  refine (wp_allocuvm hF (by omega) (by omega) h (hb.bare (by omega))).mono ?_ fun _ _ h => h
  rintro r m' (⟨rfl, sp', hext, h', -⟩ | ⟨rfl, sp', hdir, hmaps, h', -⟩)
  · have hb' := hext.below hb (by omega)
    refine ⟨by omega, sp', hext.dir_eq, ?_, h'⟩
    split
    next hz => exact hb'.mono (by omega)
    next => exact hb'
  · exact ⟨Nat.zero_le _, sp', hdir, hb.congr fun w hw => by rw [hmaps, hw], h'⟩

/-- `inituvm` maps the page it allocates, or loses it. -/
theorem wp_inituvm {Q : Unit → Mem → Prop} {init : List UInt8} (h : Heap F m (sp ::ₘ S) lo)
    (hF : F ⊆ I.managed) (hb : sp.Bare 0 KERNPAGE)
    (hE : ∀ m, E (.panic "PAGE FAULT") m ∧ E (.panic "inituvm: more than a page") m)
    (hlost : ∀ f m', Heap F m' (sp ::ₘ S) (f ::ₘ lo) → Q () m')
    (hQ : ∀ sp' m', sp'.dir = sp.dir → sp'.Below PGSIZE → Heap F m' (sp' ::ₘ S) lo → Q () m') :
    wp (inituvm sp.dir init) Q E m := by
  have hz : 0 < KERNPAGE := by simp [KERNPAGE]
  simp only [inituvm, wp_bind, wp_ite, wp_halt]
  refine ⟨fun _ => (hE m).2, fun _ => wp_kalloc h (fun m' _ _ _ => (hE m').1) fun f m1 _ _ h1 => ?_⟩
  simp only [wp_bind, wp_update]
  refine wp_clear h1 fun m2 _ _ h2 => ?_
  nth_rewrite 1 [← Nat.zero_mul PGSIZE]
  refine wp_mappages h2 hF PTE_WU_fits hz (hb 0 le_rfl hz) (fun m3 _ _ h3 => ?_)
    fun sp3 m3 hc _ h3 => ?_
  · exact hlost f _ (h3.write (Multiset.mem_cons_self f lo) _)
  · obtain ⟨h4, hc4⟩ := h3.store hz hc.maps_self ((m3.ram f).blit 0 init.length fun i =>
      init.getD i 0)
    refine hQ _ _ (hc4.dir_eq.trans hc.dir_eq) (fun w hw hw' => ?_) h4
    have hne : w ≠ 0 := by rintro rfl; simp [PGSIZE] at hw
    rw [hc4.maps_of_ne hne, hc.maps_of_ne hne, hb w (Nat.zero_le w) hw']

end Xv6Rework.Vm
