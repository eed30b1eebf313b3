import Xv6Rework.Lib.Memory
import Xv6Rework.Mem.Copyout

/-!
# The memory image of a program

An address space under construction is a run of bytes from address 0 on, up to its size, with
the kernel's part above it.  `Space.Image` says this of an address space: it has the size `sz`,
the page `guard` is closed to the user, and the bytes are those of the memory `mem`.

The functions that `exec` builds a program with are then operations on a run of bytes:
`allocuvm` makes it longer, storing to a page puts bytes into it, and `copyout` does so where
the range is the user's.
-/

namespace Xv6Rework.Vm

open Prog

variable {I : Layout} {F : Finset Nat} {m : Mem} {S : Multiset Space} {lo : Multiset Nat}
  {sp sp' : Space} {f w a sz newsz off : Nat} {guard guard' : Option Nat} {mem mem' : Memory}
  {l : List UInt8} {x : Bytes 4096} {E : Stop → Mem → Prop}

/-- The flags of a page of the program. -/
def userFlags (guard : Option Nat) (w : Nat) : Flags := if guard = some w then PTE_W else PTE_WU

/-- The address space has the size `sz` and the contents `mem`, and no page of it but `guard` is
closed to the user. -/
structure Space.Image (I : Layout) (sp : Space) (sz : Nat) (guard : Option Nat) (mem : Memory) :
    Prop where
  kernel : ∀ w, KERNPAGE ≤ w → sp.maps w = kernelMaps I w
  user : ∀ w, w * PGSIZE < sz → ∃ f x, sp.maps w = some (.of (userFlags guard w) f x) ∧
    ∀ i < PGSIZE, x.get i = mem (w * PGSIZE + i)
  below : sp.Below sz
  zero : ∀ a, pageUp sz * PGSIZE ≤ a → mem a = 0
  tight : sp.Tight
  size : sz ≤ KERNBASE

namespace Space.Image

theorem lt_KERNPAGE (h : sp.Image I sz guard mem) (hw : w * PGSIZE < sz) : w < KERNPAGE := by
  have := h.size
  simp only [KERNBASE, PGSIZE] at *
  omega

/-- What `setupkvm` makes is an empty program. -/
theorem start (hmaps : sp.maps = kernelMaps I) (htight : sp.Tight) :
    sp.Image I 0 none fun _ => 0 where
  kernel w _ := by rw [hmaps]
  user w hw := absurd hw (Nat.not_lt_zero _)
  below := (bare_of_kernelMaps hmaps).below 0
  zero _ _ := rfl
  tight := htight
  size := Nat.zero_le _

/-- The kernel's part is closed to the user. -/
theorem closed (h : sp.Image I sz guard mem) (v : Nat) (pg : Page) (hv : KERNPAGE ≤ v)
    (hpg : sp.maps v = some pg) : pg.pte.user = false :=
  kernelMaps_user ((h.kernel v hv).symm.trans hpg)

/-- One page of the program is different. -/
theorem changed (h : sp.Image I sz guard mem) (hw : w * PGSIZE < sz)
    (hc : sp.Changed w (some (.of (userFlags guard' w) f x)) sp')
    (hguard : ∀ v, v ≠ w → userFlags guard' v = userFlags guard v)
    (hx : ∀ i < PGSIZE, x.get i = mem' (w * PGSIZE + i))
    (hmem : ∀ a, a / PGSIZE ≠ w → mem' a = mem a) : sp'.Image I sz guard' mem' := by
  have hwk := h.lt_KERNPAGE hw
  refine ⟨fun v hv => ?_, fun v hv => ?_, fun v hv hv' => ?_,
    fun a ha => ?_, h.tight.changed hc, h.size⟩
  · rw [hc.maps_of_ne (by omega), h.kernel v hv]
  · by_cases hvw : v = w
    · subst hvw
      exact ⟨f, x, hc.maps_self, hx⟩
    · obtain ⟨g, y, hmaps, hy⟩ := h.user v hv
      refine ⟨g, y, by rw [hc.maps_of_ne hvw, hmaps, hguard v hvw], fun i hi => (hy i hi).trans
        (hmem _ ?_).symm⟩
      simp only [PGSIZE] at hi ⊢
      omega
  · rw [hc.maps_of_ne (by rintro rfl; omega), h.below v hv hv']
  · rw [hmem a, h.zero a ha]
    have := lt_pageUp.mpr hw
    simp only [PGSIZE] at *
    omega

/-- The frame of a page of the program, as `walkpgdir` finds it. -/
theorem walk (h : sp.Image I sz guard mem) (hh : Heap F m (sp ::ₘ S) lo) (hw : w * PGSIZE < sz) :
    ∃ t f x, walkpgdir sp.dir (w * PGSIZE) false m = (.ok (some (t, w % NPDENTRIES)), m) ∧
      (m.ram.page t (w % NPDENTRIES)).frame = f ∧ sp.maps w = some (.of (userFlags guard w) f x) ∧
      ∀ i < PGSIZE, (m.ram f).get i = mem (w * PGSIZE + i) := by
  have hwk := h.lt_KERNPAGE hw
  obtain ⟨f, x, hmaps, hx⟩ := h.user w hw
  obtain ⟨t, ht, hpage, -, hdata⟩ := hh.entry_maps (lt_of_lt_KERNPAGE hwk) hmaps
  refine ⟨t, f, x, ?_, by rw [hpage]; rfl, hmaps, ?_⟩
  · rw [walkpgdir_apply _ (lt_of_lt_KERNPAGE hwk), ht, Option.map_some]
  · rw [show m.ram f = x from hdata hwk]
    exact hx

/-- Storing to a page of the program. -/
theorem store (h : sp.Image I sz guard mem) (hh : Heap F m (sp ::ₘ S) lo) (hw : w * PGSIZE < sz)
    (hf : sp.maps w = some (.of (userFlags guard w) f x)) (hl : off + l.length ≤ PGSIZE) :
    ∃ sp', sp'.dir = sp.dir ∧ Heap F (m.setBytes f off l) (sp' ::ₘ S) lo ∧
      sp'.Image I sz guard (mem.put (w * PGSIZE + off) l) := by
  have hwk := h.lt_KERNPAGE hw
  obtain ⟨t, g, y, -, -, hmaps, hy⟩ := h.walk hh hw
  cases hf.symm.trans hmaps
  obtain ⟨hh', hc⟩ := hh.store hwk hf ((m.ram f).blit off l.length fun i => l.getD i 0)
  refine ⟨(m.setBytes f off l).space sp.dir, rfl, hh', h.changed hw hc (fun _ _ => rfl)
    (fun i hi => ?_) fun a ha => ?_⟩
  · have hN : i < 4096 := by simpa only [PGSIZE] using hi
    rw [Bytes.get_blit]
    by_cases hin : off ≤ i ∧ i < off + l.length
    · rw [if_pos ⟨hin.1, hin.2, hN⟩, show w * PGSIZE + i = w * PGSIZE + off + (i - off) by omega,
        Memory.put_inside (show i - off < l.length by omega), List.getD_eq_getElem _ _ (by omega)]
    · rw [if_neg (by omega), hy i hi, Memory.put_outside (by omega)]
  · refine Memory.put_outside ?_
    simp only [PGSIZE] at *
    omega

/-- A page is closed to the user. -/
theorem wp_clearpteu {Q : Unit → Mem → Prop} (h : sp.Image I sz none mem)
    (hh : Heap F m (sp ::ₘ S) lo) (hw : w * PGSIZE < sz)
    (hQ : ∀ sp' m', sp'.dir = sp.dir → Heap F m' (sp' ::ₘ S) lo →
      sp'.Image I sz (some w) mem → Q () m') : wp (clearpteu sp.dir (w * PGSIZE)) Q E m := by
  have hwk := lt_of_lt_KERNPAGE (h.lt_KERNPAGE hw)
  obtain ⟨f, x, hmaps, hx⟩ := h.user w hw
  refine Vm.wp_clearpteu hh (v := w) (by simp only [PGSIZE]; omega) (fun hn => ?_)
    fun sp' m' hc hh' => ?_
  · rw [hmaps] at hn
    cases hn
  · rw [hmaps] at hc
    refine hQ sp' m' hc.dir_eq hh' (h.changed hw (f := f) (x := x) ?_ (fun v hv => ?_) hx
      fun _ _ => rfl)
    · rw [userFlags, if_pos rfl]
      exact hc
    · rw [userFlags, userFlags, if_neg (by simpa using hv.symm), if_neg (by simp)]

theorem packed (h : sp.Image I sz guard mem) : sp.Packed (pageUp sz) where
  tight := h.tight
  maps w hw := by
    rw [lt_pageUp]
    refine ⟨fun hne => not_le.1 fun hle => hne (h.below w hle hw), fun hlt => ?_⟩
    obtain ⟨f, x, hmaps, -⟩ := h.user w hlt
    simp [hmaps]

/-- `allocuvm` makes the program longer, with zeros, or there are not enough frames. -/
theorem wp_allocuvm (h : sp.Image I sz none mem) (hF : F ⊆ I.managed)
    (hh : Heap F m (sp ::ₘ S) lo) :
    wp (allocuvm I sp.dir sz newsz false)
      (fun r m' => ∃ sp', sp'.dir = sp.dir ∧ Heap F m' (sp' ::ₘ S) lo ∧
        (r ≠ 0 → newsz < KERNBASE ∧ r = max sz newsz ∧ sp'.Image I r none mem ∧
          m.avail + userFrames (pageUp sz) = m'.avail + userFrames (pageUp r)) ∧
        (r = 0 → newsz < KERNBASE → 0 < max sz newsz →
          m.avail + userFrames (pageUp sz) < userFrames (pageUp (max sz newsz)))) E m := by
  by_cases hn : KERNBASE ≤ newsz
  · rw [allocuvm_high hn]
    exact ⟨sp, rfl, hh, fun hr => absurd rfl hr, fun _ hlt => by omega⟩
  by_cases hlt : newsz < sz
  · rw [allocuvm_low hlt (by omega)]
    exact ⟨sp, rfl, hh, fun _ => ⟨by omega, by omega, h, rfl⟩, fun hz => by omega⟩
  have hmax : max sz newsz = newsz := by omega
  rw [hmax]
  refine (Vm.wp_allocuvm hF (by omega) (by omega) hh (h.below.bare (by omega))).mono ?_
    fun _ _ h => h
  rintro r m' (⟨rfl, sp', hext, hh', hpay⟩ | ⟨rfl, sp', hdir, -, hh', hpay⟩)
  · refine ⟨sp', hext.dir_eq, hh', fun _ => ⟨by omega, rfl, ?_, hpay h.packed⟩,
      fun hz _ hpos => by omega⟩
    have hle : pageUp sz ≤ pageUp r := pageUp_le.mpr
      ((by omega : sz ≤ r).trans (pageUp_le.mp le_rfl))
    have hup : pageUp r ≤ KERNPAGE := pageUp_le.mpr (by rw [KERNBASE] at hn; omega)
    refine ⟨fun w hw => ?_, fun w hw => ?_, hext.below h.below (by omega), fun a ha => h.zero a ?_,
      hext.tight h.tight, by omega⟩
    · rw [hext.old w (by omega), h.kernel w hw]
    · by_cases hold : w * PGSIZE < sz
      · have := lt_pageUp.mpr hold
        rw [hext.old w (by omega)]
        exact h.user w hold
      · have hge := pageUp_le.mpr (not_lt.mp hold)
        obtain ⟨f, -, hmaps⟩ := hext.new w hge (lt_pageUp.mpr hw)
        refine ⟨f, .zero, by rw [hmaps, userFlags, if_neg (by simp)], fun i _ => ?_⟩
        rw [Bytes.get_zero, h.zero _ ((Nat.mul_le_mul_right _ hge).trans (Nat.le_add_right _ _))]
    · exact (Nat.mul_le_mul_right _ hle).trans ha
  · exact ⟨sp', hdir, hh', fun hr => absurd rfl hr, fun _ _ _ => hpay h.packed⟩

/-- The size may be rounded up. -/
theorem round (h : sp.Image I sz none mem) : sp.Image I (pageUp sz * PGSIZE) none mem := by
  have hlt : ∀ w, w * PGSIZE < pageUp sz * PGSIZE ↔ w * PGSIZE < sz := fun w => by
    rw [← lt_pageUp (w := w) (v := sz)]
    exact Nat.mul_lt_mul_right (by simp [PGSIZE])
  have hup : pageUp (pageUp sz * PGSIZE) = pageUp sz := by
    simp only [pageUp, PGSIZE]
    omega
  refine ⟨h.kernel, fun w hw => h.user w ((hlt w).mp hw), h.below.mono (pageUp_le.mp le_rfl),
    fun a ha => h.zero a ?_, h.tight, ?_⟩
  · rwa [hup] at ha
  · rw [KERNBASE]
    refine Nat.mul_le_mul_right _ (pageUp_le.mpr ?_)
    rw [← KERNBASE]
    exact h.size

/-! ## What the user sees -/

/-- The user's pages are those of the program but the one that is closed. -/
theorem userPage_eq (h : sp.Image I sz guard mem) (hh : Heap F m (sp ::ₘ S) lo) (hw : w < 2 ^ 20) :
    m.ram.userPage sp.dir w ≠ none ↔ w * PGSIZE < sz ∧ guard ≠ some w := by
  rw [hh.userPage_eq hw]
  by_cases hlt : w * PGSIZE < sz
  · obtain ⟨f, x, hmaps, -⟩ := h.user w hlt
    by_cases hg : guard = some w
    · simp [hmaps, userFlags, hg, Page.of, PTE_W]
    · simp [hmaps, userFlags, hg, Page.of, PTE_WU, hlt]
  · have hnone : ((sp.maps w).bind fun pg => if pg.pte.user then some pg.pte.frame else none) =
        none := by
      by_cases hk : w < KERNPAGE
      · rw [h.below w (by omega) hk]
        rfl
      · cases hpg : sp.maps w with
        | none => rfl
        | some pg => simp [h.closed w pg (by omega) hpg]
    simp [hnone, hlt]

/-- The bytes that the user sees. -/
theorem byte_eq (h : sp.Image I sz guard mem) (hh : Heap F m (sp ::ₘ S) lo)
    (ha : a / PGSIZE * PGSIZE < sz) (hg : guard ≠ some (a / PGSIZE)) :
    m.ram.byte sp.dir a = some (mem a) := by
  have hwk := h.lt_KERNPAGE ha
  obtain ⟨t, f, x, -, -, hmaps, hx⟩ := h.walk hh ha
  rw [Ram.byte, hh.userPage_eq (lt_of_lt_KERNPAGE hwk), hmaps, userFlags, if_neg hg]
  have hbyte := hx (a % PGSIZE) (Nat.mod_lt _ (by simp [PGSIZE]))
  rw [Nat.div_add_mod'] at hbyte
  simp [Page.of, PTE_WU, hbyte]

/-- Elsewhere there is nothing. -/
theorem byte_eq_none (h : sp.Image I sz guard mem) (hh : Heap F m (sp ::ₘ S) lo) (ha : a < 2 ^ 32)
    (hout : ¬(a / PGSIZE * PGSIZE < sz ∧ guard ≠ some (a / PGSIZE))) :
    m.ram.byte sp.dir a = none := by
  have hw : a / PGSIZE < 2 ^ 20 := by
    simp only [PGSIZE]
    omega
  rw [Ram.byte, Option.map_eq_none_iff]
  by_contra hne
  exact hout ((h.userPage_eq hh hw).mp hne)

/-- There is a page table where a page is mapped. -/
theorem entry_eq_none (h : sp.Image I sz guard mem) (hh : Heap F m (sp ::ₘ S) lo)
    (hw : w < 2 ^ 20) : m.ram.entry sp.dir w = none ↔ ∀ v, v / NPDENTRIES = w / NPDENTRIES →
    sp.maps v = none := by
  rw [Ram.entry, Option.map_eq_none_iff]
  constructor
  · intro ht v hv
    exact hh.maps_none (by rw [hv, ht])
  · intro hall
    by_contra hne
    rw [← hh.table_eq] at hne
    obtain ⟨v, hv, hmaps⟩ := h.tight _ (div_lt_NPDENTRIES hw) hne
    exact hmaps (hall v hv)

/-! ## `copyout` -/

/-- `copyout` to one page of the user's. -/
theorem wp_copyout {Q : Bool → Mem → Prop} (h : sp.Image I sz guard mem)
    (hh : Heap F m (sp ::ₘ S) lo) (ha : a / PGSIZE * PGSIZE < sz) (hg : guard ≠ some (a / PGSIZE))
    (hl : a % PGSIZE + l.length ≤ PGSIZE) (hpos : 0 < l.length)
    (hQ : ∀ sp' m', sp'.dir = sp.dir → Heap F m' (sp' ::ₘ S) lo →
      sp'.Image I sz guard (mem.put a l) → Q true m') :
    wp (copyout sp.dir a l) Q E m := by
  have hwk := lt_of_lt_KERNPAGE (h.lt_KERNPAGE ha)
  obtain ⟨f, x, hmaps, -⟩ := h.user _ ha
  have hpage : m.ram.userPage sp.dir (a / PGSIZE) = some f := by
    rw [hh.userPage_eq hwk, hmaps, userFlags, if_neg hg]
    rfl
  obtain ⟨e, he⟩ : ∃ e, m.ram.entry sp.dir (a / PGSIZE) = some e := by
    rw [← Option.ne_none_iff_exists']
    intro hn
    rw [Ram.userPage, hn] at hpage
    cases hpage
  have hoff : a - a / PGSIZE * PGSIZE = a % PGSIZE := by
    have := Nat.div_add_mod' a PGSIZE
    omega
  obtain ⟨sp', hdir, hh', h'⟩ := h.store hh ha hmaps hl
  rw [Nat.div_add_mod'] at h'
  rw [copyout, copyoutLoop, if_pos hpos, wp_bind, PGROUNDDOWN, wp_of_ok (uva2ka_some hwk he), hpage]
  simp only [wp_bind, wp_update, hoff, Nat.min_eq_right
    (show l.length ≤ PGSIZE - a % PGSIZE by omega), List.take_length, List.drop_length]
  rw [copyoutLoop, if_neg (by simp)]
  exact hQ sp' _ hdir hh' h'

/-- `copyout` to a range of the program that overlaps the page that is closed. -/
theorem wp_copyout_closed {Q : Bool → Mem → Prop} (h : sp.Image I sz guard mem)
    (hh : Heap F m (sp ::ₘ S) lo) (ha : a + l.length ≤ sz) (hover : Overlaps a l.length w)
    (hg : guard = some w)
    (hQ : ∀ sp' m', sp'.dir = sp.dir → Heap F m' (sp' ::ₘ S) lo → Q false m') :
    wp (copyout sp.dir a l) Q E m := by
  have hsz := h.size
  have h32 : a + l.length ≤ 2 ^ 32 := by
    simp only [KERNBASE, KERNPAGE, PGSIZE] at hsz
    omega
  have hin : ∀ v, Overlaps a l.length v → v * PGSIZE < sz := by
    rintro v ⟨b, -, hb, rfl⟩
    have := Nat.div_mul_le_self b PGSIZE
    omega
  refine (Vm.wp_copyout (hh.unaliased h.closed) h32).mono (fun ok m' hres => ?_) ?_
  · cases ok with
    | true =>
      have hw := hin w hover
      have := (h.userPage_eq hh (lt_of_lt_KERNPAGE (h.lt_KERNPAGE hw))).mp (hres.all rfl w hover)
      exact absurd hg this.2
    | false => exact hQ (m'.space sp.dir) m' rfl (hh.within h.closed h32 hres.within hres.freelist)
  · rintro e m' ⟨-, v, hbad, hnone⟩
    have hv := hin v hbad.overlaps
    obtain ⟨f, x, hmaps, -⟩ := h.user v hv
    rw [h.entry_eq_none hh (lt_of_lt_KERNPAGE (h.lt_KERNPAGE hv))] at hnone
    rw [hnone v rfl] at hmaps
    cases hmaps

/-- `copyout` to an address above the program: it faults where there is no page table, and
otherwise it fails. -/
theorem wp_copyout_above {Q : Bool → Mem → Prop} (h : sp.Image I sz guard mem)
    (hh : Heap F m (sp ::ₘ S) lo) (ha : KERNBASE ≤ a) (ha' : a < 2 ^ 32) (hpos : 0 < l.length)
    (hfault : (∀ v, v / NPDENTRIES = a / PGSIZE / NPDENTRIES → kernelMaps I v = none) →
      E (.panic "PAGE FAULT") m)
    (hQ : ¬(∀ v, v / NPDENTRIES = a / PGSIZE / NPDENTRIES → kernelMaps I v = none) → Q false m) :
    wp (copyout sp.dir a l) Q E m := by
  have hsz := h.size
  have hv : a / PGSIZE < 2 ^ 20 := by simp only [PGSIZE]; omega
  have hnone : m.ram.userPage sp.dir (a / PGSIZE) = none := by
    by_contra hne
    have := ((h.userPage_eq hh hv).mp hne).1
    simp only [KERNBASE, KERNPAGE, PGSIZE] at *
    omega
  have hgap : m.ram.entry sp.dir (a / PGSIZE) = none ↔
      ∀ v, v / NPDENTRIES = a / PGSIZE / NPDENTRIES → kernelMaps I v = none := by
    rw [h.entry_eq_none hh hv]
    refine forall₂_congr fun v hva => ?_
    rw [h.kernel v]
    simp only [KERNBASE, KERNPAGE, PGSIZE, NPDENTRIES] at *
    omega
  rw [copyout, copyoutLoop, if_pos hpos, wp_bind, PGROUNDDOWN]
  cases he : m.ram.entry sp.dir (a / PGSIZE) with
  | none =>
    rw [wp_of_error (uva2ka_none hv he)]
    exact hfault (hgap.mp he)
  | some e =>
    rw [wp_of_ok (uva2ka_some hv he), hnone]
    refine hQ fun hall => ?_
    rw [hgap.mpr hall] at he
    cases he

end Space.Image

end Xv6Rework.Vm
