import Xv6Rework.Lib.Held
import Xv6Rework.Mem.Vm

/-!
# Who owns a page frame

An address space `Space` is a page directory together with what its frames contain: the
directory itself, its page tables and the pages it maps below `KERNBASE`.  `Space.maps` is
what it stands for, the entry and the contents of each page.

`Heap F m S lo` says that the frames `F` are, without repetition, those on the free list of
`m`, the loose ones `lo` that code holds a pointer to, and the frames of each address space in
`S`, with the contents they have there.

The lemmas are the rules by which frames move: from the free list into `lo` and back, and
between `lo` and an address space when a directory is started, a page table is installed, and
a page is mapped, written to and unmapped.  In each of them the other address spaces appear
unchanged, because a frame that is written to belongs to none of them.
-/

namespace Xv6Rework.Vm

open Function Multiset

/-! ## Entries -/

/-- The fields of an entry are within their bits. -/
structure Pte.Fits (e : Pte) : Prop where
  rest_lt : e.rest < 2 ^ 9
  frame_lt : e.frame < 2 ^ 20

/-- An entry is read back as it was stored. -/
theorem Pte.ofNat_toNat {e : Pte} (h : e.Fits) : Pte.ofNat (e.toNat % 256 ^ 4) = e := by
  obtain ⟨⟨p, w, u, r⟩, f⟩ := e
  obtain ⟨hr, hf⟩ := h
  simp only at hr hf
  have hbit : ∀ {b : Bool} {n : Nat}, n = b.toNat → decide (n = 1) = b := by
    rintro b _ rfl
    cases b <;> rfl
  have hp := Bool.toNat_lt p
  have hw := Bool.toNat_lt w
  have hu := Bool.toNat_lt u
  have hword : Pte.toNat ⟨⟨p, w, u, r⟩, f⟩ % 256 ^ 4 =
      f * 2 ^ 12 + r * 8 + u.toNat * 4 + w.toNat * 2 + p.toNat := by
    simp only [Pte.toNat]
    omega
  rw [Pte.ofNat, hword, hbit (b := p) (by omega), hbit (b := w) (by omega), hbit
    (b := u) (by omega)]
  congr 1
  · congr 1
    omega
  · omega

/-- What is stored in a word fits. -/
theorem Pte.fits_ofNat {w : Nat} (h : w < 2 ^ 32) : (Pte.ofNat w).Fits :=
  ⟨Nat.mod_lt _ (by decide), by simp only [Pte.ofNat]; omega⟩

/-- The frame an entry points to. -/
def Pte.entry (e : Pte) : Option Nat := if e.present then some e.frame else none

@[simp] theorem Pte.entry_zero : Pte.zero.entry = none := rfl

theorem Pte.entry_eq_none {e : Pte} : e.entry = none ↔ e.present = false := by
  cases h : e.present <;> simp [entry, h]

theorem Pte.entry_eq_some {e : Pte} {f : Nat} :
    e.entry = some f ↔ e.present = true ∧ e.frame = f := by
  cases h : e.present <;> simp [entry, h]

section

variable {m : Mem} {f g i j : Nat} {e : Pte}

@[simp] theorem Mem.ram_setPage (x : Bytes 4096) : (m.setPage f x).ram = update m.ram f x := rfl

@[simp] theorem Mem.freelist_setPage (x : Bytes 4096) : (m.setPage f x).freelist = m.freelist := rfl

@[simp] theorem Mem.freelist_setPte : (m.setPte f i e).freelist = m.freelist := rfl

theorem Mem.ram_setPte_of_ne (h : g ≠ f) : (m.setPte f i e).ram g = m.ram g := update_of_ne h _ _

theorem Mem.page_setPte_self (hi : i < NPDENTRIES) (he : e.Fits) :
    (m.setPte f i e).ram.page f i = e := by
  simp only [NPDENTRIES] at hi
  rw [Ram.page, Mem.setPte, Mem.ram_setPage, update_self, Bytes.getLE_setLE _ _ (by omega),
    Pte.ofNat_toNat he]

theorem Ram.page_congr {r r' : Ram} (h : r' f = r f) : r'.page f i = r.page f i := by
  rw [Ram.page, Ram.page, h]

theorem Mem.page_setPte_of_ne (h : j ≠ i) : (m.setPte f i e).ram.page g j = m.ram.page g j := by
  by_cases hg : g = f
  · subst hg
    rw [Ram.page, Ram.page, Mem.setPte, Mem.ram_setPage, update_self,
      Bytes.getLE_setLE_of_disjoint _ _ (by omega)]
  · exact Ram.page_congr (Mem.ram_setPte_of_ne hg)

@[simp] theorem Pte.ofNat_zero : Pte.ofNat 0 = Pte.zero := rfl

/-- A cleared page has empty entries. -/
theorem Ram.page_zero {r : Ram} (h : r f = .zero) : r.page f i = Pte.zero := by
  rw [Ram.page, h, Bytes.getLE_zero, Pte.ofNat_zero]

/-- What is read from memory fits. -/
theorem Ram.page_fits {r : Ram} {f i : Nat} : (r.page f i).Fits := by
  rw [Ram.page]
  exact Pte.fits_ofNat (Bytes.getLE_lt _ _ 4)

end

/-! ## Address spaces -/

/-- A mapped page: its entry, and its contents if it is below `KERNBASE`. -/
structure Page where
  pte : Pte
  data : Bytes 4096
deriving DecidableEq

namespace Ram

/-- The page table in entry `i` of the directory `d`. -/
def table (r : Ram) (d i : Nat) : Option Nat := (r.page d i).entry

/-- The frame that the directory `d` maps the virtual page `v` to. -/
def pte (r : Ram) (d v : Nat) : Option Nat :=
  (r.table d (v / NPDENTRIES)).bind fun t => (r.page t (v % NPDENTRIES)).entry

/-- The page tables of a directory. -/
def tables (r : Ram) (d : Nat) : Multiset Nat := held (.range NPDENTRIES) (r.table d)

/-- The frames a directory maps below `KERNBASE`. -/
def maps (r : Ram) (d : Nat) : Multiset Nat := held (.range KERNPAGE) (r.pte d)

/-- All frames of an address space. -/
def frames (r : Ram) (d : Nat) : Multiset Nat := d ::ₘ (r.tables d + r.maps d)

/-- The page an entry for the virtual page `v` gives. -/
def found (r : Ram) (v : Nat) (e : Pte) : Option Page :=
  if e.present then some ⟨e, if v < KERNPAGE then r e.frame else .zero⟩ else none

/-- What the directory `d` maps the virtual page `v` to. -/
def view (r : Ram) (d v : Nat) : Option Page :=
  if v < 2 ^ 20 then
    (r.table d (v / NPDENTRIES)).bind fun t => r.found v (r.page t (v % NPDENTRIES))
  else
    none

/-- The frames of `d` contain the same in `r` and `r'`. -/
def Agree (r r' : Ram) (d : Nat) : Prop := ∀ f ∈ r.frames d, r' f = r f

end Ram

variable {r r' : Ram} {m m' : Mem} {d f i t v : Nat} {x : Bytes 4096} {e : Pte}

theorem table_present (h : (r.page d i).present = true) : r.table d i = some (r.page d i).frame :=
  Pte.entry_eq_some.mpr ⟨h, rfl⟩

theorem table_absent (h : ¬(r.page d i).present = true) : r.table d i = none :=
  Pte.entry_eq_none.mpr (by simpa using h)

theorem mem_tables : t ∈ r.tables d ↔ ∃ i < NPDENTRIES, r.table d i = some t := by
  simp [Ram.tables, mem_held]

theorem self_mem_frames : d ∈ r.frames d := mem_cons_self _ _

theorem table_mem_frames (ht : t ∈ r.tables d) : t ∈ r.frames d := by
  simp [Ram.frames, ht]

theorem mapped_mem_frames (hv : v < KERNPAGE) (h : r.pte d v = some f) : f ∈ r.frames d := by
  have : f ∈ r.maps d := mem_held.mpr ⟨v, Finset.mem_range.mpr hv, h⟩
  simp [Ram.frames, this]

theorem div_lt_NPDENTRIES (hv : v < 2 ^ 20) : v / NPDENTRIES < NPDENTRIES := by
  simp only [NPDENTRIES]
  omega

theorem mod_lt_NPDENTRIES (v : Nat) : v % NPDENTRIES < NPDENTRIES :=
  Nat.mod_lt _ (by simp [NPDENTRIES])

theorem lt_of_lt_KERNPAGE (hv : v < KERNPAGE) : v < 2 ^ 20 := by
  simp only [KERNPAGE] at hv
  omega

/-- The entry of a page in a table that is there. -/
theorem pte_eq (h : r.table d (v / NPDENTRIES) = some t) :
    r.pte d v = (r.page t (v % NPDENTRIES)).entry := by
  simp [Ram.pte, h]

theorem view_eq (hv : v < 2 ^ 20) (h : r.table d (v / NPDENTRIES) = some t) :
    r.view d v = r.found v (r.page t (v % NPDENTRIES)) := by
  rw [Ram.view, if_pos hv, h, Option.bind_some]

/-- The frames of a view. -/
theorem pte_view (hv : v < 2 ^ 20) : r.pte d v = (r.view d v).map fun pg => pg.pte.frame := by
  rw [Ram.pte, Ram.view, if_pos hv]
  cases r.table d (v / NPDENTRIES) with
  | none => rfl
  | some t =>
    simp only [Option.bind_some, Pte.entry, Ram.found]
    split <;> rfl

/-- What is mapped at a page depends on the way there and on the frame it leads to. -/
theorem pte_congr (ht : r'.table d (v / NPDENTRIES) = r.table d (v / NPDENTRIES))
    (hp : ∀ t, r.table d (v / NPDENTRIES) = some t →
      r'.page t (v % NPDENTRIES) = r.page t (v % NPDENTRIES)) : r'.pte d v = r.pte d v := by
  rw [Ram.pte, Ram.pte, ht]
  cases hr : r.table d (v / NPDENTRIES) with
  | none => simp only [Option.bind_none]
  | some t => rw [Option.bind_some, Option.bind_some, hp t hr]

theorem view_congr (ht : r'.table d (v / NPDENTRIES) = r.table d (v / NPDENTRIES))
    (hp : ∀ t, r.table d (v / NPDENTRIES) = some t →
      r'.page t (v % NPDENTRIES) = r.page t (v % NPDENTRIES))
    (hd : v < KERNPAGE → ∀ f, r.pte d v = some f → r' f = r f) : r'.view d v = r.view d v := by
  rw [Ram.view, Ram.view, ht]
  split
  next hv =>
    cases hr : r.table d (v / NPDENTRIES) with
    | none => simp only [Option.bind_none]
    | some t =>
      rw [Option.bind_some, Option.bind_some, hp t hr, Ram.found, Ram.found]
      split
      next hpres =>
        split
        next hk =>
          rw [hd hk _ ((pte_eq hr).trans (Pte.entry_eq_some.mpr ⟨hpres, rfl⟩))]
        next => rfl
      next => rfl
  next => rfl

theorem found_none : r.found v e = none ↔ e.present = false := by
  cases h : e.present <;> simp [Ram.found, h]

/-- A page that is found is present, and has the contents of its frame. -/
theorem found_some {pg : Page} : r.found v e = some pg ↔
    e.present = true ∧ pg.pte = e ∧ pg.data = if v < KERNPAGE then r e.frame else .zero := by
  cases h : e.present with
  | false => simp [Ram.found, h]
  | true =>
    simp only [Ram.found, h, if_true, Option.some.injEq, true_and]
    constructor
    · rintro rfl; exact ⟨rfl, rfl⟩
    · rintro ⟨h1, h2⟩; cases pg; simp_all

/-! ### Frames that do not matter to an address space -/

namespace Ram.Agree

theorem dir (h : r.Agree r' d) : r' d = r d := h d self_mem_frames

theorem table (h : r.Agree r' d) : r'.table d = r.table d := by
  funext i
  rw [Ram.table, Ram.table, Ram.page_congr h.dir]

theorem tables (h : r.Agree r' d) : r'.tables d = r.tables d := by
  rw [Ram.tables, Ram.tables, h.table]

theorem page (h : r.Agree r' d) (ht : t ∈ r.tables d) : r'.page t i = r.page t i :=
  Ram.page_congr (h t (table_mem_frames ht))

theorem pte (h : r.Agree r' d) (hv : v < 2 ^ 20) : r'.pte d v = r.pte d v :=
  pte_congr (by rw [h.table]) fun _ ht => h.page (mem_tables.mpr ⟨_, div_lt_NPDENTRIES hv, ht⟩)

theorem maps (h : r.Agree r' d) : r'.maps d = r.maps d :=
  held_congr fun _ hv => h.pte (lt_of_lt_KERNPAGE (Finset.mem_range.mp hv))

theorem frames (h : r.Agree r' d) : r'.frames d = r.frames d := by
  rw [Ram.frames, Ram.frames, h.tables, h.maps]

theorem view (h : r.Agree r' d) : r'.view d = r.view d := by
  funext v
  by_cases hv : v < 2 ^ 20
  · exact view_congr (by rw [h.table])
      (fun _ ht => h.page (mem_tables.mpr ⟨_, div_lt_NPDENTRIES hv, ht⟩))
      fun hk f hf => h f (mapped_mem_frames hk hf)
  · rw [Ram.view, Ram.view, if_neg hv, if_neg hv]

theorem trans {r'' : Ram} (h : r.Agree r' d) (h' : r'.Agree r'' d) : r.Agree r'' d := by
  intro f hf
  rw [h' f (by rwa [h.frames]), h f hf]

end Ram.Agree

/-- An address space: its directory, and what its frames contain. -/
structure Space where
  dir : Nat
  ram : Ram

namespace Space

/-- The frames of an address space. -/
def frames (sp : Space) : Multiset Nat := sp.ram.frames sp.dir

/-- What an address space maps each page to. -/
def maps (sp : Space) : Nat → Option Page := sp.ram.view sp.dir

/-- The address space `sp'` is `sp` with `o` at page `v`, and with at most a new page table
for that page. -/
structure Changed (sp : Space) (v : Nat) (o : Option Page) (sp' : Space) : Prop where
  dir_eq : sp'.dir = sp.dir
  maps_eq : sp'.maps = update sp.maps v o
  table_eq : ∀ i, i ≠ v / NPDENTRIES → sp'.ram.table sp.dir i = sp.ram.table sp.dir i

namespace Changed

variable {sp sp1 sp2 : Space} {o o' : Option Page}

theorem refl (sp : Space) (v : Nat) : sp.Changed v (sp.maps v) sp :=
  ⟨rfl, (update_eq_self v sp.maps).symm, fun _ _ => rfl⟩

theorem trans (h : sp.Changed v o sp1) (h' : sp1.Changed v o' sp2) : sp.Changed v o' sp2 where
  dir_eq := h'.dir_eq.trans h.dir_eq
  maps_eq := by rw [h'.maps_eq, h.maps_eq, update_idem]
  table_eq i hi := by rw [← h.table_eq i hi, ← h.dir_eq, h'.table_eq i hi]

theorem maps_self (h : sp.Changed v o sp1) : sp1.maps v = o := by rw [h.maps_eq, update_self]

theorem maps_of_ne (h : sp.Changed v o sp1) {w : Nat} (hw : w ≠ v) : sp1.maps w = sp.maps w := by
  rw [h.maps_eq, update_of_ne hw]

end Changed

end Space

/-- The address space of a directory. -/
def Mem.space (m : Mem) (d : Nat) : Space := ⟨d, m.ram⟩

@[simp] theorem Mem.dir_space : (m.space d).dir = d := rfl

/-! ## The ledger of frames -/

/-- The frames `F` are those on the free list, the loose frames `lo` and the frames
of the address spaces `S`, each once, and the address spaces are as they are in memory. -/
structure Heap (F : Finset Nat) (m : Mem) (S : Multiset Space) (lo : Multiset Nat) : Prop where
  sum : (m.freelist : Multiset Nat) + lo + (S.map Space.frames).sum = F.val
  agree : ∀ sp ∈ S, sp.ram.Agree m.ram sp.dir

namespace Heap

variable {F : Finset Nat} {S : Multiset Space} {lo lo' : Multiset Nat} {sp sp' : Space}

theorem frames_eq (h : Heap F m S lo) (hsp : sp ∈ S) : m.ram.frames sp.dir = sp.frames :=
  (h.agree sp hsp).frames

theorem view (h : Heap F m S lo) (hsp : sp ∈ S) : m.ram.view sp.dir = sp.maps :=
  (h.agree sp hsp).view

theorem mem_sum_frames (hsp : sp ∈ S) (hf : f ∈ sp.frames) : f ∈ (S.map Space.frames).sum :=
  mem_join.mpr ⟨_, mem_map_of_mem _ hsp, hf⟩

theorem nodup (h : Heap F m S lo) :
    ((m.freelist : Multiset Nat) + lo + (S.map Space.frames).sum).Nodup :=
  h.sum ▸ F.nodup

theorem mem_of_loose (h : Heap F m S lo) (hf : f ∈ lo) : f ∈ F := by
  rw [← Finset.mem_val, ← h.sum]
  simp [hf]

theorem mem_of_frames (h : Heap F m S lo) (hsp : sp ∈ S) (hf : f ∈ m.ram.frames sp.dir) :
    f ∈ F := by
  rw [h.frames_eq hsp] at hf
  rw [← Finset.mem_val, ← h.sum, mem_add]
  exact .inr (mem_sum_frames hsp hf)

/-- A loose frame belongs to no address space. -/
theorem loose_notMem (h : Heap F m S lo) (hf : f ∈ lo) (hsp : sp ∈ S) :
    f ∉ m.ram.frames sp.dir := by
  intro hf'
  rw [h.frames_eq hsp] at hf'
  exact disjoint_left.mp (nodup_add.mp h.nodup).2.2 (by simp [hf])
    (mem_sum_frames hsp hf')

/-- A frame of one address space belongs to no other. -/
theorem other_notMem (h : Heap F m (sp ::ₘ S) lo) (hf : f ∈ m.ram.frames sp.dir) (hsp : sp' ∈ S) :
    f ∉ m.ram.frames sp'.dir := by
  intro hf'
  rw [h.frames_eq (mem_cons_self _ _)] at hf
  rw [h.frames_eq (mem_cons_of_mem hsp)] at hf'
  have hnd := (nodup_add.mp h.nodup).2.1
  rw [map_cons, sum_cons] at hnd
  exact disjoint_left.mp (nodup_add.mp hnd).2.2 hf (mem_sum_frames hsp hf')

theorem frames_nodup (h : Heap F m (sp ::ₘ S) lo) : (m.ram.frames sp.dir).Nodup := by
  have hnd := (nodup_add.mp h.nodup).2.1
  rw [map_cons, sum_cons] at hnd
  rw [h.frames_eq (mem_cons_self _ _)]
  exact (nodup_add.mp hnd).1

/-- The free list is determined by the rest. -/
theorem freelist_perm (h : Heap F m S lo) (h' : Heap F m' S lo) : m'.freelist.Perm m.freelist := by
  have hsum := h'.sum.trans h.sum.symm
  rw [add_assoc, add_assoc] at hsum
  exact coe_eq_coe.mp (add_right_cancel hsum)

/-- The frames of an address space that is gone are on the free list. -/
theorem freed (h : Heap F m (sp ::ₘ S) lo) (h' : Heap F m' S lo) :
    (m'.freelist : Multiset Nat) = m.freelist + sp.frames := by
  have hsum := h'.sum.trans h.sum.symm
  rw [map_cons, sum_cons] at hsum
  refine add_right_cancel (b := lo + (S.map Space.frames).sum) ?_
  convert hsum using 1 <;> ac_rfl

/-- The address spaces are not concerned. -/
theorem of_agree (h : Heap F m S lo) (ha : ∀ sp ∈ S, m.ram.Agree m'.ram sp.dir)
    (hsum : (m'.freelist : Multiset Nat) + lo' = m.freelist + lo) : Heap F m' S lo' where
  sum := by rw [hsum, h.sum]
  agree sp hsp := (h.agree sp hsp).trans (ha sp hsp)

/-- Only the contents of the frames matter. -/
theorem of_ram (h : Heap F m S lo) (hr : m'.ram = m.ram)
    (hsum : (m'.freelist : Multiset Nat) + lo' = m.freelist + lo) : Heap F m' S lo' :=
  h.of_agree (fun _ _ _ _ => by rw [hr]) hsum

/-- One address space is concerned. -/
theorem of_agree_cons (h : Heap F m (sp ::ₘ S) lo) (ha : ∀ sp ∈ S, m.ram.Agree m'.ram sp.dir)
    (hfl : m'.freelist = m.freelist)
    (hsum : lo' + m'.ram.frames sp.dir = lo + m.ram.frames sp.dir) :
    Heap F m' (m'.space sp.dir ::ₘ S) lo' where
  sum := by
    have hs := h.sum
    rw [map_cons, sum_cons, ← add_assoc, add_assoc (_ : Multiset Nat) lo,
      ← h.frames_eq (mem_cons_self _ _)] at hs
    rw [map_cons, sum_cons, ← add_assoc, add_assoc (_ : Multiset Nat) lo', hfl]
    change _ + (lo' + m'.ram.frames sp.dir) + _ = _
    rw [hsum, ← hs]
  agree sp' hsp := by
    rcases mem_cons.mp hsp with rfl | hsp
    · exact fun _ _ => rfl
    · exact (h.agree sp' (mem_cons_of_mem hsp)).trans (ha sp' hsp)

/-- A page comes off the free list. -/
theorem take {r : Nat} {l : List Nat} (h : Heap F m S lo) (hl : m.freelist = r :: l)
    (hram : m'.ram = m.ram) (hl' : m'.freelist = l) : Heap F m' S (r ::ₘ lo) := by
  refine h.of_ram hram ?_
  rw [hl, hl', ← cons_coe, add_cons, cons_add]

/-- A loose page is written to. -/
theorem write (h : Heap F m S lo) (hf : f ∈ lo) (x : Bytes 4096) : Heap F (m.setPage f x) S lo :=
  h.of_agree (fun sp hsp g hg => update_of_ne
    (by rintro rfl; exact h.loose_notMem hf hsp hg) _ _) rfl

/-- A loose page goes on the free list. -/
theorem give (h : Heap F m S (f ::ₘ lo)) : Heap F { m with freelist := f :: m.freelist } S lo := by
  refine h.of_ram rfl ?_
  rw [← cons_coe, add_cons, cons_add]

/-- A page is handed over to the allocator. -/
theorem add (h : Heap F m S lo) (hf : f ∉ F) (x : Bytes 4096) :
    Heap (insert f F) { m.setPage f x with freelist := f :: m.freelist } S lo where
  sum := by
    rw [Finset.insert_val_of_notMem hf, ← h.sum, ← cons_coe, cons_add,
      cons_add]
  agree sp hsp := (h.agree sp hsp).trans fun g hg =>
    update_of_ne (by rintro rfl; exact hf (h.mem_of_frames hsp hg)) _ _

/-- A cleared loose page is an address space that maps nothing. -/
theorem start (h : Heap F m S (d ::ₘ lo)) (hz : m.ram d = .zero) :
    Heap F m (m.space d ::ₘ S) lo ∧ (m.space d).maps = fun _ => none := by
  have ht : ∀ i, m.ram.table d i = none := fun i => by
    rw [Ram.table, Ram.page_zero hz, Pte.entry_zero]
  have hp : ∀ v, m.ram.pte d v = none := fun v => by simp [Ram.pte, ht]
  have hfr : m.ram.frames d = {d} := by
    rw [Ram.frames, Ram.tables, Ram.maps, held_eq_zero fun i _ => ht i,
      held_eq_zero fun v _ => hp v]
    rfl
  refine ⟨⟨?_, fun sp hsp => ?_⟩, funext fun v => ?_⟩
  · rw [map_cons, sum_cons, show (m.space d).frames = {d} from hfr, ← h.sum,
      ← singleton_add d lo]
    ac_rfl
  · rcases mem_cons.mp hsp with rfl | hsp
    · exact fun _ _ => rfl
    · exact h.agree sp hsp
  · simp [Space.maps, Mem.space, Ram.view, ht]

/-! ### Changes to one address space -/

section

variable (h : Heap F m (sp ::ₘ S) lo)

include h

theorem maps_eq : sp.maps = m.ram.view sp.dir := (h.view (mem_cons_self _ _)).symm

theorem table_eq : sp.ram.table sp.dir = m.ram.table sp.dir :=
  (h.agree sp (mem_cons_self _ _)).table.symm

/-- What is mapped at a page, read off its entry. -/
theorem maps_found (hv : v < 2 ^ 20) (ht : m.ram.table sp.dir (v / NPDENTRIES) = some t) :
    sp.maps v = m.ram.found v (m.ram.page t (v % NPDENTRIES)) := by
  rw [h.maps_eq, view_eq hv ht]

theorem maps_none (ht : m.ram.table sp.dir (v / NPDENTRIES) = none) : sp.maps v = none := by
  rw [h.maps_eq, Ram.view, ht, Option.bind_none, ite_self]

/-- The entry and the contents of a page that is mapped. -/
theorem entry_maps {pg : Page} (hv : v < 2 ^ 20) (hpg : sp.maps v = some pg) :
    ∃ t, m.ram.table sp.dir (v / NPDENTRIES) = some t ∧ m.ram.page t (v % NPDENTRIES) = pg.pte ∧
      pg.pte.present = true ∧ (v < KERNPAGE → m.ram pg.pte.frame = pg.data) := by
  rw [h.maps_eq, Ram.view, if_pos hv] at hpg
  obtain ⟨t, ht, hfound⟩ := Option.bind_eq_some_iff.mp hpg
  obtain ⟨hpres, hpte, hdata⟩ := found_some.mp hfound
  refine ⟨t, ht, hpte.symm, hpte ▸ hpres, fun hk => ?_⟩
  rw [hdata, if_pos hk, hpte]

/-- The frame of a page. -/
theorem pte_maps (hv : v < 2 ^ 20) : m.ram.pte sp.dir v = (sp.maps v).map fun pg =>
    pg.pte.frame := by
  rw [pte_view hv, h.maps_eq]

theorem table_inj {j : Nat} (hi : i < NPDENTRIES) (hj : j < NPDENTRIES)
    (ht : m.ram.table sp.dir i = some t) (ht' : m.ram.table sp.dir j = some t) : i = j := by
  have hnd := h.frames_nodup
  rw [Ram.frames, nodup_cons, nodup_add] at hnd
  exact held_inj hnd.2.1 (Finset.mem_range.mpr hi) (Finset.mem_range.mpr hj) ht ht'

theorem table_ne_dir (ht : t ∈ m.ram.tables sp.dir) : t ≠ sp.dir := by
  have hnd := h.frames_nodup
  rw [Ram.frames, nodup_cons] at hnd
  rintro rfl
  exact hnd.1 (mem_add.mpr (.inl ht))

theorem mapped_ne_dir (hv : v < KERNPAGE) (hf : m.ram.pte sp.dir v = some f) : f ≠ sp.dir := by
  have hnd := h.frames_nodup
  rw [Ram.frames, nodup_cons] at hnd
  rintro rfl
  exact hnd.1 (mem_add.mpr (.inr (mem_held.mpr ⟨v, Finset.mem_range.mpr hv, hf⟩)))

/-- A mapped frame is no page table. -/
theorem mapped_ne_table (hv : v < KERNPAGE) (hf : m.ram.pte sp.dir v = some f)
    (ht : t ∈ m.ram.tables sp.dir) : f ≠ t := by
  have hnd := h.frames_nodup
  rw [Ram.frames, nodup_cons, nodup_add] at hnd
  rintro rfl
  exact disjoint_left.mp hnd.2.2.2 ht
    (mem_held.mpr ⟨v, Finset.mem_range.mpr hv, hf⟩)

/-- A frame is mapped once. -/
theorem mapped_inj {w : Nat} (hv : v < KERNPAGE) (hw : w < KERNPAGE)
    (hf : m.ram.pte sp.dir v = some f) (hf' : m.ram.pte sp.dir w = some f) : v = w := by
  have hnd := h.frames_nodup
  rw [Ram.frames, nodup_cons, nodup_add] at hnd
  exact held_inj hnd.2.2.1 (Finset.mem_range.mpr hv) (Finset.mem_range.mpr hw) hf hf'

theorem agree_write (hf : f ∈ m.ram.frames sp.dir) :
    ∀ sp' ∈ S, m.ram.Agree (m.setPage f x).ram sp'.dir :=
  fun sp' hsp g hg => update_of_ne (by rintro rfl; exact h.other_notMem hf hsp hg) _ _

omit h in
/-- The tables stay where they are when another frame is written to. -/
theorem table_setPage (hf : f ≠ sp.dir) :
    (m.setPage f x).ram.table sp.dir = m.ram.table sp.dir := by
  funext i
  exact congrArg Pte.entry (Ram.page_congr (update_of_ne hf.symm _ _))

theorem table_setPte (hv : v < 2 ^ 20) (ht : m.ram.table sp.dir (v / NPDENTRIES) = some t) :
    (m.setPte t i e).ram.table sp.dir = m.ram.table sp.dir :=
  table_setPage (h.table_ne_dir (mem_tables.mpr ⟨_, div_lt_NPDENTRIES hv, ht⟩))

/-- The entry of another page stays. -/
theorem page_setPte_other (hv : v < 2 ^ 20) (ht : m.ram.table sp.dir (v / NPDENTRIES) = some t)
    {w t' : Nat} (hw : w < 2 ^ 20) (hwv : w ≠ v)
    (ht' : m.ram.table sp.dir (w / NPDENTRIES) = some t') :
    (m.setPte t (v % NPDENTRIES) e).ram.page t' (w % NPDENTRIES) =
      m.ram.page t' (w % NPDENTRIES) := by
  by_cases htt : t' = t
  · subst htt
    have hq := h.table_inj (div_lt_NPDENTRIES hw) (div_lt_NPDENTRIES hv) ht' ht
    refine Mem.page_setPte_of_ne fun hr => hwv ?_
    rw [← Nat.div_add_mod w NPDENTRIES, hq, hr, Nat.div_add_mod]
  · exact Ram.page_congr (Mem.ram_setPte_of_ne htt)

/-- Storing to the entry of a page changes what is mapped there and nowhere else. -/
theorem pte_setPte (hv : v < 2 ^ 20) (ht : m.ram.table sp.dir (v / NPDENTRIES) = some t)
    (he : e.Fits) {w : Nat} (hw : w < 2 ^ 20) : (m.setPte t (v % NPDENTRIES) e).ram.pte sp.dir w =
      update (m.ram.pte sp.dir) v e.entry w := by
  have htab := h.table_setPte (i := v % NPDENTRIES) (e := e) hv ht
  by_cases hwv : w = v
  · subst hwv
    rw [pte_eq (by rw [htab, ht]), Mem.page_setPte_self (mod_lt_NPDENTRIES w) he, update_self]
  · rw [update_of_ne hwv]
    exact pte_congr (by rw [htab]) fun t' ht' => h.page_setPte_other hv ht hw hwv ht'

/-- The address space after such a store, to an entry that does not lead to its own table. -/
theorem changed_setPte (hv : v < 2 ^ 20) (ht : m.ram.table sp.dir (v / NPDENTRIES) = some t)
    (he : e.Fits) (hne : v < KERNPAGE → e.present = true → e.frame ≠ t) :
    sp.Changed v (m.ram.found v e) ((m.setPte t (v % NPDENTRIES) e).space sp.dir) := by
  have htm : t ∈ m.ram.tables sp.dir := mem_tables.mpr ⟨_, div_lt_NPDENTRIES hv, ht⟩
  have htab := h.table_setPte (i := v % NPDENTRIES) (e := e) hv ht
  refine ⟨rfl, funext fun w => ?_, fun i _ => by rw [h.table_eq, ← htab]; rfl⟩
  change (m.setPte t (v % NPDENTRIES) e).ram.view sp.dir w = _
  by_cases hwv : w = v
  · subst hwv
    rw [view_eq hv (by rw [htab, ht]), Mem.page_setPte_self (mod_lt_NPDENTRIES w) he, update_self,
      Ram.found, Ram.found]
    split
    next hp =>
      split
      next hk => rw [Mem.ram_setPte_of_ne (hne hk hp)]
      next => rfl
    next => rfl
  · rw [update_of_ne hwv, h.maps_eq]
    by_cases hw : w < 2 ^ 20
    · exact view_congr (by rw [htab]) (fun t' ht' => h.page_setPte_other hv ht hw hwv ht')
        fun hk f hf =>
        Mem.ram_setPte_of_ne (h.mapped_ne_table hk hf htm)
    · rw [Ram.view, Ram.view, if_neg hw, if_neg hw]

theorem frames_setPte (hv : v < 2 ^ 20) (ht : m.ram.table sp.dir (v / NPDENTRIES) = some t)
    (he : e.Fits) : (m.setPte t (v % NPDENTRIES) e).ram.frames sp.dir =
      sp.dir ::ₘ (m.ram.tables sp.dir + held (.range KERNPAGE)
      (update (m.ram.pte sp.dir) v e.entry)) := by
  rw [Ram.frames, Ram.tables, h.table_setPte hv ht, Ram.maps, Ram.tables,
    held_congr fun w hw => h.pte_setPte hv ht he (lt_of_lt_KERNPAGE (Finset.mem_range.mp hw))]

end

/-- A cleared loose page becomes a page table. -/
theorem install (h : Heap F m (sp ::ₘ S) (t ::ₘ lo)) (hv : v < 2 ^ 20) (hi : v / NPDENTRIES = i)
    (hn : m.ram.table sp.dir i = none) (hz : m.ram t = .zero) (he : e.Fits)
    (het : e.entry = some t) :
    Heap F (m.setPte sp.dir i e) ((m.setPte sp.dir i e).space sp.dir ::ₘ S) lo ∧
      sp.Changed v (sp.maps v) ((m.setPte sp.dir i e).space sp.dir) ∧
      (m.setPte sp.dir i e).ram.table sp.dir i = some t := by
  have hiN : i < NPDENTRIES := hi ▸ div_lt_NPDENTRIES hv
  have htd : t ≠ sp.dir := by
    rintro rfl
    exact h.loose_notMem (mem_cons_self _ _) (mem_cons_self sp S) self_mem_frames
  have htab : (m.setPte sp.dir i e).ram.table sp.dir = update (m.ram.table sp.dir) i (some t) := by
    funext j
    by_cases hj : j = i
    · subst hj
      rw [update_self, ← het]
      exact congrArg Pte.entry (Mem.page_setPte_self hiN he)
    · rw [update_of_ne hj]
      exact congrArg Pte.entry (Mem.page_setPte_of_ne hj)
  -- a page of the new table is mapped nowhere, as before
  have hnew : ∀ v, v / NPDENTRIES = i → (m.setPte sp.dir i e).ram.pte sp.dir v = none := by
    rintro v rfl
    rw [pte_eq (by rw [htab, update_self]), Ram.page_zero (by rw [Mem.ram_setPte_of_ne htd, hz]),
      Pte.entry_zero]
  have hold : ∀ v, v / NPDENTRIES = i → m.ram.pte sp.dir v = none := by
    rintro v rfl
    rw [Ram.pte, hn, Option.bind_none]
  have hpage : ∀ {v t'}, v < 2 ^ 20 → m.ram.table sp.dir (v / NPDENTRIES) = some t' →
      (m.setPte sp.dir i e).ram.page t' (v % NPDENTRIES) = m.ram.page t' (v % NPDENTRIES) := by
    intro v t' hv ht'
    exact Ram.page_congr (Mem.ram_setPte_of_ne
      (h.table_ne_dir (mem_tables.mpr ⟨_, div_lt_NPDENTRIES hv, ht'⟩)))
  have hpte : ∀ v < 2 ^ 20, (m.setPte sp.dir i e).ram.pte sp.dir v = m.ram.pte sp.dir v := by
    intro v hv
    by_cases hvi : v / NPDENTRIES = i
    · rw [hnew v hvi, hold v hvi]
    · exact pte_congr (by rw [htab, update_of_ne hvi]) fun t' ht' => hpage hv ht'
  refine ⟨h.of_agree_cons (h.agree_write self_mem_frames) rfl ?_,
    ⟨rfl, ?_, fun j hj => ?_⟩, by rw [htab, update_self]⟩
  · rw [Ram.frames, Ram.tables, htab, held_put (Finset.mem_range.mpr hiN) hn, Ram.maps,
      held_congr fun v hv => hpte v (lt_of_lt_KERNPAGE (Finset.mem_range.mp hv)), Ram.frames,
      Ram.tables, Ram.maps]
    simp [cons_swap]
  · rw [update_eq_self]
    funext v
    rw [h.maps_eq]
    change (m.setPte sp.dir i e).ram.view sp.dir v = _
    by_cases hv : v < 2 ^ 20
    · by_cases hvi : v / NPDENTRIES = i
      · have hview : ∀ r : Ram, r.pte sp.dir v = none → r.view sp.dir v = none := by
          intro r hr
          rw [pte_view hv] at hr
          exact Option.map_eq_none_iff.mp hr
        rw [hview _ (hnew v hvi), hview _ (hold v hvi)]
      · exact view_congr (by rw [htab, update_of_ne hvi]) (fun t' ht' => hpage hv ht')
          fun hk f hf =>
          Mem.ram_setPte_of_ne (h.mapped_ne_dir hk hf)
    · rw [Ram.view, Ram.view, if_neg hv, if_neg hv]
  · rw [h.table_eq]
    exact (congrFun htab j).trans (update_of_ne (by rwa [← hi]) _ _)

/-- A rule for a store to the entry of the page `v`, given what it does to the user
pages. -/
theorem setPte (h : Heap F m (sp ::ₘ S) lo) (hv : v < 2 ^ 20)
    (ht : m.ram.table sp.dir (v / NPDENTRIES) = some t) (he : e.Fits)
    (hsum : lo' + held (.range KERNPAGE) (update (m.ram.pte sp.dir) v e.entry) =
      lo + m.ram.maps sp.dir) :
    Heap F (m.setPte t (v % NPDENTRIES) e)
      ((m.setPte t (v % NPDENTRIES) e).space sp.dir ::ₘ S) lo' := by
  have htm : t ∈ m.ram.tables sp.dir := mem_tables.mpr ⟨_, div_lt_NPDENTRIES hv, ht⟩
  refine h.of_agree_cons (h.agree_write (table_mem_frames htm)) rfl ?_
  rw [h.frames_setPte hv ht he, Ram.frames, add_cons, add_cons,
    add_left_comm, hsum, add_left_comm]

/-- A loose page is mapped below `KERNBASE`. -/
theorem map (h : Heap F m (sp ::ₘ S) (f ::ₘ lo)) (hv : v < KERNPAGE)
    (ht : m.ram.table sp.dir (v / NPDENTRIES) = some t) (hn : m.ram.pte sp.dir v = none)
    (he : e.Fits) (hef : e.entry = some f) :
    Heap F (m.setPte t (v % NPDENTRIES) e) ((m.setPte t (v % NPDENTRIES) e).space sp.dir ::ₘ S) lo ∧
    sp.Changed v (some ⟨e, m.ram f⟩) ((m.setPte t (v % NPDENTRIES) e).space sp.dir) := by
  obtain ⟨hp, rfl⟩ := Pte.entry_eq_some.mp hef
  have hv' := lt_of_lt_KERNPAGE hv
  have htm : t ∈ m.ram.tables sp.dir := mem_tables.mpr ⟨_, div_lt_NPDENTRIES hv', ht⟩
  have hne : e.frame ≠ t := by
    rintro hc
    exact h.loose_notMem (mem_cons_self _ _) (mem_cons_self sp S)
      (hc ▸ table_mem_frames htm)
  refine ⟨h.setPte hv' ht he ?_, ?_⟩
  · rw [hef, held_put (Finset.mem_range.mpr hv) hn, Ram.maps, add_cons,
      cons_add]
  · have hc := h.changed_setPte hv' ht he fun _ _ => hne
    rwa [Ram.found, if_pos hp, if_pos hv] at hc

/-- A page is mapped in the kernel's part. -/
theorem mapKernel (h : Heap F m (sp ::ₘ S) lo) (hv : v < 2 ^ 20) (hk : KERNPAGE ≤ v)
    (ht : m.ram.table sp.dir (v / NPDENTRIES) = some t) (he : e.Fits) (hp : e.present = true) :
    Heap F (m.setPte t (v % NPDENTRIES) e) ((m.setPte t (v % NPDENTRIES) e).space sp.dir ::ₘ S) lo ∧
    sp.Changed v (some ⟨e, .zero⟩) ((m.setPte t (v % NPDENTRIES) e).space sp.dir) := by
  refine ⟨h.setPte hv ht he (congrArg (lo + ·) (held_congr fun w hw => update_of_ne ?_ _ _)), ?_⟩
  · have := Finset.mem_range.mp hw
    omega
  · have hc := h.changed_setPte hv ht he fun hk' => by omega
    rwa [Ram.found, if_pos hp, if_neg (by omega)] at hc

/-- A user page is unmapped. -/
theorem unmap (h : Heap F m (sp ::ₘ S) lo) (hv : v < KERNPAGE)
    (ht : m.ram.table sp.dir (v / NPDENTRIES) = some t) (hf : m.ram.pte sp.dir v = some f) :
    Heap F (m.setPte t (v % NPDENTRIES) Pte.zero)
      ((m.setPte t (v % NPDENTRIES) Pte.zero).space sp.dir ::ₘ S) (f ::ₘ lo) ∧
    sp.Changed v none ((m.setPte t (v % NPDENTRIES) Pte.zero).space sp.dir) := by
  have hfits : Pte.zero.Fits := ⟨by decide, by decide⟩
  refine ⟨h.setPte (lt_of_lt_KERNPAGE hv) ht hfits ?_,
    h.changed_setPte (lt_of_lt_KERNPAGE hv) ht hfits fun _ hp => by cases hp⟩
  rw [Pte.entry_zero, Ram.maps, held_take (Finset.mem_range.mpr hv) hf, add_cons,
    cons_add]

/-- The flags of an entry change. -/
theorem setFlags (h : Heap F m (sp ::ₘ S) lo) (hv : v < 2 ^ 20)
    (ht : m.ram.table sp.dir (v / NPDENTRIES) = some t) (he : e.Fits)
    (hent : e.entry = (m.ram.page t (v % NPDENTRIES)).entry) :
    Heap F (m.setPte t (v % NPDENTRIES) e) ((m.setPte t (v % NPDENTRIES) e).space sp.dir ::ₘ S) lo ∧
    sp.Changed v (m.ram.found v e) ((m.setPte t (v % NPDENTRIES) e).space sp.dir) := by
  have hp := pte_eq ht
  have htm : t ∈ m.ram.tables sp.dir := mem_tables.mpr ⟨_, div_lt_NPDENTRIES hv, ht⟩
  refine ⟨h.setPte hv ht he (by rw [hent, ← hp, update_eq_self, Ram.maps]), ?_⟩
  refine h.changed_setPte hv ht he fun hk hpres => h.mapped_ne_table hk ?_ htm
  rw [hp, ← hent]
  exact Pte.entry_eq_some.mpr ⟨hpres, rfl⟩

/-- A mapped page is written to. -/
theorem store (h : Heap F m (sp ::ₘ S) lo) (hv : v < KERNPAGE) {pg : Page}
    (hpg : sp.maps v = some pg) (x : Bytes 4096) : Heap F (m.setPage pg.pte.frame x)
      ((m.setPage pg.pte.frame x).space sp.dir ::ₘ S) lo ∧
    sp.Changed v (some ⟨pg.pte, x⟩) ((m.setPage pg.pte.frame x).space sp.dir) := by
  have hf : m.ram.pte sp.dir v = some pg.pte.frame := by
    rw [h.pte_maps (lt_of_lt_KERNPAGE hv), hpg]
    rfl
  have htab : (m.setPage pg.pte.frame x).ram.table sp.dir = m.ram.table sp.dir :=
    table_setPage (h.mapped_ne_dir hv hf)
  have hpage : ∀ {w t}, w < 2 ^ 20 → m.ram.table sp.dir (w / NPDENTRIES) = some t →
      (m.setPage pg.pte.frame x).ram.page t (w % NPDENTRIES) = m.ram.page t (w % NPDENTRIES) :=
    fun hw ht => Ram.page_congr (update_of_ne
      (h.mapped_ne_table hv hf (mem_tables.mpr ⟨_, div_lt_NPDENTRIES hw, ht⟩)).symm _ _)
  have hpte : ∀ w < 2 ^ 20, (m.setPage pg.pte.frame x).ram.pte sp.dir w = m.ram.pte sp.dir w :=
    fun w hw =>
    pte_congr (by rw [htab]) fun t ht => hpage hw ht
  refine ⟨h.of_agree_cons (h.agree_write (mapped_mem_frames hv hf)) rfl ?_, rfl, funext fun w => ?_,
    fun i _ => by rw [h.table_eq, ← htab]; rfl⟩
  · rw [Ram.frames, Ram.tables, htab, Ram.maps,
      held_congr fun w hw => hpte w (lt_of_lt_KERNPAGE (Finset.mem_range.mp hw)), Ram.frames,
      Ram.tables, Ram.maps]
  · change (m.setPage pg.pte.frame x).ram.view sp.dir w = _
    by_cases hwv : w = v
    · subst hwv
      obtain ⟨t, ht, hpte', hpres, -⟩ := h.entry_maps (lt_of_lt_KERNPAGE hv) hpg
      rw [view_eq (lt_of_lt_KERNPAGE hv) (by rw [htab, ht]), hpage (lt_of_lt_KERNPAGE hv)
        ht, update_self, hpte', Ram.found, if_pos hpres, if_pos hv, Mem.ram_setPage, update_self]
    · rw [update_of_ne hwv, h.maps_eq]
      by_cases hw : w < 2 ^ 20
      · exact view_congr (by rw [htab]) (fun t ht => hpage hw ht) fun hk g hg =>
          update_of_ne (by rintro rfl; exact hwv (h.mapped_inj hk hv hg hf)) _ _
      · rw [Ram.view, Ram.view, if_neg hw, if_neg hw]

/-- The page frames of an address space are those it maps below `KERNBASE`. -/
theorem maps_congr {sp : Space} (h : ∀ v < KERNPAGE, sp'.maps v = sp.maps v) :
    sp'.ram.maps sp'.dir = sp.ram.maps sp.dir := by
  refine held_congr fun v hv => ?_
  have hv := Finset.mem_range.mp hv
  rw [pte_view (lt_of_lt_KERNPAGE hv), pte_view (lt_of_lt_KERNPAGE hv)]
  exact congrArg _ (h v hv)

/-- Where the user pages are the same, a frame is free or in use as a page table. -/
theorem free_add_tables (h : Heap F m (sp ::ₘ S) lo) (h' : Heap F m' (sp' ::ₘ S) lo)
    (hdir : sp'.dir = sp.dir) (hmaps : ∀ v < KERNPAGE, sp'.maps v = sp.maps v) :
    (m'.freelist : Multiset Nat) + sp'.ram.tables sp'.dir = m.freelist + sp.ram.tables sp.dir := by
  have hsum := h'.sum.trans h.sum.symm
  rw [map_cons, sum_cons, map_cons, sum_cons, Space.frames,
    Space.frames, Ram.frames, Ram.frames, maps_congr hmaps, hdir] at hsum
  rw [hdir]
  simp only [← singleton_add] at hsum
  refine add_right_cancel (b := lo + ({sp.dir} + sp.ram.maps sp.dir + (S.map Space.frames).sum)) ?_
  convert hsum using 1 <;> ac_rfl

/-- An address space without user pages falls apart into its directory and its page
tables. -/
theorem dissolve (h : Heap F m (sp ::ₘ S) lo) (hc : ∀ v < KERNPAGE, sp.maps v = none) :
    Heap F m S (sp.dir ::ₘ (m.ram.tables sp.dir + lo)) := by
  have hm : m.ram.maps sp.dir = 0 := held_eq_zero fun v hv => by
    have hv := Finset.mem_range.mp hv
    rw [h.pte_maps (lt_of_lt_KERNPAGE hv), hc v hv]
    rfl
  refine ⟨?_, fun sp' hsp => h.agree sp' (mem_cons_of_mem hsp)⟩
  rw [← h.sum, map_cons, sum_cons, ← h.frames_eq (mem_cons_self _ _),
    Ram.frames, show m.ram.maps sp.dir = 0 from hm, add_zero, ← singleton_add,
    ← singleton_add]
  ac_rfl

end Heap

attribute [irreducible] Ram.table Ram.pte Ram.view Ram.frames Space.frames Space.maps

end Xv6Rework.Vm
