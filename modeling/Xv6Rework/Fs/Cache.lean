import Xv6Rework.Fs.Log
import Xv6Rework.Lib.Redo

/-!
# The buffer cache as a view of the disks

What the layers above see of the buffer cache is not which buffer holds what,
but three things: the contents of the disks, the blocks the log has pinned with
their pinned contents, and which buffers are held for which blocks.  This is a
`View`; `StoreRep s v` says that the store `s` presents the view `v`.

Each function of `bio.c` has one lemma here that says what it does to the view.
Replacement of buffers does not show in it at all.

Device 0 is no disk: its buffers are never filled, and the view says nothing
about their contents.  It does say which of them are dirty (`stuck`): they stay so
for ever.
-/

namespace Xv6Rework

open Function
open Prog hiding update

/-- What is visible of a store. -/
structure View where
  disk : BlockId → Block
  pinned : BlockId → Option Block
  stuck : List (Fin NBUF)
  held : List (Fin NBUF × BlockId)
  log : Log
  writes : List (BlockId × Block)

namespace View

variable (v : View)

/-- The current contents of a block: pinned, or else on disk. -/
def block (k : BlockId) : Block := (v.pinned k).getD (v.disk k)

/-- Take a buffer for a block. -/
def hold (b : Fin NBUF) (k : BlockId) : View := { v with held := (b, k) :: v.held }

/-- Let go of a buffer. -/
def release (b : Fin NBUF) : View := { v with held := v.held.filter fun x => x.1 ≠ b }

/-- Write a block to its disk. -/
def write (k : BlockId) (d : Block) : View :=
  { v with
    disk := update v.disk k d
    pinned := update v.pinned k none
    writes := v.writes ++ [(k, d)] }

/-- Change a block and have the log pin it. -/
def pin (k : BlockId) (d : Block) : View :=
  { v with pinned := update v.pinned k (some d), log := v.log.add k.2 }

/-- No buffer is held for a block. -/
def Free (k : BlockId) : Prop := ∀ b, (b, k) ∉ v.held

@[simp] theorem block_hold (b : Fin NBUF) (k : BlockId) : (v.hold b k).block = v.block := rfl
@[simp] theorem block_release (b : Fin NBUF) : (v.release b).block = v.block := rfl

@[simp] theorem block_write (k : BlockId) (d : Block) :
    (v.write k d).block = update v.block k d := by
  funext k'
  by_cases h : k' = k
  · subst h; simp [block, write]
  · simp [block, write, h]

@[simp] theorem block_pin (k : BlockId) (d : Block) :
    (v.pin k d).block = update v.block k d := by
  funext k'
  by_cases h : k' = k
  · subst h; simp [block, pin]
  · simp [block, pin, h]

/-- Taking a buffer and letting it go again. -/
theorem release_hold {b : Fin NBUF} (k : BlockId) (h : ∀ k, (b, k) ∉ v.held) :
    (v.hold b k).release b = v := by
  have hfilter : v.held.filter (fun x => x.1 ≠ b) = v.held := by
    rw [List.filter_eq_self]
    rintro ⟨b', k'⟩ hx
    simp only [decide_eq_true_eq]
    rintro rfl
    exact h k' hx
  rw [release, hold, List.filter_cons_of_neg (by simp), hfilter]

theorem mem_hold (b : Fin NBUF) (k : BlockId) : (b, k) ∈ (v.hold b k).held := List.mem_cons_self

theorem free_of_held_nil (h : v.held = []) (k : BlockId) : v.Free k := by simp [Free, h]

theorem free_hold {b : Fin NBUF} {k k' : BlockId} (h : v.Free k') (hk : k' ≠ k) :
    (v.hold b k).Free k' := by
  intro b' hb'
  rcases List.mem_cons.1 hb' with e | hb'
  · exact hk (congrArg Prod.snd e)
  · exact h b' hb'

/-- Nothing is pinned. -/
def Roomy : Prop := (∀ k, v.pinned k = none) ∧ v.stuck = []

theorem Roomy.block {v : View} (h : v.Roomy) : v.block = v.disk := by
  funext k
  rw [View.block, h.1 k, Option.getD_none]

end View

/-! ## What the buffers hold -/

/-- Buffers of devices are valid, at most one for each block; they hold the
pinned contents if dirty and those of the disk otherwise. -/
structure Caches (buf : Fin NBUF → Buf) (v : View) : Prop where
  uniq : ∀ b b', (buf b).dev ≠ 0 → (buf b).id = (buf b').id → b = b'
  valid : ∀ b, (buf b).dev ≠ 0 → (buf b).valid = true ∧ (buf b).blockno < FSSIZE
  clean : ∀ b, (buf b).dev ≠ 0 → (buf b).dirty = false →
    (buf b).data = v.disk (buf b).id ∧ v.pinned (buf b).id = none
  dirty : ∀ b, (buf b).dev ≠ 0 → (buf b).dirty = true → v.pinned (buf b).id = some (buf b).data
  cached : ∀ k d, k.1 ≠ 0 → v.pinned k = some d → ∃ b, (buf b).id = k ∧ (buf b).dirty = true
  stuck : ∀ b, (buf b).dev = 0 → (buf b).dirty = true → b ∈ v.stuck
  zero : ∀ k : BlockId, k.1 = 0 → v.pinned k = none

/-- The locked buffers are those held, each for its own block, and nobody else
refers to a buffer. -/
structure Holds (buf : Fin NBUF → Buf) (held : List (Fin NBUF × BlockId)) : Prop where
  locked : ∀ b, (buf b).locked = true ↔ ∃ k, (b, k) ∈ held
  id : ∀ b k, (b, k) ∈ held → (buf b).id = k
  nodup : (held.map Prod.fst).Nodup
  refcnt : ∀ b, (buf b).refcnt = if (buf b).locked then 1 else 0

/-- No buffer waits to be written. -/
def Store.Clean (s : Store) : Prop := ∀ b, (s.buf b).dirty = false

/-- The store presents the view. -/
structure StoreRep (s : Store) (v : View) : Prop where
  disk : s.disk = v.disk
  log : s.log = v.log
  writes : s.writes = v.writes
  mem_lru : ∀ b, b ∈ s.lru
  caches : Caches s.buf v
  holds : Holds s.buf v.held

section

variable {buf : Fin NBUF → Buf} {v v' : View} {b : Fin NBUF} {x : Buf}
  {held : List (Fin NBUF × BlockId)}

/-- Changing a buffer, for the block it had or, if it was clean, for one that no
buffer has. -/
protected theorem Caches.update (h : Caches buf v)
    (hid : x.id = (buf b).id ∨ (buf b).dirty = false ∧ ∀ b', (buf b').id ≠ x.id)
    (hx : x.dev ≠ 0 → x.valid = true ∧ x.blockno < FSSIZE ∧
      (x.dirty = false → x.data = v'.disk x.id ∧ v'.pinned x.id = none) ∧
      (x.dirty = true → v'.pinned x.id = some x.data))
    (hx0 : x.dev = 0 → v'.pinned x.id = none ∧ (x.dirty = true → b ∈ v'.stuck))
    (hv : ∀ k, k ≠ x.id → v'.disk k = v.disk k ∧ v'.pinned k = v.pinned k)
    (hv0 : v.stuck ⊆ v'.stuck) : Caches (update buf b x) v' := by
  have hne : ∀ b', b' ≠ b → (buf b').dev ≠ 0 → (buf b').id ≠ x.id := by
    intro b' hb hd hid'
    rcases hid with hid | hid
    · exact hb (h.uniq b' b hd (hid'.trans hid))
    · exact hid.2 b' hid'
  constructor
  case uniq =>
    intro b1 b2 hd hk
    rcases eq_or_ne b1 b with h1 | h1 <;> rcases eq_or_ne b2 b with h2 | h2
    · exact h1.trans h2.symm
    · subst h1
      rw [update_self] at hd hk
      rw [update_of_ne h2] at hk
      have hdev : x.dev = (buf b2).dev := congrArg Prod.fst hk
      exact absurd hk.symm (hne b2 h2 (hdev ▸ hd))
    · subst h2
      rw [update_of_ne h1] at hd hk
      rw [update_self] at hk
      exact absurd hk (hne b1 h1 hd)
    · rw [update_of_ne h1] at hd hk
      rw [update_of_ne h2] at hk
      exact h.uniq b1 b2 hd hk
  case valid =>
    intro b'
    by_cases hb : b' = b
    · subst hb; simpa using fun hd => ⟨(hx hd).1, (hx hd).2.1⟩
    · simpa [hb] using h.valid b'
  case clean =>
    intro b'
    by_cases hb : b' = b
    · subst hb; simpa using fun hd => (hx hd).2.2.1
    · simp only [ne_eq, hb, not_false_eq_true, update_of_ne]
      intro hd
      rw [(hv _ (hne b' hb hd)).1, (hv _ (hne b' hb hd)).2]
      exact h.clean b' hd
  case dirty =>
    intro b'
    by_cases hb : b' = b
    · subst hb; simpa using fun hd => (hx hd).2.2.2
    · simp only [ne_eq, hb, not_false_eq_true, update_of_ne]
      intro hd
      rw [(hv _ (hne b' hb hd)).2]
      exact h.dirty b' hd
  case cached =>
    intro k d hk hd
    by_cases hkx : k = x.id
    · subst hkx
      refine ⟨b, by simp, ?_⟩
      cases hxd : x.dirty with
      | true => simpa using hxd
      | false => simp [((hx hk).2.2.1 hxd).2] at hd
    · rw [(hv k hkx).2] at hd
      obtain ⟨b', rfl, hb'⟩ := h.cached k d hk hd
      refine ⟨b', ?_⟩
      have : b' ≠ b := by
        rintro rfl
        rcases hid with hid | hid
        · exact hkx hid.symm
        · simp [hid.1] at hb'
      simp [this, hb']
  case stuck =>
    intro b'
    by_cases hb : b' = b
    · subst hb; simpa using fun hd => (hx0 hd).2
    · simpa [hb] using fun hd hb' => hv0 (h.stuck b' hd hb')
  case zero =>
    intro k hk
    by_cases hkx : k = x.id
    · subst hkx; exact (hx0 hk).1
    · rw [(hv k hkx).2, h.zero k hk]

/-- Taking a buffer. -/
theorem Holds.take (h : Holds buf held) (hb : (buf b).locked = false) (hl : x.locked = true)
    (hr : x.refcnt = 1) : Holds (update buf b x) ((b, x.id) :: held) := by
  have hfree : ∀ k, (b, k) ∉ held := fun k hk => by simp [(h.locked b).2 ⟨k, hk⟩] at hb
  constructor
  case locked =>
    intro b'
    by_cases hb' : b' = b
    · subst hb'; simp [hl]
    · simp [hb', h.locked b']
  case id =>
    intro b' k hk
    rcases List.mem_cons.1 hk with hk' | hk'
    · cases hk'; simp
    · have : b' ≠ b := by rintro rfl; exact hfree k hk'
      simp [this, h.id b' k hk']
  case nodup =>
    simp only [List.map_cons, List.nodup_cons, List.mem_map, not_exists, not_and]
    refine ⟨?_, h.nodup⟩
    rintro ⟨b', k⟩ hk rfl
    exact hfree k hk
  case refcnt =>
    intro b'
    by_cases hb' : b' = b
    · subst hb'; simp [hl, hr]
    · simp [hb', h.refcnt b']

/-- Letting go of a buffer. -/
theorem Holds.drop (h : Holds buf held) (hl : x.locked = false) (hr : x.refcnt = 0) :
    Holds (update buf b x) (held.filter fun y => y.1 ≠ b) := by
  constructor
  case locked =>
    intro b'
    by_cases hb' : b' = b
    · subst hb'; simp [hl]
    · simp [hb', h.locked b']
  case id =>
    intro b' k hk
    obtain ⟨hk, hb'⟩ : (b', k) ∈ held ∧ b' ≠ b := by simpa using hk
    simp [hb', h.id b' k hk]
  case nodup => exact h.nodup.sublist (List.filter_sublist.map _)
  case refcnt =>
    intro b'
    by_cases hb' : b' = b
    · subst hb'; simp [hl, hr]
    · simp [hb', h.refcnt b']

/-- Changing what a buffer holds, but not for which block nor who holds it. -/
protected theorem Holds.update (h : Holds buf held) (hid : x.id = (buf b).id)
    (hl : x.locked = (buf b).locked) (hr : x.refcnt = (buf b).refcnt) :
    Holds (update buf b x) held := by
  have hkeep : ∀ b', (update buf b x b').locked = (buf b').locked ∧
      (update buf b x b').refcnt = (buf b').refcnt ∧
      (update buf b x b').id = (buf b').id := by
    intro b'
    by_cases hb' : b' = b
    · subst hb'; simp [*]
    · simp [hb']
  constructor
  case locked => intro b'; rw [(hkeep b').1, h.locked b']
  case id => intro b' k hk; rw [(hkeep b').2.2, h.id b' k hk]
  case nodup => exact h.nodup
  case refcnt => intro b'; rw [(hkeep b').2.1, (hkeep b').1, h.refcnt b']

end

namespace StoreRep

variable {s : Store} {v : View} {b : Fin NBUF} {k : BlockId} {dev blockno : Nat} {d : Block}

/-- A held buffer has the current contents of its block. -/
theorem data_held (h : StoreRep s v) (hb : (b, k) ∈ v.held) (hk : k.1 ≠ 0) :
    (s.buf b).data = v.block k := by
  obtain rfl := h.holds.id b k hb
  unfold View.block
  cases hd : (s.buf b).dirty with
  | true => rw [h.caches.dirty b hk hd, Option.getD_some]
  | false =>
    obtain ⟨hdata, hpin⟩ := h.caches.clean b hk hd
    rw [hpin, Option.getD_none, hdata]

theorem locked_of_held (h : StoreRep s v) (hb : (b, k) ∈ v.held) : (s.buf b).locked = true :=
  (h.holds.locked b).2 ⟨k, hb⟩

theorem lookup_eq_some (hb : s.lookup dev blockno = some b) : (s.buf b).id = (dev, blockno) := by
  have := List.find?_some hb
  simp only [Bool.and_eq_true, beq_iff_eq] at this
  exact Prod.ext this.1 this.2

theorem lookup_eq_none (h : StoreRep s v) (hn : s.lookup dev blockno = none) (b : Fin NBUF) :
    (s.buf b).id ≠ (dev, blockno) := by
  have := List.find?_eq_none.1 hn b (h.mem_lru b)
  simp only [Bool.and_eq_true, beq_iff_eq, not_and] at this
  rintro e
  exact this (congrArg Prod.fst e) (congrArg Prod.snd e)

theorem unused_eq_some (hb : s.unused = some b) :
    (s.buf b).refcnt = 0 ∧ (s.buf b).dirty = false := by
  simpa [Store.unused] using List.find?_some hb

/-- A free buffer is not held. -/
theorem not_locked_of_refcnt (h : StoreRep s v) (hb : (s.buf b).refcnt = 0) :
    (s.buf b).locked = false := by
  have := h.holds.refcnt b
  cases hl : (s.buf b).locked <;> simp_all

theorem lt_of_held (h : StoreRep s v) (hb : (b, k) ∈ v.held) (hk : k.1 ≠ 0) : k.2 < FSSIZE := by
  obtain rfl := h.holds.id b k hb
  exact (h.caches.valid b hk).2

/-- A buffer just taken was not held before. -/
theorem not_held (h : StoreRep s (v.hold b k)) (k' : BlockId) : (b, k') ∉ v.held := by
  intro hk'
  exact (List.nodup_cons.1 h.holds.nodup).1 (List.mem_map.2 ⟨_, hk', rfl⟩)

/-- When nothing is pinned, no buffer is dirty. -/
theorem clean (h : StoreRep s v) (hroom : v.Roomy) : s.Clean := by
  obtain ⟨hpin, hstuck⟩ := hroom
  intro b
  rw [Bool.eq_false_iff]
  intro hd
  by_cases hdev : (s.buf b).dev = 0
  · have := h.caches.stuck b hdev hd
    simp [hstuck] at this
  · have := h.caches.dirty b hdev hd
    simp [hpin (s.buf b).id] at this

/-- Where no buffer is dirty, each that is not held can be used for another block. -/
theorem unused_ne_none (h : StoreRep s v) (hclean : s.Clean) (hheld : v.held.length < NBUF) :
    s.unused ≠ none := by
  obtain ⟨b, hb⟩ : ∃ b, b ∉ (v.held.map Prod.fst).toFinset := by
    by_contra hall
    have hcard := Finset.card_le_card (s := Finset.univ) fun b _ => not_exists_not.1 hall b
    have := List.toFinset_card_le (v.held.map Prod.fst)
    simp only [Finset.card_univ, Fintype.card_fin, List.length_map] at hcard this
    omega
  have hl : (s.buf b).locked = false := by
    rw [Bool.eq_false_iff]
    intro hl
    obtain ⟨k, hk⟩ := (h.holds.locked b).1 hl
    exact hb (List.mem_toFinset.2 (List.mem_map.2 ⟨_, hk, rfl⟩))
  have hr := h.holds.refcnt b
  simp only [hl, Bool.false_eq_true, if_false] at hr
  intro hun
  have := List.find?_eq_none.1 hun b (List.mem_reverse.2 (h.mem_lru b))
  simp [hr, hclean b] at this

end StoreRep

/-! ## The functions of the cache -/

section

variable {s : Store} {v : View} {b : Fin NBUF} {k : BlockId} {dev blockno : Nat} {d : Block}
  {Q : Unit → Store → Prop} {E : Stop → Store → Prop}

/-- Taking the buffer that caches the block. -/
theorem StoreRep.hit (h : StoreRep s v) (hid : (s.buf b).id = (dev, blockno))
    (hl : (s.buf b).locked = false) :
    StoreRep (s.setBuf b fun x => { x with locked := true, refcnt := x.refcnt + 1 })
      (v.hold b (dev, blockno)) where
  disk := h.disk
  log := h.log
  writes := h.writes
  mem_lru := h.mem_lru
  caches := h.caches.update (.inl rfl)
    (fun hd => ⟨(h.caches.valid b hd).1, (h.caches.valid b hd).2, h.caches.clean b hd,
      h.caches.dirty b hd⟩) (fun hd => ⟨h.caches.zero _ hd, h.caches.stuck b hd⟩)
      (fun _ _ => ⟨rfl, rfl⟩) (List.Subset.refl _)
  holds := by
    have hr := h.holds.refcnt b
    rw [← hid]
    exact h.holds.take hl rfl (by simp [hr, hl])

/-- Filling a free buffer with the block. -/
theorem StoreRep.fill (h : StoreRep s v) (hnone : ∀ b', (s.buf b').id ≠ (dev, blockno))
    (hr : (s.buf b).refcnt = 0) (hd : (s.buf b).dirty = false) (hlt : blockno < FSSIZE) :
    StoreRep (s.setBuf b fun _ => ⟨dev, blockno, true, false, true, 1, s.disk (dev, blockno)⟩)
      (v.hold b (dev, blockno)) where
  disk := h.disk
  log := h.log
  writes := h.writes
  mem_lru := h.mem_lru
  caches := by
    refine h.caches.update (.inr ⟨hd, hnone⟩) (fun hdev => ⟨rfl, hlt, ?_, by simp⟩)
      (fun hdev => ⟨h.caches.zero _ hdev, by simp⟩)
      (fun _ _ => ⟨rfl, rfl⟩) (List.Subset.refl _)
    intro _
    refine ⟨congrFun h.disk _, ?_⟩
    rw [Option.eq_none_iff_forall_ne_some]
    intro d hd
    obtain ⟨b', hb', -⟩ := h.caches.cached (dev, blockno) d hdev hd
    exact hnone b' hb'
  holds := h.holds.take (h.not_locked_of_refcnt hr) rfl rfl

theorem bread_of_lookup (hlk : s.lookup dev blockno = some b) (hl : (s.buf b).locked = false)
    (hv : (s.buf b).valid = true) : bread dev blockno s =
      (.ok b, s.setBuf b fun x => { x with locked := true, refcnt := x.refcnt + 1 }) := by
  simp [bread, bget, acquiresleep, bind_apply, hlk, hl, hv, Store.setBuf]

theorem bread_of_unused (hlk : s.lookup dev blockno = none) (hun : s.unused = some b)
    (hl : (s.buf b).locked = false) (hdev : dev = 1 ∨ dev = 2) (hlt : blockno < FSSIZE) :
    bread dev blockno s = (.ok b, s.setBuf b fun _ =>
      ⟨dev, blockno, true, false, true, 1, s.disk (dev, blockno)⟩) := by
  simp [bread, bget, acquiresleep, iderw, bind_apply, hlk, hun, hl, hdev, Nat.not_le.2 hlt,
    Store.transfer, Store.setBuf, Buf.id]

/-- `bread` on a disk takes a buffer for a block that is not held yet. -/
theorem wp_bread {Q : Fin NBUF → Store → Prop} (h : StoreRep s v) (hdev : dev = 1 ∨ dev = 2)
    (hfree : v.Free (dev, blockno)) (ok : ∀ b s', StoreRep s' (v.hold b (dev, blockno)) → Q b s')
    (starved : s.unused = none → E (.panic "bget: no buffers") s)
    (range : FSSIZE ≤ blockno → ∀ s', s'.disk = s.disk → s'.writes = s.writes →
      E (.panic "incorrect blockno") s') : wp (bread dev blockno) Q E s := by
  rcases hlk : s.lookup dev blockno with _ | b
  · rcases hun : s.unused with _ | b
    · simpa [bread, bget, wp, bind_apply, hlk, hun] using starved hun
    · obtain ⟨hr, hd⟩ := StoreRep.unused_eq_some hun
      have hl := h.not_locked_of_refcnt hr
      by_cases hlt : blockno < FSSIZE
      · rw [wp_of_ok (bread_of_unused hlk hun hl hdev hlt)]
        exact ok b _ (h.fill (h.lookup_eq_none hlk) hr hd hlt)
      · have hge := Nat.le_of_not_lt hlt
        obtain ⟨s', hrun, hdisk, hwrites⟩ : ∃ s', bread dev blockno s =
            (.error (.panic "incorrect blockno"), s') ∧ s'.disk = s.disk ∧ s'.writes =
            s.writes := by
          simp [bread, bget, acquiresleep, iderw, bind_apply, hlk, hun, hl, hdev, hge]
        exact (wp_of_error hrun).2 (range hge s' hdisk hwrites)
  · have hid := StoreRep.lookup_eq_some hlk
    have hdev0 : (s.buf b).dev ≠ 0 := by
      rw [show (s.buf b).dev = dev from congrArg Prod.fst hid]; omega
    have hl : (s.buf b).locked = false := by
      rw [Bool.eq_false_iff]
      intro hl
      obtain ⟨k, hk⟩ := (h.holds.locked b).1 hl
      exact hfree b (((h.holds.id b k hk).symm.trans hid) ▸ hk)
    rw [wp_of_ok (bread_of_lookup hlk hl (h.caches.valid b hdev0).1)]
    exact ok b _ (h.hit hid hl)

theorem bwrite_of_locked (hl : (s.buf b).locked = true)
    (hdev : (s.buf b).dev = 1 ∨ (s.buf b).dev = 2) (hlt : (s.buf b).blockno < FSSIZE) :
    bwrite b (s.setData b d) =
      (.ok (), { s.setBuf b fun x => { x with data := d, valid := true, dirty := false } with
        disk := update s.disk (s.buf b).id d
        writes := s.writes ++ [((s.buf b).id, d)] }) := by
  simp [bwrite, iderw, bind_apply, hl, hdev, Nat.not_le.2 hlt, Store.transfer, Store.setData,
    Store.setBuf, Buf.id]

/-- `bwrite` of a held buffer whose data has just been set. -/
theorem wp_bwrite (h : StoreRep s v) (hb : (b, k) ∈ v.held) (hk : k.1 = 1 ∨ k.1 = 2)
    (ok : ∀ s', StoreRep s' (v.write k d) → Q () s') : wp (bwrite b) Q E (s.setData b d) := by
  have hlt := h.lt_of_held hb (by omega)
  obtain rfl := h.holds.id b k hb
  rw [wp_of_ok (bwrite_of_locked (h.locked_of_held hb) hk hlt)]
  exact ok _ {
    disk := by rw [h.disk]; rfl
    log := h.log
    writes := by rw [h.writes]; rfl
    mem_lru := h.mem_lru
    caches := h.caches.update (.inl rfl)
      (fun _ => ⟨rfl, hlt, fun _ => by simp [View.write, Buf.id], by simp⟩)
      (fun _ => ⟨by simp [View.write, Buf.id], by simp⟩)
      (fun k' hk' => ⟨update_of_ne hk' .., update_of_ne hk' ..⟩)
      (List.Subset.refl _)
    holds := h.holds.update rfl rfl rfl }

/-- `brelse` lets go of a held buffer. -/
theorem wp_brelse (h : StoreRep s v) (hb : (b, k) ∈ v.held)
    (ok : ∀ s', StoreRep s' (v.release b) → Q () s') : wp (brelse b) Q E s := by
  have hl := h.locked_of_held hb
  have hr := h.holds.refcnt b
  rw [hl, if_pos rfl] at hr
  have hrun : brelse b s = (.ok (),
      { s.setBuf b fun x => { x with locked := false, refcnt := x.refcnt - 1 } with
        lru := b :: s.lru.erase b }) := by
    simp [brelse, bind_apply, hl, hr]
  rw [wp_of_ok hrun]
  exact ok _ {
    disk := h.disk
    log := h.log
    writes := h.writes
    mem_lru := fun b' => by
      by_cases hb' : b' = b
      · simp [hb']
      · exact List.mem_cons_of_mem _ ((List.mem_erase_of_ne hb').2 (h.mem_lru b'))
    caches := h.caches.update (.inl rfl)
      (fun hd => ⟨(h.caches.valid b hd).1, (h.caches.valid b hd).2, h.caches.clean b hd,
        h.caches.dirty b hd⟩) (fun hd => ⟨h.caches.zero _ hd, h.caches.stuck b hd⟩)
        (fun _ _ => ⟨rfl, rfl⟩)
      (List.Subset.refl _)
    holds := h.holds.drop rfl (by simp [hr]) }

/-- `log_write` of a held buffer whose data has just been set. -/
theorem wp_logWrite (h : StoreRep s v) (hb : (b, k) ∈ v.held) (hk : k.1 ≠ 0)
    (ok : v.log.n < LOGSIZE → (v.log.n : Int) < v.log.size - 1 →
      ∀ s', StoreRep s' (v.pin k d) → Q () s')
    (full : LOGSIZE ≤ v.log.n ∨ (v.log.size : Int) - 1 ≤ v.log.n →
      E (.panic "too big a transaction") (s.setData b d))
    (outside : v.log.outstanding < 1 → E (.panic "log_write outside of trans") (s.setData b d)) :
    wp (logWrite b) Q E (s.setData b d) := by
  obtain rfl := h.holds.id b k hb
  by_cases hroom : LOGSIZE ≤ s.log.n ∨ (s.log.size : Int) - 1 ≤ s.log.n
  · simp only [logWrite, wp, bind_apply, gets_apply, Store.setData, setBuf_log, hroom, if_true]
    exact full (h.log ▸ hroom)
  by_cases hout : s.log.outstanding < 1
  · simp only [logWrite, wp, bind_apply, gets_apply, Store.setData, setBuf_log, hroom,
      hout, if_true, if_false]
    exact outside (h.log ▸ hout)
  have hrun : logWrite b (s.setData b d) = (.ok (),
      { s.setBuf b fun x => { x with data := d, dirty := true } with
        log := s.log.add (s.buf b).blockno }) := by
    simp only [logWrite, bind_apply, gets_apply, Store.setData, setBuf_log, hroom, hout, if_false]
    simp [setLog, Store.setBuf]
  rw [wp_of_ok hrun]
  rw [h.log, not_or] at hroom
  exact ok (Nat.lt_of_not_le hroom.1) (Int.lt_of_not_ge hroom.2) _ {
    disk := h.disk
    log := by rw [h.log]; rfl
    writes := h.writes
    mem_lru := h.mem_lru
    caches := h.caches.update (.inl rfl)
      (fun hd => ⟨(h.caches.valid b hd).1, (h.caches.valid b hd).2, by simp,
        fun _ => update_self ..⟩)
      (fun hd => absurd hd hk) (fun k' hk' => ⟨rfl, update_of_ne hk' ..⟩)
      (List.Subset.refl _)
    holds := h.holds.update rfl rfl rfl }

end

end Xv6Rework
