import Xv6Rework.Fs.Cache

/-!
# What the log does to the disks

The functions of `log.c` as lists of writes.  Every one of them that returns has
written a list of blocks that is known beforehand; one that fails has written a
prefix of it.

A copy loop fails only in `bread`, for want of a buffer or because the block lies
beyond the disk.
-/

namespace Xv6Rework

open Prog

namespace View

/-- Write blocks to their disks, in order. -/
def writeList (v : View) (ws : List (BlockId × Block)) : View :=
  ws.foldl (fun v w => v.write w.1 w.2) v

section

variable (v : View) (ws : List (BlockId × Block)) (w : BlockId × Block)

@[simp] theorem writeList_nil : v.writeList [] = v := rfl

@[simp] theorem writeList_cons : v.writeList (w :: ws) = (v.write w.1 w.2).writeList ws := rfl

theorem writeList_append (ws' : List (BlockId × Block)) :
    v.writeList (ws ++ ws') = (v.writeList ws).writeList ws' := List.foldl_append

@[simp] theorem writeList_disk : (v.writeList ws).disk = writeAll ws v.disk := by
  induction ws generalizing v with
  | nil => rfl
  | cons w ws ih => exact ih _

@[simp] theorem writeList_block : (v.writeList ws).block = writeAll ws v.block := by
  induction ws generalizing v with
  | nil => rfl
  | cons w ws ih => rw [writeList_cons, ih, block_write]; rfl

@[simp] theorem writeList_writes : (v.writeList ws).writes = v.writes ++ ws := by
  induction ws generalizing v with
  | nil => simp
  | cons w ws ih => rw [writeList_cons, ih, write]; simp

@[simp] theorem writeList_log : (v.writeList ws).log = v.log := by
  induction ws generalizing v with
  | nil => rfl
  | cons w ws ih => exact ih _

@[simp] theorem writeList_held : (v.writeList ws).held = v.held := by
  induction ws generalizing v with
  | nil => rfl
  | cons w ws ih => exact ih _

@[simp] theorem writeList_stuck : (v.writeList ws).stuck = v.stuck := by
  induction ws generalizing v with
  | nil => rfl
  | cons w ws ih => exact ih _

theorem writeList_pinned (k : BlockId) :
    (v.writeList ws).pinned k = if k ∈ ws.map Prod.fst then none else v.pinned k := by
  induction ws generalizing v with
  | nil => simp
  | cons w ws ih =>
    rw [writeList_cons, ih]
    simp only [List.map_cons, List.mem_cons, write, Function.update_apply]
    split_ifs <;> tauto

end

/-- Replace the log record. -/
def withLog (v : View) (l : Log) : View := { v with log := l }

section

variable (v : View) (l l' : Log)

@[simp] theorem withLog_disk : (v.withLog l).disk = v.disk := rfl
@[simp] theorem withLog_pinned : (v.withLog l).pinned = v.pinned := rfl
@[simp] theorem withLog_stuck : (v.withLog l).stuck = v.stuck := rfl
@[simp] theorem withLog_held : (v.withLog l).held = v.held := rfl
@[simp] theorem withLog_log : (v.withLog l).log = l := rfl
@[simp] theorem withLog_writes : (v.withLog l).writes = v.writes := rfl
@[simp] theorem withLog_block : (v.withLog l).block = v.block := rfl

theorem withLog_write (k : BlockId) (d : Block) :
    (v.withLog l).write k d = (v.write k d).withLog l := rfl

theorem withLog_withLog : (v.withLog l).withLog l' = v.withLog l' := rfl

end

theorem writeList_withLog (v : View) (l : Log) (ws : List (BlockId × Block)) :
    (v.withLog l).writeList ws = (v.writeList ws).withLog l := by
  induction ws generalizing v with
  | nil => rfl
  | cons w ws ih => exact ih (v.write w.1 w.2)

end View

variable {s : Store} {v : View} {Q : Unit → Store → Prop} {E : Stop → Store → Prop}

theorem StoreRep.setLog (h : StoreRep s v) (l : Log) :
    StoreRep { s with log := l } (v.withLog l) where
  disk := h.disk
  log := rfl
  writes := h.writes
  mem_lru := h.mem_lru
  caches := ⟨h.caches.uniq, h.caches.valid, h.caches.clean, h.caches.dirty, h.caches.cached,
    h.caches.stuck, h.caches.zero⟩
  holds := h.holds

/-- The view after a reset. -/
def View.blank (disk : BlockId → Block) : View :=
  ⟨disk, fun _ => none, [], [], ⟨0, 0, 0, false, 0, []⟩, []⟩

@[simp] theorem View.blank_block (disk : BlockId → Block) : (View.blank disk).block = disk := rfl

theorem rep_binit (disk : BlockId → Block) : StoreRep (binit disk) (View.blank disk) where
  disk := rfl
  log := rfl
  writes := rfl
  mem_lru b := by simp [binit]
  caches := by constructor <;> simp [binit, View.blank]
  holds := by constructor <;> simp [binit, View.blank]

/-! ## One block at a time -/

/-- The state in which writing `ws` from `v` on failed: some of it has been
written.  If nothing is pinned, the reason is a block beyond the disk. -/
def Stalled (v : View) (ws : List (BlockId × Block)) (blocks : List Nat) (s : Store) : Prop :=
  ∃ k, s.disk = writeAll (ws.take k) v.disk ∧ s.writes = v.writes ++ ws.take k ∧
    (v.Roomy → ∃ b ∈ blocks, FSSIZE ≤ b)

theorem Stalled.mono {ws ws' : List (BlockId × Block)} {blocks blocks' : List Nat}
    (h : Stalled v ws blocks s) (hws : ws <+: ws') (hsub : blocks ⊆ blocks') :
    Stalled v ws' blocks' s := by
  obtain ⟨k, hdisk, hwrites, hroom⟩ := h
  obtain ⟨rest, rfl⟩ := hws
  refine ⟨min k ws.length, ?_, ?_, fun hr => (hroom hr).imp fun _ hb => ⟨hsub hb.1, hb.2⟩⟩
  all_goals rwa [List.take_append_of_le_length (Nat.min_le_right ..), ← List.take_eq_take_min]

/-- Stalling has nothing to do with the log record. -/
theorem Stalled.of_withLog {l : Log} {ws : List (BlockId × Block)} {blocks : List Nat}
    (h : Stalled (v.withLog l) ws blocks s) : Stalled v ws blocks s := h

/-- A failure after some blocks have been written. -/
theorem Stalled.of_writeList {ws ws' : List (BlockId × Block)} {blocks : List Nat}
    (h : Stalled (v.writeList ws) ws' blocks s) : Stalled v (ws ++ ws') blocks s := by
  obtain ⟨k, hdisk, hwrites, hroom⟩ := h
  refine ⟨ws.length + k, ?_, ?_, fun hr => hroom ⟨fun k => ?_, ?_⟩⟩
  · rw [List.take_length_add_append, writeAll_append, hdisk, View.writeList_disk]
  · rw [List.take_length_add_append, hwrites, View.writeList_writes, List.append_assoc]
  · rw [View.writeList_pinned, hr.1 k, ite_self]
  · rw [View.writeList_stuck, hr.2]

/-- `bread` with few buffers held. -/
theorem wp_bread_stalled {dev blockno : Nat} {Q : Fin NBUF → Store → Prop} (h : StoreRep s v)
    (hdev : dev = 1 ∨ dev = 2) (hfree : v.Free (dev, blockno)) (hheld : v.held.length < NBUF)
    (ok : ∀ b s', StoreRep s' (v.hold b (dev, blockno)) → Q b s')
    (stalled : ∀ e s', Stalled v [] [blockno] s' → E e s') : wp (bread dev blockno) Q E s := by
  refine wp_bread h hdev hfree ok (fun hun => ?_) fun hge s' hdisk hwrites => ?_
  · exact stalled _ s ⟨0, h.disk, by simpa using h.writes,
      fun hr => absurd hun (h.unused_ne_none (h.clean hr) hheld)⟩
  · exact stalled _ s' ⟨0, hdisk.trans h.disk, by simpa using hwrites.trans h.writes,
      fun _ => ⟨blockno, List.mem_singleton_self _, hge⟩⟩

section

variable {l : Log} (h : StoreRep s v) (hl : v.log = l) (hdev : l.dev = 1 ∨ l.dev = 2)
  (hheld : v.held = []) (stalled : ∀ e s', Stalled v [] [l.start] s' → E e s')

include h hl hdev hheld stalled

/-- `read_head` loads the block numbers of the header on disk. -/
theorem wp_readHead
    (ok : ∀ s', StoreRep s' (v.withLog { l with block := headBlocks (v.block (l.dev, l.start)) }) →
      Q () s') : wp readHead Q E s := by
  simp only [readHead, wp_bind, wp_gets, h.log, hl]
  refine wp_bread_stalled h hdev (v.free_of_held_nil hheld _) (by simp [hheld, NBUF, MAXOPBLOCKS])
    (fun b s1 h1 => ?_) stalled
  have hb := v.mem_hold b (l.dev, l.start)
  simp only [setLog, wp_update, h1.data_held hb (show l.dev ≠ 0 by omega), View.block_hold, h1.log,
    show (v.hold b (l.dev, l.start)).log = l from hl]
  refine wp_brelse (h1.setLog _) hb fun s2 h2 => ok s2 ?_
  have hrel := (v.withLog { l with block := headBlocks (v.block (l.dev, l.start)) }).release_hold
    (l.dev, l.start) h1.not_held
  exact hrel ▸ h2

/-- `write_head` writes the block numbers of the log record to the header. -/
theorem wp_writeHead
    (ok : ∀ s', StoreRep s'
      (v.write (l.dev, l.start) (fillHead l.block (v.block (l.dev, l.start)))) → Q () s') :
    wp writeHead Q E s := by
  simp only [writeHead, wp_bind, wp_gets, h.log, hl]
  refine wp_bread_stalled h hdev (v.free_of_held_nil hheld _) (by simp [hheld, NBUF, MAXOPBLOCKS])
    (fun b s1 h1 => ?_) stalled
  have hb := v.mem_hold b (l.dev, l.start)
  simp only [wp_update, h1.data_held hb (show l.dev ≠ 0 by omega), View.block_hold]
  refine wp_bwrite h1 hb hdev fun s2 h2 => wp_brelse h2 hb fun s3 h3 => ok s3 ?_
  have hrel := (v.write (l.dev, l.start)
    (fillHead l.block (v.block (l.dev, l.start)))).release_hold (l.dev, l.start) h1.not_held
  exact hrel ▸ h3

end

/-- The end of both copy loops' bodies: copy, write, and let go of both buffers. -/
theorem wp_copy {src dst : Fin NBUF} {ks kd : BlockId} (h : StoreRep s v) (hs : (src, ks) ∈ v.held)
    (hd : (dst, kd) ∈ v.held) (hne : dst ≠ src) (hks : ks.1 ≠ 0) (hkd : kd.1 = 1 ∨ kd.1 = 2)
    (ok : ∀ s', StoreRep s' (((v.write kd (v.block ks)).release src).release dst) → Q () s') :
    wp (do
      update fun s => s.setData dst (s.buf src).data
      bwrite dst
      brelse src
      brelse dst) Q E s := by
  simp only [wp_bind, wp_update, h.data_held hs hks]
  refine wp_bwrite h hd hkd fun s1 h1 => wp_brelse h1 hs fun s2 h2 => ?_
  exact wp_brelse h2 (List.mem_filter.2 ⟨hd, by simpa using hne⟩) ok

section

variable {l : Log} {i : Nat} (h : StoreRep s v) (hl : v.log = l) (hdev : l.dev = 1 ∨ l.dev = 2)
  (hheld : v.held = []) (hne : l.block.getD i 0 ≠ l.start + i + 1)
  (stalled : ∀ e s', Stalled v [] [l.start + i + 1, l.block.getD i 0] s' → E e s')

include h hl hdev hheld hne stalled

/-- One round of `write_log` copies a logged block to its slot. -/
theorem wp_writeLogOne
    (ok : ∀ s', StoreRep s' (v.write (l.dev, l.start + i + 1) (v.block (l.dev, l.block.getD i 0))) →
      Q () s') : wp (writeLogOne i) Q E s := by
  simp only [writeLogOne, wp_bind, wp_gets, h.log, hl]
  refine wp_bread_stalled h hdev (v.free_of_held_nil hheld _) (by simp [hheld, NBUF, MAXOPBLOCKS])
    (fun to' s1 h1 => ?_) fun e s' hs => stalled e s' (hs.mono List.prefix_rfl (by simp))
  refine wp_bread_stalled h1 hdev (v.free_hold (v.free_of_held_nil hheld _) (by simpa using hne))
    (by simp [View.hold, hheld, NBUF, MAXOPBLOCKS])
    (fun from' s2 h2 => ?_) fun e s' hs => stalled e s' (hs.mono List.prefix_rfl (by simp))
  have hbufs : to' ≠ from' := by
    rintro rfl
    exact h2.not_held _ (v.mem_hold _ _)
  simp only [← wp_bind]
  refine wp_copy h2 (View.mem_hold ..) (List.mem_cons_of_mem _ (View.mem_hold ..)) hbufs
    (by simp; omega) hdev fun s3 h3 => ok s3 ?_
  rw [View.block_hold, View.block_hold] at h3
  simpa [View.release, View.hold, View.write, hheld, hbufs] using h3

/-- One round of `install_trans` copies a slot to the block it is for. -/
theorem wp_installOne
    (ok : ∀ s', StoreRep s' (v.write (l.dev, l.block.getD i 0) (v.block (l.dev, l.start + i + 1))) →
      Q () s') : wp (installOne i) Q E s := by
  simp only [installOne, wp_bind, wp_gets, h.log, hl]
  refine wp_bread_stalled h hdev (v.free_of_held_nil hheld _) (by simp [hheld, NBUF, MAXOPBLOCKS])
    (fun lbuf s1 h1 => ?_) fun e s' hs => stalled e s' (hs.mono List.prefix_rfl (by simp))
  refine wp_bread_stalled h1 hdev (v.free_hold (v.free_of_held_nil hheld _) (by simpa using hne))
    (by simp [View.hold, hheld, NBUF, MAXOPBLOCKS])
    (fun dbuf s2 h2 => ?_) fun e s' hs => stalled e s' (hs.mono List.prefix_rfl (by simp))
  have hbufs : dbuf ≠ lbuf := by
    rintro rfl
    exact h2.not_held _ (v.mem_hold _ _)
  simp only [← wp_bind]
  refine wp_copy h2 (List.mem_cons_of_mem _ (View.mem_hold ..)) (View.mem_hold ..) hbufs
    (by simp; omega) hdev fun s3 h3 => ok s3 ?_
  rw [View.block_hold, View.block_hold] at h3
  simpa [View.release, View.hold, View.write, hheld, hbufs] using h3

end

/-! ## The copy loops -/

/-- The header and the slots of the log. -/
def Log.Area (l : Log) (k : BlockId) : Prop :=
  k.1 = l.dev ∧ l.start ≤ k.2 ∧ k.2 < l.start + l.size

instance (l : Log) (k : BlockId) : Decidable (l.Area k) := inferInstanceAs (Decidable (_ ∧ _ ∧ _))

/-- There is a slot for each logged block, and no logged block lies in the log. -/
structure Log.Fits (l : Log) : Prop where
  dev : l.dev = 1 ∨ l.dev = 2
  slots : l.n < l.size
  home : ∀ b ∈ l.block, ¬l.Area (l.dev, b)

/-- The first writes of `write_log`: `m` is what the blocks hold. -/
def Log.stage (l : Log) (m : BlockId → Block) (n : Nat) : List (BlockId × Block) :=
  (List.range n).map fun i => ((l.dev, l.start + i + 1), m (l.dev, l.block.getD i 0))

/-- The first writes of `install_trans`. -/
def Log.install (l : Log) (m : BlockId → Block) (n : Nat) : List (BlockId × Block) :=
  (List.range n).map fun i => ((l.dev, l.block.getD i 0), m (l.dev, l.start + i + 1))

/-- The blocks that a commit or a recovery deals with. -/
def Log.touched (l : Log) : List Nat :=
  l.start :: (List.range l.n).map (fun i => l.start + i + 1) ++ l.block

section

variable {l : Log} {m : BlockId → Block} {i n : Nat}

theorem Log.stage_succ :
    l.stage m (n + 1) =
      l.stage m n ++ [((l.dev, l.start + n + 1), m (l.dev, l.block.getD n 0))] := by
  simp [Log.stage, List.range_succ]

theorem Log.install_succ :
    l.install m (n + 1) =
      l.install m n ++ [((l.dev, l.block.getD n 0), m (l.dev, l.start + n + 1))] := by
  simp [Log.install, List.range_succ]

theorem Log.stage_prefix (h : i ≤ n) : l.stage m i <+: l.stage m n := by
  rw [Log.stage, ← Nat.min_eq_left h, ← List.take_range, List.map_take]
  exact List.take_prefix ..

theorem Log.install_prefix (h : i ≤ n) : l.install m i <+: l.install m n := by
  rw [Log.install, ← Nat.min_eq_left h, ← List.take_range, List.map_take]
  exact List.take_prefix ..

theorem Log.getD_mem (h : i < l.n) : l.block.getD i 0 ∈ l.block := by
  rw [List.getD_eq_getElem?_getD, List.getElem?_eq_getElem h]
  exact List.getElem_mem h

theorem Log.pair_subset_touched (h : i < l.n) :
    [l.start + i + 1, l.block.getD i 0] ⊆ l.touched := by
  intro x hx
  rw [Log.touched, List.mem_append, List.mem_cons]
  simp only [List.mem_cons, List.not_mem_nil, or_false] at hx
  rcases hx with rfl | rfl
  · exact .inl (.inr (List.mem_map.2 ⟨i, List.mem_range.2 h, rfl⟩))
  · exact .inr (Log.getD_mem h)

theorem Log.Fits.slot_area (h : l.Fits) (hi : i < l.n) : l.Area (l.dev, l.start + i + 1) :=
  ⟨rfl, by simp; omega, by have := h.slots; simp; omega⟩

theorem Log.Fits.start_area (h : l.Fits) : l.Area (l.dev, l.start) :=
  ⟨rfl, by simp, by have := h.slots; simp; omega⟩

theorem Log.Fits.getD_ne (h : l.Fits) {k : Nat} (hi : i < l.n) (hk : l.Area (l.dev, k)) :
    l.block.getD i 0 ≠ k := by
  rintro rfl
  exact h.home _ (Log.getD_mem hi) hk

/-- `write_log` fills the slots. -/
theorem Log.stage_slot (hi : i < n) (d : BlockId → Block) :
    writeAll (l.stage m n) d (l.dev, l.start + i + 1) = m (l.dev, l.block.getD i 0) := by
  induction n with
  | zero => omega
  | succ n ih =>
    rw [Log.stage_succ, writeAll_append, writeAll_cons, writeAll_nil]
    rcases Nat.lt_succ_iff_lt_or_eq.1 hi with hi | rfl
    · rw [Function.update_of_ne (by simp; omega), ih hi]
    · rw [Function.update_self]

/-- `write_log` does not change the blocks it copies. -/
theorem Log.Fits.stage_block (h : l.Fits) {b : Nat} (hb : ¬l.Area (l.dev, b)) (hn : n ≤ l.n) :
    writeAll (l.stage m n) m (l.dev, b) = m (l.dev, b) := by
  refine writeAll_of_forall_ne fun w hw => ?_
  obtain ⟨j, hj, rfl⟩ := List.mem_map.1 hw
  rintro e
  exact hb (e ▸ h.slot_area (Nat.lt_of_lt_of_le (List.mem_range.1 hj) hn))

/-- `install_trans` does not change the log. -/
theorem Log.Fits.install_block (h : l.Fits) {k : BlockId} (hk : l.Area k) (hn : n ≤ l.n) :
    writeAll (l.install m n) m k = m k := by
  refine writeAll_of_forall_ne fun w hw => ?_
  obtain ⟨j, hj, rfl⟩ := List.mem_map.1 hw
  rintro rfl
  exact h.home _ (Log.getD_mem (Nat.lt_of_lt_of_le (List.mem_range.1 hj) hn)) hk

end

section

variable {l : Log} (h : StoreRep s v) (hl : v.log = l) (hheld : v.held = []) (hfit : l.Fits)

include h hl hheld hfit

/-- `write_log`. -/
theorem wp_writeLog (ok : ∀ s', StoreRep s' (v.writeList (l.stage v.block l.n)) → Q () s')
    (stalled : ∀ e s', Stalled v (l.stage v.block l.n) l.touched s' → E e s') :
    wp writeLog Q E s := by
  simp only [writeLog, wp_bind, wp_gets, h.log, hl]
  refine wp_forM_range (fun i s => StoreRep s (v.writeList (l.stage v.block i))) h ?_ ok
  intro i hi s1 h1
  refine wp_writeLogOne h1 ((View.writeList_log ..).trans hl) hfit.dev (by simpa using hheld)
    (hfit.getD_ne hi (hfit.slot_area hi)) ?_ ?_
  · intro e s' hs
    refine stalled e s' (hs.of_writeList.mono ?_ (Log.pair_subset_touched hi))
    simpa using Log.stage_prefix (Nat.le_of_lt hi)
  · intro s' hs'
    rw [View.writeList_block, hfit.stage_block (hfit.home _ (Log.getD_mem hi)) (Nat.le_of_lt hi)]
      at hs'
    rwa [Log.stage_succ, View.writeList_append]

/-- `install_trans`. -/
theorem wp_installTrans (ok : ∀ s', StoreRep s' (v.writeList (l.install v.block l.n)) → Q () s')
    (stalled : ∀ e s', Stalled v (l.install v.block l.n) l.touched s' → E e s') :
    wp installTrans Q E s := by
  simp only [installTrans, wp_bind, wp_gets, h.log, hl]
  refine wp_forM_range (fun i s => StoreRep s (v.writeList (l.install v.block i))) h ?_ ok
  intro i hi s1 h1
  refine wp_installOne h1 ((View.writeList_log ..).trans hl) hfit.dev (by simpa using hheld)
    (hfit.getD_ne hi (hfit.slot_area hi)) ?_ ?_
  · intro e s' hs
    refine stalled e s' (hs.of_writeList.mono ?_ (Log.pair_subset_touched hi))
    simpa using Log.install_prefix (Nat.le_of_lt hi)
  · intro s' hs'
    rw [View.writeList_block, hfit.install_block (hfit.slot_area hi) (Nat.le_of_lt hi)] at hs'
    rwa [Log.install_succ, View.writeList_append]

end

/-! ## The header block -/

section

variable {l : List Nat} {d : Block}

/-- The header after its first `k` block numbers have been stored. -/
theorem getLE_fillHead_loop (hl : l.length ≤ LOGSIZE) {k : Nat} (hk : k ≤ l.length) :
    let d' := (List.range k).foldl (fun d i => d.setLE (4 + 4 * i) 4 (l.getD i 0)) d
    d'.getLE 0 4 = d.getLE 0 4 ∧ ∀ j < k, d'.getLE (4 + 4 * j) 4 = l.getD j 0 % 256 ^ 4 := by
  have hsize : LOGSIZE = 30 := rfl
  have hbsize : BSIZE = 512 := rfl
  induction k with
  | zero => simp
  | succ k ih =>
    obtain ⟨ih0, ih⟩ := ih (by omega)
    simp only [List.range_succ, List.foldl_append, List.foldl_cons, List.foldl_nil]
    refine ⟨?_, fun j hj => ?_⟩
    · rw [Bytes.getLE_setLE_of_disjoint _ _ (by omega), ih0]
    · rcases Nat.lt_succ_iff_lt_or_eq.1 hj with hj | rfl
      · rw [Bytes.getLE_setLE_of_disjoint _ _ (by omega), ih j hj]
      · rw [Bytes.getLE_setLE _ _ (by omega)]

/-- The header is read back as it was filled. -/
theorem headBlocks_fillHead (hl : l.length ≤ LOGSIZE) (hb : ∀ b ∈ l, b < FSSIZE) :
    headBlocks (fillHead l d) = l := by
  have hsize : LOGSIZE = 30 := rfl
  have hbsize : BSIZE = 512 := rfl
  have hfs : FSSIZE = 1000 := rfl
  obtain ⟨h0, hblock⟩ := getLE_fillHead_loop (d := d.setLE 0 4 l.length) hl le_rfl
  have hn : (fillHead l d).getLE 0 4 = l.length := by
    rw [fillHead, h0, Bytes.getLE_setLE _ _ (by omega), Nat.mod_eq_of_lt (by omega)]
  have hint : (toInt32 l.length).toNat = l.length := by
    rw [toInt32, if_pos (by omega), Int.toNat_natCast]
  rw [headBlocks, hn, hint]
  refine List.ext_getElem (by simp) fun i hi hi' => ?_
  rw [List.getElem_map, List.getElem_range, fillHead, hblock i hi', List.getD_eq_getElem?_getD,
    List.getElem?_eq_getElem hi', Option.getD_some]
  exact Nat.mod_eq_of_lt (by have := hb _ (List.getElem_mem hi'); omega)

theorem headBlocks_fillHead_nil : headBlocks (fillHead [] d) = [] :=
  headBlocks_fillHead (Nat.zero_le _) (by simp)

/-- Clearing a header that is clear. -/
theorem fillHead_nil_fillHead_nil : fillHead [] (fillHead [] d) = fillHead [] d := by
  ext i hi
  simp only [fillHead, List.length_nil, List.range_zero, List.foldl_nil]
  simp only [Bytes.setLE, Bytes.get_set]
  split_ifs <;> rfl

end

/-! ## Commit and recovery -/

/-- The header as `commit` first writes it, over the contents `d`. -/
def Log.header (l : Log) (d : Block) : BlockId × Block := ((l.dev, l.start), fillHead l.block d)

/-- The header with its count cleared. -/
def Log.cleared (l : Log) (d : Block) : BlockId × Block := ((l.dev, l.start), fillHead [] d)

/-- The logged blocks with their contents. -/
def Log.home (l : Log) (m : BlockId → Block) : List (BlockId × Block) :=
  l.block.map fun b => ((l.dev, b), m (l.dev, b))

/-- All writes of `commit`. -/
def Log.commitWrites (l : Log) (m : BlockId → Block) : List (BlockId × Block) :=
  let hdr := l.header (m (l.dev, l.start))
  l.stage m l.n ++ hdr :: (l.home m ++ [l.cleared hdr.2])

/-- The last write clears the header. -/
theorem Log.commitWrites_eq (l : Log) (m : BlockId → Block) :
    ∃ ws x, l.commitWrites m = ws ++ [l.cleared x] := by
  refine ⟨l.stage m l.n ++ l.header (m (l.dev, l.start)) :: l.home m,
    (l.header (m (l.dev, l.start))).2, ?_⟩
  simp [Log.commitWrites]

section

variable {l : Log} {m : BlockId → Block}

/-- After the log has been written, what `install_trans` writes are the logged
blocks. -/
theorem Log.install_eq_home (d : Block) (m' : BlockId → Block) :
    l.install (writeAll (l.stage m l.n ++ [l.header d]) m') l.n = l.home m := by
  refine List.ext_getElem (by simp [Log.install, Log.home, Log.n]) fun i hi hi' => ?_
  have hin : i < l.n := by simpa [Log.install] using hi
  simp only [Log.install, Log.home, List.getElem_map, List.getElem_range]
  have hb : l.block.getD i 0 = l.block[i] := by
    rw [List.getD_eq_getElem?_getD, List.getElem?_eq_getElem hin, Option.getD_some]
  rw [writeAll_append, writeAll_of_forall_ne (by simp [Log.header]; omega), Log.stage_slot hin, hb]
  rfl

/-- The header is untouched until `commit` writes it. -/
theorem Log.stage_start {n : Nat} (d : BlockId → Block) :
    writeAll (l.stage m n) d (l.dev, l.start) = d (l.dev, l.start) := by
  refine writeAll_of_forall_ne fun w hw => ?_
  obtain ⟨j, -, rfl⟩ := List.mem_map.1 hw
  simp; omega

theorem Log.Fits.home_start (h : l.Fits) (d : BlockId → Block) :
    writeAll (l.home m) d (l.dev, l.start) = d (l.dev, l.start) := by
  refine writeAll_of_forall_ne fun w hw => ?_
  obtain ⟨b, hb, rfl⟩ := List.mem_map.1 hw
  intro e
  have e : ((l.dev, b) : BlockId) = (l.dev, l.start) := e
  exact h.home b hb (e ▸ h.start_area)

end

section

variable {l : Log} {m : BlockId → Block}

/-- `commit` of a transaction that has logged something. -/
theorem wp_commit (h : StoreRep s v) (hl : v.log = l) (hm : v.block = m) (hheld : v.held = [])
    (hfit : l.Fits) (hn : 0 < l.n)
    (ok : ∀ s', StoreRep s' ((v.writeList (l.commitWrites m)).withLog { l with block := [] }) →
      Q () s')
    (stalled : ∀ e s', Stalled v (l.commitWrites m) l.touched s' → E e s') : wp commit Q E s := by
  have hstart : [l.start] ⊆ l.touched := by simp [Log.touched]
  generalize hhdr : l.header (m (l.dev, l.start)) = hdr
  have hW : l.commitWrites m = l.stage m l.n ++ [hdr] ++ l.home m ++ [l.cleared hdr.2] := by
    simp [Log.commitWrites, hhdr]
  simp only [commit, wp_bind, wp_gets, h.log, hl, wp_ite, hn, forall_const, not_true_eq_false,
    false_imp_iff, and_true]
  rw [hW] at ok stalled
  -- the log
  refine wp_writeLog h hl hheld hfit (fun s1 h1 => ?_) fun e s' hs =>
    stalled e s' (hs.mono (by simp [hm]) (List.Subset.refl _))
  rw [hm] at h1
  -- the header
  refine wp_writeHead h1 (by simpa using hl) hfit.dev (by simpa using hheld)
    (fun e s' hs => stalled e s' (hs.of_writeList.mono (by simp) hstart)) fun s2 h2 => ?_
  rw [View.writeList_block, Log.stage_start, hm] at h2
  replace h2 : StoreRep s2 (v.writeList (l.stage m l.n ++ [hdr])) := by
    rw [View.writeList_append, ← hhdr]; exact h2
  -- the home blocks
  have hinstall : l.install (v.writeList (l.stage m l.n ++ [hdr])).block l.n = l.home m := by
    rw [View.writeList_block, hm, ← hhdr, Log.install_eq_home]
  refine wp_installTrans h2 (by simpa using hl) (by simpa using hheld) hfit (fun s3 h3 => ?_)
    fun e s' hs => stalled e s' (hs.of_writeList.mono (by simp only [hinstall, List.prefix_append])
      (List.Subset.refl _))
  rw [hinstall, ← View.writeList_append] at h3
  -- the header again
  simp only [setLog, wp_update, h3.log, View.writeList_log, hl]
  refine wp_writeHead (h3.setLog _) rfl hfit.dev (by simpa [View.withLog] using hheld)
    (fun e s' hs => stalled e s' (hs.of_withLog.of_writeList.mono (by simp) hstart))
    fun s4 h4 => ok s4 ?_
  have hblock : (v.writeList (l.stage m l.n ++ [hdr] ++ l.home m)).block (l.dev, l.start) =
      hdr.2 := by
    rw [View.writeList_block, writeAll_append, hfit.home_start, writeAll_append, writeAll_cons,
      ← hhdr]
    exact Function.update_self ..
  rw [View.writeList_append, View.writeList_cons, Log.cleared, ← hblock]
  exact h4

/-- `commit` of a transaction that has logged nothing. -/
theorem wp_commit_nil (h : StoreRep s v) (hl : v.log.block = []) (ok : Q () s) :
    wp commit Q E s := by
  have hn : s.log.n = 0 := by rw [h.log, Log.n, hl, List.length_nil]
  simpa [commit, wp_ite, hn] using ok

/-- The log record as `read_head` finds it. -/
def Log.onDisk (l : Log) (m : BlockId → Block) : Log :=
  { l with block := headBlocks (m (l.dev, l.start)) }

/-- All writes of `recover_from_log`. -/
def Log.recoverWrites (l : Log) (m : BlockId → Block) : List (BlockId × Block) :=
  (l.onDisk m).install m (l.onDisk m).n ++ [l.cleared (m (l.dev, l.start))]

/-- Recovery writes to the log's device only. -/
theorem Log.dev_recoverWrites {w : BlockId × Block} (h : w ∈ l.recoverWrites m) :
    w.1.1 = l.dev := by
  rcases List.mem_append.1 h with h | h
  · obtain ⟨i, -, rfl⟩ := List.mem_map.1 h
    rfl
  · rw [List.mem_singleton.1 h]
    rfl

/-- `recover_from_log`. -/
theorem wp_recoverFromLog (h : StoreRep s v) (hl : v.log = l) (hm : v.block = m)
    (hheld : v.held = []) (hfit : (l.onDisk m).Fits)
    (ok : ∀ s', StoreRep s' ((v.writeList (l.recoverWrites m)).withLog { l with block := [] }) →
      Q () s')
    (stalled : ∀ e s', Stalled v (l.recoverWrites m) (l.onDisk m).touched s' → E e s') :
    wp recoverFromLog Q E s := by
  have hstart : [l.start] ⊆ (l.onDisk m).touched := by simp [Log.touched, Log.onDisk]
  simp only [recoverFromLog, wp_bind]
  refine wp_readHead h hl hfit.dev hheld
    (fun e s' hs => stalled e s' (hs.mono List.nil_prefix hstart)) fun s1 h1 => ?_
  rw [hm] at h1
  change StoreRep s1 (v.withLog (l.onDisk m)) at h1
  have hm' : (v.withLog (l.onDisk m)).block = m := hm
  refine wp_installTrans (l := l.onDisk m) h1 rfl hheld hfit (fun s2 h2 => ?_) fun e s' hs =>
    stalled e s' (hs.of_withLog.mono (by rw [hm']; exact List.prefix_append ..)
      (List.Subset.refl _))
  rw [hm', View.writeList_withLog] at h2
  simp only [setLog, wp_update]
  have hlog : ({ s2.log with block := [] } : Log) = { l with block := [] } := by rw [h2.log]; rfl
  have h3 := h2.setLog { l with block := [] }
  rw [View.withLog_withLog] at h3
  rw [hlog]
  refine wp_writeHead (l := { l with block := [] }) h3 rfl hfit.dev (by simpa using hheld)
    (fun e s' hs => stalled e s' (hs.of_withLog.of_writeList.mono
      (by simp [Log.recoverWrites]) hstart)) fun s4 h4 => ok s4 ?_
  have hblock : (v.writeList ((l.onDisk m).install m (l.onDisk m).n)).block (l.dev, l.start) =
      m (l.dev, l.start) := by
    rw [View.writeList_block, hm]
    exact hfit.install_block hfit.start_area le_rfl
  rw [View.withLog_block, hblock, View.withLog_write] at h4
  rwa [Log.recoverWrites, View.writeList_append, View.writeList_cons, View.writeList_nil]

end

end Xv6Rework
