import Xv6Rework.Fs.Crash

/-!
# One log for two disks

`forkret` sets the log up for disk 1 and then for disk 2.  There is one log
record only, so what remains is a log on disk 2: `commit` copies and installs
blocks of disk 2 whatever the device of the buffers it was given, and a buffer of
disk 1 stays dirty for good.

The main result says exactly which transactions are durable on such a machine:
those that change blocks of disk 2 only.
-/

namespace Xv6Rework

open Prog

/-- The part of `forkret` that reads and writes disks: `iinit` and `initlog`, each
for both. -/
def startUp : StoreM Unit := do
  let _ ← readsb ROOTDEV
  let _ ← readsb SECONDARYDEV
  initlog ROOTDEV
  initlog SECONDARYDEV

/-- The log that the super block of a device describes. -/
def Log.ofDisk (dev : Nat) (disk : BlockId → Block) : Log :=
  let sb := Superblock.ofBlock (disk (dev, 1))
  ⟨sb.logstart, sb.nlog, 0, false, dev, []⟩

/-- Both disks have a log that a commit may have left behind. -/
def Formatted (disk : BlockId → Block) : Prop :=
  ∀ dev, dev = ROOTDEV ∨ dev = SECONDARYDEV → ((Log.ofDisk dev disk).onDisk disk).Fits

/-- The operations are on the two disks, and the changes outside the log. -/
def Admissible (l : Log) (ops : List BlockOp) : Prop :=
  (∀ op ∈ ops, op.dev = ROOTDEV ∨ op.dev = SECONDARYDEV) ∧
    ∀ w ∈ changes ops, ¬l.Area (l.dev, w.1.2)

/-- The changes have reached their disks and their buffers are clean, and nothing
else outside the log has changed. -/
def Durable (ops : List BlockOp) (s s' : Store) : Prop :=
  (∀ k ∈ (changes ops).map Prod.fst, s'.disk k = writeAll (changes ops) s.disk k ∧
    ∀ b, (s'.buf b).id = k → (s'.buf b).dirty = false) ∧
  ∀ k ∉ (changes ops).map Prod.fst, ¬s.log.Area k → s'.disk k = s.disk k

/-- The states after start-up and any transactions. -/
def Started : Store → Prop :=
  Reach (fun s => ∃ disk s0, s0 = binit disk ∧ Formatted disk ∧ startUp s0 = (.ok (), s))
    fun s ops s' => Admissible s.log ops ∧ transaction ops s = (.ok (), s')

/-! ## Start-up -/

section

variable {s : Store} {v : View} {dev : Nat} {Q : Unit → Store → Prop}

/-- `readsb` leaves the view as it is. -/
theorem wp_readsb {Q : Superblock → Store → Prop} (h : StoreRep s v) (hdev : dev = 1 ∨ dev = 2)
    (hheld : v.held = []) (ok : ∀ s', StoreRep s' v → Q (.ofBlock (v.block (dev, 1))) s') :
    wp (readsb dev) Q (fun _ _ => True) s := by
  simp only [readsb, wp_bind, wp_gets, wp_pure]
  refine wp_bread h hdev (v.free_of_held_nil hheld _) (fun b s1 h1 => ?_) (fun _ => trivial)
    fun _ _ _ _ => trivial
  rw [h1.data_held (v.mem_hold b _) (by omega), View.block_hold]
  refine wp_brelse h1 (v.mem_hold b _) fun s2 h2 => ok s2 ?_
  rwa [View.release_hold _ _ h1.not_held] at h2

theorem Log.ofDisk_congr {m m' : BlockId → Block} (h : ∀ b, m' (dev, b) = m (dev, b)) :
    (Log.ofDisk dev m').onDisk m' = (Log.ofDisk dev m).onDisk m := by
  simp only [Log.onDisk, Log.ofDisk, h]

/-- `initlog` recovers from the log that the super block describes. -/
theorem wp_initlog (h : StoreRep s v) (hdev : dev = 1 ∨ dev = 2) (hheld : v.held = [])
    (hlog : v.log.outstanding = 0 ∧ v.log.committing = false)
    (hfit : ((Log.ofDisk dev v.block).onDisk v.block).Fits)
    (ok : ∀ s' v', StoreRep s' v' → v'.held = [] → v'.log = Log.ofDisk dev v.block →
      (∀ k : BlockId, k.1 ≠ dev → v'.block k = v.block k) → Q () s') :
    wp (initlog dev) Q (fun _ _ => True) s := by
  simp only [initlog, wp_bind]
  refine wp_readsb h hdev hheld fun s1 h1 => ?_
  simp only [setLog, wp_update]
  have hset : ({ s1.log with
      start := (Superblock.ofBlock (v.block (dev, 1))).logstart
      size := (Superblock.ofBlock (v.block (dev, 1))).nlog
      dev := dev } : Log) = { Log.ofDisk dev v.block with block := v.log.block } := by
    rw [h1.log, Log.ofDisk, ← hlog.1, ← hlog.2]
  rw [hset]
  generalize hm : v.block = m at hfit ok
  generalize hl : ({ Log.ofDisk dev m with block := v.log.block } : Log) = l
  have honDisk : l.onDisk m = (Log.ofDisk dev m).onDisk m := by rw [← hl]; rfl
  have hnil : ({ l with block := [] } : Log) = Log.ofDisk dev m := by rw [← hl]; rfl
  rw [← honDisk] at hfit
  refine wp_recoverFromLog (h1.setLog l) (View.withLog_log v l) hm hheld hfit
    (fun s2 h2 => ok s2 _ h2 ?_ ?_ ?_) fun _ _ _ => trivial
  · rw [View.withLog_held, View.writeList_held, View.withLog_held, hheld]
  · rw [View.withLog_log, hnil]
  · intro k hk
    rw [View.withLog_block, View.writeList_block, View.withLog_block, hm]
    refine writeAll_of_forall_ne fun w hw e => hk ?_
    rw [← e, Log.dev_recoverWrites hw, ← hl]
    rfl

/-- Start-up, on any buffer cache that nobody uses. -/
theorem wp_startUp (h : StoreRep s v) (hheld : v.held = [])
    (hlog : v.log.outstanding = 0 ∧ v.log.committing = false) (hf : Formatted v.block)
    (ok : ∀ s' v', StoreRep s' v' → v'.held = [] → v'.log.Idle → v'.log.dev = SECONDARYDEV →
      Q () s') :
    wp startUp Q (fun _ _ => True) s := by
  have hf1 := hf ROOTDEV (.inl rfl)
  have hf2 := hf SECONDARYDEV (.inr rfl)
  simp only [startUp, wp_bind]
  refine wp_readsb h (.inl rfl) hheld fun s1 h1 => ?_
  refine wp_readsb h1 (.inr rfl) hheld fun s2 h2 => ?_
  refine wp_initlog h2 (.inl rfl) hheld hlog hf1
    fun s3 v3 h3 hheld3 hlog3 hblock3 => ?_
  have hfit : ((Log.ofDisk SECONDARYDEV v3.block).onDisk v3.block).Fits := by
    rw [Log.ofDisk_congr fun b => hblock3 (SECONDARYDEV, b) (show SECONDARYDEV ≠ ROOTDEV by decide)]
    exact hf2
  refine wp_initlog h3 (.inr rfl) hheld3 (by rw [hlog3]; exact ⟨rfl, rfl⟩) hfit
    fun s4 v4 h4 hheld4 hlog4 _ => ok s4 v4 h4 hheld4 ?_ ?_
  · rw [hlog4]
    exact ⟨.inr rfl, rfl, rfl, rfl⟩
  · rw [hlog4]
    rfl

/-- Nobody uses a buffer, no operation runs, and the log is that of disk 2. -/
def Settled (s : Store) : Prop :=
  ∃ v, StoreRep s v ∧ v.held = [] ∧ v.log.Idle ∧ v.log.dev = SECONDARYDEV

/-- After start-up the log is that of disk 2. -/
theorem settled_startUp {s0 : Store} {disk : BlockId → Block} (hs0 : s0 = binit disk)
    (hf : Formatted disk) : wp startUp (fun _ s => Settled s) (fun _ _ => True) s0 := by
  have h : StoreRep s0 (View.blank disk) := hs0 ▸ rep_binit disk
  exact wp_startUp h rfl ⟨rfl, rfl⟩ hf fun s' v' h' hheld' hidle' hdev' =>
    ⟨v', h', hheld', hidle', hdev'⟩

/-! ## What a transaction leaves on the disks -/

section

variable {l : Log} {ws : List (BlockId × Block)} {m d : BlockId → Block} {k : BlockId}

/-- A commit writes to the log's device only. -/
theorem Log.dev_transactionWrites {w : BlockId × Block} (h : w ∈ l.transactionWrites ws m) :
    w.1.1 = l.dev := by
  unfold Log.transactionWrites at h
  split at h
  · cases h
  · simp only [Log.commitWrites, List.mem_append, List.mem_cons, List.not_mem_nil, or_false] at h
    rcases h with h | rfl | h | rfl
    · obtain ⟨i, -, rfl⟩ := List.mem_map.1 h
      rfl
    · rfl
    · obtain ⟨b, -, rfl⟩ := List.mem_map.1 h
      rfl
    · rfl

/-- Outside the log, a commit writes the logged block numbers, on the log's
device. -/
theorem Log.writeAll_commitWrites (hslots : l.n < l.size) (hk : ¬l.Area k) :
    writeAll (l.commitWrites m) d k = if k.1 = l.dev ∧ k.2 ∈ l.block then m k else d k := by
  have hstage : ∀ d, writeAll (l.stage m l.n) d k = d k := by
    refine fun d => writeAll_of_forall_ne fun w hw => ?_
    obtain ⟨i, hi, rfl⟩ := List.mem_map.1 hw
    rintro rfl
    have := List.mem_range.1 hi
    exact hk ⟨rfl, by simp; omega, by simp; omega⟩
  have hstart : k ≠ (l.dev, l.start) := by
    rintro rfl
    exact hk ⟨rfl, le_rfl, by simp; omega⟩
  rw [Log.commitWrites, writeAll_append, writeAll_cons, writeAll_append, writeAll_cons,
    writeAll_nil, Log.cleared, Function.update_of_ne hstart]
  have hhome : l.home m = (l.block.map fun b => (l.dev, b)).map fun k => (k, m k) := by
    rw [Log.home, List.map_map]
    rfl
  rw [hhome]
  split_ifs with hmem
  · exact writeAll_map_of_mem (List.mem_map.2 ⟨k.2, hmem.2, Prod.ext hmem.1.symm rfl⟩)
  · rw [writeAll_of_forall_ne, Log.header, Function.update_of_ne hstart, hstage]
    simp only [List.map_map, List.forall_mem_map, Function.comp_apply]
    rintro b hb rfl
    exact hmem ⟨rfl, hb⟩

/-- The same of a transaction. -/
theorem Log.writeAll_transactionWrites (hidle : l.Idle) (hbound : (l.addAll ws).Bounded)
    (hk : ¬l.Area k) : writeAll (l.transactionWrites ws m) d k =
      if k.1 = l.dev ∧ k.2 ∈ ws.map (fun w => w.1.2) then writeAll ws m k else d k := by
  by_cases hws : ws = []
  · simp [Log.transactionWrites, hws]
  · have hmem : k.2 ∈ (l.addAll ws).block ↔ k.2 ∈ ws.map fun w => w.1.2 := by
      rw [Log.mem_addAll, hidle.block]
      simp
    have hslots := hbound.slots.resolve_left (mt (Log.addAll_block_eq_nil hidle.block).1 hws)
    rw [Log.transactionWrites, if_neg hws, Log.writeAll_commitWrites hslots hk]
    simp only [hmem]
    rfl

/-- A commit writes each block number that was logged, on the log's device. -/
theorem Log.mem_transactionWrites (hk : k.1 = l.dev) (hb : k.2 ∈ ws.map fun w => w.1.2) :
    k ∈ (l.transactionWrites ws m).map Prod.fst := by
  have hne : ws ≠ [] := by rintro rfl; simp at hb
  have hhome : k ∈ ((l.addAll ws).home (writeAll ws m)).map Prod.fst := by
    rw [Log.home, List.map_map]
    exact List.mem_map.2 ⟨k.2, Log.mem_addAll.2 (.inr hb), Prod.ext hk.symm rfl⟩
  rw [Log.transactionWrites, if_neg hne, Log.commitWrites]
  simp only [List.map_append, List.map_cons, List.mem_append, List.mem_cons, hhome,
    true_or, or_true]

end

end

/-! ## Durability -/

/-- What a transaction that returns leaves, from a settled state. -/
theorem rep_transaction {s s' : Store} {v : View} {ops : List BlockOp} (h : StoreRep s v)
    (hheld : v.held = []) (hidle : v.log.Idle) (hadm : Admissible v.log ops)
    (hrun : transaction ops s = (.ok (), s')) :
    (v.log.addAll (changes ops)).Bounded ∧ StoreRep s' (((v.pinList (changes ops)).writeList
      (v.log.transactionWrites (changes ops) v.block)).withLog v.log) := by
  have hwp := wp_transaction (Q := fun _ s' => (v.log.addAll (changes ops)).Bounded ∧
      StoreRep s' (((v.pinList (changes ops)).writeList
        (v.log.transactionWrites (changes ops) v.block)).withLog v.log))
    (E := fun _ _ => True) h rfl rfl hheld hidle hadm.1 hadm.2 (fun hb _ h' => ⟨hb, h'⟩)
    (fun _ _ _ _ => trivial) fun _ _ _ _ _ _ _ => trivial
  exact (wp_iff.1 hwp).1 _ _ hrun

/-- Every transaction leaves a settled state. -/
theorem Started.settled {s : Store} (h : Started s) : Settled s := by
  refine h.invariant ?_ ?_
  · rintro s ⟨disk, s0, hs0, hf, hrun⟩
    exact (wp_iff.1 (settled_startUp hs0 hf)).1 _ _ hrun
  · rintro s ops s' ⟨v, hrep, hheld, hidle, hdev⟩ ⟨hadm, hrun⟩
    have h' := (rep_transaction hrep hheld hidle (hrep.log ▸ hadm) hrun).2
    exact ⟨_, h', by simpa using hheld, hidle, hdev⟩

/-- The device of a change is that of its operation. -/
theorem Admissible.device {l : Log} {ops : List BlockOp} (h : Admissible l ops)
    {w : BlockId × Block} (hw : w ∈ changes ops) : w.1.1 = ROOTDEV ∨ w.1.1 = SECONDARYDEV := by
  obtain ⟨hdev, -⟩ := h
  induction ops with
  | nil => cases hw
  | cons op ops ih =>
    have ih := fun hw => ih hw fun op hop => hdev op (List.mem_cons_of_mem _ hop)
    cases op with
    | read => exact ih hw
    | write dev blockno data =>
      rcases List.mem_cons.1 hw with rfl | hw
      · exact hdev _ List.mem_cons_self
      · exact ih hw

/-- A transaction after start-up is durable exactly when it changes blocks of
disk 2 only. -/
theorem durable_iff {s s' : Store} {ops : List BlockOp} (hs : Started s)
    (hadm : Admissible s.log ops) (hrun : transaction ops s = (.ok (), s')) :
    Durable ops s s' ↔ ∀ w ∈ changes ops, w.1.1 = SECONDARYDEV := by
  obtain ⟨v, hrep, hheld, hidle, hdev⟩ := hs.settled
  rw [hrep.log] at hadm
  obtain ⟨hbound, hrep'⟩ := rep_transaction hrep hheld hidle hadm hrun
  have hdevs : ∀ w ∈ changes ops, w.1.1 ≠ 0 := fun w hw => by
    rcases hadm.device hw with e | e <;> rw [e] <;> decide
  have harea := hadm.2
  unfold Durable
  generalize changes ops = ws at *
  have hdisk : s'.disk = writeAll (v.log.transactionWrites ws v.block) s.disk := by
    rw [hrep'.disk, View.withLog_disk, View.writeList_disk, View.pinList_disk, hrep.disk]
  have hpinned : ∀ k, (((v.pinList ws).writeList (v.log.transactionWrites ws v.block)).withLog
      v.log).pinned k = if k ∈ (v.log.transactionWrites ws v.block).map Prod.fst then none
        else (v.pinList ws).pinned k := fun k => by
    rw [View.withLog_pinned, View.writeList_pinned]
  constructor
  · -- a change on the other disk stays pinned, so its buffer stays dirty
    intro hdur w hw
    by_contra hne
    have hmem : w.1 ∈ ws.map Prod.fst := List.mem_map.2 ⟨w, hw, rfl⟩
    have hpin := hpinned w.1
    rw [if_neg, View.pinList_pinned_of_mem _ _ hmem] at hpin
    · obtain ⟨b, hid, hdirty⟩ := hrep'.caches.cached w.1 _ (hdevs w hw) hpin
      rw [(hdur.1 w.1 hmem).2 b hid] at hdirty
      cases hdirty
    · rintro hcommit
      obtain ⟨x, hx, e⟩ := List.mem_map.1 hcommit
      exact hne (e ▸ (Log.dev_transactionWrites hx).trans hdev)
  · intro hall
    have hmem_iff : ∀ k : BlockId, k.1 = v.log.dev ∧ k.2 ∈ ws.map (fun w => w.1.2) ↔
        k ∈ ws.map Prod.fst := by
      intro k
      simp only [List.mem_map]
      constructor
      · rintro ⟨hk, w, hw, e⟩
        exact ⟨w, hw, Prod.ext (by rw [hall w hw, hk, hdev]) e⟩
      · rintro ⟨w, hw, rfl⟩
        exact ⟨by rw [hall w hw, hdev], w, hw, rfl⟩
    refine ⟨fun k hk => ⟨?_, fun b hid => ?_⟩, fun k hk hk' => ?_⟩
    · obtain ⟨w, hw, rfl⟩ := List.mem_map.1 hk
      have hout : ¬v.log.Area w.1 := by
        have e : (v.log.dev, w.1.2) = w.1 := Prod.ext (by rw [hall w hw, hdev]) rfl
        exact e ▸ harea w hw
      rw [hdisk, Log.writeAll_transactionWrites hidle hbound hout, if_pos ((hmem_iff _).2 hk)]
      exact writeAll_congr fun hne => absurd rfl (hne w hw)
    · obtain ⟨w, hw, rfl⟩ := List.mem_map.1 hk
      by_contra hdirty
      rw [Bool.not_eq_false] at hdirty
      have hb : (s'.buf b).id.1 ≠ 0 := hid ▸ hdevs w hw
      have hpin := hrep'.caches.dirty b hb hdirty
      rw [hid, hpinned, if_pos (Log.mem_transactionWrites ((hmem_iff _).2 hk).1
        ((hmem_iff _).2 hk).2)] at hpin
      cases hpin
    · rw [hrep.log] at hk'
      rw [hdisk, Log.writeAll_transactionWrites hidle hbound hk', if_neg (mt (hmem_iff k).1 hk)]

/-- Two disks as `mkfs` makes them: the log starts at block 2 and has 30 blocks. -/
def twoDisks : BlockId → Block := fun k =>
  if k.2 = 1 then (Bytes.zero.setLE 12 4 30).setLE 16 4 2 else Bytes.zero

/-- The machine after start-up with these disks. -/
def twoDisksUp : Store := (startUp (binit twoDisks)).2

theorem formatted_twoDisks : Formatted twoDisks := by
  rintro dev hdev
  refine ⟨hdev, ?_, ?_⟩ <;> rcases hdev with rfl | rfl <;> decide +kernel

theorem started_twoDisksUp : Started twoDisksUp :=
  .init ⟨twoDisks, binit twoDisks, rfl, formatted_twoDisks, Prod.ext (by decide +kernel) rfl⟩

/-- A change of a block of disk 2 is durable. -/
theorem durable_disk2 :
    Durable [.write 2 60 (Bytes.zero.set 0 7)] twoDisksUp
      (transaction [.write 2 60 (Bytes.zero.set 0 7)] twoDisksUp).2 :=
  (durable_iff started_twoDisksUp ⟨by decide, by decide +kernel⟩
    (Prod.ext (by decide +kernel) rfl)).2 (by decide)

/-- A change of a block of disk 1 is not: the transaction returns, and the disk
has the old contents. -/
theorem not_durable_disk1 : Started twoDisksUp ∧
    (transaction [.write 1 60 (Bytes.zero.set 0 7)] twoDisksUp).1 = .ok () ∧
    Admissible twoDisksUp.log [.write 1 60 (Bytes.zero.set 0 7)] ∧
    ¬Durable [.write 1 60 (Bytes.zero.set 0 7)] twoDisksUp
      (transaction [.write 1 60 (Bytes.zero.set 0 7)] twoDisksUp).2 := by
  refine ⟨started_twoDisksUp, by decide +kernel, ⟨by decide, by decide +kernel⟩, fun h => ?_⟩
  have hdisk := (h.1 (1, 60) (by decide)).1
  revert hdisk
  decide +kernel

end Xv6Rework
