import Xv6Rework.Fs.Transaction
import Xv6Rework.Lib.Machine

/-!
# Crashes

A machine that runs transactions, loses its memory at any moment, and recovers.
A crash leaves the disks after some prefix of the writes that the code running
at the time makes; recovery starts with an empty buffer cache and can itself be
cut short, any number of times.

Beside the machine runs what it should amount to: the contents of the home
blocks if every completed transaction had happened in one piece, and of a
transaction that a crash interrupted all or nothing, depending on whether its
first `write_head` reached the disk.  The main result is that recovery always
brings the home blocks to exactly these contents.

The log is an instance of `RedoLog`; what is left to show of the code is that
`commit` and `recover_from_log` write what such a log has to write.
-/

namespace Xv6Rework

open Prog

/-- Where the log is: what `initlog` takes from the super block. -/
structure Geometry where
  dev : Nat
  start : Nat
  size : Nat
  isDisk : dev = 1 ∨ dev = 2
  size_pos : 0 < size
  onDisk : start + size ≤ FSSIZE

namespace Geometry

variable (g : Geometry)

/-- The log record between transactions. -/
def log : Log := ⟨g.start, g.size, 0, false, g.dev, []⟩

/-- The machine after a reset: `binit` has run and `initlog` has filled in where
the log is. -/
def boot (disk : BlockId → Block) : Store := { binit disk with log := g.log }

theorem idle : g.log.Idle := ⟨g.isDisk, rfl, rfl, rfl⟩

/-- The view of a machine after a reset. -/
def view (disk : BlockId → Block) : View := (View.blank disk).withLog g.log

theorem rep_boot (disk : BlockId → Block) : StoreRep (g.boot disk) (g.view disk) :=
  (rep_binit disk).setLog g.log

theorem roomy_view (disk : BlockId → Block) : (g.view disk).Roomy := ⟨fun _ => rfl, rfl⟩

/-! ## The log as a redo log -/

/-- What a header says is a matter of the blocks of the log. -/
theorem install_congr {d d' : BlockId → Block} (h : ∀ a, g.log.Area a → d a = d' a) :
    (if (g.log.onDisk d).n < g.size then (g.log.onDisk d).install d (g.log.onDisk d).n else []) =
      if (g.log.onDisk d').n < g.size then (g.log.onDisk d').install d'
      (g.log.onDisk d').n else [] := by
  have hhead : g.log.onDisk d = g.log.onDisk d' := by
    rw [Log.onDisk, h (g.log.dev, g.log.start) ⟨rfl, le_rfl, Nat.lt_add_of_pos_right g.size_pos⟩]
    rfl
  rw [hhead]
  split_ifs with hn
  · refine List.map_congr_left fun i hi => ?_
    have hi := List.mem_range.1 hi
    rw [h _ ⟨rfl, by simp [Log.onDisk]; omega, ?_⟩]
    change g.start + i + 1 < g.start + g.size
    omega
  · rfl

/-- The pending writes are those of the header on disk, with the contents of its
slots. -/
def redo : RedoLog BlockId Block where
  area := g.log.Area
  pending d := if (g.log.onDisk d).n < g.size then (g.log.onDisk d).install d (g.log.onDisk d).n
    else []
  pending_congr := g.install_congr

/-- A header that names blocks outside the log, with a slot for each. -/
structure SoundHead (x : Block) : Prop where
  slots : (headBlocks x).length < g.size
  home : ∀ b ∈ headBlocks x, ¬g.log.Area (g.dev, b)
  lt : ∀ b ∈ headBlocks x, b < FSSIZE

/-- The contents of the header on a disk. -/
def head (d : BlockId → Block) : Block := d (g.dev, g.start)

variable {g} {d : BlockId → Block} {ws : List (BlockId × Block)}

theorem soundHead_of_nil {x : Block} (h : headBlocks x = []) : g.SoundHead x :=
  ⟨by rw [h]; exact g.size_pos, by simp [h], by simp [h]⟩

theorem SoundHead.fits (h : g.SoundHead (g.head d)) : (g.log.onDisk d).Fits :=
  ⟨g.isDisk, h.slots, h.home⟩

theorem SoundHead.pending (h : g.SoundHead (g.head d)) :
    g.redo.pending d = (g.log.onDisk d).install d (g.log.onDisk d).n := if_pos h.slots

theorem pending_eq_nil (h : headBlocks (g.head d) = []) : g.redo.pending d = [] := by
  have hn : (g.log.onDisk d).n = 0 := List.length_eq_zero_iff.2 h
  simp [redo, hn, Log.install]

theorem SoundHead.home_pending (h : g.SoundHead (g.head d)) :
    ∀ w ∈ g.redo.pending d, ¬g.redo.area w.1 := by
  intro w hw
  rw [h.pending] at hw
  obtain ⟨i, hi, rfl⟩ := List.mem_map.1 hw
  exact h.home _ (Log.getD_mem (List.mem_range.1 hi))

theorem area_start : g.redo.area (g.dev, g.start) :=
  ⟨rfl, le_rfl, Nat.lt_add_of_pos_right g.size_pos⟩

/-! ## Recovery -/

theorem SoundHead.recoverWrites (h : g.SoundHead (g.head d)) :
    g.log.recoverWrites d = g.redo.pending d ++ [g.log.cleared (g.head d)] := by
  rw [h.pending]
  rfl

theorem head_cleared (x : Block) :
    g.head (writeAll (ws ++ [g.log.cleared x]) d) = fillHead [] x := by
  rw [writeAll_append, writeAll_cons, writeAll_nil]
  exact Function.update_self (g.dev, g.start) (fillHead [] x) (writeAll ws d)

/-- Recovery clears the header. -/
theorem SoundHead.head_recover (h : g.SoundHead (g.head d)) :
    g.head (writeAll (g.log.recoverWrites d) d) = fillHead [] (g.head d) := by
  rw [h.recoverWrites, head_cleared]

/-- Recovery from a sound disk returns, having made the pending writes and cleared
the header. -/
theorem recoverFromLog_of_rep {s : Store} {v : View} (hv : StoreRep s v) (hl : v.log = g.log)
    (hheld : v.held = []) (hroom : v.Roomy) (h : g.SoundHead (g.head v.disk)) :
    ∃ s', recoverFromLog s = (.ok (), s') ∧
      StoreRep s' ((v.writeList (g.log.recoverWrites v.disk)).withLog g.log) := by
  have hwp : wp recoverFromLog
      (fun _ s' => StoreRep s' ((v.writeList (g.log.recoverWrites v.disk)).withLog g.log))
      (fun _ _ => False) s := by
    refine wp_recoverFromLog hv hl hroom.block hheld h.fits (fun s' h' => h') fun e s' hs => ?_
    obtain ⟨k, -, -, hrange⟩ := hs
    obtain ⟨b, hb, hge⟩ := hrange hroom
    have hn := h.slots
    have hdisk := g.onDisk
    rcases List.mem_append.1 hb with hb | hb
    · rcases List.mem_cons.1 hb with rfl | hb
      · change FSSIZE ≤ g.start at hge
        omega
      · obtain ⟨i, hi, rfl⟩ := List.mem_map.1 hb
        have hi : i < (headBlocks (g.head v.disk)).length := List.mem_range.1 hi
        change FSSIZE ≤ g.start + i + 1 at hge
        omega
    · have := h.lt b hb
      omega
  obtain ⟨_, s', hrun, hrep⟩ := hwp.exists_ok
  exact ⟨s', hrun, hrep⟩

theorem recoverFromLog_boot (h : g.SoundHead (g.head d)) :
    ∃ s', recoverFromLog (g.boot d) = (.ok (), s') ∧
      StoreRep s' (((g.view d).writeList (g.log.recoverWrites d)).withLog g.log) :=
  recoverFromLog_of_rep (g.rep_boot d) rfl rfl (g.roomy_view d) h

/-- Recovery from a disk whose header has been cleared changes nothing. -/
theorem writeAll_recoverWrites_of_clear {x : Block} (h : g.head d = fillHead [] x) :
    writeAll (g.log.recoverWrites d) d = d := by
  have hnil : headBlocks (g.head d) = [] := by rw [h, headBlocks_fillHead_nil]
  rw [(soundHead_of_nil hnil).recoverWrites, pending_eq_nil hnil, Log.cleared, h,
    fillHead_nil_fillHead_nil, ← h]
  exact Function.update_eq_self (g.dev, g.start) d

/-- A recovery that is cut short leaves a sound disk from which recovery reaches
the same contents. -/
theorem SoundHead.interrupted (h : g.SoundHead (g.head d)) (k : Nat) :
    let d' := writeAll ((g.log.recoverWrites d).take k) d
    g.SoundHead (g.head d') ∧ g.redo.Agree (g.redo.replay d') (g.redo.replay d) := by
  constructor
  · rcases writeAll_eq_or ((g.log.recoverWrites d).take k) d
      (g.dev, g.start) with e | ⟨w, hw, hk, e⟩
    · rw [head, e]
      exact h
    · rw [head, e]
      have hw := List.mem_of_mem_take hw
      rw [h.recoverWrites, List.mem_append, List.mem_singleton] at hw
      rcases hw with hw | rfl
      · exact absurd area_start (hk ▸ h.home_pending w hw)
      · exact soundHead_of_nil headBlocks_fillHead_nil
  · rw [h.recoverWrites]
    refine RedoLog.replay_interrupted rfl h.home_pending area_start ?_ k
    exact pending_eq_nil (by rw [head_cleared, headBlocks_fillHead_nil])

/-! ## Commit -/

section

variable {m : BlockId → Block} {x y : Block}

/-- The changes of a transaction, on the log's device and outside the log. -/
def Proper (g : Geometry) (ws : List (BlockId × Block)) : Prop :=
  ∀ w ∈ ws, w.1.1 = g.dev ∧ ¬g.log.Area w.1

instance : Decidable (g.Proper ws) := inferInstanceAs (Decidable (∀ w ∈ ws, _ ∧ _))

theorem Proper.fits (h : g.Proper ws) (hb : (g.log.addAll ws).Bounded) (hne : ws ≠ []) :
    (g.log.addAll ws).Fits where
  dev := g.isDisk
  slots := hb.slots.resolve_left (mt (Log.addAll_block_eq_nil rfl).1 hne)
  home b hb := by
    rcases Log.mem_addAll.1 hb with hb | hb
    · cases hb
    · obtain ⟨⟨⟨dev, b⟩, y⟩, hw, rfl⟩ := List.mem_map.1 hb
      obtain ⟨rfl, harea⟩ := h _ hw
      exact harea

/-- The writes of `commit` are those of a redo log. -/
theorem Proper.commits (h : g.Proper ws) (hb : (g.log.addAll ws).Bounded) (hne : ws ≠ [])
    (hclear : headBlocks (g.head d) = []) :
    g.redo.Commits d ((g.log.addAll ws).stage m (g.log.addAll ws).n)
      ((g.log.addAll ws).header x) ((g.log.addAll ws).home m) (g.log.cleared y) := by
  have hfit := h.fits hb hne
  have hstage : ∀ w ∈ (g.log.addAll ws).stage m (g.log.addAll ws).n, g.redo.area w.1 := by
    intro w hw
    obtain ⟨i, hi, rfl⟩ := List.mem_map.1 hw
    exact hfit.slot_area (List.mem_range.1 hi)
  have hhead : headBlocks (g.head (writeAll ((g.log.addAll ws).stage m (g.log.addAll ws).n ++
      [(g.log.addAll ws).header x]) d)) = (g.log.addAll ws).block := by
    rw [head, writeAll_append, writeAll_cons, writeAll_nil]
    exact (congrArg headBlocks (Function.update_self (g.dev, g.start) _ _)).trans
      (headBlocks_fillHead hb.le hb.lt)
  constructor
  case quiet =>
    intro k
    have hsame : g.head (writeAll (((g.log.addAll ws).stage m (g.log.addAll ws).n).take k) d) =
        g.head d := by
      refine writeAll_of_forall_ne fun w hw e => ?_
      obtain ⟨i, -, rfl⟩ := List.mem_map.1 (List.mem_of_mem_take hw)
      have : g.start + i + 1 = g.start := congrArg Prod.snd e
      omega
    exact pending_eq_nil (hsame ▸ hclear)
  case records =>
    generalize hd : writeAll ((g.log.addAll ws).stage m (g.log.addAll ws).n ++
      [(g.log.addAll ws).header x]) d = d' at hhead
    have honDisk : g.log.onDisk d' = g.log.addAll ws :=
      congrArg (fun b => { g.log with block := b }) hhead
    have hslots : (g.log.onDisk d').n < g.size := honDisk ▸ hfit.slots
    calc g.redo.pending d' = (g.log.onDisk d').install d' (g.log.onDisk d').n := if_pos hslots
      _ = (g.log.addAll ws).install d' (g.log.addAll ws).n := by rw [honDisk]
      _ = (g.log.addAll ws).home m := by rw [← hd, Log.install_eq_home]
  case clears => exact pending_eq_nil (by rw [head_cleared, headBlocks_fillHead_nil])
  case stage_area => exact hstage
  case hdr_area => exact area_start
  case home =>
    intro w hw
    obtain ⟨b, hb, rfl⟩ := List.mem_map.1 hw
    exact hfit.home b hb
  case clear_area => exact area_start

/-- While `commit` runs, the header is clear or names the blocks of the
transaction. -/
theorem Proper.soundHead (h : g.Proper ws) (hb : (g.log.addAll ws).Bounded) (hne : ws ≠ [])
    (hclear : headBlocks (g.head d) = []) (k : Nat) :
    g.SoundHead (g.head (writeAll (((g.log.addAll ws).commitWrites m).take k) d)) := by
  have hfit := h.fits hb hne
  rcases writeAll_eq_or (((g.log.addAll ws).commitWrites m).take k) d (g.dev, g.start) with
    e | ⟨w, hw, hk, e⟩
  · rw [head, e]
    exact soundHead_of_nil hclear
  · rw [head, e]
    have hw := List.mem_of_mem_take hw
    simp only [Log.commitWrites, List.mem_append, List.mem_cons, List.not_mem_nil, or_false] at hw
    rcases hw with hw | rfl | hw | rfl
    · obtain ⟨i, -, rfl⟩ := List.mem_map.1 hw
      have : g.start + i + 1 = g.start := congrArg Prod.snd hk
      omega
    · have hblocks : headBlocks ((g.log.addAll ws).header
          (m ((g.log.addAll ws).dev, (g.log.addAll ws).start))).2 = (g.log.addAll ws).block :=
        headBlocks_fillHead hb.le hb.lt
      exact ⟨hblocks ▸ hfit.slots, hblocks ▸ hfit.home, hblocks ▸ hb.lt⟩
    · obtain ⟨b, hb, rfl⟩ := List.mem_map.1 hw
      have hk : (g.dev, b) = (g.dev, g.start) := hk
      exact absurd (hk ▸ area_start) (hfit.home b hb)
    · exact soundHead_of_nil headBlocks_fillHead_nil

/-- A commit writes every changed block. -/
theorem Proper.written (h : g.Proper ws) {k : BlockId} (hk : k ∈ ws.map Prod.fst) :
    k ∈ (g.log.transactionWrites ws m).map Prod.fst := by
  obtain ⟨w, hw, rfl⟩ := List.mem_map.1 hk
  have hblock : w.1.2 ∈ (g.log.addAll ws).block :=
    Log.mem_addAll.2 (.inr (List.mem_map.2 ⟨w, hw, rfl⟩))
  have hid : w.1 = ((g.log.addAll ws).dev, w.1.2) := Prod.ext (h w hw).1 rfl
  have hhome : w.1 ∈ ((g.log.addAll ws).home (writeAll ws m)).map Prod.fst := by
    rw [hid]
    exact List.mem_map.2 ⟨_, List.mem_map.2 ⟨w.1.2, hblock, rfl⟩, rfl⟩
  rw [Log.transactionWrites, if_neg (List.ne_nil_of_mem hw), Log.commitWrites]
  simp only [List.map_append, List.map_cons, List.mem_append, List.mem_cons, hhome,
    true_or, or_true]

/-- Outside the log, a committed transaction leaves its changes. -/
theorem Proper.agree_home (h : g.Proper ws) {d' : BlockId → Block} (hd : g.redo.Agree d d') :
    g.redo.Agree (writeAll ((g.log.addAll ws).home (writeAll ws d)) d) (writeAll ws d') := by
  intro k hk
  have hhome : (g.log.addAll ws).home (writeAll ws d) =
      ((g.log.addAll ws).block.map fun b => (g.dev, b)).map fun k => (k, writeAll ws d k) := by
    rw [Log.home, List.map_map]
    rfl
  by_cases hmem : k ∈ ws.map Prod.fst
  · obtain ⟨w, hw, rfl⟩ := List.mem_map.1 hmem
    have hlogged : w.1 ∈ (g.log.addAll ws).block.map fun b => (g.dev, b) := by
      refine List.mem_map.2 ⟨w.1.2, Log.mem_addAll.2 (.inr (List.mem_map.2 ⟨w, hw, rfl⟩)), ?_⟩
      exact Prod.ext (h w hw).1.symm rfl
    rw [hhome, writeAll_map_of_mem hlogged]
    exact writeAll_congr fun _ => hd _ hk
  · have hne : ∀ w ∈ ws, w.1 ≠ k := fun w hw e => hmem (List.mem_map.2 ⟨w, hw, e⟩)
    rw [writeAll_of_forall_ne hne, writeAll_of_forall_ne, hd k hk]
    rintro x hx rfl
    obtain ⟨b, hb, rfl⟩ := List.mem_map.1 hx
    rcases Log.mem_addAll.1 hb with hb | hb
    · cases hb
    · obtain ⟨w, hw, rfl⟩ := List.mem_map.1 hb
      exact hne w hw (Prod.ext (h w hw).1 rfl)

end

/-! ## The machine -/

/-- The machine is running, or it is off and only the disks are left. -/
inductive System where
  | up (s : Store)
  | down (disk : BlockId → Block)

/-- What can happen.  A crash event lists the writes, of those the code that was
running makes, that had reached the disks. -/
inductive Event where
  | commit (ops : List BlockOp)
  | crash (ops : List BlockOp) (done : List (BlockId × Block))
  | recover
  | crashInRecovery (done : List (BlockId × Block))

/-- A step of the machine. -/
inductive Step (g : Geometry) : System → Event → System → Prop
  | commit {s s' : Store} {ops : List BlockOp} : transaction ops s = (.ok (), s') →
      Step g (.up s) (.commit ops) (.up s')
  | crash {s s' : Store} {ops : List BlockOp} {r : Except Stop Unit}
      {ws done : List (BlockId × Block)} : transaction ops s = (r, s') →
      s'.writes = s.writes ++ ws → done <+: ws →
      Step g (.up s) (.crash ops done) (.down (writeAll done s.disk))
  | recover {disk : BlockId → Block} {s' : Store} : recoverFromLog (g.boot disk) = (.ok (), s') →
      Step g (.down disk) .recover (.up s')
  | crashInRecovery {disk : BlockId → Block} {s' : Store} {r : Except Stop Unit}
      {done : List (BlockId × Block)} : recoverFromLog (g.boot disk) = (r, s') →
      done <+: s'.writes → Step g (.down disk) (.crashInRecovery done) (.down (writeAll done disk))

/-- The operations of an event are on disks, and its changes on the log's device
and outside the log. -/
def Event.Proper (g : Geometry) : Event → Prop
  | .commit ops | .crash ops _ => (∀ op ∈ ops, op.dev = 1 ∨ op.dev = 2) ∧ g.Proper (changes ops)
  | .recover | .crashInRecovery _ => True

/-- The first `write_head` of a commit is among the writes. -/
def HeadWritten (g : Geometry) (done : List (BlockId × Block)) : Prop :=
  ∃ w ∈ done, w.1 = (g.dev, g.start)

instance (done : List (BlockId × Block)) : Decidable (HeadWritten g done) :=
  inferInstanceAs (Decidable (∃ w ∈ done, _))

/-- What an event should do to the home blocks. -/
def Event.effect (g : Geometry) : Event → (BlockId → Block) → BlockId → Block
  | .commit ops, home => writeAll (changes ops) home
  | .crash ops done, home => if HeadWritten g done then writeAll (changes ops) home else home
  | .recover, home | .crashInRecovery _, home => home

/-- The machine together with what its home blocks should hold. -/
structure Config where
  sys : System
  home : BlockId → Block

/-- The machine is off, and the log on its disk is empty. -/
def Start (g : Geometry) (c : Config) : Prop :=
  headBlocks (g.head c.home) = [] ∧ c.sys = .down c.home

/-- A step of the machine and of what it should amount to. -/
def Config.Step (g : Geometry) (c : Config) (e : Event) (c' : Config) : Prop :=
  Geometry.Step g c.sys e c'.sys ∧ e.Proper g ∧ c'.home = e.effect g c.home

/-! ## The invariant -/

/-- The machine is running, between transactions, and its disks hold `home`. -/
def Up (g : Geometry) (s : Store) (home : BlockId → Block) : Prop :=
  ∃ v, StoreRep s v ∧ v.held = [] ∧ v.Roomy ∧ v.log = g.log ∧ headBlocks (g.head v.disk) = [] ∧
    g.redo.Agree v.disk home

/-- Recovery will bring the disks to `home`. -/
def Down (g : Geometry) (disk home : BlockId → Block) : Prop :=
  g.SoundHead (g.head disk) ∧ g.redo.Agree (g.redo.replay disk) home

/-- The invariant. -/
def Config.Inv (g : Geometry) (c : Config) : Prop :=
  match c.sys with
  | .up s => g.Up s c.home
  | .down disk => g.Down disk c.home

section

variable {s s' : Store} {home : BlockId → Block} {ops : List BlockOp}

/-- Recovery brings the disks to `home`, and leaves the machine running. -/
theorem Down.recover (h : g.Down d home) :
    ∃ s', recoverFromLog (g.boot d) = (.ok (), s') ∧ g.Up s' home ∧
      s'.writes = g.log.recoverWrites d ∧ s'.disk = writeAll (g.log.recoverWrites d) d ∧
      g.head s'.disk = fillHead [] (g.head d) := by
  obtain ⟨s', hrun, hrep⟩ := recoverFromLog_boot h.1
  have hdisk : s'.disk = writeAll (g.log.recoverWrites d) d := by
    rw [hrep.disk, View.withLog_disk, View.writeList_disk]
    rfl
  have hwrites : s'.writes = g.log.recoverWrites d := by
    rw [hrep.writes, View.withLog_writes, View.writeList_writes]
    exact List.nil_append _
  refine ⟨s', hrun, ⟨_, hrep, ?_, ⟨fun k => ?_, ?_⟩, View.withLog_log .., ?_, ?_⟩,
    hwrites, hdisk, ?_⟩
  · rw [View.withLog_held, View.writeList_held]
    rfl
  · rw [View.withLog_pinned, View.writeList_pinned]
    exact ite_self _
  · rw [View.withLog_stuck, View.writeList_stuck]
    rfl
  · rw [← hrep.disk, hdisk, h.1.head_recover, headBlocks_fillHead_nil]
  · rw [← hrep.disk, hdisk, h.1.recoverWrites, writeAll_append]
    refine (RedoLog.agree_writeAll fun w hw => ?_).trans h.2
    rw [List.mem_singleton.1 hw]
    exact area_start
  · rw [hdisk, h.1.head_recover]

/-- A transaction that returns has written everything and leaves the machine
between transactions; one that fails has written a prefix. -/
theorem Up.transaction {v : View} (hrep : StoreRep s v) (hheld : v.held = []) (hroom : v.Roomy)
    (hlog : v.log = g.log) (hdev : ∀ op ∈ ops, op.dev = 1 ∨ op.dev = 2)
    (hproper : g.Proper (changes ops)) :
    wp (transaction ops)
      (fun _ s' => ∃ v', StoreRep s' v' ∧ v'.held = [] ∧ v'.Roomy ∧ v'.log = g.log ∧
        (g.log.addAll (changes ops)).Bounded ∧
        v'.disk = writeAll (g.log.transactionWrites (changes ops) v.disk) v.disk ∧
        v'.writes = v.writes ++ g.log.transactionWrites (changes ops) v.disk)
      (fun _ s' => s'.writes = v.writes ∨ (g.log.addAll (changes ops)).Bounded ∧
        ∃ k, s'.writes = v.writes ++ (g.log.transactionWrites (changes ops) v.disk).take k) s := by
  refine wp_transaction hrep hlog hroom.block hheld g.idle hdev (fun w hw => ?_)
    (fun hb s' h' => ⟨_, h', ?_, ⟨fun k => ?_, ?_⟩, View.withLog_log .., hb, ?_, ?_⟩)
    (fun _ s' _ hw => .inl hw) fun hb _ e s' k _ hw => .inr ⟨hb, k, hw⟩
  · obtain ⟨hdev, harea⟩ := hproper w hw
    rwa [show (g.log.dev, w.1.2) = w.1 from Prod.ext hdev.symm rfl]
  · rw [View.withLog_held, View.writeList_held, View.pinList_held, hheld]
  · rw [View.withLog_pinned, View.writeList_pinned]
    split_ifs with hk
    · rfl
    · rw [View.pinList_pinned_of_not_mem _ _ fun hk' => hk (hproper.written hk'), hroom.1 k]
  · rw [View.withLog_stuck, View.writeList_stuck, View.pinList_stuck, hroom.2]
  · rw [View.withLog_disk, View.writeList_disk, View.pinList_disk]
  · rw [View.withLog_writes, View.writeList_writes, View.pinList_writes]

/-- The header is among the first writes of a commit exactly if they go past the
log's slots. -/
theorem headWritten_take {l : Log} (hl : (l.dev, l.start) = (g.dev, g.start)) {m : BlockId → Block}
    (k : Nat) :
    HeadWritten g ((l.commitWrites m).take k) ↔ ¬k ≤ (l.stage m l.n).length := by
  constructor
  · rintro ⟨w, hw, hk⟩ hle
    rw [Log.commitWrites, List.take_append_of_le_length hle] at hw
    obtain ⟨i, -, rfl⟩ := List.mem_map.1 (List.mem_of_mem_take hw)
    have : l.start + i + 1 = l.start := congrArg Prod.snd (hk.trans hl.symm)
    omega
  · intro hlt
    refine ⟨l.header (m (l.dev, l.start)), ?_, hl⟩
    rw [Log.commitWrites, List.take_append]
    obtain ⟨j, hj⟩ : ∃ j, k - (l.stage m l.n).length = j + 1 :=
      ⟨k - (l.stage m l.n).length - 1, by omega⟩
    rw [hj, List.take_succ_cons]
    exact List.mem_append_right _ List.mem_cons_self

/-- A disk whose log is empty. -/
theorem Down.of_clear (hclear : headBlocks (g.head d) = []) (hagree : g.redo.Agree d home) :
    g.Down d home := by
  refine ⟨soundHead_of_nil hclear, ?_⟩
  rwa [RedoLog.replay_of_pending (pending_eq_nil hclear), writeAll_nil]

theorem Down.agree_of_clear (h : g.Down d home) (hclear : headBlocks (g.head d) = []) :
    g.redo.Agree d home := by
  have := h.2
  rwa [RedoLog.replay_of_pending (pending_eq_nil hclear), writeAll_nil] at this

/-- The disks after the first writes of a transaction. -/
theorem Proper.cut (h : g.Proper ws) (hb : (g.log.addAll ws).Bounded)
    (hclear : headBlocks (g.head d) = []) (hagree : g.redo.Agree d home) (k : Nat) :
    g.Down (writeAll ((g.log.transactionWrites ws d).take k) d)
      (if HeadWritten g ((g.log.transactionWrites ws d).take k) then writeAll ws
        home else home) := by
  by_cases hne : ws = []
  · subst hne
    simpa [Log.transactionWrites] using Down.of_clear hclear hagree
  rw [Log.transactionWrites, if_neg hne]
  refine ⟨h.soundHead hb hne hclear k, ?_⟩
  refine (RedoLog.crash_atomic (h.commits hb hne hclear) k).trans ?_
  have hiff := headWritten_take (l := g.log.addAll ws) (g := g) rfl (m := writeAll ws d) k
  split_ifs with hle hhead hhead
  · exact absurd hle (hiff.1 hhead)
  · exact hagree
  · exact h.agree_home hagree
  · exact absurd (hiff.2 hle) hhead

/-- A crash while a transaction runs. -/
theorem Up.crash (h : g.Up s home) {r : Except Stop Unit} {ws done : List (BlockId × Block)}
    (hdev : ∀ op ∈ ops, op.dev = 1 ∨ op.dev = 2) (hproper : g.Proper (changes ops))
    (hrun : Xv6Rework.transaction ops s = (r, s')) (hws : s'.writes = s.writes ++ ws)
    (hdone : done <+: ws) :
    g.Down (writeAll done s.disk) (Event.effect g (.crash ops done) home) := by
  obtain ⟨v, hrep, hheld, hroom, hlog, hclear, hagree⟩ := h
  have hwp := Prog.wp_iff.1 (Up.transaction hrep hheld hroom hlog hdev hproper)
  rw [hrep.disk]
  -- In all cases the writes are a prefix of those of the transaction.
  obtain rfl | ⟨hb, hpre⟩ : ws = [] ∨ (g.log.addAll (changes ops)).Bounded ∧
      ws <+: g.log.transactionWrites (changes ops) v.disk := by
    rw [hrep.writes] at hws
    cases r with
    | ok _ =>
      obtain ⟨v', hrep', -, -, -, hb, -, hw⟩ := hwp.1 _ _ hrun
      rw [hrep'.writes, hw] at hws
      exact .inr ⟨hb, List.append_cancel_left hws ▸ List.prefix_rfl⟩
    | error e =>
      rcases hwp.2 _ _ hrun with hw | ⟨hb, k, hw⟩
      · exact .inl (List.self_eq_append_right.1 (hw.symm.trans hws))
      · exact .inr ⟨hb, List.append_cancel_left (hw.symm.trans hws) ▸ List.take_prefix ..⟩
  · rw [List.prefix_nil.1 hdone, Event.effect, if_neg (by simp [HeadWritten])]
    exact Down.of_clear hclear hagree
  · rw [List.prefix_iff_eq_take.1 (hdone.trans hpre)]
    exact hproper.cut hb hclear hagree _

/-- A transaction that completes. -/
theorem Up.commit (h : g.Up s home)
    (hdev : ∀ op ∈ ops, op.dev = 1 ∨ op.dev = 2) (hproper : g.Proper (changes ops))
    (hrun : Xv6Rework.transaction ops s = (.ok (), s')) :
    g.Up s' (writeAll (changes ops) home) := by
  obtain ⟨v, hrep, hheld, hroom, hlog, hclear, hagree⟩ := h
  obtain ⟨v', hrep', hheld', hroom', hlog', hb, hdisk, -⟩ :=
    (Prog.wp_iff.1 (Up.transaction hrep hheld hroom hlog hdev hproper)).1 _ _ hrun
  suffices hall : headBlocks (g.head v'.disk) = [] ∧
      g.Down v'.disk (writeAll (changes ops) home) from
    ⟨v', hrep', hheld', hroom', hlog', hall.1, hall.2.agree_of_clear hall.1⟩
  generalize changes ops = ws at *
  by_cases hne : ws = []
  · subst hne
    rw [Log.transactionWrites, if_pos rfl, writeAll_nil] at hdisk
    rw [hdisk]
    exact ⟨hclear, Down.of_clear hclear hagree⟩
  · have hcut := hproper.cut hb hclear hagree (g.log.transactionWrites ws v.disk).length
    rw [List.take_length, ← hdisk] at hcut
    rw [Log.transactionWrites, if_neg hne] at hdisk hcut
    have hhead : HeadWritten g ((g.log.addAll ws).commitWrites (writeAll ws v.disk)) := by
      rw [← List.take_length (l := (g.log.addAll ws).commitWrites _), headWritten_take rfl]
      simp [Log.commitWrites]
    rw [if_pos hhead] at hcut
    refine ⟨?_, hcut⟩
    obtain ⟨ws', x, hsplit⟩ := (g.log.addAll ws).commitWrites_eq (writeAll ws v.disk)
    rw [hdisk, hsplit]
    exact (congrArg headBlocks (head_cleared x)).trans headBlocks_fillHead_nil

/-- Every step keeps the invariant. -/
theorem Config.Inv.step {c c' : Config} {e : Event} (h : c.Inv g) (hs : c.Step g e c') :
    c'.Inv g := by
  obtain ⟨sys, home⟩ := c
  obtain ⟨sys', home'⟩ := c'
  obtain ⟨hstep, hproper, rfl : home' = _⟩ := hs
  cases hstep with
  | commit hrun => exact h.commit hproper.1 hproper.2 hrun
  | crash hrun hws hdone => exact h.crash hproper.1 hproper.2 hrun hws hdone
  | recover hrun =>
    obtain ⟨s', hrun', hup, -⟩ := Down.recover h
    rw [hrun'] at hrun
    cases hrun
    exact hup
  | crashInRecovery hrun hdone =>
    obtain ⟨s', hrun', -, hwrites, -⟩ := Down.recover h
    rw [hrun'] at hrun
    cases hrun
    rw [hwrites] at hdone
    rw [List.prefix_iff_eq_take.1 hdone]
    obtain ⟨hsound, hagree⟩ := h.1.interrupted _
    exact ⟨hsound, hagree.trans h.2⟩

/-- In every history of transactions, crashes and recoveries, a running machine
has on its home blocks exactly the transactions that completed, and of those that
a crash interrupted exactly those whose header had reached the disk.  From any
crash, `recover_from_log` returns with the home blocks as they should be; running
it again, at once or after another reset, changes nothing. -/
theorem recovery_atomic {c : Config} (h : Reach (Start g) (Config.Step g) c) :
    (∀ s, c.sys = .up s → ∀ k, ¬g.log.Area k → s.disk k = c.home k) ∧
    ∀ disk, c.sys = .down disk → ∃ s', recoverFromLog (g.boot disk) = (.ok (), s') ∧
      (∀ k, ¬g.log.Area k → s'.disk k = c.home k) ∧
      (∃ s'', recoverFromLog s' = (.ok (), s'') ∧ s''.disk = s'.disk) ∧
      ∃ s'', recoverFromLog (g.boot s'.disk) = (.ok (), s'') ∧ s''.disk = s'.disk := by
  have hinv : c.Inv g := by
    refine h.invariant (fun c hc => ?_) fun _ _ _ hi hs => hi.step hs
    obtain ⟨sys, home⟩ := c
    obtain ⟨hclear, hsys⟩ := hc
    change sys = .down home at hsys
    subst hsys
    exact Down.of_clear hclear fun _ _ => rfl
  obtain ⟨sys, home⟩ := c
  constructor
  · rintro s rfl
    obtain ⟨v, hrep, -, -, -, -, hagree⟩ := hinv
    rw [hrep.disk]
    exact hagree
  · rintro disk rfl
    obtain ⟨s', hrun, hup, -, hdisk, hhead⟩ := Down.recover hinv
    obtain ⟨v, hrep, hheld, hroom, hlog, hclear, hagree⟩ := hup
    have hsame : writeAll (g.log.recoverWrites s'.disk) s'.disk = s'.disk :=
      writeAll_recoverWrites_of_clear hhead
    refine ⟨s', hrun, hrep.disk ▸ hagree, ?_, ?_⟩
    · obtain ⟨s'', hrun'', hrep''⟩ := recoverFromLog_of_rep hrep hlog hheld hroom
        (soundHead_of_nil hclear)
      refine ⟨s'', hrun'', ?_⟩
      rw [hrep''.disk, View.withLog_disk, View.writeList_disk, ← hrep.disk, hsame]
    · obtain ⟨s'', hrun'', hrep''⟩ := recoverFromLog_boot (g := g)
        (soundHead_of_nil (show headBlocks (g.head s'.disk) = [] from hrep.disk ▸ hclear))
      refine ⟨s'', hrun'', ?_⟩
      rw [hrep''.disk, View.withLog_disk, View.writeList_disk]
      exact hsame

end

/-- The log of an image made by `mkfs`, on the second disk. -/
def mkfsLog : Geometry := ⟨2, 2, 30, .inr rfl, by decide, by decide⟩

/-- A machine with blank disks, up for the first time. -/
def blankUp : Store := (recoverFromLog (mkfsLog.boot fun _ => Bytes.zero)).2

/-- A transaction that changes two blocks. -/
def twoBlocks : List BlockOp := [.write 2 60 (Bytes.zero.set 0 7), .write 2 61 (Bytes.zero.set 0 8)]

/-- The first writes of its commit: two slots, the header and one home block. -/
def fourWrites : List (BlockId × Block) := ((transaction twoBlocks blankUp).2.writes.drop 1).take 4

/-- A crash when the first of two home blocks has been installed: recovery brings
both. -/
theorem recovery_atomic_two_blocks :
    ∃ s', recoverFromLog (mkfsLog.boot (writeAll fourWrites blankUp.disk)) = (.ok (), s') ∧
      s'.disk (2, 60) = Bytes.zero.set 0 7 ∧ s'.disk (2, 61) = Bytes.zero.set 0 8 := by
  have hup : recoverFromLog (mkfsLog.boot fun _ => Bytes.zero) = (.ok (), blankUp) :=
    Prod.ext (by decide +kernel) rfl
  have hwrites : (transaction twoBlocks blankUp).2.writes =
      blankUp.writes ++ (transaction twoBlocks blankUp).2.writes.drop 1 := by decide +kernel
  have h0 : Reach (Start mkfsLog) (Config.Step mkfsLog)
      ⟨.down fun _ => Bytes.zero, fun _ => Bytes.zero⟩ :=
    .init ⟨by decide +kernel, rfl⟩
  have h1 : Reach (Start mkfsLog) (Config.Step mkfsLog) ⟨.up blankUp, fun _ => Bytes.zero⟩ :=
    .step h0 (a := .recover) ⟨.recover hup, trivial, rfl⟩
  have h2 : Config.Step mkfsLog ⟨.up blankUp, fun _ => Bytes.zero⟩ (.crash twoBlocks fourWrites)
      ⟨.down (writeAll fourWrites blankUp.disk),
        Event.effect mkfsLog (.crash twoBlocks fourWrites) fun _ => Bytes.zero⟩ :=
    ⟨.crash (Prod.eta _).symm hwrites (List.take_prefix ..), ⟨by decide, by decide⟩, rfl⟩
  obtain ⟨s', hrun, hhome, -⟩ := (recovery_atomic (h1.step h2)).2 _ rfl
  refine ⟨s', hrun, (hhome (2, 60) (by decide)).trans ?_, (hhome (2, 61) (by decide)).trans ?_⟩
  · decide +kernel
  · decide +kernel

end Geometry

end Xv6Rework
