import Xv6Rework.Fs.LogSpec

/-!
# Transactions

A transaction reads and changes blocks between `begin_op` and `end_op`, each
change being what the comment on `log_write` calls a typical use:

    bp = bread(...)
    modify bp->data[]
    log_write(bp)
    brelse(bp)

When its last operation ends it is committed.  The main result is what a
transaction writes to the disks: all of `commitWrites`, or a prefix of it where
it fails.
-/

namespace Xv6Rework

open Prog

/-- What a transaction does to one block. -/
inductive BlockOp where
  | read (dev blockno : Nat)
  | write (dev blockno : Nat) (data : Block)

/-- The device of an operation. -/
def BlockOp.dev : BlockOp → Nat
  | read dev _ => dev
  | write dev _ _ => dev

/-- The code of an operation. -/
def BlockOp.run : BlockOp → StoreM Unit
  | read dev blockno => do
    let bp ← bread dev blockno
    brelse bp
  | write dev blockno data => do
    let bp ← bread dev blockno
    update fun s => s.setData bp data
    logWrite bp
    brelse bp

/-- A transaction of one operation of the file system. -/
def transaction (ops : List BlockOp) : StoreM Unit := do
  beginOp
  ops.forM BlockOp.run
  endOp

/-- The changes among the operations. -/
def changes : List BlockOp → List (BlockId × Block)
  | [] => []
  | .read .. :: ops => changes ops
  | .write dev blockno data :: ops => ((dev, blockno), data) :: changes ops

/-! ## Logging -/

namespace View

/-- Change blocks and have the log pin them, in order. -/
def pinList (v : View) (ws : List (BlockId × Block)) : View :=
  ws.foldl (fun v w => v.pin w.1 w.2) v

section

variable (v : View) (ws : List (BlockId × Block)) (w : BlockId × Block)

@[simp] theorem pinList_nil : v.pinList [] = v := rfl

@[simp] theorem pinList_cons : v.pinList (w :: ws) = (v.pin w.1 w.2).pinList ws := rfl

@[simp] theorem pinList_disk : (v.pinList ws).disk = v.disk := by
  induction ws generalizing v with
  | nil => rfl
  | cons w ws ih => exact ih _

@[simp] theorem pinList_writes : (v.pinList ws).writes = v.writes := by
  induction ws generalizing v with
  | nil => rfl
  | cons w ws ih => exact ih _

@[simp] theorem pinList_held : (v.pinList ws).held = v.held := by
  induction ws generalizing v with
  | nil => rfl
  | cons w ws ih => exact ih _

@[simp] theorem pinList_stuck : (v.pinList ws).stuck = v.stuck := by
  induction ws generalizing v with
  | nil => rfl
  | cons w ws ih => exact ih _

@[simp] theorem pinList_block : (v.pinList ws).block = writeAll ws v.block := by
  induction ws generalizing v with
  | nil => rfl
  | cons w ws ih => rw [pinList_cons, ih, block_pin]; rfl

theorem pinList_pinned_of_not_mem {k : BlockId} (h : k ∉ ws.map Prod.fst) :
    (v.pinList ws).pinned k = v.pinned k := by
  induction ws generalizing v with
  | nil => rfl
  | cons w ws ih =>
    rw [List.map_cons, List.mem_cons, not_or] at h
    rw [pinList_cons, ih _ h.2]
    exact Function.update_of_ne h.1 ..

theorem pinList_pinned_of_mem {k : BlockId} (h : k ∈ ws.map Prod.fst) :
    (v.pinList ws).pinned k = some (writeAll ws v.block k) := by
  induction ws generalizing v with
  | nil => cases h
  | cons w ws ih =>
    by_cases hk : k ∈ ws.map Prod.fst
    · rw [pinList_cons, ih _ hk, block_pin]; rfl
    · obtain rfl : k = w.1 := (List.mem_cons.1 h).resolve_right hk
      rw [pinList_cons, pinList_pinned_of_not_mem _ _ hk, writeAll_cons, writeAll_of_forall_ne]
      · simp [pin]
      · intro x hx e
        exact hk (List.mem_map.2 ⟨x, hx, e⟩)

end

end View

/-- The log record after blocks have been logged. -/
def Log.addAll (l : Log) (ws : List (BlockId × Block)) : Log :=
  { l with block := ws.foldl (fun l w => absorb l w.1.2) l.block }

section

variable {ws : List (BlockId × Block)} {b : Nat}

theorem Log.mem_addAll {l : Log} :
    b ∈ (l.addAll ws).block ↔ b ∈ l.block ∨ b ∈ ws.map fun w => w.1.2 := by
  suffices h : ∀ l : List Nat, b ∈ ws.foldl (fun l w => absorb l w.1.2) l ↔
      b ∈ l ∨ b ∈ ws.map fun w => w.1.2 from h l.block
  induction ws with
  | nil => simp
  | cons w ws ih => intro l; simp [ih, mem_absorb, or_assoc]

theorem View.pinList_withLog (v : View) (l : Log) :
    (v.withLog l).pinList ws = (v.pinList ws).withLog (l.addAll ws) := by
  induction ws generalizing v l with
  | nil => rfl
  | cons w ws ih => exact ih (v.pin w.1 w.2) (l.add w.1.2)

end

/-! ## Running a transaction -/

variable {s : Store} {v : View} {Q : Unit → Store → Prop} {E : Stop → Store → Prop}

/-- The log has a slot for each block it has logged, and each is on the disk. -/
structure Log.Bounded (l : Log) : Prop where
  le : l.n ≤ LOGSIZE
  slots : l.block = [] ∨ l.n < l.size
  lt : ∀ b ∈ l.block, b < FSSIZE

/-- One operation. -/
theorem wp_blockOp {op : BlockOp} (h : StoreRep s v) (hheld : v.held = [])
    (hdev : op.dev = 1 ∨ op.dev = 2) (hbound : v.log.Bounded)
    (ok : ∀ s', StoreRep s' (v.pinList (changes [op])) → (v.pinList (changes [op])).log.Bounded →
      Q () s')
    (failed : ∀ e s', s'.disk = v.disk → s'.writes = v.writes → E e s') : wp op.run Q E s := by
  cases op with
  | read dev blockno =>
    simp only [BlockOp.run, wp_bind]
    refine wp_bread h hdev (v.free_of_held_nil hheld _) (fun b s1 h1 => ?_)
      (fun _ => failed _ s h.disk h.writes) fun _ s' hd hw => failed _ s' (hd.trans h.disk)
        (hw.trans h.writes)
    refine wp_brelse h1 (v.mem_hold b _) fun s2 h2 => ok s2 ?_ hbound
    rwa [View.release_hold _ _ h1.not_held] at h2
  | write dev blockno data =>
    have hdev0 : dev ≠ 0 := by rcases hdev with h | h <;> simp [BlockOp.dev] at h <;> omega
    simp only [BlockOp.run, wp_bind, wp_update]
    refine wp_bread h hdev (v.free_of_held_nil hheld _) (fun b s1 h1 => ?_)
      (fun _ => failed _ s h.disk h.writes) fun _ s' hd hw => failed _ s' (hd.trans h.disk)
        (hw.trans h.writes)
    refine wp_logWrite h1 (v.mem_hold b _) hdev0 (fun hn hsize s2 h2 => ?_)
      (fun _ => failed _ _ h1.disk h1.writes) fun _ => failed _ _ h1.disk h1.writes
    refine wp_brelse h2 (v.mem_hold b _) fun s3 h3 => ok s3 ?_ ?_
    · have hrel := (v.pin (dev, blockno) data).release_hold (dev, blockno) h1.not_held
      change StoreRep s3 (((v.pin (dev, blockno) data).hold b (dev, blockno)).release b) at h3
      rwa [hrel] at h3
    · have hlen : (v.pin (dev, blockno) data).log.n ≤ v.log.n + 1 := length_absorb_le
      change v.log.n < LOGSIZE at hn
      change (v.log.n : Int) < v.log.size - 1 at hsize
      refine ⟨show (v.pin (dev, blockno) data).log.n ≤ LOGSIZE by omega, .inr ?_, fun b' hb' => ?_⟩
      · change (v.pin (dev, blockno) data).log.n < v.log.size
        omega
      · rcases mem_absorb.1 hb' with hb' | rfl
        · exact hbound.lt b' hb'
        · exact h1.lt_of_held (v.mem_hold b _) hdev0

/-- The operations of a transaction. -/
theorem wp_blockOps {ops : List BlockOp} (h : StoreRep s v) (hheld : v.held = [])
    (hdev : ∀ op ∈ ops, op.dev = 1 ∨ op.dev = 2) (hbound : v.log.Bounded)
    (ok : ∀ s', StoreRep s' (v.pinList (changes ops)) → (v.pinList (changes ops)).log.Bounded →
      Q () s')
    (failed : ∀ e s', s'.disk = v.disk → s'.writes = v.writes → E e s') :
    wp (ops.forM BlockOp.run) Q E s := by
  induction ops generalizing s v with
  | nil => exact ok s h hbound
  | cons op ops ih =>
    have hcons : (v.pinList (changes [op])).pinList (changes ops) = v.pinList
        (changes (op :: ops)) := by
      cases op <;> rfl
    rw [List.forM, wp_bind]
    refine wp_blockOp h hheld (hdev op List.mem_cons_self) hbound (fun s1 h1 hbound1 => ?_) failed
    refine ih h1 (by simpa using hheld) (fun op' hop' => hdev op' (List.mem_cons_of_mem _ hop'))
      hbound1 (fun s2 h2 hbound2 => ok s2 (hcons ▸ h2) (hcons ▸ hbound2)) fun e s' hd hw => ?_
    exact failed e s' (by simpa using hd) (by simpa using hw)

/-- Between transactions. -/
structure Log.Idle (l : Log) : Prop where
  dev : l.dev = 1 ∨ l.dev = 2
  outstanding : l.outstanding = 0
  committing : l.committing = false
  block : l.block = []

theorem Log.Idle.reset {l : Log} (h : l.Idle) :
    ({ l with outstanding := 0, committing := false, block := [] } : Log) = l := by
  rw [← h.outstanding, ← h.committing, ← h.block]

/-- The writes of a transaction with the changes `ws`, where `m` is what the
blocks hold before it. -/
def Log.transactionWrites (l : Log) (ws : List (BlockId × Block)) (m : BlockId → Block) :
    List (BlockId × Block) :=
  if ws = [] then [] else (l.addAll ws).commitWrites (writeAll ws m)

theorem Log.addAll_block_eq_nil {l : Log} {ws : List (BlockId × Block)} (hl : l.block = []) :
    (l.addAll ws).block = [] ↔ ws = [] := by
  constructor
  · intro h
    cases ws with
    | nil => rfl
    | cons w ws =>
      have : w.1.2 ∈ (l.addAll (w :: ws)).block := Log.mem_addAll.2 (.inr (by simp))
      simp [h] at this
  · rintro rfl
    exact hl

/-- `end_op` of the last operation commits. -/
theorem wp_endOp (hout : s.log.outstanding = 1) (hcom : s.log.committing = false) :
    wp endOp Q E s ↔
      wp commit (fun _ s' => Q () { s' with log := { s'.log with committing := false } }) E
        { s with log := { s.log with outstanding := 0, committing := true } } := by
  simp [endOp, setLog, wp_ite, hout, hcom]

/-- A transaction writes all of `transactionWrites`, or a prefix where it fails. -/
theorem wp_transaction {ops : List BlockOp} {l : Log} {m : BlockId → Block} (h : StoreRep s v)
    (hl : v.log = l) (hm : v.block = m) (hheld : v.held = []) (hidle : l.Idle)
    (hdev : ∀ op ∈ ops, op.dev = 1 ∨ op.dev = 2) (home : ∀ w ∈ changes ops, ¬l.Area (l.dev, w.1.2))
    (ok : (l.addAll (changes ops)).Bounded →
      ∀ s', StoreRep s'
      ((((v.pinList (changes ops)).writeList (l.transactionWrites (changes ops) m))).withLog l) →
      Q () s')
    (failed : ∀ e s', s'.disk = v.disk → s'.writes = v.writes → E e s')
    (stalled : (l.addAll (changes ops)).Bounded → changes ops ≠ [] →
      ∀ e s' k, s'.disk = writeAll ((l.transactionWrites (changes ops) m).take k) v.disk →
      s'.writes = v.writes ++ (l.transactionWrites (changes ops) m).take k → E e s') :
    wp (transaction ops) Q E s := by
  have hbegin : beginOp s = (.ok (), { s with log := { l with outstanding := 1 } }) := by
    simp [beginOp, setLog, bind_apply, h.log, hl, hidle.committing, hidle.outstanding, Log.n,
      hidle.block, MAXOPBLOCKS, LOGSIZE]
  rw [transaction, wp_bind, wp_of_ok hbegin, wp_bind]
  refine wp_blockOps (h.setLog { l with outstanding := 1 }) hheld hdev ?_
    (fun s1 h1 hbound => ?_) failed
  · exact ⟨by simp [Log.n, hidle.block], .inl hidle.block, by simp [hidle.block]⟩
  rw [View.pinList_withLog] at h1 hbound
  generalize hws : changes ops = ws at *
  replace hbound : (l.addAll ws).Bounded := ⟨hbound.le, hbound.slots, hbound.lt⟩
  have hlog1 := h1.log
  rw [View.withLog_log] at hlog1
  rw [wp_endOp (by rw [hlog1]; rfl) (by rw [hlog1]; exact hidle.committing), hlog1]
  change wp commit _ E { s1 with log := { l.addAll ws with outstanding := 0, committing := true } }
  generalize hl2 : ({ l.addAll ws with outstanding := 0, committing := true } : Log) = l2
  have h2 := h1.setLog l2
  rw [View.withLog_withLog] at h2
  have hlast : ({ l2 with committing := false, block := [] } : Log) = l := by
    subst hl2
    exact hidle.reset
  by_cases hnil : ws = []
  · have hblock : l2.block = [] := by rw [← hl2]; exact (Log.addAll_block_eq_nil hidle.block).2 hnil
    refine wp_commit_nil h2 hblock (ok hbound _ ?_)
    rw [Log.transactionWrites, if_pos hnil, View.writeList_nil]
    have h3 := h2.setLog { l2 with committing := false }
    rw [View.withLog_withLog] at h3
    rwa [← hlast, ← hblock]
  · have hW : l.transactionWrites ws m = l2.commitWrites (writeAll ws m) := by
      rw [Log.transactionWrites, if_neg hnil, ← hl2]
      rfl
    have hblock : l2.block ≠ [] := by
      rw [← hl2]; exact mt (Log.addAll_block_eq_nil hidle.block).1 hnil
    have hfit : l2.Fits := by
      subst hl2
      refine ⟨hidle.dev, hbound.slots.resolve_left hblock, fun b hb => ?_⟩
      rcases Log.mem_addAll.1 hb with hb | hb
      · simp [hidle.block] at hb
      · obtain ⟨w, hw, rfl⟩ := List.mem_map.1 hb
        exact home w hw
    have hm2 : ((v.pinList ws).withLog l2).block = writeAll ws m := by
      rw [View.withLog_block, View.pinList_block, hm]
    refine wp_commit (l := l2) h2 rfl hm2 (by simpa using hheld) hfit
      (List.length_pos_iff.2 hblock) (fun s3 h3 => ok hbound _ ?_) fun e s' hs => ?_
    · rw [hW]
      have h4 := h3.setLog { l2 with committing := false, block := [] }
      rw [View.withLog_withLog, View.writeList_withLog, View.withLog_withLog, hlast] at h4
      rw [h3.log]
      change StoreRep { s3 with log := { l2 with committing := false, block := [] } } _
      rwa [hlast]
    · obtain ⟨k, hdisk, hwrites, -⟩ := hs.of_withLog
      refine stalled hbound hnil e s' k ?_ ?_
      · rw [hW, hdisk, View.pinList_disk]
      · rw [hW, hwrites, View.pinList_writes]

end Xv6Rework
