import Xv6Rework.Fs.Process
import Xv6Rework.Lib.Frame

/-!
# What the functions of the file system leave alone

Most of `fs.c` only reads and changes blocks and the copies of disk inodes.  Such a
function is *quiet*: it leaves the tables, the reference counts, the locks and the
identities of inodes as they are, and makes no call that the record notes except
`log_write`.  Nothing is assumed of the state it starts from.
-/

namespace Xv6Rework

open Prog

/-! ## The block layer -/

/-- The log record without the blocks it has logged. -/
def Store.logFrame (s : Store) : Log := { s.log with block := [] }

section

variable {α : Type} {b : Fin NBUF} {dev blockno : Nat}

theorem iderw_keeps_log : Keeps (Same Store.log) (iderw b dev) := by
  refine .bind .gets fun x => .ite .halt (.ite .halt (.ite (.ite .halt ?_) (.ite .stop .pure)))
  exact .update fun s => s.transfer_log b

theorem acquiresleep_keeps_log : Keeps (Same Store.log) (acquiresleep b) :=
  .bind .gets fun _ => .ite .stop (.update fun _ => rfl)

theorem bget_keeps_log : Keeps (Same Store.log) (bget dev blockno) := by
  refine .bind .gets fun r => ?_
  split
  · exact .bind (.update fun _ => rfl) fun _ => .bind acquiresleep_keeps_log fun _ => .pure
  · refine .bind .gets fun r => ?_
    split
    · exact .bind (.update fun _ => rfl) fun _ => .bind acquiresleep_keeps_log fun _ => .pure
    · exact .halt

theorem bread_keeps_log : Keeps (Same Store.log) (bread dev blockno) :=
  .bind bget_keeps_log fun _ => .bind .gets fun _ =>
    .ite (.bind iderw_keeps_log fun _ => .pure) .pure

theorem bwrite_keeps_log : Keeps (Same Store.log) (bwrite b) :=
  .bind .gets fun _ => .ite .halt (.bind (.update fun _ => rfl) fun _ =>
    .bind .gets fun _ => iderw_keeps_log)

theorem brelse_keeps_log : Keeps (Same Store.log) (brelse b) :=
  .bind .gets fun _ => .ite .halt (.bind (.update fun _ => rfl) fun _ =>
    .bind .gets fun _ => .ite (.update fun _ => rfl) .pure)

theorem keeps_logFrame {x : StoreM α} (h : Keeps (Same Store.log) x) :
    Keeps (Same Store.logFrame) x :=
  h.mono fun s s' (h : s'.log = s.log) => show s'.logFrame = s.logFrame by
    rw [Store.logFrame, Store.logFrame, h]

theorem logWrite_keeps_logFrame : Keeps (Same Store.logFrame) (logWrite b) :=
  .bind .gets fun _ => .ite .halt (.ite .halt (.bind .gets fun _ =>
    .bind (.update fun _ => rfl) fun _ => .update fun _ => rfl))

theorem writeHead_keeps_log : Keeps (Same Store.log) writeHead :=
  .bind .gets fun _ => .bind bread_keeps_log fun _ => .bind (.update fun _ => rfl) fun _ =>
    .bind bwrite_keeps_log fun _ => brelse_keeps_log

theorem installTrans_keeps_log : Keeps (Same Store.log) installTrans :=
  .bind .gets fun _ => .forM fun _ => .bind .gets fun _ => .bind bread_keeps_log fun _ =>
    .bind bread_keeps_log fun _ => .bind (.update fun _ => rfl) fun _ =>
    .bind bwrite_keeps_log fun _ => .bind brelse_keeps_log fun _ => brelse_keeps_log

theorem writeLog_keeps_log : Keeps (Same Store.log) writeLog :=
  .bind .gets fun _ => .forM fun _ => .bind .gets fun _ => .bind bread_keeps_log fun _ =>
    .bind bread_keeps_log fun _ => .bind (.update fun _ => rfl) fun _ =>
    .bind bwrite_keeps_log fun _ => .bind brelse_keeps_log fun _ => brelse_keeps_log

theorem commit_keeps_logFrame : Keeps (Same Store.logFrame) commit :=
  .bind .gets fun _ => .ite
    (.bind (keeps_logFrame writeLog_keeps_log) fun _ => .bind (keeps_logFrame writeHead_keeps_log)
      fun _ =>
      .bind (keeps_logFrame installTrans_keeps_log) fun _ => .bind (.update fun _ => rfl) fun _ =>
      (keeps_logFrame writeHead_keeps_log))
    .pure

/-- `begin_op` adds one to `outstanding`. -/
theorem beginOp_logFrame :
    Keeps (fun s s' : Store =>
      s'.logFrame = { s.logFrame with outstanding := s.log.outstanding + 1 }) beginOp := by
  intro s a s' h
  obtain ⟨log, t, ⟨⟩, h⟩ := bind_eq_ok h
  split at h
  · cases h
  · split at h <;> cases h
    rfl

/-- `end_op` subtracts one. -/
theorem endOp_logFrame :
    Keeps (fun s s' : Store =>
      s'.logFrame = { s.logFrame with outstanding := s.log.outstanding - 1 }) endOp := by
  intro s a s' h
  obtain ⟨_, t, ⟨⟩, h⟩ := bind_eq_ok h
  obtain ⟨committing, t, ⟨⟩, h⟩ := bind_eq_ok h
  split at h
  · cases h
  · next hcom =>
    obtain ⟨outstanding, t, ⟨⟩, h⟩ := bind_eq_ok h
    split at h
    · obtain ⟨_, t, ⟨⟩, h⟩ := bind_eq_ok h
      obtain ⟨_, t, ht, ⟨⟩⟩ := bind_eq_ok h
      have hframe : t.logFrame = { s.logFrame with
          outstanding := s.log.outstanding - 1, committing := true } :=
        commit_keeps_logFrame _ _ _ ht
      have hcom : s.log.committing = false := by simpa using hcom
      change ({ t.logFrame with committing := false } : Log) = { s.logFrame with
        outstanding := s.log.outstanding - 1, committing := s.log.committing }
      rw [hframe, hcom]
    · cases h
      rfl

end

namespace Fs

/-! ## Quiet functions -/

/-- An inode without the copy of what is on disk. -/
def frame (x : Inode) : Inode := { x with toDinode := Dinode.zero }

/-- What a quiet function may do. -/
structure Quiet (s s' : Fs) : Prop where
  tables : s'.toTables = s.toTables
  inode : ∀ ip, frame (s'.inode ip) = frame (s.inode ip)
  log : s'.store.logFrame = s.store.logFrame
  trace : ∃ n, s'.trace = s.trace ++ List.replicate n .logWrite

instance : IsPreorder Fs Quiet where
  refl _ := ⟨rfl, fun _ => rfl, rfl, 0, by simp⟩
  trans _ _ _ h h' := by
    obtain ⟨n, hn⟩ := h.trace
    obtain ⟨n', hn'⟩ := h'.trace
    refine ⟨h'.tables.trans h.tables, fun ip => (h'.inode ip).trans (h.inode ip),
      h'.log.trans h.log, n + n', ?_⟩
    rw [hn', hn, List.append_assoc, List.replicate_append_replicate]

section

variable {α : Type} {bp : Fin NBUF} {dev blockno : Nat} {ip : Slot}

theorem lift_quiet {x : StoreM α} (h : Keeps (Same Store.logFrame) x) : Keeps Quiet (lift x) := by
  intro s a s' hs'
  simp only [lift, Prod.mk.injEq] at hs'
  obtain ⟨ha, rfl⟩ := hs'
  exact ⟨rfl, fun _ => rfl, h s.store a _ (Prod.ext ha rfl), 0, by simp⟩

theorem bread_quiet : Keeps Quiet (bread dev blockno) := lift_quiet (keeps_logFrame bread_keeps_log)

theorem brelse_quiet : Keeps Quiet (brelse bp) := lift_quiet (keeps_logFrame brelse_keeps_log)

theorem modifyData_quiet {f : Block → Block} : Keeps Quiet (modifyData bp f) :=
  lift_quiet (.update fun _ => rfl)

theorem logWrite_quiet : Keeps Quiet (logWrite bp) :=
  .bind (.update fun _ => ⟨rfl, fun _ => rfl, rfl, 1, rfl⟩) fun _ =>
    lift_quiet logWrite_keeps_logFrame

/-- A store to the copy of what is on disk. -/
theorem setInode_quiet {f : Inode → Inode} (h : ∀ x, frame (f x) = frame x) :
    Keeps Quiet (setInode ip f) := by
  refine .update fun s => ⟨rfl, fun ip' => ?_, rfl, 0, by simp⟩
  by_cases hip : ip' = ip
  · subst hip
    simp [h]
  · simp [Function.update_of_ne hip]

theorem bzero_quiet : Keeps Quiet (bzero dev blockno) :=
  .bind bread_quiet fun _ => .bind modifyData_quiet fun _ => .bind logWrite_quiet
    fun _ => brelse_quiet

theorem ballocLoop_quiet {sb : Superblock} {k b : Nat} : Keeps Quiet (ballocLoop dev sb k b) := by
  induction k generalizing b with
  | zero => exact .halt
  | succ k ih =>
    refine .ite (.bind bread_quiet fun _ => .bind .gets fun _ => ?_) .halt
    split
    · exact .bind modifyData_quiet fun _ => .bind logWrite_quiet fun _ =>
        .bind brelse_quiet fun _ =>
        .bind bzero_quiet fun _ => .pure
    · exact .bind brelse_quiet fun _ => ih

theorem balloc_quiet : Keeps Quiet (balloc dev) := .bind .gets fun _ => ballocLoop_quiet

theorem bfree_quiet {b : Nat} : Keeps Quiet (bfree dev b) :=
  .bind .gets fun _ => .bind bread_quiet fun _ => .bind .gets fun _ => .ite .halt
    (.bind modifyData_quiet fun _ => .bind logWrite_quiet fun _ => brelse_quiet)

theorem iupdate_quiet : Keeps Quiet (iupdate ip) :=
  .bind .gets fun _ => .ite .pure (.bind .gets fun _ => .bind bread_quiet fun _ =>
    .bind modifyData_quiet fun _ => .bind logWrite_quiet fun _ => brelse_quiet)

theorem itruncDirect_quiet {i : Nat} : Keeps Quiet (itruncDirect ip i) :=
  .bind .gets fun _ => .ite (.bind bfree_quiet fun _ => setInode_quiet fun _ => rfl) .pure

theorem itruncIndirect_quiet {j : Nat} : Keeps Quiet (itruncIndirect dev bp j) :=
  .bind .gets fun _ => .ite bfree_quiet .pure

theorem itrunc_quiet : Keeps Quiet (itrunc ip) := by
  have hend : Keeps Quiet (setInode ip (fun x => { x with size := 0 }) >>= fun _ => iupdate ip) :=
    .bind (setInode_quiet fun _ => rfl) fun _ => iupdate_quiet
  refine .bind (.forM fun _ => itruncDirect_quiet) fun _ => .bind .gets fun _ => .ite ?_ hend
  exact .bind bread_quiet fun _ => .bind (.forM fun _ => itruncIndirect_quiet) fun _ =>
    .bind brelse_quiet fun _ =>
    .bind bfree_quiet fun _ => .bind (setInode_quiet fun _ => rfl) fun _ => hend

theorem bmapAddr_quiet {i : Nat} : Keeps Quiet (bmapAddr ip i) :=
  .bind .gets fun _ => .ite (.bind balloc_quiet fun _ => .bind (setInode_quiet fun _ => rfl)
    fun _ => .pure) .pure

theorem bmapIndirect_quiet {addr i : Nat} : Keeps Quiet (bmapIndirect dev addr i) :=
  .bind bread_quiet fun _ => .bind .gets fun _ => .ite
    (.bind balloc_quiet fun _ => .bind modifyData_quiet fun _ => .bind logWrite_quiet fun _ =>
      .bind brelse_quiet fun _ => .pure)
    (.bind brelse_quiet fun _ => .pure)

theorem bmap_quiet {bn : Nat} : Keeps Quiet (bmap ip bn) :=
  .ite bmapAddr_quiet (.ite (.bind bmapAddr_quiet fun _ => .bind .gets fun _ => bmapIndirect_quiet)
    .halt)

theorem readLoop_quiet {k off n : Nat} : Keeps Quiet (readLoop ip k off n) := by
  induction k generalizing off n with
  | zero => exact .pure
  | succ k ih =>
    exact .ite .pure (.bind bmap_quiet fun _ => .bind .gets fun _ => .bind bread_quiet fun _ =>
      .bind .gets fun _ => .bind brelse_quiet fun _ => .bind ih fun _ => .pure)

theorem writeLoop_quiet {k off n : Nat} {src : Nat → UInt8} :
    Keeps Quiet (writeLoop ip k src off n) := by
  induction k generalizing off n src with
  | zero => exact .pure
  | succ k ih =>
    exact .ite .pure (.bind bmap_quiet fun _ => .bind .gets fun _ => .bind bread_quiet fun _ =>
      .bind modifyData_quiet fun _ => .bind logWrite_quiet fun _ => .bind brelse_quiet fun _ => ih)

theorem grow_quiet {n : UInt32} {off : Nat} : Keeps Quiet (grow ip n off) :=
  .bind .gets fun _ => .ite (.bind (setInode_quiet fun _ => rfl) fun _ => iupdate_quiet) .pure

end

end Fs

end Xv6Rework
