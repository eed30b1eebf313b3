import Xv6Rework.Fs.Effects
import Xv6Rework.Fs.Mkfs

/-!
# Transactions are bracketed

A call of the file system opens and closes its transactions itself: when it returns,
`log.outstanding` is what it was, and each `log_write` and `iput` has been made while
an operation that the call itself began was open.

The main result says for which calls this is so: for all of them, from any state and
with any arguments, except for two.  `mount` returns without `end_op` where it refuses
the device, and `unmount` on every path but one.
-/

namespace Xv6Rework

open Prog

/-! ## Depth -/

/-- The number of open operations after an event, if the event may happen: to close
an operation, or to use one, takes one that is open. -/
def Event.depth : Nat → Event → Option Nat
  | d, .beginOp => some (d + 1)
  | d, .crossMount => some d
  | 0, _ => none
  | d + 1, .endOp => some d
  | d + 1, _ => some (d + 1)

/-- Each use of a transaction comes while an operation is open. -/
def Covered (t : List Event) : Prop :=
  ∀ t1 e t2, t = t1 ++ e :: t2 → (e = .logWrite ∨ ∃ ip ref, e = .iput ip ref) →
    t1.count .endOp < t1.count .beginOp

/-- Depth counts the operations begun and not ended. -/
theorem foldlM_depth {t : List Event} {d d' : Nat} (h : t.foldlM Event.depth d = some d') :
    d' + t.count .endOp = d + t.count .beginOp := by
  induction t generalizing d with
  | nil =>
    obtain rfl := Option.some.inj h
    rfl
  | cons e t ih =>
    rw [List.foldlM_cons] at h
    obtain ⟨d1, hd1, h⟩ := Option.bind_eq_some_iff.1 h
    have := ih h
    rcases d with _ | d <;> cases e <;> simp [Event.depth] at hd1 <;> subst hd1 <;> simp <;> omega

theorem covered_of_depth {t : List Event} {d' : Nat} (h : t.foldlM Event.depth 0 = some d') :
    Covered t := by
  rintro t1 e t2 rfl he
  rw [List.foldlM_append] at h
  obtain ⟨d, hd, h⟩ := Option.bind_eq_some_iff.1 h
  have hcount := foldlM_depth hd
  have hpos : 0 < d := by
    rcases d with _ | d
    · rcases he with rfl | ⟨ip, ref, rfl⟩ <;> simp [Event.depth] at h
    · omega
  omega

namespace Fs

/-- A run from depth `d` to depth `d'`, with `log.outstanding` in step. -/
structure Brackets (d d' : Nat) (s s' : Fs) : Prop where
  outstanding : s'.store.log.outstanding + d = s.store.log.outstanding + d'
  trace : ∃ t, s'.trace = s.trace ++ t ∧ t.foldlM Event.depth d = some d'

/-- What may happen while an operation is open, and leaves it open. -/
def Inside (s s' : Fs) : Prop := ∀ d, Brackets (d + 1) (d + 1) s s'

/-- The calls of a file system call are bracketed. -/
structure Bracketed (s s' : Fs) : Prop where
  outstanding : s'.store.log.outstanding = s.store.log.outstanding
  covered : ∃ t, s'.trace = s.trace ++ t ∧ Covered t

section

variable {d d1 d2 : Nat} {s t u : Fs}

theorem Brackets.refl : Brackets d d s s := ⟨rfl, [], by simp, rfl⟩

theorem Brackets.trans (h : Brackets d d1 s t) (h' : Brackets d1 d2 t u) : Brackets d d2 s u := by
  obtain ⟨l, hl, hd⟩ := h.trace
  obtain ⟨l', hl', hd'⟩ := h'.trace
  refine ⟨?_, l ++ l', by rw [hl', hl, List.append_assoc], ?_⟩
  · have := h.outstanding
    have := h'.outstanding
    omega
  · rw [List.foldlM_append, hd]
    exact hd'

theorem Brackets.bracketed (h : Brackets 0 0 s t) : Bracketed s t := by
  obtain ⟨l, hl, hd⟩ := h.trace
  exact ⟨by simpa using h.outstanding, l, hl, covered_of_depth hd⟩

instance : IsPreorder Fs Inside where
  refl _ _ := .refl
  trans _ _ _ h h' d := (h d).trans (h' d)

/-- Nothing that matters happens. -/
theorem Brackets.silent (htrace : t.trace = s.trace) (hstore : t.store = s.store) :
    Brackets d d s t :=
  ⟨by rw [hstore], [], by simp [htrace], rfl⟩

theorem Quiet.inside (h : Quiet s t) : Inside s t := by
  intro d
  obtain ⟨n, hn⟩ := h.trace
  have hlog : t.store.logFrame.outstanding = s.store.logFrame.outstanding := by rw [h.log]
  refine ⟨congrArg (· + _) hlog, _, hn, ?_⟩
  clear hn
  induction n with
  | zero => rfl
  | succ n ih =>
    rw [List.replicate_succ, List.foldlM_cons]
    exact ih

end

/-! ## The rules -/

section

variable {α β : Type} {d d1 d2 : Nat} {x : FsM α} {f : α → FsM β}

/-- Sequencing. -/
theorem brackets_bind (hx : Keeps (Brackets d d1) x) (hf : ∀ a, Keeps (Brackets d1 d2) (f a)) :
    Keeps (Brackets d d2) (x >>= f) := by
  intro s b s' h
  obtain ⟨a, t, ht, hs'⟩ := bind_eq_ok h
  exact (hx s a t ht).trans (hf a t b s' hs')

theorem brackets_pure {a : α} : Keeps (Brackets d d) (pure a : FsM α) := by
  rintro s b s' ⟨⟩
  exact .refl

theorem brackets_gets {f : Fs → α} : Keeps (Brackets d d) (gets f) := by
  rintro s b s' ⟨⟩
  exact .refl

theorem brackets_update {f : Fs → Fs} (htrace : ∀ s, (f s).trace = s.trace)
    (hstore : ∀ s, (f s).store = s.store) : Keeps (Brackets d d) (update f) :=
  .update fun s => .silent (htrace s) (hstore s)

/-- Code that runs inside an operation. -/
theorem brackets_inside (h : Keeps Inside x) : Keeps (Brackets (d + 1) (d + 1)) x :=
  h.mono fun _ _ h => h d

theorem beginOp_brackets : Keeps (Brackets d (d + 1)) beginOp := by
  intro s a s' h
  obtain ⟨_, t, ht, ⟨⟩⟩ := bind_eq_ok h
  simp only [lift, Prod.mk.injEq] at ht
  obtain ⟨ha, rfl⟩ := ht
  have hlog := congrArg Log.outstanding (beginOp_logFrame s.store () _ (Prod.ext ha rfl))
  change (Xv6Rework.beginOp s.store).2.log.outstanding = s.store.log.outstanding + 1 at hlog
  refine ⟨?_, [.beginOp], rfl, rfl⟩
  rw [hlog]
  push_cast
  omega

theorem endOp_brackets : Keeps (Brackets (d + 1) d) endOp := by
  intro s a s' h
  obtain ⟨_, t, ⟨⟩, h⟩ := bind_eq_ok h
  simp only [lift, Prod.mk.injEq] at h
  obtain ⟨ha, rfl⟩ := h
  have hlog := congrArg Log.outstanding (endOp_logFrame s.store () _ (Prod.ext ha rfl))
  change (Xv6Rework.endOp s.store).2.log.outstanding = s.store.log.outstanding - 1 at hlog
  refine ⟨?_, [.endOp], rfl, rfl⟩
  rw [hlog]
  push_cast
  omega

/-- Code that runs inside an operation, and what comes after it. -/
theorem brackets_within (hx : Keeps Inside x) (hf : ∀ a, Keeps (Brackets (d + 1) d2) (f a)) :
    Keeps (Brackets (d + 1) d2) (x >>= f) :=
  brackets_bind (brackets_inside hx) hf

/-- The last `end_op` before a return. -/
theorem brackets_return {a : β} : Keeps (Brackets (d + 1) d) (endOp >>= fun _ => pure a) :=
  brackets_bind endOp_brackets fun _ => brackets_pure

end

/-! ## Inside an operation -/

section

variable {α : Type} {ip dp : Slot} {p : PId} {dev : Nat}

theorem inside_of_quiet {x : FsM α} (h : Keeps Quiet x) : Keeps Inside x :=
  h.mono fun _ _ => Quiet.inside

theorem setInode_inside {f : Inode → Inode} : Keeps Inside (setInode ip f) :=
  .update fun _ _ => .silent rfl rfl

theorem setProc_inside {f : FsProc → FsProc} : Keeps Inside (setProc p f) :=
  .update fun _ _ => .silent rfl rfl

theorem deref_inside {a : Option α} : Keeps Inside (deref a) := by
  cases a with
  | none => exact .halt
  | some a => exact .pure

theorem cwd_inside : Keeps Inside (cwd p) := .bind .gets fun _ => deref_inside

theorem iget_inside {inum : Nat} : Keeps Inside (iget dev inum) := by
  refine .bind .gets fun r => ?_
  split
  · exact .bind setInode_inside fun _ => .pure
  · refine .bind .gets fun r => ?_
    split
    · exact .bind setInode_inside fun _ => .pure
    · exact .halt

theorem ialloc_inside {type : Nat} : Keeps Inside (ialloc dev type) := by
  have hloop : ∀ sb k inum, Keeps Inside (iallocLoop dev sb type k inum) := by
    intro sb k
    induction k with
    | zero => exact fun _ => .halt
    | succ k ih =>
      refine fun inum => .bind (inside_of_quiet bread_quiet) fun _ => .bind .gets
        fun _ => .ite ?_ ?_
      · refine .bind (inside_of_quiet modifyData_quiet) fun _ => ?_
        refine .bind (inside_of_quiet logWrite_quiet) fun _ => ?_
        exact .bind (inside_of_quiet brelse_quiet) fun _ => iget_inside
      · exact .bind (inside_of_quiet brelse_quiet) fun _ => ih _
  exact .bind .gets fun _ => hloop _ _ _

theorem iupdate_inside : Keeps Inside (iupdate ip) := inside_of_quiet iupdate_quiet

theorem idup_inside : Keeps Inside (idup ip) := .bind setInode_inside fun _ => .pure

theorem acquiresleep_inside : Keeps Inside (acquiresleep ip) :=
  .bind .gets fun _ => .ite .stop setInode_inside

theorem ilock_inside : Keeps Inside (ilock ip) := by
  refine .bind .gets fun _ => .ite .halt (.bind acquiresleep_inside fun _ => ?_)
  refine .bind .gets fun _ => .ite (.bind .gets fun _ => ?_) .pure
  refine .bind (inside_of_quiet bread_quiet) fun _ => .bind .gets fun _ => ?_
  refine .bind setInode_inside fun _ => .bind (inside_of_quiet brelse_quiet) fun _ => ?_
  exact .bind setInode_inside fun _ => .ite .halt .pure

theorem iunlock_inside : Keeps Inside (iunlock ip) :=
  .bind .gets fun _ => .ite .halt setInode_inside

theorem iput_inside : Keeps Inside (iput ip) := by
  have hrecord : ∀ ref, Keeps Inside (record (.iput ip ref)) := fun ref =>
    .update fun _ _ => ⟨rfl, [.iput ip ref], rfl, rfl⟩
  have hfree : Keeps Inside (ifree ip) := by
    refine .bind (inside_of_quiet itrunc_quiet) fun _ => .bind setInode_inside fun _ => ?_
    exact .bind iupdate_inside fun _ => setInode_inside
  have hend : Keeps Inside (releasesleep ip >>= fun _ =>
      setInode ip fun x => { x with ref := x.ref - 1 }) :=
    .bind setInode_inside fun _ => setInode_inside
  refine .bind .gets fun ref => .bind (hrecord ref) fun _ => .bind acquiresleep_inside fun _ => ?_
  exact .bind .gets fun _ => .ite (.bind hfree fun _ => hend) hend

theorem iunlockput_inside : Keeps Inside (iunlockput ip) :=
  .bind iunlock_inside fun _ => iput_inside

theorem await_inside : Keeps Inside await := by
  refine .bind .gets fun io => ?_
  split
  · exact .stop
  · exact .bind (.update fun _ _ => .silent rfl rfl) fun _ => .pure

theorem readi_inside {off n : UInt32} : Keeps Inside (readi ip off n) := by
  have hconsole : ∀ n, Keeps Inside (consoleread ip n) := by
    refine fun n => .bind iunlock_inside fun _ => .ite (.bind await_inside fun r => ?_) ?_
    · refine .bind ilock_inside fun _ => ?_
      split <;> exact .pure
    · exact .bind ilock_inside fun _ => .pure
  refine .bind .gets fun _ => .ite (.ite .pure (hconsole _)) (.ite .pure ?_)
  exact .bind (inside_of_quiet readLoop_quiet) fun _ => .pure

theorem writei_inside {src : Nat → UInt8} {off n : UInt32} :
    Keeps Inside (writei ip src off n) := by
  have hconsole : ∀ n, Keeps Inside (consolewrite ip n) := fun n =>
    .bind iunlock_inside fun _ => .bind ilock_inside fun _ => .pure
  refine .bind .gets fun _ => .ite (.ite .pure (hconsole _)) (.ite .pure (.ite .pure ?_))
  exact .bind (inside_of_quiet writeLoop_quiet) fun _ => .bind (inside_of_quiet grow_quiet)
    fun _ => .pure

theorem readDirent_inside {off : Nat} {msg : String} : Keeps Inside (readDirent dp off msg) :=
  .bind readi_inside fun _ => .ite .halt .pure

theorem mounted_inside : Keeps Inside (mounted dp) :=
  .bind .gets fun _ => .ite (.bind .gets fun _ => deref_inside) .pure

theorem dirscan_inside {name : List UInt8} : Keeps Inside (dirscan dp name) := by
  have hloop : ∀ dp k off, Keeps Inside (dirlookupLoop dp name k off) := by
    intro dp k
    induction k with
    | zero => exact fun _ => .stop
    | succ k ih =>
      refine fun off => .bind .gets fun _ => .ite ?_ .pure
      exact .bind readDirent_inside fun _ => .ite (ih _) (.ite .pure (ih _))
  refine .bind .gets fun _ => .ite .halt (.bind (hloop _ _ _) fun r => ?_)
  split
  · exact .pure
  · exact .bind iget_inside fun _ => .pure

theorem dirlookup_inside {name : List UInt8} {leavingMount : Bool} :
    Keeps Inside (dirlookup dp name leavingMount) :=
  .ite dirscan_inside (.bind mounted_inside fun _ => dirscan_inside)

theorem dirlink_inside {name : List UInt8} {inum : Nat} : Keeps Inside (dirlink dp name inum) := by
  have hloop : ∀ dp k off, Keeps Inside (dirlinkLoop dp k off) := by
    intro dp k
    induction k with
    | zero => exact fun _ => .stop
    | succ k ih =>
      exact fun off => .bind .gets fun _ => .ite (.bind readDirent_inside fun _ => .ite .pure
        (ih _)) .pure
  refine .bind mounted_inside fun dp => .bind dirlookup_inside fun r => ?_
  split
  · exact .bind iput_inside fun _ => .pure
  · refine .bind .gets fun _ => .bind (hloop _ _ _) fun _ => .bind setInode_inside fun _ => ?_
    exact .bind writei_inside fun _ => .ite .halt (.bind iupdate_inside fun _ => .pure)

theorem crossMount_inside {parent : Bool} : Keeps Inside (crossMount parent ip) := by
  refine .bind .gets fun _ => .ite (.bind .gets fun _ => .bind deref_inside fun _ => ?_) .pure
  exact .bind (.update fun _ _ => ⟨rfl, [.crossMount], rfl, rfl⟩) fun _ => idup_inside

theorem namexLoop_inside {parent : Bool} {k : Nat} {path : List UInt8} :
    Keeps Inside (namexLoop parent k ip path) := by
  induction k generalizing ip path with
  | zero => exact .stop
  | succ k ih =>
    unfold namexLoop
    split
    · exact .ite (.bind iput_inside fun _ => .pure) .pure
    · refine .bind ilock_inside fun _ => .bind .gets fun _ => .ite ?_ (.ite ?_ ?_)
      · exact .bind iunlockput_inside fun _ => .pure
      · exact .bind iunlock_inside fun _ => .pure
      · refine .bind dirlookup_inside fun r => ?_
        split
        · exact .bind iunlockput_inside fun _ => .pure
        · exact .bind crossMount_inside fun _ => .bind iunlockput_inside fun _ => ih

theorem namex_inside {path : List UInt8} {parent : Bool} : Keeps Inside (namex p dev path parent) :=
  .bind (.ite iget_inside (.bind cwd_inside fun _ => idup_inside)) fun _ => namexLoop_inside

theorem namei_inside {path : List UInt8} : Keeps Inside (namei p dev path) := by
  have hleave : Keeps Inside (leaveMount p) := by
    refine .bind cwd_inside fun _ => .bind .gets fun _ => .bind setProc_inside fun _ => ?_
    refine .bind iput_inside fun _ => .bind namex_inside fun _ => .bind setProc_inside fun _ => ?_
    exact .bind iput_inside fun _ => .pure
  refine .bind (.ite (.bind cwd_inside fun _ => .gets) .pure) fun _ => .bind .gets fun _ => ?_
  exact .ite hleave (.bind namex_inside fun _ => .pure)

end

/-! ## The calls -/

section

variable {p : PId} {ip dp : Slot} {d : Nat} {path : List UInt8}

theorem setFile_brackets {f : Fin NFILE} {g : File → File} : Keeps (Brackets d d) (setFile f g) :=
  brackets_update (fun _ => rfl) fun _ => rfl

theorem setProc_brackets {g : FsProc → FsProc} : Keeps (Brackets d d) (setProc p g) :=
  brackets_update (fun _ => rfl) fun _ => rfl

theorem fileclose_brackets {f : Fin NFILE} : Keeps (Brackets d d) (fileclose f) := by
  refine brackets_bind brackets_gets fun _ => .ite .halt
    (brackets_bind setFile_brackets fun _ => ?_)
  refine brackets_bind brackets_gets fun _ => .ite brackets_pure ?_
  refine brackets_bind setFile_brackets fun _ => .ite ?_ brackets_pure
  refine brackets_bind beginOp_brackets fun _ => brackets_within deref_inside fun _ => ?_
  exact brackets_within iput_inside fun _ => endOp_brackets

theorem ilockFile_inside {f : Fin NFILE} : Keeps Inside (ilockFile f) := by
  refine .bind .gets fun r => ?_
  split
  · exact .halt
  · exact .bind ilock_inside fun _ => .pure

theorem advance_inside {f : Fin NFILE} {r : Int} : Keeps Inside (advance f r) :=
  .ite (.update fun _ _ => .silent rfl rfl) .pure

theorem filewriteRound_brackets {f : Fin NFILE} {src : Nat → UInt8} {n : Nat} :
    Keeps (Brackets d d) (filewriteRound f src n) := by
  refine brackets_bind beginOp_brackets fun _ => brackets_within ilockFile_inside fun _ => ?_
  refine brackets_within .gets fun _ => brackets_within writei_inside fun _ => ?_
  exact brackets_within advance_inside fun _ => brackets_within iunlock_inside fun _ =>
    brackets_return

theorem filewriteLoop_brackets {f : Fin NFILE} {k : Nat} {src : Nat → UInt8} {n : Nat} :
    Keeps (Brackets d d) (filewriteLoop f k src n) := by
  induction k generalizing src n with
  | zero => exact brackets_pure
  | succ k ih =>
    refine .ite brackets_pure (brackets_bind filewriteRound_brackets fun _ => ?_)
    exact .ite brackets_pure (.ite .halt ih)

theorem await_brackets : Keeps (Brackets d d) await := by
  refine brackets_bind brackets_gets fun io => ?_
  split
  · exact .stop
  · exact brackets_bind (brackets_update (fun _ => rfl) fun _ => rfl) fun _ => brackets_pure

theorem pipewrite_brackets {n : Int} : Keeps (Brackets d d) (pipewrite n) := by
  refine brackets_bind await_brackets fun r => ?_
  split <;> exact brackets_pure

theorem filewrite_brackets {f : Fin NFILE} {src : Nat → UInt8} {n : Int} :
    Keeps (Brackets d d) (filewrite f src n) := by
  refine brackets_bind brackets_gets fun x => .ite brackets_pure ?_
  split
  · exact pipewrite_brackets
  · refine .ite brackets_pure (brackets_bind filewriteLoop_brackets fun _ => ?_)
    exact .ite brackets_pure brackets_pure
  · exact .halt

theorem sysLinkBad_brackets : Keeps (Brackets (d + 1) d) (sysLinkBad ip) := by
  refine brackets_within ilock_inside fun _ => brackets_within setInode_inside fun _ => ?_
  exact brackets_within iupdate_inside fun _ => brackets_within iunlockput_inside fun _ =>
    brackets_return

theorem linkInto_inside {name : List UInt8} : Keeps Inside (linkInto dp ip name) :=
  .bind .gets fun _ => .bind .gets fun _ => .ite .pure (.bind dirlink_inside fun _ => .pure)

theorem sysLinkNew_brackets : Keeps (Brackets (d + 1) d) (sysLinkNew p ip path) := by
  refine brackets_within namex_inside fun r => ?_
  split
  · exact sysLinkBad_brackets
  · refine brackets_within ilock_inside fun _ => brackets_within linkInto_inside fun _ => ?_
    refine brackets_within iunlockput_inside fun _ => .ite ?_ sysLinkBad_brackets
    exact brackets_within iput_inside fun _ => brackets_return

theorem sysLink_brackets {old new : Option (List UInt8)} :
    Keeps (Brackets d d) (sysLink p old new) := by
  unfold sysLink
  split
  · refine brackets_bind beginOp_brackets fun _ => brackets_within namei_inside fun r => ?_
    split
    · exact brackets_return
    · refine brackets_within ilock_inside fun _ => brackets_within .gets fun _ => .ite ?_ ?_
      · exact brackets_within iunlockput_inside fun _ => brackets_return
      · refine brackets_within setInode_inside fun _ => brackets_within iupdate_inside fun _ => ?_
        exact brackets_within iunlock_inside fun _ => sysLinkNew_brackets
  · exact brackets_pure

theorem sysUnlinkBad_brackets : Keeps (Brackets (d + 1) d) (sysUnlinkBad dp) :=
  brackets_within iunlockput_inside fun _ => brackets_return

theorem isFull_inside : Keeps Inside (isFull ip) := by
  have hloop : ∀ k off, Keeps Inside (isdiremptyLoop ip k off) := by
    intro k
    induction k with
    | zero => exact fun _ => .stop
    | succ k ih =>
      exact fun _ => .bind .gets fun _ => .ite (.bind readDirent_inside fun _ => .ite .pure (ih _))
        .pure
  refine .bind .gets fun _ => .ite ?_ .pure
  exact .bind (.bind .gets fun _ => hloop _ _) fun _ => .pure

theorem unlinkEntry_inside {off : Nat} : Keeps Inside (unlinkEntry dp ip off) := by
  refine .bind writei_inside fun _ => .ite .halt (.bind .gets fun _ => .ite ?_ .pure)
  exact .bind setInode_inside fun _ => iupdate_inside

theorem unlinkFound_brackets {off : Nat} : Keeps (Brackets (d + 1) d) (unlinkFound dp ip off) := by
  refine brackets_within ilock_inside fun _ => brackets_within .gets fun _ => .ite .halt ?_
  refine brackets_within isFull_inside fun _ => .ite ?_ ?_
  · exact brackets_within iunlockput_inside fun _ => sysUnlinkBad_brackets
  · refine brackets_within unlinkEntry_inside fun _ => brackets_within iunlockput_inside fun _ => ?_
    refine brackets_within setInode_inside fun _ => brackets_within iupdate_inside fun _ => ?_
    exact brackets_within iunlockput_inside fun _ => brackets_return

theorem sysUnlink_brackets {path : Option (List UInt8)} :
    Keeps (Brackets d d) (sysUnlink p path) := by
  unfold sysUnlink
  split
  · exact brackets_pure
  · refine brackets_bind beginOp_brackets fun _ => brackets_within namex_inside fun r => ?_
    split
    · exact brackets_return
    · refine brackets_within ilock_inside fun _ => .ite sysUnlinkBad_brackets ?_
      refine brackets_within dirlookup_inside fun r => ?_
      split
      · exact sysUnlinkBad_brackets
      · exact unlinkFound_brackets

theorem createDots_inside : Keeps Inside (createDots dp ip) := by
  refine .bind setInode_inside fun _ => .bind iupdate_inside fun _ => .bind .gets fun _ => ?_
  refine .bind dirlink_inside fun _ => .ite .halt (.bind .gets fun _ => ?_)
  exact .bind dirlink_inside fun _ => .ite .halt .pure

theorem createLink_inside {name : List UInt8} : Keeps Inside (createLink dp ip name) :=
  .bind .gets fun _ => .bind dirlink_inside fun _ => .ite .halt
    (.bind iunlockput_inside fun _ => .pure)

theorem createNew_inside {name : List UInt8} {type major minor : Nat} :
    Keeps Inside (createNew dp name type major minor) := by
  refine .bind .gets fun _ => .bind ialloc_inside fun _ => .bind ilock_inside fun _ => ?_
  refine .bind setInode_inside fun _ => .bind iupdate_inside fun _ => .ite ?_ createLink_inside
  exact .bind createDots_inside fun _ => createLink_inside

theorem create_inside {type major minor : Nat} : Keeps Inside (create p path type major minor) := by
  refine .bind namex_inside fun r => ?_
  split
  · exact .pure
  · refine .bind ilock_inside fun _ => .bind dirlookup_inside fun r => ?_
    split
    · refine .bind iunlockput_inside fun _ => .bind ilock_inside fun _ => .bind .gets fun _ => ?_
      exact .ite .pure (.bind iunlockput_inside fun _ => .pure)
    · exact createNew_inside

theorem openInode_inside {omode : BitVec 32} : Keeps Inside (openInode p path omode) := by
  refine .ite create_inside (.bind namei_inside fun r => ?_)
  split
  · exact .pure
  · exact .bind ilock_inside fun _ => .bind .gets fun _ =>
      .ite (.bind iunlockput_inside fun _ => .pure) .pure

theorem filealloc_brackets : Keeps (Brackets d d) filealloc := by
  refine brackets_bind brackets_gets fun r => ?_
  split
  · exact brackets_bind setFile_brackets fun _ => brackets_pure
  · exact brackets_pure

theorem fdalloc_brackets {f : Fin NFILE} : Keeps (Brackets d d) (fdalloc p f) := by
  refine brackets_bind brackets_gets fun r => ?_
  split
  · exact brackets_bind setProc_brackets fun _ => brackets_pure
  · exact brackets_pure

/-- Nothing is assumed of the entry that `filealloc` finds, so that the `fileclose`
here may itself begin and end an operation. -/
theorem openFile_brackets : Keeps (Brackets d d) (openFile p) := by
  refine brackets_bind filealloc_brackets fun r => ?_
  split
  · exact brackets_pure
  · refine brackets_bind fdalloc_brackets fun r => ?_
    split
    · exact brackets_bind fileclose_brackets fun _ => brackets_pure
    · exact brackets_pure

theorem sysOpen_brackets {path : Option (List UInt8)} {omode : Option (BitVec 32)} :
    Keeps (Brackets d d) (sysOpen p path omode) := by
  unfold sysOpen
  split
  · refine brackets_bind beginOp_brackets fun _ => brackets_within openInode_inside fun r => ?_
    split
    · exact brackets_return
    · refine brackets_bind openFile_brackets fun r => ?_
      split
      · exact brackets_within iunlockput_inside fun _ => brackets_return
      · refine brackets_within iunlock_inside fun _ => brackets_bind endOp_brackets fun _ => ?_
        exact brackets_bind setFile_brackets fun _ => brackets_pure
  · exact brackets_pure

theorem sysCreate_brackets {type : Nat} {path : Option (List UInt8)} {dev : Option (Nat × Nat)} :
    Keeps (Brackets d d) (sysCreate p type path dev) := by
  have harg : Keeps Inside (createArg p type path dev) := by
    unfold createArg
    split
    · exact create_inside
    · exact .pure
  refine brackets_bind beginOp_brackets fun _ => brackets_within harg fun r => ?_
  split
  · exact brackets_return
  · exact brackets_within iunlockput_inside fun _ => brackets_return

theorem sysChdir_brackets {path : Option (List UInt8)} :
    Keeps (Brackets d d) (sysChdir p path) := by
  have harg : Keeps Inside (nameiArg p path) := by
    unfold nameiArg
    split
    · exact namei_inside
    · exact .pure
  refine brackets_bind beginOp_brackets fun _ => brackets_within harg fun r => ?_
  split
  · exact brackets_return
  · refine brackets_within ilock_inside fun _ => brackets_within .gets fun _ => .ite ?_ ?_
    · exact brackets_within iunlockput_inside fun _ => brackets_return
    · refine brackets_within iunlock_inside fun _ => brackets_within cwd_inside fun _ => ?_
      refine brackets_within iput_inside fun _ => brackets_bind endOp_brackets fun _ => ?_
      exact brackets_bind setProc_brackets fun _ => brackets_pure

theorem execImage_inside {vm : Vm} : Keeps Inside (execImage vm ip) := by
  have huvm : ∀ ph k i, Keeps Inside (loaduvmLoop vm ip ph k i) := by
    intro ph k
    induction k with
    | zero => exact fun _ => .stop
    | succ k ih =>
      refine fun _ => .ite (.ite .halt ?_) .pure
      exact .bind readi_inside fun _ => .ite .pure (ih _)
  have hload : ∀ k off sz, Keeps Inside (execLoad vm ip k off sz) := by
    intro k
    induction k with
    | zero => exact fun _ _ => .pure
    | succ k ih =>
      refine fun _ _ => .bind readi_inside fun _ => .ite .pure (.ite (ih _ _) ?_)
      refine .ite .pure (.ite .pure (.ite .pure (.ite .pure ?_)))
      exact .bind (huvm _ _ _) fun _ => .ite .pure (ih _ _)
  exact .bind readi_inside fun _ => .ite .pure (.ite .halt (.ite .pure (hload _ _ _)))

theorem exec_brackets {vm : Vm} {argc : Nat} : Keeps (Brackets d d) (exec p vm path argc) := by
  refine brackets_bind beginOp_brackets fun _ => brackets_within namei_inside fun r => ?_
  split
  · exact brackets_return
  · refine brackets_within ilock_inside fun _ => brackets_within execImage_inside fun sz =>
      brackets_within iunlockput_inside fun _ => brackets_bind endOp_brackets fun _ => ?_
    split <;> exact brackets_pure

theorem exit_brackets : Keeps (Brackets d d) (exit p) := by
  have hfile : ∀ fd, Keeps (Brackets d d) (exitFile p fd) := by
    refine fun fd => brackets_bind brackets_gets fun r => ?_
    split
    · exact brackets_pure
    · exact brackets_bind fileclose_brackets fun _ => setProc_brackets
  have hfiles : ∀ l : List (Fin NOFILE), Keeps (Brackets d d) (l.forM (exitFile p)) := by
    intro l
    induction l with
    | nil => exact brackets_pure
    | cons fd l ih => exact brackets_bind (hfile fd) fun _ => ih
  refine brackets_bind brackets_gets fun _ => .ite .halt (brackets_bind (hfiles _) fun _ => ?_)
  refine brackets_bind beginOp_brackets fun _ => brackets_within cwd_inside fun _ => ?_
  refine brackets_within iput_inside fun _ => brackets_bind endOp_brackets fun _ => ?_
  refine brackets_bind setProc_brackets fun _ => ?_
  exact brackets_bind (brackets_update (fun _ => rfl) fun _ => rfl) fun _ => setProc_brackets

/-! ## Mounting -/

theorem releasenonblocking_inside : Keeps Inside releasenonblocking :=
  .update fun _ _ => .silent rfl rfl

theorem acquirenonblockinglock_inside : Keeps Inside acquirenonblockinglock :=
  .bind .gets fun _ => .ite .pure (.bind (.update fun _ _ => .silent rfl rfl) fun _ => .pure)

theorem releasenonblocking_brackets : Keeps (Brackets d d) releasenonblocking :=
  brackets_update (fun _ => rfl) fun _ => rfl

theorem mountOn_brackets {dev : Nat} : Keeps (Brackets (d + 1) d) (mountOn p dev ip) := by
  refine brackets_within .gets fun _ => .ite ?_ (brackets_within namei_inside fun r => ?_)
  · refine brackets_within iput_inside fun _ => brackets_bind endOp_brackets fun _ => ?_
    exact brackets_bind releasenonblocking_brackets fun _ => brackets_pure
  · split
    · exact brackets_within releasenonblocking_inside fun _ => brackets_return
    · refine brackets_within setInode_inside fun _ => ?_
      exact brackets_bind (brackets_update (fun _ => rfl) fun _ => rfl) fun _ => brackets_return

theorem mountNotDir_brackets : Keeps (Brackets (d + 1) d) mountNotDir :=
  brackets_bind endOp_brackets fun _ => brackets_bind releasenonblocking_brackets fun _ =>
    brackets_pure

theorem mountDetour_brackets {dev : Nat} : Keeps (Brackets (d + 1) d) (mountDetour p dev ip) := by
  refine brackets_within .gets fun _ => brackets_within idup_inside fun _ => ?_
  refine brackets_within setProc_inside fun _ => brackets_within .gets fun _ => ?_
  refine brackets_within namei_inside fun r => ?_
  split
  · refine brackets_within .gets fun _ => .ite ?_ ?_
    · refine brackets_within idup_inside fun _ => brackets_within iput_inside fun _ => ?_
      exact brackets_within setProc_inside fun _ => mountOn_brackets
    · refine brackets_within setProc_inside fun _ => ?_
      exact brackets_within iput_inside fun _ => mountNotDir_brackets
  · exact brackets_within setProc_inside fun _ => mountNotDir_brackets

theorem mountPath_brackets {dev : Nat} : Keeps (Brackets (d + 1) d) (mountPath p dev path) := by
  refine brackets_within acquirenonblockinglock_inside fun _ => .ite brackets_return ?_
  refine brackets_within namei_inside fun r => ?_
  split
  · refine brackets_bind endOp_brackets fun _ => ?_
    exact brackets_bind releasenonblocking_brackets fun _ => brackets_pure
  · exact brackets_within .gets fun _ => .ite mountDetour_brackets mountOn_brackets

/-- Once the path has been found, no path through `unmount` ends the operation. -/
theorem unmountFound_inside : Keeps Inside (unmountFound ip) := by
  have hput : ∀ ip, Keeps Inside (iputmount ip) := fun ip =>
    .bind .gets fun _ => .ite .pure (.bind iput_inside fun _ => .pure)
  refine .bind .gets fun _ => .ite .pure (.bind acquirenonblockinglock_inside fun _ => .ite ?_ ?_)
  · exact .bind releasenonblocking_inside fun _ => .pure
  · refine .bind iput_inside fun _ => .bind .gets fun _ => .bind deref_inside fun _ => ?_
    refine .bind (hput _) fun _ => .ite .pure ?_
    refine .bind .gets fun _ => .bind deref_inside fun _ => .bind setInode_inside fun _ => ?_
    refine .bind (.update fun _ _ => .silent rfl rfl) fun _ => ?_
    exact .bind releasenonblocking_inside fun _ => .pure

end

/-! ## Which calls are bracketed -/

/-- The calls that use transactions. -/
inductive LogCall where
  | sysOpen (path : Option (List UInt8)) (omode : Option (BitVec 32))
  | sysMkdir (path : Option (List UInt8))
  | sysMknod (path : Option (List UInt8)) (dev : Option (UInt32 × UInt32))
  | sysLink (old new : Option (List UInt8))
  | sysUnlink (path : Option (List UInt8))
  | sysChdir (path : Option (List UInt8))
  | exec (vm : Vm) (path : List UInt8) (argc : Nat)
  | fileclose (f : Fin NFILE)
  | filewrite (f : Fin NFILE) (src : Nat → UInt8) (n : Int)
  | exit
  | mount (dev : Nat) (path : List UInt8)
  | unmount (path : List UInt8)

/-- The code of a call, without its result. -/
def LogCall.run (p : PId) : LogCall → FsM Unit
  | sysOpen path omode => do let _ ← Fs.sysOpen p path omode
  | sysMkdir path => do let _ ← Fs.sysMkdir p path
  | sysMknod path dev => do let _ ← Fs.sysMknod p path dev
  | sysLink old new => do let _ ← Fs.sysLink p old new
  | sysUnlink path => do let _ ← Fs.sysUnlink p path
  | sysChdir path => do let _ ← Fs.sysChdir p path
  | exec vm path argc => do let _ ← Fs.exec p vm path argc
  | fileclose f => Fs.fileclose f
  | filewrite f src n => do let _ ← Fs.filewrite f src n
  | exit => Fs.exit p
  | mount dev path => do let _ ← Fs.mount p dev path
  | unmount path => do let _ ← Fs.unmount p path

/-- The call ends what it begins: it is not a `mount` that refuses the device, nor an
`unmount` of a path that exists. -/
def LogCall.Closes (p : PId) (s : Fs) : LogCall → Prop
  | mount dev _ => s.mountCheck dev = none
  | unmount path => ∃ s1 s2, beginOp s = (.ok (), s1) ∧ namei p 1 path s1 = (.ok none, s2)
  | _ => True

section

variable {α : Type} {p : PId} {s s' : Fs} {dev : Nat} {path : List UInt8}

theorem brackets_discard {d d' : Nat} {x : FsM α} (h : Keeps (Brackets d d') x) :
    Keeps (Brackets d d') (do let _ ← x) :=
  brackets_bind h fun _ => brackets_pure

/-- A call that leaves an operation open is not bracketed. -/
theorem Brackets.not_bracketed (h : Brackets 0 1 s s') : ¬Bracketed s s' := by
  intro h'
  have := h.outstanding
  have := h'.outstanding
  omega

theorem mountCheck_beginOp {s1 : Fs} (h : beginOp s = (.ok (), s1)) :
    s1.mountCheck dev = s.mountCheck dev := by
  obtain ⟨_, t, ht, ⟨⟩⟩ := bind_eq_ok h
  simp only [lift, Prod.mk.injEq] at ht
  obtain ⟨-, rfl⟩ := ht
  rfl

theorem bracketed_mount_iff {r : Int} (h : mount p dev path s = (.ok r, s')) :
    Bracketed s s' ↔ s.mountCheck dev = none := by
  obtain ⟨_, s1, h1, h⟩ := bind_eq_ok h
  have hopen := beginOp_brackets (d := 0) s () s1 h1
  rw [bind_gets, mountCheck_beginOp h1] at h
  cases hcheck : s.mountCheck dev with
  | none =>
    rw [hcheck] at h
    exact iff_of_true (hopen.trans (mountPath_brackets s1 r s' h)).bracketed rfl
  | some r' =>
    rw [hcheck] at h
    cases h
    exact iff_of_false hopen.not_bracketed (by simp)

theorem bracketed_unmount_iff {r : Int} (h : unmount p path s = (.ok r, s')) :
    Bracketed s s' ↔ ∃ s1 s2, beginOp s = (.ok (), s1) ∧ namei p 1 path s1 = (.ok none, s2) := by
  obtain ⟨_, s1, h1, h⟩ := bind_eq_ok h
  obtain ⟨r', s2, h2, h⟩ := bind_eq_ok h
  have hopen := beginOp_brackets (d := 0) s () s1 h1
  have hname := namei_inside s1 r' s2 h2 0
  cases r' with
  | none =>
    refine iff_of_true ?_ ⟨s1, s2, h1, h2⟩
    exact ((hopen.trans hname).trans (brackets_return s2 r s' h)).bracketed
  | some mp =>
    refine iff_of_false ?_ ?_
    · exact ((hopen.trans hname).trans (unmountFound_inside s2 r s' h 0)).not_bracketed
    · rintro ⟨t1, t2, ht1, ht2⟩
      rw [h1] at ht1
      cases ht1
      rw [h2] at ht2
      cases ht2

/-- A call that returns is bracketed exactly if it ends what it begins, from every
state and with every argument. -/
theorem bracketed_iff_closes {c : LogCall} (h : c.run p s = (.ok (), s')) :
    Bracketed s s' ↔ c.Closes p s := by
  cases c with
  | mount dev path =>
    obtain ⟨r, s1, h, ⟨⟩⟩ := bind_eq_ok h
    exact bracketed_mount_iff h
  | unmount path =>
    obtain ⟨r, s1, h, ⟨⟩⟩ := bind_eq_ok h
    exact bracketed_unmount_iff h
  | sysOpen => exact iff_of_true (brackets_discard sysOpen_brackets _ _ _ h).bracketed trivial
  | sysMkdir => exact iff_of_true (brackets_discard sysCreate_brackets _ _ _ h).bracketed trivial
  | sysMknod => exact iff_of_true (brackets_discard sysCreate_brackets _ _ _ h).bracketed trivial
  | sysLink => exact iff_of_true (brackets_discard sysLink_brackets _ _ _ h).bracketed trivial
  | sysUnlink => exact iff_of_true (brackets_discard sysUnlink_brackets _ _ _ h).bracketed trivial
  | sysChdir => exact iff_of_true (brackets_discard sysChdir_brackets _ _ _ h).bracketed trivial
  | exec => exact iff_of_true (brackets_discard exec_brackets _ _ _ h).bracketed trivial
  | fileclose => exact iff_of_true (fileclose_brackets _ _ _ h).bracketed trivial
  | filewrite => exact iff_of_true (brackets_discard filewrite_brackets _ _ _ h).bracketed trivial
  | exit => exact iff_of_true (exit_brackets _ _ _ h).bracketed trivial

end

/-- The directory `m`. -/
def dirM : List UInt8 := [109]

/-- The state when it has been made. -/
def madeFs : Fs := ((LogCall.sysMkdir (some dirM)).run init booted).2

/-- The state when the second disk has been mounted on it. -/
def mountFs : Fs := ((LogCall.mount 2 dirM).run init madeFs).2

/-- A directory is made, the second disk is mounted on it, and a path is unmounted that is not
there. -/
theorem bracketed_calls : .logWrite ∈ madeFs.trace ∧ Bracketed booted madeFs ∧
    mountFs.mountRoot ≠ none ∧ Bracketed madeFs mountFs ∧
    ∃ s', (LogCall.unmount [120]).run init mountFs = (.ok (), s') ∧ Bracketed mountFs s' := by
  obtain ⟨hwrite, hmkdir, hcheck, hroot, hmount⟩ : .logWrite ∈ madeFs.trace ∧
      ((LogCall.sysMkdir (some dirM)).run init booted).1 = .ok () ∧ madeFs.mountCheck 2 = none ∧
      mountFs.mountRoot ≠ none ∧ ((LogCall.mount 2 dirM).run init madeFs).1 = .ok () := by
    decide +kernel
  obtain ⟨hunmount, hbegin, hnone⟩ : ((LogCall.unmount [120]).run init mountFs).1 = .ok () ∧
      (beginOp mountFs).1 = .ok () ∧ (namei init 1 [120] (beginOp mountFs).2).1 = .ok none := by
    decide +kernel
  refine ⟨hwrite, ?_, hroot, ?_, _, run_eq hunmount, ?_⟩
  · exact (bracketed_iff_closes (run_eq hmkdir)).2 trivial
  · exact (bracketed_iff_closes (run_eq hmount)).2 hcheck
  · exact (bracketed_iff_closes (run_eq hunmount)).2 ⟨_, _, run_eq hbegin, run_eq hnone⟩

/-- The state as the kernel is loaded, with both disks empty and nothing present. -/
def blankFs : Fs :=
  zeroed (binit fun _ => Bytes.zero) ⟨0, 0, 0, 0, 0, 0, 0⟩ ⟨0, 0, 0, 0, 0, 0, 0⟩ 0 ⟨0, by decide⟩

/-- `mount` of the device that the root is on returns, and is not. -/
theorem not_bracketed_mount :
    ∃ s', (LogCall.mount 1 [slash]).run ⟨0, by decide⟩ blankFs = (.ok (), s') ∧
      ¬Bracketed blankFs s' := by
  refine ⟨_, rfl, fun h => ?_⟩
  exact absurd h.outstanding (by decide)

end Fs

end Xv6Rework
