import Xv6Rework.Fs.Log
import Xv6Rework.Lib.Machine
import Xv6Rework.Lib.Count

/-!
# Group commit

The log shared by several processes.  `begin_op`, the end of `log_write` and the
first part of `end_op` run under `log.lock` and are one step each; the tests of
`log_write` are made before the lock is taken, and `commit` runs without it, so
these are steps of their own, and between the rounds of the loops of `commit`
other processes may run.

An operation remembers the blocks it has logged and how many commits had
completed when it began, and a commit which blocks it has copied to the log,
recorded in the header and installed.  Both are there for the statements only:
no step depends on them.

The first main result is that commits keep operations whole: `commit` runs alone,
and what an operation has logged is written by the first commit that completes
after it began, all of it.  The second says when the reservation of `begin_op`
is enough for `log_write` not to find the log full.
-/

namespace Xv6Rework

open Function
open Prog hiding update

/-! ## The parts of the functions -/

/-- One round of the loop of `begin_op`: the record once the operation is
admitted, or nothing if it has to sleep. -/
def Log.enter (l : Log) : Option Log :=
  if l.committing then none
  else if l.n + (l.outstanding + 1) * MAXOPBLOCKS > LOGSIZE then none
  else some { l with outstanding := l.outstanding + 1 }

/-- The tests of `log_write`. -/
def Log.test (l : Log) : Option Stop :=
  if LOGSIZE ≤ l.n ∨ (l.size : Int) - 1 ≤ l.n then some (.panic "too big a transaction")
  else if l.outstanding < 1 then some (.panic "log_write outside of trans")
  else none

/-- The part of `end_op` up to the first `release`.  The caller goes on to commit
if the record says `committing`. -/
def Log.leave (l : Log) : Except Stop Log :=
  if l.committing then .error (.panic "log.committing")
  else if l.outstanding - 1 = 0 then .ok
    { l with outstanding := l.outstanding - 1, committing := true }
  else .ok { l with outstanding := l.outstanding - 1 }

section

variable (s : Store) (b : Fin NBUF)

/-- `begin_op` of a process that is alone. -/
theorem beginOp_eq : beginOp s = match s.log.enter with
    | some l => (.ok (), { s with log := l })
    | none => (.error .hang, s) := by
  unfold beginOp Log.enter
  simp only [bind_gets, setLog]
  split_ifs <;> rfl

/-- `log_write` is its tests followed by its locked part. -/
theorem logWrite_eq : logWrite b s = match s.log.test with
    | some e => (.error e, s)
    | none => (.ok (), { s with log := s.log.add (s.buf b).blockno }.setBuf b
        fun x => { x with dirty := true }) := by
  unfold logWrite Log.test
  simp only [bind_gets, setLog]
  split_ifs <;> rfl

/-- `end_op` is its first part, followed by a commit if it was the last
operation. -/
theorem endOp_eq : endOp s = match s.log.leave with
    | .error e => (.error e, { s with log := { s.log with outstanding := s.log.outstanding - 1 } })
    | .ok l => if l.committing then
        (commit >>= fun _ => setLog fun l => { l with committing := false }) { s with log := l }
      else (.ok (), { s with log := l }) := by
  unfold endOp Log.leave
  simp only [setLog, bind_update, bind_gets]
  split_ifs <;> simp_all [bind_apply]

end

/-! ## The machine -/

/-- An operation: the number of commits that had completed when it began, and the
blocks it has logged so far. -/
structure Op where
  epoch : Nat
  logged : List Nat
deriving DecidableEq

/-- What a commit has written so far: the blocks copied to the log, those recorded
in the header, and those installed. -/
structure Commit where
  staged : List Nat
  header : List Nat
  installed : List Nat
deriving DecidableEq

/-- The blocks were copied to the log, recorded in the header and installed. -/
structure Commit.Covers (c : Commit) (blocks : List Nat) : Prop where
  staged : blocks ⊆ c.staged
  header : blocks ⊆ c.header
  installed : blocks ⊆ c.installed

/-- Where a process is in `commit`. -/
inductive CommitPc where
  | enter
  | writeLog (tail : Nat)
  | writeHead
  | installTrans (tail : Nat)
  | erase
  | eraseHead
  | leave
deriving DecidableEq

/-- Where a process is: outside the file system, in an operation, in an operation
between the tests of `log_write` and its lock, or in the second part of `end_op`. -/
inductive LogPc where
  | idle
  | running (op : Op)
  | logging (op : Op) (blockno : Nat)
  | committing (at' : CommitPc) (c : Commit)
deriving DecidableEq

/-- The operation a process is in. -/
def LogPc.op : LogPc → Option Op
  | running op => some op
  | logging op _ => some op
  | _ => none

/-- The blocks that operation has logged. -/
def LogPc.logged (pc : LogPc) : List Nat := (pc.op.map Op.logged).getD []

@[simp] theorem LogPc.logged_idle : LogPc.idle.logged = [] := rfl
@[simp] theorem LogPc.logged_running (op : Op) : (LogPc.running op).logged = op.logged := rfl
@[simp] theorem LogPc.logged_logging (op : Op) (b : Nat) :
    (LogPc.logging op b).logged = op.logged := rfl
@[simp] theorem LogPc.logged_committing (at' : CommitPc) (c : Commit) :
    (LogPc.committing at' c).logged = [] := rfl

/-- The log, `N` processes, the operations that have ended, the commits that have
completed, and whether the kernel has stopped. -/
structure LogGroup (N : Nat) where
  log : Log
  pc : Fin N → LogPc
  ended : List Op
  commits : List Commit
  stopped : Option Stop

/-- The steps of a process. -/
inductive Action (N : Nat) where
  | beginOp (p : Fin N)
  | logWrite (p : Fin N) (blockno : Nat)
  | logAdd (p : Fin N)
  | endOp (p : Fin N)
  | commit (p : Fin N)
deriving DecidableEq

/-- A step of `commit`, up to the `acquire` that follows it. -/
def Log.commitStep (l : Log) : CommitPc → Commit → Log × CommitPc × Commit
  | .enter, c => (l, if 0 < l.n then .writeLog 0 else .leave, c)
  | .writeLog tail, c =>
    if tail < l.n then
      (l, .writeLog (tail + 1), { c with staged := c.staged ++ [l.block.getD tail 0] })
    else (l, .writeHead, c)
  | .writeHead, c => (l, .installTrans 0, { c with header := l.block })
  | .installTrans tail, c =>
    if tail < l.n then
      (l, .installTrans (tail + 1), { c with installed := c.installed ++ [l.block.getD tail 0] })
    else (l, .erase, c)
  | .erase, c => ({ l with block := [] }, .eraseHead, c)
  | .eraseHead, c => (l, .leave, c)
  | .leave, c => (l, .leave, c)

namespace LogGroup

variable {N : Nat}

/-- Move a process on. -/
def goto (g : LogGroup N) (p : Fin N) (pc : LogPc) : LogGroup N :=
  { g with pc := update g.pc p pc }

/-- A step, if the process is at the point it starts from.  A `begin_op` that is
not admitted sleeps and tries again. -/
def step (g : LogGroup N) : Action N → Option (LogGroup N)
  | .beginOp p =>
    match g.pc p with
    | .idle => match g.log.enter with
      | some l => some ({ g with log := l }.goto p (.running ⟨g.commits.length, []⟩))
      | none => some g
    | _ => none
  | .logWrite p blockno =>
    match g.pc p with
    | .running op => match g.log.test with
      | some e => some { g with stopped := some e }
      | none => some (g.goto p (.logging op blockno))
    | _ => none
  | .logAdd p =>
    match g.pc p with
    | .logging op blockno => some ({ g with log := g.log.add blockno }.goto p
        (.running { op with logged := op.logged ++ [blockno] }))
    | _ => none
  | .endOp p =>
    match g.pc p with
    | .running op => match g.log.leave with
      | .error e => some { g with stopped := some e }
      | .ok l => some ({ g with log := l, ended := op :: g.ended }.goto p
          (if l.committing then .committing .enter ⟨[], [], []⟩ else .idle))
    | _ => none
  | .commit p =>
    match g.pc p with
    | .committing .leave c => some ({ g with
        log := { g.log with committing := false }, commits := g.commits ++ [c] }.goto p .idle)
    | .committing at' c =>
      let (l, at'', c') := g.log.commitStep at' c
      some ({ g with log := l }.goto p (.committing at'' c'))
    | _ => none

/-- The steps of a kernel that has not stopped. -/
def Step (g : LogGroup N) (a : Action N) (g' : LogGroup N) : Prop :=
  g.stopped = none ∧ g.step a = some g'

/-- The branches of `step`. -/
inductive Branch (g : LogGroup N) : Action N → LogGroup N → Prop
  | enter {p l} : g.pc p = .idle → g.log.enter = some l →
      Branch g (.beginOp p) ({ g with log := l }.goto p (.running ⟨g.commits.length, []⟩))
  | sleep {p} : Branch g (.beginOp p) g
  | full {p b op e} : g.pc p = .running op → g.log.test = some e →
      Branch g (.logWrite p b) { g with stopped := some e }
  | test {p b op} : g.pc p = .running op → g.log.test = none →
      Branch g (.logWrite p b) (g.goto p (.logging op b))
  | add {p b op} : g.pc p = .logging op b → Branch g (.logAdd p) ({ g with
      log := g.log.add b }.goto p (.running { op with logged := op.logged ++ [b] }))
  | clash {p op e} : g.pc p = .running op → g.log.leave = .error e →
      Branch g (.endOp p) { g with stopped := some e }
  | leave {p op l} : g.pc p = .running op → g.log.leave = .ok l →
      Branch g (.endOp p) ({ g with log := l, ended := op :: g.ended }.goto p
        (if l.committing then .committing .enter ⟨[], [], []⟩ else .idle))
  | commit {p at' c} : g.pc p = .committing at' c → at' ≠ .leave →
      Branch g (.commit p) ({ g with log := (g.log.commitStep at' c).1 }.goto p
        (.committing (g.log.commitStep at' c).2.1 (g.log.commitStep at' c).2.2))
  | done {p c} : g.pc p = .committing .leave c → Branch g (.commit p) ({ g with
      log := { g.log with committing := false }, commits := g.commits ++ [c] }.goto p .idle)

theorem branch_of_step {g g' : LogGroup N} {a : Action N} (h : g.step a = some g') :
    Branch g a g' := by
  cases a with
  | beginOp p =>
    simp only [step] at h
    split at h <;> try cases h
    next hp =>
      split at h <;> cases h
      next l hl => exact .enter hp hl
      next => exact .sleep
  | logWrite p b =>
    simp only [step] at h
    split at h <;> try cases h
    next op hp =>
      split at h <;> cases h
      next e he => exact .full hp he
      next he => exact .test hp he
  | logAdd p =>
    simp only [step] at h
    split at h <;> cases h
    next op b hp => exact .add hp
  | endOp p =>
    simp only [step] at h
    split at h <;> try cases h
    next op hp =>
      split at h <;> cases h
      next e he => exact .clash hp he
      next l hl => exact .leave hp hl
  | commit p =>
    simp only [step] at h
    split at h <;> cases h
    next c hp => exact .done hp
    next at' c hat hp => exact .commit hp hat

/-- Nobody is in the file system, and the log is as `initlog` leaves it. -/
structure Start (g : LogGroup N) : Prop where
  outstanding : g.log.outstanding = 0
  committing : g.log.committing = false
  block : g.log.block = []
  pc : ∀ p, g.pc p = .idle
  ended : g.ended = []
  commits : g.commits = []
  stopped : g.stopped = none

/-! ## Counting operations -/

/-- The number of processes in an operation. -/
def busy (pc : Fin N → LogPc) : Nat := count (fun x : LogPc => x.op.isSome) pc

theorem busy_update (pc : Fin N → LogPc) (p : Fin N) (x : LogPc) :
    busy (update pc p x) + (if (pc p).op.isSome then 1 else 0) =
      busy pc + if x.op.isSome then 1 else 0 :=
  count_update pc p x

theorem busy_eq_zero {pc : Fin N → LogPc} : busy pc = 0 ↔ ∀ p, (pc p).op = none := by
  simp [busy, count_eq_zero]

/-! ## The invariant -/

/-- What a commit has written when it is at a point. -/
def CommitInv (l : Log) : CommitPc → Commit → Prop
  | .enter, c => c = ⟨[], [], []⟩
  | .writeLog tail, c => tail ≤ l.n ∧ c = ⟨l.block.take tail, [], []⟩
  | .writeHead, c => c = ⟨l.block, [], []⟩
  | .installTrans tail, c => tail ≤ l.n ∧ c = ⟨l.block, l.block, l.block.take tail⟩
  | .erase, c => c = ⟨l.block, l.block, l.block⟩
  | .eraseHead, c => l.block = [] ∧ c = ⟨c.staged, c.staged, c.staged⟩
  | .leave, c => l.block = [] ∧ c = ⟨c.staged, c.staged, c.staged⟩

/-- The blocks a commit is about. -/
def commitBlocks (l : Log) : CommitPc → Commit → List Nat
  | .eraseHead, c => c.staged
  | .leave, c => c.staged
  | _, _ => l.block

theorem take_succ_getD {l : Log} {i : Nat} (h : i < l.n) :
    l.block.take (i + 1) = l.block.take i ++ [l.block.getD i 0] := by
  rw [List.take_add_one, List.getD_eq_getElem?_getD, List.getElem?_eq_getElem h]
  rfl

/-- One step of `commit` is about the same blocks. -/
theorem commitInv_commitStep {l : Log} {at' : CommitPc} {c : Commit} (h : CommitInv l at' c)
    (hat : at' ≠ .leave) :
    CommitInv (l.commitStep at' c).1 (l.commitStep at' c).2.1 (l.commitStep at' c).2.2 ∧
    commitBlocks (l.commitStep at' c).1 (l.commitStep at' c).2.1 (l.commitStep at' c).2.2 =
      commitBlocks l at' c := by
  cases at' with
  | enter =>
    obtain rfl := h
    by_cases hn : 0 < l.n
    · simp [Log.commitStep, hn, CommitInv, commitBlocks]
    · have hnil : l.block = [] := List.length_eq_zero_iff.1 (Nat.eq_zero_of_not_pos hn)
      simp [Log.commitStep, hn, CommitInv, commitBlocks, hnil]
  | writeLog tail =>
    obtain ⟨htail, rfl⟩ := h
    by_cases hn : tail < l.n
    · simp [Log.commitStep, hn, CommitInv, commitBlocks, take_succ_getD hn, Nat.succ_le_of_lt hn]
    · have hall : l.block.take tail = l.block := List.take_of_length_le (Nat.not_lt.1 hn)
      simp [Log.commitStep, hn, CommitInv, commitBlocks, hall]
  | writeHead =>
    obtain rfl := h
    simp [Log.commitStep, CommitInv, commitBlocks]
  | installTrans tail =>
    obtain ⟨htail, rfl⟩ := h
    by_cases hn : tail < l.n
    · simp [Log.commitStep, hn, CommitInv, commitBlocks, take_succ_getD hn, Nat.succ_le_of_lt hn]
    · have hall : l.block.take tail = l.block := List.take_of_length_le (Nat.not_lt.1 hn)
      simp [Log.commitStep, hn, CommitInv, commitBlocks, hall]
  | erase =>
    obtain rfl := h
    simp [Log.commitStep, CommitInv, commitBlocks]
  | eraseHead => exact ⟨h, rfl⟩
  | leave => exact absurd rfl hat

/-- `commit` leaves the counters alone. -/
theorem commitStep_counters (l : Log) (at' : CommitPc) (c : Commit) :
    (l.commitStep at' c).1.outstanding = l.outstanding ∧
    (l.commitStep at' c).1.committing = l.committing ∧
    (l.commitStep at' c).1.block ⊆ l.block ∧
    (l.block.Nodup → (l.commitStep at' c).1.block.Nodup) := by
  cases at' <;> simp only [Log.commitStep] <;> (try split) <;> simp

/-- The blocks logged by the operations that are committed together: those that
are running, and those that have ended since the last commit. -/
def Pending (g : LogGroup N) (b : Nat) : Prop :=
  (∃ p, b ∈ (g.pc p).logged) ∨ ∃ op ∈ g.ended, op.epoch = g.commits.length ∧ b ∈ op.logged

/-- The invariant of the machine. -/
structure Inv (g : LogGroup N) : Prop where
  outstanding : g.log.outstanding = busy g.pc
  committing : g.log.committing = true ↔ ∃ p at' c, g.pc p = .committing at' c
  alone : ∀ p at' c, g.pc p = .committing at' c → ∀ q, q ≠ p → g.pc q = .idle
  commit : ∀ p at' c, g.pc p = .committing at' c → CommitInv g.log at' c ∧
    ∀ b, b ∈ commitBlocks g.log at' c ↔ g.Pending b
  blocks : g.log.committing = false → ∀ b, b ∈ g.log.block ↔ g.Pending b
  nodup : g.log.block.Nodup
  quiet : g.log.committing = false → busy g.pc = 0 → g.log.block = []
  running : ∀ p op, (g.pc p).op = some op → op.epoch = g.commits.length
  ended : ∀ op ∈ g.ended, op.epoch ≤ g.commits.length
  past : ∀ op ∈ g.ended, ∀ c, g.commits[op.epoch]? = some c →
    c = ⟨c.staged, c.staged, c.staged⟩ ∧ op.logged ⊆ c.staged

theorem Start.inv {g : LogGroup N} (h : Start g) : Inv g where
  outstanding := by rw [h.outstanding, busy_eq_zero.2 fun p => by rw [h.pc]; rfl]; rfl
  committing := by simp [h.committing, h.pc]
  alone := by simp [h.pc]
  commit := by simp [h.pc]
  blocks := by simp [h.block, Pending, h.pc, LogPc.logged, LogPc.op, h.ended]
  nodup := by simp [h.block]
  quiet _ _ := h.block
  running := by simp [h.pc, LogPc.op]
  ended := by simp [h.ended]
  past := by simp [h.ended]

section

variable {g g' : LogGroup N} {p : Fin N} {op : Op} {b : Nat} {l : Log} {e : Stop}

/-- No process commits while `log.committing` is clear. -/
theorem Inv.not_committing (h : Inv g) (hc : g.log.committing = false) (q : Fin N) (at' : CommitPc)
    (c : Commit) : g.pc q ≠ .committing at' c := by
  intro hq
  rw [h.committing.2 ⟨q, at', c, hq⟩] at hc
  cases hc

/-- Nobody commits while an operation is running. -/
theorem Inv.committing_of_op (h : Inv g) (hp : (g.pc p).op = some op) :
    g.log.committing = false := by
  by_contra hc
  obtain ⟨q, at', c, hq⟩ := h.committing.1 (Bool.not_eq_false _ ▸ hc)
  by_cases hqp : p = q
  · rw [hqp, hq] at hp
    cases hp
  · rw [h.alone q at' c hq p hqp] at hp
    cases hp

/-- Nobody is in an operation while a process commits. -/
theorem Inv.op_eq_none (h : Inv g) {at' : CommitPc} {c : Commit} (hp : g.pc p = .committing at' c)
    (q : Fin N) : (g.pc q).op = none := by
  by_cases hq : q = p
  · rw [hq, hp]; rfl
  · rw [h.alone p at' c hp q hq]; rfl

/-- Moving a process replaces the blocks its operation has logged. -/
theorem pending_goto {x : LogPc} : (g.goto p x).Pending b ↔
    (b ∈ x.logged ∨ ∃ q ≠ p, b ∈ (g.pc q).logged) ∨
      ∃ op ∈ g.ended, op.epoch = g.commits.length ∧ b ∈ op.logged := by
  exact or_congr_left (exists_update_iff g.pc fun _ x => b ∈ LogPc.logged x)

theorem pending_iff (p : Fin N) : g.Pending b ↔
    (b ∈ (g.pc p).logged ∨ ∃ q ≠ p, b ∈ (g.pc q).logged) ∨
      ∃ op ∈ g.ended, op.epoch = g.commits.length ∧ b ∈ op.logged := by
  rw [← pending_goto, goto, update_eq_self]

/-- A process that moves while nobody commits. -/
theorem Inv.move (h : Inv g) {x : LogPc} {ended : List Op} (hc : g.log.committing = false)
    (hx : ∀ at' c, x ≠ .committing at' c) (hlc : l.committing = false)
    (hout : l.outstanding + (if (g.pc p).op.isSome then 1 else 0) =
      g.log.outstanding + if x.op.isSome then 1 else 0)
    (hnodup : l.block.Nodup)
    (hblocks : ∀ b, b ∈ l.block ↔ ({ g with log := l, ended := ended }.goto p x).Pending b)
    (hquiet : busy (update g.pc p x) = 0 → l.block = [])
    (hrunning : ∀ op, x.op = some op → op.epoch = g.commits.length)
    (hended : ∀ op ∈ ended, op ∈ g.ended ∨ op.epoch = g.commits.length) :
    Inv ({ g with log := l, ended := ended }.goto p x) := by
  have hpc : ∀ q at' c, update g.pc p x q ≠ .committing at' c := by
    intro q at' c
    by_cases hq : q = p
    · subst hq
      rw [update_self]
      exact hx at' c
    · rw [update_of_ne hq]
      exact h.not_committing hc q at' c
  constructor
  case outstanding =>
    have hbusy := busy_update g.pc p x
    have hold := h.outstanding
    change l.outstanding = (busy (update g.pc p x) : Int)
    split_ifs at hbusy hout <;> omega
  case committing => simp [goto, hlc, hpc]
  case alone => exact fun q at' c hq => absurd hq (hpc q at' c)
  case commit => exact fun q at' c hq => absurd hq (hpc q at' c)
  case blocks => exact fun _ => hblocks
  case nodup => exact hnodup
  case quiet => exact fun _ => hquiet
  case running =>
    intro q op hq
    change ((update g.pc p x) q).op = some op at hq
    by_cases hqp : q = p
    · rw [hqp, update_self] at hq
      exact hrunning op hq
    · rw [update_of_ne hqp] at hq
      exact h.running q op hq
  case ended =>
    intro op hop
    rcases hended op hop with hop | hop
    · exact h.ended op hop
    · exact hop.le
  case past =>
    intro op hop c hget
    change g.commits[op.epoch]? = some c at hget
    rcases hended op hop with hop | hop
    · exact h.past op hop c hget
    · rw [hop, List.getElem?_eq_none le_rfl] at hget
      cases hget

/-- Nobody is in an operation that this process is in. -/
theorem busy_update_ne_zero {pc : Fin N → LogPc} {x : LogPc} (hx : x.op.isSome) :
    busy (update pc p x) ≠ 0 := by
  intro h
  have := busy_eq_zero.1 h p
  rw [update_self] at this
  simp [this] at hx

/-- `begin_op` that is admitted. -/
theorem Inv.beginOp (h : Inv g) (hp : g.pc p = .idle) (hl : g.log.enter = some l) :
    Inv ({ g with log := l }.goto p (.running ⟨g.commits.length, []⟩)) := by
  unfold Log.enter at hl
  split_ifs at hl with hc hn
  rw [Bool.not_eq_true] at hc
  obtain rfl := Option.some.inj hl
  refine h.move hc (by simp) hc (by simp [hp, LogPc.op]) h.nodup (fun b => ?_)
    (fun hb => absurd hb (busy_update_ne_zero rfl)) (by simp [LogPc.op]) fun op => .inl
  rw [pending_goto]
  exact (h.blocks hc b).trans ((pending_iff p).trans (by rw [hp]; rfl))

/-- The tests of `log_write`, passed. -/
theorem Inv.logWrite (h : Inv g) (hp : g.pc p = .running op) : Inv (g.goto p (.logging op b)) := by
  have hop : (g.pc p).op = some op := by rw [hp]; rfl
  have hc := h.committing_of_op hop
  refine h.move hc (by simp) hc (by simp [hp, LogPc.op]) h.nodup (fun b => ?_)
    (fun hb => absurd hb (busy_update_ne_zero rfl)) (fun op' hop' => ?_) fun op => .inl
  · rw [pending_goto]
    exact (h.blocks hc b).trans ((pending_iff p).trans (by rw [hp]; rfl))
  · obtain rfl := Option.some.inj hop'
    exact h.running p _ hop

/-- The locked part of `log_write`. -/
theorem Inv.logAdd (h : Inv g) (hp : g.pc p = .logging op b) :
    Inv ({ g with log := g.log.add b }.goto p
      (.running { op with logged := op.logged ++ [b] })) := by
  have hop : (g.pc p).op = some op := by rw [hp]; rfl
  have hc := h.committing_of_op hop
  refine h.move hc (by simp) hc (by simp [hp, LogPc.op, Log.add]) (nodup_absorb h.nodup)
    (fun b' => ?_) (fun hb => absurd hb (busy_update_ne_zero rfl)) (fun op' hop' => ?_)
    fun op => .inl
  · rw [pending_goto]
    change b' ∈ absorb g.log.block b ↔ _
    rw [mem_absorb, h.blocks hc b', pending_iff p, hp]
    simp only [LogPc.logged_logging, LogPc.logged_running, List.mem_append, List.mem_singleton]
    grind
  · obtain rfl := Option.some.inj hop'
    exact h.running p op hop

/-- One process commits and all others are outside the file system. -/
theorem Inv.sole {at' : CommitPc} {c : Commit} (hp : g.pc p = .committing at' c)
    (hidle : ∀ q, q ≠ p → g.pc q = .idle) (hc : g.log.committing = true)
    (hout : g.log.outstanding = 0) (hcommit : CommitInv g.log at' c)
    (hblocks : ∀ b, b ∈ commitBlocks g.log at' c ↔ g.Pending b) (hnodup : g.log.block.Nodup)
    (hended : ∀ op ∈ g.ended, op.epoch ≤ g.commits.length)
    (hpast : ∀ op ∈ g.ended, ∀ c, g.commits[op.epoch]? = some c →
      c = ⟨c.staged, c.staged, c.staged⟩ ∧ op.logged ⊆ c.staged) : Inv g := by
  have hop : ∀ q, (g.pc q).op = none := by
    intro q
    by_cases hq : q = p
    · rw [hq, hp]; rfl
    · rw [hidle q hq]; rfl
  have huniq : ∀ q at'' c', g.pc q = .committing at'' c' → q = p := by
    intro q at'' c' hq
    by_contra hne
    rw [hidle q hne] at hq
    cases hq
  constructor
  case outstanding => rw [hout, busy_eq_zero.2 hop]; rfl
  case committing => exact ⟨fun _ => ⟨p, at', c, hp⟩, fun _ => hc⟩
  case alone =>
    intro q at'' c' hq
    rw [huniq q at'' c' hq]
    exact hidle
  case commit =>
    intro q at'' c' hq
    rw [huniq q at'' c' hq, hp] at hq
    cases hq
    exact ⟨hcommit, hblocks⟩
  case blocks => simp [hc]
  case nodup => exact hnodup
  case quiet => simp [hc]
  case running => simp [hop]
  case ended => exact hended
  case past => exact hpast

/-- The first part of `end_op`. -/
theorem Inv.endOp (h : Inv g) (hp : g.pc p = .running op) (hl : g.log.leave = .ok l) :
    Inv ({ g with log := l, ended := op :: g.ended }.goto p
      (if l.committing then .committing .enter ⟨[], [], []⟩ else .idle)) := by
  have hop : (g.pc p).op = some op := by rw [hp]; rfl
  have hc := h.committing_of_op hop
  have hepoch := h.running p op hop
  have hpend : ∀ x : LogPc, x.logged = [] → ∀ b, ({ g with log := l, ended := op :: g.ended }.goto p
      x).Pending b ↔ g.Pending b := by
    intro x hx b
    rw [pending_goto, pending_iff p, hp]
    simp only [hx, LogPc.logged_running, List.mem_cons, List.not_mem_nil, false_or,
      exists_eq_or_imp, hepoch, true_and]
    grind
  have hended : ∀ op' ∈ op :: g.ended, op' ∈ g.ended ∨ op'.epoch = g.commits.length := by
    rintro op' hop'
    rcases List.mem_cons.1 hop' with rfl | hop'
    · exact .inr hepoch
    · exact .inl hop'
  unfold Log.leave at hl
  rw [if_neg (by simp [hc])] at hl
  split_ifs at hl with hlast
  · -- the last operation goes on to commit
    obtain rfl := Except.ok.inj hl
    rw [if_pos rfl]
    have hbusy : busy (update g.pc p (.committing .enter ⟨[], [], []⟩)) = 0 := by
      have := busy_update g.pc p (.committing .enter ⟨[], [], []⟩)
      have hout := h.outstanding
      rw [hop] at this
      simp only [LogPc.op, Option.isSome_none, Option.isSome_some, if_true, Bool.false_eq_true,
        if_false] at this
      omega
    have hidle : ∀ q, q ≠ p → g.pc q = .idle := by
      intro q hq
      have hnone := busy_eq_zero.1 hbusy q
      rw [update_of_ne hq] at hnone
      cases hpc : g.pc q with
      | idle => rfl
      | running op => simp [hpc, LogPc.op] at hnone
      | logging op b => simp [hpc, LogPc.op] at hnone
      | committing at' c => exact absurd hpc (h.not_committing hc q at' c)
    refine Inv.sole (p := p) (update_self ..) (fun q hq => ?_) rfl hlast rfl (fun b => ?_)
      h.nodup (fun op' hop' => ?_) fun op' hop' c hget => ?_
    · exact (update_of_ne hq ..).trans (hidle q hq)
    · rw [hpend _ rfl]
      exact h.blocks hc b
    · exact (hended op' hop').elim (h.ended op') fun e => e.le
    · change g.commits[op'.epoch]? = some c at hget
      rcases hended op' hop' with hop' | e
      · exact h.past op' hop' c hget
      · rw [e, List.getElem?_eq_none le_rfl] at hget
        cases hget
  · obtain rfl := Except.ok.inj hl
    rw [if_neg (by simp [hc])]
    refine h.move hc (by simp) hc (by simp [hp, LogPc.op]) h.nodup (fun b => ?_) (fun hb => ?_)
      (by simp [LogPc.op]) hended
    · rw [hpend _ rfl]
      exact h.blocks hc b
    · have hbusy := busy_update g.pc p .idle
      have hout := h.outstanding
      rw [hp] at hbusy
      simp only [LogPc.op, Option.isSome_none, Option.isSome_some, if_true,
        Bool.false_eq_true, if_false] at hbusy
      omega

/-- A step of `commit`. -/
theorem Inv.commitStep (h : Inv g) {at' : CommitPc} {c : Commit} (hp : g.pc p = .committing at' c)
    (hat : at' ≠ .leave) :
    Inv ({ g with log := (g.log.commitStep at' c).1 }.goto p
      (.committing (g.log.commitStep at' c).2.1 (g.log.commitStep at' c).2.2)) := by
  obtain ⟨hinv, hblocks⟩ := h.commit p at' c hp
  obtain ⟨hinv', hsame⟩ := commitInv_commitStep hinv hat
  obtain ⟨hout, hcom, -, hnodup⟩ := commitStep_counters g.log at' c
  have hidle := h.alone p at' c hp
  refine Inv.sole (p := p) (update_self ..) (fun q hq => ?_) ?_ ?_ hinv' (fun b => ?_)
    (hnodup h.nodup) h.ended h.past
  · exact (update_of_ne hq ..).trans (hidle q hq)
  · exact hcom.trans (h.committing.2 ⟨p, at', c, hp⟩)
  · refine hout.trans ?_
    rw [h.outstanding, busy_eq_zero.2 (h.op_eq_none hp)]
    rfl
  · refine (iff_of_eq (congrArg (b ∈ ·) hsame)).trans ((hblocks b).trans ?_)
    rw [pending_goto, pending_iff p, hp]
    rfl

/-- The end of a commit. -/
theorem Inv.commitLeave (h : Inv g) {c : Commit} (hp : g.pc p = .committing .leave c) :
    Inv ({ g with log := { g.log with committing := false }, commits := g.commits ++ [c] }.goto p
      .idle) := by
  obtain ⟨⟨hblock, hc⟩, hblocks⟩ := h.commit p .leave c hp
  have hidle : ∀ q, (update g.pc p .idle) q = .idle := by
    intro q
    by_cases hq : q = p
    · rw [hq, update_self]
    · rw [update_of_ne hq, h.alone p .leave c hp q hq]
  constructor
  case outstanding =>
    change g.log.outstanding = (busy (update g.pc p .idle) : Int)
    rw [h.outstanding, busy_eq_zero.2 (h.op_eq_none hp), busy_eq_zero.2 fun q => by rw [hidle]; rfl]
  case committing => simp [goto, hidle]
  case alone => simp [goto, hidle]
  case commit => simp [goto, hidle]
  case blocks =>
    intro _ b
    change b ∈ g.log.block ↔ _
    rw [hblock]
    simp only [List.not_mem_nil, Pending, goto, hidle, LogPc.logged_idle, exists_false, false_or,
      List.length_append, List.length_singleton, false_iff, not_exists, not_and]
    intro op hmem hepoch
    have := h.ended op hmem
    omega
  case nodup => exact h.nodup
  case quiet => exact fun _ _ => hblock
  case running =>
    intro q op hq
    change (update g.pc p .idle q).op = some op at hq
    rw [hidle] at hq
    cases hq
  case ended =>
    intro op hmem
    have := h.ended op hmem
    change op.epoch ≤ (g.commits ++ [c]).length
    rw [List.length_append]
    omega
  case past =>
    intro op hmem c' hget
    change (g.commits ++ [c])[op.epoch]? = some c' at hget
    rcases (h.ended op hmem).lt_or_eq with hlt | heq
    · rw [List.getElem?_append_left hlt] at hget
      exact h.past op hmem c' hget
    · rw [heq, List.getElem?_append_right le_rfl, Nat.sub_self] at hget
      obtain rfl := Option.some.inj hget
      exact ⟨hc, fun b hb => (hblocks b).2 (.inr ⟨op, hmem, heq, hb⟩)⟩

theorem Inv.stop (h : Inv g) (e : Option Stop) : Inv { g with stopped := e } :=
  ⟨h.outstanding, h.committing, h.alone, h.commit, h.blocks, h.nodup, h.quiet, h.running, h.ended,
    h.past⟩

/-- Every step keeps the invariant. -/
theorem Inv.step {a : Action N} (h : Inv g) (hs : Step g a g') : Inv g' := by
  cases branch_of_step hs.2 with
  | enter hp hl => exact h.beginOp hp hl
  | sleep => exact h
  | full => exact h.stop _
  | test hp => exact h.logWrite hp
  | add hp => exact h.logAdd hp
  | clash => exact h.stop _
  | leave hp hl => exact h.endOp hp hl
  | commit hp hat => exact h.commitStep hp hat
  | done hp => exact h.commitLeave hp

/-- An operation that logs can only find the log full. -/
theorem Inv.test_eq (h : Inv g) (hp : (g.pc p).op = some op) (he : g.log.test = some e) :
    e = .panic "too big a transaction" := by
  have hout : 1 ≤ g.log.outstanding := by
    rw [h.outstanding]
    have hne : busy g.pc ≠ 0 := fun hz => by simp [busy_eq_zero.1 hz p] at hp
    omega
  unfold Log.test at he
  split_ifs at he with hfull hout'
  · exact (Option.some.inj he).symm
  · omega

/-- No operation ends while a commit runs. -/
theorem Inv.leave_ne (h : Inv g) (hp : (g.pc p).op = some op) : g.log.leave ≠ .error e := by
  unfold Log.leave
  rw [if_neg (by simp [h.committing_of_op hp])]
  split_ifs <;> simp

/-- A step stops the kernel only where a `log_write` finds the log full. -/
theorem Inv.stopped_step {a : Action N} (h : Inv g) (hs : Step g a g') :
    g'.stopped = none ∨ g'.stopped = some (.panic "too big a transaction") := by
  obtain ⟨hrun, hs⟩ := hs
  cases branch_of_step hs with
  | full hp he => exact .inr (congrArg some (h.test_eq (by rw [hp]; rfl) he))
  | clash hp he => exact absurd he (h.leave_ne (by rw [hp]; rfl))
  | _ => exact .inl hrun

theorem inv_of_reach (h : Reach Start Step g) : Inv g :=
  h.invariant (fun _ => Start.inv) fun _ _ _ hi hs => hi.step hs

theorem stopped_of_reach (h : Reach Start Step g) :
    g.stopped = none ∨ g.stopped = some (.panic "too big a transaction") := by
  cases h with
  | init h => exact .inl h.stopped
  | step h hs => exact (inv_of_reach h).stopped_step hs

end

/-! ## Runs -/

/-- Every operation logs at most `MAXOPBLOCKS` blocks. -/
def Limited (g : LogGroup N) : Action N → Prop
  | .logWrite p b => (b :: (g.pc p).logged).toFinset.card ≤ MAXOPBLOCKS
  | _ => True

instance (g : LogGroup N) (a : Action N) : Decidable (g.Limited a) := by
  cases a <;> unfold Limited <;> infer_instance

/-- The run of a list of actions, as far as it goes. -/
def run (g : LogGroup N) : List (Action N) → List (Action N × LogGroup N)
  | [] => []
  | a :: l => match g.step a with
    | some g' => if g.stopped = none ∧ g.Limited a then (a, g') :: g'.run l else []
    | none => []

/-- The steps of operations of limited size. -/
def LimitedStep (g : LogGroup N) (a : Action N) (g' : LogGroup N) : Prop :=
  Step g a g' ∧ g.Limited a

theorem trace_run (g : LogGroup N) (l : List (Action N)) : Trace LimitedStep g (g.run l) := by
  induction l generalizing g with
  | nil => exact .nil
  | cons a l ih =>
    unfold run
    split
    · next g' hs =>
      split_ifs with h
      · exact .cons ⟨⟨h.1, hs⟩, h.2⟩ (ih g')
      · exact .nil
    · exact .nil

/-- Three processes and an empty log. -/
def threeProcesses : LogGroup 3 := ⟨⟨2, LOGSIZE, 0, false, 2, []⟩, fun _ => .idle, [], [], none⟩

theorem start_threeProcesses : Start threeProcesses := ⟨rfl, rfl, rfl, fun _ => rfl, rfl, rfl, rfl⟩

/-- An operation of process `p` logs the blocks `b`, ..., `b + n - 1`. -/
def logs (p : Fin 3) (b n : Nat) : List (Action 3) :=
  (List.range' b n).flatMap fun b => [.logWrite p b, .logAdd p]

/-! ## Operations stay whole -/

/-- In every state that any number of processes reach: `commit` runs only while no
operation is outstanding, and nothing is admitted meanwhile; the header has no
duplicates, and is empty when nothing is outstanding and nobody commits; neither
of the two panics has happened; and what an operation logs, it logs before the
first commit that completes after it began, which writes all of it. -/
theorem group_commit {g : LogGroup N} (h : Reach Start Step g) :
    (∀ p at' c, g.pc p = .committing at' c → g.log.outstanding = 0 ∧ g.log.committing = true) ∧
    (g.log.committing = true → g.log.enter = none) ∧
    g.log.block.Nodup ∧
    (g.log.outstanding = 0 → g.log.committing = false → g.log.n = 0) ∧
    g.stopped ≠ some (.panic "log.committing") ∧
    g.stopped ≠ some (.panic "log_write outside of trans") ∧
    (∀ p op, (g.pc p).op = some op → op.epoch = g.commits.length) ∧
    (∀ op ∈ g.ended, ∀ c, g.commits[op.epoch]? = some c → c.Covers op.logged) ∧
    ∀ op ∈ g.ended, g.commits[op.epoch]? = none → g.log.committing = false →
      op.logged ⊆ g.log.block := by
  have hinv := inv_of_reach h
  have hstop := stopped_of_reach h
  refine ⟨fun p at' c hp => ⟨?_, hinv.committing.2 ⟨p, at', c, hp⟩⟩,
    fun hc => by simp [Log.enter, hc], hinv.nodup, fun hout hc => ?_, ?_, ?_, hinv.running,
    fun op hop c hget => ?_, fun op hop hget hc b hb => ?_⟩
  · rw [hinv.outstanding, busy_eq_zero.2 (hinv.op_eq_none hp)]
    rfl
  · have hzero : busy g.pc = 0 := by
      have := hinv.outstanding
      omega
    rw [Log.n, hinv.quiet hc hzero, List.length_nil]
  · rcases hstop with e | e <;> rw [e] <;> decide
  · rcases hstop with e | e <;> rw [e] <;> decide
  · obtain ⟨hc, hsub⟩ := hinv.past op hop c hget
    rw [hc]
    exact ⟨hsub, hsub, hsub⟩
  · refine (hinv.blocks hc b).2 (.inr ⟨op, hop, ?_, hb⟩)
    have := hinv.ended op hop
    have := List.getElem?_eq_none_iff.1 hget
    omega

/-- Two operations that overlap, and the commit of both. -/
def twoOperations : List (Action 3) :=
  [.beginOp 0, .beginOp 1] ++ logs 0 7 1 ++ logs 1 8 1 ++ [.endOp 0, .endOp 1] ++
    List.replicate 11 (.commit 1)

/-- One commit writes both. -/
theorem group_commit_two_operations : ∃ g : LogGroup 3, Reach Start Step g ∧
    g.ended = [⟨0, [8]⟩, ⟨0, [7]⟩] ∧ g.commits = [⟨[7, 8], [7, 8], [7, 8]⟩] ∧
    ∀ op ∈ g.ended, ∀ c, g.commits[op.epoch]? = some c → c.Covers op.logged := by
  have htrace := (trace_run threeProcesses twoOperations).mono fun _ _ _ h => h.1
  have hreach := htrace.reach (.init start_threeProcesses) _ (List.getLast_mem (by decide +kernel))
  exact ⟨_, hreach, by decide +kernel, by decide +kernel, (group_commit hreach).2.2.2.2.2.2.2.1⟩

/-! ## Room in the log -/

/-- The blocks logged by the operations that are committed together. -/
def pendingBlocks (g : LogGroup N) : Finset Nat :=
  (Finset.univ.biUnion fun p => (g.pc p).logged.toFinset) ∪
    ((g.ended.filter fun op => op.epoch = g.commits.length).flatMap Op.logged).toFinset

theorem mem_pendingBlocks {g : LogGroup N} {b : Nat} : b ∈ g.pendingBlocks ↔ g.Pending b := by
  simp [pendingBlocks, Pending, and_assoc]

/-- While an operation runs, the header counts these blocks. -/
theorem Inv.n_eq_card {g : LogGroup N} (h : Inv g) (hc : g.log.committing = false) :
    g.log.n = g.pendingBlocks.card := by
  have : g.pendingBlocks = g.log.block.toFinset := by
    ext b
    rw [mem_pendingBlocks, List.mem_toFinset, h.blocks hc b]
  rw [this, List.toFinset_card_of_nodup h.nodup]
  rfl

/-- A `log_write` is called when the operations that are committed together have
logged fewer than `LOGSIZE - 1` blocks. -/
def HasRoom (g : LogGroup N) : Action N → Prop
  | .logWrite _ _ => g.pendingBlocks.card < LOGSIZE - 1
  | _ => True

instance (g : LogGroup N) (a : Action N) : Decidable (g.HasRoom a) := by
  cases a <;> unfold HasRoom <;> infer_instance

theorem size_commitStep (l : Log) (at' : CommitPc) (c : Commit) :
    (l.commitStep at' c).1.size = l.size := by
  cases at' <;> simp only [Log.commitStep] <;> split <;> rfl

/-- No step changes the size of the log. -/
theorem size_step {g g' : LogGroup N} {a : Action N} (hs : Step g a g') :
    g'.log.size = g.log.size := by
  cases branch_of_step hs.2 with
  | enter hp hl =>
    unfold Log.enter at hl
    split_ifs at hl
    obtain rfl := Option.some.inj hl
    rfl
  | leave hp hl =>
    unfold Log.leave at hl
    split_ifs at hl <;> obtain rfl := Except.ok.inj hl <;> rfl
  | commit hp hat => exact size_commitStep ..
  | _ => rfl

/-- A step meets the panic exactly when it is a `log_write` that comes too late. -/
theorem Inv.too_big_iff {g g' : LogGroup N} {a : Action N} (h : Inv g)
    (hsize : g.log.size = LOGSIZE) (hs : Step g a g') :
    g'.stopped ≠ some (.panic "too big a transaction") ↔ g.HasRoom a := by
  obtain ⟨hrun, hs⟩ := hs
  have hsize' : (LOGSIZE : Int) = 30 := rfl
  cases branch_of_step hs with
  | @full p b op e hp he =>
    have hop : (g.pc p).op = some op := by rw [hp]; rfl
    obtain rfl := h.test_eq hop he
    have hn := h.n_eq_card (h.committing_of_op hop)
    unfold Log.test at he
    split_ifs at he with hfull
    · rw [hsize] at hfull
      refine iff_of_false (fun hne => hne rfl) ?_
      unfold HasRoom
      omega
    · simp at he
  | @test p b op hp he =>
    have hop : (g.pc p).op = some op := by rw [hp]; rfl
    have hn := h.n_eq_card (h.committing_of_op hop)
    unfold Log.test at he
    split_ifs at he with hfull
    simp only [goto, hrun, HasRoom, ne_eq, reduceCtorEq, not_false_eq_true, true_iff]
    rw [hsize] at hfull
    omega
  | clash hp he => exact absurd he (h.leave_ne (by rw [hp]; rfl))
  | _ => simp [goto, hrun, HasRoom]

/-- In a log as `mkfs` makes it, no `log_write` of a run panics for want of room
exactly when each is called while the operations that are committed together have
logged fewer than `LOGSIZE - 1` blocks. -/
theorem never_too_big_iff {g : LogGroup N} {l : List (Action N × LogGroup N)} (hg : Start g)
    (hsize : g.log.size = LOGSIZE) (h : Trace Step g l) :
    Trace.Always (fun g => g.stopped ≠ some (.panic "too big a transaction")) g l ↔
      Trace.Meets HasRoom g l := by
  refine h.always_iff_meets (fun g => Inv g ∧ g.log.size = LOGSIZE) ?_ ?_ ⟨hg.inv, hsize⟩
    (by simp [hg.stopped])
  · rintro g a g' ⟨hinv, hsize⟩ - - hs
    exact ⟨hinv.step hs, (size_step hs).trans hsize⟩
  · rintro g a g' ⟨hinv, hsize⟩ - hs
    exact hinv.too_big_iff hsize hs

/-- One operation that logs ten blocks has room. -/
theorem never_too_big_one_operation :
    Trace.Always (fun g => g.stopped ≠ some (.panic "too big a transaction")) threeProcesses
      (threeProcesses.run (.beginOp 0 :: logs 0 100 10)) :=
  (never_too_big_iff start_threeProcesses rfl ((trace_run _ _).mono fun _ _ _ h => h.1)).2
    (by decide +kernel)

/-- Three operations of ten blocks each have not. -/
theorem too_big_three_operations : ∃ l, Start threeProcesses ∧ threeProcesses.log.size = LOGSIZE ∧
    Trace LimitedStep threeProcesses l ∧
    ¬Trace.Always (fun g => g.stopped ≠ some (.panic "too big a transaction"))
      threeProcesses l := by
  refine ⟨threeProcesses.run ([.beginOp 0, .beginOp 1, .beginOp 2] ++ logs 0 100 10 ++
    logs 1 110 10 ++ logs 2 120 10), start_threeProcesses, rfl, trace_run _ _, ?_⟩
  decide +kernel

end LogGroup

end Xv6Rework
