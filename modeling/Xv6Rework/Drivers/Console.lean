import Xv6Rework.Lib.Circular
import Xv6Rework.Lib.Machine
import Mathlib.Data.Nat.Basic

/-!
# The console's input

`consoleintr` and `consoleread` of `kernel/dev/console.c`.  Characters come in by
interrupts; what has been typed since the last commit is a line that can still be
edited, and readers see what has been committed.  Three counters run over one circular
buffer: `r` for the next character to read, `w` for the end of what is committed, `e`
for the end of the line.

An interrupt holds the console's lock while it handles all the characters that have
come.  A read holds it except while it sleeps, so it runs in sections, as the calls on a
pipe do.  Echo and the process listing are left out, and so is the inode's lock, which
`consoleread` gives up while it waits.

The state keeps two records beside the input: the keys that were accepted, and the
characters that reads have consumed.  `edit` says what the keys stand for.
-/

namespace Xv6Rework.Console

open Circular

/-- `INPUT_BUF`. -/
def INPUT_BUF : Nat := 128

/-! ## Characters -/

/-- `'\n'`. -/
def newline : UInt8 := 10

/-- `'\r'`. -/
def cr : UInt8 := 13

/-- `C('P')`. -/
def ctrlP : UInt8 := 16

/-- `C('U')`. -/
def ctrlU : UInt8 := 21

/-- `C('H')`. -/
def ctrlH : UInt8 := 8

/-- `'\x7f'`. -/
def del : UInt8 := 127

/-- `C('D')`. -/
def ctrlD : UInt8 := 4

/-! ## What the keys stand for -/

/-- A key that counts: one that edits the line, or a character, with whether the buffer
is full then. -/
inductive Key where
  | erase
  | kill
  | char (c : UInt8) (full : Bool)
deriving DecidableEq, Repr

/-- The characters committed so far, and the line. -/
structure Edited where
  committed : List UInt8
  line : List UInt8

/-- `'\r'` counts as `'\n'`. -/
def translate (c : UInt8) : UInt8 := if c = cr then newline else c

/-- What a key does.  The edits reach no further than the line. -/
def Edited.key (x : Edited) : Key → Edited
  | .erase => { x with line := x.line.dropLast }
  | .kill => { x with line := [] }
  | .char c full =>
    if translate c = newline ∨ translate c = ctrlD ∨ full then
      ⟨x.committed ++ (x.line ++ [translate c]), []⟩
    else
      { x with line := x.line ++ [translate c] }

/-- What keys do, one after the other. -/
def edit (l : List Key) : Edited := l.foldl Edited.key ⟨[], []⟩

theorem edit_concat (l : List Key) (k : Key) : edit (l ++ [k]) = (edit l).key k := by
  simp [edit]

/-! ## The code -/

/-- `input`. -/
structure Input where
  buf : Nat → UInt8
  r : UInt32
  w : UInt32
  e : UInt32

/-- The loop of `case C('U')`, where at most `k` characters are left in the line. -/
def killLoop : Nat → Input → Input
  | 0, x => x
  | k + 1, x =>
    if x.e ≠ x.w ∧ x.buf (slot INPUT_BUF (x.e - 1)) ≠ newline then
      killLoop k { x with e := x.e - 1 }
    else
      x

/-- `case C('U')`. -/
def Input.killLine (x : Input) : Input := killLoop (gap x.w x.e) x

/-- `case C('H')`. -/
def Input.backspace (x : Input) : Input := if x.e ≠ x.w then { x with e := x.e - 1 } else x

/-- `input.buf[input.e++ % INPUT_BUF] = c`. -/
def Input.store (x : Input) (c : UInt8) : Input :=
  { x with buf := Function.update x.buf (slot INPUT_BUF x.e) c, e := x.e + 1 }

/-- A read that has not returned: what is left of the count, and the count it started
with. -/
structure Read where
  n : Int
  target : Int
deriving DecidableEq

/-- A thread: the read it is in, and whether it sleeps there. -/
structure Thread where
  call : Option Read
  asleep : Bool
  killed : Bool

/-- The console with the threads that read from it. -/
structure Sys (T : Type) where
  input : Input
  thread : T → Thread
  keys : List Key
  consumed : List UInt8

/-- How a section of `consoleread` ends. -/
inductive Outcome where
  | sleep (call : Read)
  | ret (r : Int)
deriving DecidableEq

/-- What a section of `consoleread` does: the input it leaves, the characters it has
consumed, those it has stored at `dst`, and how it ends. -/
structure Effect where
  input : Input
  consumed : List UInt8
  dst : List UInt8
  outcome : Outcome

/-- The loop of `consoleread`, where `k` is what is left of the count and `l` what the
section has stored. -/
def readLoop (killed : Bool) (target : Int) : Nat → Input → List UInt8 → Effect
  | 0, x, l => ⟨x, l, l, .ret target⟩
  | k + 1, x, l =>
    if x.r = x.w then
      if killed then
        ⟨x, l, l, .ret (-1)⟩
      else
        ⟨x, l, l, .sleep ⟨k + 1, target⟩⟩
    else
      let c := x.buf (slot INPUT_BUF x.r)
      let x := { x with r := x.r + 1 }
      if c = ctrlD then
        if (k + 1 : Int) < target then
          ⟨{ x with r := x.r - 1 }, l, l, .ret (target - (k + 1))⟩
        else
          ⟨x, l ++ [c], l, .ret (target - (k + 1))⟩
      else if c = newline then
        ⟨x, l ++ [c], l ++ [c], .ret (target - k)⟩
      else
        readLoop killed target k x (l ++ [c])

/-- A section of `consoleread`.  A count that is not positive gives 0 at once. -/
def consoleread (killed : Bool) (call : Read) (x : Input) : Effect :=
  if 0 < call.n then
    readLoop killed call.target call.n.toNat x []
  else
    ⟨x, [], [], .ret (call.target - call.n)⟩

namespace Sys

variable {T : Type}

/-- `wakeup(&input.r)`. -/
def wakeup (s : Sys T) : Sys T := { s with thread := fun t => { s.thread t with asleep := false } }

/-- The `default` case of `consoleintr`, for a character that is accepted. -/
def accept (s : Sys T) (c : UInt8) : Sys T :=
  let full := decide (s.input.e + 1 = s.input.r + UInt32.ofNat INPUT_BUF)
  let s := { s with input := s.input.store (translate c), keys := s.keys ++ [.char c full] }
  if translate c = newline ∨ translate c = ctrlD ∨ full then
    { s with input := { s.input with w := s.input.e } }.wakeup
  else
    s

/-- One round of `consoleintr`. -/
def intrChar (s : Sys T) (c : UInt8) : Sys T :=
  if c = ctrlP then
    s
  else if c = ctrlU then
    { s with input := s.input.killLine, keys := s.keys ++ [.kill] }
  else if c = ctrlH ∨ c = del then
    { s with input := s.input.backspace, keys := s.keys ++ [.erase] }
  else if c ≠ 0 ∧ gap s.input.r s.input.e < INPUT_BUF then
    s.accept c
  else
    s

/-- `consoleintr`, on what `getc` returns before it returns -1. -/
def consoleintr (s : Sys T) (l : List UInt8) : Sys T := l.foldl intrChar s

variable [DecidableEq T]

/-- Change a thread. -/
def setThread (s : Sys T) (t : T) (x : Thread) : Sys T :=
  { s with thread := Function.update s.thread t x }

/-- A section of `consoleread` in thread `t`. -/
def read (s : Sys T) (t : T) (call : Read) : Sys T :=
  let f := consoleread (s.thread t).killed call s.input
  let s := { s with input := f.input, consumed := s.consumed ++ f.consumed }
  match f.outcome with
  | .sleep call => s.setThread t { s.thread t with call := some call, asleep := true }
  | .ret _ => s.setThread t { s.thread t with call := none }

end Sys

/-- The steps: an interrupt with the characters that have come; a thread calls
`consoleread`, or goes on with a section of the call it is in; a process is killed. -/
inductive Act (T : Type) where
  | intr (l : List UInt8)
  | call (t : T) (n : Int)
  | resume (t : T)
  | kill (t : T)

/-- One step. -/
inductive Step {T : Type} [DecidableEq T] : Sys T → Act T → Sys T → Prop
  | intr {s : Sys T} {l : List UInt8} : Step s (.intr l) (s.consoleintr l)
  | call {s : Sys T} {t : T} {n : Int} : (s.thread t).call = none →
      Step s (.call t n) (s.setThread t { s.thread t with call := some ⟨n, n⟩ })
  | read {s : Sys T} {t : T} {c : Read} : (s.thread t).call = some c → (s.thread t).asleep = false →
      Step s (.resume t) (s.read t c)
  | kill {s : Sys T} {t : T} :
      Step s (.kill t) (s.setThread t { s.thread t with killed := true, asleep := false })

/-- The counters start anywhere. -/
structure Init {T : Type} (s : Sys T) : Prop where
  w_eq : s.input.w = s.input.r
  e_eq : s.input.e = s.input.r
  idle : ∀ t, (s.thread t).call = none ∧ (s.thread t).asleep = false
  keys : s.keys = []
  consumed : s.consumed = []

/-! ## What is in the buffer -/

section

variable {x : Input} {c : UInt8} {k : Nat}

/-- The characters that are committed and not read yet. -/
def Input.pending (x : Input) : List UInt8 := window INPUT_BUF x.buf x.r (gap x.r x.w)

/-- The line. -/
def Input.line (x : Input) : List UInt8 := window INPUT_BUF x.buf x.w (gap x.w x.e)

/-- The counters are in order, and no further apart than the buffer is long. -/
def Input.Ordered (x : Input) : Prop := gap x.r x.w + gap x.w x.e ≤ INPUT_BUF

theorem input_buf_dvd : INPUT_BUF ∣ 2 ^ 32 := by decide

theorem Input.Ordered.gap_eq (h : x.Ordered) : gap x.r x.e = gap x.r x.w + gap x.w x.e := by
  have hlt : INPUT_BUF < 2 ^ 32 := by decide
  unfold Ordered at h
  exact gap_add (by omega)

/-- A character goes to the end of the line. -/
theorem Input.Ordered.store (h : x.Ordered) (hroom : gap x.r x.e < INPUT_BUF) :
    (x.store c).Ordered ∧ (x.store c).line = x.line ++ [c] ∧ (x.store c).pending = x.pending := by
  have hlt : INPUT_BUF < 2 ^ 32 := by decide
  have hsum := h.gap_eq
  have hgap : gap x.w (x.e + 1) = gap x.w x.e + 1 := gap_succ (by omega)
  have hslot : ahead x.w (gap x.w x.e) = x.e := ahead_gap
  have hslot' : ahead x.r (gap x.r x.w + gap x.w x.e) = x.e := by rw [← hsum, ahead_gap]
  refine ⟨?_, ?_, ?_⟩
  · rw [Ordered, Input.store]
    simp only [hgap]
    omega
  · rw [line, line, Input.store]
    simp only [hgap]
    rw [← hslot, ahead_gap]
    nth_rewrite 1 [← hslot]
    exact window_store input_buf_dvd (by omega)
  · rw [pending, pending, Input.store]
    nth_rewrite 1 [← hslot']
    exact window_store_of_le input_buf_dvd (Nat.le_add_right ..) (hsum ▸ hroom)

/-- The line is committed. -/
theorem Input.Ordered.commit (h : x.Ordered) :
    Input.Ordered { x with w := x.e } ∧ Input.line { x with w := x.e } = [] ∧
      Input.pending { x with w := x.e } = x.pending ++ x.line := by
  have hsum := h.gap_eq
  refine ⟨?_, ?_, ?_⟩
  · unfold Ordered at h ⊢
    simp only [gap_self]
    omega
  · simp [line]
  · rw [pending, pending, line, hsum, window_add, ahead_gap]

theorem Input.Ordered.pred (h : x.Ordered) (hne : x.e ≠ x.w) :
    Input.Ordered { x with e := x.e - 1 } := by
  have := gap_pred hne
  unfold Ordered at h ⊢
  simp only
  omega

/-- The last character of a line. -/
theorem Input.line_pred (hne : x.e ≠ x.w) :
    x.line = Input.line { x with e := x.e - 1 } ++ [x.buf (slot INPUT_BUF (x.e - 1))] := by
  rw [line, ← gap_pred hne, window_succ, ahead_gap]
  rfl

theorem Input.Ordered.backspace (h : x.Ordered) :
    x.backspace.Ordered ∧ x.backspace.line = x.line.dropLast ∧ x.backspace.pending = x.pending := by
  unfold Input.backspace
  split
  · next hne =>
    refine ⟨h.pred hne, ?_, rfl⟩
    rw [Input.line_pred hne, List.dropLast_concat]
  · next heq =>
    refine ⟨h, ?_, rfl⟩
    rw [ne_eq, Decidable.not_not] at heq
    simp [line, heq]

theorem Input.eta (x : Input) (he : x.e = x.w) : x = { x with e := x.w } := by
  cases x
  cases he
  rfl

/-- In a line without newline, the loop of `C('U')` stops at its start only. -/
theorem killLoop_eq (hk : gap x.w x.e ≤ k) (hplain : newline ∉ x.line) :
    killLoop k x = { x with e := x.w } := by
  induction k generalizing x with
  | zero =>
    have he : x.e = x.w := gap_eq_zero.1 (by omega)
    exact x.eta he
  | succ k ih =>
    rw [killLoop]
    split
    · next hne =>
      have hgap := gap_pred hne.1
      rw [Input.line_pred hne.1, List.mem_append, not_or] at hplain
      exact ih (x := { x with e := x.e - 1 }) (by simp only; omega) hplain.1
    · next hend =>
      by_cases he : x.e = x.w
      · exact x.eta he
      · rw [Input.line_pred he] at hplain
        simp only [List.mem_append, List.mem_singleton, not_or] at hplain
        exact absurd ⟨he, Ne.symm hplain.2⟩ hend

theorem Input.Ordered.killLine (h : x.Ordered) (hplain : newline ∉ x.line) :
    x.killLine.Ordered ∧ x.killLine.line = [] ∧ x.killLine.pending = x.pending := by
  rw [Input.killLine, killLoop_eq (Nat.le_refl _) hplain]
  refine ⟨?_, by simp [line], rfl⟩
  unfold Ordered at h ⊢
  simp only [gap_self]
  omega

/-- Only the end of the line moves, by the keys that edit. -/
theorem killLoop_frame : (killLoop k x).buf = x.buf ∧ (killLoop k x).r = x.r ∧
    (killLoop k x).w = x.w := by
  induction k generalizing x with
  | zero => exact ⟨rfl, rfl, rfl⟩
  | succ k ih =>
    rw [killLoop]
    split
    · exact ih
    · exact ⟨rfl, rfl, rfl⟩

/-- Reading takes the first of the characters that are committed. -/
theorem Input.pending_succ (hne : x.r ≠ x.w) :
    x.pending = x.buf (slot INPUT_BUF x.r) :: Input.pending { x with r := x.r + 1 } := by
  rw [pending, ← gap_succ_left hne.symm, window_succ_left]
  rfl

theorem Input.Ordered.succ (h : x.Ordered) (hne : x.r ≠ x.w) :
    Input.Ordered { x with r := x.r + 1 } := by
  have := gap_succ_left hne.symm
  unfold Ordered at h ⊢
  simp only
  omega

theorem Input.pending_eq_nil (h : x.r = x.w) : x.pending = [] := by
  simp [pending, h]

end

/-! ## Sections of `consoleread` -/

section

variable {x : Input} {killed : Bool} {target : Int} {k : Nat} {l : List UInt8}

/-- What a section consumes was at the front of what is committed. -/
theorem readLoop_pending (killed : Bool) (target : Int) (k : Nat) (l : List UInt8) (h : x.Ordered) :
    (readLoop killed target k x l).input.Ordered ∧
      (readLoop killed target k x l).input.line = x.line ∧ ∃ d,
      (readLoop killed target k x l).consumed = l ++ d ∧
      x.pending = d ++ (readLoop killed target k x l).input.pending := by
  induction k generalizing x l with
  | zero => exact ⟨h, rfl, [], by simp [readLoop]⟩
  | succ k ih =>
    rw [readLoop]
    split
    · split
      · exact ⟨h, rfl, [], by simp⟩
      · exact ⟨h, rfl, [], by simp⟩
    · next hne =>
      have hpending := Input.pending_succ hne
      simp only
      split
      · split
        · -- the put-back
          have hback : ({ x with r := x.r + 1 - 1 } : Input) = x := by rw [UInt32.add_sub_cancel]
          rw [hback]
          exact ⟨h, rfl, [], by simp⟩
        · exact ⟨h.succ hne, rfl, [x.buf (slot INPUT_BUF x.r)], rfl, hpending⟩
      · split
        · exact ⟨h.succ hne, rfl, [x.buf (slot INPUT_BUF x.r)], rfl, hpending⟩
        · obtain ⟨hord, hline, d, hd, hrest⟩ := ih (l ++ [x.buf (slot INPUT_BUF x.r)]) (h.succ hne)
          refine ⟨hord, hline, x.buf (slot INPUT_BUF x.r) :: d, ?_, ?_⟩
          · rw [hd, List.append_assoc, List.singleton_append]
          · rw [hpending, hrest, List.cons_append]

/-- How a section treats control-D: it is never stored, and it is consumed only by a read
that starts with it, which returns 0. -/
theorem readLoop_eof (x : Input) (killed : Bool) (hl : ctrlD ∉ l)
    (hk : (k + l.length : Int) ≤ target) : ctrlD ∉ (readLoop killed target k x l).dst ∧
      ((readLoop killed target k x l).consumed = (readLoop killed target k x l).dst ∨
        (readLoop killed target k x l).consumed = [ctrlD] ∧
        (readLoop killed target k x l).dst = [] ∧
          (k : Int) = target ∧ (readLoop killed target k x l).outcome = .ret 0) := by
  induction k generalizing x l with
  | zero => exact ⟨hl, .inl rfl⟩
  | succ k ih =>
    rw [readLoop]
    split
    · split <;> exact ⟨hl, .inl rfl⟩
    · simp only
      split
      · next hc =>
        split
        · exact ⟨hl, .inl rfl⟩
        · -- the count has not been used yet, so this is the first character
          have hnil : l = [] := List.eq_nil_of_length_eq_zero (by omega)
          subst hnil
          refine ⟨by simp, .inr ⟨by rw [hc, List.nil_append], rfl, ?_, ?_⟩⟩
          · simp only [List.length_nil] at hk
            omega
          · simp only [List.length_nil] at hk
            exact congrArg Outcome.ret (by omega)
      · next hc =>
        have hstored : ctrlD ∉ l ++ [x.buf (slot INPUT_BUF x.r)] := by
          simp [hl, Ne.symm hc]
        split
        · exact ⟨hstored, .inl rfl⟩
        · obtain ⟨hdst, hcons⟩ := ih { x with r := x.r + 1 } hstored
            (by simp only [List.length_append, List.length_singleton]; omega)
          refine ⟨hdst, hcons.imp id ?_⟩
          rintro ⟨-, -, htarget, -⟩
          omega

/-- A read ends at a control-D. -/
theorem readLoop_stops (killed : Bool) (target : Int) {d rest : List UInt8}
    (h : x.pending = d ++ ctrlD :: rest) (hd : ctrlD ∉ d) (hn : newline ∉ d) (hk : d.length < k) :
    (readLoop killed target k x l).dst = l ++ d ∧
      (readLoop killed target k x l).outcome = .ret (target - (k - d.length)) := by
  induction k generalizing x l d with
  | zero => omega
  | succ k ih =>
    have hne : x.r ≠ x.w := by
      intro he
      rw [Input.pending_eq_nil he] at h
      simp at h
    rw [Input.pending_succ hne] at h
    rw [readLoop, if_neg hne]
    simp only
    cases d with
    | nil =>
      rw [List.nil_append, List.cons.injEq] at h
      rw [if_pos h.1]
      split
      · exact ⟨by simp, by simp⟩
      · exact ⟨by simp, by simp⟩
    | cons c d =>
      rw [List.cons_append, List.cons.injEq] at h
      simp only [List.mem_cons, not_or, List.length_cons] at hd hn hk
      rw [h.1, if_neg (Ne.symm hd.1), if_neg (Ne.symm hn.1)]
      obtain ⟨hdst, hout⟩ := ih (l := l ++ [c]) h.2 hd.2 hn.2 (by omega)
      refine ⟨?_, ?_⟩
      · rw [hdst, List.append_assoc, List.singleton_append]
      · rw [hout, List.length_cons]
        exact congrArg Outcome.ret (by push_cast; omega)

/-- A call that goes on has something left to read. -/
theorem readLoop_sleep {call : Read} (h : (readLoop killed target k x l).outcome = .sleep call) :
    call.target = target ∧ call.n ≤ k := by
  induction k generalizing x l with
  | zero => cases h
  | succ k ih =>
    rw [readLoop] at h
    split at h
    · split at h
      · cases h
      · obtain rfl := Outcome.sleep.inj h
        exact ⟨rfl, by push_cast; omega⟩
    · simp only at h
      split at h
      · split at h <;> cases h
      · split at h
        · cases h
        · obtain ⟨htarget, hn⟩ := ih h
          exact ⟨htarget, by push_cast; omega⟩

end

/-! ## Every run -/

section

variable {T : Type} {s s' : Sys T} {t : T} {c : UInt8}

/-- The buffer has what the accepted keys stand for, from where the readers are on. -/
structure Disciplined (s : Sys T) : Prop where
  ordered : s.input.Ordered
  committed : (edit s.keys).committed = s.consumed ++ s.input.pending
  line : (edit s.keys).line = s.input.line
  plain : newline ∉ s.input.line
  calls : ∀ t c, (s.thread t).call = some c → c.n ≤ c.target

theorem Init.disciplined (h : Init s) : Disciplined s := by
  refine ⟨?_, ?_, ?_, ?_, fun t c hc => ?_⟩
  · simp [Input.Ordered, h.w_eq, h.e_eq]
  · rw [h.keys, h.consumed, Input.pending_eq_nil h.w_eq.symm]
    rfl
  · rw [h.keys]
    simp [edit, Input.line, h.w_eq, h.e_eq]
  · simp [Input.line, h.w_eq, h.e_eq]
  · rw [(h.idle t).1] at hc
    cases hc

theorem Disciplined.accept (h : Disciplined s) (hroom : gap s.input.r s.input.e < INPUT_BUF) :
    Disciplined (s.accept c) := by
  obtain ⟨hord, hline, hpending⟩ := h.ordered.store (c := translate c) hroom
  unfold Sys.accept
  simp only
  split
  · next hcommit =>
    obtain ⟨hord', hline', hpending'⟩ := hord.commit
    refine ⟨hord', ?_, ?_, ?_, h.calls⟩
    · simp only [Sys.wakeup, edit_concat, Edited.key, if_pos hcommit]
      rw [hpending', hline, hpending, h.committed, h.line, List.append_assoc]
    · simp only [Sys.wakeup, edit_concat, Edited.key, if_pos hcommit]
      exact hline'.symm
    · simp only [Sys.wakeup]
      rw [hline']
      simp
  · next hopen =>
    refine ⟨hord, ?_, ?_, ?_, h.calls⟩
    · simp only [edit_concat, Edited.key, if_neg hopen]
      rw [hpending, h.committed]
    · simp only [edit_concat, Edited.key, if_neg hopen]
      rw [hline, h.line]
    · simp only
      rw [hline, List.mem_append, not_or, List.mem_singleton]
      exact ⟨h.plain, fun e => hopen (.inl e.symm)⟩

theorem Disciplined.intrChar (h : Disciplined s) : Disciplined (s.intrChar c) := by
  unfold Sys.intrChar
  split
  · exact h
  split
  · obtain ⟨hord, hline, hpending⟩ := h.ordered.killLine h.plain
    refine ⟨hord, ?_, ?_, by simp [hline], h.calls⟩
    · simp only [edit_concat, Edited.key]
      rw [hpending, h.committed]
    · simp only [edit_concat, Edited.key, hline]
  split
  · obtain ⟨hord, hline, hpending⟩ := h.ordered.backspace
    refine ⟨hord, ?_, ?_, fun hmem => ?_, h.calls⟩
    · simp only [edit_concat, Edited.key]
      rw [hpending, h.committed]
    · simp only [edit_concat, Edited.key, hline, h.line]
    · simp only [hline] at hmem
      exact h.plain (List.dropLast_subset _ hmem)
  split
  · next hroom => exact h.accept hroom.2
  · exact h

theorem Disciplined.consoleintr {l : List UInt8} (h : Disciplined s) :
    Disciplined (s.consoleintr l) := by
  induction l generalizing s with
  | nil => exact h
  | cons c l ih => exact ih h.intrChar

/-- What a section of `consoleread` does to the buffer. -/
theorem consoleread_pending {x : Input} (killed : Bool) (call : Read) (h : x.Ordered) :
    (consoleread killed call x).input.Ordered ∧ (consoleread killed call x).input.line = x.line ∧
      x.pending = (consoleread killed call x).consumed ++
      (consoleread killed call x).input.pending := by
  unfold consoleread
  split
  · obtain ⟨hord, hline, d, hd, hrest⟩ := readLoop_pending killed call.target call.n.toNat [] h
    exact ⟨hord, hline, by rw [hd, List.nil_append, hrest]⟩
  · exact ⟨h, rfl, rfl⟩

variable [DecidableEq T]

/-- A change of one thread. -/
theorem Disciplined.setThread {x : Thread} (h : Disciplined s)
    (hx : ∀ c, x.call = some c → c.n ≤ c.target) : Disciplined (s.setThread t x) := by
  refine ⟨h.ordered, h.committed, h.line, h.plain, fun t' c hc => ?_⟩
  by_cases ht : t' = t
  · subst ht
    simp only [Sys.setThread, Function.update_self] at hc
    exact hx c hc
  · simp only [Sys.setThread, Function.update_of_ne ht] at hc
    exact h.calls t' c hc

theorem Disciplined.read {call : Read} (h : Disciplined s) (hcall : call.n ≤ call.target) :
    Disciplined (s.read t call) := by
  obtain ⟨hord, hline, hpending⟩ := consoleread_pending (s.thread t).killed call h.ordered
  have hmid : Disciplined ({ s with
      input := (consoleread (s.thread t).killed call s.input).input,
      consumed := s.consumed ++ (consoleread (s.thread t).killed call s.input).consumed } :
          Sys T) := by
    refine ⟨hord, ?_, ?_, ?_, h.calls⟩
    · simp only [h.committed, List.append_assoc]
      rw [← hpending]
    · simp only [h.line, hline]
    · simp only [hline]
      exact h.plain
  unfold Sys.read
  simp only
  split
  · next c hsleep =>
    refine hmid.setThread fun c' hc' => ?_
    obtain rfl := Option.some.inj hc'
    unfold consoleread at hsleep
    split at hsleep
    · obtain ⟨htarget, hn⟩ := readLoop_sleep hsleep
      omega
    · cases hsleep
  · exact hmid.setThread (by simp)

theorem Disciplined.step {a : Act T} (h : Disciplined s) (hs : Step s a s') : Disciplined s' := by
  cases hs with
  | intr => exact h.consoleintr
  | call _ =>
    refine h.setThread fun c hc => ?_
    obtain rfl := Option.some.inj hc
    exact Int.le_refl _
  | read hcall _ => exact h.read (h.calls _ _ hcall)
  | kill => exact h.setThread fun c hc => h.calls _ c hc

theorem disciplined_of_reach (h : Reach Init Step s) : Disciplined s := by
  induction h with
  | init h => exact h.disciplined
  | step _ hs ih => exact ih.step hs

/-- How a section of `consoleread` treats control-D: it stores none; it consumes one only
at the start of a read, which then returns 0; and it ends at one that it meets. -/
def EndsAtEof (call : Read) (x : Input) (f : Effect) : Prop :=
  ctrlD ∉ f.dst ∧
    (f.consumed = f.dst ∨
      f.consumed = [ctrlD] ∧ f.dst = [] ∧ call.n = call.target ∧ f.outcome = .ret 0) ∧
    ∀ d rest, x.pending = d ++ ctrlD :: rest → ctrlD ∉ d → newline ∉ d → d.length < call.n →
      f.dst = d ∧ f.outcome = .ret (call.target - (call.n - d.length))

omit [DecidableEq T] in
theorem consoleread_eof {x : Input} {killed : Bool} {call : Read} (h : call.n ≤ call.target) :
    EndsAtEof call x (consoleread killed call x) := by
  unfold consoleread
  split
  · next hn =>
    obtain ⟨hdst, hcons⟩ := readLoop_eof x killed (List.not_mem_nil (a := ctrlD))
      (show (call.n.toNat + ([] : List UInt8).length : Int) ≤
        call.target by simp only [List.length_nil]; omega)
    refine ⟨hdst, hcons.imp id fun ⟨h1, h2, h3, h4⟩ => ⟨h1, h2, by omega, h4⟩,
      fun d rest hp hd hnl hlt => ?_⟩
    obtain ⟨hd', hout⟩ := readLoop_stops killed call.target (k := call.n.toNat) (l := []) hp hd hnl
      (by omega)
    refine ⟨hd', ?_⟩
    rw [hout, Int.toNat_of_nonneg (by omega)]
  · refine ⟨by simp, .inl rfl, fun d rest _ _ _ hlt => ?_⟩
    omega

/-- The line discipline: the counters stay in order, the keys that edit leave what is
committed, and what reads consume is a prefix of what is committed, with control-D ending
a read. -/
theorem line_discipline (h : Reach Init Step s) :
    (gap s.input.r s.input.w ≤ gap s.input.r s.input.e ∧ gap s.input.r s.input.e ≤ INPUT_BUF) ∧
      (∀ c, c = ctrlU ∨ c = ctrlH ∨ c = del →
        (s.intrChar c).input.r = s.input.r ∧ (s.intrChar c).input.w = s.input.w ∧
          (s.intrChar c).input.pending = s.input.pending) ∧
      s.consumed <+: (edit s.keys).committed ∧
      ∀ t call, (s.thread t).call = some call →
        EndsAtEof call s.input (consoleread (s.thread t).killed call s.input) := by
  have hd := disciplined_of_reach h
  have hsum := hd.ordered.gap_eq
  have hle := hd.ordered
  unfold Input.Ordered at hle
  refine ⟨⟨by omega, by omega⟩, fun c hc => ?_, ⟨_, hd.committed.symm⟩, fun t call hcall =>
    consoleread_eof (hd.calls t call hcall)⟩
  have hP : c ≠ ctrlP := by
    rcases hc with rfl | rfl | rfl <;> decide
  unfold Sys.intrChar
  rw [if_neg hP]
  split
  · obtain ⟨-, hr, hw⟩ := killLoop_frame (k := gap s.input.w s.input.e) (x := s.input)
    exact ⟨hr, hw, (hd.ordered.killLine hd.plain).2.2⟩
  · next hU =>
    rw [if_pos (hc.resolve_left hU)]
    refine ⟨?_, ?_, hd.ordered.backspace.2.2⟩
    · simp only [Input.backspace]
      split <;> rfl
    · simp only [Input.backspace]
      split <;> rfl

end

/-- The counters are about to wrap around. -/
def late : Sys Unit where
  input := ⟨fun _ => 0, 0xfffffffe, 0xfffffffe, 0xfffffffe⟩
  thread _ := ⟨none, false, false⟩
  keys := []
  consumed := []

/-- A line is typed, with a slip, and read. -/
def typed : Sys Unit :=
  ((late.consoleintr [97, 98, del, 99, cr]).setThread () ⟨some ⟨8, 8⟩, false, false⟩).read () ⟨8, 8⟩

theorem typed_discipline : typed.input.r = 1 ∧ typed.consumed = [97, 99, newline] ∧
    typed.consumed <+: (edit typed.keys).committed := by
  have hinit : Init late := ⟨rfl, rfl, fun _ => ⟨rfl, rfl⟩, rfl, rfl⟩
  have h1 : Reach Init Step (late.consoleintr [97, 98, del, 99, cr]) :=
    (Reach.init hinit).step .intr
  have h2 := h1.step (.call (t := ()) (n := 8) rfl)
  have h3 : Reach Init Step typed := h2.step (.read (t := ()) (c := ⟨8, 8⟩) rfl rfl)
  exact ⟨by decide, by decide, (line_discipline h3).2.2.1⟩

end Xv6Rework.Console
