import Xv6Rework.Lib.Machine
import Xv6Rework.User.Ulib
import Mathlib.Data.List.Infix
import Mathlib.Data.Vector.Basic

/-!
# Login

`user/login.c`: the user and the password line are copied into buffers that stay from one
attempt to the next, both are copied one behind the other into an array on the stack, and that
is compared, with its newlines made blanks and cut at the length of `/passwd`, to what `/passwd`
holds.

The stack's old contents come with each attempt, and an access outside an array is undefined.

An attempt succeeds exactly if what `/passwd` holds is how the two lines begin, with what an
earlier, longer user line has left between them (`verify_iff`).  So it need not be that the
lines are the stored user and password: `Unambiguous` says when this makes no difference.
-/

namespace Xv6Rework.Login

open Ulib

/-- `MAX_USER_LEN`. -/
def MAX_USER_LEN : Nat := 40

/-- `MAX_PASSWD_LEN`. -/
def MAX_PASSWD_LEN : Nat := 40

/-- `' '`. -/
def space : UInt8 := 32

/-- The end of a line is made a blank. -/
def blank (c : UInt8) : UInt8 := if c = newline ∨ c = cr then space else c

/-- The loops of `verify_credentials` that make newlines blanks, as long as
`i < strlen(b) + more`. -/
def blankLoop (more : Nat) : Nat → Nat → List UInt8 → Option (List UInt8)
  | 0, _, _ => none
  | fuel + 1, i, b => do
    let n ← strlen b
    if i < n + more then
      let c ← b[i]?
      blankLoop more fuel (i + 1) (if c = newline ∨ c = cr then b.set i space else b)
    else some b

/-- Such a loop from the start of `b`. -/
def blanks (more : Nat) (b : List UInt8) : Option (List UInt8) := blankLoop more (b.length + 2) 0 b

/-- The array of `verify_credentials` that is compared: `entry` as it was on the stack, and
what is made of it before `/passwd` is read. -/
def makeEntry (entry username password : List UInt8) (lenUsername lenPassword : Nat) :
    Option (List UInt8) := do
  let entry ← memmoveAt entry 0 username lenUsername
  let entry ← memmoveAt entry lenUsername password lenPassword
  let entry ← store entry (lenUsername + 1 + lenPassword) 0
  blanks 0 entry

/-- `verify_credentials`.  `passwd` is what the file holds, if it can be opened; `entry` and
`buf` are the arrays on the stack as they were. -/
def verifyCredentials (passwd : Option (List UInt8)) (entry buf username password : List UInt8) :
    Option Int :=
  match passwd with
  | none => some (-1)
  | some file => do
    let lenUsername ← strlen username
    let lenPassword ← strlen password
    if MAX_USER_LEN ≤ lenUsername ∨ MAX_PASSWD_LEN ≤ lenPassword then some (-1)
    else
      let entry ← makeEntry entry username password lenUsername lenPassword
      let bytesRead := min file.length buf.length
      let buf ← memmoveAt buf 0 file bytesRead
      let buf ← store buf bytesRead 0
      let entry ← store entry bytesRead 0
      let buf ← blanks 1 buf
      let x ← strcmp buf entry
      some (if x = 0 then 0 else -1)

/-- `getcmd`; what it returns is not used. -/
def getcmd (buf : List UInt8) (nbuf : Nat) (input : List UInt8) :
    Option (List UInt8 × List UInt8) := do
  let buf ← memset buf 0 nbuf
  gets buf nbuf input

/-- The variables of `main`. -/
structure Main where
  buf : List UInt8
  username : List UInt8
  password : List UInt8
  attempts : Nat
  /-- `finish` has been reached. -/
  shell : Bool
deriving DecidableEq, Repr

/-- Static variables are zero. -/
def Main.start : Main := ⟨List.replicate 100 0, List.replicate 50 0, List.replicate 50 0, 0, false⟩

/-- What comes with an attempt: the input, and what is on the stack. -/
structure Attempt where
  input : List UInt8
  entry : List UInt8
  buf : List UInt8

/-- `main` from `start:` to the next `goto`, with what `verify_credentials` returned and the
input that is left. -/
def attempt (passwd : Option (List UInt8)) (s : Main) (a : Attempt) :
    Option (Int × Main × List UInt8) :=
  if 3 < s.attempts then none
  else do
    let (buf, input) ← getcmd s.buf MAX_USER_LEN a.input
    let n ← strlen buf
    let username ← memmoveAt s.username 0 buf n
    let n ← strlen username
    let username ← store username n 0
    let (buf, input) ← getcmd buf MAX_PASSWD_LEN input
    let n ← strlen buf
    let password ← memmoveAt s.password 0 buf n
    let result ← verifyCredentials passwd a.entry a.buf username password
    if result = 0 then return (result, { s with buf, username, password, shell := true }, input)
    else return (result, { s with buf, username, password, attempts := s.attempts + 1 }, input)

/-! ## Lines and accounts -/

/-- What can be typed on a line and fits the buffers. -/
structure Line where
  chars : List UInt8
  length_le : chars.length ≤ 38
  plain : ∀ c ∈ chars, c ≠ 0 ∧ c ≠ newline ∧ c ≠ cr

/-- A line without blanks. -/
structure Word extends Line where
  noBlank : space ∉ chars

/-- A user and a password, and whether `/passwd` ends in a newline. -/
structure Account where
  user : Word
  password : Word
  newline : Bool

/-- What `/passwd` holds. -/
def Account.file (acc : Account) : List UInt8 :=
  acc.user.chars ++ space :: (acc.password.chars ++ if acc.newline then [Ulib.newline] else [])

/-- What is to follow the user and a blank. -/
def Account.stored (acc : Account) : List UInt8 :=
  acc.password.chars ++ if acc.newline then [space] else []

/-- An attempt in which a user and a password line are typed. -/
structure Typed where
  user : Line
  password : Line
  entry : List.Vector UInt8 (MAX_USER_LEN + MAX_PASSWD_LEN + 1)
  buf : List.Vector UInt8 (MAX_USER_LEN + MAX_PASSWD_LEN + 1)

def Typed.attempt (a : Typed) : Attempt where
  input := a.user.chars ++ newline :: (a.password.chars ++ [newline])
  entry := a.entry.toList
  buf := a.buf.toList

/-- An attempt in which `verify_credentials` returns `x.2`. -/
def step (acc : Account) (s : Main) (x : Typed × Int) : Option Main :=
  if s.shell then none
  else match attempt (some acc.file) s x.1.attempt with
    | some (r, s', []) => if x.2 = r then some s' else none
    | _ => none

/-- The machine: attempts follow each other until one succeeds. -/
def Step (acc : Account) (s : Main) (x : Typed × Int) (s' : Main) : Prop := step acc s x = some s'

/-- The attempt succeeds exactly if the stored user and password are typed. -/
def Exact (acc : Account) (_ : Main) (x : Typed × Int) : Prop :=
  x.2 = 0 ↔ x.1.user.chars = acc.user.chars ∧ x.1.password.chars = acc.password.chars

instance {acc : Account} {s : Main} {x : Typed × Int} : Decidable (Exact acc s x) :=
  inferInstanceAs (Decidable (_ ↔ _))

/-- What earlier lines have left in a buffer behind a line and its newline. -/
def residue (b : List UInt8) (l : Line) : List UInt8 :=
  (b.takeWhile (· ≠ 0)).drop (l.chars.length + 1)

/-- What is compared to the password after the user line. -/
def said (t : List UInt8) (l : Line) : List UInt8 := t.map blank ++ l.chars ++ [space]

/-- Nothing an earlier user line has left, no longer password, and no user line that begins
with the user's name and a blank makes a difference. -/
structure Unambiguous (acc : Account) (s : Main) (x : Typed × Int) : Prop where
  residue : x.1.user.chars = acc.user.chars → x.1.password.chars = acc.password.chars →
    acc.stored <+: said (residue s.username x.1.user) x.1.password
  extension : x.1.user.chars = acc.user.chars → x.1.password.chars ≠ acc.password.chars →
    ¬ acc.stored <+: said (Login.residue s.username x.1.user) x.1.password
  split : ∀ v, x.1.user.chars = acc.user.chars ++ space :: v →
    ¬ acc.stored <+: v ++ space :: said (Login.residue s.username x.1.user) x.1.password

/-! ## The loops over the arrays -/

theorem blank_ne_zero {c : UInt8} (h : c ≠ 0) : blank c ≠ 0 := by
  unfold blank
  split
  · decide
  · exact h

theorem zero_notMem_map_blank {s : List UInt8} (h : 0 ∉ s) : 0 ∉ s.map blank := by
  simp only [List.mem_map, not_exists, not_and]
  intro c hc
  exact blank_ne_zero fun h0 => h (h0 ▸ hc)

/-- One turn of the loop, before a character of the string. -/
theorem blankLoop_cons {more fuel : Nat} {s t r : List UInt8} {c : UInt8} (hs : 0 ∉ s)
    (ht : 0 ∉ c :: t) : blankLoop more (fuel + 1) s.length (s ++ c :: t ++ 0 :: r) =
      blankLoop more fuel (s.length + 1) (s ++ blank c :: t ++ 0 :: r) := by
  have hlen : strlen (s ++ c :: t ++ 0 :: r) = some (s ++ c :: t).length :=
    strlen_eq (by rw [List.mem_append, not_or]; exact ⟨hs, ht⟩)
  rw [blankLoop, hlen]
  have hlt : s.length < (s ++ c :: t).length + more := by simp; omega
  have hset : (if c = newline ∨ c = cr then (s ++ c :: t ++ 0 :: r).set s.length space else s ++
      c :: t ++ 0 :: r) = s ++ blank c :: t ++ 0 :: r := by
    unfold blank
    split <;> simp
  simp only [Option.bind_eq_bind, Option.bind_some, if_pos hlt]
  rw [show (s ++ c :: t ++ 0 :: r)[s.length]? = some c by simp, Option.bind_some, hset]

/-- At the end of the string the loop ends, with at most one more turn. -/
theorem blankLoop_nil {more fuel : Nat} {s r : List UInt8} (hs : 0 ∉ s) (hmore : more ≤ 1) :
    blankLoop more (fuel + 2) s.length (s ++ 0 :: r) = some (s ++ 0 :: r) := by
  have hlast : blankLoop more (fuel + 1) (s.length + more) (s ++ 0 :: r) = some (s ++ 0 :: r) := by
    rw [blankLoop, strlen_eq hs]
    simp
  rcases Nat.le_one_iff_eq_zero_or_eq_one.mp hmore with rfl | rfl
  · rw [blankLoop, strlen_eq hs]
    simp
  · have hzero : ¬ ((0 : UInt8) = newline ∨ (0 : UInt8) = cr) := by decide
    rw [blankLoop, strlen_eq hs]
    simp only [Option.bind_eq_bind, Option.bind_some, if_pos (Nat.lt_succ_self _)]
    rw [show (s ++ 0 :: r)[s.length]? = some 0 by simp, Option.bind_some, if_neg hzero, hlast]

theorem blankLoop_eq {more n : Nat} {s t r : List UInt8} (hs : 0 ∉ s) (ht : 0 ∉ t)
    (hmore : more ≤ 1) :
    blankLoop more (t.length + n + 2) s.length (s ++ t ++ 0 :: r) =
      some (s ++ t.map blank ++ 0 :: r) := by
  induction t generalizing s with
  | nil =>
    rw [List.map_nil, List.append_nil]
    exact blankLoop_nil hs hmore
  | cons c t ih =>
    have hc : blank c ≠ 0 := blank_ne_zero fun h => ht (h ▸ List.mem_cons_self)
    have hloop := ih (s := s ++ [blank c]) (by simpa [hs] using Ne.symm hc) fun h =>
      ht (List.mem_cons_of_mem c h)
    rw [List.length_cons, show t.length + 1 + n + 2 = t.length + n + 2 + 1 by omega,
      blankLoop_cons hs ht]
    simpa using hloop

/-- Newlines are made blanks throughout the string. -/
theorem blanks_eq {m : Nat} {s r : List UInt8} (hs : 0 ∉ s) (hm : m ≤ 1) :
    blanks m (s ++ 0 :: r) = some (s.map blank ++ 0 :: r) := by
  have hloop := blankLoop_eq (s := []) (r := r) (n := (0 :: r).length) (by simp) hs hm
  rw [blanks, List.length_append]
  simpa using hloop

/-- The array to be compared holds both strings and one byte more that was there before. -/
theorem makeEntry_eq {entry w v r q : List UInt8} (hlen : entry.length = 81)
    (hw : 0 ∉ w) (hv : 0 ∉ v) (hwlen : w.length ≤ 39) (hvlen : v.length ≤ 39) :
    ∃ y r'', makeEntry entry (w ++ 0 :: r) (v ++ 0 :: q) w.length v.length =
      some ((w ++ v).map blank ++ y :: 0 :: r'') ∧ ((w ++ v).map blank ++ y :: 0 :: r'').length =
      81 := by
  have hfirst := memmoveAt_append (s := []) (t := w) (r := 0 :: r) (b := entry) (by omega)
  have hsecond := memmoveAt_append (s := w) (t := v) (r := 0 :: q) (b := entry.drop w.length)
    (by simp; omega)
  have hrest : (List.drop v.length (List.drop w.length entry)).length =
      81 - w.length - v.length := by
    rw [List.length_drop, List.length_drop, hlen]
  -- the byte behind the strings is not written
  obtain ⟨y, l, hy⟩ := List.exists_cons_of_length_pos
    (l := List.drop v.length (List.drop w.length entry)) (by omega)
  rw [hy, List.length_cons] at hrest
  obtain ⟨z, l, rfl⟩ := List.exists_cons_of_length_pos (l := l) (by omega)
  have hstore : store (w ++ v ++ y :: z :: l) (w.length + 1 + v.length) 0 =
      some (w ++ v ++ y :: 0 :: l) := by
    have hat := store_append (s := w ++ v ++ [y]) (d := z) (r := l) (c := 0)
    rw [List.length_append, List.length_append, List.length_singleton, Nat.add_right_comm] at hat
    simpa using hat
  have hwv : 0 ∉ w ++ v := by rw [List.mem_append, not_or]; exact ⟨hw, hv⟩
  have hblanks : ∃ y', blanks 0 (w ++ v ++ y :: 0 :: l) =
      some ((w ++ v).map blank ++ y' :: 0 :: l) := by
    by_cases hy0 : y = 0
    · exact ⟨0, by rw [hy0]; exact blanks_eq hwv (by omega)⟩
    · refine ⟨blank y, ?_⟩
      have := blanks_eq (m := 0) (s := w ++ v ++ [y]) (r := l) (by simp_all [Ne.symm hy0])
        (by omega)
      simpa using this
  obtain ⟨y', hblanks⟩ := hblanks
  refine ⟨y', l, ?_, ?_⟩
  · simp only [List.nil_append, List.length_nil] at hfirst
    simp only [makeEntry, hfirst, hsecond, hy, hstore, hblanks, Option.bind_eq_bind,
      Option.bind_some]
  · simp only [List.length_cons] at hrest
    simp only [List.length_append, List.length_map, List.length_cons]
    omega

/-- What is left of the array when it is cut at `n`. -/
theorem cut_eq {w r : List UInt8} {y : UInt8} {n : Nat} (hw : 0 ∉ w)
    (hn : n < (w ++ y :: 0 :: r).length) :
    ∃ z r', store (w ++ y :: 0 :: r) n 0 = some (z ++ 0 :: r') ∧ 0 ∉ z ∧
      ∀ b : List UInt8, b.length = n → (b = z → b <+: w ∨ b = w ++ [y]) ∧ (b <+: w → b = z) := by
  rw [store, if_pos hn]
  rcases Nat.lt_or_ge w.length n with hlt | hle
  · -- behind both strings: what is compared is longer than they are
    obtain ⟨k, rfl⟩ := Nat.exists_eq_add_of_lt hlt
    obtain ⟨r', hr'⟩ : ∃ r', (0 :: r).set k 0 = 0 :: r' := by
      cases k with
      | zero => exact ⟨r, rfl⟩
      | succ k => exact ⟨r.set k 0, rfl⟩
    have hset : (w ++ y :: 0 :: r).set (w.length + k + 1) 0 = w ++ y :: 0 :: r' := by
      rw [List.set_append_right _ _ (by omega), show w.length + k + 1 - w.length = k + 1 by omega,
        List.set_cons_succ, hr']
    have hlong : ∀ b : List UInt8, b.length = w.length + k + 1 → ¬ b <+: w := fun b hb hpre => by
      have := hpre.length_le
      omega
    by_cases hy : y = 0
    · refine ⟨w, 0 :: r', by rw [hset, hy], hw, fun b hb =>
        ⟨fun h => .inl (h ▸ List.prefix_rfl), fun h => ?_⟩⟩
      exact absurd h (hlong b hb)
    · refine ⟨w ++ [y], r', by simp [hset], by simp [hw, Ne.symm hy], fun b hb =>
        ⟨.inr, fun h => ?_⟩⟩
      exact absurd h (hlong b hb)
  · have hset : ∃ r', (w ++ y :: 0 :: r).set n 0 = w.take n ++ 0 :: r' := by
      rw [List.set_eq_take_append_cons_drop, if_pos hn, List.take_append_of_le_length hle]
      exact ⟨_, rfl⟩
    obtain ⟨r', hset⟩ := hset
    refine ⟨w.take n, r', by rw [hset], fun h => hw (List.mem_of_mem_take h), fun b hb =>
      ⟨fun h => .inl ?_, fun h => ?_⟩⟩
    · exact h ▸ List.take_prefix n w
    · rw [← hb]
      exact List.prefix_iff_eq_take.mp h

/-! ## What is accepted -/

/-- The file is compared to the beginning of both strings.  If it is longer than they are by one
byte, that byte is compared to one that was never written. -/
theorem verifyCredentials_eq {file entry buf w v r q : List UInt8} (hentry : entry.length = 81)
    (hbuf : buf.length = 81) (hfile : 0 ∉ file) (hlen : file.length ≤ 80) (hw : 0 ∉ w) (hv : 0 ∉ v)
    (hwlen : w.length ≤ 39) (hvlen : v.length ≤ 39) :
    ∃ x y, verifyCredentials (some file) entry buf (w ++ 0 :: r) (v ++ 0 :: q) = some x ∧
      (x = 0 → file.map blank <+: (w ++ v).map blank ∨ file.map blank = (w ++ v).map blank ++ [y]) ∧
      (file.map blank <+: (w ++ v).map blank → x = 0) := by
  obtain ⟨y, l, hmake, hmakelen⟩ := makeEntry_eq (r := r) (q := q) hentry hw hv hwlen hvlen
  have hwv : 0 ∉ w ++ v := by rw [List.mem_append, not_or]; exact ⟨hw, hv⟩
  obtain ⟨z, l', hcut, hz, hiff⟩ := cut_eq (n := file.length) (zero_notMem_map_blank hwv)
    (by rw [hmakelen]; omega)
  have hmin : min file.length buf.length = file.length := by omega
  have hread := memmoveAt_append (s := []) (t := file) (r := []) (b := buf) (by omega)
  simp only [List.nil_append, List.length_nil, List.append_nil] at hread
  obtain ⟨d, m, hd⟩ := List.exists_cons_of_length_pos (l := buf.drop file.length) (by simp; omega)
  obtain ⟨x, hcmp, hx⟩ := strcmp_eq (r := m) (q := l') (zero_notMem_map_blank hfile) hz
  have hshort : ¬ (MAX_USER_LEN ≤ w.length ∨ MAX_PASSWD_LEN ≤ v.length) := by
    simp [MAX_USER_LEN, MAX_PASSWD_LEN]
    omega
  refine ⟨if x = 0 then 0 else -1, y, ?_, ?_, ?_⟩
  · simp only [verifyCredentials, strlen_eq hw, strlen_eq hv, Option.bind_eq_bind, Option.bind_some,
      if_neg hshort, hmake, hmin, hread, hd, store_append, hcut, blanks_eq hfile le_rfl, hcmp]
  · intro h
    have hx0 : x = 0 := by by_contra hne; simp [hne] at h
    exact (hiff _ (by simp)).1 (hx.mp hx0)
  · intro h
    rw [if_pos (hx.mpr ((hiff _ (by simp)).2 h))]

theorem blank_of_plain {c : UInt8} (h : c ≠ newline ∧ c ≠ cr) : blank c = c := by simp [blank, h]

/-- A line has no newlines to be made blanks. -/
theorem Line.map_blank (l : Line) : l.chars.map blank = l.chars := by
  conv_rhs => rw [← List.map_id l.chars]
  exact List.map_congr_left fun c hc => blank_of_plain (l.plain c hc).2

theorem Line.zero_notMem (l : Line) : 0 ∉ l.chars := fun h => (l.plain 0 h).1 rfl

/-- A word and a blank are the beginning of a line and a blank, if the line is the word or
goes on with a blank after it. -/
theorem word_prefix_iff {w u x y : List UInt8} (hw : space ∉ w) :
    w ++ space :: x <+: u ++ space :: y ↔
      (u = w ∧ x <+: y) ∨ ∃ v, u = w ++ space :: v ∧ x <+: v ++ space :: y := by
  induction w generalizing u with
  | nil =>
    cases u with
    | nil => simp
    | cons c u => simp [List.cons_prefix_cons, eq_comm]
  | cons d w ih =>
    rw [List.mem_cons, not_or] at hw
    cases u with
    | nil => simp [List.cons_prefix_cons, Ne.symm hw.1]
    | cons c u =>
      simp only [List.cons_append, List.cons_prefix_cons, ih hw.2, List.cons.injEq]
      by_cases hcd : c = d
      · simp [hcd]
      · simp [hcd, Ne.symm hcd]

namespace Account

variable (acc : Account)

theorem map_blank_file : acc.file.map blank = acc.user.chars ++ space :: acc.stored := by
  have hspace : blank space = space := by decide
  have hnewline : blank Ulib.newline = space := by decide
  rw [file, stored, List.map_append, List.map_cons, List.map_append, acc.user.map_blank,
    acc.password.map_blank, hspace]
  cases acc.newline <;> simp [hnewline]

theorem length_file : acc.file.length ≤ 78 := by
  have hu := acc.user.length_le
  have hp := acc.password.length_le
  unfold file
  cases acc.newline <;> simp <;> omega

theorem zero_notMem_file : 0 ∉ acc.file := by
  have hu := acc.user.zero_notMem
  have hp := acc.password.zero_notMem
  unfold file
  cases acc.newline <;> simp [hu, hp, space, Ulib.newline]

theorem length_stored : acc.stored.length ≤ acc.password.chars.length + 1 := by
  unfold stored
  cases acc.newline <;> simp

/-- The first blank ends what is compared to the password. -/
theorem stored_prefix_iff {z y : List UInt8} : acc.stored <+: z ++ space :: y ↔
    acc.stored <+: z ++ [space] := by
  have hline : z ++ [space] <+: z ++ space :: y := ⟨y, by simp⟩
  refine ⟨fun h => ?_, fun h => h.trans hline⟩
  rcases Nat.lt_or_ge (z ++ [space]).length acc.stored.length with hlt | hle
  · -- the password would have a blank in it
    have hpre : z ++ [space] <+: acc.password.chars := by
      have hlen := acc.length_stored
      exact List.prefix_of_prefix_length_le (List.prefix_of_prefix_length_le hline h hlt.le)
        (List.prefix_append _ _) (by omega)
    exact absurd (hpre.mem (by simp)) acc.password.noBlank
  · exact List.prefix_of_prefix_length_le h hline hle

/-- There is one blank in the file, not counting its last byte. -/
theorem count_dropLast : (acc.user.chars ++ space :: acc.stored).dropLast.count space ≤ 1 := by
  have hu := List.count_eq_zero_of_not_mem acc.user.noBlank
  have hp := List.count_eq_zero_of_not_mem acc.password.noBlank
  unfold stored
  cases acc.newline with
  | false =>
    refine (List.Sublist.count_le space (List.dropLast_sublist _)).trans ?_
    simp [hu, hp]
  | true =>
    have hlast : acc.user.chars ++ space :: (acc.password.chars ++ [space]) =
        (acc.user.chars ++ space :: acc.password.chars) ++ [space] := by simp
    simp only [if_true]
    rw [hlast, List.dropLast_concat]
    simp [hu, hp]

end Account

/-- What a user and a password buffer hold, behind the lines that were typed last. -/
def held (l : Line) (t : List UInt8) : List UInt8 := l.chars ++ newline :: t

/-- What is accepted: the file is the beginning of what has been typed, with what was
behind the user line before. -/
theorem verify_iff (acc : Account) {entry buf r q t t' : List UInt8} {u p : Line}
    (hentry : entry.length = 81) (hbuf : buf.length = 81) (hu : 0 ∉ held u t) (hp : 0 ∉ held p t')
    (hulen : (held u t).length ≤ 39) (hplen : (held p t').length ≤ 39) :
    ∃ x, verifyCredentials (some acc.file) entry buf (held u t ++ 0 :: r) (held p t' ++ 0 :: q) =
        some x ∧
      (x = 0 ↔ acc.user.chars ++ space :: acc.stored <+: u.chars ++ space :: said t p) := by
  have hnewline : blank newline = space := by decide
  obtain ⟨x, y, hx, hacc, hrej⟩ := verifyCredentials_eq (r := r) (q := q) hentry hbuf
    acc.zero_notMem_file (acc.length_file.trans (by omega)) hu hp hulen hplen
  have hmap : (held u t ++ held p t').map blank = u.chars ++
      space :: (t.map blank ++ p.chars ++ space :: t'.map blank) := by
    simp [held, u.map_blank, p.map_blank, hnewline]
  have hiff : acc.user.chars ++ space :: acc.stored <+: u.chars ++
      space :: (t.map blank ++ p.chars ++ space :: t'.map blank) ↔
      acc.user.chars ++ space :: acc.stored <+: u.chars ++ space :: said t p := by
    rw [word_prefix_iff acc.user.noBlank, word_prefix_iff acc.user.noBlank,
      acc.stored_prefix_iff, said]
    refine or_congr Iff.rfl (exists_congr fun v => and_congr Iff.rfl ?_)
    have := acc.stored_prefix_iff (z := v ++ space :: (t.map blank ++ p.chars)) (y := t'.map blank)
    simpa using this
  rw [acc.map_blank_file, hmap, hiff] at hacc
  rw [acc.map_blank_file, hmap, hiff] at hrej
  refine ⟨x, hx, fun h => ?_, hrej⟩
  rcases hacc h with hpre | heq
  · exact hpre
  · -- the newlines of both lines would be blanks of the file
    have hcount := acc.count_dropLast
    rw [heq, List.dropLast_concat] at hcount
    simp only [List.count_append, List.count_cons_self] at hcount
    omega

/-! ## Attempts -/

/-- A buffer of `main` holds a string, and zeros behind it. -/
structure Holds (b w : List UInt8) : Prop where
  eq : b = w ++ List.replicate (50 - w.length) 0
  zero_notMem : 0 ∉ w
  length_le : w.length ≤ 39

/-- What is the same before every attempt. -/
structure Inv (s : Main) : Prop where
  buf : s.buf.length = 100
  username : ∃ w, Holds s.username w
  password : ∃ w, Holds s.password w

theorem Inv.start : Inv Main.start :=
  ⟨by simp [Main.start], ⟨[], by simp [Main.start], by simp, by simp⟩,
    ⟨[], by simp [Main.start], by simp, by simp⟩⟩

theorem Holds.residue {b w : List UInt8} (h : Holds b w) (l : Line) :
    residue b l = w.drop (l.chars.length + 1) := by
  have hw : ∀ c ∈ w, decide (c ≠ 0) = true := fun c hc => decide_eq_true fun h0 =>
    h.zero_notMem (h0 ▸ hc)
  have hlen := h.length_le
  rw [Login.residue, h.eq, List.takeWhile_append_of_pos hw, show 50 - w.length =
    49 - w.length + 1 by omega, List.replicate_succ]
  simp

/-- A line is copied over what is there. -/
theorem Holds.copy {b w r : List UInt8} (h : Holds b w) (l : Line) :
    ∃ b', memmoveAt b 0 (l.chars ++ newline :: 0 :: r) (l.chars.length + 1) = some b' ∧
      Holds b' (held l (Login.residue b l)) := by
  have hlen := h.length_le
  have hl := l.length_le
  have hcopy := memmoveAt_append (s := []) (t := l.chars ++ [newline]) (r := 0 :: r) (b := b)
    (by rw [h.eq]; simp; omega)
  simp only [List.nil_append, List.length_nil, List.length_append, List.length_singleton,
    List.append_assoc, List.singleton_append] at hcopy
  refine ⟨_, hcopy, ?_, ?_, ?_⟩
  · rw [h.residue, held]
    nth_rewrite 1 [h.eq]
    rw [List.drop_append, List.drop_replicate]
    simp only [List.append_assoc, List.cons_append, List.length_append, List.length_cons,
      List.length_drop]
    congr 4
    omega
  · rw [h.residue, held]
    have hdrop : 0 ∉ w.drop (l.chars.length + 1) := fun h0 => h.zero_notMem
      (List.mem_of_mem_drop h0)
    simp [l.zero_notMem, hdrop, newline]
  · rw [h.residue, held]
    simp only [List.length_append, List.length_cons, List.length_drop]
    omega

/-- `getcmd` reads the line that was typed. -/
theorem getcmd_line {b r : List UInt8} (hb : b.length = 100) (l : Line) :
    ∃ r', getcmd b 40 (l.chars ++ newline :: r) = some (l.chars ++ newline :: 0 :: r', r) ∧
      (l.chars ++ newline :: 0 :: r').length = 100 := by
  have hl := l.length_le
  have hset : (List.replicate 40 (0 : UInt8) ++ b.drop 40).length = 100 := by simp [hb]
  have hgets := gets_line (b := List.replicate 40 0 ++ b.drop 40) (m := 40) (r := r)
    (fun c hc => (l.plain c hc).2) (by omega) (by omega)
  refine ⟨(List.replicate 40 0 ++ b.drop 40).drop (l.chars.length + 2), ?_, ?_⟩
  · rw [getcmd, memset_eq (by omega), Option.bind_eq_bind, Option.bind_some, hgets]
  · rw [List.length_append, List.length_cons, List.length_cons, List.length_drop, hset]
    omega

theorem strlen_line {r : List UInt8} (l : Line) :
    strlen (l.chars ++ newline :: 0 :: r) = some (l.chars.length + 1) := by
  have hlen := strlen_eq (s := l.chars ++ [newline]) (r := r) (by simp [l.zero_notMem, newline])
  simpa using hlen

theorem Holds.strlen {b w : List UInt8} (h : Holds b w) :
    ∃ r, b = w ++ 0 :: r ∧ strlen b = some w.length ∧ store b w.length 0 = some b := by
  have hlen := h.length_le
  have heq : b = w ++ 0 :: List.replicate (49 - w.length) 0 := by
    rw [← List.replicate_succ, show 49 - w.length + 1 = 50 - w.length by omega]
    exact h.eq
  exact ⟨_, heq, by rw [heq]; exact strlen_eq h.zero_notMem, by rw [heq]; exact store_append⟩

/-- One attempt. -/
theorem attempt_spec (acc : Account) {s : Main} (h : Inv s) (hs : ¬ 3 < s.attempts) (a : Typed) :
    ∃ x s', attempt (some acc.file) s a.attempt = some (x, s', []) ∧ Inv s' ∧
      (x = 0 ↔ acc.user.chars ++ space :: acc.stored <+:
        a.user.chars ++ space :: said (residue s.username a.user) a.password) := by
  obtain ⟨r1, hget1, hlen1⟩ := getcmd_line (r := a.password.chars ++ [newline]) h.buf a.user
  obtain ⟨r2, hget2, hlen2⟩ := getcmd_line (r := []) hlen1 a.password
  obtain ⟨w, hw⟩ := h.username
  obtain ⟨v, hv⟩ := h.password
  obtain ⟨username, hcopy1, husername⟩ := hw.copy (r := r1) a.user
  obtain ⟨password, hcopy2, hpassword⟩ := hv.copy (r := r2) a.password
  obtain ⟨r, hr, hstrlen, hstore⟩ := husername.strlen
  obtain ⟨r', hr', -, -⟩ := hpassword.strlen
  obtain ⟨x, hverify, hx⟩ := verify_iff acc (r := r) (q := r') a.entry.toList_length
    a.buf.toList_length husername.zero_notMem hpassword.zero_notMem husername.length_le
    hpassword.length_le
  rw [← hr, ← hr'] at hverify
  have hattempt : attempt (some acc.file) s a.attempt = some (x,
      let t := { s with buf := a.password.chars ++ newline :: 0 :: r2, username, password }
      if x = 0 then { t with shell := true } else { t with attempts := s.attempts + 1 }, []) := by
    have hget1 : getcmd s.buf MAX_USER_LEN _ = _ := hget1
    have hget2 : getcmd _ MAX_PASSWD_LEN _ = _ := hget2
    simp only [attempt, if_neg hs, Typed.attempt, hget1, hget2, strlen_line, hcopy1, hcopy2,
      hstrlen, hstore, hverify, Option.bind_eq_bind, Option.bind_some]
    by_cases hx0 : x = 0 <;> simp [hx0]
  refine ⟨x, _, hattempt, ?_, hx⟩
  split
  all_goals exact ⟨hlen2, ⟨_, husername⟩, ⟨_, hpassword⟩⟩

theorem Step.attempt {acc : Account} {s s' : Main} {x : Typed × Int} (h : Step acc s x s') :
    attempt (some acc.file) s x.1.attempt = some (x.2, s', []) := by
  unfold Step step at h
  split at h
  · cases h
  · split at h
    · next heq =>
      split at h
      · next hx =>
        cases h
        rw [heq, hx]
      · cases h
    · cases h

theorem Inv.step {acc : Account} {s s' : Main} {x : Typed × Int} (h : Inv s)
    (hs : Step acc s x s') : Inv s' ∧ (x.2 = 0 ↔ acc.user.chars ++ space :: acc.stored <+:
      x.1.user.chars ++ space :: said (residue s.username x.1.user) x.1.password) := by
  have hattempts : ¬ 3 < s.attempts := fun hlt => by
    have := hs.attempt
    rw [Login.attempt, if_pos hlt] at this
    cases this
  obtain ⟨y, t, ht, hinv, hy⟩ := attempt_spec acc h hattempts x.1
  obtain ⟨rfl, rfl⟩ : x.2 = y ∧ s' = t := by
    have := hs.attempt.symm.trans ht
    simp only [Option.some.injEq, Prod.mk.injEq, and_true] at this
    exact this
  exact ⟨hinv, hy⟩

/-- An attempt is exact if and only if it is unambiguous. -/
theorem Inv.exact_iff {acc : Account} {s s' : Main} {x : Typed × Int} (h : Inv s)
    (hs : Step acc s x s') : Exact acc s x ↔ Unambiguous acc s x := by
  rw [Exact, (h.step hs).2, word_prefix_iff acc.user.noBlank]
  constructor
  · intro hiff
    refine ⟨fun hu hp => ?_, fun hu hp hpre => hp (hiff.mp (.inl ⟨hu, hpre⟩)).2,
      fun v hv hpre => ?_⟩
    · rcases hiff.mpr ⟨hu, hp⟩ with ⟨-, hpre⟩ | ⟨v, hv, -⟩
      · exact hpre
      · exact absurd (hu.symm.trans hv) (by simp)
    · have := (hiff.mp (.inr ⟨v, hv, hpre⟩)).1.symm.trans hv
      simp at this
  · intro hu
    constructor
    · rintro (⟨huser, hpre⟩ | ⟨v, hv, hpre⟩)
      · exact ⟨huser, by_contra fun hp => hu.extension huser hp hpre⟩
      · exact absurd hpre (hu.split v hv)
    · rintro ⟨huser, hpassword⟩
      exact .inl ⟨huser, hu.residue huser hpassword⟩

/-- In a sequence of attempts all are exact if and only if all are unambiguous. -/
theorem exact_iff_unambiguous {acc : Account} {l : List ((Typed × Int) × Main)}
    (h : Trace (Step acc) Main.start l) :
    Trace.Meets (Exact acc) Main.start l ↔ Trace.Meets (Unambiguous acc) Main.start l :=
  h.meets_congr Inv (by intro s x s' hi hs; exact (hi.step hs).1)
    (by intro s x s' hi hs; exact hi.exact_iff hs) .start

/-- "root" and "toor", with no newline at the end of the file. -/
def rootAccount : Account where
  user := ⟨⟨[114, 111, 111, 116], by decide, by decide +kernel⟩, by decide +kernel⟩
  password := ⟨⟨[116, 111, 111, 114], by decide, by decide +kernel⟩, by decide +kernel⟩
  newline := false

/-- An attempt with a zero stack. -/
def typed (user password : Line) : Typed := ⟨user, password, .replicate _ 0, .replicate _ 0⟩

/-- The right lines. -/
def right : Typed := typed rootAccount.user.toLine rootAccount.password.toLine

/-- "root" and "toor!". -/
def longer : Typed := typed rootAccount.user.toLine
    ⟨[116, 111, 111, 114, 33], by decide, by decide +kernel⟩

/-- "nobody" and "toor". -/
def nobody : Typed := typed ⟨[110, 111, 98, 111, 100, 121], by decide, by decide +kernel⟩
    rootAccount.password.toLine

/-- The right lines, typed first, are accepted. -/
theorem exact_unambiguous_root :
    let l := Trace.follow (step rootAccount) Main.start [(right, 0)]
    Trace.Meets (Exact rootAccount) Main.start l ∧
      Trace.Meets (Unambiguous rootAccount) Main.start l := by
  intro l
  have hexact : Trace.Meets (Exact rootAccount) Main.start l := by decide +kernel
  exact ⟨hexact, (exact_iff_unambiguous (Trace.of_follow (by decide +kernel))).mp hexact⟩

/-- A longer password is accepted; and after an attempt by "nobody" the right lines are not,
as "y" and a newline are left behind "root". -/
theorem not_exact_root :
    let extended := Trace.follow (step rootAccount) Main.start [(longer, 0)]
    let stale := Trace.follow (step rootAccount) Main.start [(nobody, -1), (right, -1)]
    (Trace (Step rootAccount) Main.start extended ∧
      ¬ Trace.Meets (Exact rootAccount) Main.start extended) ∧
    Trace (Step rootAccount) Main.start stale ∧
      ¬ Trace.Meets (Exact rootAccount) Main.start stale :=
  ⟨⟨Trace.of_follow (by decide +kernel), by decide +kernel⟩, Trace.of_follow
    (by decide +kernel), by decide +kernel⟩

end Xv6Rework.Login
