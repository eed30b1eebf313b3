import Mathlib.Data.List.Basic
import Mathlib.Algebra.GroupWithZero.Nat

/-!
# The matcher of `grep`

`match`, `matchhere` and `matchstar` of `user/grep.c`.  A string is a list of bytes with its
terminator, and a pointer into it is the list from there on; an access behind the terminator is
undefined, and gives `none`.

`Lang` is the meaning of a pattern: which strings it stands for, given what follows them in the
text.  There is one equation for each form a pattern can have, and the matcher is compared with
them.
-/

namespace Xv6Rework.Grep

/-- `'.'`. -/
def dot : UInt8 := 46

/-- `'*'`. -/
def star : UInt8 := 42

/-- `'$'`. -/
def dollar : UInt8 := 36

/-- `'^'`. -/
def caret : UInt8 := 94

/-! ## The code -/

/-- `matchstar`, where `here` is `matchhere` with the rest of the pattern. -/
def matchstar (here : List UInt8 → Option Bool) (c : UInt8) : List UInt8 → Option Bool
  | [] => do
    if ← here [] then some true else none
  | t :: text => do
    if ← here (t :: text) then
      some true
    else if t ≠ 0 ∧ (t = c ∨ c = dot) then
      matchstar here c text
    else
      some false

/-- `matchhere`. -/
def matchhere : List UInt8 → List UInt8 → Option Bool
  | [], _ => none
  | r :: re, text =>
    if r = 0 then
      some true
    else
      match re with
      | [] => none
      | r1 :: re2 =>
        if r1 = star then
          matchstar (matchhere re2) r text
        else
          match text with
          | [] => none
          | t :: text =>
            if r = dollar ∧ r1 = 0 then
              some (t = 0)
            else if t ≠ 0 ∧ (r = dot ∨ r = t) then
              matchhere (r1 :: re2) text
            else
              some false

/-- The loop of `match`. -/
def matchLoop (re : List UInt8) : List UInt8 → Option Bool
  | [] => do
    if ← matchhere re [] then some true else none
  | t :: text => do
    if ← matchhere re (t :: text) then
      some true
    else if t ≠ 0 then
      matchLoop re text
    else
      some false

/-- `match`. -/
def matchRe : List UInt8 → List UInt8 → Option Bool
  | [], _ => none
  | r :: re, text => if r = caret then matchhere re text else matchLoop (r :: re) text

/-! ## What a pattern means -/

/-- A character of a pattern stands for a character. -/
def Stands (c x : UInt8) : Prop := c = dot ∨ c = x

/-- The pattern stands for a string that has `rest` behind it. -/
inductive Lang : List UInt8 → List UInt8 → List UInt8 → Prop
  | /-- The empty pattern stands for the empty string. -/
    nil {rest : List UInt8} : Lang [] [] rest
  | /-- Any number of repetitions. -/
    repeat {c : UInt8} {re xs s rest : List UInt8} (all : ∀ x ∈ xs, Stands c x)
      (next : Lang re s rest) : Lang (c :: star :: re) (xs ++ s) rest
  | /-- The end of the text. -/
    last : Lang [dollar] [] []
  | /-- A character for itself, or any one character. -/
    char {c x : UInt8} {re s rest : List UInt8} (single : re.head? ≠ some star)
      (inner : c = dollar → re ≠ []) (stands : Stands c x) (next : Lang re s rest) :
      Lang (c :: re) (x :: s) rest

/-- A prefix of the text is in the language. -/
def Here (re text : List UInt8) : Prop := ∃ s rest, text = s ++ rest ∧ Lang re s rest

/-- A substring of the text is in the language, or a prefix if the pattern is anchored. -/
def Found (re text : List UInt8) : Prop :=
  if re.head? = some caret then Here re.tail text else ∃ skipped text', text = skipped ++ text' ∧
    Here re text'

section

variable {c : UInt8} {re text : List UInt8}

theorem here_nil : Here [] text := ⟨[], text, rfl, .nil⟩

theorem here_repeat : Here (c :: star :: re) text ↔
    ∃ xs text', text = xs ++ text' ∧ (∀ x ∈ xs, Stands c x) ∧ Here re text' := by
  constructor
  · rintro ⟨s, rest, rfl, h⟩
    cases h with
    | «repeat» hall hnext => exact ⟨_, _, List.append_assoc .., hall, _, _, rfl, hnext⟩
    | char hsingle => exact absurd rfl hsingle
  · rintro ⟨xs, _, rfl, hall, s, rest, rfl, hnext⟩
    exact ⟨xs ++ s, rest, (List.append_assoc ..).symm, .repeat hall hnext⟩

theorem here_last : Here [dollar] text ↔ text = [] := by
  constructor
  · rintro ⟨s, rest, rfl, h⟩
    cases h with
    | last => rfl
    | char _ hinner => exact absurd rfl (hinner rfl)
  · rintro rfl
    exact ⟨[], [], rfl, .last⟩

theorem here_char (hsingle : re.head? ≠ some star) (hinner : c = dollar → re ≠ []) :
    Here (c :: re) text ↔ ∃ x text', text = x :: text' ∧ Stands c x ∧ Here re text' := by
  constructor
  · rintro ⟨s, rest, rfl, h⟩
    cases h with
    | «repeat» => exact absurd rfl hsingle
    | last => exact absurd rfl (hinner rfl)
    | char _ _ hstands hnext => exact ⟨_, _, rfl, hstands, _, _, rfl, hnext⟩
  · rintro ⟨x, _, rfl, hstands, s, rest, rfl, hnext⟩
    exact ⟨x :: s, rest, rfl, .char hsingle hinner hstands hnext⟩

end

/-! ## The matcher decides it -/

/-- A function of C that returns, and returns 1 exactly if a fact holds. -/
def Decides (o : Option Bool) (p : Prop) : Prop := ∃ b, o = some b ∧ (b = true ↔ p)

section

variable {here : List UInt8 → Option Bool} {p : List UInt8 → Prop} {c : UInt8}
  {re text q r : List UInt8}

theorem Decides.congr {o : Option Bool} {p q : Prop} (h : Decides o p) (hpq : p ↔ q) :
    Decides o q := by
  obtain ⟨b, hb, hiff⟩ := h
  exact ⟨b, hb, hiff.trans hpq⟩

theorem decides_some {p : Prop} {b : Bool} (h : b = true ↔ p) : Decides (some b) p := ⟨b, rfl, h⟩

/-- One round of a loop that looks for a match from here on. -/
theorem Decides.round {o rest : Option Bool} {q : Prop} {r : Prop} (h : Decides o q)
    (hrest : Decides rest r) : Decides (do if ← o then some true else rest) (q ∨ r) := by
  obtain ⟨b, rfl, hq⟩ := h
  cases b with
  | true => exact ⟨true, rfl, iff_of_true rfl (.inl (hq.1 rfl))⟩
  | false =>
    refine hrest.congr ⟨.inr, fun h => h.resolve_left fun hq' => ?_⟩
    cases hq.2 hq'

/-- `matchstar` tries the rest of the pattern behind every run of characters that `c` stands
for. -/
theorem matchstar_decides (h0 : 0 ∉ text)
    (hhere : ∀ t, 0 ∉ t → Decides (here (t ++ 0 :: r)) (p t)) :
    Decides (matchstar here c (text ++ 0 :: r))
      (∃ xs text', text = xs ++ text' ∧ (∀ x ∈ xs, Stands c x) ∧ p text') := by
  induction text with
  | nil =>
    refine (Decides.round (hhere [] h0) (decides_some (p := False) (by simp))).congr ?_
    simp
  | cons t text ih =>
    rw [List.mem_cons, not_or] at h0
    by_cases hc : t = c ∨ c = dot
    · have hround := (hhere (t :: text) (by simp [h0])).round (ih h0.2)
      rw [List.cons_append] at hround ⊢
      rw [matchstar]
      simp only [ne_eq, Ne.symm h0.1, not_false_eq_true, hc, and_self, if_true]
      refine hround.congr ⟨?_, ?_⟩
      · rintro (hp | ⟨xs, text', rfl, hall, hp⟩)
        · exact ⟨[], t :: text, rfl, by simp, hp⟩
        · refine ⟨t :: xs, text', rfl, List.forall_mem_cons.2 ⟨?_, hall⟩, hp⟩
          exact hc.symm.imp_right Eq.symm
      · rintro ⟨xs, text', heq, hall, hp⟩
        cases xs with
        | nil => exact .inl (heq ▸ hp)
        | cons x xs =>
          obtain ⟨rfl, rfl⟩ := List.cons_eq_cons.1 heq
          exact .inr ⟨xs, text', rfl, (List.forall_mem_cons.1 hall).2, hp⟩
    · have hround := (hhere (t :: text) (by simp [h0])).round
        (decides_some (p := False) (b := false) (by simp))
      rw [List.cons_append] at hround ⊢
      rw [matchstar]
      simp only [hc, and_false, if_false]
      refine hround.congr ⟨?_, ?_⟩
      · rintro (hp | hp)
        · exact ⟨[], t :: text, rfl, by simp, hp⟩
        · exact hp.elim
      · rintro ⟨xs, text', heq, hall, hp⟩
        cases xs with
        | nil => exact .inl (heq ▸ hp)
        | cons x xs =>
          obtain ⟨rfl, rfl⟩ := List.cons_eq_cons.1 heq
          exact absurd ((List.forall_mem_cons.1 hall).1.symm.imp_left Eq.symm) hc

theorem matchhere_star (hc : c ≠ 0) :
    matchhere (c :: star :: re) text = matchstar (matchhere re) c text := by
  rw [matchhere.eq_def]
  simp [hc]

theorem matchhere_cons {t r1 : UInt8} (hc : c ≠ 0) (hr1 : r1 ≠ star)
    (hlast : ¬(c = dollar ∧ r1 = 0)) : matchhere (c :: r1 :: re) (t :: text) =
      if t ≠ 0 ∧ (c = dot ∨ c = t) then matchhere (r1 :: re) text else some false := by
  rw [matchhere.eq_def]
  simp only [if_neg hc, if_neg hr1, if_neg hlast]

@[simp] theorem matchhere_zero : matchhere (0 :: re) text = some true := by
  rw [matchhere.eq_def]
  rfl

/-- The step on a single character, where `next` is what the matcher says of the rest. -/
theorem matchhere_char {r1 : UInt8} {re2 : List UInt8} (hc : c ≠ 0) (h0 : 0 ∉ text)
    (hr1 : r1 ≠ star) (hlast : ¬(c = dollar ∧ r1 = 0))
    (hnext : ∀ t, 0 ∉ t → Decides (matchhere (r1 :: re2) (t ++ 0 :: r)) (p t)) :
    Decides (matchhere (c :: r1 :: re2) (text ++ 0 :: r))
      (∃ x text', text = x :: text' ∧ Stands c x ∧ p text') := by
  cases text with
  | nil =>
    rw [List.nil_append, matchhere_cons hc hr1 hlast, if_neg fun h => h.1 rfl]
    exact decides_some (by simp)
  | cons t text =>
    rw [List.mem_cons, not_or] at h0
    rw [List.cons_append, matchhere_cons hc hr1 hlast]
    by_cases hstands : c = dot ∨ c = t
    · rw [if_pos ⟨Ne.symm h0.1, hstands⟩]
      refine (hnext text h0.2).congr ⟨fun h => ⟨t, text, rfl, hstands, h⟩, ?_⟩
      rintro ⟨x, text', heq, -, h⟩
      obtain ⟨-, rfl⟩ := List.cons_eq_cons.1 heq
      exact h
    · rw [if_neg fun h => hstands h.2]
      refine decides_some (iff_of_false Bool.false_ne_true ?_)
      rintro ⟨x, text', heq, h, -⟩
      obtain ⟨rfl, -⟩ := List.cons_eq_cons.1 heq
      exact hstands h

end

/-- `matchhere` looks for a prefix in the language.  What is behind the terminators does not
matter. -/
theorem matchhere_decides {q r : List UInt8} : ∀ re text : List UInt8, 0 ∉ re → 0 ∉ text →
    Decides (matchhere (re ++ 0 :: q) (text ++ 0 :: r)) (Here re text)
  | [], text, _, _ => ⟨true, matchhere_zero, iff_of_true rfl here_nil⟩
  | [c], text, hre, h0 => by
    have hc : c ≠ 0 := fun h => hre (by simp [h])
    by_cases hlast : c = dollar
    · -- the end of the text is its terminator
      subst hlast
      refine Decides.congr ?_ here_last.symm
      cases text with
      | nil => exact decides_some (by simp)
      | cons t text =>
        rw [List.mem_cons, not_or] at h0
        exact decides_some (by simp [Ne.symm h0.1])
    · refine Decides.congr ?_ (here_char (by simp) (absurd · hlast)).symm
      exact matchhere_char hc h0 (by decide) (fun h => hlast h.1) fun t _ =>
        ⟨true, matchhere_zero, iff_of_true rfl here_nil⟩
  | c :: d :: re, text, hre, h0 => by
    simp only [List.mem_cons, not_or] at hre
    by_cases hd : d = star
    · subst hd
      refine Decides.congr ?_ here_repeat.symm
      rw [List.cons_append, List.cons_append, matchhere_star (Ne.symm hre.1)]
      exact matchstar_decides h0 fun t ht => matchhere_decides re t hre.2.2 ht
    · refine Decides.congr ?_ (here_char (by simp [hd]) fun _ => List.cons_ne_nil _ _).symm
      refine matchhere_char (Ne.symm hre.1) h0 hd (fun h => hre.2.1 h.2.symm) fun t ht => ?_
      exact matchhere_decides (d :: re) t (by simp [hre.2]) ht

/-- The loop of `match` tries every place of the text, its end as the last. -/
theorem matchLoop_decides {re text q r : List UInt8} (hre : 0 ∉ re) (h0 : 0 ∉ text) :
    Decides (matchLoop (re ++ 0 :: q) (text ++ 0 :: r))
      (∃ skipped text', text = skipped ++ text' ∧ Here re text') := by
  induction text with
  | nil =>
    refine ((matchhere_decides re [] hre h0).round (decides_some (p := False) (b := false)
      (by simp))).congr ?_
    simp
  | cons t text ih =>
    rw [List.mem_cons, not_or] at h0
    have hround := (matchhere_decides (q := q) (r := r) re (t :: text) hre (by simp [h0])).round
      (ih h0.2)
    rw [List.cons_append] at hround ⊢
    rw [matchLoop]
    simp only [ne_eq, Ne.symm h0.1, not_false_eq_true, if_true]
    refine hround.congr ⟨?_, ?_⟩
    · rintro (h | ⟨skipped, text', rfl, h⟩)
      · exact ⟨[], t :: text, rfl, h⟩
      · exact ⟨t :: skipped, text', rfl, h⟩
    · rintro ⟨skipped, text', heq, h⟩
      cases skipped with
      | nil => exact .inl (heq ▸ h)
      | cons x skipped =>
        obtain ⟨-, rfl⟩ := List.cons_eq_cons.1 heq
        exact .inr ⟨skipped, text', rfl, h⟩

theorem matchRe_found {re text q r : List UInt8} (hre : 0 ∉ re) (h0 : 0 ∉ text) :
    Decides (matchRe (re ++ 0 :: q) (text ++ 0 :: r)) (Found re text) := by
  cases re with
  | nil => exact matchLoop_decides hre h0
  | cons c re =>
    rw [List.cons_append, matchRe, Found]
    by_cases hc : c = caret
    · rw [if_pos hc, if_pos (show (c :: re).head? = some caret from congrArg some hc)]
      exact matchhere_decides re text (fun h => hre (List.mem_cons_of_mem _ h)) h0
    · rw [if_neg hc, if_neg (show (c :: re).head? ≠ some caret from fun h =>
        hc (Option.some.inj h))]
      exact matchLoop_decides hre h0

theorem matchRe_append {re text q r : List UInt8} (hre : 0 ∉ re) (h0 : 0 ∉ text) :
    matchRe (re ++ 0 :: q) (text ++ 0 :: r) = matchRe (re ++ [0]) (text ++ [0]) := by
  obtain ⟨b, hb, hiff⟩ := matchRe_found (q := q) (r := r) hre h0
  obtain ⟨b', hb', hiff'⟩ := matchRe_found (q := []) (r := []) hre h0
  rw [hb, hb', Bool.eq_iff_iff.2 (hiff.trans hiff'.symm)]

/-- `match` returns for every pattern and text, without a read behind either terminator, and
says whether the pattern is found. -/
theorem matchRe_decides (re text : List UInt8) (hre : 0 ∉ re) (h0 : 0 ∉ text) :
    Decides (matchRe (re ++ [0]) (text ++ [0])) (Found re text) :=
  matchRe_found hre h0

/-- The pattern `a*$` in the text `ba`. -/
theorem matchRe_decides_tail : Found [97, star, dollar] [98, 97] := by
  obtain ⟨b, hrun, hiff⟩ := matchRe_decides [97, star, dollar] [98, 97] (by decide) (by decide)
  have htrue : matchRe ([97, star, dollar] ++ [0]) ([98, 97] ++ [0]) = some true := by
    decide +kernel
  exact hiff.1 (Option.some.inj (hrun.symm.trans htrue))

end Xv6Rework.Grep
