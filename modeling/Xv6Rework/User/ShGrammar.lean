import Xv6Rework.User.Sh
import Mathlib.Data.Nat.Basic

/-!
# The shell's grammar

The language that `parsecmd` accepts: `Lex` splits a line into tokens, and the relations
from `Redirs` to `Line` derive a command from tokens, after

    line  ::= pipe '&'* [';' line]
    pipe  ::= exec ['|' pipe]
    exec  ::= '(' line ')' redir* | redir* (word redir*)*
    redir ::= ('<' | '>' | '>>') word

with fewer than `MAXARGS` words in a simple command.  A redirection is wrapped around
the command that has been derived so far.

The functions of the parser are then correct in both directions.  What a function
returns is derived from the tokens it has passed (the lemmas named `_sound`, which also
say that the count of calls suffices), and if the tokens at hand start with those of a
derivation, and go on with one that may follow, the function returns what they derive
(the lemmas named `_complete`).  The cursor stands for the tokens that are left.
-/

namespace Xv6Rework.Sh

open Prog
open List (length_append length_cons)

/-! ## Tokens -/

/-- A token: a symbol, where `plus` is `>>`, or a word with its place. -/
inductive Tok where
  | sym (c : UInt8)
  | word (q e : Nat)
deriving DecidableEq, Repr

/-- `Lex x s ts`: from the offset `s` on, the tokens of the line are `ts`. -/
inductive Lex (x : Text) : Nat → List Tok → Prop
  | done : Lex x x.es []
  | blank {s : Nat} {ts : List Tok} : s < x.es → x.mem s ∈ whitespace →
    Lex x (s + 1) ts → Lex x s ts
  | sym {s : Nat} {ts : List Tok} : s < x.es → x.mem s ∈ symbols → x.mem s ≠ greater →
      Lex x (s + 1) ts → Lex x s (.sym (x.mem s) :: ts)
  | greater {s : Nat} {ts : List Tok} : s < x.es → x.mem s = greater → x.mem (s + 1) ≠ greater →
      Lex x (s + 1) ts → Lex x s (.sym greater :: ts)
  | plus {s : Nat} {ts : List Tok} : s + 1 < x.es → x.mem s = Sh.greater →
      x.mem (s + 1) = Sh.greater → Lex x (s + 2) ts → Lex x s (.sym plus :: ts)
  | word {s e : Nat} {ts : List Tok} : s < e → e ≤ x.es →
      (∀ i, s ≤ i → i < e → x.mem i ∉ whitespace ∧ x.mem i ∉ symbols) →
      (e < x.es → x.mem e ∈ whitespace ∨ x.mem e ∈ symbols) →
      Lex x e ts → Lex x s (.word s e :: ts)

/-! ## The grammar -/

/-- `Redirs c ts c'`: the redirections `ts` make `c'` of the command `c`. -/
inductive Redirs : Cmd → List Tok → Cmd → Prop
  | nil {c : Cmd} : Redirs c [] c
  | cons {c c' : Cmd} {t : UInt8} {q e : Nat} {ts : List Tok} : t = less ∨ t = greater ∨ t = plus →
      Redirs (c.redirect t q e) ts c' → Redirs c (.sym t :: .word q e :: ts) c'

/-- `Args c n ts c'`: the words and redirections `ts`, with `n` words, make `c'` of the
command `c`. -/
inductive Args : Cmd → Nat → List Tok → Cmd → Prop
  | nil {c : Cmd} : Args c 0 [] c
  | cons {c c' c'' : Cmd} {n q e : Nat} {ts us : List Tok} : Redirs (c.addArg q e) ts c' →
      Args c' n us c'' → Args c (n + 1) (.word q e :: ts ++ us) c''

/-- A command in the background as often as there are ampersands. -/
def backs : Nat → Cmd → Cmd
  | 0, c => c
  | n + 1, c => backs n (.back c)

mutual

/-- `line`. -/
inductive Line : List Tok → Cmd → Prop
  | last {ts : List Tok} {c : Cmd} {n : Nat} : Pipe ts c →
      Line (ts ++ List.replicate n (.sym amp)) (backs n c)
  | semi {ts us : List Tok} {c d : Cmd} {n : Nat} : Pipe ts c → Line us d →
      Line (ts ++ List.replicate n (.sym amp) ++ .sym semi :: us) (.list (backs n c) d)

/-- `pipe`. -/
inductive Pipe : List Tok → Cmd → Prop
  | last {ts : List Tok} {c : Cmd} : Exec ts c → Pipe ts c
  | bar {ts us : List Tok} {c d : Cmd} : Exec ts c → Pipe us d →
    Pipe (ts ++ .sym bar :: us) (.pipe c d)

/-- `exec`. -/
inductive Exec : List Tok → Cmd → Prop
  | block {ts us : List Tok} {c d : Cmd} : Line ts c → Redirs c us d →
      Exec (.sym lparen :: ts ++ .sym rparen :: us) d
  | simple {ts us : List Tok} {c d : Cmd} {n : Nat} : Redirs (.exec []) ts c → Args c n us d →
      n < MAXARGS → Exec (ts ++ us) d

end

/-! ## The cursor -/

section

variable {x : Text} {s : Nat} {ts : List Tok}

theorem mem_of_strchr {l : List UInt8} {c : UInt8} : strchr l c = true ↔ c ∈ l := by
  simp [strchr]

/-- Where a scan stops. -/
theorem scan_spec {p : UInt8 → Bool} {k : Nat} : s ≤ x.scan p k s ∧ x.scan p k s ≤ s + k ∧
    (∀ i, s ≤ i → i < x.scan p k s → p (x.mem i) = true) ∧
    (x.scan p k s < s + k → p (x.mem (x.scan p k s)) = false) := by
  induction k generalizing s with
  | zero =>
    exact ⟨le_rfl, le_rfl, fun i h1 h2 => absurd h2 (Nat.not_lt.2 h1),
      fun h => absurd h (lt_irrefl s)⟩
  | succ k ih =>
    rw [Text.scan]
    split
    · next hp =>
      obtain ⟨h1, h2, h3, h4⟩ := ih (s := s + 1)
      refine ⟨by omega, by omega, fun i hi hlt => ?_, fun hlt => h4 (by omega)⟩
      rcases Nat.eq_or_lt_of_le hi with rfl | hi
      · exact hp
      · exact h3 i hi hlt
    · next hp => exact ⟨le_rfl, by omega, fun i h1 h2 => absurd h2 (Nat.not_lt.2 h1),
        fun _ => by simpa using hp⟩

theorem Lex.le (h : Lex x s ts) : s ≤ x.es := by
  cases h with
  | done => exact le_rfl
  | blank hs _ _ => exact Nat.le_of_lt hs
  | sym hs _ _ _ => exact Nat.le_of_lt hs
  | greater hs _ _ _ => exact Nat.le_of_lt hs
  | plus hs _ _ _ => omega
  | word hs he _ _ _ => omega

/-- A token takes at least one character. -/
theorem Lex.length_le (h : Lex x s ts) : s + ts.length ≤ x.es := by
  induction h with
  | done => exact le_rfl
  | blank _ _ _ ih => omega
  | sym _ _ _ _ ih | greater _ _ _ _ ih =>
    rw [length_cons]
    omega
  | plus _ _ _ _ ih =>
    rw [length_cons]
    omega
  | word hs _ _ _ _ ih =>
    rw [length_cons]
    omega

theorem not_mem_symbols {c : UInt8} (h : c ∈ whitespace) : c ∉ symbols := by
  have hall : (whitespace.any symbols.contains) = false := rfl
  exact fun hc => List.any_eq_false.1 hall c h (List.contains_iff_mem.2 hc)

theorem greater_mem : greater ∈ symbols := by decide

/-- Blanks before the tokens do not count. -/
theorem Lex.of_blank (h : Lex x s ts) (hs : s < x.es) (hb : x.mem s ∈ whitespace) :
    Lex x (s + 1) ts := by
  cases h with
  | done => exact absurd hs (lt_irrefl _)
  | blank _ _ h => exact h
  | sym _ hsym _ _ => exact absurd hsym (not_mem_symbols hb)
  | greater _ hg _ _ => exact absurd (hg ▸ greater_mem) (not_mem_symbols hb)
  | plus _ hg _ _ => exact absurd (hg ▸ greater_mem) (not_mem_symbols hb)
  | word hlt _ hin _ _ => exact absurd hb (hin s le_rfl hlt).1

theorem Lex.skip (h : Lex x s ts) : Lex x (x.skip s) ts := by
  have hle := h.le
  have hskip : ∀ k s, s + k ≤ x.es → Lex x s ts → Lex x (x.scan (strchr whitespace) k s) ts := by
    intro k
    induction k with
    | zero => exact fun s _ h => h
    | succ k ih =>
      intro s hk h
      rw [Text.scan]
      split
      · next hb => exact ih (s + 1) (by omega) (h.of_blank (by omega) (mem_of_strchr.1 hb))
      · exact h
  exact hskip (x.es - s) s (by omega) h

/-- After the blanks comes the end or a character of a token. -/
theorem skip_stop (hs : s ≤ x.es) : x.skip s ≤ x.es ∧
    (x.skip s < x.es → x.mem (x.skip s) ∉ whitespace) := by
  obtain ⟨h1, h2, h3, h4⟩ := scan_spec (x := x) (s := s) (p := strchr whitespace) (k := x.es - s)
  refine ⟨?_, fun hlt hmem => ?_⟩
  · unfold Text.skip
    omega
  · unfold Text.skip at hlt hmem
    have hstop := h4 (by omega)
    rw [mem_of_strchr.2 hmem] at hstop
    cases hstop

/-- There is something left exactly if there are tokens left. -/
theorem Lex.skip_eq_iff (h : Lex x s ts) : x.skip s = x.es ↔ ts = [] := by
  have hstop := skip_stop h.le
  have hskip := h.skip
  constructor
  · intro he
    rw [he] at hskip
    generalize hes : x.es = e at hskip
    cases hskip with
    | done => rfl
    | blank hlt _ _ => omega
    | sym hlt _ _ _ => omega
    | greater hlt _ _ _ => omega
    | plus hlt _ _ _ => omega
    | word _ _ _ _ _ => omega
  · rintro rfl
    by_contra hne
    have hlt : x.skip s < x.es := by omega
    generalize x.skip s = s' at hskip hne hlt hstop
    cases hskip with
    | done => exact hne rfl
    | blank _ hb _ => exact hstop.2 hlt hb

/-- Every line has tokens. -/
theorem exists_lex (x : Text) (hs : s ≤ x.es) : ∃ ts, Lex x s ts := by
  obtain ⟨k, hk⟩ : ∃ k, k = x.es - s := ⟨_, rfl⟩
  induction k using Nat.strong_induction_on generalizing s with
  | _ k ih =>
    rcases Nat.eq_or_lt_of_le hs with rfl | hlt
    · exact ⟨[], .done⟩
    by_cases hb : x.mem s ∈ whitespace
    · obtain ⟨ts, h⟩ := ih (x.es - (s + 1)) (by omega) hlt rfl
      exact ⟨ts, .blank hlt hb h⟩
    by_cases hsym : x.mem s ∈ symbols
    · obtain ⟨ts, h⟩ := ih (x.es - (s + 1)) (by omega) hlt rfl
      by_cases hg : x.mem s = greater
      · by_cases hg' : x.mem (s + 1) = greater
        · have hne : s + 1 ≠ x.es := by
            intro he
            rw [he, x.nul] at hg'
            exact absurd hg' (by decide)
          obtain ⟨ts, h⟩ := ih (x.es - (s + 2)) (by omega) (s := s + 2) (by omega) rfl
          exact ⟨_, .plus (by omega) hg hg' h⟩
        · exact ⟨_, .greater hlt hg hg' h⟩
      · exact ⟨_, .sym hlt hsym hg h⟩
    · -- a word, up to where `word` stops
      obtain ⟨h1, h2, h3, h4⟩ := scan_spec (x := x) (s := s) (p := Text.inWord) (k := x.es - s)
      have hin : ∀ c, Text.inWord c = true ↔ c ∉ whitespace ∧ c ∉ symbols := by
        intro c
        simp [Text.inWord, strchr]
      have hpos : s < x.scan Text.inWord (x.es - s) s := by
        rcases Nat.eq_or_lt_of_le h1 with he | hlt
        · have := h4 (by omega)
          rw [← he, (hin _).2 ⟨hb, hsym⟩] at this
          cases this
        · exact hlt
      obtain ⟨ts, h⟩ := ih (x.es - x.scan Text.inWord (x.es - s) s) (by omega) (by omega) rfl
      refine ⟨_, .word hpos (by omega) (fun i hi hlt => (hin _).1 (h3 i hi hlt)) (fun hlt => ?_) h⟩
      have hstop := h4 (by omega)
      by_contra hn
      rw [not_or] at hn
      rw [(hin _).2 hn] at hstop
      cases hstop

/-- What a symbol starts with. -/
def first (c : UInt8) : UInt8 := if c = plus then greater else c

/-- What `peek` answers. -/
def peeks (toks : List UInt8) : List Tok → Bool
  | .sym c :: _ => toks.contains (first c)
  | _ => false

/-- What `gettoken` returns for the tokens that are left. -/
def Next (x : Text) (Q : UInt8 × Nat × Nat → Nat → Prop) : List Tok → Prop
  | [] => ∀ q e s', Lex x s' [] → Q (0, q, e) s'
  | .sym c :: ts => ∀ q e s', c ∈ plus :: symbols → Lex x s' ts → Q (c, q, e) s'
  | .word q e :: ts => ∀ s', Lex x s' ts → Q (letter, q, e) s'

theorem token_symbol {c : UInt8} (hc : c ∈ symbols) (hg : c ≠ greater) :
    c ≠ 0 ∧ [bar, lparen, rparen, semi, amp, less].contains c = true ∧ first c = c := by
  simp only [symbols, List.mem_cons, List.not_mem_nil, or_false] at hc
  rcases hc with rfl | rfl | rfl | rfl | rfl | rfl | rfl
  all_goals first | exact absurd rfl hg | exact ⟨by decide, rfl, rfl⟩

/-- A word ends where the scan for it stops. -/
theorem word_eq {e : Nat} (hs : s < e) (he : e ≤ x.es)
    (hin : ∀ i, s ≤ i → i < e → x.mem i ∉ whitespace ∧ x.mem i ∉ symbols)
    (hend : e < x.es → x.mem e ∈ whitespace ∨ x.mem e ∈ symbols) : x.word s = e := by
  obtain ⟨h1, h2, h3, h4⟩ := scan_spec (x := x) (s := s) (p := Text.inWord) (k := x.es - s)
  have hword : ∀ c, Text.inWord c = true ↔ c ∉ whitespace ∧ c ∉ symbols := by
    intro c
    simp [Text.inWord, strchr]
  unfold Text.word
  rcases Nat.lt_trichotomy (x.scan Text.inWord (x.es - s) s) e with hlt | heq | hgt
  · have hstop := h4 (by omega)
    rw [(hword _).2 (hin _ h1 hlt)] at hstop
    cases hstop
  · exact heq
  · obtain ⟨hb, hsym⟩ := (hword _).1 (h3 e (by omega) hgt)
    exact absurd (hend (by omega)) (by simp [hb, hsym])

theorem wp_gettoken {Q : UInt8 × Nat × Nat → Nat → Prop} {E : Stop → Nat → Prop} (h : Lex x s ts)
    (ok : Next x Q ts) : wp x.gettoken Q E s := by
  have hstop := (skip_stop h.le).2
  have hskip := h.skip
  simp only [Text.gettoken, wp_bind, wp_gets, wp_update, wp_pure]
  generalize x.skip s = q at hskip hstop
  cases hskip with
  | done =>
    have htok : x.token x.es = (0, x.es) := if_pos x.nul
    rw [htok]
    exact ok _ _ _ Lex.done.skip
  | blank hlt hb _ => exact absurd hb (hstop hlt)
  | sym _ hsym hg h' =>
    obtain ⟨h0, hmem, -⟩ := token_symbol hsym hg
    have htok : x.token q = (x.mem q, q + 1) := by rw [Text.token, if_neg h0, if_pos hmem]
    rw [htok]
    exact ok _ _ _ (List.mem_cons_of_mem _ hsym) h'.skip
  | greater _ hg hg' h' =>
    have htok : x.token q = (greater, q + 1) := by
      rw [Text.token, hg, if_neg (by decide), if_neg (by decide), if_pos rfl, if_neg hg']
    rw [htok]
    exact ok _ _ _ (by decide) h'.skip
  | plus _ hg hg' h' =>
    have htok : x.token q = (plus, q + 2) := by
      rw [Text.token, hg, if_neg (by decide), if_neg (by decide), if_pos rfl, if_pos hg']
    rw [htok]
    exact ok _ _ _ (by decide) h'.skip
  | word hlt he hin hend h' =>
    obtain ⟨-, hsym⟩ := hin q le_rfl hlt
    have h0 : x.mem q ≠ 0 := x.ne_nul q (by omega)
    have hlist : ¬[bar, lparen, rparen, semi, amp, less].contains (x.mem q) = true := by
      have hsub : [bar, lparen, rparen, semi, amp, less].all symbols.contains = true := rfl
      exact fun hmem => hsym (List.contains_iff_mem.1
        (List.all_eq_true.1 hsub _ (List.contains_iff_mem.1 hmem)))
    have hg : x.mem q ≠ greater := fun hg => hsym (hg ▸ greater_mem)
    have htok : x.token q = (letter, x.word q) := by
      rw [Text.token, if_neg h0, if_neg hlist, if_neg hg]
    rw [htok, word_eq hlt he hin hend]
    exact ok _ h'.skip

theorem wp_peek {Q : Bool → Nat → Prop} {E : Stop → Nat → Prop} {toks : List UInt8} (h : Lex x s ts)
    (hall : toks.all symbols.contains = true) (ok : ∀ s', Lex x s' ts → Q (peeks toks ts) s') :
    wp (x.peek toks) Q E s := by
  have htoks : ∀ c ∈ toks, c ∈ symbols := fun c hc => List.contains_iff_mem.1
    (List.all_eq_true.1 hall c hc)
  have hstop := (skip_stop h.le).2
  have hskip := h.skip
  simp only [Text.peek, wp_bind, wp_gets, wp_update, wp_pure]
  have hres : (x.mem (x.skip s) != 0 && strchr toks (x.mem (x.skip s))) = peeks toks ts := by
    generalize x.skip s = q at hskip hstop
    cases hskip with
    | done => simp [x.nul, peeks]
    | blank hlt hb _ => exact absurd hb (hstop hlt)
    | sym _ hsym hg _ =>
      obtain ⟨h0, -, hfirst⟩ := token_symbol hsym hg
      simp [peeks, hfirst, strchr, h0]
    | greater _ hg _ _ =>
      have hfirst : first greater = greater := by decide
      have h0 : greater ≠ 0 := by decide
      simp [peeks, hg, strchr, hfirst, h0]
    | plus _ hg _ _ =>
      have hfirst : first plus = greater := by decide
      have h0 : greater ≠ 0 := by decide
      simp [peeks, hg, strchr, hfirst, h0]
    | word hlt _ hin _ _ =>
      have hnot : x.mem q ∉ toks := fun hmem => (hin q le_rfl hlt).2 (htoks _ hmem)
      simp [peeks, strchr, hnot]
  rw [hres]
  exact ok _ h.skip

end

/-! ## What the parser returns is derived -/

section

variable {x : Text} {s k : Nat} {ts : List Tok} {c : Cmd}

/-- A panic is allowed; running out of calls is not. -/
def NoHang (e : Stop) (_ : Nat) : Prop := e ≠ .hang

theorem noHang_halt {msg : String} {Q : Cmd → Nat → Prop} : wp (halt msg) Q NoHang s :=
  wp_halt.2 (by rintro ⟨⟩)

/-- No symbol is taken for the end of the line or for a word. -/
theorem sym_ne {t : UInt8} (h : t ∈ plus :: symbols) : t ≠ 0 ∧ t ≠ letter := by
  have hall : ((plus :: symbols).any [0, letter].contains) = false := rfl
  have hnot : t ∉ [0, letter] := fun ht => List.any_eq_false.1 hall t h (List.contains_iff_mem.2 ht)
  simpa using hnot

/-- A function has passed some of the tokens, and derived a command from them. -/
def Passed (x : Text) (ts : List Tok) (P : List Tok → Cmd → Prop) (c : Cmd) (s : Nat) : Prop :=
  ∃ us ts', ts = us ++ ts' ∧ Lex x s ts' ∧ P us c

/-- The tokens for which `peek` says yes. -/
theorem peeks_eq_true {toks : List UInt8} (h : peeks toks ts = true) :
    ∃ t ts', ts = .sym t :: ts' ∧ first t ∈ toks := by
  match ts, h with
  | .sym t :: ts', h => exact ⟨t, ts', rfl, List.contains_iff_mem.1 h⟩

theorem first_eq {t d : UInt8} (h : first t ∈ [d]) (hd : d ≠ greater) : t = d := by
  rw [List.mem_singleton, first] at h
  split at h
  · exact absurd h.symm hd
  · exact h

theorem parsebacks_sound (h : Lex x s ts) (hk : ts.length < k) :
    wp (x.parsebacks k c)
      (Passed x ts fun us c' => ∃ n, us = List.replicate n (.sym amp) ∧ c' = backs n c)
      NoHang s := by
  induction k generalizing s ts c with
  | zero => omega
  | succ k ih =>
    simp only [Text.parsebacks, wp_bind]
    refine wp_peek h rfl fun s1 h1 => ?_
    rw [wp_ite]
    refine ⟨fun hp => ?_, fun _ => ⟨[], ts, rfl, h1, 0, rfl, rfl⟩⟩
    obtain ⟨t, ts', rfl, hfirst⟩ := peeks_eq_true hp
    obtain rfl := first_eq hfirst (by decide)
    rw [wp_bind]
    refine wp_gettoken h1 fun _ _ s2 _ h2 => ?_
    refine (ih h2 (by simpa using hk)).mono ?_ fun _ _ h => h
    rintro c' s3 ⟨us, ts'', rfl, h3, n, rfl, rfl⟩
    exact ⟨_, ts'', rfl, h3, n + 1, rfl, rfl⟩

theorem parseredirs_sound (h : Lex x s ts) (hk : ts.length < k) :
    wp (x.parseredirs k c) (Passed x ts (Redirs c)) NoHang s := by
  induction k generalizing s ts c with
  | zero => omega
  | succ k ih =>
    simp only [Text.parseredirs, wp_bind]
    refine wp_peek h rfl fun s1 h1 => ?_
    rw [wp_ite]
    refine ⟨fun hp => ?_, fun _ => ⟨[], ts, rfl, h1, .nil⟩⟩
    obtain ⟨t, ts, rfl, hfirst⟩ := peeks_eq_true hp
    have ht : t = less ∨ t = greater ∨ t = plus := by
      unfold first at hfirst
      split at hfirst
      · next heq => exact .inr (.inr heq)
      · simpa using Or.imp_right Or.inl (by simpa using hfirst)
    rw [wp_bind]
    refine wp_gettoken h1 fun _ _ s2 _ h2 => ?_
    rw [wp_bind]
    refine wp_gettoken h2 ?_
    rcases ts with _ | ⟨t' | ⟨q, e⟩, ts⟩
    · intro q e s3 h3
      rw [wp_ite]
      exact ⟨fun _ => noHang_halt, fun hn => absurd (show (0 : UInt8) ≠ letter by decide) hn⟩
    · intro q e s3 ht' h3
      rw [wp_ite]
      exact ⟨fun _ => noHang_halt, fun hn => absurd (sym_ne ht').2 hn⟩
    · intro s3 h3
      rw [wp_ite]
      refine ⟨fun hn => absurd rfl hn, fun _ => ?_⟩
      refine (ih h3 (by simp only [length_cons] at hk; omega)).mono ?_ fun _ _ h => h
      rintro c' s4 ⟨us, ts', rfl, h4, hder⟩
      exact ⟨_, ts', rfl, h4, .cons ht hder⟩

theorem parseargs_sound {argc : Nat} (h : Lex x s ts) (hk : ts.length < k)
    (hargc : argc < MAXARGS) :
    wp (x.parseargs k c argc)
      (Passed x ts fun us c' => ∃ n, argc + n < MAXARGS ∧ Args c n us c') NoHang s := by
  induction k generalizing s ts c argc with
  | zero => omega
  | succ k ih =>
    have hdone : ∀ s', Lex x s' ts →
        Passed x ts (fun us c' => ∃ n, argc + n < MAXARGS ∧ Args c n us c') c s' := fun s' h' =>
      ⟨[], ts, rfl, h', 0, hargc, .nil⟩
    simp only [Text.parseargs, wp_bind]
    refine wp_peek h rfl fun s1 h1 => ?_
    rw [wp_ite]
    refine ⟨fun _ => hdone s1 h1, fun _ => ?_⟩
    rw [wp_bind]
    refine wp_gettoken h1 ?_
    rcases ts with _ | ⟨t | ⟨q, e⟩, ts⟩
    · intro q e s2 h2
      rw [wp_ite]
      exact ⟨fun _ => hdone s2 h2, fun hn => absurd rfl hn⟩
    · intro q e s2 ht h2
      have hne := sym_ne ht
      rw [wp_ite, wp_ite]
      exact ⟨fun hz => absurd hz hne.1, fun _ => ⟨fun _ => noHang_halt, fun hn => absurd hne.2 hn⟩⟩
    · intro s2 h2
      rw [wp_ite, wp_ite, wp_ite]
      refine ⟨fun hz => absurd hz (show letter ≠ 0 by decide),
        fun _ => ⟨fun hn => absurd rfl hn, fun _ =>
        ⟨fun _ => noHang_halt, fun hlt => ?_⟩⟩⟩
      rw [length_cons] at hk
      rw [wp_bind]
      refine (parseredirs_sound h2 (by have := h2.length_le; omega)).mono ?_ fun _ _ h => h
      rintro c1 s3 ⟨us, ts1, rfl, h3, hred⟩
      rw [length_append] at hk
      refine (ih h3 (by omega) (by omega)).mono ?_ fun _ _ h => h
      rintro c2 s4 ⟨us', ts2, rfl, h4, n, hn, hargs⟩
      refine ⟨.word q e :: us ++ us', ts2, ?_, h4, n + 1, by omega, .cons hred hargs⟩
      simp

/-- The four functions that call each other, by induction on the count of calls. -/
theorem parse_sound (k : Nat) :
    (∀ s ts, Lex x s ts → 4 * ts.length + 4 ≤ k → wp (x.parseline k) (Passed x ts Line) NoHang s) ∧
    (∀ s ts, Lex x s ts → 4 * ts.length + 3 ≤ k → wp (x.parsepipe k) (Passed x ts Pipe) NoHang s) ∧
    (∀ s ts, Lex x s ts → 4 * ts.length + 2 ≤ k → wp (x.parseexec k) (Passed x ts Exec) NoHang s) ∧
    ∀ s ts, Lex x s ts → 4 * ts.length + 1 ≤ k →
      wp (x.parseblock k) (Passed x ts Exec) NoHang s := by
  induction k with
  | zero =>
    exact ⟨fun _ _ _ h => by omega, fun _ _ _ h => by omega, fun _ _ _ h => by omega,
      fun _ _ _ h => by omega⟩
  | succ k ih =>
    obtain ⟨ihline, ihpipe, ihexec, ihblock⟩ := ih
    refine ⟨fun s ts h hk => ?line, fun s ts h hk => ?pipe, fun s ts h hk => ?exec,
      fun s ts h hk => ?block⟩
    case line =>
      simp only [Text.parseline, wp_bind]
      refine (ihpipe s ts h (by omega)).mono ?_ fun _ _ h => h
      rintro c s1 ⟨us, ts1, rfl, h1, hpipe⟩
      refine (parsebacks_sound h1 (by have := h1.length_le; omega)).mono ?_ fun _ _ h => h
      rintro c1 s2 ⟨_, ts2, rfl, h2, n, rfl, rfl⟩
      refine wp_peek h2 rfl fun s3 h3 => ?_
      rw [wp_ite]
      refine ⟨fun hp => ?_, fun _ => ⟨us ++ List.replicate n (.sym amp), ts2, by simp, h3,
        .last hpipe⟩⟩
      obtain ⟨t, ts2, rfl, hfirst⟩ := peeks_eq_true hp
      obtain rfl := first_eq hfirst (by decide)
      rw [wp_bind]
      refine wp_gettoken h3 fun _ _ s4 _ h4 => ?_
      rw [wp_bind]
      simp only [length_append, length_cons] at hk
      refine (ihline s4 ts2 h4 (by omega)).mono ?_ fun _ _ h => h
      rintro c2 s5 ⟨us', ts3, rfl, h5, hline⟩
      exact ⟨us ++ List.replicate n (.sym amp) ++ .sym semi :: us', ts3, by simp, h5,
        .semi hpipe hline⟩
    case pipe =>
      simp only [Text.parsepipe, wp_bind]
      refine (ihexec s ts h (by omega)).mono ?_ fun _ _ h => h
      rintro c s1 ⟨us, ts1, rfl, h1, hexec⟩
      refine wp_peek h1 rfl fun s2 h2 => ?_
      rw [wp_ite]
      refine ⟨fun hp => ?_, fun _ => ⟨us, ts1, rfl, h2, .last hexec⟩⟩
      obtain ⟨t, ts1, rfl, hfirst⟩ := peeks_eq_true hp
      obtain rfl := first_eq hfirst (by decide)
      rw [wp_bind]
      refine wp_gettoken h2 fun _ _ s3 _ h3 => ?_
      rw [wp_bind]
      simp only [length_append, length_cons] at hk
      refine (ihpipe s3 ts1 h3 (by omega)).mono ?_ fun _ _ h => h
      rintro c2 s4 ⟨us', ts2, rfl, h4, hpipe⟩
      exact ⟨us ++ .sym bar :: us', ts2, by simp, h4, .bar hexec hpipe⟩
    case exec =>
      simp only [Text.parseexec, wp_bind]
      refine wp_peek h rfl fun s1 h1 => ?_
      rw [wp_ite]
      refine ⟨fun _ => ihblock s1 ts h1 (by omega), fun _ => ?_⟩
      rw [wp_bind]
      refine (parseredirs_sound h1 (by have := h1.length_le; omega)).mono ?_ fun _ _ h => h
      rintro c s2 ⟨us, ts1, rfl, h2, hred⟩
      refine (parseargs_sound h2 (by have := h2.length_le; omega) (by decide)).mono ?_
        fun _ _ h => h
      rintro c' s3 ⟨us', ts2, rfl, h3, n, hn, hargs⟩
      exact ⟨us ++ us', ts2, by simp, h3, .simple hred hargs (by omega)⟩
    case block =>
      simp only [Text.parseblock, wp_bind]
      refine wp_peek h rfl fun s1 h1 => ?_
      rw [wp_ite]
      refine ⟨fun _ => noHang_halt, fun hp => ?_⟩
      obtain ⟨t, ts, rfl, hfirst⟩ := peeks_eq_true (by simpa using hp)
      obtain rfl := first_eq hfirst (by decide)
      rw [wp_bind]
      refine wp_gettoken h1 fun _ _ s2 _ h2 => ?_
      rw [wp_bind]
      rw [length_cons] at hk
      refine (ihline s2 ts h2 (by omega)).mono ?_ fun _ _ h => h
      rintro c s3 ⟨us, ts1, rfl, h3, hline⟩
      rw [wp_bind]
      refine wp_peek h3 rfl fun s4 h4 => ?_
      rw [wp_ite]
      refine ⟨fun _ => noHang_halt, fun hp => ?_⟩
      obtain ⟨t, ts1, rfl, hfirst⟩ := peeks_eq_true (by simpa using hp)
      obtain rfl := first_eq hfirst (by decide)
      rw [wp_bind]
      refine wp_gettoken h4 fun _ _ s5 _ h5 => ?_
      refine (parseredirs_sound h5 (by have := h5.length_le; omega)).mono ?_ fun _ _ h => h
      rintro c' s6 ⟨us', ts2, rfl, h6, hred⟩
      exact ⟨.sym lparen :: us ++ .sym rparen :: us', ts2, by simp, h6, .block hline hred⟩

end

/-! ## What is derived the parser returns -/

section

variable {x : Text} {s k : Nat} {ts ts' : List Tok} {c c' : Cmd}

/-- The tokens go on with one of these symbols, or end. -/
def Follow (l : List UInt8) : List Tok → Prop
  | [] => True
  | .sym t :: _ => t ∈ l
  | .word _ _ :: _ => False

theorem Follow.mono {l l' : List UInt8} (h : Follow l ts) (hl : l.all l'.contains = true) :
    Follow l' ts := by
  match ts, h with
  | [], _ => exact trivial
  | .sym t :: _, h => exact List.contains_iff_mem.1 (List.all_eq_true.1 hl t h)

/-- `peek` says no to what may follow. -/
theorem Follow.peeks {l toks : List UInt8} (h : Follow l ts)
    (hl : (l.any fun t => toks.contains (first t)) = false) : peeks toks ts = false := by
  match ts, h with
  | [], _ => rfl
  | .sym t :: _, h => exact Bool.eq_false_iff.2 (List.any_eq_false.1 hl t h)

/-- A function returns a command, and leaves these tokens. -/
def Returns (x : Text) (c : Cmd) (ts : List Tok) (c' : Cmd) (s : Nat) : Prop := c' = c ∧ Lex x s ts

/-- The function returns. -/
def Never (_ : Stop) (_ : Nat) : Prop := False

theorem parsebacks_complete {n : Nat} (h : Lex x s (List.replicate n (.sym amp) ++ ts'))
    (hts : peeks [amp] ts' = false) (hk : n < k) :
    wp (x.parsebacks k c) (Returns x (backs n c) ts') Never s := by
  induction k generalizing s c n with
  | zero => omega
  | succ k ih =>
    simp only [Text.parsebacks, wp_bind]
    refine wp_peek h rfl fun s1 h1 => ?_
    cases n with
    | zero =>
      simp only [List.replicate_zero, List.nil_append, hts, wp_ite] at h1 ⊢
      exact ⟨(by rintro ⟨⟩), fun _ => ⟨rfl, h1⟩⟩
    | succ n =>
      rw [List.replicate_succ, List.cons_append] at h1 ⊢
      rw [wp_ite]
      refine ⟨fun _ => ?_, fun hp => absurd rfl hp⟩
      rw [wp_bind]
      refine wp_gettoken h1 fun _ _ s2 _ h2 => ?_
      exact ih h2 (by omega)

theorem parseredirs_complete (hder : Redirs c ts c') (h : Lex x s (ts ++ ts'))
    (hts : peeks [less, greater] ts' = false) (hk : ts.length < k) :
    wp (x.parseredirs k c) (Returns x c' ts') Never s := by
  induction hder generalizing s k with
  | nil =>
    obtain ⟨k, rfl⟩ := Nat.exists_eq_succ_of_ne_zero (Nat.ne_of_gt (Nat.zero_lt_of_lt hk))
    simp only [Text.parseredirs, wp_bind]
    refine wp_peek h rfl fun s1 h1 => ?_
    simp only [List.nil_append, hts, wp_ite] at h1 ⊢
    exact ⟨(by rintro ⟨⟩), fun _ => ⟨rfl, h1⟩⟩
  | @cons c c' t q e ts ht _ ih =>
    obtain ⟨k, rfl⟩ := Nat.exists_eq_succ_of_ne_zero (Nat.ne_of_gt (Nat.zero_lt_of_lt hk))
    simp only [Text.parseredirs, wp_bind]
    refine wp_peek h rfl fun s1 h1 => ?_
    have hp : peeks [less, greater] (.sym t :: .word q e :: ts ++ ts') = true := by
      rcases ht with rfl | rfl | rfl <;> rfl
    rw [wp_ite]
    refine ⟨fun _ => ?_, fun hn => absurd hp hn⟩
    rw [wp_bind]
    refine wp_gettoken h1 fun _ _ s2 _ h2 => ?_
    rw [wp_bind]
    refine wp_gettoken h2 fun s3 h3 => ?_
    rw [wp_ite]
    refine ⟨fun hn => absurd rfl hn, fun _ => ih h3 ?_⟩
    simp only [length_cons] at hk
    omega

/-- What follows a simple command. -/
def followExec : List UInt8 := [bar, rparen, amp, semi]

/-- After redirections comes no redirection. -/
theorem Args.peeks {n : Nat} (hder : Args c n ts c') (hts : Follow followExec ts') :
    peeks [less, greater] (ts ++ ts') = false := by
  cases hder with
  | nil => exact hts.peeks rfl
  | cons _ _ => rfl

theorem parseargs_complete {n argc : Nat} (hder : Args c n ts c') (h : Lex x s (ts ++ ts'))
    (hts : Follow followExec ts') (hn : argc + n < MAXARGS) (hk : ts.length < k) :
    wp (x.parseargs k c argc) (Returns x c' ts') Never s := by
  induction hder generalizing s k argc with
  | nil =>
    obtain ⟨k, rfl⟩ := Nat.exists_eq_succ_of_ne_zero (Nat.ne_of_gt (Nat.zero_lt_of_lt hk))
    simp only [Text.parseargs, wp_bind]
    refine wp_peek h rfl fun s1 h1 => ?_
    rw [List.nil_append] at h1 ⊢
    rw [wp_ite]
    refine ⟨fun _ => ⟨rfl, h1⟩, fun hp => ?_⟩
    rcases ts' with _ | ⟨t | ⟨q, e⟩, _⟩
    · rw [wp_bind]
      refine wp_gettoken h1 fun q e s2 h2 => ?_
      rw [wp_ite]
      exact ⟨fun _ => ⟨rfl, h2⟩, fun hz => absurd rfl hz⟩
    · refine absurd ?_ hp
      have hall : (followExec.all fun t => [bar, rparen, amp, semi].contains (first t)) =
        true := rfl
      exact List.all_eq_true.1 hall t hts
    · exact hts.elim
  | @cons c c1 c2 n q e ts us hred hargs ih =>
    obtain ⟨k, rfl⟩ := Nat.exists_eq_succ_of_ne_zero (Nat.ne_of_gt (Nat.zero_lt_of_lt hk))
    simp only [Text.parseargs, wp_bind]
    refine wp_peek h rfl fun s1 h1 => ?_
    rw [wp_ite]
    refine ⟨fun hp => absurd hp (by simp [Sh.peeks]), fun _ => ?_⟩
    rw [wp_bind]
    refine wp_gettoken h1 fun s2 h2 => ?_
    rw [wp_ite, wp_ite, wp_ite]
    refine ⟨fun hz => absurd hz (show letter ≠ 0 by decide),
      fun _ => ⟨fun hn => absurd rfl hn, fun _ =>
      ⟨fun hmax => by omega, fun _ => ?_⟩⟩⟩
    rw [wp_bind]
    replace h2 : Lex x s2 (ts ++ us ++ ts') := h2
    rw [List.append_assoc] at h2
    have hlen := h2.length_le
    rw [length_append] at hlen
    refine (parseredirs_complete hred h2 (hargs.peeks hts) (by omega)).mono ?_ fun _ _ h => h
    rintro _ s3 ⟨rfl, h3⟩
    refine ih h3 (by omega) ?_
    simp only [List.cons_append, length_cons, length_append] at hk
    omega

/-- What follows a pipeline. -/
def followPipe : List UInt8 := [rparen, amp, semi]

/-- What follows a line. -/
def followLine : List UInt8 := [rparen]

/-- A simple command does not start with a parenthesis. -/
theorem simple_peeks {n : Nat} {us : List Tok} {d : Cmd} (hred : Redirs c ts d)
    (hargs : Args d n us c') (hts : Follow followExec ts') :
    peeks [lparen] (ts ++ us ++ ts') = false := by
  cases hred with
  | nil =>
    cases hargs with
    | nil => exact hts.peeks rfl
    | cons _ _ => rfl
  | cons ht _ => rcases ht with rfl | rfl | rfl <;> rfl

/-- The four functions that call each other, by induction on the count of calls. -/
theorem parse_complete (k : Nat) :
    (∀ s ts ts' c, Line ts c → Lex x s (ts ++ ts') → Follow followLine ts' → 4 * ts.length + 4 ≤ k →
        wp (x.parseline k) (Returns x c ts') Never s) ∧
      (∀ s ts ts' c, Pipe ts c → Lex x s (ts ++ ts') → Follow followPipe ts' →
        4 * ts.length + 3 ≤ k → wp (x.parsepipe k) (Returns x c ts') Never s) ∧
      ∀ s ts ts' c, Exec ts c → Lex x s (ts ++ ts') → Follow followExec ts' →
        4 * ts.length + 2 ≤ k → wp (x.parseexec k) (Returns x c ts') Never s := by
  induction k using Nat.strong_induction_on with
  | _ k ih =>
    refine ⟨fun s ts ts' c hder h hts hk => ?line, fun s ts ts' c hder h hts hk => ?pipe,
      fun s ts ts' c hder h hts hk => ?exec⟩
    case line =>
      obtain ⟨k, rfl⟩ : ∃ k', k = k' + 1 := ⟨k - 1, by omega⟩
      obtain ⟨ihline, ihpipe, -⟩ := ih k (by omega)
      simp only [Text.parseline, wp_bind]
      cases hder with
      | @last ts c n hpipe =>
        rw [List.append_assoc] at h
        simp only [length_append, List.length_replicate] at hk
        have hfollow : Follow followPipe (List.replicate n (.sym amp) ++ ts') := by
          cases n with
          | zero => exact hts.mono rfl
          | succ n => exact (by decide : amp ∈ followPipe)
        refine (ihpipe s ts _ c hpipe h hfollow (by omega)).mono ?_ fun _ _ h => h
        rintro _ s1 ⟨rfl, h1⟩
        have hlen := h1.length_le
        simp only [length_append, List.length_replicate] at hlen
        refine (parsebacks_complete h1 (hts.peeks rfl) (by omega)).mono ?_ fun _ _ h => h
        rintro _ s2 ⟨rfl, h2⟩
        refine wp_peek h2 rfl fun s3 h3 => ?_
        rw [hts.peeks rfl, wp_ite]
        exact ⟨(by rintro ⟨⟩), fun _ => ⟨rfl, h3⟩⟩
      | @semi ts us c d n hpipe hline =>
        rw [List.append_assoc, List.append_assoc] at h
        simp only [length_append, List.length_replicate, length_cons] at hk
        have hfollow : Follow followPipe (List.replicate n (.sym amp) ++
            (.sym semi :: us ++ ts')) := by
          cases n with
          | zero => exact (by decide : semi ∈ followPipe)
          | succ n => exact (by decide : amp ∈ followPipe)
        refine (ihpipe s ts _ c hpipe h hfollow (by omega)).mono ?_ fun _ _ h => h
        rintro _ s1 ⟨rfl, h1⟩
        have hlen := h1.length_le
        simp only [length_append, List.length_replicate] at hlen
        refine (parsebacks_complete h1 rfl (by omega)).mono ?_ fun _ _ h => h
        rintro _ s2 ⟨rfl, h2⟩
        refine wp_peek h2 rfl fun s3 h3 => ?_
        rw [wp_ite]
        refine ⟨fun _ => ?_, fun hp => absurd rfl hp⟩
        rw [wp_bind]
        refine wp_gettoken h3 fun _ _ s4 _ h4 => ?_
        rw [wp_bind]
        refine (ihline s4 us ts' d hline h4 hts (by omega)).mono ?_ fun _ _ h => h
        rintro _ s5 ⟨rfl, h5⟩
        exact ⟨rfl, h5⟩
    case pipe =>
      obtain ⟨k, rfl⟩ : ∃ k', k = k' + 1 := ⟨k - 1, by omega⟩
      obtain ⟨-, ihpipe, ihexec⟩ := ih k (by omega)
      simp only [Text.parsepipe, wp_bind]
      cases hder with
      | last hexec =>
        refine (ihexec s ts ts' c hexec h (hts.mono rfl) (by omega)).mono ?_ fun _ _ h => h
        rintro _ s1 ⟨rfl, h1⟩
        refine wp_peek h1 rfl fun s2 h2 => ?_
        rw [hts.peeks rfl, wp_ite]
        exact ⟨(by rintro ⟨⟩), fun _ => ⟨rfl, h2⟩⟩
      | @bar ts us c d hexec hpipe =>
        rw [List.append_assoc] at h
        simp only [length_append, length_cons] at hk
        have hfollow : Follow followExec (.sym bar :: us ++ ts') := (by decide : bar ∈ followExec)
        refine (ihexec s ts _ c hexec h hfollow (by omega)).mono ?_ fun _ _ h => h
        rintro _ s1 ⟨rfl, h1⟩
        refine wp_peek h1 rfl fun s2 h2 => ?_
        rw [wp_ite]
        refine ⟨fun _ => ?_, fun hp => absurd rfl hp⟩
        rw [wp_bind]
        refine wp_gettoken h2 fun _ _ s3 _ h3 => ?_
        rw [wp_bind]
        refine (ihpipe s3 us ts' d hpipe h3 hts (by omega)).mono ?_ fun _ _ h => h
        rintro _ s4 ⟨rfl, h4⟩
        exact ⟨rfl, h4⟩
    case exec =>
      obtain ⟨k, rfl⟩ : ∃ k', k = k' + 1 := ⟨k - 1, by omega⟩
      simp only [Text.parseexec, wp_bind]
      refine wp_peek h rfl fun s1 h1 => ?_
      cases hder with
      | @block ts us d c hline hred =>
        simp only [List.cons_append, length_append, length_cons] at hk
        obtain ⟨k, rfl⟩ : ∃ k', k = k' + 1 := ⟨k - 1, by omega⟩
        obtain ⟨ihline, -, -⟩ := ih k (by omega)
        rw [wp_ite]
        refine ⟨fun _ => ?_, fun hp => absurd rfl hp⟩
        simp only [Text.parseblock, wp_bind]
        refine wp_peek h1 rfl fun s2 h2 => ?_
        rw [wp_ite]
        refine ⟨(by rintro ⟨⟩), fun _ => ?_⟩
        rw [wp_bind]
        refine wp_gettoken h2 fun _ _ s3 _ h3 => ?_
        rw [wp_bind]
        have h3 : Lex x s3 (ts ++ (.sym rparen :: us ++ ts')) := by simpa using h3
        have hfollow : Follow followLine (.sym rparen :: us ++ ts') :=
          (by decide : rparen ∈ followLine)
        refine (ihline s3 ts _ d hline h3 hfollow (by omega)).mono ?_ fun _ _ h => h
        rintro _ s4 ⟨rfl, h4⟩
        rw [wp_bind]
        refine wp_peek h4 rfl fun s5 h5 => ?_
        rw [wp_ite]
        refine ⟨(by rintro ⟨⟩), fun _ => ?_⟩
        rw [wp_bind]
        refine wp_gettoken h5 fun _ _ s6 _ h6 => ?_
        have h6 : Lex x s6 (us ++ ts') := h6
        have hlen := h6.length_le
        rw [length_append] at hlen
        exact parseredirs_complete hred h6 (hts.peeks rfl) (by omega)
      | @simple ts us d c n hred hargs hn =>
        rw [simple_peeks hred hargs hts, wp_ite]
        refine ⟨(by rintro ⟨⟩), fun _ => ?_⟩
        rw [wp_bind]
        rw [List.append_assoc] at h1
        have hlen := h1.length_le
        simp only [length_append] at hlen
        refine (parseredirs_complete hred h1 (hargs.peeks hts) (by omega)).mono ?_ fun _ _ h => h
        rintro _ s2 ⟨rfl, h2⟩
        exact parseargs_complete hargs h2 hts (by omega) (by omega)

end

/-! ## Words -/

/-- The words of a command, with their places. -/
def Cmd.words : Cmd → List (Nat × Nat)
  | .exec argv => argv
  | .redir cmd file efile _ _ => cmd.words ++ [(file, efile)]
  | .pipe left right => left.words ++ right.words
  | .list left right => left.words ++ right.words
  | .back cmd => cmd.words

/-- The characters of the line from `q` up to `e`. -/
def Text.text (x : Text) (q e : Nat) : List UInt8 := (List.range (e - q)).map fun j => x.mem (q + j)

/-- The NUL-terminated string at `q` is `l`. -/
def Spells (m : Nat → UInt8) (q : Nat) (l : List UInt8) : Prop :=
  (∀ j, j < l.length → l[j]? = some (m (q + j))) ∧ m (q + l.length) = 0 ∧ 0 ∉ l

section

variable {x : Text} {s k : Nat} {ts : List Tok} {c c' : Cmd}

/-- The words of a command are among the tokens. -/
def From (ts : List Tok) (c : Cmd) : Prop := ∀ w ∈ c.words, Tok.word w.1 w.2 ∈ ts

theorem redirect_words {t : UInt8} {q e : Nat} {w : Nat × Nat} (hw : w ∈ (c.redirect t q e).words) :
    w ∈ c.words ∨ w = (q, e) := by
  unfold Cmd.redirect at hw
  split_ifs at hw
  · simpa [Cmd.words] using hw
  · simpa [Cmd.words] using hw
  · simpa [Cmd.words] using hw
  · exact .inl hw

theorem addArg_words {q e : Nat} {w : Nat × Nat} (hw : w ∈ (c.addArg q e).words) :
    w ∈ c.words ∨ w = (q, e) := by
  induction c with
  | exec argv => simpa [Cmd.addArg, Cmd.words] using hw
  | redir cmd file efile mode fd ih =>
    rw [Cmd.addArg, Cmd.words, List.mem_append] at hw
    rw [Cmd.words, List.mem_append]
    rcases hw with hw | hw
    · exact (ih hw).imp_left .inl
    · exact .inl (.inr hw)
  | pipe _ _ _ _ => exact .inl hw
  | list _ _ _ _ => exact .inl hw
  | back _ _ => exact .inl hw

theorem Redirs.words (h : Redirs c ts c') {w : Nat × Nat} (hw : w ∈ c'.words) :
    w ∈ c.words ∨ Tok.word w.1 w.2 ∈ ts := by
  induction h with
  | nil => exact .inl hw
  | cons _ _ ih =>
    rcases ih hw with hw | hw
    · rcases redirect_words hw with hw | rfl
      · exact .inl hw
      · exact .inr (by simp)
    · exact .inr (List.mem_cons_of_mem _ (List.mem_cons_of_mem _ hw))

theorem Args.words {n : Nat} (h : Args c n ts c') {w : Nat × Nat} (hw : w ∈ c'.words) :
    w ∈ c.words ∨ Tok.word w.1 w.2 ∈ ts := by
  induction h with
  | nil => exact .inl hw
  | cons hred _ ih =>
    rcases ih hw with hw | hw
    · rcases hred.words hw with hw | hw
      · rcases addArg_words hw with hw | rfl
        · exact .inl hw
        · exact .inr (by simp)
      · exact .inr (by simp [hw])
    · exact .inr (by simp [hw])

theorem backs_words {n : Nat} : (backs n c).words = c.words := by
  induction n generalizing c with
  | zero => rfl
  | succ n ih => exact ih

/-- Every word of a command is a token of what it is derived from, by induction on the
size of the derivation. -/
theorem derived_words (k : Nat) :
    (∀ ts c, Line ts c → 3 * ts.length + 2 ≤ k → From ts c) ∧
      (∀ ts c, Pipe ts c → 3 * ts.length + 1 ≤ k → From ts c) ∧
      ∀ ts c, Exec ts c → 3 * ts.length ≤ k → From ts c := by
  induction k using Nat.strong_induction_on with
  | _ k ih =>
    refine ⟨fun ts c h hk => ?line, fun ts c h hk => ?pipe, fun ts c h hk => ?exec⟩
    case line =>
      obtain ⟨ihline, ihpipe, -⟩ := ih (k - 1) (by omega)
      cases h with
      | last hpipe =>
        simp only [length_append] at hk
        intro w hw
        rw [backs_words] at hw
        exact List.mem_append_left _ (ihpipe _ _ hpipe (by omega) w hw)
      | semi hpipe hline =>
        simp only [length_append, length_cons] at hk
        intro w hw
        rw [Cmd.words, backs_words, List.mem_append] at hw
        rcases hw with hw | hw
        · exact List.mem_append_left _ (List.mem_append_left _ (ihpipe _ _ hpipe (by omega) w hw))
        · exact List.mem_append_right _ (List.mem_cons_of_mem _ (ihline _ _ hline (by omega) w hw))
    case pipe =>
      obtain ⟨-, ihpipe, ihexec⟩ := ih (k - 1) (by omega)
      cases h with
      | last hexec => exact ihexec _ _ hexec (by omega)
      | bar hexec hpipe =>
        simp only [length_append, length_cons] at hk
        intro w hw
        rw [Cmd.words, List.mem_append] at hw
        rcases hw with hw | hw
        · exact List.mem_append_left _ (ihexec _ _ hexec (by omega) w hw)
        · exact List.mem_append_right _ (List.mem_cons_of_mem _ (ihpipe _ _ hpipe (by omega) w hw))
    case exec =>
      cases h with
      | block hline hred =>
        simp only [List.cons_append, length_append, length_cons] at hk
        obtain ⟨ihline, -, -⟩ := ih (k - 1) (by omega)
        intro w hw
        rcases hred.words hw with hw | hw
        · exact List.mem_append_left _ (List.mem_cons_of_mem _ (ihline _ _ hline (by omega) w hw))
        · exact List.mem_append_right _ (List.mem_cons_of_mem _ hw)
      | simple hred hargs _ =>
        intro w hw
        rcases hargs.words hw with hw | hw
        · rcases hred.words hw with hw | hw
          · cases hw
          · exact List.mem_append_left _ hw
        · exact List.mem_append_right _ hw

theorem Line.from (h : Line ts c) : From ts c := (derived_words _).1 ts c h le_rfl

/-! ## Ending the words in place -/

/-- The memory that `nulterminate` leaves: NUL where a word ends, and no other change. -/
theorem nulterminate_apply {m : Nat → UInt8} {i : Nat} :
    nulterminate c m i = if i ∈ c.words.map Prod.snd then 0 else m i := by
  induction c generalizing m with
  | exec argv =>
    rw [nulterminate, Cmd.words]
    induction argv generalizing m with
    | nil => rfl
    | cons a argv ih =>
      rw [List.foldl_cons, ih]
      by_cases hi : i = a.2
      · simp [hi]
      · rw [Function.update_of_ne hi]
        exact if_congr (by simp [hi]) rfl rfl
  | redir cmd file efile mode fd ih =>
    rw [nulterminate]
    by_cases hi : i = efile
    · simp [hi, Cmd.words]
    · rw [Function.update_of_ne hi, ih]
      exact if_congr (by simp [hi, Cmd.words]) rfl rfl
  | pipe left right ihl ihr | list left right ihl ihr =>
    rw [nulterminate, ihr, ihl]
    simp only [Cmd.words, List.map_append, List.mem_append]
    by_cases hl : i ∈ left.words.map Prod.snd <;> by_cases hr : i ∈ right.words.map Prod.snd <;>
      simp [hl, hr]
  | back cmd ih => exact ih

/-- The place of a word in the line. -/
theorem Lex.word_spec {q e : Nat} (h : Lex x s ts) (hw : Tok.word q e ∈ ts) : q < e ∧ e ≤ x.es ∧
    (∀ i, q ≤ i → i < e → x.mem i ∉ whitespace ∧ x.mem i ∉ symbols) ∧
    (e < x.es → x.mem e ∈ whitespace ∨ x.mem e ∈ symbols) := by
  induction h with
  | done => cases hw
  | blank _ _ _ ih => exact ih hw
  | sym _ _ _ _ ih => exact ih (by simpa using hw)
  | greater _ _ _ _ ih => exact ih (by simpa using hw)
  | plus _ _ _ _ ih => exact ih (by simpa using hw)
  | word hlt he hin hend _ ih =>
    rcases List.mem_cons.1 hw with heq | hw
    · obtain ⟨rfl, rfl⟩ := Tok.word.inj heq
      exact ⟨hlt, he, hin, hend⟩
    · exact ih hw

/-- No NUL is stored inside a word, since words end at blanks, symbols or the end. -/
theorem nulterminate_spells (h : Lex x s ts) (hfrom : From ts c) {w : Nat × Nat}
    (hw : w ∈ c.words) : Spells (nulterminate c x.mem) w.1 (x.text w.1 w.2) := by
  obtain ⟨hlt, he, hin, -⟩ := h.word_spec (hfrom w hw)
  have hkeep : ∀ i, w.1 ≤ i → i < w.2 → nulterminate c x.mem i = x.mem i := by
    intro i hi hlt'
    rw [nulterminate_apply, if_neg]
    intro hmem
    obtain ⟨w', hw', rfl⟩ := List.mem_map.1 hmem
    obtain ⟨-, -, -, hend⟩ := h.word_spec (hfrom w' hw')
    obtain ⟨hblank, hsym⟩ := hin _ hi hlt'
    exact absurd (hend (by omega)) (by simp [hblank, hsym])
  have hlen : (x.text w.1 w.2).length = w.2 - w.1 := by simp [Text.text]
  refine ⟨fun j hj => ?_, ?_, fun hzero => ?_⟩
  · rw [hlen] at hj
    rw [hkeep _ (by omega) (by omega)]
    simp [Text.text, hj]
  · rw [hlen, Nat.add_sub_cancel' (by omega), nulterminate_apply, if_pos
      (List.mem_map.2 ⟨w, hw, rfl⟩)]
  · obtain ⟨j, hj, hz⟩ := List.mem_map.1 hzero
    have hj := List.mem_range.1 hj
    exact x.ne_nul (w.1 + j) (by omega) hz

/-! ## The whole parser -/

theorem parsecmd_sound (h : Lex x 0 ts) :
    wp (parsecmd x) (fun r _ => Line ts r.1 ∧ r.2 = nulterminate r.1 x.mem) NoHang 0 := by
  have hlen := h.length_le
  simp only [parsecmd, wp_bind]
  refine ((parse_sound _).1 0 ts h (by omega)).mono ?_ fun _ _ h => h
  rintro c s1 ⟨us, ts1, rfl, h1, hline⟩
  simp only [Text.peek, wp_bind, wp_update, wp_gets, wp_pure, wp_ite, wp_halt, id]
  refine ⟨fun _ => (by rintro ⟨⟩), fun heq => ?_⟩
  have hnil := h1.skip_eq_iff.1 (Decidable.not_not.1 heq)
  rw [hnil, List.append_nil]
  exact ⟨hline, trivial⟩

theorem parsecmd_complete (h : Lex x 0 ts) (hline : Line ts c) :
    wp (parsecmd x) (fun r _ => r = (c, nulterminate c x.mem)) Never 0 := by
  have hlen := h.length_le
  simp only [parsecmd, wp_bind]
  refine ((parse_complete _).1 0 ts [] c hline (by rwa [List.append_nil]) trivial
    (by omega)).mono ?_ fun _ _ h => h
  rintro _ s1 ⟨rfl, h1⟩
  simp only [Text.peek, wp_bind, wp_update, wp_gets, wp_pure, wp_ite, wp_halt, id]
  exact ⟨fun hne => absurd (h1.skip_eq_iff.2 rfl) hne, fun _ => trivial⟩

/-- `parsecmd` returns on every line or panics.  It returns exactly the command that the
tokens derive, and panics if they derive none; and each word of the command is a token,
and its string in the memory left is the text of that token. -/
theorem parsecmd_correct (x : Text) :
    (∃ ts, Lex x 0 ts) ∧ ∀ ts, Lex x 0 ts →
      (∀ c, (∃ m, (parsecmd x 0).1 = .ok (c, m)) ↔ Line ts c) ∧
      ((∀ c, ¬Line ts c) → ∃ msg, (parsecmd x 0).1 = .error (.panic msg)) ∧
      ∀ c m, (parsecmd x 0).1 = .ok (c, m) → ∀ w ∈ c.words,
        Tok.word w.1 w.2 ∈ ts ∧ Spells m w.1 (x.text w.1 w.2) := by
  refine ⟨exists_lex x (Nat.zero_le _), fun ts h => ?_⟩
  have hsound := wp_iff.1 (parsecmd_sound h)
  have hok : ∀ c m, (parsecmd x 0).1 = .ok (c, m) → Line ts c ∧ m = nulterminate c x.mem :=
    fun c m hrun =>
    hsound.1 (c, m) _ (run_eq hrun)
  refine ⟨fun c => ⟨?_, fun hline => ?_⟩, fun hnone => ?_, fun c m hrun w hw => ?_⟩
  · rintro ⟨m, hrun⟩
    exact (hok c m hrun).1
  · obtain ⟨hret, hstop⟩ := wp_iff.1 (parsecmd_complete h hline)
    cases hrun : (parsecmd x 0).1 with
    | ok r => exact ⟨_, congrArg Except.ok (hret r _ (run_eq hrun))⟩
    | error e => exact (hstop e _ (run_eq hrun)).elim
  · cases hrun : (parsecmd x 0).1 with
    | ok r => exact absurd (hok r.1 r.2 hrun).1 (hnone r.1)
    | error e =>
      cases e with
      | panic msg => exact ⟨msg, rfl⟩
      | hang => exact absurd rfl (hsound.2 .hang _ (run_eq hrun))
  · obtain ⟨hline, rfl⟩ := hok c m hrun
    exact ⟨hline.from w hw, nulterminate_spells h hline.from hw⟩

end

/-- `a|b>c`. -/
def pipeline : Text where
  mem i := [97, bar, 98, greater, 99].getD i 0
  es := 5
  nul := rfl
  ne_nul := by decide

theorem pipeline_derived : ∃ ts, Lex pipeline 0 ts ∧
    Line ts (.pipe (.exec [(0, 1)]) (.redir (.exec [(2, 3)]) 4 5 (O_WRONLY ||| O_CREATE) 1)) := by
  obtain ⟨⟨ts, h⟩, hall⟩ := parsecmd_correct pipeline
  exact ⟨ts, h, ((hall ts h).1 _).1 ⟨_, rfl⟩⟩

end Xv6Rework.Sh
