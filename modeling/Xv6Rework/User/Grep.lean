import Xv6Rework.User.Match
import Xv6Rework.User.Ulib

/-!
# `grep`

The function `grep` of `user/grep.c`, on the pieces that successive calls of `read` return.  Its
buffer keeps what is left of a line when the line has not ended yet, and the next piece goes
behind it.

There is one exception: where the buffer has no newline at all it is emptied, so that the
beginning of a line is lost if a piece ends before its newline and begins after the one before.
What is seen of the input is computed by `seen`, and the main result says when it is all of it.
-/

namespace Xv6Rework.Grep

open Ulib (newline store memmoveAt)

/-- `sizeof(buf)`. -/
def BUFSIZE : Nat := 1024

/-! ## The code -/

/-- `strchr`: how far from here the character is. -/
def strchr (c : UInt8) : List UInt8 → Option (Option Nat)
  | [] => none
  | t :: s =>
    if t = 0 then
      some none
    else if t = c then
      some (some 0)
    else
      (strchr c s).map (Option.map (· + 1))

/-- The loop of `grep` over the lines in the buffer, from `p` on: the buffer, `p`, and what has
been written. -/
def grepLines (pattern : List UInt8) : Nat → List UInt8 → Nat → List (List UInt8) →
    Option (List UInt8 × Nat × List (List UInt8))
  | 0, _, _, _ => none
  | k + 1, buf, p, out => do
    match ← strchr newline (buf.drop p) with
    | none => some (buf, p, out)
    | some q =>
      let buf ← store buf (p + q) 0
      if ← matchRe pattern (buf.drop p) then
        let buf ← store buf (p + q) newline
        grepLines pattern k buf (p + q + 1) (out ++ [(buf.drop p).take (q + 1)])
      else
        grepLines pattern k buf (p + q + 1) out

/-- The loop of `grep`, on the pieces that are read and with `m` bytes in the buffer: what is
written.  `read` returns no more than it is asked for. -/
def grepLoop (pattern : List UInt8) : List (List UInt8) → List UInt8 → Nat → List (List UInt8) →
    Option (List (List UInt8))
  | [], _, _, out => some out
  | r :: rs, buf, m, out => do
    if BUFSIZE - m - 1 < r.length then
      none
    else if r = [] then
      some out
    else
      let buf ← memmoveAt buf m r r.length
      let m := m + r.length
      let buf ← store buf m 0
      let (buf, p, out) ← grepLines pattern (BUFSIZE + 1) buf 0 out
      let m := if p = 0 then 0 else m
      if m > 0 then
        -- the bytes go down, so that none is read after it has been written
        let m := m - p
        let buf ← memmoveAt buf 0 (buf.drop p) m
        grepLoop pattern rs buf m out
      else
        grepLoop pattern rs buf m out

/-- `grep`, with anything in its buffer. -/
def grep (pattern : List UInt8) (reads : List (List UInt8)) (buf : List UInt8) :
    Option (List (List UInt8)) :=
  grepLoop (pattern ++ [0]) reads buf 0 []

/-! ## Lines -/

/-- The lines of a text that end, and what is behind them. -/
def cut : List UInt8 → List (List UInt8) × List UInt8
  | [] => ([], [])
  | c :: s =>
    if c = newline then
      ([] :: (cut s).1, (cut s).2)
    else
      match cut s with
      | ([], rest) => ([], c :: rest)
      | (l :: ls, rest) => ((c :: l) :: ls, rest)

/-- What `grep` is to write: the lines that match. -/
def matching (pattern : List UInt8) (ls : List (List UInt8)) : List (List UInt8) :=
  (ls.filter fun l => matchRe (pattern ++ [0]) (l ++ [0]) = some true).map (· ++ [newline])

section

variable {l s t : List UInt8}

theorem cut_of_not_mem (h : newline ∉ s) : cut s = ([], s) := by
  induction s with
  | nil => rfl
  | cons c s ih =>
    rw [List.mem_cons, not_or] at h
    rw [cut, if_neg (Ne.symm h.1), ih h.2]

theorem cut_line (h : newline ∉ l) : cut (l ++ newline :: s) = (l :: (cut s).1, (cut s).2) := by
  induction l with
  | nil => rw [List.nil_append, cut, if_pos rfl]
  | cons c l ih =>
    rw [List.mem_cons, not_or] at h
    rw [List.cons_append, cut, if_neg (Ne.symm h.1), ih h.2]

/-- The first line and the rest, if there is a newline. -/
theorem exists_line (h : newline ∈ s) : ∃ l t, s = l ++ newline :: t ∧ newline ∉ l := by
  induction s with
  | nil => cases h
  | cons c s ih =>
    by_cases hc : c = newline
    · exact ⟨[], s, by rw [hc]; rfl, by simp⟩
    · obtain ⟨l, t, rfl, hl⟩ := ih ((List.mem_cons.1 h).resolve_left (Ne.symm hc))
      exact ⟨c :: l, t, rfl, by simp [hl, Ne.symm hc]⟩

/-- Induction over the lines of a text. -/
theorem line_induction {p : List UInt8 → Prop} (last : ∀ s, newline ∉ s → p s)
    (line : ∀ l s, newline ∉ l → p s → p (l ++ newline :: s)) (s : List UInt8) : p s := by
  induction hn : s.length using Nat.strongRecOn generalizing s with
  | ind n ih =>
    by_cases h : newline ∈ s
    · obtain ⟨l, t, rfl, hl⟩ := exists_line h
      exact line l t hl (ih _ (by rw [← hn]; simp; omega) t rfl)
    · exact last s h

theorem cut_snd (s : List UInt8) : newline ∉ (cut s).2 := by
  induction s using line_induction with
  | last s h => rwa [cut_of_not_mem h]
  | line l s h ih => rwa [cut_line h]

theorem length_cut_snd (s : List UInt8) : (cut s).2.length ≤ s.length := by
  induction s using line_induction with
  | last s h => simp [cut_of_not_mem h]
  | line l s h ih =>
    simp only [cut_line h, List.length_append, List.length_cons]
    omega

theorem length_cut_fst (s : List UInt8) : (cut s).1.length ≤ s.length := by
  induction s using line_induction with
  | last s h => simp [cut_of_not_mem h]
  | line l s h ih =>
    simp only [cut_line h, List.length_append, List.length_cons]
    omega

/-- The open line is shorter than the text if there is a line before it. -/
theorem length_cut_snd_lt (h : newline ∈ s) : (cut s).2.length < s.length := by
  obtain ⟨l, t, rfl, hl⟩ := exists_line h
  have := length_cut_snd t
  simp only [cut_line hl, List.length_append, List.length_cons]
  omega

/-- More text behind a text only concerns its open line. -/
theorem cut_append (s t : List UInt8) :
    cut (s ++ t) = ((cut s).1 ++ (cut ((cut s).2 ++ t)).1, (cut ((cut s).2 ++ t)).2) := by
  induction s using line_induction with
  | last s h => rw [cut_of_not_mem h]; rfl
  | line l s h ih =>
    rw [List.append_assoc, List.cons_append, cut_line h, cut_line h, ih]
    rfl

end

/-! ## What the loops do -/

section

variable {pattern l s t junk : List UInt8} {k : Nat} {out : List (List UInt8)}

theorem strchr_none (h : newline ∉ s) (h0 : 0 ∉ s) : strchr newline (s ++ 0 :: t) = some none := by
  induction s with
  | nil => rfl
  | cons c s ih =>
    rw [List.mem_cons, not_or] at h h0
    rw [List.cons_append, strchr, if_neg (Ne.symm h0.1), if_neg (Ne.symm h.1), ih h.2 h0.2]
    rfl

theorem strchr_line (h : newline ∉ l) (h0 : 0 ∉ l) :
    strchr newline (l ++ newline :: t) = some (some l.length) := by
  induction l with
  | nil => rfl
  | cons c l ih =>
    rw [List.mem_cons, not_or] at h h0
    rw [List.cons_append, strchr, if_neg (Ne.symm h0.1), if_neg (Ne.symm h.1), ih h.2 h0.2]
    rfl

/-- The loop over the buffer writes the lines that match, and stops at the open line. -/
theorem grepLines_eq (hp : 0 ∉ pattern) (h0 : 0 ∉ s) (hk : (cut s).1.length < k)
    (done junk : List UInt8) (out : List (List UInt8)) :
    ∃ done', done'.length = done.length + (s.length - (cut s).2.length) ∧
      grepLines (pattern ++ [0]) k (done ++ (s ++ 0 :: junk)) done.length out =
        some (done' ++ ((cut s).2 ++ 0 :: junk), done'.length,
          out ++ matching pattern (cut s).1) := by
  induction s using line_induction generalizing k out done with
  | last s h =>
    rw [cut_of_not_mem h] at hk ⊢
    cases k with
    | zero => exact absurd hk (Nat.not_lt_zero _)
    | succ k =>
      refine ⟨done, by simp, ?_⟩
      rw [grepLines, List.drop_left, strchr_none h h0]
      simp [matching]
  | line l s h ih =>
    rw [cut_line h] at hk ⊢
    simp only [List.mem_append, List.mem_cons, not_or] at h0
    cases k with
    | zero => exact absurd hk (Nat.not_lt_zero _)
    | succ k =>
      have hk' : (cut s).1.length < k := Nat.lt_of_succ_lt_succ hk
      have hlen : (done ++ l).length = done.length + l.length := List.length_append
      have hlast := length_cut_snd s
      -- the buffer with the byte `c` in the place of the newline
      have hbuf : ∀ c, done ++ (l ++ c :: (s ++ 0 :: junk)) = done ++ l ++ c :: (s ++ 0 :: junk) :=
        fun c => by simp
      have hstore : ∀ c d, store (done ++ (l ++ c :: (s ++ 0 :: junk))) (done.length + l.length) d =
          some (done ++ (l ++ d :: (s ++ 0 :: junk))) := fun c d => by
        rw [hbuf, hbuf, ← hlen, Ulib.store_append]
      -- the loop goes on behind the byte `c`
      have hnext : ∀ c out', ∃ done', done'.length = done.length +
        ((l ++ newline :: s).length - (cut s).2.length) ∧
          grepLines (pattern ++ [0]) k (done ++ (l ++ c :: (s ++ 0 :: junk)))
          (done.length + l.length + 1) out' =
            some (done' ++ ((cut s).2 ++ 0 :: junk), done'.length, out' ++ matching pattern
            (cut s).1) := fun c out' => by
        obtain ⟨done', hdone', hrun⟩ := ih h0.2.2 hk' (done ++ l ++ [c]) out'
        refine ⟨done', ?_, ?_⟩
        · simp only [List.length_append, List.length_cons, List.length_nil] at hdone' ⊢
          omega
        · simpa [Nat.add_assoc] using hrun
      rw [grepLines, List.append_assoc, List.cons_append, List.drop_left, strchr_line h h0.1]
      simp only [Option.bind_eq_bind, Option.bind_some, hstore, List.drop_left,
        matchRe_append hp h0.1]
      obtain ⟨b, hb, -⟩ := matchRe_found (q := []) (r := []) hp h0.1
      rw [hb]
      cases b with
      | true =>
        obtain ⟨done', hdone', hrun⟩ := hnext newline (out ++ [l ++ [newline]])
        refine ⟨done', hdone', ?_⟩
        have htake : (l ++ newline :: (s ++ 0 :: junk)).take (l.length + 1) = l ++ [newline] := by
          rw [List.append_cons]
          exact List.take_left' (by simp)
        simp only [Option.bind_some, if_true, htake, hrun]
        simp [matching, hb]
      | false =>
        obtain ⟨done', hdone', hrun⟩ := hnext 0 out
        refine ⟨done', hdone', ?_⟩
        simp only [Option.bind_some, Bool.false_eq_true, if_false, hrun]
        simp [matching, hb]

/-! ## What is seen of the input -/

/-- What is kept of the open line when `r` has been read. -/
def keep (kept r : List UInt8) : List UInt8 := if newline ∈ r then (cut (kept ++ r)).2 else []

/-- The lines that the loop comes upon. -/
def seen : List UInt8 → List (List UInt8) → List (List UInt8)
  | _, [] => []
  | kept, r :: rs => (cut (kept ++ r)).1 ++ seen (keep kept r) rs

/-- Successive reads into a buffer that has `kept` in it: each returns something, and no more
than there is room for. -/
def Reads : List UInt8 → List (List UInt8) → Prop
  | _, [] => True
  | kept, r :: rs => r ≠ [] ∧ kept.length + r.length < BUFSIZE ∧ Reads (keep kept r) rs

theorem mem_cut_snd {c : UInt8} (s : List UInt8) (h : c ∈ (cut s).2) : c ∈ s := by
  induction s using line_induction with
  | last s hs => rwa [cut_of_not_mem hs] at h
  | line l s hl ih =>
    rw [cut_line hl] at h
    exact List.mem_append_right _ (List.mem_cons_of_mem _ (ih h))

theorem matching_append (ls ls' : List (List UInt8)) :
    matching pattern (ls ++ ls') = matching pattern ls ++ matching pattern ls' := by
  simp [matching]

/-- The loop writes those of the lines it sees that match. -/
theorem grepLoop_eq {kept : List UInt8} {reads : List (List UInt8)} (hp : 0 ∉ pattern)
    (hkept : newline ∉ kept) (h0 : 0 ∉ kept) (hreads : ∀ r ∈ reads, 0 ∉ r) (hr : Reads kept reads)
    (hbuf : (kept ++ junk).length = BUFSIZE) :
    grepLoop (pattern ++ [0]) reads (kept ++ junk) kept.length out =
      some (out ++ matching pattern (seen kept reads)) := by
  induction reads generalizing kept junk out with
  | nil => simp [grepLoop, seen, matching]
  | cons r rs ih =>
    obtain ⟨hne, hroom, hrest⟩ := hr
    rw [List.forall_mem_cons] at hreads
    have hjunk : r.length < junk.length := by
      rw [List.length_append] at hbuf
      omega
    obtain ⟨d, junk', hd⟩ := List.exists_cons_of_length_pos (l := junk.drop r.length)
      (by simp; omega)
    have hlen : (kept ++ r ++ d :: junk').length = BUFSIZE := by
      rw [← hd, List.length_append, List.length_append, List.length_drop]
      rw [List.length_append] at hbuf
      omega
    have hmove : memmoveAt (kept ++ junk) kept.length r r.length =
        some (kept ++ r ++ d :: junk') := by
      have := Ulib.memmoveAt_append (s := kept) (t := r) (b := junk) (r := []) (Nat.le_of_lt hjunk)
      rwa [List.append_nil, hd] at this
    have hstore : store (kept ++ r ++ d :: junk') (kept.length + r.length) 0 =
        some (kept ++ r ++ 0 :: junk') := by
      rw [← List.length_append]
      exact Ulib.store_append
    have hs0 : 0 ∉ kept ++ r := by simp [h0, hreads.1]
    have hfuel : (cut (kept ++ r)).1.length < BUFSIZE + 1 := by
      have := length_cut_fst (kept ++ r)
      rw [List.length_append] at this
      omega
    obtain ⟨done, hdone, hlines⟩ := grepLines_eq hp hs0 hfuel [] junk' out
    simp only [List.nil_append, List.length_nil, Nat.zero_add] at hdone hlines
    rw [grepLoop, if_neg (by omega), if_neg hne, hmove, seen, matching_append, ← List.append_assoc]
    simp only [Option.bind_eq_bind, Option.bind_some, hstore, hlines]
    have hpos := List.length_pos_of_ne_nil hne
    have hsum : (kept ++ r).length = kept.length + r.length := List.length_append
    by_cases hnl : newline ∈ r
    · -- there is a line, and the rest of the buffer goes to its beginning
      have hlt := length_cut_snd_lt (List.mem_append_right kept hnl)
      have hk : keep kept r = (cut (kept ++ r)).2 := if_pos hnl
      rw [hk] at hrest ⊢
      have hm : kept.length + r.length - done.length = (cut (kept ++ r)).2.length := by omega
      have hdown : memmoveAt (done ++ ((cut (kept ++ r)).2 ++ 0 :: junk')) 0
          ((cut (kept ++ r)).2 ++ 0 :: junk') (cut (kept ++ r)).2.length =
          some ((cut (kept ++ r)).2 ++
            (done ++ ((cut (kept ++ r)).2 ++ 0 :: junk')).drop (cut (kept ++ r)).2.length) :=
        Ulib.memmoveAt_append (s := []) (by simp; omega)
      rw [if_neg (show ¬done.length = 0 by omega), if_pos (by omega), List.drop_left, hm, hdown]
      refine ih (cut_snd _) (fun h => hs0 (mem_cut_snd _ h)) hreads.2 hrest ?_
      simp only [List.length_append, List.length_cons, List.length_drop] at hlen hdone hlt ⊢
      omega
    · -- there is none, and the buffer is emptied
      have hnone : newline ∉ kept ++ r := by simp [hkept, hnl]
      have hk : keep kept r = [] := if_neg hnl
      rw [hk] at hrest ⊢
      simp only [cut_of_not_mem hnone, Nat.sub_self] at hdone ⊢
      obtain rfl := List.eq_nil_of_length_eq_zero hdone
      rw [if_pos List.length_nil, if_neg (Nat.lt_irrefl 0)]
      refine ih (by simp) (by simp) hreads.2 hrest ?_
      simp only [List.length_append, List.length_cons, List.nil_append] at hlen ⊢
      omega

/-! ## When it is all of it -/

/-- Every read up to the last newline has a newline in it. -/
def Whole (reads : List (List UInt8)) : Prop := reads.Pairwise fun r r' =>
    newline ∈ r' → newline ∈ r

/-- The bytes of lines, with their newlines. -/
def weight (ls : List (List UInt8)) : Nat := (ls.map fun l => l.length + 1).sum

theorem weight_append (ls ls' : List (List UInt8)) :
    weight (ls ++ ls') = weight ls + weight ls' := by
  simp [weight]

/-- What stands before a text makes its first line longer. -/
theorem weight_cut_append (hs : newline ∉ s) (ht : newline ∈ t) :
    weight (cut (s ++ t)).1 = weight (cut t).1 + s.length := by
  obtain ⟨l, t', rfl, hl⟩ := exists_line ht
  have hsl : newline ∉ s ++ l := by simp [hs, hl]
  rw [← List.append_assoc, cut_line hsl, cut_line hl]
  simp only [weight, List.map_cons, List.sum_cons, List.length_append]
  omega

theorem not_mem_flatten {r : List UInt8} {rs : List (List UInt8)}
    (h : ∀ r' ∈ rs, newline ∈ r' → newline ∈ r) (hr : newline ∉ r) : newline ∉ rs.flatten := by
  intro hmem
  obtain ⟨r', hr', hnl⟩ := List.mem_flatten.1 hmem
  exact hr (h r' hr' hnl)

/-- The lines that are seen have no more bytes than there are. -/
theorem weight_seen_le {kept : List UInt8} {reads : List (List UInt8)} (hkept : newline ∉ kept) :
    weight (seen kept reads) ≤ weight (cut (kept ++ reads.flatten)).1 := by
  induction reads generalizing kept with
  | nil => exact Nat.zero_le _
  | cons r rs ih =>
    rw [seen, List.flatten_cons, ← List.append_assoc, weight_append]
    by_cases hnl : newline ∈ r
    · rw [keep, if_pos hnl, cut_append (kept ++ r) rs.flatten, weight_append]
      exact Nat.add_le_add_left (ih (cut_snd _)) _
    · have hnone : newline ∉ kept ++ r := by simp [hkept, hnl]
      have hrest : weight (seen [] rs) ≤ weight (cut rs.flatten).1 := ih (by simp)
      rw [keep, if_neg hnl, cut_of_not_mem hnone]
      by_cases hmore : newline ∈ rs.flatten
      · rw [weight_cut_append hnone hmore]
        simp only [weight, List.map_nil, List.sum_nil] at hrest ⊢
        omega
      · have hall : newline ∉ kept ++ r ++ rs.flatten := by
          simp [hkept, hnl] at hmore ⊢
          exact hmore
        rw [cut_of_not_mem hmore] at hrest
        rw [cut_of_not_mem hall]
        simp only [weight, List.map_nil, List.sum_nil] at hrest ⊢
        omega

/-- All lines are seen if no read up to the last newline is without one. -/
theorem seen_of_whole {kept : List UInt8} {reads : List (List UInt8)} (hkept : newline ∉ kept)
    (h : Whole reads) : seen kept reads = (cut (kept ++ reads.flatten)).1 := by
  induction reads generalizing kept with
  | nil => rw [List.flatten_nil, List.append_nil, cut_of_not_mem hkept]; rfl
  | cons r rs ih =>
    obtain ⟨hfirst, hrest⟩ := List.pairwise_cons.1 h
    rw [seen, List.flatten_cons, ← List.append_assoc]
    by_cases hnl : newline ∈ r
    · rw [keep, if_pos hnl, cut_append (kept ++ r) rs.flatten, ih (cut_snd _) hrest]
    · have hmore := not_mem_flatten hfirst hnl
      have hnone : newline ∉ kept ++ r := by simp [hkept, hnl]
      have hall : newline ∉ kept ++ r ++ rs.flatten := by
        rw [List.mem_append, not_or]
        exact ⟨hnone, hmore⟩
      rw [keep, if_neg hnl, ih (by simp) hrest, cut_of_not_mem hnone, cut_of_not_mem hall]
      exact (congrArg Prod.fst (cut_of_not_mem hmore) :)

/-- And only then. -/
theorem whole_of_weight {kept : List UInt8} {reads : List (List UInt8)} (hkept : newline ∉ kept)
    (hr : Reads kept reads)
    (h : weight (seen kept reads) = weight (cut (kept ++ reads.flatten)).1) : Whole reads := by
  induction reads generalizing kept with
  | nil => exact .nil
  | cons r rs ih =>
    obtain ⟨hne, -, hrest⟩ := hr
    rw [seen, List.flatten_cons, ← List.append_assoc, weight_append] at h
    by_cases hnl : newline ∈ r
    · rw [keep, if_pos hnl, cut_append (kept ++ r) rs.flatten, weight_append] at h
      rw [keep, if_pos hnl] at hrest
      exact List.pairwise_cons.2 ⟨fun _ _ _ => hnl, ih (cut_snd _) hrest (Nat.add_left_cancel h)⟩
    · have hnone : newline ∉ kept ++ r := by simp [hkept, hnl]
      have hmore : newline ∉ rs.flatten := by
        intro hmore
        have hle : weight (seen [] rs) ≤ weight (cut rs.flatten).1 := weight_seen_le (by simp)
        have hpos := List.length_pos_of_ne_nil hne
        rw [keep, if_neg hnl, cut_of_not_mem hnone, weight_cut_append hnone hmore,
          List.length_append] at h
        simp only [weight, List.map_nil, List.sum_nil] at hle h
        omega
      have hnever : ∀ r' ∈ rs, newline ∉ r' := fun r' hr' hmem => hmore
        (List.mem_flatten.2 ⟨r', hr', hmem⟩)
      exact List.pairwise_cons.2 ⟨fun r' hr' hmem => absurd hmem (hnever r' hr'),
        List.pairwise_iff_forall_sublist.2 fun hsub hmem => absurd hmem
        (hnever _ (hsub.subset (by simp)))⟩

/-- The empty pattern matches every line. -/
theorem matching_nil (ls : List (List UInt8)) : matching [] ls = ls.map (· ++ [newline]) := by
  have hmatch : ∀ l : List UInt8, matchRe [0] (l ++ [0]) = some true := by
    intro l
    cases l <;> simp [matchRe, matchLoop, caret]
  simp [matching, hmatch]

/-- `grep` writes the lines that match, whatever the pattern, exactly if no piece of the input
up to its last newline is without a newline. -/
theorem grep_iff {reads : List (List UInt8)} {buf : List UInt8} (hbuf : buf.length = BUFSIZE)
    (h0 : ∀ r ∈ reads, 0 ∉ r) (hreads : Reads [] reads) :
    (∀ pattern, 0 ∉ pattern →
      grep pattern reads buf = some (matching pattern (cut reads.flatten).1)) ↔ Whole reads := by
  have hgrep : ∀ pattern, 0 ∉ pattern → grep pattern reads buf =
      some (matching pattern (seen [] reads)) := by
    intro pattern hp
    exact grepLoop_eq hp (List.not_mem_nil : newline ∉ []) List.not_mem_nil h0 hreads hbuf
  constructor
  · intro h
    have hnil := (hgrep [] (by simp)).symm.trans (h [] (by simp))
    rw [matching_nil, matching_nil, Option.some.injEq, List.map_inj_right fun _ _ =>
      List.append_cancel_right] at hnil
    exact whole_of_weight (List.not_mem_nil : newline ∉ []) hreads (by rw [hnil, List.nil_append])
  · intro h pattern hp
    rw [hgrep pattern hp, seen_of_whole (by simp) h, List.nil_append]

end

/-- A line that is read in one piece, and the beginning of another. -/
def wholeReads : List (List UInt8) := [[97, 98, newline, 99], [newline, 100]]

theorem grep_whole :
    grep [98] wholeReads (List.replicate BUFSIZE 0) = some [[97, 98, newline]] := by
  have hbuf : (List.replicate BUFSIZE (0 : UInt8)).length = BUFSIZE := List.length_replicate
  have hreads : Reads [] wholeReads := by simp [wholeReads, Reads, BUFSIZE, keep, cut, newline]
  have hwhole : Whole wholeReads := by simp [wholeReads, Whole]
  rw [(grep_iff hbuf (by decide) hreads).2 hwhole [98] (by decide)]
  decide +kernel

/-- The line `ab` comes in two pieces, as from a terminal or a pipe. -/
theorem not_grep_split :
    grep [98] [[97], [98, newline]] (List.replicate BUFSIZE 0) = some [[98, newline]] ∧
      matching [98] (cut [97, 98, newline]).1 = [[97, 98, newline]] := by
  decide +kernel

end Xv6Rework.Grep
