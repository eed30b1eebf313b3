import Xv6Rework.Lib.Prog

/-!
# Labelled transition systems

A machine is a relation `step s a s'` between a state, a label and a next state.
`Reach` is reachability from an initial state.  `Trace` is a run together with
the states it passes through; `Trace.Always` and `Trace.Meets` say that a
predicate holds in all its states, and that all its steps satisfy a condition.

The two rules of this file are the invariant rule, and its converse form
`Trace.always_iff_meets`: where one step from a good state keeps it good exactly
when the step meets a condition, a run stays good exactly when all its steps
meet the condition.

Where the labels are programs, or a step is a function, `Trace.run` and `Trace.follow`
compute a run from its labels.
-/

universe u v

namespace Xv6Rework

variable {σ : Type u} {α : Type v}

/-! ## Reachability -/

/-- The states reachable by `step` from a state that satisfies `init`. -/
inductive Reach (init : σ → Prop) (step : σ → α → σ → Prop) : σ → Prop
  | init {s : σ} : init s → Reach init step s
  | step {s s' : σ} {a : α} : Reach init step s → step s a s' → Reach init step s'

namespace Reach

variable {init : σ → Prop} {step : σ → α → σ → Prop}

/-- The invariant rule. -/
theorem invariant {Inv : σ → Prop} (hinit : ∀ s, init s → Inv s)
    (hstep : ∀ s a s', Inv s → step s a s' → Inv s') {s : σ} (h : Reach init step s) : Inv s := by
  induction h with
  | init h => exact hinit _ h
  | step _ hs ih => exact hstep _ _ _ ih hs

/-- Running a list of labels on a machine given by a partial function. -/
theorem foldlM {f : σ → α → Option σ} {s s' : σ} {l : List α}
    (h : Reach init (fun s a s' => f s a = some s') s) (hl : l.foldlM f s = some s') :
    Reach init (fun s a s' => f s a = some s') s' := by
  induction l generalizing s with
  | nil =>
    obtain rfl := Option.some.inj hl
    exact h
  | cons a l ih =>
    rw [List.foldlM_cons] at hl
    obtain ⟨t, ht, hl⟩ := Option.bind_eq_some_iff.1 hl
    exact ih (h.step ht) hl

/-- Running a list of labels on a machine whose steps are programs. -/
theorem forM {exec : α → Prog σ Unit} {s s' : σ} {l : List α}
    (h : Reach init (fun s a s' => exec a s = (.ok (), s')) s)
    (hl : l.forM exec s = (.ok (), s')) :
    Reach init (fun s a s' => exec a s = (.ok (), s')) s' := by
  induction l generalizing s with
  | nil =>
    cases hl
    exact h
  | cons a l ih =>
    obtain ⟨_, t, ht, hl⟩ := Prog.bind_eq_ok hl
    exact ih (h.step ht) hl

end Reach

/-! ## Runs -/

/-- `Trace step s l`: from `s`, the labels of `l` lead through the states of `l`. -/
inductive Trace (step : σ → α → σ → Prop) : σ → List (α × σ) → Prop
  | nil {s : σ} : Trace step s []
  | cons {s s' : σ} {a : α} {l : List (α × σ)} :
      step s a s' → Trace step s' l → Trace step s ((a, s') :: l)

namespace Trace

variable {step : σ → α → σ → Prop}

/-- Every state of a run satisfies `P`. -/
def Always (P : σ → Prop) (s : σ) (l : List (α × σ)) : Prop := P s ∧ ∀ x ∈ l, P x.2

/-- Every step of a run satisfies `ok`, which sees the state the step is taken in. -/
def Meets (ok : σ → α → Prop) : σ → List (α × σ) → Prop
  | _, [] => True
  | s, (a, s') :: l => ok s a ∧ Meets ok s' l

instance {P : σ → Prop} [DecidablePred P] (s : σ) (l : List (α × σ)) : Decidable (Always P s l) :=
  inferInstanceAs (Decidable (P s ∧ ∀ x ∈ l, P x.2))

instance decidableMeets {ok : σ → α → Prop} [∀ s a, Decidable (ok s a)] :
    ∀ (s : σ) (l : List (α × σ)), Decidable (Meets ok s l)
  | _, [] => isTrue trivial
  | s, (a, s') :: l => @instDecidableAnd (ok s a) (Meets ok s' l) _ (decidableMeets s' l)

/-- The state a run ends in. -/
def last : σ → List (α × σ) → σ
  | s, [] => s
  | _, (_, s') :: l => last s' l

/-- How many steps of a run satisfy `f`, which sees the states before and after. -/
def count (f : σ → α → σ → Bool) : σ → List (α × σ) → Nat
  | _, [] => 0
  | s, (a, s') :: l => (f s a s').toNat + count f s' l

theorem mono {step' : σ → α → σ → Prop} (hstep : ∀ s a s', step s a s' → step' s a s') {s : σ}
    {l : List (α × σ)} (h : Trace step s l) : Trace step' s l := by
  induction h with
  | nil => exact .nil
  | cons hs _ ih => exact .cons (hstep _ _ _ hs) ih

/-- The states of a run from a reachable state are reachable. -/
theorem reach {init : σ → Prop} {s : σ} {l : List (α × σ)} (h : Trace step s l)
    (hs : Reach init step s) : ∀ x ∈ l, Reach init step x.2 := by
  induction h with
  | nil => simp
  | cons hstep _ ih => exact List.forall_mem_cons.2 ⟨hs.step hstep, ih (hs.step hstep)⟩

theorem always_cons {P : σ → Prop} {s s' : σ} {a : α} {l : List (α × σ)} :
    Always P s ((a, s') :: l) ↔ P s ∧ Always P s' l := by
  simp [Always]

/-- A run stays in `P` with all its steps in `R` exactly when all its steps meet
`ok`, if that is so of each single step taken under an invariant. -/
theorem always_and_meets_iff (Inv : σ → Prop) {P : σ → Prop} {R ok : σ → α → Prop}
    (hinv : ∀ s a s', Inv s → P s → ok s a → step s a s' → Inv s')
    (hok : ∀ s a s', Inv s → P s → step s a s' → (P s' ∧ R s a ↔ ok s a))
    {s : σ} {l : List (α × σ)} (h : Trace step s l) (hs : Inv s) (hP : P s) :
    Always P s l ∧ Meets R s l ↔ Meets ok s l := by
  induction h with
  | nil => simp [Always, Meets, hP]
  | @cons s s' a l hstep _ ih =>
    have hiff := hok s a s' hs hP hstep
    rw [always_cons, Meets, Meets]
    constructor
    · rintro ⟨⟨-, hl⟩, hR, hRl⟩
      have ha := hiff.mp ⟨hl.1, hR⟩
      exact ⟨ha, (ih (hinv s a s' hs hP ha hstep) hl.1).mp ⟨hl, hRl⟩⟩
    · rintro ⟨ha, hl⟩
      obtain ⟨hP', hR⟩ := hiff.mpr ha
      obtain ⟨hA, hM⟩ := (ih (hinv s a s' hs hP ha hstep) hP').mpr hl
      exact ⟨⟨hP, hA⟩, hR, hM⟩

theorem meets_true {s : σ} {l : List (α × σ)} : Meets (fun _ _ => True) s l := by
  induction l generalizing s with
  | nil => trivial
  | cons x l ih => exact ⟨trivial, ih⟩

/-- A run stays in `P` exactly when all its steps meet `ok`, if that is so of
each single step taken under an invariant. -/
theorem always_iff_meets (Inv : σ → Prop) {P : σ → Prop} {ok : σ → α → Prop}
    (hinv : ∀ s a s', Inv s → P s → ok s a → step s a s' → Inv s')
    (hok : ∀ s a s', Inv s → P s → step s a s' → (P s' ↔ ok s a))
    {s : σ} {l : List (α × σ)} (h : Trace step s l) (hs : Inv s) (hP : P s) :
    Always P s l ↔ Meets ok s l := by
  rw [← h.always_and_meets_iff (R := fun _ _ => True) Inv hinv
    (fun s a s' hi hP hstep => by rw [and_true]; exact hok s a s' hi hP hstep) hs hP]
  exact ⟨fun hA => ⟨hA, meets_true⟩, And.left⟩

/-- Two conditions that come to the same for each step taken under an invariant. -/
theorem meets_congr (Inv : σ → Prop) {R ok : σ → α → Prop}
    (hinv : ∀ s a s', Inv s → step s a s' → Inv s')
    (hok : ∀ s a s', Inv s → step s a s' → (R s a ↔ ok s a)) {s : σ} {l : List (α × σ)}
    (h : Trace step s l) (hs : Inv s) : Meets R s l ↔ Meets ok s l := by
  induction h with
  | nil => exact Iff.rfl
  | cons hstep _ ih => exact and_congr (hok _ _ _ hs hstep) (ih (hinv _ _ _ hs hstep))

/-- A run whose steps all meet a guard is a run of the machine with that guard. -/
theorem guarded {en : σ → α → Prop} {s : σ} {l : List (α × σ)} (h : Trace step s l)
    (hl : Meets en s l) : Trace (fun s a s' => en s a ∧ step s a s') s l := by
  induction h with
  | nil => exact .nil
  | cons hs _ ih => exact .cons ⟨hl.1, hs⟩ (ih hl.2)

/-- The run of a list of programs. -/
def run (exec : α → Prog σ Unit) : σ → List α → List (α × σ)
  | _, [] => []
  | s, a :: l => (a, (exec a s).2) :: run exec (exec a s).2 l

theorem of_run {exec : α → Prog σ Unit} {s : σ} {l : List α} (h : (l.forM exec s).1 = .ok ()) :
    Trace (fun s a s' => exec a s = (.ok (), s')) s (run exec s l) := by
  induction l generalizing s with
  | nil => exact .nil
  | cons a l ih =>
    have hrun : (exec a >>= fun _ => l.forM exec) s = (.ok (), ((a :: l).forM exec s).2) :=
      Prod.ext h rfl
    obtain ⟨_, t, ht, hl⟩ := Prog.bind_eq_ok hrun
    rw [run, ht]
    exact .cons ht (ih (by rw [hl]))

/-- The run of a list of labels where a step is a function; where there is none the state stays. -/
def follow (f : σ → α → Option σ) : σ → List α → List (α × σ)
  | _, [] => []
  | s, a :: l => (a, (f s a).getD s) :: follow f ((f s a).getD s) l

theorem of_follow {f : σ → α → Option σ} {s : σ} {l : List α}
    (h : Meets (fun s a => (f s a).isSome = true) s (follow f s l)) :
    Trace (fun s a s' => f s a = some s') s (follow f s l) := by
  induction l generalizing s with
  | nil => exact .nil
  | cons a l ih =>
    obtain ⟨ha, hl⟩ := h
    exact .cons (by rw [Option.getD_of_ne_none (Option.isSome_iff_ne_none.mp ha)]) (ih hl)

end Trace

end Xv6Rework
