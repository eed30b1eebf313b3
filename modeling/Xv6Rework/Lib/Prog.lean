import Mathlib.Control.Basic

/-!
# Programs that may stop

A small monad for imperative code that runs on a state and may fail to return:
`Prog σ α` is a state transformer whose outcome is either a value or a reason
for stopping.  The state reached is kept in *both* cases, so that what a
program did before it stopped can still be talked about.

`Prog.wp x Q E s` is the weakest precondition of `x` at `s`: if `x` returns,
its value and final state satisfy `Q`, and if it stops, the reason and the
state reached satisfy `E`.  With `E := fun _ _ => False` it is total
correctness; with `E := fun _ _ => True` it is partial correctness.

Nothing here mentions a particular state or program.
-/

universe u v w

/-- Why a program did not return: it called `panic` with a message, or it waits
for something that never happens. -/
inductive Stop where
  | panic (msg : String)
  | hang
deriving DecidableEq, Repr

/-- A program on states `σ` with results in `α`. -/
def Prog (σ : Type u) (α : Type v) : Type (max u v) := σ → Except Stop α × σ

namespace Prog

variable {σ : Type u} {α β : Type v}

/-- Continue with the value, or pass the reason for stopping on. -/
def andThen (x : Prog σ α) (f : α → Prog σ β) : Prog σ β := fun s =>
  match x s with
  | (.ok a, s') => f a s'
  | (.error e, s') => (.error e, s')

instance instMonad : Monad (Prog σ) where
  pure a := fun s => (.ok a, s)
  bind := andThen

/-- Stop here, leaving the state as it is. -/
def stop (e : Stop) : Prog σ α := fun s => (.error e, s)

/-- `panic(msg)`. -/
def halt (msg : String) : Prog σ α := stop (.panic msg)

/-- Read the state through a projection. -/
def gets (f : σ → α) : Prog σ α := fun s => (.ok (f s), s)

/-- Change the state. -/
def update (f : σ → σ) : Prog σ PUnit.{v + 1} := fun s => (.ok ⟨⟩, f s)

/-- Run a program on a part of the state. -/
def zoom {τ : Type u} (get : σ → τ) (set : σ → τ → σ) (x : Prog τ α) : Prog σ α := fun s =>
  match x (get s) with
  | (r, t) => (r, set s t)

/-! ## Running -/

@[simp] theorem pure_apply (a : α) (s : σ) : (pure a : Prog σ α) s = (.ok a, s) := rfl

theorem bind_apply (x : Prog σ α) (f : α → Prog σ β) (s : σ) :
    (x >>= f) s = match x s with
      | (.ok a, s') => f a s'
      | (.error e, s') => (.error e, s') := rfl

@[simp] theorem stop_apply (e : Stop) (s : σ) : (stop e : Prog σ α) s = (.error e, s) := rfl

@[simp] theorem halt_apply (msg : String) (s : σ) :
    (halt msg : Prog σ α) s = (.error (.panic msg), s) := rfl

@[simp] theorem gets_apply (f : σ → α) (s : σ) : gets f s = (.ok (f s), s) := rfl

@[simp] theorem update_apply (f : σ → σ) (s : σ) :
    update f s = (.ok (⟨⟩ : PUnit.{v + 1}), f s) := rfl

/-- A run with its result known. -/
theorem run_eq {x : Prog σ α} {s : σ} {r : Except Stop α} (h : (x s).1 = r) : x s = (r, (x s).2) :=
  Prod.ext h rfl

/-- Running past a first stage that returns. -/
theorem bind_of_ok {x : Prog σ α} {f : α → Prog σ β} {s s' : σ} {a : α}
    (h : x s = (.ok a, s')) : (x >>= f) s = f a s' := by
  rw [bind_apply, h]

@[simp] theorem bind_gets (f : σ → α) (k : α → Prog σ β) (s : σ) :
    (gets f >>= k) s = k (f s) s := rfl

@[simp] theorem bind_update (f : σ → σ) (k : PUnit.{v + 1} → Prog σ β) (s : σ) :
    (update f >>= k) s = k ⟨⟩ (f s) := rfl

@[simp] theorem bind_pure_apply (a : α) (k : α → Prog σ β) (s : σ) :
    ((pure a : Prog σ α) >>= k) s = k a s := rfl

@[simp] theorem bind_halt (msg : String) (k : α → Prog σ β) (s : σ) :
    ((halt msg : Prog σ α) >>= k) s = (.error (.panic msg), s) := rfl

@[simp] theorem bind_stop (e : Stop) (k : α → Prog σ β) (s : σ) :
    ((stop e : Prog σ α) >>= k) s = (.error e, s) := rfl

/-- Running a sequence of sequences. -/
@[simp] theorem bind_bind_apply {γ : Type v} (x : Prog σ α) (f : α → Prog σ β)
    (g : β → Prog σ γ) (s : σ) : ((x >>= f) >>= g) s = (x >>= fun a => f a >>= g) s := by
  simp only [bind_apply]
  rcases x s with ⟨_ | _, _⟩ <;> rfl

/-- Branching before a continuation. -/
@[simp] theorem bind_ite_apply {c : Prop} [Decidable c] (x y : Prog σ α) (k : α → Prog σ β)
    (s : σ) : ((if c then x else y) >>= k) s = if c then (x >>= k) s else (y >>= k) s := by
  split <;> rfl

/-- A run of a sequence that returns splits into returning runs of its stages. -/
theorem bind_eq_ok {x : Prog σ α} {f : α → Prog σ β} {s s' : σ} {b : β}
    (h : (x >>= f) s = (.ok b, s')) : ∃ a t, x s = (.ok a, t) ∧ f a t = (.ok b, s') := by
  rw [bind_apply] at h
  rcases hx : x s with ⟨r, t⟩
  rw [hx] at h
  cases r with
  | ok a => exact ⟨a, t, rfl, h⟩
  | error e => cases h

/-! ## Weakest preconditions -/

/-- If `x` returns from `s`, its value and final state satisfy `Q`; if it stops,
the reason and the state reached satisfy `E`. -/
def wp (x : Prog σ α) (Q : α → σ → Prop) (E : Stop → σ → Prop) (s : σ) : Prop :=
  match x s with
  | (.ok a, s') => Q a s'
  | (.error e, s') => E e s'

section

variable {Q Q' : α → σ → Prop} {E E' : Stop → σ → Prop} {s s' : σ}

/-- The two halves of a weakest precondition. -/
theorem wp_iff {x : Prog σ α} : wp x Q E s ↔
    (∀ a s', x s = (.ok a, s') → Q a s') ∧ ∀ e s', x s = (.error e, s') → E e s' := by
  unfold wp
  rcases x s with ⟨_ | _, _⟩ <;> simp

theorem wp.mono {x : Prog σ α} (h : wp x Q E s) (hQ : ∀ a s', Q a s' → Q' a s')
    (hE : ∀ e s', E e s' → E' e s') : wp x Q' E' s := by
  rw [wp_iff] at h ⊢
  exact ⟨fun a s' h' => hQ a s' (h.1 a s' h'), fun e s' h' => hE e s' (h.2 e s' h')⟩

theorem wp_of_ok {x : Prog σ α} {a : α} (h : x s = (.ok a, s')) : wp x Q E s ↔ Q a s' := by
  simp [wp, h]

theorem wp_of_error {x : Prog σ α} {e : Stop} (h : x s = (.error e, s')) :
    wp x Q E s ↔ E e s' := by
  simp [wp, h]

/-- What is known of a run includes the run. -/
theorem wp.run {x : Prog σ α} (h : wp x Q E s) :
    wp x (fun a s' => x s = (.ok a, s') ∧ Q a s')
      (fun e s' => x s = (.error e, s') ∧ E e s') s := by
  rw [wp_iff] at h ⊢
  exact ⟨fun a s' r => ⟨r, h.1 a s' r⟩, fun e s' r => ⟨r, h.2 e s' r⟩⟩

/-- A program that never stops returns. -/
theorem wp.exists_ok {x : Prog σ α} (h : wp x Q (fun _ _ => False) s) :
    ∃ a s', x s = (.ok a, s') ∧ Q a s' := by
  unfold wp at h
  rcases hx : x s with ⟨_ | a, s'⟩ <;> rw [hx] at h
  · exact h.elim
  · exact ⟨a, s', rfl, h⟩

@[simp] theorem wp_pure {a : α} : wp (pure a) Q E s ↔ Q a s := Iff.rfl

@[simp] theorem wp_bind {x : Prog σ β} {f : β → Prog σ α} :
    wp (x >>= f) Q E s ↔ wp x (fun b s' => wp (f b) Q E s') E s := by
  simp only [wp, bind_apply]
  rcases x s with ⟨_ | _, _⟩ <;> rfl

@[simp] theorem wp_gets {f : σ → α} : wp (gets f) Q E s ↔ Q (f s) s := Iff.rfl

@[simp] theorem wp_update {f : σ → σ} {R : PUnit → σ → Prop} :
    wp (update f) R E s ↔ R ⟨⟩ (f s) := Iff.rfl

@[simp] theorem wp_stop {e : Stop} : wp (stop e : Prog σ α) Q E s ↔ E e s := Iff.rfl

@[simp] theorem wp_halt {msg : String} :
    wp (halt msg : Prog σ α) Q E s ↔ E (.panic msg) s := Iff.rfl

theorem wp_zoom {τ : Type u} {get : σ → τ} {set : σ → τ → σ} {x : Prog τ α} :
    wp (zoom get set x) Q E s ↔
      wp x (fun a t => Q a (set s t)) (fun e t => E e (set s t)) (get s) := by
  unfold wp zoom
  rcases x (get s) with ⟨_ | _, _⟩ <;> rfl

theorem wp_ite {c : Prop} [Decidable c] {x y : Prog σ α} :
    wp (if c then x else y) Q E s ↔ (c → wp x Q E s) ∧ (¬c → wp y Q E s) := by
  split <;> simp [*]

/-- The rule for a counted loop: an invariant that holds at the start and that
each round carries on holds at the end. -/
theorem wp_forM_range {n : Nat} {f : Nat → Prog σ PUnit} {R : PUnit → σ → Prop}
    (I : Nat → σ → Prop) (h0 : I 0 s)
    (step : ∀ i < n, ∀ s, I i s → wp (f i) (fun _ s' => I (i + 1) s') E s)
    (done : ∀ s, I n s → R ⟨⟩ s) : wp ((List.range n).forM f) R E s := by
  have loop : ∀ (k i : Nat) (s : σ), i + k = n → I i s →
      wp ((List.range' i k).forM f) (fun _ s' => I n s') E s := by
    intro k
    induction k with
    | zero => rintro i s rfl hi; exact hi
    | succ k ih =>
      intro i s hik hi
      rw [List.range'_succ, List.forM, wp_bind]
      exact (step i (by omega) s hi).mono (fun _ s' hs' => ih (i + 1) s' (by omega) hs')
        fun _ _ h => h
  rw [List.range_eq_range']
  exact (loop n 0 s (by omega) h0).mono (fun _ s' h => done s' h) fun _ _ h => h

end

end Prog
