import Xv6Rework.Lib.Prog
import Mathlib.Order.Defs.Unbundled

/-!
# What a program leaves alone, and what holds if it returns

`Prog.Keeps R x` says that each run of `x` that returns leads from a state to one
that `R` relates to it.  Where `R` is a preorder this passes from the parts of a
program to the whole, whatever the parts compute: one rule for each way of putting
programs together.  With `R s s' := f s' = f s` it says that `x` leaves `f` alone.

`Prog.Panics l x` says that `x` panics with no message but those in `l`, and passes
from the parts to the whole in the same way.  `Prog.Tame R l x` is both at once.

`Prog.wlp x Q s` is the weakest liberal precondition: `Q` holds if `x` returns.
-/

universe u v w

namespace Prog

variable {σ : Type u} {τ : Type w} {α β : Type v} {R : σ → σ → Prop}

/-- Each run that returns leads to a related state. -/
def Keeps (R : σ → σ → Prop) (x : Prog σ α) : Prop := ∀ s a s', x s = (.ok a, s') → R s s'

/-- The relation of states that agree on `f`. -/
def Same (f : σ → τ) (s s' : σ) : Prop := f s' = f s

instance (f : σ → τ) : IsPreorder σ (Same f) where
  refl _ := rfl
  trans _ _ _ h h' := h'.trans h

namespace Keeps

theorem mono {R' : σ → σ → Prop} {x : Prog σ α} (h : Keeps R x) (hR : ∀ s s', R s s' → R' s s') :
    Keeps R' x := fun s a s' hx => hR s s' (h s a s' hx)

theorem stop {e : Stop} : Keeps R (Prog.stop e : Prog σ α) := by
  rintro s a s' ⟨⟩

theorem halt {msg : String} : Keeps R (Prog.halt msg : Prog σ α) := stop

theorem update {f : σ → σ} (h : ∀ s, R s (f s)) : Keeps R (Prog.update f) := by
  rintro s a s' ⟨⟩
  exact h s

theorem ite {c : Prop} [Decidable c] {x y : Prog σ α} (hx : Keeps R x) (hy : Keeps R y) :
    Keeps R (if c then x else y) := by
  split
  · exact hx
  · exact hy

/-- What the last stage ensures, whatever comes before. -/
theorem right {Q : σ → Prop} {x : Prog σ α} {f : α → Prog σ β}
    (hf : ∀ a, Keeps (fun _ s' => Q s') (f a)) : Keeps (fun _ s' => Q s') (x >>= f) := by
  intro s b s' h
  obtain ⟨a, t, -, hs'⟩ := bind_eq_ok h
  exact hf a t b s' hs'

section

variable [IsPreorder σ R]

theorem pure {a : α} : Keeps R (Pure.pure a : Prog σ α) := by
  rintro s b s' ⟨⟩
  exact refl s

theorem gets {f : σ → α} : Keeps R (Prog.gets f) := by
  rintro s a s' ⟨⟩
  exact refl s

theorem bind {x : Prog σ α} {f : α → Prog σ β} (hx : Keeps R x) (hf : ∀ a, Keeps R (f a)) :
    Keeps R (x >>= f) := by
  intro s b s' h
  obtain ⟨a, t, ht, hs'⟩ := bind_eq_ok h
  exact IsTrans.trans s t s' (hx s a t ht) (hf a t b s' hs')

theorem forM {l : List τ} {f : τ → Prog σ PUnit} (hf : ∀ a, Keeps R (f a)) :
    Keeps R (l.forM f) := by
  induction l with
  | nil => exact pure
  | cons a l ih => exact bind (hf a) fun _ => ih

end

end Keeps

/-! ## The panics of a program -/

/-- Each run that panics does so with one of the given messages. -/
def Panics (l : List String) (x : Prog σ α) : Prop :=
  ∀ s msg s', x s = (.error (.panic msg), s') → msg ∈ l

namespace Panics

variable {l : List String}

theorem pure {a : α} : Panics l (Pure.pure a : Prog σ α) := by rintro s msg s' ⟨⟩

theorem gets {f : σ → α} : Panics l (Prog.gets f) := by rintro s msg s' ⟨⟩

theorem update {f : σ → σ} : Panics l (Prog.update f) := by rintro s msg s' ⟨⟩

theorem hang : Panics l (Prog.stop .hang : Prog σ α) := by rintro s msg s' ⟨⟩

theorem halt {msg : String} (h : msg ∈ l) : Panics l (Prog.halt msg : Prog σ α) := by
  rintro s msg s' ⟨⟩
  exact h

theorem ite {c : Prop} [Decidable c] {x y : Prog σ α} (hx : Panics l x) (hy : Panics l y) :
    Panics l (if c then x else y) := by
  split
  · exact hx
  · exact hy

theorem bind {x : Prog σ α} {f : α → Prog σ β} (hx : Panics l x) (hf : ∀ a, Panics l (f a)) :
    Panics l (x >>= f) := by
  intro s msg s' h
  rw [bind_apply] at h
  rcases hr : x s with ⟨_ | a, t⟩ <;> rw [hr] at h
  · cases h
    exact hx s msg s' hr
  · exact hf a t msg s' h

theorem forM {as : List τ} {f : τ → Prog σ PUnit} (hf : ∀ a, Panics l (f a)) :
    Panics l (as.forM f) := by
  induction as with
  | nil => exact pure
  | cons a as ih => exact bind (hf a) fun _ => ih

/-- A message that is not listed. -/
theorem wp {x : Prog σ α} (h : Panics l x) {msg : String} (hmsg : msg ∉ l) (s : σ) :
    wp x (fun a s' => x s = (.ok a, s')) (fun e _ => e ≠ .panic msg) s :=
  wp_iff.mpr ⟨fun _ _ hx => hx, fun _ s' hx he => hmsg (h s msg s' (he ▸ hx))⟩

end Panics

/-! ## Both at once -/

/-- Each run that returns leads to a related state, and each that panics does so with one
of the given messages. -/
structure Tame (R : σ → σ → Prop) (l : List String) (x : Prog σ α) : Prop where
  keeps : Keeps R x
  panics : Panics l x

namespace Tame

variable {l : List String}

theorem mono {R' : σ → σ → Prop} {x : Prog σ α} (h : Tame R l x) (hR : ∀ s s', R s s' → R' s s') :
    Tame R' l x := ⟨h.keeps.mono hR, h.panics⟩

theorem hang : Tame R l (Prog.stop .hang : Prog σ α) := ⟨.stop, .hang⟩

theorem halt {msg : String} (h : msg ∈ l) : Tame R l (Prog.halt msg : Prog σ α) := ⟨.halt, .halt h⟩

theorem update {f : σ → σ} (h : ∀ s, R s (f s)) : Tame R l (Prog.update f) := ⟨.update h, .update⟩

theorem ite {c : Prop} [Decidable c] {x y : Prog σ α} (hx : Tame R l x) (hy : Tame R l y) :
    Tame R l (if c then x else y) := ⟨.ite hx.keeps hy.keeps, .ite hx.panics hy.panics⟩

variable [IsPreorder σ R]

theorem pure {a : α} : Tame R l (Pure.pure a : Prog σ α) := ⟨.pure, .pure⟩

theorem gets {f : σ → α} : Tame R l (Prog.gets f) := ⟨.gets, .gets⟩

theorem bind {x : Prog σ α} {f : α → Prog σ β} (hx : Tame R l x) (hf : ∀ a, Tame R l (f a)) :
    Tame R l (x >>= f) :=
  ⟨.bind hx.keeps fun a => (hf a).keeps, .bind hx.panics fun a => (hf a).panics⟩

theorem forM {as : List τ} {f : τ → Prog σ PUnit} (hf : ∀ a, Tame R l (f a)) :
    Tame R l (as.forM f) :=
  ⟨.forM fun a => (hf a).keeps, .forM fun a => (hf a).panics⟩

end Tame

/-! ## Partial correctness -/

/-- If `x` returns from `s`, its value and final state satisfy `Q`. -/
def wlp (x : Prog σ α) (Q : α → σ → Prop) (s : σ) : Prop := ∀ a s', x s = (.ok a, s') → Q a s'

section

variable {Q Q' : α → σ → Prop} {s : σ}

theorem wlp.mono {x : Prog σ α} (h : wlp x Q s) (hQ : ∀ a s', Q a s' → Q' a s') : wlp x Q' s :=
  fun a s' hx => hQ a s' (h a s' hx)

theorem Keeps.wlp {x : Prog σ α} (h : Keeps R x) (hQ : ∀ a s', R s s' → Q a s') : wlp x Q s :=
  fun a s' hx => hQ a s' (h s a s' hx)

/-- A program that may stop for any reason. -/
theorem wp_true {x : Prog σ α} : wp x Q (fun _ _ => True) s ↔ wlp x Q s := by
  rw [wp_iff]
  exact ⟨fun h => h.1, fun h => ⟨h, fun _ _ _ => trivial⟩⟩

@[simp] theorem wlp_pure {a : α} : wlp (pure a) Q s ↔ Q a s := by simp [wlp]

@[simp] theorem wlp_gets {f : σ → α} : wlp (gets f) Q s ↔ Q (f s) s := by simp [wlp]

@[simp] theorem wlp_update {f : σ → σ} {Q : PUnit → σ → Prop} : wlp (update f) Q s ↔ Q ⟨⟩ (f s) :=
  ⟨fun h => h _ _ rfl, by rintro h a s' ⟨⟩; exact h⟩

@[simp] theorem wlp_stop {e : Stop} : wlp (stop e : Prog σ α) Q s ↔ True := by simp [wlp]

@[simp] theorem wlp_halt {msg : String} : wlp (halt msg : Prog σ α) Q s ↔ True := by simp [wlp]

@[simp] theorem wlp_bind {x : Prog σ β} {f : β → Prog σ α} :
    wlp (x >>= f) Q s ↔ wlp x (fun b s' => wlp (f b) Q s') s := by
  constructor
  · intro h b t hx a s' hf
    exact h a s' (by rw [bind_of_ok hx, hf])
  · intro h a s' hx
    obtain ⟨b, t, ht, hf⟩ := bind_eq_ok hx
    exact h b t ht a s' hf

theorem wlp_zoom {τ : Type u} {get : σ → τ} {set : σ → τ → σ} {x : Prog τ α} :
    wlp (zoom get set x) Q s ↔ wlp x (fun a t => Q a (set s t)) (get s) := by
  simp only [wlp, zoom, Prod.mk.injEq]
  rcases x (get s) with ⟨r, t⟩
  constructor
  · rintro h a t' ⟨rfl, rfl⟩
    exact h a _ ⟨rfl, rfl⟩
  · rintro h a s' ⟨rfl, rfl⟩
    exact h a t rfl

theorem wlp_ite {c : Prop} [Decidable c] {x y : Prog σ α} :
    wlp (if c then x else y) Q s ↔ (c → wlp x Q s) ∧ (¬c → wlp y Q s) := by
  split <;> simp [*]

end

end Prog
