import Mathlib.Logic.Function.Basic

/-!
# Redo logging

A store maps addresses `A` to contents `V`, and is changed by writes that happen
one at a time.  A crash leaves the store after some prefix of the writes.

A *redo log* sets aside part of the store, its `area`, in which it records
writes that are still to be made: `pending d` reads them off the store `d`.
Recovery makes the pending writes (`replay`) and then clears the record.  The
two results of this file say what a crash can leave:

* `RedoLog.replay_interrupted` — a recovery cut short anywhere leaves a store from
  which recovery reaches the same contents;
* `RedoLog.crash_atomic` — a commit cut short anywhere leaves a store from which
  recovery reaches either the old contents or the new ones, and which of the two
  it is depends only on whether the record had been written.

Contents are compared outside the area only.
-/

universe u v

variable {A : Type u} {V : Type v} [DecidableEq A]

/-! ## Lists of writes -/

/-- Make the writes of a list, in order. -/
def writeAll (ws : List (A × V)) (d : A → V) : A → V :=
  ws.foldl (fun d w => Function.update d w.1 w.2) d

section

variable (ws vs : List (A × V)) (w : A × V) (d d' : A → V) (a : A)

@[simp] theorem writeAll_nil : writeAll [] d = d := rfl

@[simp] theorem writeAll_cons :
    writeAll (w :: ws) d = writeAll ws (Function.update d w.1 w.2) := rfl

theorem writeAll_append : writeAll (ws ++ vs) d = writeAll vs (writeAll ws d) :=
  List.foldl_append

end

section

variable {ws : List (A × V)} {d d' : A → V} {a : A}

/-- An address no write goes to keeps its contents. -/
theorem writeAll_of_forall_ne (h : ∀ w ∈ ws, w.1 ≠ a) : writeAll ws d a = d a := by
  induction ws generalizing d with
  | nil => rfl
  | cons w ws ih =>
    rw [writeAll_cons, ih fun v hv => h v (List.mem_cons_of_mem w hv),
      Function.update_of_ne (h w List.mem_cons_self).symm]

/-- What an address holds after a list of writes depends on what it held before
only if none of them goes there. -/
theorem writeAll_congr (h : (∀ w ∈ ws, w.1 ≠ a) → d a = d' a) :
    writeAll ws d a = writeAll ws d' a := by
  induction ws generalizing d d' with
  | nil => exact h (by simp)
  | cons w ws ih =>
    rw [writeAll_cons, writeAll_cons]
    refine ih fun hne => ?_
    by_cases hw : w.1 = a
    · rw [← hw, Function.update_self, Function.update_self]
    · rw [Function.update_of_ne (Ne.symm hw), Function.update_of_ne (Ne.symm hw)]
      refine h fun v hv => ?_
      rcases List.mem_cons.1 hv with rfl | hv
      · exact hw
      · exact hne v hv

/-- An address holds what it held before, or what some write brought there. -/
theorem writeAll_eq_or (ws : List (A × V)) (d : A → V) (a : A) :
    writeAll ws d a = d a ∨ ∃ w ∈ ws, w.1 = a ∧ writeAll ws d a = w.2 := by
  induction ws generalizing d with
  | nil => exact .inl rfl
  | cons w ws ih =>
    rcases ih (Function.update d w.1 w.2) with h | ⟨v, hv, hva, h⟩
    · by_cases hw : w.1 = a
      · subst hw
        exact .inr ⟨w, List.mem_cons_self, rfl, by rw [writeAll_cons, h, Function.update_self]⟩
      · exact .inl (by rw [writeAll_cons, h, Function.update_of_ne (Ne.symm hw)])
    · exact .inr ⟨v, List.mem_cons_of_mem w hv, hva, h⟩

/-- Making some of the writes first makes no difference. -/
theorem writeAll_writeAll_take (k : Nat) : writeAll ws (writeAll (ws.take k) d) = writeAll ws d :=
  funext fun _ => writeAll_congr fun h =>
    writeAll_of_forall_ne fun w hw => h w (List.mem_of_mem_take hw)

/-- Writes of contents that are a function of the address. -/
theorem writeAll_map_of_mem {f : A → V} {l : List A} (h : a ∈ l) :
    writeAll (l.map fun x => (x, f x)) d a = f a := by
  induction l generalizing d with
  | nil => cases h
  | cons x l ih =>
    by_cases hl : a ∈ l
    · exact ih hl
    · obtain rfl : a = x := (List.mem_cons.1 h).resolve_right hl
      rw [List.map_cons, writeAll_cons, writeAll_of_forall_ne, Function.update_self]
      rintro w hw rfl
      obtain ⟨y, hy, rfl⟩ := List.mem_map.1 hw
      exact hl hy

end

/-! ## Redo logs -/

/-- A part of the store, and the record of pending writes read off it. -/
structure RedoLog (A : Type u) (V : Type v) where
  area : A → Prop
  pending : (A → V) → List (A × V)
  pending_congr : ∀ {d d' : A → V}, (∀ a, area a → d a = d' a) → pending d = pending d'

namespace RedoLog

variable (L : RedoLog A V)

/-- Make the pending writes. -/
def replay (d : A → V) : A → V := writeAll (L.pending d) d

/-- Equal outside the area. -/
def Agree (d d' : A → V) : Prop := ∀ a, ¬L.area a → d a = d' a

variable {L} {d d' d'' : A → V} {ws stage t : List (A × V)} {hdr clear : A × V}

omit [DecidableEq A] in
theorem Agree.trans (h : L.Agree d d') (h' : L.Agree d' d'') : L.Agree d d'' :=
  fun a ha => (h a ha).trans (h' a ha)

/-- Writes to the area do not show outside it. -/
theorem agree_writeAll (h : ∀ w ∈ ws, L.area w.1) : L.Agree (writeAll ws d) d :=
  fun _ ha => writeAll_of_forall_ne fun w hw e => ha (e ▸ h w hw)

theorem Agree.writeAll (h : L.Agree d d') : L.Agree (writeAll ws d) (writeAll ws d') :=
  fun a ha => writeAll_congr fun _ => h a ha

/-- Writes outside the area leave the record alone. -/
theorem pending_writeAll (h : ∀ w ∈ ws, ¬L.area w.1) : L.pending (writeAll ws d) = L.pending d :=
  L.pending_congr fun _ ha => writeAll_of_forall_ne fun w hw e => h w hw (e ▸ ha)

theorem replay_of_pending (h : L.pending d = t) : L.replay d = writeAll t d := by rw [replay, h]

/-- A recovery that is cut short after any number of writes leaves a store from
which recovery reaches the same contents. -/
theorem replay_interrupted (ht : L.pending d = t) (home : ∀ w ∈ t, ¬L.area w.1)
    (hclear : L.area clear.1) (clears : L.pending (writeAll (t ++ [clear]) d) = []) (k : Nat) :
    L.Agree (L.replay (writeAll ((t ++ [clear]).take k) d)) (L.replay d) := by
  rw [replay_of_pending ht]
  by_cases hk : k ≤ t.length
  · have hpending : L.pending (writeAll (t.take k) d) = t := by
      rw [pending_writeAll fun w hw => home w (List.mem_of_mem_take hw), ht]
    rw [List.take_append_of_le_length hk, replay_of_pending hpending, writeAll_writeAll_take]
    exact fun _ _ => rfl
  · rw [List.take_of_length_le (by simp; omega), replay_of_pending clears, writeAll_nil,
      writeAll_append]
    exact agree_writeAll (by simpa using hclear)

/-- The writes of a commit: stage the new contents in the area, write the record,
make the writes, and clear the record. -/
structure Commits (L : RedoLog A V) (d : A → V) (stage : List (A × V)) (hdr : A × V)
    (t : List (A × V)) (clear : A × V) : Prop where
  quiet : ∀ k, L.pending (writeAll (stage.take k) d) = []
  records : L.pending (writeAll (stage ++ [hdr]) d) = t
  clears : L.pending (writeAll (t ++ [clear]) (writeAll (stage ++ [hdr]) d)) = []
  stage_area : ∀ w ∈ stage, L.area w.1
  hdr_area : L.area hdr.1
  home : ∀ w ∈ t, ¬L.area w.1
  clear_area : L.area clear.1

/-- A commit that is cut short after any number of writes leaves a store from
which recovery reaches the old contents, if the record had not been written, and
the new ones otherwise. -/
theorem crash_atomic (h : L.Commits d stage hdr t clear) (k : Nat) :
    L.Agree (L.replay (writeAll ((stage ++ hdr :: (t ++ [clear])).take k) d))
      (if k ≤ stage.length then d else writeAll t d) := by
  split
  case isTrue hk =>
    rw [List.take_append_of_le_length hk, replay_of_pending (h.quiet k), writeAll_nil]
    exact agree_writeAll fun w hw => h.stage_area w (List.mem_of_mem_take hw)
  case isFalse hk =>
    -- From the record on, the commit does exactly what a recovery would do.
    obtain ⟨j, rfl⟩ : ∃ j, k = (stage ++ [hdr]).length + j :=
      ⟨k - (stage.length + 1), by simp; omega⟩
    have hsplit : stage ++ hdr :: (t ++ [clear]) = (stage ++ [hdr]) ++ (t ++ [clear]) := by simp
    rw [hsplit, List.take_length_add_append, writeAll_append]
    have hrec := replay_interrupted h.records h.home h.clear_area h.clears j
    rw [replay_of_pending h.records] at hrec
    refine hrec.trans (Agree.writeAll (agree_writeAll fun w hw => ?_))
    rcases List.mem_append.1 hw with hw | hw
    · exact h.stage_area w hw
    · exact List.mem_singleton.1 hw ▸ h.hdr_area

end RedoLog
