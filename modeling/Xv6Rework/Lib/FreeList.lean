import Mathlib.Data.List.Nodup

/-!
# Chains of cells, and blocks that tile memory

`Seg next a l z` says that following `next` from `a` visits the cells of `l` in order and then
comes to `z`.  With `z = a` it is a cycle, which can be walked from any of its cells
(`Seg.rotate`).

`Tiles len B M` says that the blocks that start at the addresses in `B`, of the lengths given by
`len`, are not empty, do not overlap and together are the memory `M`.  The rules are those of an
allocator: two blocks that touch are made one, one is split in two, and new memory is a new
block.
-/

universe u

/-! ## Chains -/

/-- Following `next` from `a` visits `l`, and then comes to `z`. -/
def Seg {α : Type u} (next : α → α) : α → List α → α → Prop
  | a, [], z => a = z
  | a, b :: l, z => a = b ∧ Seg next (next b) l z

namespace Seg

variable {α : Type u} {next next' : α → α} {a b n z : α} {l m : List α}

theorem middle_iff : Seg next a (l ++ b :: m) z ↔ Seg next a l b ∧ Seg next (next b) m z := by
  induction l generalizing a with
  | nil => exact Iff.rfl
  | cons c l ih => rw [List.cons_append, Seg, Seg, ih, and_assoc]

theorem append (h : Seg next a l b) (h' : Seg next b m z) : Seg next a (l ++ m) z := by
  induction l generalizing a with
  | nil =>
    cases h
    exact h'
  | cons c l ih => exact ⟨h.1, ih h.2⟩

/-- Only the links of the cells that are visited matter. -/
theorem congr (h : Seg next a l z) (hn : ∀ b ∈ l, next' b = next b) : Seg next' a l z := by
  induction l generalizing a with
  | nil => exact h
  | cons c l ih =>
    refine ⟨h.1, ?_⟩
    rw [hn c List.mem_cons_self]
    exact ih h.2 fun b hb => hn b (List.mem_cons_of_mem c hb)

/-- A cycle can be walked from any of its cells. -/
theorem rotate (h : Seg next a (l ++ b :: m) a) : Seg next b (b :: m ++ l) b := by
  obtain ⟨hl, hm⟩ := middle_iff.mp h
  exact append ⟨rfl, hm⟩ hl

/-- Insert `n` behind `b`. -/
theorem insert (h : Seg next a (l ++ b :: m) z) (hb : next' b = n) (hn : next' n = next b)
    (hother : ∀ x ∈ l ++ m, next' x = next x) : Seg next' a (l ++ b :: n :: m) z := by
  obtain ⟨hl, hm⟩ := middle_iff.mp h
  refine middle_iff.mpr ⟨hl.congr fun x hx => hother x (List.mem_append_left m hx), hb, ?_⟩
  rw [hn]
  exact hm.congr fun x hx => hother x (List.mem_append_right l hx)

/-- Remove the cell behind `b`. -/
theorem remove (h : Seg next a (l ++ b :: n :: m) z) (hb : next' b = next n)
    (hother : ∀ x ∈ l ++ m, next' x = next x) : Seg next' a (l ++ b :: m) z := by
  obtain ⟨hl, -, hm⟩ := middle_iff.mp h
  refine middle_iff.mpr ⟨hl.congr fun x hx => hother x (List.mem_append_left m hx), ?_⟩
  rw [hb]
  exact hm.congr fun x hx => hother x (List.mem_append_right l hx)

end Seg

/-! ## Tilings -/

/-- The blocks at `B` are not empty, do not overlap, and are the memory `M`. -/
structure Tiles (len : Nat → Nat) (B M : Set Nat) : Prop where
  pos : ∀ b ∈ B, 0 < len b
  apart : ∀ a ∈ B, ∀ b ∈ B, a < b → a + len a ≤ b
  cover : ∀ x, (∃ b ∈ B, b ≤ x ∧ x < b + len b) ↔ x ∈ M

namespace Tiles

variable {len len' : Nat → Nat} {B B' M M' : Set Nat} {a b k : Nat}

theorem congr (h : Tiles len B M) (hlen : ∀ b ∈ B, len' b = len b) : Tiles len' B M where
  pos b hb := by rw [hlen b hb]; exact h.pos b hb
  apart a ha b hb hab := by rw [hlen a ha]; exact h.apart a ha b hb hab
  cover x := by
    rw [← h.cover x]
    exact exists_congr fun b => and_congr_right fun hb => by rw [hlen b hb]

/-- The last byte of a block is in the memory. -/
theorem last_mem (h : Tiles len B M) (hb : b ∈ B) : b + len b - 1 ∈ M := by
  have := h.pos b hb
  exact (h.cover _).mp ⟨b, hb, by omega, by omega⟩

/-- A block at the end of another becomes part of it. -/
theorem merge (h : Tiles len B M) (ha : a ∈ B) (hb : b ∈ B) (hab : a + len a = b)
    (hB : ∀ x, x ∈ B' ↔ x ∈ B ∧ x ≠ b) (hlen : len' a = len a + len b)
    (hother : ∀ x ∈ B', x ≠ a → len' x = len x) : Tiles len' B' M where
  pos x hx := by
    by_cases hxa : x = a
    · have := h.pos a ha
      rw [hxa, hlen]
      omega
    · rw [hother x hx hxa]
      exact h.pos x ((hB x).mp hx).1
  apart x hx y hy hxy := by
    obtain ⟨hxB, -⟩ := (hB x).mp hx
    obtain ⟨hyB, hyb⟩ := (hB y).mp hy
    by_cases hxa : x = a
    · -- the first block behind `a` was `b`
      have hle := h.apart a ha y hyB (hxa ▸ hxy)
      have hlt : b < y := by omega
      have := h.apart b hb y hyB hlt
      rw [hxa, hlen]
      omega
    · rw [hother x hx hxa]
      exact h.apart x hxB y hyB hxy
  cover x := by
    have hapos := h.pos a ha
    have haB' : a ∈ B' := (hB a).mpr ⟨ha, by omega⟩
    rw [← h.cover x]
    constructor
    · rintro ⟨y, hy, hle, hlt⟩
      by_cases hya : y = a
      · rw [hya, hlen] at hlt
        rw [hya] at hle
        rcases Nat.lt_or_ge x b with hxb | hxb
        · exact ⟨a, ha, hle, by omega⟩
        · exact ⟨b, hb, hxb, by omega⟩
      · rw [hother y hy hya] at hlt
        exact ⟨y, ((hB y).mp hy).1, hle, hlt⟩
    · rintro ⟨y, hy, hle, hlt⟩
      by_cases hyb : y = b
      · rw [hyb] at hle hlt
        exact ⟨a, haB', by omega, by rw [hlen]; omega⟩
      · have hyB' : y ∈ B' := (hB y).mpr ⟨hy, hyb⟩
        by_cases hya : y = a
        · rw [hya] at hle hlt
          exact ⟨a, haB', hle, by rw [hlen]; omega⟩
        · exact ⟨y, hyB', hle, by rw [hother y hyB' hya]; exact hlt⟩

/-- The last `k` bytes of a block become a block of their own. -/
theorem split (h : Tiles len B M) (ha : a ∈ B) (hk : 0 < k) (hka : k < len a)
    (hb : b = a + (len a - k)) (hB : ∀ x, x ∈ B' ↔ x ∈ B ∨ x = b) (hlena : len' a = len a - k)
    (hlenb : len' b = k) (hother : ∀ x ∈ B, x ≠ a → len' x = len x) : Tiles len' B' M := by
  have hbB : b ∉ B := fun hbB => by
    have := h.apart a ha b hbB (by omega)
    omega
  have hne : ∀ x ∈ B, x ≠ b := fun x hx hxb => hbB (hxb ▸ hx)
  have haB' : a ∈ B' := (hB a).mpr (.inl ha)
  have hbB' : b ∈ B' := (hB b).mpr (.inr rfl)
  refine ⟨fun x hx => ?_, fun x hx y hy hxy => ?_, fun x => ?_⟩
  · rcases (hB x).mp hx with hx | rfl
    · by_cases hxa : x = a
      · rw [hxa, hlena]
        omega
      · rw [hother x hx hxa]
        exact h.pos x hx
    · rw [hlenb]
      exact hk
  · rcases (hB x).mp hx with hx | rfl <;> rcases (hB y).mp hy with hy | rfl
    · have hle := h.apart x hx y hy hxy
      by_cases hxa : x = a
      · rw [hxa, hlena]
        rw [hxa] at hle
        omega
      · rw [hother x hx hxa]
        exact hle
    · by_cases hxa : x = a
      · rw [hxa, hlena]
        omega
      · rw [hother x hx hxa]
        rcases Nat.lt_or_gt_of_ne hxa with hlt | hgt
        · have := h.apart x hx a ha hlt
          omega
        · have := h.apart a ha x hx hgt
          omega
    · have := h.apart a ha y hy (by omega)
      rw [hlenb]
      omega
    · omega
  · rw [← h.cover x]
    constructor
    · rintro ⟨y, hy, hle, hlt⟩
      rcases (hB y).mp hy with hy | rfl
      · by_cases hya : y = a
        · rw [hya, hlena] at hlt
          exact ⟨a, ha, by omega, by omega⟩
        · rw [hother y hy hya] at hlt
          exact ⟨y, hy, hle, hlt⟩
      · rw [hlenb] at hlt
        exact ⟨a, ha, by omega, by omega⟩
    · rintro ⟨y, hy, hle, hlt⟩
      by_cases hya : y = a
      · rw [hya] at hle hlt
        rcases Nat.lt_or_ge x b with hxb | hxb
        · exact ⟨a, haB', hle, by rw [hlena]; omega⟩
        · exact ⟨b, hbB', hxb, by rw [hlenb]; omega⟩
      · exact ⟨y, (hB y).mpr (.inl hy), hle, by rw [hother y hy hya]; exact hlt⟩

/-- New memory above all blocks is a new block. -/
theorem grow (h : Tiles len B M) (hk : 0 < k) (hM : ∀ x ∈ M, x < a)
    (hB : ∀ x, x ∈ B' ↔ x ∈ B ∨ x = a) (hM' : ∀ x, x ∈ M' ↔ x ∈ M ∨ (a ≤ x ∧ x < a + k))
    (hlen : len' a = k) (hother : ∀ x ∈ B, len' x = len x) : Tiles len' B' M' := by
  have hlow : ∀ x ∈ B, x + len x ≤ a := fun x hx => by
    have := hM _ (h.last_mem hx)
    have := h.pos x hx
    omega
  refine ⟨fun x hx => ?_, fun x hx y hy hxy => ?_, fun x => ?_⟩
  · rcases (hB x).mp hx with hx | rfl
    · rw [hother x hx]
      exact h.pos x hx
    · rw [hlen]
      exact hk
  · rcases (hB x).mp hx with hx | rfl <;> rcases (hB y).mp hy with hy | rfl
    · rw [hother x hx]
      exact h.apart x hx y hy hxy
    · rw [hother x hx]
      exact hlow x hx
    · have := hlow y hy
      omega
    · omega
  · rw [hM', ← h.cover x]
    constructor
    · rintro ⟨y, hy, hle, hlt⟩
      rcases (hB y).mp hy with hy | rfl
      · exact .inl ⟨y, hy, hle, by rw [← hother y hy]; exact hlt⟩
      · exact .inr ⟨hle, by rw [← hlen]; exact hlt⟩
    · rintro (⟨y, hy, hle, hlt⟩ | ⟨hle, hlt⟩)
      · exact ⟨y, (hB y).mpr (.inl hy), hle, by rw [hother y hy]; exact hlt⟩
      · exact ⟨a, (hB a).mpr (.inr rfl), hle, by rw [hlen]; exact hlt⟩

end Tiles
