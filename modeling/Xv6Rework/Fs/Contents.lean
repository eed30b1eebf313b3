import Xv6Rework.Fs.Disk

/-!
# The bytes of a file

What `readi` reads of the bytes that the blocks of a file make up.  A block that a file does not
have counts as zeros.
-/

namespace Xv6Rework

namespace Volume

variable {sb : Superblock} {v v' v1 v2 : Volume} {i bn off m n : Nat} {src : Nat → UInt8}

/-- Offsets up to the end of a block are in that block. -/
theorem same_block {o : Nat} (ho : off ≤ o) (hlt : o < off + m) (hm : off % BSIZE + m ≤ BSIZE) :
    o / BSIZE = off / BSIZE ∧ o % BSIZE = off % BSIZE + (o - off) := by
  simp only [BSIZE] at *
  omega

/-- How far apart offsets of one block are. -/
theorem add_mod_of_same_block {o : Nat} (h : o / BSIZE = off / BSIZE) :
    o + off % BSIZE = off + o % BSIZE := by
  simp only [BSIZE] at *
  omega

/-- A byte of a file. -/
def byte (sb : Superblock) (v : Volume) (i o : Nat) : UInt8 :=
  ((v.file sb i (o / BSIZE)).getD Bytes.zero).get (o % BSIZE)

/-- The bytes of `src` have been written to a file, which has got the blocks it lacked
for that. -/
structure Written (sb : Superblock) (v v' : Volume) (i off n : Nat) (src : Nat → UInt8) : Prop where
  intact : v'.Intact sb
  other : ∀ i', i' ≠ i → v'.ino i' = v.ino i' ∧ v'.file sb i' = v.file sb i'
  self : ∃ a, v'.ino i = { v.ino i with addrs := a }
  mapped : ∀ bn, v'.file sb i bn ≠ none ↔
    v.file sb i bn ≠ none ∨ ∃ o, off ≤ o ∧ o < off + n ∧ o / BSIZE = bn
  byte : ∀ o, v'.byte sb i o = if off ≤ o ∧ o < off + n then src (o - off) else v.byte sb i o

theorem set2_set2 {α : Type} {f : Nat → Nat → α} {a a' : α} :
    set2 (set2 f i bn a) i bn a' = set2 f i bn a' := by
  funext i' j'
  simp only [set2]
  split <;> rfl

theorem Written.refl (h : v.Intact sb) : Written sb v v i off 0 src where
  intact := h
  other _ _ := ⟨rfl, rfl⟩
  self := ⟨_, rfl⟩
  mapped bn := by
    refine ⟨.inl, ?_⟩
    rintro (h | ⟨o, h1, h2, -⟩)
    · exact h
    · omega
  byte o := by rw [if_neg (by omega)]

/-- One write after another, where the first ends. -/
theorem Written.append (h : Written sb v v1 i off m src)
    (h' : Written sb v1 v2 i (off + m) (n - m) fun o => src (m + o)) (hm : m ≤ n) :
    Written sb v v2 i off n src where
  intact := h'.intact
  other i' hi := by
    obtain ⟨hino, hfile⟩ := h.other i' hi
    obtain ⟨hino', hfile'⟩ := h'.other i' hi
    exact ⟨hino'.trans hino, hfile'.trans hfile⟩
  self := by
    obtain ⟨a, ha⟩ := h.self
    obtain ⟨a', ha'⟩ := h'.self
    exact ⟨a', by rw [ha', ha]⟩
  mapped bn := by
    rw [h'.mapped, h.mapped, or_assoc]
    refine or_congr_right ⟨?_, ?_⟩
    · rintro (⟨o, h1, h2, h3⟩ | ⟨o, h1, h2, h3⟩)
      · exact ⟨o, h1, by omega, h3⟩
      · exact ⟨o, by omega, by omega, h3⟩
    · rintro ⟨o, h1, h2, h3⟩
      by_cases ho : o < off + m
      · exact .inl ⟨o, h1, ho, h3⟩
      · exact .inr ⟨o, by omega, by omega, h3⟩
  byte o := by
    rw [h'.byte, h.byte]
    split_ifs with h1 h2 h3 h4 h5
    · exact congrArg src (by omega)
    · omega
    · rfl
    · omega
    · omega
    · rfl

/-- What `bmap` leaves: the file has the block, which is zeros if it is new. -/
structure Has (sb : Superblock) (v v' : Volume) (i bn b : Nat) : Prop where
  intact : v'.Intact sb
  ptr : v'.ptr sb (i, place bn) = b
  pos : b ≠ 0
  other : ∀ i', i' ≠ i → v'.ino i' = v.ino i'
  self : ∃ a, v'.ino i = { v.ino i with addrs := a }
  file : v'.file sb = set2 (v.file sb) i bn (some ((v.file sb i bn).getD Bytes.zero))

theorem Maps.has {b : Nat} (h : Maps sb v v' i bn b) (hnone : v.file sb i bn = none) :
    Has sb v v' i bn b :=
  ⟨h.intact, h.ptr, h.pos, h.other, h.self, by rw [h.file, hnone, Option.getD_none]⟩

theorem Intact.has (h : v.Intact sb) (hp : v.ptr sb (i, place bn) ≠ 0) :
    Has sb v v i bn (v.ptr sb (i, place bn)) := by
  refine ⟨h, rfl, hp, fun _ _ => rfl, ⟨_, rfl⟩, ?_⟩
  funext i' bn'
  rw [set2]
  split
  · next hk =>
    obtain ⟨rfl, rfl⟩ := hk
    rw [file, if_neg hp, Option.getD_some]
  · rfl

/-- A block after the indirect block. -/
theorem Indirected.has {b b' : Nat} (h : Indirected sb v v' i b) (hhas : Has sb v' v1 i bn b') :
    Has sb v v1 i bn b' := by
  refine ⟨hhas.intact, hhas.ptr, hhas.pos, fun i' hi => ?_, ?_, ?_⟩
  · rw [hhas.other i' hi, h.other i' hi]
  · obtain ⟨a, ha⟩ := hhas.self
    exact ⟨a, by rw [ha, h.self, Dinode.setAddr]⟩
  · rw [hhas.file, h.file]

/-- Bytes are written to one block. -/
theorem written_block (hI : v2.Intact sb) (hother : ∀ i', i' ≠ i → v2.ino i' = v.ino i')
    (hself : ∃ a, v2.ino i = { v.ino i with addrs := a }) (hpos : 0 < m)
    (hm : off % BSIZE + m ≤ BSIZE) (hfile : v2.file sb = set2 (v.file sb) i (off / BSIZE)
      (some (((v.file sb i (off / BSIZE)).getD Bytes.zero).blit (off % BSIZE) m src))) :
    Written sb v v2 i off m src where
  intact := hI
  other i' hi := by
    refine ⟨hother i' hi, ?_⟩
    rw [hfile]
    funext bn
    exact if_neg fun h => hi h.1
  self := hself
  mapped bn := by
    rw [hfile, set2]
    by_cases hbn : bn = off / BSIZE
    · rw [if_pos ⟨rfl, hbn⟩]
      exact iff_of_true (by simp) (.inr ⟨off, le_rfl, by omega, hbn.symm⟩)
    · rw [if_neg fun h => hbn h.2]
      refine ⟨.inl, ?_⟩
      rintro (h | ⟨o, h1, h2, h3⟩)
      · exact h
      · exact absurd (h3.symm.trans (same_block h1 h2 hm).1) hbn
  byte o := by
    have hmod : o % BSIZE < BSIZE := Nat.mod_lt _ (by decide)
    unfold byte
    rw [hfile, set2]
    by_cases ho : o / BSIZE = off / BSIZE
    · have hdist := add_mod_of_same_block ho
      rw [if_pos ⟨rfl, ho⟩, Option.getD_some, Bytes.get_blit, ho]
      by_cases hin : off ≤ o ∧ o < off + m
      · rw [if_pos hin, if_pos ⟨by omega, by omega, hmod⟩]
        exact congrArg src (by omega)
      · rw [if_neg hin, if_neg (by omega)]
    · rw [if_neg fun h => ho h.2, if_neg fun h => ho (same_block h.1 h.2 hm).1]

/-- What `writei` leaves after a round: the block that `bmap` gave has been written. -/
theorem Has.written {b : Nat} (h : Has sb v v1 i (off / BSIZE) b) (hs : sb.Sound) (hpos : 0 < m)
    (hm : off % BSIZE + m ≤ BSIZE) :
    Written sb v (v1.setBlock b ((v1.block b).blit (off % BSIZE) m src)) i off m src := by
  have hp : v1.ptr sb (i, place (off / BSIZE)) ≠ 0 := by
    rw [h.ptr]
    exact h.pos
  have hx : v1.block b = (v.file sb i (off / BSIZE)).getD Bytes.zero := by
    have hfile : v1.file sb i (off / BSIZE) = some (v1.block b) := by
      rw [Volume.file, h.ptr, if_neg h.pos]
    rw [h.file, set2, if_pos ⟨rfl, rfl⟩] at hfile
    exact (Option.some.inj hfile).symm
  have hset := h.intact.setBlock_file (d := (v1.block b).blit (off % BSIZE) m src) hs hp
  rw [h.ptr] at hset
  refine written_block hset.1 h.other h.self hpos hm ?_
  rw [hset.2.2, h.file, set2_set2, hx]

end Volume

namespace Fs

open Prog

section

variable {α : Type} {D : Drives} {E : Stop → Prop} {l : Log} {s s' : Fs} {vol : Volumes}
  {stale : Option (Nat × Nat)} {ip : Slot} {d i : Nat}

/-- The bytes of one block. -/
theorem bytesAt_eq {V : Volume} {sb : Superblock} {off m : Nat} {x : Block}
    (hx : V.file sb i (off / BSIZE) = some x) (hm : off % BSIZE + m ≤ BSIZE) :
    bytesAt x (off % BSIZE) m = (List.range m).map fun o => V.byte sb i (off + o) := by
  refine List.map_congr_left fun o ho => ?_
  have ho := List.mem_range.1 ho
  obtain ⟨hdiv, hmod⟩ := Volume.same_block (Nat.le_add_right off o) (by omega) hm
  rw [Volume.byte, hdiv, hmod, hx, Option.getD_some, Nat.add_sub_cancel_left]

/-- The loop of `readi`, on blocks that the file has. -/
theorem within_readLoop {Q : List UInt8 → Fs → Prop} {k off n : Nat} (hE : Supplied E l s.store)
    (h : Disk D s vol [] stale) (hI : (vol d).Intact (s.superblock d))
    (hat : At D s ip d i) (hk : n ≤ k)
    (hmapped : ∀ o, off ≤ o → o < off + n → (vol d).file (s.superblock d) i (o / BSIZE) ≠ none)
    (ok : ∀ s', Quiet s s' → Supplied E l s'.store → Disk D s' vol [] stale →
      Q ((List.range n).map fun o => (vol d).byte (s.superblock d) i (off + o)) s') :
    within E (readLoop ip k off n) Q s := by
  induction k generalizing s off n Q with
  | zero =>
    obtain rfl : n = 0 := by omega
    exact ok s (refl s) hE h
  | succ k ih =>
    simp only [readLoop, wp_ite, wp_pure, wp_bind, data, wp_gets]
    refine ⟨?_, fun hn => ?_⟩
    · rintro rfl
      exact ok s (refl s) hE h
    have hblock := hmapped off le_rfl (by omega)
    have hp : (vol d).ptr (s.superblock d) (i, place (off / BSIZE)) ≠ 0 :=
      fun hp => hblock (if_pos hp)
    refine within_bmap_mapped hE h hI hat hp fun s1 hq1 hE1 h1 => ?_
    have hat1 := hat.quiet hq1
    have hdata := Volume.Backs.data hI hp
    have hlt := hdata.2.trans_le (h.sound d hat.mem).size_le
    rw [hat1.dev]
    refine within_quiet (bread_quiet) ?_
    refine within_bread_supplied hE1 h1.blocks (by decide) hat.mem hlt (by simp)
      fun bp st2 hE2 h2 hq2 => ?_
    have hx : (vol d).file (s.superblock d) i (off / BSIZE) =
        some ((vol d).block ((vol d).ptr (s.superblock d) (i, place (off / BSIZE)))) := if_neg hp
    simp only [h2.data hat.mem List.mem_cons_self]
    refine within_quiet (brelse_quiet) ?_
    refine within_brelse_supplied hE2 h2 fun st3 hE3 h3 hq3 => ?_
    have hq : Quiet s { s1 with store := st3 } := IsTrans.trans _ _ _ hq1
      (IsTrans.trans _ _ _ hq2 hq3)
    have hsb := hq.superblock
    have hmod : off % BSIZE < BSIZE := Nat.mod_lt _ (by decide)
    generalize hm : min n (BSIZE - off % BSIZE) = m
    refine ih (s := { s1 with store := st3 }) hE3 (h1.same h3) (by rwa [hsb]) (hat.quiet hq)
      (by omega) ?_ ?_
    · intro o h1 h2
      rw [hsb]
      exact hmapped o (by omega) (by omega)
    · intro s4 hq4 hE4 h4
      have hsplit : (List.range n).map (fun o => (vol d).byte (s.superblock d) i (off + o)) =
          bytesAt ((vol d).block ((vol d).ptr (s.superblock d) (i, place (off / BSIZE))))
          (off % BSIZE) m ++
            (List.range (n - m)).map fun o => (vol d).byte (s.superblock d) i (off + m + o) := by
        rw [bytesAt_eq hx (by omega)]
        conv_lhs => rw [show n = m + (n - m) by omega, List.range_add]
        simp [Nat.add_assoc, Function.comp_def]
      rw [hsb, ← hsplit]
      exact ok s4 (IsTrans.trans _ _ _ hq hq4) hE4 h4

end

end Fs

end Xv6Rework
