import Xv6Rework.Fs.Cache
import Xv6Rework.Fs.Volume
import Xv6Rework.Lib.Frame

/-!
# Blocks, below the inode layer

The rules for the functions of the block layer as the inode layer calls them.  Of the
store they show the blocks of some drives and which buffers are held (`Blocks`); the
rest of the state is written out, since these functions leave it alone.

A rule says how a run ends: it returns with what is stated, or it stops for a reason of
which `E` allows.  Reading needs buffers, and there are enough of them where none is dirty
(`Supplied`).
-/

namespace Xv6Rework

open Prog

/-- Disks, by their device numbers. -/
structure Drives where
  mem : Nat → Prop
  real : ∀ d, mem d → d = 1 ∨ d = 2

instance : Membership Nat Drives := ⟨fun D d => D.mem d⟩

/-- The blocks and inodes of each device. -/
abbrev Volumes := Nat → Volume

/-! ## Reading leaves no buffer dirty -/

/-- Where no buffer is dirty before, none is after, and the log is as it was. -/
structure StaysClean (s s' : Store) : Prop where
  clean : s.Clean → s'.Clean
  log : s'.log = s.log

instance : IsPreorder Store StaysClean where
  refl _ := ⟨id, rfl⟩
  trans _ _ _ h h' := ⟨h'.clean ∘ h.clean, h'.log.trans h.log⟩

section

variable {s : Store} {b : Fin NBUF} {dev blockno : Nat}

theorem Store.Clean.setBuf {f : Buf → Buf} (h : s.Clean) (hf : (f (s.buf b)).dirty = false) :
    (s.setBuf b f).Clean := by
  intro b'
  rw [setBuf_buf]
  split
  · exact hf
  · exact h b'

theorem Store.Clean.transfer (h : s.Clean) : (s.transfer b).Clean := by
  rw [Store.transfer, if_neg (by simp [h b])]
  exact h.setBuf (h b)

theorem acquiresleep_clean : Keeps StaysClean (acquiresleep b) :=
  .bind .gets fun _ => .ite .stop (.update fun _ => ⟨fun h => h.setBuf (h b), rfl⟩)

theorem bget_clean : Keeps StaysClean (bget dev blockno) := by
  refine .bind .gets fun r => ?_
  split
  · exact .bind (.update fun _ => ⟨fun h => h.setBuf (h _), rfl⟩) fun _ => .bind acquiresleep_clean
      fun _ => .pure
  · refine .bind .gets fun r => ?_
    split
    · exact .bind (.update fun _ => ⟨fun h => h.setBuf rfl, rfl⟩) fun _ => .bind acquiresleep_clean
        fun _ => .pure
    · exact .halt

theorem iderw_clean : Keeps StaysClean (iderw b dev) :=
  .bind .gets fun _ => .ite .halt (.ite .halt (.ite
    (.ite .halt (.update fun s => ⟨fun h => h.transfer, s.transfer_log b⟩)) (.ite .stop .pure)))

theorem bread_clean : Keeps StaysClean (bread dev blockno) :=
  .bind bget_clean fun _ => .bind .gets fun _ => .ite (.bind iderw_clean fun _ => .pure) .pure

theorem brelse_clean : Keeps StaysClean (brelse b) :=
  .bind .gets fun _ => .ite .halt (.bind (.update fun _ => ⟨fun h => h.setBuf (h b), rfl⟩) fun _ =>
    .bind .gets fun _ => .ite (.update fun _ => ⟨id, rfl⟩) .pure)

end

namespace Fs

/-- The store has these blocks on the drives, and these buffers held. -/
def Blocks (D : Drives) (st : Store) (vol : Volumes) (held : List (Fin NBUF × BlockId)) : Prop :=
  ∃ w, StoreRep st w ∧ w.held = held ∧ ∀ k : BlockId, k.1 ∈ D → w.block k = (vol k.1).block k.2

/-- There are enough buffers and the log is `l`, or running short of buffers is allowed. -/
def Supplied (E : Stop → Prop) (l : Log) (st : Store) : Prop :=
  E (.panic "bget: no buffers") ∨ st.Clean ∧ st.log = l

/-- A run returns with `Q`, or stops for a reason of which `E` allows. -/
abbrev within {α : Type} (E : Stop → Prop) (x : FsM α) (Q : α → Fs → Prop) (s : Fs) : Prop :=
  wp x Q (fun e _ => E e) s

section

variable {α : Type} {D : Drives} {E : Stop → Prop} {l : Log} {s : Fs} {st : Store} {vol : Volumes}
  {held : List (Fin NBUF × BlockId)} {bp : Fin NBUF} {d b : Nat} {f : Block → Block}

theorem within_lift {x : StoreM α} {Q : α → Fs → Prop} :
    within E (lift x) Q s ↔
      wp x (fun a st => Q a { s with store := st }) (fun e _ => E e) s.store := by
  simp only [within, wp, lift]
  rcases x s.store with ⟨_ | _, _⟩ <;> rfl

/-- What is kept of a store by each run that returns. -/
theorem within_lift_keeps {R : Store → Store → Prop} {x : StoreM α} {Q : α → Fs → Prop}
    (hx : Keeps R x) (h : within E (lift x) (fun a s' => R s.store s'.store → Q a s') s) :
    within E (lift x) Q s := by
  rw [within_lift, wp_iff] at h ⊢
  exact ⟨fun a st hrun => h.1 a st hrun (hx _ _ _ hrun), h.2⟩

theorem Supplied.mono {st' : Store} (h : Supplied E l st) (hclean : StaysClean st st') :
    Supplied E l st' :=
  h.imp_right fun ⟨hc, hl⟩ => ⟨hclean.clean hc, hclean.log.trans hl⟩

/-- `bread` of a block that is not held, where there are enough buffers. -/
theorem within_bread_supplied {Q : Fin NBUF → Fs → Prop} (hE : Supplied E l s.store)
    (h : Blocks D s.store vol held) (hroom : held.length < NBUF) (hd : d ∈ D) (hb : b < FSSIZE)
    (hfree : ∀ bp, (bp, d, b) ∉ held)
    (ok : ∀ bp st, Supplied E l st → Blocks D st vol ((bp, d, b) :: held) →
      Q bp { s with store := st }) :
    within E (bread d b) Q s := by
  obtain ⟨w, hw, rfl, hblock⟩ := h
  refine within_lift_keeps bread_clean ?_
  rw [within_lift]
  refine wp_bread hw (D.real d hd) hfree (fun bp st h' hclean => ?_) (fun hun => ?_) ?_
  · exact ok bp st (hE.mono hclean) ⟨_, h', rfl, hblock⟩
  · exact hE.resolve_right fun hclean => hw.unused_ne_none hclean.1 hroom hun
  · exact fun hge => absurd hge (Nat.not_le.2 hb)

/-- The contents of a buffer that is held. -/
theorem Blocks.data (h : Blocks D st vol held) (hd : d ∈ D) (hbp : (bp, d, b) ∈ held) :
    (st.buf bp).data = (vol d).block b := by
  obtain ⟨w, hw, rfl, hblock⟩ := h
  have hne : d ≠ 0 := by
    have := D.real d hd
    omega
  rw [hw.data_held hbp hne]
  exact hblock (d, b) hd

/-- `brelse` of the buffer taken last. -/
theorem within_brelse {Q : Unit → Fs → Prop} {k : BlockId}
    (h : Blocks D s.store vol ((bp, k) :: held))
    (ok : ∀ st, Blocks D st vol held → Q () { s with store := st }) : within E (brelse bp) Q s := by
  obtain ⟨w, hw, hheld, hblock⟩ := h
  have hmem : (bp, k) ∈ w.held := hheld ▸ List.mem_cons_self
  rw [brelse, within_lift]
  refine Xv6Rework.wp_brelse hw hmem fun st h' => ok st ⟨_, h', ?_, hblock⟩
  have hnd := hw.holds.nodup
  rw [hheld, List.map_cons, List.nodup_cons] at hnd
  rw [View.release, hheld, List.filter_cons_of_neg (by simp), List.filter_eq_self]
  rintro ⟨bp', k'⟩ hk'
  simp only [ne_eq, decide_not, Bool.not_eq_eq_eq_not, Bool.not_true, decide_eq_false_iff_not]
  rintro rfl
  exact hnd.1 (List.mem_map.2 ⟨_, hk', rfl⟩)

/-- `brelse` of the buffer taken last, where there are enough of them. -/
theorem within_brelse_supplied {Q : Unit → Fs → Prop} {k : BlockId} (hE : Supplied E l s.store)
    (h : Blocks D s.store vol ((bp, k) :: held))
    (ok : ∀ st, Supplied E l st → Blocks D st vol held → Q () { s with store := st }) :
    within E (brelse bp) Q s := by
  refine within_lift_keeps brelse_clean ?_
  exact within_brelse h fun st h' hclean => ok st (hE.mono hclean) h'

end

end Fs

end Xv6Rework
