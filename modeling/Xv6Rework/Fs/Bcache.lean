import Xv6Rework.Fs.Bio
import Xv6Rework.Lib.Count
import Xv6Rework.Lib.Machine
import Xv6Rework.Lib.Ring

/-!
# The buffer cache and its clients

`kernel/fs/bio.c` with the links of the LRU list as they are in memory, and any
number of clients at a time.  A client that holds several buffers counts as
several, one for each `bread` that has not been released yet.

What a client does under `bcache.lock`, and taking or releasing a sleep lock, are
one step each.  `iderw` transfers the block before it returns, whatever the
device.  `log_write` is seen as far as it concerns the cache: it marks the buffer
dirty.  `commit` reads, changes, writes and releases buffers like any other
client.

Three fields are there for the statements only: `content`, the contents last
stored for each block; and for each buffer, in `stamp`, when it was last
released, with the buffers that never were in the order `binit` links them.

The main result is that the cache cannot be told from the map `content`, together
with the shape of the list, the meaning of `refcnt` and the choice of the buffer
that is recycled.
-/

namespace Xv6Rework

open Function

/-- Where a client is: outside, in `acquiresleep` of `bget`, after `bget`, after
`bread`, after a change that has not been stored yet, or in `brelse` after
`releasesleep`.  It keeps the block it asked for. -/
inductive ClientPc where
  | idle
  | waiting (b : Fin NBUF) (k : BlockId)
  | locked (b : Fin NBUF) (k : BlockId)
  | holding (b : Fin NBUF) (k : BlockId)
  | modified (b : Fin NBUF) (k : BlockId)
  | releasing (b : Fin NBUF) (k : BlockId)
deriving DecidableEq

namespace ClientPc

/-- The buffer of a `bread` that has not been released, and its block. -/
def ref : ClientPc → Option (Fin NBUF × BlockId)
  | idle => none
  | waiting b k => some (b, k)
  | locked b k => some (b, k)
  | holding b k => some (b, k)
  | modified b k => some (b, k)
  | releasing b k => some (b, k)

/-- The client refers to a buffer. -/
def Refers (b : Fin NBUF) (x : ClientPc) : Prop := x.ref.map Prod.fst = some b

instance (b : Fin NBUF) : DecidablePred (Refers b) := fun x =>
  inferInstanceAs (Decidable (x.ref.map Prod.fst = some b))

/-- The client has the sleep lock of a buffer. -/
def Owns (b : Fin NBUF) : ClientPc → Prop
  | locked b' _ => b' = b
  | holding b' _ => b' = b
  | modified b' _ => b' = b
  | _ => False

instance (b : Fin NBUF) : DecidablePred (Owns b) := fun x => by
  cases x <;> unfold Owns <;> infer_instance

theorem Owns.refers {b : Fin NBUF} {x : ClientPc} (h : x.Owns b) : x.Refers b := by
  cases x <;> first | exact h.elim | exact congrArg some h

end ClientPc

/-- The disks, the buffers and their links, and the clients. -/
structure Bcache (N : Nat) where
  disk : BlockId → Block
  buf : Fin NBUF → Buf
  links : Links (Fin NBUF)
  pc : Fin N → ClientPc
  content : BlockId → Block
  stamp : Fin NBUF → Nat
  clock : Nat

/-- What a client does next. -/
inductive ClientStep (N : Nat) where
  | bget (c : Fin N) (k : BlockId)
  | acquiresleep (c : Fin N)
  | fill (c : Fin N)
  | modify (c : Fin N) (d : Block)
  | logWrite (c : Fin N)
  | bwrite (c : Fin N)
  | releasesleep (c : Fin N)
  | drop (c : Fin N)
deriving DecidableEq

namespace Bcache

variable {N : Nat}

/-- The links after `binit`. -/
def binitLinks : Links (Fin NBUF) := (List.finRange NBUF).foldl Links.insertHead Links.empty

/-- Store to a buffer. -/
def setBuf (s : Bcache N) (b : Fin NBUF) (f : Buf → Buf) : Bcache N :=
  { s with buf := update s.buf b (f (s.buf b)) }

/-- Move a client on. -/
def goto (s : Bcache N) (c : Fin N) (pc : ClientPc) : Bcache N :=
  { s with pc := update s.pc c pc }

@[simp] theorem goto_buf (s : Bcache N) (c : Fin N) (pc : ClientPc) :
    (s.goto c pc).buf = s.buf := rfl

/-- The first loop of `bget`. -/
def lookup (s : Bcache N) (k : BlockId) : Option (Fin NBUF) :=
  (s.links.forward NBUF).find? fun b => (s.buf b).dev == k.1 && (s.buf b).blockno == k.2

/-- A buffer that may be recycled. -/
def Eligible (s : Bcache N) (b : Fin NBUF) : Prop :=
  (s.buf b).refcnt = 0 ∧ (s.buf b).dirty = false

instance (s : Bcache N) : DecidablePred s.Eligible := fun b =>
  inferInstanceAs (Decidable ((s.buf b).refcnt = 0 ∧ (s.buf b).dirty = false))

/-- The second loop of `bget`. -/
def unused (s : Bcache N) : Option (Fin NBUF) :=
  (s.links.backward NBUF).find? fun b => s.Eligible b

/-- `iderw`: write the buffer if it is dirty, and read it otherwise. -/
def transfer (s : Bcache N) (b : Fin NBUF) : Bcache N :=
  let x := s.buf b
  if x.dirty then
    { s.setBuf b fun x => { x with valid := true, dirty := false } with
      disk := update s.disk x.id x.data }
  else
    s.setBuf b fun x => { x with valid := true, data := s.disk x.id }

/-- Store the contents of a buffer, in the map. -/
def store (s : Bcache N) (b : Fin NBUF) : Bcache N :=
  { s with content := update s.content (s.buf b).id (s.buf b).data }

/-- A step of a client, if it is at the point the step starts from.  A step that
would sleep or panic is not one. -/
def step (s : Bcache N) : ClientStep N → Option (Bcache N)
  | .bget c k =>
    if s.pc c = .idle ∧ 1 ≤ k.1 then
      match s.lookup k with
      | some b =>
        some ((s.setBuf b fun x => { x with refcnt := x.refcnt + 1 }).goto c (.waiting b k))
      | none => match s.unused with
        | some b => some ((s.setBuf b fun x => { x with
            dev := k.1, blockno := k.2, valid := false, dirty := false, refcnt := 1 }).goto c
              (.waiting b k))
        | none => none
    else none
  | .acquiresleep c =>
    match s.pc c with
    | .waiting b k =>
      if (s.buf b).locked then none
      else some ((s.setBuf b fun x => { x with locked := true }).goto c (.locked b k))
    | _ => none
  | .fill c =>
    match s.pc c with
    | .locked b k => some ((if (s.buf b).valid then s else s.transfer b).goto c (.holding b k))
    | _ => none
  | .modify c d =>
    match s.pc c with
    | .holding b k => some ((s.setBuf b fun x => { x with data := d }).goto c (.modified b k))
    | .modified b k => some ((s.setBuf b fun x => { x with data := d }).goto c (.modified b k))
    | _ => none
  | .logWrite c =>
    match s.pc c with
    | .modified b k =>
      some (((s.store b).setBuf b fun x => { x with dirty := true }).goto c (.holding b k))
    | _ => none
  | .bwrite c =>
    match s.pc c with
    | .modified b k =>
      some ((((s.store b).setBuf b fun x => { x with dirty := true }).transfer b).goto c
        (.holding b k))
    | _ => none
  | .releasesleep c =>
    match s.pc c with
    | .holding b k =>
      some ((s.setBuf b fun x => { x with locked := false }).goto c (.releasing b k))
    | _ => none
  | .drop c =>
    match s.pc c with
    | .releasing b _ =>
      let s := (s.setBuf b fun x => { x with refcnt := x.refcnt - 1 }).goto c .idle
      some (if (s.buf b).refcnt = 0 then
        { s with links := (s.links.remove b).insertHead b
                 stamp := update s.stamp b s.clock
                 clock := s.clock + 1 }
      else s)
    | _ => none

/-- The branches of `step`. -/
inductive Branch (s : Bcache N) : ClientStep N → Bcache N → Prop
  | hit {c k b} : s.pc c = .idle → 1 ≤ k.1 → s.lookup k = some b → Branch s (.bget c k)
      ((s.setBuf b fun x => { x with refcnt := x.refcnt + 1 }).goto c (.waiting b k))
  | recycle {c k b} : s.pc c = .idle → 1 ≤ k.1 → s.lookup k = none → s.unused = some b →
      Branch s (.bget c k) ((s.setBuf b fun x => { x with
        dev := k.1, blockno := k.2, valid := false, dirty := false, refcnt := 1 }).goto c
          (.waiting b k))
  | acquiresleep {c b k} : s.pc c = .waiting b k → (s.buf b).locked = false →
      Branch s (.acquiresleep c) ((s.setBuf b fun x => { x with locked := true }).goto c
      (.locked b k))
  | filled {c b k} : s.pc c = .locked b k → (s.buf b).valid = true →
      Branch s (.fill c) (s.goto c (.holding b k))
  | read {c b k} : s.pc c = .locked b k → (s.buf b).valid = false →
      Branch s (.fill c) ((s.transfer b).goto c (.holding b k))
  | modify {c b k d} : s.pc c = .holding b k ∨ s.pc c = .modified b k → Branch s (.modify c d)
      ((s.setBuf b fun x => { x with data := d }).goto c (.modified b k))
  | logWrite {c b k} : s.pc c = .modified b k → Branch s (.logWrite c)
      (((s.store b).setBuf b fun x => { x with dirty := true }).goto c (.holding b k))
  | bwrite {c b k} : s.pc c = .modified b k → Branch s (.bwrite c)
      ((((s.store b).setBuf b fun x => { x with dirty := true }).transfer b).goto c (.holding b k))
  | releasesleep {c b k} : s.pc c = .holding b k → Branch s (.releasesleep c)
      ((s.setBuf b fun x => { x with locked := false }).goto c (.releasing b k))
  | drop {c b k} : s.pc c = .releasing b k → Branch s (.drop c)
      ((s.setBuf b fun x => { x with refcnt := x.refcnt - 1 }).goto c .idle)
  | last {c b k} : s.pc c = .releasing b k → Branch s (.drop c)
      { (s.setBuf b fun x => { x with refcnt := x.refcnt - 1 }).goto c .idle with
        links := (s.links.remove b).insertHead b
        stamp := update s.stamp b s.clock
        clock := s.clock + 1 }

theorem branch_of_step {s s' : Bcache N} {a : ClientStep N} (h : s.step a = some s') :
    Branch s a s' := by
  cases a with
  | bget c k =>
    simp only [step] at h
    split_ifs at h with hc
    split at h
    next b hb => cases h; exact .hit hc.1 hc.2 hb
    next hn =>
      split at h <;> cases h
      next b hb => exact .recycle hc.1 hc.2 hn hb
  | acquiresleep c =>
    simp only [step] at h
    split at h <;> try cases h
    next b k hc =>
      split_ifs at h with hl
      cases h
      exact .acquiresleep hc (by simpa using hl)
  | fill c =>
    simp only [step] at h
    split at h <;> cases h
    next b k hc =>
      split_ifs with hv
      · exact .filled hc hv
      · exact .read hc (by simpa using hv)
  | modify c d =>
    simp only [step] at h
    split at h <;> cases h
    next b k hc => exact .modify (.inl hc)
    next b k hc => exact .modify (.inr hc)
  | logWrite c =>
    simp only [step] at h
    split at h <;> cases h
    next b k hc => exact .logWrite hc
  | bwrite c =>
    simp only [step] at h
    split at h <;> cases h
    next b k hc => exact .bwrite hc
  | releasesleep c =>
    simp only [step] at h
    split at h <;> cases h
    next b k hc => exact .releasesleep hc
  | drop c =>
    simp only [step] at h
    split at h <;> cases h
    next b k hc =>
      split_ifs
      · exact .last hc
      · exact .drop hc

/-- After `binit`, with no client yet. -/
structure Start (s : Bcache N) : Prop where
  buf : ∀ b, s.buf b = ⟨0, 0, false, false, false, 0, Bytes.zero⟩
  links : s.links = binitLinks
  pc : ∀ c, s.pc c = .idle
  content : s.content = s.disk
  stamp : ∀ b, s.stamp b = b
  clock : s.clock = NBUF

/-- The steps of the machine. -/
def Step (s : Bcache N) (a : ClientStep N) (s' : Bcache N) : Prop := s.step a = some s'

/-- The cache as the list model of `bio.c` has it. -/
def toStore (s : Bcache N) (log : Log) (writes : List (BlockId × Block)) : Store :=
  ⟨s.disk, s.buf, s.links.forward NBUF, log, writes⟩

/-! ## The list -/

/-- The links are a ring of all buffers, the most recently released first. -/
structure Listed (k : Links (Fin NBUF)) (stamp : Fin NBUF → Nat) (clock : Nat)
    (l : List (Fin NBUF)) : Prop where
  ring : k.Ring l
  all : ∀ b, b ∈ l
  sorted : l.Pairwise fun a b => stamp b < stamp a
  clock : ∀ b, stamp b < clock

section

variable {k : Links (Fin NBUF)} {stamp : Fin NBUF → Nat} {clock : Nat} {l : List (Fin NBUF)}

theorem Listed.length (h : Listed k stamp clock l) : l.length = NBUF := by
  have hfin : l.toFinset = Finset.univ := Finset.eq_univ_of_forall fun b =>
    List.mem_toFinset.2 (h.all b)
  rw [← List.toFinset_card_of_nodup h.ring.linked.nodup, hfin, Finset.card_univ, Fintype.card_fin]

theorem Listed.forward (h : Listed k stamp clock l) : k.forward NBUF = l :=
  h.ring.forward_eq h.length.le

theorem Listed.backward (h : Listed k stamp clock l) : k.backward NBUF = l.reverse :=
  h.ring.backward_eq h.length.le

/-- The loop of `binit` links the buffers in, one after the other. -/
theorem ring_foldl_insertHead {bs l : List (Fin NBUF)} (h : k.Ring l)
    (hnd : (bs.reverse ++ l).Nodup) : (bs.foldl Links.insertHead k).Ring (bs.reverse ++ l) := by
  induction bs generalizing k l with
  | nil => exact h
  | cons b bs ih =>
    rw [List.reverse_cons, List.append_assoc] at hnd ⊢
    exact ih (h.insertHead (List.nodup_cons.1 (List.nodup_append.1 hnd).2.1).1) hnd

theorem listed_binit (hstamp : ∀ b, stamp b = b) :
    Listed binitLinks stamp NBUF (List.finRange NBUF).reverse where
  ring := by
    have hnd : ((List.finRange NBUF).reverse ++ []).Nodup := by
      simpa using List.nodup_finRange NBUF
    have h := ring_foldl_insertHead Links.ring_empty hnd
    rwa [List.append_nil] at h
  all := by simp
  sorted := by
    rw [List.pairwise_reverse]
    simp only [hstamp]
    exact List.pairwise_lt_finRange NBUF
  clock b := hstamp b ▸ b.2

/-- `brelse` moves a buffer to the front. -/
theorem Listed.release (h : Listed k stamp clock l) (b : Fin NBUF) :
    Listed ((k.remove b).insertHead b) (update stamp b clock) (clock + 1) (b :: l.erase b) := by
  obtain ⟨l1, l2, rfl⟩ := List.append_of_mem (h.all b)
  have hnd := h.ring.linked.nodup
  have hb : b ∉ l1 ++ l2 := (List.nodup_cons.1 (List.nodup_middle.1 hnd)).1
  have herase : (l1 ++ b :: l2).erase b = l1 ++ l2 := by
    rw [List.erase_append_right _ fun hmem => hb (List.mem_append_left _ hmem),
      List.erase_cons_head]
  have hstamp : ∀ a ∈ l1 ++ l2, update stamp b clock a = stamp a := fun a ha =>
    update_of_ne (by rintro rfl; exact hb ha) ..
  rw [herase]
  constructor
  case ring => exact h.ring.remove.insertHead hb
  case all =>
    intro a
    have := h.all a
    simp only [List.mem_append, List.mem_cons] at this ⊢
    tauto
  case sorted =>
    refine List.pairwise_cons.2 ⟨fun a ha => ?_, ?_⟩
    · rw [update_self, hstamp a ha]
      exact h.clock a
    · have hsub : (l1 ++ l2).Sublist (l1 ++ b :: l2) :=
        List.Sublist.append_left (List.sublist_cons_self b l2) l1
      refine (h.sorted.sublist hsub).imp_of_mem fun ha ha' hlt => ?_
      rwa [hstamp _ ha, hstamp _ ha']
  case clock =>
    intro a
    by_cases ha : a = b
    · rw [ha, update_self]
      exact Nat.lt_succ_self clock
    · rw [update_of_ne ha]
      exact Nat.lt_succ_of_lt (h.clock a)

/-- The first buffer from the end that satisfies a test is the one released first. -/
theorem Listed.oldest (h : Listed k stamp clock l) {p : Fin NBUF → Bool} {b : Fin NBUF}
    (hb : (k.backward NBUF).find? p = some b) {b' : Fin NBUF} (hb' : p b') (hne : b' ≠ b) :
    stamp b < stamp b' := by
  rw [h.backward] at hb
  obtain ⟨-, l1, l2, e, hl1⟩ := List.find?_eq_some_iff_append.1 hb
  have hsorted := List.pairwise_reverse.2 h.sorted
  rw [e] at hsorted
  have hmem : b' ∈ l1 ++ b :: l2 := e ▸ List.mem_reverse.2 (h.all b')
  rcases List.mem_append.1 hmem with hm | hm
  · simpa [hb'] using hl1 b' hm
  · rcases List.mem_cons.1 hm with rfl | hm
    · exact absurd rfl hne
    · exact (List.pairwise_cons.1 (List.pairwise_append.1 hsorted).2.1).1 b' hm

end

/-! ## The clients -/

/-- What the clients have to do with the buffers. -/
structure Refs (buf : Fin NBUF → Buf) (pc : Fin N → ClientPc) : Prop where
  refcnt : ∀ b, (buf b).refcnt = count (ClientPc.Refers b) pc
  ref : ∀ c b k, (pc c).ref = some (b, k) → (buf b).id = k ∧ 1 ≤ k.1
  locked : ∀ b, (buf b).locked = true ↔ ∃ c, (pc c).Owns b
  owner : ∀ b c c', (pc c).Owns b → (pc c').Owns b → c = c'
  uniq : ∀ b b', (buf b).dev ≠ 0 → (buf b).id = (buf b').id → b = b'

section

variable {buf : Fin NBUF → Buf} {pc : Fin N → ClientPc} {b : Fin NBUF} {c : Fin N} {k : BlockId}
  {x : Buf} {y : ClientPc}

theorem Refs.not_refers (h : Refs buf pc) (hb : (buf b).refcnt = 0) (c : Fin N) :
    ¬(pc c).Refers b :=
  count_eq_zero.1 ((h.refcnt b).symm.trans hb) c

theorem Refs.not_locked (h : Refs buf pc) (hb : (buf b).refcnt = 0) : (buf b).locked = false := by
  by_contra hl
  obtain ⟨c, hc⟩ := (h.locked b).1 (Bool.not_eq_false _ ▸ hl)
  exact h.not_refers hb c hc.refers

/-- A client takes a step that concerns one buffer. -/
protected theorem Refs.update (h : Refs buf pc)
    (hid : x.id = (buf b).id ∨ (buf b).refcnt = 0 ∧ ∀ b', (buf b').id ≠ x.id)
    (hother : ∀ b', b' ≠ b → ¬(pc c).Refers b')
    (href : ∀ p, y.ref = some p → p = (b, x.id) ∧ 1 ≤ x.dev)
    (hrefcnt : x.refcnt + (if (pc c).Refers b then 1 else 0) =
      (buf b).refcnt + if y.Refers b then 1 else 0)
    (hlocked : x.locked = true ↔ y.Owns b ∨ ∃ c', c' ≠ c ∧ (pc c').Owns b)
    (howner : y.Owns b → ∀ c', c' ≠ c → ¬(pc c').Owns b) :
    Refs (update buf b x) (update pc c y) := by
  have hy : ∀ b', b' ≠ b → ¬y.Refers b' := by
    intro b' hb' hy
    obtain ⟨p, hp, hpb⟩ := Option.map_eq_some_iff.1 hy
    rw [(href p hp).1] at hpb
    exact hb' hpb.symm
  constructor
  case refcnt =>
    intro b'
    by_cases hb : b' = b
    · subst hb
      rw [update_self]
      have := count_update (P := ClientPc.Refers b') pc c y
      have := h.refcnt b'
      omega
    · rw [update_of_ne hb, h.refcnt b', count_update_of_iff]
      exact iff_of_false (hy b' hb) (hother b' hb)
  case ref =>
    intro c' b' k hk
    by_cases hc : c' = c
    · subst hc
      rw [update_self] at hk
      obtain ⟨e, hdev⟩ := href _ hk
      obtain ⟨rfl, rfl⟩ := Prod.mk.inj e
      exact ⟨by rw [update_self], hdev⟩
    · rw [update_of_ne hc] at hk
      obtain ⟨hk', hdev⟩ := h.ref c' b' k hk
      refine ⟨?_, hdev⟩
      by_cases hb : b' = b
      · subst hb
        rw [update_self]
        rcases hid with e | ⟨hzero, -⟩
        · exact e.trans hk'
        · exact absurd (show (pc c').ref.map Prod.fst = some b' by rw [hk]; rfl)
            (h.not_refers hzero c')
      · rwa [update_of_ne hb]
  case locked =>
    intro b'
    rw [exists_update_iff pc fun _ z => ClientPc.Owns b' z]
    by_cases hb : b' = b
    · subst hb
      rw [update_self, hlocked]
    · rw [update_of_ne hb, h.locked b']
      constructor
      · rintro ⟨c', hc'⟩
        refine .inr ⟨c', ?_, hc'⟩
        rintro rfl
        exact hother b' hb hc'.refers
      · rintro (ho | ⟨c', -, hc'⟩)
        · exact absurd ho.refers (hy b' hb)
        · exact ⟨c', hc'⟩
  case owner =>
    have hne : ∀ b' c', c' ≠ c → y.Owns b' → ¬(pc c').Owns b' := by
      intro b' c' hc ho
      by_cases hb : b' = b
      · exact hb ▸ howner (hb ▸ ho) c' hc
      · exact absurd ho.refers (hy b' hb)
    intro b' c1 c2 h1 h2
    by_cases hc1 : c1 = c <;> by_cases hc2 : c2 = c
    · rw [hc1, hc2]
    · rw [hc1, update_self] at h1
      rw [update_of_ne hc2] at h2
      exact absurd h2 (hne b' c2 hc2 h1)
    · rw [hc2, update_self] at h2
      rw [update_of_ne hc1] at h1
      exact absurd h1 (hne b' c1 hc1 h2)
    · rw [update_of_ne hc1] at h1
      rw [update_of_ne hc2] at h2
      exact h.owner b' c1 c2 h1 h2
  case uniq =>
    have hsame : ∀ b', b' ≠ b → x.id ≠ (buf b').id ∨ x.dev = 0 := by
      intro b' hb
      rcases hid with e | ⟨-, hnone⟩
      · by_cases hdev : x.dev = 0
        · exact .inr hdev
        · refine .inl fun e' => hb ?_
          exact (h.uniq b b' (fun h0 => hdev ((congrArg Prod.fst e).trans h0))
            (e.symm.trans e')).symm
      · exact .inl (hnone b').symm
    intro b1 b2 hdev e
    by_cases hb1 : b1 = b <;> by_cases hb2 : b2 = b
    · rw [hb1, hb2]
    · rw [hb1, update_self] at e hdev
      rw [update_of_ne hb2] at e
      exact absurd e ((hsame b2 hb2).resolve_right hdev)
    · rw [update_of_ne hb1] at e hdev
      rw [hb2, update_self] at e
      refine absurd e.symm ((hsame b1 hb1).resolve_right fun h0 => hdev ?_)
      exact (congrArg Prod.fst e).trans h0
    · rw [update_of_ne hb1] at e hdev
      rw [update_of_ne hb2] at e
      exact h.uniq b1 b2 hdev e

/-- A client refers to one buffer only. -/
theorem ClientPc.not_refers_of_ref {b' : Fin NBUF} (h : y.ref = some (b, k)) (hb : b' ≠ b) :
    ¬y.Refers b' := by
  rw [ClientPc.Refers, h]
  exact fun e => hb (Option.some.inj e).symm

/-- A client goes on with its buffer, and the buffer's block, lock and count stay. -/
theorem Refs.same (h : Refs buf pc) (hc : (pc c).ref = some (b, k)) (hid : x.id = (buf b).id)
    (hrefcnt : x.refcnt = (buf b).refcnt) (hlocked : x.locked = (buf b).locked)
    (href : y.ref = some (b, k)) (howns : y.Owns b ↔ (pc c).Owns b) :
    Refs (update buf b x) (update pc c y) := by
  obtain ⟨hk, hdev⟩ := h.ref c b k hc
  refine h.update (.inl hid) (fun b' => ClientPc.not_refers_of_ref hc) (fun p hp => ?_) ?_ ?_
    fun ho c' hne ho' => ?_
  · rw [href] at hp
    obtain rfl := Option.some.inj hp
    rw [hid, hk]
    exact ⟨rfl, hdev.trans_eq (congrArg Prod.fst (hid.trans hk)).symm⟩
  · simp [ClientPc.Refers, hc, href, hrefcnt]
  · rw [hlocked, h.locked b, howns]
    constructor
    · rintro ⟨c', hc'⟩
      by_cases e : c' = c
      · exact .inl (e ▸ hc')
      · exact .inr ⟨c', e, hc'⟩
    · rintro (ho | ⟨c', -, hc'⟩)
      · exact ⟨c, ho⟩
      · exact ⟨c', hc'⟩
  · exact hne (h.owner b c' c ho' (howns.1 ho))

end

/-! ## The contents -/

/-- Where the contents last stored for a block are: in its buffer, if that is
valid and not being changed, and on disk, if it is clean or has no buffer. -/
structure Data (disk content : BlockId → Block) (buf : Fin NBUF → Buf) (pc : Fin N → ClientPc) :
    Prop where
  clean : ∀ b, (buf b).dev ≠ 0 → (buf b).dirty = false → disk (buf b).id = content (buf b).id
  data : ∀ b, (buf b).dev ≠ 0 → (buf b).valid = true → (∀ c k, pc c ≠ .modified b k) →
    (buf b).data = content (buf b).id
  invalid : ∀ b, (buf b).valid = false → (buf b).dirty = false ∧
    ∀ c k, pc c ≠ .holding b k ∧ pc c ≠ .modified b k
  unassigned : ∀ b, (buf b).dev = 0 → (buf b).valid = false
  uncached : ∀ k, 1 ≤ k.1 → (∀ b, (buf b).id ≠ k) → disk k = content k

section

variable {disk content disk' content' : BlockId → Block} {buf : Fin NBUF → Buf}
  {pc : Fin N → ClientPc} {b : Fin NBUF} {c : Fin N} {k : BlockId} {x : Buf} {y : ClientPc}

/-- A client takes a step that concerns one buffer and its block. -/
protected theorem Data.update (h : Data disk content buf pc)
    (hid : x.id = (buf b).id ∨ (buf b).dirty = false ∧ ∀ b', (buf b').id ≠ x.id)
    (hdisk : ∀ k, k ≠ x.id → disk' k = disk k) (hcontent : ∀ k, k ≠ x.id → content' k = content k)
    (hclean : x.dirty = false → disk' x.id = content' x.id)
    (hdata : x.valid = true → (∀ k, y ≠ .modified b k) →
      (∀ c', c' ≠ c → ∀ k, pc c' ≠ .modified b k) → x.data = content' x.id)
    (hinvalid : x.valid = false → x.dirty = false ∧ (∀ k, y ≠ .holding b k ∧ y ≠ .modified b k) ∧
      ∀ c', c' ≠ c → ∀ k, pc c' ≠ .holding b k ∧ pc c' ≠ .modified b k)
    (hdev : 1 ≤ x.dev) (huniq : ∀ b', b' ≠ b → (buf b').dev ≠ 0 → (buf b').id ≠ x.id)
    (hother : ∀ b', b' ≠ b → ∀ k, y ≠ .holding b' k ∧ y ≠ .modified b' k)
    (hpc : ∀ b', b' ≠ b → ∀ k, pc c ≠ .modified b' k) :
    Data disk' content' (update buf b x) (update pc c y) := by
  constructor
  case clean =>
    intro b' hdev' hd
    by_cases hb : b' = b
    · subst hb
      rw [update_self] at hd ⊢
      exact hclean hd
    · rw [update_of_ne hb] at hd hdev' ⊢
      rw [hdisk _ (huniq b' hb hdev'), hcontent _ (huniq b' hb hdev')]
      exact h.clean b' hdev' hd
  case data =>
    intro b' hdev' hv hm
    by_cases hb : b' = b
    · subst hb
      rw [update_self] at hv ⊢
      refine hdata hv (fun k => ?_) fun c' hc k => ?_
      · simpa using hm c k
      · simpa [hc] using hm c' k
    · rw [update_of_ne hb] at hv hdev' ⊢
      rw [hcontent _ (huniq b' hb hdev')]
      refine h.data b' hdev' hv fun c' k => ?_
      by_cases hc : c' = c
      · rw [hc]
        exact hpc b' hb k
      · simpa [hc] using hm c' k
  case invalid =>
    intro b' hv
    by_cases hb : b' = b
    · subst hb
      rw [update_self] at hv ⊢
      obtain ⟨hd, hy, ho⟩ := hinvalid hv
      refine ⟨hd, fun c' k => ?_⟩
      by_cases hc : c' = c
      · rw [hc, update_self]
        exact hy k
      · rw [update_of_ne hc]
        exact ho c' hc k
    · rw [update_of_ne hb] at hv ⊢
      refine ⟨(h.invalid b' hv).1, fun c' k => ?_⟩
      by_cases hc : c' = c
      · rw [hc, update_self]
        exact hother b' hb k
      · rw [update_of_ne hc]
        exact (h.invalid b' hv).2 c' k
  case unassigned =>
    intro b' hdev'
    by_cases hb : b' = b
    · rw [hb, update_self] at hdev'
      omega
    · rw [update_of_ne hb] at hdev' ⊢
      exact h.unassigned b' hdev'
  case uncached =>
    intro k hk hnone
    have hne : k ≠ x.id := by simpa using (hnone b).symm
    rw [hdisk k hne, hcontent k hne]
    by_cases hb : (buf b).id = k
    · rcases hid with e | ⟨hd, -⟩
      · exact absurd (hb.symm.trans e.symm) hne
      · subst hb
        exact h.clean b (fun h0 => by rw [Buf.id, h0] at hk; simp at hk) hd
    · refine h.uncached k hk fun b' => ?_
      by_cases hb' : b' = b
      · rwa [hb']
      · simpa [hb'] using hnone b'

/-- The step changes neither contents nor flags, and the client goes on neither to
hold nor to change the buffer. -/
theorem Data.same (h : Data disk content buf pc) (hid : x.id = (buf b).id)
    (hvalid : x.valid = (buf b).valid) (hdirty : x.dirty = (buf b).dirty)
    (hdata : x.data = (buf b).data) (hdev : 1 ≤ x.dev)
    (huniq : ∀ b', b' ≠ b → (buf b').dev ≠ 0 → (buf b').id ≠ x.id)
    (hy : ∀ b' k, y ≠ .holding b' k ∧ y ≠ .modified b' k) (hpc : ∀ b' k, pc c ≠ .modified b' k) :
    Data disk content (update buf b x) (update pc c y) := by
  have hdev' : (buf b).dev ≠ 0 := fun h0 => by
    have : x.dev = (buf b).dev := congrArg Prod.fst hid
    omega
  refine h.update (.inl hid) (fun _ _ => rfl) (fun _ _ => rfl) (fun hd => ?_) (fun hv _ hm => ?_)
    (fun hv => ?_) hdev huniq (fun b' _ k => hy b' k) fun b' _ k => hpc b' k
  · rw [hid]
    exact h.clean b hdev' (hdirty ▸ hd)
  · rw [hid, hdata]
    refine h.data b hdev' (hvalid ▸ hv) fun c' k => ?_
    by_cases hc : c' = c
    · exact hc ▸ hpc b k
    · exact hm c' hc k
  · obtain ⟨hd, hc⟩ := h.invalid b (hvalid ▸ hv)
    exact ⟨hdirty ▸ hd, hy b, fun c' _ k => hc c' k⟩

end

/-! ## The invariant -/

/-- The invariant of the machine. -/
structure Inv (s : Bcache N) : Prop where
  list : ∃ l, Listed s.links s.stamp s.clock l
  refs : Refs s.buf s.pc
  data : Data s.disk s.content s.buf s.pc

theorem Start.inv {s : Bcache N} (h : Start s) : Inv s where
  list := ⟨_, by rw [h.links, h.clock]; exact listed_binit h.stamp⟩
  refs := by
    constructor
    case refcnt =>
      intro b
      rw [h.buf, count_eq_zero.2 fun c => by rw [h.pc]; simp [ClientPc.Refers, ClientPc.ref]]
    case ref => simp [h.pc, ClientPc.ref]
    case locked => simp [h.buf, h.pc, ClientPc.Owns]
    case owner => simp [h.pc, ClientPc.Owns]
    case uniq => simp [h.buf]
  data := by
    constructor
    case clean => simp [h.buf]
    case data => simp [h.buf]
    case invalid => simp [h.buf, h.pc]
    case unassigned => simp [h.buf]
    case uncached => simp [h.content]

section

variable {s s' : Bcache N} {b : Fin NBUF} {c : Fin N} {k : BlockId} {d : Block}

theorem lookup_eq_some (h : s.lookup k = some b) : (s.buf b).id = k := by
  have := List.find?_some h
  simp only [Bool.and_eq_true, beq_iff_eq] at this
  exact Prod.ext this.1 this.2

theorem Inv.lookup_eq_none (h : Inv s) (hn : s.lookup k = none) (b : Fin NBUF) :
    (s.buf b).id ≠ k := by
  obtain ⟨l, hl⟩ := h.list
  rw [lookup, hl.forward] at hn
  have := List.find?_eq_none.1 hn b (hl.all b)
  simp only [Bool.and_eq_true, beq_iff_eq, not_and] at this
  rintro rfl
  exact this rfl rfl

theorem unused_eq_some (h : s.unused = some b) : s.Eligible b := by
  simpa using List.find?_some h

/-- No other buffer is for the block of a client. -/
theorem Inv.id_ne (h : Inv s) (hdev : (s.buf b).dev ≠ 0) {b' : Fin NBUF} (hb : b' ≠ b) :
    (s.buf b').id ≠ (s.buf b).id := fun e => hb (h.refs.uniq b b' hdev e.symm).symm

/-- `bget` finds the block. -/
theorem Inv.hit (h : Inv s) (hc : s.pc c = .idle) (hk : 1 ≤ k.1) (hb : s.lookup k = some b) :
    Inv ((s.setBuf b fun x => { x with refcnt := x.refcnt + 1 }).goto c (.waiting b k)) := by
  have hid := lookup_eq_some hb
  have hdev : 1 ≤ (s.buf b).dev := hk.trans_eq (congrArg Prod.fst hid).symm
  refine ⟨h.list, h.refs.update (.inl rfl) ?_ ?_ ?_ ?_ ?_, h.data.same rfl rfl rfl rfl hdev
    (fun b' hb' _ => h.id_ne (by omega) hb') (by simp) (by simp [hc])⟩
  · simp [hc, ClientPc.Refers, ClientPc.ref]
  · rintro p hp
    obtain rfl := Option.some.inj hp
    exact ⟨Prod.ext rfl hid.symm, hdev⟩
  · simp [hc, ClientPc.Refers, ClientPc.ref]
  · simp only [ClientPc.Owns, false_or]
    rw [h.refs.locked b]
    constructor
    · rintro ⟨c', ho⟩
      refine ⟨c', ?_, ho⟩
      rintro rfl
      simp [hc, ClientPc.Owns] at ho
    · rintro ⟨c', -, ho⟩
      exact ⟨c', ho⟩
  · exact fun ho => ho.elim

/-- `bget` recycles a buffer. -/
theorem Inv.recycle (h : Inv s) (hc : s.pc c = .idle) (hk : 1 ≤ k.1) (hn : s.lookup k = none)
    (hb : s.unused = some b) : Inv ((s.setBuf b fun x => { x with
      dev := k.1, blockno := k.2, valid := false, dirty := false, refcnt := 1 }).goto c
        (.waiting b k)) := by
  obtain ⟨hzero, hclean⟩ := unused_eq_some hb
  have hnone := h.lookup_eq_none hn
  have hnot : ∀ c', ¬(s.pc c').Owns b := fun c' ho => h.refs.not_refers hzero c' ho.refers
  have hpc : ∀ c' k', s.pc c' ≠ .holding b k' ∧ s.pc c' ≠ .modified b k' := by
    intro c' k'
    constructor <;> intro e <;> exact hnot c' (by rw [e]; rfl)
  refine ⟨h.list, h.refs.update (.inr ⟨hzero, hnone⟩) ?_ ?_ ?_ ?_ ?_,
    h.data.update (.inr ⟨hclean, hnone⟩) (fun _ _ => rfl) (fun _ _ => rfl)
      (fun _ => h.data.uncached k hk hnone) ?_ ?_ hk (fun b' _ _ => hnone b') ?_ ?_⟩
  · simp [hc, ClientPc.Refers, ClientPc.ref]
  · rintro p hp
    obtain rfl := Option.some.inj hp
    exact ⟨rfl, hk⟩
  · simp [hc, hzero, ClientPc.Refers, ClientPc.ref]
  · refine iff_of_false (by simp [h.refs.not_locked hzero]) ?_
    rintro (ho | ⟨c', -, ho⟩)
    · exact ho.elim
    · exact hnot c' ho
  · exact fun ho => ho.elim
  · simp
  · exact fun _ => ⟨rfl, by simp, fun c' _ k' => hpc c' k'⟩
  · simp
  · simp [hc]

/-- A client that refers to a buffer. -/
theorem Inv.of_ref (h : Inv s) (hc : (s.pc c).ref = some (b, k)) :
    (s.buf b).id = k ∧ 1 ≤ (s.buf b).dev ∧ ∀ b', b' ≠ b → (s.buf b').id ≠ (s.buf b).id := by
  obtain ⟨hid, hk⟩ := h.refs.ref c b k hc
  have hdev : 1 ≤ (s.buf b).dev := hk.trans_eq (congrArg Prod.fst hid).symm
  exact ⟨hid, hdev, fun b' hb => h.id_ne (by omega) hb⟩

/-- The sleep lock is free and taken. -/
theorem Inv.acquiresleep (h : Inv s) (hc : s.pc c = .waiting b k) (hl : (s.buf b).locked = false) :
    Inv ((s.setBuf b fun x => { x with locked := true }).goto c (.locked b k)) := by
  have href : (s.pc c).ref = some (b, k) := by rw [hc]; rfl
  obtain ⟨hid, hdev, hne⟩ := h.of_ref href
  have hnot : ∀ c', ¬(s.pc c').Owns b := fun c' ho => by
    rw [(h.refs.locked b).2 ⟨c', ho⟩] at hl
    cases hl
  refine ⟨h.list, h.refs.update (.inl rfl) ?_ ?_ ?_ ?_ ?_, h.data.same rfl rfl rfl rfl hdev
    (fun b' hb' _ => hne b' hb') (by simp) (by simp [hc])⟩
  · exact fun b' => ClientPc.not_refers_of_ref href
  · rintro p hp
    obtain rfl := Option.some.inj hp
    exact ⟨Prod.ext rfl hid.symm, hdev⟩
  · simp [hc, ClientPc.Refers, ClientPc.ref]
  · simp [ClientPc.Owns]
  · exact fun _ c' _ => hnot c'

/-- The sleep lock is released. -/
theorem Inv.releasesleep (h : Inv s) (hc : s.pc c = .holding b k) :
    Inv ((s.setBuf b fun x => { x with locked := false }).goto c (.releasing b k)) := by
  have href : (s.pc c).ref = some (b, k) := by rw [hc]; rfl
  have howns : (s.pc c).Owns b := by rw [hc]; rfl
  obtain ⟨hid, hdev, hne⟩ := h.of_ref href
  refine ⟨h.list, h.refs.update (.inl rfl) ?_ ?_ ?_ ?_ ?_, h.data.same rfl rfl rfl rfl hdev
    (fun b' hb' _ => hne b' hb') (by simp) (by simp [hc])⟩
  · exact fun b' => ClientPc.not_refers_of_ref href
  · rintro p hp
    obtain rfl := Option.some.inj hp
    exact ⟨Prod.ext rfl hid.symm, hdev⟩
  · simp [hc, ClientPc.Refers, ClientPc.ref]
  · simp only [ClientPc.Owns, false_or, Bool.false_eq_true, false_iff, not_exists, not_and]
    exact fun c' hc' ho => hc' (h.refs.owner b c' c ho howns)
  · exact fun ho => ho.elim

/-- `brelse` drops its reference. -/
theorem Inv.drop (h : Inv s) (hc : s.pc c = .releasing b k) :
    Inv ((s.setBuf b fun x => { x with refcnt := x.refcnt - 1 }).goto c .idle) := by
  have href : (s.pc c).ref = some (b, k) := by rw [hc]; rfl
  have hrefers : (s.pc c).Refers b := by rw [hc]; rfl
  obtain ⟨hid, hdev, hne⟩ := h.of_ref href
  refine ⟨h.list, h.refs.update (.inl rfl) ?_ ?_ ?_ ?_ ?_, h.data.same rfl rfl rfl rfl hdev
    (fun b' hb' _ => hne b' hb') (by simp) (by simp [hc])⟩
  · exact fun b' => ClientPc.not_refers_of_ref href
  · exact fun p hp => by cases hp
  · have hpos : 0 < (s.buf b).refcnt := by
      rw [h.refs.refcnt b]
      exact count_pos.2 ⟨c, hrefers⟩
    rw [if_pos hrefers, if_neg (by simp [ClientPc.Refers, ClientPc.ref])]
    exact Nat.sub_add_cancel hpos
  · simp only [ClientPc.Owns, false_or]
    rw [h.refs.locked b]
    constructor
    · rintro ⟨c', ho⟩
      refine ⟨c', ?_, ho⟩
      rintro rfl
      simp [hc, ClientPc.Owns] at ho
    · rintro ⟨c', -, ho⟩
      exact ⟨c', ho⟩
  · exact fun ho => ho.elim

/-- Nobody else holds or changes a buffer whose lock a client has. -/
theorem Inv.sole (h : Inv s) (hc : (s.pc c).Owns b) {c' : Fin N} (hne : c' ≠ c) (k : BlockId) :
    s.pc c' ≠ .holding b k ∧ s.pc c' ≠ .modified b k := by
  constructor <;> intro e <;> exact hne (h.refs.owner b c' c (by rw [e]; rfl) hc)

/-- The test of `B_VALID` in `bread` succeeds. -/
theorem Inv.filled (h : Inv s) (hc : s.pc c = .locked b k) (hv : (s.buf b).valid = true) :
    Inv (s.goto c (.holding b k)) := by
  have href : (s.pc c).ref = some (b, k) := by rw [hc]; rfl
  have howns : (s.pc c).Owns b := by rw [hc]; rfl
  obtain ⟨hid, hdev, hne⟩ := h.of_ref href
  have hrefs := h.refs.same (x := s.buf b) (y := .holding b k) href rfl rfl rfl rfl
    (by simp [hc, ClientPc.Owns])
  have hdata := h.data.update (x := s.buf b) (b := b) (c := c) (y := .holding b k) (.inl rfl)
    (fun _ _ => rfl) (fun _ _ => rfl) (h.data.clean b (by omega)) (fun hv _ hm => ?_)
    (by simp [hv]) hdev (fun b' hb' _ => hne b' hb')
    (fun b' hb' k' => ⟨by simp [hb'.symm], by simp⟩) (by simp [hc])
  · rw [update_eq_self] at hrefs hdata
    exact ⟨h.list, hrefs, hdata⟩
  · refine h.data.data b (by omega) hv fun c' k' => ?_
    by_cases e : c' = c
    · simp [e, hc]
    · exact hm c' e k'

/-- `bread` reads the block. -/
theorem Inv.read (h : Inv s) (hc : s.pc c = .locked b k) (hv : (s.buf b).valid = false) :
    Inv ((s.transfer b).goto c (.holding b k)) := by
  have href : (s.pc c).ref = some (b, k) := by rw [hc]; rfl
  obtain ⟨hid, hdev, hne⟩ := h.of_ref href
  obtain ⟨hd, -⟩ := h.data.invalid b hv
  have hclean := h.data.clean b (by omega) hd
  rw [transfer, if_neg (by simp [hd])]
  refine ⟨h.list, h.refs.same href rfl rfl rfl rfl (by simp [hc, ClientPc.Owns]),
    h.data.update (.inl rfl) (fun _ _ => rfl) (fun _ _ => rfl) (fun _ => hclean)
    (fun _ _ _ => hclean)
      (by simp) hdev (fun b' hb' _ => hne b' hb') (fun b' hb' k' => ⟨by simp [hb'.symm], by simp⟩)
      (by simp [hc])⟩

/-- A client changes the data of its buffer. -/
theorem Inv.modify (h : Inv s) (hc : s.pc c = .holding b k ∨ s.pc c = .modified b k) :
    Inv ((s.setBuf b fun x => { x with data := d }).goto c (.modified b k)) := by
  have href : (s.pc c).ref = some (b, k) := by rcases hc with hc | hc <;> rw [hc] <;> rfl
  have howns : (s.pc c).Owns b := by rcases hc with hc | hc <;> rw [hc] <;> rfl
  obtain ⟨hid, hdev, hne⟩ := h.of_ref href
  have hv : (s.buf b).valid = true := by
    by_contra hv
    have := (h.data.invalid b (by simpa using hv)).2 c k
    rcases hc with hc | hc <;> simp [hc] at this
  refine ⟨h.list, h.refs.same href rfl rfl rfl rfl (iff_of_true rfl howns),
    h.data.update (.inl rfl) (fun _ _ => rfl) (fun _ _ => rfl) (h.data.clean b (by omega))
      (fun _ hy _ => absurd rfl (hy k)) (by simp [hv]) hdev (fun b' hb' _ => hne b' hb')
      (fun b' hb' k' => ⟨by simp, by simp [hb'.symm]⟩) fun b' hb' k' => ?_⟩
  rcases hc with hc | hc <;> simp [hc, hb'.symm]

/-- `log_write`. -/
theorem Inv.logWrite (h : Inv s) (hc : s.pc c = .modified b k) :
    Inv (((s.store b).setBuf b fun x => { x with dirty := true }).goto c (.holding b k)) := by
  have href : (s.pc c).ref = some (b, k) := by rw [hc]; rfl
  have howns : (s.pc c).Owns b := by rw [hc]; rfl
  obtain ⟨hid, hdev, hne⟩ := h.of_ref href
  have hv : (s.buf b).valid = true := by
    by_contra hv
    exact ((h.data.invalid b (by simpa using hv)).2 c k).2 hc
  refine ⟨h.list, h.refs.same href rfl rfl rfl rfl (iff_of_true rfl howns),
    h.data.update (.inl rfl) (fun _ _ => rfl) (fun k' hk' => update_of_ne hk' ..) (by simp)
      (fun _ _ _ => ?_) (by simp [store, hv]) hdev (fun b' hb' _ => hne b' hb')
      (fun b' hb' k' => ⟨by simp [hb'.symm], by simp⟩) fun b' hb' k' => by simp [hc, hb'.symm]⟩
  exact (update_self (s.buf b).id (s.buf b).data s.content).symm

/-- `bwrite` writes what the buffer holds. -/
theorem transfer_store (s : Bcache N) (b : Fin NBUF) :
    ((s.store b).setBuf b fun x => { x with dirty := true }).transfer b =
      { (s.store b).setBuf b fun x => { x with valid := true, dirty := false } with
        disk := update s.disk (s.buf b).id (s.buf b).data } := by
  simp [transfer, setBuf, store, Buf.id]

/-- `bwrite`. -/
theorem Inv.bwrite (h : Inv s) (hc : s.pc c = .modified b k) :
    Inv ((((s.store b).setBuf b fun x => { x with dirty := true }).transfer b).goto c
      (.holding b k)) := by
  have href : (s.pc c).ref = some (b, k) := by rw [hc]; rfl
  have howns : (s.pc c).Owns b := by rw [hc]; rfl
  obtain ⟨hid, hdev, hne⟩ := h.of_ref href
  have hstored := update_self (s.buf b).id (s.buf b).data s.content
  rw [transfer_store]
  refine ⟨h.list, h.refs.same href rfl rfl rfl rfl (iff_of_true rfl howns),
    h.data.update (.inl rfl) (fun k' hk' => update_of_ne hk' ..)
      (fun k' hk' => update_of_ne hk' ..) (fun _ => ?_) (fun _ _ _ => hstored.symm)
      (by simp) hdev (fun b' hb' _ => hne b' hb') (fun b' hb' k' => ⟨by simp [hb'.symm], by simp⟩)
      fun b' hb' k' => by simp [hc, hb'.symm]⟩
  exact (update_self (s.buf b).id (s.buf b).data s.disk).trans hstored.symm

/-- Every step keeps the invariant. -/
theorem Inv.step {a : ClientStep N} (h : Inv s) (hs : Step s a s') : Inv s' := by
  cases branch_of_step hs with
  | hit hc hk hb => exact h.hit hc hk hb
  | recycle hc hk hn hb => exact h.recycle hc hk hn hb
  | acquiresleep hc hl => exact h.acquiresleep hc hl
  | filled hc hv => exact h.filled hc hv
  | read hc hv => exact h.read hc hv
  | modify hc => exact h.modify hc
  | logWrite hc => exact h.logWrite hc
  | bwrite hc => exact h.bwrite hc
  | releasesleep hc => exact h.releasesleep hc
  | drop hc => exact h.drop hc
  | @last c b k hc =>
    obtain ⟨l, hl⟩ := h.list
    exact ⟨⟨_, hl.release b⟩, (h.drop hc).refs, (h.drop hc).data⟩

theorem inv_of_reach (h : Reach Start Step s) : Inv s :=
  h.invariant (fun _ => Start.inv) fun _ _ _ hi hs => hi.step hs

theorem id_setBuf {f : Buf → Buf} (hf : (f (s.buf b)).id = (s.buf b).id) (b' : Fin NBUF) :
    ((s.setBuf b f).buf b').id = (s.buf b').id := by
  by_cases hb : b' = b
  · rw [hb]
    exact (congrArg Buf.id (update_self ..)).trans hf
  · exact congrArg Buf.id (update_of_ne hb ..)

theorem id_transfer (b' : Fin NBUF) : ((s.transfer b).buf b').id = (s.buf b').id := by
  simp only [transfer]
  split
  · exact id_setBuf (f := fun x => { x with valid := true, dirty := false }) rfl b'
  · exact id_setBuf (f := fun x => { x with valid := true, data := s.disk x.id }) rfl b'

/-- Only `bget` gives a buffer another block: to the least recently released of
those that nobody refers to and that are clean. -/
theorem Inv.reassigned {a : ClientStep N} (h : Inv s) (hs : Step s a s') {b : Fin NBUF}
    (hb : (s'.buf b).id ≠ (s.buf b).id) : s.Eligible b ∧
      ∀ b', s.Eligible b' → b' ≠ b → s.stamp b < s.stamp b' := by
  have hsame : ∀ (s : Bcache N) (b0 : Fin NBUF) (f : Buf → Buf) (c : Fin N) (y : ClientPc),
      (f (s.buf b0)).id = (s.buf b0).id → (((s.setBuf b0 f).goto c y).buf b).id = (s.buf b).id :=
    fun s b0 f c y hf => id_setBuf hf b
  cases branch_of_step hs with
  | hit => exact absurd (hsame s _ _ _ _ rfl) hb
  | @recycle c k b0 hc hk hn hb0 =>
    by_cases e : b = b0
    · subst e
      obtain ⟨l, hl⟩ := h.list
      exact ⟨unused_eq_some hb0, fun b' hb' hne => hl.oldest hb0 (by simpa using hb') hne⟩
    · exact absurd (congrArg Buf.id (update_of_ne e ..)) hb
  | acquiresleep => exact absurd (hsame s _ _ _ _ rfl) hb
  | filled => exact absurd rfl hb
  | read => exact absurd (id_transfer b) hb
  | modify => exact absurd (hsame s _ _ _ _ rfl) hb
  | logWrite => exact absurd (hsame (s.store _) _ _ _ _ rfl) hb
  | bwrite =>
    rw [goto_buf, id_transfer] at hb
    exact absurd (id_setBuf (s := s.store _) rfl b) hb
  | releasesleep => exact absurd (hsame s _ _ _ _ rfl) hb
  | drop => exact absurd (hsame s _ _ _ _ rfl) hb
  | @last c b0 k hc =>
    exact absurd (hsame s b0 (fun x => { x with refcnt := x.refcnt - 1 }) c .idle rfl) hb

end

/-! ## The cache is transparent -/

/-- In every state that any number of clients reach: the links are one ring of all
buffers; buffers that have been given a block have different blocks; `refcnt` is
the number of outstanding `bread`s; a buffer that a client has from `bread` holds
the contents last stored for the block it asked for.  And a step gives a buffer
another block only if nobody refers to it and it is clean, and then no other such
buffer has been released before it. -/
theorem cache_transparent {s : Bcache N} (h : Reach Start Step s) :
    (∃ l : List (Fin NBUF), s.links.Ring l ∧ ∀ b, b ∈ l) ∧
    (∀ b b', (s.buf b).dev ≠ 0 → (s.buf b).id = (s.buf b').id → b = b') ∧
    (∀ b, (s.buf b).refcnt = count (ClientPc.Refers b) s.pc) ∧
    (∀ c b k, s.pc c = .holding b k → (s.buf b).id = k ∧ (s.buf b).data = s.content k) ∧
    ∀ a s' b, Step s a s' → (s'.buf b).id ≠ (s.buf b).id →
      (s.buf b).refcnt = 0 ∧ (s.buf b).dirty = false ∧
      ∀ b', (s.buf b').refcnt = 0 → (s.buf b').dirty = false → b' ≠ b → s.stamp b < s.stamp b' := by
  have hinv := inv_of_reach h
  obtain ⟨l, hl⟩ := hinv.list
  refine ⟨⟨l, hl.ring, hl.all⟩, hinv.refs.uniq, hinv.refs.refcnt, fun c b k hc => ?_,
    fun a s' b hs hb => ?_⟩
  · obtain ⟨hid, hdev, -⟩ := hinv.of_ref (show (s.pc c).ref = some (b, k) by rw [hc]; rfl)
    have howns : (s.pc c).Owns b := by rw [hc]; rfl
    have hv : (s.buf b).valid = true := by
      by_contra hv
      exact ((hinv.data.invalid b (by simpa using hv)).2 c k).1 hc
    refine ⟨hid, hid ▸ hinv.data.data b (by omega) hv fun c' k' => ?_⟩
    by_cases e : c' = c
    · simp [e, hc]
    · exact (hinv.sole howns e k').2
  · obtain ⟨⟨hzero, hclean⟩, hold⟩ := hinv.reassigned hs hb
    exact ⟨hzero, hclean, fun b' h1 h2 => hold b' ⟨h1, h2⟩⟩

/-! ## The list model -/

/-- What the model of `bio.c` with a list for the links does is what the links do:
the two searches of `bget` find the same buffers, and `brelse` moves the same one. -/
theorem toStore_agrees {s : Bcache N} (h : Reach Start Step s) (log : Log)
    (writes : List (BlockId × Block)) (k : BlockId) (b : Fin NBUF) :
    (s.toStore log writes).lookup k.1 k.2 = s.lookup k ∧ (s.toStore log writes).unused = s.unused ∧
    ((s.links.remove b).insertHead b).forward NBUF = b :: (s.links.forward NBUF).erase b := by
  obtain ⟨l, hl⟩ := (inv_of_reach h).list
  refine ⟨rfl, ?_, ?_⟩
  · rw [Store.unused, unused, hl.backward, toStore, hl.forward]
    congr 1
    funext b
    rw [Bool.eq_iff_iff, decide_eq_true_iff]
    simp [Eligible]
  · rw [(hl.release b).forward, hl.forward]

/-- One client on two empty disks. -/
def oneClient : Bcache 1 :=
  ⟨fun _ => Bytes.zero, fun _ => ⟨0, 0, false, false, false, 0, Bytes.zero⟩, binitLinks,
    fun _ => .idle, fun _ => Bytes.zero, fun b => b, NBUF⟩

theorem start_oneClient : Start oneClient :=
  ⟨fun _ => rfl, rfl, fun _ => rfl, rfl, fun _ => rfl, rfl⟩

/-- A client changes block 60 of disk 1, logs the change, lets go of the buffer and
reads the block again. -/
def rereads : List (ClientStep 1) :=
  [.bget 0 (1, 60), .acquiresleep 0, .fill 0, .modify 0 (Bytes.zero.set 0 7), .logWrite 0,
    .releasesleep 0, .drop 0, .bget 0 (1, 60), .acquiresleep 0, .fill 0]

/-- It finds what it stored. -/
theorem cache_transparent_one_client : ∃ s : Bcache 1, Reach Start Step s ∧
    ∃ b, s.pc 0 = .holding b (1, 60) ∧ (s.buf b).data = Bytes.zero.set 0 7 := by
  have hreach := Reach.foldlM (.init start_oneClient)
    (Option.some_get (x := rereads.foldlM step oneClient) (by decide +kernel)).symm
  have hpc : ((rereads.foldlM step oneClient).get (by decide +kernel)).pc 0 =
      .holding ⟨0, by decide⟩ (1, 60) := by decide +kernel
  obtain ⟨-, hdata⟩ := (cache_transparent hreach).2.2.2.1 0 _ (1, 60) hpc
  refine ⟨_, hreach, _, hpc, hdata.trans ?_⟩
  decide +kernel

end Bcache

end Xv6Rework
