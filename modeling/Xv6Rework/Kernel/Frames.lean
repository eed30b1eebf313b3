import Xv6Rework.Kernel.Proc
import Xv6Rework.Mem.UserMem
import Xv6Rework.Sched.Frames

/-!
# Page frames are conserved

Every operation of `Kernel/Proc.lean` keeps a ledger: the frames given to the
allocator are those on its free list and those that a page directory, a page
table, a user mapping, a stack or a pipe holds, each exactly once.  `kalloc` may
fail at any call, and a panic other than `remap` may stop the machine.
-/

namespace Xv6Rework.Kernel

open Function Multiset Vm
open Prog hiding update update_apply

variable {I : Layout} {k k' : Kernel} {K : Option Space} {V : PId → Option Space} {p np : PId}
  {c : CpuId} {f : Nat} {sp : Space} {a a' : Abs}

/-! ## The ledger -/

/-- The page of a pipe. -/
def pipePage (k : Kernel) (f : Nat) : Option Nat := (k.pipe f).map fun _ => f

/-- The pages that are used as a whole: stacks and pipes. -/
def loose (I : Layout) (k : Kernel) : Multiset Nat :=
  held .univ k.kstack + (k.cpuStack : Multiset Nat) + held I.managed k.pipePage

/-- The address spaces: the kernel's own and those of processes. -/
def spaces (K : Option Space) (V : PId → Option Space) : Multiset Space :=
  K.elim 0 ({·}) + held .univ V

/-- The frames are all accounted for, where `K` is the kernel's address space and `V`
those of the processes. -/
structure Ledger (I : Layout) (k : Kernel) (K : Option Space) (V : PId → Option Space) : Prop where
  kdir : K.map Space.dir = k.kpgdir
  dir : ∀ p sp, V p = some sp → k.pgdir p = some sp.dir
  below : ∀ p sp, V p = some sp → sp.Below (k.sz p)
  sz_le : ∀ p sp, V p = some sp → k.sz p ≤ KERNBASE
  pipe_mem : ∀ f, k.pipe f ≠ none → f ∈ I.managed
  heap : Heap I.managed k.mem (spaces K V) (loose I k)

/-- The slots in use are those with a stack and an address space. -/
structure Equipped (a : Abs) (k : Kernel) (V : PId → Option Space) : Prop where
  space_iff : ∀ p, V p = none ↔ (a.task p).state = .unused
  stack_iff : ∀ p, k.kstack p = none ↔ (a.task p).state = .unused

/-- The invariant of the machine. -/
def Balanced (I : Layout) (k : Kernel) : Prop :=
  ∃ a K V, Sim k.sched a ∧ Inv True a ∧ Ledger I k K V ∧ Equipped a k V

/-- Whatever stops the machine, it is not a remap. -/
def NoRemap (e : Stop) (_ : Kernel) : Prop := e ≠ .panic "remap"

theorem spaces_take (h : V p = some sp) :
    spaces K V = sp ::ₘ spaces K (update V p none) := by
  rw [spaces, spaces, held_take (Finset.mem_univ p) h, add_cons]

theorem spaces_put (h : V p = none) :
    spaces K (update V p (some sp)) = sp ::ₘ spaces K V := by
  rw [spaces, spaces, held_put (Finset.mem_univ p) h, add_cons]

/-- Replacing the address space of a process. -/
theorem spaces_set (sp : Space) :
    spaces K (update V p (some sp)) = sp ::ₘ spaces K (update V p none) := by
  rw [← spaces_put (update_self p none V), update_idem]

theorem loose_take (h : k.kstack p = some f) : loose I k = f ::ₘ loose I (k.setStack p none) := by
  rw [loose, loose, held_take (Finset.mem_univ p) h, cons_add, cons_add]
  rfl

theorem loose_put (h : k.kstack p = none) : loose I (k.setStack p (some f)) = f ::ₘ loose I k := by
  have := loose_take (I := I) (k := k.setStack p (some f)) (p := p) (update_self p _ _)
  rw [this]
  congr 1
  simp only [setStack, update_idem, ← h, update_eq_self]

theorem Equipped.congr (h : Equipped a k V)
    (hu : ∀ p, (a'.task p).state = .unused ↔ (a.task p).state = .unused)
    (hk : k'.kstack = k.kstack) : Equipped a' k' V :=
  ⟨fun p => (h.space_iff p).trans (hu p).symm, fun p => hk ▸ (h.stack_iff p).trans (hu p).symm⟩

theorem Equipped.space (h : Equipped a k V) (hp : (a.task p).state ≠ .unused) :
    ∃ sp, V p = some sp :=
  Option.ne_none_iff_exists'.mp fun hn => hp ((h.space_iff p).mp hn)

theorem Equipped.stack (h : Equipped a k V) (hp : (a.task p).state ≠ .unused) :
    ∃ f, k.kstack p = some f :=
  Option.ne_none_iff_exists'.mp fun hn => hp ((h.stack_iff p).mp hn)

theorem update_none_some {α : Type} {u : PId → Option α} {q x : PId} {b : α}
    (h : update u x none q = some b) : q ≠ x ∧ u q = some b := by
  by_cases e : q = x
  · rw [e, update_self] at h
    cases h
  · rw [update_of_ne e] at h
    exact ⟨e, h⟩

theorem update_some {α : Type} {q x : PId} {b b' : α}
    (h : update (fun _ => none) x (some b) q = some b') : x = q ∧ b = b' := by
  by_cases e : q = x
  · rw [e, update_self] at h
    exact ⟨e.symm, Option.some.inj h⟩
  · rw [update_of_ne e] at h
    cases h

/-- Code that leaves the address spaces and the loose pages as they are. -/
theorem Ledger.setMem (h : Ledger I k K V) {m : Mem} {s : Sched}
    (hm : Heap I.managed m (spaces K V) (loose I k)) :
    Ledger I { k with mem := m, sched := s } K V :=
  ⟨h.kdir, h.dir, h.below, h.sz_le, h.pipe_mem, hm⟩

theorem Balanced.setMem (hsim : Sim k.sched a) (hi : Inv True a) (hl : Ledger I k K V)
    (heq : Equipped a k V) {m : Mem} (hm : Heap I.managed m (spaces K V) (loose I k)) :
    Balanced I { k with mem := m } :=
  ⟨a, K, V, hsim, hi, hl.setMem hm, heq.congr (fun _ => Iff.rfl) rfl⟩

/-! ## Running code on a part of the state -/

theorem wp_onMem {α : Type} {x : MemM α} {Q : α → Kernel → Prop} {E : Stop → Kernel → Prop} :
    wp (onMem x) Q E k ↔
      wp x (fun r m => Q r { k with mem := m }) (fun e m => E e { k with mem := m }) k.mem :=
      wp_zoom

theorem wp_onSched {α : Type} {x : SchedM α} {Q : α → Kernel → Prop} {E : Stop → Kernel → Prop} :
    wp (onSched x) Q E k ↔
      wp x (fun r s => Q r { k with sched := s }) (fun e s => E e { k with sched := s }) k.sched :=
  wp_zoom

/-! ## Operations -/

/-- A step of the scheduler without a memory half leaves the free slots free. -/
theorem plain_unused {s s' : Sched} {call : Call} (hc : isPlain call) (hs : CallStep s call s')
    (h : Sim s a) (hi : Inv True a) : ∃ a', Sim s' a' ∧ Inv True a' ∧
      ∀ p, (a'.task p).state = .unused ↔ (a.task p).state = .unused := by
  cases call with
  | act x =>
    obtain ⟨a', h', hi', hids⟩ := Xv6Rework.Step.spec hs h hi
    refine ⟨a', h', hi', fun p => ?_⟩
    cases x with
    | fork c _ _ => cases hc
    | wait c => cases hc
    | exit c =>
      obtain ⟨q, hq, hend⟩ := hids
      by_cases e : p = q
      · have hr : (a.task q).state = .running := (hi.running_iff q).mpr ⟨c, hq⟩
        simp [e, hr, hend.zombie]
      · exact (hend.same p e).unused_iff
    | _ => exact (Abs.SameIds.same hids p).unused_iff
  | kill c pid =>
    obtain ⟨r, t, hx, hs⟩ := bind_eq_ok (of_myproc_then hs)
    cases hs
    obtain ⟨_, _, a', hk, h', hi', ha'⟩ := h.kill hi pid
    obtain rfl := (Prod.mk.inj (hk.symm.trans hx)).2
    refine ⟨a', h', hi', fun p => ?_⟩
    subst ha'
    split
    · exact Iff.rfl
    · next q _ =>
      rw [Abs.setTask_task]
      split
      · next e => subst e; by_cases hs : (a.task p).state = .sleeping <;> simp [Task.kill, hs]
      · exact Iff.rfl
  | sig c mask pid => cases hc

theorem wp_sched (h : Balanced I k) {call : Call} (hc : isPlain call) :
    wp (onSched call.exec) (fun _ k' => Balanced I k') NoRemap k := by
  obtain ⟨a, K, V, hsim, hi, hl, heq⟩ := h
  rw [wp_onSched]
  have hpanics := call.exec_panics.wp (show "remap" ∉ schedPanics by decide) k.sched
  refine hpanics.mono (fun _ s hs => ?_) fun _ _ he => he
  obtain ⟨a', h', hi', hu⟩ := plain_unused hc hs hsim hi
  exact ⟨a', K, V, h', hi', hl.setMem hl.heap, heq.congr hu rfl⟩

theorem wp_fork (h : Balanced I k) (hp : k.sched.runningOn c = some p) :
    wp (fork I p) (fun _ k' => Balanced I k') NoRemap k := by
  obtain ⟨a, K, V, hsim, hi, hl, heq⟩ := h
  rw [hsim.env_eq] at hp
  have hrun : (a.task p).state = .running := (hi.running_iff p).mpr ⟨c, hp⟩
  simp only [fork, wp_bind, wp_gets, hsim.freeSlot_eq]
  rcases hnp : a.freeSlot with _ | np
  · obtain ⟨r, s', hs', a', h', hi', -, hids⟩ := fork_leads hsim hi hp false false
    rw [hnp] at hids
    rw [wp_onSched, wp_of_ok hs']
    exact ⟨a', K, V, h', hi', hl.setMem hl.heap, heq.congr (fun q => (hids.same q).unused_iff) rfl⟩
  have hun := Abs.freeSlot_unused hnp
  have hne : np ≠ p := by rintro rfl; rw [hun] at hrun; cases hrun
  have hstack : k.kstack np = none := (heq.stack_iff np).mpr hun
  have hspace : V np = none := (heq.space_iff np).mpr hun
  -- the slot is given back
  have hfail : ∀ (kalloc : Bool) (k1 : Kernel), k1.sched = k.sched → k1.kstack = k.kstack →
      Ledger I k1 K V → wp (onSched (Xv6Rework.fork p kalloc false)) (fun _ k' => Balanced I k')
        NoRemap k1 := by
    intro kalloc k1 hs1 hk1 hl1
    obtain ⟨r, s', hs', a', h', hi', -, hids⟩ := fork_leads hsim hi hp kalloc false
    rw [hnp] at hids
    rw [wp_onSched, hs1, wp_of_ok hs']
    refine ⟨a', K, V, h', hi', hl1.setMem hl1.heap, heq.congr (fun q => ?_) hk1⟩
    by_cases e : q = np
    · have ho := hids.outcome
      rw [Bool.and_false, if_neg Bool.false_ne_true] at ho
      simp [e, ho.1, hun]
    · exact (hids.same q e).unused_iff
  simp only [wp_bind, wp_onMem]
  refine wp_kalloc hl.heap (fun m1 _ _ h1 => ?_) fun f m1 _ _ h1 => ?_
  · have hsame : ({ k with mem := m1 } : Kernel).setStack np none = { k with mem := m1 } := by
      simp only [setStack, ← hstack, update_eq_self]
    rw [wp_update, hsame]
    exact hfail false _ rfl rfl (hl.setMem (s := k.sched) h1)
  obtain ⟨sp, hsp⟩ := heq.space (p := p) (by simp [hrun])
  have hd := hl.dir p sp hsp
  simp only [wp_update, setStack, hd, deref, wp_pure, wp_bind, wp_gets, wp_onMem]
  have htake := spaces_take (K := K) hsp
  rw [htake] at h1
  refine wp_copyuvm subset_rfl (hl.sz_le p sp hsp) h1 (fun _ _ _ _ => by simp [NoRemap])
    (fun m2 h2 => ?_) fun sp0 sp' m2 hmaps2 hcopy2 h2 => ?_
  · -- `copyuvm` failed
    rw [← htake] at h2
    simp only [wp_bind, wp_onMem, wp_update]
    have hback : update (update k.kstack np (some f)) np none = k.kstack := by
      rw [update_idem, ← hstack, update_eq_self]
    refine wp_kfree h2 subset_rfl fun m3 _ h3 => hfail true _ rfl hback ⟨hl.kdir, ?_, hl.below,
      hl.sz_le, hl.pipe_mem, ?_⟩
    · intro q sq hq
      have hqn : q ≠ np := by rintro rfl; rw [hspace] at hq; cases hq
      exact (update_of_ne hqn _ _).trans (hl.dir q sq hq)
    · refine Eq.subst (motive := Heap I.managed m3 (spaces K V)) ?_ h3
      rw [loose, loose]
      exact congrArg (held _ · + _ + _) hback.symm
  · -- the child gets its memory
    have hb2 := hcopy2.below hmaps2
    rw [← htake] at h2
    obtain ⟨r, s', hs', a', h', hi', -, hids⟩ := fork_leads hsim hi hp true true
    rw [hnp] at hids
    simp only [wp_bind, wp_update]
    refine wp_onSched.mpr ((wp_of_ok hs').mpr
      ⟨a', K, update V np (some sp'), h', hi', ⟨hl.kdir, ?_, ?_, ?_, hl.pipe_mem, ?_⟩, ?_⟩)
    · intro q sq hq
      by_cases e : q = np
      · subst e
        rw [update_self] at hq
        cases hq
        exact update_self _ _ _
      · rw [update_of_ne e] at hq
        exact (update_of_ne e _ _).trans (hl.dir q sq hq)
    · intro q sq hq
      by_cases e : q = np
      · subst e
        rw [update_self] at hq
        cases hq
        simpa [setSz] using hb2
      · rw [update_of_ne e] at hq
        simpa [setSz, setPgdir, update_of_ne e] using hl.below q sq hq
    · intro q sq hq
      by_cases e : q = np
      · subst e
        simpa [setSz] using hl.sz_le p sp hsp
      · rw [update_of_ne e] at hq
        simpa [setSz, setPgdir, update_of_ne e] using hl.sz_le q sq hq
    · rw [spaces_put hspace]
      rw [← loose_put (k := k) hstack] at h2
      exact h2
    · have ho := hids.outcome
      simp only [Bool.and_self, if_true] at ho
      refine ⟨fun q => ?_, fun q => ?_⟩ <;> by_cases e : q = np
      · simp [e, ho.1]
      · rw [update_of_ne e, heq.space_iff, (hids.same q e).unused_iff]
      · simp [e, ho.1, setSz, setPgdir]
      · simp only [setSz, setPgdir, update_of_ne e]
        rw [heq.stack_iff, (hids.same q e).unused_iff]

/-- `wait` gives back the stack and the address space of the child it reaps. -/
theorem wp_wait (h : Balanced I k) (hp : k.sched.runningOn c = some p) :
    wp (wait I c p) (fun _ k' => Balanced I k') NoRemap k := by
  obtain ⟨a, K, V, hsim, hi, hl, heq⟩ := h
  rw [hsim.env_eq] at hp
  obtain ⟨r, s', hs', a', h', hi', hids⟩ := wait_leads hsim hi hp
  simp only [wait, wp_bind, wp_gets, hsim.zombieChild_eq]
  rcases hx : a.zombieChild p with _ | x
  · rw [hx] at hids
    rw [wp_onSched, wp_of_ok hs']
    exact ⟨a', K, V, h', hi', hl.setMem hl.heap, heq.congr (fun q => (hids.same q).unused_iff) rfl⟩
  rw [hx] at hids
  have hz : (a.task x).state = .zombie := by
    have := List.find?_some hx
    simp only [Bool.and_eq_true, decide_eq_true_eq] at this
    exact this.2
  obtain ⟨f, hf⟩ := heq.stack (p := x) (by simp [hz])
  obtain ⟨sp, hsp⟩ := heq.space (p := x) (by simp [hz])
  have hheap := hl.heap
  rw [loose_take hf, spaces_take hsp] at hheap
  simp only [hf, wp_onMem, wp_update, wp_bind, wp_gets]
  refine wp_kfree hheap subset_rfl fun m1 _ h1 => ?_
  simp only [setStack, hl.dir x sp hsp]
  refine wp_freevm subset_rfl h1 fun m2 h2 => wp_onSched.mpr ((wp_of_ok hs').mpr
    ⟨a', K, update V x none, h', hi', ⟨hl.kdir, ?_, ?_, ?_, hl.pipe_mem, h2⟩, ?_⟩)
  · intro q sq hq
    exact hl.dir q sq (update_none_some hq).2
  · intro q sq hq
    exact hl.below q sq (update_none_some hq).2
  · intro q sq hq
    exact hl.sz_le q sq (update_none_some hq).2
  · refine ⟨fun q => ?_, fun q => ?_⟩ <;> by_cases e : q = x
    · simp [e, hids.unused]
    · rw [update_of_ne e, heq.space_iff, (hids.same q e).unused_iff]
    · simp [e, hids.unused]
    · simp only [update_of_ne e]
      rw [heq.stack_iff, (hids.same q e).unused_iff]

/-- The address space of the process `p` has changed. -/
theorem Balanced.setSpace (hsim : Sim k.sched a) (hi : Inv True a) (hl : Ledger I k K V)
    (heq : Equipped a k V) (hsp : V p = some sp) {sp' : Space} {m : Mem} {d : PId → Option Nat}
    {sz : PId → Nat} (hd : d p = some sp'.dir) (hd' : ∀ q, q ≠ p → d q = k.pgdir q)
    (hsz : sz p ≤ KERNBASE) (hb : sp'.Below (sz p)) (hsz' : ∀ q, q ≠ p → sz q = k.sz q)
    (hm : Heap I.managed m (sp' ::ₘ spaces K (update V p none)) (loose I k)) :
    Balanced I { k with mem := m, pgdir := d, sz := sz } := by
  refine ⟨a, K, update V p (some sp'), hsim, hi,
    ⟨hl.kdir, fun q sq hq => ?_, fun q sq hq => ?_, fun q sq hq => ?_, hl.pipe_mem, ?_⟩,
    fun q => ?_, heq.stack_iff⟩
  · by_cases e : q = p
    · subst e
      rw [update_self] at hq
      cases hq
      exact hd
    · rw [update_of_ne e] at hq
      exact (hd' q e).trans (hl.dir q sq hq)
  · by_cases e : q = p
    · subst e
      rw [update_self] at hq
      cases hq
      exact hb
    · rw [update_of_ne e] at hq
      simpa only [hsz' q e] using hl.below q sq hq
  · by_cases e : q = p
    · subst e
      exact hsz
    · rw [update_of_ne e] at hq
      simpa only [hsz' q e] using hl.sz_le q sq hq
  · rw [spaces_set]
    exact hm
  · by_cases e : q = p
    · subst e
      simp [← heq.space_iff, hsp]
    · rw [update_of_ne e, heq.space_iff]

theorem wp_growproc (h : Balanced I k) (hp : k.sched.runningOn c = some p) (n : Int) :
    wp (growproc I p n) (fun _ k' => Balanced I k') NoRemap k := by
  obtain ⟨a, K, V, hsim, hi, hl, heq⟩ := h
  rw [hsim.env_eq] at hp
  have hrun : (a.task p).state = .running := (hi.running_iff p).mpr ⟨c, hp⟩
  obtain ⟨sp, hsp⟩ := heq.space (p := p) (by simp [hrun])
  have hd := hl.dir p sp hsp
  have hb := hl.below p sp hsp
  have hle := hl.sz_le p sp hsp
  have hheap := hl.heap
  rw [spaces_take hsp] at hheap
  -- a new address space of the old or a new size
  have hset : ∀ (m : Mem) (sp' : Space), sp'.dir = sp.dir → sp'.Below (k.sz p) →
      Heap I.managed m (sp' ::ₘ spaces K (update V p none)) (loose I k) →
      Balanced I { k with mem := m } := fun m sp' hd' hb' hm =>
    Balanced.setSpace hsim hi hl heq hsp (hd' ▸ hd) (fun _ _ => rfl) hle hb' (fun _ _ => rfl) hm
  have hset' : ∀ (m : Mem) (sp' : Space) (sz : Nat), sp'.dir = sp.dir → sz ≤ KERNBASE →
      sp'.Below sz → Heap I.managed m (sp' ::ₘ spaces K (update V p none)) (loose I k) →
      Balanced I ({ k with mem := m }.setSz p sz) := fun m sp' sz hd' hsz hb' hm =>
    Balanced.setSpace hsim hi hl heq hsp (hd' ▸ hd) (fun _ _ => rfl) (by simpa using hsz)
      (by simpa using hb') (fun q hq => update_of_ne hq _ _) hm
  simp only [growproc, wp_bind, wp_gets, hd, deref, wp_pure, wp_ite, wp_onMem, wp_update]
  refine ⟨fun _ => ?_, fun _ => ⟨fun _ => ?_, fun _ => ⟨a, K, V, hsim, hi, hl, heq⟩⟩⟩
  · refine (wp_allocuvm_below subset_rfl hheap hb hle).mono ?_ fun _ _ h => h
    rintro r m' ⟨hr, sp', hd', hb', h'⟩
    exact ⟨fun h0 => hset m' sp' hd' (by rwa [if_pos h0] at hb') h', fun h0 =>
      hset' m' sp' r hd' hr (by rwa [if_neg h0] at hb') h'⟩
  · refine wp_deallocuvm_below subset_rfl hle hheap hb fun sp' m' hd' hb' h' =>
      ⟨fun _ => hset m' sp' hd' (hb'.mono (Nat.min_le_left _ _)) h', fun _ =>
        hset' m' sp' _ hd' ((Nat.min_le_left _ _).trans hle) hb' h'⟩

/-! ### `exec` -/

section

variable {F : Finset Nat} {m : Mem} {S : Multiset Space} {lo : Multiset Nat}
  {E : Stop → Mem → Prop} (hE : ∀ e m, e ≠ .panic "remap" → E e m)

include hE

/-- `loaduvm` writes to user pages only. -/
theorem wp_loaduvm (d : Nat) (ph : ProgHdr) : wp (loaduvm d ph) (fun _ m' => m' = m) E m := by
  have hloop : ∀ n i, wp (loadLoop d ph n i) (fun _ m' => m' = m) E m := by
    intro n
    induction n with
    | zero => exact fun _ => hE _ _ (by rintro ⟨⟩)
    | succ n ih =>
      intro i
      simp only [loadLoop, wp_ite, wp_bind, wp_of_ok (walkpgdir_read d (ph.vaddr + i)), wp_pure]
      refine ⟨fun _ => ?_, fun _ => trivial⟩
      cases m.ram.table d (PDX (ph.vaddr + i)) with
      | none => exact hE _ _ (by simp)
      | some t =>
        simp only [Option.map_some, wp_ite, wp_pure]
        exact ⟨fun _ => ih _, fun _ => trivial⟩
  simp only [loaduvm, wp_ite, wp_bind, wp_halt]
  exact ⟨fun _ => hE _ _ (by simp), fun _ => hloop _ 0⟩

/-- Loading the segments leaves an address space that ends where `exec` thinks it
does. -/
theorem wp_loadLoopExec (hF : F ⊆ I.managed) {l : List (Option ProgHdr)} {sz : Nat} {sp : Space}
    (h : Heap F m (sp ::ₘ S) lo) (hb : sp.Below sz) (hsz : sz ≤ KERNBASE) :
    wp (loadLoopExec I sp.dir l sz) (fun r m' => ∃ sp', sp'.dir = sp.dir ∧
      Heap F m' (sp' ::ₘ S) lo ∧ ∀ sz', r = some sz' → sp'.Below sz' ∧ sz' ≤ KERNBASE) E m := by
  induction l generalizing m sp sz with
  | nil => exact ⟨sp, rfl, h, by rintro _ ⟨⟩; exact ⟨hb, hsz⟩⟩
  | cons ph l ih =>
    cases ph with
    | none => exact ⟨sp, rfl, h, (by rintro _ ⟨⟩)⟩
    | some ph =>
      simp only [loadLoopExec, wp_ite, wp_bind, wp_pure]
      refine ⟨fun _ => ih h hb hsz, fun _ => ⟨fun _ => ⟨sp, rfl, h, (by rintro _ ⟨⟩)⟩, fun _ =>
        ⟨fun _ => ⟨sp, rfl, h, (by rintro _ ⟨⟩)⟩, fun _ => ?_⟩⟩⟩
      refine (wp_allocuvm_below hF h hb hsz).mono ?_ fun _ _ h => h
      rintro r m1 ⟨hr, sp1, hd1, hb1, h1⟩
      rw [← hd1]
      refine ⟨fun _ => ⟨sp1, rfl, h1, (by rintro _ ⟨⟩)⟩,
        fun h0 => ⟨fun _ => ⟨sp1, rfl, h1, (by rintro _ ⟨⟩)⟩, fun _ => ?_⟩⟩
      rw [if_neg h0] at hb1
      refine (wp_loaduvm hE sp1.dir ph).mono ?_ fun _ _ h => h
      rintro _ _ rfl
      exact ⟨fun _ => ih h1 hb1 hr, fun _ => ⟨sp1, rfl, h1, (by rintro _ ⟨⟩)⟩⟩

/-- The new address space of `exec`. -/
theorem wp_buildImage (hF : F ⊆ I.managed) (h : Heap F m S lo) (img : Image)
    {Q : Option (Nat × Nat) → Mem → Prop} (hnone : ∀ m', Heap F m' S lo → Q none m')
    (hsome : ∀ sp sz m', sp.Below sz → sz ≤ KERNBASE → Heap F m' (sp ::ₘ S) lo →
      Q (some (sp.dir, sz)) m') : wp (buildImage I img) Q E m := by
  simp only [buildImage, wp_bind]
  refine wp_setupkvm hF h (fun m' _ => hnone m') fun sp m1 hmaps _ h1 => ?_
  simp only [wp_bind]
  refine (wp_loadLoopExec hE hF h1 ((bare_of_kernelMaps hmaps).below 0) (Nat.zero_le _)).mono ?_
    fun _ _ h => h
  rintro r m2 ⟨sp2, hd2, h2, hsz⟩
  rw [← hd2]
  cases r with
  | none =>
    simp only [wp_bind, wp_pure]
    exact wp_freevm hF h2 hnone
  | some sz =>
    obtain ⟨hb, hle⟩ := hsz sz rfl
    have hup : sz ≤ PGROUNDUP sz := by simp only [PGROUNDUP, PGSIZE]; omega
    have hup' : PGROUNDUP sz ≤ KERNBASE := by
      simp only [PGROUNDUP, PGSIZE, KERNBASE, KERNPAGE] at hle ⊢; omega
    simp only [wp_bind, wp_ite, wp_pure]
    refine (wp_allocuvm_below hF h2 (hb.mono hup) hup').mono ?_ fun _ _ h => h
    rintro r m3 ⟨hr, sp3, hd3, hb3, h3⟩
    rw [← hd3]
    refine ⟨fun _ => wp_freevm hF h3 hnone, fun h0 => wp_clearpteu h3 rfl
      (fun _ => hE _ _ (by simp)) fun sp4 m4 hc h4 => ?_⟩
    rw [← hc.dir_eq]
    refine ⟨fun _ => ?_, fun _ => wp_freevm hF h4 hnone⟩
    rw [if_neg h0] at hb3
    refine hsome sp4 r m4 (hb3.congr fun w hw => ?_) hr h4
    rw [hc.maps_eq, update_apply]
    split
    next e => rw [← e, hw]; rfl
    next => exact hw

end

theorem wp_exec (h : Balanced I k) (hp : k.sched.runningOn c = some p) (img : Image) :
    wp (exec I p img) (fun _ k' => Balanced I k') NoRemap k := by
  have hsame := h
  obtain ⟨a, K, V, hsim, hi, hl, heq⟩ := h
  rw [hsim.env_eq] at hp
  have hrun : (a.task p).state = .running := (hi.running_iff p).mpr ⟨c, hp⟩
  obtain ⟨sp, hsp⟩ := heq.space (p := p) (by simp [hrun])
  have hd := hl.dir p sp hsp
  simp only [exec, wp_ite, wp_pure, wp_halt, wp_bind, wp_onMem]
  refine ⟨fun _ => hsame, fun _ => ⟨fun _ => by simp [NoRemap], fun _ => ?_⟩⟩
  refine wp_buildImage (fun e m he => he) subset_rfl hl.heap img (fun m1 h1 => ?_)
    fun sp1 sz m1 hb1 hsz h1 => ?_
  · exact Balanced.setMem hsim hi hl heq h1
  · simp only [wp_bind, wp_gets, wp_update, wp_onMem, wp_pure, hd, setPgdir, setSz]
    rw [spaces_take hsp, cons_swap] at h1
    refine wp_freevm subset_rfl h1 fun m2 h2 => ?_
    exact Balanced.setSpace hsim hi hl heq hsp (by simp) (fun q hq => update_of_ne hq _ _)
      (by simpa using hsz) (by simpa using hb1) (fun q hq => update_of_ne hq _ _) h2

/-! ### Pipes -/

/-- A pipe has come or gone. -/
theorem Balanced.setPipe (hsim : Sim k.sched a) (hi : Inv True a) (hl : Ledger I k K V)
    (heq : Equipped a k V) {m : Mem} {pipe : Nat → Option PipeEnds}
    (hmem : ∀ f, pipe f ≠ none → f ∈ I.managed)
    (hm : Heap I.managed m (spaces K V) (loose I { k with pipe := pipe })) :
    Balanced I { k with mem := m, pipe := pipe } :=
  ⟨a, K, V, hsim, hi, ⟨hl.kdir, hl.dir, hl.below, hl.sz_le, hmem, hm⟩, heq.space_iff, heq.stack_iff⟩

theorem wp_pipealloc (h : Balanced I k) :
    wp pipealloc (fun _ k' => Balanced I k') NoRemap k := by
  obtain ⟨a, K, V, hsim, hi, hl, heq⟩ := h
  simp only [pipealloc, wp_bind, wp_onMem]
  refine wp_kalloc hl.heap (fun m1 _ _ h1 => ?_) fun f m1 _ _ h1 => ?_
  · exact Balanced.setMem hsim hi hl heq h1
  have hfF := h1.mem_of_loose (mem_cons_self f _)
  -- the page is not that of a pipe
  have hfree : k.pipe f = none := by
    by_contra hn
    obtain ⟨e, he⟩ := Option.ne_none_iff_exists'.mp hn
    have hnd := (nodup_add.mp (nodup_add.mp h1.nodup).1).2.1
    refine (nodup_cons.mp hnd).1 ?_
    simp only [loose, mem_add]
    exact .inr (mem_held.mpr ⟨f, hfF, by simp [pipePage, he]⟩)
  simp only [wp_bind, wp_update, wp_pure]
  refine Balanced.setPipe hsim hi hl heq (fun g hg => ?_) ?_
  · by_cases e : g = f
    · exact e ▸ hfF
    · exact hl.pipe_mem g (by rwa [update_of_ne e] at hg)
  · have hput : loose I { k with pipe := update k.pipe f (some ⟨true, true⟩) } =
        f ::ₘ loose I k := by
      have hpage : ({ k with pipe := update k.pipe f (some ⟨true, true⟩) } :
          Kernel).pipePage = update k.pipePage f (some f) := by
        funext g
        by_cases e : g = f
        · subst e; simp [pipePage]
        · simp [pipePage, update_of_ne e]
      rw [loose, loose, hpage, held_put hfF (by simp [pipePage, hfree]), add_cons]
    rw [hput]
    exact h1

theorem wp_pipeclose (h : Balanced I k) (f : Nat) (writable : Bool) :
    wp (pipeclose I f writable) (fun _ k' => Balanced I k') NoRemap k := by
  obtain ⟨a, K, V, hsim, hi, hl, heq⟩ := h
  simp only [pipeclose, wp_bind, wp_gets]
  rcases he : k.pipe f with _ | e
  · simp [NoRemap]
  have hfF := hl.pipe_mem f (by simp [he])
  have hpage : ∀ x : Option PipeEnds, ({ k with pipe := update k.pipe f x } :
      Kernel).pipePage = update k.pipePage f (x.map fun _ => f) := by
    intro x
    funext g
    by_cases e : g = f
    · subst e; simp [pipePage]
    · simp [pipePage, update_of_ne e]
  have hmem : ∀ x, ∀ g, update k.pipe f x g ≠ none → g ∈ I.managed := by
    intro x g hg
    by_cases e : g = f
    · exact e ▸ hfF
    · exact hl.pipe_mem g (by rwa [update_of_ne e] at hg)
  have hself : k.pipePage f = some f := by simp [pipePage, he]
  simp only [wp_ite, wp_bind, wp_update, wp_onMem]
  refine ⟨fun _ => ?_, fun _ => ?_⟩
  · have hheap := hl.heap
    rw [loose, held_take hfF hself, add_cons] at hheap
    refine wp_kfree hheap subset_rfl fun m1 _ h1 => Balanced.setPipe hsim hi hl heq (hmem none) ?_
    rw [loose, hpage]
    exact h1
  · refine Balanced.setPipe hsim hi hl heq (hmem _) ?_
    rw [loose, hpage, Option.map_some, ← hself, update_eq_self]
    exact hl.heap

/-! ## The machine -/

theorem wp_myproc {Q : PId → Kernel → Prop} (hQ : ∀ p, k.sched.runningOn c = some p → Q p k) :
    wp (onSched (myproc c)) Q NoRemap k := by
  simp only [wp_onSched, myproc, wp_bind, wp_gets]
  rcases hp : k.sched.runningOn c with _ | p
  · simp [NoRemap]
  · exact hQ p hp

theorem wp_code (h : Balanced I k) (op : Op) :
    wp (op.code I) (fun _ k' => Balanced I k') NoRemap k := by
  cases op with
  | sched call =>
    simp only [Op.code]
    split
    · next hc => exact wp_sched h hc
    · simp [NoRemap]
  | fork c =>
    simp only [Op.code, wp_bind, wp_pure]
    exact wp_myproc fun p hp => wp_fork h hp
  | wait c =>
    simp only [Op.code, wp_bind, wp_pure]
    exact wp_myproc fun p hp => wp_wait h hp
  | sbrk c n =>
    simp only [Op.code, wp_bind, wp_pure]
    exact wp_myproc fun p hp => wp_growproc h hp n
  | exec c img =>
    simp only [Op.code, wp_bind, wp_pure]
    exact wp_myproc fun p hp => wp_exec h hp img
  | pipe c =>
    simp only [Op.code, wp_bind, wp_pure]
    exact wp_myproc fun _ _ => wp_pipealloc h
  | pipeclose c f writable =>
    simp only [Op.code, wp_bind]
    exact wp_myproc fun _ _ => wp_pipeclose h f writable

/-- Every operation keeps the ledger, and none ends in a remap. -/
theorem wp_perform (h : Balanced I k) (op : Op) (deny : List Bool) :
    wp (perform I op deny) (fun _ k' => Balanced I k') NoRemap k := by
  obtain ⟨a, K, V, hsim, hi, hl, heq⟩ := h
  simp only [perform, wp_bind, wp_update]
  exact wp_code (Balanced.setMem (m := { k.mem with deny := deny }) hsim hi hl heq
    (hl.heap.of_ram rfl rfl)) op

theorem Step.balanced {x : Op × List Bool} (hs : Step I k x k') (h : Balanced I k) :
    Balanced I k' :=
  (wp_of_ok hs).mp (wp_perform h x.1 x.2)

/-! ## Start-up -/

section

variable {m : Mem} {S : Multiset Space} {lo : Multiset Nat} {E : Stop → Mem → Prop}

/-- `freerange` hands frames over to the allocator. -/
theorem wp_freerange {x y : Nat} (hx : I.first ≤ x) (hxy : x ≤ y) (hy : y ≤ I.phystop)
    (h : Heap (.Ico I.first x) m S lo) :
    wp (freerange I x y) (fun _ m' => Heap (.Ico I.first y) m' S lo) E m := by
  obtain ⟨n, rfl⟩ := Nat.exists_eq_add_of_le hxy
  rw [freerange, Nat.add_sub_cancel_left]
  clear hxy
  induction n generalizing x m with
  | zero => exact h
  | succ n ih =>
    have hnew : Heap (.Ico I.first (x + 1)) { m.setPage x junk with
        freelist := x :: m.freelist } S lo := by
      rw [show Finset.Ico I.first (x + 1) = insert x (Finset.Ico I.first x) by
        ext i; simp only [Finset.mem_Ico, Finset.mem_insert]; omega]
      exact h.add (by simp) _
    simp only [List.range'_succ, List.forM, wp_bind, kfree, wp_ite, wp_halt, wp_update]
    refine ⟨fun hn => by omega, fun _ => ?_⟩
    have hrest := ih (x := x + 1) (by omega) hnew (by omega)
    rwa [Nat.add_right_comm] at hrest

end

/-- The ledger while the kernel starts: no process has memory. -/
structure Starting (I : Layout) (F : Finset Nat) (k : Kernel) (K : Option Space) : Prop where
  kdir : K.map Space.dir = k.kpgdir
  kstack : ∀ p, k.kstack p = none
  pipe : ∀ f, k.pipe f = none
  heap : Heap F k.mem (K.elim 0 ({·})) (k.cpuStack : Multiset Nat)

theorem wp_startothers {E : Stop → Kernel → Prop} (hE : ∀ k, E (.panic "PAGE FAULT") k)
    {F : Finset Nat} (h : Starting I F k K) (n : Nat) :
    wp (startothers n) (fun _ k' => Starting I F k' K ∧ k'.sched = k.sched) E k := by
  induction n generalizing k with
  | zero => exact ⟨h, rfl⟩
  | succ n ih =>
    simp only [startothers, wp_bind, wp_onMem]
    refine wp_kalloc h.heap (fun _ _ _ _ => hE _) fun f m1 _ _ h1 => ?_
    exact ih ⟨h.kdir, h.kstack, h.pipe, h1⟩

theorem wp_kvmalloc {E : Stop → Kernel → Prop} {F : Finset Nat} (hF : F ⊆ I.managed)
    (h : Starting I F k none) :
    wp (kvmalloc I) (fun _ k' => (∃ K, Starting I F k' K) ∧ k'.sched = k.sched) E k := by
  simp only [kvmalloc, wp_bind, wp_onMem, wp_update]
  refine wp_setupkvm hF h.heap (fun m1 _ h1 => ?_) fun sp m1 _ _ h1 => ?_
  · exact ⟨⟨none, rfl, h.kstack, h.pipe, h1⟩, trivial⟩
  · exact ⟨⟨some sp, rfl, h.kstack, h.pipe, h1⟩, trivial⟩

/-- The first process has no page. -/
def Lost (k : Kernel) : Prop :=
  ∀ p d, k.sched.initproc = some p → k.pgdir p = some d → k.mem.ram.pte d 0 = none

/-- `userinit` sets the first process up, or loses its page. -/
theorem wp_userinit {ncpu : Nat} {initcode : List UInt8} (hs : k.sched = Sched.boot ncpu)
    (h : Starting I I.managed k K) :
    wp (userinit I initcode) (fun _ k' => Balanced I k' ∨ Lost k') NoRemap k := by
  obtain ⟨s', hs', a, hsim, hi, p, hinit, halloc⟩ := userinit_leads True ncpu
  have hp : s'.initproc = some p := by rw [hsim.env_eq, hinit]
  simp only [userinit, wp_bind, wp_onSched, hs, wp_of_ok hs', wp_gets, hp, wp_onMem]
  refine wp_kalloc h.heap (fun _ _ _ _ => by simp [NoRemap, deref]) fun f m1 _ _ h1 => ?_
  simp only [deref, wp_pure, wp_update]
  refine wp_setupkvm subset_rfl h1 (fun _ _ _ => by simp [NoRemap]) fun sp m2 hmaps _ h2 => ?_
  have hbare := bare_of_kernelMaps hmaps
  simp only [wp_bind, wp_update, wp_onMem]
  refine wp_inituvm h2 subset_rfl hbare (fun _ => by simp [NoRemap]) (fun g m3 h3 => .inr ?_)
    fun sp' m3 hd hb h3 => .inl ?_
  · intro q d hq hqd
    obtain rfl : p = q := Option.some.inj (hp.symm.trans hq)
    obtain rfl : sp.dir = d := by simpa [setSz, setPgdir, setStack] using hqd
    rw [show ∀ k1 : Kernel, (k1.setSz p PGSIZE).mem = k1.mem from fun _ => rfl]
    rw [h3.pte_maps (by decide), hbare 0 le_rfl (by simp [KERNPAGE])]
    rfl
  · have hun : ∀ q, (a.task q).state = .unused ↔ q ≠ p := by
      intro q
      by_cases e : q = p
      · have ho := halloc.outcome
        rw [if_pos rfl] at ho
        simp [e, ho.1]
      · simp only [ne_eq, e, not_false_iff, iff_true]
        exact (halloc.same q e).unused_iff.mpr rfl
    refine ⟨a, K, update (fun _ => none) p (some sp'), hsim, hi,
      ⟨h.kdir, ?_, ?_, ?_, fun g hg => absurd (h.pipe g) hg, ?_⟩, fun q => ?_, fun q => ?_⟩
    · intro q sq hq
      obtain ⟨rfl, rfl⟩ := update_some hq
      simp [setSz, setPgdir, hd]
    · intro q sq hq
      obtain ⟨rfl, rfl⟩ := update_some hq
      simpa [setSz, setPgdir] using hb
    · intro q sq hq
      obtain ⟨rfl, rfl⟩ := update_some hq
      simp [setSz, setPgdir, PGSIZE, KERNBASE, KERNPAGE]
    · rw [spaces_put rfl]
      have hsp : spaces K (fun _ => none) = K.elim 0 ({·}) := by
        rw [spaces, held_eq_zero fun _ _ => rfl, add_zero]
      have hlo : loose I { k with sched := s' } = (k.cpuStack : Multiset Nat) := by
        rw [loose, held_eq_zero fun q _ => h.kstack q,
          held_eq_zero fun g _ => by simp [pipePage, h.pipe], zero_add, add_zero]
      rw [hsp]
      rw [← hlo, ← loose_put (k := { k with sched := s' }) (p := p) (h.kstack p)] at h3
      exact h3
    · rw [hun]
      by_cases e : q = p <;> simp [e]
    · rw [hun]
      by_cases e : q = p
      · simp [e, setSz, setPgdir, setStack]
      · simp [e, setSz, setPgdir, setStack, h.kstack]

theorem Booted.balanced (h : Booted I k) : Balanced I k := by
  obtain ⟨ncpu, initcode, -, -, hmain, p, d, hinit, hdir, hpte⟩ := h
  have hinterval : ∀ {b}, b ≤ I.phystop → Finset.Ico I.first b ⊆ I.managed := fun hb =>
    Finset.Ico_subset_Ico_right hb
  have hstart : Starting I (.Ico I.first I.first) (load ncpu) none := by
    refine ⟨rfl, fun _ => rfl, fun _ => rfl, ?_, fun sp hsp => by cases hsp⟩
    simp [load]
  have hwp : wp (main I ncpu initcode) (fun _ k' => Balanced I k' ∨ Lost k') NoRemap
      (load ncpu) := by
    simp only [main, wp_bind, wp_onMem, kinit1, kinit2]
    refine (wp_freerange le_rfl I.first_le I.early_le hstart.heap).mono (fun _ m1 h1 => ?_)
      fun _ _ h => h
    refine (wp_kvmalloc (hinterval I.early_le) ⟨rfl, fun _ => rfl, fun _ => rfl, h1⟩).mono ?_
      fun _ _ h => h
    rintro _ k2 ⟨⟨K, h2⟩, hs2⟩
    refine (wp_startothers (fun _ => by simp [NoRemap]) h2 _).mono ?_ fun _ _ h => h
    rintro _ k3 ⟨h3, hs3⟩
    refine (wp_freerange I.first_le I.early_le le_rfl h3.heap).mono (fun _ m4 h4 => ?_)
      fun _ _ h => h
    exact wp_userinit (hs3.trans hs2) ⟨h3.kdir, h3.kstack, h3.pipe, h4⟩
  rcases (wp_of_ok hmain).mp hwp with h | h
  · exact h
  · exact absurd (h p d hinit hdir) hpte

theorem Reach.balanced (h : Reach (Booted I) (Step I) k) : Balanced I k := by
  induction h with
  | init h => exact h.balanced
  | step _ hs ih => exact Step.balanced hs ih

/-! ## Every frame is in one place -/

/-- The directory of a slot in use. -/
def liveDir (k : Kernel) (p : PId) : Option Nat :=
  if (k.sched.proc p).state = .unused then none else k.pgdir p

/-- The page directories: `kpgdir`, and those of the slots in use. -/
def dirs (k : Kernel) : Multiset Nat := k.kpgdir.elim 0 ({·}) + held .univ k.liveDir

/-- In how many places the frame `f` is: positions on the free list, directories,
directory entries, mappings below `KERNBASE`, stacks of processes and of processors,
and pipes. -/
def places (k : Kernel) (f : Nat) : Nat :=
  k.mem.freelist.count f +
  k.dirs.count f +
  (k.dirs.map fun d => (k.mem.ram.tables d).count f).sum +
  (k.dirs.map fun d => (k.mem.ram.maps d).count f).sum +
  (held .univ k.kstack).count f + k.cpuStack.count f +
  if k.pipe f = none then 0 else 1

theorem Ledger.liveDir_eq (hl : Ledger I k K V) (heq : Equipped a k V) (hsim : Sim k.sched a)
    (p : PId) : k.liveDir p = (V p).map Space.dir := by
  rw [liveDir, hsim.task_eq]
  split
  · next hu => rw [(heq.space_iff p).mpr hu]; rfl
  · next hu =>
    obtain ⟨sp, hsp⟩ := heq.space hu
    rw [hsp, hl.dir p sp hsp]
    rfl

theorem Ledger.dirs_eq (hl : Ledger I k K V) (heq : Equipped a k V) (hsim : Sim k.sched a) :
    k.dirs = (spaces K V).map Space.dir := by
  rw [spaces, map_add, map_held, dirs, ← hl.kdir,
    held_congr fun p _ => hl.liveDir_eq heq hsim p]
  cases K <;> simp

/-- Counting a frame in address spaces. -/
theorem count_sum_frames (m : Mem) (D : Multiset Nat) (f : Nat) :
    ((D.map m.ram.frames).sum).count f = D.count f + (D.map fun d => (m.ram.tables d).count f).sum +
      (D.map fun d => (m.ram.maps d).count f).sum := by
  induction D using Multiset.induction_on with
  | empty => simp
  | cons d D ih =>
    rw [map_cons, sum_cons, count_add, ih, Ram.frames]
    simp only [map_cons, sum_cons, count_add, count_cons]
    omega

theorem Balanced.places_eq (h : Balanced I k) (f : Nat) :
    k.places f = if f ∈ I.managed then 1 else 0 := by
  obtain ⟨a, K, V, hsim, hi, hl, heq⟩ := h
  have hsum := congrArg (count f) hl.heap.sum
  have hframes : (spaces K V).map Space.frames = k.dirs.map k.mem.ram.frames := by
    rw [hl.dirs_eq heq hsim, map_map]
    exact map_congr rfl fun sp hsp => (hl.heap.frames_eq hsp).symm
  rw [hframes, loose] at hsum
  simp only [count_add, count_sum_frames, coe_count] at hsum
  have hpipe : (held I.managed k.pipePage).count f = if k.pipe f = none then 0 else 1 := by
    rw [count_held_self fun g => by cases hg : k.pipe g <;> simp [pipePage, hg]]
    by_cases hn : k.pipe f = none
    · simp [pipePage, hn]
    · rw [if_neg hn, if_pos ⟨hl.pipe_mem f hn, by simpa [pipePage] using hn⟩]
  rw [hpipe, count_eq_of_nodup I.managed.nodup] at hsum
  rw [places]
  simp only [Finset.mem_val] at hsum
  omega

/-- A frame is mapped by one process, at one address. -/
theorem Balanced.mapped_once (h : Balanced I k) {q : PId} {d e v w : Nat}
    (hp : k.liveDir p = some d) (hq : k.liveDir q = some e) (hv : v < KERNPAGE) (hw : w < KERNPAGE)
    (hfv : k.mem.ram.pte d v = some f) (hfw : k.mem.ram.pte e w = some f) : p = q ∧ v = w := by
  obtain ⟨a, K, V, hsim, hi, hl, heq⟩ := h
  rw [hl.liveDir_eq heq hsim] at hp hq
  obtain ⟨sp, hsp, rfl⟩ := Option.map_eq_some_iff.mp hp
  obtain ⟨sq, hsq, rfl⟩ := Option.map_eq_some_iff.mp hq
  have hheap := hl.heap
  rw [spaces_take hsp] at hheap
  by_cases hpq : p = q
  · subst hpq
    cases hsp.symm.trans hsq
    exact ⟨rfl, hheap.mapped_inj hv hw hfv hfw⟩
  · refine absurd (mapped_mem_frames hw hfw)
      (hheap.other_notMem (mapped_mem_frames hv hfv) (mem_add.mpr (.inr ?_)))
    exact mem_held.mpr ⟨q, Finset.mem_univ q, by rw [update_of_ne (Ne.symm hpq), hsq]⟩

/-- In every reachable state each frame given to the allocator is in exactly one place
and no other frame is in any, no frame is mapped twice, and no operation ends in a
remap. -/
theorem frames_conserved (h : Reach (Booted I) (Step I) k) :
    (∀ f, k.places f = if I.first ≤ f ∧ f < I.phystop then 1 else 0) ∧
    (∀ p q d e v w f, k.liveDir p = some d → k.liveDir q = some e → v < KERNPAGE → w < KERNPAGE →
      k.mem.ram.pte d v = some f → k.mem.ram.pte e w = some f → p = q ∧ v = w) ∧
    ∀ op deny k', perform I op deny k ≠ (.error (.panic "remap"), k') := by
  have hb := Reach.balanced h
  refine ⟨fun f => ?_, fun p q d e v w f => hb.mapped_once, fun op deny k' hk' => ?_⟩
  · simp only [hb.places_eq, Layout.mem_managed]
  · exact (wp_of_error hk').mp (wp_perform hb op deny) rfl

/-- The small machine after `main`. -/
def tinyBoot : Kernel := (main tiny 1 [0xeb, 0xfe] (load 1)).2

theorem booted_tiny : Booted tiny tinyBoot :=
  ⟨1, _, by decide, by decide, run_eq (by decide +kernel), 0, 18, by decide +kernel⟩

/-- `init` runs, forks a child, and grows; a second `fork` finds no memory for the
child's address space. -/
def tinyRun : List (Op × List Bool) :=
  [(.sched (.act (.schedule 0)), []), (.fork 0, []), (.sbrk 0 4096, []), (.fork 0, [])]

/-- Where that leads. -/
def tinyEnd : Kernel := (tinyRun.forM (fun x => perform tiny x.1 x.2) tinyBoot).2

/-- One frame is left, the 17 there are being in one place each. -/
theorem frames_conserved_tiny : tinyEnd.mem.freelist = [3] ∧
    ∀ f, tinyEnd.places f = if 3 ≤ f ∧ f < 20 then 1 else 0 :=
  ⟨by decide +kernel,
    (frames_conserved (Reach.forM (.init booted_tiny) (run_eq (by decide +kernel)))).1⟩

end Xv6Rework.Kernel
