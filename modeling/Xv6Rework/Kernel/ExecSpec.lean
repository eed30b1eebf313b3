import Xv6Rework.Fs.Bracket
import Xv6Rework.Kernel.Args
import Xv6Rework.Kernel.Load

/-!
# `exec` as a whole

`exec` builds a second address space beside that of its caller.  If it returns -1 nothing is
left of it, and if it returns 0 the new one has taken the place of the old.

The rule for the whole call is stated once, for any way in which the file system gives access to
the file.  Three are used.  One follows the reference counts, the locks and the log, in any
state; one needs a state that has the file on its drives, and knows what is read; and one asks
nothing.
-/

namespace Xv6Rework

open Prog Vm
open Fs (MAXARG Proghdr leAt within Rest At Shows Brackets Ledger ledger ledgerOnly)

/-! ## The file system -/

namespace Fs

variable {s : Fs} {ip : Slot} {p : PId}

theorem readLoop_length {k off n : Nat} :
    wlp (readLoop ip k off n) (fun l _ => l.length ≤ n) s := by
  induction k generalizing off n s with
  | zero => simp [readLoop]
  | succ k ih =>
    simp only [readLoop, wlp_ite, wlp_bind, wlp_gets, wlp_pure]
    refine ⟨fun _ => Nat.zero_le _, fun _ _ s1 _ _ s2 _ _ s3 _ _ s4 _ => ih.mono fun l s5 hl => ?_⟩
    simp only [bytesAt, List.length_append, List.length_map, List.length_range]
    omega

/-- `readi` stores no more than it is asked for. -/
theorem readi_length {off n : UInt32} :
    wlp (readi ip off n) (fun r _ => r.2.length ≤ n.toNat) s := by
  simp only [readi, wlp_bind, wlp_gets, wlp_ite, wlp_pure]
  refine ⟨fun _ => ⟨fun _ => Nat.zero_le _, fun _ => ?_⟩,
    fun _ => ⟨fun _ => Nat.zero_le _, fun _ => ?_⟩⟩
  · have hn : (toInt32 n.toNat).toNat ≤ n.toNat := by
      have := n.toNat_lt
      rw [toInt32]
      split <;> omega
    simp only [consoleread, wlp_bind, wlp_ite, wlp_pure]
    intro _ s1 _
    refine ⟨fun _ r s2 _ _ s3 _ => ?_, fun _ _ s2 _ => Nat.zero_le _⟩
    cases r with
    | none => exact wlp_pure.2 (Nat.zero_le _)
    | some l => exact wlp_pure.2 ((List.length_take_le ..).trans hn)
  · refine readLoop_length.mono fun l s' hl => hl.trans ?_
    split
    next hlt =>
      have := Nat.mod_le (off.toNat + n.toNat) (2 ^ 32)
      rw [UInt32.toNat_add] at hlt
      omega
    next => exact le_rfl

/-- `namei` where nothing is mounted returns an inode it has got, and no other. -/
theorem wlp_namei_unmounted {c : Ledger} {path : List UInt8} {Q : Option Slot → Fs → Prop}
    (h : Shows ledgerOnly s c) (hmount : ∀ ip, c.mount ip = false)
    (ok : ∀ r s', Shows ledgerOnly s' (c.result r) → Q r s') : wlp (namei p 1 path) Q s := by
  have hl : ∀ l : List Slot, (∀ mp ∈ l, false = false ∧ c.mount mp = true) → l = [] := fun l hl =>
    List.eq_nil_iff_forall_not_mem.2 fun mp hmp => by simpa [hmount mp] using (hl mp hmp).2
  have hleave : s.leavesMount p 1 path = false := by simp [leavesMount]
  simp only [namei, nameiDev, wlp_bind, wlp_gets, wlp_ite, wlp_pure, hleave, one_ne_zero,
    Bool.false_eq_true, false_implies, not_false_eq_true, true_implies, true_and]
  refine wlp_namex h ⟨Fs.unwatched, Fs.unwatched⟩ Fs.unwatched Fs.unwatched
    (fun l s' hmp h' => ?_) fun l ip name s' hmp h' => ?_
  · rw [hl l hmp] at h'
    exact ok none s' h'
  · rw [hl l hmp] at h'
    exact ok (some ip) s' h'

/-- The path names a file with these contents. -/
def HasFile (s : Fs) (p : PId) (path data : List UInt8) : Prop :=
  ∃ D vol d i, Rest (fun _ => True) s.store.log D s.superblock vol (ledger s) s ∧
    s.Resolves D vol p 1 path d (.finds i) ∧ (vol d).Contains (s.superblock d) i data

/-- The path names a file with these contents, and no other call is in progress: there are
buffers and entries of the inode cache to spare, no inode is locked, nothing is mounted and the
log is empty. -/
structure Idle (s : Fs) (p : PId) (path data : List UInt8) : Prop where
  file : ∃ D vol d i, Rest (fun _ => False) s.store.log D s.superblock vol (ledger s) s ∧
    s.Resolves D vol p 1 path d (.finds i) ∧ (vol d).Contains (s.superblock d) i data ∧
    (ledger s).Spare d
  unlocked : ∀ ip, (s.inode ip).locked = false
  unmounted : ∀ ip, (s.inode ip).isMountPoint = false
  outstanding : s.store.log.outstanding = 0
  committing : s.store.log.committing = false
  block : s.store.log.block = []

theorem Idle.hasFile {path data : List UInt8} (h : s.Idle p path data) : s.HasFile p path data := by
  obtain ⟨D, vol, d, i, hrest, hname, hdata, -⟩ := h.file
  exact ⟨D, vol, d, i, { hrest with supplied := .inr (hrest.supplied.resolve_left id) },
    hname, hdata⟩

end Fs

/-! ## Three ways to the file -/

namespace Caller

section

variable {E : Stop → Prop} {s : Fs} {p : PId} {path data : List UInt8} {D : Drives}
  {vol : Volumes} {d i : Nat} {l : Log} {c : Ledger}

/-- Nothing is asked of the file system. -/
theorem access_any (s : Fs) (p : PId) (path : List UInt8) :
    Access (fun _ => True) p path none s (fun _ => True) fun _ _ => True where
  start := by
    refine wp_true.2 fun _ s1 _ => wp_true.2 fun r s2 _ => ?_
    cases r with
    | none => exact ⟨rfl, wp_true.2 fun _ _ _ => trivial⟩
    | some ip => exact wp_true.2 fun _ _ _ => trivial
  session ip := {
    small := Fs.unwatched
    read := fun s off n Q _ _ ok => wp_true.2 (Fs.readi_length.mono fun r s' hlen => ok r s' trivial
      hlen Fs.unwatched)
    close := fun s Q _ ok => wp_true.2 fun _ s1 _ => wp_true.2 fun _ s2 _ => ok s2 trivial }

/-- The counts, the locks, the tables and the log are followed. -/
theorem access_ledger (hmount : ∀ ip, (s.inode ip).isMountPoint = false) :
    Access (fun _ => True) p path none s
      (fun s' => Shows ledgerOnly s' (ledger s) ∧ Brackets 0 0 s s')
      (fun ip s' => Shows ledgerOnly s' (((ledger s).get ip).lock ip) ∧
        (ledger s).locked ip = false ∧ Brackets 0 1 s s') where
  start := by
    refine wp_true.2 fun _ s1 hbegin => wp_true.2 fun r s2 hnamei => ?_
    have h1 := Fs.wlp_beginOp (Q := fun _ s' => Shows ledgerOnly s' (ledger s))
      (Fs.shows_ledger (w := ledgerOnly) rfl Fs.unwatched)
      (fun _ h => h) () s1 hbegin
    have h2 := Fs.wlp_namei_unmounted (Q := fun r s' => Shows ledgerOnly s' ((ledger s).result r))
      h1 hmount (fun _ _ h => h) r s2 hnamei
    have hb : Brackets 0 1 s s2 := (Fs.beginOp_brackets s () s1 hbegin).trans
      (Fs.namei_inside s1 r s2 hnamei 0)
    cases r with
    | none =>
      refine ⟨rfl, wp_true.2 fun _ s3 hend => ⟨?_, hb.trans (Fs.endOp_brackets s2 () s3 hend)⟩⟩
      exact Fs.wlp_endOp (Q := fun _ s' => Shows ledgerOnly s' (ledger s)) h2
        (fun _ h => h) () s3 hend
    | some ip =>
      refine wp_true.2 fun _ s3 hlock => ?_
      obtain ⟨hfree, h3⟩ := Fs.wlp_ilock (Q := fun _ s' => (ledger s).locked ip = false ∧
        Shows ledgerOnly s' (((ledger s).get ip).lock ip)) h2 (fun _ _ hfree h => ⟨hfree, h⟩)
        () s3 hlock
      exact ⟨h3, hfree, hb.trans (Fs.ilock_inside s2 () s3 hlock 0)⟩
  session ip := {
    small := Fs.unwatched
    read := by
      rintro s1 off n Q ⟨h, hfree, hb⟩ - ok
      refine wp_true.2 fun r s2 hrun => ?_
      refine ok r s2 ⟨?_, hfree, hb.trans (Fs.readi_inside s1 r s2 hrun 0)⟩
        (Fs.readi_length r s2 hrun) Fs.unwatched
      exact Fs.wlp_readi (Q := fun _ s' => Shows ledgerOnly s' (((ledger s).get ip).lock ip)) h
        (fun _ _ h => h) r s2 hrun
    close := by
      rintro s1 Q ⟨h, hfree, hb⟩ ok
      refine wp_true.2 fun _ s2 hput => wp_true.2 fun _ s3 hend => ok s3 ⟨?_, ?_⟩
      · have h2 := Fs.wlp_iunlockput (Q := fun _ s' => Shows ledgerOnly s' (ledger s)) h
          Fs.unwatched hfree (fun _ h => h) () s2 hput
        exact Fs.wlp_endOp (Q := fun _ s' => Shows ledgerOnly s' (ledger s)) h2
          (fun _ h => h) () s3 hend
      · exact (hb.trans (Fs.iunlockput_inside s1 () s2 hput 0)).trans
          (Fs.endOp_brackets s2 () s3 hend) }

/-- What is on the drives is known. -/
theorem access_known (h : Rest E l D s.superblock vol c s)
    (hname : s.Resolves D vol p 1 path d (.finds i))
    (hdata : (vol d).Contains (s.superblock d) i data) (hmount : ∀ ip, c.mount ip = false)
    (hfree : E .hang ∨ ∀ ip, c.locked ip = false) (hroom : E (.panic "iget: no inodes") ∨ c.Spare d)
    (hlog : (∀ e, E e) ∨ ¬E (.panic "bget: no buffers") ∧ l.outstanding = 0 ∧
      l.committing = false ∧ l.block = []) :
    Access E p path (some data) s (fun _ => True)
      (fun ip s' => Rest E { l with outstanding := l.outstanding + 1 } D s.superblock vol
        ((c.get ip).lock ip) s' ∧ At D s' ip d i ∧ c.locked ip = false) where
  start := by
    have hbegin : E .hang ∨ s.store.log.committing = false ∧
        s.store.log.n + (s.store.log.outstanding + 1) * MAXOPBLOCKS ≤ LOGSIZE := by
      refine hlog.imp (fun h => h _) ?_
      rintro ⟨hno, hout, hcom, hblock⟩
      rw [(h.supplied.resolve_left hno).2]
      simp [hout, hcom, hblock, Log.n, MAXOPBLOCKS, LOGSIZE]
    refine h.within_beginOp hbegin fun s1 h1 hinode htables => ?_
    have hnone : ¬∃ e, c.mount e = true := by
      rintro ⟨e, he⟩
      simp [hmount e] at he
    have hname1 := hname.congr hinode (congrArg Tables.proc htables :) h1.super
    refine (h1.within_namei hname1 (fun e he => absurd ⟨e, he⟩ hnone) hfree hroom
      (absurd · hnone)).mono ?_ fun _ _ => id
    rintro _ s2 ⟨ip, rfl, h2, he2, -⟩
    exact h2.within_ilock he2 (hfree.imp_right fun h => h ip) hdata.type fun s3 hip h3 hat3 _ =>
      ⟨h3, hat3, hip⟩
  session ip := {
    small := by
      rintro _ ⟨⟩
      exact hdata.length_le.trans_lt (by decide)
    read := by
      rintro s1 off n Q ⟨h1, hat, hip⟩ hn ok
      have hn' : n.toNat < 2 ^ 31 := by
        simp only [PGSIZE] at hn
        omega
      refine h1.within_readi hat hdata hn' fun s2 h2 hat2 => ok _ s2 ⟨h2, hat2, hip⟩ ?_ ?_
      · rw [fileRead]
        split
        · exact Nat.zero_le _
        · exact List.length_take_le ..
      · rintro _ ⟨⟩
        rfl
    close := by
      rintro s1 Q ⟨h1, hat, hip⟩ ok
      rcases hlog with hE | ⟨hno, hout, hcom, hblock⟩
      · refine wp_iff.2 ⟨fun _ s2 _ => wp_iff.2 ⟨fun _ s3 _ => ok s3 trivial, fun _ _ _ => hE _⟩,
          fun _ _ _ => hE _⟩
      · refine h1.within_iunlockput hat (.inl hdata.linked) hip fun s2 h2 _ => ?_
        have hl := (h2.supplied.resolve_left hno).2
        exact h2.within_endOp (by rw [hl, hcom]) (by rw [hl, hblock]) fun s3 _ _ _ =>
          ok s3 trivial }

end

/-! ## What a call leaves -/

/-- A failed call has left the process, its files, the counts and locks of inodes, the log and
the free frames as they were. -/
structure Unchanged (w w' : Caller) : Prop where
  pgdir : w'.pgdir = w.pgdir
  sz : w'.sz = w.sz
  eip : w'.eip = w.eip
  esp : w'.esp = w.esp
  name : w'.name = w.name
  file : w'.fs.file = w.fs.file
  proc : w'.fs.proc = w.fs.proc
  ref : ∀ ip, (w'.fs.inode ip).ref = (w.fs.inode ip).ref
  locked : ∀ ip, (w'.fs.inode ip).locked = (w.fs.inode ip).locked
  outstanding : w'.fs.store.log.outstanding = w.fs.store.log.outstanding
  freelist : w'.mem.freelist.Perm w.mem.freelist

/-- The process has the segments of a program in its memory, below the guard page: their bytes
of the file, and zeros behind them. -/
def HasSegments (data : List UInt8) (w : Caller) : Prop :=
  ∀ ph ∈ segments data, ph.vaddr.toNat + ph.memsz.toNat + 2 * PGSIZE ≤ w.sz ∧
    ∀ i < ph.memsz.toNat, w.mem.ram.byte w.pgdir (ph.vaddr.toNat + i) =
      if i < ph.filesz.toNat then data[ph.off.toNat + i]? else some 0

/-- The program can be loaded, and an argument makes the kernel fault. -/
def Faults (I : Layout) (argv : List (List UInt8)) (data : List UInt8) (m : Mem) : Prop :=
  ∃ sz, Loads I data m sz ∧ Overlong I ((pageUp sz + 1) * PGSIZE) ((pageUp sz + 2) * PGSIZE) 0 argv

/-- The call has returned 0: the new address space `sp`, whose stack is the page above `g`, has
taken the place of `old`. -/
structure Replaced (I : Layout) (F : Finset Nat) (S : Multiset Space) (lo : Multiset Nat)
    (old sp : Space) (g : Nat) (mem : Memory) (argv : List (List UInt8)) (w' : Caller) : Prop where
  pgdir : w'.pgdir = sp.dir
  sz : w'.sz = (g + 2) * PGSIZE
  esp : w'.esp = w'.sz - argBytes argv
  fits : Fits argv
  heap : Heap F w'.mem (sp ::ₘ S) lo
  image : sp.Image I ((g + 2) * PGSIZE) (some g) (argMem mem ((g + 2) * PGSIZE) argv)
  free : ∀ f ∈ old.frames, f ∈ w'.mem.freelist

section

variable {E : Stop → Prop} {p : PId} {path : List UInt8} {argv : List (List UInt8)}
  {known : Option (List UInt8)} {H : Fs → Prop} {G : Slot → Fs → Prop} {I : Layout} {F : Finset Nat}
  {S : Multiset Space} {lo : Multiset Nat} {old : Space} {w : Caller} {Q : Int → Caller → Prop}

/-- What is known of the first half of `exec` when it returns. -/
def LoadedImage (I : Layout) (F : Finset Nat) (S : Multiset Space) (lo : Multiset Nat)
    (known : Option (List UInt8)) (H : Fs → Prop) (w : Caller) (r : Option (Nat × Nat × Nat))
    (w1 : Caller) : Prop :=
  ∃ s' m', w1 = w.withState s' m' ∧ H s' ∧
    match r with
    | none => Heap F m' S lo ∧
      ∀ data ∈ known, (data.length < 52 ∨ IsElf data) ∧ ∀ sz, ¬Loads I data w.mem sz
    | some (d, top, _) =>
      ∃ sp sz mem, d = sp.dir ∧ top = (pageUp sz + 2) * PGSIZE ∧ Heap F m' (sp ::ₘ S) lo ∧
      sp.Image I ((pageUp sz + 2) * PGSIZE) (some (pageUp sz)) mem ∧
      ∀ data ∈ known, Loaded data (pageUp sz * PGSIZE) mem ∧ Loads I data w.mem sz

/-- `exec`, given a way to the file. -/
theorem Access.wp_exec (ha : Access E p path known w.fs H G) (hF : F ⊆ I.managed)
    (hh : Heap F w.mem (old ::ₘ S) lo) (hold : old.dir = w.pgdir) (hargv : UserStrings argv)
    (hmagic : (∀ data ∈ known, 52 ≤ data.length ∧ ¬IsElf data) → E (.panic "bad elf magic"))
    (hfault : (∀ data ∈ known, Faults I argv data w.mem) → E (.panic "PAGE FAULT"))
    (hfail : ∀ s' m', H s' → Heap F m' (old ::ₘ S) lo →
      (∀ data ∈ known, (data.length < 52 ∨ IsElf data) ∧
      ¬Faults I argv data w.mem ∧ ∀ sz, Loads I data w.mem sz → ¬Fits argv) →
      Q (-1) (w.withState s' m'))
    (hok : ∀ w' w1 sp sp1 g mem entry, H w'.fs → Replaced I F S lo old sp g mem argv w' →
      loadImage I p path w = (.ok (some (sp.dir, (g + 2) * PGSIZE, entry)), w1) →
      Heap F w1.mem (sp1 ::ₘ old ::ₘ S) lo → sp1.Image I ((g + 2) * PGSIZE) (some g) mem →
      sp1.dir = sp.dir → (∀ data ∈ known, Loaded data (g * PGSIZE) mem ∧
      (∃ sz, Loads I data w.mem sz) ∧ ¬Faults I argv data w.mem) → Q 0 w') :
    wp (exec I p path argv) Q (fun e _ => E e) w := by
  have hload : wp (loadImage I p path) (LoadedImage I F (old ::ₘ S) lo known H w)
      (fun e _ => E e) w :=
    ha.wp_loadImage (w := w) hF hh hmagic (fun s' m' hH hh' hk => ⟨s', m', rfl, hH, hh', hk⟩)
      fun s' m' sp sz mem entry hH hh' h hk => ⟨s', m', rfl, hH, sp, sz, mem, rfl, rfl, hh', h, hk⟩
  rw [exec, wp_bind]
  refine hload.run.mono ?_ fun e _ h => h.2
  rintro r _ ⟨hrun, s', m', rfl, hH, hres⟩
  cases r with
  | none =>
    refine hfail s' m' hH hres.1 fun data hdata => ?_
    obtain ⟨hhdr, hno⟩ := hres.2 data hdata
    refine ⟨hhdr, ?_, fun sz hl => absurd hl (hno sz)⟩
    rintro ⟨sz, hl, -⟩
    exact hno sz hl
  | some r =>
    obtain ⟨d, top, entry⟩ := r
    obtain ⟨sp, sz, mem, rfl, rfl, hh', h, hk⟩ := hres
    simp only [wp_bind]
    rw [wp_onMem]
    refine (wp_copyArgs h hh' hargv).mono ?_ ?_
    · rintro r2 m2 ⟨hnot, sp2, hdir, hh2, hres2⟩
      have hfaults : ∀ data ∈ known, ¬Faults I argv data w.mem := by
        rintro data hdata ⟨sz', hl, hover⟩
        obtain rfl : sz = sz' := Option.some.inj ((hk data hdata).2.size.symm.trans hl.size)
        exact hnot hover
      cases r2 with
      | none =>
        simp only [wp_bind, bad, wp_pure]
        rw [wp_onMem, ← hdir]
        exact wp_freevm hF hh2 fun m3 hh3 => hfail s' m3 hH hh3 fun data hdata =>
          ⟨.inr (hk data hdata).1.elf, hfaults data hdata, fun _ _ => hres2⟩
      | some esp =>
        obtain ⟨hfits, rfl, h2⟩ := hres2
        have hswap : Heap F m2 (old ::ₘ sp2 ::ₘ S) lo := Multiset.cons_swap sp2 old S ▸ hh2
        simp only [wp_bind, wp_gets, wp_update, wp_pure]
        rw [onMem, wp_zoom]
        change wp (freevm I (some w.pgdir)) _ _ m2
        rw [← hold]
        refine wp_freevm hF hswap fun m3 hh3 => hok _ _ sp2 sp (pageUp sz) mem entry hH
          ⟨hdir.symm, rfl, rfl, hfits, hh3, h2, fun f hf => ?_⟩ (by rw [hrun, hdir]) hh' h hdir.symm
          fun data hdata => ⟨(hk data hdata).1, ⟨sz, (hk data hdata).2⟩, hfaults data hdata⟩
        have hfree := hswap.freed hh3
        rw [← Multiset.mem_coe]
        change f ∈ (m3.freelist : Multiset Nat)
        rw [hfree, Multiset.mem_add]
        exact .inr hf
    · rintro e m2 ⟨rfl, hover⟩
      exact hfault fun data hdata => ⟨sz, (hk data hdata).2, hover⟩

theorem Unchanged.of_ledger {s' : Fs} {m' : Mem} (hs : Shows ledgerOnly s' (ledger w.fs))
    (hb : Brackets 0 0 w.fs s') (hh : Heap F w.mem S lo) (hh' : Heap F m' S lo) :
    Unchanged w (w.withState s' m') where
  pgdir := rfl
  sz := rfl
  eip := rfl
  esp := rfl
  name := rfl
  file := (congrArg Tables.file hs.tables :)
  proc := (congrArg Tables.proc hs.tables :)
  ref := hs.ref
  locked := hs.locked
  outstanding := add_right_cancel hb.outstanding
  freelist := by
    rw [← Multiset.coe_eq_coe]
    have hsum := hh'.sum.trans hh.sum.symm
    rw [add_assoc, add_assoc] at hsum
    exact add_right_cancel hsum

/-- The arguments are in the stack page, and leave the program as it was loaded. -/
theorem Replaced.hasSegments {sp : Space} {g : Nat} {mem : Memory} {w' : Caller} {data : List UInt8}
    (h : Replaced I F S lo old sp g mem argv w') (hl : Loaded data (g * PGSIZE) mem)
    (hsep : Separate (segments data)) : HasSegments data w' := by
  intro ph hph
  have hend := (hl.segment ph hph).end_le
  have hsz : (g + 2) * PGSIZE = g * PGSIZE + 2 * PGSIZE := Nat.add_mul ..
  refine ⟨by rw [h.sz]; omega, fun i hi => ?_⟩
  have hdiv : (ph.vaddr.toNat + i) / PGSIZE < g := by
    rw [Nat.div_lt_iff_lt_mul (by simp [PGSIZE])]
    omega
  have hpage : (ph.vaddr.toNat + i) / PGSIZE * PGSIZE ≤ ph.vaddr.toNat + i := Nat.div_mul_le_self ..
  have hfits := h.fits.2
  rw [h.pgdir, h.image.byte_eq h.heap (by omega) (by simp; omega), argMem_outside, hl.mem_eq,
    putSegments_inside hl.segment hsep hph hi]
  intro q hq
  have := (argPieces_spec (show argBytes argv ≤ (g + 2) * PGSIZE by omega)).2 q hq
  omega

end

end Caller

end Xv6Rework
