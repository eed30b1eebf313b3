import Xv6Rework.Kernel.ExecSpec
import Xv6Rework.User.MkfsKernel

/-!
# How a call of `exec` ends

On a machine where no other call is in progress, two things keep `exec` from returning.  A file
of at least 52 bytes that does not start with the magic number makes it panic.  And an argument
that is longer than the address of the stack makes the stack pointer wrap around; where there
is no page table at the new address, `uva2ka` dereferences a null pointer.  Nothing else that a
file contains stops it, and no argument of at most a page does.

If it returns -1 nothing is left of the call.  If it returns 0 the program is in memory, and the
stack is that of a call of `main` with the arguments.
-/

namespace Xv6Rework

open Prog Vm
open Fs (MAXARG Rest Idle HasFile ledger)

namespace Caller

section

variable {p : PId} {path data : List UInt8} {argv : List (List UInt8)} {I : Layout} {F : Finset Nat}
  {S : Multiset Space} {lo : Multiset Nat} {old : Space} {w w' : Caller}

/-! ## Returning -/

/-- What can stop `exec`. -/
def StopsExec (I : Layout) (argv : List (List UInt8)) (data : List UInt8) (m : Mem) (e : Stop) :
    Prop :=
  e = .panic "bad elf magic" ∧ 52 ≤ data.length ∧ ¬IsElf data ∨ e = .panic "PAGE FAULT" ∧
    Faults I argv data m

/-- What is known when `exec` returns. -/
def ReturnsExec (I : Layout) (argv : List (List UInt8)) (data : List UInt8) (m : Mem) (r : Int) :
    Prop :=
  (r = -1 ∧ ¬((∃ sz, Loads I data m sz) ∧ Fits argv) ∨ r = 0 ∧
    (∃ sz, Loads I data m sz) ∧ Fits argv) ∧ (data.length < 52 ∨ IsElf data) ∧ ¬Faults I argv data m

theorem wp_exec_idle (hF : F ⊆ I.managed) (hh : Heap F w.mem (old ::ₘ S) lo)
    (hold : old.dir = w.pgdir) (hidle : w.fs.Idle p path data) (hargv : UserStrings argv) :
    wp (exec I p path argv) (fun r _ => ReturnsExec I argv data w.mem r)
      (fun e _ => StopsExec I argv data w.mem e) w := by
  obtain ⟨D, vol, d, i, hrest, hname, hdata, hspare⟩ := hidle.file
  have hrest' : Rest (StopsExec I argv data w.mem) w.fs.store.log D w.fs.superblock vol
      (ledger w.fs) w.fs :=
    { hrest with supplied := .inr (hrest.supplied.resolve_left id) }
  have hno : ¬StopsExec I argv data w.mem (.panic "bget: no buffers") := by simp [StopsExec]
  refine (access_known hrest' hname hdata hidle.unmounted (.inr hidle.unlocked) (.inr hspare)
    (.inr ⟨hno, hidle.outstanding, hidle.committing, hidle.block⟩)).wp_exec hF hh hold
    hargv ?_ ?_ ?_ ?_
  · exact fun h => .inl ⟨rfl, h data rfl⟩
  · exact fun h => .inr ⟨rfl, h data rfl⟩
  · intro s' m' _ _ hk
    obtain ⟨hhdr, hnot, hfew⟩ := hk data rfl
    exact ⟨.inl ⟨rfl, fun ⟨⟨sz, hl⟩, hfits⟩ => hfew sz hl hfits⟩, hhdr, hnot⟩
  · intro w' w1 sp sp1 g mem entry _ hr _ _ _ _ hl
    obtain ⟨hload, hloads, hnot⟩ := hl data rfl
    exact ⟨.inr ⟨rfl, hloads, hr.fits⟩, .inr hload.elf, hnot⟩

/-- The exact condition for `exec` to return, and all that can stop it. -/
theorem exec_returns_iff (hF : F ⊆ I.managed) (hh : Heap F w.mem (old ::ₘ S) lo)
    (hold : old.dir = w.pgdir) (hidle : w.fs.Idle p path data) (hargv : UserStrings argv) :
    ((∃ r w', exec I p path argv w = (.ok r, w') ∧ (r = 0 ∨ r = -1)) ↔
      (data.length < 52 ∨ IsElf data) ∧ ¬Faults I argv data w.mem) ∧
    ∀ e w', exec I p path argv w = (.error e, w') →
      e = .panic "bad elf magic" ∨ e = .panic "PAGE FAULT" := by
  obtain ⟨hok, herr⟩ := wp_iff.1 (wp_exec_idle hF hh hold hidle hargv)
  refine ⟨⟨?_, fun ⟨hdata, hnot⟩ => ?_⟩, fun e w' hrun => (herr e w' hrun).imp And.left And.left⟩
  · rintro ⟨r, w', hrun, -⟩
    exact (hok r w' hrun).2
  · rcases hrun : exec I p path argv w with ⟨e | r, w'⟩
    · rcases herr e w' hrun with ⟨-, hlen, hmagic⟩ | ⟨-, hfault⟩
      · exact absurd (hdata.resolve_left (by omega)) hmagic
      · exact absurd hfault hnot
    · exact ⟨r, w', rfl, (hok r w' hrun).1.symm.imp And.left And.left⟩

/-! ## The stack -/

/-- No argument of at most a page makes the kernel fault. -/
theorem not_faults_of_le {m : Mem} (hs : ∀ s ∈ argv, s.length ≤ PGSIZE) :
    ¬Faults I argv data m := by
  rintro ⟨sz, -, hover⟩
  exact not_overlong_of_le (by rw [Nat.succ_mul]; omega) hs hover

/-- A program that can be loaded is run if the arguments fit, and otherwise the result is -1. -/
theorem exec_elf_result (hF : F ⊆ I.managed) (hh : Heap F w.mem (old ::ₘ S) lo)
    (hold : old.dir = w.pgdir) (hidle : w.fs.Idle p path data) (hargv : UserStrings argv)
    (hshort : ∀ s ∈ argv, s.length ≤ PGSIZE) (helf : IsElf data) :
    ∃ r w', exec I p path argv w = (.ok r, w') ∧
      (r = -1 ∧ ¬((∃ sz, Loads I data w.mem sz) ∧ Fits argv) ∨
        r = 0 ∧ (∃ sz, Loads I data w.mem sz) ∧ Fits argv) := by
  obtain ⟨hok, herr⟩ := wp_iff.1 (wp_exec_idle hF hh hold hidle hargv)
  rcases hrun : exec I p path argv w with ⟨e | r, w'⟩
  · rcases herr e w' hrun with ⟨-, -, hmagic⟩ | ⟨-, hfault⟩
    · exact absurd helf hmagic
    · exact absurd hfault (not_faults_of_le hshort)
  · exact ⟨r, w', rfl, (hok r w' hrun).1⟩

/-- A file that is long enough for a header and has no magic number makes `exec` panic. -/
theorem exec_bad_magic (hF : F ⊆ I.managed) (hh : Heap F w.mem (old ::ₘ S) lo)
    (hold : old.dir = w.pgdir) (hidle : w.fs.Idle p path data) (hargv : UserStrings argv)
    (hshort : ∀ s ∈ argv, s.length ≤ PGSIZE) (hlen : 52 ≤ data.length) (hmagic : ¬IsElf data) :
    ∃ w', exec I p path argv w = (.error (.panic "bad elf magic"), w') := by
  obtain ⟨hok, herr⟩ := wp_iff.1 (wp_exec_idle hF hh hold hidle hargv)
  rcases hrun : exec I p path argv w with ⟨e | r, w'⟩
  · rcases herr e w' hrun with ⟨rfl, -⟩ | ⟨-, hfault⟩
    · exact ⟨w', rfl⟩
    · exact absurd hfault (not_faults_of_le hshort)
  · exact absurd (hok r w' hrun).2.1 (not_or.2 ⟨by omega, hmagic⟩)

/-- The stack of the process is that of a call of `main` with the arguments.  It is in the last
page; its pieces are apart from each other, and the rest of memory is as it was in `w1`. -/
structure Stacked (argv : List (List UInt8)) (w1 w' : Caller) : Prop where
  decodes : (w'.mem.ram.args w'.pgdir w'.esp).map (List.map Prod.snd) = some argv
  pointers : (w'.mem.ram.args w'.pgdir w'.esp).map (List.map Prod.fst) = some (argAddrs w'.sz argv)
  esp_mod : w'.esp % 4 = 0
  pointers_mod : ∀ a ∈ argAddrs w'.sz argv, a % 4 = 0
  sz_mod : w'.sz % PGSIZE = 0
  page : ∀ q ∈ argPieces w'.sz argv, w'.sz - PGSIZE ≤ q.1 ∧ q.1 + q.2 ≤ w'.sz
  apart : (argPieces w'.sz argv).Pairwise fun q q' => q'.1 + q'.2 ≤ q.1
  others : ∀ a < 2 ^ 32, (∀ q ∈ argPieces w'.sz argv, a < q.1 ∨ q.1 + q.2 ≤ a) →
    w'.mem.ram.byte w'.pgdir a = w1.mem.ram.byte w'.pgdir a

theorem Replaced.stacked {sp sp1 : Space} {g : Nat} {mem : Memory} {w1 : Caller}
    (h : Replaced I F S lo old sp g mem argv w') (hargv : UserStrings argv)
    (hh1 : Heap F w1.mem (sp1 ::ₘ old ::ₘ S) lo) (h1 : sp1.Image I ((g + 2) * PGSIZE) (some g) mem)
    (hdir : sp1.dir = sp.dir) : Stacked argv w1 w' := by
  have hsz : (g + 2) * PGSIZE = (g + 1) * PGSIZE + PGSIZE := Nat.succ_mul ..
  have hfits := h.fits.2
  have hlt : (g + 2) * PGSIZE < 2 ^ 32 := by
    have := h.image.size
    simp only [KERNBASE, KERNPAGE, PGSIZE] at this ⊢
    omega
  have hmod : (g + 2) * PGSIZE % 4 = 0 := by
    simp only [PGSIZE]
    omega
  have hbyte : ∀ x, (g + 2) * PGSIZE - argBytes argv ≤ x → x < (g + 2) * PGSIZE →
      w'.mem.ram.byte sp.dir x = some (argMem mem ((g + 2) * PGSIZE) argv x) := by
    intro x hx hx'
    have hpage : g + 1 ≤ x / PGSIZE := (Nat.le_div_iff_mul_le (by simp [PGSIZE])).2 (by omega)
    have hle := Nat.div_mul_le_self x PGSIZE
    exact h.image.byte_eq h.heap (by omega) (by simp; omega)
  have hargs : w'.mem.ram.args w'.pgdir w'.esp = some ((argAddrs w'.sz argv).zip argv) := by
    rw [h.esp, h.sz, h.pgdir]
    exact args_argMem (by omega) hlt hmod (fun s hs => (hargv s hs).2) hbyte
  obtain ⟨hpair, hrange⟩ := argPieces_spec (show argBytes argv ≤ (g + 2) * PGSIZE by omega)
  refine ⟨?_, ?_, ?_, ?_, ?_, ?_, ?_, fun a ha hout => ?_⟩
  · rw [hargs, Option.map_some, List.map_snd_zip (by simp)]
  · rw [hargs, Option.map_some, List.map_fst_zip (by simp)]
  · have := strBytes_mod argv
    rw [h.esp, h.sz, argBytes]
    omega
  · rw [h.sz]
    exact argAddrs_mod hmod
  · rw [h.sz]
    exact Nat.mul_mod_left ..
  · intro q hq
    rw [h.sz] at hq ⊢
    have := hrange q hq
    omega
  · rw [h.sz]
    exact hpair
  · rw [h.sz] at hout
    by_cases hin : a / PGSIZE * PGSIZE < (g + 2) * PGSIZE ∧ some g ≠ some (a / PGSIZE)
    · rw [h.pgdir, h.image.byte_eq h.heap hin.1 hin.2, ← hdir, h1.byte_eq hh1 hin.1 hin.2,
        argMem_outside hout]
    · rw [h.pgdir, h.image.byte_eq_none h.heap ha hin, ← hdir, h1.byte_eq_none hh1 ha hin]

/-- If `exec` returns 0 the arguments are on the stack, and what does not fit makes it return -1,
unless the file makes it panic. -/
theorem exec_stack_iff (hF : F ⊆ I.managed) (hh : Heap F w.mem (old ::ₘ S) lo)
    (hold : old.dir = w.pgdir) (hidle : w.fs.Idle p path data) (hargv : UserStrings argv) :
    (∀ w', exec I p path argv w = (.ok 0, w') →
      ∃ entry w1, loadImage I p path w = (.ok (some (w'.pgdir, w'.sz, entry)), w1) ∧
        Stacked argv w1 w') ∧
    ((∀ s ∈ argv, s.length ≤ PGSIZE) → PGSIZE < argBytes argv →
      ∃ w', exec I p path argv w = (.ok (-1), w')) ↔
      (∃ s ∈ argv, PGSIZE < s.length) ∨ argBytes argv ≤ PGSIZE ∨ data.length < 52 ∨ IsElf data := by
  have hstack : wp (exec I p path argv) (fun r w' => r = 0 → ∃ entry w1,
      loadImage I p path w = (.ok (some (w'.pgdir, w'.sz, entry)), w1) ∧ Stacked argv w1 w')
      (fun _ _ => True) w :=
    (access_any w.fs p path).wp_exec hF hh hold hargv (fun _ => trivial) (fun _ => trivial)
      (fun _ _ _ _ _ h => absurd h (by decide))
      fun w' w1 sp sp1 g mem entry _ hr hrun hh1 h1 hdir _ _ =>
        ⟨entry, w1, by rw [hr.pgdir, hr.sz, hrun], hr.stacked hargv hh1 h1 hdir⟩
  obtain ⟨hok, herr⟩ := wp_iff.1 (wp_exec_idle hF hh hold hidle hargv)
  rw [and_iff_right fun w' hrun => (wp_iff.1 hstack).1 0 w' hrun rfl]
  constructor
  · intro hfail
    by_contra hnot
    simp only [not_or, not_exists, not_and, not_lt, not_le] at hnot
    obtain ⟨hshort, hlong, hlen, hmagic⟩ := hnot
    obtain ⟨w', hrun⟩ := hfail hshort hlong
    rcases (hok _ _ hrun).2.1 with h | h
    · omega
    · exact hmagic h
  · intro hcond hshort hlong
    have hdata : data.length < 52 ∨ IsElf data := by
      rcases hcond with ⟨s, hs, hlt⟩ | hle | hdata
      · exact absurd (hshort s hs) (by omega)
      · omega
      · exact hdata
    rcases hrun : exec I p path argv w with ⟨e | r, w'⟩
    · rcases herr e w' hrun with ⟨-, hlen, hmagic⟩ | ⟨-, hfault⟩
      · exact absurd (hdata.resolve_left (by omega)) hmagic
      · exact absurd hfault (not_faults_of_le hshort)
    · rcases (hok r w' hrun).1 with ⟨rfl, -⟩ | ⟨-, -, hfits⟩
      · exact ⟨w', rfl⟩
      · exact absurd hfits.2 (by omega)

/-! ## All or nothing -/

/-- A call that fails changes nothing.  One that does not has freed the old address space, and
the new one has the program. -/
theorem exec_all_or_nothing {w' : Caller} {r : Int} (hF : F ⊆ I.managed)
    (hh : Heap F w.mem (old ::ₘ S) lo) (hold : old.dir = w.pgdir)
    (hmount : ∀ ip, (w.fs.inode ip).isMountPoint = false) (hargv : UserStrings argv)
    (hrun : exec I p path argv w = (.ok r, w')) :
    r = -1 ∧ Unchanged w w' ∨
    r = 0 ∧ (∀ f ∈ old.frames, f ∈ w'.mem.freelist) ∧
      ∀ data, w.fs.HasFile p path data → Separate (segments data) → HasSegments data w' := by
  have hledger : wp (exec I p path argv)
      (fun r w' => r = -1 ∧ Unchanged w w' ∨ r = 0 ∧ ∀ f ∈ old.frames, f ∈ w'.mem.freelist)
      (fun _ _ => True) w :=
    (access_ledger hmount).wp_exec hF hh hold hargv (fun _ => trivial) (fun _ => trivial)
      (fun s' m' hH hh' _ => .inl ⟨rfl, .of_ledger hH.1 hH.2 hh hh'⟩)
      fun w' _ _ _ _ _ _ _ hr _ _ _ _ _ => .inr ⟨rfl, hr.free⟩
  rcases (wp_iff.1 hledger).1 r w' hrun with h | ⟨rfl, hfree⟩
  · exact .inl h
  · refine .inr ⟨rfl, hfree, ?_⟩
    rintro data ⟨D, vol, d, i, hrest, hname, hdata⟩ hsep
    have hknown : wp (exec I p path argv) (fun r w' => r = 0 → HasSegments data w')
        (fun _ _ => True) w :=
      (access_known hrest hname hdata hmount (.inl trivial) (.inl trivial)
        (.inl fun _ => trivial)).wp_exec hF hh hold hargv (fun _ => trivial) (fun _ => trivial)
        (fun _ _ _ _ _ h => absurd h (by decide)) fun w' _ _ _ _ _ _ _ hr _ _ _ _ hl _ =>
        hr.hasSegments (hl data rfl).1 hsep
    exact (wp_iff.1 hknown).1 0 w' hrun rfl

end

/-! ## A fresh kernel -/

section

open Mkfs

variable {image : Nat → Block} {files : List Input} {k : Nat} {p : PId} {path : List UInt8}

/-- The kernel when it has been loaded has nothing to do, and the files of `mkfs`. -/
theorem idle_loaded (hfiles : Suitable files) (hnames : Named files)
    (himage : output files = some image) (hk : k < files.length) (hslash : path.head? = some slash)
    (hpath : skipelem path = some ((files.get ⟨k, hk⟩).stored, [])) :
    (Fs.loaded image).Idle p path (files.get ⟨k, hk⟩).bytes := by
  obtain ⟨V, hV⟩ := (output_spec hfiles).2 image himage
  have hc := Fs.carries_loaded image (.inl rfl : 1 = 1 ∨ 1 = 2)
  have hsb : ∀ d, (Fs.loaded image).superblock d = mkfsSb := by
    intro d
    rw [← Fs.ofBlock_store_mkfsSb, ← hV.super]
    exact ite_self _
  refine ⟨⟨_, _, 1, k + 2, hc.rest hV, ⟨ROOTINO, ?_, ?_⟩, ?_, hc.room⟩, fun _ => rfl,
    fun _ => rfl, rfl, rfl, rfl⟩
  · rw [Fs.Starts, if_pos hslash, hsb]
    exact ⟨rfl, rfl, rfl, by decide⟩
  · rw [hsb]
    refine hV.goes hnames hfiles.inodes (names_file hk) hpath ?_
    rintro ⟨e, ⟨⟩, -⟩
  · rw [hsb]
    exact (hV.file k hk).contains

theorem idle_single {f : Input} (hsize : f.bytes.length ≤ MAXFILE * BSIZE)
    (hspace : space [f] ≤ FSSIZE) (hnames : Named [f]) (hname : slash ∉ f.name)
    (hslash : path.head? = some slash) (hpath : skipelem path = some (f.stored, [])) :
    ∃ image, output [f] = some image ∧ (Fs.loaded image).Idle p path f.bytes := by
  have hfiles : Suitable [f] := ⟨by simp [NINODES], by simpa using hsize, hspace⟩
  obtain ⟨image, himage⟩ := (output_spec hfiles).1.2 (by simpa using hname)
  exact ⟨image, himage, idle_loaded (k := 0) hfiles hnames himage Nat.zero_lt_one hslash hpath⟩

/-- The first process with one page of memory, on a machine with these files. -/
def onePageOn (fs : Fs) : Caller := ⟨fs, onePage, 0x201, PGSIZE, 0, PGSIZE, []⟩

theorem onePageOn_heap (fs : Fs) : Heap {0x201, 0x202, 0x203, 0x204, 0x205} (onePageOn fs).mem
    (onePage.space 0x201 ::ₘ 0) 0 := onePage_heap.1

/-- A page of zeros, and 72 free frames. -/
def roomy : Mem := pageAt 0x201 .zero (List.range' 0x204 72)

theorem roomy_heap : Heap (Finset.Ico 0x201 0x24c) roomy (roomy.space 0x201 ::ₘ 0) 0 :=
  (pageAt_heap (by decide) (by decide +kernel)).1

theorem roomy_subset : Finset.Ico 0x201 0x24c ⊆ sample.managed :=
  Finset.Ico_subset_Ico (by decide) (by decide)

theorem roomy_frames : ∀ f ∈ [0x201, 0x202, 0x203], f ∈ (roomy.space 0x201).frames := by
  have htable : 0x202 ∈ roomy.ram.frames 0x201 := table_mem_frames
    (mem_tables.2 ⟨0, by decide +kernel⟩)
  have hpage : 0x203 ∈ roomy.ram.frames 0x201 := mapped_mem_frames (v := 0) (by decide +kernel)
    (by decide +kernel)
  rw [Space.frames]
  simp only [List.forall_mem_cons, List.not_mem_nil, false_implies, implies_true, and_true]
  exact ⟨self_mem_frames, htable, hpage⟩

/-- The first process with that memory. -/
def roomyOn (fs : Fs) : Caller := ⟨fs, roomy, 0x201, PGSIZE, 0, PGSIZE, []⟩

/-- A program of one segment: three bytes at address 0, and two zeros behind them. -/
def elfBytes : List UInt8 :=
  [0x7f, 0x45, 0x4c, 0x46] ++ List.replicate 24 0 ++ [52, 0, 0, 0] ++ List.replicate 12
    0 ++ [1, 0] ++ List.replicate 6 0 ++
  [1, 0, 0, 0, 84, 0, 0, 0, 0, 0, 0, 0, 0, 0, 0, 0, 3, 0, 0, 0, 5, 0, 0, 0, 0, 0, 0, 0,
    0, 0, 0, 0] ++
  [0x90, 0xeb, 0xfe]

/-- The file `_a`. -/
def elfFile : Input := ⟨[95, 97], [elfBytes], by decide +kernel, by decide, by decide⟩

theorem idle_elf :
    ∃ image, output [elfFile] = some image ∧ (Fs.loaded image).Idle Fs.init [slash, 97] elfBytes :=
  idle_single (f := elfFile) (by decide) (by decide) ⟨by decide, by decide, by decide, by decide⟩
    (by decide) rfl (by decide +kernel)

/-- It takes a directory, 64 page tables for the kernel and one for the user, and three pages. -/
theorem loads_elf : Loads sample elfBytes roomy 5 where
  elf := ⟨by decide, by decide +kernel⟩
  size := by decide +kernel
  below := by decide +kernel
  frames := by decide +kernel

theorem not_loads_elf : ¬∃ sz, Loads sample elfBytes onePage sz := by
  rintro ⟨sz, hl⟩
  have hkernel : onePage.avail < kernelFrames sample := by decide +kernel
  have := hl.frames
  omega

/-- Two arguments. -/
def twoArgs : List (List UInt8) := [[97], [98, 99]]

theorem twoArgs_spec : UserStrings twoArgs ∧ (∀ s ∈ twoArgs, s.length ≤ PGSIZE) ∧ Fits twoArgs := by
  refine ⟨?_, by decide +kernel, by decide +kernel⟩
  simp [twoArgs, UserStrings, KERNBASE, KERNPAGE, PGSIZE]

theorem exec_elf (hidle : (Fs.loaded image).Idle Fs.init [slash, 97] elfBytes) :
    (∃ w', exec sample Fs.init [slash, 97] twoArgs (roomyOn (Fs.loaded image)) = (.ok 0, w')) ∧
    ∃ w', exec sample Fs.init [slash, 97] twoArgs (onePageOn (Fs.loaded image)) =
      (.ok (-1), w') := by
  obtain ⟨hargs, hshort, hfits⟩ := twoArgs_spec
  constructor
  · obtain ⟨r, w', hrun, ⟨-, hno⟩ | ⟨rfl, -⟩⟩ := exec_elf_result
      (w := roomyOn (Fs.loaded image)) roomy_subset roomy_heap rfl hidle hargs hshort loads_elf.elf
    · exact absurd ⟨⟨5, loads_elf⟩, hfits⟩ hno
    · exact ⟨w', hrun⟩
  · obtain ⟨r, w', hrun, ⟨rfl, -⟩ | ⟨-, hl, -⟩⟩ := exec_elf_result
      (w := onePageOn (Fs.loaded image)) onePage_subset (onePageOn_heap _) rfl hidle hargs hshort
      loads_elf.elf
    · exact ⟨w', hrun⟩
    · exact absurd hl not_loads_elf

/-- The program is run if there are frames, and with two of them the call leaves nothing. -/
theorem exec_all_or_nothing_elf : ∃ image w' w'', output [elfFile] = some image ∧
    exec sample Fs.init [slash, 97] twoArgs (roomyOn (Fs.loaded image)) = (.ok 0, w') ∧
    (∀ f ∈ [0x201, 0x202, 0x203], f ∈ w'.mem.freelist) ∧ HasSegments elfBytes w' ∧
    exec sample Fs.init [slash, 97] twoArgs (onePageOn (Fs.loaded image)) = (.ok (-1), w'') ∧
    Unchanged (onePageOn (Fs.loaded image)) w'' := by
  obtain ⟨image, himage, hidle⟩ := idle_elf
  obtain ⟨⟨w', hrun⟩, w'', hrun''⟩ := exec_elf hidle
  obtain ⟨h, -⟩ | ⟨-, hfree, hseg⟩ := exec_all_or_nothing roomy_subset roomy_heap rfl
    hidle.unmounted twoArgs_spec.1 hrun
  · cases h
  obtain ⟨-, hsame⟩ | ⟨h, -⟩ := exec_all_or_nothing onePage_subset (onePageOn_heap _) rfl
    hidle.unmounted twoArgs_spec.1 hrun''
  · refine ⟨image, w', w'', himage, hrun, fun f hf => hfree f (roomy_frames f hf),
      hseg _ hidle.hasFile ?_, hrun'', hsame⟩
    obtain ⟨ph, hph⟩ := List.length_eq_one_iff.1 (show (segments elfBytes).length =
      1 by decide +kernel)
    rw [hph]
    exact List.pairwise_singleton ..
  · cases h

/-- Its header passes. -/
theorem exec_returns_elf : ∃ image w', output [elfFile] = some image ∧ IsElf elfBytes ∧
    ¬Faults sample twoArgs elfBytes roomy ∧
    exec sample Fs.init [slash, 97] twoArgs (roomyOn (Fs.loaded image)) = (.ok 0, w') := by
  obtain ⟨image, himage, hidle⟩ := idle_elf
  obtain ⟨⟨w', hrun⟩, -⟩ := exec_elf hidle
  obtain ⟨-, hnot⟩ := (exec_returns_iff roomy_subset roomy_heap rfl hidle twoArgs_spec.1).1.1
    ⟨0, w', hrun, .inl rfl⟩
  exact ⟨image, w', himage, loads_elf.elf, hnot, hrun⟩

/-- The file `_pad`: 52 zeros. -/
def padFile : Input :=
  ⟨[95, 112, 97, 100], [List.replicate 52 0], by decide +kernel, by decide, by decide⟩

/-- It is long enough for a header, and has no magic number. -/
theorem not_exec_returns_pad : ∃ image w', output [padFile] = some image ∧
    exec sample Fs.init [slash, 112, 97, 100] [[97]] (onePageOn (Fs.loaded image)) =
      (.error (.panic "bad elf magic"), w') := by
  obtain ⟨image, himage, hidle⟩ : ∃ image, output [padFile] = some image ∧
      (Fs.loaded image).Idle Fs.init [slash, 112, 97, 100] padFile.bytes :=
    idle_single (by decide) (by decide) ⟨by decide, by decide, by decide, by decide⟩ (by decide) rfl
      (by decide +kernel)
  have hargv : UserStrings [[97]] := by simp [UserStrings, KERNBASE, KERNPAGE, PGSIZE]
  have hmagic : ¬IsElf padFile.bytes := fun h => absurd h.2 (by decide +kernel)
  obtain ⟨w', hrun⟩ := exec_bad_magic onePage_subset (onePageOn_heap (Fs.loaded image)) rfl hidle
    hargv (by simp [PGSIZE]) (by decide) hmagic
  exact ⟨image, w', himage, hrun⟩

/-- Arguments that do not fit on the stack: a string of a page. -/
def pageArgs : List (List UInt8) := [List.replicate PGSIZE 97]

theorem userStrings_pageArgs : UserStrings pageArgs := by
  intro s hs
  obtain rfl := List.mem_singleton.1 hs
  refine ⟨?_, fun h => absurd (List.eq_of_mem_replicate h) (by decide)⟩
  rw [List.length_replicate, KERNBASE, Nat.lt_mul_iff_one_lt_left (by simp [PGSIZE])]
  simp [KERNPAGE]

theorem pageArgs_spec : (∀ s ∈ pageArgs, s.length ≤ PGSIZE) ∧ PGSIZE < argBytes pageArgs := by
  have hroom : PGSIZE < room (List.replicate PGSIZE 97) := by
    simpa using length_lt_room (s := List.replicate PGSIZE 97)
  refine ⟨by simp [pageArgs], ?_⟩
  simp only [argBytes, pageArgs, strBytes_cons]
  omega

/-- Two arguments are on the stack, and an argument of a page is refused. -/
theorem exec_stack_elf : ∃ image w' w'', output [elfFile] = some image ∧
    exec sample Fs.init [slash, 97] twoArgs (roomyOn (Fs.loaded image)) = (.ok 0, w') ∧
    (w'.mem.ram.args w'.pgdir w'.esp).map (List.map Prod.snd) = some twoArgs ∧
    Loads sample elfBytes roomy 5 ∧
    exec sample Fs.init [slash, 97] pageArgs (roomyOn (Fs.loaded image)) = (.ok (-1), w'') := by
  obtain ⟨image, himage, hidle⟩ := idle_elf
  have helf := loads_elf.elf
  obtain ⟨⟨w', hrun⟩, -⟩ := exec_elf hidle
  obtain ⟨_, _, -, hstack⟩ := ((exec_stack_iff roomy_subset roomy_heap rfl hidle twoArgs_spec.1).2
    (.inr (.inr (.inr helf)))).1 w' hrun
  obtain ⟨w'', hrun''⟩ := ((exec_stack_iff (w := roomyOn (Fs.loaded image)) roomy_subset
    roomy_heap rfl hidle userStrings_pageArgs).2 (.inr (.inr (.inr helf)))).2 pageArgs_spec.1
    pageArgs_spec.2
  exact ⟨image, w', w'', himage, hrun, hstack.decodes, loads_elf, hrun''⟩

/-- The same arguments for the root directory. -/
theorem not_exec_stack_root : (∀ s ∈ pageArgs, s.length ≤ PGSIZE) ∧ PGSIZE < argBytes pageArgs ∧
    (exec sample Fs.init [slash] pageArgs (onePageOn Fs.booted)).1 =
      .error (.panic "bad elf magic") :=
  ⟨pageArgs_spec.1, pageArgs_spec.2, by decide +kernel⟩

end

end Caller

end Xv6Rework
