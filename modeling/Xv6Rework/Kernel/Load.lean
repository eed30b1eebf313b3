import Xv6Rework.Fs.Walk
import Xv6Rework.Kernel.Exec
import Xv6Rework.Mem.Image

/-!
# Loading a program

The first half of `exec`: from `begin_op` to the two pages of the stack.

What it does to memory is said for two kinds of callers at once.  `Session` is what the code
needs of the file system while it has the file locked, and `Access` how it gets there: what
reading keeps, and what the file contains if that is known.  A caller that knows nothing of the
disk still learns that frames are accounted for and what the shape of the new address space is;
one that knows the contents of the file also learns the contents of memory.
-/

namespace Xv6Rework

open Prog Vm
open Fs (ELF_MAGIC ELF_PROG_LOAD Elfhdr Proghdr leAt within)

namespace Caller

/-! ## What a file asks for -/

/-- The ELF header of a file. -/
def elfhdr (data : List UInt8) : Elfhdr := Elfhdr.ofBytes (data.take 52)

/-- The file has an ELF header. -/
def IsElf (data : List UInt8) : Prop := 52 ≤ data.length ∧ (elfhdr data).magic = ELF_MAGIC

/-- The program headers of a file, from an offset on. -/
def proghdrs (data : List UInt8) : UInt32 → Nat → List Proghdr
  | _, 0 => []
  | off, k + 1 => Proghdr.ofBytes ((data.drop off.toNat).take 32) :: proghdrs data (off + 32) k

/-- The segments to load, among headers. -/
def loadable (l : List Proghdr) : List Proghdr := l.filter fun ph => ph.type = ELF_PROG_LOAD

/-- The segments of a program. -/
def segments (data : List UInt8) : List Proghdr :=
  loadable (proghdrs data (elfhdr data).phoff (elfhdr data).phnum)

/-- The header of a segment passes the checks of `exec`, where `sz` bytes have been loaded. -/
def Acceptable (data : List UInt8) (sz : Nat) (ph : Proghdr) : Prop :=
  ph.filesz.toNat ≤ ph.memsz.toNat ∧ ph.vaddr.toNat + ph.memsz.toNat < KERNBASE ∧
    0 < max sz (ph.vaddr.toNat + ph.memsz.toNat) ∧ ph.vaddr.toNat % PGSIZE = 0 ∧
    (ph.filesz.toNat = 0 ∨ ph.off.toNat + ph.filesz.toNat ≤ data.length)

instance (data : List UInt8) (sz : Nat) (ph : Proghdr) : Decidable (Acceptable data sz ph) :=
  inferInstanceAs (Decidable (_ ∧ _))

/-- The size of a program with `k` headers from `off` on, if they are all in the file and those
of segments pass. -/
def sizeFrom (data : List UInt8) : Nat → UInt32 → Nat → Option Nat
  | 0, _, sz => some sz
  | k + 1, off, sz =>
    let ph := Proghdr.ofBytes ((data.drop off.toNat).take 32)
    if data.length < off.toNat + 32 then
      none
    else if ph.type ≠ ELF_PROG_LOAD then
      sizeFrom data k (off + 32) sz
    else if Acceptable data sz ph then
      sizeFrom data k (off + 32) (max sz (ph.vaddr.toNat + ph.memsz.toNat))
    else
      none

/-- The size of a program, without its stack. -/
def programSize (data : List UInt8) : Option Nat :=
  sizeFrom data (elfhdr data).phnum (elfhdr data).phoff 0

/-- The program has the size `sz`, and there are frames for it, for the two pages above it and
for the kernel's part. -/
structure Loads (I : Layout) (data : List UInt8) (m : Mem) (sz : Nat) : Prop where
  elf : IsElf data
  size : programSize data = some sz
  below : (pageUp sz + 2) * PGSIZE < KERNBASE
  frames : kernelFrames I + userFrames (pageUp sz + 2) ≤ m.avail

/-- The part of a segment that is in the file. -/
def fileBytes (data : List UInt8) (ph : Proghdr) : List UInt8 :=
  (data.drop ph.off.toNat).take ph.filesz.toNat

/-- The memory with segments loaded into it. -/
def putSegments (data : List UInt8) (mem : Memory) (l : List Proghdr) : Memory :=
  l.foldl (fun mem ph => mem.put ph.vaddr.toNat (fileBytes data ph)) mem

/-- A segment that has been loaded into a program of size `sz`. -/
structure SegmentOk (data : List UInt8) (sz : Nat) (ph : Proghdr) : Prop where
  filesz_le : ph.filesz.toNat ≤ ph.memsz.toNat
  end_le : ph.vaddr.toNat + ph.memsz.toNat ≤ sz
  in_file : ph.filesz.toNat = 0 ∨ ph.off.toNat + ph.filesz.toNat ≤ data.length

theorem SegmentOk.mono {data : List UInt8} {sz sz' : Nat} {ph : Proghdr} (h : SegmentOk data sz ph)
    (hle : sz ≤ sz') : SegmentOk data sz' ph :=
  ⟨h.filesz_le, h.end_le.trans hle, h.in_file⟩

/-- A program has been loaded: the size and the memory are what its file asks for. -/
structure Loaded (data : List UInt8) (sz : Nat) (mem : Memory) : Prop where
  elf : IsElf data
  mem_eq : mem = putSegments data (fun _ => 0) (segments data)
  segment : ∀ ph ∈ segments data, SegmentOk data sz ph

/-- An address is in a segment. -/
def Covers (ph : Proghdr) (x : Nat) : Prop := ph.vaddr.toNat ≤ x ∧
    x < ph.vaddr.toNat + ph.memsz.toNat

/-- No address is in two segments. -/
def Separate (l : List Proghdr) : Prop := l.Pairwise fun ph ph' => ∀ x,
    ¬(Covers ph x ∧ Covers ph' x)

section

variable {data : List UInt8} {sz i x : Nat} {ph : Proghdr} {l : List Proghdr} {mem : Memory}

theorem le_sizeFrom {k sz' : Nat} {off : UInt32} (h : sizeFrom data k off sz = some sz') :
    sz ≤ sz' := by
  induction k generalizing off sz with
  | zero => exact (Option.some.inj h).le
  | succ k ih =>
    simp only [sizeFrom] at h
    split_ifs at h
    · exact ih h
    · exact (le_max_left ..).trans (ih h)

theorem length_fileBytes_le (data : List UInt8) (ph : Proghdr) :
    (fileBytes data ph).length ≤ ph.filesz.toNat := List.length_take_le ..

/-- A byte of the file's part of a segment. -/
theorem SegmentOk.fileBytes_get (h : SegmentOk data sz ph) (hi : i < ph.filesz.toNat) :
    ∃ hlt : i < (fileBytes data ph).length,
      data[ph.off.toNat + i]? = some (fileBytes data ph)[i] := by
  have hin := h.in_file
  have hlt : i < (fileBytes data ph).length := by
    simp only [fileBytes, List.length_take, List.length_drop]
    omega
  refine ⟨hlt, ?_⟩
  rw [← List.getElem?_eq_getElem hlt]
  simp [fileBytes, hi]

/-- Loading leaves alone what is in no segment. -/
theorem putSegments_outside (hok : ∀ ph ∈ l, SegmentOk data sz ph) (hx : ∀ ph ∈ l, ¬Covers ph x) :
    putSegments data mem l x = mem x := by
  induction l generalizing mem with
  | nil => rfl
  | cons ph l ih =>
    rw [List.forall_mem_cons] at hok hx
    have hlen := length_fileBytes_le data ph
    have hle := hok.1.filesz_le
    have hnot := hx.1
    rw [Covers] at hnot
    refine (ih hok.2 hx.2).trans (Memory.put_outside ?_)
    omega

/-- A segment that overlaps no other has its part of the file, and behind it what was there. -/
theorem putSegments_inside (hok : ∀ ph ∈ l, SegmentOk data sz ph) (hsep : Separate l) (hph : ph ∈ l)
    (hi : i < ph.memsz.toNat) : some (putSegments data mem l (ph.vaddr.toNat + i)) =
      if i < ph.filesz.toNat then data[ph.off.toNat + i]? else some (mem (ph.vaddr.toNat + i)) := by
  have hin : Covers ph (ph.vaddr.toNat + i) := ⟨Nat.le_add_right .., by omega⟩
  induction l generalizing mem with
  | nil => cases hph
  | cons ph' l ih =>
    rw [List.forall_mem_cons] at hok
    rw [Separate, List.pairwise_cons] at hsep
    have hlen := length_fileBytes_le data ph'
    have hle := hok.1.filesz_le
    rcases List.mem_cons.mp hph with rfl | hph
    · change some (putSegments data (mem.put ph.vaddr.toNat (fileBytes data ph)) l _) = _
      rw [putSegments_outside hok.2 fun q hq hc => hsep.1 q hq _ ⟨hin, hc⟩]
      split
      next hlt =>
        obtain ⟨hget, heq⟩ := hok.1.fileBytes_get hlt
        rw [heq, Memory.put_inside hget]
      next hlt => rw [Memory.put_outside (by omega)]
    · have hnot : ¬Covers ph' (ph.vaddr.toNat + i) := fun hc => hsep.1 ph hph _ ⟨hc, hin⟩
      rw [Covers] at hnot
      change some (putSegments data (mem.put ph'.vaddr.toNat (fileBytes data ph')) l _) = _
      rw [ih hok.2 hsep.2 hph, Memory.put_outside (by omega)]

end

/-! ## Files and memory together -/

/-- The caller with another file system and memory. -/
def withState (w : Caller) (s : Fs) (m : Mem) : Caller := { w with fs := s, mem := m }

section

variable {α : Type} {w : Caller} {s : Fs} {m : Mem} {E : Stop → Prop} {Q : α → Caller → Prop}

theorem wp_onFs {x : FsM α} : wp (onFs x) Q (fun e _ => E e) (w.withState s m) ↔
    within E x (fun a s' => Q a (w.withState s' m)) s := wp_zoom

theorem wp_onMem {x : MemM α} : wp (onMem x) Q (fun e _ => E e) (w.withState s m) ↔
    wp x (fun a m' => Q a (w.withState s m')) (fun e _ => E e) m := wp_zoom

end

/-- `exec` reads a file through the inode `ip` from the states `G`, and is in a state of `H` when
it has let go of it.  What it reads is the file's contents, if they are known. -/
structure Session (E : Stop → Prop) (ip : Slot) (known : Option (List UInt8)) (G H : Fs → Prop) :
    Prop where
  small : ∀ data ∈ known, data.length < 2 ^ 32
  read : ∀ (s : Fs) (off n : UInt32) (Q : Int × List UInt8 → Fs → Prop), G s → n.toNat ≤ PGSIZE →
    (∀ r s', G s' → r.2.length ≤ n.toNat → (∀ data ∈ known, r = fileRead data off.toNat n.toNat) →
    Q r s') → within E (Fs.readi ip off n) Q s
  close : ∀ (s : Fs) (Q : Unit → Fs → Prop), G s → (∀ s', H s' → Q () s') →
    within E (Fs.iunlockput ip) (fun _ s' => within E Fs.endOp Q s') s

/-- `exec` gets to the file that `path` names. -/
structure Access (E : Stop → Prop) (p : PId) (path : List UInt8) (known : Option (List UInt8))
    (s : Fs) (H : Fs → Prop) (G : Slot → Fs → Prop) : Prop where
  start : within E Fs.beginOp (fun _ s' => within E (Fs.namei p 1 path) (fun r s'' =>
    match r with
    | none => known = none ∧ within E Fs.endOp (fun _ => H) s''
    | some ip => within E (Fs.ilock ip) (fun _ => G ip) s'') s') s
  session : ∀ ip, Session E ip known (G ip) H

section

variable {I : Layout} {F : Finset Nat} {S : Multiset Space} {lo : Multiset Nat}
  {E : Stop → Prop} {ip : Slot} {known : Option (List UInt8)} {G H : Fs → Prop} {w : Caller}
  {s : Fs} {m : Mem} {sp : Space} {mem mem0 : Memory} {sz filesz addr d i n : Nat}
  {offset off : UInt32} {data : List UInt8}

theorem fileRead_eq {r : Int × List UInt8} {off : Nat} (h : r = fileRead data off n)
    (hr : r.1 = n) : off + n ≤ data.length ∧ r.2 = (data.drop off).take n := by
  rw [fileRead] at h
  split at h
  next =>
    subst h
    simp only at hr
    omega
  next hno =>
    subst h
    have hlen : ((data.drop off).take n).length = n := Int.ofNat.inj hr
    rw [List.length_take, List.length_drop] at hlen
    exact ⟨by omega, rfl⟩

theorem fileRead_full {off : Nat} (h : off + n ≤ data.length) (hlen : data.length < 2 ^ 32) :
    (fileRead data off n).1 = n := by
  rw [fileRead, if_neg (by omega)]
  simp only [List.length_take, List.length_drop, Nat.cast_inj]
  omega

/-! ## `loaduvm` -/

/-- The first `i` bytes at `offset` have been loaded to `addr`. -/
def Part (known : Option (List UInt8)) (offset : UInt32) (addr : Nat) (mem0 : Memory) (i : Nat)
    (mem : Memory) : Prop :=
  ∀ data ∈ known, mem = mem0.put addr ((data.drop offset.toNat).take i) ∧
    (i = 0 ∨ offset.toNat + i ≤ data.length)

theorem Part.zero : Part known offset addr mem 0 mem := fun _ _ => ⟨by simp, .inl rfl⟩

/-- One page more. -/
theorem Part.step {r : Int × List UInt8} (h : Part known offset addr mem0 i mem)
    (hsmall : ∀ data ∈ known, data.length < 2 ^ 32)
    (hr : ∀ data ∈ known, r = fileRead data (offset + UInt32.ofNat i).toNat n) (hn : r.1 = n) :
    Part known offset addr mem0 (i + n) (mem.put (addr + i) r.2) := by
  intro data hdata
  obtain ⟨hmem, hle⟩ := h data hdata
  have hlt := hsmall data hdata
  have hoff : (offset + UInt32.ofNat i).toNat = offset.toNat + i := by
    have := offset.toNat_lt
    rw [UInt32.toNat_add, UInt32.toNat_ofNat']
    omega
  obtain ⟨hend, hl⟩ := fileRead_eq (hr data hdata) hn
  rw [hoff] at hend hl
  refine ⟨?_, .inr (by omega)⟩
  have hlen : ((data.drop offset.toNat).take i).length = i := by
    rw [List.length_take, List.length_drop]
    omega
  rw [hl, hmem, List.take_add, Memory.put_append, hlen, List.drop_drop]

/-- What `loaduvm` has done: all of it, or the file is too short. -/
def Filled (I : Layout) (F : Finset Nat) (S : Multiset Space) (lo : Multiset Nat) (G : Fs → Prop)
    (known : Option (List UInt8)) (w : Caller) (d n sz : Nat) (offset : UInt32) (addr filesz : Nat)
    (mem0 : Memory) (ok : Bool) (w' : Caller) : Prop :=
  ∃ s' m' sp', w' = w.withState s' m' ∧ G s' ∧ sp'.dir = d ∧ m'.avail = n ∧
    Heap F m' (sp' ::ₘ S) lo ∧ (ok = true → ∃ mem, sp'.Image I sz none mem ∧ Part known offset addr
    mem0 filesz mem) ∧ (ok = false → filesz ≠ 0 ∧ ∀ data ∈ known, data.length <
    offset.toNat + filesz)

/-- The loop of `loaduvm`, from page `v + j` of the program on. -/
theorem Session.wp_loadLoop (hs : Session E ip known G H) {v j k : Nat} (hG : G s) (hd : sp.dir = d)
    (h : sp.Image I sz none mem) (hh : Heap F m (sp ::ₘ S) lo) (hend : v * PGSIZE + filesz ≤ sz)
    (hfuel : filesz + PGSIZE ≤ j * PGSIZE + k * PGSIZE)
    (hk : 0 < k) (hpart : Part known offset (v * PGSIZE) mem0 (min (j * PGSIZE) filesz) mem) :
    wp (loadLoop d (v * PGSIZE) ip offset filesz k (j * PGSIZE))
      (Filled I F S lo G known w d m.avail sz offset (v * PGSIZE) filesz mem0) (fun e _ => E e)
      (w.withState s m) := by
  induction k generalizing j s m sp mem with
  | zero => exact absurd hk (Nat.lt_irrefl 0)
  | succ k ih =>
    rw [loadLoop]
    by_cases hlt : j * PGSIZE < filesz
    case neg =>
      rw [if_neg hlt]
      rw [Nat.min_eq_right (by omega)] at hpart
      exact ⟨s, m, sp, rfl, hG, hd, rfl, hh, fun _ => ⟨mem, h, hpart⟩, (by rintro ⟨⟩)⟩
    rw [Nat.min_eq_left hlt.le] at hpart
    have hsize : sz + PGSIZE ≤ 2 ^ 32 := by
      have := h.size
      simp only [KERNBASE, KERNPAGE, PGSIZE] at this ⊢
      omega
    have hsum : (v + j) * PGSIZE = v * PGSIZE + j * PGSIZE := Nat.add_mul ..
    have hpage : add32 (v * PGSIZE) (j * PGSIZE) = (v + j) * PGSIZE := by
      rw [hsum, add32, Nat.mod_eq_of_lt (by omega)]
    have hnext : add32 (j * PGSIZE) PGSIZE = (j + 1) * PGSIZE := by
      rw [Nat.succ_mul, add32, Nat.mod_eq_of_lt (by omega)]
    obtain ⟨t, f, x, hwalk, hframe, hmaps, -⟩ := h.walk hh (w := v + j) (by omega)
    generalize hn : (if filesz - j * PGSIZE < PGSIZE then filesz - j * PGSIZE else PGSIZE) = n
    have hn' : n ≤ PGSIZE ∧ j * PGSIZE + n = min ((j + 1) * PGSIZE) filesz := by
      rw [Nat.succ_mul]
      split at hn <;> omega
    have hn32 : (UInt32.ofNat n).toNat = n := by
      rw [UInt32.toNat_ofNat']
      simp only [PGSIZE] at hn'
      omega
    rw [hd] at hwalk
    rw [if_pos hlt, wp_bind, wp_onMem, hpage, wp_of_ok hwalk]
    simp only [wp_bind, wp_gets]
    rw [wp_onFs]
    refine hs.read s _ _ _ hG (by rw [hn32]; exact hn'.1) fun r s1 hG1 hlen hr => ?_
    rw [hn32] at hlen hr
    simp only [wp_ite, wp_pure]
    rw [wp_onMem, wp_update]
    rw [show (w.withState s m).mem = m from rfl, hframe]
    obtain ⟨sp', hdir, hh', h'⟩ := h.store hh (by omega) hmaps
      (show 0 + r.2.length ≤ PGSIZE by omega)
    rw [Nat.add_zero, hsum] at h'
    refine ⟨fun hshort => ⟨s1, _, sp', rfl, hG1, hdir.trans hd, rfl, hh', (by rintro ⟨⟩), fun _ =>
      ⟨by omega, fun data hdata => not_le.1 fun hle => hshort ?_⟩⟩, fun hok => ?_⟩
    · have hlen := hs.small data hdata
      rw [hr data hdata]
      refine fileRead_full ?_ hlen
      rw [UInt32.toNat_add, UInt32.toNat_ofNat']
      omega
    have hpart' := hpart.step hs.small hr (not_not.mp hok)
    rw [hn'.2] at hpart'
    rw [hnext]
    refine ih hG1 (hdir.trans hd) h' hh' ?_ ?_ hpart'
    · rw [Nat.succ_mul] at hfuel ⊢
      omega
    · rcases Nat.eq_zero_or_pos k with rfl | hk'
      · rw [Nat.zero_add, Nat.one_mul] at hfuel
        omega
      · exact hk'

theorem Session.wp_loaduvm (hs : Session E ip known G H) (hG : G s) (hd : sp.dir = d)
    (h : sp.Image I sz none mem) (hh : Heap F m (sp ::ₘ S) lo) (haddr : addr % PGSIZE = 0)
    (hend : addr + filesz ≤ sz) :
    wp (loaduvm d addr ip offset filesz)
      (Filled I F S lo G known w d m.avail sz offset addr filesz mem)
      (fun e _ => E e) (w.withState s m) := by
  obtain ⟨v, rfl⟩ : ∃ v, addr = v * PGSIZE := ⟨addr /
    PGSIZE, by rw [← Nat.div_add_mod' addr PGSIZE, haddr]; simp [PGSIZE]⟩
  have hsize := h.size
  have hpart : Part known offset (v * PGSIZE) mem (min (0 * PGSIZE) filesz) mem := by
    rw [Nat.zero_mul, Nat.zero_min]
    exact .zero
  simp only [loaduvm, wp_bind, wp_ite, wp_halt]
  refine ⟨fun hn => absurd haddr hn, fun _ => ?_⟩
  rw [← Nat.zero_mul PGSIZE]
  refine hs.wp_loadLoop hG hd h hh hend ?_ (Nat.succ_pos _) hpart
  simp only [KERNBASE, KERNPAGE, PGSIZE] at *
  omega

/-! ## The program headers -/

/-- What has been loaded of a list of segments, if the file is known. -/
def Segments (known : Option (List UInt8)) (hdrs : List UInt8 → List Proghdr)
    (mem0 : Memory) (sz : Nat) (mem : Memory) : Prop :=
  ∀ data ∈ known, mem = putSegments data mem0 (loadable (hdrs data)) ∧
    ∀ ph ∈ loadable (hdrs data), SegmentOk data sz ph

/-- What the loop over the headers has done, from `n` frames that could be had: the program has the
size that the headers give, or they do not pass or there are not enough frames. -/
def Looped (I : Layout) (F : Finset Nat) (S : Multiset Space) (lo : Multiset Nat) (G : Fs → Prop)
    (known : Option (List UInt8)) (w : Caller) (d n sz k : Nat) (off : UInt32) (mem : Memory)
    (r : Option Nat) (w' : Caller) : Prop :=
  ∃ s' m' sp', w' = w.withState s' m' ∧ G s' ∧ sp'.dir = d ∧ Heap F m' (sp' ::ₘ S) lo ∧
    (∀ sz' ∈ r, sz ≤ sz' ∧ n + userFrames (pageUp sz) = m'.avail + userFrames (pageUp sz') ∧
      (∀ data ∈ known, sizeFrom data k off sz = some sz') ∧ ∃ mem', sp'.Image I sz' none mem' ∧
        Segments known (fun data => proghdrs data off k) mem sz' mem') ∧
    (r = none → ∀ data ∈ known, ∀ sz' ∈ sizeFrom data k off sz,
      n + userFrames (pageUp sz) < userFrames (pageUp sz'))

theorem pageUp_mono {a b : Nat} (h : a ≤ b) : pageUp a ≤ pageUp b :=
  pageUp_le.2 (h.trans (pageUp_le.1 le_rfl))

theorem Session.wp_loadSegments (hs : Session E ip known G H) (hF : F ⊆ I.managed)
    {k : Nat} (hG : G s) (hd : sp.dir = d) (h : sp.Image I sz none mem)
    (hh : Heap F m (sp ::ₘ S) lo) :
    wp (loadSegments I d ip k off sz) (Looped I F S lo G known w d m.avail sz k off mem)
      (fun e _ => E e) (w.withState s m) := by
  induction k generalizing s m sp mem sz off with
  | zero =>
    refine ⟨s, m, sp, rfl, hG, hd, hh, ?_, (by rintro ⟨⟩)⟩
    rintro sz' ⟨⟩
    exact ⟨le_rfl, rfl, fun _ _ => rfl, mem, h, fun data _ => ⟨rfl, (by rintro _ ⟨⟩)⟩⟩
  | succ k ih =>
    rw [loadSegments, wp_bind, wp_onFs]
    refine hs.read s _ _ _ hG (by simp [PGSIZE]) fun r s1 hG1 _ hr => ?_
    -- leaving the loop for `bad`
    have hbad : ∀ {m' : Mem} {sp' : Space} {s' : Fs}, G s' → sp'.dir = d →
        Heap F m' (sp' ::ₘ S) lo → (∀ data ∈ known, ∀ sz' ∈ sizeFrom data (k + 1) off sz,
          m.avail + userFrames (pageUp sz) < userFrames (pageUp sz')) →
        wp (pure none : CallerM (Option Nat)) (Looped I F S lo G known w d m.avail sz
        (k + 1) off mem)
          (fun e _ => E e) (w.withState s' m') :=
      fun hG' hdir hh' hsize => ⟨_, _, _, rfl, hG', hdir, hh', (by rintro _ ⟨⟩), fun _ => hsize⟩
    simp only [wp_ite]
    refine ⟨fun hshort => hbad hG1 hd hh fun data hdata sz' hsz' => ?_, fun hr32 => ?_⟩
    · have hlt : data.length < off.toNat + 32 := not_le.1 fun hle => hshort (by
        rw [hr data hdata]
        exact fileRead_full hle (hs.small data hdata))
      simp [sizeFrom, hlt] at hsz'
    have hread : ∀ data ∈ known, ¬data.length < off.toNat + 32 ∧
        Proghdr.ofBytes ((data.drop off.toNat).take 32) = Proghdr.ofBytes r.2 :=
        fun data hdata => by
      obtain ⟨hle, hbytes⟩ := fileRead_eq (hr data hdata) (not_not.mp hr32)
      exact ⟨not_lt.2 hle, by rw [hbytes]; rfl⟩
    generalize Proghdr.ofBytes r.2 = ph at hread
    have hstep : ∀ data ∈ known, sizeFrom data (k + 1) off sz =
        if ph.type ≠ ELF_PROG_LOAD then sizeFrom data k (off + 32) sz
        else if Acceptable data sz ph then
          sizeFrom data k (off + 32) (max sz (ph.vaddr.toNat + ph.memsz.toNat))
        else none := fun data hdata => by
      simp only [sizeFrom, (hread data hdata).2, if_neg (hread data hdata).1]
    -- a segment that does not pass
    have hrefuse : ph.type = ELF_PROG_LOAD → (∀ data ∈ known, ¬Acceptable data sz ph) →
        ∀ data ∈ known, ∀ sz' ∈ sizeFrom data (k + 1) off sz,
          m.avail + userFrames (pageUp sz) < userFrames (pageUp sz') := by
      intro htype hno data hdata sz' hsz'
      rw [hstep data hdata, if_neg (not_not.2 htype), if_neg (hno data hdata)] at hsz'
      cases hsz'
    refine ⟨fun htype => ?_, fun htype => ⟨fun hlt => ?_, fun hfilesz =>
      ⟨fun hlt => ?_, fun hover => ?_⟩⟩⟩
    · refine (ih hG1 hd h hh).mono ?_ fun _ _ h => h
      rintro r1 w' ⟨s', m', sp', hw', hG', hdir, hh', hres, hnone⟩
      refine ⟨s', m', sp', hw', hG', hdir, hh', fun sz' hsz' => ?_, fun hr data hdata => ?_⟩
      · obtain ⟨hle, hav, hsize, mem', h', hseg⟩ := hres sz' hsz'
        refine ⟨hle, hav, fun data hdata => ?_, mem', h', fun data hdata => ?_⟩
        · rw [hstep data hdata, if_pos htype, hsize data hdata]
        · dsimp only [proghdrs, loadable]
          rw [List.filter_cons_of_neg (by simpa [(hread data hdata).2] using htype)]
          exact hseg data hdata
      · rw [hstep data hdata, if_pos htype]
        exact hnone hr data hdata
    · refine hbad hG1 hd hh (hrefuse (not_not.1 htype) fun data _ hok => ?_)
      exact absurd hok.1 (not_le.2 (UInt32.lt_iff_toNat_lt.1 hlt))
    · refine hbad hG1 hd hh (hrefuse (not_not.1 htype) fun data _ hok => ?_)
      have := hok.2.1
      rw [UInt32.lt_iff_toNat_lt, UInt32.toNat_add, Nat.mod_eq_of_lt] at hlt
      · omega
      · rw [kernbase_eq] at this
        omega
    · have hvm : (ph.vaddr + ph.memsz).toNat = ph.vaddr.toNat + ph.memsz.toNat := by
        have := ph.vaddr.toNat_lt
        have := ph.memsz.toNat_lt
        rw [UInt32.lt_iff_toNat_lt, UInt32.toNat_add] at hover
        rw [UInt32.toNat_add]
        omega
      rw [UInt32.lt_iff_toNat_lt] at hfilesz
      rw [wp_bind, wp_onMem, hvm]
      subst hd
      refine (h.wp_allocuvm hF hh).mono ?_ fun _ _ h => h
      rintro sz1 m1 ⟨sp1, hdir1, hh1, h1, hshort⟩
      simp only [wp_ite]
      refine ⟨fun hzero => hbad hG1 hdir1 hh1 fun data hdata sz' hsz' => ?_, fun hsz1 =>
        ⟨fun halign =>
        hbad hG1 hdir1 hh1 (hrefuse (not_not.1 htype) fun data _ hok => halign hok.2.2.2.1),
          fun halign => ?_⟩⟩
      · rw [hstep data hdata, if_neg htype] at hsz'
        split at hsz'
        next hok =>
          exact (hshort hzero hok.2.1 hok.2.2.1).trans_le
            (userFrames_mono (pageUp_mono (le_sizeFrom hsz')))
        next => cases hsz'
      obtain ⟨hlow, rfl, h1, hav1⟩ := h1 hsz1
      rw [wp_bind]
      refine (hs.wp_loaduvm hG1 hdir1 h1 hh1 (not_not.mp halign) (by omega)).mono ?_ fun _ _ h => h
      rintro ok _ ⟨s2, m2, sp2, rfl, hG2, hdir2, hav2, hh2, h2, hfile⟩
      cases ok with
      | false =>
        obtain ⟨hne, hlen⟩ := hfile rfl
        refine hbad hG2 hdir2 hh2 (hrefuse (not_not.1 htype) fun data hdata hok => ?_)
        have := hlen data hdata
        have := hok.2.2.2.2
        omega
      | true =>
        obtain ⟨mem2, h2, hpart⟩ := h2 rfl
        have hok : ∀ data ∈ known, Acceptable data sz ph := fun data hdata =>
          ⟨by omega, hlow, by omega, not_not.1 halign, (hpart data hdata).2⟩
        have hsize : ∀ data ∈ known, sizeFrom data (k + 1) off sz =
            sizeFrom data k (off + 32) (max sz (ph.vaddr.toNat + ph.memsz.toNat)) :=
            fun data hdata => by
          rw [hstep data hdata, if_neg htype, if_pos (hok data hdata)]
        rw [if_pos rfl]
        refine (ih hG2 hdir2 h2 hh2).mono ?_ fun _ _ h => h
        rintro r1 w' ⟨s', m', sp', hw', hG', hdir, hh', hres, hnone⟩
        refine ⟨s', m', sp', hw', hG', hdir, hh', fun sz' hsz' => ?_,
          fun hr data hdata sz' hsz' => ?_⟩
        · obtain ⟨hle, hav, hrest, mem', h', hseg⟩ := hres sz' hsz'
          refine ⟨by omega, by omega, fun data hdata => (hsize data hdata).trans
            (hrest data hdata), mem', h', fun data hdata => ?_⟩
          obtain ⟨hmem2, hin⟩ := hpart data hdata
          obtain ⟨hmem', hall⟩ := hseg data hdata
          dsimp only [proghdrs, loadable]
          rw [List.filter_cons_of_pos (by simpa [(hread data hdata).2] using htype),
            (hread data hdata).2, List.forall_mem_cons]
          refine ⟨?_, ⟨by omega, by omega, hin⟩, hall⟩
          rw [hmem', hmem2]
          rfl
        · rw [hsize data hdata] at hsz'
          have := hnone hr data hdata sz' hsz'
          omega

/-! ## The file -/

/-- Leaving by `bad`. -/
theorem Session.wp_bad (hs : Session E ip known G H) (hF : F ⊆ I.managed) {pgdir : Option Nat}
    {Q : Unit → Caller → Prop} (hG : G s)
    (hh : (pgdir = none ∧ Heap F m S lo) ∨ ∃ sp : Space, pgdir = some sp.dir ∧
      Heap F m (sp ::ₘ S) lo)
    (hQ : ∀ s' m', H s' → Heap F m' S lo → Q () (w.withState s' m')) :
    wp (bad I pgdir (some ip)) Q (fun e _ => E e) (w.withState s m) := by
  have hclose : ∀ m', Heap F m' S lo → wp (onFs (Fs.iunlockput ip) >>= fun _ => onFs Fs.endOp) Q
      (fun e _ => E e) (w.withState s m') := by
    intro m' hh'
    rw [wp_bind, wp_onFs]
    exact (hs.close s (fun _ s' => Q () (w.withState s' m')) hG fun s' hH => hQ s' m' hH hh').mono
      (fun _ _ h => wp_onFs.mpr h) fun _ _ h => h
  rcases hh with ⟨rfl, hh⟩ | ⟨sp, rfl, hh⟩
  · exact hclose m hh
  · rw [bad, wp_bind, wp_onMem]
    exact wp_freevm hF hh hclose

/-- `exec` while it has the file locked. -/
theorem Session.wp_loadFile (hs : Session E ip known G H) (hF : F ⊆ I.managed)
    {Q : Option (Nat × Nat × Nat) → Caller → Prop} (hG : G s) (hh : Heap F m S lo)
    (hmagic : (∀ data ∈ known, 52 ≤ data.length ∧ ¬IsElf data) → E (.panic "bad elf magic"))
    (hnone : ∀ s' m', H s' → Heap F m' S lo →
      (∀ data ∈ known, (data.length < 52 ∨ IsElf data) ∧ ∀ sz, ¬Loads I data m sz) →
      Q none (w.withState s' m'))
    (hsome : ∀ s' m' sp sz mem entry, H s' → Heap F m' (sp ::ₘ S) lo → sp.Image I sz none mem →
      m.avail = m'.avail + userFrames (pageUp sz) + kernelFrames I →
      (∀ data ∈ known, Loaded data sz mem ∧ programSize data = some sz) →
      Q (some (sp.dir, sz, entry)) (w.withState s' m')) :
    wp (loadFile I ip) Q (fun e _ => E e) (w.withState s m) := by
  rw [loadFile, wp_bind, wp_onFs]
  refine hs.read s _ _ _ hG (by simp [PGSIZE]) fun r s1 hG1 _ hr => ?_
  simp only [wp_ite, wp_halt]
  refine ⟨fun hshort => ?_, fun h52 => ?_⟩
  · rw [wp_bind]
    refine hs.wp_bad hF hG1 (.inl ⟨rfl, hh⟩) fun s' m' hH hh' => hnone s' m' hH hh' ?_
    intro data hdata
    have hlt : data.length < 52 := not_le.mp fun hle => hshort (by
      rw [hr data hdata]
      exact fileRead_full (by simpa using hle) (hs.small data hdata))
    exact ⟨.inl hlt, fun sz hl => absurd hl.elf.1 (by omega)⟩
  have hread : ∀ data ∈ known, 52 ≤ data.length ∧ r.2 = data.take 52 := fun data hdata => by
    simpa using fileRead_eq (hr data hdata) (not_not.mp h52)
  have helf : ∀ data ∈ known, Elfhdr.ofBytes r.2 = elfhdr data := fun data hdata => by
    rw [(hread data hdata).2, elfhdr]
  refine ⟨fun hbad => hmagic fun data hdata => ⟨(hread data hdata).1, fun h => hbad ?_⟩,
    fun hok => ?_⟩
  · rw [helf data hdata, h.2]
  have hIsElf : ∀ data ∈ known, IsElf data := fun data hdata =>
    ⟨(hread data hdata).1, by rw [← helf data hdata]; exact not_not.mp hok⟩
  rw [wp_bind, wp_onMem]
  refine wp_setupkvm hF hh (fun m1 hfew hh1 => ?_) fun sp m1 hmaps htight hh1 => ?_
  · rw [wp_bind]
    refine hs.wp_bad hF hG1 (.inl ⟨rfl, hh1⟩) fun s' m' hH hh' =>
      hnone s' m' hH hh' fun data hdata => ⟨.inr (hIsElf data hdata), fun sz hl => ?_⟩
    have := hl.frames
    omega
  · simp only [wp_bind]
    have h0 : userFrames (pageUp 0) = 0 := by simp [userFrames, pageUp, PGSIZE, NPDENTRIES]
    refine (hs.wp_loadSegments hF hG1 rfl (.start hmaps htight.1) hh1).mono ?_ fun _ _ h => h
    rintro r2 _ ⟨s2, m2, sp2, rfl, hG2, hdir2, hh2, hres, hfew⟩
    rw [← hdir2]
    cases r2 with
    | none =>
      simp only [wp_bind]
      refine hs.wp_bad hF hG2 (.inr ⟨_, rfl, hh2⟩) fun s' m' hH hh' =>
        hnone s' m' hH hh' fun data hdata => ⟨.inr (hIsElf data hdata), fun sz hl => ?_⟩
      have hsize := hl.size
      rw [programSize, ← helf data hdata] at hsize
      have := hfew rfl data hdata sz hsize
      have := hl.frames
      have := userFrames_mono (Nat.le_add_right (pageUp sz) 2)
      omega
    | some sz =>
      obtain ⟨-, hav, hsize, mem, h, hseg⟩ := hres sz rfl
      simp only [wp_bind]
      rw [wp_onFs]
      refine (hs.close s2 (fun _ s' => Q (some (sp2.dir, sz, leAt r.2 24 4)) (w.withState s' m2))
        hG2 fun s' hH => hsome s' m2 sp2 sz mem _ hH hh2 h (by omega) fun data hdata => ?_).mono
        (fun _ _ h => wp_onFs.mpr h) fun _ _ h => h
      have hdata' := hseg data hdata
      have hsize' := hsize data hdata
      rw [helf data hdata] at hdata' hsize'
      exact ⟨⟨hIsElf data hdata, hdata'.1, hdata'.2⟩, hsize'⟩

/-! ## The stack -/

/-- The pages for the stack. -/
theorem wp_addStack (hF : F ⊆ I.managed) {Q : Option Nat → Caller → Prop}
    (h : sp.Image I sz none mem) (hh : Heap F m (sp ::ₘ S) lo)
    (hnone : ∀ m', Heap F m' S lo → ((pageUp sz + 2) * PGSIZE < KERNBASE →
      m.avail + userFrames (pageUp sz) < userFrames (pageUp sz + 2)) → Q none (w.withState s m'))
    (hsome : ∀ sp' m', sp'.dir = sp.dir → Heap F m' (sp' ::ₘ S) lo →
      sp'.Image I ((pageUp sz + 2) * PGSIZE) (some (pageUp sz)) mem →
      (pageUp sz + 2) * PGSIZE < KERNBASE →
      userFrames (pageUp sz + 2) ≤ m.avail + userFrames (pageUp sz) →
      Q (some ((pageUp sz + 2) * PGSIZE)) (w.withState s m')) :
    wp (addStack I sp.dir sz) Q (fun e _ => E e) (w.withState s m) := by
  have hround : PGROUNDUP sz = pageUp sz * PGSIZE := rfl
  have htop : (pageUp sz + 2) * PGSIZE = pageUp sz * PGSIZE + 2 * PGSIZE := Nat.add_mul ..
  have hsize := h.round.size
  have hadd : add32 (pageUp sz * PGSIZE) (2 * PGSIZE) = (pageUp sz + 2) * PGSIZE := by
    rw [htop, add32, Nat.mod_eq_of_lt]
    simp only [KERNBASE, KERNPAGE, PGSIZE] at hsize ⊢
    omega
  have hmax : max (pageUp sz * PGSIZE) ((pageUp sz + 2) * PGSIZE) = (pageUp sz + 2) * PGSIZE := by
    omega
  have hup : ∀ n, pageUp (n * PGSIZE) = n := fun n => by
    simp only [pageUp, PGSIZE]
    omega
  simp only [addStack, wp_bind, hround, hadd]
  rw [wp_onMem]
  refine (h.round.wp_allocuvm hF hh).mono ?_ fun _ _ h => h
  rintro sz1 m1 ⟨sp1, hdir1, hh1, h1, hfew⟩
  rw [hmax, hup, hup] at hfew
  simp only [wp_ite, wp_bind, ← hdir1]
  refine ⟨fun hzero => ?_, fun hne => ?_⟩
  · rw [bad, wp_bind, wp_onMem]
    exact wp_freevm hF hh1 fun m2 hh2 => hnone m2 hh2 fun hlt => hfew hzero hlt (by simp [PGSIZE])
  · obtain ⟨hlt, rfl, h1, hav⟩ := h1 hne
    have hsub : sub32 ((pageUp sz + 2) * PGSIZE) (2 * PGSIZE) = pageUp sz * PGSIZE := by
      rw [htop, sub32]
      simp only [KERNBASE, KERNPAGE, PGSIZE] at hsize ⊢
      omega
    rw [hmax] at h1 hav ⊢
    rw [hup, hup] at hav
    rw [hsub, wp_onMem]
    refine h1.wp_clearpteu hh1 ?_ fun sp2 m2 hdir2 hh2 h2 =>
      hsome sp2 m2 (hdir2.trans hdir1) hh2 h2 hlt (by omega)
    rw [htop]
    simp only [PGSIZE]
    omega

/-- `exec` up to the arguments. -/
theorem Access.wp_loadImage {p : PId} {path : List UInt8} {G : Slot → Fs → Prop}
    (ha : Access E p path known s H G) (hF : F ⊆ I.managed)
    {Q : Option (Nat × Nat × Nat) → Caller → Prop} (hh : Heap F m S lo)
    (hmagic : (∀ data ∈ known, 52 ≤ data.length ∧ ¬IsElf data) → E (.panic "bad elf magic"))
    (hnone : ∀ s' m', H s' → Heap F m' S lo →
      (∀ data ∈ known, (data.length < 52 ∨ IsElf data) ∧ ∀ sz, ¬Loads I data m sz) →
      Q none (w.withState s' m'))
    (hsome : ∀ s' m' sp sz mem entry, H s' → Heap F m' (sp ::ₘ S) lo →
      sp.Image I ((pageUp sz + 2) * PGSIZE) (some (pageUp sz)) mem →
      (∀ data ∈ known, Loaded data (pageUp sz * PGSIZE) mem ∧ Loads I data m sz) →
      Q (some (sp.dir, (pageUp sz + 2) * PGSIZE, entry)) (w.withState s' m')) :
    wp (loadImage I p path) Q (fun e _ => E e) (w.withState s m) := by
  simp only [loadImage, wp_bind]
  rw [wp_onFs]
  refine ha.start.mono (fun _ s1 hnamei => ?_) fun _ _ h => h
  rw [wp_onFs]
  refine hnamei.mono (fun r s2 hr => ?_) fun _ _ h => h
  cases r with
  | none =>
    simp only [wp_bind]
    rw [wp_onFs]
    exact hr.2.mono (fun _ s3 hH => hnone s3 m hH hh (by simp [hr.1])) fun _ _ h => h
  | some ip =>
    simp only [wp_bind]
    rw [wp_onFs]
    refine hr.mono (fun _ s3 hG => ?_) fun _ _ h => h
    refine (ha.session ip).wp_loadFile hF hG hh hmagic hnone
      fun s' m' sp sz mem entry hH hh' h hav hload => ?_
    have hup : sz ≤ pageUp sz * PGSIZE := pageUp_le.mp le_rfl
    simp only [wp_bind]
    refine wp_addStack hF h hh' (fun m4 hh4 hfew => ?_) fun sp4 m4 hdir hh4 h4 hlow henough => ?_
    · refine hnone s' m4 hH hh4 fun data hdata => ⟨.inr (hload data hdata).1.elf, fun sz' hl => ?_⟩
      obtain rfl : sz = sz' := Option.some.inj ((hload data hdata).2.symm.trans hl.size)
      have := hfew hl.below
      have := hl.frames
      omega
    · rw [← hdir]
      refine hsome s' m4 sp4 sz mem entry hH hh4 h4 fun data hdata => ?_
      obtain ⟨⟨helf, hmem, hseg⟩, hsize⟩ := hload data hdata
      exact ⟨⟨helf, hmem, fun ph hph => (hseg ph hph).mono hup⟩, helf, hsize, hlow, by omega⟩

end

end Caller

end Xv6Rework
