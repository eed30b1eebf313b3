import Xv6Rework.Fs.Dir

/-!
# Open files

`kernel/fs/file.c`.  A pipe has no part in the file system: closing one changes
nothing here, and what is read from one or taken by one comes from outside.
-/

namespace Xv6Rework.Fs

open Prog

/-- `filealloc`. -/
def filealloc : FsM (Option (Fin NFILE)) := do
  match (← gets fun s => (List.finRange NFILE).find? fun f => (s.file f).ref == 0) with
  | some f =>
    setFile f fun x => { x with ref := 1 }
    pure (some f)
  | none => pure none

/-- `filedup`. -/
def filedup (f : Fin NFILE) : FsM Unit := do
  if (← gets fun s => (s.file f).ref) < 1 then
    halt "filedup"
  setFile f fun x => { x with ref := x.ref + 1 }

/-- `fileclose`. -/
def fileclose (f : Fin NFILE) : FsM Unit := do
  if (← gets fun s => (s.file f).ref) < 1 then
    halt "fileclose"
  setFile f fun x => { x with ref := x.ref - 1 }
  let ff ← gets fun s => s.file f
  if 0 < ff.ref then
    pure ()
  else
    setFile f fun x => { x with ref := 0, type := .FD_NONE }
    if ff.type = .FD_INODE then
      beginOp
      iput (← deref ff.ip)
      endOp

/-- `ilock(f->ip)`, which rejects a null pointer. -/
def ilockFile (f : Fin NFILE) : FsM Slot := do
  match (← gets fun s => (s.file f).ip) with
  | none => halt "ilock"
  | some ip =>
    ilock ip
    pure ip

/-- `f->off += r`, if `r > 0`. -/
def advance (f : Fin NFILE) (r : Int) : FsM Unit := do
  if 0 < r then
    setFile f fun x => { x with off := x.off + UInt32.ofNat r.toNat }

/-- `piperead`, `pipe.c`. -/
def piperead (n : UInt32) : FsM (Int × List UInt8) := do
  match (← await) with
  | none => pure (-1, [])
  | some l => pure ((l.take n.toNat).length, l.take n.toNat)

/-- `pipewrite`, `pipe.c`. -/
def pipewrite (n : Int) : FsM Int := do
  match (← await) with
  | none => pure (-1)
  | some _ => pure n

/-- `fileread`. -/
def fileread (f : Fin NFILE) (n : UInt32) : FsM (Int × List UInt8) := do
  let x ← gets fun s => s.file f
  if !x.readable then
    pure (-1, [])
  else
    match x.type with
    | .FD_PIPE => piperead n
    | .FD_INODE =>
      let ip ← ilockFile f
      let (r, l) ← readi ip x.off n
      advance f r
      iunlock ip
      pure (r, l)
    | _ => halt "fileread"

/-- The most `filewrite` writes in one transaction. -/
def filewriteMax : Nat := ((MAXOPBLOCKS - 1 - 1 - 2) / 2) * 512

/-- One round of the loop of `filewrite`. -/
def filewriteRound (f : Fin NFILE) (src : Nat → UInt8) (n1 : Nat) : FsM Int := do
  beginOp
  let ip ← ilockFile f
  let r ← writei ip src (← gets fun s => (s.file f).off) (UInt32.ofNat n1)
  advance f r
  iunlock ip
  endOp
  pure r

/-- The loop of `filewrite`.  `n` is what is left to write, and bounds the rounds;
the result says whether all of it was written. -/
def filewriteLoop (f : Fin NFILE) : Nat → (Nat → UInt8) → Nat → FsM Bool
  | 0, _, n => pure (n == 0)
  | k + 1, src, n => do
    if n = 0 then
      pure true
    else
      let n1 := min n filewriteMax
      let r ← filewriteRound f src n1
      if r < 0 then
        pure false
      else if r ≠ n1 then
        halt "short filewrite"
      else
        filewriteLoop f k (fun i => src (n1 + i)) (n - n1)

/-- `filewrite`. -/
def filewrite (f : Fin NFILE) (src : Nat → UInt8) (n : Int) : FsM Int := do
  let x ← gets fun s => s.file f
  if !x.writable then
    pure (-1)
  else
    match x.type with
    | .FD_PIPE => pipewrite n
    | .FD_INODE =>
      if n < 0 then
        pure (-1)
      else if (← filewriteLoop f n.toNat src n.toNat) then
        pure n
      else
        pure (-1)
    | _ => halt "filewrite"

end Xv6Rework.Fs
