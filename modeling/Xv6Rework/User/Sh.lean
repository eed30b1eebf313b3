import Xv6Rework.Lib.Prog
import Mathlib.Logic.Function.Basic

/-!
# The shell's parser

The part of `user/sh.c` that turns a command line into a tree of commands: `gettoken`
and `peek` on a cursor into the line, five functions that call each other, and
`nulterminate`, which ends the words of the line in place.

A pointer into the line is an offset.  The state of the parser is the cursor `*ps`; the
line is not written to before `nulterminate`.  `malloc` always succeeds.  The recursion
is cut off by a count of calls, and a run that is cut off hangs, so that termination is
a statement about the functions and not part of their definition.
-/

namespace Xv6Rework.Sh

open Prog

/-- `MAXARGS`. -/
def MAXARGS : Nat := 10

/-- `O_RDONLY`. -/
def O_RDONLY : Nat := 0x000

/-- `O_WRONLY`. -/
def O_WRONLY : Nat := 0x001

/-- `O_CREATE`. -/
def O_CREATE : Nat := 0x200

/-! ## Characters -/

/-- `'|'`. -/
def bar : UInt8 := 124

/-- `'('`. -/
def lparen : UInt8 := 40

/-- `')'`. -/
def rparen : UInt8 := 41

/-- `';'`. -/
def semi : UInt8 := 59

/-- `'&'`. -/
def amp : UInt8 := 38

/-- `'<'`. -/
def less : UInt8 := 60

/-- `'>'`. -/
def greater : UInt8 := 62

/-- `'+'`, which stands for `>>`. -/
def plus : UInt8 := 43

/-- `'a'`, which stands for a word. -/
def letter : UInt8 := 97

/-- `whitespace`. -/
def whitespace : List UInt8 := [32, 9, 13, 10, 11]

/-- `symbols`. -/
def symbols : List UInt8 := [less, bar, greater, amp, semi, lparen, rparen]

/-- `strchr`, where only whether there is such a character counts. -/
def strchr (l : List UInt8) (c : UInt8) : Bool := l.contains c

/-! ## Commands -/

/-- A command.  A word is where it starts and where it ends in the line. -/
inductive Cmd where
  | exec (argv : List (Nat × Nat))
  | redir (cmd : Cmd) (file efile : Nat) (mode fd : Nat)
  | pipe (left right : Cmd)
  | list (left right : Cmd)
  | back (cmd : Cmd)
deriving DecidableEq, Repr

/-- `cmd->argv[argc] = q; cmd->eargv[argc] = eq`, where `cmd` is the `execcmd` that
redirections have been wrapped around since. -/
def Cmd.addArg (q e : Nat) : Cmd → Cmd
  | .exec argv => .exec (argv ++ [(q, e)])
  | .redir cmd file efile mode fd => .redir (cmd.addArg q e) file efile mode fd
  | cmd => cmd

/-- The `switch` of `parseredirs`. -/
def Cmd.redirect (cmd : Cmd) (tok : UInt8) (q e : Nat) : Cmd :=
  if tok = less then
    .redir cmd q e O_RDONLY 0
  else if tok = greater then
    .redir cmd q e (O_WRONLY ||| O_CREATE) 1
  else if tok = plus then
    .redir cmd q e (O_WRONLY ||| O_CREATE) 1
  else
    cmd

/-! ## Tokens -/

/-- A NUL-terminated line in memory, from offset 0 on. -/
structure Text where
  mem : Nat → UInt8
  es : Nat
  nul : mem es = 0
  ne_nul : ∀ i < es, mem i ≠ 0

namespace Text

variable (x : Text)

/-- The first of the next `k` characters that does not satisfy `p`. -/
def scan (p : UInt8 → Bool) : Nat → Nat → Nat
  | 0, s => s
  | k + 1, s => if p (x.mem s) then scan p k (s + 1) else s

/-- `while(s < es && strchr(whitespace, *s)) s++`. -/
def skip (s : Nat) : Nat := x.scan (strchr whitespace) (x.es - s) s

/-- A character of a word. -/
def inWord (c : UInt8) : Bool := !strchr whitespace c && !strchr symbols c

/-- `while(s < es && !strchr(whitespace, *s) && !strchr(symbols, *s)) s++`. -/
def word (s : Nat) : Nat := x.scan inWord (x.es - s) s

/-- The `switch` of `gettoken`: what it returns, and where the token ends. -/
def token (s : Nat) : UInt8 × Nat :=
  if x.mem s = 0 then
    (0, s)
  else if [bar, lparen, rparen, semi, amp, less].contains (x.mem s) then
    (x.mem s, s + 1)
  else if x.mem s = greater then
    if x.mem (s + 1) = greater then
      (plus, s + 2)
    else
      (greater, s + 1)
  else
    (letter, x.word s)

/-- `gettoken`.  It returns `*q` and `*eq` beside the token. -/
def gettoken : Prog Nat (UInt8 × Nat × Nat) := do
  let q ← gets x.skip
  let (ret, e) := x.token q
  update fun _ => x.skip e
  pure (ret, q, e)

/-- `peek`. -/
def peek (toks : List UInt8) : Prog Nat Bool := do
  update x.skip
  let c ← gets x.mem
  pure (c != 0 && strchr toks c)

/-! ## The parser -/

/-- The loop of `parseline`. -/
def parsebacks : Nat → Cmd → Prog Nat Cmd
  | 0, _ => stop .hang
  | k + 1, cmd => do
    if ← x.peek [amp] then
      let _ ← x.gettoken
      parsebacks k (.back cmd)
    else
      pure cmd

/-- `parseredirs`. -/
def parseredirs : Nat → Cmd → Prog Nat Cmd
  | 0, _ => stop .hang
  | k + 1, cmd => do
    if ← x.peek [less, greater] then
      let (tok, _, _) ← x.gettoken
      let (t, q, e) ← x.gettoken
      if t ≠ letter then
        halt "missing file for redirection"
      else
        parseredirs k (cmd.redirect tok q e)
    else
      pure cmd

/-- The loop of `parseexec`. -/
def parseargs : Nat → Cmd → Nat → Prog Nat Cmd
  | 0, _, _ => stop .hang
  | k + 1, ret, argc => do
    if ← x.peek [bar, rparen, amp, semi] then
      pure ret
    else
      let (tok, q, e) ← x.gettoken
      if tok = 0 then
        pure ret
      else if tok ≠ letter then
        halt "syntax"
      else if MAXARGS ≤ argc + 1 then
        halt "too many args"
      else
        let ret ← x.parseredirs (x.es + 1) (ret.addArg q e)
        parseargs k ret (argc + 1)

mutual

/-- `parseline`. -/
def parseline : Nat → Prog Nat Cmd
  | 0 => stop .hang
  | k + 1 => do
    let cmd ← parsepipe k
    let cmd ← x.parsebacks (x.es + 1) cmd
    if ← x.peek [semi] then
      let _ ← x.gettoken
      let right ← parseline k
      pure (.list cmd right)
    else
      pure cmd

/-- `parsepipe`. -/
def parsepipe : Nat → Prog Nat Cmd
  | 0 => stop .hang
  | k + 1 => do
    let cmd ← parseexec k
    if ← x.peek [bar] then
      let _ ← x.gettoken
      let right ← parsepipe k
      pure (.pipe cmd right)
    else
      pure cmd

/-- `parseexec`. -/
def parseexec : Nat → Prog Nat Cmd
  | 0 => stop .hang
  | k + 1 => do
    if ← x.peek [lparen] then
      parseblock k
    else
      let ret ← x.parseredirs (x.es + 1) (.exec [])
      x.parseargs (x.es + 1) ret 0

/-- `parseblock`. -/
def parseblock : Nat → Prog Nat Cmd
  | 0 => stop .hang
  | k + 1 => do
    if !(← x.peek [lparen]) then
      halt "parseblock"
    else
      let _ ← x.gettoken
      let cmd ← parseline k
      if !(← x.peek [rparen]) then
        halt "syntax - missing )"
      else
        let _ ← x.gettoken
        x.parseredirs (x.es + 1) cmd

end

end Text

/-- `nulterminate`, on the memory of the line. -/
def nulterminate : Cmd → (Nat → UInt8) → (Nat → UInt8)
  | .exec argv, m => argv.foldl (fun m a => Function.update m a.2 0) m
  | .redir cmd _ efile _ _, m => Function.update (nulterminate cmd m) efile 0
  | .pipe left right, m => nulterminate right (nulterminate left m)
  | .list left right, m => nulterminate right (nulterminate left m)
  | .back cmd, m => nulterminate cmd m

/-- `parsecmd`, with the memory it leaves.  No run makes more nested calls than the
count given to `parseline`. -/
def parsecmd (x : Text) : Prog Nat (Cmd × (Nat → UInt8)) := do
  let cmd ← x.parseline (4 * x.es + 4)
  let _ ← x.peek []
  if (← gets id) ≠ x.es then
    halt "syntax"
  else
    pure (cmd, nulterminate cmd x.mem)

end Xv6Rework.Sh
