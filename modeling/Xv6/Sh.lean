import Mathlib.Data.List.Basic

/-!
# The parser of the shell

`sh.c` parses a line in place: tokens are pointers into the line, and `nulterminate` overwrites the
byte behind each word when the tree is complete. A line is the list of its bytes before the final
NUL, a pointer is an index. The four functions that call each other take fuel.
-/

namespace Xv6.Sh

abbrev Line := List UInt8

/-- The byte a pointer shows, the NUL at the end of the line. -/
def Line.char (line : Line) (i : Nat) : UInt8 := line.getD i 0

def strlen (line : Line) : Nat := (line.takeWhile (· ≠ 0)).length

def Line.string (line : Line) (i : Nat) : List UInt8 := (line.drop i).takeWhile (· ≠ 0)

inductive ShError
  | panic (msg : String)
  | outOfFuel

inductive Sym
  | bar
  | lparen
  | rparen
  | semi
  | amp
  | lt
  | gt
  | gtgt
  deriving DecidableEq

def Sym.bytes : Sym → List UInt8
  | .bar => [124]
  | .lparen => [40]
  | .rparen => [41]
  | .semi => [59]
  | .amp => [38]
  | .lt => [60]
  | .gt => [62]
  | .gtgt => [62, 62]

/-- What `gettoken` returns: `0`, a symbol, or `'a'` for a word. -/
inductive Tok
  | nul
  | sym (k : Sym)
  | word
  deriving DecidableEq

/-- Space, tab, carriage return, newline, vertical tab. -/
def whitespace : List UInt8 := [32, 9, 13, 10, 11]

def symbols : List UInt8 := [60, 124, 62, 38, 59, 40, 41]

def isWhite (c : UInt8) : Bool := whitespace.contains c

def isSymbol (c : UInt8) : Bool := symbols.contains c

/-- The loops of `gettoken` and `peek`. -/
def skipWhile (p : UInt8 → Bool) (line : Line) (es : Nat) : Nat → Nat → Nat
  | 0, s => s
  | fuel + 1, s =>
    if s < es && p (line.char s) then skipWhile p line es fuel (s + 1) else s

def skip (p : UInt8 → Bool) (line : Line) (es s : Nat) : Nat := skipWhile p line es es s

/-- The token at `q` and the pointer behind it. -/
def scan (line : Line) (es q : Nat) : Tok × Nat :=
  let c := line.char q
  if c = 0 then (.nul, q)
  else if c = 124 then (.sym .bar, q + 1)
  else if c = 40 then (.sym .lparen, q + 1)
  else if c = 41 then (.sym .rparen, q + 1)
  else if c = 59 then (.sym .semi, q + 1)
  else if c = 38 then (.sym .amp, q + 1)
  else if c = 60 then (.sym .lt, q + 1)
  else if c = 62 then
    if line.char (q + 1) = 62 then (.sym .gtgt, q + 2) else (.sym .gt, q + 1)
  else (.word, skip (fun c => !isWhite c && !isSymbol c) line es q)

structure Token where
  tok : Tok
  q : Nat
  eq : Nat
  next : Nat

def gettoken (line : Line) (es s : Nat) : Token :=
  let q := skip isWhite line es s
  let (tok, eq) := scan line es q
  { tok := tok, q := q, eq := eq, next := skip isWhite line es eq }

/-- Is the next token one of `toks`? The cursor moves to it. -/
def peek (toks : List UInt8) (line : Line) (es s : Nat) : Bool × Nat :=
  let s := skip isWhite line es s
  (line.char s != 0 && toks.contains (line.char s), s)

def maxargs : Nat := 10

def oRdonly : Nat := 0x000

def oWronly : Nat := 0x001

def oCreate : Nat := 0x200

/-- `argv` and `eargv` of `struct execcmd` side by side. -/
inductive Cmd
  | exec (argv : List (Nat × Nat))
  | redir (cmd : Cmd) (file efile mode fd : Nat)
  | pipe (left right : Cmd)
  | list (left right : Cmd)
  | back (cmd : Cmd)

/-- The fields of a `struct redircmd` apart from its command. -/
structure Redir where
  file : Nat
  efile : Nat
  mode : Nat
  fd : Nat

def redircmd (cmd : Cmd) (r : Redir) : Cmd := .redir cmd r.file r.efile r.mode r.fd

/-- The nodes `parseredirs` puts around a command, innermost first. -/
def redirsLoop (line : Line) (es : Nat) : Nat → Nat → Except ShError (List Redir × Nat)
  | 0, _ => .error .outOfFuel
  | fuel + 1, s =>
    let (found, s) := peek [60, 62] line es s
    if found then
      let t := gettoken line es s
      let w := gettoken line es t.next
      if w.tok ≠ .word then .error (.panic "missing file for redirection")
      else do
        let (rest, s) ← redirsLoop line es fuel w.next
        match t.tok with
        | .sym .lt => pure (⟨w.q, w.eq, oRdonly, 0⟩ :: rest, s)
        | .sym .gt => pure (⟨w.q, w.eq, oWronly ||| oCreate, 1⟩ :: rest, s)
        | .sym .gtgt => pure (⟨w.q, w.eq, oWronly ||| oCreate, 1⟩ :: rest, s)
        | _ => pure (rest, s)
    else pure ([], s)

def parseredirs (line : Line) (es s : Nat) : Except ShError (List Redir × Nat) :=
  redirsLoop line es (es + 1) s

/-- The loop of `parseexec` with room for `left` more words: the words, and the redirections between
and behind them. -/
def argsLoop (line : Line) (es : Nat) :
    Nat → Nat → Except ShError (List (Nat × Nat) × List Redir × Nat)
  | 0, _ => .error (.panic "too many args")
  | left + 1, s =>
    let (found, s) := peek [124, 41, 38, 59] line es s
    if found then pure ([], [], s)
    else
      let t := gettoken line es s
      match t.tok with
      | .nul => pure ([], [], t.next)
      | .sym _ => .error (.panic "syntax")
      | .word =>
        if left = 0 then .error (.panic "too many args")
        else do
          let (redirs, s) ← parseredirs line es t.next
          let (args, redirs', s) ← argsLoop line es left s
          pure ((t.q, t.eq) :: args, redirs ++ redirs', s)

def backLoop (line : Line) (es : Nat) : Nat → Cmd → Nat → Except ShError (Cmd × Nat)
  | 0, _, _ => .error .outOfFuel
  | fuel + 1, cmd, s =>
    let (found, s) := peek [38] line es s
    if found then backLoop line es fuel (.back cmd) (gettoken line es s).next
    else pure (cmd, s)

mutual

def parseline (line : Line) (es : Nat) : Nat → Nat → Except ShError (Cmd × Nat)
  | 0, _ => .error .outOfFuel
  | fuel + 1, s => do
    let (cmd, s) ← parsepipe line es fuel s
    let (cmd, s) ← backLoop line es (es + 1) cmd s
    let (found, s) := peek [59] line es s
    if found then do
      let (right, s) ← parseline line es fuel (gettoken line es s).next
      pure (.list cmd right, s)
    else pure (cmd, s)

def parsepipe (line : Line) (es : Nat) : Nat → Nat → Except ShError (Cmd × Nat)
  | 0, _ => .error .outOfFuel
  | fuel + 1, s => do
    let (cmd, s) ← parseexec line es fuel s
    let (found, s) := peek [124] line es s
    if found then do
      let (right, s) ← parsepipe line es fuel (gettoken line es s).next
      pure (.pipe cmd right, s)
    else pure (cmd, s)

def parseblock (line : Line) (es : Nat) : Nat → Nat → Except ShError (Cmd × Nat)
  | 0, _ => .error .outOfFuel
  | fuel + 1, s =>
    let (found, s) := peek [40] line es s
    if !found then .error (.panic "parseblock")
    else do
      let (cmd, s) ← parseline line es fuel (gettoken line es s).next
      let (found, s) := peek [41] line es s
      if !found then .error (.panic "syntax - missing )")
      else do
        let (redirs, s) ← parseredirs line es (gettoken line es s).next
        pure (redirs.foldl redircmd cmd, s)

/-- The words go into the `execcmd` at the core of the redirections around it. -/
def parseexec (line : Line) (es : Nat) : Nat → Nat → Except ShError (Cmd × Nat)
  | 0, _ => .error .outOfFuel
  | fuel + 1, s =>
    let (found, s) := peek [40] line es s
    if found then parseblock line es fuel s
    else do
      let (redirs, s) ← parseredirs line es s
      let (argv, redirs', s) ← argsLoop line es maxargs s
      pure ((redirs ++ redirs').foldl redircmd (.exec argv), s)

end

def nulterminate : Cmd → Line → Line
  | .exec argv, line => argv.foldl (fun line arg => line.set arg.2 0) line
  | .redir cmd _ efile _ _, line => (nulterminate cmd line).set efile 0
  | .pipe left right, line => nulterminate right (nulterminate left line)
  | .list left right, line => nulterminate right (nulterminate left line)
  | .back cmd, line => nulterminate cmd line

def parsecmd (fuel : Nat) (line : Line) : Except ShError (Cmd × Line) := do
  let es := strlen line
  let (cmd, s) ← parseline line es fuel 0
  let (_, s) := peek [] line es s
  if s ≠ es then .error (.panic "syntax")
  else pure (cmd, nulterminate cmd line)

end Xv6.Sh
