import Mathlib.Init

/- The parser of sh.c. The input is a list of bytes without NUL, followed in memory by the
   terminator; a pointer is an index. Reading beyond the terminator stops the program with
   `overrun`, so that its absence can be proved. The recursion is bounded by fuel; running out
   of it is an outcome of its own. malloc is taken to succeed. -/
namespace ShellParser

inductive Stop where
  | panic (message : String)
  | overrun
  | fuel
  deriving DecidableEq, Repr

def maxargs : Nat := 10

def whitespace : List UInt8 := [32, 9, 13, 10, 11]

def symbols : List UInt8 := [60, 124, 62, 38, 59, 40, 41]

structure Redirection where
  file : Nat
  efile : Nat
  mode : Nat
  fd : Nat
  deriving DecidableEq, Repr

/-- An argument is given by argv[i] and eargv[i]. -/
inductive Cmd where
  | exec (args : List (Nat × Nat))
  | redir (cmd : Cmd) (target : Redirection)
  | pipe (left right : Cmd)
  | list (left right : Cmd)
  | back (cmd : Cmd)
  deriving DecidableEq, Repr

def fetch (buf : List UInt8) (s : Nat) : Except Stop UInt8 :=
  if s < buf.length then .ok (buf.getD s 0)
  else if s = buf.length then .ok 0
  else .error .overrun

/-- `while(s < es && p(*s)) s++`, with at most `fuel` rounds. -/
def scan (buf : List UInt8) (p : UInt8 → Bool) : Nat → Nat → Nat
  | 0, s => s
  | fuel + 1, s => if s < buf.length ∧ p (buf.getD s 0) = true then scan buf p fuel (s + 1) else s

def isBlank (c : UInt8) : Bool := whitespace.contains c

def isWord (c : UInt8) : Bool := !whitespace.contains c && !symbols.contains c

def skip (buf : List UInt8) (s : Nat) : Nat := scan buf isBlank buf.length s

/-- The switch of gettoken: the result and where the token ends. -/
def lexeme (buf : List UInt8) (s : Nat) (c : UInt8) : Except Stop (UInt8 × Nat) :=
  if c = 0 then .ok (0, s)
  else if c = 124 ∨ c = 40 ∨ c = 41 ∨ c = 59 ∨ c = 38 ∨ c = 60 then .ok (c, s + 1)
  else if c = 62 then
    -- '>' or ">>", which gives '+'
    (fetch buf (s + 1)).map fun d => if d = 62 then (43, s + 2) else (62, s + 1)
  else .ok (97, scan buf isWord buf.length s)

structure Lexed where
  ret : UInt8
  q : Nat
  eq : Nat
  s : Nat

def gettoken (buf : List UInt8) (s : Nat) : Except Stop Lexed := do
  let q := skip buf s
  let c ← fetch buf q
  let (ret, eq) ← lexeme buf q c
  .ok ⟨ret, q, eq, skip buf eq⟩

def peek (buf : List UInt8) (s : Nat) (toks : List UInt8) : Except Stop (Bool × Nat) := do
  let s := skip buf s
  let c ← fetch buf s
  .ok (c ≠ 0 && toks.contains c, s)

/-- parseredirs' switch. -/
def redirection (tok : UInt8) (q eq : Nat) : List Redirection :=
  if tok = 60 then [⟨q, eq, 0, 0⟩]
  else if tok = 62 then [⟨q, eq, 0x201, 1⟩]
  else if tok = 43 then [⟨q, eq, 0x201, 1⟩]
  else []

def parseredirs (buf : List UInt8) : Nat → Nat → Except Stop (List Redirection × Nat)
  | 0, _ => .error .fuel
  | fuel + 1, s => do
    let (more, s) ← peek buf s [60, 62]
    if more then do
      let tok ← gettoken buf s
      let file ← gettoken buf tok.s
      if file.ret ≠ 97 then .error (.panic "missing file for redirection")
      else do
        let (rest, s) ← parseredirs buf fuel file.s
        .ok (redirection tok.ret file.q file.eq ++ rest, s)
    else .ok ([], s)

def wrap (cmd : Cmd) (outs : List Redirection) : Cmd := outs.foldl .redir cmd

/-- The loop of parseexec: the arguments from number `argc` on and the redirections between
    them. The exec node gets its arguments while redirections are wrapped around it. -/
def parseargs (buf : List UInt8) : Nat → Nat → Nat →
    Except Stop ((List (Nat × Nat) × List Redirection) × Nat)
  | 0, _, _ => .error .fuel
  | fuel + 1, argc, s => do
    let (stop, s) ← peek buf s [124, 41, 38, 59]
    if stop then .ok (([], []), s)
    else do
      let tok ← gettoken buf s
      if tok.ret = 0 then .ok (([], []), tok.s)
      else if tok.ret ≠ 97 then .error (.panic "syntax")
      else if argc + 1 ≥ maxargs then .error (.panic "too many args")
      else do
        let (outs, s) ← parseredirs buf fuel tok.s
        let ((args, more), s) ← parseargs buf fuel (argc + 1) s
        .ok (((tok.q, tok.eq) :: args, outs ++ more), s)

/-- parseline's loop over '&'. -/
def parsebacks (buf : List UInt8) : Nat → Cmd → Nat → Except Stop (Cmd × Nat)
  | 0, _, _ => .error .fuel
  | fuel + 1, cmd, s => do
    let (more, s) ← peek buf s [38]
    if more then do
      let tok ← gettoken buf s
      parsebacks buf fuel (.back cmd) tok.s
    else .ok (cmd, s)

mutual

def parseline (buf : List UInt8) : Nat → Nat → Except Stop (Cmd × Nat)
  | 0, _ => .error .fuel
  | fuel + 1, s => do
    let (cmd, s) ← parsepipe buf fuel s
    let (cmd, s) ← parsebacks buf fuel cmd s
    let (more, s) ← peek buf s [59]
    if more then do
      let tok ← gettoken buf s
      let (right, s) ← parseline buf fuel tok.s
      .ok (.list cmd right, s)
    else .ok (cmd, s)

def parsepipe (buf : List UInt8) : Nat → Nat → Except Stop (Cmd × Nat)
  | 0, _ => .error .fuel
  | fuel + 1, s => do
    let (cmd, s) ← parseexec buf fuel s
    let (more, s) ← peek buf s [124]
    if more then do
      let tok ← gettoken buf s
      let (right, s) ← parsepipe buf fuel tok.s
      .ok (.pipe cmd right, s)
    else .ok (cmd, s)

def parseexec (buf : List UInt8) : Nat → Nat → Except Stop (Cmd × Nat)
  | 0, _ => .error .fuel
  | fuel + 1, s => do
    let (block, s) ← peek buf s [40]
    if block then parseblock buf fuel s
    else do
      let (outs, s) ← parseredirs buf fuel s
      let ((args, more), s) ← parseargs buf fuel 0 s
      .ok (wrap (.exec args) (outs ++ more), s)

def parseblock (buf : List UInt8) : Nat → Nat → Except Stop (Cmd × Nat)
  | 0, _ => .error .fuel
  | fuel + 1, s => do
    let (block, s) ← peek buf s [40]
    if block = false then .error (.panic "parseblock")
    else do
      let tok ← gettoken buf s
      let (cmd, s) ← parseline buf fuel tok.s
      let (close, s) ← peek buf s [41]
      if close = false then .error (.panic "syntax - missing )")
      else do
        let tok ← gettoken buf s
        let (outs, s) ← parseredirs buf fuel tok.s
        .ok (wrap cmd outs, s)

end

/-- The NUL bytes are written into the input and its terminator. -/
def nulterminate : Cmd → List UInt8 → List UInt8
  | .exec args, mem => args.foldl (fun mem arg => mem.set arg.2 0) mem
  | .redir cmd outs, mem => (nulterminate cmd mem).set outs.efile 0
  | .pipe left right, mem => nulterminate right (nulterminate left mem)
  | .list left right, mem => nulterminate right (nulterminate left mem)
  | .back cmd, mem => nulterminate cmd mem

def parsecmd (fuel : Nat) (buf : List UInt8) : Except Stop (Cmd × List UInt8) := do
  let (cmd, s) ← parseline buf fuel 0
  let (_, s) ← peek buf s []
  if s ≠ buf.length then .error (.panic "syntax")
  else .ok (cmd, nulterminate cmd (buf ++ [0]))

end ShellParser
