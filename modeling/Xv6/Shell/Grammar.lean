import Mathlib.Data.List.TakeWhile
import Xv6.Shell.Parser

/- The grammar of command lines. Words are given by where they begin and end in the input. -/
namespace ShellParser

inductive Token where
  | bar | lpar | rpar | semi | amp | less | greater | append
  | word (q eq : Nat)
  deriving DecidableEq, Repr

def symbol (c : UInt8) : Option Token :=
  if c = 124 then some .bar
  else if c = 40 then some .lpar
  else if c = 41 then some .rpar
  else if c = 59 then some .semi
  else if c = 38 then some .amp
  else if c = 60 then some .less
  else none

/-- The tokens of a text that begins at `p`: blanks separate, ">>" is one token, and a word goes
    on to the next blank or symbol. -/
def tokens (p : Nat) : List UInt8 → List Token
  | [] => []
  | c :: cs =>
    if isBlank c then tokens (p + 1) cs
    else if c = 62 then
      if cs.head? = some 62 then .append :: tokens (p + 2) cs.tail
      else .greater :: tokens (p + 1) cs
    else match symbol c with
      | some t => t :: tokens (p + 1) cs
      | none =>
        let n := (cs.takeWhile isWord).length
        .word p (p + 1 + n) :: tokens (p + 1 + n) (cs.dropWhile isWord)
termination_by cs => cs.length
decreasing_by
  · simp
  · simp only [List.length_tail, List.length_cons]
    omega
  · simp
  · simp
  · simp only [List.length_cons]
    exact Nat.lt_succ_of_le (List.length_dropWhile_le isWord cs)

def target (q eq : Nat) : Token → Option Redirection
  | .less => some ⟨q, eq, 0, 0⟩
  | .greater | .append => some ⟨q, eq, 0x201, 1⟩
  | _ => none

/-- redir*, where redir ::= ('<' | '>' | '>>') word -/
inductive Redirs : List Token → List Redirection → Prop
  | nil : Redirs [] []
  | cons {op : Token} {q eq : Nat} {r : Redirection} {ts : List Token} {outs : List Redirection}
      (first : target q eq op = some r) (rest : Redirs ts outs) :
      Redirs (op :: .word q eq :: ts) (r :: outs)

/-- (word redir*)* -/
inductive Args : List Token → List (Nat × Nat) → List Redirection → Prop
  | nil : Args [] [] []
  | cons {q eq : Nat} {ts us : List Token} {outs more : List Redirection} {args : List (Nat × Nat)}
      (redirs : Redirs ts outs) (rest : Args us args more) :
      Args (.word q eq :: (ts ++ us)) ((q, eq) :: args) (outs ++ more)

inductive Part where
  | line | pipe | exec

def backs : Nat → Cmd → Cmd
  | 0, c => c
  | n + 1, c => backs n (.back c)

/-- line ::= pipe '&'* [';' line], pipe ::= exec ['|' pipe],
    exec ::= '(' line ')' redir* | redir* (word redir*)* with fewer than MAXARGS words -/
inductive Derives : Part → List Token → Cmd → Prop
  | last {ts : List Token} {c : Cmd} (n : Nat) (pipe : Derives .pipe ts c) :
      Derives .line (ts ++ List.replicate n .amp) (backs n c)
  | then_ {ts us : List Token} {c d : Cmd} (n : Nat) (pipe : Derives .pipe ts c) (line : Derives
    .line us d) :
      Derives .line (ts ++ List.replicate n .amp ++ .semi :: us) (.list (backs n c) d)
  | single {ts : List Token} {c : Cmd} (exec : Derives .exec ts c) : Derives .pipe ts c
  | bar {ts us : List Token} {c d : Cmd} (exec : Derives .exec ts c) (pipe : Derives .pipe us d) :
      Derives .pipe (ts ++ .bar :: us) (.pipe c d)
  | block {ts us : List Token} {c : Cmd} {outs : List Redirection} (line : Derives .line ts c)
      (redirs : Redirs us outs) : Derives .exec (.lpar :: ts ++ .rpar :: us) (wrap c outs)
  | simple {ts us : List Token} {args : List
    (Nat × Nat)} {outs more : List Redirection} (redirs : Redirs ts outs)
      (words : Args us args more) (few : args.length ≤ maxargs - 1) :
      Derives .exec (ts ++ us) (wrap (.exec args) (outs ++ more))

end ShellParser
