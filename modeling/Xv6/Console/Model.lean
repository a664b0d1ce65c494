import Xv6.Lib.RingQueue
import Xv6.Lib.RunLaws

/- Console input: the key handlers and consoleread of console.c with the history of
   prefix_predict.c. Of the screen only the cursor is kept. What the code reads outside its own
   arrays comes from outside with each key; a write outside an array, or an int that overflows,
   is undefined. -/
namespace ConsoleInput
open RingQueue

def inputBuf : Nat := 128

instance : NeZero inputBuf := ⟨by decide⟩

inductive Stop where
  | panic
  | fault
  | undefined
  deriving DecidableEq, Repr

/-- The memory around `input` and behind the local array `temp`; no value where nothing is
    mapped. -/
structure Env where
  before : UInt32 → UInt8
  after : Nat → Option UInt8
  stack : Nat → Option UInt8

structure Input where
  buf : Fin inputBuf → UInt8
  r : UInt32
  w : UInt32
  e : UInt32
  end_ : UInt32

/-- `command` has 30 rows of 128 bytes. -/
structure Console where
  input : Input
  pos : Nat
  command : Nat → UInt8
  commandNum : Nat
  sizeCommand : Nat

def advance : Option UInt8 → Nat → Nat
  | none, pos => pos - 1
  | some c, pos => if c = 10 then pos + (80 - pos % 80) else pos + 1

def cgaputc (c : Option UInt8) (pos : Nat) : Except Stop Nat :=
  let pos := advance c pos
  if pos > 25 * 80 then .error .panic
  else if pos / 80 ≥ 24 then .ok (pos - 80)
  else .ok pos

def consputc (c : Option UInt8) (s : Console) : Except Stop Console :=
  (cgaputc c s.pos).map fun pos => { s with pos := pos }

def changePos (pos : Nat) (s : Console) : Console := { s with pos := pos % 65536 }

/-- `buf[index % INPUT_BUF]` for an int: the remainder of a negative one is not positive. -/
def element (index : UInt32) : Option (Fin inputBuf) :=
  if index.toNat < 2147483648 ∨ index.toNat % inputBuf = 0 then some (slot inputBuf index.toNat)
  else none

def Input.load (env : Env) (i : Input) (index : UInt32) : UInt8 :=
  match element index with
  | some k => i.buf k
  | none => env.before index

def Input.store (i : Input) (index : UInt32) (c : UInt8) : Except Stop Input :=
  match element index with
  | some k => .ok { i with buf := Function.update i.buf k c }
  | none => .error .undefined

def Input.get (i : Input) (index : UInt32) : UInt8 := i.buf (slot inputBuf index.toNat)

def Input.put (i : Input) (index : UInt32) (c : UInt8) : Input :=
  { i with buf := Function.update i.buf (slot inputBuf index.toNat) c }

/-- `index + 1` for an int. -/
def succ (index : UInt32) : Except Stop UInt32 :=
  if index = 2147483647 then .error .undefined else .ok (index + 1)

/-- The loop of shift_input_right, `n` rounds of it. -/
def shiftRight (env : Env) : Nat → UInt32 → UInt8 → Console → Except Stop Console
  | 0, _, _, s => .ok s
  | n + 1, index, nextChar, s =>
    (succ index).bind fun after =>
    (s.input.store after nextChar).bind fun i =>
    (consputc (some (i.load env after)) { s with input := i }).bind fun t =>
    shiftRight env n after (s.input.load env after) t

def shiftInputRight (env : Env) (s : Console) : Except Stop Console :=
  let i := s.input
  (shiftRight env (i.end_.toNat - i.e.toNat) i.e (i.load env i.e)
    (changePos (s.pos + 1) s)).map fun t =>
      changePos s.pos { t with input := { t.input with end_ := t.input.end_ + 1 } }

def shiftLeft (env : Env) : Nat → UInt32 → Console → Except Stop Console
  | 0, _, s => .ok s
  | n + 1, index, s =>
    (succ index).bind fun after =>
    (s.input.store index (s.input.load env after)).bind fun i =>
    (consputc (some (i.load env index)) { s with input := i }).bind fun t =>
    shiftLeft env n after t

def shiftInputLeft (env : Env) (s : Console) : Except Stop Console :=
  let i := s.input
  (shiftLeft env (i.end_.toNat - (i.e - 1).toNat) (i.e - 1) s).bind fun t =>
  (consputc (some 32) t).map fun t =>
    changePos s.pos { t with input := { t.input with end_ := t.input.end_ - 1 } }

def erase (env : Env) (s : Console) : Except Stop Console :=
  (consputc none s).bind fun s =>
  (shiftInputLeft env s).map fun s => { s with input := { s.input with e := s.input.e - 1 } }

def backSpace (env : Env) (s : Console) : Except Stop Console :=
  if s.input.e ≠ s.input.w then erase env s else .ok s

def killLoop (env : Env) : Nat → Console → Except Stop Console
  | 0, s => .ok s
  | n + 1, s =>
    if s.input.e ≠ s.input.w ∧ s.input.get (s.input.e - 1) ≠ 10 then
      (erase env s).bind (killLoop env n) else .ok s

/-- The loop ends at `w` at the latest. -/
def killLine (env : Env) (s : Console) : Except Stop Console :=
  killLoop env (s.input.e - s.input.w).toNat s

def goToFirstOfLine (s : Console) : Console :=
  changePos (s.pos - s.pos % 80 + 2)
    { s with input := { s.input with e := s.input.e + 2 - UInt32.ofNat (s.pos % 80) } }

def isNum (c : UInt8) : Bool := 48 ≤ c && c ≤ 57

def deleteLoop (env : Env) : Nat → Console → Except Stop Console
  | 0, s => .ok s
  | n + 1, s =>
    if s.input.e < s.input.end_ then
      if isNum (s.input.get s.input.e) then
        (erase env (changePos (s.pos + 1)
          { s with input := { s.input with e := s.input.e + 1 } })).bind
          (deleteLoop env n)
      else
        (consputc (some (s.input.get s.input.e)) s).bind fun t =>
          deleteLoop env n (changePos (s.pos + 1)
            { t with input := { t.input with e := t.input.e + 1 } })
    else .ok s

/-- Every round brings `e` and `end` closer by one. -/
def deleteNumOfLine (env : Env) (s : Console) : Except Stop Console :=
  let s := goToFirstOfLine s
  deleteLoop env (s.input.end_.toNat - s.input.e.toNat) s

/-- Up to `n` bytes of the string at `k`, and whether its end is among them. -/
def cstring (fetch : Nat → Option UInt8) : Nat → Nat → Except Stop (List UInt8 × Bool)
  | 0, _ => .ok ([], false)
  | n + 1, k =>
    match fetch k with
    | none => .error .fault
    | some c =>
      if c = 0 then .ok ([], true) else (cstring fetch n (k + 1)).map fun l => (c :: l.1, l.2)

def byteOf (x : UInt32) (k : Nat) : UInt8 := UInt8.ofNat (x.toNat / 256 ^ k)

/-- The byte `k` behind the start of `input.buf`: the array, then the four indices. -/
def memory (env : Env) (i : Input) (k : Nat) : Option UInt8 :=
  let k := k % 4294967296
  if inside : k < inputBuf then some (i.buf ⟨k, inside⟩)
  else if k < 132 then some (byteOf i.r (k - 128))
  else if k < 136 then some (byteOf i.w (k - 132))
  else if k < 140 then some (byteOf i.e (k - 136))
  else if k < 144 then some (byteOf i.end_ (k - 140))
  else env.after k

def wholeString (fetch : Nat → Option UInt8) (k : Nat) : Except Stop (List UInt8) :=
  (cstring fetch 4294967296 k).bind fun l => if l.2 then .ok l.1 else .error .fault

/-- The string in `temp` after strncpy; without a zero byte in it, it goes on behind `temp`. -/
def temp (env : Env) (fetch : Nat → Option UInt8) (k : Nat) : Except Stop (List UInt8) :=
  (cstring fetch inputBuf k).bind fun l =>
    if l.2 then .ok l.1 else (wholeString env.stack 0).map fun more => l.1 ++ more

def printAll : List UInt8 → Console → Except Stop Console
  | [], s => .ok s
  | c :: l, s =>
    (consputc (some c) { s with input := s.input.put s.input.e c }).bind fun s =>
      printAll l { s with input := { s.input with e := s.input.e + 1, end_ := s.input.end_ + 1 } }

/-- The last character of the word is left out. -/
def printWord (env : Env) (fetch : Nat → Option UInt8) (key : Nat) (s : Console) :
    Except Stop Console :=
  (temp env fetch key).bind fun word => (killLine env s).bind (printAll word.dropLast)

def printWordReverse (env : Env) (fetch : Nat → Option UInt8) (key : Nat) (s : Console) :
    Except Stop Console :=
  (temp env fetch key).bind fun word => (killLine env s).bind (printAll word.reverse)

/-- The string starts at `input.buf + input.w`, not at `w` modulo INPUT_BUF. -/
def reverseLine (env : Env) (s : Console) : Except Stop Console :=
  printWordReverse env (memory env s.input) s.input.w.toNat s

def startsWith (command : Nat → UInt8) : List UInt8 → Nat → Bool
  | [], _ => true
  | c :: l, k => command k == c && startsWith command l (k + 1)

def scanCommands (s : Console) (key : List UInt8) (index : Option Nat) : Option Nat :=
  (List.range 30).foldl
    (fun index k =>
      let i := (s.commandNum + k) % 30
      if startsWith s.command key (128 * i) then some i else index)
    index

/-- The else belongs to the inner if: the second search is made for every row that does not
    match, and with 30 lines or more nothing is found. -/
def predictInCommandList (env : Env) (s : Console) : Except Stop (Option Nat) :=
  if s.sizeCommand < 30 then
    (wholeString (memory env s.input) s.input.w.toNat).map fun key =>
      (List.range (s.sizeCommand + 1)).reverse.foldl
        (fun index i => if startsWith s.command key (128 * i) then some i
          else scanCommands s key index)
        none
  else .ok none

def predictProcess (env : Env) (s : Console) : Except Stop Console :=
  (predictInCommandList env s).bind fun
    | none => .ok s
    | some i => printWord env (fun k => some (s.command k)) (128 * i) s

/-- `n++` for an int. -/
def bump (n : Nat) : Except Stop Nat := if n < 2147483647 then .ok (n + 1) else .error .undefined

/-- update_history: the string at `input.buf + input.w` goes to the next row, and over its end
    into the rows behind it. -/
def updateHistory (env : Env) (s : Console) : Except Stop Console :=
  let row := 128 * (s.commandNum % 30)
  (cstring (memory env s.input) (3840 - row) s.input.w.toNat).bind fun l =>
    if l.2 then
      (bump s.commandNum).map fun n =>
        { s with
          command := fun k => if row ≤ k ∧ k ≤ row + l.1.length then l.1.getD (k - row) 0
            else s.command k
          commandNum := n }
    else .error .undefined

def commit (env : Env) (s : Console) : Except Stop Console :=
  (updateHistory env s).bind fun s =>
  (bump s.sizeCommand).bind fun size =>
  (bump s.commandNum).map fun num =>
    { s with
      sizeCommand := size
      commandNum := num
      input := { s.input with e := s.input.end_, w := s.input.end_ } }

def typed (env : Env) (c : UInt8) (s : Console) : Except Stop Console :=
  if c = 10 ∨ c = 4 then
    let i := s.input.put s.input.end_ c
    .ok { s with input := { i with end_ := i.end_ + 1 } }
  else
    (shiftInputRight env s).map fun s =>
      let i := s.input.put s.input.e c
      { s with input := { i with e := i.e + 1 } }

def enter (c : UInt8) : UInt8 := if c = 13 then 10 else c

/-- The default branch; with whether the readers are woken. -/
def ordinary (env : Env) (c : UInt8) (s : Console) : Except Stop (Console × Bool) :=
  if c ≠ 0 ∧ s.input.e - s.input.r < 128 then
    (typed env (enter c) s).bind fun s =>
    (consputc (some (enter c)) s).bind fun s =>
      if enter c = 10 ∨ enter c = 4 ∨ s.input.e = s.input.r + 128 then
        (commit env s).map fun s => (s, true)
      else .ok (s, false)
  else .ok (s, false)

def consoleintr (env : Env) (c : UInt8) (s : Console) : Except Stop (Console × Bool) :=
  -- ^P sets `doprocdump`; what procdump prints comes as an output event
  if c = 16 then .ok (s, false)
  else if c = 21 then (killLine env s).map fun s => (s, false)
  else if c = 8 ∨ c = 127 then (backSpace env s).map fun s => (s, false)
  else if c = 14 then (deleteNumOfLine env s).map fun s => (s, false)
  else if c = 18 then (reverseLine env s).map fun s => (s, false)
  else if c = 9 then (predictProcess env s).map fun s => (s, false)
  else ordinary env c s

inductive Phase where
  | outside
  | asleep
  | woken
  deriving DecidableEq, Repr

/-- A call of consoleread: how much was asked, how much is still wanted, the bytes at `dst` and
    the result of a call that is over. -/
structure Reader where
  phase : Phase
  target : Nat
  n : Nat
  dst : List UInt8
  result : Option Int
  deriving DecidableEq, Repr

/-- The loop of consoleread until it returns or sleeps. -/
def drain (killed : Bool) (target : Nat) : Nat → Input → List UInt8 → Input × Reader
  | 0, i, dst => (i, ⟨.outside, target, 0, dst, some target⟩)
  | n + 1, i, dst =>
    if i.r = i.w then
      if killed then (i, ⟨.outside, target, n + 1, dst, some (-1)⟩)
      else (i, ⟨.asleep, target, n + 1, dst, none⟩)
    else
      let c := i.get i.r
      let j := { i with r := i.r + 1 }
      if c = 4 then
        (if n + 1 < target then { j with r := j.r - 1 } else j,
          ⟨.outside, target, n + 1, dst, some ((target : Int) - (n + 1))⟩)
      else if c = 10 then (j, ⟨.outside, target, n, dst ++ [c], some ((target : Int) - n)⟩)
      else drain killed target n j (dst ++ [c])

structure State where
  con : Console
  reader : Nat → Reader

def wakeup (reader : Nat → Reader) : Nat → Reader := fun p =>
  if (reader p).phase = .asleep then { reader p with phase := .woken } else reader p

inductive Event where
  | key (env : Env) (c : UInt8)
  -- output of the kernel or of a program
  | output (l : List UInt8)
  | read (p : Nat) (n : Int) (killed : Bool)
  | resume (p : Nat) (killed : Bool)
  -- kill makes a sleeping process runnable
  | rouse (p : Nat)

def outputAll : List UInt8 → Console → Except Stop Console
  | [], s => .ok s
  | c :: l, s => (consputc (some c) s).bind (outputAll l)

def State.drain (s : State) (p : Nat) (killed : Bool) (target n : Nat) (dst : List UInt8) : State :=
  let d := ConsoleInput.drain killed target n s.con.input dst
  { con := { s.con with input := d.1 }, reader := Function.update s.reader p d.2 }

def step (s : State) : Event → Except Stop (Option State)
  | .key env c =>
    (consoleintr env c s.con).map fun t => some ⟨t.1, if t.2 then wakeup s.reader else s.reader⟩
  | .output l => (outputAll l s.con).map fun con => some { s with con := con }
  | .read p n killed =>
    .ok (if (s.reader p).phase = .outside then some (s.drain p killed n.toNat n.toNat []) else none)
  | .resume p killed =>
    .ok (if (s.reader p).phase = .woken then
      some (s.drain p killed (s.reader p).target (s.reader p).n (s.reader p).dst) else none)
  | .rouse p =>
    .ok (if (s.reader p).phase = .asleep then
      some { s with reader := Function.update s.reader p { s.reader p with phase := .woken } }
        else none)

def next (s : State) (e : Event) : Option State :=
  match step s e with
  | .ok t => t
  | .error _ => none

def start (pos : Nat) : State :=
  ⟨⟨⟨fun _ => 0, 0, 0, 0, 0⟩, pos, fun _ => 0, 0, 0⟩, fun _ => ⟨.outside, 0, 0, [], none⟩⟩

end ConsoleInput
