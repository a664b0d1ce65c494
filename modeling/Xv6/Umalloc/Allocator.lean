import Xv6.Lib.PointerRing
import Xv6.Lib.RunLaws

/- malloc and free of umalloc.c. Addresses are those of a 32-bit machine; a header is 8 bytes and
   its fields are kept by the header's address. sbrk is outside: each malloc comes with the
   answer sbrk gives if it is asked. Between calls the program may store into its blocks. -/
namespace UserMalloc
open PointerRing

def word : Nat := 4294967296

structure Heap where
  ptr : Nat → Nat
  size : Nat → Nat
  freep : Nat

/-- `p + n` for a pointer to headers. -/
def ahead (p n : Nat) : Nat := (p + 8 * n) % word

def seek (h : Heap) (fuel bp : Nat) : Option Nat :=
  find h.ptr (fun p => (p < bp ∧ bp < h.ptr p) ∨
    (h.ptr p ≤ p ∧ (p < bp ∨ bp < h.ptr p))) fuel h.freep

/-- Join `bp` to the free block behind it, or link it in front. -/
def joinNext (h : Heap) (p bp : Nat) : Heap :=
  if ahead bp (h.size bp) = h.ptr p then
    { h with
      size := Function.update h.size bp ((h.size bp + h.size (h.ptr p)) % word)
      ptr := Function.update h.ptr bp (h.ptr (h.ptr p)) }
  else { h with ptr := Function.update h.ptr bp (h.ptr p) }

/-- Join the free block `p` to `bp`, or link it in front. -/
def joinPrev (h : Heap) (p bp : Nat) : Heap :=
  if ahead p (h.size p) = bp then
    { h with
      size := Function.update h.size p ((h.size p + h.size bp) % word)
      ptr := Function.update h.ptr p (h.ptr bp) }
  else { h with ptr := Function.update h.ptr p bp }

/-- No value means that the loop did not end within `fuel` rounds. -/
def free (fuel : Nat) (h : Heap) (ap : Nat) : Option Heap :=
  let bp := (ap + word - 8) % word
  (seek h fuel bp).map fun p => { joinPrev (joinNext h p bp) p bp with freep := p }

structure Block where
  addr : Nat
  units : Nat
  bytes : Nat
  deriving DecidableEq, Repr

/-- Beside the heap stand the end of the last region sbrk returned, the units obtained from it and
    the blocks in use. -/
structure State where
  heap : Heap
  top : Nat
  units : Nat
  live : List Block

def State.rounds (s : State) : Nat := s.units + 1

def ask (nu : Nat) : Nat := if nu < 4096 then 4096 else nu

/-- morecore with the region sbrk returned. -/
def morecore (s : State) (nu p : Nat) : Option State :=
  let nu := ask nu
  let h := { s.heap with size := Function.update s.heap.size p nu }
  (free s.rounds h (ahead p 1)).map fun h =>
    { s with heap := h, top := p + nu * 8 % word, units := s.units + nu }

/-- The loop of malloc up to a block that is large enough or back at freep, as its `prevp`. -/
def hunt (s : State) (nunits prevp : Nat) : Option Nat :=
  find s.heap.ptr (fun prevp => nunits ≤ s.heap.size (s.heap.ptr prevp) ∨
    s.heap.ptr prevp = s.heap.freep)
    s.rounds prevp

/-- Take `nunits` from the block behind `prevp`: the header of the result and the heap after it. -/
def take (h : Heap) (nunits prevp : Nat) : Nat × Heap :=
  let p := h.ptr prevp
  if h.size p = nunits then
    (p, { h with ptr := Function.update h.ptr prevp (h.ptr p), freep := prevp })
  else
    -- allocate from the tail end
    let left := h.size p - nunits
    let q := ahead p left
    (q, { h with size := Function.update (Function.update h.size p left) q nunits, freep := prevp })

/-- The loop of malloc; `answers` are those of sbrk, `none` for -1. The result `none` is the null
    pointer. -/
def search (nunits : Nat) : List (Option Nat) → State → Nat → Option (Option Nat × State)
  | answers, s, prevp =>
    (hunt s nunits prevp).bind fun prevp =>
      if nunits ≤ s.heap.size (s.heap.ptr prevp) then
        let (p, h) := take s.heap nunits prevp
        some (some (ahead p 1), { s with heap := h })
      else match answers with
        | [] => none
        | none :: _ => some (none, s)
        | some p :: answers =>
          (morecore s nunits p).bind fun s => search nunits answers s s.heap.freep

def initial (base : Nat) (h : Heap) : Heap :=
  { ptr := Function.update h.ptr base base, size := Function.update h.size base 0, freep := base }

def unitsFor (nbytes : Nat) : Nat := (nbytes + 8 - 1) % word / 8 + 1

def malloc (base : Nat) (s : State) (nbytes : Nat) (answers : List (Option Nat)) :
    Option (Option Nat × State) :=
  let s := if s.heap.freep = 0 then { s with heap := initial base s.heap } else s
  search (unitsFor nbytes) answers s s.heap.freep

inductive Event where
  | malloc (nbytes : Nat) (answer : Option Nat)
  | free (ap : Nat)
  -- a store of the program at `x`, inside a block it has
  | store (x ptr size : Nat)
  deriving DecidableEq, Repr

/-- The request is small enough, and sbrk's region lies above everything before it. -/
def Fair (s : State) (nbytes : Nat) : Option Nat → Prop
  | none => 8 * ((nbytes + 7) / 8 + 1) < 2147483648
  | some p =>
    8 * ((nbytes + 7) / 8 + 1) < 2147483648 ∧ s.top ≤ p ∧ p + 8 * ask (unitsFor nbytes) < word

instance (s : State) (nbytes : Nat) : (answer : Option Nat) → Decidable (Fair s nbytes answer)
  | none => inferInstanceAs (Decidable (_ < _))
  | some _ => inferInstanceAs (Decidable (_ ∧ _))

def step (base : Nat) (s : State) : Event → Option State
  | .malloc nbytes answer =>
    if Fair s nbytes answer then
      (malloc base s nbytes [answer]).map fun
        | (none, s) => s
        | (some ap, s) => { s with live := ⟨ap - 8, s.heap.size (ap - 8), nbytes⟩ :: s.live }
    else none
  | .free ap =>
    match s.live.find? fun b => b.addr + 8 = ap with
    | none => none
    | some b => (free s.rounds s.heap ap).map fun h => { s with heap := h, live := s.live.erase b }
  | .store x ptr size =>
    if s.live.any fun b => b.addr < x ∧ x < b.addr + 8 * b.units then
      some { s with heap := { s.heap with
        ptr := Function.update s.heap.ptr x ptr
        size := Function.update s.heap.size x size } }
    else none

def start (h : Heap) (top : Nat) : State := ⟨{ h with freep := 0 }, top, 0, []⟩

end UserMalloc
