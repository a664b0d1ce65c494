import Mathlib.Logic.Function.Basic
import Xv6.Lib.RunLaws

/- Physical pages: kalloc.c, the page tables of vm.c and what fork, exec, sbrk, exit and wait do
   with them. A page is its number and a pointer to a page is that number, zero for the null
   pointer; virtual addresses are counted in pages too where they are aligned. Memory is
   1024 words a page. -/
namespace PhysicalPages

structure Kmap where
  virt : Nat
  pages : Nat
  phys : Nat
  perm : Nat

structure Layout where
  first : Nat
  phystop : Nat
  kmap : List Kmap

/-- memlayout.h and the table in vm.c, for a kernel whose writable data starts at page `data`. -/
def xv6 (first data : Nat) : Layout :=
  ⟨first, 57344, [⟨524288, 256, 0, 2⟩, ⟨524544, data - 256, 256, 0⟩,
    ⟨524288 + data, 57344 - data, data, 2⟩,
    ⟨1040384, 8192, 1040384, 2⟩]⟩

def kernbase : Nat := 524288

/-- `denied` says for the next calls of kalloc whether they fail whatever is free. -/
structure Mem where
  word : Nat → Nat → Nat
  freelist : Nat
  denied : List Bool

def Mem.set (m : Mem) (p i w : Nat) : Mem :=
  { m with word := Function.update m.word p (Function.update (m.word p) i w) }

def Mem.fill (m : Mem) (p : Nat) (w : Nat → Nat) : Mem :=
  { m with word := Function.update m.word p w }

def kalloc (m : Mem) : Option Nat × Mem :=
  match m.denied with
  | true :: l => (none, { m with denied := l })
  | l =>
    if m.freelist = 0 then (none, { m with denied := l.tail })
    else (some m.freelist, { m with denied := l.tail, freelist := m.word m.freelist 0 })

/-- No value is a panic. The page is filled with junk before it is linked in. -/
def kfree (l : Layout) (p : Nat) (m : Mem) : Option Mem :=
  if p < l.first ∨ l.phystop ≤ p then none
  else some { (m.fill p fun _ => 16843009).set p 0 m.freelist with freelist := p }

def present (w : Nat) : Bool := w % 2 == 1

/-- PTE_ADDR, as a page. -/
def frame (w : Nat) : Nat := w / 4096

def entry (p perm : Nat) : Nat := p * 4096 + (perm / 2 * 2 + 1)

/-- The page table for `a` in the directory `d`; a new one is made if `alloc` is set. -/
def walkpgdir (d a : Nat) (alloc : Bool) (m : Mem) : Option Nat × Mem :=
  let pde := m.word d (a / 1024)
  if present pde then (some (frame pde), m)
  else if !alloc then (none, m)
  else match kalloc m with
    | (none, m) => (none, m)
    | (some t, m) => (some t, (m.fill t fun _ => 0).set d (a / 1024) (entry t 7))

/-- `n` pages from `a` on to the pages from `p` on; false when there is no memory for a table. No
    value is the panic about a page that is mapped already. -/
def mappages (d perm : Nat) : Nat → Nat → Nat → Mem → Option (Bool × Mem)
  | 0, _, _, m => some (true, m)
  | n + 1, a, p, m =>
    match walkpgdir d a true m with
    | (none, m) => some (false, m)
    | (some t, m) =>
      if present (m.word t (a % 1024)) then none
      else mappages d perm n (a + 1) (p + 1) (m.set t (a % 1024) (entry p perm))

def pages (sz : Nat) : Nat := (sz + 4095) / 4096

/-- From page `a` to page `last`; where there is no table the loop goes on behind it. -/
def deallocLoop (l : Layout) (d last : Nat) : Nat → Nat → Mem → Option Mem
  | 0, _, m => some m
  | n + 1, a, m =>
    if a < last then
      match walkpgdir d a false m with
      | (none, m) => deallocLoop l d last n ((a / 1024 + 1) * 1024) m
      | (some t, m) =>
        let pte := m.word t (a % 1024)
        if present pte then
          if frame pte = 0 then none
          else (kfree l (frame pte) m).bind fun m =>
            deallocLoop l d last n (a + 1) (m.set t (a % 1024) 0)
        else deallocLoop l d last n (a + 1) m
    else some m

def deallocuvm (l : Layout) (d oldsz newsz : Nat) (m : Mem) : Option (Nat × Mem) :=
  if newsz ≥ oldsz then some (oldsz, m)
  else (deallocLoop l d (pages oldsz) (pages oldsz - pages newsz) (pages newsz) m).map fun m =>
    (newsz, m)

def allocLoop (l : Layout) (d oldsz newsz : Nat) : Nat → Nat → Mem → Option (Bool × Mem)
  | 0, _, m => some (true, m)
  | n + 1, a, m =>
    match kalloc m with
    | (none, m) => (deallocuvm l d newsz oldsz m).map fun r => (false, r.2)
    | (some p, m) =>
      match mappages d 6 1 a p (m.fill p fun _ => 0) with
      | none => none
      | some (false, m) =>
        (deallocuvm l d newsz oldsz m).bind fun r => (kfree l p r.2).map fun m => (false, m)
      | some (true, m) => allocLoop l d oldsz newsz n (a + 1) m

def allocuvm (l : Layout) (d oldsz newsz : Nat) (m : Mem) : Option (Nat × Mem) :=
  if newsz ≥ 2147483648 then some (0, m)
  else if newsz < oldsz then some (oldsz, m)
  else (allocLoop l d oldsz newsz (pages newsz - pages oldsz) (pages oldsz) m).map fun r =>
    (if r.1 then newsz else 0, r.2)

/-- The entries of the directory stay while the tables go. -/
def freeTables (l : Layout) (d : Nat) : Nat → Nat → Mem → Option Mem
  | 0, _, m => some m
  | n + 1, i, m =>
    if present (m.word d i) then (kfree l (frame (m.word d i)) m).bind (freeTables l d n (i + 1))
    else freeTables l d n (i + 1) m

def freevm (l : Layout) (d : Nat) (m : Mem) : Option Mem :=
  if d = 0 then none
  else (deallocuvm l d 2147483648 0 m).bind fun r => (freeTables l d 1024 0 r.2).bind (kfree l d)

def mapKernel (d : Nat) : List Kmap → Mem → Option (Bool × Mem)
  | [], m => some (true, m)
  | k :: ks, m =>
    (mappages d k.perm k.pages k.virt k.phys m).bind fun r =>
      if r.1 then mapKernel d ks r.2 else some (false, r.2)

def setupkvm (l : Layout) (m : Mem) : Option (Option Nat × Mem) :=
  match kalloc m with
  | (none, m) => some (none, m)
  | (some d, m) =>
    (mapKernel d l.kmap (m.fill d fun _ => 0)).bind fun r =>
      if r.1 then some (some d, r.2) else (freevm l d r.2).map fun m => (none, m)

/-- The pages of `src` from `a` on are copied to `d`; false when memory runs out. -/
def copyLoop (l : Layout) (src d : Nat) : Nat → Nat → Mem → Option (Bool × Mem)
  | 0, _, m => some (true, m)
  | n + 1, a, m =>
    match walkpgdir src a false m with
    | (none, _) => none
    | (some t, m) =>
      let pte := m.word t (a % 1024)
      if present pte then
        match kalloc m with
        | (none, m) => some (false, m)
        | (some p, m) =>
          match mappages d (pte % 4096) 1 a p (m.fill p (m.word (frame pte))) with
          | none => none
          | some (false, m) => (kfree l p m).map fun m => (false, m)
          | some (true, m) => copyLoop l src d n (a + 1) m
      else none

def copyuvm (l : Layout) (src sz : Nat) (m : Mem) : Option (Option Nat × Mem) :=
  (setupkvm l m).bind fun
    | (none, m) => some (none, m)
    | (some d, m) =>
      (copyLoop l src d (pages sz) 0 m).bind fun r =>
        if r.1 then some (some d, r.2) else (freevm l d r.2).map fun m => (none, m)

structure Segment where
  read : Bool
  load : Bool
  vaddr : Nat
  memsz : Nat
  filesz : Nat
  loaded : Bool

/-- The file exec is given. The last field says whether the arguments fit. -/
structure Image where
  header : Bool
  segments : List Segment
  args : Bool

def loaduvm (d : Nat) : Nat → Nat → Mem → Option Unit
  | 0, _, _ => some ()
  | n + 1, a, m =>
    match walkpgdir d a false m with
    | (none, _) => none
    | (some _, m) => loaduvm d n (a + 1) m

def loadSegments (l : Layout) (d : Nat) : List Segment → Nat → Mem → Option (Option Nat × Mem)
  | [], sz, m => some (some sz, m)
  | g :: gs, sz, m =>
    if !g.read then some (none, m)
    else if !g.load then loadSegments l d gs sz m
    else if g.memsz < g.filesz then some (none, m)
    else if (g.vaddr + g.memsz) % 4294967296 < g.vaddr then some (none, m)
    else
      (allocuvm l d sz ((g.vaddr + g.memsz) % 4294967296) m).bind fun r =>
        if r.1 = 0 then some (none, r.2)
        else if g.vaddr % 4096 ≠ 0 then some (none, r.2)
        else (loaduvm d (pages g.filesz) (g.vaddr / 4096) r.2).bind fun _ =>
          if g.loaded then loadSegments l d gs r.1 r.2 else some (none, r.2)

def clearpteu (d a : Nat) (m : Mem) : Option Mem :=
  match walkpgdir d a false m with
  | (none, _) => none
  | (some t, m) =>
    let pte := m.word t (a % 1024)
    some (m.set t (a % 1024) (pte - pte / 4 % 2 * 4))

/-- The directory and size of the new image, or none with everything given back. -/
def load (l : Layout) (image : Image) (m : Mem) : Option (Option (Nat × Nat) × Mem) :=
  if !image.header then some (none, m)
  else (setupkvm l m).bind fun
    | (none, m) => some (none, m)
    | (some d, m) =>
      let bad := fun m => (freevm l d m).map fun m => (none, m)
      (loadSegments l d image.segments 0 m).bind fun
        | (none, m) => bad m
        | (some sz, m) =>
          (allocuvm l d (pages sz * 4096) (pages sz * 4096 + 8192) m).bind fun r =>
            if r.1 = 0 then bad r.2
            else (clearpteu d (r.1 / 4096 - 2) r.2).bind fun m =>
              if image.args then some (some (d, r.1), m) else bad m

inductive Phase where
  | unused
  | used
  | zombie
  deriving DecidableEq, Repr

structure Proc where
  phase : Phase
  kstack : Nat
  pgdir : Nat
  sz : Nat

structure State (n : Nat) where
  mem : Mem
  kpgdir : Nat
  proc : Fin n → Proc
  -- whether the last call succeeded
  ok : Bool

variable {n : Nat}

def State.set (s : State n) (p : Fin n) (proc : Proc) : State n :=
  { s with proc := Function.update s.proc p proc }

def allocproc (s : State n) : Option (Fin n) × State n :=
  match (List.finRange n).find? fun p => (s.proc p).phase = .unused with
  | none => (none, s)
  | some p =>
    match kalloc s.mem with
    | (none, m) => (none, ({ s with mem := m } : State n).set p { s.proc p with kstack := 0 })
    | (some k, m) =>
      (some p, ({ s with mem := m } : State n).set p { s.proc p with phase := .used, kstack := k })

def kvmalloc (l : Layout) (s : State n) : Option (State n) :=
  (setupkvm l s.mem).bind fun
    | (none, _) => none
    | (some d, m) => some { s with mem := m, kpgdir := d, ok := true }

/-- The first process, when there is memory for it: inituvm does not look at what kalloc and
    mappages return. -/
def userinit (l : Layout) (s : State n) : Option (State n) :=
  match allocproc s with
  | (none, _) => none
  | (some p, s) =>
    (setupkvm l s.mem).bind fun
      | (none, _) => none
      | (some d, m) =>
        match kalloc m with
        | (none, _) => none
        | (some q, m) =>
          match mappages d 6 1 0 q (m.fill q fun _ => 0) with
          | some (true, m) =>
            some { ({ s with mem := m } : State n).set p { s.proc p with pgdir := d, sz := 4096 }
              with ok := true }
          | _ => none

def fork (l : Layout) (s : State n) (p : Fin n) : Option (State n) :=
  match allocproc s with
  | (none, s) => some { s with ok := false }
  | (some q, s) =>
    (copyuvm l (s.proc p).pgdir (s.proc p).sz s.mem).bind fun
      | (none, m) =>
        (kfree l (s.proc q).kstack m).map fun m =>
          { ({ s with mem := m } : State n).set q ⟨.unused, 0, 0, (s.proc q).sz⟩ with ok := false }
      | (some d, m) =>
        some { ({ s with mem := m } : State n).set q
          { s.proc q with pgdir := d, sz := (s.proc p).sz } with ok := true }

/-- sbrk: `n` as an int. A size of zero is taken for a failure in both directions. -/
def growproc (l : Layout) (s : State n) (p : Fin n) (by_ : Int) : Option (State n) :=
  let sz := (s.proc p).sz
  let target := (((sz : Int) + by_) % 4294967296).toNat
  let done : Option (Nat × Mem) :=
    if by_ > 0 then allocuvm l (s.proc p).pgdir sz target s.mem
    else if by_ < 0 then deallocuvm l (s.proc p).pgdir sz target s.mem
    else some (sz, s.mem)
  done.map fun r =>
    if by_ ≠ 0 ∧ r.1 = 0 then { s with mem := r.2, ok := false }
    else { ({ s with mem := r.2 } : State n).set p { s.proc p with sz := r.1 } with ok := true }

def exec (l : Layout) (s : State n) (p : Fin n) (image : Image) : Option (State n) :=
  (load l image s.mem).bind fun
    | (none, m) => some { s with mem := m, ok := false }
    | (some (d, sz), m) =>
      (freevm l (s.proc p).pgdir m).map fun m =>
        { ({ s with mem := m } : State n).set p { s.proc p with pgdir := d, sz := sz }
          with ok := true }

def exit (s : State n) (p : Fin n) : State n :=
  { s.set p { s.proc p with phase := .zombie } with ok := true }

def wait (l : Layout) (s : State n) (p : Fin n) : Option (State n) :=
  (kfree l (s.proc p).kstack s.mem).bind fun m =>
  (freevm l (s.proc p).pgdir m).map fun m =>
    { ({ s with mem := m } : State n).set p { s.proc p with phase := .unused, kstack := 0 }
      with ok := true }

inductive Event (n : Nat) where
  | kvmalloc
  | userinit
  | fork (p : Fin n)
  | sbrk (p : Fin n) (by_ : Int)
  | exec (p : Fin n) (image : Image)
  | exit (p : Fin n)
  | wait (p : Fin n)
  -- which of the coming calls of kalloc fail
  | fate (denied : List Bool)
  -- a process writes to page `a` of its memory
  | write (p : Fin n) (a : Nat) (w : Nat → Nat)
  -- the kernel writes to the stack of a process
  | push (p : Fin n) (w : Nat → Nat)

def lookup (m : Mem) (d a : Nat) : Option Nat :=
  if a < kernbase then
    if present (m.word d (a / 1024)) then
      let pte := m.word (frame (m.word d (a / 1024))) (a % 1024)
      if present pte then some (frame pte) else none
    else none
  else none

def step (l : Layout) (s : State n) : Event n → Option (State n)
  | .kvmalloc => if s.kpgdir = 0 then kvmalloc l s else none
  | .userinit => userinit l s
  | .fork p => if (s.proc p).phase = .used then fork l s p else none
  | .sbrk p by_ =>
    if (s.proc p).phase = .used ∧ -2147483648 ≤ by_ ∧ by_ < 2147483648 then growproc l s p by_
    else none
  | .exec p image => if (s.proc p).phase = .used then exec l s p image else none
  | .exit p => if (s.proc p).phase = .used then some (exit s p) else none
  | .wait p => if (s.proc p).phase = .zombie then wait l s p else none
  | .fate denied => some { s with mem := { s.mem with denied := denied } }
  | .write p a w =>
    if (s.proc p).phase = .used then
      (lookup s.mem (s.proc p).pgdir a).map fun q => { s with mem := s.mem.fill q w }
    else none
  | .push p w =>
    if (s.proc p).phase = .unused then none
    else some { s with mem := s.mem.fill (s.proc p).kstack w }

end PhysicalPages
