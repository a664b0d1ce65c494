import Xv6.Vm.Copyout

/- exec from the bytes of a file to the new image. All numbers of the file are 32-bit numbers
   that the file's author chose; the eleven ways to `bad` come before and after the inode is
   given back. -/
namespace Exec
open PhysicalPages

/-- readi on a file of these bytes, none for -1. Near the end there are fewer bytes than asked
    for. -/
def readi (content : List UInt8) (off n : Nat) : Option (List UInt8) :=
  if off > content.length ∨ (off + n) % 4294967296 < off then none
  else some ((content.drop off).take n)

def field (bs : List UInt8) (a k : Nat) : Nat := Bytes.number ((bs.drop a).take k)

theorem field_lt (bs : List UInt8) (a k : Nat) : field bs a k < 256 ^ k :=
  Nat.lt_of_lt_of_le (Bytes.number_lt _) (Nat.pow_le_pow_right (by decide) (List.length_take_le ..))

structure Elfhdr where
  magic : Nat
  entry : Nat
  phoff : Nat
  phnum : Nat

def elfhdr (bs : List UInt8) : Elfhdr := ⟨field bs 0 4, field bs 24 4, field bs 28 4, field bs 44 2⟩

structure Proghdr where
  type : Nat
  off : Nat
  vaddr : Nat
  filesz : Nat
  memsz : Nat

def proghdr (bs : List UInt8) : Proghdr :=
  ⟨field bs 0 4, field bs 4 4, field bs 8 4, field bs 16 4, field bs 20 4⟩

/-- The loop of loaduvm from page `a` on with `left` bytes to go. No value is the panic about a page
    that should exist; a page that is not there would be written to at frame 0. -/
def loadPages (d : Nat) (content : List UInt8) : Nat → Nat → Nat → Nat → Mem → Option (Bool × Mem)
  | 0, _, _, _, m => some (true, m)
  | n + 1, a, off, left, m =>
    match walkpgdir d a false m with
    | (none, _) => none
    | (some t, m) =>
      let count := if left < 4096 then left else 4096
      match readi content (off % 4294967296) count with
      | none => some (false, m)
      | some bs =>
        let m' := m.memmove (frame (m.word t (a % 1024))) 0 bs
        if bs.length ≠ count then some (false, m')
        else loadPages d content n (a + 1) (off + 4096) (left - 4096) m'

def loaduvm (d addr : Nat) (content : List UInt8) (offset sz : Nat) (m : Mem) :
    Option (Bool × Mem) :=
  if addr % 4096 ≠ 0 then none else loadPages d content (pages sz) (addr / 4096) offset sz m

/-- The loop over the program headers: the size, none for `goto bad`. -/
def loadSegments (l : Layout) (d : Nat) (content : List UInt8) :
    Nat → Nat → Nat → Mem → Option (Option Nat × Mem)
  | 0, _, sz, m => some (some sz, m)
  | n + 1, off, sz, m =>
    match readi content (off % 4294967296) 32 with
    | none => some (none, m)
    | some bs =>
      let ph := proghdr bs
      if bs.length ≠ 32 then some (none, m)
      else if ph.type ≠ 1 then loadSegments l d content n (off + 32) sz m
      else if ph.memsz < ph.filesz then some (none, m)
      else if (ph.vaddr + ph.memsz) % 4294967296 < ph.vaddr then some (none, m)
      else
        (allocuvm l d sz ((ph.vaddr + ph.memsz) % 4294967296) m).bind fun r =>
          if r.1 = 0 then some (none, r.2)
          else if ph.vaddr % 4096 ≠ 0 then some (none, r.2)
          else
            (loaduvm d ph.vaddr content ph.off ph.filesz r.2).bind fun q =>
              if q.1 then loadSegments l d content n (off + 32) r.1 q.2 else some (none, q.2)

/-- What exec has while it holds the inode: a directory if it came so far, and the entry point
    and the size unless it is to `goto bad`. -/
structure Opened where
  pgdir : Option Nat
  image : Option (Nat × Nat)
  mem : Mem

def openImage (l : Layout) (content : List UInt8) (m : Mem) : Option Opened :=
  match readi content 0 52 with
  | none => some ⟨none, none, m⟩
  | some bs =>
    let elf := elfhdr bs
    if bs.length ≠ 52 then some ⟨none, none, m⟩
    else if elf.magic ≠ 1179403647 then some ⟨none, none, m⟩
    else
      (setupkvm l m).bind fun r =>
        match r.1 with
        | none => some ⟨none, none, r.2⟩
        | some d =>
          (loadSegments l d content elf.phnum elf.phoff 0 r.2).map fun q =>
            ⟨some d, q.1.map fun sz => (elf.entry, sz), q.2⟩

/-- Two pages behind the program, the first of them inaccessible. -/
def makeStack (l : Layout) (d sz : Nat) (m : Mem) : Option (Option Nat × Mem) :=
  (allocuvm l d (pages sz * 4096) (pages sz * 4096 + 8192) m).bind fun r =>
    if r.1 = 0 then some (none, r.2)
    else (clearpteu d (r.1 / 4096 - 2) r.2).map fun m => (some r.1, m)

def maxArg : Nat := 32

abbrev Copy := Nat → Nat → List UInt8 → Mem → Option (Bool × Mem)

/-- The strings, each below the one before: the stack pointer and where they are, none for `goto
    bad`. -/
def pushStrings (copyout : Copy) (d : Nat) :
    List (List UInt8) → Nat → Nat → Mem → Option (Option (Nat × List Nat) × Mem)
  | [], _, sp, m => some (some (sp, []), m)
  | arg :: args, argc, sp, m =>
    if argc ≥ maxArg then some (none, m)
    else
      (copyout d (pushed sp arg.length) (arg ++ [0]) m).bind fun r =>
        if r.1 then
          (pushStrings copyout d args (argc + 1) (pushed sp arg.length) r.2).map fun q =>
            (q.1.map fun v => (v.1, pushed sp arg.length :: v.2), q.2)
        else some (none, r.2)

/-- The return address, argc, argv, and the vector with its null pointer. -/
def ustack (argc sp : Nat) (ptrs : List Nat) : List Nat :=
  4294967295 :: argc :: (sp + 4294967296 - (argc + 1) * 4) % 4294967296 :: (ptrs ++ [0])

def belowVector (argc sp : Nat) : Nat := (sp + 4294967296 - (3 + argc + 1) * 4) % 4294967296

/-- The stack pointer of the new program, none for `goto bad`. -/
def pushArgs (copyout : Copy) (d : Nat) (argv : List (List UInt8)) (sp : Nat) (m : Mem) :
    Option (Option Nat × Mem) :=
  (pushStrings copyout d argv 0 sp m).bind fun r =>
    match r.1 with
    | none => some (none, r.2)
    | some v =>
      (copyout d (belowVector argv.length v.1)
        ((ustack argv.length v.1 v.2).flatMap (Bytes.digits 4)) r.2).map fun q =>
          (if q.1 then some (belowVector argv.length v.1) else none, q.2)

structure Proc where
  pgdir : Nat
  sz : Nat
  eip : Nat
  esp : Nat
  name : List UInt8
  deriving DecidableEq, Repr

/-- The process, the operations of the log it has begun, and its references to the inode and its
    lock on it. -/
structure Machine where
  mem : Mem
  proc : Proc
  ops : Nat
  refs : Nat
  locked : Bool

namespace Machine

def beginOp (s : Machine) : Machine := { s with ops := s.ops + 1 }

def endOp (s : Machine) : Option Machine :=
  if s.ops = 0 then none else some { s with ops := s.ops - 1 }

def openInode (s : Machine) : Machine := { s with refs := s.refs + 1, locked := true }

/-- No value is the panic of iunlock, or a reference that is not there. -/
def iunlockput (s : Machine) : Option Machine :=
  if s.locked = false ∨ s.refs = 0 then none
  else some { s with refs := s.refs - 1, locked := false }

end Machine

def lastName : List UInt8 → List UInt8 → List UInt8
  | [], last => last
  | c :: s, last => if c = 47 then lastName s s else lastName s last

def discard (l : Layout) (pgdir : Option Nat) (m : Mem) : Option Mem :=
  match pgdir with
  | none => some m
  | some d => freevm l d m

def bad (l : Layout) (pgdir : Option Nat) (ip : Bool) (s : Machine) : Option (Bool × Machine) :=
  (discard l pgdir s.mem).bind fun m =>
    let s := { s with mem := m }
    if ip then (s.iunlockput.bind Machine.endOp).map fun s => (false, s) else some (false, s)

/-- What is left to do when the inode has been given back. -/
def finish (l : Layout) (copyout : Copy) (path : List UInt8) (argv : List (List UInt8))
    (d entry sz : Nat) (s : Machine) :
    Option (Bool × Machine) :=
  (makeStack l d sz s.mem).bind fun r =>
    match r.1 with
    | none => bad l (some d) false { s with mem := r.2 }
    | some sz =>
      (pushArgs copyout d argv sz r.2).bind fun q =>
        match q.1 with
        | none => bad l (some d) false { s with mem := q.2 }
        | some sp =>
          (freevm l s.proc.pgdir q.2).map fun m =>
            (true, { s with mem := m, proc := ⟨d, sz, entry, sp, (lastName path path).take 15⟩ })

/-- exec with what namei finds at the path: the bytes of a file or nothing. True is the result 0;
    no value is a panic. -/
def exec (l : Layout) (copyout : Copy) (path : List UInt8) (file : Option (List UInt8))
    (argv : List (List UInt8)) (s : Machine) :
    Option (Bool × Machine) :=
  match file with
  | none => s.beginOp.endOp.map fun s => (false, s)
  | some content =>
    (openImage l content s.mem).bind fun o =>
      let s := { s.beginOp.openInode with mem := o.mem }
      match o.pgdir, o.image with
      | some d, some (entry, sz) =>
        s.iunlockput.bind fun s => s.endOp.bind fun s => finish l copyout path argv d entry sz s
      | pgdir, _ => bad l pgdir true s

structure Sound (l : Layout) : Prop extends l.Valid where
  apart : l.Apart
  supervisor : ∀ k ∈ l.kmap, k.perm / 4 % 2 = 0
  low : l.phystop ≤ kernbase

theorem xv6_sound {first data : Nat} (low : 0 < first) (text : 256 ≤ data) (top : data ≤ 57344) :
    Sound (xv6 first data) := by
  refine ⟨xv6_valid low text top, ?_, ?_, by simp only [xv6, kernbase]; omega⟩
  · simp only [Layout.Apart, xv6, List.pairwise_cons, List.forall_mem_cons]
    simp only [List.not_mem_nil, false_implies, implies_true, and_true, List.Pairwise.nil]
    omega
  · simp only [xv6, List.forall_mem_cons]
    simp

def Confined (l : Layout) (copyout : Copy) : Prop :=
  ∀ m g free d va buf, Directory l m g free d → va < 4294967296 → buf.length < 4294967296 →
    ∃ ok m', copyout d va buf m = some (ok, m') ∧ m'.freelist = m.freelist ∧
      ∀ x, (∀ a, userAt m d a ≠ some x) → m'.word x = m.word x

section Writes

variable {l : Layout} {m m' : Mem} {g : Hold} {free : List Nat} {d : Nat}

structure Inside (g : Hold) (d : Nat) (m m' : Mem) : Prop where
  keeps : Keeps g d Set.univ m m'
  entries : ∀ b, pteAt m' d b = pteAt m d b

theorem Inside.refl (g : Hold) (d : Nat) (m : Mem) : Inside g d m m := ⟨.refl g d _ m, fun _ => rfl⟩

theorem Inside.trans {m'' : Mem} (first : Inside g d m m') (second : Inside g d m' m'') :
    Inside g d m m'' :=
  ⟨first.keeps.trans second.keeps, fun b => (second.entries b).trans (first.entries b)⟩

theorem Inside.users (inside : Inside g d m m') (b : Nat) : userAt m' d b = userAt m d b := by
  rw [userAt_pte, userAt_pte, inside.entries]

theorem confined_good (good : Good l m g free) (alive : g.live d = true)
    (head : m'.freelist = m.freelist)
    (same : ∀ x, (∀ a, userAt m d a ≠ some x) → m'.word x = m.word x) :
    Good l m' g free ∧ Inside g d m m' := by
  have kept : ∀ q x, (∀ a, q ≠ .user d a) → held m g q = some x → m'.word x = m.word x := by
    refine fun q x other here => same x fun a at_ => other a (good.once_at here ?_)
    simp [held, alive, at_]
  have dirs : ∀ e, g.live e = true → m'.word e = m.word e :=
    fun e live => kept (.dir e) e (by simp) (by simp [held, live])
  have tables : ∀ e i t, g.live e = true → tableAt m e i = some t → m'.word t = m.word t :=
    fun e i t live found =>
      kept (.table e i) t (by simp) (by simp [held, live, found])
  have still : ∀ e, g.live e = true → Same m m' e := fun e live =>
    ⟨fun i => tableAt_congr (dirs e live), fun a => userAt_congr (dirs e live) fun t found =>
      tables e _ t live found⟩
  refine ⟨⟨chain_congr good.chain head fun x mem => same x fun a at_ => ?_, good.once,
    Ownership.exact_congr good.exact (fun _ => Iff.rfl) (held_of_same still)⟩,
      ⟨⟨fun e live _ => still e live, fun i t found =>
        ((still d alive).1 i).trans found⟩, fun q x not here => kept q x (fun a eq => not ?_) here,
          fun b out => absurd trivial out⟩, fun b => ?_⟩
  · exact good.not_free (q := .user d a) (by simp [held, alive, at_]) mem
  · rw [eq]
    exact ⟨rfl, trivial⟩
  · refine pteAt_congr (dirs d alive) fun t found => ?_
    rw [tables d _ t alive found]

end Writes

section Image

variable {l : Layout} {m₀ m m' : Mem} {g : Hold} {free free' : List Nat} {d sz : Nat}
  {content : List UInt8}

structure Building (l : Layout) (g : Hold) (m₀ : Mem) (d : Nat) (m : Mem) (free : List Nat) :
    Prop where
  good : Good l m (g.add d) free
  spared : Spared g m₀ m
  supervisor : ∀ a, kernbase ≤ a → userPage m d a = none

variable (sound : Sound l) (idle : Idle g) (dead : g.live d = false)

theorem add_alive : (g.add d).live d = true := Function.update_self ..

theorem Building.directory (building : Building l g m₀ d m free) (low : l.phystop ≤ kernbase) :
    Directory l m (g.add d) free d :=
  ⟨building.good, add_alive, low, building.supervisor⟩

include idle dead in
theorem Building.step {R : Set Nat} (building : Building l g m₀ d m free)
    (good : Good l m' (g.add d) free')
    (keeps : Keeps (g.add d) d R m m') (entries : ∀ b, kernbase ≤ b → pteAt m' d b = pteAt m d b) :
    Building l g m₀ d m' free' := by
  have spared := keeps.spared (idle.add d)
  rw [add_drop dead] at spared
  refine ⟨good, building.spared.trans spared, fun a high => ?_⟩
  rw [userPage, entries a high]
  exact building.supervisor a high

include idle dead in
theorem Building.inside (building : Building l g m₀ d m free) (good : Good l m' (g.add d) free)
    (inside : Inside (g.add d) d m m') :
    Building l g m₀ d m' free :=
  building.step idle dead good inside.keeps fun b _ => inside.entries b

include sound idle dead in
theorem Building.alloc (oldsz newsz : Nat) (building : Building l g m₀ d m free)
    (spans : Spans m d oldsz) (low : oldsz < 2147483648) :
    ∃ r m' free', allocuvm l d oldsz newsz m = some (r, m') ∧ Building l g m₀ d m' free' ∧
      (r ≠ 0 → Spans m' d r ∧ r = max oldsz newsz ∧ r < 2147483648) := by
  by_cases big : newsz ≥ 2147483648
  · exact ⟨0, m, free, if_pos big, building, fun not => absurd rfl not⟩
  by_cases less : newsz < oldsz
  · exact ⟨oldsz, m, free, by rw [allocuvm, if_neg big, if_pos less], building,
      fun _ => ⟨spans, by omega, low⟩⟩
  have order : pages oldsz ≤ pages newsz := Nat.div_le_div_right (by omega)
  obtain ⟨r,m',free',done,good,keeps,-,grown,size⟩ :=
    allocuvm_total oldsz newsz building.good sound.first add_alive (idle.spare 0)
    (idle.spare 1) spans.above
  refine ⟨r, m', free', done, building.step idle dead good keeps fun b high =>
    keeps.entries b fun mem => ?_, fun some_ => ?_⟩
  · have := mem.2
    simp only [pages, kernbase] at this high
    omega
  · obtain ⟨above,fresh⟩ := grown some_
    obtain rfl : r = newsz := by omega
    refine ⟨fun b => ⟨fun there => ?_, fun inside => ?_⟩, by omega, by omega⟩
    · by_contra out
      rw [above b (by omega)] at there
      cases there
    · by_cases new : pages oldsz ≤ b
      · obtain ⟨⟨x,there,-⟩,-⟩ := fresh b new inside
        rw [there]
        rfl
      · rw [keeps.users fun mem => new mem.1]
        exact (spans b).mpr (by omega)

theorem loadPages_good (content : List UInt8) (n a off left : Nat) (good : Good l m g free)
    (alive : g.live d = true) (low : a + n ≤ kernbase)
    (there : ∀ b, a ≤ b → b < a + n → (userAt m d b).isSome = true) :
    ∃ ok m', loadPages d content n a off left m = some (ok, m') ∧ Good l m' g free ∧
      Inside g d m m' := by
  induction n generalizing a off left m with
  | zero => exact ⟨true, m, rfl, good, .refl g d m⟩
  | succ n ih =>
    have under : a < kernbase := by omega
    have inside : a / 1024 < 1024 := by
      simp only [kernbase] at under
      omega
    obtain ⟨x,page⟩ := Option.isSome_iff_exists.mp (there a (Nat.le_refl a) (by omega))
    rw [loadPages, walk_false, ← tableAt_eq inside]
    cases table : tableAt m d (a / 1024) with
    | none => simp [userAt, under, table] at page
    | some t =>
      have at_ : frame (m.word t (a % 1024)) = x := by
        rw [userAt_eq under table] at page
        split at page
        · exact Option.some.inj page
        · cases page
      simp only [at_]
      generalize (if left < 4096 then left else 4096) = count
      cases readi content (off % 4294967296) count with
      | none => exact ⟨false, m, rfl, good, .refl g d m⟩
      | some bs =>
        obtain ⟨good₁,inside₁⟩ := confined_good good alive
          (show (m.memmove x 0 bs).freelist = m.freelist from rfl) fun y out =>
            memmove_other 0 bs fun eq => out a (eq ▸ page)
        simp only
        split
        · exact ⟨false, _, rfl, good₁, inside₁⟩
        · obtain ⟨ok,m',done,good',rest⟩ :=
            ih (a + 1) (off + 4096) (left - 4096) good₁ (by omega) fun b from_ below => by
              rw [inside₁.users]
              exact there b (by omega) (by omega)
          exact ⟨ok, m', done, good', inside₁.trans rest⟩

include sound idle dead in
theorem loadSegments_good (content : List UInt8) (n off : Nat) (building : Building l g m₀ d m free)
    (spans : Spans m d sz) (low : sz < 2147483648) :
    ∃ found m' free', loadSegments l d content n off sz m = some (found, m') ∧
      Building l g m₀ d m' free' ∧
      ∀ sz', found = some sz' → Spans m' d sz' ∧ sz' < 2147483648 := by
  induction n generalizing off sz m free with
  | zero =>
    refine ⟨some sz, m, free, rfl, building, fun sz' eq => ?_⟩
    cases eq
    exact ⟨spans, low⟩
  | succ n ih =>
    -- every failure leaves the directory as it has come so far
    have stop : ∀ {m₁ : Mem} {free₁ : List Nat}, Building l g m₀ d m₁ free₁ → ∃ found m' free',
      some ((none : Option Nat), m₁) = some (found, m') ∧
        Building l g m₀ d m' free' ∧ ∀ sz', found = some sz' → Spans m' d sz' ∧
          sz' < 2147483648 := by
      intro m₁ free₁ building₁
      exact ⟨none, m₁, free₁, rfl, building₁, fun sz' eq => by cases eq⟩
    rw [loadSegments]
    cases readi content (off % 4294967296) 32 with
    | none => exact stop building
    | some bs =>
      simp only
      split
      · exact stop building
      split
      · exact ih _ building spans low
      split
      · exact stop building
      split
      · exact stop building
      next larger fits =>
        obtain ⟨r,m₁,free₁,grown,building₁,size⟩ := building.alloc sound idle dead sz
          (((proghdr bs).vaddr + (proghdr bs).memsz) % 4294967296) spans low
        rw [grown, Option.bind_some]
        simp only
        split
        · exact stop building₁
        next some_ =>
          obtain ⟨spans₁,covers,low₁⟩ := size some_
          split
          · exact stop building₁
          next aligned =>
            -- the segment lies below the new size
            have word : (proghdr bs).memsz < 256 ^ 4 := field_lt bs 20 4
            have end_ : (proghdr bs).vaddr + (proghdr bs).filesz ≤ r := by omega
            obtain ⟨ok,m₂,loaded,good₂,inside⟩ :=
              loadPages_good content (pages (proghdr bs).filesz) ((proghdr bs).vaddr / 4096)
              (proghdr bs).off (proghdr bs).filesz building₁.good add_alive
              (by simp only [pages, kernbase]; omega) fun b from_ below =>
                (spans₁ b).mpr (by simp only [pages] at below ⊢; omega)
            have building₂ := building₁.inside idle dead good₂ inside
            rw [loaduvm, if_neg aligned, loaded, Option.bind_some]
            cases ok with
            | false => exact stop building₂
            | true =>
              refine ih _ building₂ (fun b => ?_) low₁
              rw [inside.users]
              exact spans₁ b

include sound idle dead in
theorem Building.undo (building : Building l g m₀ d m free) :
    ∃ m' free', freevm l d m = some m' ∧ Good l m' g free' ∧ Spared g m₀ m' := by
  obtain ⟨m',free',freed,good,spared⟩ :=
    freevm_good building.good sound.first add_alive (idle.add d)
  rw [add_drop dead] at good spared
  exact ⟨m', free', freed, good, building.spared.trans spared⟩

end Image

section Stack

variable {l : Layout} {m₀ m m' : Mem} {g : Hold} {free free' : List Nat} {d sz : Nat}
  {content : List UInt8}

structure OpenedImage (l : Layout) (g : Hold) (m₀ : Mem) (o : Opened) : Prop where
  none_ : o.pgdir = none → o.image = none ∧ ∃ free, Good l o.mem g free ∧ Spared g m₀ o.mem
  some_ : ∀ d, o.pgdir = some d → g.live d = false ∧ ∃ free, Building l g m₀ d o.mem free ∧
    ∀ entry sz, o.image = some (entry, sz) → Spans o.mem d sz ∧ sz < 2147483648

theorem openImage_good (content : List UInt8) (sound : Sound l) (idle : Idle g)
    (good : Good l m₀ g free) :
    ∃ o, openImage l content m₀ = some o ∧ OpenedImage l g m₀ o := by
  have stop : ∀ {m : Mem} {free : List Nat}, Good l m g free → Spared g m₀ m →
      OpenedImage l g m₀ ⟨none, none, m⟩ := fun good spared =>
        ⟨fun _ => ⟨rfl, _, good, spared⟩, fun d eq => by cases eq⟩
  rw [openImage]
  cases readi content 0 52 with
  | none => exact ⟨_, rfl, stop good (.refl g m₀)⟩
  | some bs =>
    simp only
    split
    · exact ⟨_, rfl, stop good (.refl g m₀)⟩
    split
    · exact ⟨_, rfl, stop good (.refl g m₀)⟩
    obtain ⟨found,m₁,setup⟩ := setupkvm_total good sound.toValid sound.apart idle
    obtain ⟨free₁,spared,failed,succeeded⟩ := setupkvm_good good sound.toValid idle setup
    rw [setup, Option.bind_some]
    cases found with
    | none => exact ⟨_, rfl, stop (failed rfl) spared⟩
    | some d =>
      obtain ⟨dead,good₁,empty,fresh⟩ := succeeded d rfl
      have building : Building l g m₀ d m₁ free₁ :=
        ⟨good₁, spared, fun a _ => fresh.supervisor sound.supervisor a⟩
      have spans : Spans m₁ d 0 := fun b => iff_of_false (by rw [empty]; simp) (Nat.not_lt_zero b)
      obtain ⟨size,m₂,free₂,loaded,building₂,ends⟩ :=
        loadSegments_good sound idle dead content (elfhdr bs).phnum (elfhdr bs).phoff
        building spans (by decide)
      refine ⟨⟨some d, size.map fun sz => ((elfhdr bs).entry, sz), m₂⟩,
        by simp only [loaded, Option.map_some],
        fun eq => (by cases eq), fun d' eq => ?_⟩
      cases eq
      refine ⟨dead, free₂, building₂, fun entry sz eq => ?_⟩
      obtain ⟨sz',rfl,same⟩ := Option.map_eq_some_iff.mp eq
      cases same
      exact ends _ rfl

structure Stacked (m : Mem) (d top : Nat) : Prop where
  aligned : top % 4096 = 0
  room : 8192 ≤ top
  low : top < 2147483648
  spans : Spans m d top
  guard : userPage m d (top / 4096 - 2) = none

theorem clearpteu_total {a : Nat} (good : Good l m g free) (alive : g.live d = true)
    (low : a < kernbase) (there : (userAt m d a).isSome = true) :
    ∃ m', clearpteu d a m = some m' ∧ Good l m' g free ∧ Keeps g d {a} m m' ∧
      (∀ b, userAt m' d b = userAt m d b) ∧ userPage m' d a = none := by
  have inside : a / 1024 < 1024 := by
    simp only [kernbase] at low
    omega
  cases table : tableAt m d (a / 1024) with
  | none => simp [userAt, low, table] at there
  | some t =>
    have call : clearpteu d a m = some
        (m.set t (a % 1024) (m.word t (a % 1024) - m.word t (a % 1024) / 4 % 2 * 4)) := by
      rw [clearpteu, walk_false, ← tableAt_eq inside, table]
    obtain ⟨good',same⟩ := clearpteu_good good alive low call
    refine ⟨_, call, good', keeps_set good.exact.once alive table fun b row column => ?_,
      (same d alive).2, ?_⟩
    · show b = a
      omega
    · have value := pteAt_set (j := a % 1024)
        (w := m.word t (a % 1024) - m.word t (a % 1024) / 4 % 2 * 4) (good.sole alive table) a
      rw [if_pos ⟨rfl, rfl⟩] at value
      rw [userPage, value, if_neg (by omega)]

theorem makeStack_good (sound : Sound l) (idle : Idle g) (dead : g.live d = false)
    (building : Building l g m₀ d m free) (spans : Spans m d sz) :
    ∃ found m' free', makeStack l d sz m = some (found, m') ∧ Building l g m₀ d m' free' ∧ ∀ top,
      found = some top → Stacked m' d top := by
  have same : pages (pages sz * 4096) = pages sz := by
    simp only [pages]
    omega
  by_cases big : pages sz * 4096 + 8192 ≥ 2147483648
  · refine ⟨none, m, free, ?_, building, fun top eq => by cases eq⟩
    rw [makeStack, allocuvm, if_pos big]
    rfl
  obtain ⟨r,m₁,free₁,grown,building₁,size⟩ :=
    building.alloc sound idle dead (pages sz * 4096) (pages sz * 4096 + 8192)
    (fun b => by rw [same]; exact spans b) (by omega)
  rw [makeStack, grown, Option.bind_some]
  by_cases zero : r = 0
  · exact ⟨none, m₁, free₁, if_pos zero, building₁, fun top eq => by cases eq⟩
  · obtain ⟨spans₁,covers,low₁⟩ := size zero
    have under : r / 4096 - 2 < kernbase := by
      simp only [kernbase]
      omega
    obtain ⟨m₂,cleared,good₂,keeps,users,guard⟩ := clearpteu_total building₁.good add_alive under
      ((spans₁ _).mpr (by simp only [pages]; omega))
    refine ⟨some r, m₂, free₁, by rw [if_neg zero, cleared]; rfl,
      building₁.step idle dead good₂ keeps fun b high => keeps.entries b fun eq => ?_,
      fun top eq => ?_⟩
    · rw [show b = r / 4096 - 2 from eq] at high
      omega
    · cases eq
      exact ⟨by omega, by omega, low₁, fun b => by rw [users]; exact spans₁ b, guard⟩

variable {copyout : Copy}

theorem pushStrings_good (sound : Sound l) (idle : Idle g) (dead : g.live d = false)
    (confined : Confined l copyout) {args : List (List UInt8)}
    (argc sp : Nat) (building : Building l g m₀ d m free)
    (small : ∀ a ∈ args, a.length + 1 < 4294967296) :
    ∃ found m', pushStrings copyout d args argc sp m = some (found, m') ∧
      Building l g m₀ d m' free ∧
      ∀ v, found = some v → argc + v.2.length ≤ max argc maxArg := by
  induction args generalizing argc sp m with
  | nil => exact ⟨some (sp, []), m, rfl, building, fun v eq => by cases eq; simp⟩
  | cons arg args ih =>
    rw [pushStrings]
    split
    · exact ⟨none, m, rfl, building, fun v eq => by cases eq⟩
    next few =>
      have low : pushed sp arg.length < 4294967296 := by
        simp only [pushed]
        omega
      obtain ⟨ok,m₁,copied,head,words⟩ := confined m (g.add d) free d (pushed sp arg.length)
        (arg ++ [0]) (building.directory sound.low) low
        (by rw [List.length_append, List.length_singleton]; exact small arg (by simp))
      obtain ⟨good₁,inside⟩ := confined_good building.good add_alive head words
      have building₁ := building.inside idle dead good₁ inside
      rw [copied, Option.bind_some]
      cases ok with
      | false => exact ⟨none, m₁, rfl, building₁, fun v eq => by cases eq⟩
      | true =>
        obtain ⟨found,m₂,rest,building₂,count⟩ :=
          ih (argc + 1) (pushed sp arg.length) building₁ fun a mem => small a (by simp [mem])
        refine ⟨found.map fun v => (v.1, pushed sp arg.length :: v.2), m₂,
          by simp only [if_true, rest, Option.map_some], building₂,
          fun v eq => ?_⟩
        obtain ⟨w,rfl,rfl⟩ := Option.map_eq_some_iff.mp eq
        have := count w rfl
        simp only [List.length_cons]
        omega

theorem pushArgs_good (sound : Sound l) (idle : Idle g) (dead : g.live d = false)
    (confined : Confined l copyout) {argv : List (List UInt8)}
    (sp : Nat) (building : Building l g m₀ d m free)
    (small : ∀ a ∈ argv, a.length + 1 < 4294967296) :
    ∃ found m', pushArgs copyout d argv sp m = some (found, m') ∧ Building l g m₀ d m' free := by
  obtain ⟨found,m₁,strings,building₁,count⟩ :=
    pushStrings_good sound idle dead confined 0 sp building small
  rw [pushArgs, strings, Option.bind_some]
  cases found with
  | none => exact ⟨none, m₁, rfl, building₁⟩
  | some v =>
    have few := count v rfl
    have length : ((ustack argv.length v.1 v.2).flatMap (Bytes.digits 4)).length =
        4 * (v.2.length + 4) := by
      rw [Bytes.length_records (Bytes.length_digits 4)]
      simp only [ustack, List.length_cons, List.length_append, List.length_nil]
    obtain ⟨ok,m₂,copied,head,words⟩ := confined m₁ (g.add d) free d (belowVector argv.length v.1)
      ((ustack argv.length v.1 v.2).flatMap (Bytes.digits 4)) (building₁.directory sound.low)
        (Nat.mod_lt _ (by decide))
      (by rw [length]; simp only [maxArg] at few; omega)
    obtain ⟨good₂,inside⟩ := confined_good building₁.good add_alive head words
    exact ⟨if ok then some (belowVector argv.length v.1)
      else none, m₂, by simp only [copied, Option.map_some],
      building₁.inside idle dead good₂ inside⟩

end Stack

section Exec

variable {l : Layout} {g : Hold} {free : List Nat} {s : Machine} {copyout : Copy}
  {path : List UInt8} {argv : List (List UInt8)} {m₀ : Mem}

def Untouched (l : Layout) (g : Hold) (free : List Nat) (m m' : Mem) : Prop :=
  ∃ free', Good l m' g free' ∧ (∀ r, r ∈ free' ↔ r ∈ free) ∧ Spared g m m'

def Balanced (s s' : Machine) : Prop := s'.ops = s.ops ∧ s'.refs = s.refs ∧ s'.locked = s.locked

theorem untouched {m : Mem} {free' : List Nat} (good : Good l m₀ g free) (good' : Good l m g free')
    (spared : Spared g m₀ m) :
    Untouched l g free m₀ m := ⟨free', good', good.free_same good' spared.same, spared⟩

/-- exec returns, and either it has a new image or nothing has happened. -/
def Atomic (l : Layout) (g : Hold) (free : List Nat) (s : Machine)
    (result : Option (Bool × Machine)) : Prop :=
  ∃ ok s', result = some (ok, s') ∧ Balanced s s' ∧
    (ok = false → s'.proc = s.proc ∧ Untouched l g free s.mem s'.mem) ∧
    (ok = true → ∃ free', Good l s'.mem ((g.add s'.proc.pgdir).drop s.proc.pgdir) free')

theorem finish_atomic (path : List UInt8) (entry : Nat) {d sz : Nat} {m : Mem} {free' : List Nat}
    (sound : Sound l) (idle : Idle g) (dead : g.live d = false)
    (confined : Confined l copyout) (good : Good l s.mem g free)
    (alive : g.live s.proc.pgdir = true)
    (small : ∀ a ∈ argv, a.length + 1 < 4294967296) (building : Building l g s.mem d m free')
    (spans : Spans m d sz) :
    Atomic l g free s (finish l copyout path argv d entry sz { s with mem := m }) := by
  have undo : ∀ {m' : Mem} {free₁ : List Nat}, Building l g s.mem d m' free₁ →
      Atomic l g free s (bad l (some d) false { s with mem := m' }) := by
    intro m' free₁ building'
    obtain ⟨m₂,free₂,freed,good₂,spared⟩ := building'.undo sound idle dead
    refine ⟨false, { s with mem := m₂ }, ?_, ⟨rfl, rfl, rfl⟩,
      fun _ => ⟨rfl, untouched good good₂ spared⟩, fun eq => by cases eq⟩
    simp only [bad, discard, freed, Option.bind_some, Bool.false_eq_true, if_false]
  obtain ⟨found,m₁,free₁,stack,building₁,-⟩ := makeStack_good sound idle dead building spans
  rw [finish, stack, Option.bind_some]
  cases found with
  | none => exact undo building₁
  | some top =>
    obtain ⟨found,m₂,pushes,building₂⟩ := pushArgs_good sound idle dead confined top building₁ small
    simp only [pushes, Option.bind_some]
    cases found with
    | none => exact undo building₂
    | some sp =>
      obtain ⟨m₃,free₃,freed,good₃,-⟩ :=
        freevm_good building₂.good sound.first (add_live dead alive).1 (idle.add d)
      refine ⟨true, { s with mem := m₃, proc := ⟨d, top, entry, sp, (lastName path path).take 15⟩ },
        ?_, ⟨rfl, rfl, rfl⟩,
        fun eq => (by cases eq), fun _ => ⟨free₃, good₃⟩⟩
      simp only [freed, Option.map_some]

theorem bad_atomic {m m' : Mem} {pgdir : Option Nat} {free' : List Nat}
    (unlocked : s.locked = false) (good : Good l s.mem g free)
    (undone : discard l pgdir m = some m') (good' : Good l m' g free')
    (spared : Spared g s.mem m') :
    Atomic l g free s (bad l pgdir true { s.beginOp.openInode with mem := m }) := by
  refine ⟨false, ⟨m', s.proc, s.ops, s.refs, false⟩, ?_, ⟨rfl, rfl, unlocked.symm⟩,
    fun _ => ⟨rfl, untouched good good' spared⟩, fun eq => by cases eq⟩
  simp [bad, undone, Machine.beginOp, Machine.openInode, Machine.iunlockput, Machine.endOp]

end Exec

/-- For every file, argument list and amount of memory exec returns without a panic, with the
    inode and the log as it found them, and a failed exec has changed nothing. -/
theorem exec_leaves_no_trace {l : Layout} {g : Hold} {free : List Nat} {s : Machine}
    {copyout : Copy} {argv : List (List UInt8)}
    (sound : Sound l) (good : Good l s.mem g free) (idle : Idle g)
    (alive : g.live s.proc.pgdir = true) (unlocked : s.locked = false)
    (confined : Confined l copyout) (strings : ∀ a ∈ argv, a.length + 1 < 4294967296)
    (path : List UInt8) (file : Option (List UInt8)) :
    Atomic l g free s (exec l copyout path file argv s) := by
  cases file with
  | none =>
    exact ⟨false, s, by simp [exec, Machine.beginOp, Machine.endOp], ⟨rfl, rfl, rfl⟩,
      fun _ => ⟨rfl, untouched good good (.refl g _)⟩,
      fun eq => by cases eq⟩
  | some content =>
    obtain ⟨o,opened,image⟩ := openImage_good content sound idle good
    rw [exec, opened, Option.bind_some]
    obtain ⟨pgdir,found,m⟩ := o
    cases pgdir with
    | none =>
      obtain ⟨-,free',good',spared⟩ := image.none_ rfl
      exact bad_atomic unlocked good rfl good' spared
    | some d =>
      obtain ⟨dead,free',building,sized⟩ := image.some_ d rfl
      cases found with
      | none =>
        obtain ⟨m',free'',freed,good',spared⟩ := building.undo sound idle dead
        exact bad_atomic unlocked good freed good' spared
      | some v =>
        obtain ⟨entry,sz⟩ := v
        obtain ⟨spans,-⟩ := sized entry sz rfl
        have same : ({ s with mem := m } : Machine) = ⟨m, s.proc, s.ops, s.refs, false⟩ := by
          rw [← unlocked]
        have atomic :=
          finish_atomic path entry sound idle dead confined good alive strings building spans
        rw [same] at atomic
        simpa [Machine.beginOp, Machine.openInode, Machine.iunlockput, Machine.endOp] using atomic

def checkedCopyout : Copy := fun d va buf m => some ((copyout d va buf m).getD (false, m))

theorem copyoutLoop_freelist {d n va : Nat} {buf : List UInt8} {m m' : Mem} {ok : Bool}
    (call : copyoutLoop d n va buf m = some (ok, m')) :
    m'.freelist = m.freelist := by
  induction n generalizing va buf m with
  | zero =>
    cases call
    rfl
  | succ n ih =>
    rw [copyoutLoop] at call
    split at call
    · cases call
      rfl
    · split at call
      · cases call
      · cases call
        rfl
      · have rest := ih call
        exact rest

theorem checkedCopyout_confined (l : Layout) : Confined l checkedCopyout := by
  intro m g free d va buf dir low short
  rcases copyoutLoop_spec dir low (Nat.le_refl buf.length) (Nat.le_of_lt short)
    with ⟨-,stops⟩ | ⟨-,ok,m',done,copies⟩
  · exact ⟨false, m, by rw [checkedCopyout, copyout, stops]; rfl, rfl, fun _ _ => rfl⟩
  · refine ⟨ok, m', by rw [checkedCopyout, copyout, done]; rfl, copyoutLoop_freelist done,
      fun x out => copies.confined x fun a at_ => out a ?_⟩
    have here := dir.user at_
    simpa only [held, dir.alive, if_true] using here

def caller (k : PhysicalPages.State 2) : Machine :=
  ⟨k.mem, ⟨(k.proc initSlot).pgdir, (k.proc initSlot).sz, 0, 4096, [105]⟩, 0, 1, false⟩

theorem small_sound : Sound small :=
  ⟨small_valid, by simp [Layout.Apart, small], by simp [small], by decide⟩

theorem exec_leaves_no_trace_first :
    ∃ k g free, RunLaws.exec (step small) smallStart firstProcess = some k ∧
    ∀ file, Atomic small g free (caller k)
      (exec small checkedCopyout [47, 97] file [[97], [98, 99]] (caller k)) := by
  have ends : (RunLaws.exec (step small) smallStart firstProcess).map
      (fun k => (k.proc initSlot).phase) = some .used := by decide +kernel
  obtain ⟨k,run,used⟩ := Option.map_eq_some_iff.mp ends
  obtain ⟨g,free,owned⟩ := owned_run small_valid small_booted run
  have alive : g.live (k.proc initSlot).pgdir = true := owned.root_live (by rw [used]; decide)
  exact ⟨k, g, free, run, fun file =>
    exec_leaves_no_trace small_sound owned.good owned.idle alive rfl (checkedCopyout_confined small)
    (by decide) [47, 97] file⟩

end Exec
