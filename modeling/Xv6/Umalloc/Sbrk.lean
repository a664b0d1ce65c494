import Xv6.Umalloc.Malloc
import Xv6.Vm.Grow

/- malloc on the kernel's sbrk. A request goes from bytes to units, from units to the bytes morecore
   asks for, and from there to the int that growproc adds to the size of the process. -/
namespace ProcessHeap
open PhysicalPages (Layout Owned Spans Grown Refused growproc pages kernbase userAt pteAt Writable)
open UserMalloc (Extent Ok Apart Block word ask unitsFor hunt take ahead morecore initial addrs)

variable {n : Nat}

structure Machine (n : Nat) where
  user : UserMalloc.State
  kernel : PhysicalPages.State n

/-- Where exec put a program: the page of malloc's code, the header base in its data and the
    size. The last page is the stack, the one below it the guard page. -/
structure Program where
  code : Nat
  base : Nat
  size : Nat
  aligned : size % 4096 = 0
  text : code + 2 < size / 4096
  data : 0 < base ∧ base + 8 ≤ size
  low : size < 2147483648

def Program.guard (prog : Program) : Nat := prog.size / 4096 - 2

def toInt (w : Nat) : Int :=
  if w % word < 2147483648 then (w % word : Nat) else (w % word : Nat) - 4294967296

/-- sys_sbrk: the old size, none for -1. -/
def sbrk (l : Layout) (p : Fin n) (by_ : Int) (k : PhysicalPages.State n) :
    Option (Option Nat × PhysicalPages.State n) :=
  (growproc l k p by_).map fun k' => (if k'.ok then some (k.proc p).sz else none, k')

def Usable (k : PhysicalPages.State n) (p : Fin n) (x : Nat) : Prop :=
  x / 4096 < kernbase ∧ Writable k.mem (k.proc p).pgdir (x / 4096)

instance (m : PhysicalPages.Mem) (d b : Nat) : Decidable (Writable m d b) :=
  inferInstanceAs (Decidable (_ = _))

instance (k : PhysicalPages.State n) (p : Fin n) (x : Nat) : Decidable (Usable k p x) :=
  inferInstanceAs (Decidable (_ ∧ _))

inductive Outcome (n : Nat) where
  | null (s : Machine n)
  | block (ap : Nat) (s : Machine n)
  -- the process is killed for touching memory it does not have
  | fault

/-- The loop of malloc. After sbrk the process goes on with its code, and morecore writes the header
    of the new region; a call that takes any page away takes the one of that header, so nothing else
    needs to be looked at. -/
def search (l : Layout) (p : Fin n) (code nunits : Nat) : Nat → Machine n → Nat → Option (Outcome n)
  | 0, _, _ => none
  | fuel + 1, s, prevp =>
    (hunt s.user nunits prevp).bind fun prevp =>
      if nunits ≤ s.user.heap.size (s.user.heap.ptr prevp) then
        let r := take s.user.heap nunits prevp
        some (.block (ahead r.1 1) { s with user := { s.user with heap := r.2 } })
      else
        (sbrk l p (toInt (ask nunits * 8)) s.kernel).bind fun r =>
          match r.1 with
          | none =>
            some (if (userAt r.2.mem (r.2.proc p).pgdir code).isSome then
              .null { s with kernel := r.2 } else .fault)
          | some q =>
            if Usable r.2 p q ∧ Usable r.2 p (q + 7) then
              (morecore s.user nunits q).bind fun u =>
                search l p code nunits fuel ⟨u, r.2⟩ u.heap.freep
            else some .fault

def ready (base : Nat) (u : UserMalloc.State) : UserMalloc.State :=
  if u.heap.freep = 0 then { u with heap := initial base u.heap } else u

def malloc (l : Layout) (p : Fin n) (prog : Program) (fuel : Nat) (s : Machine n) (nbytes : Nat) :
    Option (Outcome n) :=
  search l p prog.code (unitsFor nbytes) fuel { s with user := ready prog.base s.user }
    (ready prog.base s.user).heap.freep

/-- The null pointer, or a block with room for the request in memory of the process. -/
def Served (p : Fin n) (nbytes : Nat) : Outcome n → Prop
  | .null _ => True
  | .block ap t =>
    nbytes + 8 ≤ 8 * t.user.heap.size (ap - 8) ∧ ∀ x, ap ≤ x → x < ap + nbytes → Usable t.kernel p x
  | .fault => False

inductive Event where
  | malloc (nbytes : Nat)
  | free (ap : Nat)
  -- a store of the program at `x`, inside a block it has
  | store (x ptr size : Nat)
  -- the program asks for memory itself
  | sbrk (bytes : Nat)
  -- which of the coming calls of kalloc fail
  | fate (denied : List Bool)

def step (l : Layout) (p : Fin n) (prog : Program) (s : Machine n) : Event → Option (Machine n)
  | .malloc nbytes =>
    (malloc l p prog 2 s nbytes).bind fun out =>
      match out with
      | .null t => some t
      | .block ap t =>
        some { t with user := { t.user with live := ⟨ap - 8, t.user.heap.size (ap - 8),
          nbytes⟩ :: t.user.live } }
      | .fault => none
  | .free ap => (UserMalloc.step prog.base s.user (.free ap)).map fun u => { s with user := u }
  | .store x ptr size =>
    (UserMalloc.step prog.base s.user (.store x ptr size)).map fun u => { s with user := u }
  | .sbrk bytes =>
    (PhysicalPages.step l s.kernel (.sbrk p bytes)).map fun k => { s with kernel := k }
  | .fate denied =>
    (PhysicalPages.step l s.kernel (.fate denied)).map fun k => { s with kernel := k }

/-- The bytes of the units the request is rounded to fit an int. -/
def Moderate (nbytes : Nat) : Prop := nbytes ≤ 2147483632

def Moderately (_ : Machine n) : Event → Prop
  | .malloc nbytes => Moderate nbytes
  | _ => True

/-- There is no free block, and no memory for a new region. -/
def Exhausted (l : Layout) (p : Fin n) (prog : Program) (s : Machine n) : Prop :=
  (s.user.heap.freep = 0 ∨ s.user.heap.ptr prog.base = prog.base) ∧
    ∃ k, growproc l s.kernel p 32768 = some k ∧ k.ok = false

section Kernel

variable {l : Layout} {p : Fin n} {prog : Program} {k k' : PhysicalPages.State n} {by_ : Int}

structure Loaded (l : Layout) (p : Fin n) (prog : Program) (k : PhysicalPages.State n) : Prop where
  owned : ∃ g free, Owned l k.mem k.kpgdir k.proc g free
  used : (k.proc p).phase = .used
  spans : Spans k.mem (k.proc p).pgdir (k.proc p).sz
  code : prog.code < pages (k.proc p).sz
  guard : ¬ Writable k.mem (k.proc p).pgdir prog.guard

structure Seated (l : Layout) (p : Fin n) (prog : Program) (k : PhysicalPages.State n) :
    Prop extends Loaded l p prog k where
  room : prog.size ≤ (k.proc p).sz
  heap : ∀ b, prog.size / 4096 ≤ b → b < pages (k.proc p).sz → Writable k.mem (k.proc p).pgdir b

theorem writable_there {m : PhysicalPages.Mem} {d b : Nat} (low : b < kernbase)
    (writable : Writable m d b) :
    (userAt m d b).isSome = true := by
  have flag : PhysicalPages.present (pteAt m d b) = true := by
    rw [Writable] at writable
    rw [PhysicalPages.present, beq_iff_eq]
    omega
  rw [PhysicalPages.userAt_pte, if_pos ⟨low, flag⟩]
  rfl

theorem Program.guard_bounds (prog : Program) :
    0 < prog.guard ∧ prog.guard < kernbase ∧ prog.guard < prog.size / 4096 := by
  have text := prog.text
  have low := prog.low
  simp only [Program.guard, kernbase]
  omega

theorem Loaded.low (loaded : Loaded l p prog k) : (k.proc p).sz < 2147483648 := by
  obtain ⟨g,free,owned⟩ := loaded.owned
  exact (owned.sized p (by rw [loaded.used]; decide)).1

theorem Loaded.runs (loaded : Loaded l p prog k) :
    (userAt k.mem (k.proc p).pgdir prog.code).isSome = true :=
  (loaded.spans _).mpr loaded.code

theorem Loaded.after (valid : l.Valid) (loaded : Loaded l p prog k)
    (call : growproc l k p by_ = some k') :
    ∃ g free, Owned l k'.mem k'.kpgdir k'.proc g free := by
  obtain ⟨g,free,owned⟩ := loaded.owned
  exact PhysicalPages.growproc_owned valid owned loaded.used call

theorem Seated.grow (valid : l.Valid) (seated : Seated l p prog k) (up : 0 ≤ by_)
    (int : by_ < 2147483648) :
    ∃ k', growproc l k p by_ = some k' ∧ Seated l p prog k' ∧
      ((k'.proc p).sz : Int) = (k.proc p).sz + if k'.ok then by_ else 0 := by
  obtain ⟨g,free,owned⟩ := seated.owned
  have alive := owned.root_live (q := p) (by rw [seated.used]; decide)
  by_cases zero : by_ = 0
  · subst zero
    exact ⟨{ k with ok := true }, by simp [growproc, PhysicalPages.State.set],
      ⟨⟨⟨g, free, owned⟩, seated.used, seated.spans, seated.code, seated.guard⟩, seated.room,
        seated.heap⟩, by simp⟩
  obtain ⟨k',call,exactly,fresh⟩ :=
    PhysicalPages.growproc_grows valid owned.good alive seated.low seated.spans owned.idle
      (show 0 < by_ by omega) int
  have owned' := seated.after valid call
  have phase : (k'.proc p).phase = (k.proc p).phase := PhysicalPages.growproc_phase call p
  have room := seated.room
  have code := seated.code
  have bounds := prog.guard_bounds
  refine ⟨k', call, ?_⟩
  rcases exactly with grown | refused
  · have wider : (k.proc p).sz ≤ (k'.proc p).sz := by
      have := grown.size
      omega
    have more : pages (k.proc p).sz ≤ pages (k'.proc p).sz := Nat.div_le_div_right (by omega)
    have inside : prog.size / 4096 ≤ pages (k.proc p).sz := Nat.div_le_div_right (by omega)
    refine ⟨⟨⟨owned', phase.trans seated.used, grown.pgdir ▸ grown.spans, by omega, ?_⟩, by omega,
      fun b above below => ?_⟩, ?_⟩
    · rw [grown.pgdir, Writable, (grown.kept prog.guard (by omega) (by omega)).1]
      exact seated.guard
    · rw [grown.pgdir]
      by_cases old : b < pages (k.proc p).sz
      · rw [Writable, (grown.kept b old below).1]
        exact seated.heap b above old
      · exact fresh grown.ok b (by omega) below
    · rw [if_pos grown.ok]
      exact grown.size
  · have inside : prog.size / 4096 ≤ pages (k.proc p).sz := Nat.div_le_div_right (by omega)
    refine ⟨⟨⟨owned', phase.trans seated.used, ?_, ?_, ?_⟩, ?_, ?_⟩, ?_⟩
    all_goals rw [refused.proc]
    · intro b
      rw [refused.users]
      exact seated.spans b
    · exact code
    · rw [Writable, (refused.kept prog.guard (by omega)).1]
      exact seated.guard
    · exact room
    · intro b above below
      rw [Writable, (refused.kept b below).1]
      exact seated.heap b above below
    · simp [refused.ok]

/-- A request for nothing or less fails only when the code goes too, and takes the page at the
    old size with any other. -/
theorem Loaded.shrink (valid : l.Valid) (loaded : Loaded l p prog k) (down : by_ ≤ 0)
    (int : -2147483648 ≤ by_) :
    ∃ k', growproc l k p by_ = some k' ∧
      (k'.ok = false → userAt k'.mem (k'.proc p).pgdir prog.code = none) ∧
      (k'.ok = true → Usable k' p (k.proc p).sz → Loaded l p prog k') := by
  obtain ⟨g,free,owned⟩ := loaded.owned
  have alive := owned.root_live (q := p) (by rw [loaded.used]; decide)
  have low := loaded.low
  have code := loaded.code
  have some_ : 0 < (k.proc p).sz := by
    simp only [pages] at code
    omega
  by_cases zero : by_ = 0
  · subst zero
    refine ⟨{ k with ok := true }, by simp [growproc, PhysicalPages.State.set],
      fun eq => (by cases eq), fun _ _ =>
        ⟨⟨g, free, owned⟩, loaded.used, loaded.spans, code, loaded.guard⟩⟩
  rcases Int.lt_trichotomy ((k.proc p).sz + by_) 0 with more | all | less
  · refine ⟨_, PhysicalPages.growproc_more low int more, ?_, ?_⟩
    all_goals obtain ⟨ok,mem,proc⟩ :=
      PhysicalPages.settle_ok (s := k) (p := p) (Nat.ne_of_gt some_) k.mem
    · intro eq
      cases ok.symm.trans eq
    · have same : (PhysicalPages.settle k p (k.proc p).sz k.mem).proc p = k.proc p := proc
      refine fun _ _ => ⟨loaded.after valid (PhysicalPages.growproc_more low int more), ?_,
        ?_, ?_, ?_⟩
      all_goals rw [same]
      · exact loaded.used
      · rw [mem]
        exact loaded.spans
      · exact code
      · rw [mem]
        exact loaded.guard
  · obtain ⟨k',call,ok,proc,gone⟩ :=
      PhysicalPages.growproc_all valid owned.good alive low some_ all
    refine ⟨k', call, fun _ => ?_, fun eq => ?_⟩
    · rw [proc]
      exact gone _ code
    · cases ok.symm.trans eq
  · obtain ⟨k',call,grown⟩ :=
      PhysicalPages.growproc_shrinks valid owned.good alive low loaded.spans (by omega) less
    refine ⟨k', call, fun eq => (by cases grown.ok.symm.trans eq), fun _ usable => ?_⟩
    have size := grown.size
    have header := writable_there usable.1 usable.2
    rw [grown.pgdir, grown.spans] at header
    have same : pages (k'.proc p).sz = pages (k.proc p).sz := by
      simp only [pages] at header ⊢
      omega
    refine ⟨loaded.after valid call, (PhysicalPages.growproc_phase call p).trans loaded.used,
      grown.pgdir ▸ grown.spans,
      by omega, fun writable => ?_⟩
    have there := writable_there prog.guard_bounds.2.1 writable
    rw [grown.pgdir] at there writable
    have inside := (grown.spans _).mp there
    rw [Writable, (grown.kept _ (by omega) inside).1] at writable
    exact loaded.guard writable

end Kernel

section Heap

variable {l : Layout} {p : Fin n} {prog : Program} {k : PhysicalPages.State n}
  {u v : UserMalloc.State} {s : Machine n}
  {fs : List Extent} {nunits nbytes fuel prevp ap q : Nat}

structure Bounded (l : Layout) (p : Fin n) (prog : Program) (s : Machine n) : Prop where
  seated : Seated l p prog s.kernel
  top : prog.size ≤ s.user.top ∧ s.user.top ≤ (s.kernel.proc p).sz

structure Prepared (l : Layout) (p : Fin n) (prog : Program) (s : Machine n) (fs : List Extent) :
    Prop extends Bounded l p prog s where
  ok : Ok prog.base s.user fs
  above : ∀ f ∈ fs, prog.size ≤ f.1
  live : ∀ b ∈ s.user.live, prog.size ≤ b.addr

structure Backed (l : Layout) (p : Fin n) (prog : Program) (s : Machine n) :
    Prop extends Bounded l p prog s where
  blocks : (s.user.heap.freep = 0 ∧ s.user.live = [] ∧ s.user.units = 0) ∨
    ∃ fs, Prepared l p prog s fs

theorem Prepared.backed (prepared : Prepared l p prog s fs) : Backed l p prog s :=
  ⟨prepared.toBounded, .inr ⟨fs, prepared⟩⟩

theorem above_iff (prog : Program) {f : Extent} (some_ : 0 < f.2) :
    Apart (0, prog.size / 8) f ↔ prog.size ≤ f.1 := by
  have aligned := prog.aligned
  simp only [Apart]
  omega

theorem stretch_positive (prog : Program) : 0 < ((0, prog.size / 8) : Extent).2 := by
  have text := prog.text
  simp only
  omega

theorem Prepared.cover {gs : List Extent} (prepared : Prepared l p prog s fs)
    (ok : Ok prog.base u gs)
    (cover : (∀ f ∈ fs, Apart (0, prog.size / 8) f) → ∀ f ∈ gs, Apart (0, prog.size / 8) f) :
    ∀ f ∈ gs, prog.size ≤ f.1 := by
  intro f mem
  refine (above_iff prog (ok.list.bounds f mem).2.1).mp (cover (fun g mem => ?_) f mem)
  exact (above_iff prog (prepared.ok.list.bounds g mem).2.1).mpr (prepared.above g mem)

theorem Backed.ready (backed : Backed l p prog s) :
    ∃ fs, Prepared l p prog { s with user := ready prog.base s.user } fs ∧
      (fs = [] ↔ s.user.heap.freep = 0 ∨ s.user.heap.ptr prog.base = prog.base) := by
  have data := prog.data
  have top := backed.top
  rcases backed.blocks with ⟨null,empty,none_⟩ | ⟨fs,prepared⟩
  · have low := backed.seated.low
    rw [ProcessHeap.ready, if_pos null]
    exact ⟨[], ⟨⟨backed.seated, top⟩, UserMalloc.ok_initial empty none_ ⟨data.1, by omega,
      by simp only [word]; omega⟩, by simp, by simp [empty]⟩,
      iff_of_true rfl (.inl null)⟩
  · rw [ProcessHeap.ready, if_neg prepared.ok.started]
    refine ⟨fs, prepared, ?_⟩
    have first := PointerRing.path_entry prepared.ok.list.ring
    cases fs with
    | nil => exact iff_of_true rfl (.inr first)
    | cons f fs =>
      refine iff_of_false (by simp) (not_or.mpr ⟨prepared.ok.started, fun loop => ?_⟩)
      have bound := (prepared.ok.list.bounds f (by simp)).1
      have entry : s.user.heap.ptr prog.base = f.1 := first
      omega

theorem search_found (found : UserMalloc.search nunits [] u prevp = some (some ap, v)) :
    search l p prog.code nunits (fuel + 1) ⟨u, k⟩ prevp = some (.block ap ⟨v, k⟩) := by
  unfold UserMalloc.search at found
  obtain ⟨node,here,found⟩ := Option.bind_eq_some_iff.mp found
  rw [search, here, Option.bind_some]
  split at found
  · next fits =>
    rw [if_pos fits]
    cases found
    rfl
  · cases found

theorem search_asks (l : Layout) (p : Fin n) (prog : Program) (k : PhysicalPages.State n)
    (fuel : Nat)
    (missing : UserMalloc.search nunits [none] u prevp = some (none, u)) :
    search l p prog.code nunits (fuel + 1) ⟨u, k⟩ prevp =
      (sbrk l p (toInt (ask nunits * 8)) k).bind fun r =>
        match r.1 with
        | none => some (if (userAt r.2.mem (r.2.proc p).pgdir prog.code).isSome then .null ⟨u, r.2⟩
          else .fault)
        | some q =>
          if Usable r.2 p q ∧ Usable r.2 p (q + 7) then
            (morecore u nunits q).bind fun v =>
              search l p prog.code nunits fuel ⟨v, r.2⟩ v.heap.freep
          else some .fault := by
  unfold UserMalloc.search at missing
  obtain ⟨node,here,missing⟩ := Option.bind_eq_some_iff.mp missing
  rw [search, here, Option.bind_some]
  split at missing
  · cases missing
  · next short => rw [if_neg short]

structure Given (l : Layout) (p : Fin n) (prog : Program) (nunits q : Nat) (t : Machine n) :
    Prop where
  size : t.user.heap.size q = nunits
  bounds : prog.size ≤ q ∧ q + 8 * nunits ≤ t.user.top
  bounded : Bounded l p prog t
  backed : ∀ nbytes, nbytes + 8 ≤ 8 * nunits →
    Backed l p prog { t with user := { t.user with live := ⟨q, nunits, nbytes⟩ :: t.user.live } }

theorem Prepared.search_large (prepared : Prepared l p prog s fs) (some_ : 0 < nunits)
    (large : ∃ f ∈ fs, nunits ≤ f.2) (fuel : Nat) :
    ∃ q t, search l p prog.code nunits (fuel + 1) s s.user.heap.freep = some (.block (q + 8) t) ∧
      Given l p prog nunits q t := by
  obtain ⟨q,h,gs,found,taken⟩ := prepared.ok.search_large some_ large []
  have cover := taken.cover (0, prog.size / 8) (stretch_positive prog) fun f mem =>
    (above_iff prog (prepared.ok.list.bounds f mem).2.1).mpr (prepared.above f mem)
  have higher : prog.size ≤ q := (above_iff prog (f := (q, nunits)) some_).mp cover.1
  refine ⟨q, _, search_found found, taken.size, ⟨higher, taken.bounds.2⟩,
    ⟨prepared.seated, prepared.top⟩, fun nbytes room => ?_⟩
  have above : ∀ f ∈ gs, prog.size ≤ f.1 :=
    fun f mem => (above_iff prog (taken.list.bounds f mem).2.1).mp (cover.2 f mem)
  exact Prepared.backed ⟨⟨prepared.seated, prepared.top⟩, prepared.ok.take taken room, above,
    List.forall_mem_cons.mpr ⟨higher, prepared.live⟩⟩

theorem toInt_small {w : Nat} (small : w < 2147483648) : toInt w = w := by
  have low : w % word = w := Nat.mod_eq_of_lt (by simp only [word]; omega)
  rw [toInt, low, if_pos small]

theorem toInt_large {w : Nat} (half : 2147483648 ≤ w) (full : w ≤ 4294967296) :
    toInt w ≤ 0 ∧ -2147483648 ≤ toInt w := by
  rcases Nat.lt_or_eq_of_le full with less | rfl
  · have low : w % word = w := Nat.mod_eq_of_lt less
    rw [toInt, low, if_neg (by omega)]
    omega
  · decide

theorem Prepared.search (valid : l.Valid) (prepared : Prepared l p prog s fs) (some_ : 0 < nunits)
    (int : ask nunits * 8 < 2147483648)
    (fuel : Nat) :
    (∃ q t, search l p prog.code nunits (fuel + 2) s s.user.heap.freep = some (.block (q + 8) t) ∧
      Given l p prog nunits q t ∧
      (fs ≠ [] ∨ ∃ k, growproc l s.kernel p (ask nunits * 8 : Nat) = some k ∧ k.ok = true)) ∨
    (∀ f ∈ fs, f.2 < nunits) ∧ ∃ k, growproc l s.kernel p (ask nunits * 8 : Nat) = some k ∧
      k.ok = false ∧
      search l p prog.code nunits (fuel + 2) s s.user.heap.freep = some (.null ⟨s.user, k⟩) ∧
        Backed l p prog ⟨s.user, k⟩ := by
  by_cases large : ∃ f ∈ fs, nunits ≤ f.2
  · obtain ⟨q,t,found,given⟩ := prepared.search_large some_ large (fuel + 1)
    obtain ⟨f,mem,-⟩ := large
    exact .inl ⟨q, t, found, given, .inl (List.ne_nil_of_mem mem)⟩
  have small : ∀ f ∈ fs, f.2 < nunits := fun f mem => Nat.not_le.mp fun fits => large ⟨f, mem, fits⟩
  have more : 4096 ≤ ask nunits := by
    rw [ask]
    split <;> omega
  have top := prepared.top
  obtain ⟨k,call,seated,size⟩ :=
    prepared.seated.grow valid (show 0 ≤ ((ask nunits * 8 : Nat) : Int) by omega) (by omega)
  have asks :=
    search_asks l p prog s.kernel (fuel + 1) (prepared.ok.search_small some_ small none [])
  rw [toInt_small int, sbrk, call, Option.map_some, Option.bind_some] at asks
  cases granted : k.ok with
  | false =>
    simp only [granted, Bool.false_eq_true, if_false, seated.runs, if_true] at asks size
    refine .inr ⟨small, k, call, granted, asks,
      Prepared.backed ⟨⟨seated, ⟨top.1, ?_⟩⟩, prepared.ok, prepared.above, prepared.live⟩⟩
    simp only
    omega
  | true =>
    simp only [granted, if_true] at asks size
    have low := seated.low
    have inside : ∀ x, (s.kernel.proc p).sz ≤ x → x < (k.proc p).sz → Usable k p x := by
      intro x from_ below
      have room := prepared.seated.room
      refine ⟨by simp only [kernbase]; omega, seated.heap _ (Nat.div_le_div_right (by omega)) ?_⟩
      simp only [pages]
      omega
    rw [if_pos ⟨inside _ (Nat.le_refl _) (by omega), inside _ (by omega) (by omega)⟩] at asks
    obtain ⟨v,gs,grown,next,room,ends,same,cover⟩ :=
      prepared.ok.grow top.2 (show _ + 8 * ask nunits < word by simp only [word]; omega)
    have above : ∀ f ∈ gs, prog.size ≤ f.1 :=
      prepared.cover next (cover _ (stretch_positive prog)
        ((above_iff prog (by simp only; omega)).mpr prepared.seated.room))
    have after : Prepared l p prog ⟨v, k⟩ gs :=
      ⟨⟨seated, by simp only; omega⟩, next, above, fun b mem => prepared.live b (by rwa [← same])⟩
    obtain ⟨q,t,found,given⟩ := after.search_large some_ room fuel
    rw [grown, Option.bind_some] at asks
    exact .inl ⟨q, t, asks.trans found, given, .inr ⟨k, call, granted⟩⟩

/-- No process has the memory for a request of 2 GB or nearly that much: the guard page or the
    kernel is in the way. -/
theorem block_short {t : Machine n}
    (guard : ¬ Writable t.kernel.mem (t.kernel.proc p).pgdir prog.guard)
    (huge : 2147483633 ≤ nbytes) :
    ¬ Served p nbytes (.block ap t) := by
  rintro ⟨-,all⟩
  obtain ⟨first,low,-⟩ := prog.guard_bounds
  simp only [kernbase] at low
  by_cases below : ap ≤ 4096 * prog.guard
  · have page := (all (4096 * prog.guard) below (by omega)).2
    rw [Nat.mul_div_cancel_left _ (by decide)] at page
    exact guard page
  · have half := (all (max ap 2147483648) (by omega) (by omega)).1
    simp only [kernbase] at half
    omega

theorem search_unserved (valid : l.Valid) (loaded : Loaded l p prog k) (huge : 2147483633 ≤ nbytes)
    (down : toInt (ask nunits * 8) ≤ 0) (int : -2147483648 ≤ toInt (ask nunits * 8))
    {out : Outcome n}
    (call : search l p prog.code nunits fuel ⟨u, k⟩ prevp = some out) : ¬ Served p nbytes out := by
  induction fuel generalizing u k prevp with
  | zero => cases call
  | succ fuel ih =>
    rw [search] at call
    obtain ⟨node,-,call⟩ := Option.bind_eq_some_iff.mp call
    split at call
    · cases call
      exact block_short loaded.guard huge
    · obtain ⟨k',grown,failed,succeeded⟩ := loaded.shrink valid down int
      simp only [sbrk, grown, Option.map_some, Option.bind_some] at call
      cases granted : k'.ok with
      | false =>
        simp only [granted, Bool.false_eq_true, if_false, failed granted,
          Option.isSome_none] at call
        cases call
        exact id
      | true =>
        simp only [granted, if_true] at call
        split at call
        · next header =>
          obtain ⟨v,-,call⟩ := Option.bind_eq_some_iff.mp call
          exact ih (succeeded granted header.1) call
        · cases call
          exact id

end Heap

section Calls

variable {l : Layout} {p : Fin n} {prog : Program} {s t : Machine n} {nbytes fuel : Nat}

theorem unitsFor_moderate (moderate : Moderate nbytes) :
    unitsFor nbytes = (nbytes + 7) / 8 + 1 ∧ ask (unitsFor nbytes) * 8 < 2147483648 := by
  rw [Moderate] at moderate
  have count : unitsFor nbytes = (nbytes + 7) / 8 + 1 := by
    rw [unitsFor, Nat.mod_eq_of_lt (by simp only [word]; omega)]
    omega
  refine ⟨count, ?_⟩
  rw [ask]
  split <;> omega

theorem Given.served {q : Nat} (given : Given l p prog (unitsFor nbytes) q t)
    (moderate : Moderate nbytes) :
    Served p nbytes (.block (q + 8) t) := by
  obtain ⟨count,-⟩ := unitsFor_moderate moderate
  have bounds := given.bounds
  have top := given.bounded.top
  have low := given.bounded.seated.low
  rw [Served, Nat.add_sub_cancel, given.size, count]
  refine ⟨by omega, fun x from_ below => ⟨by simp only [kernbase]; omega, ?_⟩⟩
  refine given.bounded.seated.heap _ (Nat.div_le_div_right (by omega)) ?_
  simp only [pages]
  omega

def Leaves (l : Layout) (p : Fin n) (prog : Program) (nbytes : Nat) : Outcome n → Prop
  | .null t => Backed l p prog t
  | .block ap t =>
    Backed l p prog { t with user := { t.user with live := ⟨ap - 8, t.user.heap.size (ap - 8),
      nbytes⟩ :: t.user.live } }
  | .fault => False

theorem malloc_moderate (valid : l.Valid) (backed : Backed l p prog s) (moderate : Moderate nbytes)
    (fuel : Nat) :
    ∃ out, malloc l p prog (fuel + 2) s nbytes = some out ∧ Served p nbytes out ∧
      Leaves l p prog nbytes out := by
  obtain ⟨fs,prepared,-⟩ := backed.ready
  obtain ⟨count,int⟩ := unitsFor_moderate moderate
  rcases prepared.search valid (show 0 < unitsFor nbytes by omega) int fuel
    with ⟨q,t,found,given,-⟩ | ⟨-,k,-,-,refused,after⟩
  · refine ⟨_, found, given.served moderate, ?_⟩
    rw [Leaves, Nat.add_sub_cancel, given.size]
    exact given.backed nbytes (by omega)
  · exact ⟨_, refused, trivial, after⟩

/-- A request so large that the rounding wraps gets a block of one unit if there is any. -/
theorem malloc_wrapped (valid : l.Valid) (backed : Backed l p prog s) (wraps : 4294967289 ≤ nbytes)
    (uint : nbytes < 4294967296) :
    (∃ out, malloc l p prog (fuel + 2) s nbytes = some out ∧ Served p nbytes out) ↔
      Exhausted l p prog s := by
  obtain ⟨fs,prepared,empty⟩ := backed.ready
  have one : unitsFor nbytes = 1 := by
    simp only [unitsFor, word]
    omega
  rw [malloc, one]
  rcases prepared.search valid Nat.one_pos (by decide) fuel
    with ⟨q,t,found,given,source⟩ | ⟨small,k,call,refused,null,-⟩
  · refine iff_of_false ?_ ?_
    · rintro ⟨out,same,served⟩
      obtain rfl := Option.some.inj (found.symm.trans same)
      exact block_short given.bounded.seated.guard (by omega) served
    · rintro ⟨none_,k,call,refused⟩
      rcases source with some_ | ⟨k',call',granted⟩
      · exact some_ (empty.mpr none_)
      · obtain rfl := Option.some.inj (call.symm.trans call')
        cases refused.symm.trans granted
  · refine iff_of_true ⟨_, null, trivial⟩ ⟨empty.mp ?_, k, call, refused⟩
    refine List.eq_nil_iff_forall_not_mem.mpr fun f mem => ?_
    have few := small f mem
    have some_ := (prepared.ok.list.bounds f mem).2.1
    omega

theorem malloc_negative (valid : l.Valid) (backed : Backed l p prog s) (huge : ¬ Moderate nbytes)
    (uint : nbytes < 4294967289) :
    ¬ ∃ out, malloc l p prog fuel s nbytes = some out ∧ Served p nbytes out := by
  rintro ⟨out,call,served⟩
  rw [Moderate] at huge
  have count : unitsFor nbytes = (nbytes + 7) / 8 + 1 := by
    simp only [unitsFor, word]
    omega
  have all : ask (unitsFor nbytes) = unitsFor nbytes := if_neg (by omega)
  have sign := toInt_large (w := ask (unitsFor nbytes) * 8) (by omega) (by omega)
  exact search_unserved valid backed.seated.toLoaded (by omega) sign.1 sign.2 call served

end Calls

section Runs

variable {l : Layout} {p : Fin n} {prog : Program} {s t : Machine n} {nbytes fuel : Nat} {e : Event}

structure Launched (l : Layout) (p : Fin n) (prog : Program) (s : Machine n) : Prop where
  loaded : Loaded l p prog s.kernel
  size : (s.kernel.proc p).sz = prog.size
  user : ∃ h, s.user = UserMalloc.start h prog.size

theorem Launched.backed (launched : Launched l p prog s) : Backed l p prog s := by
  obtain ⟨h,user⟩ := launched.user
  have aligned := prog.aligned
  have size := launched.size
  refine ⟨⟨⟨launched.loaded, Nat.le_of_eq size.symm, fun b above below => ?_⟩, ?_⟩, .inl ?_⟩
  · rw [size, pages] at below
    omega
  · rw [user, size]
    exact ⟨Nat.le_refl _, Nat.le_refl _⟩
  · rw [user]
    exact ⟨rfl, rfl, rfl⟩

theorem Backed.kernel {k : PhysicalPages.State n} (backed : Backed l p prog s)
    (seated : Seated l p prog k)
    (more : (s.kernel.proc p).sz ≤ (k.proc p).sz) : Backed l p prog { s with kernel := k } := by
  have bounded : Bounded l p prog { s with kernel := k } :=
    ⟨seated, backed.top.1, Nat.le_trans backed.top.2 more⟩
  exact ⟨bounded, backed.blocks.imp id fun ⟨fs,prepared⟩ =>
    ⟨fs, bounded, prepared.ok, prepared.above, prepared.live⟩⟩

theorem Backed.change {u : UserMalloc.State} (backed : Backed l p prog s) {e : UserMalloc.Event}
    (other : ∀ nbytes answer, e ≠ .malloc nbytes answer)
    (move : UserMalloc.step prog.base s.user e = some u) :
    Backed l p prog { s with user := u } := by
  rcases backed.blocks with ⟨-,none_,-⟩ | ⟨fs,prepared⟩
  · cases e with
    | malloc nbytes answer => exact absurd rfl (other nbytes answer)
    | free ap =>
      obtain ⟨b,mem,-⟩ := UserMalloc.allowed_of_step move
      simp [none_] at mem
    | store x ptr size =>
      obtain ⟨b,mem,-⟩ := UserMalloc.allowed_of_step move
      simp [none_] at mem
  · have allowed := UserMalloc.allowed_of_step move
    cases e with
    | malloc nbytes answer => exact absurd rfl (other nbytes answer)
    | free ap =>
      obtain ⟨b,mem,rfl⟩ := allowed
      obtain ⟨v,gs,c,same,ok,within,live,top,cover⟩ := prepared.ok.free mem
      obtain rfl := Option.some.inj (same.symm.trans move)
      have apart : Apart (0, prog.size / 8) c.extent :=
        (above_iff prog (prepared.ok.positive within)).mpr (prepared.live c within)
      refine Prepared.backed ⟨⟨backed.seated, ?_⟩, ok,
        prepared.cover ok (cover _ (stretch_positive prog) apart), fun x inside => ?_⟩
      · simp only [top]
        exact backed.top
      · simp only [live] at inside
        exact prepared.live x (List.mem_of_mem_erase inside)
    | store x ptr size =>
      obtain ⟨b,mem,above,below⟩ := allowed
      rw [UserMalloc.step] at move
      split at move
      · cases move
        exact Prepared.backed ⟨⟨backed.seated, backed.top⟩,
          prepared.ok.store mem above below ptr size, prepared.above, prepared.live⟩
      · cases move

theorem step_backed (valid : l.Valid) (backed : Backed l p prog s) (moderate : Moderately s e)
    (move : step l p prog s e = some t) :
    Backed l p prog t := by
  cases e with
  | malloc nbytes =>
    obtain ⟨out,call,-,leaves⟩ := malloc_moderate valid backed moderate 0
    rw [step, call, Option.bind_some] at move
    cases out with
    | null t' =>
      cases move
      exact leaves
    | block ap t' =>
      cases move
      exact leaves
    | fault => cases move
  | free ap =>
    obtain ⟨u,moved,rfl⟩ := Option.map_eq_some_iff.mp move
    exact backed.change (by simp) moved
  | store x ptr size =>
    obtain ⟨u,moved,rfl⟩ := Option.map_eq_some_iff.mp move
    exact backed.change (by simp) moved
  | sbrk bytes =>
    obtain ⟨k,moved,rfl⟩ := Option.map_eq_some_iff.mp move
    rw [PhysicalPages.step] at moved
    split at moved
    · next int =>
      obtain ⟨k',call,seated,size⟩ := backed.seated.grow valid (Int.natCast_nonneg bytes) int.2.2
      obtain rfl := Option.some.inj (call.symm.trans moved)
      refine backed.kernel seated ?_
      split at size <;> omega
    · cases moved
  | fate denied =>
    obtain ⟨g,free,owned⟩ := backed.seated.owned
    have owned' := PhysicalPages.step_owned (e := .fate denied) valid owned rfl
    have seated := backed.seated
    cases move
    exact backed.kernel ⟨⟨owned', seated.used, seated.spans, seated.code, seated.guard⟩,
      seated.room, seated.heap⟩ (Nat.le_refl _)

end Runs

/-- malloc keeps its word for requests up to 2147483632 bytes, and where the rounding wraps but
    nothing is left to give. -/
theorem malloc_served_iff {l : Layout} {p : Fin n} {prog : Program} {s₀ s : Machine n}
    {es : List Event} {nbytes : Nat} (valid : l.Valid)
    (launched : Launched l p prog s₀) (sizes : RunLaws.Along (step l p prog) Moderately s₀ es)
    (run : RunLaws.exec (step l p prog) s₀ es = some s) (uint : nbytes < 4294967296) (fuel : Nat) :
    (∃ out, malloc l p prog (fuel + 2) s nbytes = some out ∧ Served p nbytes out) ↔
      nbytes ≤ 2147483632 ∨ 4294967289 ≤ nbytes ∧ Exhausted l p prog s := by
  have backed : Backed l p prog s := RunLaws.exec_invariant (Backed l p prog)
    (fun _ _ _ backed moderate move => step_backed valid backed moderate move) launched.backed
      sizes run
  by_cases moderate : nbytes ≤ 2147483632
  · obtain ⟨out,call,served,-⟩ := malloc_moderate valid backed moderate fuel
    exact iff_of_true ⟨out, call, served⟩ (.inl moderate)
  by_cases wraps : 4294967289 ≤ nbytes
  · rw [malloc_wrapped valid backed wraps uint]
    exact ⟨fun exhausted => .inr ⟨wraps, exhausted⟩, fun either => (either.resolve_left moderate).2⟩
  · refine iff_of_false (malloc_negative valid backed moderate (by omega)) ?_
    rintro (small | ⟨large,-⟩)
    · exact moderate small
    · exact wraps large

def tiny : Program := ⟨0, 100, 12288, by decide, by decide, by decide, by decide⟩

def boot : List (PhysicalPages.Event 2) := [.kvmalloc, .userinit,
    .exec PhysicalPages.initSlot ⟨true, [⟨true, true, 0, 4096, 4096, true⟩], true⟩]

def launch (k : PhysicalPages.State 2) : Machine 2 :=
  ⟨UserMalloc.start ⟨fun _ => 0, fun _ => 0, 0⟩ 12288, k⟩

def answer : Outcome 2 → Option (Nat × Nat)
  | .null _ => some (0, 0)
  | .block ap t => some (ap, t.user.heap.size (ap - 8))
  | .fault => none

structure Seen where
  used : Bool
  size : Nat
  there : Bool
  guard : Bool
  live : Option (List Block)
  answers : List (Option (Option (Nat × Nat)))
  deriving DecidableEq

def seen (k : PhysicalPages.State 2) : Seen where
  used := (k.proc PhysicalPages.initSlot).phase = .used
  size := (k.proc PhysicalPages.initSlot).sz
  there := (List.range 3).all fun b => (userAt k.mem (k.proc PhysicalPages.initSlot).pgdir b).isSome
  guard := pteAt k.mem (k.proc PhysicalPages.initSlot).pgdir 1 % 8 = 7
  live := (RunLaws.exec (step PhysicalPages.small PhysicalPages.initSlot tiny) (launch k)
    [.malloc 100]).map fun s => s.user.live
  answers := [4294967295, 2147483648, 4294963192].map fun nbytes =>
    (malloc PhysicalPages.small PhysicalPages.initSlot tiny 2 (launch k) nbytes).map answer

theorem boot_seen :
    (RunLaws.exec (PhysicalPages.step PhysicalPages.small) PhysicalPages.smallStart boot).map seen =
    some ⟨true, 12288, true, false, some [⟨44944, 14, 100⟩],
      [some (some (45056, 1)), some none, some none]⟩ := by decide +kernel

theorem launched_tiny {k : PhysicalPages.State 2}
    (run : RunLaws.exec (PhysicalPages.step PhysicalPages.small) PhysicalPages.smallStart boot =
      some k) :
    Launched PhysicalPages.small PhysicalPages.initSlot tiny (launch k) := by
  have view := boot_seen
  rw [run, Option.map_some, Option.some.injEq, seen, Seen.mk.injEq] at view
  obtain ⟨used,size,there,guard,-⟩ := view
  obtain ⟨g,free,owned⟩ :=
    PhysicalPages.owned_run PhysicalPages.small_valid PhysicalPages.small_booted run
  have used := of_decide_eq_true used
  refine ⟨⟨⟨g, free, owned⟩, used, owned.spans (by rw [used]; decide) (by rw [size]; exact there),
    ?_, of_decide_eq_false guard⟩, size, _, rfl⟩
  simp only [launch, size]
  decide

theorem malloc_served_iff_twice : ∃ k s,
    RunLaws.exec (PhysicalPages.step PhysicalPages.small) PhysicalPages.smallStart boot = some k ∧
    RunLaws.exec (step PhysicalPages.small PhysicalPages.initSlot tiny) (launch k) [.malloc 100] =
      some s ∧
    ((∃ out, malloc PhysicalPages.small PhysicalPages.initSlot tiny 2 s 5000 = some out ∧
      Served PhysicalPages.initSlot 5000 out) ↔
      5000 ≤ 2147483632 ∨ 4294967289 ≤ 5000 ∧
        Exhausted PhysicalPages.small PhysicalPages.initSlot tiny s) := by
  obtain ⟨k,run,view⟩ := Option.map_eq_some_iff.mp boot_seen
  rw [seen, Seen.mk.injEq] at view
  obtain ⟨-,-,-,-,live,-⟩ := view
  obtain ⟨s,moved,-⟩ := Option.map_eq_some_iff.mp live
  refine ⟨k, s, run, moved, malloc_served_iff PhysicalPages.small_valid (launched_tiny run) ?_ moved
    (by decide) 0⟩
  exact ⟨show 100 ≤ 2147483632 by decide, by split <;> trivial⟩

/-- The largest request gets a block without a byte to use, one of 2 GB kills the process, and
    one for which sbrk(-4096) is called takes the stack away. -/
theorem huge_requests_succeed :
    (RunLaws.exec (PhysicalPages.step PhysicalPages.small) PhysicalPages.smallStart boot).map
      (fun k =>
        [4294967295, 2147483648, 4294963192].map fun nbytes =>
          (malloc PhysicalPages.small PhysicalPages.initSlot tiny 2 (launch k) nbytes).map answer) =
        some [some (some (45056, 1)), some none, some none] := by
  obtain ⟨k,run,view⟩ := Option.map_eq_some_iff.mp boot_seen
  rw [seen, Seen.mk.injEq] at view
  obtain ⟨-,-,-,-,-,answers⟩ := view
  rw [run, Option.map_some, answers]

end ProcessHeap
