import Xv6.Vm.System

/- sbrk: growproc gives a process exactly the memory it asks for or leaves it as it was, except
   where a size of zero stands for a failure and where the new size wraps around. -/
namespace PhysicalPages

variable {n : Nat} {l : Layout} {s s' : State n} {g : Hold} {free : List Nat} {p : Fin n}
  {by_ : Int}

/-- The user pages are mapped exactly below PGROUNDUP(sz). -/
def Spans (m : Mem) (d sz : Nat) : Prop := ∀ b, (userAt m d b).isSome = true ↔ b < pages sz

def PageKept (m m' : Mem) (d b : Nat) : Prop :=
  pteAt m' d b = pteAt m d b ∧ ∀ x, userAt m d b = some x → m'.word x = m.word x

structure Grown (s s' : State n) (p : Fin n) (by_ : Int) : Prop where
  ok : s'.ok = true
  size : ((s'.proc p).sz : Int) = (s.proc p).sz + by_
  low : (s'.proc p).sz < 2147483648
  pgdir : (s'.proc p).pgdir = (s.proc p).pgdir
  spans : Spans s'.mem (s.proc p).pgdir (s'.proc p).sz
  kept : ∀ b, b < pages (s.proc p).sz → b < pages (s'.proc p).sz →
    PageKept s.mem s'.mem (s.proc p).pgdir b
  new : ∀ b, pages (s.proc p).sz ≤ b → b < pages (s'.proc p).sz → Blank s'.mem (s.proc p).pgdir b

structure Refused (s s' : State n) (p : Fin n) : Prop where
  ok : s'.ok = false
  proc : s'.proc p = s.proc p
  users : ∀ b, userAt s'.mem (s.proc p).pgdir b = userAt s.mem (s.proc p).pgdir b
  kept : ∀ b, b < pages (s.proc p).sz → PageKept s.mem s'.mem (s.proc p).pgdir b

def Exactly (s s' : State n) (p : Fin n) (by_ : Int) : Prop := Grown s s' p by_ ∨ Refused s s' p

section Directions

variable {m' : Mem} {r : Nat}

theorem Keeps.page {m m' : Mem} {d b : Nat} {R : Set Nat} (keeps : Keeps g d R m m')
    (alive : g.live d = true) (out : b ∉ R) :
    PageKept m m' d b :=
  ⟨keeps.entries b out, fun _ here => keeps.content alive out here⟩

theorem Spans.above {m : Mem} {d sz : Nat} (spans : Spans m d sz) :
    ∀ b, pages sz ≤ b → userAt m d b = none := by
  intro b out
  cases found : userAt m d b with
  | none => rfl
  | some x =>
    have inside := (spans b).mp (by rw [found]; rfl)
    omega

def settle (s : State n) (p : Fin n) (r : Nat) (m : Mem) : State n :=
  if r = 0 then { s with mem := m, ok := false }
  else { ({ s with mem := m } : State n).set p { s.proc p with sz := r } with ok := true }

theorem settle_ok (some_ : r ≠ 0) (m : Mem) :
    (settle s p r m).ok = true ∧ (settle s p r m).mem = m ∧
    (settle s p r m).proc p = { s.proc p with sz := r } := by
  have shape : settle s p r m = { ({ s with mem := m } : State n).set p { s.proc p with sz := r }
      with ok := true } := if_neg some_
  rw [shape]
  exact ⟨rfl, rfl, Function.update_self ..⟩

theorem growproc_phase (call : growproc l s p by_ = some s') (q : Fin n) :
    (s'.proc q).phase = (s.proc q).phase := by
  obtain ⟨r,-,rfl⟩ := Option.map_eq_some_iff.mp call
  split
  · rfl
  · by_cases mine : q = p
    · subst mine
      simp [State.set]
    · simp [State.set, mine]

theorem growproc_up (up : 0 < by_) :
    growproc l s p by_ = (allocuvm l (s.proc p).pgdir (s.proc p).sz
      ((((s.proc p).sz : Int) + by_) % 4294967296).toNat s.mem).map fun r =>
        settle s p r.1 r.2 := by
  have some_ : by_ ≠ 0 := by omega
  simp only [growproc, settle, gt_iff_lt, up, if_true, some_, ne_eq, not_false_eq_true, true_and]

theorem growproc_down (down : by_ < 0) :
    growproc l s p by_ = (deallocuvm l (s.proc p).pgdir (s.proc p).sz
      ((((s.proc p).sz : Int) + by_) % 4294967296).toNat s.mem).map fun r =>
        settle s p r.1 r.2 := by
  have some_ : by_ ≠ 0 := by omega
  have not : ¬ 0 < by_ := by omega
  simp only [growproc, settle, gt_iff_lt, not, if_false, down, if_true, some_, ne_eq,
    not_false_eq_true, true_and]

theorem grown_of_settle {R : Set Nat} (alive : g.live (s.proc p).pgdir = true) (some_ : r ≠ 0)
    (size : (r : Int) = (s.proc p).sz + by_)
    (low : r < 2147483648) (keeps : Keeps g (s.proc p).pgdir R s.mem m')
    (spans : Spans m' (s.proc p).pgdir r)
    (out : ∀ b, b < pages (s.proc p).sz → b < pages r → b ∉ R)
    (new : ∀ b, pages (s.proc p).sz ≤ b → b < pages r → Blank m' (s.proc p).pgdir b) :
    Grown s (settle s p r m') p by_ := by
  obtain ⟨ok,mem,proc⟩ := settle_ok (s := s) (p := p) some_ m'
  refine ⟨ok, by rw [proc]; exact size, by rw [proc]; exact low, by rw [proc], ?_, ?_, ?_⟩
  · rw [mem, proc]
    exact spans
  · rw [mem, proc]
    exact fun b first second => keeps.page alive (out b first second)
  · rw [mem, proc]
    exact new

theorem refused_of_settle {R : Set Nat} (alive : g.live (s.proc p).pgdir = true)
    (keeps : Keeps g (s.proc p).pgdir R s.mem m') (out : ∀ b, b < pages (s.proc p).sz → b ∉ R)
    (users : ∀ b, userAt m' (s.proc p).pgdir b = userAt s.mem (s.proc p).pgdir b) :
    Refused s (settle s p 0 m') p :=
  ⟨rfl, rfl, users, fun b inside => keeps.page alive (out b inside)⟩

theorem growproc_zero (low : (s.proc p).sz < 2147483648)
    (spans : Spans s.mem (s.proc p).pgdir (s.proc p).sz) :
    ∃ s', growproc l s p 0 = some s' ∧ Exactly s s' p 0 := by
  refine ⟨{ s with ok := true }, ?_,
    .inl ⟨rfl, (Int.add_zero _).symm, low, rfl, spans, fun b _ _ => ⟨rfl, fun _ _ => rfl⟩,
    fun b out inside => absurd inside (Nat.not_lt.mpr out)⟩⟩
  simp [growproc, State.set]

theorem growproc_empty (alive : g.live (s.proc p).pgdir = true) (down : by_ < 0)
    (none_ : (s.proc p).sz = 0) :
    ∃ s', growproc l s p by_ = some s' ∧ Exactly s s' p by_ := by
  rw [growproc_down down, none_]
  exact ⟨settle s p 0 s.mem, rfl,
    .inr (refused_of_settle alive (.refl g _ ∅ _) (fun b _ => id) fun _ => rfl)⟩

end Directions

section Sbrk

variable (valid : l.Valid) (good : Good l s.mem g free) (alive : g.live (s.proc p).pgdir = true)
  (low : (s.proc p).sz < 2147483648) (spans : Spans s.mem (s.proc p).pgdir (s.proc p).sz)
include valid good alive low spans

theorem growproc_grows (idle : Idle g) (up : 0 < by_) (int : by_ < 2147483648) :
    ∃ s', growproc l s p by_ = some s' ∧ Exactly s s' p by_ ∧ (s'.ok = true →
      ∀ b, pages (s.proc p).sz ≤ b → b < pages (s'.proc p).sz →
        Writable s'.mem (s.proc p).pgdir b) := by
  rw [growproc_up up]
  have target : (((((s.proc p).sz : Int) + by_) % 4294967296).toNat : Int) = (s.proc p).sz + by_ :=
    by omega
  generalize ((((s.proc p).sz : Int) + by_) % 4294967296).toNat = newsz at target
  obtain ⟨r,m',free',done,-,keeps,failed,grown,size⟩ :=
    allocuvm_total (s.proc p).sz newsz good valid.first alive (idle.spare 0)
    (idle.spare 1) spans.above
  refine ⟨settle s p r m', by rw [done]; rfl, ?_⟩
  by_cases zero : r = 0
  · subst zero
    refine ⟨.inr (refused_of_settle alive keeps
      (fun b inside mem => absurd mem.1 (Nat.not_le.mpr inside)) (failed rfl)), fun ok => ?_⟩
    cases ok
  · obtain ⟨rfl,under⟩ : r = newsz ∧ newsz < 2147483648 := by omega
    obtain ⟨above,fresh⟩ := grown zero
    obtain ⟨-,mem,proc⟩ := settle_ok (s := s) (p := p) zero m'
    -- below the old size the pages were there, up to the new one they are new
    have spans' : Spans m' (s.proc p).pgdir r := by
      intro b
      constructor
      · intro there
        by_contra out
        rw [above b (by omega)] at there
        cases there
      · intro inside
        by_cases old : b < pages (s.proc p).sz
        · rw [keeps.users fun mem => absurd mem.1 (Nat.not_le.mpr old)]
          exact (spans b).mpr old
        · obtain ⟨⟨x,there,-⟩,-⟩ := fresh b (by omega) inside
          rw [there]
          rfl
    refine ⟨.inl (grown_of_settle alive zero target under keeps spans' (fun b inside _ mem =>
      absurd mem.1 (Nat.not_le.mpr inside))
      fun b from_ below => (fresh b from_ below).1), fun _ b => ?_⟩
    rw [mem, proc]
    exact fun from_ below => (fresh b from_ below).2

theorem growproc_shrinks (down : by_ < 0) (some_ : 0 < ((s.proc p).sz : Int) + by_) :
    ∃ s', growproc l s p by_ = some s' ∧ Grown s s' p by_ := by
  rw [growproc_down down]
  have target : (((((s.proc p).sz : Int) + by_) % 4294967296).toNat : Int) = (s.proc p).sz + by_ :=
    by omega
  generalize ((((s.proc p).sz : Int) + by_) % 4294967296).toNat = newsz at target
  obtain ⟨m',free',done,-,keeps,users⟩ :=
    deallocuvm_good (s.proc p).sz newsz good valid.first alive (Nat.le_of_lt low)
  rw [if_neg (by omega)] at done
  refine ⟨settle s p newsz m', by rw [done]; rfl,
    grown_of_settle alive (by omega) target (by omega) keeps (fun b => ?_)
    (fun b _ inside mem => absurd mem.1 (Nat.not_le.mpr inside)) fun b out inside => ?_⟩
  · have order : pages newsz ≤ pages (s.proc p).sz := by
      simp only [pages]
      omega
    rw [users b]
    split
    · next gone => exact iff_of_false (by simp) (by omega)
    · next stays =>
      rw [spans b]
      omega
  · have order : pages newsz ≤ pages (s.proc p).sz := by
      simp only [pages]
      omega
    omega

omit spans in
theorem growproc_all (some_ : 0 < (s.proc p).sz) (all : ((s.proc p).sz : Int) + by_ = 0) :
    ∃ s', growproc l s p by_ = some s' ∧ s'.ok = false ∧ s'.proc p = s.proc p ∧
      ∀ b, b < pages (s.proc p).sz → userAt s'.mem (s.proc p).pgdir b = none := by
  obtain ⟨m',free',done,-,-,users⟩ :=
    deallocuvm_good (s.proc p).sz 0 good valid.first alive (Nat.le_of_lt low)
  rw [growproc_down (by omega), all, Int.zero_emod, Int.toNat_zero, done, if_neg (by omega)]
  refine ⟨_, rfl, rfl, rfl, fun b inside => ?_⟩
  have gone := users b
  rw [if_pos ⟨Nat.zero_le b, inside⟩] at gone
  exact gone

omit valid good alive spans in
theorem growproc_more (int : -2147483648 ≤ by_) (more : ((s.proc p).sz : Int) + by_ < 0) :
    growproc l s p by_ = some (settle s p (s.proc p).sz s.mem) := by
  rw [growproc_down (by omega), deallocuvm, if_pos (by omega)]
  rfl

theorem growproc_wrong (down : by_ < 0) (int : -2147483648 ≤ by_) (some_ : 0 < (s.proc p).sz)
    (none_ : ((s.proc p).sz : Int) + by_ ≤ 0)
    (call : growproc l s p by_ = some s') : ¬ Exactly s s' p by_ := by
  by_cases empty : ((s.proc p).sz : Int) + by_ = 0
  · obtain ⟨_,done,ok,-,gone⟩ := growproc_all valid good alive low some_ empty
    obtain rfl := Option.some.inj (done.symm.trans call)
    rintro (grown | refused)
    · cases grown.ok.symm.trans ok
    · -- the first page is gone
      have first : 0 < pages (s.proc p).sz := by
        simp only [pages]
        omega
      have there := (spans 0).mpr first
      rw [← refused.users 0, gone 0 first] at there
      cases there
  · obtain rfl := Option.some.inj ((growproc_more low int (by omega)).symm.trans call)
    obtain ⟨ok,-,proc⟩ := settle_ok (s := s) (p := p) (Nat.ne_of_gt some_) s.mem
    rintro (grown | refused)
    · have size := grown.size
      rw [proc] at size
      change ((s.proc p).sz : Int) = _ at size
      omega
    · cases ok.symm.trans refused.ok

end Sbrk

/-- growproc is exact and atomic unless a process with memory shrinks to nothing or by more than
    it has. -/
theorem growproc_exact_iff (valid : l.Valid) (good : Good l s.mem g free) (idle : Idle g)
    (alive : g.live (s.proc p).pgdir = true)
    (low : (s.proc p).sz < 2147483648) (spans : Spans s.mem (s.proc p).pgdir (s.proc p).sz)
    (int : -2147483648 ≤ by_ ∧ by_ < 2147483648) :
    (∃ s', growproc l s p by_ = some s' ∧ Exactly s s' p by_) ↔
      0 ≤ by_ ∨ (s.proc p).sz = 0 ∨ 0 < ((s.proc p).sz : Int) + by_ := by
  by_cases fine : 0 ≤ by_ ∨ (s.proc p).sz = 0 ∨ 0 < ((s.proc p).sz : Int) + by_
  · refine iff_of_true ?_ fine
    rcases Int.lt_trichotomy by_ 0 with down | rfl | up
    · by_cases none_ : (s.proc p).sz = 0
      · exact growproc_empty alive down none_
      · obtain ⟨s',call,grown⟩ := growproc_shrinks valid good alive low spans down (by omega)
        exact ⟨s', call, .inl grown⟩
    · exact growproc_zero low spans
    · obtain ⟨s',call,exactly,-⟩ := growproc_grows valid good alive low spans idle up int.2
      exact ⟨s', call, exactly⟩
  · refine iff_of_false ?_ fine
    rintro ⟨s',call,exactly⟩
    exact growproc_wrong valid good alive low spans (by omega) int.1 (by omega)
      (by omega) call exactly

theorem Owned.spans (owned : Owned l s.mem s.kpgdir s.proc g free)
    (used : (s.proc p).phase ≠ .unused)
    (there : (List.range (pages (s.proc p).sz)).all
      (fun b => (userAt s.mem (s.proc p).pgdir b).isSome) = true) :
    Spans s.mem (s.proc p).pgdir (s.proc p).sz := by
  intro b
  by_cases inside : b < pages (s.proc p).sz
  · exact iff_of_true (List.all_eq_true.mp there b (List.mem_range.mpr inside)) inside
  · exact iff_of_false (by rw [(owned.sized p used).2 b (by omega)]; simp) inside

def initSlot : Fin 2 := ⟨0, Nat.two_pos⟩

def firstProcess : List (Event 2) := [.kvmalloc, .userinit]

theorem growproc_exact_iff_first : ∃ s, RunLaws.exec (step small) smallStart firstProcess = some s ∧
    (s.proc initSlot).sz = 4096 ∧ ∃ s', growproc small s initSlot 8192 = some s' ∧
      Exactly s s' initSlot 8192 := by
  have ends : (RunLaws.exec (step small) smallStart firstProcess).map
    (fun s => ((s.proc initSlot).phase, (s.proc initSlot).sz,
      (List.range (pages (s.proc initSlot).sz)).all fun b =>
        (userAt s.mem (s.proc initSlot).pgdir b).isSome)) =
        some (.used, 4096, true) := by decide +kernel
  obtain ⟨s,run,seen⟩ := Option.map_eq_some_iff.mp ends
  simp only [Prod.mk.injEq] at seen
  obtain ⟨used,size,there⟩ := seen
  obtain ⟨g,free,owned⟩ := owned_run small_valid small_booted run
  have using_ : (s.proc initSlot).phase ≠ .unused := by rw [used]; decide
  refine ⟨s, run, size, (growproc_exact_iff small_valid owned.good owned.idle
    (owned.root_live using_) ?_ (owned.spans using_ there)
    ?_).mpr (.inl (by decide))⟩
  · rw [size]
    decide
  · decide

def glance (s : State 2) : Bool × Nat × Bool :=
  (s.ok, (s.proc initSlot).sz, (userAt s.mem (s.proc initSlot).pgdir 0).isSome)

/-- Giving back everything fails but takes the page away; giving back more succeeds and does
    nothing. -/
theorem sbrk_to_nothing :
    (RunLaws.exec (step small) smallStart firstProcess).map glance = some (true, 4096, true) ∧
    (RunLaws.exec (step small) smallStart (firstProcess ++ [.sbrk initSlot (-4096)])).map glance =
      some (false, 4096, false) ∧
    (RunLaws.exec (step small) smallStart (firstProcess ++ [.sbrk initSlot (-8192)])).map glance =
      some (true, 4096, true) := by
  decide +kernel

end PhysicalPages
