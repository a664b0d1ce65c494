import Xv6.Lib.WaitOrder
import Xv6.Semaphore.Holders

/- phillsofs.c over the semaphore calls: `n` philosophers around a table of `n` forks, each
   fork a semaphore of value 1. The philosopher of index `k` has id `k + 1`, and runs in
   slot `k` of the process table. `rounds` stands for EATROUND. -/
namespace DiningPhilosophers
open RunLaws WaitOrder KernelSemaphore SemaphoreSystem SemaphoreAccounts SemaphoreQueue
  SemaphoreHolders

/-- The next statement of the loop body: the two acquires, `sleep(30 * id)`, the first
    `printf`, `sleep(300)`, the two releases and the last `printf`. -/
inductive Pc where
  | acquireFirst | acquireSecond | think | announce | eat | releaseLeft | releaseRight | leave
  deriving DecidableEq, Repr

structure Philosopher where
  round : Nat
  pc : Pc
  deriving DecidableEq, Repr

def Philosopher.next (x : Philosopher) : Philosopher :=
  match x.pc with
  | .acquireFirst => { x with pc := .acquireSecond }
  | .acquireSecond => { x with pc := .think }
  | .think => { x with pc := .announce }
  | .announce => { x with pc := .eat }
  | .eat => { x with pc := .releaseLeft }
  | .releaseLeft => { x with pc := .releaseRight }
  | .releaseRight => { x with pc := .leave }
  | .leave => { round := x.round + 1, pc := .acquireFirst }

variable {n nproc : Nat}

/-- The arguments `start_game` passes: `philosopher(i + 1, i, (i + 1) % SEMCOUNT)`. -/
def left (k : Fin n) : Fin n := k

def right (k : Fin n) : Fin n := ⟨(k.val + 1) % n,Nat.mod_lt _ (Nat.zero_lt_of_lt k.isLt)⟩

def EvenId (k : Fin n) : Prop := (k.val + 1) % 2 = 0

instance (k : Fin n) : Decidable (EvenId k) := inferInstanceAs (Decidable (_ = _))

def firstFork (k : Fin n) : Fin n := if EvenId k then left k else right k

def secondFork (k : Fin n) : Fin n := if EvenId k then right k else left k

def seat (fits : n ≤ nproc) (k : Fin n) : Fin nproc := Fin.castLE fits k

def request (fits : n ≤ nproc) (k : Fin n) : Pc → Option (Event nproc n)
  | .acquireFirst => some (.semAcquire (seat fits k) (firstFork k))
  | .acquireSecond => some (.semAcquire (seat fits k) (secondFork k))
  | .releaseLeft => some (.semRelease (seat fits k) (left k))
  | .releaseRight => some (.semRelease (seat fits k) (right k))
  | _ => none

structure Table (nproc n : Nat) where
  sys : Sys nproc n
  phil : Fin n → Philosopher

def Unfinished (rounds : Nat) (t : Table nproc n) (k : Fin n) : Prop := (t.phil k).round < rounds

/-- Odd forks come first, then fork 0, then the other even forks. -/
def forkRank (i : Fin n) : Nat := if i.val % 2 = 1 then 0 else if i.val = 0 then 1 else 2

theorem forkRank_le (i : Fin n) : forkRank i ≤ 2 := by
  unfold forkRank
  split
  · omega
  · split <;> omega

theorem right_val (k : Fin n) : (right k).val = if k.val + 1 = n then 0 else k.val + 1 := by
  have bound := k.isLt
  simp only [right]
  split
  · rename_i last
    rw [last, Nat.mod_self]
  · exact Nat.mod_eq_of_lt (by omega)

/-- The wrap-around philosopher included: for odd `n` the last one takes fork 0 first and
    its even left fork second. -/
theorem forks_taken_in_order (two : 2 ≤ n) (k : Fin n) :
    forkRank (firstFork k) < forkRank (secondFork k) := by
  have bound := k.isLt
  have across := right_val k
  by_cases even : EvenId k
  · simp only [firstFork, secondFork, even, ↓reduceIte, forkRank, left, across]
    unfold EvenId at even
    by_cases last : k.val + 1 = n
    · simp only [last, ↓reduceIte]
      rw [if_pos (by omega)]
      decide
    · simp only [last, ↓reduceIte]
      rw [if_pos (by omega), if_neg (by omega), if_neg (by omega)]
      decide
  · simp only [firstFork, secondFork, even, ↓reduceIte, forkRank, left, across]
    unfold EvenId at even
    by_cases last : k.val + 1 = n
    · simp only [last, ↓reduceIte]
      rw [if_neg (by omega), if_neg (by omega), if_neg (by omega)]
      decide
    · simp only [last, ↓reduceIte]
      rw [if_pos (by omega), if_neg (by omega)]
      split <;> decide

def owns (k i : Fin n) : Pc → Nat
  | .acquireFirst | .leave => 0
  | .acquireSecond => if i = firstFork k then 1 else 0
  | .releaseRight => if i = right k then 1 else 0
  | _ => (if i = left k then 1 else 0) + if i = right k then 1 else 0

def wanted (k : Fin n) : Pc → Option (Fin n)
  | .acquireFirst => some (firstFork k)
  | .acquireSecond => some (secondFork k)
  | _ => none

variable {k i : Fin n} {x : Philosopher}

theorem owns_after_acquire (asks : wanted k x.pc = some i)
    (j : Fin n) : owns k j x.next.pc = owns k j x.pc + if j = i then 1 else 0 := by
  obtain ⟨round,pc⟩ := x
  cases pc <;> simp only [wanted, Option.some.injEq, reduceCtorEq] at asks
  · subst i
    simp [Philosopher.next, owns]
  · subst i
    by_cases even : EvenId k <;> simp [Philosopher.next, owns, firstFork, secondFork, even]
    exact Nat.add_comm _ _

theorem owns_after_silence (fits : n ≤ nproc)
    (silent : request fits k x.pc = none) (j : Fin n) : owns k j x.next.pc = owns k j x.pc := by
  obtain ⟨round,pc⟩ := x
  cases pc <;> simp_all [request, Philosopher.next, owns]

theorem seat_injective (fits : n ≤ nproc) {k' : Fin n} (same : seat fits k = seat fits k') :
    k = k' := by
  have := congrArg Fin.val same
  exact Fin.ext this

theorem owns_released (fits : n ≤ nproc)
    (asks : request fits k x.pc = some (.semRelease (seat fits k) i)) :
    0 < owns k i x.pc ∧
      ∀ j, owns k j x.next.pc = if j = i then owns k j x.pc - 1 else owns k j x.pc := by
  obtain ⟨round,pc⟩ := x
  cases pc <;> simp only [request, Option.some.injEq, Event.semRelease.injEq, reduceCtorEq,
    true_and] at asks
  · subst i
    refine ⟨by simp [owns], ?_⟩
    intro j
    by_cases same : j = left k <;> simp [Philosopher.next, owns, same]
  · subst i
    refine ⟨by simp [owns], ?_⟩
    intro j
    by_cases same : j = right k <;> simp [Philosopher.next, owns, same]

theorem request_cases {fits : n ≤ nproc} {pc : Pc} {e : Event nproc n}
    (asks : request fits k pc = some e) :
    (∃ i, e = .semAcquire (seat fits k) i ∧ wanted k pc = some i) ∨
      (∃ i, e = .semRelease (seat fits k) i) := by
  cases pc <;> cases asks
  · exact Or.inl ⟨_,rfl,rfl⟩
  · exact Or.inl ⟨_,rfl,rfl⟩
  · exact Or.inr ⟨_,rfl⟩
  · exact Or.inr ⟨_,rfl⟩

def Lively (s : Sys nproc n) : Prop := ∀ p, (s.kernel.ptable p).killed = false ∧
  ((s.kernel.ptable p).state = .sleeping ∨ (s.kernel.ptable p).state = .runnable)

variable {s : Sys nproc n}

theorem lively_update {t : Sys nproc n} (h : Lively s) (p : Fin nproc)
    (others : ∀ r, r ≠ p → t.kernel.ptable r = s.kernel.ptable r)
    (killed : (t.kernel.ptable p).killed = (s.kernel.ptable p).killed)
    (state : (t.kernel.ptable p).state = .sleeping ∨ (t.kernel.ptable p).state = .runnable) :
    Lively t := by
  intro r
  by_cases same : r = p
  · subst r
    exact ⟨killed.trans (h p).1,state⟩
  · rw [others r same]
    exact h r

theorem lively_wakeup {t : Sys nproc n} (h : Lively s) (chan : Option (Fin nproc))
    (woken : t.kernel.ptable = wakeup1 chan s.kernel.ptable) : Lively t := by
  intro r
  rw [woken]
  unfold wakeup1
  split
  · exact ⟨(h r).1,Or.inr rfl⟩
  · exact h r

variable [NeZero nproc]

/-- Philosopher `k` takes its next step. A `sem_acquire` that put it to sleep is finished
    by the step that resumes it. -/
def act (fits : n ≤ nproc) (rounds : Nat) (t : Table nproc n) (k : Fin n) :
    Option (Table nproc n) :=
  let advanced := Function.update t.phil k (t.phil k).next
  match t.sys.kernel.place (seat fits k) with
  | .acquiring _ => (step t.sys (.resume (seat fits k))).map fun s => ⟨s,advanced⟩
  | .user =>
    if (t.phil k).round < rounds then
      match request fits k (t.phil k).pc with
      | none => some ⟨t.sys,advanced⟩
      | some e => (step t.sys e).map fun s =>
        if s.kernel.place (seat fits k) = .user then ⟨s,advanced⟩ else ⟨s,t.phil⟩
    else none

def initGame : Table nproc n := ⟨start fun _ => 1,fun _ => ⟨0,.acquireFirst⟩⟩

/-! What a call does to the process that makes it. -/

def OnlyMoves (p : Fin nproc) (s t : Sys nproc n) : Prop := ∀ r, r ≠ p →
  t.kernel.place r = s.kernel.place r ∧ t.books.held r = s.books.held r

variable {p : Fin nproc}

theorem acquire_moves {t : Sys nproc n} (h : Lively s)
    (move : step s (.semAcquire p i) = some t) :
    Lively t ∧ OnlyMoves p s t ∧
      ((t.kernel.place p = .user ∧
          t.books.held p = Function.update (s.books.held p) i (s.books.held p i + 1)) ∨
        (t.kernel.place p = .acquiring i ∧ t.books.held p = s.books.held p)) := by
  obtain ⟨_,⟨free⟩,rfl⟩ := step_moves move
  by_cases slow : (s.kernel.semtable i).value ≤ 0
  · refine ⟨?_, ?_, Or.inr ?_⟩
    · apply lively_update h p
      · intro r other; simp [semAcquire, slow, other]
      · simp [semAcquire, slow, sleep]
      · simp [semAcquire, slow, sleep]
    · intro r other
      simp [semAcquire, record, slow, other, Books.post]
    · simp [semAcquire, record, slow, Books.post]
  · refine ⟨?_, ?_, Or.inl ?_⟩
    · simpa [Lively, semAcquire, slow] using h
    · intro r other
      simp [semAcquire, record, slow, other, Books.addHeld, Books.post]
    · simp [semAcquire, record, slow, Books.addHeld, Books.post, free.2.1]

theorem resume_moves {t : Sys nproc n} (h : Lively s)
    (lodged : s.kernel.place p = .acquiring i) (move : step s (.resume p) = some t) :
    Lively t ∧ OnlyMoves p s t ∧ t.kernel.place p = .user ∧
      t.books.held p = Function.update (s.books.held p) i (s.books.held p i + 1) := by
  obtain ⟨_,moves,rfl⟩ := step_moves move
  cases moves with | resume place woken _ =>
  obtain rfl := Place.acquiring.inj (place.symm.trans lodged)
  have spared := (h p).1
  refine ⟨?_, ?_, ?_, ?_⟩
  · apply lively_update h p
    · intro r other; simp [resume_spared spared, other]
    · simp [resume_spared spared]
    · simp [resume_spared spared, woken]
  · intro r other
    simp [resume_spared spared, record, lodged, spared, other, Books.addHeld, Books.post]
  · simp [resume_spared spared]
  · simp [record, lodged, spared, Books.addHeld, Books.post]

theorem release_moves {t : Sys nproc n} (h : Lively s)
    (move : step s (.semRelease p i) = some t) :
    Lively t ∧ OnlyMoves p s t ∧ t.kernel.place p = s.kernel.place p ∧
      t.books.held p = Function.update (s.books.held p) i (s.books.held p i - 1) := by
  obtain ⟨_,⟨free,_⟩,rfl⟩ := step_moves move
  refine ⟨?_, ?_, ?_, ?_⟩
  · by_cases wakes : (s.kernel.semtable i).increment.Wakes
    · apply lively_wakeup h (s.kernel.semtable i).increment.front
      simp [semRelease, wakes]
    · rw [release_silent wakes]
      exact h
  · intro r other
    refine ⟨by rw [semRelease_place], ?_⟩
    simp only [record]
    split <;> simp [Books.dropHeld, Books.post, other]
  · rw [semRelease_place]
  · simp only [record]
    split <;> simp [Books.dropHeld, Books.post]

/-! The invariant of the table. -/

structure Sound (s : Sys nproc n) : Prop where
  orderly : Orderly s
  balance : ∀ i, Balance (fun _ => 1) s.kernel s.books i
  clean : Clean s
  lively : Lively s

theorem sound_step {t : Sys nproc n} {e : Event nproc n} (h : Sound s)
    (move : step s e = some t) (call : SemCall e) (matched : Matched s e) (lively : Lively t) :
    Sound t where
  orderly := orderly_step h.orderly (spares_of_call call) move
  balance := balance_step h.balance move
  clean := clean_step h.orderly h.clean matched (returns_of_call call) move
  lively := lively

/-- Each philosopher holds what its statement says, sleeps only for the fork it asks for,
    and is past the start of a round only while it has rounds to play. Slots without a
    philosopher take no part. -/
structure Laid (fits : n ≤ nproc) (rounds : Nat) (t : Table nproc n) : Prop where
  sound : Sound t.sys
  holding : ∀ k i, t.sys.books.held (seat fits k) i = owns k i (t.phil k).pc
  waiting : ∀ k i, t.sys.kernel.place (seat fits k) = .acquiring i →
    wanted k (t.phil k).pc = some i
  playing : ∀ k, (t.phil k).pc ≠ .acquireFirst ∨ t.sys.kernel.place (seat fits k) ≠ .user →
    (t.phil k).round < rounds
  absent : ∀ p, (∀ k, p ≠ seat fits k) → t.sys.kernel.place p = .user ∧
    ∀ i, t.sys.books.held p i = 0

variable {t : Table nproc n} {fits : n ≤ nproc} {rounds : Nat}

theorem laid_move {u : Table nproc n}
    (h : Laid fits rounds t) (k : Fin n) (sound : Sound u.sys)
    (moves : OnlyMoves (seat fits k) t.sys u.sys)
    (others : ∀ k', k' ≠ k → u.phil k' = t.phil k')
    (holding : ∀ i, u.sys.books.held (seat fits k) i = owns k i (u.phil k).pc)
    (waiting : ∀ i, u.sys.kernel.place (seat fits k) = .acquiring i →
      wanted k (u.phil k).pc = some i)
    (playing : (u.phil k).pc ≠ .acquireFirst ∨ u.sys.kernel.place (seat fits k) ≠ .user →
      (u.phil k).round < rounds) : Laid fits rounds u := by
  have apart : ∀ k', k' ≠ k → seat fits k' ≠ seat fits k := fun k' other same =>
    other (seat_injective fits same)
  refine ⟨sound, ?_, ?_, ?_, ?_⟩
  · intro k' i
    by_cases same : k' = k
    · subst k'; exact holding i
    · rw [(moves _ (apart k' same)).2, others k' same]
      exact h.holding k' i
  · intro k' i
    by_cases same : k' = k
    · subst k'; exact waiting i
    · rw [(moves _ (apart k' same)).1, others k' same]
      exact h.waiting k' i
  · intro k'
    by_cases same : k' = k
    · subst k'; exact playing
    · rw [(moves _ (apart k' same)).1, others k' same]
      exact h.playing k'
  · intro p nobody
    rw [(moves p (nobody k)).1, (moves p (nobody k)).2]
    exact h.absent p nobody

theorem laid_acquired (h : Laid fits rounds t) (sound : Sound s)
    (moves : OnlyMoves (seat fits k) t.sys s) (asks : wanted k (t.phil k).pc = some i)
    (plays : (t.phil k).round < rounds) (back : s.kernel.place (seat fits k) = .user)
    (held : s.books.held (seat fits k) = Function.update (t.sys.books.held (seat fits k)) i
      (t.sys.books.held (seat fits k) i + 1)) :
    Laid fits rounds ⟨s,Function.update t.phil k (t.phil k).next⟩ := by
  apply laid_move h k sound moves
  · intro k' other
    simp [other]
  · intro j
    have before := h.holding k
    simp only [Function.update_self, owns_after_acquire asks, held, Function.update_apply]
    by_cases same : j = i
    · subst j; simp [before]
    · simp [same, before]
  · intro j lodged
    rw [back] at lodged
    cases lodged
  · intro _
    simp only [Function.update_self]
    cases pc : (t.phil k).pc <;> simp_all [Philosopher.next, wanted]

theorem laid_advanced (h : Laid fits rounds t) (sound : Sound s)
    (moves : OnlyMoves (seat fits k) t.sys s) (plays : (t.phil k).round < rounds)
    (back : s.kernel.place (seat fits k) = .user)
    (holding : ∀ i, s.books.held (seat fits k) i = owns k i (t.phil k).next.pc) :
    Laid fits rounds ⟨s,Function.update t.phil k (t.phil k).next⟩ := by
  apply laid_move h k sound moves
  · intro k' other
    simp [other]
  · intro i
    simpa using holding i
  · intro i lodged
    rw [back] at lodged
    cases lodged
  · intro active
    simp only [Function.update_self, back] at active ⊢
    cases pc : (t.phil k).pc <;> simp_all [Philosopher.next]

theorem laid_acquire (h : Laid fits rounds t) (wants : wanted k (t.phil k).pc = some i)
    (plays : (t.phil k).round < rounds)
    (call : step t.sys (.semAcquire (seat fits k) i) = some s) :
    Laid fits rounds (if s.kernel.place (seat fits k) = .user
      then ⟨s,Function.update t.phil k (t.phil k).next⟩ else ⟨s,t.phil⟩) := by
  obtain ⟨lively,moves,how⟩ := acquire_moves h.sound.lively call
  have sound := sound_step h.sound call trivial trivial lively
  rcases how with ⟨back,held⟩ | ⟨lodged,held⟩
  · rw [if_pos back]
    exact laid_acquired h sound moves wants plays back held
  · rw [if_neg (by simp [lodged])]
    apply laid_move (u := ⟨s,t.phil⟩) h k sound moves (fun _ _ => rfl)
    · intro j
      rw [held]
      exact h.holding k j
    · intro j elsewhere
      rw [lodged, Place.acquiring.injEq] at elsewhere
      rw [← elsewhere]
      exact wants
    · exact fun _ => plays

theorem laid_release (h : Laid fits rounds t)
    (asks : request fits k (t.phil k).pc = some (.semRelease (seat fits k) i))
    (awake : t.sys.kernel.place (seat fits k) = .user) (plays : (t.phil k).round < rounds)
    (call : step t.sys (.semRelease (seat fits k) i) = some s) :
    Laid fits rounds (if s.kernel.place (seat fits k) = .user
      then ⟨s,Function.update t.phil k (t.phil k).next⟩ else ⟨s,t.phil⟩) := by
  obtain ⟨owned,after⟩ := owns_released fits asks
  obtain ⟨lively,moves,place,held⟩ := release_moves h.sound.lively call
  have matched : Matched t.sys (.semRelease (seat fits k) i) := by
    simp only [Matched, h.holding k i]
    exact owned
  have back := place.trans awake
  rw [if_pos back]
  apply laid_advanced h (sound_step h.sound call trivial matched lively) moves plays back
  intro j
  rw [held, after j, Function.update_apply]
  by_cases same : j = i
  · subst j; simp [h.holding k]
  · simp [same, h.holding k]

theorem laid_act {u : Table nproc n}
    (h : Laid fits rounds t) (move : act fits rounds t k = some u) : Laid fits rounds u := by
  simp only [act] at move
  split at move
  · rename_i i lodged
    simp only [Option.map_eq_some_iff] at move
    obtain ⟨s,call,rfl⟩ := move
    obtain ⟨lively,moves,back,held⟩ := resume_moves h.sound.lively lodged call
    exact laid_acquired h (sound_step h.sound call trivial trivial lively) moves
      (h.waiting k i lodged) (h.playing k (Or.inr (by simp [lodged]))) back held
  · rename_i awake
    split at move
    · rename_i plays
      split at move
      · rename_i silent
        cases move
        apply laid_advanced h h.sound (fun _ _ => ⟨rfl,rfl⟩) plays awake
        intro i
        rw [owns_after_silence fits silent]
        exact h.holding k i
      · rename_i e asks
        simp only [Option.map_eq_some_iff] at move
        obtain ⟨s,call,rfl⟩ := move
        rcases request_cases asks with ⟨i,rfl,wants⟩ | ⟨i,rfl⟩
        · exact laid_acquire h wants plays call
        · exact laid_release h asks awake plays call
    · cases move

theorem laid_initial (fits : n ≤ nproc) (rounds : Nat) :
    Laid fits rounds (initGame : Table nproc n) where
  sound := ⟨orderly_start _,balance_start _,fun _ => rfl,fun _ => ⟨rfl,Or.inr rfl⟩⟩
  holding := fun _ _ => rfl
  waiting := fun _ _ lodged => by cases lodged
  playing := fun _ active => by
    rcases active with pc | place
    · exact absurd rfl pc
    · exact absurd rfl place
  absent := fun _ _ => ⟨rfl,fun _ => rfl⟩

theorem laid_run {ks : List (Fin n)}
    (run : exec (act fits rounds) initGame ks = some t) : Laid fits rounds t :=
  exec_invariant (Laid fits rounds) (fun _ _ _ h _ move => laid_act h move)
    (laid_initial fits rounds) (along_trivial _ ks) run

/-! Progress. -/

theorem value_of_sound (h : Sound s) (i : Fin n) :
    (s.kernel.semtable i).value = 1 - s.books.units i := by
  have value := (h.balance i).value
  have units := (h.balance i).units
  have clean := h.clean i
  simp only [losses, Prod.mk.injEq] at clean
  dsimp only at value
  omega

theorem sleeper_has_holder (h : Laid fits rounds t) (asleep : Asleep t.sys.kernel p i)
    (settled : ∀ r, ¬ InTransit t.sys.kernel i r) :
    ∃ k, 0 < t.sys.books.held (seat fits k) i := by
  obtain ⟨q,hq⟩ := h.sound.orderly.2 i
  have covered := hq.early (List.ne_nil_of_mem ((hq.sleepers p).mpr asleep))
  have nobody : transit t.sys.kernel i = 0 := by
    unfold transit
    rw [Finset.card_eq_zero, Finset.filter_eq_empty_iff]
    exact fun r _ => settled r
  have value := value_of_sound h.sound i
  have positive : t.sys.books.units i ≠ 0 := by omega
  by_contra none
  apply positive
  unfold Books.units
  apply Finset.sum_eq_zero
  intro r _
  by_cases seated : ∃ k, r = seat fits k
  · obtain ⟨k,rfl⟩ := seated
    by_contra some
    exact none ⟨k,by omega⟩
  · exact (h.absent r (fun k same => seated ⟨k,same⟩)).2 i

theorem holder_asleep_wants_more (h : Laid fits rounds t) {j : Fin n}
    (holds : 0 < t.sys.books.held (seat fits k) i)
    (asleep : Asleep t.sys.kernel (seat fits k) j) : i = firstFork k ∧ j = secondFork k := by
  have asks := h.waiting k j asleep.1
  rw [h.holding k i] at holds
  cases pc : (t.phil k).pc <;> rw [pc] at asks holds
  all_goals simp only [wanted, Option.some.injEq, reduceCtorEq, owns] at asks holds
  · exact absurd holds (by decide)
  · refine ⟨?_, asks.symm⟩
    by_contra other
    simp [other] at holds

theorem holder_unfinished (h : Laid fits rounds t) (holds : 0 < t.sys.books.held (seat fits k) i) :
    Unfinished rounds t k := by
  apply h.playing k
  left
  intro pc
  rw [h.holding k i, pc] at holds
  simp [owns] at holds

theorem some_philosopher_awake (two : 2 ≤ n) (h : Laid fits rounds t)
    (unfinished : Unfinished rounds t k) :
    ∃ k', Unfinished rounds t k' ∧ ∀ i, ¬ Asleep t.sys.kernel (seat fits k') i := by
  by_contra stuck
  have allAsleep : ∀ k', Unfinished rounds t k' →
      ∃ i, Asleep t.sys.kernel (seat fits k') i := by
    intro k' open_
    by_contra awake
    exact stuck ⟨k',open_,fun i asleep => awake ⟨i,asleep⟩⟩
  -- nobody is in transit either: such a philosopher is unfinished and not asleep
  have settled : ∀ i r, ¬ InTransit t.sys.kernel i r := by
    intro i r moving
    by_cases seated : ∃ k', r = seat fits k'
    · obtain ⟨k',rfl⟩ := seated
      have open_ := h.playing k' (Or.inr (by simp [moving.1]))
      obtain ⟨j,asleep⟩ := allAsleep k' open_
      have := moving.2.symm.trans asleep.2
      cases this
    · have away := (h.absent r (fun k' same => seated ⟨k',same⟩)).1
      have := away.symm.trans moving.1
      cases this
  obtain ⟨i,asleep⟩ := allAsleep k unfinished
  refine nobody_waits (fun k i => Asleep t.sys.kernel (seat fits k) i)
    (fun k i => 0 < t.sys.books.held (seat fits k) i) forkRank ?_ forkRank_le ?_ k i asleep
  · intro k' a b holds wants
    obtain ⟨first,second⟩ := holder_asleep_wants_more h holds wants
    rw [first, second]
    exact forks_taken_in_order two k'
  · intro k' a wants
    obtain ⟨holder,holds⟩ := sleeper_has_holder h wants (settled a)
    obtain ⟨b,next⟩ := allAsleep holder (holder_unfinished h holds)
    exact ⟨holder,b,holds,next⟩

theorem right_injective {k' : Fin n} (same : right k = right k') : k = k' := by
  have values := congrArg Fin.val same
  rw [right_val, right_val] at values
  apply Fin.ext
  split at values <;> split at values <;> omega

theorem owns_le (k i : Fin n) (pc : Pc) :
    owns k i pc ≤ (if i = left k then 1 else 0) + if i = right k then 1 else 0 := by
  cases pc <;> simp only [owns]
  all_goals first | exact Nat.zero_le _ | exact le_rfl | skip
  · unfold firstFork
    split <;> omega
  · omega

theorem units_le_two (h : Laid fits rounds t) (i : Fin n) : t.sys.books.units i ≤ 2 := by
  have split : ∑ k, owns k i (t.phil k).pc = t.sys.books.units i := by
    apply Fintype.sum_of_injective (seat fits) fun _ _ => seat_injective fits
    · intro p missing
      exact (h.absent p fun k same => missing ⟨k,same.symm⟩).2 i
    · exact fun k => (h.holding k i).symm
  have one : ∀ f : Fin n → Fin n, (∀ k k', f k = f k' → k = k') →
      ∑ k, (if i = f k then 1 else 0) ≤ 1 := by
    intro f distinct
    rw [Finset.sum_boole, Nat.cast_id, Finset.card_le_one]
    intro a ha b hb
    simp only [Finset.mem_filter, Finset.mem_univ, true_and] at ha hb
    exact distinct a b (ha.symm.trans hb)
  calc t.sys.books.units i
      = ∑ k, owns k i (t.phil k).pc := split.symm
    _ ≤ ∑ k, ((if i = left k then 1 else 0) + if i = right k then 1 else 0) :=
        Finset.sum_le_sum fun k _ => owns_le k i _
    _ = ∑ k, (if i = left k then 1 else 0) + ∑ k, (if i = right k then 1 else 0) :=
        Finset.sum_add_distrib
    _ ≤ 2 := Nat.add_le_add (one left fun _ _ same => same) (one right fun _ _ => right_injective)

theorem awake_can_act (h : Laid fits rounds t) (unfinished : Unfinished rounds t k)
    (awake : ∀ i, ¬ Asleep t.sys.kernel (seat fits k) i) :
    (act fits rounds t k).isSome = true := by
  have seated := h.sound.orderly.1 (seat fits k)
  have lively := h.sound.lively (seat fits k)
  cases place : t.sys.kernel.place (seat fits k) with
  | acquiring i =>
    have woken : (t.sys.kernel.ptable (seat fits k)).state = .runnable := by
      rcases lively.2 with asleep | woken
      · exact absurd ⟨place,asleep⟩ (awake i)
      · exact woken
    have value := value_of_sound h.sound i
    have few := units_le_two h i
    obtain ⟨s,move⟩ := resume_defined (p := seat fits k) ⟨place,woken⟩ (by omega)
    simp [act, place, move]
  | user =>
    have free : Free t.sys.kernel (seat fits k) := by
      refine ⟨?_, place, lively.1⟩
      rcases lively.2 with asleep | woken
      · exact absurd place (seated.lodged asleep)
      · exact woken
    have plays : (t.phil k).round < rounds := unfinished
    simp only [act, place, plays, ↓reduceIte]
    split
    · rfl
    · rename_i e asks
      rcases request_cases asks with ⟨i,rfl,_⟩ | ⟨i,rfl⟩
      · obtain ⟨s,move⟩ := acquire_defined (i := i) free
        simp [move]
      · have value := value_of_sound h.sound i
        obtain ⟨s,move⟩ := release_defined (i := i) free (by omega)
        simp [move]

/-- In every reachable state with a philosopher that has not finished, some philosopher
    that has not finished is not asleep in a semaphore queue, and can take its next step. -/
theorem dining_never_deadlocks (two : 2 ≤ n) (fits : n ≤ nproc) (rounds : Nat)
    (ks : List (Fin n)) (t : Table nproc n)
    (run : exec (act fits rounds) initGame ks = some t)
    (unfinished : ∃ k, Unfinished rounds t k) :
    ∃ k, Unfinished rounds t k ∧ (∀ i, ¬ Asleep t.sys.kernel (seat fits k) i) ∧
      ∃ u, act fits rounds t k = some u := by
  have laid := laid_run run
  obtain ⟨k,open_⟩ := unfinished
  obtain ⟨k',still,awake⟩ := some_philosopher_awake two laid open_
  exact ⟨k',still,awake,Option.isSome_iff_exists.mp (awake_can_act laid still awake)⟩

theorem dining_never_deadlocks_five :
    ∃ t : Table 64 5, exec (act (by decide) 5) initGame [0, 1, 2, 3, 4] = some t ∧
      ∃ k, Unfinished 5 t k ∧ (∀ i, ¬ Asleep t.sys.kernel (seat (by decide) k) i) ∧
        ∃ u, act (by decide) 5 t k = some u := by
  have runs : (exec (act (by decide) 5) (initGame : Table 64 5) [0, 1, 2, 3, 4]).map
      (fun t => (t.phil 0).round) = some 0 := by decide +kernel
  obtain ⟨t,run,round⟩ := Option.map_eq_some_iff.mp runs
  refine ⟨t, run, dining_never_deadlocks (by decide) (by decide) 5 _ t run ⟨0, ?_⟩⟩
  unfold Unfinished
  omega

end DiningPhilosophers
