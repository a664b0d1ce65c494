import Mathlib.Logic.Embedding.Basic
import Xv6.SleepWakeup

/- sleeplock.c, with sleep, wakeup and kill of proc.c, one acquire, release or change of a
   variable a step. A sleep lock `c` has the spinlock `other c`, which protects its fields, and
   is the channel its waiters sleep on. Without pids, holdingsleep and kill's search this is the
   system of sleepers and wakers, with the lock's being free as the condition. -/
namespace SleepLock
open Param LockOwner RunLaws
open SleepWakeup (Lock)

inductive Pc (C : Type) where
  | idle
  -- In acquiresleep, with sleep in its loop.
  | acquire (c : C)
  | test (c : C)
  | sleepLock (c : C)
  | unlock (c : C)
  | setChan (c : C)
  | setState (c : C)
  | sched (c : C)
  | asleep (c : C)
  | tidy (c : C)
  | unlockTable (c : C)
  | setLocked (c : C)
  | setPid (c : C)
  | leave (c : C)
  -- In releasesleep, with wakeup behind the second assignment.
  | relAcquire (c : C)
  | clearLocked (c : C)
  | clearPid (c : C)
  | wakeLock (c : C)
  | scan (c : C) (k : Nat)
  | wakeUnlock (c : C)
  | relLeave (c : C)
  | holdAcquire (c : C)
  | holdRead (c : C)
  -- holdingsleep with its result.
  | holdLeave (c : C) (r : Bool)
  | killLock (pid : Nat)
  | killScan (pid k : Nat)
  | killUnlock (r : Int)
  deriving DecidableEq, Repr

/-- Where a process is, and which locks it has got from acquiresleep and not cleared in
    releasesleep. -/
structure Point (C : Type) where
  pc : Pc C
  has : C → Bool

structure Local (C : Type) extends Point C where
  state : ProcState
  chan : Option C
  killed : Bool

inductive Act (C : Type) where
  | stay
  | acquire (l : Lock C)
  | release (l : Lock C)
  | lock (c : C)
  | unlock (c : C)
  | name (c : C)
  | unname (c : C)
  | rouse (c : C) (k : Nat)
  | kill (k : Nat)

structure State (n : Nat) (C : Type) where
  proc : Fin n → Local C
  owner : Lock C → Option (Fin n)
  locked : C → Bool
  lpid : C → Nat

section
variable {n : Nat} {C : Type} [DecidableEq C] (pid : Fin n ↪ Nat)

/-- The next instruction of process `p`. -/
def instr (locked : C → Bool) (lpid : C → Nat) (p : Fin n) (l : Local C) :
    Option (Act C × Local C) :=
  match l.pc with
  | .idle => none
  | .acquire c => some (.acquire (.other c), { l with pc := .test c })
  | .test c => some (.stay, { l with pc := if locked c then .sleepLock c else .setLocked c })
  | .sleepLock c => some (.acquire .ptable, { l with pc := .unlock c })
  | .unlock c => some (.release (.other c), { l with pc := .setChan c })
  | .setChan c => some (.stay, { l with pc := .setState c, chan := some c })
  | .setState c => some (.stay, { l with pc := .sched c, state := .sleeping })
  | .sched c => some (.release .ptable, { l with pc := .asleep c })
  | .asleep c =>
    if l.state = .runnable then some (.acquire .ptable, { l with pc := .tidy c, state := .running })
    else none
  | .tidy c => some (.stay, { l with pc := .unlockTable c, chan := none })
  | .unlockTable c => some (.release .ptable, { l with pc := .acquire c })
  | .setLocked c => some (.lock c, { l with pc := .setPid c })
  | .setPid c => some (.name c, { l with pc := .leave c })
  | .leave c =>
    some (.release (.other c), { l with pc := .idle, has := Function.update l.has c true })
  | .relAcquire c => some (.acquire (.other c), { l with pc := .clearLocked c })
  | .clearLocked c =>
    some (.unlock c, { l with pc := .clearPid c, has := Function.update l.has c false })
  | .clearPid c => some (.unname c, { l with pc := .wakeLock c })
  | .wakeLock c => some (.acquire .ptable, { l with pc := .scan c 0 })
  | .scan c k =>
    if k < n then some (.rouse c k, { l with pc := .scan c (k + 1) })
    else some (.stay, { l with pc := .wakeUnlock c })
  | .wakeUnlock c => some (.release .ptable, { l with pc := .relLeave c })
  | .relLeave c => some (.release (.other c), { l with pc := .idle })
  | .holdAcquire c => some (.acquire (.other c), { l with pc := .holdRead c })
  | .holdRead c => some (.stay, { l with pc := .holdLeave c (locked c && lpid c == pid p) })
  | .holdLeave c _ => some (.release (.other c), { l with pc := .idle })
  | .killLock t => some (.acquire .ptable, { l with pc := .killScan t 0 })
  | .killScan t k =>
    if inside : k < n then
      if pid ⟨k, inside⟩ = t then some (.kill k, { l with pc := .killUnlock 0 })
      else some (.stay, { l with pc := .killScan t (k + 1) })
    else some (.stay, { l with pc := .killUnlock (-1) })
  | .killUnlock _ => some (.release .ptable, { l with pc := .idle })

/-- The body of wakeup1's loop. -/
def rouse (c : C) (l : Local C) : Local C :=
  if l.state = .sleeping ∧ l.chan = some c then { l with state := .runnable } else l

def slay (l : Local C) : Local C :=
  { l with killed := true, state := if l.state = .sleeping then .runnable else l.state }

def State.put (s : State n C) (p : Fin n) (l : Local C) : State n C :=
  { s with proc := Function.update s.proc p l }

def State.change (s : State n C) (k : Nat) (f : Local C → Local C) : State n C :=
  { s with proc := fun q => if q.val = k then f (s.proc q) else s.proc q }

def perform (s : State n C) (p : Fin n) (l : Local C) : Act C → Option (State n C)
  | .stay => some (s.put p l)
  | .acquire k =>
    if s.owner k = none then some { s.put p l with owner := Function.update s.owner k (some p) }
    else none
  | .release k => some { s.put p l with owner := Function.update s.owner k none }
  | .lock c => some { s.put p l with locked := Function.update s.locked c true }
  | .unlock c => some { s.put p l with locked := Function.update s.locked c false }
  | .name c => some { s.put p l with lpid := Function.update s.lpid c (pid p) }
  | .unname c => some { s.put p l with lpid := Function.update s.lpid c 0 }
  | .rouse c k => some ((s.change k (rouse c)).put p l)
  | .kill k =>
    -- a process may kill itself
    some ((s.change k slay).put p { (s.change k slay).proc p with pc := l.pc })

inductive Event (n : Nat) (C : Type) where
  | acquiresleep (p : Fin n) (c : C)
  | releasesleep (p : Fin n) (c : C)
  | holdingsleep (p : Fin n) (c : C)
  | kill (p : Fin n) (pid : Nat)
  | run (p : Fin n)

def State.call (s : State n C) (p : Fin n) (pc : Pc C) : Option (State n C) :=
  if (s.proc p).pc = .idle then some (s.put p { s.proc p with pc := pc }) else none

/-- A call, or an instruction. releasesleep is called only by a process that has the lock. -/
def step (s : State n C) : Event n C → Option (State n C)
  | .acquiresleep p c => s.call p (.acquire c)
  | .releasesleep p c => if (s.proc p).has c then s.call p (.relAcquire c) else none
  | .holdingsleep p c => s.call p (.holdAcquire c)
  | .kill p t => s.call p (.killLock t)
  | .run p => (instr pid s.locked s.lpid p (s.proc p)).bind fun r => perform pid s p r.2 r.1

def start (n : Nat) (C : Type) : State n C where
  proc _ := { pc := .idle, has := fun _ => false, state := .running, chan := none, killed := false }
  owner _ := none
  locked _ := false
  lpid _ := 0

end

section Points
variable {n : Nat} {C : Type}

def holds (x : Point C) (k : Lock C) : Prop :=
  match x.pc with
  | .test c | .sleepLock c | .setLocked c | .setPid c | .leave c | .clearLocked c | .clearPid c
  | .wakeLock c | .relLeave c
  | .holdRead c | .holdLeave c _ => k = .other c
  | .unlock c | .scan c _ | .wakeUnlock c => k = .ptable ∨ k = .other c
  | .setChan _ | .setState _ | .sched _ | .tidy _ | .unlockTable _ | .killScan _ _
  | .killUnlock _ => k = .ptable
  | .idle | .acquire _ | .asleep _ | .relAcquire _ | .holdAcquire _ | .killLock _ => False

def Inside (x : Point C) (c : C) : Prop := x.has c = true ∨ x.pc = .setPid c ∨ x.pc = .leave c

def Facts (x : Point C) : Prop :=
  match x.pc with
  | .relAcquire c | .clearLocked c => x.has c = true
  | _ => True

def Clear (x : Point C) (c : C) : Prop := x.pc = .setLocked c ∨ x.pc = .clearPid c

def Holdings (x x' : Point C) : Act C → Prop
  | .acquire k => ∀ m, holds x' m ↔ m = k ∨ holds x m
  | .release k => holds x k ∧ ∀ m, holds x' m ↔ m ≠ k ∧ holds x m
  | _ => ∀ m, holds x' m ↔ holds x m

def Sleeplocks (x x' : Point C) : Act C → Prop
  | .lock c => ∀ d, Inside x' d ↔ d = c ∨ Inside x d
  | .unlock c => Inside x c ∧ ∀ d, Inside x' d ↔ d ≠ c ∧ Inside x d
  | _ => ∀ d, Inside x' d ↔ Inside x d

structure Effect (pid : Fin n ↪ Nat) (locked : C → Bool) (lpid : C → Nat) (p : Fin n) (x : Point C)
    (a : Act C) (x' : Point C) :
    Prop where
  facts : Facts x'
  holdings : Holdings x x' a
  sleeplocks : Sleeplocks x x' a
  lock : ∀ c, a = .lock c → x.pc = .setLocked c ∧ x'.pc = .setPid c
  unlock : ∀ c, a = .unlock c → x.pc = .clearLocked c
  name : ∀ c, a = .name c ↔ x.pc = .setPid c
  unname : ∀ c, a = .unname c → x.pc = .clearPid c
  clear : ∀ c, Clear x' c → x.pc = .test c ∧ locked c = false ∨ a = .unlock c
  answer : ∀ c r, x'.pc = .holdLeave c r → x.pc = .holdRead c ∧ x'.has = x.has ∧
    r = (locked c && lpid c == pid p)

def State.points (s : State n C) (q : Fin n) : Point C := (s.proc q).toPoint

theorem points_put (s : State n C) (p : Fin n) (l : Local C) :
    (s.put p l).points = Function.update s.points p l.toPoint := by
  funext q
  by_cases mine : q = p
  · subst mine
    simp [State.points, State.put]
  · simp [State.points, State.put, mine]

theorem points_change (s : State n C) (k : Nat) {f : Local C → Local C}
    (same : ∀ l, (f l).toPoint = l.toPoint) :
    (s.change k f).points = s.points := by
  funext q
  simp only [State.points, State.change]
  split
  · exact same _
  · rfl

theorem slay_point (l : Local C) : (slay l).toPoint = l.toPoint := rfl

variable [DecidableEq C] {pid : Fin n ↪ Nat} {s t : State n C} {p : Fin n} {l l' : Local C}
  {a : Act C} {locked : C → Bool} {lpid : C → Nat}

theorem instr_effect (facts : Facts l.toPoint) (next : instr pid locked lpid p l = some (a, l')) :
    Effect pid locked lpid p l.toPoint a l'.toPoint := by
  cases pc : l.pc with
  | idle => simp [instr, pc] at next
  | asleep c =>
    simp only [instr, pc, Option.ite_none_right_eq_some, Option.some.injEq, Prod.mk.injEq] at next
    obtain ⟨-,rfl,rfl⟩ := next
    constructor <;> simp_all [Facts, Holdings, Sleeplocks, holds, Inside, Clear]
  | scan c k =>
    simp only [instr, pc] at next
    split at next <;> cases next <;> constructor <;> simp_all [Facts, Holdings, Sleeplocks, holds,
      Inside, Clear]
  | test c =>
    simp only [instr, pc, Option.some.injEq, Prod.mk.injEq] at next
    obtain ⟨rfl,rfl⟩ := next
    cases value : locked c <;> constructor <;> simp_all [Facts, Holdings, Sleeplocks, holds,
      Inside, Clear]
  | killScan t k =>
    simp only [instr, pc] at next
    split at next
    · split at next <;> cases next <;> constructor <;> simp_all [Facts, Holdings, Sleeplocks, holds,
        Inside, Clear]
    · cases next
      constructor <;> simp_all [Facts, Holdings, Sleeplocks, holds, Inside, Clear]
  | unlock c | wakeUnlock c | setLocked c | leave c | clearLocked c =>
    simp only [instr, pc, Option.some.injEq, Prod.mk.injEq] at next
    obtain ⟨rfl,rfl⟩ := next
    constructor <;> simp_all [Facts, Holdings, Sleeplocks, holds, Inside, Clear]
    grind [Function.update_apply]
  | _ =>
    simp only [instr, pc, Option.some.injEq, Prod.mk.injEq] at next
    obtain ⟨rfl,rfl⟩ := next
    constructor <;> simp_all [Facts, Holdings, Sleeplocks, holds, Inside, Clear]

def ownerAfter (owner : Lock C → Option (Fin n)) (p : Fin n) : Act C → Lock C → Option (Fin n)
  | .acquire k => Function.update owner k (some p)
  | .release k => Function.update owner k none
  | _ => owner

def lockedAfter (locked : C → Bool) : Act C → C → Bool
  | .lock c => Function.update locked c true
  | .unlock c => Function.update locked c false
  | _ => locked

def lpidAfter (pid : Fin n ↪ Nat) (lpid : C → Nat) (p : Fin n) : Act C → C → Nat
  | .name c => Function.update lpid c (pid p)
  | .unname c => Function.update lpid c 0
  | _ => lpid

structure Outcome (pid : Fin n ↪ Nat) (s : State n C) (p : Fin n) (a : Act C) (x : Point C)
    (t : State n C) : Prop where
  free : ∀ k, a = .acquire k → s.owner k = none
  points : t.points = Function.update s.points p x
  owner : t.owner = ownerAfter s.owner p a
  locked : t.locked = lockedAfter s.locked a
  lpid : t.lpid = lpidAfter pid s.lpid p a

theorem rouse_point (c : C) (l : Local C) : (rouse c l).toPoint = l.toPoint := by
  unfold rouse
  split <;> rfl

theorem instr_kill {k : Nat} (next : instr pid locked lpid p l = some (.kill k, l')) :
    l'.has = l.has := by
  cases pc : l.pc with
  | killScan u j =>
    simp only [instr, pc] at next
    split at next
    · split at next <;> cases next
      rfl
    · cases next
  | scan c j =>
    simp only [instr, pc] at next
    split at next <;> cases next
  | asleep c => simp [instr, pc] at next
  | _ => simp [instr, pc] at next

theorem perform_outcome (next : instr pid s.locked s.lpid p (s.proc p) = some (a, l))
    (done : perform pid s p l a = some t) :
    Outcome pid s p a l.toPoint t := by
  cases a with
  | acquire k =>
    simp only [perform, Option.ite_none_right_eq_some, Option.some.injEq] at done
    obtain ⟨free,rfl⟩ := done
    exact ⟨fun _ same => by cases same; exact free, points_put s p l, rfl, rfl, rfl⟩
  | rouse c k =>
    cases done
    refine ⟨fun _ same => (by cases same), ?_, rfl, rfl, rfl⟩
    rw [points_put, points_change s k (rouse_point c)]
  | kill k =>
    cases done
    refine ⟨fun _ same => (by cases same), ?_, rfl, rfl, rfl⟩
    have own : ({ (s.change k slay).proc p with pc := l.pc } : Local C).toPoint = l.toPoint := by
      have same : ((s.change k slay).points p).has = (s.points p).has := by
        rw [points_change s k slay_point]
      exact congrArg (Point.mk l.pc) (same.trans (instr_kill next).symm)
    rw [points_put, points_change s k slay_point]
    exact congrArg (Function.update s.points p) own
  | _ =>
    cases done
    exact ⟨fun _ same => (by cases same), points_put s p l, rfl, rfl, rfl⟩

theorem step_effect {e : Event n C} (facts : ∀ q, Facts (s.points q))
    (move : step pid s e = some t) :
    ∃ p a x, Effect pid s.locked s.lpid p (s.points p) a x ∧ Outcome pid s p a x t := by
  have call : ∀ p pc, (∀ x : Point C, x.pc = .idle →
      Effect pid s.locked s.lpid p x .stay { x with pc := pc }) →
      s.call p pc = some t → ∃ p a x, Effect pid s.locked s.lpid p (s.points p) a x ∧
        Outcome pid s p a x t := by
    intro p pc effect called
    simp only [State.call, Option.ite_none_right_eq_some, Option.some.injEq] at called
    obtain ⟨idle,rfl⟩ := called
    exact ⟨p, .stay, _, effect _ idle,
      ⟨fun _ same => (by cases same), points_put s p _, rfl, rfl, rfl⟩⟩
  cases e with
  | run p =>
    obtain ⟨⟨a,l⟩,next,done⟩ := Option.bind_eq_some_iff.mp move
    exact ⟨p, a, l.toPoint, instr_effect (facts p) next, perform_outcome next done⟩
  | releasesleep p c =>
    simp only [step, Option.ite_none_right_eq_some, State.call, Option.some.injEq] at move
    obtain ⟨has,idle,rfl⟩ := move
    refine ⟨p, .stay, _, ?_, ⟨fun _ same => (by cases same), points_put s p _, rfl, rfl, rfl⟩⟩
    constructor <;> simp_all [State.points, Facts, Holdings, Sleeplocks, holds, Inside, Clear]
  | acquiresleep p c | holdingsleep p c | kill p u =>
    refine call p _ (fun x idle => ?_) move
    constructor <;> simp_all [Facts, Holdings, Sleeplocks, holds, Inside, Clear]

end Points

section Exclusion
variable {n : Nat} {C : Type} {pid : Fin n ↪ Nat} {s t : State n C} {p q : Fin n} {a : Act C}
  {x : Point C} {c : C}

/-- The spinlocks and the sleep locks are owned by those who are at the points where they hold
    them; a locked lock has the pid of its owner, from the second assignment of acquiresleep on. -/
structure Good (pid : Fin n ↪ Nat) (s : State n C) : Prop where
  facts : ∀ p, Facts (s.points p)
  owned : Owned holds s.owner s.points
  held : ∃ holder, Owned Inside holder s.points ∧ ∀ c, s.locked c = (holder c).isSome
  clear : ∀ p c, Clear (s.points p) c → s.locked c = false
  named : ∀ p c, Inside (s.points p) c → (s.points p).pc ≠ .setPid c → s.lpid c = pid p
  answer : ∀ p c r, (s.points p).pc = .holdLeave c r → (r = true ↔ (s.points p).has c = true)

theorem Good.exclusive (good : Good pid s) (first : Inside (s.points p) c)
    (second : Inside (s.points q) c) : p = q := by
  obtain ⟨holder,owned,-⟩ := good.held
  exact owned_exclusive owned first second

theorem Good.locked_iff (good : Good pid s) : s.locked c = true ↔ ∃ p, Inside (s.points p) c := by
  obtain ⟨holder,owned,locked⟩ := good.held
  rw [locked, Option.isSome_iff_exists]
  exact exists_congr fun p => (owned p c).symm

theorem Good.fields (good : Good pid s) (past : ∀ q, (s.points q).pc ≠ .setPid c) (p : Fin n) :
    (s.locked c && s.lpid c == pid p) = true ↔ Inside (s.points p) c := by
  rw [Bool.and_eq_true, beq_iff_eq, good.locked_iff]
  constructor
  · rintro ⟨⟨q,inside⟩,name⟩
    cases pid.injective ((good.named q c inside (past q)).symm.trans name)
    exact inside
  · intro inside
    exact ⟨⟨p, inside⟩, good.named p c inside (past p)⟩

theorem inside_iff_has {y : Point C} (entry : y.pc ≠ .setPid c) (exit : y.pc ≠ .leave c) :
    Inside y c ↔ y.has c = true := by
  simp [Inside, entry, exit]

/-- What holdingsleep reads is whether the caller has the lock: no other process is between the
    assignments. -/
theorem read_answer (good : Good pid s) (reads : (s.points p).pc = .holdRead c) :
    (s.locked c && s.lpid c == pid p) = true ↔ (s.points p).has c = true := by
  have past : ∀ q, (s.points q).pc ≠ .setPid c := by
    intro q entry
    cases owned_exclusive good.owned (show holds (s.points q) (.other c) by simp [holds, entry])
      (show holds (s.points p) (.other c) by simp [holds, reads])
    cases entry.symm.trans reads
  rw [good.fields past, inside_iff_has (past p) fun leaves => (by cases leaves.symm.trans reads)]

theorem holds_of_clear {y : Point C} (clear : Clear y c) : holds y (.other c) := by
  obtain pc | pc := clear <;> simp [holds, pc]

theorem inside_before (effect : Effect pid s.locked s.lpid p (s.points p) a x)
    (inside : Inside x c) :
    a = .lock c ∨ Inside (s.points p) c := by
  have sleeplocks := effect.sleeplocks
  cases a with
  | lock d => exact ((sleeplocks c).mp inside).imp (fun same => by rw [same]) id
  | unlock d => exact .inr ((sleeplocks.2 c).mp inside).2
  | _ => exact .inr ((sleeplocks c).mp inside)

theorem good_start (pid : Fin n ↪ Nat) : Good pid (start n C) where
  facts _ := trivial
  owned := by simp [Owned, start, State.points, holds]
  held := ⟨fun _ => none, by simp [Owned, start, State.points, Inside], fun _ => rfl⟩
  clear _ _ _ := rfl
  named _ _ inside := by simp [start, State.points, Inside] at inside
  answer _ _ _ pc := by simp [start, State.points] at pc

variable [DecidableEq C]

theorem writes_locked (effect : Effect pid s.locked s.lpid p (s.points p) a x)
    (changed : lockedAfter s.locked a c ≠ s.locked c) :
    holds (s.points p) (.other c) := by
  cases a with
  | lock d =>
    obtain ⟨pc,-⟩ := effect.lock d rfl
    by_cases this : c = d
    · simp [holds, pc, this]
    · simp [lockedAfter, this] at changed
  | unlock d =>
    have pc := effect.unlock d rfl
    by_cases this : c = d
    · simp [holds, pc, this]
    · simp [lockedAfter, this] at changed
  | _ => exact absurd rfl changed

theorem owned_step (good : Good pid s) (effect : Effect pid s.locked s.lpid p (s.points p) a x)
    (outcome : Outcome pid s p a x t) :
    Owned holds t.owner t.points := by
  rw [outcome.owner, outcome.points]
  have holdings := effect.holdings
  cases a with
  | acquire k => exact owned_acquire good.owned (outcome.free k rfl) holdings
  | release k => exact owned_release good.owned holdings.1 holdings.2
  | _ => exact owned_move good.owned holdings

theorem held_step (good : Good pid s) (effect : Effect pid s.locked s.lpid p (s.points p) a x)
    (outcome : Outcome pid s p a x t) :
    ∃ holder, Owned Inside holder t.points ∧ ∀ c, t.locked c = (holder c).isSome := by
  obtain ⟨holder,owned,locked⟩ := good.held
  rw [outcome.points, outcome.locked]
  have sleeplocks := effect.sleeplocks
  cases a with
  | lock d =>
    -- the lock was seen free and its spinlock has been held since
    have free : holder d = none := by
      have clear := good.clear p d (.inl (effect.lock d rfl).1)
      rw [locked] at clear
      exact Option.not_isSome_iff_eq_none.mp (by simp [clear])
    refine ⟨_, owned_acquire owned free sleeplocks, fun c => ?_⟩
    by_cases this : c = d
    · simp [lockedAfter, this]
    · simp [lockedAfter, this, locked]
  | unlock d =>
    refine ⟨_, owned_release owned sleeplocks.1 sleeplocks.2, fun c => ?_⟩
    by_cases this : c = d
    · simp [lockedAfter, this]
    · simp [lockedAfter, this, locked]
  | _ => exact ⟨holder, owned_move owned sleeplocks, locked⟩

theorem clear_step (good : Good pid s) (effect : Effect pid s.locked s.lpid p (s.points p) a x)
    (outcome : Outcome pid s p a x t)
    (clear : Clear (t.points q) c) : t.locked c = false := by
  rw [outcome.points] at clear
  rw [outcome.locked]
  by_cases mine : q = p
  · subst mine
    rw [Function.update_self] at clear
    obtain ⟨pc,free⟩ | act := effect.clear c clear
    · -- `test` itself writes nothing
      cases a with
      | lock d => cases pc.symm.trans (effect.lock d rfl).1
      | unlock d => cases pc.symm.trans (effect.unlock d rfl)
      | _ => exact free
    · subst act
      simp [lockedAfter]
  · rw [Function.update_of_ne mine] at clear
    by_contra changed
    refine mine (owned_exclusive good.owned (holds_of_clear clear) (writes_locked effect fun same =>
      changed ?_))
    rw [same]
    exact good.clear q c clear

theorem named_step (good : Good pid s) (effect : Effect pid s.locked s.lpid p (s.points p) a x)
    (outcome : Outcome pid s p a x t)
    (inside : Inside (t.points q) c) (past : (t.points q).pc ≠ .setPid c) : t.lpid c = pid q := by
  rw [outcome.points] at inside past
  -- the lock is not one that has just been cleared
  have uncleared : ∀ {r}, Inside (s.points r) c → a ≠ .unname c := by
    intro r before act
    have free := good.clear p c (.inr (effect.unname c act))
    rw [good.locked_iff.mpr ⟨r, before⟩] at free
    cases free
  have kept : a ≠ .name c → a ≠ .unname c → t.lpid c = s.lpid c := by
    intro name unname
    rw [outcome.lpid]
    cases a with
    | name d => exact Function.update_of_ne (fun same => name (by rw [same])) ..
    | unname d => exact Function.update_of_ne (fun same => unname (by rw [same])) ..
    | _ => rfl
  by_cases mine : q = p
  · subst mine
    rw [Function.update_self] at inside past
    obtain act | before := inside_before effect inside
    · exact absurd (effect.lock c act).2 past
    · by_cases act : a = .name c
      · rw [outcome.lpid, act]
        exact Function.update_self ..
      · rw [kept act (uncleared before)]
        exact good.named q c before fun pc => act ((effect.name c).mpr pc)
  · rw [Function.update_of_ne mine] at inside past
    have other : a ≠ .name c := by
      intro act
      exact mine (good.exclusive inside (.inr (.inl ((effect.name c).mp act))))
    rw [kept other (uncleared inside)]
    exact good.named q c inside past

theorem answer_step (good : Good pid s) (effect : Effect pid s.locked s.lpid p (s.points p) a x)
    (outcome : Outcome pid s p a x t)
    {r : Bool} (pc : (t.points q).pc = .holdLeave c r) : r = true ↔ (t.points q).has c = true := by
  rw [outcome.points] at pc ⊢
  by_cases mine : q = p
  · subst mine
    rw [Function.update_self] at pc ⊢
    obtain ⟨reads,has,rfl⟩ := effect.answer c r pc
    rw [has]
    exact read_answer good reads
  · rw [Function.update_of_ne mine] at pc ⊢
    exact good.answer q c r pc

theorem good_step {e : Event n C} (good : Good pid s) (move : step pid s e = some t) :
    Good pid t := by
  obtain ⟨p,a,x,effect,outcome⟩ := step_effect good.facts move
  refine ⟨fun q => ?_, owned_step good effect outcome, held_step good effect outcome,
    fun q c => clear_step good effect outcome,
    fun q c => named_step good effect outcome, fun q c r => answer_step good effect outcome⟩
  rw [outcome.points]
  by_cases mine : q = p
  · subst mine
    rw [Function.update_self]
    exact effect.facts
  · rw [Function.update_of_ne mine]
    exact good.facts q

end Exclusion

section Simulation
variable {n : Nat} {C : Type}

def seen : Pc C → SleepWakeup.Pc C
  | .acquire c => .enter c
  | .test c => .test c
  | .sleepLock c => .sleepLock c
  | .unlock c => .unlock c
  | .setChan c => .setChan c
  | .setState c => .setState c
  | .sched c => .sched c
  | .asleep c => .asleep c
  | .tidy c => .tidy c
  | .unlockTable c => .unlockTable c
  | .setLocked c => .inside c
  | .setPid c | .leave c | .relLeave c => .leave c
  | .relAcquire c => .wake c
  | .clearLocked c => .assert c
  | .clearPid c | .wakeLock c => .wakeLock c
  | .scan c k => .scan c k
  | .wakeUnlock c => .wakeUnlock c
  | .idle | .holdAcquire _ | .holdRead _ | .holdLeave _ _ | .killLock _ | .killScan _ _
  | .killUnlock _ => .idle

def Agrees (m : SleepWakeup.Local C) (l : Local C) : Prop := m.pc = seen l.pc ∧ m.state = l.state ∧
    m.chan = l.chan

structure Sees (s : State n C) (u : SleepWakeup.State n C C) : Prop where
  proc : ∀ p, Agrees (u.proc p) (s.proc p)
  cond : ∀ c, u.cond c = !s.locked c

def guard (c : C) : Lock C := .other c

theorem holds_seen {x : Point C} {m : SleepWakeup.Local C} (pc : m.pc = seen x.pc) {k : Lock C}
    (held : SleepWakeup.holds guard m k) :
    holds x k := by
  cases point : x.pc <;> simp_all [seen, holds, SleepWakeup.holds, guard]

variable {pid : Fin n ↪ Nat} {s t : State n C} {u : SleepWakeup.State n C C} {p : Fin n}
  {l : Local C} {a : Act C}

theorem free_seen (good : Good pid s) (heard : SleepWakeup.Heard guard u) (sees : Sees s u)
    {k : Lock C} (free : s.owner k = none) :
    u.owner k = none := by
  cases owner : u.owner k with
  | none => rfl
  | some q =>
    have held := holds_seen (x := s.points q) (sees.proc q).1 ((heard.owned q k).mpr owner)
    rw [(good.owned q k).mp held] at free
    cases free

theorem agrees_update {m : SleepWakeup.Local C} {f : Fin n → SleepWakeup.Local C}
    {g : Fin n → Local C} (others : ∀ q, q ≠ p → Agrees (f q) (g q))
    (agrees : Agrees m l) (q : Fin n) :
    Agrees (Function.update f p m q) (Function.update g p l q) := by
  by_cases mine : q = p
  · subst mine
    rw [Function.update_self, Function.update_self]
    exact agrees
  · rw [Function.update_of_ne mine, Function.update_of_ne mine]
    exact others q mine

theorem agrees_moved {f : Fin n → SleepWakeup.Local C} {g : Fin n → Local C}
    (all : ∀ q, Agrees (f q) (g q)) (agrees : Agrees (f p) l)
    (q : Fin n) : Agrees (f q) (Function.update g p l q) := by
  by_cases mine : q = p
  · subst mine
    rw [Function.update_self]
    exact agrees
  · rw [Function.update_of_ne mine]
    exact all q

variable [DecidableEq C]

inductive Matches : Act C → SleepWakeup.Act C C → Prop
  | stay : Matches .stay .stay
  | acquire (k : Lock C) : Matches (.acquire k) (.acquire k)
  | release (k : Lock C) : Matches (.release k) (.release k)
  | unlock (c : C) : Matches (.unlock c) (.make c)
  | rouse (c : C) (k : Nat) : Matches (.rouse c k) (.rouse c k)
  | issue (c : C) : Matches .stay (.issue c)

/-- What the smaller system does when a process comes to `l` by the act `a`: nothing, the same
    instruction, the assignment with which a sleeper takes the condition, or its kill. -/
inductive Mirror (x : Point C) (u : SleepWakeup.State n C C) (p : Fin n) (l : Local C) :
    Act C → Prop
  | stutter {a : Act C} (agrees : Agrees (u.proc p) l) (locks : ∀ f : C → Bool, lockedAfter f a = f)
      (processes : (∀ c k, a ≠ .rouse c k) ∧ ∀ k, a ≠ .kill k) : Mirror x u p l a
  | run {a : Act C} (next : ∃ r, SleepWakeup.instr guard n u.clock u.cond (u.proc p) = some r ∧
    Agrees r.2 l ∧ Matches a r.1) : Mirror x u p l a
  | take (c : C) (pc : (u.proc p).pc = .inside c) (agrees : Agrees
    { u.proc p with pc := .leave c } l) : Mirror x u p l (.lock c)
  | kill (k : Nat) (inside : k < n) (table : holds x .ptable) (idle : (u.proc p).pc =
    .idle) (seen : seen l.pc = .idle) : Mirror x u p l (.kill k)

theorem instr_mirror (sees : Sees s u)
    (next : instr pid s.locked s.lpid p (s.proc p) = some (a, l)) :
    Mirror (s.points p) u p l a := by
  obtain ⟨at_,state,chan⟩ := sees.proc p
  have cond := sees.cond
  have apart : ∀ c : C, guard c ≠ .ptable := fun c same => (by cases same)
  cases pc : (s.proc p).pc with
  | idle => simp [instr, pc] at next
  | asleep c =>
    simp only [instr, pc, Option.ite_none_right_eq_some, Option.some.injEq, Prod.mk.injEq] at next
    obtain ⟨ready,rfl,rfl⟩ := next
    rw [pc, seen] at at_
    refine .run ?_
    simp only [SleepWakeup.instr, at_, state, ready, if_true]
    exact ⟨_, rfl, ⟨rfl, rfl, chan⟩, .acquire _⟩
  | test c =>
    simp only [instr, pc, Option.some.injEq, Prod.mk.injEq] at next
    obtain ⟨rfl,rfl⟩ := next
    rw [pc, seen] at at_
    refine .run ?_
    simp only [SleepWakeup.instr, at_, cond, if_neg (apart c)]
    refine ⟨_, rfl, ⟨?_, state, chan⟩, .stay⟩
    cases s.locked c <;> rfl
  | scan c k =>
    rw [pc, seen] at at_
    refine .run ?_
    simp only [SleepWakeup.instr, at_, if_neg (apart c)]
    simp only [instr, pc] at next
    split at next
    · next inside =>
      cases next
      rw [if_pos inside]
      exact ⟨_, rfl, ⟨rfl, state, chan⟩, .rouse c k⟩
    · next outside =>
      cases next
      rw [if_neg outside]
      exact ⟨_, rfl, ⟨rfl, state, chan⟩, .issue c⟩
  | tidy c =>
    simp only [instr, pc, Option.some.injEq, Prod.mk.injEq] at next
    obtain ⟨rfl,rfl⟩ := next
    rw [pc, seen] at at_
    refine .run ?_
    simp only [SleepWakeup.instr, at_, if_neg (apart c)]
    exact ⟨_, rfl, ⟨rfl, state, rfl⟩, .stay⟩
  | setChan c =>
    simp only [instr, pc, Option.some.injEq, Prod.mk.injEq] at next
    obtain ⟨rfl,rfl⟩ := next
    rw [pc, seen] at at_
    refine .run ?_
    simp only [SleepWakeup.instr, at_]
    exact ⟨_, rfl, ⟨rfl, state, rfl⟩, .stay⟩
  | setState c =>
    simp only [instr, pc, Option.some.injEq, Prod.mk.injEq] at next
    obtain ⟨rfl,rfl⟩ := next
    rw [pc, seen] at at_
    refine .run ?_
    simp only [SleepWakeup.instr, at_]
    exact ⟨_, rfl, ⟨rfl, rfl, chan⟩, .stay⟩
  | clearLocked c =>
    simp only [instr, pc, Option.some.injEq, Prod.mk.injEq] at next
    obtain ⟨rfl,rfl⟩ := next
    rw [pc, seen] at at_
    refine .run ?_
    simp only [SleepWakeup.instr, at_, if_neg (apart c)]
    exact ⟨_, rfl, ⟨rfl, state, chan⟩, .unlock c⟩
  | acquire c | sleepLock c | relAcquire c | wakeLock c =>
    simp only [instr, pc, Option.some.injEq, Prod.mk.injEq] at next
    obtain ⟨rfl,rfl⟩ := next
    rw [pc, seen] at at_
    refine .run ?_
    simp only [SleepWakeup.instr, at_]
    exact ⟨_, rfl, ⟨rfl, state, chan⟩, .acquire _⟩
  | unlock c | sched c | unlockTable c | leave c | wakeUnlock c | relLeave c =>
    simp only [instr, pc, Option.some.injEq, Prod.mk.injEq] at next
    obtain ⟨rfl,rfl⟩ := next
    rw [pc, seen] at at_
    refine .run ?_
    simp only [SleepWakeup.instr, at_]
    exact ⟨_, rfl, ⟨rfl, state, chan⟩, .release _⟩
  | setLocked c =>
    simp only [instr, pc, Option.some.injEq, Prod.mk.injEq] at next
    obtain ⟨rfl,rfl⟩ := next
    rw [pc, seen] at at_
    exact .take c at_ ⟨rfl, state, chan⟩
  | setPid c | clearPid c | holdAcquire c | holdRead c | holdLeave c r | killLock v
  | killUnlock r =>
    simp only [instr, pc, Option.some.injEq, Prod.mk.injEq] at next
    obtain ⟨rfl,rfl⟩ := next
    rw [pc, seen] at at_
    exact .stutter ⟨at_, state, chan⟩ (fun _ => rfl) ⟨fun _ _ wrong => (by cases wrong),
      fun _ wrong => (by cases wrong)⟩
  | killScan v k =>
    rw [pc, seen] at at_
    simp only [instr, pc] at next
    split at next
    · next inside =>
      split at next
      · cases next
        exact .kill k inside (show holds (s.proc p).toPoint .ptable by simp [holds, pc]) at_ rfl
      · cases next
        exact .stutter ⟨at_, state, chan⟩ (fun _ => rfl) ⟨fun _ _ wrong => (by cases wrong),
          fun _ wrong => (by cases wrong)⟩
    · cases next
      exact .stutter ⟨at_, state, chan⟩ (fun _ => rfl) ⟨fun _ _ wrong => (by cases wrong),
        fun _ wrong => (by cases wrong)⟩

theorem agrees_rouse {m : SleepWakeup.Local C} (agrees : Agrees m l) (c : C) :
    Agrees (SleepWakeup.rouse c m) (rouse c l) := by
  obtain ⟨pc,state,chan⟩ := agrees
  unfold SleepWakeup.rouse rouse
  by_cases asleep : l.state = .sleeping ∧ l.chan = some c
  · rw [if_pos asleep, if_pos (by rw [state, chan]; exact asleep)]
    exact ⟨pc, rfl, chan⟩
  · rw [if_neg asleep, if_neg (by rw [state, chan]; exact asleep)]
    exact ⟨pc, state, chan⟩

theorem matched_step (good : Good pid s) (heard : SleepWakeup.Heard guard u) (sees : Sees s u)
    {b : SleepWakeup.Act C C} {m : SleepWakeup.Local C}
    (done : perform pid s p l a = some t) (agrees : Agrees m l) (same : Matches a b) :
    ∃ u', SleepWakeup.perform u p m b = some u' ∧ Sees t u' := by
  have procs := agrees_update (p := p) (fun q _ => sees.proc q) agrees
  cases same with
  | acquire k =>
    simp only [perform, Option.ite_none_right_eq_some, Option.some.injEq] at done
    obtain ⟨free,rfl⟩ := done
    exact ⟨_, if_pos (free_seen good heard sees free), procs, sees.cond⟩
  | stay | release k | issue c =>
    cases done
    exact ⟨_, rfl, procs, sees.cond⟩
  | unlock c =>
    cases done
    refine ⟨_, rfl, procs, fun d => ?_⟩
    by_cases this : d = c
    · subst this
      simp
    · simp [this, sees.cond d]
  | rouse c k =>
    cases done
    refine ⟨_, rfl, agrees_update (fun q _ => ?_) agrees, sees.cond⟩
    simp only [State.change]
    split
    · exact agrees_rouse (sees.proc q) c
    · exact sees.proc q

theorem kill_seen (sees : Sees s u) {k : Nat} (inside : k < n) (idle : (u.proc p).pc = .idle)
    (here : seen l.pc = .idle)
    (free : u.owner .ptable = none) (done : perform pid s p l (.kill k) = some t) :
    ∃ u', SleepWakeup.step guard u (.kill ⟨k, inside⟩) = some u' ∧ Sees t u' := by
  cases done
  refine ⟨_, if_pos free, agrees_moved (g := (s.change k slay).proc) (fun q => ?_) ?_, sees.cond⟩
  · obtain ⟨pc,state,chan⟩ := sees.proc q
    simp only [SleepWakeup.State.put, State.change]
    by_cases this : q = ⟨k, inside⟩
    · subst this
      rw [Function.update_self, if_pos rfl]
      refine ⟨pc, ?_, chan⟩
      simp only [slay, state]
    · rw [Function.update_of_ne this, if_neg fun same => this (Fin.ext same)]
      exact ⟨pc, state, chan⟩
  · -- the killer's own place is none that the smaller system sees
    obtain ⟨pc,state,chan⟩ := sees.proc p
    simp only [SleepWakeup.State.put, State.change]
    by_cases this : p = ⟨k, inside⟩
    · subst this
      rw [Function.update_self, if_pos rfl]
      refine ⟨idle.trans here.symm, ?_, chan⟩
      simp only [slay, state]
    · rw [Function.update_of_ne this, if_neg fun same => this (Fin.ext same)]
      exact ⟨idle.trans here.symm, state, chan⟩

theorem stutter_seen (sees : Sees s u) (next : instr pid s.locked s.lpid p (s.proc p) = some (a, l))
    (done : perform pid s p l a = some t)
    (agrees : Agrees (u.proc p) l) (locks : ∀ f : C → Bool, lockedAfter f a = f)
    (processes : (∀ c k, a ≠ .rouse c k) ∧ ∀ k, a ≠ .kill k) :
    Sees t u := by
  have proc : t.proc = Function.update s.proc p l := by
    cases a with
    | rouse c k => exact absurd rfl (processes.1 c k)
    | kill k => exact absurd rfl (processes.2 k)
    | acquire k =>
      simp only [perform, Option.ite_none_right_eq_some, Option.some.injEq] at done
      obtain ⟨-,rfl⟩ := done
      rfl
    | _ =>
      cases done
      rfl
  refine ⟨?_, ?_⟩
  · rw [proc]
    exact agrees_moved sees.proc agrees
  · rw [(perform_outcome next done).locked, locks]
    exact sees.cond

theorem step_seen {e : Event n C} (good : Good pid s) (heard : SleepWakeup.Heard guard u)
    (sees : Sees s u) (move : step pid s e = some t) :
    ∃ u', (u' = u ∨ ∃ e', SleepWakeup.step guard u e' = some u') ∧ Sees t u' := by
  have call : ∀ p pc, s.call p pc = some t → (u.proc p).pc = .idle ∧
      t = s.put p { s.proc p with pc := pc } := by
    intro p pc called
    simp only [State.call, Option.ite_none_right_eq_some, Option.some.injEq] at called
    obtain ⟨idle,rfl⟩ := called
    exact ⟨(sees.proc p).1.trans (by rw [idle]; rfl), rfl⟩
  cases e with
  | acquiresleep p c =>
    obtain ⟨idle,rfl⟩ := call p _ move
    exact ⟨_, .inr ⟨.wait p c, if_pos idle⟩,
      agrees_update (fun q _ => sees.proc q) ⟨rfl, (sees.proc p).2⟩, sees.cond⟩
  | releasesleep p c =>
    simp only [step, Option.ite_none_right_eq_some] at move
    obtain ⟨idle,rfl⟩ := call p _ move.2
    exact ⟨_, .inr ⟨.wake p c, if_pos idle⟩,
      agrees_update (fun q _ => sees.proc q) ⟨rfl, (sees.proc p).2⟩, sees.cond⟩
  | holdingsleep p c | kill p v =>
    obtain ⟨idle,rfl⟩ := call p _ move
    exact ⟨u, .inl rfl, agrees_moved sees.proc ⟨idle, (sees.proc p).2⟩, sees.cond⟩
  | run p =>
    obtain ⟨⟨a,l⟩,next,done⟩ := Option.bind_eq_some_iff.mp move
    cases instr_mirror sees next with
    | stutter agrees locks processes =>
      exact ⟨u, .inl rfl, stutter_seen sees next done agrees locks processes⟩
    | run matched =>
      obtain ⟨r,instr,agrees,same⟩ := matched
      obtain ⟨u',performed,sees'⟩ := matched_step good heard sees done agrees same
      exact ⟨u', .inr ⟨.run p, by simp only [SleepWakeup.step, instr]; exact performed⟩, sees'⟩
    | take c pc agrees =>
      cases done
      refine ⟨_, .inr ⟨.finish p c false, if_pos pc⟩, agrees_update (fun q _ => sees.proc q) agrees,
        fun d => ?_⟩
      by_cases this : d = c
      · subst this
        simp
      · simp [this, sees.cond d]
    | kill k inside table idle here =>
      have free : u.owner .ptable = none := by
        cases owner : u.owner .ptable with
        | none => rfl
        | some q =>
          have held := (heard.owned q .ptable).mpr owner
          cases owned_exclusive good.owned (holds_seen (x := s.points q) (sees.proc q).1 held) table
          simp [SleepWakeup.holds, idle] at held
      obtain ⟨u',performed,sees'⟩ := kill_seen sees inside idle here free done
      exact ⟨u', .inr ⟨_, performed⟩, sees'⟩

def Sound (pid : Fin n ↪ Nat) (s : State n C) : Prop :=
  Good pid s ∧ ∃ u, SleepWakeup.Heard guard u ∧ SleepWakeup.Justified guard u ∧ Sees s u

theorem sound_step {e : Event n C} (sound : Sound pid s) (move : step pid s e = some t) :
    Sound pid t := by
  obtain ⟨good,u,heard,just,sees⟩ := sound
  obtain ⟨u',rfl | ⟨e',along⟩,sees'⟩ := step_seen good heard sees move
  · exact ⟨good_step good move, u', heard, just, sees'⟩
  · exact ⟨good_step good move, u', SleepWakeup.heard_keeps heard along,
      SleepWakeup.justified_step just heard along, sees'⟩

omit [DecidableEq C] in
theorem sound_start (pid : Fin n ↪ Nat) : Sound pid (start n C) := by
  refine ⟨good_start pid, SleepWakeup.start n C C fun _ => true, SleepWakeup.heard_start _, ?_,
    fun _ => ⟨rfl, rfl, rfl⟩, fun _ => rfl⟩
  constructor <;> simp [SleepWakeup.start, SleepWakeup.Drowsy, SleepWakeup.Waits]

omit [DecidableEq C] in
theorem Sound.awake (sound : Sound pid s) {c : C} (free : s.owner (.other c) = none)
    (unlocked : s.locked c = false) (p : Fin n) :
    ¬ ((s.proc p).state = .sleeping ∧ (s.proc p).chan = some c) := by
  obtain ⟨good,u,heard,just,sees⟩ := sound
  rintro ⟨state,chan⟩
  obtain ⟨-,state',chan'⟩ := sees.proc p
  obtain no | ⟨q,pending⟩ := just.waits p c (.inl ⟨state'.trans state, chan'.trans chan⟩)
  · rw [sees.cond, unlocked] at no
    cases no
  · exact owned_free heard.owned (free_seen good heard sees free) q
      (SleepWakeup.holds_of_pending pending)

/-- Sleep locks exclude and wake: in every state of every run at most one process is inside a
    lock, holdingsleep answers exactly whether its caller is, and while the spinlock is free the
    fields name exactly the process inside, and nobody sleeps on the lock unless it is locked. -/
theorem sleep_locks_exclude_and_wake (pid : Fin n ↪ Nat) (es : List (Event n C)) (s : State n C)
    (run : exec (step pid) (start n C) es = some s) (c : C) :
    (∀ p q, Inside (s.points p) c → Inside (s.points q) c → p = q) ∧
    (∀ p r, (s.points p).pc = .holdLeave c r → (r = true ↔ Inside (s.points p) c)) ∧
    (s.owner (.other c) = none → ∀ p, (s.locked c && s.lpid c == pid p) = true ↔
      Inside (s.points p) c) ∧
    (s.owner (.other c) = none → s.locked c = false →
      ∀ p, ¬ ((s.proc p).state = .sleeping ∧ (s.proc p).chan = some c)) := by
  have sound : Sound pid s :=
    exec_invariant (Sound pid) (fun _ _ _ sound _ move => sound_step sound move) (sound_start pid)
    (along_trivial _ _) run
  refine ⟨fun p q => sound.1.exclusive, fun p r pc => ?_, fun free p =>
    sound.1.fields (fun q entry => ?_) p, fun free unlocked p => sound.awake free unlocked p⟩
  · rw [sound.1.answer p c r pc, inside_iff_has]
    · exact fun entry => (by cases entry.symm.trans pc)
    · exact fun leaves => (by cases leaves.symm.trans pc)
  · exact owned_free sound.1.owned free q (by simp [holds, entry])

end Simulation

def killedWaiter : List (Event 2 Unit) :=
  .acquiresleep 0 () :: List.replicate 5 (.run 0) ++ .acquiresleep 1 () :: List.replicate 7
    (.run 1) ++
    .kill 0 1 :: List.replicate 4 (.run 0) ++ List.replicate 5 (.run 1) ++ List.replicate 2
      (.run 1) ++
    .holdingsleep 0 () :: List.replicate 2 (.run 0)

theorem sleep_locks_exclude_and_wake_killed :
    ∃ s, exec (step ⟨Fin.val, fun _ _ => Fin.ext⟩) (start 2 Unit) killedWaiter = some s ∧
      (s.points 0).pc = .holdLeave () true ∧
      Inside (s.points 0) () ∧ ¬ Inside (s.points 1) () := by
  have final : (exec (step ⟨Fin.val, fun _ _ => Fin.ext⟩) (start 2 Unit) killedWaiter).map
    (fun s => ((s.points 0).pc, (s.points 1).pc)) =
      some (.holdLeave () true, .setChan ()) := by
    decide +kernel
  obtain ⟨s,run,ends⟩ := Option.map_eq_some_iff.mp final
  obtain ⟨reads,-⟩ := Prod.mk.inj ends
  obtain ⟨exclusive,answer,-⟩ := sleep_locks_exclude_and_wake _ killedWaiter s run ()
  have inside := (answer 0 true reads).mp rfl
  exact ⟨s, run, reads, inside, fun also => absurd (exclusive 0 1 inside also) (by decide)⟩

end SleepLock
