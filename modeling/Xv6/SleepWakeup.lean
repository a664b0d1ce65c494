import Xv6.Lib.LockOwner
import Xv6.Lib.RunLaws
import Xv6.Param

/- sleep, wakeup and sched of proc.c, one acquire, release or state change a step. Each channel
   has a condition and the spinlock `guard` that protects it, which may be ptable.lock itself.
   Sleepers run `while(!cond) sleep(chan, lk)` under the lock; wakers make the condition true
   and call wakeup(chan), or wakeup1(chan) where the lock is ptable.lock, which wakeup would
   acquire a second time. -/
namespace SleepWakeup
open Param LockOwner RunLaws

inductive Lock (L : Type) where
  | ptable
  | other (l : L)
  deriving DecidableEq, Repr

inductive Pc (C : Type) where
  | idle
  -- About to acquire the lock of the condition, on entry or at the end of sleep.
  | enter (c : C)
  | test (c : C)
  | inside (c : C)
  | sleepLock (c : C)
  | unlock (c : C)
  | setChan (c : C)
  | setState (c : C)
  | sched (c : C)
  | asleep (c : C)
  | tidy (c : C)
  | unlockTable (c : C)
  | wake (c : C)
  | assert (c : C)
  | wakeLock (c : C)
  -- In wakeup1's loop, with slot `k` next.
  | scan (c : C) (k : Nat)
  | wakeUnlock (c : C)
  | leave (c : C)
  deriving DecidableEq, Repr

/-- A process: its fields `state` and `chan`, and two notes, when it last gave up the lock of
    its condition inside sleep and when it last acquired one as a waker. -/
structure Local (C : Type) where
  pc : Pc C
  state : ProcState
  chan : Option C
  released : Option Nat
  acquired : Nat

inductive Act (C L : Type) where
  | stay
  | acquire (l : Lock L)
  | release (l : Lock L)
  | make (c : C)
  | rouse (c : C) (k : Nat)
  | issue (c : C)

/-- `issued` lists the completed wakeups: the channel, and when the caller acquired the lock
    it held. -/
structure State (n : Nat) (C L : Type) where
  proc : Fin n → Local C
  owner : Lock L → Option (Fin n)
  cond : C → Bool
  clock : Nat
  issued : List (C × Nat)

section
variable {n : Nat} {C L : Type} [DecidableEq C] [DecidableEq L] (guard : C → Lock L)

/-- The next instruction of a process among `n`, at time `now`. -/
def instr (n now : Nat) (cond : C → Bool) (l : Local C) : Option (Act C L × Local C) :=
  match l.pc with
  | .idle | .inside _ => none
  | .enter c => some (.acquire (guard c), { l with pc := .test c, released := none })
  | .test c =>
    some (.stay, { l with
      pc := if cond c then .inside c else if guard c = .ptable then .setChan c else .sleepLock c })
  | .sleepLock c => some (.acquire .ptable, { l with pc := .unlock c })
  | .unlock c => some (.release (guard c), { l with pc := .setChan c, released := some now })
  | .setChan c => some (.stay, { l with pc := .setState c, chan := some c })
  | .setState c => some (.stay, { l with pc := .sched c, state := .sleeping })
  | .sched c =>
    -- swtch to the scheduler, which releases ptable.lock
    some (.release .ptable, { l with
      pc := .asleep c
      released := if guard c = .ptable then some now else l.released })
  | .asleep c =>
    -- the scheduler acquires ptable.lock and switches back once the process is runnable
    if l.state = .runnable then
      some (.acquire .ptable, { l with
        pc := .tidy c, state := .running
        released := if guard c = .ptable then none else l.released })
    else none
  | .tidy c =>
    some (.stay, { l with
      chan := none
      pc := if guard c = .ptable then .test c else .unlockTable c })
  | .unlockTable c => some (.release .ptable, { l with pc := .enter c })
  | .wake c => some (.acquire (guard c), { l with pc := .assert c, acquired := now })
  | .assert c =>
    some (.make c, { l with pc := if guard c = .ptable then .scan c 0 else .wakeLock c })
  | .wakeLock c => some (.acquire .ptable, { l with pc := .scan c 0 })
  | .scan c k =>
    if k < n then some (.rouse c k, { l with pc := .scan c (k + 1) })
    else some (.issue c, { l with pc := if guard c = .ptable then .leave c else .wakeUnlock c })
  | .wakeUnlock c => some (.release .ptable, { l with pc := .leave c })
  | .leave c => some (.release (guard c), { l with pc := .idle })

/-- The body of wakeup1's loop. -/
def rouse (c : C) (l : Local C) : Local C :=
  if l.state = .sleeping ∧ l.chan = some c then { l with state := .runnable } else l

def State.put (s : State n C L) (p : Fin n) (l : Local C) : State n C L :=
  { s with proc := Function.update s.proc p l, clock := s.clock + 1 }

def perform (s : State n C L) (p : Fin n) (l : Local C) : Act C L → Option (State n C L)
  | .stay => some (s.put p l)
  | .acquire k =>
    if s.owner k = none then some { s.put p l with owner := Function.update s.owner k (some p) }
    else none
  | .release k => some { s.put p l with owner := Function.update s.owner k none }
  | .make c => some { s.put p l with cond := Function.update s.cond c true }
  | .rouse c k =>
    some ({ s with proc := fun q => if q.val = k then rouse c (s.proc q) else s.proc q }.put p l)
  | .issue c => some { s.put p l with issued := (c, (s.proc p).acquired) :: s.issued }

inductive Event (n : Nat) (C : Type) where
  | wait (p : Fin n) (c : C)
  | wake (p : Fin n) (c : C)
  | run (p : Fin n)
  -- A process that saw its condition true leaves, having set the condition to `b`.
  | finish (p : Fin n) (c : C) (b : Bool)
  | kill (p : Fin n)

def step (s : State n C L) : Event n C → Option (State n C L)
  | .wait p c =>
    if (s.proc p).pc = .idle then some (s.put p { s.proc p with pc := .enter c }) else none
  | .wake p c =>
    if (s.proc p).pc = .idle then some (s.put p { s.proc p with pc := .wake c }) else none
  | .run p =>
    match instr guard n s.clock s.cond (s.proc p) with
    | some (a, l) => perform s p l a
    | none => none
  | .finish p c b =>
    if (s.proc p).pc = .inside c then
      some { s.put p { s.proc p with pc := .leave c } with cond := Function.update s.cond c b }
    else none
  | .kill p =>
    if s.owner .ptable = none then
      some (s.put p { s.proc p with
        state := if (s.proc p).state = .sleeping then .runnable else (s.proc p).state })
    else none

def start (n : Nat) (C L : Type) (cond : C → Bool) : State n C L where
  proc _ := ⟨.idle, .running, none, none, 0⟩
  owner _ := none
  cond := cond
  clock := 0
  issued := []

def Waits (l : Local C) (c : C) : Prop :=
  l.state = .sleeping ∧ l.chan = some c ∨ l.pc = .setChan c ∨ l.pc = .setState c

def holds (l : Local C) (k : Lock L) : Prop :=
  match l.pc with
  | .test c | .inside c | .sleepLock c | .assert c | .wakeLock c | .leave c => k = guard c
  | .unlock c | .scan c _ | .wakeUnlock c => k = .ptable ∨ k = guard c
  | .setChan _ | .setState _ | .sched _ | .tidy _ | .unlockTable _ => k = .ptable
  | .idle | .enter _ | .asleep _ | .wake _ => False

def Facts (l : Local C) : Prop :=
  match l.pc with
  | .sched c => l.state = .sleeping ∧ l.chan = some c ∧ (guard c = .ptable → l.released = none)
  | .asleep c => (l.state = .sleeping ∨ l.state = .runnable) ∧ l.chan = some c
  | .setState c => l.state = .running ∧ l.chan = some c ∧ (guard c = .ptable → l.released = none)
  | .setChan c | .tidy c => l.state = .running ∧ (guard c = .ptable → l.released = none)
  | .test _ => l.state = .running ∧ l.released = none
  | .sleepLock c | .unlock c | .unlockTable c | .wakeLock c | .wakeUnlock c =>
    l.state = .running ∧ guard c ≠ .ptable
  | _ => l.state = .running

end

section
variable {n : Nat} {C L : Type} [DecidableEq C] [DecidableEq L] {guard : C → Lock L}

def Holdings (guard : C → Lock L) (l l' : Local C) : Act C L → Prop
  | .acquire k => ∀ m, holds guard l' m ↔ m = k ∨ holds guard l m
  | .release k => holds guard l k ∧ ∀ m, holds guard l' m ↔ m ≠ k ∧ holds guard l m
  | _ => ∀ m, holds guard l' m ↔ holds guard l m

/-- What one instruction does, whichever it is. A process begins to wait only while it holds
    ptable.lock, and if it has given up its lock it has done so just now. -/
structure Effect (guard : C → Lock L) (n now : Nat) (l : Local C) (a : Act C L) (l' : Local C) :
    Prop where
  facts : Facts guard l'
  holdings : Holdings guard l l' a
  waits : ∀ c, Waits l' c → Waits l c ∧ l'.released = l.released ∨
    holds guard l .ptable ∧ ∀ r, l'.released = some r → r = now
  scan : ∀ c k, l'.pc = .scan c k → k = 0 ∨ ∃ j, k = j + 1 ∧ a = .rouse c j
  rouse : ∀ c k, a = .rouse c k → l.pc = .scan c k
  issue : ∀ c, a = .issue c → ∃ k, l.pc = .scan c k ∧ n ≤ k
  acquired : l'.acquired = l.acquired ∨ l'.acquired = now

variable {cond : C → Bool} {l l' : Local C} {a : Act C L}

omit [DecidableEq C] in
theorem instr_effect {now : Nat}
    (facts : Facts guard l) (next : instr guard n now cond l = some (a, l')) :
    Effect guard n now l a l' := by
  cases pc : l.pc with
  | idle | inside => simp [instr, pc] at next
  | asleep c =>
    simp only [instr, pc, Option.ite_none_right_eq_some, Option.some.injEq, Prod.mk.injEq] at next
    obtain ⟨-,rfl,rfl⟩ := next
    constructor <;> simp_all +contextual [Facts, Holdings, holds, Waits]
  | scan c k =>
    simp only [Facts, pc] at facts
    simp only [instr, pc] at next
    split at next
    · cases next
      constructor <;> simp_all [Facts, Holdings, holds, Waits]
    · cases next
      by_cases table : guard c = .ptable <;> constructor <;>
        simp_all [Facts, Holdings, holds, Waits]
  | test c =>
    simp only [Facts, pc] at facts
    simp only [instr, pc, Option.some.injEq, Prod.mk.injEq] at next
    obtain ⟨rfl,rfl⟩ := next
    cases cond c <;> by_cases table : guard c = .ptable <;> constructor <;>
      simp_all [Facts, Holdings, holds, Waits]
  | tidy c | assert c =>
    simp only [Facts, pc] at facts
    simp only [instr, pc, Option.some.injEq, Prod.mk.injEq] at next
    obtain ⟨rfl,rfl⟩ := next
    by_cases table : guard c = .ptable <;> constructor <;>
      simp_all [Facts, Holdings, holds, Waits]
  | unlock c | wakeUnlock c =>
    simp only [Facts, pc] at facts
    simp only [instr, pc, Option.some.injEq, Prod.mk.injEq] at next
    obtain ⟨rfl,rfl⟩ := next
    constructor
    case holdings =>
      simp only [Holdings, holds, pc]
      grind
    all_goals simp_all [Facts, holds, Waits]
  | sched c =>
    simp only [Facts, pc] at facts
    simp only [instr, pc, Option.some.injEq, Prod.mk.injEq] at next
    obtain ⟨rfl,rfl⟩ := next
    by_cases table : guard c = .ptable <;> constructor <;>
      simp_all [Facts, Holdings, holds, Waits]
  | _ =>
    simp only [Facts, pc] at facts
    simp only [instr, pc, Option.some.injEq, Prod.mk.injEq] at next
    obtain ⟨rfl,rfl⟩ := next
    constructor <;> simp_all [Facts, Holdings, holds, Waits]

def Drowsy (guard : C → Lock L) (l : Local C) (c : C) : Prop :=
  l.pc = .sleepLock c ∨ l.pc = .unlock c ∨
    guard c = .ptable ∧ (l.pc = .setChan c ∨ l.pc = .setState c ∨ l.pc = .sched c)

def Pending (l : Local C) (c : C) (k : Nat) : Prop :=
  l.pc = .wakeLock c ∨ ∃ j, j ≤ k ∧ l.pc = .scan c j

variable {c : C}

omit [DecidableEq C] [DecidableEq L] in
theorem holds_of_drowsy (drowsy : Drowsy guard l c) :
    holds guard l (guard c) := by
  obtain pc | pc | ⟨table,pc | pc | pc⟩ := drowsy <;> simp_all [holds]

omit [DecidableEq C] [DecidableEq L] in
theorem holds_of_pending {k : Nat} (pending : Pending l c k) :
    holds guard l (guard c) := by
  obtain pc | ⟨j,-,pc⟩ := pending <;> simp [holds, pc]

structure Reads (guard : C → Lock L) (cond : C → Bool) (l : Local C) (a : Act C L) (l' : Local C) :
    Prop where
  inside : ∀ c, l'.pc = .inside c → l.pc = .inside c ∨ cond c = true
  drowsy : ∀ c, Drowsy guard l' c → Drowsy guard l c ∨ cond c = false
  waits : ∀ c, Waits l' c → Waits l c ∨ Drowsy guard l c ∨ cond c = false
  pending : ∀ c k, Pending l c k → Pending l' c k ∨ l'.pc = .scan c (k + 1) ∨
    ∃ j, a = .issue c ∧ l.pc = .scan c j ∧ j ≤ k

omit [DecidableEq C] in
theorem instr_reads {now : Nat}
    (facts : Facts guard l) (next : instr guard n now cond l = some (a, l')) :
    Reads guard cond l a l' := by
  cases pc : l.pc with
  | idle | inside => simp [instr, pc] at next
  | asleep c =>
    simp only [instr, pc, Option.ite_none_right_eq_some, Option.some.injEq, Prod.mk.injEq] at next
    obtain ⟨-,rfl,rfl⟩ := next
    constructor <;> simp [Drowsy, Waits, Pending, pc]
  | scan c k =>
    simp only [Facts, pc] at facts
    simp only [instr, pc] at next
    split at next
    · cases next
      constructor <;> simp [Drowsy, Waits, Pending, pc, facts]
      grind
    · cases next
      by_cases table : guard c = .ptable <;> constructor <;>
        simp_all [Drowsy, Waits, Pending]
  | test c =>
    simp only [Facts, pc] at facts
    simp only [instr, pc, Option.some.injEq, Prod.mk.injEq] at next
    obtain ⟨rfl,rfl⟩ := next
    cases value : cond c <;> by_cases table : guard c = .ptable <;> constructor <;>
      simp_all [Drowsy, Waits, Pending]
    intro d _ same
    exact same ▸ value
  | tidy c | assert c | sched c =>
    simp only [Facts, pc] at facts
    simp only [instr, pc, Option.some.injEq, Prod.mk.injEq] at next
    obtain ⟨rfl,rfl⟩ := next
    by_cases table : guard c = .ptable <;> constructor <;>
      simp_all [Drowsy, Waits, Pending]
  | _ =>
    simp only [Facts, pc] at facts
    simp only [instr, pc, Option.some.injEq, Prod.mk.injEq] at next
    obtain ⟨rfl,rfl⟩ := next
    constructor <;> simp_all [Drowsy, Waits, Pending]

inductive Writes (l : Local C) (c : C) : Bool → Local C → Prop
  | make {l' : Local C} (before : l.pc = .assert c) (running : l'.state = .running)
      (after : l'.pc = .wakeLock c ∨ l'.pc = .scan c 0) : Writes l c true l'
  | leave {b : Bool} {l' : Local C} (before : l.pc = .inside c) (running : l'.state = .running)
      (after : l'.pc = .leave c) : Writes l c b l'

omit [DecidableEq C] in
theorem instr_writes {now : Nat}
    (facts : Facts guard l) (next : instr guard n now cond l = some (.make c, l')) :
    Writes l c true l' := by
  cases pc : l.pc with
  | assert d =>
    simp only [Facts, pc] at facts
    simp only [instr, pc, Option.some.injEq, Prod.mk.injEq, Act.make.injEq] at next
    obtain ⟨rfl,rfl⟩ := next
    refine .make pc facts ?_
    by_cases table : guard d = .ptable <;> simp [table]
  | scan d k =>
    simp only [instr, pc] at next
    split at next <;> cases next
  | asleep d => simp [instr, pc] at next
  | _ => simp [instr, pc] at next

def Outcome (s : State n C L) (p : Fin n) (l : Local C) (t : State n C L) : Act C L → Prop
  | .acquire k => s.owner k = none ∧ t.owner = Function.update s.owner k (some p) ∧
      t.proc = Function.update s.proc p l ∧ t.issued = s.issued
  | .release k => t.owner = Function.update s.owner k none ∧
      t.proc = Function.update s.proc p l ∧ t.issued = s.issued
  | .rouse c k => t.owner = s.owner ∧ t.proc = Function.update
      (fun q => if q.val = k then rouse c (s.proc q) else s.proc q) p l ∧ t.issued = s.issued
  | .issue c => t.owner = s.owner ∧ t.proc = Function.update s.proc p l ∧
      t.issued = (c, (s.proc p).acquired) :: s.issued
  | _ => t.owner = s.owner ∧ t.proc = Function.update s.proc p l ∧ t.issued = s.issued

variable {s t : State n C L} {p : Fin n}

theorem perform_outcome (done : perform s p l a = some t) :
    t.clock = s.clock + 1 ∧ Outcome s p l t a := by
  cases a with
  | acquire k =>
    simp only [perform, Option.ite_none_right_eq_some, Option.some.injEq] at done
    obtain ⟨free,rfl⟩ := done
    exact ⟨rfl, free, rfl, rfl, rfl⟩
  | _ => cases done; exact ⟨rfl, rfl, rfl, rfl⟩

def Conditions (guard : C → Lock L) (s : State n C L) (p : Fin n) (l : Local C)
    (t : State n C L) (a : Act C L) : Prop :=
  Reads guard s.cond (s.proc p) a l ∧ t.cond = s.cond ∨
    ∃ c b, Writes (s.proc p) c b l ∧ t.cond = Function.update s.cond c b ∧
      t.proc = Function.update s.proc p l

theorem perform_conditions (facts : Facts guard (s.proc p))
    (next : instr guard n s.clock s.cond (s.proc p) = some (a, l))
    (done : perform s p l a = some t) : Conditions guard s p l t a := by
  cases a with
  | make c =>
    cases done
    exact .inr ⟨c, true, instr_writes facts next, rfl, rfl⟩
  | acquire k =>
    simp only [perform, Option.ite_none_right_eq_some, Option.some.injEq] at done
    obtain ⟨-,rfl⟩ := done
    exact .inl ⟨instr_reads facts next, rfl⟩
  | _ => cases done; exact .inl ⟨instr_reads facts next, rfl⟩

variable {e : Event n C}

theorem step_effect (facts : ∀ p, Facts guard (s.proc p))
    (owned : Owned (holds guard) s.owner s.proc) (move : step guard s e = some t) :
    t.clock = s.clock + 1 ∧ ∃ p a l, Effect guard n s.clock (s.proc p) a l ∧
      Outcome s p l t a ∧ Conditions guard s p l t a := by
  cases e with
  | run p =>
    simp only [step] at move
    split at move
    · next a l next =>
      obtain ⟨clock,outcome⟩ := perform_outcome move
      exact ⟨clock, p, a, l, instr_effect (facts p) next, outcome,
        perform_conditions (facts p) next move⟩
    · cases move
  | wait p c | wake p c =>
    simp only [step, Option.ite_none_right_eq_some, Option.some.injEq] at move
    obtain ⟨pc,rfl⟩ := move
    have running := facts p
    simp only [Facts, pc] at running
    refine ⟨rfl, p, .stay, _, ?_, ⟨rfl, rfl, rfl⟩, .inl ⟨?_, rfl⟩⟩
    · constructor <;> simp [Facts, Holdings, holds, Waits, pc, running]
    · constructor <;> simp [Drowsy, Waits, Pending, pc, running]
  | finish p c b =>
    simp only [step, Option.ite_none_right_eq_some, Option.some.injEq] at move
    obtain ⟨pc,rfl⟩ := move
    have running := facts p
    simp only [Facts, pc] at running
    refine ⟨rfl, p, .stay, _, ?_, ⟨rfl, rfl, rfl⟩, .inr ⟨c, b, .leave pc running rfl, rfl, rfl⟩⟩
    constructor <;> simp [Facts, Holdings, holds, Waits, pc, running]
  | kill p =>
    simp only [step, Option.ite_none_right_eq_some, Option.some.injEq] at move
    obtain ⟨free,rfl⟩ := move
    have before := facts p
    have out := owned_free owned free p
    have waits : ∀ c, Waits { s.proc p with
        state := if (s.proc p).state = .sleeping then .runnable else (s.proc p).state } c →
          Waits (s.proc p) c := by
      intro c
      simp only [Waits]
      grind
    refine ⟨rfl, p, .stay, _, ?_, ⟨rfl, rfl, rfl⟩, .inl ⟨?_, rfl⟩⟩
    · constructor
      case facts =>
        cases pc : (s.proc p).pc <;> simp_all [Facts, holds]
        all_goals grind
      case waits => exact fun c waiting => .inl ⟨waits c waiting, rfl⟩
      case scan =>
        intro c k pc
        exact absurd (show holds guard (s.proc p) .ptable by simp [holds,
          show (s.proc p).pc = _ from pc]) out
      all_goals simp [Holdings, holds]
    · constructor
      case waits => exact fun c waiting => .inl (waits c waiting)
      case inside => exact fun c pc => .inl pc
      case drowsy => exact fun c drowsy => .inl drowsy
      case pending => exact fun c k pending => .inl pending

theorem rouse_pc (c : C) (l : Local C) : (rouse c l).pc = l.pc := by
  unfold rouse
  split <;> rfl

theorem waits_of_rouse {d : C} (waits : Waits (rouse c l) d) : Waits l d := by
  unfold rouse at waits
  split at waits
  · obtain ⟨state,-⟩ | window := waits
    · cases state
    · exact .inr window
  · exact waits

omit [DecidableEq C] [DecidableEq L] in
theorem holds_table_of_window (window : l.pc = .setChan c ∨ l.pc = .setState c) :
    holds guard l .ptable := by
  obtain pc | pc := window <;> simp [holds, pc]

omit [DecidableEq L] in
theorem not_waits_rouse (out : ¬ holds guard l .ptable) :
    ¬ Waits (rouse c l) c := by
  rintro (asleep | window)
  · unfold rouse at asleep
    split at asleep
    · cases asleep.1
    · next awake => exact awake asleep
  · rw [rouse_pc] at window
    exact out (holds_table_of_window window)

omit [DecidableEq L] in
theorem facts_rouse (out : ¬ holds guard l .ptable) (facts : Facts guard l) :
    Facts guard (rouse c l) := by
  unfold rouse
  split
  · next asleep =>
    cases pc : l.pc <;> simp_all [Facts, holds]
  · exact facts

theorem outcome_others (outcome : Outcome s p l t a) :
    t.proc p = l ∧ ∀ q, q ≠ p → t.proc q = s.proc q ∧ (∀ c, a ≠ .rouse c q.val) ∨
      ∃ c, a = .rouse c q.val ∧ t.proc q = rouse c (s.proc q) := by
  have plain : t.proc = Function.update s.proc p l → (∀ q : Fin n, ∀ c, a ≠ .rouse c q.val) →
      t.proc p = l ∧ ∀ q, q ≠ p → t.proc q = s.proc q ∧ (∀ c, a ≠ .rouse c q.val) ∨
        ∃ c, a = .rouse c q.val ∧ t.proc q = rouse c (s.proc q) := by
    intro same quiet
    rw [same]
    exact ⟨Function.update_self .., fun q ne => .inl ⟨Function.update_of_ne ne .., quiet q⟩⟩
  cases a with
  | acquire k => exact plain outcome.2.2.1 (by simp)
  | release k => exact plain outcome.2.1 (by simp)
  | issue c => exact plain outcome.2.1 (by simp)
  | stay => exact plain outcome.2.1 (by simp)
  | make c => exact plain outcome.2.1 (by simp)
  | rouse c k =>
    rw [outcome.2.1]
    refine ⟨Function.update_self .., fun q ne => ?_⟩
    rw [Function.update_of_ne ne]
    by_cases this : q.val = k
    · subst this
      exact .inr ⟨c, rfl, if_pos rfl⟩
    · refine .inl ⟨if_neg this, fun d same => ?_⟩
      cases same
      exact this rfl

theorem outcome_owned (owned : Owned (holds guard) s.owner s.proc)
    (holdings : Holdings guard (s.proc p) l a)
    (outcome : Outcome s p l t a) : Owned (holds guard) t.owner t.proc := by
  cases a with
  | acquire k =>
    obtain ⟨free,owner,proc,-⟩ := outcome
    rw [owner, proc]
    exact owned_acquire owned free holdings
  | release k =>
    obtain ⟨owner,proc,-⟩ := outcome
    rw [owner, proc]
    exact owned_release owned holdings.1 holdings.2
  | rouse c k =>
    obtain ⟨owner,proc,-⟩ := outcome
    rw [owner, proc]
    refine owned_move (fun q m => ?_) fun m => ?_
    · rw [← owned q m]
      split
      · simp only [holds, rouse_pc]
      · rfl
    · rw [holdings m]
      split
      · simp only [holds, rouse_pc]
      · rfl
  | issue c | stay | make c =>
    obtain ⟨owner,proc,-⟩ := outcome
    rw [owner, proc]
    exact owned_move owned holdings

/-- `scanned` is wakeup1's loop invariant; `heard` is the result: no completed wakeup of a
    caller that acquired the lock later than the waiting process gave it up. -/
structure Heard (guard : C → Lock L) (s : State n C L) : Prop where
  facts : ∀ p, Facts guard (s.proc p)
  owned : Owned (holds guard) s.owner s.proc
  acquired : ∀ p, (s.proc p).acquired ≤ s.clock
  issued : ∀ c a, (c, a) ∈ s.issued → a ≤ s.clock
  scanned : ∀ q c k, (s.proc q).pc = .scan c k → ∀ p : Fin n, p.val < k → ¬ Waits (s.proc p) c
  heard : ∀ p c r a, Waits (s.proc p) c → (s.proc p).released = some r →
    (c, a) ∈ s.issued → a ≤ r

omit [DecidableEq C] [DecidableEq L] in
theorem holds_table_of_scan {k : Nat} (pc : l.pc = .scan c k) :
    holds guard l .ptable := by
  simp [holds, pc]

section
variable {s t : State n C L} {p : Fin n} {l : Local C} {a : Act C L}

omit [DecidableEq C] [DecidableEq L] in
theorem out_of_table (owned : Owned (holds guard) s.owner s.proc)
    (effect : Effect guard n s.clock (s.proc p) a l) {q : Fin n} {c : C} {k : Nat} (ne : q ≠ p)
    (act : a = .rouse c k) : ¬ holds guard (s.proc q) .ptable := by
  intro held
  exact ne (owned_exclusive owned held (holds_table_of_scan (effect.rouse c k act)))

theorem waits_before (effect : Effect guard n s.clock (s.proc p) a l) (outcome : Outcome s p l t a)
    {q : Fin n} {c : C} (waits : Waits (t.proc q) c) :
    Waits (s.proc q) c ∧ (t.proc q).released = (s.proc q).released ∨
      q = p ∧ holds guard (s.proc p) .ptable ∧ ∀ r, (t.proc q).released = some r → r = s.clock := by
  obtain ⟨mine,others⟩ := outcome_others outcome
  by_cases same : q = p
  · subst same
    rw [mine] at waits ⊢
    exact (effect.waits c waits).imp_right fun now => ⟨rfl,now⟩
  · obtain ⟨unchanged,-⟩ | ⟨d,-,roused⟩ := others q same
    · rw [unchanged] at waits ⊢
      exact .inl ⟨waits,rfl⟩
    · rw [roused] at waits ⊢
      refine .inl ⟨waits_of_rouse waits, ?_⟩
      unfold rouse
      split <;> rfl

theorem facts_step (heard : Heard guard s) (effect : Effect guard n s.clock (s.proc p) a l)
    (outcome : Outcome s p l t a) (q : Fin n) : Facts guard (t.proc q) := by
  obtain ⟨mine,others⟩ := outcome_others outcome
  by_cases same : q = p
  · subst same
    rw [mine]
    exact effect.facts
  · obtain ⟨unchanged,-⟩ | ⟨c,act,roused⟩ := others q same
    · rw [unchanged]
      exact heard.facts q
    · rw [roused]
      exact facts_rouse (out_of_table heard.owned effect same act) (heard.facts q)

theorem scanned_step (heard : Heard guard s) (effect : Effect guard n s.clock (s.proc p) a l)
    (outcome : Outcome s p l t a) (q : Fin n) (c : C) (k : Nat)
    (pc : (t.proc q).pc = .scan c k) (r : Fin n) (passed : r.val < k) :
    ¬ Waits (t.proc r) c := by
  intro waits
  obtain ⟨mine,others⟩ := outcome_others outcome
  by_cases same : q = p
  · -- the scan of the acting process has just moved on by one slot
    subst same
    rw [mine] at pc
    obtain rfl | ⟨j,rfl,act⟩ := effect.scan c k pc
    · omega
    · have scanning := effect.rouse c j act
      obtain ⟨before,-⟩ | ⟨rfl,-⟩ := waits_before effect outcome waits
      · by_cases this : r.val = j
        · have ne : r ≠ q := by
            rintro rfl
            have running := heard.facts r
            simp only [Facts, scanning] at running
            simp [Waits, running, scanning] at before
          obtain ⟨-,quiet⟩ | ⟨d,act',roused⟩ := others r ne
          · exact quiet c (this ▸ act)
          · cases act.symm.trans act'
            rw [roused] at waits
            exact not_waits_rouse (out_of_table heard.owned effect ne act) waits
        · exact heard.scanned q c j scanning r (by omega) before
      · rw [mine] at waits
        have running := effect.facts
        simp only [Facts, pc] at running
        simp [Waits, running, pc] at waits
  · have scanning : (s.proc q).pc = .scan c k := by
      obtain ⟨unchanged,-⟩ | ⟨d,-,roused⟩ := others q same
      · rwa [unchanged] at pc
      · rwa [roused, rouse_pc] at pc
    obtain ⟨before,-⟩ | ⟨-,held,-⟩ := waits_before effect outcome waits
    · exact heard.scanned q c k scanning r passed before
    · exact same (owned_exclusive heard.owned (holds_table_of_scan scanning) held)

theorem heard_step (heard : Heard guard s) (effect : Effect guard n s.clock (s.proc p) a l)
    (outcome : Outcome s p l t a) (q : Fin n) (c : C) (r m : Nat) (waits : Waits (t.proc q) c)
    (released : (t.proc q).released = some r) (issued : (c, m) ∈ t.issued) : m ≤ r := by
  have old : (c, m) ∈ s.issued → m ≤ r := by
    intro before
    obtain ⟨waited,same⟩ | ⟨-,-,now⟩ := waits_before effect outcome waits
    · exact heard.heard q c r m waited (same ▸ released) before
    · rw [now r released]
      exact heard.issued c m before
  cases a with
  | issue d =>
    rw [outcome.2.2] at issued
    obtain new | before := List.mem_cons.mp issued
    · -- the scan has passed every slot, so nobody who waited before still does
      cases new
      obtain ⟨k,scanning,all⟩ := effect.issue c rfl
      obtain ⟨waited,-⟩ | ⟨-,-,now⟩ := waits_before effect outcome waits
      · exact absurd waited (heard.scanned p c k scanning q (by omega))
      · rw [now r released]
        exact heard.acquired p
    · exact old before
  | acquire k => exact old (outcome.2.2.2 ▸ issued)
  | release k => exact old (outcome.2.2 ▸ issued)
  | rouse d k => exact old (outcome.2.2 ▸ issued)
  | stay => exact old (outcome.2.2 ▸ issued)
  | make d => exact old (outcome.2.2 ▸ issued)

theorem times_step (heard : Heard guard s) (effect : Effect guard n s.clock (s.proc p) a l)
    (outcome : Outcome s p l t a) :
    (∀ q, (t.proc q).acquired ≤ s.clock) ∧ ∀ c m, (c, m) ∈ t.issued → m ≤ s.clock := by
  obtain ⟨mine,others⟩ := outcome_others outcome
  constructor
  · intro q
    have before := heard.acquired q
    by_cases same : q = p
    · subst same
      rw [mine]
      obtain old | now := effect.acquired <;> omega
    · obtain ⟨unchanged,-⟩ | ⟨d,-,roused⟩ := others q same
      · rwa [unchanged]
      · rw [roused]
        unfold rouse
        split <;> exact before
  · intro c m issued
    cases a with
    | issue d =>
      rw [outcome.2.2] at issued
      obtain new | before := List.mem_cons.mp issued
      · cases new
        exact heard.acquired p
      · exact heard.issued c m before
    | acquire k => exact heard.issued c m (outcome.2.2.2 ▸ issued)
    | release k => exact heard.issued c m (outcome.2.2 ▸ issued)
    | rouse d k => exact heard.issued c m (outcome.2.2 ▸ issued)
    | stay => exact heard.issued c m (outcome.2.2 ▸ issued)
    | make d => exact heard.issued c m (outcome.2.2 ▸ issued)

end

theorem heard_keeps (heard : Heard guard s)
    (move : step guard s e = some t) : Heard guard t := by
  obtain ⟨clock,p,a,l,effect,outcome,-⟩ := step_effect heard.facts heard.owned move
  obtain ⟨acquired,issued⟩ := times_step heard effect outcome
  exact {
    facts := facts_step heard effect outcome
    owned := outcome_owned heard.owned effect.holdings outcome
    acquired := fun q => by have := acquired q; omega
    issued := fun c m mem => by have := issued c m mem; omega
    scanned := scanned_step heard effect outcome
    heard := heard_step heard effect outcome }

omit [DecidableEq C] [DecidableEq L] in
theorem heard_start (cond : C → Bool) : Heard guard (start n C L cond) where
  facts _ := rfl
  owned := by simp [Owned, start, holds]
  acquired _ := Nat.le_refl 0
  issued _ _ mem := by simp [start] at mem
  scanned _ _ _ pc := by simp [start] at pc
  heard _ _ _ _ _ _ mem := by simp [start] at mem

/-- No lost wakeup. Whatever the channels, their locks and the interleaving: a process asleep
    on a channel, or on its way there with the lock given up at time `r`, has not missed a
    completed wakeup of a process that acquired the lock after `r`. -/
theorem no_lost_wakeup (guard : C → Lock L) (cond : C → Bool) (es : List (Event n C))
    (s : State n C L) (run : exec (step guard) (start n C L cond) es = some s) (p : Fin n) (c : C)
    (waits : (s.proc p).state = .sleeping ∧ (s.proc p).chan = some c ∨
      (s.proc p).pc = .setChan c ∨ (s.proc p).pc = .setState c)
    (r m : Nat) (released : (s.proc p).released = some r) (issued : (c, m) ∈ s.issued) :
    ¬ r < m := by
  have heard : Heard guard s := exec_invariant (Heard guard)
    (fun _ _ _ heard _ move => heard_keeps heard move) (heard_start cond) (along_trivial _ _) run
  exact Nat.not_lt.mpr (heard.heard p c r m waits released issued)

/-- Who waits does so for a condition that is false, or that a waker has just made true on
    its way to wake it. -/
structure Justified (guard : C → Lock L) (s : State n C L) : Prop where
  inside : ∀ p c, (s.proc p).pc = .inside c → s.cond c = true
  drowsy : ∀ p c, Drowsy guard (s.proc p) c → s.cond c = false
  waits : ∀ p c, Waits (s.proc p) c → s.cond c = false ∨ ∃ q, Pending (s.proc q) c p.val

theorem justified_quiet (just : Justified guard s) (heard : Heard guard s)
    (effect : Effect guard n s.clock (s.proc p) a l) (outcome : Outcome s p l t a)
    (reads : Reads guard s.cond (s.proc p) a l) (same : t.cond = s.cond) : Justified guard t := by
  obtain ⟨mine,others⟩ := outcome_others outcome
  have pcs : ∀ q, q ≠ p → (t.proc q).pc = (s.proc q).pc := by
    intro q ne
    obtain ⟨unchanged,-⟩ | ⟨d,-,roused⟩ := others q ne
    · rw [unchanged]
    · rw [roused, rouse_pc]
  refine ⟨fun q c pc => ?_, fun q c drowsy => ?_, fun q c waits => ?_⟩
  · rw [same]
    by_cases this : q = p
    · subst this
      exact (reads.inside c (mine ▸ pc)).elim (just.inside q c) id
    · exact just.inside q c (pcs q this ▸ pc)
  · rw [same]
    by_cases this : q = p
    · subst this
      exact (reads.drowsy c (mine ▸ drowsy)).elim (just.drowsy q c) id
    · exact just.drowsy q c (by simpa only [Drowsy, pcs q this] using drowsy)
  · rw [same]
    have before : Waits (s.proc q) c ∨ s.cond c = false := by
      by_cases this : q = p
      · subst this
        obtain before | drowsy | no := reads.waits c (mine ▸ waits)
        · exact .inl before
        · exact .inr (just.drowsy q c drowsy)
        · exact .inr no
      · obtain ⟨before,-⟩ | ⟨same,-⟩ := waits_before effect outcome waits
        · exact .inl before
        · exact absurd same this
    obtain no | ⟨r,pending⟩ := before.elim (just.waits q c) .inl
    · exact .inl no
    · refine .inr ⟨r, ?_⟩
      by_cases this : r = p
      · subst this
        rw [mine]
        obtain still | passed | ⟨j,act,scanning,early⟩ := reads.pending c q.val pending
        · exact still
        · -- the waker has just passed `q`, which then does not wait any more
          rw [← mine] at passed
          exact absurd waits (scanned_step heard effect outcome r c _ passed q (Nat.lt_succ_self _))
        · obtain ⟨k,scanning',all⟩ := effect.issue c act
          cases scanning.symm.trans scanning'
          omega
      · simpa only [Pending, pcs r this] using pending

omit [DecidableEq L] in
theorem justified_write {b : Bool}
    (just : Justified guard s) (heard : Heard guard s) (held : holds guard (s.proc p) (guard c))
    (others : ∀ q, q ≠ p → t.proc q = s.proc q) (writes : t.cond = Function.update s.cond c b)
    (outside : ∀ d, (t.proc p).pc ≠ .inside d ∧ ¬ Drowsy guard (t.proc p) d ∧ ¬ Waits (t.proc p) d)
    (stays : ∀ d k, Pending (s.proc p) d k → Pending (t.proc p) d k)
    (wakes : ∀ q, Waits (s.proc q) c → b = false ∨ Pending (t.proc p) c q.val) :
    Justified guard t := by
  have single : ∀ q, q ≠ p → ¬ holds guard (s.proc q) (guard c) :=
    fun q ne also => ne (owned_exclusive heard.owned also held)
  refine ⟨fun q d pc => ?_, fun q d drowsy => ?_, fun q d waits => ?_⟩
  · have ne : q ≠ p := by
      rintro rfl
      exact (outside d).1 pc
    rw [others q ne] at pc
    have other : d ≠ c := by
      rintro rfl
      exact single q ne (by simp [holds, pc])
    rw [writes, Function.update_of_ne other]
    exact just.inside q d pc
  · have ne : q ≠ p := by
      rintro rfl
      exact (outside d).2.1 drowsy
    rw [others q ne] at drowsy
    have other : d ≠ c := by
      rintro rfl
      exact single q ne (holds_of_drowsy drowsy)
    rw [writes, Function.update_of_ne other]
    exact just.drowsy q d drowsy
  · have ne : q ≠ p := by
      rintro rfl
      exact (outside d).2.2 waits
    rw [others q ne] at waits
    by_cases this : d = c
    · subst this
      rw [writes, Function.update_self]
      exact (wakes q waits).imp id fun pending => ⟨p,pending⟩
    · rw [writes, Function.update_of_ne this]
      refine (just.waits q d waits).imp id ?_
      rintro ⟨r,pending⟩
      by_cases mine : r = p
      · subst mine
        exact ⟨r, stays d _ pending⟩
      · exact ⟨r, by rwa [others r mine]⟩

omit [DecidableEq C] [DecidableEq L] in
theorem writes_outside {d : C} {b : Bool} (writes : Writes l c b l') :
    l'.pc ≠ .inside d ∧ ¬ Drowsy guard l' d ∧ ¬ Waits l' d := by
  cases writes with
  | make before running after =>
    obtain pc | pc := after <;> simp [Drowsy, Waits, pc, running]
  | leave before running after => simp [Drowsy, Waits, after, running]

theorem justified_step (just : Justified guard s)
    (heard : Heard guard s) (move : step guard s e = some t) : Justified guard t := by
  obtain ⟨-,p,a,l,effect,outcome,conditions⟩ := step_effect heard.facts heard.owned move
  obtain ⟨reads,same⟩ | ⟨c,b,writes,cond,proc⟩ := conditions
  · exact justified_quiet just heard effect outcome reads same
  · have mine : t.proc p = l := by rw [proc, Function.update_self]
    have held : holds guard (s.proc p) (guard c) := by
      cases writes with
      | make before => simp [holds, before]
      | leave before => simp [holds, before]
    refine justified_write just heard held (fun q ne => by rw [proc, Function.update_of_ne ne]) cond
      (fun d => mine ▸ writes_outside writes) ?_ ?_
    · intro d k pending
      cases writes with
      | make before => simp [Pending, before] at pending
      | leave before => simp [Pending, before] at pending
    · intro q waits
      rw [mine]
      cases writes with
      | make before running after =>
        refine .inr (after.imp id fun pc => ⟨0, Nat.zero_le _, pc⟩)
      | leave before =>
        -- the condition was true, so a waker would have to be pending, but `p` has the lock
        obtain no | ⟨r,pending⟩ := just.waits q c waits
        · simp [just.inside p c before] at no
        · cases owned_exclusive heard.owned (holds_of_pending pending) held
          simp [Pending, before] at pending

theorem asleep_only_while_false (guard : C → Lock L) (cond : C → Bool) (es : List (Event n C))
    (s : State n C L) (run : exec (step guard) (start n C L cond) es = some s) (p : Fin n) (c : C)
    (waits : Waits (s.proc p) c) (free : s.owner (guard c) = none) : s.cond c = false := by
  have both : Heard guard s ∧ Justified guard s := by
    refine exec_invariant (fun s => Heard guard s ∧ Justified guard s) ?_
      ⟨heard_start cond, ?_⟩ (along_trivial _ _) run
    · rintro s e t ⟨heard,just⟩ - move
      exact ⟨heard_keeps heard move, justified_step just heard move⟩
    · constructor <;> simp [start, Drowsy, Waits]
  obtain ⟨heard,just⟩ := both
  obtain no | ⟨q,pending⟩ := just.waits p c waits
  · exact no
  · exact absurd (holds_of_pending pending) (owned_free heard.owned free q)

end

def wakeThenSleep : List (Event 2 Unit) :=
  .wake 1 () :: List.replicate 8 (.run 1) ++
    .wait 0 () :: List.replicate 2 (.run 0) ++ .finish 0 () false :: .run 0 ::
    .wait 0 () :: List.replicate 7 (.run 0)

theorem no_lost_wakeup_later_sleeper :
    ∃ s r m, exec (step fun _ => Lock.other ()) (start 2 Unit Unit fun _ => false) wakeThenSleep =
        some s ∧ (s.proc 0).state = .sleeping ∧ (s.proc 0).released = some r ∧
      ((), m) ∈ s.issued ∧ ¬ r < m := by
  have final : (exec (step fun _ => Lock.other ()) (start 2 Unit Unit fun _ => false)
      wakeThenSleep).map (fun s => ((s.proc 0).state, (s.proc 0).chan, (s.proc 0).released,
        s.issued)) =
        some (.sleeping, some (), some 18, [((), 1)]) := by
    decide +kernel
  obtain ⟨s,run,ends⟩ := Option.map_eq_some_iff.mp final
  simp only [Prod.mk.injEq] at ends
  obtain ⟨state,chan,released,issued⟩ := ends
  have mem : ((), 1) ∈ s.issued := by simp [issued]
  exact ⟨s, 18, 1, run, state, released, mem,
    no_lost_wakeup _ _ wakeThenSleep s run 0 () (.inl ⟨state,chan⟩) 18 1 released mem⟩

theorem asleep_only_while_false_later_sleeper :
    ∃ s, exec (step fun _ => Lock.other ()) (start 2 Unit Unit fun _ => false) wakeThenSleep =
      some s ∧ s.cond () = false := by
  have final :
    (exec (step fun _ => Lock.other ()) (start 2 Unit Unit fun _ => false) wakeThenSleep).map
      (fun s => ((s.proc 0).state, (s.proc 0).chan, s.owner (Lock.other ()))) = some (.sleeping,
        some (), none) := by
    decide +kernel
  obtain ⟨s,run,ends⟩ := Option.map_eq_some_iff.mp final
  simp only [Prod.mk.injEq] at ends
  exact ⟨s, run, asleep_only_while_false _ _ _ s run 0 () (.inl ⟨ends.1, ends.2.1⟩) ends.2.2⟩

end SleepWakeup
