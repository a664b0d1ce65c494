import Mathlib.Data.List.FinRange
import Mathlib.Logic.Function.Basic
import Xv6.Lib.RunLaws
import Xv6.Param

/- The life cycle of processes: allocproc, fork, exit, wait and kill, with the scheduler, sleep
   and wakeup that move processes between CPUs. A section under ptable.lock is one step,
   including the switch to the scheduler or back that happens with the lock held. The parts of
   fork outside the lock are steps of their own. -/
namespace ProcessSystem
open Param

inductive Ptr where
  | null | live | dangling
  deriving DecidableEq, Repr

inductive Chan (n : Nat) where
  | wait (p : Fin n)
  | other (k : Nat)
  deriving DecidableEq, Repr

/-- Where a process is in the kernel; the slot is the one fork has allocated. -/
inductive Pc (n : Nat) where
  | user
  | forkStack (i : Fin n)
  | forkCopy (i : Fin n)
  | forkParent (i : Fin n)
  | forkReady (i : Fin n)
  | inWait
  deriving DecidableEq, Repr

structure Proc (n : Nat) where
  state : ProcState
  pid : Nat
  parent : Option (Fin n)
  killed : Bool
  chan : Option (Chan n)
  kstack : Ptr
  pgdir : Ptr
  pc : Pc n

/-- The process table and the CPUs, with a record of the calls: the arguments of kill, the pids
    fork returned with the caller's, the pids that exited, and the pids wait returned with the
    caller's. -/
structure State (n ncpu : Nat) where
  proc : Fin n → Proc n
  cpu : Fin ncpu → Option (Fin n)
  nextpid : Nat
  kills : List Int
  forked : List (Nat × Nat)
  exited : List Nat
  reaped : List (Nat × Nat)

variable {n ncpu : Nat}

def State.modify (s : State n ncpu) (i : Fin n) (f : Proc n → Proc n) : State n ncpu :=
  { s with proc := Function.update s.proc i (f (s.proc i)) }

/-- The process leaves its CPU: sched and the scheduler's `c->proc = 0`. -/
def State.idle (s : State n ncpu) (c : Fin ncpu) : State n ncpu :=
  { s with cpu := Function.update s.cpu c none }

@[grind =] theorem modify_proc (s : State n ncpu) (i : Fin n) (f : Proc n → Proc n) (q : Fin n) :
    (s.modify i f).proc q = if q = i then f (s.proc i) else s.proc q :=
  Function.update_apply ..

def rouse (ch : Chan n) (p : Proc n) : Proc n :=
  if p.state = .sleeping ∧ p.chan = some ch then { p with state := .runnable } else p

def wakeup1 (s : State n ncpu) (ch : Chan n) : State n ncpu :=
  { s with proc := fun i => rouse ch (s.proc i) }

def firstSlot (s : State n ncpu) (test : Proc n → Bool) : Option (Fin n) :=
  (List.finRange n).find? fun i => test (s.proc i)

/-- The locked part of allocproc, called by fork of process `p`. -/
def allocproc (s : State n ncpu) (p : Fin n) : Option (State n ncpu) :=
  match firstSlot s fun q => q.state = .unused with
  | none => some s
  | some i =>
    -- nextpid++ is undefined at INT_MAX
    if s.nextpid < 2147483647 then
      some ({ s with nextpid := s.nextpid + 1 }.modify i
        (fun q => { q with state := .embryo, pid := s.nextpid }) |>.modify p
        fun q => { q with pc := .forkStack i })
    else none

/-- fork after allocproc's lock is released; `ok` is the success of kalloc or copyuvm. -/
def forkStep (s : State n ncpu) (p : Fin n) (ok : Bool) : Option (State n ncpu) :=
  match (s.proc p).pc with
  | .forkStack i =>
    if ok then some (s.modify i (fun q => { q with kstack := .live }) |>.modify p
      fun q => { q with pc := .forkCopy i })
    else some (s.modify i (fun q => { q with kstack := .null, state := .unused }) |>.modify p
      fun q => { q with pc := .user })
  | .forkCopy i =>
    if ok then some (s.modify i (fun q => { q with pgdir := .live }) |>.modify p
      fun q => { q with pc := .forkParent i })
    else some (s.modify i (fun q => { q with pgdir := .null, kstack := .null, state := .unused })
      |>.modify p fun q => { q with pc := .user })
  | .forkParent i => some (s.modify i (fun q => { q with parent := some p }) |>.modify p
      fun q => { q with pc := .forkReady i })
  | .forkReady i =>
    some ({ s with forked := ((s.proc i).pid, (s.proc p).pid) :: s.forked }.modify i
      (fun q => { q with state := .runnable, pc := .user }) |>.modify p
      fun q => { q with pc := .user })
  | .user | .inWait => none

/-- exit's first statement: the parent, if it sleeps in wait, is woken. -/
def wakeParent (s : State n ncpu) (p : Fin n) : State n ncpu :=
  match (s.proc p).parent with
  | some q => wakeup1 s (.wait q)
  | none => s

/-- One turn of exit's loop over the table. -/
def adopt (init p : Fin n) (s : State n ncpu) (i : Fin n) : State n ncpu :=
  if (s.proc i).parent = some p then
    let t := s.modify i fun q => { q with parent := some init }
    if (s.proc i).state = .zombie then wakeup1 t (.wait init) else t
  else s

def exit (init : Fin n) (s : State n ncpu) (c : Fin ncpu) (p : Fin n) : State n ncpu :=
  let t := (List.finRange n).foldl (adopt init p) (wakeParent s p)
  { (t.modify p fun q => { q with state := .zombie }).idle c with
    exited := (s.proc p).pid :: s.exited }

/-- What wait does with a zombie child `i` it has found. -/
def reap (s : State n ncpu) (p i : Fin n) : State n ncpu :=
  { s.modify i (fun q => { q with
      kstack := .null, pgdir := .dangling, pid := 0, parent := none, killed := false
      state := .unused }) with
    reaped := ((s.proc i).pid, (s.proc p).pid) :: s.reaped }

/-- One pass of wait's loop, from the scan to the return or the sleep. -/
def waitPass (s : State n ncpu) (c : Fin ncpu) (p : Fin n) : State n ncpu :=
  match firstSlot s fun q => q.parent = some p ∧ q.state = .zombie with
  | some i => (reap s p i).modify p fun q => { q with pc := .user }
  | none =>
    if (firstSlot s fun q => q.parent = some p) = none ∨ (s.proc p).killed = true then
      s.modify p fun q => { q with pc := .user }
    else
      (s.modify p fun q => { q with
        chan := some (.wait p), state := .sleeping, pc := .inWait }).idle c

def dispatch (s : State n ncpu) (c : Fin ncpu) (p : Fin n) : State n ncpu :=
  { s.modify p (fun q => { q with state := .running, chan := none }) with
    cpu := Function.update s.cpu c (some p) }

@[grind =] theorem reap_proc (s : State n ncpu) (p i q : Fin n) : (reap s p i).proc q =
    if q = i then { s.proc i with
      kstack := .null, pgdir := .dangling, pid := 0, parent := none, killed := false
      state := .unused } else s.proc q :=
  Function.update_apply ..

@[grind =] theorem dispatch_proc (s : State n ncpu) (c : Fin ncpu) (p q : Fin n) :
    (dispatch s c p).proc q =
      if q = p then { s.proc p with state := .running, chan := none } else s.proc q :=
  Function.update_apply ..

/-- What kill does to the process it finds. -/
def strike (q : Proc n) : Proc n :=
  { q with killed := true, state := if q.state = .sleeping then .runnable else q.state }

/-- kill: the first slot with the pid, whatever its state. -/
def kill (s : State n ncpu) (pid : Int) : State n ncpu :=
  match firstSlot s fun q => (q.pid : Int) = pid with
  | some i => { s with kills := pid :: s.kills }.modify i strike
  | none => { s with kills := pid :: s.kills }

inductive Event (n ncpu : Nat) where
  | schedule (c : Fin ncpu) (p : Fin n)
  | yield (c : Fin ncpu)
  | sleep (c : Fin ncpu) (k : Nat)
  | wakeup (k : Nat)
  | kill (pid : Int)
  | fork (c : Fin ncpu)
  | forkStep (c : Fin ncpu) (ok : Bool)
  | exit (c : Fin ncpu)
  | wait (c : Fin ncpu)
  deriving DecidableEq, Repr

/-- switchuvm's panics and exit's, and steps a CPU without a process cannot take, have no
    successor. -/
def step (init : Fin n) (s : State n ncpu) : Event n ncpu → Option (State n ncpu)
  | .schedule c p =>
    if s.cpu c = none ∧ (s.proc p).state = .runnable ∧
        (s.proc p).kstack ≠ .null ∧ (s.proc p).pgdir ≠ .null then
      -- a process that slept in wait goes on with its loop before the lock is released
      if (s.proc p).pc = .inWait then some (waitPass (dispatch s c p) c p)
      else some (dispatch s c p)
    else none
  | .yield c => (s.cpu c).map fun p =>
      (s.modify p fun q => { q with state := .runnable }).idle c
  | .sleep c k => (s.cpu c).map fun p =>
      (s.modify p fun q => { q with state := .sleeping, chan := some (.other k) }).idle c
  | .wakeup k => some (wakeup1 s (.other k))
  | .kill pid => some (kill s pid)
  | .fork c => (s.cpu c).bind fun p =>
      if (s.proc p).pc = .user then allocproc s p else none
  | .forkStep c ok => (s.cpu c).bind fun p => forkStep s p ok
  | .exit c => (s.cpu c).bind fun p =>
      if (s.proc p).pc = .user ∧ p ≠ init then some (exit init s c p) else none
  | .wait c => (s.cpu c).bind fun p =>
      if (s.proc p).pc = .user then some (waitPass s c p) else none

def boot (ncpu : Nat) (init : Fin n) : State n ncpu where
  proc := Function.update (fun _ => ⟨.unused, 0, none, false, none, .null, .null, .user⟩) init
    ⟨.runnable, 1, none, false, none, .live, .live, .user⟩
  cpu _ := none
  nextpid := 2
  kills := []
  forked := []
  exited := []
  reaped := []

inductive Passes (s : State n ncpu) (c : Fin ncpu) (p : Fin n) : State n ncpu → Prop
  | reap (i : Fin n) (child : (s.proc i).parent = some p) (zombie : (s.proc i).state = .zombie) :
      Passes s c p ((reap s p i).modify p fun q => { q with pc := .user })
  | giveUp : Passes s c p (s.modify p fun q => { q with pc := .user })
  | sleep (childless : ∀ i, (s.proc i).parent = some p → (s.proc i).state ≠ .zombie) :
      Passes s c p ((s.modify p fun q => { q with
        chan := some (.wait p), state := .sleeping, pc := .inWait }).idle c)

inductive Forks (s : State n ncpu) (p : Fin n) : Bool → State n ncpu → Prop
  | stack (i : Fin n) (at_ : (s.proc p).pc = .forkStack i) : Forks s p true
      (s.modify i (fun q => { q with kstack := .live }) |>.modify p
        fun q => { q with pc := .forkCopy i })
  | noStack (i : Fin n) (at_ : (s.proc p).pc = .forkStack i) : Forks s p false
      (s.modify i (fun q => { q with kstack := .null, state := .unused }) |>.modify p
        fun q => { q with pc := .user })
  | copy (i : Fin n) (at_ : (s.proc p).pc = .forkCopy i) : Forks s p true
      (s.modify i (fun q => { q with pgdir := .live }) |>.modify p
        fun q => { q with pc := .forkParent i })
  | noCopy (i : Fin n) (at_ : (s.proc p).pc = .forkCopy i) : Forks s p false
      (s.modify i (fun q => { q with pgdir := .null, kstack := .null, state := .unused })
        |>.modify p fun q => { q with pc := .user })
  | parent (i : Fin n) (ok : Bool) (at_ : (s.proc p).pc = .forkParent i) : Forks s p ok
      (s.modify i (fun q => { q with parent := some p }) |>.modify p
        fun q => { q with pc := .forkReady i })
  | ready (i : Fin n) (ok : Bool) (at_ : (s.proc p).pc = .forkReady i) : Forks s p ok
      ({ s with forked := ((s.proc i).pid, (s.proc p).pid) :: s.forked }.modify i
        (fun q => { q with state := .runnable, pc := .user }) |>.modify p
        fun q => { q with pc := .user })

inductive Moves (init : Fin n) (s : State n ncpu) : Event n ncpu → State n ncpu → Prop
  | schedule (c : Fin ncpu) (p : Fin n) (idle : s.cpu c = none)
      (ready : (s.proc p).state = .runnable) (fresh : (s.proc p).pc ≠ .inWait) :
      Moves init s (.schedule c p) (dispatch s c p)
  | resume (c : Fin ncpu) (p : Fin n) (idle : s.cpu c = none)
      (ready : (s.proc p).state = .runnable) (waits : (s.proc p).pc = .inWait) (t : State n ncpu)
      (passes : Passes (dispatch s c p) c p t) : Moves init s (.schedule c p) t
  | yield (c : Fin ncpu) (p : Fin n) (on : s.cpu c = some p) : Moves init s (.yield c)
      ((s.modify p fun q => { q with state := .runnable }).idle c)
  | sleep (c : Fin ncpu) (k : Nat) (p : Fin n) (on : s.cpu c = some p) : Moves init s (.sleep c k)
      ((s.modify p fun q => { q with state := .sleeping, chan := some (.other k) }).idle c)
  | wakeup (k : Nat) : Moves init s (.wakeup k) (wakeup1 s (.other k))
  | kill (pid : Int) (i : Fin n) (found : ((s.proc i).pid : Int) = pid) : Moves init s (.kill pid)
      ({ s with kills := pid :: s.kills }.modify i strike)
  | miss (pid : Int) (absent : ∀ i, ((s.proc i).pid : Int) ≠ pid) : Moves init s (.kill pid)
      { s with kills := pid :: s.kills }
  | full (c : Fin ncpu) (p : Fin n) (on : s.cpu c = some p) : Moves init s (.fork c) s
  | alloc (c : Fin ncpu) (p i : Fin n) (on : s.cpu c = some p) (user : (s.proc p).pc = .user)
      (free : (s.proc i).state = .unused) (bound : s.nextpid < 2147483647) :
      Moves init s (.fork c) ({ s with nextpid := s.nextpid + 1 }.modify i
        (fun q => { q with state := .embryo, pid := s.nextpid }) |>.modify p
        fun q => { q with pc := .forkStack i })
  | fork (c : Fin ncpu) (p : Fin n) (on : s.cpu c = some p) (ok : Bool) (t : State n ncpu)
      (forks : Forks s p ok t) : Moves init s (.forkStep c ok) t
  | exit (c : Fin ncpu) (p : Fin n) (on : s.cpu c = some p) (user : (s.proc p).pc = .user)
      (other : p ≠ init) : Moves init s (.exit c) (exit init s c p)
  | wait (c : Fin ncpu) (p : Fin n) (on : s.cpu c = some p) (user : (s.proc p).pc = .user)
      (t : State n ncpu) (passes : Passes s c p t) : Moves init s (.wait c) t

variable {s : State n ncpu}

theorem firstSlot_some {test : Proc n → Bool} {i : Fin n}
    (found : firstSlot s test = some i) : test (s.proc i) = true :=
  List.find?_some (p := fun j => test (s.proc j)) found

theorem firstSlot_none {test : Proc n → Bool}
    (absent : firstSlot s test = none) (i : Fin n) : test (s.proc i) = false := by
  have := List.find?_eq_none.mp absent i (List.mem_finRange i)
  simpa using this

theorem waitPass_passes (s : State n ncpu) (c : Fin ncpu) (p : Fin n) :
    Passes s c p (waitPass s c p) := by
  unfold waitPass
  split
  · next i found =>
    have := firstSlot_some found
    simp only [decide_eq_true_eq] at this
    exact .reap i this.1 this.2
  · next absent =>
    split
    · exact .giveUp
    · refine .sleep fun i child zombie => ?_
      have := firstSlot_none absent i
      simp [child, zombie] at this

variable {p : Fin n}

theorem forkStep_forks {t : State n ncpu} {ok : Bool}
    (move : forkStep s p ok = some t) : Forks s p ok t := by
  cases at_ : (s.proc p).pc with
  | forkStack i =>
    cases ok with
    | true => simp only [forkStep, at_, if_true] at move; cases move; exact .stack i at_
    | false =>
      simp only [forkStep, at_, Bool.false_eq_true, if_false]
        at move; cases move; exact .noStack i at_
  | forkCopy i =>
    cases ok with
    | true => simp only [forkStep, at_, if_true] at move; cases move; exact .copy i at_
    | false =>
      simp only [forkStep, at_, Bool.false_eq_true, if_false]
        at move; cases move; exact .noCopy i at_
  | forkParent i => simp only [forkStep, at_] at move; cases move; exact .parent i ok at_
  | forkReady i => simp only [forkStep, at_] at move; cases move; exact .ready i ok at_
  | user | inWait => simp [forkStep, at_] at move

variable {init : Fin n}

theorem step_moves {t : State n ncpu} {e : Event n ncpu}
    (move : step init s e = some t) : Moves init s e t := by
  cases e with
  | schedule c p =>
    simp only [step, Option.ite_none_right_eq_some] at move
    obtain ⟨⟨idle,ready,-⟩,move⟩ := move
    split at move
    · next waits =>
      cases move
      exact .resume c p idle ready waits _ (waitPass_passes _ c p)
    · next fresh => cases move; exact .schedule c p idle ready fresh
  | yield c =>
    obtain ⟨p,on,rfl⟩ := Option.map_eq_some_iff.mp move
    exact .yield c p on
  | sleep c k =>
    obtain ⟨p,on,rfl⟩ := Option.map_eq_some_iff.mp move
    exact .sleep c k p on
  | wakeup k => cases move; exact .wakeup k
  | kill pid =>
    cases move
    unfold kill
    split
    · next i found => exact .kill pid i (by simpa using firstSlot_some found)
    · next absent => exact .miss pid fun i => by simpa using firstSlot_none absent i
  | fork c =>
    obtain ⟨p,on,move⟩ := Option.bind_eq_some_iff.mp move
    simp only [Option.ite_none_right_eq_some] at move
    obtain ⟨user,move⟩ := move
    unfold allocproc at move
    split at move
    · cases move; exact .full c p on
    · next i found =>
      simp only [Option.ite_none_right_eq_some, Option.some.injEq] at move
      obtain ⟨bound,rfl⟩ := move
      exact .alloc c p i on user (by simpa using firstSlot_some found) bound
  | forkStep c ok =>
    obtain ⟨p,on,move⟩ := Option.bind_eq_some_iff.mp move
    exact .fork c p on ok t (forkStep_forks move)
  | exit c =>
    obtain ⟨p,on,move⟩ := Option.bind_eq_some_iff.mp move
    simp only [Option.ite_none_right_eq_some, Option.some.injEq] at move
    obtain ⟨⟨user,other⟩,rfl⟩ := move
    exact .exit c p on user other
  | wait c =>
    obtain ⟨p,on,move⟩ := Option.bind_eq_some_iff.mp move
    simp only [Option.ite_none_right_eq_some, Option.some.injEq] at move
    obtain ⟨user,rfl⟩ := move
    exact .wait c p on user _ (waitPass_passes s c p)

def Woken (a b : Proc n) : Prop :=
  b = a ∨ a.state = .sleeping ∧ b = { a with state := .runnable }

theorem rouse_woken (ch : Chan n) (p : Proc n) : Woken p (rouse ch p) := by
  unfold rouse
  split
  · next asleep => exact .inr ⟨asleep.1,rfl⟩
  · exact .inl rfl

theorem woken_trans {a b d : Proc n} (first : Woken a b) (second : Woken b d) : Woken a d := by
  obtain rfl | ⟨asleep,rfl⟩ := first
  · exact second
  · obtain rfl | ⟨again,-⟩ := second
    · exact .inr ⟨asleep,rfl⟩
    · cases again

theorem rouse_awake (ch : Chan n) (p : Proc n) :
    ¬ ((rouse ch p).state = .sleeping ∧ (rouse ch p).chan = some ch) := by
  unfold rouse
  split
  · simp
  · next awake => exact awake

def adopted (init p : Fin n) (q : Proc n) : Proc n :=
  if q.parent = some p then { q with parent := some init } else q

theorem adopted_idem (other : p ≠ init) (q : Proc n) :
    adopted init p (adopted init p q) = adopted init p q := by
  unfold adopted
  by_cases child : q.parent = some p
  · simp [child, Ne.symm other]
  · simp [child]

theorem woken_adopted {q w : Proc n} (woken : Woken (adopted init p q) w) :
    ∃ v, Woken q v ∧ w = adopted init p v := by
  obtain rfl | ⟨asleep,rfl⟩ := woken
  · exact ⟨q, .inl rfl, rfl⟩
  · refine ⟨{ q with state := .runnable }, .inr ⟨?_, rfl⟩, ?_⟩
    · unfold adopted at asleep
      split at asleep <;> exact asleep
    · unfold adopted
      by_cases child : q.parent = some p <;> simp [child]

theorem asleep_of_woken {a b : Proc n} (woken : Woken a b) (asleep : b.state = .sleeping) :
    b = a := by
  obtain rfl | ⟨-,rfl⟩ := woken
  · rfl
  · cases asleep

theorem adopt_spec (init p : Fin n) (s : State n ncpu) (a : Fin n) :
    (∀ i, ∃ w, Woken (s.proc i) w ∧
      (adopt init p s a).proc i = if i = a then adopted init p w else w) ∧
    ((s.proc a).parent = some p → (s.proc a).state = .zombie → ∀ i,
      ¬ (((adopt init p s a).proc i).state = .sleeping ∧
        ((adopt init p s a).proc i).chan = some (.wait init))) ∧
    adopt init p s a = { s with proc := (adopt init p s a).proc } := by
  by_cases child : (s.proc a).parent = some p
  · by_cases zombie : (s.proc a).state = .zombie
    · simp only [adopt, child, zombie, if_true]
      refine ⟨fun i => ?_, fun _ _ i => rouse_awake _ _, rfl⟩
      by_cases this : i = a
      · subst this
        refine ⟨s.proc i, .inl rfl, ?_⟩
        simp [wakeup1, rouse, State.modify, adopted, child, zombie]
      · exact ⟨rouse (.wait init) (s.proc i), rouse_woken _ _,
          by simp [wakeup1, State.modify, this]⟩
    · simp only [adopt, child, zombie, if_true, if_false]
      refine ⟨fun i => ⟨s.proc i, .inl rfl, ?_⟩, fun _ no => absurd no id, rfl⟩
      by_cases this : i = a
      · subst this
        simp [State.modify, adopted, child]
      · simp [State.modify, this]
  · simp only [adopt, child, if_false]
    refine ⟨fun i => ⟨s.proc i, .inl rfl, ?_⟩, fun yes => absurd yes id, trivial⟩
    by_cases this : i = a
    · subst this
      simp [adopted, child]
    · simp [this]

/-- exit's loop over the slots of `l`: the children of `p` there are init's, processes may have
    been woken, and if one of those children is a zombie nobody sleeps in init's wait. -/
theorem adopt_loop (other : p ≠ init) (l : List (Fin n)) (s : State n ncpu) :
    (∀ i, ∃ w, Woken (s.proc i) w ∧
      (l.foldl (adopt init p) s).proc i = if i ∈ l then adopted init p w else w) ∧
    (∀ j ∈ l, (s.proc j).parent = some p → (s.proc j).state = .zombie → ∀ i,
      ¬ (((l.foldl (adopt init p) s).proc i).state = .sleeping ∧
        ((l.foldl (adopt init p) s).proc i).chan = some (.wait init))) ∧
    l.foldl (adopt init p) s = { s with proc := (l.foldl (adopt init p) s).proc } := by
  induction l generalizing s with
  | nil => exact ⟨fun i => ⟨s.proc i, .inl rfl, by simp⟩, by simp, rfl⟩
  | cons a l ih =>
    obtain ⟨first,roused,rest⟩ := adopt_spec init p s a
    obtain ⟨procs,awake,frame⟩ := ih (adopt init p s a)
    simp only [List.foldl_cons]
    refine ⟨fun i => ?_, fun j mem child zombie => ?_, ?_⟩
    · obtain ⟨v,early,now⟩ := first i
      obtain ⟨w,late,final⟩ := procs i
      rw [now] at late
      by_cases this : i = a
      · subst this
        rw [if_pos rfl] at late
        obtain ⟨u,woken,rfl⟩ := woken_adopted late
        refine ⟨u, woken_trans early woken, ?_⟩
        rw [final]
        by_cases again : i ∈ l <;> simp [again, adopted_idem other]
      · rw [if_neg this] at late
        exact ⟨w, woken_trans early late, by simp [final, this]⟩
    · by_cases this : j = a
      · -- init is awake after this turn, and the later turns put nobody to sleep
        subst this
        rintro i ⟨asleep,chan⟩
        obtain ⟨w,late,final⟩ := procs i
        have same : ∀ q : Proc n, (if i ∈ l then adopted init p q else q).state = q.state ∧
            (if i ∈ l then adopted init p q else q).chan = q.chan := by
          intro q
          unfold adopted
          split <;> (try split) <;> exact ⟨rfl,rfl⟩
        rw [final, (same w).1] at asleep
        rw [final, (same w).2] at chan
        cases asleep_of_woken late asleep
        exact roused child zombie i ⟨asleep,chan⟩
      · refine awake j (by simpa [this] using mem) ?_ ?_
        · obtain ⟨v,early,now⟩ := first j
          rw [now, if_neg this]
          obtain rfl | ⟨-,rfl⟩ := early <;> exact child
        · obtain ⟨v,early,now⟩ := first j
          rw [now, if_neg this]
          obtain rfl | ⟨asleep,-⟩ := early
          · exact zombie
          · simp [zombie] at asleep
    · rw [frame, rest]

structure Exits (init : Fin n) (s : State n ncpu) (c : Fin ncpu) (p : Fin n) (t : State n ncpu) :
    Prop where
  self : t.proc p = { adopted init p (s.proc p) with state := .zombie }
  others : ∀ i, i ≠ p → ∃ w, Woken (s.proc i) w ∧ t.proc i = adopted init p w
  parent : ∀ q i, (s.proc p).parent = some q →
    ¬ ((t.proc i).state = .sleeping ∧ (t.proc i).chan = some (.wait q))
  orphans : ∀ j, (s.proc j).parent = some p → (s.proc j).state = .zombie → ∀ i,
    ¬ ((t.proc i).state = .sleeping ∧ (t.proc i).chan = some (.wait init))
  rest : t = { s with
    proc := t.proc, cpu := Function.update s.cpu c none, exited := (s.proc p).pid :: s.exited }

theorem wakeParent_spec (s : State n ncpu) (p : Fin n) :
    (∀ i, Woken (s.proc i) ((wakeParent s p).proc i)) ∧
    (∀ q i, (s.proc p).parent = some q → ¬ (((wakeParent s p).proc i).state = .sleeping ∧
      ((wakeParent s p).proc i).chan = some (.wait q))) ∧
    wakeParent s p = { s with proc := (wakeParent s p).proc } := by
  unfold wakeParent
  cases parent : (s.proc p).parent with
  | none => exact ⟨fun i => .inl rfl, by simp, rfl⟩
  | some q =>
    refine ⟨fun i => rouse_woken _ _, ?_, rfl⟩
    intro r i same
    cases same
    exact rouse_awake _ _

theorem adopted_state (init p : Fin n) (q : Proc n) : (adopted init p q).state = q.state := by
  unfold adopted
  split <;> rfl

theorem adopted_chan (init p : Fin n) (q : Proc n) : (adopted init p q).chan = q.chan := by
  unfold adopted
  split <;> rfl

theorem exit_spec (other : p ≠ init) {c : Fin ncpu}
    (run : (s.proc p).state = .running) : Exits init s c p (exit init s c p) := by
  obtain ⟨woken,parent,frame⟩ := wakeParent_spec s p
  obtain ⟨procs,orphans,frame'⟩ := adopt_loop other (List.finRange n) (wakeParent s p)
  simp only [List.mem_finRange, if_true, forall_const] at procs orphans
  have same : exit init s c p =
      { (((List.finRange n).foldl (adopt init p) (wakeParent s p)).modify p
        fun q => { q with state := .zombie }).idle c with
        exited := (s.proc p).pid :: s.exited } := rfl
  have steps : ∀ i, ∃ w, Woken (s.proc i) w ∧
      ((List.finRange n).foldl (adopt init p) (wakeParent s p)).proc i = adopted init p w := by
    intro i
    obtain ⟨w,late,final⟩ := procs i
    exact ⟨w, woken_trans (woken i) late, final⟩
  have proc_self : (exit init s c p).proc p =
      { adopted init p (s.proc p) with state := .zombie } := by
    obtain ⟨w,late,final⟩ := steps p
    have awake : w = s.proc p := by
      obtain rfl | ⟨asleep,-⟩ := late
      · rfl
      · rw [run] at asleep; cases asleep
    rw [same]
    simp only [State.idle, State.modify, Function.update_self, final, awake]
  have proc_ne : ∀ i, i ≠ p → (exit init s c p).proc i =
      ((List.finRange n).foldl (adopt init p) (wakeParent s p)).proc i := by
    intro i ne
    rw [same]
    simp only [State.idle, State.modify, Function.update_of_ne ne]
  have awake : ∀ i ch, ((exit init s c p).proc i).state = .sleeping ∧
      ((exit init s c p).proc i).chan = some ch → i ≠ p := by
    rintro i ch ⟨asleep,-⟩ rfl
    rw [proc_self] at asleep
    cases asleep
  refine ⟨proc_self, fun i ne => ?_, fun q i child asleep => ?_,
    fun j child zombie i asleep => ?_, ?_⟩
  · rw [proc_ne i ne]
    exact steps i
  · have ne := awake i _ asleep
    rw [proc_ne i ne] at asleep
    obtain ⟨w,late,final⟩ := procs i
    rw [final, adopted_state, adopted_chan] at asleep
    cases asleep_of_woken late asleep.1
    exact parent q i child asleep
  · have ne := awake i _ asleep
    rw [proc_ne i ne] at asleep
    refine orphans j ?_ ?_ i asleep
    · obtain same | ⟨-,same⟩ := woken j <;> rw [same] <;> exact child
    · obtain same | ⟨asleep,-⟩ := woken j
      · rw [same]; exact zombie
      · rw [zombie] at asleep; cases asleep
  · rw [same, frame', frame]
    rfl

@[grind =] theorem boot_proc (ncpu : Nat) (init p : Fin n) : (boot ncpu init).proc p =
    if p = init then ⟨.runnable, 1, none, false, none, .live, .live, .user⟩
    else ⟨.unused, 0, none, false, none, .null, .null, .user⟩ := by
  simp only [boot, Function.update_apply]

end ProcessSystem
