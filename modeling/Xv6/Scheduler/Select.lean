import Xv6.Lib.RunningBest
import Xv6.Scheduler.Table

/- One pass of scheduler() in proc.c: fix_queues, then round_robin for queue 1, lottery for
   queue 2 and bjf for queue 3, each asked only when the ones before it found nobody. -/

namespace SchedulerPass
open Param ProcTable RunningBest RunLaws
variable {nproc : Nat} {F : Type}

section Model
variable [FloatOps F]

def fixQueues (s : Sched nproc F) : Sched nproc F :=
  { s with proc := fun p =>
      if (s.proc p).state = .runnable then
        if s.ticks - (s.proc p).enteredQueue.toUInt32 ≥ starvingThreshold then
          { s.proc p with queue := 1, enteredQueue := s.ticks.toInt32 }
        else s.proc p
      else s.proc p }

def starvedFor (time : Int32) (p : Proc F) : Int32 := time - p.enteredQueue

/-- The loop of `round_robin`; its first test stands there twice. -/
def roundRobinFrom (s : Sched nproc F) (time : Int32) :
    Int32 → Option (Fin nproc) → List (Fin nproc) → Option (Fin nproc)
  | _, minP, [] => minP
  | starvationTime, minP, p :: ps =>
    if (s.proc p).state ≠ .runnable ∨ (s.proc p).queue ≠ 1 then
      roundRobinFrom s time starvationTime minP ps
    else if (s.proc p).state ≠ .runnable ∨ (s.proc p).queue ≠ 1 then
      roundRobinFrom s time starvationTime minP ps
    else if starvedFor time (s.proc p) > starvationTime then
      roundRobinFrom s time (starvedFor time (s.proc p)) (some p) ps
    else roundRobinFrom s time starvationTime minP ps

def roundRobin (s : Sched nproc F) : Option (Fin nproc) :=
  roundRobinFrom s s.ticks.toInt32 0 none (List.finRange nproc)

def getRank (p : Proc F) : F :=
  FloatOps.add
    (FloatOps.ofInt (p.priority * p.priorityRatio + p.enteredQueue * p.arrivalTimeRatio))
    (FloatOps.mul p.executedCycle (FloatOps.ofInt p.executedCycleRatio))

def bjfFrom (s : Sched nproc F) :
    F → Option (Fin nproc) → List (Fin nproc) → Option (Fin nproc)
  | _, minP, [] => minP
  | minRank, minP, p :: ps =>
    if (s.proc p).state ≠ .runnable ∨ (s.proc p).queue ≠ 3 then bjfFrom s minRank minP ps
    else if FloatOps.lt (getRank (s.proc p)) minRank then
      bjfFrom s (getRank (s.proc p)) (some p) ps
    else bjfFrom s minRank minP ps

def bjf (s : Sched nproc F) : Option (Fin nproc) :=
  bjfFrom s (FloatOps.ofInt minBjfRank) none (List.finRange nproc)

/-- The first loop of `lottery`. -/
def countTickets (s : Sched nproc F) : Int32 → List (Fin nproc) → Int32
  | totalTickets, [] => totalTickets
  | totalTickets, p :: ps =>
    if (s.proc p).state ≠ .runnable ∨ (s.proc p).queue ≠ 2 then countTickets s totalTickets ps
    else countTickets s (totalTickets + (s.proc p).tickets) ps

/-- The second loop of `lottery`. -/
def drawFrom (s : Sched nproc F) : Int32 → List (Fin nproc) → Option (Fin nproc)
  | _, [] => none
  | winningTicket, p :: ps =>
    if (s.proc p).state ≠ .runnable ∨ (s.proc p).queue ≠ 2 then drawFrom s winningTicket ps
    else if winningTicket - (s.proc p).tickets ≤ 0 then some p
    else drawFrom s (winningTicket - (s.proc p).tickets) ps

def winningTicket (s : Sched nproc F) : Int32 :=
  generateRandomNumber s.ticks 1 (countTickets s 0 (List.finRange nproc))

def lottery (s : Sched nproc F) : Option (Fin nproc) :=
  drawFrom s (winningTicket s) (List.finRange nproc)

def select (s : Sched nproc F) : Option (Fin nproc) :=
  (roundRobin s).or ((lottery s).or (bjf s))

/-- A pass, up to the point where the chosen process has taken over: `p->chan = 0` is the
    first thing a process does that was chosen inside `sleep`. -/
def scheduler (s : Sched nproc F) : Sched nproc F :=
  let t := fixQueues s
  match select t with
  | none => t
  | some p =>
    setProc t p { t.proc p with enteredQueue := t.ticks.toInt32, state := .running, chan := 0 }

inductive Event (nproc : Nat) where
  | fork
  | yield : Fin nproc → Event nproc
  | sleep : Fin nproc → UInt32 → Event nproc
  | wakeup : UInt32 → Event nproc
  | exit : Fin nproc → Event nproc
  | wait : Fin nproc → Event nproc
  | setProcQueue : Int32 → Int32 → Event nproc
  | setLotteryParams : Int32 → Int32 → Event nproc
  | setAProcBjfParams : Int32 → Int32 → Int32 → Int32 → Event nproc
  | setAllBjfParams : Int32 → Int32 → Int32 → Event nproc
  | tick
  | scheduler

def step (s : Sched nproc F) : Event nproc → Option (Sched nproc F)
  | .fork => some (fork s)
  | .yield p => if (s.proc p).state = .running then some (yield s p) else none
  | .sleep p chan => if (s.proc p).state = .running then some (sleep s p chan) else none
  | .wakeup chan => some (wakeup s chan)
  | .exit p => if (s.proc p).state = .running then some (exit s p) else none
  | .wait p => if (s.proc p).state = .zombie then some (reap s p) else none
  | .setProcQueue pid queue => some (setProcQueue s pid queue)
  | .setLotteryParams pid chance => some (setLotteryParams s pid chance)
  | .setAProcBjfParams pid a b c => some (setAProcBjfParams s pid a b c)
  | .setAllBjfParams a b c => some (setAllBjfParams s a b c)
  | .tick => some { s with ticks := s.ticks + 1 }
  | .scheduler => some (scheduler s)

def boot : Sched nproc F where
  proc _ := ⟨.unused, 0, 0, 0, 0, 0, 0, 0, 0, FloatOps.ofInt 0, 0⟩
  ticks := 0
  nextpid := 1

def Runnable (s : Sched nproc F) (p : Fin nproc) : Prop := (s.proc p).state = .runnable

/-- `p` is one of the processes the selector of queue `q` chooses from. -/
def Waiting (s : Sched nproc F) (q : Int32) (p : Fin nproc) : Prop :=
  (s.proc p).state = .runnable ∧ (s.proc p).queue = q

instance (s : Sched nproc F) (q : Int32) : DecidablePred (Waiting s q) := fun _ =>
  inferInstanceAs (Decidable (_ ∧ _))

end Model

variable {s : Sched nproc F} {p : Fin nproc}

theorem skipped_iff {q : Int32} :
    ((s.proc p).state ≠ .runnable ∨ (s.proc p).queue ≠ q) ↔ ¬ Waiting s q p :=
  not_and_or.symm

theorem fixQueues_state (s : Sched nproc F) (p : Fin nproc) :
    ((fixQueues s).proc p).state = (s.proc p).state := by
  unfold fixQueues
  dsimp only
  split
  · split
    · rfl
    · rfl
  · rfl

theorem roundRobinFrom_eq_scan (s : Sched nproc F) (time bound : Int32)
    (minP : Option (Fin nproc)) (ps : List (Fin nproc)) :
    roundRobinFrom s time bound minP ps =
      scan (Waiting s 1) (fun p => starvedFor time (s.proc p)) (fun x y => decide (x > y))
        bound minP ps := by
  induction ps generalizing bound minP with
  | nil => rfl
  | cons p ps ih =>
    unfold roundRobinFrom scan
    simp only [skipped_iff, ih, decide_eq_true_eq]
    by_cases waits : Waiting s 1 p
    · simp [waits]
    · simp [waits]

theorem roundRobin_eq_none_iff (s : Sched nproc F) :
    roundRobin s = none ↔
      ∀ p, Waiting s 1 p → ¬ 0 < starvedFor s.ticks.toInt32 (s.proc p) := by
  unfold roundRobin
  rw [roundRobinFrom_eq_scan, scan_eq_none_iff]
  simp

theorem roundRobin_waiting (picked : roundRobin s = some p) :
    Waiting s 1 p := by
  unfold roundRobin at picked
  rw [roundRobinFrom_eq_scan] at picked
  rcases scan_picks picked with none | ⟨_,waits⟩
  · cases none
  · exact waits

theorem countTickets_start (s : Sched nproc F) (total : Int32) (ps : List (Fin nproc)) :
    countTickets s total ps = total + countTickets s 0 ps := by
  induction ps generalizing total with
  | nil => simp [countTickets]
  | cons p ps ih =>
    unfold countTickets
    split
    · exact ih total
    · rw [ih (total + _), ih (0 + _), Int32.zero_add, Int32.add_assoc]

theorem countTickets_cons (s : Sched nproc F) (p : Fin nproc) (ps : List (Fin nproc)) :
    countTickets s 0 (p :: ps) =
      (if Waiting s 2 p then (s.proc p).tickets else 0) + countTickets s 0 ps := by
  rw [countTickets, countTickets_start s (0 + _)]
  simp only [skipped_iff]
  by_cases waits : Waiting s 2 p
  · simp [waits]
  · simp [waits]

theorem drawFrom_eq_none_iff (s : Sched nproc F) (ticket : Int32) (ps : List (Fin nproc)) :
    drawFrom s ticket ps = none ↔
      ∀ (k : Nat) (p : Fin nproc), ps[k]? = some p → Waiting s 2 p →
        ¬ ticket - countTickets s 0 (ps.take (k + 1)) ≤ 0 := by
  induction ps generalizing ticket with
  | nil => simp [drawFrom]
  | cons p ps ih =>
    -- the draw goes on past `p` with what `p` leaves of the winning ticket
    have onward : (∀ (k : Nat) (q : Fin nproc), (p :: ps)[k]? = some q → Waiting s 2 q →
          ¬ ticket - countTickets s 0 ((p :: ps).take (k + 1)) ≤ 0) ↔
        (Waiting s 2 p → ¬ ticket - (s.proc p).tickets ≤ 0) ∧
          drawFrom s (ticket - if Waiting s 2 p then (s.proc p).tickets else 0) ps = none := by
      rw [ih]
      simp only [List.take_succ_cons, countTickets_cons, ← Int32.sub_sub]
      constructor
      · intro never
        refine ⟨fun waits => ?_, fun k q at_ waits => never (k + 1) q at_ waits⟩
        simpa [waits, countTickets] using never 0 p rfl waits
      · rintro ⟨first,rest⟩ k q at_ waits
        cases k with
        | zero =>
          simp only [List.getElem?_cons_zero, Option.some.injEq] at at_
          subst q
          simpa [waits, countTickets] using first waits
        | succ k => exact rest k q at_ waits
    rw [onward, drawFrom]
    simp only [skipped_iff]
    by_cases waits : Waiting s 2 p
    · by_cases reached : ticket - (s.proc p).tickets ≤ 0
      · simp [waits, reached]
      · simp [waits, reached]
    · simp [waits]

theorem drawFrom_waiting {ticket : Int32} {ps : List (Fin nproc)}
    (picked : drawFrom s ticket ps = some p) : Waiting s 2 p := by
  induction ps generalizing ticket with
  | nil => cases picked
  | cons q ps ih =>
    unfold drawFrom at picked
    simp only [skipped_iff] at picked
    split at picked
    · exact ih picked
    · rename_i waits
      split at picked
      · simp only [Option.some.injEq] at picked
        subst q
        exact not_not.mp waits
      · exact ih picked

def ticketsThrough (s : Sched nproc F) (p : Fin nproc) : Int32 :=
  countTickets s 0 ((List.finRange nproc).take (p + 1))

theorem lottery_eq_none_iff (s : Sched nproc F) :
    lottery s = none ↔
      ∀ p, Waiting s 2 p → ¬ winningTicket s - ticketsThrough s p ≤ 0 := by
  unfold lottery ticketsThrough
  rw [drawFrom_eq_none_iff]
  constructor
  · intro never p waits
    exact never p p (by simp) waits
  · intro never k p at_ waits
    have slot : p.val = k := by
      simp only [List.getElem?_eq_some_iff, List.getElem_finRange, Fin.cast_mk] at at_
      obtain ⟨_,rfl⟩ := at_
      rfl
    rw [← slot]
    exact never p waits

theorem exists_of_picked {o : Option (Fin nproc)} {waits good : Fin nproc → Prop}
    (none_iff : o = none ↔ ∀ p, waits p → ¬ good p) {q : Fin nproc} (picked : o = some q) :
    ∃ p, waits p ∧ good p := by
  by_contra never
  simp only [not_exists, not_and] at never
  have none := none_iff.mpr never
  rw [picked] at none
  cases none

theorem nobody_waits_below {m q : Int32}
    (least : ∀ p, Runnable s p → m ≤ (s.proc p).queue) (below : ¬ m ≤ q) (p : Fin nproc) :
    ¬ Waiting s q p := by
  intro waits
  exact below (waits.2 ▸ least p waits.1)

variable [FloatOps F]

theorem bjfFrom_eq_scan (s : Sched nproc F) (bound : F) (minP : Option (Fin nproc))
    (ps : List (Fin nproc)) :
    bjfFrom s bound minP ps =
      scan (Waiting s 3) (fun p => getRank (s.proc p)) FloatOps.lt bound minP ps := by
  induction ps generalizing bound minP with
  | nil => rfl
  | cons p ps ih =>
    unfold bjfFrom scan
    simp only [skipped_iff, ih]
    by_cases waits : Waiting s 3 p
    · simp [waits]
    · simp [waits]

theorem bjf_eq_none_iff (s : Sched nproc F) :
    bjf s = none ↔
      ∀ p, Waiting s 3 p → ¬ FloatOps.lt (getRank (s.proc p)) (FloatOps.ofInt minBjfRank) := by
  unfold bjf
  rw [bjfFrom_eq_scan, scan_eq_none_iff]
  simp

theorem bjf_waiting (picked : bjf s = some p) :
    Waiting s 3 p := by
  unfold bjf at picked
  rw [bjfFrom_eq_scan] at picked
  rcases scan_picks picked with none | ⟨_,waits⟩
  · cases none
  · exact waits

/-- A pass finds nobody only if nobody is runnable, and otherwise a runnable process of the
    smallest queue number. -/
def WorkConserving (s : Sched nproc F) : Prop :=
  match select (fixQueues s) with
  | none => ∀ p, ¬ Runnable s p
  | some p => Runnable s p ∧
      ∀ r, Runnable s r → ((fixQueues s).proc p).queue ≤ ((fixQueues s).proc r).queue

/-- The smallest queue number in use is one of the three, and its selector finds somebody:
    in queue 1 a process that has waited, in queue 2 one whose tickets reach the winning
    one, in queue 3 one of a rank below MIN_BJF_RANK. -/
def Served (s : Sched nproc F) : Prop :=
  ∃ m : Int32, (∀ p, Runnable s p → m ≤ (s.proc p).queue) ∧
    (m = 1 ∧ (∃ p, Waiting s 1 p ∧ 0 < starvedFor s.ticks.toInt32 (s.proc p)) ∨
     m = 2 ∧ (∃ p, Waiting s 2 p ∧ winningTicket s - ticketsThrough s p ≤ 0) ∨
     m = 3 ∧ (∃ p, Waiting s 3 p ∧
       FloatOps.lt (getRank (s.proc p)) (FloatOps.ofInt minBjfRank)))

theorem select_cases (picked : select s = some p) :
    roundRobin s = some p ∨ lottery s = some p ∨ bjf s = some p := by
  rw [select, Option.or_eq_some_iff, Option.or_eq_some_iff] at picked
  rcases picked with first | ⟨_,second | ⟨_,third⟩⟩
  · exact Or.inl first
  · exact Or.inr (Or.inl second)
  · exact Or.inr (Or.inr third)

theorem select_runnable (picked : select s = some p) :
    Runnable s p := by
  rcases select_cases picked with first | second | third
  · exact (roundRobin_waiting first).1
  · exact (drawFrom_waiting second).1
  · exact (bjf_waiting third).1

theorem served_picks (served : Served s) :
    ∃ p, select s = some p ∧ Runnable s p ∧
      ∀ r, Runnable s r → (s.proc p).queue ≤ (s.proc r).queue := by
  obtain ⟨m,least,⟨rfl,p,waits,long⟩ | ⟨rfl,p,waits,reached⟩ | ⟨rfl,p,waits,low⟩⟩ := served
  · have found : roundRobin s ≠ none := by
      rw [Ne, roundRobin_eq_none_iff]
      exact fun never => never p waits long
    obtain ⟨q,picked⟩ := Option.ne_none_iff_exists'.mp found
    have waiting := roundRobin_waiting picked
    exact ⟨q,by simp [select, picked],waiting.1,waiting.2 ▸ least⟩
  · have skip : roundRobin s = none := by
      rw [roundRobin_eq_none_iff]
      exact fun r waits => absurd waits (nobody_waits_below least (by decide) r)
    have found : lottery s ≠ none := by
      rw [Ne, lottery_eq_none_iff]
      exact fun never => never p waits reached
    obtain ⟨q,picked⟩ := Option.ne_none_iff_exists'.mp found
    have waiting := drawFrom_waiting picked
    exact ⟨q,by simp [select, skip, picked],waiting.1,waiting.2 ▸ least⟩
  · have skip : roundRobin s = none := by
      rw [roundRobin_eq_none_iff]
      exact fun r waits => absurd waits (nobody_waits_below least (by decide) r)
    have skip' : lottery s = none := by
      rw [lottery_eq_none_iff]
      exact fun r waits => absurd waits (nobody_waits_below least (by decide) r)
    have found : bjf s ≠ none := by
      rw [Ne, bjf_eq_none_iff]
      exact fun never => never p waits low
    obtain ⟨q,picked⟩ := Option.ne_none_iff_exists'.mp found
    have waiting := bjf_waiting picked
    exact ⟨q,by simp [select, skip, skip', picked],waiting.1,waiting.2 ▸ least⟩

theorem served_of_least (picked : select s = some p)
    (least : ∀ r, Runnable s r → (s.proc p).queue ≤ (s.proc r).queue) : Served s := by
  refine ⟨(s.proc p).queue, least, ?_⟩
  rcases select_cases picked with first | second | third
  · exact Or.inl ⟨(roundRobin_waiting first).2,
      exists_of_picked (roundRobin_eq_none_iff s) first⟩
  · exact Or.inr (Or.inl ⟨(drawFrom_waiting second).2,
      exists_of_picked (lottery_eq_none_iff s) second⟩)
  · exact Or.inr (Or.inr ⟨(bjf_waiting third).2,exists_of_picked (bjf_eq_none_iff s) third⟩)

theorem work_conserving_iff (s : Sched nproc F) :
    WorkConserving s ↔ (∀ p, ¬ Runnable s p) ∨ Served (fixQueues s) := by
  have same : ∀ p, Runnable (fixQueues s) p ↔ Runnable s p := fun p => by
    unfold Runnable
    rw [fixQueues_state]
  unfold WorkConserving
  constructor
  · intro conserving
    cases picked : select (fixQueues s) with
    | none =>
      rw [picked] at conserving
      exact Or.inl conserving
    | some p =>
      rw [picked] at conserving
      exact Or.inr (served_of_least picked fun r run => conserving.2 r ((same r).mp run))
  · rintro (nobody | served)
    · cases picked : select (fixQueues s) with
      | none => exact nobody
      | some p => exact absurd ((same p).mp (select_runnable picked)) (nobody p)
    · obtain ⟨p,picked,run,least⟩ := served_picks served
      rw [picked]
      exact ⟨(same p).mp run,fun r run => least r ((same r).mpr run)⟩

def passedOver : List (Event 64) := [.fork, .setProcQueue 1 2, .tick, .fork]

theorem fresh_process_passed_over :
    ¬ ∀ (es : List (Event 64)) (s : Sched 64 Rat),
      exec step boot es = some s → WorkConserving s := by
  intro always
  have outcome : (exec step (boot : Sched 64 Rat) passedOver).map (fun s =>
      (select (fixQueues s), ((fixQueues s).proc 0).queue, (s.proc 1).state,
        ((fixQueues s).proc 1).queue)) = some (some 0, 2, .runnable, 1) := by decide +kernel
  obtain ⟨s,run,facts⟩ := Option.map_eq_some_iff.mp outcome
  simp only [Prod.mk.injEq] at facts
  obtain ⟨picked,low,runnable,high⟩ := facts
  have conserving := always passedOver s run
  unfold WorkConserving at conserving
  rw [picked] at conserving
  have order := conserving.2 1 runnable
  rw [low, high] at order
  exact absurd order (by decide)

end SchedulerPass
