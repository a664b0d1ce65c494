import Xv6.Scheduler.Select

/- How often round_robin passes a waiting process over. The timer of one CPU goes on while
   another one is in scheduler(), and allocproc fills a slot without ptable.lock, so here a pass
   and a fork read `ticks` where the source reads it: a pass for every slot in fix_queues, in
   round_robin, in the lottery and for the chosen process, allocproc once between finding a
   slot and filling it. -/

namespace SchedulerPass
open Param ProcTable RunningBest RunLaws
variable {nproc : Nat} {F : Type} [FloatOps F]

inductive Stage where
  | idle
  | found
  | read (t : UInt32)
  | filled
  deriving DecidableEq, Repr

structure Clocked (nproc : Nat) (F : Type) where
  sched : Sched nproc F
  alloc : Fin nproc → Stage

structure Readings (nproc : Nat) where
  -- fix_queues, in the test and for entered_queue
  test : Fin nproc → UInt32
  stamp : Fin nproc → UInt32
  -- round_robin
  time : UInt32
  -- generate_random_number
  draw : UInt32
  -- scheduler, for entered_queue
  now : UInt32

/-- No reading is older than `t` and they come in the order of the source. -/
def Readings.After (r : Readings nproc) (t : UInt32) : Prop :=
  (∀ p, t ≤ r.test p ∧ r.test p ≤ r.stamp p ∧ r.stamp p ≤ r.time) ∧ r.time ≤ r.draw ∧ r.draw ≤ r.now

instance (r : Readings nproc) (t : UInt32) : Decidable (r.After t) :=
  inferInstanceAs (Decidable (_ ∧ _ ∧ _))

def fixQueuesAt (r : Readings nproc) (s : Sched nproc F) : Sched nproc F :=
  { s with proc := fun p =>
      if (s.proc p).state = .runnable then
        if r.test p - (s.proc p).enteredQueue.toUInt32 ≥ starvingThreshold then
          { s.proc p with queue := 1, enteredQueue := (r.stamp p).toInt32 }
        else s.proc p
      else s.proc p }

def roundRobinAt (time : UInt32) (s : Sched nproc F) : Option (Fin nproc) :=
  roundRobinFrom s time.toInt32 0 none (List.finRange nproc)

def schedulerAt (r : Readings nproc) (s : Sched nproc F) : Sched nproc F :=
  let t := fixQueuesAt r s
  match (roundRobinAt r.time t).or ((lottery { t with ticks := r.draw }).or (bjf t)) with
  | none => { t with ticks := r.now }
  | some p =>
    setProc { t with ticks := r.now } p
      { t.proc p with enteredQueue := r.now.toInt32, state := .running, chan := 0 }

def enterQueue (s : Sched nproc F) (p : Fin nproc) (t : UInt32) : Sched nproc F :=
  setProc s p { s.proc p with
    enteredQueue := t.toInt32
    queue := 1
    executedCycle := FloatOps.ofInt 0
    priorityRatio := 1
    arrivalTimeRatio := 1
    executedCycleRatio := 1
    priority := 1
    tickets := generateRandomNumber s.ticks 1 defaultMaxTickets }

inductive Turn (nproc : Nat) where
  -- allocproc finds a slot, reads `ticks`, fills the slot; fork makes it runnable or gives up
  | found : Fin nproc → Turn nproc
  | clock : Fin nproc → Turn nproc
  | enter : Fin nproc → Turn nproc
  | ready : Fin nproc → Turn nproc
  | giveUp : Fin nproc → Turn nproc
  | yield : Fin nproc → Turn nproc
  | sleep : Fin nproc → UInt32 → Turn nproc
  | wakeup : UInt32 → Turn nproc
  -- kill and the semaphores wake a single process
  | rouse : Fin nproc → Turn nproc
  | exit : Fin nproc → Turn nproc
  | wait : Fin nproc → Turn nproc
  | setProcQueue : Int32 → Int32 → Turn nproc
  | setLotteryParams : Int32 → Int32 → Turn nproc
  | setAProcBjfParams : Int32 → Int32 → Int32 → Int32 → Turn nproc
  | setAllBjfParams : Int32 → Int32 → Int32 → Turn nproc
  | tick : UInt32 → Turn nproc
  | pass : Readings nproc → Turn nproc

def lastTick : UInt32 := 2147483647

/-- `ticks` never goes back and stays below 2^31. -/
def turn (c : Clocked nproc F) : Turn nproc → Option (Clocked nproc F)
  | .found p =>
    if freeSlot c.sched = some p then
      some
        ⟨{ setProc c.sched p { c.sched.proc p with state := .embryo, pid := c.sched.nextpid } with
          nextpid := c.sched.nextpid + 1 }, Function.update c.alloc p .found⟩
    else none
  | .clock p =>
    if c.alloc p = .found then
      some { c with alloc := Function.update c.alloc p (.read c.sched.ticks) }
    else none
  | .enter p =>
    match c.alloc p with
    | .read t => some ⟨enterQueue c.sched p t, Function.update c.alloc p .filled⟩
    | _ => none
  | .ready p =>
    if c.alloc p = .filled then
      some ⟨setProc c.sched p { c.sched.proc p with state := .runnable },
        Function.update c.alloc p .idle⟩
    else none
  | .giveUp p =>
    if c.alloc p = .idle then none
    else some ⟨setProc c.sched p { c.sched.proc p with state := .unused },
      Function.update c.alloc p .idle⟩
  | .yield p =>
    if (c.sched.proc p).state = .running then some { c with sched := yield c.sched p } else none
  | .sleep p chan =>
    if (c.sched.proc p).state = .running then some { c with sched := sleep c.sched p chan }
    else none
  | .wakeup chan => some { c with sched := wakeup c.sched chan }
  | .rouse p =>
    if (c.sched.proc p).state = .sleeping then
      some { c with sched := setProc c.sched p { c.sched.proc p with state := .runnable } }
    else none
  | .exit p =>
    if (c.sched.proc p).state = .running then some { c with sched := exit c.sched p } else none
  | .wait p =>
    if (c.sched.proc p).state = .zombie then some { c with sched := reap c.sched p } else none
  | .setProcQueue pid queue => some { c with sched := setProcQueue c.sched pid queue }
  | .setLotteryParams pid chance => some { c with sched := setLotteryParams c.sched pid chance }
  | .setAProcBjfParams pid x y z => some { c with sched := setAProcBjfParams c.sched pid x y z }
  | .setAllBjfParams x y z => some { c with sched := setAllBjfParams c.sched x y z }
  | .tick t =>
    if c.sched.ticks ≤ t ∧ t ≤ lastTick then some { c with sched := { c.sched with ticks := t } }
    else none
  | .pass r =>
    if r.After c.sched.ticks ∧ r.now ≤ lastTick then some { c with sched := schedulerAt r c.sched }
    else none

def clockedBoot : Clocked nproc F := ⟨boot, fun _ => .idle⟩

def takes (q : Fin nproc) (c : Clocked nproc F) : Turn nproc → Bool
  | .pass r => roundRobinAt r.time (fixQueuesAt r c.sched) = some q
  | _ => false

def taken (q : Fin nproc) : Clocked nproc F → List (Turn nproc) → Nat
  | _, [] => 0
  | c, e :: es => (if takes q c e then 1 else 0) + ((turn c e).map fun d => taken q d es).getD 0

section Stamps

variable {c d : Clocked nproc F} {s : Sched nproc F} {e : Turn nproc} {p q : Fin nproc}

def entered (s : Sched nproc F) (p : Fin nproc) : Int := (s.proc p).enteredQueue.toInt

theorem stamp_toInt {t : UInt32} (low : t ≤ lastTick) : t.toInt32.toInt = t.toNat := by
  have low : t.toNat ≤ 2147483647 := UInt32.le_iff_toNat_le.mp low
  have small : 2 * t.toBitVec.toNat < 2 ^ 32 := by
    have : t.toBitVec.toNat = t.toNat := rfl
    omega
  exact BitVec.toInt_eq_toNat_of_lt small

structure Timely (c : Clocked nproc F) : Prop where
  ticks : c.sched.ticks ≤ lastTick
  stamps : ∀ p, 0 ≤ entered c.sched p ∧ entered c.sched p ≤ c.sched.ticks.toNat
  reads : ∀ p t, c.alloc p = .read t → t ≤ c.sched.ticks
  embryo : ∀ p, c.alloc p ≠ .idle → (c.sched.proc p).state = .embryo

structure Effect (c d : Clocked nproc F) (q : Fin nproc) : Prop where
  onward : c.sched.ticks ≤ d.sched.ticks
  last : d.sched.ticks ≤ lastTick
  stamp : entered d.sched q = entered c.sched q ∨
    (∃ t, c.alloc q = .read t ∧ entered d.sched q = t.toInt32.toInt) ∨
    ∃ t, c.sched.ticks ≤ t ∧ t ≤ d.sched.ticks ∧ entered d.sched q = t.toInt32.toInt
  read : ∀ t, d.alloc q = .read t → c.alloc q = .read t ∨ t = c.sched.ticks
  embryo : (c.alloc q ≠ .idle → (c.sched.proc q).state = .embryo) → d.alloc q ≠ .idle →
    (d.sched.proc q).state = .embryo

def Wakes (c : Clocked nproc F) : Turn nproc → Fin nproc → Prop
  | .ready p, q => q = p
  | .yield p, q => q = p
  | .rouse p, q => q = p
  | .wakeup chan, q => (c.sched.proc q).state = .sleeping ∧ (c.sched.proc q).chan = chan
  | _, _ => False

inductive Touch (c : Clocked nproc F) (e : Turn nproc) (d : Clocked nproc F) (q : Fin nproc) :
    Prop where
  | kept (alloc : d.alloc q = c.alloc q) (state : (d.sched.proc q).state = (c.sched.proc q).state)
      (stamp : (d.sched.proc q).enteredQueue = (c.sched.proc q).enteredQueue)
  | found (alloc : d.alloc q = .found) (state : (d.sched.proc q).state = .embryo)
      (stamp : (d.sched.proc q).enteredQueue = (c.sched.proc q).enteredQueue)
  | clock (was : c.alloc q = .found) (alloc : d.alloc q = .read c.sched.ticks)
      (state : (d.sched.proc q).state = (c.sched.proc q).state)
      (stamp : (d.sched.proc q).enteredQueue = (c.sched.proc q).enteredQueue)
  | enter {t : UInt32} (was : c.alloc q = .read t) (alloc : d.alloc q = .filled)
      (state : (d.sched.proc q).state = (c.sched.proc q).state)
      (stamp : (d.sched.proc q).enteredQueue = t.toInt32)
  | turned (calm : d.alloc q = .idle ∨ d.alloc q = c.alloc q ∧ (c.sched.proc q).state ≠ .embryo)
      (wakes : (d.sched.proc q).state = .runnable → Wakes c e q)
      (stamp : (d.sched.proc q).enteredQueue = (c.sched.proc q).enteredQueue)

omit [FloatOps F] in
theorem touch_slot {v : Proc F} (stamp : v.enteredQueue = (c.sched.proc p).enteredQueue)
    (busy : (c.sched.proc p).state ≠ .embryo)
    (wakes : v.state = .runnable → Wakes c e p) :
    Touch c e { c with sched := setProc c.sched p v } q := by
  by_cases mine : q = p
  · subst mine
    refine .turned (.inr ⟨rfl, busy⟩) (fun up => wakes ?_) ?_
    · simpa [setProc] using up
    · simpa [setProc] using stamp
  · exact .kept rfl (by simp [setProc, mine]) (by simp [setProc, mine])

omit [FloatOps F] in
theorem touch_some {P : Fin nproc → Prop} [DecidablePred P] {g : Proc F → Proc F}
    (stamp : ∀ v, (g v).enteredQueue = v.enteredQueue)
    (state : ∀ v, (g v).state = v.state) :
    Touch c e { c with sched := { c.sched
      with proc := fun p => if P p then g (c.sched.proc p) else c.sched.proc p } } q := by
  by_cases some_ : P q
  · exact .kept rfl (by dsimp only; rw [if_pos some_, state])
      (by dsimp only; rw [if_pos some_, stamp])
  · exact .kept rfl (by dsimp only; rw [if_neg some_]) (by dsimp only; rw [if_neg some_])

def isCall : Turn nproc → Bool
  | .tick _ => false
  | .pass _ => false
  | _ => true

theorem turn_touch (call : isCall e) (step : turn c e = some d) :
    d.sched.ticks = c.sched.ticks ∧ ∀ q, Touch c e d q := by
  cases e with
  | found p =>
    obtain ⟨free,taken⟩ := Option.ite_none_right_eq_some.mp step
    cases taken
    refine ⟨rfl, fun q => ?_⟩
    by_cases mine : q = p
    · subst mine
      exact .found (by simp) (by simp [setProc]) (by simp [setProc])
    · exact .kept (by simp [mine]) (by simp [setProc, mine]) (by simp [setProc, mine])
  | clock p =>
    obtain ⟨found,taken⟩ := Option.ite_none_right_eq_some.mp step
    cases taken
    refine ⟨rfl, fun q => ?_⟩
    by_cases mine : q = p
    · subst mine
      exact .clock found (by simp) rfl rfl
    · exact .kept (by simp [mine]) rfl rfl
  | enter p =>
    simp only [turn] at step
    split at step
    · next t read =>
      cases step
      refine ⟨rfl, fun q => ?_⟩
      by_cases mine : q = p
      · subst mine
        exact .enter read (by simp) (by simp [enterQueue, setProc]) (by simp [enterQueue, setProc])
      · exact .kept (by simp [mine]) (by simp [enterQueue, setProc, mine])
          (by simp [enterQueue, setProc, mine])
    · cases step
  | ready p =>
    obtain ⟨filled,taken⟩ := Option.ite_none_right_eq_some.mp step
    cases taken
    refine ⟨rfl, fun q => ?_⟩
    by_cases mine : q = p
    · subst mine
      exact .turned (.inl (by simp)) (fun _ => rfl) (by simp [setProc])
    · exact .kept (by simp [mine]) (by simp [setProc, mine]) (by simp [setProc, mine])
  | giveUp p =>
    obtain ⟨busy,taken⟩ := Option.ite_none_left_eq_some.mp step
    cases taken
    refine ⟨rfl, fun q => ?_⟩
    by_cases mine : q = p
    · subst mine
      exact .turned (.inl (by simp)) (fun up => by simp [setProc] at up) (by simp [setProc])
    · exact .kept (by simp [mine]) (by simp [setProc, mine]) (by simp [setProc, mine])
  | yield p =>
    obtain ⟨runs,taken⟩ := Option.ite_none_right_eq_some.mp step
    cases taken
    exact ⟨rfl, fun q => touch_slot rfl (by rw [runs]; decide) fun _ => rfl⟩
  | sleep p chan =>
    obtain ⟨runs,taken⟩ := Option.ite_none_right_eq_some.mp step
    cases taken
    exact ⟨rfl, fun q => touch_slot rfl (by rw [runs]; decide) fun up => by cases up⟩
  | wakeup chan =>
    cases step
    refine ⟨rfl, fun q => ?_⟩
    by_cases wakes : (c.sched.proc q).state = .sleeping ∧ (c.sched.proc q).chan = chan
    · refine .turned (.inr ⟨rfl, by rw [wakes.1]; decide⟩) (fun _ => wakes) ?_
      simp [wakeup, wakes]
    · exact .kept rfl (by simp [wakeup, wakes]) (by simp [wakeup, wakes])
  | rouse p =>
    obtain ⟨asleep,taken⟩ := Option.ite_none_right_eq_some.mp step
    cases taken
    exact ⟨rfl, fun q => touch_slot rfl (by rw [asleep]; decide) fun _ => rfl⟩
  | exit p =>
    obtain ⟨runs,taken⟩ := Option.ite_none_right_eq_some.mp step
    cases taken
    exact ⟨rfl, fun q => touch_slot rfl (by rw [runs]; decide) fun up => by cases up⟩
  | wait p =>
    obtain ⟨zombie,taken⟩ := Option.ite_none_right_eq_some.mp step
    cases taken
    exact ⟨rfl, fun q => touch_slot rfl (by rw [zombie]; decide) fun up => by cases up⟩
  | setProcQueue pid queue =>
    cases step
    exact ⟨rfl, fun q => touch_some (g := fun v => { v with queue := queue }) (fun _ => rfl)
      fun _ => rfl⟩
  | setLotteryParams pid chance =>
    cases step
    exact ⟨rfl, fun q => touch_some (g := fun v => { v with tickets := chance }) (fun _ => rfl)
      fun _ => rfl⟩
  | setAProcBjfParams pid x y z =>
    cases step
    exact ⟨rfl, fun q => touch_some (g := fun v => setRatios v x y z) (fun _ => rfl) fun _ => rfl⟩
  | setAllBjfParams x y z =>
    cases step
    exact ⟨rfl, fun q => .kept rfl rfl rfl⟩
  | tick t => cases call
  | pass r => cases call

omit [FloatOps F] in
theorem effect_touch (timely : c.sched.ticks ≤ lastTick) (ticks : d.sched.ticks = c.sched.ticks)
    (touch : Touch c e d q) : Effect c d q := by
  have onward : c.sched.ticks ≤ d.sched.ticks := ticks ▸ UInt32.le_refl _
  have last : d.sched.ticks ≤ lastTick := ticks ▸ timely
  cases touch with
  | kept alloc state stamp =>
    exact ⟨onward, last, .inl (congrArg Int32.toInt stamp), fun t same => .inl (alloc ▸ same),
      fun before busy => state.trans (before (alloc ▸ busy))⟩
  | found alloc state stamp =>
    exact ⟨onward, last, .inl (congrArg Int32.toInt stamp), fun t same =>
      (by rw [alloc] at same; cases same), fun _ _ => state⟩
  | clock was alloc state stamp =>
    refine ⟨onward, last, .inl (congrArg Int32.toInt stamp), fun t same => .inr ?_, fun before _ =>
      state.trans (before ?_)⟩
    · rw [alloc] at same
      cases same
      rfl
    · rw [was]
      exact fun eq => by cases eq
  | @enter t was alloc state stamp =>
    refine ⟨onward, last, .inr (.inl ⟨t, was, congrArg Int32.toInt stamp⟩), fun t same => ?_,
      fun before _ => state.trans (before ?_)⟩
    · rw [alloc] at same
      cases same
    · rw [was]
      exact fun eq => by cases eq
  | turned calm wakes stamp =>
    refine ⟨onward, last, .inl (congrArg Int32.toInt stamp), fun t same => ?_,
      fun before busy => ?_⟩
    · rcases calm with idle | ⟨alloc,-⟩
      · rw [idle] at same
        cases same
      · exact .inl (alloc ▸ same)
    · rcases calm with idle | ⟨alloc,not⟩
      · exact absurd idle busy
      · exact absurd (before (alloc ▸ busy)) not

omit [FloatOps F] in
theorem fixQueuesAt_cases (r : Readings nproc) (s : Sched nproc F) (q : Fin nproc) :
    ((fixQueuesAt r s).proc q).state = (s.proc q).state ∧
      (((fixQueuesAt r s).proc q).enteredQueue = (s.proc q).enteredQueue ∧
        ((fixQueuesAt r s).proc q).queue = (s.proc q).queue ∨
        ((fixQueuesAt r s).proc q).enteredQueue = (r.stamp q).toInt32 ∧
          r.test q - (s.proc q).enteredQueue.toUInt32 ≥ starvingThreshold) := by
  unfold fixQueuesAt
  dsimp only
  split
  · split
    · next late => exact ⟨rfl, .inr ⟨rfl, late⟩⟩
    · exact ⟨rfl, .inl ⟨rfl, rfl⟩⟩
  · exact ⟨rfl, .inl ⟨rfl, rfl⟩⟩

omit [FloatOps F] in
theorem roundRobinAt_best {time : UInt32} (picked : roundRobinAt time s = some q) :
    Waiting s 1 q ∧ 0 < starvedFor time.toInt32 (s.proc q) ∧
      ∀ p, Waiting s 1 p → starvedFor time.toInt32 (s.proc p) ≤ starvedFor time.toInt32
        (s.proc q) := by
  unfold roundRobinAt at picked
  rw [roundRobinFrom_eq_scan] at picked
  have irrefl : ∀ a : Int32, ¬ decide (a > a) := fun a => by simp
  have best := scan_best irrefl (fun a b c => ?_) (fun a b c => ?_) picked
  · rcases best with ⟨none,-⟩ | ⟨-,waits,late,rest⟩
    · cases none
    · simp only [decide_eq_true_eq, gt_iff_lt] at late rest
      exact ⟨waits, late, fun p waits' => Int32.not_lt.mp (rest p (List.mem_finRange p) waits')⟩
  · simp only [decide_eq_true_eq, gt_iff_lt, Int32.lt_iff_toInt_lt]
    omega
  · simp only [decide_eq_true_eq, gt_iff_lt, Int32.lt_iff_toInt_lt]
    omega

theorem choice_runnable {r : Readings nproc}
    (chosen : (roundRobinAt r.time s).or ((lottery { s with ticks := r.draw }).or (bjf s)) =
      some p) :
    (s.proc p).state = .runnable := by
  cases first : roundRobinAt r.time s with
  | some q =>
    rw [first] at chosen
    cases chosen
    exact (roundRobinAt_best first).1.1
  | none =>
    rw [first, Option.none_or] at chosen
    cases second : lottery { s with ticks := r.draw } with
    | some q =>
      rw [second] at chosen
      cases chosen
      exact (drawFrom_waiting second).1
    | none =>
      rw [second, Option.none_or] at chosen
      exact (bjf_waiting chosen).1

theorem schedulerAt_ticks (r : Readings nproc) (s : Sched nproc F) :
    (schedulerAt r s).ticks = r.now := by
  unfold schedulerAt
  dsimp only
  split <;> rfl

theorem schedulerAt_slot (r : Readings nproc) (s : Sched nproc F) (q : Fin nproc) :
    (schedulerAt r s).proc q = (fixQueuesAt r s).proc q ∨
      (s.proc q).state = .runnable ∧ (schedulerAt r s).proc q =
        { (fixQueuesAt r s).proc q with
          enteredQueue := r.now.toInt32, state := .running, chan := 0 } := by
  unfold schedulerAt
  dsimp only
  split
  · exact .inl rfl
  · next p chosen =>
    by_cases mine : q = p
    · subst mine
      refine .inr ⟨(fixQueuesAt_cases r s q).1.symm.trans (choice_runnable chosen), ?_⟩
      simp [setProc]
    · exact .inl (by simp [setProc, mine])

theorem effect_pass {r : Readings nproc} (after : r.After c.sched.ticks) (last : r.now ≤ lastTick) :
    Effect c { c with sched := schedulerAt r c.sched } q := by
  obtain ⟨slots,second,third⟩ := after
  obtain ⟨lower,middle,upper⟩ := slots q
  have ticks := schedulerAt_ticks r c.sched
  have bounds : c.sched.ticks ≤ r.stamp q ∧ r.stamp q ≤ r.now := by
    simp only [UInt32.le_iff_toNat_le] at *
    omega
  obtain ⟨state,stamps⟩ := fixQueuesAt_cases r c.sched q
  refine ⟨?_, ?_, ?_, fun t same => .inl same, fun before busy => ?_⟩
  · rw [ticks]
    exact UInt32.le_trans bounds.1 bounds.2
  · rw [ticks]
    exact last
  · rw [ticks]
    show entered (schedulerAt r c.sched) q = _ ∨ _ ∨ ∃ t, _ ∧ _ ∧
      entered (schedulerAt r c.sched) q = _
    rcases schedulerAt_slot r c.sched q with slot | ⟨-,slot⟩
    · rw [entered, slot]
      rcases stamps with ⟨same,-⟩ | ⟨new,-⟩
      · exact .inl (congrArg Int32.toInt same)
      · exact .inr (.inr ⟨r.stamp q, bounds.1, bounds.2, congrArg Int32.toInt new⟩)
    · exact .inr (.inr ⟨r.now, UInt32.le_trans bounds.1 bounds.2, UInt32.le_refl _,
        by rw [entered, slot]⟩)
  · have embryo := before busy
    show ((schedulerAt r c.sched).proc q).state = .embryo
    rcases schedulerAt_slot r c.sched q with slot | ⟨runnable,-⟩
    · rw [slot, state, embryo]
    · rw [embryo] at runnable
      cases runnable

theorem turn_effect (timely : c.sched.ticks ≤ lastTick) (step : turn c e = some d) (q : Fin nproc) :
    Effect c d q := by
  by_cases call : isCall e
  · obtain ⟨ticks,touch⟩ := turn_touch call step
    exact effect_touch timely ticks (touch q)
  · cases e with
    | tick t =>
      obtain ⟨⟨onward,last⟩,taken⟩ := Option.ite_none_right_eq_some.mp step
      cases taken
      exact ⟨onward, last, .inl rfl, fun _ same => .inl same, fun before => before⟩
    | pass r =>
      obtain ⟨⟨after,last⟩,taken⟩ := Option.ite_none_right_eq_some.mp step
      cases taken
      exact effect_pass after last
    | _ => exact absurd rfl call

theorem timely_turn (slot : Fin nproc) (timely : Timely c) (step : turn c e = some d) :
    Timely d := by
  have effect := turn_effect timely.ticks step
  refine ⟨(effect slot).last, fun p => ?_, fun p t same => ?_,
    fun p => (effect p).embryo (timely.embryo p)⟩
  · have onward := UInt32.le_iff_toNat_le.mp (effect p).onward
    obtain ⟨low,high⟩ := timely.stamps p
    rcases (effect p).stamp with same | ⟨t,read,new⟩ | ⟨t,first,last,new⟩
    · omega
    · have before := UInt32.le_iff_toNat_le.mp (timely.reads p t read)
      rw [new, stamp_toInt (UInt32.le_trans (timely.reads p t read) timely.ticks)]
      omega
    · have upper := UInt32.le_iff_toNat_le.mp last
      rw [new, stamp_toInt (UInt32.le_trans last (effect p).last)]
      omega
  · rcases (effect p).read t same with old | rfl
    · exact UInt32.le_trans (timely.reads p t old) (effect p).onward
    · exact (effect p).onward

theorem timely_boot : Timely (clockedBoot : Clocked nproc F) where
  ticks := show (0 : UInt32) ≤ lastTick by decide
  stamps _ := show 0 ≤ (0 : Int32).toInt ∧ (0 : Int32).toInt ≤ (0 : UInt32).toNat by decide
  reads _ _ same := by cases same
  embryo _ busy := absurd rfl busy

theorem timely_run (slot : Fin nproc) {es : List (Turn nproc)}
    (run : exec turn clockedBoot es = some c) : Timely c :=
  exec_invariant Timely (fun _ _ _ timely _ step => timely_turn slot timely step) timely_boot
    (along_trivial _ es) run

def Stays (p : Fin nproc) (since : Int32) (c : Clocked nproc F) : Prop :=
  Waiting c.sched 1 p ∧ (c.sched.proc p).enteredQueue = since

instance (p : Fin nproc) (since : Int32) (c : Clocked nproc F) : Decidable (Stays p since c) :=
  inferInstanceAs (Decidable (_ ∧ _))

structure Behind (since : Int) (q : Fin nproc) (n : Nat) (c : Clocked nproc F) : Prop where
  once : 1 ≤ n → since ≤ entered c.sched q ∧ ∀ t, c.alloc q = .read t → since ≤ t.toNat
  twice : 2 ≤ n → since < entered c.sched q ∧ since < c.sched.ticks.toNat ∧
    ∀ t, c.alloc q = .read t → since < t.toNat
  atMost : n ≤ 2

theorem behind_other {since : Int} {n : Nat} (timely : Timely c) (behind : Behind since q n c)
    (past : since ≤ c.sched.ticks.toNat)
    (step : turn c e = some d) : Behind since q n d := by
  have effect := turn_effect timely.ticks step q
  have onward := UInt32.le_iff_toNat_le.mp effect.onward
  refine ⟨fun some_ => ?_, fun more => ?_, behind.atMost⟩
  · obtain ⟨stamp,reads⟩ := behind.once some_
    refine ⟨?_, fun t same => ?_⟩
    · rcases effect.stamp with same | ⟨t,read,new⟩ | ⟨t,first,last,new⟩
      · omega
      · rw [new, stamp_toInt (UInt32.le_trans (timely.reads q t read) timely.ticks)]
        exact reads t read
      · have lower := UInt32.le_iff_toNat_le.mp first
        rw [new, stamp_toInt (UInt32.le_trans last effect.last)]
        omega
    · rcases effect.read t same with old | rfl
      · exact reads t old
      · exact past
  · obtain ⟨stamp,late,reads⟩ := behind.twice more
    refine ⟨?_, by omega, fun t same => ?_⟩
    · rcases effect.stamp with same | ⟨t,read,new⟩ | ⟨t,first,last,new⟩
      · omega
      · rw [new, stamp_toInt (UInt32.le_trans (timely.reads q t read) timely.ticks)]
        exact reads t read
      · have lower := UInt32.le_iff_toNat_le.mp first
        rw [new, stamp_toInt (UInt32.le_trans last effect.last)]
        omega
    · rcases effect.read t same with old | rfl
      · exact reads t old
      · exact late

/-- A step in which it does: `q` has not entered its queue later than `p`, and does now. -/
theorem behind_taken {since : Int32} {n : Nat} (timely : Timely c)
    (behind : Behind since.toInt q n c) (stays : Stays p since c)
    (stays' : Stays p since d) (other : q ≠ p) (step : turn c e = some d)
    (takes_ : takes q c e = true) :
    Behind since.toInt q (n + 1) d := by
  cases e with
  | pass r =>
    have timely' := timely_turn q timely step
    obtain ⟨⟨⟨slots,second,third⟩,last⟩,taken⟩ := Option.ite_none_right_eq_some.mp step
    cases taken
    have picked : roundRobinAt r.time (fixQueuesAt r c.sched) = some q := of_decide_eq_true takes_
    obtain ⟨waits,late,best⟩ := roundRobinAt_best picked
    -- the pass has only written the slot of q since fix_queues
    have after : schedulerAt r c.sched = setProc { fixQueuesAt r c.sched with ticks := r.now } q
        { (fixQueuesAt r c.sched).proc q
          with enteredQueue := r.now.toInt32, state := .running, chan := 0 } := by
      unfold schedulerAt
      simp only [picked, Option.some_or]
    have kept : (schedulerAt r c.sched).proc p = (fixQueuesAt r c.sched).proc p := by
      rw [after]
      exact Function.update_of_ne (Ne.symm other) ..
    obtain ⟨waits',since'⟩ := stays'
    have waiting : Waiting (fixQueuesAt r c.sched) 1 p := by
      unfold Waiting at waits' ⊢
      rwa [← kept]
    have mine : ((fixQueuesAt r c.sched).proc p).enteredQueue = since := by
      rw [← kept]
      exact since'
    obtain ⟨lower,middle,upper⟩ := slots q
    have time : r.time ≤ lastTick := UInt32.le_trans second (UInt32.le_trans third last)
    have order : c.sched.ticks.toNat ≤ (r.stamp q).toNat ∧ (r.stamp q).toNat ≤ r.time.toNat ∧
        r.time.toNat ≤ r.now.toNat := by
      simp only [UInt32.le_iff_toNat_le] at *
      omega
    have past : 0 ≤ since.toInt ∧ since.toInt ≤ c.sched.ticks.toNat := by
      have bounds := timely.stamps p
      rwa [entered, stays.2] at bounds
    have own := timely.stamps q
    -- the stamp of q that round_robin sees: its own or one of this pass
    have stamp : entered (fixQueuesAt r c.sched) q = entered c.sched q ∨
        entered (fixQueuesAt r c.sched) q = (r.stamp q).toNat := by
      rcases (fixQueuesAt_cases r c.sched q).2 with ⟨same,-⟩ | ⟨new,-⟩
      · exact .inl (congrArg Int32.toInt same)
      · refine .inr ((congrArg Int32.toInt new).trans (stamp_toInt ?_))
        exact UInt32.le_trans upper time
    have lateness : ∀ v : Proc F, 0 ≤ v.enteredQueue.toInt → v.enteredQueue.toInt ≤ r.time.toNat →
        (starvedFor r.time.toInt32 v).toInt = r.time.toNat - v.enteredQueue.toInt := by
      intro v low high
      have := UInt32.le_iff_toNat_le.mp time
      have bound : lastTick.toNat = 2147483647 := rfl
      rw [starvedFor, Int32.toInt_sub, stamp_toInt time]
      exact Int.bmod_eq_of_le (by omega) (by omega)
    have seen : 0 ≤ entered (fixQueuesAt r c.sched) q ∧
        entered (fixQueuesAt r c.sched) q ≤ r.time.toNat := by omega
    have mine' : 0 ≤ ((fixQueuesAt r c.sched).proc p).enteredQueue.toInt ∧
        ((fixQueuesAt r c.sched).proc p).enteredQueue.toInt ≤ r.time.toNat := by
      rw [mine]
      omega
    have ahead : entered (fixQueuesAt r c.sched) q ≤ since.toInt := by
      have best := Int32.le_iff_toInt_le.mp (best p waiting)
      rw [lateness _ mine'.1 mine'.2, lateness _ seen.1 seen.2, mine] at best
      unfold entered at *
      omega
    have strictly : entered (fixQueuesAt r c.sched) q < r.time.toNat := by
      have late := Int32.lt_iff_toInt_lt.mp late
      rw [lateness _ seen.1 seen.2, show (0 : Int32).toInt = 0 from rfl] at late
      unfold entered at *
      omega
    have now : entered (schedulerAt r c.sched) q = r.now.toNat := by
      rw [after]
      simp [entered, setProc, stamp_toInt last]
    have ticks : (schedulerAt r c.sched).ticks = r.now := by
      rw [after]
      rfl
    have idle : c.alloc q = .idle := by
      by_contra busy
      have embryo := timely.embryo q busy
      rw [← (fixQueuesAt_cases r c.sched q).1, waits.1] at embryo
      cases embryo
    have noRead : ∀ t, c.alloc q ≠ .read t := by
      intro t same
      rw [idle] at same
      cases same
    refine ⟨fun _ => ⟨?_, fun t same => absurd same (noRead t)⟩,
      fun more => ⟨?_, ?_, fun t same => absurd same (noRead t)⟩, ?_⟩
    · show since.toInt ≤ entered (schedulerAt r c.sched) q
      omega
    · have := (behind.once (by omega)).1
      show since.toInt < entered (schedulerAt r c.sched) q
      omega
    · have := (behind.once (by omega)).1
      show since.toInt < (schedulerAt r c.sched).ticks.toNat
      rw [ticks]
      omega
    · by_contra many
      have := behind.twice (by omega)
      have := behind.atMost
      omega
  | _ => cases takes_

theorem taken_atMost {since : Int32} {n : Nat} {es : List (Turn nproc)} (timely : Timely c)
    (behind : Behind since.toInt q n c)
    (other : q ≠ p) (stays : Along turn (fun c _ => Stays p since c) c es)
    (run : exec turn c es = some d) (stays' : Stays p since d) :
    n + taken q c es ≤ 2 := by
  induction es generalizing c n with
  | nil => exact behind.atMost
  | cons e es ih =>
    obtain ⟨u,step,rest⟩ := exec_cons_iff.mp run
    have onward := along_tail stays step
    have here : Stays p since c := stays.1
    -- the state after this step stays too: it is the next one or the last one
    have next : Stays p since u := by
      cases es with
      | nil =>
        cases rest
        exact stays'
      | cons _ _ => exact onward.1
    have past : since.toInt ≤ c.sched.ticks.toNat := by
      have bounds := (timely.stamps p).2
      rwa [entered, here.2] at bounds
    rw [taken, step]
    by_cases takes_ : takes q c e = true
    · have := ih (timely_turn p timely step)
        (behind_taken timely behind here next other step takes_) onward rest
      simp only [takes_, if_true, Option.map_some, Option.getD_some]
      omega
    · have := ih (timely_turn p timely step) (behind_other timely behind past step) onward rest
      simp only [takes_, if_false, Option.map_some, Option.getD_some, Bool.false_eq_true]
      omega

/-- In every stretch of every run round_robin takes another slot at most twice. -/
theorem round_robin_bypass {before es : List (Turn nproc)} {since : Int32}
    (reached : exec turn (clockedBoot : Clocked nproc F) before = some c)
    (other : q ≠ p) (stays : Along turn (fun c _ => Stays p since c) c es)
    (run : exec turn c es = some d) (stays' : Stays p since d) :
    taken q c es ≤ 2 := by
  have behind : Behind since.toInt q 0 c :=
    ⟨fun none => absurd none (by decide), fun none => absurd none (by decide), by decide⟩
  have bound := taken_atMost (timely_run p reached) behind other stays run stays'
  omega

end Stamps

def stillPass {nproc : Nat} (t : UInt32) : Turn nproc := .pass ⟨fun _ => t, fun _ => t, t, t, t⟩

def firstSlot : Fin 2 := ⟨0, by decide⟩
def secondSlot : Fin 2 := ⟨1, by decide⟩

def twoEnter : List (Turn 2) :=
  [.found firstSlot, .clock firstSlot, .enter firstSlot, .ready firstSlot, .tick 1,
    .found secondSlot, .clock secondSlot, .enter secondSlot, .ready secondSlot]

def firstRuns : List (Turn 2) :=
  [stillPass 1, .yield firstSlot, .tick 2, stillPass 2, .yield firstSlot]

theorem round_robin_bypass_twice : ∃ c d : Clocked 2 Rat, exec turn clockedBoot twoEnter = some c ∧
    exec turn c firstRuns = some d ∧ Stays secondSlot 1 d ∧ taken firstSlot c firstRuns = 2 ∧
      taken firstSlot c firstRuns ≤ 2 := by
  have enter : (exec turn (clockedBoot : Clocked 2 Rat) twoEnter).map (fun c =>
      decide (Along turn (fun c _ => Stays secondSlot 1 c) c firstRuns ∧
        taken firstSlot c firstRuns = 2) &&
      ((exec turn c firstRuns).map fun d => decide (Stays secondSlot 1 d)) == some true) =
        some true := by decide +kernel
  obtain ⟨c,reached,rest⟩ := Option.map_eq_some_iff.mp enter
  simp only [Bool.and_eq_true, decide_eq_true_eq, beq_iff_eq, Option.map_eq_some_iff] at rest
  obtain ⟨⟨stays,twice⟩,d,run,stays'⟩ := rest
  exact ⟨c, d, reached, run, stays', twice, round_robin_bypass reached (by decide) stays run stays'⟩

end SchedulerPass
