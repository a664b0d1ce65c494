import Xv6.Scheduler.Bypass

/- fix_queues promotes a process when its entered_queue is old. Here the kernel runs beside a clock
   that does not wrap around, and each slot remembers when its process became runnable. -/

namespace SchedulerPass
open Param ProcTable RunLaws
variable {nproc : Nat} {F : Type} [FloatOps F]

structure Aged (nproc : Nat) (F : Type) where
  kernel : Clocked nproc F
  -- the timer interrupts so far; `ticks` has the last 32 bits
  clock : Nat
  -- the clock when the process of the slot last became runnable
  since : Fin nproc → Nat

structure Times (nproc : Nat) where
  test : Fin nproc → Nat
  stamp : Fin nproc → Nat
  time : Nat
  draw : Nat
  now : Nat

def Times.After (r : Times nproc) (t : Nat) : Prop :=
  (∀ p, t ≤ r.test p ∧ r.test p ≤ r.stamp p ∧ r.stamp p ≤ r.time) ∧ r.time ≤ r.draw ∧ r.draw ≤ r.now

instance (r : Times nproc) (t : Nat) : Decidable (r.After t) :=
  inferInstanceAs (Decidable (_ ∧ _ ∧ _))

def Times.readings (r : Times nproc) : Readings nproc :=
  ⟨fun p => .ofNat (r.test p), fun p => .ofNat (r.stamp p), .ofNat r.time, .ofNat r.draw,
    .ofNat r.now⟩

def Times.all (t : Nat) : Times nproc := ⟨fun _ => t, fun _ => t, t, t, t⟩

def Aged.next (a : Aged nproc F) (clock : Nat) (kernel : Clocked nproc F) : Aged nproc F :=
  ⟨kernel, clock, fun p =>
    if (kernel.sched.proc p).state = .runnable ∧ (a.kernel.sched.proc p).state ≠ .runnable then
      clock else a.since p⟩

inductive Deed (nproc : Nat) where
  | call (e : Turn nproc)
  -- timer interrupts, one or more in a row
  | tick (n : Nat)
  | pass (r : Times nproc)

def age (a : Aged nproc F) : Deed nproc → Option (Aged nproc F)
  | .call e => if isCall e then (turn a.kernel e).map (a.next a.clock) else none
  | .tick n =>
    some (a.next (a.clock + n) { a.kernel
      with sched := { a.kernel.sched with ticks := .ofNat (a.clock + n) } })
  | .pass r =>
    if r.After a.clock then some
      (a.next r.now { a.kernel with sched := schedulerAt r.readings a.kernel.sched }) else none

def agedBoot : Aged nproc F := ⟨clockedBoot, 0, fun _ => 0⟩

def Promotes (a : Aged nproc F) (r : Times nproc) (p : Fin nproc) : Prop :=
  (a.kernel.sched.proc p).state = .runnable ∧
    r.readings.test p - (a.kernel.sched.proc p).enteredQueue.toUInt32 ≥ starvingThreshold

/-- It has been runnable for the last STARVING_THRESHOLD ticks. -/
def Starving (a : Aged nproc F) (r : Times nproc) (p : Fin nproc) : Prop :=
  (a.kernel.sched.proc p).state = .runnable ∧ a.since p + starvingThreshold.toNat ≤ r.test p

/-- A process becomes runnable in the tick that its entered_queue names. -/
def Prompt (a : Aged nproc F) : Deed nproc → Prop
  | .call e =>
    ∀ p, Wakes a.kernel e p → (a.kernel.sched.proc p).enteredQueue = a.kernel.sched.ticks.toInt32
  | _ => True

variable {a b : Aged nproc F} {p q : Fin nproc} {r : Times nproc} {e : Deed nproc}

omit [FloatOps F] in
theorem fixQueuesAt_promotes (a : Aged nproc F) (r : Times nproc) (p : Fin nproc) :
    (Promotes a r p → (fixQueuesAt r.readings a.kernel.sched).proc p =
      { a.kernel.sched.proc p with queue := 1, enteredQueue := (r.readings.stamp p).toInt32 }) ∧
    (¬ Promotes a r p →
      (fixQueuesAt r.readings a.kernel.sched).proc p = a.kernel.sched.proc p) := by
  unfold Promotes fixQueuesAt
  dsimp only
  refine ⟨fun ⟨runnable,late⟩ => by rw [if_pos runnable, if_pos late], fun not => ?_⟩
  by_cases runnable : (a.kernel.sched.proc p).state = .runnable
  · rw [if_pos runnable, if_neg fun late => not ⟨runnable, late⟩]
  · rw [if_neg runnable]

structure Tracked (a : Aged nproc F) : Prop where
  ticks : a.kernel.sched.ticks = .ofNat a.clock
  embryo : ∀ p, a.kernel.alloc p ≠ .idle → (a.kernel.sched.proc p).state = .embryo
  stamps : ∀ p, (a.kernel.sched.proc p).state = .runnable →
    ∃ t, a.since p ≤ t ∧ t ≤ a.clock ∧
      (a.kernel.sched.proc p).enteredQueue = (UInt32.ofNat t).toInt32

omit [FloatOps F] in
theorem since_kept {clock : Nat} {kernel : Clocked nproc F}
    (was : (a.kernel.sched.proc p).state = .runnable) :
    (a.next clock kernel).since p = a.since p := if_neg fun ⟨_,not⟩ => not was

omit [FloatOps F] in
theorem since_woken {clock : Nat} {kernel : Clocked nproc F}
    (is : (kernel.sched.proc p).state = .runnable)
    (was : (a.kernel.sched.proc p).state ≠ .runnable) : (a.next clock kernel).since p = clock :=
      if_pos ⟨is, was⟩

theorem tracked_call {e : Turn nproc} {d : Clocked nproc F} (tracked : Tracked a) (call : isCall e)
    (step : turn a.kernel e = some d)
    (prompt : Prompt a (.call e)) : Tracked (a.next a.clock d) := by
  obtain ⟨ticks,touches⟩ := turn_touch call step
  refine ⟨ticks.trans tracked.ticks, fun q busy => ?_, fun q runnable => ?_⟩
  · have before := tracked.embryo q
    cases touches q with
    | kept alloc state stamp => exact state.trans (before (alloc ▸ busy))
    | found alloc state stamp => exact state
    | clock was alloc state stamp =>
      exact state.trans (before (by rw [was]; exact fun eq => by cases eq))
    | enter was alloc state stamp =>
      exact state.trans (before (by rw [was]; exact fun eq => by cases eq))
    | turned calm wakes stamp =>
      rcases calm with idle | ⟨alloc,not⟩
      · exact absurd idle busy
      · exact absurd (before (alloc ▸ busy)) not
  · have runnable : (d.sched.proc q).state = .runnable := runnable
    by_cases was : (a.kernel.sched.proc q).state = .runnable
    · -- nothing but allocproc writes the stamp, and not of a runnable process
      have stamp : (d.sched.proc q).enteredQueue = (a.kernel.sched.proc q).enteredQueue := by
        cases touches q with
        | kept alloc state stamp => exact stamp
        | found alloc state stamp => exact stamp
        | clock was alloc state stamp => exact stamp
        | enter busy alloc state stamp =>
          have embryo := tracked.embryo q (by rw [busy]; exact fun eq => by cases eq)
          rw [was] at embryo
          cases embryo
        | turned calm wakes stamp => exact stamp
      obtain ⟨t,first,last,same⟩ := tracked.stamps q was
      exact ⟨t, (since_kept was).trans_le first, last, stamp.trans same⟩
    · refine ⟨a.clock, (since_woken runnable was).le, Nat.le_refl _, ?_⟩
      have woken : Wakes a.kernel e q ∧
          (d.sched.proc q).enteredQueue = (a.kernel.sched.proc q).enteredQueue := by
        cases touches q with
        | kept alloc state stamp => exact absurd (state.symm.trans runnable) was
        | found alloc state stamp =>
          rw [runnable] at state
          cases state
        | clock busy alloc state stamp => exact absurd (state.symm.trans runnable) was
        | enter busy alloc state stamp => exact absurd (state.symm.trans runnable) was
        | turned calm wakes stamp => exact ⟨wakes runnable, stamp⟩
      exact woken.2.trans ((prompt q woken.1).trans (by rw [tracked.ticks]))

omit [FloatOps F] in
theorem tracked_tick {n : Nat} (tracked : Tracked a) :
    Tracked (a.next (a.clock + n)
      { a.kernel with sched := { a.kernel.sched with ticks := .ofNat (a.clock + n) } }) := by
  refine ⟨rfl, tracked.embryo, fun q runnable => ?_⟩
  have was : (a.kernel.sched.proc q).state = .runnable := runnable
  obtain ⟨t,first,last,same⟩ := tracked.stamps q was
  exact ⟨t, (since_kept was).trans_le first, Nat.le_add_right_of_le last, same⟩

theorem tracked_pass (tracked : Tracked a) (after : r.After a.clock) :
    Tracked (a.next r.now { a.kernel with sched := schedulerAt r.readings a.kernel.sched }) := by
  refine ⟨schedulerAt_ticks r.readings a.kernel.sched, fun q busy => ?_, fun q runnable => ?_⟩
  · have embryo := tracked.embryo q busy
    show ((schedulerAt r.readings a.kernel.sched).proc q).state = .embryo
    rcases schedulerAt_slot r.readings a.kernel.sched q with slot | ⟨was,-⟩
    · rw [slot, (fixQueuesAt_cases r.readings a.kernel.sched q).1, embryo]
    · rw [embryo] at was
      cases was
  · have runnable : ((schedulerAt r.readings a.kernel.sched).proc q).state = .runnable := runnable
    show ∃ t, _ ∧ t ≤ r.now ∧ ((schedulerAt r.readings a.kernel.sched).proc q).enteredQueue = _
    obtain ⟨slots,second,third⟩ := after
    obtain ⟨lower,middle,upper⟩ := slots q
    rcases schedulerAt_slot r.readings a.kernel.sched q with slot | ⟨-,slot⟩
    · obtain ⟨state,stamps⟩ := fixQueuesAt_cases r.readings a.kernel.sched q
      rw [slot] at runnable ⊢
      have was := state.symm.trans runnable
      obtain ⟨t,first,last,same⟩ := tracked.stamps q was
      rw [since_kept was]
      rcases stamps with ⟨kept,-⟩ | ⟨new,-⟩
      · exact ⟨t, first, by omega, kept.trans same⟩
      · exact ⟨r.stamp q, by omega, by omega, new⟩
    · rw [slot] at runnable
      cases runnable

theorem tracked_age (tracked : Tracked a) (prompt : Prompt a e) (step : age a e = some b) :
    Tracked b := by
  cases e with
  | call e =>
    obtain ⟨call,taken⟩ := Option.ite_none_right_eq_some.mp step
    obtain ⟨d,turned,rfl⟩ := Option.map_eq_some_iff.mp taken
    exact tracked_call tracked call turned prompt
  | tick n =>
    cases step
    exact tracked_tick tracked
  | pass r =>
    obtain ⟨after,taken⟩ := Option.ite_none_right_eq_some.mp step
    cases taken
    exact tracked_pass tracked after

theorem tracked_boot : Tracked (agedBoot : Aged nproc F) where
  ticks := rfl
  embryo _ busy := absurd rfl busy
  stamps _ runnable := by cases runnable

theorem late_of_promotes {s t : Nat} (order : s ≤ t) {n : UInt32}
    (late : UInt32.ofNat t - UInt32.ofNat s ≥ n) : s + n.toNat ≤ t := by
  have late := UInt32.le_iff_toNat_le.mp late
  have difference : UInt32.ofNat t - UInt32.ofNat s = UInt32.ofNat (t - s) := by
    rw [← Nat.sub_add_cancel order, UInt32.ofNat_add, Nat.add_sub_cancel, UInt32.add_sub_cancel]
  rw [difference, UInt32.toNat_ofNat'] at late
  have := Nat.mod_le (t - s) (2 ^ 32)
  omega

omit [FloatOps F] in
theorem starving_of_promotes (tracked : Tracked a) (after : r.After a.clock)
    (promotes : Promotes a r p) : Starving a r p := by
  obtain ⟨runnable,late⟩ := promotes
  obtain ⟨t,first,last,same⟩ := tracked.stamps p runnable
  obtain ⟨lower,-⟩ := after.1 p
  rw [same, UInt32.toUInt32_toInt32] at late
  have := late_of_promotes (by omega : t ≤ r.test p) late
  exact ⟨runnable, by omega⟩

theorem turn_wakes {e : Turn nproc} {d : Clocked nproc F} (tracked : Tracked a)
    (step : turn a.kernel e = some d) (wakes : Wakes a.kernel e p) :
    (a.kernel.sched.proc p).state ≠ .runnable ∧ (d.sched.proc p).state = .runnable ∧
      (d.sched.proc p).enteredQueue = (a.kernel.sched.proc p).enteredQueue := by
  cases e with
  | ready q =>
    obtain rfl : p = q := wakes
    obtain ⟨filled,taken⟩ := Option.ite_none_right_eq_some.mp step
    cases taken
    refine ⟨?_, by simp [setProc], by simp [setProc]⟩
    rw [tracked.embryo p (by rw [filled]; exact fun eq => by cases eq)]
    decide
  | yield q =>
    obtain rfl : p = q := wakes
    obtain ⟨runs,taken⟩ := Option.ite_none_right_eq_some.mp step
    cases taken
    exact ⟨by rw [runs]; decide, by simp [yield, setProc], by simp [yield, setProc]⟩
  | rouse q =>
    obtain rfl : p = q := wakes
    obtain ⟨asleep,taken⟩ := Option.ite_none_right_eq_some.mp step
    cases taken
    exact ⟨by rw [asleep]; decide, by simp [setProc], by simp [setProc]⟩
  | wakeup chan =>
    obtain ⟨asleep,there⟩ : _ ∧ _ := wakes
    cases step
    exact ⟨by rw [asleep]; decide, by simp [wakeup, asleep, there], by simp [wakeup, asleep, there]⟩
  | _ => exact wakes.elim

/-- From a stamp that is not of this tick on there is a time, before the threshold is reached from
    now on, at which the stamp looks old. -/
theorem old_stamp (clock : Nat) (stamp : UInt32) (other : stamp ≠ UInt32.ofNat clock) :
    ∃ n < starvingThreshold.toNat, UInt32.ofNat (clock + n) - stamp ≥ starvingThreshold := by
  have some_ : (UInt32.ofNat clock - stamp).toNat ≠ 0 := fun zero => other (by
    have same : UInt32.ofNat clock - stamp = 0 := UInt32.toNat_inj.mp zero
    have whole := UInt32.sub_add_cancel (UInt32.ofNat clock) stamp
    rwa [same, UInt32.zero_add] at whole)
  have bound := (UInt32.ofNat clock - stamp).toNat_lt
  have threshold : starvingThreshold.toNat = 8000 := rfl
  have shift : ∀ n, UInt32.ofNat (clock + n) - stamp = (UInt32.ofNat clock - stamp) +
      UInt32.ofNat n := fun n => by
    rw [UInt32.ofNat_add, UInt32.sub_eq_add_neg, UInt32.sub_eq_add_neg, UInt32.add_assoc,
      UInt32.add_assoc,
      UInt32.add_comm (UInt32.ofNat n)]
  by_cases old : 8000 ≤ (UInt32.ofNat clock - stamp).toNat
  · exact ⟨0, by omega, UInt32.le_iff_toNat_le.mpr (by rw [threshold]; exact old)⟩
  · refine ⟨8000 - (UInt32.ofNat clock - stamp).toNat, by omega, UInt32.le_iff_toNat_le.mpr ?_⟩
    rw [shift, UInt32.toNat_add, UInt32.toNat_ofNat', threshold]
    omega

theorem wrong_promotion (tracked : Tracked a) (step : age a e = some b) (late : ¬ Prompt a e) :
    ∃ n r p c, age b (.tick n) = some c ∧ r.After c.clock ∧ Promotes c r p ∧ ¬ Starving c r p := by
  cases e with
  | tick n => exact absurd trivial late
  | pass r => exact absurd trivial late
  | call e =>
    obtain ⟨call,taken⟩ := Option.ite_none_right_eq_some.mp step
    obtain ⟨d,turned,rfl⟩ := Option.map_eq_some_iff.mp taken
    simp only [Prompt, not_forall] at late
    obtain ⟨p,wakes,other⟩ := late
    obtain ⟨was,runnable,stamp⟩ := turn_wakes tracked turned wakes
    have other : (a.kernel.sched.proc p).enteredQueue.toUInt32 ≠ UInt32.ofNat a.clock :=
      fun same => other (by
        rw [tracked.ticks, ← same, Int32.toInt32_toUInt32])
    obtain ⟨n,soon,old⟩ := old_stamp a.clock _ other
    refine ⟨n, Times.all (a.clock + n), p, _, rfl,
      ⟨fun _ => ⟨Nat.le_refl _, Nat.le_refl _, Nat.le_refl _⟩, Nat.le_refl _, Nat.le_refl _⟩,
      ⟨runnable, ?_⟩, fun starving => ?_⟩
    · show UInt32.ofNat (a.clock + n) - (d.sched.proc p).enteredQueue.toUInt32 ≥ _
      rw [stamp]
      exact old
    · have woken : (a.next a.clock d).since p = a.clock := since_woken runnable was
      have late : _ ≤ _ := starving.2
      rw [since_kept (show ((a.next a.clock d).kernel.sched.proc p).state = .runnable
        from runnable), woken] at late
      have late : a.clock + starvingThreshold.toNat ≤ a.clock + n := late
      omega

theorem aging_promotes_starving {before : List (Deed nproc)}
    (run : exec age (agedBoot : Aged nproc F) before = some a)
    (prompt : Along age Prompt (agedBoot : Aged nproc F) before) :
    (∀ r p, (Promotes a r p → (fixQueuesAt r.readings a.kernel.sched).proc p =
        { a.kernel.sched.proc p with queue := 1, enteredQueue := (r.readings.stamp p).toInt32 }) ∧
      (¬ Promotes a r p →
        (fixQueuesAt r.readings a.kernel.sched).proc p = a.kernel.sched.proc p)) ∧
    (∀ r p, r.After a.clock → Promotes a r p → Starving a r p) ∧
    ∀ e b, age a e = some b → ¬ Prompt a e →
      ∃ n r p c, age b (.tick n) = some c ∧ r.After c.clock ∧ Promotes c r p ∧
        ¬ Starving c r p := by
  have tracked : Tracked a := exec_invariant Tracked (fun _ _ _ tracked prompt step =>
    tracked_age tracked prompt step) tracked_boot prompt run
  exact ⟨fixQueuesAt_promotes a, fun r p after promotes =>
    starving_of_promotes tracked after promotes,
    fun e b step late => wrong_promotion tracked step late⟩

def longSleep : List (Deed 2) :=
  [.call (.found firstSlot), .call (.clock firstSlot), .call (.enter firstSlot),
    .call (.ready firstSlot), .tick 1, .pass (.all 1),
    .call (.sleep firstSlot 5), .tick 8000]

instance decidableWakes (c : Clocked nproc F) :
    (e : Turn nproc) → (q : Fin nproc) → Decidable (Wakes c e q)
  | .ready _, _ => inferInstanceAs (Decidable (_ = _))
  | .yield _, _ => inferInstanceAs (Decidable (_ = _))
  | .rouse _, _ => inferInstanceAs (Decidable (_ = _))
  | .wakeup _, _ => inferInstanceAs (Decidable (_ ∧ _))
  | .found _, _ => isFalse id
  | .clock _, _ => isFalse id
  | .enter _, _ => isFalse id
  | .giveUp _, _ => isFalse id
  | .sleep _ _, _ => isFalse id
  | .exit _, _ => isFalse id
  | .wait _, _ => isFalse id
  | .setProcQueue _ _, _ => isFalse id
  | .setLotteryParams _ _, _ => isFalse id
  | .setAProcBjfParams _ _ _ _, _ => isFalse id
  | .setAllBjfParams _ _ _, _ => isFalse id
  | .tick _, _ => isFalse id
  | .pass _, _ => isFalse id

instance decidablePrompt (a : Aged nproc F) : (e : Deed nproc) → Decidable (Prompt a e)
  | .call _ => inferInstanceAs (Decidable (∀ _, _ → _))
  | .tick _ => isTrue trivial
  | .pass _ => isTrue trivial

instance (a : Aged nproc F) (r : Times nproc) (p : Fin nproc) : Decidable (Promotes a r p) :=
  inferInstanceAs (Decidable (_ ∧ _))

instance (a : Aged nproc F) (r : Times nproc) (p : Fin nproc) : Decidable (Starving a r p) :=
  inferInstanceAs (Decidable (_ ∧ _))

theorem promoted_when_woken :
    ∃ a : Aged 2 Rat, exec age agedBoot (longSleep ++ [.call (.wakeup 5)]) = some a ∧
    Promotes a (.all 8001) firstSlot ∧ ¬ Starving a (.all 8001) firstSlot := by
  have outcome : (exec age (agedBoot : Aged 2 Rat) (longSleep ++ [.call (.wakeup 5)])).map (fun a =>
      (decide (Promotes a (.all 8001) firstSlot), decide (Starving a (.all 8001) firstSlot))) = some
        (true, false) := by decide +kernel
  obtain ⟨a,run,facts⟩ := Option.map_eq_some_iff.mp outcome
  simp only [Prod.mk.injEq, decide_eq_true_eq, decide_eq_false_iff_not] at facts
  exact ⟨a, run, facts⟩

def longWait : List (Deed 2) :=
  [.call (.found firstSlot), .call (.clock firstSlot), .call (.enter firstSlot),
    .call (.ready firstSlot), .tick 8000]

theorem aging_promotes_starving_long_wait : ∃ a : Aged 2 Rat, exec age agedBoot longWait = some a ∧
    Promotes a (.all 8000) firstSlot ∧ Starving a (.all 8000) firstSlot := by
  have prompt : Along age Prompt (agedBoot : Aged 2 Rat) longWait := by decide +kernel
  have outcome : (exec age (agedBoot : Aged 2 Rat) longWait).map (fun a =>
      (decide (Promotes a (.all 8000) firstSlot), a.clock)) = some (true, 8000) := by decide +kernel
  obtain ⟨a,run,facts⟩ := Option.map_eq_some_iff.mp outcome
  simp only [Prod.mk.injEq, decide_eq_true_eq] at facts
  have after : (Times.all 8000 : Times 2).After a.clock := by
    rw [facts.2]
    decide
  exact ⟨a, run, facts.1, (aging_promotes_starving run prompt).2.1 _ _ after facts.1⟩

end SchedulerPass
