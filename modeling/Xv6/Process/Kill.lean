import Xv6.Process.Family

/- Slots and kill. wait clears a slot's pid, parent and killed flag when it gives it back; the
   error paths of fork clear none of them. kill looks for its pid in all slots, also unused
   ones. So after a failed fork, or by kill(0), an unused slot can be marked killed, and the
   next process to get it is born killed. -/
namespace ProcessKill
open Param ProcessSystem ProcessTable ProcessFamily RunLaws
variable {n ncpu : Nat}

/-- What is expected of a step from `s` to `t`: unused slots are clear; kill succeeds only on a
    process that was created and not reaped, and marks that one alone; a child starts unmarked
    unless kill was called with its pid. -/
structure Hygienic (s : State n ncpu) (e : Event n ncpu) (t : State n ncpu) : Prop where
  clear : ∀ i, (t.proc i).state = .unused →
    (t.proc i).pid = 0 ∧ (t.proc i).parent = none ∧ (t.proc i).killed = false
  marks : ∀ pid i, e = .kill pid → firstSlot s (fun q => (q.pid : Int) = pid) = some i →
    (s.proc i).state ≠ .unused ∧ ((s.proc i).pid : Int) = pid ∧ (t.proc i).killed = true ∧
      ∀ j, j ≠ i → (t.proc j).killed = (s.proc j).killed ∧
        ((s.proc j).state ≠ .unused → ((s.proc j).pid : Int) ≠ pid)
  birth : ∀ i, (s.proc i).state = .embryo → (t.proc i).state = .runnable →
    (t.proc i).killed = true → ((t.proc i).pid : Int) ∈ t.kills

def Clean (init : Fin n) (s : State n ncpu) (e : Event n ncpu) : Prop :=
  ∀ t, step init s e = some t → Hygienic s e t

def mayFail : Pc n → Bool
  | .forkStack _ | .forkCopy _ => true
  | _ => false

/-- No fork fails after it has taken a slot, and kill(0) is not called while a slot is unused. -/
def Spared (s : State n ncpu) : Event n ncpu → Prop
  | .forkStep c ok => ∀ p, s.cpu c = some p → mayFail (s.proc p).pc = true → ok = true
  | .kill pid => pid = 0 → ∀ i, (s.proc i).state ≠ .unused
  | _ => True

structure Plain (a b : Proc n) : Prop where
  pid : b.pid = a.pid
  killed : b.killed = a.killed
  unused : b.state = .unused → a.state = .unused

theorem plain_refl (a : Proc n) : Plain a a := ⟨rfl, rfl, id⟩

theorem plain_pc (a : Proc n) (c : Pc n) : Plain a { a with pc := c } := ⟨rfl, rfl, id⟩

theorem plain_trans {a b d : Proc n} (first : Plain a b) (second : Plain b d) : Plain a d :=
  ⟨second.pid.trans first.pid, second.killed.trans first.killed, first.unused ∘ second.unused⟩

theorem plain_of_woken {a b : Proc n} (woken : Woken a b) : Plain a b := by
  obtain rfl | ⟨-,rfl⟩ := woken
  · exact plain_refl _
  · exact ⟨rfl, rfl, by simp⟩

theorem plain_update {proc : Fin n → Proc n} {p : Fin n} {b : Proc n} (plain : Plain (proc p) b)
    (i : Fin n) : Plain (proc i) (Function.update proc p b i) := by
  by_cases this : i = p
  · subst this
    simpa using plain
  · simpa [this] using plain_refl (proc i)

def Marked (s : State n ncpu) : Prop :=
  (∀ i, (s.proc i).state = .unused → (s.proc i).pid = 0 ∧ (s.proc i).killed = false) ∧
  ∀ i, (s.proc i).killed = true → ((s.proc i).pid : Int) ∈ s.kills

variable {s t : State n ncpu}

theorem marked_plain (marked : Marked s) (kills : t.kills = s.kills)
    (plain : ∀ i, Plain (s.proc i) (t.proc i)) : Marked t := by
  refine ⟨fun i unused => ?_, fun i killed => ?_⟩
  · rw [(plain i).pid, (plain i).killed]
    exact marked.1 i ((plain i).unused unused)
  · rw [(plain i).pid, kills]
    exact marked.2 i ((plain i).killed ▸ killed)

theorem marked_reap (marked : Marked s) (p i : Fin n) : Marked (reap s p i) := by
  obtain ⟨clear,called⟩ := marked
  constructor <;> intro j <;> rw [reap_proc] <;> split
  · simp
  · exact clear j
  · simp
  · exact called j

theorem marked_passes {c : Fin ncpu} {p : Fin n} (marked : Marked s)
    (passes : Passes s c p t) : Marked t := by
  cases passes with
  | reap i => exact marked_plain (marked_reap marked p i) rfl (plain_update (plain_pc _ _))
  | giveUp => exact marked_plain marked rfl (plain_update (plain_pc _ _))
  | sleep => exact marked_plain marked rfl (plain_update ⟨rfl, rfl, by simp⟩)

variable {e : Event n ncpu}

theorem marked_step {init : Fin n} (family : Family init s)
    (marked : Marked s) (spared : Spared s e) (move : step init s e = some t) : Marked t := by
  cases step_moves move with
  | schedule c p => exact marked_plain marked rfl (plain_update ⟨rfl, rfl, by simp⟩)
  | resume c p idle ready waits t passes =>
    refine marked_passes (s := dispatch s c p) (marked_plain marked rfl (plain_update ?_)) passes
    exact ⟨rfl, rfl, by simp⟩
  | yield => exact marked_plain marked rfl (plain_update ⟨rfl, rfl, by simp⟩)
  | sleep => exact marked_plain marked rfl (plain_update ⟨rfl, rfl, by simp⟩)
  | wakeup k => exact marked_plain marked rfl fun i => plain_of_woken (rouse_woken _ _)
  | kill pid i found =>
    have used : (s.proc i).state ≠ .unused := by
      intro unused
      have zero := (marked.1 i unused).1
      exact spared (by rw [← found, zero]; rfl) i unused
    obtain ⟨clear,called⟩ := marked
    constructor <;> intro j <;> simp only [modify_proc] <;> split
    · by_cases asleep : (s.proc i).state = .sleeping <;> simp [strike, asleep, used]
    · exact clear j
    · intro _
      simp [State.modify, strike, found]
    · intro killed
      exact List.mem_cons_of_mem _ (called j killed)
  | miss =>
    exact ⟨marked.1, fun i killed => List.mem_cons_of_mem _ (marked.2 i killed)⟩
  | full => exact marked
  | alloc c p i on user free =>
    obtain ⟨clear,called⟩ := marked
    have unmarked := (clear i free).2
    refine marked_plain (s := { s with nextpid := s.nextpid + 1 }.modify i
      fun q => { q with state := .embryo, pid := s.nextpid }) ?_ rfl (plain_update (plain_pc _ _))
    constructor <;> intro j <;> simp only [modify_proc] <;> split
    · simp
    · exact clear j
    · simp [unmarked]
    · exact called j
  | fork c p on ok t forks =>
    have stages := family.sane.table.forking p
    cases forks with
    | noStack i at_ => exact absurd (spared p on (by rw [at_]; rfl)) (by simp)
    | noCopy i at_ => exact absurd (spared p on (by rw [at_]; rfl)) (by simp)
    | stack i at_ | copy i at_ | parent i ok at_ | ready i ok at_ =>
      obtain ⟨embryo,-⟩ := stages i (by rw [at_]; rfl)
      refine marked_plain marked rfl fun q =>
        plain_trans (plain_update ?_ q) (plain_update (plain_pc _ _) q)
      exact ⟨rfl, rfl, by simp [embryo]⟩
  | exit c p on user other =>
    have exits := exit_spec other (c := c) (family.sane.cpus.on c p on)
    refine marked_plain marked (by rw [exits.rest]) fun i => ?_
    obtain ⟨-,pid,killed,-,-,-,-,state⟩ := exits_fields exits i
    refine ⟨pid, killed, fun unused => ?_⟩
    obtain ⟨-,zombie⟩ | ⟨-,same | ⟨-,woken⟩⟩ := state
    · rw [zombie] at unused; cases unused
    · rw [← same, unused]
    · rw [woken] at unused; cases unused
  | wait c p on user t passes => exact marked_passes marked passes

theorem hygienic_of_spared {init : Fin n}
    (family : Family init s) (marked : Marked s) (spared : Spared s e)
    (move : step init s e = some t) : Hygienic s e t := by
  have after := marked_step family marked spared move
  have table := (sane_step family.sane move).table
  refine ⟨fun i unused => ?_, ?_, fun i _ _ killed => after.2 i killed⟩
  · exact ⟨(after.1 i unused).1, table.empty i unused, (after.1 i unused).2⟩
  · rintro pid i rfl found
    have same : ((s.proc i).pid : Int) = pid := by simpa using firstSlot_some found
    have used : (s.proc i).state ≠ .unused := by
      intro unused
      exact spared (by rw [← same, (marked.1 i unused).1]; rfl) i unused
    simp only [step, kill, found, Option.some.injEq] at move
    subst move
    refine ⟨used, same, ?_, fun j ne => ⟨?_, fun live again => ne ?_⟩⟩
    · rw [modify_self]
      rfl
    · rw [modify_other _ ne]
    · have equal : (s.proc j).pid = (s.proc i).pid := by
        rw [← same] at again
        exact_mod_cast again
      exact family.pids.apart j i equal (family.pids.used j live)

theorem spared_of_clean {init : Fin n}
    (family : Family init s) (marked : Marked s) (clean : Clean init s e) : Spared s e := by
  cases e with
  | kill pid =>
    -- the unused slot has pid 0, so the search stops at a slot with pid 0, which is unused
    rintro rfl i unused
    have zero : (s.proc i).pid = 0 := (marked.1 i unused).1
    cases found : firstSlot s fun q => (q.pid : Int) = 0 with
    | none => simpa [zero] using firstSlot_none found i
    | some j =>
      have zero' : (s.proc j).pid = 0 := by simpa using firstSlot_some found
      obtain ⟨used,-⟩ := (clean _ rfl).marks 0 j rfl found
      have := family.pids.used j used
      omega
  | forkStep c ok =>
    intro p on fails
    cases ok with
    | true => rfl
    | false =>
      -- the slot is given back with the pid it has got
      have back : ∀ i, target (s.proc p).pc = some i →
        ∀ t, step init s (.forkStep c false) = some t →
          (t.proc i).state = .unused → (t.proc i).pid = (s.proc i).pid → False := by
        intro i forks t move unused pid
        obtain ⟨embryo,-⟩ := family.sane.table.forking p i forks
        have positive := family.pids.used i (by simp [embryo])
        have := ((clean t move).clear i unused).1
        omega
      have live : ∀ i, target (s.proc p).pc = some i → i ≠ p := by
        rintro i forks rfl
        have := (family.sane.table.forking i i forks).1
        rw [family.sane.cpus.on c i on] at this
        cases this
      cases at_ : (s.proc p).pc with
      | forkStack i =>
        have forks : target (s.proc p).pc = some i := by rw [at_]; rfl
        refine (back i forks _ (by simp only [step, on, Option.bind_some, forkStep, at_]; rfl) ?_
          ?_).elim
        · simp [modify_proc, live i forks]
        · simp [modify_proc, live i forks]
      | forkCopy i =>
        have forks : target (s.proc p).pc = some i := by rw [at_]; rfl
        refine (back i forks _ (by simp only [step, on, Option.bind_some, forkStep, at_]; rfl) ?_
          ?_).elim
        · simp [modify_proc, live i forks]
        · simp [modify_proc, live i forks]
      | user | inWait | forkParent | forkReady => simp [at_, mayFail] at fails
  | _ => trivial

/-- Slots and kill behave along exactly the runs in which no fork fails after it has taken a
    slot and kill(0) is not called while a slot is unused. -/
theorem slot_hygiene_iff (init : Fin n) (es : List (Event n ncpu)) :
    Along (step init) (Clean init) (boot ncpu init) es ↔
      Along (step init) Spared (boot ncpu init) es := by
  refine along_congr (fun s => Family init s ∧ Marked s) ?_ ?_ ⟨family_boot ncpu init, ?_, ?_⟩ es
  · rintro s e ⟨family,marked⟩
    exact ⟨spared_of_clean family marked,
      fun spared t move => hygienic_of_spared family marked spared move⟩
  · rintro s e t ⟨family,marked⟩ spared move
    exact ⟨family_step family move, marked_step family marked spared move⟩
  · intro i
    rw [boot_proc]
    split <;> simp
  · intro i
    rw [boot_proc]
    split <;> simp

def killZero : List (Event 64 2) :=
  [.schedule 0 0, .kill 0, .fork 0, .forkStep 0 true, .forkStep 0 true, .forkStep 0 true,
    .forkStep 0 true]

def failedFork : List (Event 64 2) := [.schedule 0 0, .fork 0, .forkStep 0 false, .kill 2]

theorem child_born_killed :
    (∃ s, exec (step 0) (boot 2 (0 : Fin 64)) killZero = some s ∧ (s.proc 1).state = .runnable ∧
      (s.proc 1).killed = true ∧ ((s.proc 1).pid : Int) ∉ s.kills) ∧
    ∃ s, exec (step 0) (boot 2 (0 : Fin 64)) failedFork = some s ∧ (s.proc 1).state = .unused ∧
      (s.proc 1).pid = 2 ∧ (s.proc 1).killed = true := by
  have zero : (exec (step 0) (boot 2 (0 : Fin 64)) killZero).map
      (fun s => ((s.proc 1).state, (s.proc 1).killed, (s.proc 1).pid, s.kills)) =
        some (.runnable, true, 2, [0]) := by
    decide +kernel
  have failed : (exec (step 0) (boot 2 (0 : Fin 64)) failedFork).map
      (fun s => ((s.proc 1).state, (s.proc 1).pid, (s.proc 1).killed)) =
        some (.unused, 2, true) := by
    decide +kernel
  obtain ⟨s,run,ends⟩ := Option.map_eq_some_iff.mp zero
  obtain ⟨s',run',ends'⟩ := Option.map_eq_some_iff.mp failed
  simp only [Prod.mk.injEq] at ends ends'
  obtain ⟨state,killed,pid,kills⟩ := ends
  exact ⟨⟨s, run, state, killed, by simp [pid, kills]⟩, s', run', ends'.1, ends'.2.1, ends'.2.2⟩

end ProcessKill
