import Mathlib.Algebra.Order.BigOperators.Group.Finset
import Xv6.Pipe.System

/- Who may sleep on the pipe. A process that changes a counter or shuts an end owes a wakeup
   to the other side, and has to pay it before it drops the lock. All paths of pipe.c pay
   but one: a writer that finds the pipe full and itself killed leaves at once, and the
   readers it owes for the bytes it has stored sleep on. -/
namespace PipeSleepers
open PipeSystem RunLaws
variable {nproc : Nat}

def holds : Pc → Bool
  | .user | .writeCall _ | .writeSleep _ | .readCall _ | .readSleep _ | .closeCall _ => false
  | _ => true

def asleep : Pc → Option End
  | .readSleep _ => some .read
  | .writeSleep _ => some .write
  | _ => none

def drowsy : Pc → Option End
  | .readSleepy _ => some .read
  | .writeFull _ | .writeSleepy _ => some .write
  | _ => none

def owes : Pc → Option End
  | .writing _ | .writeFull _ | .writeDone | .closeFlagged .write => some .read
  | .copying _ | .readDone | .closeFlagged .read => some .write
  | _ => none

def uses : Pc → Option End
  | .writeCall _ | .writing _ | .writeFull _ | .writeSleepy _ | .writeSleep _ => some .write
  | .readCall _ | .reading _ | .readSleepy _ | .readSleep _ => some .read
  | _ => none

def closes : Pc → Option End
  | .closeCall e | .closing e => some e
  | _ => none

def Stuck (p : Pipe) : End → Prop
  | .read => p.Empty ∧ p.writeopen = true
  | .write => p.Full ∧ p.readopen = true

@[simp] theorem holds_wake (e : End) (c : Pc) : holds (wake e c) = holds c := by
  cases e <;> cases c <;> rfl

@[simp] theorem owes_wake (e : End) (c : Pc) : owes (wake e c) = owes c := by
  cases e <;> cases c <;> rfl

@[simp] theorem drowsy_wake (e : End) (c : Pc) : drowsy (wake e c) = drowsy c := by
  cases e <;> cases c <;> rfl

@[simp] theorem uses_wake (e : End) (c : Pc) : uses (wake e c) = uses c := by
  cases e <;> cases c <;> rfl

@[simp] theorem closes_wake (e : End) (c : Pc) : closes (wake e c) = closes c := by
  cases e <;> cases c <;> rfl

variable {c : Pc}

theorem asleep_wake {e f : End} (sleeps : asleep (wake e c) = some f) :
    asleep c = some f ∧ f ≠ e := by
  cases e <;> cases c <;> simp_all [wake, asleep]
  all_goals
    cases sleeps
    decide

theorem uses_of_asleep {e : End} (sleeps : asleep c = some e) : uses c = some e := by
  cases c <;> simp_all [asleep, uses]

theorem holds_of_drowsy {e : End} (tired : drowsy c = some e) : holds c = true := by
  cases c <;> simp_all [drowsy, holds]

variable {d : Pc}

theorem entered_spec (door : entered c = some d) :
    holds c = false ∧ holds d = true ∧ asleep d = none ∧ drowsy d = none ∧
      uses d = uses c ∧ closes d = closes c := by
  cases c <;> simp_all [entered] <;> cases door <;> simp [holds, asleep, drowsy, uses, closes]

theorem notifies_spec {e : End} (due : notifies c = some (e, d)) :
    holds c = true ∧ owes c = some e ∧ holds d = true ∧ owes d = none ∧ asleep d = none ∧
      (∀ f, drowsy d = some f → drowsy c = some f) ∧
      (∀ f, uses d = some f → uses c = some f) ∧ closes d = none := by
  cases c with
  | closeFlagged f => cases f <;> cases due <;> decide
  | _ =>
    simp_all [notifies] <;> obtain ⟨rfl,rfl⟩ :=
      due <;> simp [holds, owes, asleep, drowsy, uses, closes]

theorem dozes_spec (tired : dozes c = some d) :
    holds c = true ∧ holds d = false ∧ owes c = none ∧ drowsy d = none ∧
      asleep d = drowsy c ∧ uses d = uses c ∧ closes d = none := by
  cases c <;> simp_all [dozes] <;> cases tired <;>
    simp [holds, owes, asleep, drowsy, uses, closes]

variable {s : State nproc} {p : Fin nproc}

theorem turns_spec (turns : Turns s p c d) :
    holds c = true ∧ holds d = true ∧ asleep d = none ∧
      (∀ f, uses d = some f → uses c = some f) ∧ closes d = none ∧
      (∀ f, drowsy d = some f → Stuck s.pipe f) := by
  cases turns <;> simp_all [holds, asleep, uses, closes, drowsy, Stuck]

def Locked (s : State nproc) : Prop := ∀ p, holds (s.pc p) = true ↔ s.lock = some p

variable {t : State nproc}

theorem locked_of_same (locked : Locked s) (lock : t.lock = s.lock)
    (same : ∀ q, holds (t.pc q) = holds (s.pc q)) : Locked t := by
  intro q
  rw [same, lock]
  exact locked q

theorem holds_setPc (at_ : s.pc p = c)
    (same : holds d = holds c) (q : Fin nproc) : holds ((s.setPc p d).pc q) = holds (s.pc q) := by
  by_cases mine : q = p
  · subst mine
    simp [State.setPc, at_, same]
  · simp [State.setPc, mine]

theorem locked_release (locked : Locked s)
    (held : holds (s.pc p) = true) (out : holds d = false) : Locked (s.release p d) := by
  intro q
  have mine : s.lock = some p := (locked p).mp held
  by_cases same : q = p
  · subst same
    simp [State.release, State.setPc, out]
  · have other : ¬ holds (s.pc q) = true := by
      intro also
      exact same (Option.some.inj (((locked q).mp also).symm.trans mine))
    simp [State.release, State.setPc, same, other]

theorem locked_acquire (locked : Locked s)
    (free : s.lock = none) (inside : holds d = true) :
    Locked { s.setPc p d with lock := some p } := by
  intro q
  by_cases same : q = p
  · subst same
    simp [State.setPc, inside]
  · have other : ¬ holds (s.pc q) = true := by
      intro also
      rw [(locked q).mp also] at free
      cases free
    simp [State.setPc, same, other, Ne.symm same]

variable {e : Event nproc}

theorem locked_step (locked : Locked s)
    (move : step s e = some t) : Locked t := by
  cases step_moves move with
  | read p n idle => exact locked_of_same locked rfl (holds_setPc idle rfl)
  | write p addr idle => exact locked_of_same locked rfl (holds_setPc idle rfl)
  | drop => exact locked_of_same locked rfl fun _ => rfl
  | last e p idle => exact locked_of_same locked rfl (holds_setPc (s := s.recount e p _) idle rfl)
  | share => exact locked_of_same locked rfl fun _ => rfl
  | kill p =>
    exact locked_of_same locked rfl
      (holds_setPc (d := wake .read (wake .write (s.pc p))) rfl (by simp))
  | enter p door free => exact locked_acquire locked free (entered_spec door).2.1
  | turn p at_ turns =>
    obtain ⟨before,after,-⟩ := turns_spec turns
    exact locked_of_same locked rfl (holds_setPc at_ (after.trans before.symm))
  | store p b addr at_ => exact locked_of_same locked rfl (holds_setPc at_ rfl)
  | fetch p n at_ => exact locked_of_same locked rfl (holds_setPc at_ rfl)
  | notify p due =>
    obtain ⟨before,-,after,-⟩ := notifies_spec due
    refine locked_of_same locked rfl fun q => ?_
    rw [holds_setPc (s := s.wakeup _) rfl (by simp [State.wakeup, before, after])]
    simp [State.wakeup]
  | doze p tired => exact locked_release locked (dozes_spec tired).1 (dozes_spec tired).2.1
  | shut p e at_ => exact locked_of_same locked rfl (holds_setPc at_ rfl)
  | closed p at_ => exact locked_release locked (by rw [at_]; rfl) rfl
  | leave p at_ => exact locked_release locked (by rw [at_]; rfl) rfl

/-- The reference counts of the two files: a call goes through a descriptor of its process,
    so an end that is shut, or about to be, has no caller, and nobody is inside a pipe that
    was freed. -/
structure Descriptors (s : State nproc) : Prop where
  count : ∀ e, s.ref e = ∑ p, s.fd e p
  inside : ∀ p e, uses (s.pc p) = some e → 0 < s.fd e p
  closer : ∀ p e, closes (s.pc p) = some e → s.ref e = 0 ∧ s.pipe.isOpen e = true
  single : ∀ p q e, closes (s.pc p) = some e → closes (s.pc q) = some e → p = q
  shut : ∀ e, s.pipe.isOpen e = false → s.ref e = 0

theorem ref_pos (counts : Descriptors s) {e : End}
    (has : 0 < s.fd e p) : 0 < s.ref e := by
  rw [counts.count e]
  exact lt_of_lt_of_le has (Finset.single_le_sum (fun _ _ => Nat.zero_le _) (Finset.mem_univ p))

theorem open_of_descriptor (counts : Descriptors s) {e : End}
    (has : 0 < s.fd e p) : s.pipe.isOpen e = true := by
  have alive := ref_pos counts has
  cases flag : s.pipe.isOpen e with
  | true => rfl
  | false => have := counts.shut e flag; omega

theorem descriptors_of_pcs (counts : Descriptors s) (ref : t.ref = s.ref)
    (fd : t.fd = s.fd) (flags : ∀ e, t.pipe.isOpen e = s.pipe.isOpen e)
    (users : ∀ q e, uses (t.pc q) = some e → uses (s.pc q) = some e ∨ 0 < s.fd e q)
    (closers : ∀ q e, closes (t.pc q) = some e → closes (s.pc q) = some e) : Descriptors t where
  count := by rw [ref, fd]; exact counts.count
  inside p e user := by
    rw [fd]
    exact (users p e user).elim (counts.inside p e) id
  closer p e closer := by
    rw [ref, flags]
    exact counts.closer p e (closers p e closer)
  single p q e first second := counts.single p q e (closers p e first) (closers q e second)
  shut e shut := by
    rw [ref]
    exact counts.shut e (flags e ▸ shut)

theorem setPc_spec {q : Fin nproc} {α : Type} {f : Pc → Option α} {x : α}
    (at_ : f ((s.setPc p d).pc q) = some x) : f (s.pc q) = some x ∨ q = p ∧ f d = some x := by
  by_cases mine : q = p
  · subst mine
    exact .inr ⟨rfl, by simpa [State.setPc] using at_⟩
  · exact .inl (by simpa [State.setPc, mine] using at_)

theorem descriptors_setPc (counts : Descriptors s)
    (pc : t.pc = (s.setPc p d).pc) (ref : t.ref = s.ref) (fd : t.fd = s.fd)
    (flags : ∀ e, t.pipe.isOpen e = s.pipe.isOpen e)
    (user : ∀ e, uses d = some e → uses (s.pc p) = some e ∨ 0 < s.fd e p)
    (closer : ∀ e, closes d = some e → closes (s.pc p) = some e) : Descriptors t := by
  refine descriptors_of_pcs counts ref fd flags (fun q e uses => ?_) (fun q e closes => ?_)
  · rw [pc] at uses
    obtain before | ⟨rfl,now⟩ := setPc_spec uses
    · exact .inl before
    · exact user e now
  · rw [pc] at closes
    obtain before | ⟨rfl,now⟩ := setPc_spec closes
    · exact before
    · exact closer e now

theorem count_recount (counts : Descriptors s) (e f : End) (p : Fin nproc)
    {g : Nat → Nat} (shift : ∀ rest, g (rest + s.fd e p) = rest + g (s.fd e p)) :
    (s.recount e p g).ref f = ∑ q, (s.recount e p g).fd f q := by
  by_cases same : f = e
  · subst same
    have others : ∀ q, q ≠ p → Function.update (s.fd f) p (g (s.fd f p)) q = s.fd f q :=
      fun q ne => Function.update_of_ne ne _ _
    have total := counts.count f
    rw [← Finset.sum_erase_add _ _ (Finset.mem_univ p)] at total
    simp only [State.recount, Function.update_self, total, shift]
    rw [← Finset.sum_erase_add _ _ (Finset.mem_univ p), Function.update_self]
    congr 1
    exact Finset.sum_congr rfl fun q mem => (others q (Finset.ne_of_mem_erase mem)).symm
  · simpa [State.recount, same] using counts.count f

theorem descriptors_recount (counts : Descriptors s) {e : End}
    {g : Nat → Nat} (idle : s.pc p = .user) (some_ : 0 < s.ref e)
    (shift : ∀ rest, g (rest + s.fd e p) = rest + g (s.fd e p)) :
    Descriptors (s.recount e p g) where
  count f := count_recount counts e f p shift
  inside q f user := by
    have before := counts.inside q f user
    have ne : q ≠ p := by
      rintro rfl
      simp [State.recount, idle, uses] at user
    by_cases same : f = e
    · subst same
      simpa [State.recount, ne] using before
    · simpa [State.recount, same] using before
  closer q f closer := by
    obtain ⟨gone,flag⟩ := counts.closer q f closer
    have ne : f ≠ e := by
      rintro rfl
      omega
    exact ⟨by simpa [State.recount, ne] using gone, flag⟩
  single := counts.single
  shut f shut := by
    have gone := counts.shut f shut
    have ne : f ≠ e := by
      rintro rfl
      omega
    simpa [State.recount, ne] using gone

theorem descriptors_closing (counts : Descriptors s) {e : End}
    (gone : s.ref e = 0) (flag : s.pipe.isOpen e = true)
    (first : ∀ q, closes (s.pc q) ≠ some e) : Descriptors (s.setPc p (.closeCall e)) where
  count := counts.count
  inside q f user := by
    obtain before | ⟨-,now⟩ := setPc_spec user
    · exact counts.inside q f before
    · cases now
  closer q f closer := by
    obtain before | ⟨-,now⟩ := setPc_spec closer
    · exact counts.closer q f before
    · cases now
      exact ⟨gone,flag⟩
  single q r f one two := by
    obtain before | ⟨rfl,now⟩ := setPc_spec one
    · obtain before' | ⟨rfl,now'⟩ := setPc_spec two
      · exact counts.single q r f before before'
      · cases now'
        exact absurd before (first q)
    · obtain before' | ⟨rfl,-⟩ := setPc_spec two
      · cases now
        exact absurd before' (first r)
      · rfl
  shut := counts.shut

theorem descriptors_shut (counts : Descriptors s) {e : End}
    (at_ : s.pc p = .closing e) :
    Descriptors { s.setPc p (.closeFlagged e) with pipe := s.pipe.shut e } where
  count := counts.count
  inside q f user := by
    obtain before | ⟨-,now⟩ := setPc_spec user
    · exact counts.inside q f before
    · cases now
  closer q f closer := by
    obtain before | ⟨-,now⟩ := setPc_spec closer
    · obtain ⟨gone,flag⟩ := counts.closer q f before
      refine ⟨gone, ?_⟩
      by_cases same : f = e
      · subst same
        have mine := counts.single q p f before (by rw [at_]; rfl)
        subst mine
        simp [State.setPc, closes] at closer
      · cases f <;> cases e <;> simp_all [Pipe.shut, Pipe.isOpen]
    · cases now
  single q r f one two := by
    obtain before | ⟨-,now⟩ := setPc_spec one
    · obtain before' | ⟨-,now'⟩ := setPc_spec two
      · exact counts.single q r f before before'
      · cases now'
    · cases now
  shut f shut := by
    by_cases same : f = e
    · subst same
      exact (counts.closer p f (by rw [at_]; rfl)).1
    · apply counts.shut f
      cases f <;> cases e <;> simp_all [Pipe.shut, Pipe.isOpen]

theorem descriptors_step (counts : Descriptors s)
    (move : step s e = some t) : Descriptors t := by
  cases step_moves move with
  | read p n idle has =>
    exact descriptors_setPc counts rfl rfl rfl (fun _ => rfl)
      (fun e now => by cases now; exact .inr has) (fun e now => by cases now)
  | write p addr idle has =>
    exact descriptors_setPc counts rfl rfl rfl (fun _ => rfl)
      (fun e now => by cases now; exact .inr has) (fun e now => by cases now)
  | drop e p idle has =>
    exact descriptors_recount counts idle (ref_pos counts has) fun rest => by omega
  | last e p idle has alone =>
    have alive := ref_pos counts has
    have flag := open_of_descriptor counts has
    refine descriptors_closing
      (descriptors_recount counts idle alive fun rest => by omega) ?_ flag ?_
    · simpa [State.recount] using alone
    · intro q closer
      have := (counts.closer q e closer).1
      omega
  | share e p q has idle =>
    exact descriptors_recount counts idle (ref_pos counts has) fun rest => by omega
  | kill p =>
    exact descriptors_setPc (d := wake .read (wake .write (s.pc p))) counts rfl rfl rfl
      (fun _ => rfl) (by simp_all) (by simp)
  | enter p door =>
    obtain ⟨-,-,-,-,user,closer⟩ := entered_spec door
    exact descriptors_setPc counts rfl rfl rfl (fun _ => rfl) (fun e now => .inl (user ▸ now))
      (fun e now => closer ▸ now)
  | turn p at_ turns =>
    obtain ⟨-,-,-,user,closer,-⟩ := turns_spec turns
    exact descriptors_setPc counts rfl rfl rfl (fun _ => rfl)
      (fun e now => .inl (at_ ▸ user e now)) (by simp [closer])
  | store p b addr at_ =>
    exact descriptors_setPc counts rfl rfl rfl (fun e => by cases e <;> rfl)
      (fun e now => .inl (by rw [at_]; exact now)) (fun e now => by cases now)
  | fetch p n at_ =>
    exact descriptors_setPc counts rfl rfl rfl (fun e => by cases e <;> rfl)
      (fun e now => by cases now) (fun e now => by cases now)
  | notify p due =>
    obtain ⟨-,-,-,-,-,-,user,closer⟩ := notifies_spec due
    refine descriptors_of_pcs counts rfl rfl (fun _ => rfl) (fun q e now => .inl ?_)
      fun q e now => ?_
    · obtain before | ⟨rfl,after⟩ := setPc_spec now
      · simpa [State.wakeup] using before
      · exact user e after
    · obtain before | ⟨rfl,after⟩ := setPc_spec now
      · simpa [State.wakeup] using before
      · simp [closer] at after
  | doze p tired =>
    obtain ⟨-,-,-,-,-,user,closer⟩ := dozes_spec tired
    exact descriptors_setPc counts rfl rfl rfl (fun _ => rfl) (fun e now => .inl (user ▸ now))
      (by simp [closer])
  | shut p e at_ => exact descriptors_shut counts at_
  | closed p at_ =>
    exact descriptors_setPc counts rfl rfl rfl (fun _ => rfl) (fun e now => by cases now)
      (fun e now => by cases now)
  | leave p at_ =>
    exact descriptors_setPc counts rfl rfl rfl (fun _ => rfl) (fun e now => by cases now)
      (fun e now => by cases now)

def Retired (s : State nproc) : Prop :=
  s.freed = true → (∀ e, s.pipe.isOpen e = false) ∧ ∀ p, s.pc p = .user

theorem user_of_shut (counts : Descriptors s)
    (shut : ∀ e, s.pipe.isOpen e = false) (out : holds (s.pc p) = false) :
    s.pc p = .user := by
  have noUse : ∀ e, uses (s.pc p) ≠ some e := by
    intro e user
    have := open_of_descriptor counts (counts.inside p e user)
    simp [shut] at this
  have noClose : ∀ e, closes (s.pc p) ≠ some e := by
    intro e closer
    have := (counts.closer p e closer).2
    simp [shut] at this
  cases at_ : s.pc p <;> simp_all [holds, uses, closes]

theorem retired_step (counts : Descriptors s)
    (locked : Locked s) (retired : Retired s) (move : step s e = some t) : Retired t := by
  intro freed
  by_cases before : s.freed = true
  · -- nobody has a descriptor or is inside a call, so only a kill can happen
    obtain ⟨shut,users⟩ := retired before
    have noFd : ∀ e p, ¬ 0 < s.fd e p := by
      intro e p has
      have := open_of_descriptor counts has
      simp [shut] at this
    cases step_moves move with
    | kill p =>
      refine ⟨shut, fun q => ?_⟩
      by_cases same : q = p
      · subst same
        simp [users, wake]
      · simp [same, users]
    | read p n idle has => exact absurd has (noFd _ _)
    | write p addr idle has => exact absurd has (noFd _ _)
    | drop e p idle has => exact absurd has (noFd _ _)
    | last e p idle has => exact absurd has (noFd _ _)
    | share e p q has => exact absurd has (noFd _ _)
    | _ p => simp [step, advance, users p] at move
  · cases step_moves move with
    | closed p at_ =>
      have shut : ∀ e, s.pipe.isOpen e = false := by
        have both := of_decide_eq_true freed
        intro e
        cases e
        · exact both.1
        · exact both.2
      have mine : s.lock = some p := (locked p).mp (by rw [at_]; rfl)
      refine ⟨shut, fun q => ?_⟩
      by_cases same : q = p
      · subst same
        simp [State.release, State.setPc]
      · have out : holds (s.pc q) = false := by
          by_contra inside
          have := (locked q).mp (by simpa using inside)
          exact same (Option.some.inj (this.symm.trans mine))
        simpa [State.release, State.setPc, same] using user_of_shut counts shut out
    | _ => exact absurd freed before

/-- Every sleeper has nothing to do, or the lock is held by a process that will wake it. -/
structure Settled (s : State nproc) : Prop where
  paid : ∀ q e, asleep (s.pc q) = some e →
    Stuck s.pipe e ∨ ∃ p, s.lock = some p ∧ owes (s.pc p) = some e
  drowsy : ∀ q e, drowsy (s.pc q) = some e → Stuck s.pipe e

theorem settled_outside (settled : Settled s) (pipe : t.pipe = s.pipe)
    (lock : t.lock = s.lock) (sleepers : ∀ q e, asleep (t.pc q) = some e → asleep (s.pc q) = some e)
    (debts : ∀ q, owes (t.pc q) = owes (s.pc q))
    (tired : ∀ q, PipeSleepers.drowsy (t.pc q) = PipeSleepers.drowsy (s.pc q)) : Settled t where
  paid q e sleeps := by
    rw [pipe, lock]
    simpa only [debts] using settled.paid q e (sleepers q e sleeps)
  drowsy q e doze := by
    rw [pipe]
    exact settled.drowsy q e (tired q ▸ doze)

/-- Steps of the lock's holder `p` inside the section. `debt` is the heart: whoever sleeps on
    and was justified before the step is still justified, or `p` still owes the wakeup. -/
theorem settled_inside (settled : Settled s)
    (locked : Locked s) (held : holds (s.pc p) = true) (lock : t.lock = s.lock)
    (others : ∀ q, q ≠ p → t.pc q = s.pc q ∨ ∃ e, t.pc q = wake e (s.pc q))
    (awake : asleep (t.pc p) = none)
    (debt : ∀ e, (∃ q, q ≠ p ∧ asleep (t.pc q) = some e) →
      Stuck s.pipe e ∨ owes (s.pc p) = some e → Stuck t.pipe e ∨ owes (t.pc p) = some e)
    (tired : ∀ e, PipeSleepers.drowsy (t.pc p) = some e → Stuck t.pipe e) : Settled t where
  paid q e sleeps := by
    have ne : q ≠ p := by
      rintro rfl
      simp [awake] at sleeps
    have before : asleep (s.pc q) = some e := by
      obtain same | ⟨f,woken⟩ := others q ne
      · rwa [same] at sleeps
      · rw [woken] at sleeps
        exact (asleep_wake sleeps).1
    have mine : s.lock = some p := (locked p).mp held
    have justified : Stuck s.pipe e ∨ owes (s.pc p) = some e := by
      obtain stuck | ⟨r,holder,owed⟩ := settled.paid q e before
      · exact .inl stuck
      · cases mine.symm.trans holder
        exact .inr owed
    exact (debt e ⟨q,ne,sleeps⟩ justified).imp id fun owed => ⟨p, lock.trans mine, owed⟩
  drowsy q e doze := by
    by_cases same : q = p
    · subst same
      exact tired e doze
    · -- only the holder can be on its way to sleep
      have inside : holds (s.pc q) = true := by
        obtain before | ⟨f,woken⟩ := others q same
        · exact holds_of_drowsy (before ▸ doze)
        · exact holds_of_drowsy (drowsy_wake f _ ▸ woken ▸ doze)
      exact absurd (Option.some.inj (((locked q).mp inside).symm.trans ((locked p).mp held))) same

theorem others_setPc (s : State nproc) (p : Fin nproc) (d : Pc) (q : Fin nproc) (ne : q ≠ p) :
    (s.setPc p d).pc q = s.pc q ∨ ∃ e, (s.setPc p d).pc q = wake e (s.pc q) :=
  .inl (Function.update_of_ne ne _ _)

theorem settled_release (settled : Settled s)
    (locked : Locked s) (held : holds (s.pc p) = true) (pipe : t.pipe = s.pipe)
    (pc : t.pc = (s.setPc p d).pc) (clear : owes (s.pc p) = none)
    (sleep : ∀ e, asleep d = some e → Stuck s.pipe e) (fresh : PipeSleepers.drowsy d = none) :
    Settled t where
  paid q e sleeps := by
    rw [pc] at sleeps
    rw [pipe]
    obtain before | ⟨-,now⟩ := setPc_spec sleeps
    · obtain stuck | ⟨r,holder,owed⟩ := settled.paid q e before
      · exact .inl stuck
      · cases ((locked p).mp held).symm.trans holder
        simp [clear] at owed
    · exact .inl (sleep e now)
  drowsy q e doze := by
    rw [pc] at doze
    rw [pipe]
    obtain before | ⟨-,now⟩ := setPc_spec doze
    · exact settled.drowsy q e before
    · simp [fresh] at now

theorem settled_enter (settled : Settled s)
    (free : s.lock = none) (awake : asleep d = none) (fresh : PipeSleepers.drowsy d = none) :
    Settled { s.setPc p d with lock := some p } where
  paid q e sleeps := by
    obtain before | ⟨-,now⟩ := setPc_spec sleeps
    · obtain stuck | ⟨r,holder,-⟩ := settled.paid q e before
      · exact .inl stuck
      · simp [free] at holder
    · simp [awake] at now
  drowsy q e doze := by
    obtain before | ⟨-,now⟩ := setPc_spec doze
    · exact settled.drowsy q e before
    · simp [fresh] at now

def stores : Pc → Bool
  | .writing (_ :: _) => true
  | _ => false

/-- The step is not a killed writer giving up on a full pipe that is open for reading while
    a process is asleep in piperead. -/
def Spares (s : State nproc) : Event nproc → Prop
  | .run p => stores (s.pc p) = true → s.pipe.Full → s.pipe.readopen = true →
      s.killed p = true → ∀ q, asleep (s.pc q) ≠ some .read
  | _ => True

instance sparesDecidable (s : State nproc) : (e : Event nproc) → Decidable (Spares s e)
  | .run _ => inferInstanceAs (Decidable (_ → _ → _ → _ → _))
  | .read .. | .write .. | .close .. | .share .. | .kill _ => isTrue trivial

theorem settled_turn (settled : Settled s)
    (locked : Locked s) (counts : Descriptors s) (at_ : s.pc p = c) (turns : Turns s p c d)
    (spares : Spares s (.run p)) : Settled (s.setPc p d) := by
  obtain ⟨held,-,awake,-,-,tired⟩ := turns_spec turns
  refine settled_inside settled locked (at_ ▸ held) rfl (others_setPc s p d) (by simp [awake]) ?_
    (by simpa [State.setPc] using tired)
  rw [State.setPc_self, at_]
  intro e sleeper justified
  cases turns with
  | giveUp b addr full hopeless =>
    -- the writer owes the readers a wakeup and leaves: there must be none of them
    have none_ : ∀ q, asleep (s.pc q) ≠ some .read := by
      intro q sleeps
      have opened := open_of_descriptor counts (counts.inside q .read (uses_of_asleep sleeps))
      obtain shut | killed := hopeless
      · simp [Pipe.isOpen, shut] at opened
      · exact spares (by rw [at_]; rfl) full opened killed q sleeps
    obtain stuck | owed := justified
    · exact .inl stuck
    · cases owed
      obtain ⟨q,ne,sleeps⟩ := sleeper
      rw [State.setPc_ne ne] at sleeps
      exact absurd sleeps (none_ q)
  | begin =>
    obtain stuck | owed := justified
    · exact .inl stuck
    · cases owed
  | _ => simpa [State.setPc, owes] using justified

theorem settled_step (settled : Settled s)
    (locked : Locked s) (counts : Descriptors s) (spares : Spares s e)
    (move : step s e = some t) : Settled t := by
  cases step_moves move with
  | read p n idle =>
    refine settled_outside settled rfl rfl (fun q e sleeps => ?_) (fun q => ?_) fun q => ?_
    · exact (setPc_spec sleeps).elim id fun now => by cases now.2
    · by_cases same : q = p <;> simp_all [State.setPc, owes]
    · by_cases same : q = p <;> simp_all [State.setPc, PipeSleepers.drowsy]
  | write p addr idle =>
    refine settled_outside settled rfl rfl (fun q e sleeps => ?_) (fun q => ?_) fun q => ?_
    · exact (setPc_spec sleeps).elim id fun now => by cases now.2
    · by_cases same : q = p <;> simp_all [State.setPc, owes]
    · by_cases same : q = p <;> simp_all [State.setPc, PipeSleepers.drowsy]
  | drop => exact settled_outside settled rfl rfl (fun _ _ => id) (fun _ => rfl) fun _ => rfl
  | share => exact settled_outside settled rfl rfl (fun _ _ => id) (fun _ => rfl) fun _ => rfl
  | last e p idle =>
    refine settled_outside settled rfl rfl (fun q e sleeps => ?_) (fun q => ?_) fun q => ?_
    · exact (setPc_spec sleeps).elim id fun now => by cases now.2
    · by_cases same : q = p <;> simp_all [State.setPc, State.recount, owes]
    · by_cases same : q = p <;> simp_all [State.setPc, State.recount, PipeSleepers.drowsy]
  | kill p =>
    refine settled_outside settled rfl rfl (fun q e sleeps => ?_) (fun q => ?_) fun q => ?_
    · obtain before | ⟨rfl,now⟩ := setPc_spec (d := wake .read (wake .write (s.pc p))) sleeps
      · exact before
      · exact (asleep_wake (asleep_wake now).1).1
    · by_cases same : q = p <;> simp_all
    · by_cases same : q = p <;> simp_all
  | enter p door free =>
    obtain ⟨-,-,awake,fresh,-⟩ := entered_spec door
    exact settled_enter settled free awake fresh
  | turn p at_ turns => exact settled_turn settled locked counts at_ turns spares
  | store p b addr at_ room =>
    refine settled_inside settled locked (by rw [at_]; rfl) rfl (others_setPc s p _) ?_ ?_ ?_
    · simp [State.setPc, asleep]
    · intro e _ justified
      cases e with
      | read => exact .inr (by simp [State.setPc, owes])
      | write =>
        obtain stuck | owed := justified
        · exact absurd stuck.1 room
        · simp [at_, owes] at owed
    · simp [State.setPc, PipeSleepers.drowsy]
  | fetch p n at_ bytes =>
    refine settled_inside settled locked (by rw [at_]; rfl) rfl (others_setPc s p _) ?_ ?_ ?_
    · simp [State.setPc, asleep]
    · intro e _ justified
      cases e with
      | write => exact .inr (by simp [State.setPc, owes])
      | read =>
        obtain stuck | owed := justified
        · exact absurd stuck.1 bytes
        · simp [at_, owes] at owed
    · simp [State.setPc, PipeSleepers.drowsy]
  | @notify p e d due =>
    obtain ⟨held,owed,-,-,awake,tired,-⟩ := notifies_spec due
    refine settled_inside settled locked held rfl (fun q ne => .inr ⟨e, ?_⟩) (by simp [awake]) ?_ ?_
    · simp [State.wakeup, ne]
    · rintro f ⟨q,ne,sleeps⟩ justified
      rw [State.setPc_ne ne] at sleeps
      obtain ⟨-,other⟩ := asleep_wake sleeps
      obtain stuck | owes := justified
      · exact .inl stuck
      · exact absurd (Option.some.inj (owes.symm.trans owed)) other
    · intro f doze
      exact settled.drowsy p f (tired f (by simpa using doze))
  | doze p tired =>
    obtain ⟨held,-,clear,fresh,sleep,-⟩ := dozes_spec tired
    exact settled_release settled locked held rfl rfl clear
      (fun e now => settled.drowsy p e (sleep ▸ now)) fresh
  | shut p e at_ =>
    refine settled_inside settled locked (by rw [at_]; rfl) rfl (others_setPc s p _) ?_ ?_ ?_
    · simp [State.setPc, asleep]
    · intro f _ justified
      cases e <;> cases f <;>
        simp_all [State.setPc, owes, Stuck, Pipe.shut, Pipe.Empty, Pipe.Full]
    · simp [State.setPc, PipeSleepers.drowsy]
  | closed p at_ =>
    exact settled_release settled locked (by rw [at_]; rfl) rfl rfl (by rw [at_]; rfl)
      (fun e now => by cases now) rfl
  | leave p at_ =>
    exact settled_release settled locked (by rw [at_]; rfl) rfl rfl (by rw [at_]; rfl)
      (fun e now => by cases now) rfl

structure Sound (s : State nproc) : Prop where
  locked : Locked s
  counts : Descriptors s
  retired : Retired s

theorem sound_start (data : Fin pipeSize → UInt8) (p : Fin nproc) : Sound (start data p) where
  locked q := by simp [start, holds]
  counts :=
    { count := by simp [start, Finset.sum_update_of_mem]
      inside := by simp [start, uses]
      closer := by simp [start, closes]
      single := by simp [start, closes]
      shut := by
        intro e shut
        cases e <;> cases shut }
  retired freed := by cases freed

theorem sound_step (sound : Sound s)
    (move : step s e = some t) : Sound t :=
  ⟨locked_step sound.locked move, descriptors_step sound.counts move,
    retired_step sound.counts sound.locked sound.retired move⟩

/-- No use after free: once both ends are shut and the page is freed no process is inside a
    pipe call, whatever happens afterwards. -/
theorem freed_pipe_unused (data : Fin pipeSize → UInt8) (p : Fin nproc) (es : List (Event nproc))
    (s : State nproc) (run : exec step (start data p) es = some s) (freed : s.freed = true)
    (q : Fin nproc) : s.pc q = .user := by
  have sound : Sound s := exec_invariant Sound
    (fun _ _ _ sound _ move => sound_step sound move) (sound_start data p) (along_trivial _ _) run
  exact (sound.retired freed).2 q

def bothClosed : List (Event 1) :=
  [.read, .write].flatMap fun e => .close e 0 :: List.replicate 4 (.run 0)

theorem freed_pipe_unused_closed :
    ∃ s, exec step (start (fun _ => 0) 0) bothClosed = some s ∧ s.freed = true ∧
      s.pc 0 = .user := by
  have final : (exec step (start (fun _ => 0) 0) bothClosed).map State.freed = some true := by
    decide +kernel
  obtain ⟨s,run,freed⟩ := Option.map_eq_some_iff.mp final
  exact ⟨s, run, freed, freed_pipe_unused _ 0 _ s run freed 0⟩

/-- With the pipe's lock free, a process asleep in piperead finds the pipe empty and open
    for writing, and one asleep in pipewrite finds it full and open for reading. -/
def NobodySleepsOnUsable (s : State nproc) : Prop :=
  s.lock = none → ∀ q,
    (∀ n, s.pc q = .readSleep n → s.pipe.nread = s.pipe.nwrite ∧ s.pipe.writeopen = true) ∧
    (∀ addr, s.pc q = .writeSleep addr →
      s.pipe.nwrite = s.pipe.nread + 512 ∧ s.pipe.readopen = true)

/-- In a run in which no killed writer gives up on a full pipe over sleeping readers. -/
theorem nobody_sleeps_on_usable (data : Fin pipeSize → UInt8) (p : Fin nproc)
    (es : List (Event nproc)) (s : State nproc) (spares : Along step Spares (start data p) es)
    (run : exec step (start data p) es = some s) : NobodySleepsOnUsable s := by
  have invariant : Sound s ∧ Settled s := by
    refine exec_invariant (fun s => Sound s ∧ Settled s) ?_ ⟨sound_start data p, ?_⟩ spares run
    · rintro s e t ⟨sound,settled⟩ spares move
      exact ⟨sound_step sound move, settled_step settled sound.locked sound.counts spares move⟩
    · constructor <;> simp [start, asleep, PipeSleepers.drowsy]
  obtain ⟨-,settled⟩ := invariant
  intro free q
  have stuck : ∀ e, asleep (s.pc q) = some e → Stuck s.pipe e := by
    intro e sleeps
    obtain stuck | ⟨r,holder,-⟩ := settled.paid q e sleeps
    · exact stuck
    · simp [free] at holder
  constructor
  · intro n sleeps
    exact stuck .read (by rw [sleeps]; rfl)
  · intro addr sleeps
    exact stuck .write (by rw [sleeps]; rfl)

def killedWriter : List (Event 2) :=
  .share .read 0 1 :: .read 1 5 :: List.replicate 3 (.run 1) ++
    .write 0 (List.replicate 513 7) :: .kill 0 :: List.replicate 515 (.run 0)

theorem reader_sleeps_on_full_pipe :
    ∃ s, exec step (start (fun _ => 0) (0 : Fin 2)) killedWriter = some s ∧
      s.lock = none ∧ s.pc 1 = .readSleep 5 ∧ s.pipe.nread = 0 ∧ s.pipe.nwrite = 512 ∧
      ¬ NobodySleepsOnUsable s := by
  have final : (exec step (start (fun _ => 0) (0 : Fin 2)) killedWriter).map
      (fun s => (s.lock, s.pc 1, s.pipe.nread, s.pipe.nwrite)) =
        some (none, .readSleep 5, 0, 512) := by
    decide +kernel
  obtain ⟨s,run,ends⟩ := Option.map_eq_some_iff.mp final
  simp only [Prod.mk.injEq] at ends
  obtain ⟨free,sleeps,read,write⟩ := ends
  refine ⟨s, run, free, sleeps, read, write, ?_⟩
  intro nobody
  have empty := ((nobody free 1).1 5 sleeps).1
  rw [read, write] at empty
  cases empty

def sparedReader : List (Event 2) :=
  .share .read 0 1 :: .read 1 5 :: List.replicate 3 (.run 1) ++
    .write 0 [7] :: List.replicate 5 (.run 0) ++ [.kill 0]

theorem nobody_sleeps_on_usable_spared :
    ∃ s, exec step (start (fun _ => 0) (0 : Fin 2)) sparedReader = some s ∧
      s.pc 1 = .readCall 5 ∧ NobodySleepsOnUsable s := by
  have final : (exec step (start (fun _ => 0) (0 : Fin 2)) sparedReader).map (fun s => s.pc 1) =
      some (.readCall 5) := by
    decide +kernel
  obtain ⟨s,run,ends⟩ := Option.map_eq_some_iff.mp final
  have spares : Along step Spares (start (fun _ => 0) (0 : Fin 2)) sparedReader := by
    decide +kernel
  exact ⟨s, run, ends, nobody_sleeps_on_usable _ 0 sparedReader s spares run⟩

end PipeSleepers
