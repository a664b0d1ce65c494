import Mathlib.Algebra.Order.BigOperators.Group.Finset
import Xv6.Lib.Tally
import Xv6.Log.Kernel

/- Group commit: what holds in every state that begin_op, log_write and end_op can reach,
   whatever the operations log and however they interleave. -/
namespace GroupCommit
open RunLaws Tally DiskWrites DiskLog LogKernel Param
variable {nproc : Nat}

def inOp : Pc → Bool
  | .running => true
  | .logWrite _ => true
  | _ => false

def inCommit : Pc → Bool
  | .commit => true
  | .writeLog _ => true
  | .writeHead => true
  | .installTrans _ => true
  | .eraseHead => true
  | .finishing => true
  | _ => false

/-- The part of `commit` a process has behind it, by the point it has reached. -/
def Progress (lg : Log) (block : List Nat) (issued : List (Write Nat Block)) : Pc → Prop
  | .commit => issued = []
  | .writeLog tail => 0 < block.length ∧ issued = (writeLog lg block).take tail
  | .writeHead => 0 < block.length ∧ issued = writeLog lg block
  | .installTrans tail => 0 < block.length ∧
      issued = writeLog lg block ++ writeHead lg block :: (installTrans lg block).take tail
  | .eraseHead => 0 < block.length ∧
      issued = writeLog lg block ++ writeHead lg block :: installTrans lg block
  | .finishing => block = [] ∧ issued = []
  | _ => True

theorem progress_outside {lg : Log} {block : List Nat} {issued : List (Write Nat Block)} {c : Pc}
    (outside : inCommit c = false) : Progress lg block issued c := by
  cases c <;> trivial

structure Inv (lg : Log) (s : Sys nproc) : Prop where
  count : s.kernel.outstanding = ∑ p, if inOp (s.kernel.pc p) then 1 else 0
  committer : ∀ p, inCommit (s.kernel.pc p) = true → s.kernel.committing = true
  single : ∀ p q, inCommit (s.kernel.pc p) = true → inCommit (s.kernel.pc q) = true → p = q
  quiet : s.kernel.committing = true → ∀ p, inOp (s.kernel.pc p) = false
  drained : (∀ p, inOp (s.kernel.pc p) = false) → s.kernel.committing = false →
    s.kernel.block = []
  absorbed : s.kernel.block.Nodup
  unsplit : ∀ p, inOp (s.kernel.pc p) = true → s.books.began p = s.books.commits.length ∧
    ∀ b ∈ s.books.opBlocks p, b ∈ s.kernel.block
  pending : ∀ op ∈ s.books.ended, ∀ b ∈ op, b ∈ s.kernel.block
  progress : ∀ p, Progress lg s.kernel.block s.books.issued (s.kernel.pc p)
  unissued : s.kernel.committing = false → s.books.issued = []
  together : ∀ c ∈ s.books.commits, c.writes = commit lg c.home ∧
    ∀ op ∈ c.ops, ∀ b ∈ op, b ∈ c.home
  calm : s.kernel.panicked ≠ some .logCommitting
  waits : ∀ p, s.kernel.pc p = .sleeping → s.kernel.committing = true ∨ s.kernel.Full

section
variable {lg : Log} {s : Sys nproc}

theorem nobody_commits (h : Inv lg s) (open_ : s.kernel.committing = false) (p : Fin nproc) :
    inCommit (s.kernel.pc p) = false := by
  cases commits : inCommit (s.kernel.pc p) with
  | false => rfl
  | true =>
    have busy := h.committer p commits
    rw [open_] at busy
    cases busy

variable {p : Fin nproc}

theorem open_of_inOp (h : Inv lg s) (inside : inOp (s.kernel.pc p) = true) :
    s.kernel.committing = false := by
  cases busy : s.kernel.committing with
  | false => rfl
  | true =>
    rw [h.quiet busy p] at inside
    cases inside

variable {c : Pc}

theorem reading_update {pc : Fin nproc → Pc} (f : Pc → Bool)
    (kept : f c = f (pc p)) : ∀ r, f (Function.update pc p c r) = f (pc r) :=
  (Function.forall_update_iff pc fun r c => f c = f (pc r)).mpr ⟨kept,fun _ _ => rfl⟩

theorem idle_update {pc : Fin nproc → Pc} (new : inCommit c = false)
    (others : ∀ r, r ≠ p → inCommit (pc r) = false) :
    ∀ r, inCommit (Function.update pc p c r) = false :=
  (Function.forall_update_iff pc fun _ c => inCommit c = false).mpr ⟨new,others⟩

theorem others_idle (h : Inv lg s) (commits : inCommit (s.kernel.pc p) = true)
    (r : Fin nproc) (other : r ≠ p) : inCommit (s.kernel.pc r) = false := by
  cases also : inCommit (s.kernel.pc r) with
  | false => rfl
  | true => exact absurd (h.single r p also commits) other

theorem count_change (pc : Fin nproc → Pc) (p : Fin nproc) (c : Pc) :
    (∑ r, if inOp (Function.update pc p c r) then (1 : Int) else 0) +
        (if inOp (pc p) then 1 else 0) =
      (∑ r, if inOp (pc r) then 1 else 0) + if inOp c then 1 else 0 := by
  have moved := sum_change (f := fun r => if inOp (pc r) then (1 : Int) else 0)
    (g := fun r => if inOp (Function.update pc p c r) then (1 : Int) else 0)
    p fun r other => by simp [other]
  simpa using moved

theorem outstanding_nonneg (h : Inv lg s) : 0 ≤ s.kernel.outstanding := by
  rw [h.count]
  apply Finset.sum_nonneg
  intro p _
  split <;> omega

theorem inv_move (h : Inv lg s)
    (op : inOp c = inOp (s.kernel.pc p)) (new : inCommit c = false)
    (old : inCommit (s.kernel.pc p) = false)
    (sleeps : c = .sleeping → s.kernel.committing = true ∨ s.kernel.Full)
    {opBlocks : Fin nproc → List Nat} {began : Fin nproc → Nat}
    (others : ∀ r, r ≠ p → opBlocks r = s.books.opBlocks r ∧ began r = s.books.began r)
    (mine : inOp c = true → began p = s.books.commits.length ∧
      ∀ b ∈ opBlocks p, b ∈ s.kernel.block) :
    Inv lg ⟨s.kernel.setPc p c, { s.books with opBlocks := opBlocks, began := began }⟩ := by
  have ops := reading_update inOp op
  have commits := reading_update inCommit (new.trans old.symm)
  constructor
  · simpa only [Kernel.setPc, ops] using h.count
  · simpa only [Kernel.setPc, commits] using h.committer
  · simpa only [Kernel.setPc, commits] using h.single
  · simpa only [Kernel.setPc, ops] using h.quiet
  · simpa only [Kernel.setPc, ops] using h.drained
  · exact h.absorbed
  · intro r inside
    by_cases same : r = p
    · subst r
      exact mine (by simpa [Kernel.setPc] using inside)
    · show began r = s.books.commits.length ∧ ∀ b ∈ opBlocks r, b ∈ s.kernel.block
      rw [(others r same).1, (others r same).2]
      exact h.unsplit r (by simpa [Kernel.setPc, same] using inside)
  · exact h.pending
  · intro r
    by_cases same : r = p
    · subst r
      simpa [Kernel.setPc] using progress_outside new
    · simpa [Kernel.setPc, same] using h.progress r
  · exact h.unissued
  · exact h.together
  · exact h.calm
  · intro r asleep
    by_cases same : r = p
    · subst r
      exact sleeps (by simpa [Kernel.setPc] using asleep)
    · exact h.waits r (by simpa [Kernel.setPc, same] using asleep)

theorem inv_panic (h : Inv lg s) {x : Panic} (other : x ≠ .logCommitting) :
    Inv lg ⟨{ s.kernel with panicked := some x }, s.books⟩ :=
  { h with calm := by simpa using other }

variable {t : Sys nproc}

theorem inv_open (open_ : t.kernel.committing = false)
    (idle : ∀ p, inCommit (t.kernel.pc p) = false)
    (count : t.kernel.outstanding = ∑ p, if inOp (t.kernel.pc p) then 1 else 0)
    (drained : (∀ p, inOp (t.kernel.pc p) = false) → t.kernel.block = [])
    (absorbed : t.kernel.block.Nodup)
    (unsplit : ∀ p, inOp (t.kernel.pc p) = true → t.books.began p = t.books.commits.length ∧
      ∀ b ∈ t.books.opBlocks p, b ∈ t.kernel.block)
    (pending : ∀ op ∈ t.books.ended, ∀ b ∈ op, b ∈ t.kernel.block)
    (unissued : t.books.issued = [])
    (together : ∀ c ∈ t.books.commits, c.writes = commit lg c.home ∧
      ∀ op ∈ c.ops, ∀ b ∈ op, b ∈ c.home)
    (calm : t.kernel.panicked ≠ some .logCommitting)
    (waits : ∀ p, t.kernel.pc p = .sleeping → t.kernel.Full) : Inv lg t where
  count := count
  committer p commits := by simp [idle p] at commits
  single p q commits := by simp [idle p] at commits
  quiet busy := by simp [open_] at busy
  drained none _ := drained none
  absorbed := absorbed
  unsplit := unsplit
  pending := pending
  progress p := progress_outside (idle p)
  unissued _ := unissued
  together := together
  calm := calm
  waits p asleep := Or.inr (waits p asleep)

theorem inv_closed (busy : t.kernel.committing = true)
    (alone : ∀ r, r ≠ p → inCommit (t.kernel.pc r) = false)
    (none : ∀ r, inOp (t.kernel.pc r) = false) (count : t.kernel.outstanding = 0)
    (absorbed : t.kernel.block.Nodup)
    (pending : ∀ op ∈ t.books.ended, ∀ b ∈ op, b ∈ t.kernel.block)
    (progress : Progress lg t.kernel.block t.books.issued (t.kernel.pc p))
    (together : ∀ c ∈ t.books.commits, c.writes = commit lg c.home ∧
      ∀ op ∈ c.ops, ∀ b ∈ op, b ∈ c.home)
    (calm : t.kernel.panicked ≠ some .logCommitting) : Inv lg t where
  count := by simp [count, none]
  committer _ _ := busy
  single q r := by
    have only : ∀ x, inCommit (t.kernel.pc x) = true → x = p := by
      intro x commits
      by_contra other
      simp [alone x other] at commits
    intro hq hr
    rw [only q hq, only r hr]
  quiet _ := none
  drained _ open_ := by simp [busy] at open_
  absorbed := absorbed
  unsplit q inside := by simp [none q] at inside
  pending := pending
  progress q := by
    by_cases same : q = p
    · exact same ▸ progress
    · exact progress_outside (alone q same)
  unissued open_ := by simp [busy] at open_
  together := together
  calm := calm
  waits _ _ := Or.inl busy

theorem full_of_waits (h : Inv lg s) (open_ : s.kernel.committing = false)
    (asleep : s.kernel.pc p = .sleeping) : s.kernel.Full := by
  rcases h.waits p asleep with busy | full
  · simp [open_] at busy
  · exact full

theorem inv_admit (h : Inv lg s) (outside : inOp (s.kernel.pc p) = false)
    (open_ : s.kernel.committing = false) :
    Inv lg ⟨{ s.kernel.setPc p .running with outstanding := s.kernel.outstanding + 1 },
      { s.books with
        opBlocks := Function.update s.books.opBlocks p []
        began := Function.update s.books.began p s.books.commits.length }⟩ := by
  have count : s.kernel.outstanding + 1 =
      ∑ r, if inOp (Function.update s.kernel.pc p .running r) then 1 else 0 := by
    have moved := count_change s.kernel.pc p .running
    have count := h.count
    have enters : inOp .running = true := rfl
    simp only [outside, enters, Bool.false_eq_true, ↓reduceIte] at moved
    omega
  refine inv_open open_ ?_ ?_ ?_ h.absorbed ?_ h.pending (h.unissued open_) h.together h.calm ?_
  all_goals dsimp only [Kernel.setPc]
  · exact idle_update rfl fun r _ => nobody_commits h open_ r
  · exact count
  · intro none
    have mine := none p
    simp [inOp] at mine
  · intro r inside
    by_cases same : r = p
    · subst r
      simp
    · simpa [same] using h.unsplit r (by simpa [same] using inside)
  · intro r asleep
    by_cases same : r = p
    · subst r
      simp at asleep
    · have full := full_of_waits h open_ (p := r) (by simpa [same] using asleep)
      simp only [Kernel.Full, maxOpBlocks] at full ⊢
      omega

theorem inv_append (h : Inv lg s) {b : Nat}
    (inside : inOp (s.kernel.pc p) = true) (fresh : b ∉ s.kernel.block) :
    Inv lg ⟨{ s.kernel.setPc p .running with block := s.kernel.block ++ [b] },
      { s.books with
        opBlocks := Function.update s.books.opBlocks p ((s.books.opBlocks p).insert b) }⟩ := by
  have open_ := open_of_inOp h inside
  have ops := reading_update (c := .running) inOp inside.symm
  refine inv_open open_ ?_ ?_ ?_ ?_ ?_ ?_ (h.unissued open_) h.together h.calm ?_
  all_goals dsimp only [Kernel.setPc]
  · exact idle_update rfl fun r _ => nobody_commits h open_ r
  · simpa only [ops] using h.count
  · intro none
    have mine := none p
    simp [inOp] at mine
  · rw [List.nodup_append]
    refine ⟨h.absorbed, List.nodup_singleton b, fun x mem y last same => ?_⟩
    rw [List.mem_singleton.mp last] at same
    exact fresh (same ▸ mem)
  · intro r more
    have before := h.unsplit r (ops r ▸ more)
    refine ⟨before.1, fun x mem => ?_⟩
    by_cases same : r = p
    · subst r
      rw [Function.update_self, List.mem_insert_iff] at mem
      rcases mem with rfl | old
      · simp
      · exact List.mem_append_left _ (before.2 x old)
    · rw [Function.update_of_ne same] at mem
      exact List.mem_append_left _ (before.2 x mem)
  · exact fun op mem x inside => List.mem_append_left _ (h.pending op mem x inside)
  · intro r asleep
    by_cases same : r = p
    · subst r
      simp at asleep
    · have full := full_of_waits h open_ (p := r) (by simpa [same] using asleep)
      simp only [Kernel.Full, List.length_append, List.length_singleton] at full ⊢
      omega

theorem inv_leave (h : Inv lg s) (inside : inOp (s.kernel.pc p) = true)
    (more : s.kernel.outstanding - 1 ≠ 0) :
    Inv lg ⟨({ s.kernel with outstanding := s.kernel.outstanding - 1 }.setPc p .user).wakeup,
      { s.books with ended := s.books.ended ++ [s.books.opBlocks p] }⟩ := by
  have open_ := open_of_inOp h inside
  have ops := wakeup_reading inOp rfl
    ({ s.kernel with outstanding := s.kernel.outstanding - 1 }.setPc p .user)
  have count : s.kernel.outstanding - 1 =
      ∑ r, if inOp (Function.update s.kernel.pc p .user r) then 1 else 0 := by
    have moved := count_change s.kernel.pc p .user
    have count := h.count
    have leaves : inOp .user = false := rfl
    simp only [inside, leaves, Bool.false_eq_true, ↓reduceIte] at moved
    omega
  refine inv_open open_ ?_ ?_ ?_ h.absorbed ?_ ?_ (h.unissued open_) h.together h.calm ?_
  · intro r
    rw [wakeup_reading inCommit rfl]
    exact idle_update rfl (fun r _ => nobody_commits h open_ r) r
  · simp only [ops]
    exact count
  · intro none
    simp only [ops] at none
    have nobody := count
    simp only [Kernel.setPc] at none
    simp only [none, Bool.false_eq_true, ↓reduceIte, Finset.sum_const_zero] at nobody
    exact absurd nobody more
  · intro r still
    rw [ops] at still
    by_cases same : r = p
    · subst r
      simp [Kernel.setPc, inOp] at still
    · exact h.unsplit r (by simpa [Kernel.setPc, same] using still)
  · intro op mem
    rcases List.mem_append.mp mem with old | last
    · exact h.pending op old
    · rw [List.mem_singleton.mp last]
      exact (h.unsplit p inside).2
  · exact fun r asleep => absurd asleep (wakeup_awake _ r)

theorem inv_close (h : Inv lg s) (inside : inOp (s.kernel.pc p) = true)
    (last : s.kernel.outstanding - 1 = 0) :
    Inv lg ⟨{ { s.kernel with outstanding := s.kernel.outstanding - 1 }.setPc p .commit with
        committing := true },
      { s.books with ended := s.books.ended ++ [s.books.opBlocks p] }⟩ := by
  have open_ := open_of_inOp h inside
  have count : ∑ r, (if inOp (Function.update s.kernel.pc p .commit r) then (1 : Int) else 0) =
      0 := by
    have moved := count_change s.kernel.pc p .commit
    have count := h.count
    have leaves : inOp .commit = false := rfl
    simp only [inside, leaves, Bool.false_eq_true, ↓reduceIte] at moved
    omega
  refine inv_closed (p := p) rfl ?_ ?_ last h.absorbed ?_ ?_ h.together h.calm
  all_goals dsimp only [Kernel.setPc]
  · intro r other
    simpa [other] using nobody_commits h open_ r
  · intro r
    rw [Finset.sum_eq_zero_iff_of_nonneg (fun r _ => by split <;> omega)] at count
    simpa using count r (Finset.mem_univ r)
  · intro op mem
    rcases List.mem_append.mp mem with old | last
    · exact h.pending op old
    · rw [List.mem_singleton.mp last]
      exact (h.unsplit p inside).2
  · rw [Function.update_self]
    exact h.unissued open_

theorem inv_advance (h : Inv lg s) (commits : inCommit (s.kernel.pc p) = true)
    (outside : inOp c = false) {block : List Nat}
    (absorbed : block.Nodup) {books : Books nproc}
    (pending : ∀ op ∈ books.ended, ∀ b ∈ op, b ∈ block)
    (progress : Progress lg block books.issued c)
    (together : ∀ c ∈ books.commits, c.writes = commit lg c.home ∧
      ∀ op ∈ c.ops, ∀ b ∈ op, b ∈ c.home) :
    Inv lg ⟨{ s.kernel.setPc p c with block := block }, books⟩ := by
  have busy := h.committer p commits
  have none := h.quiet busy
  refine inv_closed (p := p) busy ?_ ?_ ?_ absorbed pending ?_ together h.calm
  all_goals dsimp only [Kernel.setPc]
  · intro r other
    rw [Function.update_of_ne other]
    exact others_idle h commits r other
  · intro r
    rw [reading_update inOp (outside.trans (none p).symm)]
    exact none r
  · have count := h.count
    simpa [none] using count
  · simpa using progress

theorem inv_reopen (h : Inv lg s) (finishing : s.kernel.pc p = .finishing) :
    Inv lg ⟨({ s.kernel.setPc p .user with committing := false } : Kernel nproc).wakeup,
      s.books⟩ := by
  have commits : inCommit (s.kernel.pc p) = true := by simp [finishing, inCommit]
  have none := h.quiet (h.committer p commits)
  have settled : s.kernel.block = [] ∧ s.books.issued = [] := by
    have progress := h.progress p
    rwa [finishing] at progress
  have ops : ∀ r, inOp (({ s.kernel.setPc p .user with committing := false } :
      Kernel nproc).wakeup.pc r) = false := by
    intro r
    rw [wakeup_reading inOp rfl]
    exact (reading_update (c := .user) inOp (none p).symm r).trans (none r)
  refine inv_open rfl ?_ ?_ ?_ h.absorbed ?_ h.pending settled.2 h.together h.calm ?_
  · intro r
    rw [wakeup_reading inCommit rfl]
    exact idle_update rfl (others_idle h commits) r
  · have count := h.count
    simp only [none, Bool.false_eq_true, ↓reduceIte, Finset.sum_const_zero] at count
    simp only [ops, Bool.false_eq_true, ↓reduceIte, Finset.sum_const_zero]
    exact count
  · exact fun _ => settled.1
  · intro r inside
    rw [ops] at inside
    cases inside
  · exact fun r asleep => absurd asleep (wakeup_awake _ r)

theorem outside_op (outside : c = .user ∨ c = .woken) : inOp c = false := by
  rcases outside with rfl | rfl <;> rfl

theorem outside_commit (outside : c = .user ∨ c = .woken) : inCommit c = false := by
  rcases outside with rfl | rfl <;> rfl

theorem inv_sleep (h : Inv lg s)
    (outside : s.kernel.pc p = .user ∨ s.kernel.pc p = .woken)
    (blocked : s.kernel.committing = true ∨ s.kernel.Full) :
    Inv lg ⟨s.kernel.setPc p .sleeping, record lg s.kernel s.books (.beginOp p)⟩ := by
  refine inv_move (c := .sleeping) h (outside_op outside).symm rfl (outside_commit outside)
    (fun _ => blocked) (fun r other => ?_) ?_
  · simp [other]
  · intro inside
    cases inside

theorem inv_absorb (h : Inv lg s) {b : Nat}
    (logging : s.kernel.pc p = .logWrite b) (known : b ∈ s.kernel.block) :
    Inv lg ⟨s.kernel.setPc p .running,
      { s.books with
        opBlocks := Function.update s.books.opBlocks p ((s.books.opBlocks p).insert b) }⟩ := by
  have inside : inOp (s.kernel.pc p) = true := by rw [logging]; rfl
  refine inv_move (c := .running) h inside.symm rfl (by rw [logging]; rfl) (by simp)
    (fun r other => ?_) fun _ => ?_
  · simp [other]
  · refine ⟨(h.unsplit p inside).1, fun x mem => ?_⟩
    rw [Function.update_self, List.mem_insert_iff] at mem
    rcases mem with rfl | old
    · exact known
    · exact (h.unsplit p inside).2 x old

variable {home : List Nat}

theorem together_close {books : Books nproc}
    (together : ∀ c ∈ books.commits, c.writes = commit lg c.home ∧
      ∀ op ∈ c.ops, ∀ b ∈ op, b ∈ c.home)
    (writes : books.issued = commit lg home)
    (pending : ∀ op ∈ books.ended, ∀ b ∈ op, b ∈ home) :
    ∀ c ∈ (books.close home).commits, c.writes = commit lg c.home ∧
      ∀ op ∈ c.ops, ∀ b ∈ op, b ∈ c.home := by
  intro c mem
  rcases List.mem_append.mp mem with old | last
  · exact together c old
  · rw [List.mem_singleton.mp last]
    exact ⟨writes,pending⟩

variable {tail : Nat}

theorem writeLog_take_succ {x : Nat} (at_ : home[tail]? = some x) :
    (writeLog lg home).take (tail + 1) =
      (writeLog lg home).take tail ++ [⟨lg.start + tail + 1,fun bread => bread x⟩] := by
  rw [List.take_add_one]
  simp [writeLog, at_]

theorem installTrans_take_succ {x : Nat} (at_ : home[tail]? = some x) :
    (installTrans lg home).take (tail + 1) =
      (installTrans lg home).take tail ++ [⟨x,fun bread => bread (lg.start + tail + 1)⟩] := by
  rw [List.take_add_one]
  simp [installTrans, at_]

theorem writeLog_take_all (done : home.length ≤ tail) :
    (writeLog lg home).take tail = writeLog lg home :=
  List.take_of_length_le (by simpa [writeLog] using done)

theorem installTrans_take_all (done : home.length ≤ tail) :
    (installTrans lg home).take tail = installTrans lg home :=
  List.take_of_length_le (by simpa [installTrans] using done)

theorem progress_at (h : Inv lg s) (place : s.kernel.pc p = c) :
    Progress lg s.kernel.block s.books.issued c :=
  place ▸ h.progress p

theorem commits_at (place : s.kernel.pc p = c)
    (inside : inCommit c = true) : inCommit (s.kernel.pc p) = true :=
  place ▸ inside

theorem inv_step {e : Event nproc} (h : Inv lg s)
    (move : step lg s e = some t) : Inv lg t := by
  cases step_moves move with
  | sleep outside blocked => exact inv_sleep h outside blocked
  | enter outside open_ room => exact inv_admit h (outside_op outside) open_
  | tooBig running full => exact inv_panic h (by decide)
  | outsideOfTrans running room none => exact inv_panic h (by decide)
  | @logWrite p x running room within =>
    exact inv_move (c := .logWrite x) h (by rw [running]; rfl) rfl (by rw [running]; rfl) (by simp)
      (fun r _ => ⟨rfl,rfl⟩) (fun _ => h.unsplit _ (by rw [running]; rfl))
  | absorb logging known => exact inv_absorb h logging known
  | append logging fresh room => exact inv_append h (by rw [logging]; rfl) fresh
  | overrun logging fresh full => exact inv_panic h (by decide)
  | reenter running busy =>
    have open_ := open_of_inOp h (by rw [running]; rfl)
    rw [busy] at open_
    cases open_
  | close running open_ last => exact inv_close h (by rw [running]; rfl) last
  | leave running open_ more => exact inv_leave h (by rw [running]; rfl) more
  | commit place nonempty =>
    exact inv_advance h (commits_at place rfl) rfl h.absorbed h.pending
      ⟨nonempty,progress_at h place⟩ h.together
  | nothing place empty =>
    refine inv_advance h (commits_at place rfl) rfl h.absorbed (by simp [Books.close])
      ⟨empty,rfl⟩ ?_
    refine together_close h.together (progress_at h place) ?_
    simpa [empty] using h.pending
  | writeLog place at_ =>
    obtain ⟨nonempty,issued⟩ := progress_at h place
    refine inv_advance h (commits_at place rfl) rfl h.absorbed h.pending ⟨nonempty,?_⟩ h.together
    simp only [Books.issue]
    rw [writeLog_take_succ at_, issued]
  | logWritten place done =>
    obtain ⟨nonempty,issued⟩ := progress_at h place
    refine inv_advance h (commits_at place rfl) rfl h.absorbed h.pending ⟨nonempty,?_⟩ h.together
    rw [issued, writeLog_take_all done]
  | writeHead place =>
    obtain ⟨nonempty,issued⟩ := progress_at h place
    refine inv_advance h (commits_at place rfl) rfl h.absorbed h.pending ⟨nonempty,?_⟩ h.together
    simp only [Books.issue]
    rw [issued, List.take_zero]
  | installTrans place at_ =>
    obtain ⟨nonempty,issued⟩ := progress_at h place
    refine inv_advance h (commits_at place rfl) rfl h.absorbed h.pending ⟨nonempty,?_⟩ h.together
    simp only [Books.issue]
    rw [installTrans_take_succ at_, issued, List.append_assoc, List.cons_append]
  | installed place done =>
    obtain ⟨nonempty,issued⟩ := progress_at h place
    refine inv_advance h (commits_at place rfl) rfl h.absorbed h.pending ⟨nonempty,?_⟩ h.together
    rw [issued, installTrans_take_all done]
  | eraseHead place =>
    obtain ⟨nonempty,issued⟩ := progress_at h place
    refine inv_advance h (commits_at place rfl) rfl List.nodup_nil (by simp [Books.close])
      ⟨rfl,rfl⟩ ?_
    refine together_close h.together ?_ h.pending
    simp only [Books.issue]
    rw [issued, DiskLog.commit, if_pos nonempty, List.append_assoc, List.cons_append]
  | reopen place => exact inv_reopen h place

theorem inv_start : Inv lg (start : Sys nproc) := by
  refine inv_open rfl (fun _ => rfl) ?_ (fun _ => rfl) List.nodup_nil ?_ ?_ rfl ?_ ?_ ?_
  all_goals simp [start, inOp]

theorem inv_run {es : List (Event nproc)} (run : exec (step lg) start es = some s) : Inv lg s :=
  exec_invariant (Inv lg) (fun _ _ _ inv _ move => inv_step inv move) inv_start
    (along_trivial start es) run

theorem outstanding_zero (h : Inv lg s) (busy : s.kernel.committing = true) :
    s.kernel.outstanding = 0 := by
  have count := h.count
  simpa [h.quiet busy] using count

theorem closed_step {e : Event nproc} (h : Inv lg s)
    (busy : s.kernel.committing = true) (move : step lg s e = some t) :
    t.kernel.outstanding = s.kernel.outstanding ∧
      (t.kernel.block = s.kernel.block ∨ t.kernel.block = []) := by
  have outside : ∀ {p c}, s.kernel.pc p = c → inOp c = true → False := by
    intro p c place inside
    have quiet := h.quiet busy p
    rw [place, inside] at quiet
    cases quiet
  cases step_moves move with
  | sleep => exact ⟨rfl,Or.inl rfl⟩
  | enter _ open_ =>
    rw [busy] at open_
    cases open_
  | tooBig running | outsideOfTrans running | logWrite running => exact (outside running rfl).elim
  | absorb logging | append logging | overrun logging => exact (outside logging rfl).elim
  | reenter running | close running | leave running => exact (outside running rfl).elim
  | commit | nothing | writeLog | logWritten | writeHead | installTrans | installed =>
    exact ⟨rfl,Or.inl rfl⟩
  | eraseHead => exact ⟨rfl,Or.inr rfl⟩
  | reopen => exact ⟨rfl,Or.inl rfl⟩

end

structure Grouped (lg : Log) (s : Sys nproc) : Prop where
  exclusive : s.kernel.committing = true → s.kernel.outstanding = 0
  quiet : s.kernel.committing = true →
    ∀ p, s.kernel.pc p ≠ .running ∧ ∀ b, s.kernel.pc p ≠ .logWrite b
  closed : s.kernel.committing = true → ∀ e t, step lg s e = some t →
    t.kernel.outstanding = s.kernel.outstanding ∧
      (t.kernel.block = s.kernel.block ∨ t.kernel.block = [])
  -- No commit has finished since an operation under way began, and all it has logged waits
  -- in the header.
  unsplit : ∀ p, inOp (s.kernel.pc p) = true → s.books.began p = s.books.commits.length ∧
    ∀ b ∈ s.books.opBlocks p, b ∈ s.kernel.block
  pending : ∀ op ∈ s.books.ended, ∀ b ∈ op, b ∈ s.kernel.block
  -- A commit wrote what `commit` writes for its blocks, and these include every block of
  -- every operation in it.
  together : ∀ c ∈ s.books.commits, c.writes = commit lg c.home ∧
    ∀ op ∈ c.ops, ∀ b ∈ op, b ∈ c.home
  absorbed : s.kernel.block.Nodup
  calm : s.kernel.panicked ≠ some .logCommitting
  noLostWakeup : ∀ p, s.kernel.pc p = .sleeping → s.kernel.committing = true ∨
    (s.kernel.block.length : Int) + (s.kernel.outstanding + 1) * maxOpBlocks > logSize

theorem group_commit_never_splits {lg : Log} {es : List (Event nproc)} {s : Sys nproc}
    (run : exec (step lg) start es = some s) : Grouped lg s := by
  have h := inv_run run
  refine ⟨outstanding_zero h, fun busy p => ?_, fun busy e t move => closed_step h busy move,
    h.unsplit, h.pending, h.together, h.absorbed, h.calm, h.waits⟩
  have outside := h.quiet busy p
  constructor
  · intro running
    rw [running] at outside
    cases outside
  · intro b logging
    rw [logging] at outside
    cases outside

def twoOperations : List (Event 2) :=
  [.beginOp 0, .beginOp 1, .logWrite 0 58, .logWrite 1 400, .logAppend 1, .logAppend 0, .endOp 0,
   .logWrite 1 58, .logAppend 1, .endOp 1] ++ List.replicate 9 (.commitStep 1)

theorem group_commit_two_operations :
    ∃ s : Sys 2, exec (step ⟨2,logSize⟩) start twoOperations = some s ∧
      Grouped ⟨2,logSize⟩ s := by
  have runs : (exec (step ⟨2,logSize⟩) (start : Sys 2) twoOperations).isSome = true := by decide
  obtain ⟨s,run⟩ := Option.isSome_iff_exists.mp runs
  exact ⟨s,run,group_commit_never_splits run⟩

end GroupCommit
