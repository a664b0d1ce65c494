import Mathlib.Algebra.BigOperators.Ring.Finset
import Xv6.Log.Group

/- Admission control on the file system that mkfs makes. mkfs counts the header block among
   the LOGSIZE blocks of the log, so log_write refuses a block once LOGSIZE - 1 are logged,
   while begin_op reserves MAXOPBLOCKS for each of up to LOGSIZE / MAXOPBLOCKS operations. -/
namespace LogAdmission
open RunLaws Tally DiskLog LogKernel GroupCommit Param
variable {nproc : Nat}

/-- The log of a file system made by mkfs: `logstart` is 2 and `nlog` is LOGSIZE. -/
def mkfsLog : Log := ⟨2, logSize⟩

def AtMost (k : Nat) (s : Sys nproc) : Event nproc → Prop
  | .logWrite p b => ((s.books.opBlocks p).insert b).length ≤ k
  | _ => True

instance (k : Nat) (s : Sys nproc) : ∀ e, Decidable (AtMost k s e)
  | .logWrite p b => inferInstanceAs (Decidable (((s.books.opBlocks p).insert b).length ≤ k))
  | .beginOp _ => isTrue trivial
  | .logAppend _ => isTrue trivial
  | .endOp _ => isTrue trivial
  | .commitStep _ => isTrue trivial

/-- The blocks an operation may still log if it logs at most MAXOPBLOCKS - 1. -/
def spare (c : Pc) (logged : List Nat) : Int := if inOp c then 9 - logged.length else 0

/-- The blocks logged and still to be logged stay below what `log_write` accepts. -/
structure Reserved (s : Sys nproc) : Prop where
  total : (s.kernel.block.length : Int) +
    ∑ p, spare (s.kernel.pc p) (s.books.opBlocks p) ≤ 28
  small : ∀ p, inOp (s.kernel.pc p) = true → (s.books.opBlocks p).length ≤ 9
  logging : ∀ p b, s.kernel.pc p = .logWrite b → ((s.books.opBlocks p).insert b).length ≤ 9
  quiet : s.kernel.panicked ≠ some .tooBigATransaction

section
variable {s : Sys nproc}

theorem spare_nonneg (r : Reserved s) (p : Fin nproc) :
    0 ≤ spare (s.kernel.pc p) (s.books.opBlocks p) := by
  unfold spare
  split
  · rename_i inside
    have small := r.small p inside
    omega
  · omega

theorem block_le (r : Reserved s) : s.kernel.block.length ≤ 28 := by
  have rest : 0 ≤ ∑ p, spare (s.kernel.pc p) (s.books.opBlocks p) :=
    Finset.sum_nonneg fun p _ => spare_nonneg r p
  have total := r.total
  omega

theorem spare_le (h : Inv mkfsLog s) :
    ∑ p, spare (s.kernel.pc p) (s.books.opBlocks p) ≤ 9 * s.kernel.outstanding := by
  rw [h.count, Finset.mul_sum]
  apply Finset.sum_le_sum
  intro p _
  unfold spare
  split <;> omega

theorem room_to_admit (h : Inv mkfsLog s) (open_ : s.kernel.committing = false)
    (admits : ¬ s.kernel.Full) :
    (s.kernel.block.length : Int) +
      ∑ p, spare (s.kernel.pc p) (s.books.opBlocks p) + 9 ≤ 28 := by
  have most := spare_le h
  have some := outstanding_nonneg h
  by_cases alone : s.kernel.outstanding = 0
  · have none : ∀ p, inOp (s.kernel.pc p) = false := by
      have count := h.count
      rw [alone, eq_comm, Finset.sum_eq_zero_iff_of_nonneg (fun r _ => by split <;> omega)]
        at count
      intro p
      simpa using count p (Finset.mem_univ p)
    rw [h.drained none open_]
    simp only [List.length_nil]
    omega
  · simp only [Kernel.Full, maxOpBlocks, logSize] at admits
    omega

variable {c : Pc}

theorem spare_outside (outside : inOp c = false) (logged : List Nat) :
    spare c logged = 0 := by
  simp [spare, outside]

theorem spare_inside (inside : inOp c = true) (logged : List Nat) :
    spare c logged = 9 - logged.length := by
  simp [spare, inside]

theorem length_insert_cases (l : List Nat) (b : Nat) :
    (b ∈ l ∧ (l.insert b).length = l.length) ∨ (b ∉ l ∧ (l.insert b).length = l.length + 1) := by
  by_cases mem : b ∈ l
  · exact Or.inl ⟨mem,by rw [List.insert_of_mem mem]⟩
  · exact Or.inr ⟨mem,by rw [List.insert_of_not_mem mem, List.length_cons]⟩

variable {t : Sys nproc} {p : Fin nproc}

theorem reserved_update (r : Reserved s)
    {l : List Nat} (pc : t.kernel.pc = Function.update s.kernel.pc p c)
    (blocks : t.books.opBlocks = Function.update s.books.opBlocks p l)
    (room : (t.kernel.block.length : Int) +
      ∑ q, spare (s.kernel.pc q) (s.books.opBlocks q) + spare c l ≤
        28 + spare (s.kernel.pc p) (s.books.opBlocks p))
    (small : inOp c = true → l.length ≤ 9)
    (logging : ∀ b, c = .logWrite b → (l.insert b).length ≤ 9)
    (quiet : t.kernel.panicked ≠ some .tooBigATransaction) : Reserved t := by
  refine ⟨?_, fun q inside => ?_, fun q b at_ => ?_, quiet⟩
  · have moved := sum_change (f := fun q => spare (s.kernel.pc q) (s.books.opBlocks q))
      (g := fun q => spare (t.kernel.pc q) (t.books.opBlocks q)) p
      fun q other => by simp [pc, blocks, other]
    simp only [pc, blocks, Function.update_self] at moved ⊢
    omega
  · rw [pc] at inside
    rw [blocks]
    by_cases same : q = p
    · subst q
      simpa using small (by simpa using inside)
    · simpa [same] using r.small q (by simpa [same] using inside)
  · rw [pc] at at_
    rw [blocks]
    by_cases same : q = p
    · subst q
      simpa using logging b (by simpa using at_)
    · simpa [same] using r.logging q b (by simpa [same] using at_)

theorem reserved_move (r : Reserved s)
    {l : List Nat} (pc : t.kernel.pc = Function.update s.kernel.pc p c)
    (blocks : t.books.opBlocks = Function.update s.books.opBlocks p l)
    (room : (t.kernel.block.length : Int) + spare c l ≤
      s.kernel.block.length + spare (s.kernel.pc p) (s.books.opBlocks p))
    (small : inOp c = true → l.length ≤ 9)
    (logging : ∀ b, c = .logWrite b → (l.insert b).length ≤ 9)
    (quiet : t.kernel.panicked ≠ some .tooBigATransaction) : Reserved t := by
  have total := r.total
  exact reserved_update r pc blocks (by omega) small logging quiet

theorem reserved_wakeup {k : Kernel nproc} {b : Books nproc} (r : Reserved ⟨k,b⟩) :
    Reserved ⟨k.wakeup,b⟩ := by
  have ops := wakeup_reading inOp rfl k
  refine ⟨?_, fun q inside => r.small q (ops q ▸ inside), fun q x at_ => ?_, r.quiet⟩
  · have total := r.total
    have same : k.wakeup.block = k.block := rfl
    simpa only [spare, ops, same] using total
  · exact r.logging q x (wakeup_reading (· = .logWrite x) (by simp) k q ▸ at_)

theorem reserved_outside (r : Reserved s)
    (pc : t.kernel.pc = Function.update s.kernel.pc p c) (outside : inOp c = false)
    (blocks : t.books.opBlocks = s.books.opBlocks)
    (shorter : t.kernel.block.length ≤ s.kernel.block.length)
    (panicked : t.kernel.panicked = s.kernel.panicked) : Reserved t := by
  have before := spare_nonneg r p
  refine reserved_move r (l := s.books.opBlocks p) pc
    (blocks.trans (Function.update_eq_self p _).symm) ?_ ?_ ?_ (panicked ▸ r.quiet)
  · rw [spare_outside outside]
    omega
  · intro inside
    rw [outside] at inside
    cases inside
  · intro x at_
    rw [at_] at outside
    cases outside

theorem reserved_panic (r : Reserved s) {x : Panic} (other : x ≠ .tooBigATransaction) :
    Reserved ⟨{ s.kernel with panicked := some x }, s.books⟩ :=
  ⟨r.total,r.small,r.logging,by simpa using other⟩

theorem reserved_begin (r : Reserved s)
    (outside : s.kernel.pc p = .user ∨ s.kernel.pc p = .woken) (other : ∀ b, c ≠ .logWrite b)
    (pc : t.kernel.pc = Function.update s.kernel.pc p c)
    (blocks : t.books.opBlocks = Function.update s.books.opBlocks p [])
    (room : (t.kernel.block.length : Int) +
      ∑ q, spare (s.kernel.pc q) (s.books.opBlocks q) + spare c [] ≤ 28)
    (quiet : t.kernel.panicked ≠ some .tooBigATransaction) : Reserved t := by
  refine reserved_update r pc blocks ?_ (fun _ => Nat.zero_le 9)
    (fun b at_ => absurd at_ (other b)) quiet
  rw [spare_outside (outside_op outside)]
  omega

theorem reserved_logWrite (r : Reserved s) (running : s.kernel.pc p = .running)
    {b : Nat} (few : ((s.books.opBlocks p).insert b).length ≤ 9) :
    Reserved ⟨s.kernel.setPc p (.logWrite b), s.books⟩ := by
  refine reserved_move r (c := .logWrite b) (l := s.books.opBlocks p) rfl
    (Function.update_eq_self p _).symm ?_ ?_ ?_ r.quiet
  · rw [running]
    exact Int.le_refl _
  · intro _
    exact r.small p (by rw [running]; rfl)
  · intro x at_
    cases at_
    exact few

theorem reserved_logged (r : Reserved s) {b : Nat}
    (logging : s.kernel.pc p = .logWrite b)
    (pc : t.kernel.pc = Function.update s.kernel.pc p .running)
    (blocks : t.books.opBlocks =
      Function.update s.books.opBlocks p ((s.books.opBlocks p).insert b))
    (grows : t.kernel.block.length + (s.books.opBlocks p).length ≤
      s.kernel.block.length + ((s.books.opBlocks p).insert b).length)
    (panicked : t.kernel.panicked = s.kernel.panicked) : Reserved t := by
  have inside : inOp (s.kernel.pc p) = true := by rw [logging]; rfl
  refine reserved_move r pc blocks ?_ (fun _ => r.logging p b logging) ?_ (panicked ▸ r.quiet)
  · rw [spare_inside rfl, spare_inside inside]
    omega
  · intro x at_
    cases at_

theorem reserved_step {e : Event nproc} (h : Inv mkfsLog s) (r : Reserved s)
    (few : AtMost 9 s e) (move : step mkfsLog s e = some t) : Reserved t := by
  cases step_moves move with
  | sleep outside blocked =>
    refine reserved_begin r (c := .sleeping) outside (by simp) rfl rfl ?_ r.quiet
    rw [spare_outside rfl, Int.add_zero]
    exact r.total
  | enter outside open_ room =>
    have room := room_to_admit h open_ room
    refine reserved_begin r (c := .running) outside (by simp) rfl rfl ?_ r.quiet
    rw [spare_inside rfl]
    simpa [Kernel.setPc] using room
  | tooBig running full =>
    have block := block_le r
    simp only [mkfsLog, logSize, maxOpBlocks] at full
    omega
  | outsideOfTrans running room none => exact reserved_panic r (by decide)
  | logWrite running room within => exact reserved_logWrite r running few
  | @absorb p x logging known =>
    refine reserved_logged r logging rfl rfl ?_ rfl
    rcases length_insert_cases (s.books.opBlocks p) x with ⟨_,same⟩ | ⟨_,longer⟩
    · exact Nat.add_le_add_left same.ge _
    · exact Nat.add_le_add_left (by omega) _
  | @append p x logging fresh room =>
    refine reserved_logged r logging rfl rfl ?_ rfl
    -- a block that is new in the header is new to the operation
    rcases length_insert_cases (s.books.opBlocks p) x with ⟨mem,_⟩ | ⟨_,longer⟩
    · exact absurd ((h.unsplit p (by rw [logging]; rfl)).2 x mem) fresh
    · rw [longer, List.length_append, List.length_singleton]
      omega
  | overrun logging fresh full => exact reserved_panic r (by decide)
  | reenter running busy => exact ⟨r.total,r.small,r.logging,by simp⟩
  | close => exact reserved_outside r (c := .commit) rfl rfl rfl (Nat.le_refl _) rfl
  | leave =>
    apply reserved_wakeup
    exact reserved_outside r (c := .user) rfl rfl rfl (Nat.le_refl _) rfl
  | commit | nothing | writeLog | logWritten | writeHead | installTrans | installed =>
    exact reserved_outside r rfl rfl rfl (Nat.le_refl _) rfl
  | eraseHead => exact reserved_outside r (c := .finishing) rfl rfl rfl (Nat.zero_le _) rfl
  | reopen =>
    apply reserved_wakeup
    exact reserved_outside r (c := .user) rfl rfl rfl (Nat.le_refl _) rfl

theorem reserved_start : Reserved (start : Sys nproc) := by
  refine ⟨?_, fun p inside => ?_, fun p b at_ => ?_, ?_⟩
  all_goals simp_all [start, spare, inOp]

theorem reserved_run {es : List (Event nproc)}
    (few : Along (step mkfsLog) (AtMost 9) start es)
    (run : exec (step mkfsLog) start es = some s) : Inv mkfsLog s ∧ Reserved s :=
  exec_invariant (fun s => Inv mkfsLog s ∧ Reserved s)
    (fun _ _ _ inv ok move => ⟨inv_step inv.1 move,reserved_step inv.1 inv.2 ok move⟩)
    ⟨inv_start,reserved_start⟩ few run

theorem atMost_mono {k m : Nat} (more : k ≤ m) {e : Event nproc} (few : AtMost k s e) :
    AtMost m s e := by
  cases e with
  | logWrite p b => exact Nat.le_trans few more
  | _ => trivial

end

def threeOperations : List (Event 3) :=
  [.beginOp 0, .beginOp 1, .beginOp 2] ++
    (List.range 29).flatMap (fun i =>
      [.logWrite (Fin.ofNat 3 (i / 10)) (58 + i), .logAppend (Fin.ofNat 3 (i / 10))]) ++
    [.logWrite 2 87]

theorem threeOperations_panic :
    Along (step mkfsLog) (AtMost 10) start threeOperations ∧
      (exec (step mkfsLog) (start : Sys 3) threeOperations).map (fun s => s.kernel.panicked) =
        some (some .tooBigATransaction) := by
  constructor
  · decide +kernel
  · decide +kernel

/-- `log_write` never panics for want of room exactly when operations log fewer blocks than
    the MAXOPBLOCKS that `begin_op` reserves for each. -/
theorem never_too_big_iff (k : Nat) :
    (∀ (nproc : Nat) (es : List (Event nproc)) (s : Sys nproc),
      Along (step mkfsLog) (AtMost k) start es → exec (step mkfsLog) start es = some s →
        s.kernel.panicked ≠ some .tooBigATransaction) ↔ k < maxOpBlocks := by
  constructor
  · intro safe
    by_contra many
    obtain ⟨few,panics⟩ := threeOperations_panic
    obtain ⟨s,run,panicked⟩ := Option.map_eq_some_iff.mp panics
    refine safe 3 threeOperations s ?_ run panicked
    exact along_mono (fun _ _ => atMost_mono (Nat.le_of_not_lt many)) few
  · intro fewer nproc es s few run
    have nine := along_mono (fun _ _ => atMost_mono (Nat.le_of_lt_succ fewer)) few
    exact (reserved_run nine run).2.quiet

theorem full_operations_overflow :
    ¬ ∀ (nproc : Nat) (es : List (Event nproc)) (s : Sys nproc),
      Along (step mkfsLog) (AtMost maxOpBlocks) start es →
        exec (step mkfsLog) start es = some s →
          s.kernel.panicked ≠ some .tooBigATransaction := by
  intro safe
  obtain ⟨few,panics⟩ := threeOperations_panic
  obtain ⟨s,run,panicked⟩ := Option.map_eq_some_iff.mp panics
  exact safe 3 threeOperations s few run panicked

end LogAdmission
