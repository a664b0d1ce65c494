import Xv6.Log.Admission

/- From the kernel's runs to the disk: the commits that begin_op, log_write and end_op make
   are the transactions whose crash behaviour Log.Commit describes. -/
namespace LogTransactions
open RunLaws DiskLog LogKernel GroupCommit LogAdmission Param
variable {nproc : Nat}

def HomeBlock (b : Nat) : Prop := ¬ mkfsLog.Area b ∧ b < 2 ^ 32

def LogsHome : Event nproc → Prop
  | .logWrite _ b => HomeBlock b
  | _ => True

section Sources
variable {s t : Sys nproc} {e : Event nproc}
variable {q : Fin nproc}

theorem setPc_logWrite {k : Kernel nproc} {p : Fin nproc} {c : Pc} {b : Nat}
    (other : c ≠ .logWrite b) (at_ : (k.setPc p c).pc q = .logWrite b) :
    k.pc q = .logWrite b := by
  by_cases same : q = p
  · subst q
    simp only [Kernel.setPc, Function.update_self] at at_
    exact absurd at_ other
  · simpa [Kernel.setPc, same] using at_

theorem wakeup_logWrite {k : Kernel nproc} {p : Fin nproc} {c : Pc} {b : Nat}
    (other : c ≠ .logWrite b) (at_ : (k.setPc p c).wakeup.pc q = .logWrite b) :
    k.pc q = .logWrite b :=
  setPc_logWrite other
    (wakeup_reading (fun c => c = Pc.logWrite b) (by simp) (k.setPc p c) q ▸ at_)

theorem logWrite_source (move : step mkfsLog s e = some t) {b : Nat}
    (at_ : t.kernel.pc q = .logWrite b) :
    s.kernel.pc q = .logWrite b ∨ ∃ p, e = .logWrite p b := by
  cases step_moves move with
  | @logWrite p x =>
    by_cases same : x = b
    · exact Or.inr ⟨p,same ▸ rfl⟩
    · exact Or.inl (setPc_logWrite (by simpa using same) at_)
  | tooBig | outsideOfTrans | overrun | reenter => exact Or.inl at_
  | enter | append =>
    exact Or.inl (setPc_logWrite (k := s.kernel) (c := .running) (by simp) at_)
  | close => exact Or.inl (setPc_logWrite (k := s.kernel) (c := .commit) (by simp) at_)
  | eraseHead => exact Or.inl (setPc_logWrite (k := s.kernel) (c := .finishing) (by simp) at_)
  | leave =>
    exact Or.inl (wakeup_logWrite (k := { s.kernel with outstanding := s.kernel.outstanding - 1 })
      (c := .user) (by simp) at_)
  | reopen =>
    exact Or.inl (wakeup_logWrite (k := { s.kernel with committing := false })
      (c := .user) (by simp) at_)
  | _ => exact Or.inl (setPc_logWrite (by simp) at_)

theorem block_source (move : step mkfsLog s e = some t) {b : Nat} (mem : b ∈ t.kernel.block) :
    b ∈ s.kernel.block ∨ ∃ p, s.kernel.pc p = .logWrite b := by
  cases step_moves move with
  | append logging =>
    rcases List.mem_append.mp mem with old | new
    · exact Or.inl old
    · rw [List.mem_singleton.mp new]
      exact Or.inr ⟨_,logging⟩
  | eraseHead => cases mem
  | _ => exact Or.inl mem

theorem close_source {b : Books nproc} {home : List Nat} {c : Commit}
    (mem : c ∈ (b.close home).commits) : c ∈ b.commits ∨ c.home = home := by
  rcases List.mem_append.mp mem with old | new
  · exact Or.inl old
  · rw [List.mem_singleton.mp new]
    exact Or.inr rfl

theorem commits_source (move : step mkfsLog s e = some t) {c : Commit}
    (mem : c ∈ t.books.commits) :
    c ∈ s.books.commits ∨ c.home = s.kernel.block ∨ c.home = [] := by
  cases step_moves move with
  | nothing => exact (close_source mem).imp_right Or.inr
  | eraseHead => exact (close_source mem).imp_right Or.inl
  | _ => exact Or.inl mem

end Sources

structure Sourced (s : Sys nproc) : Prop where
  logging : ∀ p b, s.kernel.pc p = .logWrite b → HomeBlock b
  blocks : ∀ b ∈ s.kernel.block, HomeBlock b
  commits : ∀ c ∈ s.books.commits, c.home.Nodup ∧ c.home.length ≤ 28 ∧
    ∀ b ∈ c.home, HomeBlock b

variable {s : Sys nproc}

theorem sourced_step {t : Sys nproc} {e : Event nproc} (h : Inv mkfsLog s) (r : Reserved s)
    (sourced : Sourced s) (home : LogsHome e) (move : step mkfsLog s e = some t) :
    Sourced t := by
  refine ⟨fun q b at_ => ?_, fun b mem => ?_, fun c mem => ?_⟩
  · rcases logWrite_source move at_ with before | ⟨p,rfl⟩
    · exact sourced.logging q b before
    · exact home
  · rcases block_source move mem with before | ⟨p,logging⟩
    · exact sourced.blocks b before
    · exact sourced.logging p b logging
  · rcases commits_source move mem with before | header | empty
    · exact sourced.commits c before
    · rw [header]
      exact ⟨h.absorbed,block_le r,sourced.blocks⟩
    · rw [empty]
      exact ⟨List.nodup_nil,Nat.zero_le 28,fun b mem => absurd mem List.not_mem_nil⟩

theorem sourced_run {es : List (Event nproc)}
    (calls : Along (step mkfsLog) (fun s e => AtMost 9 s e ∧ LogsHome e) start es)
    (run : exec (step mkfsLog) start es = some s) :
    (Inv mkfsLog s ∧ Reserved s) ∧ Sourced s := by
  refine exec_invariant (fun s => (Inv mkfsLog s ∧ Reserved s) ∧ Sourced s) ?_
    ⟨⟨inv_start,reserved_start⟩,?_⟩ calls run
  · intro s e t inv ok move
    exact ⟨⟨inv_step inv.1.1 move,reserved_step inv.1.1 inv.1.2 ok.1 move⟩,
      sourced_step inv.1.1 inv.1.2 inv.2 ok.2 move⟩
  · refine ⟨?_, ?_, ?_⟩
    all_goals simp [start]

/-- Where operations stay below their reservation, every commit the kernel finishes is one
    that survives crashes: its writes are those of a transaction with room in the log. -/
theorem commits_are_transactions {es : List (Event nproc)}
    (calls : Along (step mkfsLog) (fun s e => AtMost 9 s e ∧ LogsHome e) start es)
    (run : exec (step mkfsLog) start es = some s) :
    ∀ c ∈ s.books.commits, ∃ txn : Transaction mkfsLog, txn.home.length < mkfsLog.size ∧
      c.writes = commit mkfsLog txn.home ∧ ∀ op ∈ c.ops, ∀ b ∈ op, b ∈ txn.home := by
  obtain ⟨⟨inv,_⟩,sourced⟩ := sourced_run calls run
  intro c mem
  obtain ⟨distinct,few,home⟩ := sourced.commits c mem
  refine ⟨⟨c.home, distinct, fun b mem => (home b mem).1, ?_, fun b mem => (home b mem).2⟩, ?_,
    inv.together c mem⟩
  · simp only [logSize, maxOpBlocks]
    omega
  · simp only [mkfsLog, logSize, maxOpBlocks]
    omega

theorem commits_are_transactions_two :
    ∃ s : Sys 2, exec (step mkfsLog) start twoOperations = some s ∧ ∀ c ∈ s.books.commits,
      ∃ t : Transaction mkfsLog, t.home.length < mkfsLog.size ∧
        c.writes = commit mkfsLog t.home ∧ ∀ op ∈ c.ops, ∀ b ∈ op, b ∈ t.home := by
  have runs : (exec (step mkfsLog) (start : Sys 2) twoOperations).isSome = true := by decide
  obtain ⟨s,run⟩ := Option.isSome_iff_exists.mp runs
  have few : Along (step mkfsLog) (AtMost 9) (start : Sys 2) twoOperations := by decide
  have home : ∀ e ∈ twoOperations, LogsHome e := by
    simp [twoOperations, LogsHome, HomeBlock, mkfsLog, Log.Area, logSize, maxOpBlocks]
  exact ⟨s,run,commits_are_transactions
    (along_and few (along_of_forall fun e mem _ => home e mem)) run⟩

end LogTransactions
