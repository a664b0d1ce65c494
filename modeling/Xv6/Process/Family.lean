import Xv6.Process.Table

/- Exit and wait. Pids are never reused, so the record of the calls can be read by pid: each pid
   that fork returned is returned by wait at most once, after its process exited, to the process
   that was its parent then. -/
namespace ProcessFamily
open Param ProcessSystem ProcessTable RunLaws
variable {n ncpu : Nat}

structure Pids (s : State n ncpu) : Prop where
  below : ∀ i, (s.proc i).pid < s.nextpid
  used : ∀ i, (s.proc i).state ≠ .unused → 0 < (s.proc i).pid
  apart : ∀ i j, (s.proc i).pid = (s.proc j).pid → 0 < (s.proc i).pid → i = j

/-- The record of the calls against the table. The creator of a process is its parent, or its
    parent is init and the creator has exited. -/
structure Books (init : Fin n) (s : State n ncpu) : Prop where
  forkedBelow : ∀ k q, (k, q) ∈ s.forked → k < s.nextpid
  forkedOnce : (s.forked.map Prod.fst).Nodup
  fresh : ∀ i, (s.proc i).state = .embryo → ∀ q, ((s.proc i).pid, q) ∉ s.forked
  exitedBelow : ∀ k, k ∈ s.exited → k < s.nextpid
  living : ∀ i, Alive (s.proc i) ∨ (s.proc i).state = .embryo → (s.proc i).pid ∉ s.exited
  zombie : ∀ i, (s.proc i).state = .zombie → (s.proc i).pid ∈ s.exited
  lineage : ∀ i, Alive (s.proc i) ∨ (s.proc i).state = .zombie → i ≠ init →
    ∃ p q, (s.proc i).parent = some p ∧ ((s.proc i).pid, q) ∈ s.forked ∧
      (q = (s.proc p).pid ∨ p = init ∧ q ∈ s.exited)
  reapedGone : ∀ k w, (k, w) ∈ s.reaped → 0 < k ∧ k < s.nextpid ∧ ∀ i, (s.proc i).pid ≠ k
  reapedOnce : (s.reaped.map Prod.fst).Nodup
  reapedRight : ∀ k w, (k, w) ∈ s.reaped → k ∈ s.exited ∧ ∃ q, (k, q) ∈ s.forked ∧
    (w = q ∨ w = (s.proc init).pid ∧ q ∈ s.exited)

structure Tame (a b : Proc n) : Prop where
  pid : b.pid = a.pid
  used : b.state ≠ .unused → a.state ≠ .unused
  alive : Alive b → Alive a
  embryo : b.state = .embryo → a.state = .embryo
  zombie : b.state = .zombie → a.state = .zombie
  parent : Alive b ∨ b.state = .zombie → b.parent = a.parent

variable {a b : Proc n}

theorem tame_of_mild (mild : Mild a b) : Tame a b where
  pid := mild.pid
  used other := by
    intro unused
    exact other ((mild.dead (.inl rfl)).mpr unused)
  alive := mild.alive.mp
  embryo := (mild.dead (.inr (.inl rfl))).mp
  zombie := (mild.dead (.inr (.inr rfl))).mp
  parent _ := mild.parent

variable {s t : State n ncpu}

theorem pids_tame (pids : Pids s) (next : t.nextpid = s.nextpid)
    (tame : ∀ i, Tame (s.proc i) (t.proc i)) : Pids t where
  below i := by
    rw [(tame i).pid, next]
    exact pids.below i
  used i used := by
    rw [(tame i).pid]
    exact pids.used i ((tame i).used used)
  apart i j same some := by
    rw [(tame i).pid] at same some
    rw [(tame j).pid] at same
    exact pids.apart i j same some

variable {init : Fin n}

theorem books_tame (books : Books init s)
    (next : t.nextpid = s.nextpid) (forked : t.forked = s.forked) (exited : t.exited = s.exited)
    (reaped : t.reaped = s.reaped) (tame : ∀ i, Tame (s.proc i) (t.proc i)) : Books init t where
  forkedBelow := by rw [forked, next]; exact books.forkedBelow
  forkedOnce := by rw [forked]; exact books.forkedOnce
  fresh i embryo := by
    rw [(tame i).pid, forked]
    exact books.fresh i ((tame i).embryo embryo)
  exitedBelow := by rw [exited, next]; exact books.exitedBelow
  living i live := by
    rw [(tame i).pid, exited]
    exact books.living i (live.imp (tame i).alive (tame i).embryo)
  zombie i zombie := by
    rw [(tame i).pid, exited]
    exact books.zombie i ((tame i).zombie zombie)
  lineage i live other := by
    obtain ⟨p,q,parent,fork,creator⟩ :=
      books.lineage i (live.imp (tame i).alive (tame i).zombie) other
    rw [(tame i).pid, forked, exited, (tame i).parent live]
    exact ⟨p, q, parent, fork, by rwa [(tame p).pid]⟩
  reapedGone := by
    simp only [reaped, next, (tame _).pid]
    exact books.reapedGone
  reapedOnce := by rw [reaped]; exact books.reapedOnce
  reapedRight := by
    simp only [reaped, exited, forked, (tame _).pid]
    exact books.reapedRight

section
variable {init : Fin n} {s : State n ncpu} {p i : Fin n}

theorem fresh_key {k : Nat} {l : List (Nat × Nat)} (absent : ∀ q, (k, q) ∉ l) :
    k ∉ l.map Prod.fst := by
  intro mem
  obtain ⟨⟨j,q⟩,entry,rfl⟩ := List.mem_map.mp mem
  exact absent q entry

variable {t : State n ncpu}

theorem books_alloc (table : Table init s) (pids : Pids s) (books : Books init s)
    (proc : ∀ q, t.proc q = if q = p then { s.proc p with pc := .forkStack i }
      else if q = i then { s.proc i with state := .embryo, pid := s.nextpid } else s.proc q)
    (free : (s.proc i).state = .unused) (ne : i ≠ p)
    (rest : t = { s with proc := t.proc, nextpid := s.nextpid + 1 }) :
    Pids t ∧ Books init t := by
  have next : t.nextpid = s.nextpid + 1 := by rw [rest]
  have forked : t.forked = s.forked := by rw [rest]
  have exited : t.exited = s.exited := by rw [rest]
  have reaped : t.reaped = s.reaped := by rw [rest]
  have first := table.first
  have parents := table.parents
  obtain ⟨below,used,apart⟩ := pids
  obtain ⟨forkedBelow,forkedOnce,fresh,exitedBelow,living,zombie,lineage,gone,once,right⟩ := books
  constructor
  · constructor <;> grind
  · constructor
    case forkedOnce => rwa [forked]
    case reapedOnce => rwa [reaped]
    case lineage =>
      intro j live ne'
      have keep : ∀ r, r ≠ i → (t.proc r).pid = (s.proc r).pid ∧
          (t.proc r).parent = (s.proc r).parent := by grind
      have old : j ≠ i := by grind [Alive]
      obtain ⟨r,q,parent,fork,creator⟩ := lineage j (by grind [Alive]) ne'
      have older : r ≠ i := by
        rintro rfl
        simpa [Alive, free] using parents j r parent
      rw [(keep j old).1, (keep j old).2, forked, exited]
      exact ⟨r, q, parent, fork, by rwa [(keep r older).1]⟩
    all_goals grind [Alive]

theorem books_ready (pids : Pids s) (books : Books init s)
    (proc : ∀ q, t.proc q = if q = p then { s.proc p with pc := .user }
      else if q = i then { s.proc i with state := .runnable, pc := .user } else s.proc q)
    (embryo : (s.proc i).state = .embryo) (parent : (s.proc i).parent = some p) (ne : i ≠ p)
    (rest : t = { s with
      proc := t.proc, forked := ((s.proc i).pid, (s.proc p).pid) :: s.forked }) :
    Pids t ∧ Books init t := by
  have next : t.nextpid = s.nextpid := by rw [rest]
  have forked : t.forked = ((s.proc i).pid, (s.proc p).pid) :: s.forked := by rw [rest]
  have exited : t.exited = s.exited := by rw [rest]
  have reaped : t.reaped = s.reaped := by rw [rest]
  obtain ⟨below,used,apart⟩ := pids
  obtain ⟨forkedBelow,forkedOnce,fresh,exitedBelow,living,zombie,lineage,gone,once,right⟩ := books
  constructor
  · constructor <;> grind
  · constructor
    case forkedOnce =>
      rw [forked, List.map_cons, List.nodup_cons]
      exact ⟨fresh_key (fresh i embryo), forkedOnce⟩
    case reapedOnce => rwa [reaped]
    case lineage =>
      intro j live ne'
      by_cases this : j = i
      · exact ⟨p, (s.proc p).pid, by grind, by grind, by grind⟩
      · obtain ⟨r,q,parent,fork,creator⟩ := lineage j (by grind [Alive]) ne'
        exact ⟨r, q, by grind, by grind, by grind⟩
    all_goals grind [Alive]

theorem books_reap (pids : Pids s) (books : Books init s) (table : Table init s)
    (child : (s.proc i).parent = some p) (zombie : (s.proc i).state = .zombie)
    (same : t = reap s p i) : Pids t ∧ Books init t := by
  have proc := reap_proc s p i
  rw [← same] at proc
  have next : t.nextpid = s.nextpid := by rw [same]; rfl
  have forked : t.forked = s.forked := by rw [same]; rfl
  have exited : t.exited = s.exited := by rw [same]; rfl
  have reaped : t.reaped = ((s.proc i).pid, (s.proc p).pid) :: s.reaped := by rw [same]; rfl
  have first := table.first
  have parents := table.parents
  obtain ⟨below,used,apart⟩ := pids
  obtain ⟨forkedBelow,forkedOnce,fresh,exitedBelow,living,gone,lineage,reapedGone,once,right⟩ :=
    books
  have live : (s.proc i).state ≠ .unused := by simp [zombie]
  constructor
  · constructor <;> grind
  · constructor
    case forkedOnce => rwa [forked]
    case reapedOnce =>
      rw [reaped, List.map_cons, List.nodup_cons]
      refine ⟨fresh_key fun w entry => ?_, once⟩
      exact (reapedGone _ w entry).2.2 i rfl
    case lineage =>
      intro j live ne
      have old : j ≠ i := by grind [Alive]
      obtain ⟨r,q,parent,fork,creator⟩ := lineage j (by grind [Alive]) ne
      have older : r ≠ i := by
        rintro rfl
        simpa [Alive, zombie] using parents j r parent
      rw [proc j, if_neg old, forked, exited]
      exact ⟨r, q, parent, fork, by rwa [proc r, if_neg older]⟩
    all_goals grind [Alive]

theorem books_exit {c : Fin ncpu} (pids : Pids s) (books : Books init s)
    (run : (s.proc p).state = .running) (other : p ≠ init)
    (exits : Exits init s c p t) : Pids t ∧ Books init t := by
  have fields := exits_fields exits
  have next : t.nextpid = s.nextpid := by rw [exits.rest]
  have forked : t.forked = s.forked := by rw [exits.rest]
  have exited : t.exited = (s.proc p).pid :: s.exited := by rw [exits.rest]
  have reaped : t.reaped = s.reaped := by rw [exits.rest]
  obtain ⟨below,used,apart⟩ := pids
  obtain ⟨forkedBelow,forkedOnce,fresh,exitedBelow,living,zombie,lineage,gone,once,right⟩ := books
  constructor
  · constructor <;> grind
  · constructor
    case forkedOnce => rwa [forked]
    case reapedOnce => rwa [reaped]
    case lineage =>
      intro j live ne
      obtain ⟨r,q,parent,fork,creator⟩ := lineage j (by grind [Alive]) ne
      by_cases mine : r = p
      · exact ⟨init, q, by grind, by grind, by grind⟩
      · exact ⟨r, q, by grind, by grind, by grind⟩
    all_goals grind [Alive]

end

theorem tame_trans {d : Proc n} (first : Tame a b) (second : Tame b d) : Tame a d where
  pid := second.pid.trans first.pid
  used := first.used ∘ second.used
  alive := first.alive ∘ second.alive
  embryo := first.embryo ∘ second.embryo
  zombie := first.zombie ∘ second.zombie
  parent live := (second.parent live).trans (first.parent (live.imp second.alive second.zombie))

variable {p : Fin n}

theorem tame_update {proc : Fin n → Proc n} (tame : Tame (proc p) b)
    (i : Fin n) : Tame (proc i) (Function.update proc p b i) := by
  by_cases this : i = p
  · subst this
    simpa using tame
  · simpa [this] using tame_of_mild (mild_refl (proc i))

theorem tame_pc (a : Proc n) (c : Pc n) : Tame a { a with pc := c } :=
  ⟨rfl, id, id, id, id, fun _ => rfl⟩

theorem tame_embryo (embryo : a.state = .embryo) (pid : b.pid = a.pid)
    (state : b.state = .embryo ∨ b.state = .unused) : Tame a b := by
  obtain same | gone := state
  · exact ⟨pid, by simp [embryo], by simp [Alive, same], by simp [embryo], by simp [same],
      by simp [Alive, same]⟩
  · exact ⟨pid, by simp [gone], by simp [Alive, gone], by simp [gone], by simp [gone],
      by simp [Alive, gone]⟩

theorem tame_forks {ok : Bool}
    (sane : Sane init s) (forks : Forks s p ok t) :
    (∀ i, Tame (s.proc i) (t.proc i)) ∧ t = { s with proc := t.proc } ∨
    ∃ i, i ≠ p ∧ (s.proc i).state = .embryo ∧ (s.proc i).parent = some p ∧
      (∀ q, t.proc q = if q = p then { s.proc p with pc := .user }
        else if q = i then { s.proc i with state := .runnable, pc := .user } else s.proc q) ∧
      t = { s with proc := t.proc, forked := ((s.proc i).pid, (s.proc p).pid) :: s.forked } := by
  have stages := sane.table.forking p
  cases forks with
  | stack i at_ | noStack i at_ | copy i at_ | noCopy i at_ | parent i ok at_ =>
    obtain ⟨embryo,-⟩ := stages i (by rw [at_]; rfl)
    refine .inl ⟨fun q => tame_trans (tame_update ?_ q) (tame_update (tame_pc _ _) q), rfl⟩
    exact tame_embryo embryo rfl (by simp [embryo])
  | ready i ok at_ =>
    obtain ⟨embryo,stage⟩ := stages i (by rw [at_]; rfl)
    rw [at_] at stage
    have ne : i ≠ p := by
      rintro rfl
      have := sane.table.idle i (by rw [at_]; simp)
      simp [Alive, embryo] at this
    refine .inr ⟨i, ne, embryo, stage.1, fun q => ?_, rfl⟩
    simp only [State.modify, Function.update_apply, Ne.symm ne, if_false]

theorem books_passes {c : Fin ncpu}
    (sane : Sane init s) (pids : Pids s) (books : Books init s) (on : s.cpu c = some p)
    (calm : target (s.proc p).pc = none) (passes : Passes s c p t) : Pids t ∧ Books init t := by
  have run := sane.cpus.on c p on
  have alive : Alive (s.proc p) := .inr (.inl run)
  have mildly : ∀ {u : State n ncpu}, u.nextpid = s.nextpid → u.forked = s.forked →
      u.exited = s.exited → u.reaped = s.reaped → (∀ i, Mild (s.proc i) (u.proc i)) →
      Pids u ∧ Books init u := by
    intro u next forked exited reaped mild
    have tame := fun i => tame_of_mild (mild i)
    exact ⟨pids_tame pids next tame, books_tame books next forked exited reaped tame⟩
  cases passes with
  | reap i child zombie =>
    obtain ⟨pids',books'⟩ := books_reap pids books sane.table child zombie rfl
    have tame := tame_update (p := p) (tame_pc ((reap s p i).proc p) .user)
    exact ⟨pids_tame pids' rfl tame, books_tame books' rfl rfl rfl rfl tame⟩
  | giveUp =>
    refine mildly rfl rfl rfl rfl (mild_update ?_)
    exact ⟨rfl, rfl, rfl, rfl, .inr ⟨calm,rfl,alive⟩, .inl rfl⟩
  | sleep childless =>
    refine mildly rfl rfl rfl rfl (mild_update ?_)
    exact ⟨rfl, rfl, rfl, rfl, .inr ⟨calm, rfl, .inr (.inr rfl)⟩, .inr ⟨alive, .inr (.inr rfl)⟩⟩

variable {e : Event n ncpu}

theorem books_step (sane : Sane init s)
    (pids : Pids s) (books : Books init s) (move : step init s e = some t) :
    Pids t ∧ Books init t := by
  have mildly : ∀ {u : State n ncpu}, u.nextpid = s.nextpid → u.forked = s.forked →
      u.exited = s.exited → u.reaped = s.reaped → (∀ i, Mild (s.proc i) (u.proc i)) →
      Pids u ∧ Books init u := by
    intro u next forked exited reaped mild
    have tame := fun i => tame_of_mild (mild i)
    exact ⟨pids_tame pids next tame, books_tame books next forked exited reaped tame⟩
  have dispatched : ∀ p, (s.proc p).state = .runnable →
      Mild (s.proc p) { s.proc p with state := .running, chan := none } :=
    fun p ready => ⟨rfl, rfl, rfl, rfl, .inl rfl, .inr ⟨.inl ready, .inr (.inl rfl)⟩⟩
  cases step_moves move with
  | schedule c p idle ready => exact mildly rfl rfl rfl rfl (mild_update (dispatched p ready))
  | resume c p idle ready waits t passes =>
    obtain ⟨pids',books'⟩ := mildly (u := dispatch s c p) rfl rfl rfl rfl
      (mild_update (dispatched p ready))
    have sane' : Sane init (dispatch s c p) :=
      ⟨table_modify sane.table rfl (dispatched p ready), cpus_dispatch sane.cpus idle ready⟩
    refine books_passes sane' pids' books' (Function.update_self ..) ?_ passes
    simp [dispatch, modify_self, waits, target]
  | yield c p on =>
    have run := sane.cpus.on c p on
    refine mildly rfl rfl rfl rfl (mild_update ?_)
    exact ⟨rfl, rfl, rfl, rfl, .inl rfl, .inr ⟨.inr (.inl run), .inl rfl⟩⟩
  | sleep c k p on =>
    have run := sane.cpus.on c p on
    refine mildly rfl rfl rfl rfl (mild_update ?_)
    exact ⟨rfl, rfl, rfl, rfl, .inl rfl, .inr ⟨.inr (.inl run), .inr (.inr rfl)⟩⟩
  | wakeup k => exact mildly rfl rfl rfl rfl fun i => mild_of_woken (rouse_woken _ _)
  | kill pid i => exact mildly rfl rfl rfl rfl (mild_update (mild_strike _))
  | miss => exact mildly rfl rfl rfl rfl fun i => mild_refl _
  | full => exact ⟨pids,books⟩
  | alloc c p i on user free =>
    have ne : i ≠ p := by
      rintro rfl
      rw [sane.cpus.on c i on] at free
      cases free
    refine books_alloc sane.table pids books (fun q => ?_) free ne rfl
    simp only [State.modify, Function.update_apply, Ne.symm ne, if_false]
  | fork c p on ok t forks =>
    obtain ⟨tame,rest⟩ | ⟨i,ne,embryo,parent,proc,rest⟩ := tame_forks sane forks
    · have next : t.nextpid = s.nextpid := by rw [rest]
      exact ⟨pids_tame pids next tame, books_tame books next (by rw [rest]) (by rw [rest])
        (by rw [rest]) tame⟩
    · exact books_ready pids books proc embryo parent ne rest
  | exit c p on user other =>
    have run := sane.cpus.on c p on
    exact books_exit pids books run other (exit_spec other run)
  | wait c p on user t passes =>
    exact books_passes sane pids books on (by rw [user]; rfl) passes

structure Sleepers (s : State n ncpu) : Prop where
  own : ∀ p q, (s.proc p).chan = some (.wait q) → q = p
  clear : ∀ p i, (s.proc p).state = .sleeping → (s.proc p).chan = some (.wait p) →
    (s.proc i).parent = some p → (s.proc i).state ≠ .zombie

structure Calm (a b : Proc n) : Prop where
  chan : ∀ q, b.chan = some (.wait q) → a.chan = some (.wait q)
  asleep : ∀ q, b.chan = some (.wait q) → b.state = .sleeping → a.state = .sleeping
  zombie : b.state = .zombie → a.state = .zombie ∧ b.parent = a.parent

theorem sleepers_calm (sleepers : Sleepers s)
    (calm : ∀ i, Calm (s.proc i) (t.proc i)) : Sleepers t where
  own p q chan := sleepers.own p q ((calm p).chan q chan)
  clear p i asleep chan child zombie := by
    obtain ⟨was,parent⟩ := (calm i).zombie zombie
    exact sleepers.clear p i ((calm p).asleep p chan asleep) ((calm p).chan p chan)
      (parent ▸ child) was

theorem calm_refl (a : Proc n) : Calm a a := ⟨fun _ => id, fun _ _ => id, fun z => ⟨z,rfl⟩⟩

theorem calm_trans {d : Proc n} (first : Calm a b) (second : Calm b d) : Calm a d where
  chan q wait := first.chan q (second.chan q wait)
  asleep q wait now := first.asleep q (second.chan q wait) (second.asleep q wait now)
  zombie now := by
    obtain ⟨was,parent⟩ := second.zombie now
    exact ⟨(first.zombie was).1, parent.trans (first.zombie was).2⟩

theorem calm_pc (a : Proc n) (c : Pc n) : Calm a { a with pc := c } :=
  ⟨fun _ => id, fun _ _ => id, fun z => ⟨z,rfl⟩⟩

theorem calm_update {proc : Fin n → Proc n} (calm : Calm (proc p) b)
    (i : Fin n) : Calm (proc i) (Function.update proc p b i) := by
  by_cases this : i = p
  · subst this
    simpa using calm
  · simpa [this] using calm_refl (proc i)

theorem sleepers_passes {c : Fin ncpu} (sleepers : Sleepers s)
    (passes : Passes s c p t) : Sleepers t := by
  cases passes with
  | reap i child zombie =>
    refine sleepers_calm sleepers fun q =>
      calm_trans (calm_update ?_ q) (calm_update (calm_pc _ _) q)
    exact ⟨fun _ => id, fun _ _ => by simp, by simp⟩
  | giveUp => exact sleepers_calm sleepers (calm_update (calm_pc _ _))
  | sleep childless =>
    obtain ⟨own,clear⟩ := sleepers
    constructor <;> simp only [State.idle, modify_proc] <;> grind

theorem sleepers_exit {c : Fin ncpu}
    (sleepers : Sleepers s) (table : Table init s) (exits : Exits init s c p t) : Sleepers t := by
  have fields := exits_fields exits
  obtain ⟨own,clear⟩ := sleepers
  refine ⟨by grind, fun q i asleep chan child zombie => ?_⟩
  obtain ⟨-,-,-,chans,-,-,parent,state⟩ := fields i
  rw [parent] at child
  obtain ⟨rfl,-⟩ | ⟨ne,life⟩ := state
  · -- the process that exits: its parent was woken first
    split at child
    · next self => exact table.apart i self
    · exact exits.parent q q child ⟨asleep,chan⟩
  · have was : (s.proc i).state = .zombie := by
      obtain same | ⟨-,woken⟩ := life
      · rw [← same, zombie]
      · rw [zombie] at woken; cases woken
    split at child
    · -- an orphan: init was woken for it
      next orphan =>
      cases child
      exact exits.orphans i orphan was init ⟨asleep,chan⟩
    · refine clear q i ?_ ?_ child was
      · grind
      · grind

theorem calm_of_woken (woken : Woken a b) : Calm a b := by
  obtain rfl | ⟨asleep,rfl⟩ := woken
  · exact calm_refl _
  · exact ⟨fun _ => id, fun _ _ => by simp, by simp⟩

theorem sleepers_step (sane : Sane init s)
    (sleepers : Sleepers s) (move : step init s e = some t) : Sleepers t := by
  cases step_moves move with
  | schedule c p =>
    exact sleepers_calm sleepers (calm_update ⟨fun _ => by simp, fun _ => by simp, by simp⟩)
  | resume c p idle ready waits t passes =>
    refine sleepers_passes (s := dispatch s c p) (sleepers_calm sleepers (calm_update ?_)) passes
    exact ⟨fun _ => by simp, fun _ => by simp, by simp⟩
  | yield => exact sleepers_calm sleepers (calm_update ⟨fun _ => id, fun _ _ => by simp, by simp⟩)
  | sleep =>
    exact sleepers_calm sleepers (calm_update ⟨fun _ => by simp, fun _ => by simp, by simp⟩)
  | wakeup k => exact sleepers_calm sleepers fun i => calm_of_woken (rouse_woken _ _)
  | kill pid i =>
    refine sleepers_calm sleepers (calm_update ⟨fun _ => id, fun _ _ => ?_, fun now => ⟨?_, rfl⟩⟩)
    · by_cases asleep : (s.proc i).state = .sleeping <;> simp [strike, asleep]
    · by_cases asleep : (s.proc i).state = .sleeping <;> simp_all [strike]
  | miss => exact sleepers_calm sleepers fun i => calm_refl _
  | full => exact sleepers
  | alloc c p i on user free =>
    refine sleepers_calm sleepers fun q =>
      calm_trans (calm_update ?_ q) (calm_update (calm_pc _ _) q)
    exact ⟨fun _ => id, fun _ _ => by simp, by simp⟩
  | fork c p on ok t forks =>
    have stages := sane.table.forking p
    cases forks with
    | stack i at_ | noStack i at_ | copy i at_ | noCopy i at_ | parent i ok at_ | ready i ok at_ =>
      obtain ⟨embryo,-⟩ := stages i (by rw [at_]; rfl)
      refine sleepers_calm sleepers fun q =>
        calm_trans (calm_update ?_ q) (calm_update (calm_pc _ _) q)
      exact ⟨fun _ => id, fun _ _ => by simp [embryo], by simp [embryo]⟩
  | exit c p on user other =>
    exact sleepers_exit sleepers sane.table (exit_spec other (sane.cpus.on c p on))
  | wait c p on user t passes => exact sleepers_passes sleepers passes

structure Family (init : Fin n) (s : State n ncpu) : Prop where
  sane : Sane init s
  pids : Pids s
  books : Books init s
  sleepers : Sleepers s

theorem family_step (family : Family init s)
    (move : step init s e = some t) : Family init t := by
  obtain ⟨pids,books⟩ := books_step family.sane family.pids family.books move
  exact ⟨sane_step family.sane move, pids, books, sleepers_step family.sane family.sleepers move⟩

theorem family_boot (ncpu : Nat) (init : Fin n) : Family init (boot ncpu init) := by
  have next : (boot ncpu init).nextpid = 2 := rfl
  have proc := boot_proc ncpu init
  refine ⟨sane_boot ncpu init, ?_, ?_, ?_⟩
  · constructor <;> grind
  · constructor <;> simp [boot, Function.update_apply] <;> grind [Alive]
  · constructor <;> grind

theorem family_run {es : List (Event n ncpu)}
    (run : exec (step init) (boot ncpu init) es = some s) : Family init s :=
  exec_invariant (Family init)
    (fun _ _ _ family _ move => family_step family move) (family_boot ncpu init)
    (along_trivial _ _) run

/-- Exit and wait lose and duplicate nothing, in every reachable state. The record entries
    say who called: `(k, q)` in `forked` is a fork of the process with pid `q` that returned
    `k`, `(k, w)` in `reaped` a wait of the process with pid `w` that returned `k`. -/
theorem exit_and_wait_exact (init : Fin n) (es : List (Event n ncpu)) (s : State n ncpu)
    (run : exec (step init) (boot ncpu init) es = some s) :
    (∀ i j, (s.proc i).state ≠ .unused → (s.proc j).state ≠ .unused →
      (s.proc i).pid = (s.proc j).pid → i = j) ∧
    (s.forked.map Prod.fst).Nodup ∧ (s.reaped.map Prod.fst).Nodup ∧
    (∀ k w, (k, w) ∈ s.reaped → k ∈ s.exited ∧ ∃ q, (k, q) ∈ s.forked ∧
      (w = q ∨ w = (s.proc init).pid ∧ q ∈ s.exited)) ∧
    (∀ i, (s.proc i).state = .zombie → ∃ p, (s.proc i).parent = some p ∧
      (s.proc p).state ≠ .unused ∧ (s.proc p).state ≠ .zombie) ∧
    (∀ p i, (s.proc p).state = .sleeping → (s.proc p).chan = some (.wait p) →
      (s.proc i).parent = some p → (s.proc i).state ≠ .zombie) := by
  have family := family_run run
  refine ⟨fun i j live _ same => ?_, family.books.forkedOnce, family.books.reapedOnce,
    family.books.reapedRight, fun i zombie => ?_, family.sleepers.clear⟩
  · exact family.pids.apart i j same (family.pids.used i live)
  · have other : i ≠ init := by
      rintro rfl
      have := family.sane.table.first
      simp [Alive, zombie] at this
    obtain ⟨p,q,parent,-⟩ := family.books.lineage i (.inr zombie) other
    have alive := family.sane.table.parents i p parent
    refine ⟨p, parent, ?_, ?_⟩ <;> intro dead <;> simp [Alive, dead] at alive

def oneChild : List (Event 64 2) :=
  [.schedule 0 0, .fork 0, .forkStep 0 true, .forkStep 0 true, .forkStep 0 true,
    .forkStep 0 true, .schedule 1 1, .wait 0, .exit 1, .schedule 0 0]

theorem exit_and_wait_exact_one_child :
    ∃ s, exec (step 0) (boot 2 (0 : Fin 64)) oneChild = some s ∧ s.forked = [(2, 1)] ∧
      s.reaped = [(2, 1)] ∧ (s.reaped.map Prod.fst).Nodup ∧
      (∀ k w, (k, w) ∈ s.reaped → k ∈ s.exited ∧ ∃ q, (k, q) ∈ s.forked ∧
        (w = q ∨ w = (s.proc 0).pid ∧ q ∈ s.exited)) := by
  have final : (exec (step 0) (boot 2 (0 : Fin 64)) oneChild).map (fun s => (s.forked, s.reaped)) =
      some ([(2, 1)], [(2, 1)]) := by
    decide +kernel
  obtain ⟨s,run,ends⟩ := Option.map_eq_some_iff.mp final
  simp only [Prod.mk.injEq] at ends
  obtain ⟨-,-,once,right,-⟩ := exit_and_wait_exact 0 oneChild s run
  exact ⟨s, run, ends.1, ends.2, once, right⟩

end ProcessFamily
