import Xv6.Process.System

/- Invariants of the process table: which slots are in use for what, who is forking into which
   slot, and that the parent of a process is alive. -/
namespace ProcessTable
open Param ProcessSystem RunLaws
variable {n ncpu : Nat}

def Alive (q : Proc n) : Prop := q.state = .runnable ∨ q.state = .running ∨ q.state = .sleeping

def target : Pc n → Option (Fin n)
  | .forkStack i | .forkCopy i | .forkParent i | .forkReady i => some i
  | .user | .inWait => none

def Stage (p : Fin n) (q : Proc n) : Pc n → Prop
  | .forkStack _ => q.parent = none
  | .forkCopy _ => q.parent = none ∧ q.kstack = .live
  | .forkParent _ => q.parent = none ∧ q.kstack = .live ∧ q.pgdir = .live
  | .forkReady _ => q.parent = some p ∧ q.kstack = .live ∧ q.pgdir = .live
  | .user | .inWait => True

structure Table (init : Fin n) (s : State n ncpu) : Prop where
  first : Alive (s.proc init)
  idle : ∀ p, (s.proc p).pc ≠ .user → Alive (s.proc p)
  memory : ∀ p, Alive (s.proc p) → (s.proc p).kstack = .live ∧ (s.proc p).pgdir = .live
  empty : ∀ p, (s.proc p).state = .unused → (s.proc p).parent = none
  forking : ∀ p i, target (s.proc p).pc = some i →
    (s.proc i).state = .embryo ∧ Stage p (s.proc i) (s.proc p).pc
  single : ∀ p q i, target (s.proc p).pc = some i → target (s.proc q).pc = some i → p = q
  embryo : ∀ i, (s.proc i).state = .embryo → ∃ p, target (s.proc p).pc = some i
  parents : ∀ i p, (s.proc i).parent = some p → Alive (s.proc p)
  born : ∀ i, Alive (s.proc i) ∨ (s.proc i).state = .zombie → i ≠ init → (s.proc i).parent ≠ none
  root : (s.proc init).parent = none
  apart : ∀ i, (s.proc i).parent ≠ some i

structure Mild (a b : Proc n) : Prop where
  parent : b.parent = a.parent
  kstack : b.kstack = a.kstack
  pgdir : b.pgdir = a.pgdir
  pid : b.pid = a.pid
  pc : b.pc = a.pc ∨ target a.pc = none ∧ target b.pc = none ∧ Alive b
  state : b.state = a.state ∨ Alive a ∧ Alive b

theorem mild_refl (a : Proc n) : Mild a a := ⟨rfl, rfl, rfl, rfl, .inl rfl, .inl rfl⟩

variable {a b : Proc n}

theorem mild_of_woken (woken : Woken a b) : Mild a b := by
  obtain rfl | ⟨asleep,rfl⟩ := woken
  · exact mild_refl _
  · exact ⟨rfl, rfl, rfl, rfl, .inl rfl, .inr ⟨.inr (.inr asleep), .inl rfl⟩⟩

theorem mild_strike (a : Proc n) : Mild a (strike a) := by
  refine ⟨rfl, rfl, rfl, rfl, .inl rfl, ?_⟩
  by_cases asleep : a.state = .sleeping
  · exact .inr ⟨.inr (.inr asleep), .inl (by simp [strike, asleep])⟩
  · exact .inl (by simp [strike, asleep])

variable {p : Fin n}

theorem mild_update {proc : Fin n → Proc n} (mild : Mild (proc p) b)
    (i : Fin n) : Mild (proc i) (Function.update proc p b i) := by
  by_cases this : i = p
  · subst this
    simpa using mild
  · simpa [this] using mild_refl (proc i)

theorem Mild.alive (mild : Mild a b) : Alive b ↔ Alive a := by
  obtain same | both := mild.state
  · simp only [Alive, same]
  · simp only [both]

theorem Mild.dead (mild : Mild a b) {st : ProcState}
    (dead : st = .unused ∨ st = .embryo ∨ st = .zombie) :
    b.state = st ↔ a.state = st := by
  obtain same | ⟨before,after⟩ := mild.state
  · rw [same]
  · unfold Alive at before after
    constructor
    · intro now
      rw [now] at after
      obtain rfl | rfl | rfl := dead <;> simp at after
    · intro was
      rw [was] at before
      obtain rfl | rfl | rfl := dead <;> simp at before

theorem Mild.target (mild : Mild a b) : target b.pc = target a.pc := by
  obtain same | ⟨before,after,-⟩ := mild.pc
  · rw [same]
  · rw [before, after]

variable {init : Fin n} {s t : State n ncpu}

theorem table_mild (table : Table init s)
    (mild : ∀ i, Mild (s.proc i) (t.proc i)) : Table init t where
  first := (mild init).alive.mpr table.first
  idle p busy := by
    obtain same | ⟨-,-,alive⟩ := (mild p).pc
    · exact (mild p).alive.mpr (table.idle p (same ▸ busy))
    · exact alive
  memory p alive := by
    rw [(mild p).kstack, (mild p).pgdir]
    exact table.memory p ((mild p).alive.mp alive)
  empty p unused := by
    rw [(mild p).parent]
    exact table.empty p (((mild p).dead (.inl rfl)).mp unused)
  forking p i forks := by
    have before : ProcessTable.target (s.proc p).pc = some i := (mild p).target ▸ forks
    obtain ⟨embryo,stage⟩ := table.forking p i before
    refine ⟨((mild i).dead (.inr (.inl rfl))).mpr embryo, ?_⟩
    obtain same | ⟨none_,-,-⟩ := (mild p).pc
    · rw [same]
      unfold Stage at stage ⊢
      rw [(mild i).parent, (mild i).kstack, (mild i).pgdir]
      exact stage
    · rw [before] at none_
      cases none_
  single p q i one two := table.single p q i ((mild p).target ▸ one) ((mild q).target ▸ two)
  embryo i embryo := by
    obtain ⟨p,forks⟩ := table.embryo i (((mild i).dead (.inr (.inl rfl))).mp embryo)
    exact ⟨p, (mild p).target.trans forks⟩
  parents i p child := (mild p).alive.mpr (table.parents i p ((mild i).parent ▸ child))
  born i live other := by
    rw [(mild i).parent]
    exact table.born i (live.imp (mild i).alive.mp ((mild i).dead (.inr (.inr rfl))).mp) other
  root := by
    rw [(mild init).parent]
    exact table.root
  apart i := by
    rw [(mild i).parent]
    exact table.apart i

section
variable {init : Fin n} {s : State n ncpu} {p i : Fin n}

/-- allocproc takes an unused slot for process `p`. Only the two slots change. -/
theorem table_alloc (table : Table init s) (alive : Alive (s.proc p)) (user : (s.proc p).pc = .user)
    (free : (s.proc i).state = .unused) : Table init
      ({ s with nextpid := s.nextpid + 1 }.modify i
        (fun q => { q with state := .embryo, pid := s.nextpid }) |>.modify p
        fun q => { q with pc := .forkStack i }) := by
  have ne : i ≠ p := by
    rintro rfl
    simp [Alive, free] at alive
  obtain ⟨first,idle,memory,empty,forking,single,embryo,parents,born,root,apart⟩ := table
  constructor <;> simp only [modify_proc] <;> grind [Alive, target, Stage]

theorem table_stage (table : Table init s) {c : Pc n} {b : Proc n}
    (forks : target (s.proc p).pc = some i) (next : target c = some i) (embryo : b.state = .embryo)
    (pc : b.pc = (s.proc i).pc) (stage : Stage p b c)
    (parent : b.parent = (s.proc i).parent ∨ b.parent = some p) :
    Table init ((s.modify i fun _ => b).modify p fun q => { q with pc := c }) := by
  have alive : Alive (s.proc p) := by
    apply table.idle
    intro user
    simp [user, target] at forks
  have ne : i ≠ p := by
    rintro rfl
    have := (table.forking i i forks).1
    simp [Alive, this] at alive
  obtain ⟨first,idle,memory,empty,forking,single,embryos,parents,born,root,apart⟩ := table
  constructor <;> simp only [modify_proc] <;> grind [Alive, target]

theorem table_done (table : Table init s) {b : Proc n} (forks : target (s.proc p).pc = some i)
    (pc : b.pc = .user)
    (state : b.state = .unused ∧ b.parent = none ∨
      b.state = .runnable ∧ b.parent = some p ∧ b.kstack = .live ∧ b.pgdir = .live) :
    Table init ((s.modify i fun _ => b).modify p fun q => { q with pc := .user }) := by
  have alive : Alive (s.proc p) := by
    apply table.idle
    intro user
    simp [user, target] at forks
  have before := (table.forking p i forks).1
  have ne : i ≠ p := by
    rintro rfl
    simp [Alive, before] at alive
  have other : i ≠ init := by
    rintro rfl
    have := table.first
    simp [Alive, before] at this
  obtain ⟨first,idle,memory,empty,forking,single,embryos,parents,born,root,apart⟩ := table
  constructor <;> simp only [modify_proc] <;> grind [Alive, target]

theorem table_reap {t : State n ncpu} {b : Proc n} (table : Table init s)
    (proc : t.proc = Function.update s.proc i b) (zombie : (s.proc i).state = .zombie)
    (pc : b.pc = (s.proc i).pc) (state : b.state = .unused) (parent : b.parent = none) :
    Table init t := by
  have other : i ≠ init := by
    rintro rfl
    have := table.first
    simp [Alive, zombie] at this
  have user : (s.proc i).pc = .user := by
    by_contra busy
    have := table.idle i busy
    simp [Alive, zombie] at this
  obtain ⟨first,idle,memory,empty,forking,single,embryos,parents,born,root,apart⟩ := table
  constructor <;> simp only [proc, Function.update_apply] <;> grind [Alive, target]

end

variable {c : Fin ncpu}

/-- exit field by field: only the exiting process changes its life, by becoming a zombie, and
    only its children change their parent. -/
theorem exits_fields (exits : Exits init s c p t) (i : Fin n) :
    (t.proc i).pc = (s.proc i).pc ∧ (t.proc i).pid = (s.proc i).pid ∧
      (t.proc i).killed = (s.proc i).killed ∧ (t.proc i).chan = (s.proc i).chan ∧
      (t.proc i).kstack = (s.proc i).kstack ∧ (t.proc i).pgdir = (s.proc i).pgdir ∧
      (t.proc i).parent =
        (if (s.proc i).parent = some p then some init else (s.proc i).parent) ∧
      (i = p ∧ (t.proc i).state = .zombie ∨ i ≠ p ∧ ((t.proc i).state = (s.proc i).state ∨
        (s.proc i).state = .sleeping ∧ (t.proc i).state = .runnable)) := by
  by_cases this : i = p
  · subst this
    rw [exits.self]
    unfold adopted
    split <;> simp_all
  · obtain ⟨w,woken,now⟩ := exits.others i this
    rw [now]
    unfold adopted
    obtain rfl | ⟨asleep,rfl⟩ := woken
    · split <;> simp_all
    · split <;> simp_all

theorem table_exit (table : Table init s) (user : (s.proc p).pc = .user)
    (run : (s.proc p).state = .running)
    (other : p ≠ init) (exits : Exits init s c p t) : Table init t := by
  have fields := exits_fields exits
  obtain ⟨first,idle,memory,empty,forking,single,embryos,parents,born,root,apart⟩ := table
  constructor
  case first => grind [Alive]
  case idle => grind [Alive]
  case memory => grind [Alive]
  case empty => grind [Alive]
  case single => grind [target]
  case embryo => grind [target]
  case parents => grind [Alive]
  case born => grind [Alive]
  case root => grind
  case apart => grind
  case forking =>
    intro q i forks
    rw [(fields q).1] at forks ⊢
    obtain ⟨embryo,stage⟩ := forking q i forks
    have busy : q ≠ p := by
      rintro rfl
      simp [user, target] at forks
    have stays : (t.proc i).parent = (s.proc i).parent := by
      cases pc : (s.proc q).pc <;> grind [target, Stage]
    refine ⟨by grind, ?_⟩
    unfold Stage at stage ⊢
    rw [stays, (fields i).2.2.2.2.1, (fields i).2.2.2.2.2.1]
    exact stage

variable {i : Fin n}

theorem idle_of_embryo (table : Table init s)
    (embryo : (s.proc i).state = .embryo) : (s.proc i).pc = .user := by
  by_contra busy
  have := table.idle i busy
  simp [Alive, embryo] at this

theorem table_of_proc (table : Table init s)
    (same : t.proc = s.proc) : Table init t :=
  table_mild table fun i => same ▸ mild_refl (t.proc i)

structure Cpus (s : State n ncpu) : Prop where
  on : ∀ c p, s.cpu c = some p → (s.proc p).state = .running
  one : ∀ c d p, s.cpu c = some p → s.cpu d = some p → c = d
  some : ∀ p, (s.proc p).state = .running → ∃ c, s.cpu c = some p

theorem cpus_same (cpus : Cpus s) (cpu : t.cpu = s.cpu)
    (same : ∀ p, (t.proc p).state = .running ↔ (s.proc p).state = .running) : Cpus t where
  on c p on := (same p).mpr (cpus.on c p (cpu ▸ on))
  one c d p first second := cpus.one c d p (cpu ▸ first) (cpu ▸ second)
  some p run := by
    rw [cpu]
    exact cpus.some p ((same p).mp run)

theorem cpus_leave (cpus : Cpus s)
    (on : s.cpu c = some p) (cpu : t.cpu = Function.update s.cpu c none)
    (self : (t.proc p).state ≠ .running)
    (same : ∀ q, q ≠ p → ((t.proc q).state = .running ↔ (s.proc q).state = .running)) :
    Cpus t where
  on d q onto := by
    rw [cpu, Function.update_apply] at onto
    split at onto
    · cases onto
    · next other =>
      have ne : q ≠ p := by
        rintro rfl
        exact other (cpus.one d c q onto on)
      exact (same q ne).mpr (cpus.on d q onto)
  one d e q first second := by
    rw [cpu, Function.update_apply] at first second
    split at first
    · cases first
    · split at second
      · cases second
      · exact cpus.one d e q first second
  some q run := by
    have ne : q ≠ p := by
      rintro rfl
      exact self run
    obtain ⟨d,onto⟩ := cpus.some q ((same q ne).mp run)
    refine ⟨d, ?_⟩
    have other : d ≠ c := by
      rintro rfl
      exact ne (Option.some.inj (onto.symm.trans on))
    rw [cpu, Function.update_of_ne other, onto]

theorem cpus_dispatch (cpus : Cpus s)
    (idle : s.cpu c = none) (ready : (s.proc p).state = .runnable) : Cpus (dispatch s c p) := by
  have off : ∀ d, s.cpu d ≠ some p := by
    intro d onto
    rw [cpus.on d p onto] at ready
    cases ready
  obtain ⟨on,one,some⟩ := cpus
  constructor <;> simp only [dispatch, State.modify, Function.update_apply]
  · grind
  · grind
  · intro q run
    by_cases this : q = p
    · exact ⟨c, by simp [this]⟩
    · obtain ⟨d,onto⟩ := some q (by simpa [this] using run)
      have other : d ≠ c := by
        rintro rfl
        rw [idle] at onto
        cases onto
      exact ⟨d, by simp [other, onto]⟩

theorem update_running {proc : Fin n → Proc n}
    (same : b.state = .running ↔ (proc i).state = .running) (q : Fin n) :
    (Function.update proc i b q).state = .running ↔ (proc q).state = .running := by
  by_cases this : q = i
  · subst this
    simpa using same
  · simp [this]

theorem modify_other {q : Fin n} (f : Proc n → Proc n) (ne : q ≠ i) :
    (s.modify i f).proc q = s.proc q := Function.update_of_ne ne ..

theorem modify_self (s : State n ncpu) (i : Fin n) (f : Proc n → Proc n) :
    (s.modify i f).proc i = f (s.proc i) := Function.update_self ..

structure Sane (init : Fin n) (s : State n ncpu) : Prop where
  table : Table init s
  cpus : Cpus s

theorem table_modify (table : Table init s) (proc : t.proc = Function.update s.proc p b)
    (mild : Mild (s.proc p) b) : Table init t :=
  table_mild table fun i => proc ▸ mild_update mild i

theorem sane_passes (sane : Sane init s) (on : s.cpu c = some p)
    (calm : target (s.proc p).pc = none)
    (passes : Passes s c p t) : Sane init t := by
  have run := sane.cpus.on c p on
  have alive : Alive (s.proc p) := .inr (.inl run)
  cases passes with
  | reap i child zombie =>
    have ne : p ≠ i := by
      rintro rfl
      rw [run] at zombie
      cases zombie
    have same : (reap s p i).proc p = s.proc p := Function.update_of_ne ne ..
    have reaped : Table init (reap s p i) :=
      table_reap sane.table rfl zombie rfl rfl rfl
    refine ⟨table_modify reaped rfl ?_, cpus_same sane.cpus rfl fun q => ?_⟩
    · rw [same]
      exact ⟨rfl, rfl, rfl, rfl, .inr ⟨calm,rfl,alive⟩, .inl rfl⟩
    · refine (update_running ?_ q).trans (update_running ?_ q)
      · exact Iff.rfl
      · simp [zombie]
  | giveUp =>
    refine ⟨table_modify sane.table rfl ?_, cpus_same sane.cpus rfl (update_running Iff.rfl)⟩
    exact ⟨rfl, rfl, rfl, rfl, .inr ⟨calm,rfl,alive⟩, .inl rfl⟩
  | sleep childless =>
    refine ⟨table_modify sane.table rfl ?_, cpus_leave sane.cpus on rfl ?_ fun q ne => ?_⟩
    · exact ⟨rfl, rfl, rfl, rfl, .inr ⟨calm, rfl, .inr (.inr rfl)⟩, .inr ⟨alive, .inr (.inr rfl)⟩⟩
    · simp [State.idle, modify_self]
    · simp [State.idle, modify_other _ ne]

theorem sane_forks {ok : Bool}
    (sane : Sane init s) (forks : Forks s p ok t) : Sane init t := by
  have running : ∀ (i : Fin n) (f g : Proc n → Proc n), target (s.proc p).pc = some i →
      (f (s.proc i)).state ≠ .running → (∀ q, (g q).state = q.state) → ∀ q,
      (((s.modify i f).modify p g).proc q).state = .running ↔ (s.proc q).state = .running := by
    intro i f g target_ off keeps q
    have embryo := (sane.table.forking p i target_).1
    refine (update_running (by rw [keeps]) q).trans (update_running ?_ q)
    simp [embryo, off]
  cases forks with
  | stack i at_ =>
    have forks : target (s.proc p).pc = some i := by rw [at_]; rfl
    obtain ⟨embryo,stage⟩ := sane.table.forking p i forks
    rw [at_] at stage
    refine ⟨table_stage sane.table forks rfl embryo rfl ⟨stage,rfl⟩ (.inl rfl), ?_⟩
    exact cpus_same sane.cpus rfl (running i _ _ forks (by simp [embryo]) fun _ => rfl)
  | noStack i at_ =>
    have forks : target (s.proc p).pc = some i := by rw [at_]; rfl
    obtain ⟨embryo,stage⟩ := sane.table.forking p i forks
    rw [at_] at stage
    refine ⟨table_done sane.table forks ?_ (.inl ⟨rfl,stage⟩), ?_⟩
    · exact idle_of_embryo sane.table embryo
    · exact cpus_same sane.cpus rfl (running i _ _ forks (by simp) fun _ => rfl)
  | copy i at_ =>
    have forks : target (s.proc p).pc = some i := by rw [at_]; rfl
    obtain ⟨embryo,stage⟩ := sane.table.forking p i forks
    rw [at_] at stage
    refine ⟨table_stage sane.table forks rfl embryo rfl ⟨stage.1,stage.2,rfl⟩ (.inl rfl), ?_⟩
    exact cpus_same sane.cpus rfl (running i _ _ forks (by simp [embryo]) fun _ => rfl)
  | noCopy i at_ =>
    have forks : target (s.proc p).pc = some i := by rw [at_]; rfl
    obtain ⟨embryo,stage⟩ := sane.table.forking p i forks
    rw [at_] at stage
    refine ⟨table_done sane.table forks ?_ (.inl ⟨rfl,stage.1⟩), ?_⟩
    · exact idle_of_embryo sane.table embryo
    · exact cpus_same sane.cpus rfl (running i _ _ forks (by simp) fun _ => rfl)
  | parent i ok at_ =>
    have forks : target (s.proc p).pc = some i := by rw [at_]; rfl
    obtain ⟨embryo,stage⟩ := sane.table.forking p i forks
    rw [at_] at stage
    refine ⟨table_stage sane.table forks rfl embryo rfl ⟨rfl,stage.2⟩ (.inr rfl), ?_⟩
    exact cpus_same sane.cpus rfl (running i _ _ forks (by simp [embryo]) fun _ => rfl)
  | ready i ok at_ =>
    have forks : target (s.proc p).pc = some i := by rw [at_]; rfl
    obtain ⟨embryo,stage⟩ := sane.table.forking p i forks
    rw [at_] at stage
    refine ⟨table_of_proc (table_done (b := { s.proc i with state := .runnable, pc := .user })
      sane.table forks rfl (.inr ⟨rfl,stage⟩)) rfl, ?_⟩
    exact cpus_same sane.cpus rfl (running i (fun q => { q with state := .runnable, pc := .user })
      (fun q => { q with pc := .user }) forks (by simp) fun _ => rfl)

theorem sane_step {e : Event n ncpu} (sane : Sane init s)
    (move : step init s e = some t) : Sane init t := by
  have dispatched : ∀ c p, s.cpu c = none → (s.proc p).state = .runnable →
      Sane init (dispatch s c p) := by
    intro c p idle ready
    refine ⟨table_modify sane.table rfl ?_, cpus_dispatch sane.cpus idle ready⟩
    exact ⟨rfl, rfl, rfl, rfl, .inl rfl, .inr ⟨.inl ready, .inr (.inl rfl)⟩⟩
  cases step_moves move with
  | schedule c p idle ready => exact dispatched c p idle ready
  | resume c p idle ready waits t passes =>
    refine sane_passes (dispatched c p idle ready) (Function.update_self ..) ?_ passes
    simp [dispatch, modify_self, waits, target]
  | yield c p on =>
    have run := sane.cpus.on c p on
    refine ⟨table_modify sane.table rfl ?_, cpus_leave sane.cpus on rfl ?_ fun q ne => ?_⟩
    · exact ⟨rfl, rfl, rfl, rfl, .inl rfl, .inr ⟨.inr (.inl run), .inl rfl⟩⟩
    · simp [State.idle, modify_self]
    · simp [State.idle, modify_other _ ne]
  | sleep c k p on =>
    have run := sane.cpus.on c p on
    refine ⟨table_modify sane.table rfl ?_, cpus_leave sane.cpus on rfl ?_ fun q ne => ?_⟩
    · exact ⟨rfl, rfl, rfl, rfl, .inl rfl, .inr ⟨.inr (.inl run), .inr (.inr rfl)⟩⟩
    · simp [State.idle, modify_self]
    · simp [State.idle, modify_other _ ne]
  | wakeup k =>
    refine ⟨table_mild sane.table fun i => mild_of_woken (rouse_woken _ _),
      cpus_same sane.cpus rfl fun q => ?_⟩
    obtain same | ⟨asleep,woken⟩ := rouse_woken (.other k) (s.proc q)
    · simp [wakeup1, same]
    · simp [wakeup1, woken, asleep]
  | kill pid i =>
    refine ⟨table_modify sane.table rfl (mild_strike _), cpus_same sane.cpus rfl ?_⟩
    refine update_running ?_
    by_cases asleep : (s.proc i).state = .sleeping <;> simp [strike, asleep]
  | miss => exact ⟨table_of_proc sane.table rfl, cpus_same sane.cpus rfl fun _ => Iff.rfl⟩
  | full => exact sane
  | alloc c p i on user free =>
    have run := sane.cpus.on c p on
    refine ⟨table_alloc sane.table (.inr (.inl run)) user free, cpus_same sane.cpus rfl fun q => ?_⟩
    refine (update_running ?_ q).trans (update_running ?_ q)
    · exact Iff.rfl
    · simp [free]
  | fork c p on ok t forks => exact sane_forks sane forks
  | exit c p on user other =>
    have run := sane.cpus.on c p on
    have exits := exit_spec other (c := c) run
    refine ⟨table_exit sane.table user run other exits,
      cpus_leave sane.cpus on (congrArg State.cpu exits.rest) ?_ fun q ne => ?_⟩
    · rw [exits.self]
      simp
    · obtain ⟨-,-,-,-,-,-,-,state⟩ := exits_fields exits q
      obtain ⟨same,-⟩ | ⟨-,same | ⟨asleep,woken⟩⟩ := state
      · exact absurd same ne
      · rw [same]
      · simp [asleep, woken]
  | wait c p on user t passes => exact sane_passes sane on (by rw [user]; rfl) passes

theorem sane_boot (ncpu : Nat) (init : Fin n) : Sane init (boot ncpu init) := by
  have idle : ∀ c, (boot ncpu init).cpu c = none := fun _ => rfl
  constructor
  · constructor <;> grind [Alive, target]
  · constructor <;> grind

theorem sane_run {es : List (Event n ncpu)}
    (run : exec (step init) (boot ncpu init) es = some s) : Sane init s :=
  exec_invariant (Sane init) (fun _ _ _ sane _ move => sane_step sane move)
    (sane_boot ncpu init) (along_trivial _ _) run

theorem passes_memory (passes : Passes s c p t)
    (run : (s.proc i).state = .running) :
    (t.proc i).kstack = (s.proc i).kstack ∧ (t.proc i).pgdir = (s.proc i).pgdir := by
  cases passes with
  | reap j child zombie =>
    have ne : i ≠ j := by
      rintro rfl
      rw [run] at zombie
      cases zombie
    grind
  | giveUp => grind
  | sleep =>
    simp only [State.idle, modify_proc]
    grind

theorem running_memory {e : Event n ncpu} (sane : Sane init s)
    (move : step init s e = some t) (run : (s.proc i).state = .running) :
    (t.proc i).kstack = (s.proc i).kstack ∧ (t.proc i).pgdir = (s.proc i).pgdir := by
  cases step_moves move with
  | schedule c p => grind
  | resume c p idle ready waits t passes =>
    have ne : i ≠ p := by
      rintro rfl
      rw [run] at ready
      cases ready
    have same : (dispatch s c p).proc i = s.proc i := Function.update_of_ne ne ..
    have kept := passes_memory passes (i := i) (by rw [same, run])
    rwa [same] at kept
  | yield c p on =>
    simp only [State.idle, modify_proc]
    grind
  | sleep c k p on =>
    simp only [State.idle, modify_proc]
    grind
  | wakeup k =>
    have mild := mild_of_woken (rouse_woken (.other k) (s.proc i))
    exact ⟨mild.kstack, mild.pgdir⟩
  | kill pid j => grind [strike]
  | miss => exact ⟨rfl,rfl⟩
  | full => exact ⟨rfl,rfl⟩
  | alloc c p j on user free => grind
  | fork c p on ok t forks =>
    have embryo := sane.table.forking p
    cases forks <;> grind [target]
  | exit c p on user other =>
    have exits := exit_spec other (c := c) (sane.cpus.on c p on)
    obtain ⟨-,-,-,-,kstack,pgdir,-⟩ := exits_fields exits i
    exact ⟨kstack,pgdir⟩
  | wait c p on user t passes => exact passes_memory passes run

/-- In every reachable state, with ptable.lock free: running processes and CPUs are matched, a
    runnable or running process has its stack and page table, so the scheduler can switch to it
    without a panic, and no step frees those of a process that some CPU still has. -/
theorem cpus_and_stacks (init : Fin n) (es : List (Event n ncpu)) (s : State n ncpu)
    (run : exec (step init) (boot ncpu init) es = some s) :
    (∀ p, (s.proc p).state = .running → ∃ c, s.cpu c = some p ∧ ∀ d, s.cpu d = some p → d = c) ∧
    (∀ c p, s.cpu c = some p → (s.proc p).state = .running) ∧
    (∀ p, (s.proc p).state = .runnable ∨ (s.proc p).state = .running →
      (s.proc p).kstack ≠ .null ∧ (s.proc p).pgdir ≠ .null) ∧
    (∀ c p, s.cpu c = none → (s.proc p).state = .runnable →
      (step init s (.schedule c p)).isSome = true) ∧
    (∀ e t i, step init s e = some t →
      (t.proc i).kstack ≠ (s.proc i).kstack ∨ (t.proc i).pgdir ≠ (s.proc i).pgdir →
      ∀ c, s.cpu c ≠ some i) := by
  have sane := sane_run run
  have memory : ∀ p, (s.proc p).state = .runnable ∨ (s.proc p).state = .running →
      (s.proc p).kstack ≠ .null ∧ (s.proc p).pgdir ≠ .null := by
    intro p ready
    obtain ⟨kstack,pgdir⟩ := sane.table.memory p (ready.imp id .inl)
    simp [kstack, pgdir]
  refine ⟨fun p running => ?_, sane.cpus.on, memory, fun c p idle ready => ?_, ?_⟩
  · obtain ⟨c,on⟩ := sane.cpus.some p running
    exact ⟨c, on, fun d also => sane.cpus.one d c p also on⟩
  · obtain ⟨kstack,pgdir⟩ := memory p (.inl ready)
    simp only [step, idle, ready, ne_eq, kstack, not_false_eq_true, pgdir, and_self, if_true]
    split <;> rfl
  · intro e t i move freed c on
    obtain ⟨kstack,pgdir⟩ := running_memory sane move (sane.cpus.on c i on)
    exact freed.elim (fun changed => changed kstack) fun changed => changed pgdir

def twoRunning : List (Event 64 2) :=
  [.schedule 0 0, .fork 0, .forkStep 0 true, .forkStep 0 true, .forkStep 0 true,
    .forkStep 0 true, .schedule 1 1]

theorem cpus_and_stacks_two_running :
    ∃ s, exec (step 0) (boot 2 (0 : Fin 64)) twoRunning = some s ∧
      s.cpu 0 = some 0 ∧ s.cpu 1 = some 1 ∧
      (∀ p, (s.proc p).state = .running →
        ∃ c, s.cpu c = some p ∧ ∀ d, s.cpu d = some p → d = c) := by
  have final : (exec (step 0) (boot 2 (0 : Fin 64)) twoRunning).map (fun s => (s.cpu 0, s.cpu 1)) =
      some (some 0, some 1) := by
    decide +kernel
  obtain ⟨s,run,ends⟩ := Option.map_eq_some_iff.mp final
  simp only [Prod.mk.injEq] at ends
  exact ⟨s, run, ends.1, ends.2, (cpus_and_stacks 0 twoRunning s run).1⟩

end ProcessTable
