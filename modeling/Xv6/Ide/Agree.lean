import Mathlib.Data.Fintype.Card
import Xv6.Ide.Drivers

/- ide.c behaves as memide.c run on the requests in the order in which they were queued. The
   invariant compares the state with memide.c's after the requests finished so far; the disk may
   be ahead of it by the active request. -/
namespace IdeDriver
open LinkedQueue RunLaws

variable {n : Nat} {s t : State n} {b : Fin n}

structure Request (disksize : Nat) (b : Buf) : Prop where
  lock : b.lock = true
  pending : b.done = false
  dev : b.dev = 1
  small : b.blockno.toNat < fssize
  inside : b.blockno.toNat < disksize

theorem toNat_byte (x : UInt32) (k : Nat) (small : k < 32) :
    ((x >>> UInt32.ofNat k) &&& 0xff).toUInt8.toNat = x.toNat / 2 ^ k % 256 := by
  have shift : (UInt32.ofNat k).toNat % 32 = k := by
    rw [UInt32.toNat_ofNat_of_lt' (Nat.lt_trans small (by decide)), Nat.mod_eq_of_lt small]
  have mask := Nat.and_two_pow_sub_one_eq_mod (x.toNat / 2 ^ k) 8
  rw [UInt32.toNat_toUInt8, UInt32.toNat_and, UInt32.toNat_shiftRight, shift,
    Nat.shiftRight_eq_div_pow]
  change (x.toNat / 2 ^ k &&& 255) % 256 = _
  change (x.toNat / 2 ^ k &&& 255) = _ at mask
  rw [mask, Nat.mod_mod]

theorem regs_address {b : Buf} (dev : b.dev = 1) (small : b.blockno.toNat < fssize) :
    (regs b).drive = true ∧ (regs b).sector = b.blockno.toNat := by
  have bound : b.blockno.toNat < 1000 := small
  have zero : b.blockno >>> 0 = b.blockno := by
    rw [← UInt32.toNat_inj, UInt32.toNat_shiftRight]
    rfl
  have low : (regs b).low.toNat = b.blockno.toNat % 256 := by
    have byte := toNat_byte b.blockno 0 (by decide)
    have same : UInt32.ofNat 0 = 0 := rfl
    rwa [Nat.pow_zero, Nat.div_one, same, zero] at byte
  have mid : (regs b).mid.toNat = b.blockno.toNat / 2 ^ 8 % 256 :=
    toNat_byte b.blockno 8 (by decide)
  have high : (regs b).high.toNat = b.blockno.toNat / 2 ^ 16 % 256 :=
    toNat_byte b.blockno 16 (by decide)
  have top : b.blockno >>> 24 = 0 := by
    rw [← UInt32.toNat_inj, UInt32.toNat_shiftRight, Nat.shiftRight_eq_div_pow]
    change b.blockno.toNat / 2 ^ 24 = 0
    omega
  have select : (regs b).select = 0xf0 := by
    simp only [regs, dev, top]
    decide
  have parts : (0xf0 : UInt8).toNat % 16 = 0 ∧ (0xf0 : UInt8).toNat / 16 % 2 = 1 := by decide
  constructor
  · rw [Regs.drive, select, parts.2]
    rfl
  · rw [Regs.sector, select, low, mid, high, parts.1]
    omega

inductive Active (m : Nat → Data) (b : Buf) : Device → Prop
  | reading {d : Device} (clean : b.dirty = false) (disk : d.disk true = m)
      (phase : d.phase = .reading true b.blockno.toNat) : Active m b d
  | writing {d : Device} (dirty : b.dirty = true) (disk : d.disk true = m)
      (phase : d.phase = .writing true b.blockno.toNat b.data) : Active m b d
  | read {d : Device} (clean : b.dirty = false) (disk : d.disk true = m)
      (phase : d.phase = .read (m b.blockno.toNat)) : Active m b d
  | written {d : Device} (dirty : b.dirty = true)
      (disk : d.disk true = set m b.blockno.toNat b.data) (phase : d.phase = .written) :
      Active m b d

def Working (m : Nat → Data) (buf : Fin n → Buf) (d : Device) : List (Fin n) → Prop
  | [] => d.phase = .idle ∧ d.disk true = m
  | b :: _ => Active m (buf b) d

/-- `l` is the queue; `disk` and `buf` are as at the start. -/
structure Inv (disksize : Nat) (disk : Bool → Nat → Data) (buf : Fin n → Buf) (l : List (Fin n))
    (m : Nat → Data) (s : State n) : Prop where
  present : s.havedisk1 = true
  linked : Linked s.qnext s.idequeue l
  queued : s.queued = s.finished ++ l
  once : s.queued.Nodup
  started : s.started = s.finished ++ l.take 1
  before : ∀ b, s.call b = .before ↔ b ∉ s.queued
  asleep : ∀ b, s.call b = .asleep → b ∈ l
  returned : ∀ b, s.call b = .returned → b ∈ s.finished
  same : memRun disksize s.finished (disk true, buf) = some (m, s.buf)
  working : Working m s.buf s.device l
  other : s.device.disk false = disk false

variable {disksize : Nat} {disk : Bool → Nat → Data} {buf : Fin n → Buf} {l : List (Fin n)}
  {m : Nat → Data}

theorem memRun_append (as bs : List (Fin n)) (x : (Nat → Data) × (Fin n → Buf)) :
    memRun disksize (as ++ bs) x = (memRun disksize as x).bind (memRun disksize bs) := by
  induction as generalizing x with
  | nil => rfl
  | cons a as ih =>
    simp only [List.cons_append, memRun, Option.bind_assoc]
    congr 1
    funext y
    exact ih _

variable {m' : Nat → Data}

theorem memRun_other {bs : List (Fin n)} {buf' : Fin n → Buf}
    (run : memRun disksize bs (m, buf) = some (m', buf')) (out : b ∉ bs) : buf' b = buf b := by
  induction bs generalizing m buf with
  | nil =>
    cases run
    rfl
  | cons a bs ih =>
    obtain ⟨⟨m'',c⟩,-,rest⟩ := Option.bind_eq_some_iff.mp run
    rw [ih rest fun mem => out (List.mem_cons_of_mem a mem)]
    have apart : b ≠ a := fun eq => out (eq ▸ List.mem_cons_self)
    exact Function.update_of_ne apart ..

theorem memiderw_done {c c' : Buf} (run : memiderw disksize m c = some (m', c')) :
    c'.done = true := by
  simp only [memiderw] at run
  split_ifs at run with _ _ _ _ dirty
  · cases run
    rfl
  · cases run
    simp [Buf.done, dirty]

theorem memRun_done {bs : List (Fin n)} {buf' : Fin n → Buf}
    (run : memRun disksize bs (m, buf) = some (m', buf')) (mem : b ∈ bs) :
    (buf' b).done = true := by
  induction bs generalizing m buf with
  | nil => cases mem
  | cons a bs ih =>
    obtain ⟨⟨m'',c⟩,first,rest⟩ := Option.bind_eq_some_iff.mp run
    by_cases again : b ∈ bs
    · exact ih rest again
    · obtain rfl : b = a := by simpa [again] using mem
      rw [memRun_other rest again, Function.update_self]
      exact memiderw_done first

theorem inv_waiting (inv : Inv disksize disk buf l m s) (out : b ∉ s.finished) : s.buf b = buf b :=
  memRun_other inv.same out

theorem memiderw_request {c : Buf} (ask : Request disksize c) :
    memiderw disksize m c = some (if c.dirty then
      (set m c.blockno.toNat c.data, { c with dirty := false, valid := true })
      else (m, { c with data := m c.blockno.toNat, valid := true })) := by
  have inside := ask.inside
  rw [memiderw, if_neg (by rw [ask.lock]; decide), if_neg (by rw [ask.pending]; decide),
    if_neg (not_not.mpr ask.dev), if_neg (by omega)]
  split <;> rfl

theorem idestart_request (ask : Request disksize (s.buf b)) (idle : s.device.phase = .idle)
    (disk : s.device.disk true = m) :
    ∃ d, idestart s b = some { s with device := d, started := s.started ++ [b] } ∧
      Active m (s.buf b) d ∧ d.disk false = s.device.disk false := by
  obtain ⟨drive,sector⟩ := regs_address ask.dev ask.small
  have small := ask.small
  have free : s.device.busy = false := by rw [Device.busy, idle]
  have eq : idestart s b = some { s with
      device :=
        ⟨s.device.disk, if (s.buf b).dirty then .writing true (s.buf b).blockno.toNat (s.buf b).data
        else .reading true (s.buf b).blockno.toNat⟩
      started := s.started ++ [b] } := by
    rw [idestart, if_neg (by omega), if_neg (by rw [free]; decide)]
    simp only [drive, sector]
  refine ⟨_, eq, ?_, rfl⟩
  cases dirty : (s.buf b).dirty with
  | true => exact .writing dirty disk rfl
  | false => exact .reading dirty disk rfl

variable {d : Device}

theorem complete_busy (busy : d.busy = true) : ∃ e, d.complete = some e := by
  unfold Device.busy at busy
  unfold Device.complete
  split at busy
  · exact ⟨_, rfl⟩
  · exact ⟨_, rfl⟩
  · cases busy

theorem inv_complete (inv : Inv disksize disk buf l m s) (move : s.device.complete = some d) :
    Inv disksize disk buf l m { s with device := d } := by
  have both : Working m s.buf d l ∧ d.disk false = s.device.disk false := by
    have working := inv.working
    cases l with
    | nil =>
      rw [Device.complete, working.1] at move
      cases move
    | cons b l =>
      cases working with
      | reading clean disk phase =>
        rw [Device.complete, phase] at move
        cases move
        exact ⟨.read clean disk (by rw [disk]), rfl⟩
      | writing dirty disk phase =>
        rw [Device.complete, phase] at move
        cases move
        refine ⟨.written dirty ?_ rfl, ?_⟩
        · simp only [disk, Function.update_self]
        · simp only [ne_eq, Bool.false_eq_true, not_false_eq_true, Function.update_of_ne]
      | read clean disk phase =>
        rw [Device.complete, phase] at move
        cases move
      | written dirty disk phase =>
        rw [Device.complete, phase] at move
        cases move
  exact { inv with working := both.1, other := both.2.trans inv.other }

theorem inv_wait (inv : Inv disksize disk buf l m s) (asked : ∀ b, Request disksize (buf b))
    (called : b ∈ s.queued) : Inv disksize disk buf l m (wait s b) := by
  have split : b ∈ s.finished ∨ b ∈ l := by simpa [inv.queued] using called
  have apart : ∀ c ∈ l, c ∉ s.finished := fun c mem done =>
    List.disjoint_of_nodup_append (inv.queued ▸ inv.once) done mem
  refine { inv with
    before := fun c => ?_, asleep := fun c sleeps => ?_, returned := fun c gone => ?_ }
  · by_cases same : c = b
    · subst same
      refine ⟨fun eq => ?_, fun out => absurd called out⟩
      simp only [wait, Function.update_self] at eq
      split at eq <;> cases eq
    · simp only [wait, Function.update_of_ne same]
      exact inv.before c
  · by_cases same : c = b
    · subst same
      rcases split with done | waits
      · simp only [wait, Function.update_self, memRun_done inv.same done] at sleeps
        cases sleeps
      · exact waits
    · simp only [wait, Function.update_of_ne same] at sleeps
      exact inv.asleep c sleeps
  · by_cases same : c = b
    · subst same
      simp only [wait, Function.update_self] at gone
      split at gone
      · rename_i flags
        rcases split with done | waits
        · exact done
        · rw [inv_waiting inv (apart c waits), (asked c).pending] at flags
          cases flags
      · cases gone
    · simp only [wait, Function.update_of_ne same] at gone
      exact inv.returned c gone

theorem inv_queue (inv : Inv disksize disk buf l m s) (new : b ∉ s.queued)
    {next : Fin n → Option (Fin n)}
    (linked : Linked next (l ++ [b]).head? (l ++ [b])) {started : List (Fin n)}
    (working : Working m s.buf d (l ++ [b])) (other : d.disk false = s.device.disk false)
    (starts : started = s.finished ++ (l ++ [b]).take 1) :
    Inv disksize disk buf (l ++ [b]) m { s with
      idequeue := (l ++ [b]).head?, qnext := next, queued := s.queued ++ [b], device :=
        d, started := started,
      call := Function.update s.call b .woken } := by
  refine { inv with
    linked := linked, working := working, other := other.trans inv.other, started := starts,
    queued := ?_, once := ?_, before := fun c => ?_, asleep := fun c sleeps => ?_, returned :=
      fun c gone => ?_ }
  · simp only [inv.queued, List.append_assoc]
  · refine List.nodup_append.mpr ⟨inv.once, by simp, fun c mem b' here eq => ?_⟩
    obtain rfl : b' = b := by simpa using here
    exact new (eq ▸ mem)
  · by_cases same : c = b
    · simp [same]
    · simp [same, inv.before c]
  · by_cases same : c = b
    · simp [same]
    · simp only [Function.update_of_ne same] at sleeps
      simp [inv.asleep c sleeps]
  · by_cases same : c = b
    · subst same
      simp at gone
    · simp only [Function.update_of_ne same] at gone
      exact inv.returned c gone

theorem inv_enter (inv : Inv disksize disk buf l m s) (asked : ∀ b, Request disksize (buf b))
    (first : s.call b = .before) :
    ∃ t, iderw s b = some t ∧ t.finished = s.finished ∧ Inv disksize disk buf (l ++ [b]) m t := by
  have new : b ∉ s.queued := (inv.before b).mp first
  have out : b ∉ s.finished ∧ b ∉ l := by simpa [inv.queued] using new
  have ask : Request disksize (s.buf b) := inv_waiting inv out.1 ▸ asked b
  have distinct : l.Nodup := (List.nodup_append.mp (inv.queued ▸ inv.once)).2.1
  have fits : l.length ≤ n := by simpa using List.Nodup.length_le_card distinct
  have linked : Linked (Function.update s.qnext b none) s.idequeue l := by
    refine linked_congr inv.linked fun c mem => ?_
    have apart : c ≠ b := fun eq => out.2 (eq ▸ mem)
    exact Function.update_of_ne apart ..
  obtain ⟨next,walk,linked⟩ := append_linked linked distinct out.2 (Function.update_self ..) fits
  have presence : ¬ ((s.buf b).dev ≠ 0 ∧ s.havedisk1 = false) := by simp [inv.present]
  rw [iderw, if_neg (by simp [ask.lock]), if_neg (by simp [ask.pending]), if_neg presence, walk]
  simp only [Option.bind_eq_bind, Option.bind_some]
  have working := inv.working
  cases l with
  | nil =>
    obtain ⟨d,started,active,other⟩ := idestart_request (b := b)
      (s := { s with idequeue := some b, qnext := next, queued := s.queued ++ [b] }) ask working.1
        working.2
    have front : ([] ++ [b]).head? = some b := rfl
    have idle : s.started = s.finished := by simpa using inv.started
    rw [if_pos front]
    refine ⟨_, congrArg (Option.bind · _) started, rfl, ?_⟩
    have queue := inv_queue inv new linked active other (show s.started ++ [b] = _ by simp [idle])
    have waits := inv_wait (b := b) queue asked (by simp)
    simp only [wait, Function.update_idem] at waits
    exact waits
  | cons c l =>
    have apart : (c :: l ++ [b]).head? ≠ some b := by
      intro eq
      cases eq
      exact out.2 (by simp)
    rw [if_neg apart]
    refine ⟨_, rfl, rfl, ?_⟩
    have queue := inv_queue inv new linked working rfl inv.started
    have waits := inv_wait (b := b) queue asked (by simp)
    simpa only [wait, Function.update_idem] using waits

theorem active_done {c : Buf} (active : Active m c d) (calm : d.busy = false)
    (ask : Request disksize c) :
    ∃ data, (if c.dirty then some c.data else d.insl) = some data ∧
      memiderw disksize m c = some (d.disk true,
        { c with data := data, valid := true, dirty := false }) := by
  cases active with
  | reading clean disk phase =>
    rw [Device.busy, phase] at calm
    cases calm
  | writing dirty disk phase =>
    rw [Device.busy, phase] at calm
    cases calm
  | read clean disk phase =>
    refine ⟨m c.blockno.toNat, ?_, ?_⟩
    · rw [if_neg (by simp [clean]), Device.insl, phase]
    · rw [memiderw_request ask, if_neg (by simp [clean]), disk, clean]
  | written dirty disk phase =>
    refine ⟨c.data, if_pos dirty, ?_⟩
    rw [memiderw_request ask, if_pos dirty, disk]

theorem inv_finish (inv : Inv disksize disk buf (b :: l) m s) {data : Data}
    (done : memiderw disksize m (s.buf b) =
      some (s.device.disk true, { s.buf b with data := data, valid := true, dirty := false }))
    (working : Working (s.device.disk true) (idedone s b data).buf d l)
    (other : d.disk false = s.device.disk false) {started : List (Fin n)}
    (starts : started = s.finished ++ [b] ++ l.take 1) :
    Inv disksize disk buf l (s.device.disk true)
      { idedone s b data with device := d, started := started } := by
  have called : s.call b ≠ .before := fun eq => (inv.before b).mp eq (by simp [inv.queued])
  refine ⟨inv.present, inv.linked.2, by simp [idedone, wakeup, inv.queued], inv.once, starts,
    fun a => ?_,
    fun a sleeps => ?_, fun a gone => ?_, ?_, working, other.trans inv.other⟩
  · by_cases same : a = b
    · subst same
      have queued : a ∈ s.queued := by simp [inv.queued]
      simp only [idedone, wakeup, Function.update_self, queued, not_true_eq_false, iff_false]
      split
      · decide
      · exact called
    · simp only [idedone, wakeup, Function.update_of_ne same]
      exact inv.before a
  · by_cases same : a = b
    · subst same
      simp only [idedone, wakeup, Function.update_self] at sleeps
      split at sleeps
      · cases sleeps
      · exact absurd sleeps ‹_›
    · simp only [idedone, wakeup, Function.update_of_ne same] at sleeps
      simpa [same] using inv.asleep a sleeps
  · by_cases same : a = b
    · simp [same, idedone, wakeup]
    · simp only [idedone, wakeup, Function.update_of_ne same] at gone
      simp [idedone, wakeup, inv.returned a gone]
  · simp only [idedone, wakeup, memRun_append, inv.same, Option.bind_some, memRun, done]

theorem inv_intr (inv : Inv disksize disk buf l m s) (asked : ∀ b, Request disksize (buf b))
    (calm : s.device.busy = false) :
    ∃ t m', ideintr s = some t ∧ t.finished = s.finished ++ l.take 1 ∧
      Inv disksize disk buf l.tail m' t := by
  have working := inv.working
  cases l with
  | nil =>
    have empty : s.idequeue = none := inv.linked
    exact ⟨s, m, by rw [ideintr, empty], by simp, inv⟩
  | cons b l =>
    have once := inv.queued ▸ inv.once
    have out : ∀ c ∈ b :: l, c ∉ s.finished :=
      fun c mem done => List.disjoint_of_nodup_append once done mem
    have ask : Request disksize (s.buf b) := inv_waiting inv (out b (by simp)) ▸ asked b
    obtain ⟨data,taken,done⟩ := active_done working calm ask
    have front : s.idequeue = some b := inv.linked.1
    have second : s.qnext b = l.head? := linked_head inv.linked.2
    simp only [ideintr, front, taken, second, Option.bind_some]
    have idle : s.started = s.finished ++ [b] := by simpa using inv.started
    cases l with
    | nil =>
      have quiet : Working (s.device.disk true) (idedone s b data).buf ⟨s.device.disk, .idle⟩ [] :=
        ⟨rfl, rfl⟩
      exact ⟨_, _, rfl, rfl, inv_finish inv done quiet rfl (by simpa using idle)⟩
    | cons c l =>
      have apart : c ≠ b :=
        fun eq => (List.nodup_cons.mp (List.nodup_append.mp once).2.1).1 (by simp [eq])
      have same : (idedone s b data).buf c = s.buf c := Function.update_of_ne apart ..
      have asks : Request disksize ((idedone s b data).buf c) := by
        rw [same, inv_waiting inv (out c (by simp))]
        exact asked c
      obtain ⟨d,started,active,other⟩ := idestart_request asks rfl rfl
      refine ⟨_, _, started, rfl, inv_finish inv done active other ?_⟩
      change s.started ++ [c] = _
      rw [idle]
      rfl

theorem inv_start : Inv disksize disk buf [] (disk true) (start disk buf) :=
  ⟨rfl, rfl, rfl, List.nodup_nil, rfl, fun _ => by simp [start], fun _ sleeps => (by cases sleeps),
    fun _ gone => (by cases gone), rfl, ⟨rfl, rfl⟩, rfl⟩

theorem inv_step (asked : ∀ b, Request disksize (buf b)) (inv : ∃ l m, Inv disksize disk buf l m s)
    {e : Event n} (move : step s e = some t) : ∃ l m, Inv disksize disk buf l m t := by
  obtain ⟨l,m,inv⟩ := inv
  cases e with
  | enter b =>
    rw [step] at move
    split at move
    · obtain ⟨u,entered,-,kept⟩ := inv_enter inv asked ‹_›
      cases entered.symm.trans move
      exact ⟨_, _, kept⟩
    · cases move
  | resume b =>
    rw [step] at move
    split at move
    · rename_i waits
      cases move
      have called : b ∈ s.queued := by
        by_contra new
        rw [(inv.before b).mpr new] at waits
        simp at waits
      exact ⟨_, _, inv_wait inv asked called⟩
    · cases move
  | complete =>
    obtain ⟨d,finished,eq⟩ := Option.map_eq_some_iff.mp move
    cases eq
    exact ⟨_, _, inv_complete inv finished⟩
  | intr =>
    rw [step] at move
    split at move
    · cases move
    · obtain ⟨u,m',handled,-,kept⟩ := inv_intr inv asked (Bool.eq_false_iff.mpr ‹_›)
      cases handled.symm.trans move
      exact ⟨_, _, kept⟩

/-- The two drivers agree. Every buffer is locked and asks for a block of disk 1; calls of iderw,
    the disk and interrupts go on in any order. Requests are started and finished once each in
    the order of the queue, and a call returns only after its own request is finished. No call
    panics. While a request is not finished, the disk can complete its command or the interrupt
    finishes the next request, and a call whose request is finished returns when it runs. When
    all queued requests are finished, disk, data and flags are what memide.c makes of the same
    buffers one after another in that order. -/
theorem drivers_agree (n disksize : Nat) (disk : Bool → Nat → Data) (buf : Fin n → Buf)
    (asked : ∀ b, Request disksize (buf b)) (es : List (Event n)) (s : State n)
    (run : exec step (start disk buf) es = some s) :
    s.queued.Nodup ∧ s.started <+: s.queued ∧ s.finished <+: s.started ∧
    (∀ b, s.call b = .returned → b ∈ s.finished) ∧
    (∀ b, s.call b = .before ↔ b ∉ s.queued) ∧
    (∀ b, s.call b = .before → ∃ t, step s (.enter b) = some t ∧ t.queued = s.queued ++ [b]) ∧
    (s.finished ≠ s.queued → (∃ t, step s .complete = some t) ∨
      ∃ b t, step s .intr = some t ∧ t.finished = s.finished ++ [b]) ∧
    (∀ b ∈ s.finished, s.call b = .returned ∨ ∃ t, step s (.resume b) = some t ∧
      t.call b = .returned) ∧
    (s.finished = s.queued → s.device.disk false = disk false ∧
      memRun disksize s.queued (disk true, buf) = some (s.device.disk true, s.buf)) := by
  obtain ⟨l,m,inv⟩ : ∃ l m, Inv disksize disk buf l m s :=
    exec_invariant (fun s => ∃ l m, Inv disksize disk buf l m s)
      (fun _ _ _ inv _ => inv_step asked inv) ⟨[], _, inv_start⟩ (along_trivial _ es) run
  refine ⟨inv.once, ?_, ?_, inv.returned, inv.before, fun b first => ?_, fun waits => ?_,
    fun b done => ?_,
    fun all => ?_⟩
  · rw [inv.started, inv.queued]
    exact (List.prefix_append_right_inj _).mpr (List.take_prefix 1 l)
  · rw [inv.started]
    exact List.prefix_append ..
  · obtain ⟨t,entered,same,kept⟩ := inv_enter inv asked first
    refine ⟨t, by rw [step, if_pos first, entered], ?_⟩
    rw [kept.queued, same, inv.queued, List.append_assoc]
  · cases l with
    | nil => exact absurd (by rw [inv.queued, List.append_nil]) waits
    | cons b l =>
      cases calm : s.device.busy with
      | true =>
        left
        obtain ⟨d,done⟩ := complete_busy calm
        exact ⟨_, by rw [step, done]; rfl⟩
      | false =>
        right
        obtain ⟨t,-,handled,more,-⟩ := inv_intr inv asked calm
        exact ⟨b, t, by rw [step, if_neg (by simp [calm]), handled], more⟩
  · have flags : (s.buf b).done = true := memRun_done inv.same done
    have called : s.call b ≠ .before := fun eq => (inv.before b).mp eq (by simp [inv.queued, done])
    cases at_ : s.call b with
    | before => exact absurd at_ called
    | returned => exact .inl rfl
    | asleep =>
      exact absurd done fun done => List.disjoint_of_nodup_append (inv.queued ▸ inv.once) done
        (inv.asleep b at_)
    | woken => exact .inr ⟨wait s b, by rw [step, if_pos (.inr at_)], by simp [wait, flags]⟩
  · obtain rfl : l = [] := by simpa [inv.queued] using all
    refine ⟨inv.other, ?_⟩
    rw [← all, inv.same, inv.working.2]

def pair (b : Fin 2) : Buf := ⟨false, b.val = 0, 1, 7, true, fun _ => if b.val = 0 then 9 else 0⟩

theorem drivers_agree_pair :
    ∃ s : State 2, exec step (start (fun _ _ _ => 0) pair) [.enter ⟨0, by decide⟩, .complete,
      .enter ⟨1, by decide⟩,
        .intr, .resume ⟨0, by decide⟩, .complete, .intr, .resume ⟨1, by decide⟩] = some s ∧
      (∀ b, s.call b = .returned) ∧
      memRun 8 [⟨0, by decide⟩, ⟨1, by decide⟩] (fun _ _ => 0, pair) = some (s.device.disk true,
        s.buf) := by
  have ends : (exec step (start (fun _ _ _ => 0) pair) [.enter ⟨0, by decide⟩, .complete,
    .enter ⟨1, by decide⟩,
      .intr, .resume ⟨0, by decide⟩, .complete, .intr, .resume ⟨1, by decide⟩]).map
        (fun s => (s.finished, s.queued, decide (∀ b, s.call b = .returned))) =
      some ([⟨0, by decide⟩, ⟨1, by decide⟩], [⟨0, by decide⟩, ⟨1, by decide⟩], true) := by
        decide +kernel
  obtain ⟨s,run,eq⟩ := Option.map_eq_some_iff.mp ends
  simp only [Prod.mk.injEq, decide_eq_true_eq] at eq
  obtain ⟨finished,queued,returned⟩ := eq
  have asked : ∀ b, Request 8 (pair b) := fun b =>
    ⟨rfl, by revert b; decide, rfl, by revert b; decide, by revert b; decide⟩
  have agree := drivers_agree 2 8 (fun _ _ _ => 0) pair asked _ s run
  refine ⟨s, run, returned, ?_⟩
  rw [← queued]
  exact (agree.2.2.2.2.2.2.2.2 (finished.trans queued.symm)).2

end IdeDriver
