import Xv6.Lib.LockScripts
import Xv6.Param

/- The kernel's spinlocks ptable.lock, tickslock, cons.lock and semtable[i].lock, and the
   code sections that hold them (proc.c, trap.c, sysproc.c, console.c). A section runs from
   a point where the processor holds none of these locks to the next such point. Interrupts
   are off in between, so a processor runs one section after the other. -/
namespace SpinlockOrder
open LockScripts RunLaws WaitOrder

inductive Lock where
  | ptable
  | tickslock
  | cons
  | sem : Fin Param.maxSemaphore → Lock
  deriving DecidableEq, Repr

/-- Where a section depends on data, the data that decides which locks it takes. -/
inductive Section where
  -- `some total` when `round_robin` finds nobody and `lottery` counts `total` tickets.
  | scheduler : Option Int → Section
  | timer
  -- `true` when the section ends in `sleep`, also after a resumption.
  | sysSleep : Bool → Section
  | sysUptime
  -- The number of lines handed to readers.
  | consoleintr : Nat → Section
  | consoleread : Bool → Section
  | cprintf
  -- The number of `cprintf` calls made for the processes of the table.
  | printAllProcs : Nat → Section
  | semAcquire : Fin Param.maxSemaphore → Bool → Section
  | semResume : Fin Param.maxSemaphore → Section
  | semRelease : Fin Param.maxSemaphore → Bool → Section
  | kill
  | wait : Bool → Section
  | exit
  | yield
  | allocproc
  deriving DecidableEq, Repr

def wakeup : List (Op Lock) := bursts .ptable 1

def cprintf : Nat → List (Op Lock) := bursts .cons

def generateRandomNumber (min max : Int) : List (Op Lock) :=
  if max ≤ min then [] else [.acquire .tickslock, .release .tickslock]

def lottery (totalTickets : Int) : List (Op Lock) := generateRandomNumber 1 totalTickets

/-- `sched` leaves ptable.lock to the scheduler, which releases it on the same processor. -/
def sleep (lk : Lock) : List (Op Lock) :=
  if lk ≠ .ptable then [.acquire .ptable, .release lk, .release .ptable] else [.release .ptable]

def locks {ncpu : Nat} (c : Fin ncpu) : Section → List (Op Lock)
  | .scheduler none => [.acquire .ptable, .release .ptable]
  | .scheduler (some total) => .acquire .ptable :: (lottery total ++ [.release .ptable])
  | .timer =>
    if c.val = 0 then .acquire .tickslock :: (wakeup ++ [.release .tickslock]) else []
  | .sysSleep again =>
    .acquire .tickslock :: if again then sleep .tickslock else [.release .tickslock]
  | .sysUptime => [.acquire .tickslock, .release .tickslock]
  | .consoleintr lines => .acquire .cons :: (bursts .ptable lines ++ [.release .cons])
  | .consoleread again => .acquire .cons :: if again then sleep .cons else [.release .cons]
  | .cprintf => cprintf 1
  | .printAllProcs calls => .acquire .ptable :: (cprintf calls ++ [.release .ptable])
  | .semAcquire i full =>
    .acquire (.sem i) :: if full then sleep (.sem i) else [.release (.sem i)]
  | .semResume i => [.acquire (.sem i), .release (.sem i)]
  | .semRelease i wakes =>
    .acquire (.sem i) :: ((if wakes then wakeup else []) ++ [.release (.sem i)])
  | .kill => [.acquire .ptable, .release .ptable]
  | .wait again => .acquire .ptable :: if again then sleep .ptable else [.release .ptable]
  | .exit => [.acquire .ptable, .release .ptable]
  | .yield => [.acquire .ptable, .release .ptable]
  | .allocproc => [.acquire .ptable, .release .ptable]

def DrawsTicket : Section → Prop
  | .scheduler (some total) => 1 < total
  | _ => False

def PtableUnderTicks {ncpu : Nat} (c : Fin ncpu) : Section → Prop
  | .timer => c.val = 0
  | .sysSleep again => again = true
  | _ => False

def PrintsProcesses : Section → Prop
  | .printAllProcs calls => 0 < calls
  | _ => False

def PtableUnderCons : Section → Prop
  | .consoleintr lines => 0 < lines
  | .consoleread again => again = true
  | _ => False

def Crossing {ncpu : Nat} (allowed : Fin ncpu → Section → Prop) : Prop :=
  ∃ c d p q, c ≠ d ∧ allowed c p ∧ allowed d q ∧
    (DrawsTicket p ∧ PtableUnderTicks d q ∨ PrintsProcesses p ∧ PtableUnderCons q)

section
variable {ncpu : Nat} {allowed : Fin ncpu → Section → Prop}

theorem locks_closed (c : Fin ncpu) (p : Section) : after [] (locks c p) = [] := by
  cases p with
  | scheduler drawn =>
    cases drawn with
    | none => rfl
    | some total =>
      by_cases few : total ≤ 1 <;>
        simp [locks, lottery, generateRandomNumber, few, after]
  | timer => by_cases zero : c.val = 0 <;> simp [locks, zero, wakeup, bursts, after]
  | sysSleep again => cases again <;> simp [locks, sleep, after]
  | consoleintr lines =>
    simp only [locks, after, after_append]
    rw [after_bursts (by decide)]
    rfl
  | consoleread again => cases again <;> simp [locks, sleep, after]
  | printAllProcs calls =>
    simp only [locks, after, after_append, cprintf]
    rw [after_bursts (by decide)]
    rfl
  | semAcquire i full => cases full <;> simp [locks, sleep, after]
  | semRelease i wakes => cases wakes <;> simp [locks, wakeup, bursts, after]
  | wait again => cases again <;> rfl
  | semResume i => simp [locks, after]
  | _ => rfl

variable {c : Fin ncpu}

theorem nestings {p : Section} {h w : Lock} (edge : (h,w) ∈ edges [] (locks c p)) :
    (h = .ptable ∧ w = .tickslock ∧ DrawsTicket p) ∨
    (h = .ptable ∧ w = .cons ∧ PrintsProcesses p) ∨
    (h = .tickslock ∧ w = .ptable ∧ PtableUnderTicks c p) ∨
    (h = .cons ∧ w = .ptable ∧ PtableUnderCons p) ∨
    (∃ i, h = .sem i ∧ w = .ptable) := by
  cases p with
  | scheduler drawn =>
    cases drawn with
    | none => simp [locks, edges] at edge
    | some total =>
      by_cases few : total ≤ 1
      · simp [locks, lottery, generateRandomNumber, few, edges] at edge
      · simp [locks, lottery, generateRandomNumber, few, edges] at edge
        exact Or.inl ⟨edge.1,edge.2,by simpa [DrawsTicket] using few⟩
  | timer =>
    by_cases zero : c.val = 0
    · simp [locks, zero, wakeup, bursts, edges] at edge
      exact Or.inr (Or.inr (Or.inl ⟨edge.1,edge.2,zero⟩))
    · simp [locks, zero, edges] at edge
  | sysSleep again =>
    cases again with
    | false => simp [locks, edges] at edge
    | true =>
      simp [locks, sleep, edges] at edge
      exact Or.inr (Or.inr (Or.inl ⟨edge.1,edge.2,rfl⟩))
  | consoleintr lines =>
    simp only [locks, edges, edges_append, List.map_nil, List.nil_append, List.append_nil] at edge
    obtain ⟨held,same,some⟩ := edges_bursts (by decide) edge
    exact Or.inr (Or.inr (Or.inr (Or.inl ⟨List.mem_singleton.mp held,same,some⟩)))
  | consoleread again =>
    cases again with
    | false => simp [locks, edges] at edge
    | true =>
      simp [locks, sleep, edges] at edge
      exact Or.inr (Or.inr (Or.inr (Or.inl ⟨edge.1,edge.2,rfl⟩)))
  | printAllProcs calls =>
    simp only [locks, cprintf, edges, edges_append, List.map_nil, List.nil_append,
      List.append_nil] at edge
    obtain ⟨held,same,some⟩ := edges_bursts (by decide) edge
    exact Or.inr (Or.inl ⟨List.mem_singleton.mp held,same,some⟩)
  | semAcquire i full =>
    cases full with
    | false => simp [locks, edges] at edge
    | true =>
      simp [locks, sleep, edges] at edge
      exact Or.inr (Or.inr (Or.inr (Or.inr ⟨i,edge⟩)))
  | semRelease i wakes =>
    cases wakes with
    | false => simp [locks, edges] at edge
    | true =>
      simp [locks, wakeup, bursts, edges] at edge
      exact Or.inr (Or.inr (Or.inr (Or.inr ⟨i,edge⟩)))
  | wait again => cases again <;> simp [locks, sleep, edges] at edge
  | sysUptime | cprintf | semResume | kill | exit | yield | allocproc =>
    simp [locks, cprintf, bursts, edges] at edge

variable {s : State Lock (Fin ncpu)}

theorem wants_same {l l' : Lock} (one : Wants s c l)
    (two : Wants s c l') : l = l' := by
  obtain ⟨rest,eq⟩ := one
  obtain ⟨rest',eq'⟩ := two
  rw [eq, List.cons.injEq, Op.acquire.injEq] at eq'
  exact eq'.1

theorem crossing_at_ptable (tracks : ∀ c, Tracks locks allowed s c) {b : Fin ncpu}
    (owns : Owns s b .ptable)
    (cycle : Relation.TransGen (WaitsFor (Wants s) (Owns s)) b b) : Crossing allowed := by
  obtain ⟨d,⟨w,wants,taken⟩,onward⟩ := cycle_next cycle
  obtain ⟨_,⟨w',wants',_⟩,_⟩ := cycle_next onward
  obtain ⟨p,may,edge⟩ := edge_of_tracks (tracks b) wants owns
  obtain ⟨q,may',edge'⟩ := edge_of_tracks (tracks d) wants' taken
  have apart : w ≠ w' → b ≠ d := by
    intro differ same
    subst d
    exact differ (wants_same wants wants')
  rcases nestings edge with ⟨_,rfl,draws⟩ | ⟨_,rfl,prints⟩ | ⟨h,_⟩ | ⟨h,_⟩ | ⟨i,h,_⟩
  · rcases nestings edge' with ⟨h,_⟩ | ⟨h,_⟩ | ⟨_,rfl,under⟩ | ⟨h,_⟩ | ⟨i,h,_⟩
    · cases h
    · cases h
    · exact ⟨b,d,p,q,apart (by decide),may,may',Or.inl ⟨draws,under⟩⟩
    · cases h
    · cases h
  · rcases nestings edge' with ⟨h,_⟩ | ⟨h,_⟩ | ⟨h,_⟩ | ⟨_,rfl,under⟩ | ⟨i,h,_⟩
    · cases h
    · cases h
    · cases h
    · exact ⟨b,d,p,q,apart (by decide),may,may',Or.inr ⟨prints,under⟩⟩
    · cases h
  · cases h
  · cases h
  · cases h

theorem crossing_of_deadlock (tracks : ∀ c, Tracks locks allowed s c) (deadlock : Deadlock s) :
    Crossing allowed := by
  obtain ⟨a,cycle⟩ := deadlock
  obtain ⟨b,⟨l,_,owns⟩,cycle⟩ := cycle_next cycle
  obtain ⟨d,⟨w,wants,taken⟩,onward⟩ := cycle_next cycle
  obtain ⟨p,_,edge⟩ := edge_of_tracks (tracks b) wants owns
  -- one of the two locks of the nesting is ptable.lock, owned by `b` or by `d`
  rcases nestings edge with ⟨rfl,_⟩ | ⟨rfl,_⟩ | ⟨_,rfl,_⟩ | ⟨_,rfl,_⟩ | ⟨_,_,rfl⟩
  · exact crossing_at_ptable tracks owns cycle
  · exact crossing_at_ptable tracks owns cycle
  · exact crossing_at_ptable tracks taken onward
  · exact crossing_at_ptable tracks taken onward
  · exact crossing_at_ptable tracks taken onward

theorem ticket_script {p : Section} (draws : DrawsTicket p) :
    ∃ rest, locks c p = .acquire .ptable :: .acquire .tickslock :: rest := by
  cases p with
  | scheduler drawn =>
    cases drawn with
    | none => exact draws.elim
    | some total =>
      have many : ¬ total ≤ 1 := Int.not_le.mpr draws
      simp [locks, lottery, generateRandomNumber, many]
  | _ => exact draws.elim

theorem ticks_script {q : Section} (under : PtableUnderTicks c q) :
    ∃ rest, locks c q = .acquire .tickslock :: .acquire .ptable :: rest := by
  cases q with
  | timer =>
    have zero : c.val = 0 := under
    simp [locks, zero, wakeup, bursts]
  | sysSleep again =>
    cases under
    simp [locks, sleep]
  | _ => exact under.elim

theorem print_script {p : Section} (prints : PrintsProcesses p) :
    ∃ rest, locks c p = .acquire .ptable :: .acquire .cons :: rest := by
  cases p with
  | printAllProcs calls =>
    cases calls with
    | zero => exact absurd prints (Nat.lt_irrefl 0)
    | succ k => simp [locks, cprintf, bursts]
  | _ => exact prints.elim

theorem cons_script {q : Section} (under : PtableUnderCons q) :
    ∃ rest, locks c q = .acquire .cons :: .acquire .ptable :: rest := by
  cases q with
  | consoleintr lines =>
    cases lines with
    | zero => exact absurd under (Nat.lt_irrefl 0)
    | succ k => simp [locks, bursts]
  | consoleread again =>
    cases under
    simp [locks, sleep]
  | _ => exact under.elim

/-- The kernel is free of spinlock deadlock exactly when no two processors take tickslock
    and ptable.lock, or cons.lock and ptable.lock, in opposite orders. -/
theorem deadlock_free_iff (allowed : Fin ncpu → Section → Prop) :
    (∀ es s, Along (step locks) (Permitted allowed) boot es →
      exec (step locks) boot es = some s → ¬ Deadlock s) ↔ ¬ Crossing allowed := by
  constructor
  · rintro safe ⟨c,d,p,q,apart,may,may',⟨draws,under⟩ | ⟨prints,under⟩⟩
    · obtain ⟨_,first⟩ := ticket_script (c := c) draws
      obtain ⟨_,second⟩ := ticks_script under
      obtain ⟨es,t,along,run,deadlock⟩ :=
        crossing_deadlocks apart (by decide) may may' first second
      exact safe es t along run deadlock
    · obtain ⟨_,first⟩ := print_script (c := c) prints
      obtain ⟨_,second⟩ := cons_script (c := d) under
      obtain ⟨es,t,along,run,deadlock⟩ :=
        crossing_deadlocks apart (by decide) may may' first second
      exact safe es t along run deadlock
  · intro straight es s along run deadlock
    exact straight (crossing_of_deadlock (tracks_run locks_closed along run) deadlock)

end

def drawInTick : List (Event (Fin 2) Section) :=
  [.start 1 (.scheduler (some 2)), .start 0 .timer, .advance 1, .advance 0]

theorem draw_in_tick_deadlocks :
    ¬ ∀ (ncpu : Nat) (es : List (Event (Fin ncpu) Section)) (s : State Lock (Fin ncpu)),
      exec (step locks) boot es = some s → ¬ Deadlock s := by
  intro safe
  have waits : (exec (step locks) boot drawInTick).map (fun s =>
      (s.owner .ptable, (s.todo 1).head?, s.owner .tickslock, (s.todo 0).head?)) =
        some (some 1, some (.acquire .tickslock), some 0, some (.acquire .ptable)) := by decide
  obtain ⟨s,run,facts⟩ := Option.map_eq_some_iff.mp waits
  simp only [Prod.mk.injEq, List.head?_eq_some_iff] at facts
  obtain ⟨ptable,ticket,tickslock,tick⟩ := facts
  exact safe 2 drawInTick s run ⟨1,.tail (.single ⟨.tickslock,ticket,tickslock⟩)
    ⟨.ptable,tick,ptable⟩⟩

end SpinlockOrder
