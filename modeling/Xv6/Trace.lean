import Mathlib.Data.List.Induction
import Mathlib.Logic.Function.Basic
import Xv6.Lib.RunLaws
import Xv6.Param

/- The system-call trace of proc.c: push_pid_in_stack and its three tables. C stores the rows
   of a two-dimensional array one after the other, so the tables are flat here and column
   MAX_PID_NUM_SAVED of a row is the first cell of the next one. -/
namespace SyscallTrace
open Param RunLaws

/-- A system call that passes the check of `syscall`, by a process of `allocproc`: pids
    start at 1, and `syscalls[]` has the entries 1..33. -/
structure Call where
  pid : Nat
  num : Nat
  positive : 0 < pid
  known : 0 < num ∧ num < 34
  deriving DecidableEq

structure Tables where
  syscallsPidStack : Nat → Int
  syscallsOrderPidStack : Nat → Int
  pidNumOfCalls : Nat → Int

def cell (num i : Nat) : Nat := num * maxPidNumSaved + i

/-- The unbounded loop for the first zero cell; `none` when it leaves the whole table. -/
def search (m : Nat → Int) : Nat → Nat → Option Nat
  | 0, _ => none
  | fuel + 1, a => if m a ≠ 0 then search m fuel (a + 1) else some a

def tableSize : Nat := numOfSyscalls * maxPidNumSaved

def freeCell (t : Tables) (num : Nat) : Option Nat :=
  search t.syscallsPidStack (tableSize - cell num 0) (cell num 0)

def pushPidInStack (t : Tables) (c : Call) : Option Tables :=
  (freeCell t c.num).map fun a =>
    ⟨Function.update t.syscallsPidStack a c.pid,
     Function.update t.syscallsOrderPidStack a (t.pidNumOfCalls c.pid + 1),
     Function.update t.pidNumOfCalls c.pid (t.pidNumOfCalls c.pid + 1)⟩

inductive Access where
  | syscallsPidStack : Nat → Access
  | syscallsOrderPidStack : Nat → Access
  | pidNumOfCalls : Nat → Access

/-- What a call touches: the search reads up to the free cell, or past the table. -/
def accesses (t : Tables) (c : Call) : List Access :=
  match freeCell t c.num with
  | some a =>
    (List.range' (cell c.num 0) (a + 1 - cell c.num 0)).map .syscallsPidStack ++
      [.syscallsPidStack a, .syscallsOrderPidStack a, .pidNumOfCalls c.pid]
  | none => (List.range' (cell c.num 0) (tableSize + 1 - cell c.num 0)).map .syscallsPidStack

def Access.Inside (num : Nat) : Access → Prop
  | .syscallsPidStack a => cell num 0 ≤ a ∧ a < cell num maxPidNumSaved
  | .syscallsOrderPidStack a => cell num 0 ≤ a ∧ a < cell num maxPidNumSaved
  | .pidNumOfCalls pid => pid < maxPidTraced

def SameRow (t t' : Tables) (num : Nat) : Prop :=
  ∀ i < maxPidNumSaved,
    t'.syscallsPidStack (cell num i) = t.syscallsPidStack (cell num i) ∧
    t'.syscallsOrderPidStack (cell num i) = t.syscallsOrderPidStack (cell num i)

def Contained (t : Tables) (c : Call) : Prop :=
  (∀ x ∈ accesses t c, x.Inside c.num) ∧
    ∀ t', pushPidInStack t c = some t' → ∀ s, s ≠ c.num → SameRow t t' s

def zeroed : Tables := ⟨fun _ => 0, fun _ => 0, fun _ => 0⟩

def callsBy (h : List Call) (pid : Nat) : Nat := h.countP fun c => c.pid = pid

def numbered (h : List Call) : List Call → List (Call × Nat)
  | [] => []
  | c :: cs => (c, callsBy h c.pid + 1) :: numbered (h ++ [c]) cs

def callers (h : List Call) (s : Nat) : List (Nat × Nat) :=
  ((numbered [] h).filter fun e => e.1.num = s).map fun e => (e.1.pid, e.2)

def RowHolds (t : Tables) (s : Nat) (entries : List (Nat × Nat)) : Prop :=
  ∀ i < maxPidNumSaved,
    t.syscallsPidStack (cell s i) = ((entries[i]?.map Prod.fst).getD 0 : Nat) ∧
    t.syscallsOrderPidStack (cell s i) = ((entries[i]?.map Prod.snd).getD 0 : Nat)

def TraceExact (h : List Call) : Prop :=
  Along pushPidInStack Contained zeroed h ∧
    ∃ t, exec pushPidInStack zeroed h = some t ∧
      ∀ s < numOfSyscalls, (callers h s).length ≤ maxPidNumSaved ∧ RowHolds t s (callers h s)

/-- No system call is made too often for its row, and every caller has a counter. -/
def Fits (h : List Call) : Prop :=
  (∀ s, (h.countP fun c => c.num = s) ≤ maxPidNumSaved) ∧ ∀ c ∈ h, c.pid < maxPidTraced

theorem cell_injective {s s' i i' : Nat} (hi : i < maxPidNumSaved) (hi' : i' < maxPidNumSaved)
    (same : cell s i = cell s' i') : s = s' ∧ i = i' := by
  simp only [cell, maxPidNumSaved] at hi hi' same
  omega

theorem search_sound {m : Nat → Int} {fuel a b : Nat} (found : search m fuel a = some b) :
    a ≤ b ∧ b < a + fuel ∧ m b = 0 ∧ ∀ x, a ≤ x → x < b → m x ≠ 0 := by
  induction fuel generalizing a with
  | zero => cases found
  | succ fuel ih =>
    unfold search at found
    split at found
    · rename_i taken
      obtain ⟨low,high,zero,before⟩ := ih found
      refine ⟨by omega,by omega,zero,fun x above below => ?_⟩
      by_cases first : x = a
      · exact first ▸ taken
      · exact before x (by omega) below
    · rename_i free
      simp only [Option.some.injEq] at found
      subst b
      exact ⟨Nat.le_refl a,by omega,not_not.mp free,fun x above below => by omega⟩

theorem search_finds {m : Nat → Int} {fuel a b : Nat} (low : a ≤ b) (high : b < a + fuel)
    (zero : m b = 0) (before : ∀ x, a ≤ x → x < b → m x ≠ 0) : search m fuel a = some b := by
  induction fuel generalizing a with
  | zero => omega
  | succ fuel ih =>
    unfold search
    by_cases here : a = b
    · subst a
      simp [zero]
    · rw [if_pos (before a (Nat.le_refl a) (by omega))]
      exact ih (by omega) (by omega) fun x above below => before x (by omega) below

theorem numbered_snoc (h cs : List Call) (c : Call) :
    numbered h (cs ++ [c]) = numbered h cs ++ [(c, callsBy (h ++ cs) c.pid + 1)] := by
  induction cs generalizing h with
  | nil => simp [numbered]
  | cons d cs ih =>
    simp only [List.cons_append, numbered]
    rw [ih, List.append_assoc, List.singleton_append]

theorem callers_snoc (h : List Call) (c : Call) (s : Nat) :
    callers (h ++ [c]) s =
      callers h s ++ if c.num = s then [(c.pid, callsBy h c.pid + 1)] else [] := by
  unfold callers
  rw [numbered_snoc, List.nil_append, List.filter_append, List.map_append]
  by_cases mine : c.num = s
  · simp [mine]
  · simp [mine]

theorem callers_length (h : List Call) (s : Nat) :
    (callers h s).length = h.countP fun c => c.num = s := by
  induction h using List.reverseRecOn with
  | nil => rfl
  | append_singleton h c ih =>
    rw [callers_snoc, List.length_append, ih, List.countP_append]
    by_cases mine : c.num = s
    · simp [mine]
    · simp [mine]

theorem callers_positive (h : List Call) (s : Nat) : ∀ e ∈ callers h s, 0 < e.1 := by
  intro e mem
  unfold callers at mem
  obtain ⟨⟨c,k⟩,_,rfl⟩ := List.mem_map.mp mem
  exact c.positive

theorem callsBy_snoc (h : List Call) (c : Call) (pid : Nat) :
    callsBy (h ++ [c]) pid = callsBy h pid + if c.pid = pid then 1 else 0 := by
  unfold callsBy
  rw [List.countP_append]
  by_cases mine : c.pid = pid
  · simp [mine]
  · simp [mine]

theorem fits_tail {h : List Call} {c : Call} (fits : Fits (h ++ [c])) : Fits h := by
  refine ⟨fun s => ?_, fun d mem => fits.2 d (List.mem_append_left _ mem)⟩
  have bound := fits.1 s
  rw [List.countP_append] at bound
  omega

theorem fits_snoc_iff {h : List Call} {c : Call} (fits : Fits h) :
    Fits (h ++ [c]) ↔ (callers h c.num).length < maxPidNumSaved ∧ c.pid < maxPidTraced := by
  rw [callers_length]
  constructor
  · intro more
    refine ⟨?_, more.2 c (by simp)⟩
    have bound := more.1 c.num
    rw [List.countP_append] at bound
    simp at bound
    omega
  · rintro ⟨room,traced⟩
    refine ⟨fun s => ?_, fun d mem => ?_⟩
    · rw [List.countP_append]
      by_cases mine : c.num = s
      · subst s
        simp
        omega
      · simpa [mine] using fits.1 s
    · rcases List.mem_append.mp mem with before | last
      · exact fits.2 d before
      · rw [List.mem_singleton.mp last]
        exact traced

structure Records (h : List Call) (t : Tables) : Prop where
  rows : ∀ s < numOfSyscalls, RowHolds t s (callers h s)
  counts : ∀ pid < maxPidTraced, t.pidNumOfCalls pid = callsBy h pid

section Recorded
variable {h : List Call} {t : Tables} (records : Records h t)
include records

theorem row_taken {s i : Nat} (valid : s < numOfSyscalls) (column : i < maxPidNumSaved)
    (listed : i < (callers h s).length) : t.syscallsPidStack (cell s i) ≠ 0 := by
  have entry := (records.rows s valid i column).1
  have pos := callers_positive h s _ (List.getElem_mem listed)
  rw [List.getElem?_eq_getElem listed, Option.map_some, Option.getD_some] at entry
  omega

theorem freeCell_room {s : Nat} (valid : s < numOfSyscalls)
    (room : (callers h s).length < maxPidNumSaved) :
    freeCell t s = some (cell s (callers h s).length) := by
  have small : s * 1000 + 1000 ≤ 50000 := by
    have : s < 50 := valid
    omega
  apply search_finds
  · unfold cell
    omega
  · simp only [cell, tableSize, maxPidNumSaved, numOfSyscalls] at room ⊢
    omega
  · have entry := (records.rows s valid _ room).1
    simpa using entry
  · intro x above below
    unfold cell at above below
    have column : x = cell s (x - s * maxPidNumSaved) := by
      unfold cell
      omega
    rw [column]
    exact row_taken records valid (by omega) (by omega)

theorem freeCell_full {s a : Nat} (valid : s < numOfSyscalls)
    (full : maxPidNumSaved ≤ (callers h s).length) (found : freeCell t s = some a) :
    cell s maxPidNumSaved ≤ a := by
  obtain ⟨low,_,zero,_⟩ := search_sound found
  by_contra short
  simp only [cell] at low short
  have column : a = cell s (a - s * maxPidNumSaved) := by
    unfold cell
    omega
  rw [column] at zero
  exact row_taken records valid (by omega) (by omega) zero

theorem fits_of_inside {c : Call} (inside : ∀ x ∈ accesses t c, x.Inside c.num) :
    (callers h c.num).length < maxPidNumSaved ∧ c.pid < maxPidTraced := by
  have valid : c.num < numOfSyscalls := Nat.lt_trans c.known.2 (by decide)
  unfold accesses at inside
  cases found : freeCell t c.num with
  | none =>
    -- the search runs to the end of the table, outside the row
    rw [found] at inside
    have last := inside (.syscallsPidStack tableSize) (by
      simp only [List.mem_map, List.mem_range'_1, Access.syscallsPidStack.injEq]
      refine ⟨tableSize, ?_, rfl⟩
      simp only [cell, tableSize, maxPidNumSaved, numOfSyscalls] at valid ⊢
      omega)
    simp only [Access.Inside, cell, tableSize, maxPidNumSaved, numOfSyscalls] at last valid
    omega
  | some a =>
    rw [found] at inside
    have written := inside (.syscallsPidStack a) (by simp)
    have counted := inside (.pidNumOfCalls c.pid) (by simp)
    refine ⟨?_, counted⟩
    by_contra full
    have past := freeCell_full records valid (by omega) found
    simp only [Access.Inside] at written
    omega

theorem inside_of_fits {c : Call} (room : (callers h c.num).length < maxPidNumSaved)
    (traced : c.pid < maxPidTraced) : ∀ x ∈ accesses t c, x.Inside c.num := by
  have valid : c.num < numOfSyscalls := Nat.lt_trans c.known.2 (by decide)
  have row : cell c.num (callers h c.num).length < cell c.num maxPidNumSaved := by
    unfold cell
    omega
  have start : cell c.num 0 ≤ cell c.num (callers h c.num).length := by
    unfold cell
    omega
  unfold accesses
  rw [freeCell_room records valid room]
  intro x mem
  simp only [List.mem_append, List.mem_map, List.mem_range'_1, List.mem_cons,
    List.not_mem_nil, or_false] at mem
  rcases mem with ⟨b,range,rfl⟩ | rfl | rfl | rfl
  · simp only [Access.Inside]
    omega
  · exact ⟨start,row⟩
  · exact ⟨start,row⟩
  · exact traced

theorem records_push {c : Call} (room : (callers h c.num).length < maxPidNumSaved)
    (traced : c.pid < maxPidTraced) :
    ∃ t', pushPidInStack t c = some t' ∧ Records (h ++ [c]) t' ∧
      ∀ s, s ≠ c.num → SameRow t t' s := by
  have valid : c.num < numOfSyscalls := Nat.lt_trans c.known.2 (by decide)
  have order : t.pidNumOfCalls c.pid + 1 = ((callsBy h c.pid + 1 : Nat) : Int) := by
    rw [records.counts c.pid traced]
    rfl
  unfold pushPidInStack
  rw [freeCell_room records valid room, Option.map_some]
  refine ⟨_, rfl, ⟨?_, ?_⟩, ?_⟩
  · intro s hs i hi
    have old := records.rows s hs i hi
    rw [callers_snoc]
    by_cases hit : cell s i = cell c.num (callers h c.num).length
    · obtain ⟨rfl,rfl⟩ := cell_injective hi room hit
      simp [order]
    · simp only [Function.update_of_ne hit, old]
      by_cases mine : c.num = s
      · subst s
        have other : i ≠ (callers h c.num).length := fun same => hit (same ▸ rfl)
        rw [if_pos rfl, List.getElem?_append]
        by_cases before : i < (callers h c.num).length
        · simp [before]
        · have beyond : ¬ i - (callers h c.num).length < 1 := by omega
          simp [before, beyond]
      · simp [mine]
  · intro pid hp
    rw [callsBy_snoc]
    by_cases mine : pid = c.pid
    · subst pid
      simp [order]
    · simp [mine, Ne.symm mine, records.counts pid hp]
  · intro s other i hi
    have apart : cell s i ≠ cell c.num (callers h c.num).length := fun same =>
      other (cell_injective hi room same).1
    constructor
    · simp only [Function.update_of_ne apart]
    · simp only [Function.update_of_ne apart]

theorem contained_iff (c : Call) :
    Contained t c ↔ (callers h c.num).length < maxPidNumSaved ∧ c.pid < maxPidTraced := by
  constructor
  · intro contained
    exact fits_of_inside records contained.1
  · intro fits
    refine ⟨inside_of_fits records fits.1 fits.2, fun t' push => ?_⟩
    obtain ⟨u,push',_,same⟩ := records_push records fits.1 fits.2
    rw [push'] at push
    cases push
    exact same

end Recorded

theorem records_run {h : List Call} (fits : Fits h) :
    ∃ t, exec pushPidInStack zeroed h = some t ∧ Records h t := by
  induction h using List.reverseRecOn with
  | nil =>
    refine ⟨zeroed, rfl, fun s _ i _ => ?_, fun pid _ => rfl⟩
    simp [callers, numbered, zeroed]
  | append_singleton h c ih =>
    have before := fits_tail fits
    obtain ⟨t,run,records⟩ := ih before
    obtain ⟨room,traced⟩ := (fits_snoc_iff before).mp fits
    obtain ⟨u,push,records',_⟩ := records_push records room traced
    refine ⟨u, ?_, records'⟩
    rw [exec_append, run]
    simp [exec, push]

theorem contained_run_iff (h : List Call) :
    Along pushPidInStack Contained zeroed h ↔ Fits h := by
  induction h using List.reverseRecOn with
  | nil =>
    refine ⟨fun _ => ⟨fun s => Nat.zero_le _,fun c mem => absurd mem List.not_mem_nil⟩, ?_⟩
    exact fun _ => trivial
  | append_singleton h c ih =>
    rw [along_snoc_iff, ih]
    constructor
    · rintro ⟨fits,last⟩
      obtain ⟨t,run,records⟩ := records_run fits
      exact (fits_snoc_iff fits).mpr ((contained_iff records c).mp (last t run))
    · intro fits
      have before := fits_tail fits
      refine ⟨before, fun t run => ?_⟩
      obtain ⟨u,run',records⟩ := records_run before
      rw [run'] at run
      cases run
      exact (contained_iff records c).mpr ((fits_snoc_iff before).mp fits)

theorem trace_exact_iff (h : List Call) : TraceExact h ↔ Fits h := by
  constructor
  · intro exact_
    exact (contained_run_iff h).mp exact_.1
  · intro fits
    obtain ⟨t,run,records⟩ := records_run fits
    refine ⟨(contained_run_iff h).mpr fits, t, run, fun s valid => ⟨?_, records.rows s valid⟩⟩
    rw [callers_length]
    exact fits.1 s

def write : Call := ⟨1,16,by decide,by decide⟩

theorem thousand_writes_overflow : ¬ ∀ h, TraceExact h := by
  intro always
  have fits := (contained_run_iff (List.replicate 1001 write)).mp (always _).1
  have bound := fits.1 16
  rw [List.countP_replicate] at bound
  exact absurd bound (by decide)

end SyscallTrace
