import Xv6.Vm.Arguments

/- The arguments of a system call, which syscall.c fetches from the memory of the process. The
   kernel runs on the page table of the process. -/
namespace SyscallArgs
open PhysicalPages Exec

variable {α β : Type} {s : Machine}

/-- No value at all is an access to a page that is not there, a panic; a value that is missing is
    the result -1. -/
abbrev Fetch (α : Type) : Type := OptionT Option α

def load (s : Machine) (v : Nat) : Option UInt8 := kept s.mem s.proc.pgdir v

def word (s : Machine) (addr : Nat) : Fetch Nat :=
  if ∀ j < 4, (load s (addr + j)).isSome = true then
    pure (Bytes.number ((List.range 4).map fun j => (load s (addr + j)).getD 0))
  else OptionT.lift none

def fetchint (s : Machine) (addr : Nat) : Fetch Nat :=
  if s.proc.sz ≤ addr ∨ s.proc.sz < (addr + 4) % 4294967296 then failure else word s addr

/-- The string from `a` on, with `n` bytes below the end; its length is the result. -/
def fetchstrLoop (s : Machine) : Nat → Nat → Fetch (List UInt8)
  | 0, _ => failure
  | n + 1, a => do
    let c ← OptionT.lift (load s a)
    if c = 0 then return [] else return c :: (← fetchstrLoop s n (a + 1))

def fetchstr (s : Machine) (addr : Nat) : Fetch (List UInt8) :=
  if s.proc.sz ≤ addr then failure else fetchstrLoop s (s.proc.sz - addr) addr

def argint (s : Machine) (n : Nat) : Fetch Nat := fetchint s ((s.proc.esp + 4 + 4 * n) % 4294967296)

def argptr (s : Machine) (n : Nat) (size : Int) : Fetch Nat := do
  let i ← argint s n
  if size < 0 ∨ s.proc.sz ≤ i ∨ s.proc.sz < (i + size) % 4294967296 then failure else return i

def argstr (s : Machine) (n : Nat) : Fetch (List UInt8) := do fetchstr s (← argint s n)

def Returns (call : Fetch α) (good : α → Prop) : Prop :=
  ∃ r, call.run = some r ∧ ∀ a, r = some a → good a

variable {call : Fetch α} {f : α → Fetch β} {good : α → Prop} {best : β → Prop}

theorem returns_failure : Returns failure good := ⟨none, rfl, fun _ eq => by cases eq⟩

theorem returns_pure {a : α} (fine : good a) : Returns (pure a) good :=
  ⟨some a, rfl, fun _ eq => by cases eq; exact fine⟩

theorem Returns.bind (first : Returns call good) (rest : ∀ a, good a → Returns (f a) best) :
    Returns (call >>= f) best := by
  obtain ⟨r,run,fine⟩ := first
  cases r with
  | none => exact ⟨none, by simp [run, Option.elimM], fun _ eq => by cases eq⟩
  | some a =>
    obtain ⟨q,next,fine'⟩ := rest a (fine a rfl)
    exact ⟨q, by simp [run, next, Option.elimM], fine'⟩

/-- Every byte below the size is there. -/
def Mapped (s : Machine) : Prop := ∀ v < s.proc.sz, (load s v).isSome = true

def StringAt (s : Machine) (a : Nat) (str : List UInt8) : Prop :=
  0 ∉ str ∧ a + str.length < s.proc.sz ∧ ∀ j ≤ str.length, load s (a + j) = (str ++ [0])[j]?

/-- Whatever is on its stack, what the kernel takes for an argument is inside the process. -/
structure Inside (s : Machine) : Prop where
  pointers : ∀ n size, size < 2147483648 → Returns (argptr s n size) fun p => 0 ≤ size ∧
    p + size ≤ s.proc.sz
  strings : ∀ n, Returns (argstr s n) fun str => ∃ a, StringAt s a str

section Mapped

variable (mapped : Mapped s)
include mapped

theorem fetchint_returns (low : s.proc.sz ≤ 2147483648) (a : Nat) :
    Returns (fetchint s (a % 4294967296)) fun _ => True := by
  unfold fetchint
  split
  · exact returns_failure
  · rw [word, if_pos fun j below => mapped _ (by omega)]
    exact returns_pure trivial

theorem fetchstrLoop_returns {n a : Nat} (left : a + n = s.proc.sz) :
    Returns (fetchstrLoop s n a) (StringAt s a) := by
  induction n generalizing a with
  | zero => exact returns_failure
  | succ n ih =>
    obtain ⟨c,at_⟩ := Option.isSome_iff_exists.mp (mapped a (by omega))
    rw [fetchstrLoop, at_]
    refine (returns_pure rfl : Returns _ (· = c)).bind fun b same => ?_
    subst same
    split
    · next nul => exact returns_pure ⟨by simp, by simp; omega, fun j none_ => by simp_all⟩
    · next some_ =>
      refine (ih (by omega)).bind fun str ⟨clean,ends,there⟩ =>
        returns_pure ⟨by simpa [Ne.symm some_] using clean, ?_, fun j inside => ?_⟩
      · simp only [List.length_cons]
        omega
      · cases j with
        | zero => exact at_
        | succ j =>
          rw [← Nat.add_assoc, Nat.add_right_comm]
          exact there j (by simpa using inside)

theorem fetchstr_returns (addr : Nat) :
    Returns (fetchstr s addr) fun str => ∃ a, StringAt s a str := by
  unfold fetchstr
  split
  · exact returns_failure
  · obtain ⟨r,run,string⟩ :=
      fetchstrLoop_returns mapped (show addr + (s.proc.sz - addr) = _ by omega)
    exact ⟨r, run, fun str found => ⟨addr, string str found⟩⟩

theorem inside_of_mapped (low : s.proc.sz ≤ 2147483648) : Inside s := by
  have arg : ∀ n, Returns (argint s n) fun _ => True := fun n => fetchint_returns mapped low _
  refine ⟨fun n size int => (arg n).bind fun i _ => ?_, fun n => (arg n).bind fun i _ =>
    fetchstr_returns mapped i⟩
  split
  · exact returns_failure
  · exact returns_pure (by omega)

end Mapped

/-- The kernel never runs into a missing page for an argument, and takes nothing that is not
    inside the process, exactly if every page below the size is there. -/
theorem arguments_inside_iff (s : Machine) (room : 4 ≤ s.proc.sz) (low : s.proc.sz ≤ 2147483648) :
    (∀ esp, Inside { s with proc.esp := esp }) ↔ Mapped s := by
  constructor
  · intro inside v below
    by_contra gone
    -- a stack pointer for which the first argument has the byte
    obtain ⟨a,at_⟩ : ∃ a, a = min v (s.proc.sz - 4) := ⟨_, rfl⟩
    obtain ⟨esp,first⟩ : ∃ esp, (esp + 4 + 4 * 0) % 4294967296 = a := ⟨a + 4294967292, by omega⟩
    have accepted : ¬ (s.proc.sz ≤ a ∨ s.proc.sz < (a + 4) % 4294967296) := by omega
    have missing : ¬ ∀ j < 4, (load s (a + j)).isSome = true := fun all => gone (by
      have byte := all (v - a) (by omega)
      rwa [Nat.add_sub_cancel' (by omega)] at byte)
    have fails : argint { s with proc.esp := esp } 0 = OptionT.lift none := by
      simp only [argint, fetchint, word, first]
      rw [if_neg accepted]
      exact if_neg missing
    obtain ⟨r,run,-⟩ := (inside esp).pointers 0 0 (by decide)
    rw [argptr, fails] at run
    cases run
  · exact fun mapped esp => inside_of_mapped mapped low

theorem arguments_inside_iff_first :
    ∃ k k', RunLaws.exec (step small) smallStart firstProcess = some k ∧
    step small k (.sbrk initSlot (-4096)) = some k' ∧
      (∀ esp, Inside { caller k with proc.esp := esp }) ∧
    ¬ ∀ esp, Inside { caller k' with proc.esp := esp } := by
  have ends : ((RunLaws.exec (step small) smallStart firstProcess).bind fun k =>
      (step small k (.sbrk initSlot (-4096))).map fun k' =>
        (glance k, glance k')) = some ((true, 4096, true), false, 4096, false) := by
    decide +kernel
  obtain ⟨k,run,ends⟩ := Option.bind_eq_some_iff.mp ends
  obtain ⟨k',moved,seen⟩ := Option.map_eq_some_iff.mp ends
  simp only [glance, Prod.mk.injEq] at seen
  obtain ⟨⟨-,size,page⟩,-,size',page'⟩ := seen
  have small : (caller k).proc.sz = 4096 := size
  have small' : (caller k').proc.sz = 4096 := size'
  refine ⟨k, k', run, moved, (arguments_inside_iff (caller k) (by omega) (by omega)).mpr
    fun v below => ?_, fun all => ?_⟩
  · rw [load, kept, Option.isSome_map, Nat.div_eq_of_lt (small ▸ below)]
    exact page
  · have there := (arguments_inside_iff (caller k') (by omega) (by omega)).mp all 0 (by omega)
    rw [load, kept, Option.isSome_map] at there
    cases there.symm.trans page'

end SyscallArgs
