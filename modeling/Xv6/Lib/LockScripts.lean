import Mathlib.Data.List.Basic
import Mathlib.Logic.Function.Basic
import Xv6.Lib.RunLaws
import Xv6.Lib.WaitOrder

/- Processors that run scripts of spinlock operations. A processor with nothing left to do
   may start any script it is allowed to; a processor whose next operation acquires a lock
   somebody owns spins. The scripts, the locks and the processors are arbitrary. -/

namespace LockScripts
open RunLaws WaitOrder

inductive Op (Lock : Type) where
  | acquire : Lock → Op Lock
  | release : Lock → Op Lock
  deriving DecidableEq, Repr

structure State (Lock Cpu : Type) where
  owner : Lock → Option Cpu
  todo : Cpu → List (Op Lock)

inductive Event (Cpu Path : Type) where
  | start : Cpu → Path → Event Cpu Path
  | advance : Cpu → Event Cpu Path

variable {Lock Cpu Path : Type} [DecidableEq Lock] [DecidableEq Cpu]

/-- `acquire` waits for a free lock; `release` panics unless the processor owns the lock. -/
def step (ops : Cpu → Path → List (Op Lock)) (s : State Lock Cpu) :
    Event Cpu Path → Option (State Lock Cpu)
  | .start c p =>
    if s.todo c = [] then some { s with todo := Function.update s.todo c (ops c p) } else none
  | .advance c =>
    match s.todo c with
    | [] => none
    | .acquire l :: rest =>
      if s.owner l = none then
        some ⟨Function.update s.owner l (some c), Function.update s.todo c rest⟩
      else none
    | .release l :: rest =>
      if s.owner l = some c then
        some ⟨Function.update s.owner l none, Function.update s.todo c rest⟩
      else none

def boot : State Lock Cpu := ⟨fun _ => none, fun _ => []⟩

def Wants (s : State Lock Cpu) (c : Cpu) (l : Lock) : Prop :=
  ∃ rest, s.todo c = .acquire l :: rest

def Owns (s : State Lock Cpu) (c : Cpu) (l : Lock) : Prop := s.owner l = some c

/-- A cycle of processors, each spinning on a lock the next one owns. -/
def Deadlock (s : State Lock Cpu) : Prop :=
  ∃ c, Relation.TransGen (WaitsFor (Wants s) (Owns s)) c c

def after : List Lock → List (Op Lock) → List Lock
  | held, [] => held
  | held, .acquire l :: rest => after (l :: held) rest
  | held, .release l :: rest => after (held.filter (· ≠ l)) rest

def edges : List Lock → List (Op Lock) → List (Lock × Lock)
  | _, [] => []
  | held, .acquire l :: rest => held.map (·, l) ++ edges (l :: held) rest
  | held, .release l :: rest => edges (held.filter (· ≠ l)) rest

theorem after_append (held : List Lock) (xs ys : List (Op Lock)) :
    after held (xs ++ ys) = after (after held xs) ys := by
  induction xs generalizing held with
  | nil => rfl
  | cons x xs ih => cases x <;> exact ih _

theorem edges_append (held : List Lock) (xs ys : List (Op Lock)) :
    edges held (xs ++ ys) = edges held xs ++ edges (after held xs) ys := by
  induction xs generalizing held with
  | nil => rfl
  | cons x xs ih =>
    cases x with
    | acquire l => simp only [List.cons_append, edges, ih, after, List.append_assoc]
    | release l => simp only [List.cons_append, edges, ih, after]

variable {held : List Lock}

theorem edge_at_acquire {done rest : List (Op Lock)} {h w : Lock}
    (mem : h ∈ after held done) : (h,w) ∈ edges held (done ++ .acquire w :: rest) := by
  rw [edges_append, List.mem_append]
  right
  simp only [edges, List.mem_append, List.mem_map]
  exact Or.inl ⟨h,mem,rfl⟩

def bursts (l : Lock) : Nat → List (Op Lock)
  | 0 => []
  | k + 1 => .acquire l :: .release l :: bursts l k

theorem filter_after_acquire {l : Lock} (free : l ∉ held) :
    (l :: held).filter (· ≠ l) = held := by
  simp only [ne_eq, decide_not, List.filter_cons, decide_true, Bool.not_true, Bool.false_eq_true,
    ↓reduceIte, List.filter_eq_self, Bool.not_eq_eq_eq_not, decide_eq_false_iff_not]
  intro x mem same
  exact free (same ▸ mem)

theorem after_bursts {l : Lock} (free : l ∉ held) (k : Nat) :
    after held (bursts l k) = held := by
  induction k with
  | zero => rfl
  | succ k ih =>
    simp only [bursts, after]
    rw [filter_after_acquire free]
    exact ih

theorem edges_bursts {l : Lock} (free : l ∉ held) {k : Nat} {h w : Lock}
    (mem : (h,w) ∈ edges held (bursts l k)) : h ∈ held ∧ w = l ∧ 0 < k := by
  induction k with
  | zero => simp [bursts, edges] at mem
  | succ k ih =>
    simp only [bursts, edges, List.mem_append, List.mem_map, Prod.mk.injEq] at mem
    rw [filter_after_acquire free] at mem
    rcases mem with ⟨x,inside,hx,hl⟩ | later
    · subst x
      exact ⟨inside,hl.symm,Nat.succ_pos k⟩
    · obtain ⟨inside,same,_⟩ := ih later
      exact ⟨inside,same,Nat.succ_pos k⟩

/-- What a processor owns and still has to do is what some allowed script leaves it with. -/
def Tracks (ops : Cpu → Path → List (Op Lock)) (allowed : Cpu → Path → Prop)
    (s : State Lock Cpu) (c : Cpu) : Prop :=
  ∃ held, (∀ l, Owns s c l ↔ l ∈ held) ∧
    (s.todo c = [] ∧ held = [] ∨
      ∃ p done, allowed c p ∧ ops c p = done ++ s.todo c ∧ held = after [] done)

def Permitted (allowed : Cpu → Path → Prop) (_ : State Lock Cpu) : Event Cpu Path → Prop
  | .start c p => allowed c p
  | .advance _ => True

section Runs
variable {ops : Cpu → Path → List (Op Lock)} {allowed : Cpu → Path → Prop}
  {s t : State Lock Cpu}

variable {c : Cpu}

omit [DecidableEq Cpu] in
theorem tracks_idle (closed : ∀ p, after [] (ops c p) = [])
    (tracks : Tracks ops allowed s c) (idle : s.todo c = []) (l : Lock) : ¬ Owns s c l := by
  obtain ⟨held,owned,⟨_,none⟩ | ⟨p,done,_,script,eq⟩⟩ := tracks
  · rw [owned l, none]
    exact List.not_mem_nil
  · rw [idle, List.append_nil] at script
    rw [owned l, eq, ← script, closed p]
    exact List.not_mem_nil

theorem tracks_other {d : Cpu} (other : d ≠ c) (owner : ∀ l, Owns t d l ↔ Owns s d l)
    (todo : ∃ rest, t.todo = Function.update s.todo c rest) (tracks : Tracks ops allowed s d) :
    Tracks ops allowed t d := by
  obtain ⟨rest,todo⟩ := todo
  have same : t.todo d = s.todo d := by rw [todo, Function.update_of_ne other]
  unfold Tracks at tracks ⊢
  simp only [owner, same]
  exact tracks

variable {rest : List (Op Lock)}

omit [DecidableEq Cpu] in
theorem tracks_performed {op : Op Lock}
    (tracks : Tracks ops allowed s c) (todo : s.todo c = op :: rest) (left : t.todo c = rest)
    (owned : ∀ held, (∀ l, Owns s c l ↔ l ∈ held) → ∀ l, Owns t c l ↔ l ∈ after held [op]) :
    Tracks ops allowed t c := by
  obtain ⟨held,owns,⟨none,_⟩ | ⟨p,done,may,script,rfl⟩⟩ := tracks
  · rw [todo] at none
    cases none
  · refine ⟨_, owned _ owns, Or.inr ⟨p, done ++ [op], may, ?_, ?_⟩⟩
    · rw [script, todo, left, List.append_assoc, List.singleton_append]
    · rw [after_append]

theorem tracks_acquire {l : Lock}
    (tracks : ∀ c, Tracks ops allowed s c) (todo : s.todo c = .acquire l :: rest)
    (free : s.owner l = none) (d : Cpu) :
    Tracks ops allowed ⟨Function.update s.owner l (some c), Function.update s.todo c rest⟩ d := by
  by_cases same : d = c
  · subst d
    refine tracks_performed (tracks c) todo (by simp) fun held owns x => ?_
    rw [after, after, List.mem_cons, ← owns x]
    by_cases taken : x = l <;> simp [Owns, taken]
  · refine tracks_other same (fun x => ?_) ⟨_,rfl⟩ (tracks d)
    by_cases taken : x = l
    · simp [Owns, taken, free, Ne.symm same]
    · simp [Owns, taken]

theorem tracks_release {l : Lock}
    (tracks : ∀ c, Tracks ops allowed s c) (todo : s.todo c = .release l :: rest)
    (mine : s.owner l = some c) (d : Cpu) :
    Tracks ops allowed ⟨Function.update s.owner l none, Function.update s.todo c rest⟩ d := by
  by_cases same : d = c
  · subst d
    refine tracks_performed (tracks c) todo (by simp) fun held owns x => ?_
    rw [after, after, List.mem_filter, ← owns x]
    by_cases given : x = l <;> simp [Owns, given]
  · refine tracks_other same (fun x => ?_) ⟨_,rfl⟩ (tracks d)
    by_cases given : x = l
    · simp [Owns, given, mine, Ne.symm same]
    · simp [Owns, given]

theorem tracks_step (closed : ∀ c p, after [] (ops c p) = []) {e : Event Cpu Path}
    (tracks : ∀ c, Tracks ops allowed s c) (ok : Permitted allowed s e)
    (move : step ops s e = some t) : ∀ c, Tracks ops allowed t c := by
  intro d
  cases e with
  | start c p =>
    simp only [step, Option.ite_none_right_eq_some, Option.some.injEq] at move
    obtain ⟨idle,rfl⟩ := move
    by_cases same : d = c
    · subst d
      refine ⟨[], fun l => ?_, Or.inr ⟨p,[],ok,by simp,rfl⟩⟩
      simpa [Owns] using tracks_idle (closed c) (tracks c) idle l
    · exact tracks_other (s := s) same (fun l => Iff.rfl) ⟨_,rfl⟩ (tracks d)
  | advance c =>
    cases todo : s.todo c with
    | nil => simp [step, todo] at move
    | cons op rest =>
      cases op with
      | acquire l =>
        simp only [step, todo, Option.ite_none_right_eq_some, Option.some.injEq] at move
        obtain ⟨free,rfl⟩ := move
        exact tracks_acquire tracks todo free d
      | release l =>
        simp only [step, todo, Option.ite_none_right_eq_some, Option.some.injEq] at move
        obtain ⟨mine,rfl⟩ := move
        exact tracks_release tracks todo mine d

theorem tracks_run (closed : ∀ c p, after [] (ops c p) = []) {es : List (Event Cpu Path)}
    (permitted : Along (step ops) (Permitted allowed) boot es)
    (run : exec (step ops) boot es = some s) : ∀ c, Tracks ops allowed s c :=
  exec_invariant (fun s => ∀ c, Tracks ops allowed s c)
    (fun _ _ _ inv ok move => tracks_step closed inv ok move)
    (fun _ => ⟨[],fun _ => by simp [Owns, boot],Or.inl ⟨rfl,rfl⟩⟩) permitted run

omit [DecidableEq Cpu] in
theorem edge_of_tracks (tracks : Tracks ops allowed s c) {h w : Lock}
    (wants : Wants s c w) (owns : Owns s c h) :
    ∃ p, allowed c p ∧ (h,w) ∈ edges [] (ops c p) := by
  obtain ⟨rest,todo⟩ := wants
  obtain ⟨held,owned,⟨idle,_⟩ | ⟨p,done,may,script,eq⟩⟩ := tracks
  · rw [todo] at idle
    cases idle
  · have mem : h ∈ after [] done := eq ▸ (owned h).mp owns
    refine ⟨p,may,?_⟩
    rw [script, todo]
    exact edge_at_acquire mem

theorem crossing_deadlocks {d : Cpu} (apart : c ≠ d) {a b : Lock} (differ : a ≠ b)
    {p q : Path} (mayC : allowed c p) (mayD : allowed d q) {r₁ r₂ : List (Op Lock)}
    (first : ops c p = .acquire a :: .acquire b :: r₁)
    (second : ops d q = .acquire b :: .acquire a :: r₂) :
    ∃ es t, Along (step ops) (Permitted allowed) boot es ∧
      exec (step ops) boot es = some t ∧ Deadlock t := by
  let t : State Lock Cpu :=
    ⟨Function.update (Function.update (fun _ => none) a (some c)) b (some d),
      Function.update (Function.update (fun _ => []) c (.acquire b :: r₁)) d (.acquire a :: r₂)⟩
  have mine : Owns t c a ∧ Wants t c b :=
    ⟨by simp [Owns, t, differ],r₁,by simp [t, apart]⟩
  have yours : Owns t d b ∧ Wants t d a := ⟨by simp [Owns, t],r₂,by simp [t]⟩
  refine ⟨[.start c p, .advance c, .start d q, .advance d], t, ?_, ?_, ?_⟩
  · apply along_of_forall
    intro e mem s
    simp only [List.mem_cons, List.not_mem_nil, or_false] at mem
    rcases mem with rfl | rfl | rfl | rfl
    · exact mayC
    · trivial
    · exact mayD
    · trivial
  · simp [exec, step, boot, Ne.symm apart, Ne.symm differ, first, second, t]
  · exact ⟨c,.tail (.single ⟨b,mine.2,yours.1⟩) ⟨a,yours.2,mine.1⟩⟩

end Runs

end LockScripts
