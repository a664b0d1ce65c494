import Xv6.Lib.LinkedQueue
import Xv6.Lib.Ownership
import Xv6.Vm.Model

/- Where the pages are. Every page that can be allocated is on the free list or at one place: the
   stack of a process, a directory, a table of a directory, a user page of an address space, or in
   the hands of a function that is at work on it. -/
namespace PhysicalPages
open LinkedQueue Ownership

inductive Place where
  | kstack (p : Nat)
  | dir (d : Nat)
  | table (d i : Nat)
  | user (d a : Nat)
  -- a page in a variable of the function at work
  | spare (k : Nat)
  -- the directory that is being freed, and its tables
  | dead
  | deadTable (i : Nat)
  deriving DecidableEq

/-- Beside the memory: the stacks, which pages are directories, and the pages at hand. -/
structure Hold where
  stack : Nat → Option Nat
  live : Nat → Bool
  spare : Nat → Option Nat
  dead : Option Nat
  deadTable : Nat → Option Nat

def tableAt (m : Mem) (d i : Nat) : Option Nat :=
  if i < 1024 ∧ present (m.word d i) then some (frame (m.word d i)) else none

def userAt (m : Mem) (d a : Nat) : Option Nat :=
  if a < kernbase then
    (tableAt m d (a / 1024)).bind fun t =>
      if present (m.word t (a % 1024)) then some (frame (m.word t (a % 1024))) else none
  else none

def held (m : Mem) (g : Hold) : Place → Option Nat
  | .kstack p => g.stack p
  | .dir d => if g.live d then some d else none
  | .table d i => if g.live d then tableAt m d i else none
  | .user d a => if g.live d then userAt m d a else none
  | .spare k => g.spare k
  | .dead => g.dead
  | .deadTable i => g.deadTable i

def Layout.Allocatable (l : Layout) (r : Nat) : Prop := l.first ≤ r ∧ r < l.phystop

def link (p : Nat) : Option Nat := if p = 0 then none else some p

def Chain (m : Mem) (free : List Nat) : Prop :=
  Linked (fun p => link (m.word p 0)) (link m.freelist) free

structure Good (l : Layout) (m : Mem) (g : Hold) (free : List Nat) : Prop where
  chain : Chain m free
  once : free.Nodup
  exact : Exact (fun r => ¬ l.Allocatable r) (fun r => r ∉ free) (held m g)

structure Layout.Valid (l : Layout) : Prop where
  first : 0 < l.first
  kernel : ∀ k ∈ l.kmap, kernbase ≤ k.virt ∧ k.virt + k.pages ≤ 2 * kernbase

theorem xv6_valid {first data : Nat} (low : 0 < first) (text : 256 ≤ data) (top : data ≤ 57344) :
    (xv6 first data).Valid := by
  refine ⟨low, ?_⟩
  simp only [xv6, List.forall_mem_cons, kernbase]
  exact ⟨⟨by omega, by omega⟩, ⟨by omega, by omega⟩, ⟨by omega, by omega⟩, ⟨by omega, by omega⟩,
    by simp⟩

variable {l : Layout} {m m' : Mem} {g : Hold} {free : List Nat} {p r d i k : Nat}

section Frames

def Loose (m : Mem) (g : Hold) (x : Nat) : Prop :=
  g.live x = false ∧ ∀ d i, g.live d = true → tableAt m d i ≠ some x

theorem tableAt_congr (same : m'.word d = m.word d) : tableAt m' d i = tableAt m d i := by
  rw [tableAt, tableAt, same]

theorem userAt_congr {a : Nat} (same : m'.word d = m.word d)
    (tables : ∀ t, tableAt m d (a / 1024) = some t → m'.word t = m.word t) :
    userAt m' d a = userAt m d a := by
  rw [userAt, userAt, tableAt_congr same]
  cases found : tableAt m d (a / 1024) with
  | none => rfl
  | some t => simp only [Option.bind_some, tables t found]

theorem held_congr {x : Nat} (loose : Loose m g x) (same : ∀ y, y ≠ x → m'.word y = m.word y)
    (q : Place) :
    held m' g q = held m g q := by
  have dirs : ∀ d, g.live d = true → m'.word d = m.word d := by
    intro d alive
    refine same d fun eq => ?_
    rw [eq, loose.1] at alive
    cases alive
  have tables : ∀ d i t, g.live d = true → tableAt m d i = some t → m'.word t = m.word t :=
    fun d i t alive found => same t fun eq => loose.2 d i alive (eq ▸ found)
  cases q with
  | table d i =>
    simp only [held]
    split
    · next alive => exact tableAt_congr (dirs d alive)
    · rfl
  | user d a =>
    simp only [held]
    split
    · next alive => exact userAt_congr (dirs d alive) fun t found => tables d _ t alive found
    · rfl
  | _ => rfl

namespace Good

variable (good : Good l m g free)
include good

variable {q : Place}

theorem once_at {q' : Place} (here : held m g q = some r) (there : held m g q' = some r) : q = q' :=
  good.exact.once q q' r here there

theorem allocatable (here : held m g q = some r) : l.Allocatable r :=
  not_not.mp (good.exact.open_ q r here)

theorem not_free (here : held m g q = some r) : r ∉ free := exact_used good.exact here

theorem loose (here : held m g q = some r) (dir : ∀ d, q ≠ .dir d) (table : ∀ d i, q ≠ .table d i) :
    Loose m g r := by
  refine ⟨?_, fun d i alive found => ?_⟩
  · cases alive : g.live r with
    | false => rfl
    | true =>
      exact absurd (good.once_at here (show held m g (.dir r) = some r by simp [held, alive]))
        (dir r)
  · exact table d i (good.once_at here
      (show held m g (.table d i) = some r by simp [held, alive, found]))

theorem loose_user {a : Nat} (here : held m g (.user d a) = some r) : Loose m g r :=
  good.loose here (fun _ eq => by cases eq) fun _ _ eq => by cases eq

theorem free_allocatable (mem : r ∈ free) : l.Allocatable r := by
  by_contra out
  exact (good.exact.used_iff r).mpr (.inl out) mem

end Good

theorem chain_congr (chain : Chain m free) (head : m'.freelist = m.freelist)
    (same : ∀ x ∈ free, m'.word x = m.word x) : Chain m' free := by
  rw [Chain, head]
  exact linked_congr chain fun x mem => by rw [same x mem]

end Frames

section Pages

def Untied : Place → Prop
  | .dir _ => False
  | .table _ _ => False
  | .user _ _ => False
  | _ => True

def Hold.put (g : Hold) (v : Option Nat) : Place → Hold
  | .kstack p => { g with stack := Function.update g.stack p v }
  | .spare k => { g with spare := Function.update g.spare k v }
  | .dead => { g with dead := v }
  | .deadTable i => { g with deadTable := Function.update g.deadTable i v }
  | _ => g

variable {q : Place}

theorem held_put (untied : Untied q) (v : Option Nat) (x : Place) :
    held m (g.put v q) x = if x = q then v else held m g x := by
  cases q with
  | dir d => exact untied.elim
  | table d i => exact untied.elim
  | user d a => exact untied.elim
  | kstack p =>
    cases x with
    | kstack q => simp only [held, Hold.put, Function.update_apply, Place.kstack.injEq]
    | _ => rfl
  | spare k =>
    cases x with
    | spare j => simp only [held, Hold.put, Function.update_apply, Place.spare.injEq]
    | _ => rfl
  | dead => cases x <;> rfl
  | deadTable i =>
    cases x with
    | deadTable j => simp only [held, Hold.put, Function.update_apply, Place.deadTable.injEq]
    | _ => rfl

theorem put_live (v : Option Nat) (q : Place) : (g.put v q).live = g.live := by
  cases q <;> rfl

theorem Good.loose_untied (good : Good l m g free) (untied : Untied q)
    (here : held m g q = some r) :
    Loose m g r :=
  good.loose here (fun d eq => by rw [eq] at untied; exact untied) fun d i eq => by
    rw [eq] at untied; exact untied

theorem kalloc_good (good : Good l m g free) (untied : Untied q) (empty : held m g q = none)
    {found : Option Nat} (call : kalloc m = (found, m')) :
    m'.word = m.word ∧ match found with
      | none => Good l m' g free
      | some p => ∃ rest, free = p :: rest ∧ Good l m' (g.put (some p) q) rest := by
  have nothing : ∀ denied : List Bool, Good l { m with denied := denied } g free := fun _ =>
    ⟨good.chain, good.once, good.exact⟩
  have taken : ∀ denied : List Bool,
      (if m.freelist = 0 then ((none : Option Nat), ({ m with denied := denied } : Mem))
        else (some m.freelist, { m with denied := denied, freelist := m.word m.freelist 0 })) =
          (found, m') →
      m'.word = m.word ∧ match found with
        | none => Good l m' g free
        | some p => ∃ rest, free = p :: rest ∧ Good l m' (g.put (some p) q) rest := by
    intro denied call
    by_cases none_ : m.freelist = 0
    · rw [if_pos none_] at call
      cases call
      exact ⟨rfl, nothing denied⟩
    · rw [if_neg none_] at call
      cases call
      refine ⟨rfl, ?_⟩
      have chain := good.chain
      cases free with
      | nil =>
        have ends : link m.freelist = none := chain
        simp [link, none_] at ends
      | cons p rest =>
        obtain ⟨first,later⟩ := chain
        simp only [link, if_neg none_, Option.some.injEq] at first
        obtain ⟨new,once⟩ := List.nodup_cons.mp good.once
        refine ⟨rest, by rw [first], ?_, once, ?_⟩
        · rw [first]
          exact later
        · refine exact_alloc good.exact (not_not.mpr (by simp [first])) empty (fun x => ?_)
            ((held_put untied _ _).trans (if_pos rfl))
            fun x other => (held_put untied _ _).trans (if_neg other)
          rw [first]
          simp only [List.mem_cons, not_or]
          by_cases mine : x = p
          · simp [mine, new]
          · simp [mine]
  unfold kalloc at call
  split at call
  · cases call
    exact ⟨rfl, nothing _⟩
  · exact taken _ call

theorem fill_held (good : Good l m g free) (here : held m g q = some p) (loose : Loose m g p)
    (w : Nat → Nat) :
    Good l (m.fill p w) g free := by
  have other : ∀ y, y ≠ p → (m.fill p w).word y = m.word y :=
    fun y ne => Function.update_of_ne ne ..
  refine ⟨chain_congr good.chain rfl fun x mem => other x fun eq => good.not_free here (eq ▸ mem),
    good.once, ?_⟩
  exact exact_congr good.exact (fun _ => Iff.rfl) (held_congr loose other)

theorem fill_good (good : Good l m g free) (untied : Untied q) (here : held m g q = some p)
    (w : Nat → Nat) :
    Good l (m.fill p w) g free :=
  fill_held good here (good.loose_untied untied here) w

theorem kfree_word {y : Nat} (freed : kfree l p m = some m') (other : y ≠ p) :
    m'.word y = m.word y := by
  unfold kfree at freed
  split at freed
  · cases freed
  · cases freed
    simp only [Mem.set, Mem.fill, Function.update_of_ne other]

theorem kfree_chain (good : Good l m g free) (low : 0 < l.first) (here : held m g q = some p) :
    ∃ m', kfree l p m = some m' ∧ Chain m' (p :: free) := by
  have inside := good.allocatable here
  have bounds : ¬ (p < l.first ∨ l.phystop ≤ p) := by
    have := inside.1
    have := inside.2
    omega
  have some_ : p ≠ 0 := by
    have := inside.1
    omega
  refine ⟨_, if_neg bounds, by simp [link, some_], ?_⟩
  simp only [Mem.set, Mem.fill, Function.update_self]
  refine linked_congr good.chain fun x mem => ?_
  have other : x ≠ p := fun eq => good.not_free here (eq ▸ mem)
  rw [Function.update_of_ne other, Function.update_of_ne other]

theorem kfree_good (good : Good l m g free) (low : 0 < l.first) (untied : Untied q)
    (here : held m g q = some p) :
    ∃ m', kfree l p m = some m' ∧ Good l m' (g.put none q) (p :: free) := by
  obtain ⟨m',freed,chain⟩ := kfree_chain good low here
  refine ⟨m', freed, chain, List.nodup_cons.mpr ⟨good.not_free here, good.once⟩, ?_⟩
  have loose : Loose m (g.put none q) p := by
    have loose := good.loose_untied untied here
    refine ⟨put_live (g := g) none q ▸ loose.1, fun d i alive => loose.2 d i ?_⟩
    rwa [put_live] at alive
  refine exact_free good.exact here (fun x => ?_) ?_ fun x other => ?_
  · simp only [List.mem_cons, not_or]
    exact and_comm
  · rw [held_congr loose fun y other => kfree_word freed other, held_put untied, if_pos rfl]
  · rw [held_congr loose fun y other => kfree_word freed other, held_put untied, if_neg other]

theorem frame_entry {perm : Nat} (small : perm < 4096) : frame (entry r perm) = r := by
  simp only [frame, entry]
  omega

theorem present_entry {perm : Nat} : present (entry r perm) = true := by
  simp only [present, entry, beq_iff_eq]
  omega

variable {w : Nat}

theorem set_other {y : Nat} (other : y ≠ p) : (m.set p i w).word y = m.word y :=
  Function.update_of_ne other ..

theorem fill_other {y : Nat} {w : Nat → Nat} (other : y ≠ p) : (m.fill p w).word y = m.word y :=
  Function.update_of_ne other ..

theorem set_word {j : Nat} : (m.set p i w).word p j = if j = i then w else m.word p j := by
  simp only [Mem.set, Function.update_self, Function.update_apply]

theorem Good.chain_set (good : Good l m g free) (here : held m g q = some p) :
    Chain (m.set p i w) free :=
  chain_congr good.chain rfl fun _ mem => set_other fun eq => good.not_free here (eq ▸ mem)

/-- `t` is the table at `i` of `d` and nothing else in any directory. -/
structure Sole (m : Mem) (g : Hold) (d i t : Nat) : Prop where
  alive : g.live d = true
  found : tableAt m d i = some t
  once : ∀ d' i', g.live d' = true → tableAt m d' i' = some t → d' = d ∧ i' = i
  dir : ∀ d', g.live d' = true → d' ≠ t

variable {t : Nat}

theorem sole_of_once (once : ∀ q q' r, held m g q = some r → held m g q' = some r → q = q')
    (alive : g.live d = true) (found : tableAt m d i = some t) : Sole m g d i t := by
  have here : held m g (.table d i) = some t := by simp [held, alive, found]
  refine ⟨alive, found, fun d' i' alive' found' => ?_, ?_⟩
  · have same := once _ (.table d' i') t here (by simp [held, alive', found'])
    cases same
    exact ⟨rfl, rfl⟩
  · rintro d' alive' rfl
    have same := once _ (.dir d') d' here (by simp [held, alive'])
    cases same

theorem Good.sole (good : Good l m g free) (alive : g.live d = true)
    (found : tableAt m d i = some t) :
    Sole m g d i t :=
  sole_of_once good.exact.once alive found

theorem held_set_table {j : Nat} (sole : Sole m g d i t) (x : Place) :
    (∀ a, x = .user d a → a < kernbase → a / 1024 = i → a % 1024 = j →
      held (m.set t j w) g x = if present w then some (frame w) else none) ∧
    ((∀ a, x = .user d a → a < kernbase → a / 1024 = i → a % 1024 ≠ j) →
      held (m.set t j w) g x = held m g x) := by
  have dirs : ∀ d', g.live d' = true → (m.set t j w).word d' = m.word d' := fun d' alive' =>
    set_other (sole.dir d' alive')
  have tables : ∀ d' i', g.live d' = true → tableAt (m.set t j w) d' i' = tableAt m d' i' :=
    fun d' i' alive' =>
      tableAt_congr (dirs d' alive')
  refine ⟨fun a eq low row column => ?_, fun apart => ?_⟩
  · subst eq
    simp only [held, sole.alive, if_true, userAt, if_pos low, tables d _ sole.alive, row,
      sole.found, Option.bind_some, column,
      set_word]
  · cases x with
    | table d' i' =>
      simp only [held]
      split
      · next alive' => exact tables d' i' alive'
      · rfl
    | user d' a =>
      simp only [held]
      split
      · next alive' =>
        by_cases low : a < kernbase
        · simp only [userAt, if_pos low, tables d' _ alive']
          cases there : tableAt m d' (a / 1024) with
          | none => rfl
          | some t' =>
            simp only [Option.bind_some]
            by_cases mine : t' = t
            · subst mine
              obtain ⟨rfl,row⟩ := sole.once d' _ alive' there
              rw [set_word, if_neg (apart a rfl low row)]
            · rw [set_other mine]
        · simp only [userAt, if_neg low]
      · rfl
    | _ => rfl

theorem map_good (good : Good l m g free) {a perm : Nat} (untied : Untied q)
    (here : held m g q = some r)
    (alive : g.live d = true) (low : a < kernbase) (found : tableAt m d (a / 1024) = some t)
    (empty : present (m.word t (a % 1024)) = false) (small : perm < 4096) :
    Good l (m.set t (a % 1024) (entry r perm)) (g.put none q) free := by
  have table : held m g (.table d (a / 1024)) = some t := by simp [held, alive, found]
  refine ⟨good.chain_set table, good.once, exact_move good.exact (p := q) (q := .user d a) ?_ ?_ ?_
    fun x first second => ?_⟩
  · simp [held, alive, userAt, low, found, empty]
  · rw [held_put untied, if_pos rfl]
  · have apart : Place.user d a ≠ q := by
      rintro rfl
      exact untied
    rw [held_put untied, if_neg apart, here]
    have :=
      (held_set_table (w := entry r perm) (good.sole alive found) (.user d a)).1 a rfl low rfl rfl
    rw [this, present_entry, frame_entry small]
    rfl
  · rw [held_put untied, if_neg first]
    refine (held_set_table (good.sole alive found) x).2 fun b eq _ row column => second ?_
    rw [eq, show b = a by omega]

theorem set_kernel_good (good : Good l m g free) {j : Nat} (alive : g.live d = true)
    (found : tableAt m d i = some t)
    (high : 512 ≤ i) : Good l (m.set t j w) g free := by
  have table : held m g (.table d i) = some t := by simp [held, alive, found]
  refine ⟨good.chain_set table, good.once, exact_congr good.exact (fun _ => Iff.rfl) fun x => ?_⟩
  refine (held_set_table (good.sole alive found) x).2 fun a _ low row => ?_
  simp only [kernbase] at low
  omega

theorem set_flags_good (good : Good l m g free) {a : Nat} (alive : g.live d = true)
    (low : a < kernbase)
    (found : tableAt m d (a / 1024) = some t) (same : present w = present (m.word t (a % 1024)))
    (page : frame w = frame (m.word t (a % 1024))) : Good l (m.set t (a % 1024) w) g free := by
  have table : held m g (.table d (a / 1024)) = some t := by simp [held, alive, found]
  refine ⟨good.chain_set table, good.once, exact_congr good.exact (fun _ => Iff.rfl) fun x => ?_⟩
  by_cases mine : x = .user d a
  · rw [(held_set_table (good.sole alive found) x).1 a mine low rfl rfl, mine]
    simp only [held, alive, if_true, userAt, if_pos low, found, Option.bind_some, same, page]
  · exact (held_set_table (good.sole alive found) x).2 fun b eq _ row column =>
      mine (by rw [eq, show b = a by omega])

theorem unmap_good (good : Good l m g free) (first : 0 < l.first) {a : Nat}
    (alive : g.live d = true) (low : a < kernbase)
    (found : tableAt m d (a / 1024) = some t) (mapped : present (m.word t (a % 1024)) = true)
    (page : frame (m.word t (a % 1024)) = r) :
    ∃ m', kfree l r m = some m' ∧ Good l (m'.set t (a % 1024) 0) g (r :: free) ∧
      (∀ x, x ≠ .user d a → held (m'.set t (a % 1024) 0) g x = held m g x) ∧
      held (m'.set t (a % 1024) 0) g (.user d a) = none := by
  have table : held m g (.table d (a / 1024)) = some t := by simp [held, alive, found]
  have here : held m g (.user d a) = some r := by
    simp [held, alive, userAt, low, found, mapped, page]
  obtain ⟨m',freed,chain⟩ := kfree_chain good first here
  have loose := good.loose_user here
  have word : ∀ y, y ≠ r → m'.word y = m.word y := fun y other => kfree_word freed other
  have same : ∀ x, held m' g x = held m g x := held_congr loose word
  have tables : ∀ d' i', g.live d' = true → tableAt m' d' i' = tableAt m d' i' := by
    intro d' i' alive'
    have := same (.table d' i')
    simpa only [held, alive', if_true] using this
  -- the freed page is held until the entry is cleared, so the two steps are taken together
  have sole : Sole m' g d (a / 1024) t := by
    obtain ⟨-,-,once,dir⟩ := good.sole alive found
    exact ⟨alive, (tables d _ alive).trans found, fun d' i' alive' there =>
      once d' i' alive' ((tables d' i' alive').symm.trans there), dir⟩
  have gone : held (m'.set t (a % 1024) 0) g (.user d a) = none :=
    (held_set_table sole _).1 a rfl low rfl rfl
  have rest : ∀ x, x ≠ .user d a → held (m'.set t (a % 1024) 0) g x = held m g x := by
    intro x other
    refine ((held_set_table sole x).2 fun b eq _ row column => other ?_).trans (same x)
    rw [eq, show b = a by omega]
  refine ⟨m', freed, ⟨?_, List.nodup_cons.mpr ⟨good.not_free here, good.once⟩, ?_⟩, rest, gone⟩
  · refine chain_congr chain rfl fun x mem => set_other ?_
    rintro rfl
    rcases List.mem_cons.mp mem with eq | inside
    · have clash := good.once_at here (eq ▸ table)
      cases clash
    · exact good.not_free table inside
  · refine exact_free good.exact here (fun x => ?_) gone rest
    simp only [List.mem_cons, not_or]
    exact and_comm

theorem install_good (good : Good l m g free) (untied : Untied q) (here : held m g q = some t)
    (alive : g.live d = true) (inside : i < 1024) (empty : present (m.word d i) = false)
    (zero : m.word t = fun _ => 0) :
    Good l (m.set d i (entry t 7)) (g.put none q) free ∧
      ∀ x, x ≠ .table d i → x ≠ q → held (m.set d i (entry t 7)) g x = held m g x := by
  have mine : held m g (.dir d) = some d := by simp [held, alive]
  have apart : t ≠ d := by
    intro eq
    have clash := good.once_at here (eq ▸ mine)
    rw [clash] at untied
    exact untied
  have dirs : ∀ d', d' ≠ d → (m.set d i (entry t 7)).word d' = m.word d' :=
    fun d' other => set_other other
  have tables : ∀ d' i', g.live d' = true → (d', i') ≠ (d, i) →
      tableAt (m.set d i (entry t 7)) d' i' = tableAt m d' i' := by
    intro d' i' alive' other
    by_cases same : d' = d
    · subst same
      have column : i' ≠ i := fun eq => other (by rw [eq])
      simp only [tableAt, set_word, if_neg column]
    · exact tableAt_congr (dirs d' same)
  have new : tableAt (m.set d i (entry t 7)) d i = some t := by
    simp [tableAt, set_word, inside, present_entry, frame_entry]
  have none_ : tableAt m d i = none := by simp [tableAt, empty]
  have notDir : ∀ d' i' t', g.live d' = true → tableAt m d' i' = some t' → t' ≠ d := by
    intro d' i' t' alive' found eq
    have clash :=
      good.once_at mine (show held m g (.table d' i') = some d by simp [held, alive', found, eq])
    cases clash
  have rest : ∀ x, x ≠ .table d i → held (m.set d i (entry t 7)) g x = held m g x := by
    intro x other
    cases x with
    | table d' i' =>
      simp only [held]
      split
      · next alive' =>
        refine tables d' i' alive' fun eq => other ?_
        cases eq
        rfl
      · rfl
    | user d' a =>
      simp only [held]
      split
      · next alive' =>
        by_cases low : a < kernbase
        · simp only [userAt, if_pos low]
          by_cases row : (d', a / 1024) = (d, i)
          · obtain ⟨rfl,rfl⟩ := Prod.mk.inj row
            rw [new, none_]
            simp [dirs t apart, zero, present]
          · rw [tables d' _ alive' row]
            cases found : tableAt m d' (a / 1024) with
            | none => rfl
            | some t' => simp only [Option.bind_some, dirs t' (notDir d' _ t' alive' found)]
        · simp only [userAt, if_neg low]
      · rfl
    | _ => rfl
  refine ⟨⟨good.chain_set mine, good.once, exact_move good.exact (p := q) (q := .table d i) ?_ ?_ ?_
    fun x first second => ?_⟩,
    fun x other _ => rest x other⟩
  · simp [held, alive, none_]
  · rw [held_put untied, if_pos rfl]
  · have other : Place.table d i ≠ q := by
      rintro rfl
      exact untied
    rw [held_put untied, if_neg other, here]
    simp [held, alive, new]
  · rw [held_put untied, if_neg first]
    exact rest x second

theorem found_good (good : Good l m g free) (untied : Untied q) (here : held m g q = some d)
    (zero : m.word d = fun _ => 0) :
    Good l m { g.put none q with live := Function.update g.live d true } free := by
  have dead : g.live d = false := (good.loose_untied untied here).1
  have nothing : ∀ i, tableAt m d i = none := by
    intro i
    simp [tableAt, zero, present]
  have same : ∀ x, x ≠ .dir d →
      held m { g.put none q with live := Function.update g.live d true } x = held m
        (g.put none q) x := by
    intro x other
    cases x with
    | dir d' =>
      have ne : d' ≠ d := fun eq => other (by rw [eq])
      simp only [held, Function.update_of_ne ne, put_live]
    | table d' i =>
      by_cases ne : d' = d
      · subst ne
        simp [held, put_live, nothing, dead]
      · simp only [held, Function.update_of_ne ne, put_live]
    | user d' a =>
      by_cases ne : d' = d
      · subst ne
        simp [held, put_live, userAt, nothing, dead]
      · simp only [held, Function.update_of_ne ne, put_live]
    | _ => rfl
  have apart : Place.dir d ≠ q := by
    rintro rfl
    exact untied
  refine ⟨good.chain, good.once,
    exact_move good.exact (p := q) (q := .dir d) ?_ ?_ ?_ fun x first second => ?_⟩
  · simp [held, dead]
  · rw [same q (Ne.symm apart), held_put untied, if_pos rfl]
  · rw [here]
    simp [held]
  · rw [same x second, held_put untied, if_neg first]

theorem dissolve_good (good : Good l m g free) (alive : g.live d = true)
    (empty : ∀ a, userAt m d a = none)
    (none_ : g.dead = none) (noTable : ∀ i, g.deadTable i = none) :
    Good l m { g with
      live := Function.update g.live d false, dead := some d, deadTable := tableAt m d } free := by
  refine ⟨good.chain, good.once, exact_rename good.exact (fun
    | .dir d' => if d' = d then .dead else .dir d'
    | .table d' i => if d' = d then .deadTable i else .table d' i
    | .dead => .dir d
    | .deadTable i => .table d i
    | x => x) (fun x => ?_) fun x => ?_⟩
  · cases x with
    | dir d' =>
      by_cases same : d' = d <;> simp [same]
    | table d' i =>
      by_cases same : d' = d <;> simp [same]
    | dead => simp
    | deadTable i => simp
    | _ => rfl
  · cases x with
    | dir d' =>
      by_cases same : d' = d
      · simp [held, same, none_]
      · simp [held, same]
    | table d' i =>
      by_cases same : d' = d
      · simp [held, same, noTable]
      · simp [held, same]
    | user d' a =>
      by_cases same : d' = d
      · simp [held, same, empty]
      · simp [held, same]
    | dead => simp [held, alive]
    | deadTable i => simp [held, alive]
    | _ => rfl

end Pages

end PhysicalPages
