import Xv6.Vm.Spaces

/- The pages of the whole system. Between two calls the owners of directories are the kernel and
   the processes; every call keeps each page with one of them or on the free list. -/
namespace PhysicalPages
open RunLaws LinkedQueue Ownership Function

variable {n : Nat} {l : Layout} {m m' : Mem} {g g' : Hold} {free free' : List Nat}

/-- What a page is used for. No owner is the kernel itself. -/
inductive Use (n : Nat) where
  | kstack (p : Fin n)
  | pgdir (o : Option (Fin n))
  | table (o : Option (Fin n)) (i : Nat)
  | user (o : Option (Fin n)) (a : Nat)

def Proc.root (v : Proc) : Option Nat := if v.phase = .unused then none else some v.pgdir

def Proc.stack (v : Proc) : Option Nat := if v.phase = .unused then none else some v.kstack

def root (kpgdir : Nat) (proc : Fin n → Proc) : Option (Fin n) → Option Nat
  | none => link kpgdir
  | some p => (proc p).root

def uses (s : State n) : Use n → Option Nat
  | .kstack p => (s.proc p).stack
  | .pgdir o => root s.kpgdir s.proc o
  | .table o i => (root s.kpgdir s.proc o).bind fun d => tableAt s.mem d i
  | .user o a => (root s.kpgdir s.proc o).bind fun d => userAt s.mem d a

def Sized (m : Mem) (v : Proc) : Prop :=
  v.phase ≠ .unused → v.sz < 2147483648 ∧ ∀ b, pages v.sz ≤ b → userAt m v.pgdir b = none

structure Owned (l : Layout) (m : Mem) (kpgdir : Nat) (proc : Fin n → Proc) (g : Hold)
    (free : List Nat) : Prop where
  good : Good l m g free
  idle : Idle g
  stack : ∀ p : Fin n, g.stack p = (proc p).stack
  rest : ∀ k, n ≤ k → g.stack k = none
  live : ∀ d, g.live d = true ↔ ∃ o, root kpgdir proc o = some d
  apart : ∀ o o' d, root kpgdir proc o = some d → root kpgdir proc o' = some d → o = o'
  sized : ∀ p, Sized m (proc p)

section Slots

variable {kpgdir : Nat} {proc : Fin n → Proc}
variable {v : Proc}

theorem root_other {q : Fin n} {o : Option (Fin n)} (ne : o ≠ some q) :
    root kpgdir (update proc q v) o = root kpgdir proc o := by
  cases o with
  | none => rfl
  | some p =>
    have ne : p ≠ q := fun eq => ne (congrArg some eq)
    simp only [root, update_of_ne ne]

theorem root_self {q : Fin n} : root kpgdir (update proc q v) (some q) = v.root := by
  simp only [root, update_self]

theorem Proc.root_used (used : v.phase ≠ .unused) : v.root = some v.pgdir := if_neg used

theorem Proc.stack_used (used : v.phase ≠ .unused) : v.stack = some v.kstack := if_neg used

theorem Sized.congr (sized : Sized m v) (same : ∀ d, v.root = some d → Same m m' d) :
    Sized m' v := by
  intro used
  obtain ⟨low,above⟩ := sized used
  exact ⟨low, fun b out => ((same _ (v.root_used used)).2 b).trans (above b out)⟩

namespace Owned

variable (owned : Owned l m kpgdir proc g free)
include owned

variable {q : Fin n}

theorem root_live (used : (proc q).phase ≠ .unused) : g.live (proc q).pgdir = true :=
  (owned.live _).mpr ⟨some q, (proc q).root_used used⟩

theorem stack_held (used : (proc q).phase ≠ .unused) :
    held m g (.kstack q) = some (proc q).kstack :=
  (owned.stack q).trans ((proc q).stack_used used)

theorem still (good : Good l m' g free') (same : ∀ d, g.live d = true → Same m m' d) :
    Owned l m' kpgdir proc g free' :=
  ⟨good, owned.idle, owned.stack, owned.rest, owned.live, owned.apart, fun p =>
    (owned.sized p).congr fun d eq => same d ((owned.live d).mpr ⟨some p, eq⟩)⟩

theorem change (q : Fin n) (v : Proc) (good : Good l m' g' free') (idle : Idle g')
    (stack : g'.stack = update g.stack q v.stack)
    (live : ∀ d, g'.live d = true ↔ (g.live d = true ∧ (proc q).root ≠ some d) ∨ v.root = some d)
    (fresh : ∀ d, v.root = some d → g.live d = false ∨ (proc q).root = some d)
    (same : ∀ d, g.live d = true → (proc q).root ≠ some d → Same m m' d) (sized : Sized m' v) :
    Owned l m' kpgdir (update proc q v) g' free' := by
  have owner : ∀ {o d}, o ≠ some q → root kpgdir (update proc q v) o = some d →
      root kpgdir proc o = some d := by
    intro o d ne at_
    rwa [root_other ne] at at_
  -- another owner's directory is neither the old nor the new one of q
  have foreign : ∀ {o d}, o ≠ some q → root kpgdir proc o = some d → g.live d = true ∧
      (proc q).root ≠ some d := by
    intro o d ne at_
    exact ⟨(owned.live d).mpr ⟨o, at_⟩, fun mine => ne (owned.apart o (some q) d at_ mine)⟩
  have mixed : ∀ {o d}, o ≠ some q → root kpgdir proc o = some d → v.root ≠ some d := by
    intro o d ne at_ mine
    obtain ⟨alive,old⟩ := foreign ne at_
    cases fresh d mine with
    | inl dead =>
      rw [alive] at dead
      cases dead
    | inr eq => exact old eq
  refine ⟨good, idle, fun p => ?_, fun k out => ?_, fun d => ?_, fun o o' d at_ at' => ?_,
    fun p => ?_⟩
  · rw [stack]
    by_cases mine : p = q
    · rw [mine, update_self, update_self]
    · rw [update_of_ne mine, update_of_ne fun eq => mine (Fin.ext eq)]
      exact owned.stack p
  · rw [stack, update_of_ne (by omega)]
    exact owned.rest k out
  · rw [live d, owned.live d]
    constructor
    · rintro (⟨⟨o,at_⟩,old⟩ | new)
      · have ne : o ≠ some q := fun eq => old (by rw [eq] at at_; exact at_)
        exact ⟨o, (root_other ne).trans at_⟩
      · exact ⟨some q, root_self.trans new⟩
    · rintro ⟨o,at_⟩
      by_cases mine : o = some q
      · rw [mine, root_self] at at_
        exact .inr at_
      · exact .inl ⟨⟨o, owner mine at_⟩, (foreign mine (owner mine at_)).2⟩
  · by_cases mine : o = some q <;> by_cases mine' : o' = some q
    · rw [mine, mine']
    · rw [mine, root_self] at at_
      exact absurd at_ (mixed mine' (owner mine' at'))
    · rw [mine', root_self] at at'
      exact absurd at' (mixed mine (owner mine at_))
    · exact owned.apart o o' d (owner mine at_) (owner mine' at')
  · by_cases mine : p = q
    · rw [mine, update_self]
      exact sized
    · rw [update_of_ne mine]
      refine (owned.sized p).congr fun d eq => ?_
      obtain ⟨alive,old⟩ := foreign (o := some p) (fun eq => mine (Option.some.inj eq)) eq
      exact same d alive old

variable {v : Proc}

theorem vacant (unused : (proc q).phase = .unused) (unused' : v.phase = .unused) :
    Owned l m kpgdir (update proc q v) g free := by
  have none_ : (proc q).root = none := if_pos unused
  have none' : v.root = none := if_pos unused'
  refine owned.change q v owned.good owned.idle ?_ (fun d => ?_) (fun d eq => ?_)
    (fun d _ _ => .refl m d) fun used => absurd unused' used
  · rw [show v.stack = g.stack q from (if_pos unused').trans
      ((owned.stack q).trans (if_pos unused)).symm, update_eq_self]
  · simp [none_, none']
  · rw [none'] at eq
    cases eq

theorem keeps (used : (proc q).phase ≠ .unused) (used' : v.phase ≠ .unused)
    (kstack : v.kstack = (proc q).kstack)
    (pgdir : v.pgdir = (proc q).pgdir) (good : Good l m' g free')
    (same : ∀ d, g.live d = true → d ≠ (proc q).pgdir → Same m m' d) (sized : Sized m' v) :
    Owned l m' kpgdir (update proc q v) g free' := by
  have old := (proc q).root_used used
  have new : v.root = some (proc q).pgdir := (v.root_used used').trans (congrArg some pgdir)
  refine owned.change q v good owned.idle ?_ (fun d => ?_)
    (fun d eq => .inr (old.trans (new.symm.trans eq))) (fun d alive ne => ?_) sized
  · rw [show v.stack = g.stack q by rw [owned.stack, v.stack_used used', (proc q).stack_used used,
      kstack], update_eq_self]
  · rw [old, new]
    constructor
    · intro alive
      by_cases mine : (proc q).pgdir = d
      · exact .inr (congrArg some mine)
      · exact .inl ⟨alive, fun eq => mine (Option.some.inj eq)⟩
    · rintro (⟨alive,-⟩ | eq)
      · exact alive
      · rw [← Option.some.inj eq]
        exact owned.root_live used
  · exact same d alive fun eq => ne (by rw [old, eq])

theorem adopts (unused : (proc q).phase = .unused) (used : v.phase ≠ .unused)
    (good : Good l m' ((g.put (some v.kstack) (.kstack q)).add v.pgdir) free')
    (dead : g.live v.pgdir = false)
    (same : ∀ d, g.live d = true → Same m m' d) (sized : Sized m' v) :
    Owned l m' kpgdir (update proc q v) ((g.put (some v.kstack) (.kstack q)).add v.pgdir)
      free' := by
  have none_ : (proc q).root = none := if_pos unused
  have new := v.root_used used
  refine owned.change q v good ⟨owned.idle.spare, owned.idle.dead, owned.idle.deadTable⟩ ?_
    (fun d => ?_) (fun d eq => .inl ?_)
    (fun d alive _ => same d alive) sized
  · rw [v.stack_used used]
    rfl
  · rw [none_, new]
    show update g.live v.pgdir true d = true ↔ _
    by_cases mine : d = v.pgdir
    · simp [mine]
    · simp [update_of_ne mine, Ne.symm mine]
  · rw [new] at eq
    rwa [← Option.some.inj eq]

theorem replaces (used : (proc q).phase ≠ .unused) (used' : v.phase ≠ .unused)
    (kstack : v.kstack = (proc q).kstack) (dead : g.live v.pgdir = false)
    (good : Good l m' { g.add v.pgdir
      with live := update (g.add v.pgdir).live (proc q).pgdir false } free')
    (same : ∀ d, g.live d = true → d ≠ (proc q).pgdir → Same m m' d) (sized : Sized m' v) :
    Owned l m' kpgdir (update proc q v)
      { g.add v.pgdir with live := update (g.add v.pgdir).live (proc q).pgdir false } free' := by
  have old := (proc q).root_used used
  have new := v.root_used used'
  have alive := owned.root_live used
  have differ : v.pgdir ≠ (proc q).pgdir := by
    intro eq
    rw [eq, alive] at dead
    cases dead
  refine owned.change q v good ⟨owned.idle.spare, owned.idle.dead, owned.idle.deadTable⟩ ?_
    (fun d => ?_) (fun d eq => .inl ?_)
    (fun d live ne => same d live fun eq => ne (by rw [old, eq])) sized
  · rw [show v.stack = g.stack q by rw [owned.stack, v.stack_used used', (proc q).stack_used used,
      kstack], update_eq_self]
    rfl
  · rw [old, new]
    show update (update g.live v.pgdir true) (proc q).pgdir false d = true ↔ _
    by_cases first : d = (proc q).pgdir
    · simp [first, differ]
    · by_cases mine : d = v.pgdir
      · simp [mine, update_of_ne differ]
      · simp [update_of_ne first, update_of_ne mine, Ne.symm mine, Ne.symm first]
  · rw [new] at eq
    rwa [← Option.some.inj eq]

theorem releases (used : (proc q).phase ≠ .unused) (unused : v.phase = .unused)
    (good : Good l m' { g.put none (.kstack q)
      with live := update (g.put none (.kstack q)).live (proc q).pgdir false } free')
    (same : ∀ d, g.live d = true → d ≠ (proc q).pgdir → Same m m' d) :
    Owned l m' kpgdir (update proc q v)
      { g.put none (.kstack q) with
        live := update (g.put none (.kstack q)).live (proc q).pgdir false } free' := by
  have old := (proc q).root_used used
  have none_ : v.root = none := if_pos unused
  refine owned.change q v good ⟨owned.idle.spare, owned.idle.dead, owned.idle.deadTable⟩ ?_
    (fun d => ?_) (fun d eq => ?_)
    (fun d live ne => same d live fun eq => ne (by rw [old, eq])) fun used => absurd unused used
  · rw [show v.stack = none from if_pos unused]
    rfl
  · rw [old, none_]
    show update g.live (proc q).pgdir false d = true ↔ _
    by_cases mine : d = (proc q).pgdir
    · simp [mine]
    · simp [update_of_ne mine, Ne.symm mine]
  · rw [none_] at eq
    cases eq

end Owned

def spot (kpgdir : Nat) (proc : Fin n → Proc) : Use n → Option Place
  | .kstack p => some (.kstack p)
  | .pgdir o => (root kpgdir proc o).map .dir
  | .table o i => (root kpgdir proc o).map (.table · i)
  | .user o a => (root kpgdir proc o).map (.user · a)

theorem Owned.spot_inj (owned : Owned l m kpgdir proc g free) (u u' : Use n) (q : Place)
    (at_ : spot kpgdir proc u = some q)
    (at' : spot kpgdir proc u' = some q) : u = u' := by
  cases u with
  | kstack p =>
    cases at_
    cases u' with
    | kstack p' =>
      have same : (p' : Nat) = p := by simpa [spot] using at'
      rw [Fin.ext same]
    | _ => simp [spot] at at'
  | pgdir o =>
    obtain ⟨d,mine,rfl⟩ := Option.map_eq_some_iff.mp at_
    cases u' with
    | pgdir o' => rw [owned.apart o o' d mine (by simpa [spot] using at')]
    | _ => simp [spot] at at'
  | table o i =>
    obtain ⟨d,mine,rfl⟩ := Option.map_eq_some_iff.mp at_
    cases u' with
    | table o' i' =>
      obtain ⟨there,rfl⟩ : root kpgdir proc o' = some d ∧ i' = i := by simpa [spot] using at'
      rw [owned.apart o o' d mine there]
    | _ => simp [spot] at at'
  | user o a =>
    obtain ⟨d,mine,rfl⟩ := Option.map_eq_some_iff.mp at_
    cases u' with
    | user o' a' =>
      obtain ⟨there,rfl⟩ : root kpgdir proc o' = some d ∧ a' = a := by simpa [spot] using at'
      rw [owned.apart o o' d mine there]
    | _ => simp [spot] at at'

theorem Owned.spot_every (owned : Owned l m kpgdir proc g free) (q : Place) (r : Nat)
    (at_ : held m g q = some r) :
    ∃ u, spot kpgdir proc u = some q := by
  -- a directory that is in use has an owner
  have owner : ∀ {d} {x : Option Nat}, (if g.live d = true then x else none) = some r →
      ∃ o, root kpgdir proc o = some d := by
    intro d x some_
    by_cases alive : g.live d = true
    · exact (owned.live d).mp alive
    · rw [if_neg alive] at some_
      cases some_
  cases q with
  | kstack k =>
    by_cases inside : k < n
    · exact ⟨.kstack ⟨k, inside⟩, rfl⟩
    · rw [held, owned.rest k (Nat.le_of_not_lt inside)] at at_
      cases at_
  | dir d =>
    obtain ⟨o,eq⟩ := owner at_
    exact ⟨.pgdir o, by rw [spot, eq]; rfl⟩
  | table d i =>
    obtain ⟨o,eq⟩ := owner at_
    exact ⟨.table o i, by rw [spot, eq]; rfl⟩
  | user d a =>
    obtain ⟨o,eq⟩ := owner at_
    exact ⟨.user o a, by rw [spot, eq]; rfl⟩
  | spare k =>
    rw [held, owned.idle.spare] at at_
    cases at_
  | dead =>
    rw [held, owned.idle.dead] at at_
    cases at_
  | deadTable i =>
    rw [held, owned.idle.deadTable] at at_
    cases at_

end Slots

/-- Every page in use has one use. -/
theorem Owned.exact_uses {s : State n} (owned : Owned l s.mem s.kpgdir s.proc g free) :
    Exact (fun r => ¬ l.Allocatable r) (fun r => r ∉ free) (uses s) := by
  refine exact_through owned.good.exact (spot s.kpgdir s.proc)
    (fun u => ?_) owned.spot_inj owned.spot_every
  have alive : ∀ {o d}, root s.kpgdir s.proc o = some d → g.live d = true :=
    fun eq => (owned.live _).mpr ⟨_, eq⟩
  cases u with
  | kstack p => exact (owned.stack p).symm
  | pgdir o =>
    cases mine : root s.kpgdir s.proc o with
    | none => simp only [uses, spot, mine, Option.map_none, Option.bind_none]
    | some d =>
      simp only [uses, spot, mine, Option.map_some, Option.bind_some, held, alive mine, if_true]
  | table o i =>
    cases mine : root s.kpgdir s.proc o with
    | none => simp only [uses, spot, mine, Option.map_none, Option.bind_none]
    | some d =>
      simp only [uses, spot, mine, Option.map_some, Option.bind_some, held, alive mine, if_true]
  | user o a =>
    cases mine : root s.kpgdir s.proc o with
    | none => simp only [uses, spot, mine, Option.map_none, Option.bind_none]
    | some d =>
      simp only [uses, spot, mine, Option.map_some, Option.bind_some, held, alive mine, if_true]

section Calls

theorem Good.mem_free (good : Good l m g free) (r : Nat) :
    r ∈ free ↔ l.Allocatable r ∧ ∀ q, held m g q ≠ some r := by
  have count := not_congr (good.exact.used_iff r)
  rw [not_not] at count
  rw [count, not_or, not_not, not_exists]

theorem Good.free_same (good : Good l m g free) (good' : Good l m' g free')
    (same : ∀ d, g.live d = true → Same m m' d) (r : Nat) :
    r ∈ free' ↔ r ∈ free := by
  simp only [good.mem_free, good'.mem_free, held_of_same same]

variable {s s' : State n}

theorem Owned.allocproc_fails (owned : Owned l s.mem s.kpgdir s.proc g free)
    (call : allocproc s = (none, s')) :
    Owned l s'.mem s'.kpgdir s'.proc g free := by
  unfold allocproc at call
  cases slot : (List.finRange n).find? fun p => (s.proc p).phase = .unused with
  | none =>
    rw [slot] at call
    cases call
    exact owned
  | some q =>
    have unused : (s.proc q).phase = .unused := by simpa using List.find?_some slot
    rw [slot] at call
    cases asked : kalloc s.mem with
    | mk got m =>
      have empty : held s.mem g (.kstack q) = none := (owned.stack q).trans (if_pos unused)
      obtain ⟨words,rest⟩ := kalloc_good owned.good (q := .kstack q) trivial empty asked
      simp only [asked] at call
      cases got with
      | some k => cases call
      | none =>
        cases call
        exact (owned.still rest fun d _ => same_of_word words d).vacant unused unused

theorem Owned.allocproc_takes {q : Fin n} (owned : Owned l s.mem s.kpgdir s.proc g free)
    (call : allocproc s = (some q, s')) :
    (s.proc q).phase = .unused ∧ ∃ k m rest,
      s' = { s with mem := m, proc := update s.proc q { s.proc q
        with phase := .used, kstack := k } } ∧
      Good l m (g.put (some k) (.kstack q)) rest ∧ ∀ d, Same s.mem m d := by
  unfold allocproc at call
  cases slot : (List.finRange n).find? fun p => (s.proc p).phase = .unused with
  | none =>
    rw [slot] at call
    cases call
  | some q' =>
    have unused : (s.proc q').phase = .unused := by simpa using List.find?_some slot
    rw [slot] at call
    cases asked : kalloc s.mem with
    | mk got m =>
      have empty : held s.mem g (.kstack q') = none := (owned.stack q').trans (if_pos unused)
      obtain ⟨words,rest⟩ := kalloc_good owned.good (q := .kstack q') trivial empty asked
      simp only [asked] at call
      cases got with
      | none => cases call
      | some k =>
        cases call
        obtain ⟨free₁,-,good⟩ := rest
        exact ⟨unused, k, m, free₁, rfl, good, same_of_word words⟩

theorem put_idle {v : Option Nat} {k : Nat} (idle : Idle g) : Idle (g.put v (.kstack k)) :=
  ⟨idle.spare, idle.dead, idle.deadTable⟩

variable {p : Fin n}

theorem fork_owned (valid : l.Valid) (owned : Owned l s.mem s.kpgdir s.proc g free)
    (used : (s.proc p).phase = .used)
    (call : fork l s p = some s') :
    ∃ g' free', Owned l s'.mem s'.kpgdir s'.proc g' free' ∧
      (s'.ok = false → ∀ r, r ∈ free' ↔ r ∈ free) := by
  unfold fork at call
  cases slot : allocproc s with
  | mk got s₁ =>
    rw [slot] at call
    cases got with
    | none =>
      cases call
      have still := owned.allocproc_fails slot
      exact ⟨g, free, still, fun _ _ => Iff.rfl⟩
    | some q =>
      obtain ⟨unused,k,m,free₁,rfl,good,same⟩ := owned.allocproc_takes slot
      have loc : Untied (.kstack q) := trivial
      have other : p ≠ q := by
        rintro rfl
        rw [used] at unused
        cases unused
      simp only [update_of_ne other, update_self] at call
      obtain ⟨⟨found,m₁⟩,copied,rest⟩ := Option.bind_eq_some_iff.mp call
      have low := (owned.sized p (by rw [used]; decide)).1
      obtain ⟨free₂,same₂,failed,made⟩ :=
        copyuvm_good good valid (put_idle owned.idle) (Nat.le_of_lt low) copied
      cases found with
      | none =>
        have here : held m₁ (g.put (some k) (.kstack q)) (.kstack q) = some k := by
          rw [held_put loc, if_pos rfl]
        have empty : held s.mem g (.kstack q) = none := (owned.stack q).trans (if_pos unused)
        obtain ⟨m₂,freed,good₂⟩ := kfree_good (failed rfl) valid.first loc here
        rw [put_put, put_none loc empty] at good₂
        simp only [freed, Option.map_some, Option.some.injEq] at rest
        cases rest
        have still : ∀ d, g.live d = true → Same s.mem m₂ d := by
          intro d alive
          refine ((same d).trans (same₂ d alive)).trans
            (same_of_held (g := g.put (some k) (.kstack q)) ?_ alive)
          exact held_congr ((failed rfl).loose_untied loc here) fun y ne => kfree_word freed ne
        refine ⟨g, _, ?_, fun _ => owned.good.free_same good₂ still⟩
        simp only [State.set, update_idem]
        exact (owned.still good₂ still).vacant unused rfl
      | some d =>
        obtain ⟨dead,good₂,empty,-⟩ := made d rfl
        cases rest
        refine ⟨(g.put (some k) (.kstack q)).add d, free₂, ?_, fun no => by cases no⟩
        simp only [State.set, update_idem]
        exact owned.adopts (v := ⟨.used, k, d, (s.proc p).sz⟩) unused
          (fun eq => by cases eq) good₂ dead
          (fun e alive => (same e).trans (same₂ e alive)) fun _ => ⟨low, empty⟩

theorem growproc_owned {by_ : Int} (valid : l.Valid) (owned : Owned l s.mem s.kpgdir s.proc g free)
    (used : (s.proc p).phase = .used) (call : growproc l s p by_ = some s') :
    ∃ g' free', Owned l s'.mem s'.kpgdir s'.proc g' free' := by
  have using_ : (s.proc p).phase ≠ .unused := by rw [used]; decide
  have alive := owned.root_live using_
  obtain ⟨low,above⟩ := owned.sized p using_
  obtain ⟨⟨r,m⟩,done,rfl⟩ := Option.map_eq_some_iff.mp call
  -- what either direction leaves: the others untouched, the process with its old size or the new
  -- one
  have give : ∀ {free'}, Good l m g free' →
    (∀ d, g.live d = true → d ≠ (s.proc p).pgdir → Same s.mem m d) →
      (∀ b, pages (s.proc p).sz ≤ b → r = 0 → userAt m (s.proc p).pgdir b = none) →
      (r ≠ 0 ∨ by_ = 0 → r < 2147483648 ∧ ∀ b, pages r ≤ b → userAt m (s.proc p).pgdir b = none) →
      ∃ g' free', Owned l
        (if by_ ≠ 0 ∧ r = 0 then { s with mem := m, ok := false }
          else { ({ s with mem := m } : State n).set p { s.proc p with sz := r }
            with ok := true }).mem
        (if by_ ≠ 0 ∧ r = 0 then { s with mem := m, ok := false }
          else { ({ s with mem := m } : State n).set p { s.proc p with sz := r }
            with ok := true }).kpgdir
        (if by_ ≠ 0 ∧ r = 0 then { s with mem := m, ok := false }
          else { ({ s with mem := m } : State n).set p { s.proc p with sz := r }
            with ok := true }).proc g' free' := by
    intro free' good others zero new
    split
    · next failed =>
      have kept := owned.keeps (v := s.proc p) using_ using_ rfl rfl good others fun _ =>
        ⟨low, fun b out => zero b out failed.2⟩
      rw [update_eq_self] at kept
      exact ⟨g, free', kept⟩
    · next failed =>
      have kept := owned.keeps (v := { s.proc p with sz := r }) using_ using_ rfl rfl good others
        fun _ => new (by omega)
      exact ⟨g, free', kept⟩
  by_cases up : by_ > 0
  · rw [if_pos up] at done
    obtain ⟨free',good,within,zero,new,value⟩ :=
      allocuvm_good owned.good valid.first alive (owned.idle.spare 0)
        (owned.idle.spare 1) above done
    refine give good within.others (fun b out none_ => (zero none_ b).trans (above b out))
      fun some_ => ?_
    have some_ : r ≠ 0 := by omega
    exact ⟨by omega, new some_⟩
  · rw [if_neg up] at done
    by_cases down : by_ < 0
    · rw [if_pos down] at done
      obtain ⟨m',free',freed,good,keeps,users⟩ := deallocuvm_good (s.proc p).sz
        ((((s.proc p).sz : Int) + by_) % 4294967296).toNat owned.good valid.first alive
          (Nat.le_of_lt low)
      rw [freed] at done
      generalize ((((s.proc p).sz : Int) + by_) % 4294967296).toNat = target at done users freed
      cases done
      have tidy : ∀ b, pages (if target ≥ (s.proc p).sz then (s.proc p).sz else target) ≤ b →
          userAt m (s.proc p).pgdir b = none := by
        intro b out
        rw [users b]
        split
        · rfl
        · next outside =>
          refine above b ?_
          split at out
          · exact out
          · omega
      refine give good keeps.others (fun b out _ => ?_) fun _ => ⟨by split <;> omega, tidy⟩
      rw [users b]
      split
      · rfl
      · exact above b out
    · rw [if_neg down] at done
      cases done
      exact give owned.good (fun d _ _ => .refl _ d) (fun b out _ => above b out) fun _ =>
        ⟨low, above⟩

theorem exec_owned {image : Image} (valid : l.Valid) (owned : Owned l s.mem s.kpgdir s.proc g free)
    (used : (s.proc p).phase = .used) (call : exec l s p image = some s') :
    ∃ g' free', Owned l s'.mem s'.kpgdir s'.proc g' free' ∧
      (s'.ok = false → ∀ r, r ∈ free' ↔ r ∈ free) := by
  have using_ : (s.proc p).phase ≠ .unused := by rw [used]; decide
  obtain ⟨⟨found,m⟩,loaded,rest⟩ := Option.bind_eq_some_iff.mp call
  obtain ⟨free₁,same,failed,made⟩ := load_good owned.good valid owned.idle loaded
  cases found with
  | none =>
    cases rest
    exact ⟨g, free₁, owned.still (failed rfl) same, fun _ => owned.good.free_same (failed rfl) same⟩
  | some image =>
    obtain ⟨d,sz⟩ := image
    obtain ⟨dead,good,low,above⟩ := made d sz rfl
    obtain ⟨alive,differ⟩ := add_live dead (owned.root_live using_)
    obtain ⟨m₂,free₂,freed,good₂,spared⟩ := freevm_good good valid.first alive (owned.idle.add d)
    simp only [freed, Option.map_some, Option.some.injEq] at rest
    cases rest
    have mine : (g.add d).live d = true := update_self ..
    refine ⟨_, free₂, owned.replaces (v := { s.proc p with pgdir := d, sz := sz }) using_ using_ rfl
      dead good₂ (fun e live ne => ?_) ?_,
      fun no => by cases no⟩
    · exact (same e live).trans (spared.same e (drop_live.mpr ⟨(add_live dead live).1, ne⟩))
    · exact fun _ => ⟨low, fun b out =>
        ((spared.same d (drop_live.mpr ⟨mine, Ne.symm differ⟩)).2 b).trans (above b out)⟩

theorem wait_owned (valid : l.Valid) (owned : Owned l s.mem s.kpgdir s.proc g free)
    (zombie : (s.proc p).phase = .zombie) (call : wait l s p = some s') :
    ∃ g' free', Owned l s'.mem s'.kpgdir s'.proc g' free' := by
  have used : (s.proc p).phase ≠ .unused := by rw [zombie]; decide
  have loc : Untied (.kstack p) := trivial
  have here := owned.stack_held used
  obtain ⟨m₁,freed,good₁⟩ := kfree_good owned.good valid.first loc here
  have same₁ : ∀ d, g.live d = true → Same s.mem m₁ d := fun d alive =>
    same_of_held (held_congr (owned.good.loose_untied loc here) fun y ne =>
      kfree_word freed ne) alive
  obtain ⟨m₂,free₂,gone,good₂,spared⟩ :=
    freevm_good good₁ valid.first (owned.root_live used) (put_idle owned.idle)
  unfold wait at call
  simp only [freed, Option.bind_some, gone, Option.map_some, Option.some.injEq] at call
  cases call
  exact ⟨_, free₂, owned.releases used rfl good₂ fun d alive ne =>
    (same₁ d alive).trans (spared.same d (drop_live.mpr ⟨alive, ne⟩))⟩

theorem kvmalloc_owned (valid : l.Valid) (owned : Owned l s.mem s.kpgdir s.proc g free)
    (first : s.kpgdir = 0)
    (call : kvmalloc l s = some s') : ∃ g' free', Owned l s'.mem s'.kpgdir s'.proc g' free' := by
  obtain ⟨⟨found,m⟩,made,rest⟩ := Option.bind_eq_some_iff.mp call
  obtain ⟨free₁,⟨same,-⟩,-,succeeded⟩ := setupkvm_good owned.good valid owned.idle made
  cases found with
  | none => cases rest
  | some d =>
    cases rest
    obtain ⟨dead,good,-⟩ := succeeded d rfl
    have some_ : d ≠ 0 := by
      have alive : held m (g.add d) (.dir d) = some d := if_pos (update_self ..)
      have := (good.allocatable alive).1
      have := valid.first
      omega
    have kernel : root d s.proc none = some d := if_neg some_
    have none_ : root s.kpgdir s.proc none = none := if_pos first
    have procs : ∀ {o e}, o ≠ none →
        (root d s.proc o = some e ↔ root s.kpgdir s.proc o = some e) := by
      intro o e ne
      cases o with
      | none => exact absurd rfl ne
      | some p => rfl
    have other : ∀ {o e}, o ≠ none → root d s.proc o = some e → g.live e = true :=
      fun ne eq => (owned.live _).mpr ⟨_, (procs ne).mp eq⟩
    refine ⟨g.add d, free₁, good, ⟨owned.idle.spare, owned.idle.dead, owned.idle.deadTable⟩,
      owned.stack, owned.rest, fun e => ?_,
      fun o o' e at_ at' => ?_, fun p => (owned.sized p).congr fun e eq =>
        same e ((owned.live e).mpr ⟨some p, eq⟩)⟩
    · show update g.live d true e = true ↔ _
      by_cases mine : e = d
      · rw [mine, update_self]
        exact iff_of_true rfl ⟨none, kernel⟩
      · rw [update_of_ne mine, owned.live]
        constructor
        · rintro ⟨o,eq⟩
          have ne : o ≠ none := by
            rintro rfl
            rw [none_] at eq
            cases eq
          exact ⟨o, (procs ne).mpr eq⟩
        · rintro ⟨o,eq⟩
          have ne : o ≠ none := by
            rintro rfl
            exact mine (Option.some.inj (eq.symm.trans kernel))
          exact ⟨o, (procs ne).mp eq⟩
    · have clash : ∀ {o : Option (Fin n)}, o ≠ none → root d s.proc o = some d → False := by
        intro o ne eq
        have alive := other ne eq
        rw [dead] at alive
        cases alive
      by_cases mine : o = none <;> by_cases mine' : o' = none
      · rw [mine, mine']
      · rw [mine, kernel] at at_
        cases at_
        exact (clash mine' at').elim
      · rw [mine', kernel] at at'
        cases at'
        exact (clash mine at_).elim
      · exact owned.apart o o' e ((procs mine).mp at_) ((procs mine').mp at')

theorem userinit_owned (valid : l.Valid) (owned : Owned l s.mem s.kpgdir s.proc g free)
    (call : userinit l s = some s') :
    ∃ g' free', Owned l s'.mem s'.kpgdir s'.proc g' free' := by
  unfold userinit at call
  cases slot : allocproc s with
  | mk got s₁ =>
    rw [slot] at call
    cases got with
    | none => cases call
    | some q =>
      obtain ⟨unused,k,m,free₁,rfl,good,same⟩ := owned.allocproc_takes slot
      obtain ⟨⟨found,m₁⟩,made,rest⟩ := Option.bind_eq_some_iff.mp call
      obtain ⟨free₂,⟨same₂,-⟩,-,succeeded⟩ := setupkvm_good good valid (put_idle owned.idle) made
      cases found with
      | none => cases rest
      | some d =>
        obtain ⟨dead,good₂,empty,-⟩ := succeeded d rfl
        simp only at rest
        have loc : Untied (.spare 0) := trivial
        have hand : held m₁ ((g.put (some k) (.kstack q)).add d) (.spare 0) = none :=
          owned.idle.spare 0
        cases asked : kalloc m₁ with
        | mk page m₂ =>
          obtain ⟨words,more⟩ := kalloc_good good₂ loc hand asked
          rw [asked] at rest
          cases page with
          | none => cases rest
          | some x =>
            obtain ⟨free₃,-,good₃⟩ := more
            simp only at rest
            have here : held m₂ (((g.put (some k) (.kstack q)).add d).put (some x) (.spare 0))
                (.spare 0) = some x := by
              rw [held_put loc, if_pos rfl]
            have filled := fill_good good₃ loc here fun _ => 0
            have alive : (((g.put (some k) (.kstack q)).add d).put (some x) (.spare 0)).live d =
                true := update_self ..
            have copied : ∀ e, ((g.put (some k) (.kstack q)).add d).live e = true →
                Same m₁ (m₂.fill x fun _ => 0) e := fun e live =>
                  (same_of_word words e).trans
                    (same_of_held (g := ((g.put (some k) (.kstack q)).add d).put (some x)
                      (.spare 0))
                    (held_congr (good₃.loose_untied loc here) fun y ne => fill_other ne) live)
            have vacant : userAt (m₂.fill x fun _ => 0) d 0 = none :=
              ((copied d (update_self ..)).2 0).trans (empty 0)
            obtain ⟨ok,m₃,free₄,mapped,-,done⟩ := mappages_user (p := x) filled alive (by decide)
              (by simp [Hold.put]) (owned.idle.spare 1)
              (show 6 < 4096 by decide) vacant
            rw [mapped] at rest
            cases ok with
            | false => cases rest
            | true =>
              cases rest
              obtain ⟨good₄,keeps,-⟩ := done rfl
              rw [put_put, put_none loc hand] at good₄
              simp only [State.set, update_idem, update_self]
              have small : 4096 < 2147483648 := by decide
              refine ⟨_, free₄, owned.adopts (v := ⟨.used, k, d, 4096⟩) unused
                (fun eq => by cases eq) good₄ dead (fun e live => ?_)
                fun _ => ⟨small, fun b (out : pages 4096 ≤ b) => ?_⟩⟩
              · obtain ⟨live',ne⟩ := add_live (g := g.put (some k) (.kstack q)) dead live
                exact (((same e).trans (same₂ e live)).trans (copied e live')).trans
                  (keeps.others e live' ne)
              · have later : b ≠ 0 := by
                  simp only [pages] at out
                  omega
                exact (keeps.users later).trans (((copied d (update_self ..)).2 b).trans (empty b))

theorem lookup_eq {d a : Nat} : lookup m d a = userAt m d a := by
  unfold lookup userAt tableAt
  by_cases low : a < kernbase
  · have inside : a / 1024 < 1024 := by
      simp only [kernbase] at low
      omega
    rw [if_pos low, if_pos low]
    by_cases found : present (m.word d (a / 1024)) = true <;> simp [inside, found]
  · rw [if_neg low, if_neg low]

theorem step_owned {e : Event n} (valid : l.Valid) (owned : Owned l s.mem s.kpgdir s.proc g free)
    (taken : step l s e = some s') :
    ∃ g' free', Owned l s'.mem s'.kpgdir s'.proc g' free' := by
  cases e with
  | kvmalloc =>
    obtain ⟨first,call⟩ := Option.ite_none_right_eq_some.mp taken
    exact kvmalloc_owned valid owned first call
  | userinit => exact userinit_owned valid owned taken
  | fork p =>
    obtain ⟨used,call⟩ := Option.ite_none_right_eq_some.mp taken
    obtain ⟨g',free',owned',-⟩ := fork_owned valid owned used call
    exact ⟨g', free', owned'⟩
  | sbrk p by_ =>
    obtain ⟨⟨used,-⟩,call⟩ := Option.ite_none_right_eq_some.mp taken
    exact growproc_owned valid owned used call
  | exec p image =>
    obtain ⟨used,call⟩ := Option.ite_none_right_eq_some.mp taken
    obtain ⟨g',free',owned',-⟩ := exec_owned valid owned used call
    exact ⟨g', free', owned'⟩
  | exit p =>
    obtain ⟨used,call⟩ := Option.ite_none_right_eq_some.mp taken
    cases call
    have using_ : (s.proc p).phase ≠ .unused := by rw [used]; decide
    exact ⟨g, free, owned.keeps using_ (fun eq => by cases eq) rfl rfl owned.good
      (fun d _ _ => .refl _ d) fun _ => owned.sized p using_⟩
  | wait p =>
    obtain ⟨zombie,call⟩ := Option.ite_none_right_eq_some.mp taken
    exact wait_owned valid owned zombie call
  | fate denied =>
    cases taken
    have good : Good l { s.mem with denied := denied } g free :=
      ⟨owned.good.chain, owned.good.once, owned.good.exact⟩
    exact ⟨g, free, owned.still good fun d _ => .refl _ d⟩
  | write p a w =>
    obtain ⟨used,call⟩ := Option.ite_none_right_eq_some.mp taken
    obtain ⟨q,found,rfl⟩ := Option.map_eq_some_iff.mp call
    have alive := owned.root_live (q := p) (by rw [used]; decide)
    have here : held s.mem g (.user (s.proc p).pgdir a) = some q := by
      rw [held, if_pos alive, ← lookup_eq, found]
    have loose := owned.good.loose here (fun d eq => by cases eq) fun d i eq => by cases eq
    exact ⟨g, free, owned.still (fill_held owned.good here loose w) fun d live =>
      same_of_held (held_congr loose fun y ne => fill_other ne) live⟩
  | push p w =>
    obtain ⟨used,call⟩ := Option.ite_none_left_eq_some.mp taken
    cases call
    have loc : Untied (.kstack p) := trivial
    have here := owned.stack_held used
    exact ⟨g, free, owned.still (fill_good owned.good loc here w) fun d live =>
      same_of_held (held_congr (owned.good.loose_untied loc here) fun y ne => fill_other ne) live⟩

end Calls

section Runs

variable {s s' : State n}

structure Booted (l : Layout) (s : State n) : Prop where
  free : ∃ free, Chain s.mem free ∧ free.Nodup ∧ ∀ r, r ∈ free ↔ l.Allocatable r
  kernel : s.kpgdir = 0
  procs : ∀ p, (s.proc p).phase = .unused

theorem Booted.owned (boot : Booted l s) : ∃ g free, Owned l s.mem s.kpgdir s.proc g free := by
  obtain ⟨free,chain,once,all⟩ := boot.free
  have nobody : ∀ o, root s.kpgdir s.proc o = none := by
    intro o
    cases o with
    | none => exact if_pos boot.kernel
    | some p => exact if_pos (boot.procs p)
  have nothing : ∀ q, held s.mem ⟨fun _ => none, fun _ => false, fun _ => none, none,
      fun _ => none⟩ q = none := by
    intro q
    cases q <;> rfl
  refine ⟨⟨fun _ => none, fun _ => false, fun _ => none, none, fun _ => none⟩, free,
    ⟨chain, once, ?_⟩, ⟨fun _ => rfl, rfl, fun _ => rfl⟩,
    fun p => (if_pos (boot.procs p)).symm, fun _ _ => rfl, fun d => ?_, fun o o' d at_ => ?_,
      fun p used => absurd (boot.procs p) used⟩
  · refine ⟨fun r => ?_, fun q q' r at_ => ?_, fun q r at_ => ?_⟩
    · simp [all, nothing]
    · rw [nothing] at at_
      cases at_
    · rw [nothing] at at_
      cases at_
  · simp [nobody]
  · rw [nobody] at at_
    cases at_

theorem owned_run {es : List (Event n)} (valid : l.Valid) (boot : Booted l s)
    (run : RunLaws.exec (step l) s es = some s') :
    ∃ g free, Owned l s'.mem s'.kpgdir s'.proc g free :=
  exec_invariant (fun s : State n => ∃ g free, Owned l s.mem s.kpgdir s.proc g free)
    (fun _ _ _ ⟨_,_,owned⟩ _ taken => step_owned valid owned taken) boot.owned
      (along_trivial s es) run

def Restores (free : List Nat) (m : Mem) : Prop := ∃ free', Chain m free' ∧ free'.Nodup ∧
    ∀ r, r ∈ free' ↔ r ∈ free

theorem Good.restores (good : Good l m g free) (good' : Good l m' g free')
    (same : ∀ d, g.live d = true → Same m m' d) :
    Restores free m' :=
  ⟨free', good'.chain, good'.once, good.free_same good' same⟩

theorem held_within {d : Nat} (within : Within g d m m') (users : ∀ b, userAt m' d b = userAt m d b)
    (q : Place) :
    held m' g q = held m g q ∨ ∃ i, q = .table d i := by
  cases q with
  | table e i =>
    by_cases mine : e = d
    · exact .inr ⟨i, congrArg (Place.table · i) mine⟩
    · refine .inl ?_
      simp only [held]
      split
      · next live => exact (within.others e live mine).1 i
      · rfl
  | user e a =>
    refine .inl ?_
    simp only [held]
    split
    · next live =>
      by_cases mine : e = d
      · rw [mine, users a]
      · exact (within.others e live mine).2 a
    · rfl
  | _ => exact .inl rfl

/-- A failed allocuvm may have made tables: they are the only pages that are no longer free. -/
theorem allocuvm_fails {d oldsz newsz : Nat} (good : Good l m g free) (valid : l.Valid)
    (idle : Idle g) (alive : g.live d = true)
    (above : ∀ b, pages oldsz ≤ b → userAt m d b = none)
    (call : allocuvm l d oldsz newsz m = some (0, m')) :
    ∃ free', Chain m' free' ∧ free'.Nodup ∧
      ∀ r, r ∈ free ↔ r ∈ free' ∨ ∃ i, tableAt m d i = none ∧ tableAt m' d i = some r := by
  obtain ⟨free',good',within,zero,-,-⟩ :=
    allocuvm_good good valid.first alive (idle.spare 0) (idle.spare 1) above call
  have users := zero rfl
  have kept : ∀ q r, held m g q = some r → held m' g q = some r := by
    intro q r at_
    cases held_within within users q with
    | inl same => exact same.trans at_
    | inr mine =>
      obtain ⟨i,rfl⟩ := mine
      simp only [held, alive, if_true] at at_ ⊢
      exact within.tables i r at_
  have added : ∀ q r, held m' g q = some r → held m g q = some r ∨ ∃ i, q = .table d i ∧
      tableAt m d i = none := by
    intro q r at_
    cases held_within within users q with
    | inl same => exact .inl (same.symm.trans at_)
    | inr mine =>
      obtain ⟨i,rfl⟩ := mine
      simp only [held, alive, if_true] at at_ ⊢
      cases before : tableAt m d i with
      | none => exact .inr ⟨i, rfl, before⟩
      | some t => exact .inl ((within.tables i t before).symm.trans at_)
  refine ⟨free', good'.chain, good'.once, fun r => ?_⟩
  rw [good.mem_free, good'.mem_free]
  constructor
  · rintro ⟨inside,nowhere⟩
    by_cases anywhere : ∃ q, held m' g q = some r
    · obtain ⟨q,at_⟩ := anywhere
      cases added q r at_ with
      | inl before => exact absurd before (nowhere q)
      | inr new =>
        obtain ⟨i,rfl,none_⟩ := new
        rw [held, if_pos alive] at at_
        exact .inr ⟨i, none_, at_⟩
    · exact .inl ⟨inside, fun q at_ => anywhere ⟨q, at_⟩⟩
  · rintro (⟨inside,nowhere⟩ | ⟨i,none_,new⟩)
    · exact ⟨inside, fun q at_ => nowhere q (kept q r at_)⟩
    · have at_ : held m' g (.table d i) = some r := (if_pos alive).trans new
      refine ⟨good'.allocatable at_, fun q before => ?_⟩
      rw [good'.once_at (kept q r before) at_, held, if_pos alive, none_] at before
      cases before

/-- In every state reached every page has one place, and the failures give back what they took. -/
theorem pages_in_one_place {es : List (Event n)} (valid : l.Valid) (boot : Booted l s)
    (run : RunLaws.exec (step l) s es = some s') :
    ∃ free, Chain s'.mem free ∧ free.Nodup ∧ (∀ r ∈ free, l.Allocatable r) ∧
      (∀ u r, uses s' u = some r → l.Allocatable r) ∧
      (∀ r, l.Allocatable r → (r ∈ free ∧ ∀ u, uses s' u ≠ some r) ∨
        (r ∉ free ∧ ∃! u, uses s' u = some r)) ∧
      (∀ m, setupkvm l s'.mem = some (none, m) → Restores free m) ∧
      (∀ p m, (s'.proc p).phase = .used →
        copyuvm l (s'.proc p).pgdir (s'.proc p).sz s'.mem = some (none, m) → Restores free m) ∧
      (∀ p m newsz, (s'.proc p).phase = .used →
        allocuvm l (s'.proc p).pgdir (s'.proc p).sz newsz s'.mem = some (0, m) →
        ∃ free', Chain m free' ∧ free'.Nodup ∧
          ∀ r, r ∈ free ↔ r ∈ free' ∨ ∃ i, tableAt s'.mem (s'.proc p).pgdir i = none ∧
            tableAt m (s'.proc p).pgdir i = some r) ∧
      (∀ p s'', step l s' (.fork p) = some s'' → s''.ok = false → Restores free s''.mem) ∧
      (∀ p image s'', step l s' (.exec p image) = some s'' → s''.ok = false →
        Restores free s''.mem) := by
  obtain ⟨g,free,owned⟩ := owned_run valid boot run
  have exact := owned.exact_uses
  refine ⟨free, owned.good.chain, owned.good.once, fun r => owned.good.free_allocatable,
    fun u r at_ => not_not.mp (exact.open_ u r at_),
    fun r inside => ?_, fun m call => ?_, fun p m used call => ?_, fun p m newsz used call => ?_,
      fun p s'' taken failed => ?_,
    fun p image s'' taken failed => ?_⟩
  · by_cases mem : r ∈ free
    · exact .inl ⟨mem, fun u at_ => exact_used exact at_ mem⟩
    · obtain outside | ⟨u,at_⟩ := (exact.used_iff r).mp mem
      · exact absurd inside outside
      · exact .inr ⟨mem, u, at_, fun u' at' => exact.once u' u r at' at_⟩
  · obtain ⟨free₁,⟨same,-⟩,failed,-⟩ := setupkvm_good owned.good valid owned.idle call
    exact owned.good.restores (failed rfl) same
  · have low := (owned.sized p (by rw [used]; decide)).1
    obtain ⟨free₁,same,failed,-⟩ := copyuvm_good owned.good valid owned.idle (Nat.le_of_lt low) call
    exact owned.good.restores (failed rfl) same
  · have using_ : (s'.proc p).phase ≠ .unused := by rw [used]; decide
    exact allocuvm_fails owned.good valid owned.idle (owned.root_live using_)
      (owned.sized p using_).2 call
  · obtain ⟨used,call⟩ := Option.ite_none_right_eq_some.mp taken
    obtain ⟨g₁,free₁,owned₁,same⟩ := fork_owned valid owned used call
    exact ⟨free₁, owned₁.good.chain, owned₁.good.once, same failed⟩
  · obtain ⟨used,call⟩ := Option.ite_none_right_eq_some.mp taken
    obtain ⟨g₁,free₁,owned₁,same⟩ := exec_owned valid owned used call
    exact ⟨free₁, owned₁.good.chain, owned₁.good.once, same failed⟩

def small : Layout := ⟨1, 40, [⟨524288, 1, 0, 2⟩]⟩

def smallStart : State 2 :=
  ⟨⟨fun p i => if i = 0 then p - 1 else 0, 39, []⟩, 0, fun _ => ⟨.unused, 0, 0, 0⟩, true⟩

theorem small_valid : small.Valid := by
  refine ⟨by decide, ?_⟩
  simp only [small, List.forall_mem_cons, kernbase]
  exact ⟨⟨by omega, by omega⟩, by simp⟩

theorem small_booted : Booted small smallStart := by
  refine ⟨⟨((List.range' 1 39).reverse), ?_, by decide, fun r => ?_⟩, rfl, fun _ => rfl⟩
  · simp [Chain, Linked, smallStart, link, List.range']
  · simp [Layout.Allocatable, small]

theorem pages_in_one_place_forked : ∃ s', RunLaws.exec (step small) smallStart
      [.kvmalloc, .userinit, .fork ⟨0, by decide⟩, .sbrk ⟨0, by decide⟩ 8192, .exit ⟨1, by decide⟩,
        .wait ⟨1, by decide⟩, .fate [false, true],
        .fork ⟨0, by decide⟩] = some s' ∧ s'.ok = false ∧
      ∃ free, Chain s'.mem free ∧ free.Nodup ∧
        ∀ r, small.Allocatable r → (r ∈ free ∧ ∀ u, uses s' u ≠ some r) ∨
          (r ∉ free ∧ ∃! u, uses s' u = some r) := by
  have ends : (RunLaws.exec (step small) smallStart
      [.kvmalloc, .userinit, .fork ⟨0, by decide⟩, .sbrk ⟨0, by decide⟩ 8192, .exit ⟨1, by decide⟩,
        .wait ⟨1, by decide⟩, .fate [false, true],
        .fork ⟨0, by decide⟩]).map (fun s => s.ok) = some false := by decide +kernel
  obtain ⟨s',run,failed⟩ := Option.map_eq_some_iff.mp ends
  obtain ⟨free,chain,once,-,-,one,-⟩ := pages_in_one_place small_valid small_booted run
  exact ⟨s', run, failed, free, chain, once, one⟩

end Runs

end PhysicalPages
