import Mathlib.Logic.Function.Iterate
import Xv6.Vm.Owned

/- deallocuvm once more, on addresses: the loop variable is a 32-bit address, and where there is
   no table it is put one page before the end of the region so that the increment takes it there. -/
namespace PhysicalPages

def pdx (va : BitVec 32) : BitVec 32 := (va >>> 22) &&& 1023#32
def ptx (va : BitVec 32) : BitVec 32 := (va >>> 12) &&& 1023#32
def pgaddr (d t o : BitVec 32) : BitVec 32 := d <<< 22 ||| t <<< 12 ||| o
inductive Dealloc where
  | at (a : BitVec 32) (m : Mem)
  | done (m : Mem)
  | panic

/-- One turn: the test, the body and the increment. -/
def turn (l : Layout) (d : Nat) (oldsz : BitVec 32) : Dealloc → Dealloc
  | .at a m =>
    if a < oldsz then
      let pde := m.word d (pdx a).toNat
      if present pde then
        let pte := m.word (frame pde) (ptx a).toNat
        if present pte then
          if frame pte = 0 then .panic
          else ((kfree l (frame pte) m).map fun m =>
            .at (a + 4096#32) (m.set (frame pde) (ptx a).toNat 0)).getD .panic
        else .at (a + 4096#32) m
      else .at (pgaddr (pdx a + 1#32) 0#32 0#32 - 4096#32 + 4096#32) m
    else .done m
  | .done m => .done m
  | .panic => .panic

/-- What the loop does at one page. -/
def visit (l : Layout) (d a : Nat) (m : Mem) : Option Mem :=
  let pde := m.word d (a / 1024)
  if present pde then
    let pte := m.word (frame pde) (a % 1024)
    if present pte then
      if frame pte = 0 then none
      else (kfree l (frame pte) m).map fun m => m.set (frame pde) (a % 1024) 0
    else some m
  else some m

def Dealloc.result : Option Mem → Dealloc
  | some m => .done m
  | none => .panic

variable {l : Layout} {d : Nat} {m m' : Mem} {a oldsz newsz : BitVec 32}

section Turns
variable {x n : Nat}

end Turns

section Exact
variable {x y n t i : Nat}

def place (m : Mem) (d x : Nat) : Option (Nat × Nat) :=
  (tableAt m d (x / 1024)).bind fun t => if present (m.word t (x % 1024)) then some (t, x % 1024)
    else none

def mappings (m : Mem) (d n x : Nat) : List (Nat × Nat) := (List.range' x n).filterMap (place m d)

def frames (m : Mem) (d n x : Nat) : List Nat :=
  (mappings m d n x).map fun e => frame (m.word e.1 e.2)

def clear : List (Nat × Nat) → Mem → Mem
  | [], m => m
  | e :: es, m => clear es (m.set e.1 e.2 0)

/-- The tables of the directory are pages of their own, and no page mapped in the range is one of
    them or the directory. -/
structure Proper (m : Mem) (d n x : Nat) : Prop where
  tables : ∀ i j t, tableAt m d i = some t → tableAt m d j = some t → i = j
  self : ∀ i, tableAt m d i ≠ some d
  apart : ∀ y t i, x ≤ y → y < x + n → place m d y = some (t, i) →
    frame (m.word t i) ≠ d ∧ ∀ j, tableAt m d j ≠ some (frame (m.word t i))

theorem place_some (here : place m d x = some (t, i)) :
    tableAt m d (x / 1024) = some t ∧ i = x % 1024 ∧ present (m.word t i) = true := by
  obtain ⟨t',found,entry⟩ := Option.bind_eq_some_iff.mp here
  split at entry
  · next there =>
    cases entry
    exact ⟨found, rfl, there⟩
  · cases entry

theorem place_after {m₁ : Mem} (proper : Proper m d (n + 1) x) (here : place m d x = some (t, i))
    (freed : kfree l (frame (m.word t i)) m = some m₁) :
    (∀ j, tableAt (m₁.set t i 0) d j = tableAt m d j) ∧
    ∀ y, x + 1 ≤ y → y < x + 1 + n → place (m₁.set t i 0) d y = place m d y ∧
      ∀ e, place m d y = some e → (m₁.set t i 0).word e.1 e.2 = m.word e.1 e.2 := by
  obtain ⟨found,rfl,entry⟩ := place_some here
  obtain ⟨notd,nottable⟩ := proper.apart x t _ (by omega) (by omega) here
  have other : d ≠ t := by
    rintro rfl
    exact proper.self _ found
  have dir : (m₁.set t (x % 1024) 0).word d = m.word d :=
    (set_other other).trans (kfree_word freed notd.symm)
  have tables : ∀ j, tableAt (m₁.set t (x % 1024) 0) d j = tableAt m d j :=
    fun j => tableAt_congr dir
  -- the entry of another page stands in another table, or at another index of this one
  have words : ∀ y u, x + 1 ≤ y → tableAt m d (y / 1024) = some u →
      (m₁.set t (x % 1024) 0).word u (y % 1024) = m.word u (y % 1024) := by
    intro y u later table
    have unfreed : u ≠ frame (m.word t (x % 1024)) := by
      rintro rfl
      exact nottable _ table
    have kept := kfree_word freed unfreed
    by_cases same : u = t
    · subst same
      have region := proper.tables _ _ _ found table
      rw [set_word, if_neg (by omega), kept]
    · rw [set_other same, kept]
  refine ⟨tables, fun y later below => ⟨?_, fun e there => ?_⟩⟩
  · unfold place
    rw [tables]
    cases table : tableAt m d (y / 1024) with
    | none => rfl
    | some u => rw [Option.bind_some, Option.bind_some, words y u later table]
  · obtain ⟨u,j⟩ := e
    obtain ⟨table,rfl,-⟩ := place_some there
    exact words y u later table

theorem Proper.after {m₁ : Mem} (proper : Proper m d (n + 1) x) (here : place m d x = some (t, i))
    (freed : kfree l (frame (m.word t i)) m = some m₁) : Proper (m₁.set t i 0) d n (x + 1) := by
  obtain ⟨tables,places⟩ := place_after proper here freed
  refine ⟨fun j k u => ?_, fun j => ?_, fun y u j later below there => ?_⟩
  · rw [tables, tables]
    exact proper.tables j k u
  · rw [tables]
    exact proper.self j
  · obtain ⟨same,word⟩ := places y later below
    rw [same] at there
    simp only [word _ there, tables]
    exact proper.apart y u j (by omega) (by omega) there

theorem Proper.tail (proper : Proper m d (n + 1) x) : Proper m d n (x + 1) :=
  ⟨proper.tables, proper.self, fun y t i later below => proper.apart y t i (by omega) (by omega)⟩

end Exact

end PhysicalPages
