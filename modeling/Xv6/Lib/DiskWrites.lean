import Mathlib.Data.List.Basic
import Mathlib.Data.List.Nodup
import Mathlib.Logic.Function.Basic

/- Sequences of synchronous block writes through a write-through cache. The data of a write
   is computed from what the cache returns when the write is issued; a crash keeps the disk
   as the writes issued so far left it. Addresses and block contents are arbitrary. -/
namespace DiskWrites

structure Store (Addr B : Type) where
  disk : Addr → B
  cache : Addr → B

structure Write (Addr B : Type) where
  target : Addr
  data : (Addr → B) → B

variable {Addr B : Type} [DecidableEq Addr]

def issue (s : Store Addr B) (w : Write Addr B) : Store Addr B :=
  ⟨Function.update s.disk w.target (w.data s.cache),
    Function.update s.cache w.target (w.data s.cache)⟩

def run (s : Store Addr B) (ws : List (Write Addr B)) : Store Addr B := ws.foldl issue s

def reboot (d : Addr → B) : Store Addr B := ⟨d, d⟩

variable {s : Store Addr B} {ws : List (Write Addr B)} {a : Addr}

theorem run_append (s : Store Addr B) (ws vs : List (Write Addr B)) :
    run s (ws ++ vs) = run (run s ws) vs := List.foldl_append

theorem run_other (untouched : ∀ w ∈ ws, w.target ≠ a) :
    (run s ws).disk a = s.disk a ∧ (run s ws).cache a = s.cache a := by
  induction ws generalizing s with
  | nil => exact ⟨rfl,rfl⟩
  | cons w ws ih =>
    have first : a ≠ w.target := (untouched w List.mem_cons_self).symm
    have rest := ih (s := issue s w) fun v mem => untouched v (List.mem_cons_of_mem w mem)
    simpa [run, issue, first] using rest

/-- Writes to different blocks whose data come from none of these blocks leave what issuing
    them all at once would leave. -/
theorem run_independent (distinct : (ws.map Write.target).Nodup)
    (stable : ∀ w ∈ ws, ∀ c c' : Addr → B,
      (∀ x, x ∉ ws.map Write.target → c x = c' x) → w.data c = w.data c')
    {w : Write Addr B} (mem : w ∈ ws) :
    (run s ws).disk w.target = w.data s.cache ∧ (run s ws).cache w.target = w.data s.cache := by
  induction ws generalizing s with
  | nil => cases mem
  | cons v ws ih =>
    rw [List.map_cons, List.nodup_cons] at distinct
    rcases List.mem_cons.mp mem with rfl | later
    · have rest := run_other (s := issue s w) (a := w.target)
        fun u (inside : u ∈ ws) same => distinct.1 (same ▸ List.mem_map_of_mem inside)
      simpa [run, issue] using rest
    · have same : w.data (issue s v).cache = w.data s.cache := by
        refine stable w mem _ _ fun x outside => ?_
        have other : x ≠ v.target := fun eq => outside (by simp [eq])
        simp [issue, other]
      rw [← same]
      refine ih distinct.2 (fun u inside c c' agree => ?_) later
      refine stable u (List.mem_cons_of_mem v inside) c c' fun x outside => agree x ?_
      exact fun among => outside (by simp [among])

end DiskWrites
