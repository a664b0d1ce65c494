import Xv6.Vm.Grow

/- fork's copy of an address space: page for page the same, and nothing one of the two processes
   writes is ever seen by the other. -/
namespace PhysicalPages

variable {l : Layout} {m m' : Mem} {g : Hold} {free : List Nat} {d e src sz : Nat}

def view (m : Mem) (d b : Nat) : Option (Nat → Nat) := (userAt m d b).map m.word

def write (d : Nat) (m : Mem) (w : Nat × (Nat → Nat)) : Mem :=
  match lookup m d w.1 with
  | some x => m.fill x w.2
  | none => m

section Writes

theorem write_good (good : Good l m g free) (alive : g.live d = true) (w : Nat × (Nat → Nat)) :
    Good l (write d m w) g free := by
  unfold write
  rw [lookup_eq]
  cases found : userAt m d w.1 with
  | none => exact good
  | some x =>
    have here : held m g (.user d w.1) = some x := by simp [held, alive, found]
    exact fill_held good here (good.loose_user here) w.2

theorem write_unseen (good : Good l m g free) (alive : g.live d = true) (live : g.live e = true)
    (other : e ≠ d)
    (w : Nat × (Nat → Nat)) (b : Nat) : view (write d m w) e b = view m e b := by
  unfold write
  rw [lookup_eq]
  cases found : userAt m d w.1 with
  | none => rfl
  | some x =>
    have here : held m g (.user d w.1) = some x := by simp [held, alive, found]
    have keeps : Keeps g d {w.1} m (m.fill x w.2) :=
      keeps_user good alive here rfl fun z ne => fill_other ne
    rw [view, view, (keeps.others e live other).2 b]
    cases page : userAt m e b with
    | none => rfl
    | some y =>
      have same := keeps.words (.user e b) y (fun own => other own.1) (by simp [held, live, page])
      rw [Option.map_some, Option.map_some, same]

theorem writes_unseen (good : Good l m g free) (alive : g.live d = true) (live : g.live e = true)
    (other : e ≠ d)
    (ws : List (Nat × (Nat → Nat))) (b : Nat) : view (ws.foldl (write d) m) e b = view m e b := by
  induction ws generalizing m with
  | nil => rfl
  | cons w ws ih =>
    exact (ih (write_good good alive w)).trans (write_unseen good alive live other w b)

end Writes

/-- The directory `d` is a copy of `src` that shares nothing with any directory there was. -/
structure PrivateCopy (l : Layout) (g : Hold) (m m' : Mem) (src d : Nat) : Prop where
  new : g.live d = false
  pages : ∀ b, (userAt m' d b).isSome = (userAt m src b).isSome
  flags : ∀ b, (userAt m src b).isSome = true → pteAt m' d b % 4096 = pteAt m src b % 4096
  bytes : ∀ b, view m' d b = view m src b
  -- no page of the copy is at another place, in this directory or in any other
  apart : ∀ b x q, userAt m' d b = some x → held m' (g.add d) q = some x → q = .user d b
  kernel : Maps m' d l.kmap
  rest : ∀ b, kernbase ≤ b → b ∉ spanned l.kmap → pteAt m' d b = 0
  -- the directories there were, their tables and all pages in use are as before
  entries : ∀ e, g.live e = true → ∀ b, pteAt m' e b = pteAt m e b
  words : ∀ q x, held m g q = some x → m'.word x = m.word x

theorem copyuvm_private (valid : l.Valid) (good : Good l m g free) (idle : Idle g)
    (live : g.live src = true)
    (low : sz ≤ 2147483648) (spans : Spans m src sz)
    (call : copyuvm l src sz m = some (some d, m')) :
    PrivateCopy l g m m' src d ∧ ∀ e, g.live e = true → ∀ (ws : List (Nat × (Nat → Nat))) b,
      view (ws.foldl (write d) m') e b = view m' e b ∧
        view (ws.foldl (write e) m') d b = view m' d b := by
  obtain ⟨free',-,-,succeeded⟩ := copyuvm_good good valid idle low call
  obtain ⟨dead,good',empty,clone⟩ := succeeded d rfl
  have alive : (g.add d).live d = true := Function.update_self ..
  have bound : pages sz ≤ kernbase := by
    simp only [pages, kernbase]
    omega
  have copies := clone.copies live
  refine ⟨⟨dead, fun b => ?_, fun b there => ?_, fun b => ?_, fun b x q here there => ?_,
    clone.kernel,
    fun b high => clone.rest b (by omega), fun e live' b => ?_, clone.words⟩,
      fun e live' ws b => ?_⟩
  · by_cases inside : b < pages sz
    · obtain ⟨x,y,old,new,-⟩ := copies b inside
      rw [old, new]
      rfl
    · rw [empty b (by omega), spans.above b (by omega)]
  · obtain ⟨-,-,-,-,-,flags⟩ := copies b ((spans b).mp there)
    exact flags
  · by_cases inside : b < pages sz
    · obtain ⟨x,y,old,new,same,-⟩ := copies b inside
      rw [view, view, old, new, Option.map_some, Option.map_some, same]
    · rw [view, view, empty b (by omega), spans.above b (by omega)]
      rfl
  · exact good'.once_at there (by simp [held, alive, here])
  · refine pteAt_congr (clone.words (.dir e) e (by simp [held, live'])) fun t found => ?_
    rw [clone.words (.table e (b / 1024)) t (by simp [held, live', found])]
  · obtain ⟨live'',ne⟩ := add_live dead live'
    exact ⟨writes_unseen good' alive live'' ne ws b, writes_unseen good' live'' alive ne.symm ws b⟩

theorem copyuvm_private_first : ∃ s d m',
    RunLaws.exec (step small) smallStart (firstProcess ++ [.sbrk initSlot 4096]) = some s ∧
    copyuvm small (s.proc initSlot).pgdir (s.proc initSlot).sz s.mem = some (some d, m') ∧
    ∃ g, PrivateCopy small g s.mem m' (s.proc initSlot).pgdir d := by
  have ends : (RunLaws.exec (step small) smallStart (firstProcess ++ [.sbrk initSlot 4096])).map
    (fun s =>
      ((s.proc initSlot).phase, (copyuvm small (s.proc initSlot).pgdir
        (s.proc initSlot).sz s.mem).map (fun r => r.1.isSome),
        (List.range (pages (s.proc initSlot).sz)).all fun b =>
          (userAt s.mem (s.proc initSlot).pgdir b).isSome)) =
        some (.used, some true, true) := by decide +kernel
  obtain ⟨s,run,seen⟩ := Option.map_eq_some_iff.mp ends
  simp only [Prod.mk.injEq] at seen
  obtain ⟨used,copied,there⟩ := seen
  obtain ⟨⟨found,m'⟩,call,made⟩ := Option.map_eq_some_iff.mp copied
  obtain ⟨d,rfl⟩ := Option.isSome_iff_exists.mp made
  obtain ⟨g,free,owned⟩ := owned_run small_valid small_booted run
  have using_ : (s.proc initSlot).phase ≠ .unused := by rw [used]; decide
  have low := (owned.sized _ using_).1
  exact ⟨s, d, m', run, call, g,
    (copyuvm_private small_valid owned.good owned.idle (owned.root_live using_) (Nat.le_of_lt low)
    (owned.spans using_ there) call).1⟩

end PhysicalPages
