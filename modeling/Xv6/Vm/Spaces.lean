import Xv6.Vm.Footprint

/- What the functions of vm.c do to one address space: the others stay as they are, and no page
   is lost or used twice, also where memory runs out half way. -/
namespace PhysicalPages
open LinkedQueue Ownership

variable {l : Layout} {m m' m'' : Mem} {g : Hold} {free : List Nat} {p r d i k a n : Nat}

section Tables

theorem walk_good (good : Good l m g free) (alive : g.live d = true) (inside : a / 1024 < 1024)
    (hand : g.spare 1 = none)
    {found : Option Nat} (call : walkpgdir d a true m = (found, m')) :
    ∃ free', Good l m' g free' ∧ Keeps g d ∅ m m' ∧
      (∀ x, g.spare 0 = some x → m'.word x = m.word x) ∧
      ∀ t, found = some t → tableAt m' d (a / 1024) = some t := by
  unfold walkpgdir at call
  by_cases there : present (m.word d (a / 1024)) = true
  · simp only [there, if_true] at call
    cases call
    refine ⟨free, good, .refl _ _ _ _, fun _ _ => rfl, fun t eq => ?_⟩
    rw [tableAt_eq inside, if_pos there, eq]
  · simp only [if_neg there, Bool.not_true, Bool.false_eq_true, if_false] at call
    have empty : held m g (.spare 1) = none := hand
    have loc : Untied (.spare 1) := trivial
    cases asked : kalloc m with
    | mk got m₁ =>
      obtain ⟨words,rest⟩ := kalloc_good good loc empty asked
      rw [asked] at call
      cases got with
      | none =>
        cases call
        exact ⟨free, rest, keeps_of_word words, fun x _ => by rw [words], fun t eq => by cases eq⟩
      | some t =>
        cases call
        obtain ⟨free',rfl,taken⟩ := rest
        have here : held m₁ (g.put (some t) (.spare 1)) (.spare 1) = some t := by
          rw [held_put loc, if_pos rfl]
        have alive' : (g.put (some t) (.spare 1)).live d = true := by rw [put_live]; exact alive
        have filled := fill_good taken loc here fun _ => 0
        have apart : d ≠ t := by
          rintro rfl
          have dead := (taken.loose_untied loc here).1
          rw [alive'] at dead
          cases dead
        have entry_ : present ((m₁.fill t fun _ => 0).word d (a / 1024)) = false := by
          simp only [Mem.fill, Function.update_of_ne apart, words]
          exact Bool.eq_false_iff.mpr there
        have zero : (m₁.fill t fun _ => 0).word t = fun _ => 0 := Function.update_self ..
        have linked := (install_good filled loc here alive' inside entry_ zero).1
        rw [put_put, put_none loc empty] at linked
        have blank : Keeps g d ∅ m₁ (m₁.fill t fun _ => 0) :=
          (keeps_spare taken alive' here fun z ne => fill_other ne).unput
        have last := (keeps_install (R := ∅) filled loc here alive' inside entry_ zero).unput
        refine ⟨free', linked, ((keeps_of_word words).trans blank).trans last, fun x mine => ?_,
          fun t' eq => ?_⟩
        · have spare : held m₁ (g.put (some t) (.spare 1)) (.spare 0) = some x := by
            simpa [held, Hold.put] using mine
          have table : x ≠ t := by
            rintro rfl
            have clash := taken.once_at here spare
            cases clash
          have dir : x ≠ d := by
            rintro rfl
            have clash := taken.once_at spare
              (show held m₁ (g.put (some t) (.spare 1)) (.dir x) = some x by simp [held, alive'])
            cases clash
          rw [set_other dir, fill_other table, words]
        · cases eq
          simp [tableAt, set_word, inside, present_entry, frame_entry]

theorem mappages_kernel {perm : Nat} (good : Good l m g free) (alive : g.live d = true)
    (high : kernbase ≤ a)
    (top : a + n ≤ 2 * kernbase) (hand : g.spare 1 = none) {ok : Bool}
    (call : mappages d perm n a p m = some (ok, m')) :
    ∃ free', Good l m' g free' ∧ Keeps g d (Set.Ico a (a + n)) m m' ∧
      (ok = true → ∀ b, a ≤ b → b < a + n → present (pteAt m d b) = false ∧
        pteAt m' d b = entry (p + (b - a)) perm) := by
  induction n generalizing a p m free with
  | zero =>
    cases call
    exact ⟨free, good, .refl _ _ _ _, fun _ b from_ below => absurd below (by omega)⟩
  | succ n ih =>
    have inside : a / 1024 < 1024 := by
      simp only [kernbase] at top
      omega
    have row : 512 ≤ a / 1024 := by
      simp only [kernbase] at high
      omega
    rw [mappages] at call
    cases walked : walkpgdir d a true m with
    | mk found m₁ =>
      obtain ⟨free₁,good₁,keeps,-,table⟩ := walk_good good alive inside hand walked
      rw [walked] at call
      cases found with
      | none =>
        cases call
        exact ⟨free₁, good₁, keeps.mono (Set.empty_subset _), fun eq => by cases eq⟩
      | some t =>
        simp only at call
        split at call
        · cases call
        · next empty =>
          have found := table t rfl
          have good₂ := set_kernel_good (j := a % 1024) (w := entry p perm) good₁ alive found row
          have keeps₂ : Keeps g d {a} m₁ (m₁.set t (a % 1024) (entry p perm)) :=
            keeps_set good₁.exact.once alive found fun b r c => by
              show b = a
              omega
          have value := pteAt_set (j := a % 1024) (w := entry p perm) (good₁.sole alive found)
          obtain ⟨free₃,good₃,keeps₃,mapped⟩ := ih good₂ (by omega) (by omega) call
          have first : Keeps g d (Set.Ico a (a + (n + 1))) m (m₁.set t (a % 1024) (entry p perm)) :=
            (keeps.mono (Set.empty_subset _)).trans (keeps₂.mono fun b eq =>
              ⟨by rw [eq], by rw [eq]; omega⟩)
          refine ⟨free₃, good₃, first.trans (keeps₃.mono fun b mem =>
            ⟨by have := mem.1; omega, by have := mem.2; omega⟩),
            fun eq b from_ below => ?_⟩
          have old : pteAt m₁ d b = pteAt m d b := keeps.entries b (Set.notMem_empty b)
          by_cases here : b = a
          · subst here
            rw [keeps₃.entries b fun mem => absurd mem.1 (by omega), value, if_pos ⟨rfl, rfl⟩,
              ← old, pteAt_some found]
            exact ⟨Bool.eq_false_iff.mpr empty, by rw [Nat.sub_self, Nat.add_zero]⟩
          · obtain ⟨free_,set_⟩ := mapped eq b (by omega) (by omega)
            rw [value, if_neg (by omega), old] at free_
            refine ⟨free_, set_.trans ?_⟩
            congr 1
            omega

theorem mappages_kernel_total (perm p : Nat) (good : Good l m g free) (alive : g.live d = true)
    (high : kernbase ≤ a)
    (top : a + n ≤ 2 * kernbase) (hand : g.spare 1 = none)
    (vacant : ∀ b, a ≤ b → b < a + n → present (pteAt m d b) = false) :
    ∃ ok m', mappages d perm n a p m = some (ok, m') := by
  induction n generalizing a p m free with
  | zero => exact ⟨true, m, rfl⟩
  | succ n ih =>
    have inside : a / 1024 < 1024 := by
      simp only [kernbase] at top
      omega
    have row : 512 ≤ a / 1024 := by
      simp only [kernbase] at high
      omega
    rw [mappages]
    cases walked : walkpgdir d a true m with
    | mk found m₁ =>
      obtain ⟨free₁,good₁,keeps,-,table⟩ := walk_good good alive inside hand walked
      cases found with
      | none => exact ⟨false, m₁, rfl⟩
      | some t =>
        have found := table t rfl
        have old : ∀ b, pteAt m₁ d b = pteAt m d b := fun b => keeps.entries b (Set.notMem_empty b)
        have empty : present (m₁.word t (a % 1024)) = false := by
          rw [← pteAt_some found, old]
          exact vacant a (Nat.le_refl a) (by omega)
        simp only [empty, Bool.false_eq_true, if_false]
        refine ih _ (set_kernel_good good₁ alive found row) (by omega) (by omega)
          fun b from_ below => ?_
        rw [pteAt_set (good₁.sole alive found), if_neg (by omega), old]
        exact vacant b (by omega) (by omega)

theorem mappages_user {perm : Nat} (good : Good l m g free) (alive : g.live d = true)
    (low : a < kernbase)
    (here : g.spare 0 = some p) (hand : g.spare 1 = none) (small : perm < 4096)
    (empty : userAt m d a = none) :
    ∃ ok m' free', mappages d perm 1 a p m = some (ok, m') ∧
      (ok = false → Good l m' g free' ∧ Keeps g d ∅ m m') ∧
      (ok = true → Good l m' (g.put none (.spare 0)) free' ∧ Keeps g d {a} m m' ∧
        pteAt m' d a = entry p perm ∧
        m'.word p = m.word p) := by
  have inside : a / 1024 < 1024 := by
    simp only [kernbase] at low
    omega
  simp only [mappages]
  cases walked : walkpgdir d a true m with
  | mk found m₁ =>
    obtain ⟨free₁,good₁,keeps,content,table⟩ := walk_good good alive inside hand walked
    cases found with
    | none => exact ⟨false, m₁, free₁, rfl, fun _ => ⟨good₁, keeps⟩, fun eq => by cases eq⟩
    | some t =>
      have found := table t rfl
      have vacant : present (m₁.word t (a % 1024)) = false := by
        have users := keeps.users (Set.notMem_empty a)
        rw [empty, userAt_eq low found] at users
        split at users
        · cases users
        · next not => exact Bool.eq_false_iff.mpr not
      have mine : held m₁ g (.spare 0) = some p := here
      have good₂ := map_good good₁ (q := .spare 0) trivial mine alive low found vacant small
      have keeps₂ : Keeps g d {a} m₁ (m₁.set t (a % 1024) (entry p perm)) :=
        keeps_set good₁.exact.once alive found fun b r c => by
          show b = a
          omega
      refine ⟨true, m₁.set t (a % 1024) (entry p perm), free₁, ?_, fun eq => (by cases eq), fun _ =>
        ⟨good₂, (keeps.mono (Set.empty_subset _)).trans keeps₂, ?_, ?_⟩⟩
      · simp only [vacant, Bool.false_eq_true, if_false]
      · rw [pteAt_set (good₁.sole alive found), if_pos ⟨rfl, rfl⟩]
      · have apart : p ≠ t := by
          rintro rfl
          have clash := good₁.once_at mine
            (show held m₁ g (.table d (a / 1024)) = some p by simp [held, alive, found])
          cases clash
        rw [set_other apart, content p here]

end Tables

section Dealloc

theorem deallocLoop_good {last : Nat} (good : Good l m g free) (first : 0 < l.first)
    (alive : g.live d = true)
    (low : last ≤ kernbase) (enough : last ≤ a + n) :
    ∃ m' free', deallocLoop l d last n a m = some m' ∧ Good l m' g free' ∧
      Keeps g d (Set.Ico a last) m m' ∧
      ∀ b, a ≤ b → b < last → userAt m' d b = none := by
  induction n generalizing a m free with
  | zero => exact ⟨m, free, rfl, good, .refl _ _ _ _, fun b from_ below => absurd below (by omega)⟩
  | succ n ih =>
    rw [deallocLoop]
    by_cases more : a < last
    · have inside : a / 1024 < 1024 := by
        simp only [kernbase] at low
        omega
      have under : a < kernbase := by omega
      have later : ∀ {a'}, a ≤ a' → Set.Ico a' last ⊆ Set.Ico a last :=
        fun order b mem => ⟨Nat.le_trans order mem.1, mem.2⟩
      rw [if_pos more, walk_false, ← tableAt_eq inside]
      cases found : tableAt m d (a / 1024) with
      | none =>
        -- the loop goes on behind the missing table, whose pages are not there
        obtain ⟨m',free',done,good',keeps,gone⟩ := ih good (a := (a / 1024 + 1) * 1024) (by omega)
        refine ⟨m', free', done, good', keeps.mono (later (by omega)), fun b from_ below => ?_⟩
        by_cases skipped : b < (a / 1024 + 1) * 1024
        · have row : b / 1024 = a / 1024 := by omega
          rw [keeps.users fun mem => absurd mem.1 (by omega), userAt, row, found]
          split <;> rfl
        · exact gone b (by omega) below
      | some t =>
        simp only
        by_cases mapped : present (m.word t (a % 1024)) = true
        · rw [if_pos mapped]
          obtain ⟨m₁,freed,good₁,-,clear⟩ := unmap_good good first alive under found mapped rfl
          have held_ : held m g (.user d a) = some (frame (m.word t (a % 1024))) := by
            simp [held, alive, userAt_eq under found, mapped]
          have some_ : frame (m.word t (a % 1024)) ≠ 0 := by
            have := (good.allocatable held_).1
            omega
          rw [if_neg some_, freed, Option.bind_some]
          have keeps₁ : Keeps g d (Set.Ico a last) m (m₁.set t (a % 1024) 0) :=
            keeps_unmap good alive under found mapped freed ⟨Nat.le_refl a, more⟩
          obtain ⟨m',free',done,good',keeps,gone⟩ := ih good₁ (a := a + 1) (by omega)
          refine ⟨m', free', done, good', keeps₁.trans (keeps.mono (later (by omega))),
            fun b from_ below => ?_⟩
          by_cases here : b = a
          · rw [keeps.users fun mem => absurd mem.1 (by omega), here]
            simpa only [held, alive, if_true] using clear
          · exact gone b (by omega) below
        · rw [if_neg mapped]
          obtain ⟨m',free',done,good',keeps,gone⟩ := ih good (a := a + 1) (by omega)
          refine ⟨m', free', done, good', keeps.mono (later (by omega)), fun b from_ below => ?_⟩
          by_cases here : b = a
          · rw [keeps.users fun mem => absurd mem.1 (by omega), here, userAt_eq under found,
              if_neg mapped]
          · exact gone b (by omega) below
    · rw [if_neg more]
      exact ⟨m, free, rfl, good, .refl _ _ _ _, fun b from_ below => absurd below (by omega)⟩

theorem deallocuvm_good (oldsz newsz : Nat) (good : Good l m g free) (first : 0 < l.first)
    (alive : g.live d = true)
    (low : oldsz ≤ 2147483648) :
    ∃ m' free', deallocuvm l d oldsz newsz m = some (if newsz ≥ oldsz then oldsz else newsz, m') ∧
      Good l m' g free' ∧
      Keeps g d (Set.Ico (pages newsz) (pages oldsz)) m m' ∧
      ∀ b, userAt m' d b = if pages newsz ≤ b ∧ b < pages oldsz then none else userAt m d b := by
  unfold deallocuvm
  by_cases grows : newsz ≥ oldsz
  · rw [if_pos grows, if_pos grows]
    refine ⟨m, free, rfl, good, .refl _ _ _ _, fun b => ?_⟩
    rw [if_neg]
    simp only [pages]
    omega
  · rw [if_neg grows, if_neg grows]
    have bound : pages oldsz ≤ kernbase := by
      simp only [pages, kernbase]
      omega
    obtain ⟨m',free',done,good',keeps,gone⟩ :=
      deallocLoop_good (a := pages newsz) (n := pages oldsz - pages newsz) good first alive bound
        (by omega)
    refine ⟨m', free', by rw [done]; rfl, good', keeps, fun b => ?_⟩
    split
    · next range => exact gone b range.1 range.2
    · next range => exact keeps.users range

end Dealloc

section Alloc

def Blank (m : Mem) (d b : Nat) : Prop := ∃ x, userAt m d b = some x ∧ m.word x = fun _ => 0

def Writable (m : Mem) (d b : Nat) : Prop := pteAt m d b % 8 = 7

theorem allocLoop_good {oldsz newsz : Nat} (good : Good l m g free) (first : 0 < l.first)
    (alive : g.live d = true)
    (low : newsz < 2147483648) (start : pages oldsz ≤ a) (ends : a + n = pages newsz)
    (hand : g.spare 0 = none)
    (hand' : g.spare 1 = none) (above : ∀ b, a ≤ b → userAt m d b = none) :
    ∃ ok m' free', allocLoop l d oldsz newsz n a m = some (ok, m') ∧ Good l m' g free' ∧
      (ok = true → Keeps g d (Set.Ico a (pages newsz)) m m' ∧ ∀ b, a ≤ b → b < pages newsz →
        Blank m' d b ∧ Writable m' d b) ∧
      (ok = false → Keeps g d (Set.Ico (pages oldsz) (pages newsz)) m m' ∧ ∀ b, pages oldsz ≤ b →
        userAt m' d b = none) := by
  have loc : Untied (.spare 0) := trivial
  induction n generalizing a m free with
  | zero =>
    exact ⟨true, m, free, rfl, good,
      fun _ => ⟨.refl _ _ _ _, fun b from_ below => absurd below (by omega)⟩, fun eq => by cases eq⟩
  | succ n ih =>
    have under : a < kernbase := by
      simp only [pages, kernbase] at ends ⊢
      omega
    -- what is left when the pages from `oldsz` on have gone back
    have cleared : ∀ {m₁ m₂ : Mem}, (∀ b, userAt m₁ d b = userAt m d b) →
        (∀ b, userAt m₂ d b = if pages oldsz ≤ b ∧ b < pages newsz then none else userAt m₁ d b) →
        ∀ b, pages oldsz ≤ b → userAt m₂ d b = none := by
      intro m₁ m₂ same users b out
      rw [users b]
      split
      · rfl
      · next not => exact (same b).trans (above b (by omega))
    rw [allocLoop]
    cases asked : kalloc m with
    | mk got m₁ =>
      obtain ⟨words,rest⟩ := kalloc_good good loc hand asked
      cases got with
      | none =>
        obtain ⟨m₂,free₂,done,good₂,keeps,users⟩ :=
          deallocuvm_good newsz oldsz rest first alive (by omega)
        refine ⟨false, m₂, free₂, by simp only [done, Option.map_some], good₂,
          fun eq => (by cases eq), fun _ => ?_⟩
        exact ⟨(keeps_of_word words).trans keeps, cleared (same_of_word words d).2 users⟩
      | some p =>
        obtain ⟨free₁,rfl,taken⟩ := rest
        have here : held m₁ (g.put (some p) (.spare 0)) (.spare 0) = some p := by
          rw [held_put loc, if_pos rfl]
        have filled := fill_good taken loc here fun _ => 0
        have alive' : (g.put (some p) (.spare 0)).live d = true := by rw [put_live]; exact alive
        have blank : Keeps g d ∅ m (m₁.fill p fun _ => 0) :=
          (keeps_of_word words).trans (keeps_spare taken alive' here fun z ne =>
            fill_other ne).unput
        have none_ : userAt (m₁.fill p fun _ => 0) d a = none :=
          (blank.users (Set.notMem_empty a)).trans (above a (Nat.le_refl a))
        obtain ⟨done,m₂,free₂,mapped,failed,succeeded⟩ :=
          mappages_user (p := p) filled alive' under (by simp [Hold.put])
          (by simpa [Hold.put] using hand') (show 6 < 4096 by decide) none_
        simp only [mapped]
        cases done with
        | false =>
          obtain ⟨good₂,keeps₂⟩ := failed rfl
          obtain ⟨m₃,free₃,done,good₃,keeps₃,users⟩ :=
            deallocuvm_good newsz oldsz good₂ first alive' (by omega)
          have still : held m₃ (g.put (some p) (.spare 0)) (.spare 0) = some p := by
            rw [held_put loc, if_pos rfl]
          obtain ⟨m₄,freed,good₄⟩ := kfree_good good₃ first loc still
          rw [put_put, put_none loc (show held m g (.spare 0) = none from hand)] at good₄
          have returned : Keeps g d ∅ m₃ m₄ :=
            (keeps_spare good₃ alive' still fun z ne => kfree_word freed ne).unput
          have before : Keeps g d ∅ m m₂ := blank.trans keeps₂.unput
          refine ⟨false, m₄, _, by simp only [done, Option.bind_some, freed, Option.map_some],
            good₄, fun eq => (by cases eq),
            fun _ => ⟨((before.mono (Set.empty_subset _)).trans keeps₃.unput).trans
              (returned.mono (Set.empty_subset _)), fun b out => ?_⟩⟩
          rw [returned.users (Set.notMem_empty b)]
          exact cleared (fun b => before.users (Set.notMem_empty b)) users b out
        | true =>
          obtain ⟨good₂,keeps₂,value,content⟩ := succeeded rfl
          rw [put_put, put_none loc (show held m g (.spare 0) = none from hand)] at good₂
          have step : Keeps g d {a} m m₂ := (blank.mono (Set.empty_subset _)).trans keeps₂.unput
          have new : userAt m₂ d a = some p := by
            rw [userAt_pte, value, if_pos ⟨under, present_entry⟩, frame_entry (by decide)]
          have zero : m₂.word p = fun _ => 0 := content.trans (Function.update_self ..)
          obtain ⟨ok,m₃,free₃,looped,good₃,done,undone⟩ :=
            ih (a := a + 1) good₂ (by omega) (by omega) fun b out =>
              (step.users fun eq => absurd out (by rw [show b = a from eq]; omega)).trans
                (above b (by omega))
          have one : ({a} : Set Nat) ⊆ Set.Ico a (pages newsz) :=
            fun b eq => ⟨by rw [eq], by rw [eq]; omega⟩
          refine ⟨ok, m₃, free₃, looped, good₃, fun eq => ?_, fun eq => ?_⟩
          · obtain ⟨keeps₃,fresh⟩ := done eq
            refine ⟨(step.mono one).trans (keeps₃.mono fun b mem =>
              ⟨Nat.le_of_succ_le mem.1, mem.2⟩), fun b from_ below => ?_⟩
            by_cases mine : b = a
            · subst mine
              have out : b ∉ Set.Ico (b + 1) (pages newsz) := fun mem => absurd mem.1 (by omega)
              refine ⟨⟨p, (keeps₃.users out).trans new, (keeps₃.content alive out new).trans zero⟩,
                ?_⟩
              rw [Writable, keeps₃.entries b out, value, entry]
              omega
            · exact fresh b (by omega) below
          · obtain ⟨keeps₃,gone⟩ := undone eq
            have wide : ({a} : Set Nat) ⊆ Set.Ico (pages oldsz) (pages newsz) :=
              fun b mem => ⟨Nat.le_trans start (one mem).1, (one mem).2⟩
            exact ⟨(step.mono wide).trans keeps₃, gone⟩

theorem allocuvm_total (oldsz newsz : Nat) (good : Good l m g free) (first : 0 < l.first)
    (alive : g.live d = true)
    (hand : g.spare 0 = none) (hand' : g.spare 1 = none)
    (above : ∀ b, pages oldsz ≤ b → userAt m d b = none) :
    ∃ r m' free', allocuvm l d oldsz newsz m = some (r, m') ∧ Good l m' g free' ∧
      Keeps g d (Set.Ico (pages oldsz) (pages newsz)) m m' ∧
        (r = 0 → ∀ b, userAt m' d b = userAt m d b) ∧
      (r ≠ 0 → (∀ b, pages r ≤ b → userAt m' d b = none) ∧ ∀ b, pages oldsz ≤ b → b < pages newsz →
        Blank m' d b ∧ Writable m' d b) ∧
      (r = 0 ∨ r = newsz ∧ newsz < 2147483648 ∨ r = oldsz ∧ newsz < oldsz) := by
  unfold allocuvm
  by_cases big : newsz ≥ 2147483648
  · rw [if_pos big]
    exact ⟨0, m, free, rfl, good, .refl _ _ _ _, fun _ _ => rfl, fun not => absurd rfl not,
      .inl rfl⟩
  · rw [if_neg big]
    by_cases shrinks : newsz < oldsz
    · rw [if_pos shrinks]
      refine ⟨oldsz, m, free, rfl, good, .refl _ _ _ _, fun _ _ => rfl,
        fun _ => ⟨above, fun b from_ below => ?_⟩, .inr (.inr ⟨rfl, shrinks⟩)⟩
      have order : pages newsz ≤ pages oldsz := by
        simp only [pages]
        omega
      omega
    · rw [if_neg shrinks]
      have order : pages oldsz ≤ pages newsz := by
        simp only [pages]
        omega
      obtain ⟨ok,m',free',looped,good',done,undone⟩ :=
        allocLoop_good (n := pages newsz - pages oldsz) good first alive
        (show newsz < 2147483648 by omega) (Nat.le_refl _) (by omega) hand hand' above
      refine ⟨if ok then newsz else 0, m', free', by rw [looped]; rfl, good', ?_⟩
      cases ok with
      | true =>
        obtain ⟨keeps,fresh⟩ := done rfl
        have beyond : ∀ b, pages newsz ≤ b → userAt m' d b = none := fun b out =>
          (keeps.users fun mem => absurd mem.2 (Nat.not_lt.mpr out)).trans
            (above b (Nat.le_trans order out))
        refine ⟨keeps, fun zero b => ?_, fun _ => ⟨beyond, fresh⟩, .inr (.inl ⟨rfl, by omega⟩)⟩
        -- an empty range
        have edge : pages newsz = 0 := by rw [show newsz = 0 from zero]; rfl
        rw [above b (by omega), beyond b (by omega)]
      | false =>
        obtain ⟨keeps,gone⟩ := undone rfl
        refine ⟨keeps, fun _ b => ?_, fun not => absurd rfl not, .inl rfl⟩
        by_cases out : pages oldsz ≤ b
        · rw [gone b out, above b out]
        · exact keeps.users fun mem => out mem.1

theorem allocuvm_good {oldsz newsz : Nat} (good : Good l m g free) (first : 0 < l.first)
    (alive : g.live d = true)
    (hand : g.spare 0 = none) (hand' : g.spare 1 = none)
    (above : ∀ b, pages oldsz ≤ b → userAt m d b = none)
    (call : allocuvm l d oldsz newsz m = some (r, m')) :
    ∃ free', Good l m' g free' ∧ Within g d m m' ∧ (r = 0 → ∀ b, userAt m' d b = userAt m d b) ∧
      (r ≠ 0 → ∀ b, pages r ≤ b → userAt m' d b = none) ∧
        (r = 0 ∨ r = newsz ∧ newsz < 2147483648 ∨ r = oldsz ∧ newsz < oldsz) := by
  obtain ⟨_,_,free',done,good',keeps,failed,grown,size⟩ :=
    allocuvm_total oldsz newsz good first alive hand hand' above
  rw [call] at done
  cases done
  exact ⟨free', good', keeps.toWithin, failed, fun some_ => (grown some_).1, size⟩

end Alloc

section Directories

def Hold.drop (g : Hold) (d : Nat) : Hold := { g with live := Function.update g.live d false }

theorem drop_live {e : Nat} : (g.drop d).live e = true ↔ g.live e = true ∧ e ≠ d := by
  simp only [Hold.drop, Function.update_apply]
  split
  · next same => simp [same]
  · next other => simp [other]

structure Idle (g : Hold) : Prop where
  spare : ∀ k, g.spare k = none
  dead : g.dead = none
  deadTable : ∀ i, g.deadTable i = none

theorem held_drop {q : Place} {x : Nat} (idle : Idle g) (R : Set Nat)
    (here : held m (g.drop d) q = some x) :
    held m g q = some x ∧ ¬ Own d R q := by
  have lives : ∀ {e : Nat} {v : Option Nat}, (if (g.drop d).live e then v else none) = some x →
      (g.live e = true ∧ e ≠ d) ∧ v = some x := by
    intro e v eq
    split at eq
    · next live => exact ⟨drop_live.mp live, eq⟩
    · cases eq
  cases q with
  | kstack p => exact ⟨here, id⟩
  | dir e =>
    obtain ⟨⟨live,ne⟩,value⟩ := lives here
    exact ⟨(if_pos live).trans value, ne⟩
  | table e i =>
    obtain ⟨⟨live,ne⟩,value⟩ := lives here
    exact ⟨(if_pos live).trans value, ne⟩
  | user e a =>
    obtain ⟨⟨live,ne⟩,value⟩ := lives here
    exact ⟨(if_pos live).trans value, fun own => ne own.1⟩
  | spare k => exact absurd here (by simp [held, Hold.drop, idle.spare])
  | dead => exact absurd here (by simp [held, Hold.drop, idle.dead])
  | deadTable i => exact absurd here (by simp [held, Hold.drop, idle.deadTable])

theorem Keeps.spared {R : Set Nat} (keeps : Keeps g d R m m') (idle : Idle g) :
    Spared (g.drop d) m m' := by
  refine ⟨fun e live => ?_, fun q x here => ?_⟩
  · obtain ⟨alive,ne⟩ := drop_live.mp live
    exact keeps.others e alive ne
  · obtain ⟨there,not⟩ := held_drop idle R here
    exact keeps.words q x not there

theorem freeTables_good (good : Good l m g free) (first : 0 < l.first) (mine : g.dead = some d)
    (count : i + n = 1024)
    (tables : ∀ j, g.deadTable j = if i ≤ j then tableAt m d j else none) :
    ∃ m' free', freeTables l d n i m = some m' ∧
      Good l m' { g with deadTable := fun _ => none } free' ∧
      Spared { g with deadTable := fun _ => none } m m' := by
  induction n generalizing i m g free with
  | zero =>
    have none_ : g.deadTable = fun _ => none := by
      funext j
      rw [tables j]
      split
      · rw [tableAt, if_neg (by omega)]
      · rfl
    exact ⟨m, free, rfl, by rw [← none_]; exact good, .refl _ m⟩
  | succ n ih =>
    have loc : Untied (.deadTable i) := trivial
    rw [freeTables]
    by_cases there : present (m.word d i) = true
    · have here : held m g (.deadTable i) = some (frame (m.word d i)) := by
        have found : g.deadTable i = _ := tables i
        rw [if_pos (Nat.le_refl i), tableAt, if_pos ⟨by omega, there⟩] at found
        exact found
      obtain ⟨m₁,freed,good₁⟩ := kfree_good good first loc here
      have apart : d ≠ frame (m.word d i) := by
        intro eq
        have clash :=
          good.once_at (show held m g .dead = some d from mine) (here.trans (congrArg some eq.symm))
        cases clash
      have word : m₁.word d = m.word d := kfree_word freed apart
      have spared : Spared { g with deadTable := fun _ => none } m m₁ := by
        refine (kfree_spared good loc here freed).mono (fun e alive => alive) fun q x held_ => ?_
        cases q with
        | deadTable j => cases held_
        | _ => exact held_
      obtain ⟨m',free',done,good',rest⟩ := ih (i := i + 1) good₁ mine (by omega) fun j => by
        simp only [Hold.put, Function.update_apply, tableAt_congr word]
        by_cases eq : j = i
        · rw [if_pos eq, if_neg (by omega)]
        · rw [if_neg eq, tables j]
          by_cases after : i + 1 ≤ j
          · rw [if_pos after, if_pos (by omega)]
          · rw [if_neg after, if_neg (by omega)]
      refine ⟨m', free', ?_, good', spared.trans rest⟩
      rw [if_pos there, freed]
      exact done
    · obtain ⟨m',free',done,good',rest⟩ := ih (i := i + 1) good mine (by omega) fun j => by
        rw [tables j]
        by_cases eq : j = i
        · rw [eq, if_pos (Nat.le_refl i), if_neg (by omega), tableAt, if_neg (by simp [there])]
        · by_cases after : i + 1 ≤ j
          · rw [if_pos after, if_pos (by omega)]
          · rw [if_neg after, if_neg (by omega)]
      refine ⟨m', free', ?_, good', rest⟩
      rw [if_neg there]
      exact done

theorem freevm_good (good : Good l m g free) (first : 0 < l.first) (alive : g.live d = true)
    (idle : Idle g) :
    ∃ m' free', freevm l d m = some m' ∧ Good l m' (g.drop d) free' ∧ Spared (g.drop d) m m' := by
  have some_ : d ≠ 0 := by
    have := (good.allocatable (show held m g (.dir d) = some d by simp [held, alive])).1
    omega
  obtain ⟨m₁,free₁,cleared,good₁,keeps,users⟩ :=
    deallocuvm_good 2147483648 0 good first alive (Nat.le_refl _)
  have empty : ∀ a, userAt m₁ d a = none := by
    intro a
    rw [users a]
    by_cases low : a < kernbase
    · rw [if_pos ⟨Nat.zero_le _, low⟩]
    · rw [userAt, if_neg low]
      split <;> rfl
  have good₂ := dissolve_good good₁ alive empty idle.dead idle.deadTable
  obtain ⟨m₂,free₂,tables,good₃,spared₂⟩ :=
    freeTables_good (i := 0) (n := 1024) good₂ first rfl rfl fun j => by simp
  have here :
      held m₂
        { g with
          live := Function.update g.live d false, dead := some d, deadTable :=
            fun _ => none } .dead = some d := rfl
  have loc : Untied .dead := trivial
  obtain ⟨m₃,freed,good₄⟩ := kfree_good good₃ first loc here
  have spared₃ := kfree_spared good₃ loc here freed
  have shape :
      ({ g with
        live := Function.update g.live d false, dead := some d, deadTable :=
          fun _ => none } : Hold).put none .dead =
      g.drop d := by
    have tableless : g.deadTable = fun _ => none := funext idle.deadTable
    simp only [Hold.put, Hold.drop, idle.dead, tableless]
  rw [shape] at good₄ spared₃
  refine ⟨m₃, d :: free₂, ?_, good₄,
    ((keeps.spared idle).trans (spared₂.mono (fun e alive => alive) fun q x held_ => ?_)).trans
      spared₃⟩
  · rw [freevm, if_neg some_, cleared, Option.bind_some]
    simp only [tables, Option.bind_some, freed]
  · cases q with
    | dead => exact absurd held_ (by simp [held, Hold.drop, idle.dead])
    | deadTable i => exact absurd held_ (by simp [held, Hold.drop, idle.deadTable])
    | _ => exact held_

def spanned (ks : List Kmap) : Set Nat := { b | ∃ k ∈ ks, k.virt ≤ b ∧ b < k.virt + k.pages }

def Maps (m : Mem) (d : Nat) (ks : List Kmap) : Prop :=
  ∀ k ∈ ks, ∀ j < k.pages, pteAt m d (k.virt + j) = entry (k.phys + j) k.perm

theorem mapKernel_good {ks : List Kmap} {ok : Bool} (good : Good l m g free)
    (alive : g.live d = true) (hand : g.spare 1 = none)
    (kernel : ∀ k ∈ ks, kernbase ≤ k.virt ∧ k.virt + k.pages ≤ 2 * kernbase)
    (call : mapKernel d ks m = some (ok, m')) :
    ∃ free', Good l m' g free' ∧ Keeps g d (spanned ks) m m' ∧
      (ok = true → Maps m' d ks ∧ ∀ b ∈ spanned ks, present (pteAt m d b) = false) := by
  induction ks generalizing m free with
  | nil =>
    cases call
    refine ⟨free, good, .refl _ _ _ _, fun _ => ⟨fun k mem => absurd mem List.not_mem_nil, ?_⟩⟩
    rintro b ⟨k,mem,-⟩
    exact absurd mem List.not_mem_nil
  | cons k ks ih =>
    obtain ⟨⟨done,m₁⟩,mapped,rest⟩ := Option.bind_eq_some_iff.mp call
    obtain ⟨high,top⟩ := kernel k (by simp)
    obtain ⟨free₁,good₁,keeps₁,new⟩ := mappages_kernel good alive high top hand mapped
    have here : Set.Ico k.virt (k.virt + k.pages) ⊆ spanned (k :: ks) :=
      fun b mem => ⟨k, by simp, mem.1, mem.2⟩
    have later : spanned ks ⊆ spanned (k :: ks) := by
      rintro b ⟨k',mem,range⟩
      exact ⟨k', by simp [mem], range⟩
    cases done with
    | false =>
      cases rest
      exact ⟨free₁, good₁, keeps₁.mono here, fun eq => by cases eq⟩
    | true =>
      obtain ⟨free₂,good₂,keeps₂,all⟩ := ih good₁ (fun k mem => kernel k (by simp [mem])) rest
      refine ⟨free₂, good₂, (keeps₁.mono here).trans (keeps₂.mono later), fun eq => ?_⟩
      obtain ⟨maps,vacant⟩ := all eq
      -- mappages panics about a page that is mapped already, so no later entry is in the way
      have apart : ∀ b, k.virt ≤ b → b < k.virt + k.pages → b ∉ spanned ks := by
        intro b low high mem
        have free_ := vacant b mem
        rw [(new rfl b low high).2, present_entry] at free_
        cases free_
      refine ⟨fun k' mem j below => ?_, ?_⟩
      · rcases List.mem_cons.mp mem with rfl | mem
        · rw [keeps₂.entries _ (apart _ (by omega) (by omega)), (new rfl _ (by omega) (by omega)).2]
          congr 1
          omega
        · exact maps k' mem j below
      · rintro b ⟨k',mem,range⟩
        rcases List.mem_cons.mp mem with rfl | mem
        · exact (new rfl b range.1 range.2).1
        · have free_ := vacant b ⟨k', mem, range⟩
          by_cases first : k.virt ≤ b ∧ b < k.virt + k.pages
          · exact (new rfl b first.1 first.2).1
          · rwa [keeps₁.entries b first] at free_

def Layout.Apart (l : Layout) : Prop := l.kmap.Pairwise fun k k' => k.virt + k.pages ≤ k'.virt ∨
    k'.virt + k'.pages ≤ k.virt

theorem mapKernel_total {ks : List Kmap} (good : Good l m g free) (alive : g.live d = true)
    (hand : g.spare 1 = none)
    (kernel : ∀ k ∈ ks, kernbase ≤ k.virt ∧ k.virt + k.pages ≤ 2 * kernbase)
    (apart : ks.Pairwise fun k k' => k.virt + k.pages ≤ k'.virt ∨ k'.virt + k'.pages ≤ k.virt)
    (vacant : ∀ b ∈ spanned ks, present (pteAt m d b) = false) :
    ∃ ok m', mapKernel d ks m = some (ok, m') := by
  induction ks generalizing m free with
  | nil => exact ⟨true, m, rfl⟩
  | cons k ks ih =>
    obtain ⟨high,top⟩ := kernel k (by simp)
    obtain ⟨ok,m₁,mapped⟩ :=
      mappages_kernel_total k.perm k.phys good alive high top hand fun b from_ below =>
        vacant b ⟨k, by simp, from_, below⟩
    obtain ⟨free₁,good₁,keeps,-⟩ := mappages_kernel good alive high top hand mapped
    rw [mapKernel, mapped, Option.bind_some]
    cases ok with
    | false => exact ⟨false, m₁, rfl⟩
    | true =>
      refine ih good₁ (fun k mem => kernel k (by simp [mem])) apart.of_cons ?_
      rintro b ⟨k',mem,low,below⟩
      have away := List.rel_of_pairwise_cons apart mem
      rw [keeps.entries b fun range => by have := range.1; have := range.2; omega]
      exact vacant b ⟨k', by simp [mem], low, below⟩

def Hold.add (g : Hold) (d : Nat) : Hold := { g with live := Function.update g.live d true }

theorem add_drop (dead : g.live d = false) : (g.add d).drop d = g := by
  simp only [Hold.add, Hold.drop, Function.update_idem, ← dead, Function.update_eq_self]

theorem Idle.add (idle : Idle g) (d : Nat) : Idle (g.add d) :=
  ⟨idle.spare, idle.dead, idle.deadTable⟩

theorem add_live {e : Nat} (dead : g.live d = false) (live : g.live e = true) :
    (g.add d).live e = true ∧ e ≠ d := by
  have ne : e ≠ d := by
    rintro rfl
    rw [dead] at live
    cases live
  exact ⟨(Function.update_of_ne ne ..).trans live, ne⟩

theorem held_add {q : Place} {x : Nat} (dead : g.live d = false) (idle : Idle g) (R : Set Nat)
    (here : held m g q = some x) :
    held m (g.add d) q = some x ∧ ¬ Own d R q :=
  held_drop (idle.add d) R (by rwa [add_drop dead])

/-- What setupkvm leaves: the kernel's mappings and no others, and every page in use as it was. -/
structure Fresh (l : Layout) (g : Hold) (m m' : Mem) (d : Nat) : Prop where
  kernel : Maps m' d l.kmap
  rest : ∀ b, b ∉ spanned l.kmap → pteAt m' d b = 0
  words : ∀ q x, held m g q = some x → m'.word x = m.word x

theorem setupkvm_good {found : Option Nat} (good : Good l m g free) (valid : l.Valid)
    (idle : Idle g)
    (call : setupkvm l m = some (found, m')) :
    ∃ free', Spared g m m' ∧
      (found = none → Good l m' g free') ∧
      (∀ d, found = some d → g.live d = false ∧ Good l m' (g.add d) free' ∧
        (∀ b, userAt m' d b = none) ∧ Fresh l g m m' d) := by
  have loc : Untied (.spare 0) := trivial
  have empty : held m g (.spare 0) = none := idle.spare 0
  unfold setupkvm at call
  cases asked : kalloc m with
  | mk got m₁ =>
    obtain ⟨words,rest⟩ := kalloc_good good loc empty asked
    rw [asked] at call
    cases got with
    | none =>
      cases call
      exact ⟨free, .of_word words, fun _ => rest, fun d eq => by cases eq⟩
    | some d =>
      obtain ⟨free₁,rfl,taken⟩ := rest
      have here : held m₁ (g.put (some d) (.spare 0)) (.spare 0) = some d := by
        rw [held_put loc, if_pos rfl]
      have loose := taken.loose_untied loc here
      have dead : g.live d = false := by
        have := loose.1
        rwa [put_live] at this
      have filled := fill_good taken loc here fun _ => 0
      have zero : ∀ e, g.live e = true → Same m (m₁.fill d fun _ => 0) e := by
        intro e live
        refine (same_of_word words e).trans
          (same_of_held (g := g.put (some d) (.spare 0)) ?_ (by rw [put_live]; exact live))
        exact held_congr loose fun y ne => fill_other ne
      have made := found_good filled loc here (Function.update_self ..)
      rw [put_put, put_none loc empty, put_live] at made
      have made : Good l (m₁.fill d fun _ => 0) (g.add d) free₁ := made
      have alive : (g.add d).live d = true := Function.update_self ..
      obtain ⟨⟨ok,m₂⟩,mapped,rest⟩ := Option.bind_eq_some_iff.mp call
      obtain ⟨free₂,good₂,keeps,maps⟩ :=
        mapKernel_good made alive (idle.spare 1) valid.kernel mapped
      have same : ∀ e, g.live e = true → Same m m₂ e := fun e live =>
        (zero e live).trans (keeps.others e (add_live dead live).1 (add_live dead live).2)
      have nothing : ∀ b, pteAt (m₁.fill d fun _ => 0) d b = 0 :=
        fun b => pteAt_none (by simp [tableAt, Mem.fill, present])
      have bare : ∀ b, b ∉ spanned l.kmap → pteAt m₂ d b = 0 :=
        fun b out => (keeps.entries b out).trans (nothing b)
      have none_ : ∀ b, userAt m₂ d b = none := by
        intro b
        by_cases low : b < kernbase
        · have out : b ∉ spanned l.kmap := by
            rintro ⟨k,mem,range⟩
            have := (valid.kernel k mem).1
            omega
          rw [userAt_pte, bare b out, if_neg (by simp [present])]
        · rw [userAt, if_neg low]
      have kept : ∀ q x, held m g q = some x → m₂.word x = m.word x := by
        intro q x mine
        have before : held m₁ g q = some x :=
          (held_of_same (fun e _ => same_of_word words e) q).trans mine
        have other : x ≠ d := by
          rintro rfl
          have hand : q ≠ .spare 0 := by
            rintro rfl
            rw [empty] at mine
            cases mine
          exact hand (taken.once_at ((held_same_put loc hand _).trans before) here)
        have now : held (m₁.fill d fun _ => 0) g q = some x :=
          (held_of_same zero q).trans mine
        obtain ⟨there,not⟩ := held_add dead idle (spanned l.kmap) now
        rw [keeps.words q x not there, fill_other other, words]
      cases ok with
      | true =>
        cases rest
        refine ⟨free₂, ⟨same, kept⟩, fun eq => (by cases eq), fun d' eq => ?_⟩
        cases eq
        exact ⟨dead, good₂, none_, (maps rfl).1, bare, kept⟩
      | false =>
        obtain ⟨m₃,free₃,freed,good₃,spared⟩ := freevm_good good₂ valid.first alive (idle.add d)
        simp only [Bool.false_eq_true, if_false, freed, Option.map_some, Option.some.injEq,
          Prod.mk.injEq] at rest
        obtain ⟨rfl,rfl⟩ := rest
        rw [add_drop dead] at good₃ spared
        exact ⟨free₃, .trans ⟨same, kept⟩ spared, fun _ => good₃, fun d eq => by cases eq⟩

theorem setupkvm_total (good : Good l m g free) (valid : l.Valid) (apart : l.Apart)
    (idle : Idle g) :
    ∃ found m', setupkvm l m = some (found, m') := by
  have loc : Untied (.spare 0) := trivial
  have empty : held m g (.spare 0) = none := idle.spare 0
  unfold setupkvm
  cases asked : kalloc m with
  | mk got m₁ =>
    obtain ⟨-,rest⟩ := kalloc_good good loc empty asked
    cases got with
    | none => exact ⟨none, m₁, rfl⟩
    | some d =>
      obtain ⟨free₁,-,taken⟩ := rest
      have here : held m₁ (g.put (some d) (.spare 0)) (.spare 0) = some d := by
        rw [held_put loc, if_pos rfl]
      have made :=
        found_good (fill_good taken loc here fun _ => 0) loc here (Function.update_self ..)
      rw [put_put, put_none loc empty, put_live] at made
      have made : Good l (m₁.fill d fun _ => 0) (g.add d) free₁ := made
      have alive : (g.add d).live d = true := Function.update_self ..
      obtain ⟨ok,m₂,mapped⟩ :=
        mapKernel_total made alive (idle.spare 1) valid.kernel apart fun b _ => by
          rw [pteAt_none (by simp [tableAt, Mem.fill, present])]
          rfl
      simp only [mapped, Option.bind_some]
      cases ok with
      | true => exact ⟨some d, m₂, rfl⟩
      | false =>
        obtain ⟨free₂,good₂,-⟩ := mapKernel_good made alive (idle.spare 1) valid.kernel mapped
        obtain ⟨m₃,-,freed,-⟩ := freevm_good good₂ valid.first alive (idle.add d)
        exact ⟨none, m₃, by simp only [Bool.false_eq_true, if_false, freed, Option.map_some]⟩

def Copied (m m' : Mem) (src d b : Nat) : Prop :=
  ∃ x y, userAt m src b = some x ∧ userAt m' d b = some y ∧ m'.word y = m.word x ∧
    pteAt m' d b % 4096 = pteAt m src b % 4096

theorem copyLoop_good {src : Nat} {ok : Bool} (good : Good l m g free) (first : 0 < l.first)
    (alive : g.live d = true)
    (hand : g.spare 0 = none) (hand' : g.spare 1 = none) (low : a + n ≤ kernbase)
    (above : ∀ b, a ≤ b → userAt m d b = none)
    (call : copyLoop l src d n a m = some (ok, m')) :
    ∃ free', Good l m' g free' ∧ Keeps g d (Set.Ico a (a + n)) m m' ∧
      (ok = true → g.live src = true → src ≠ d → ∀ b, a ≤ b → b < a + n → Copied m m' src d b) := by
  have loc : Untied (.spare 0) := trivial
  induction n generalizing a m free with
  | zero =>
    cases call
    exact ⟨free, good, .refl _ _ _ _, fun _ _ _ b from_ below => absurd below (by omega)⟩
  | succ n ih =>
    have under : a < kernbase := by omega
    have inside : a / 1024 < 1024 := by
      simp only [kernbase] at under
      omega
    have one : ({a} : Set Nat) ⊆ Set.Ico a (a + (n + 1)) :=
      fun b eq => ⟨by rw [eq], by rw [eq]; omega⟩
    rw [copyLoop, walk_false, ← tableAt_eq inside] at call
    cases table : tableAt m src (a / 1024) with
    | none => simp [table] at call
    | some t =>
      simp only [table, ← pteAt_some table] at call
      split at call
      · next mapped =>
        have source : userAt m src a = some (frame (pteAt m src a)) := by
          rw [userAt_pte, if_pos ⟨under, mapped⟩]
        cases asked : kalloc m with
        | mk got m₁ =>
          obtain ⟨words,rest⟩ := kalloc_good good loc hand asked
          rw [asked] at call
          cases got with
          | none =>
            cases call
            exact ⟨free, rest, keeps_of_word words, fun eq => by cases eq⟩
          | some p =>
            obtain ⟨free₁,rfl,taken⟩ := rest
            have here : held m₁ (g.put (some p) (.spare 0)) (.spare 0) = some p := by
              rw [held_put loc, if_pos rfl]
            have alive' : (g.put (some p) (.spare 0)).live d = true := by rw [put_live]; exact alive
            simp only [words] at call
            generalize content : m.word (frame (pteAt m src a)) = bytes at call
            have filled := fill_good taken loc here bytes
            have copied : Keeps g d ∅ m (m₁.fill p bytes) :=
              (keeps_of_word words).trans (keeps_spare taken alive' here fun z ne =>
                fill_other ne).unput
            have none_ : userAt (m₁.fill p bytes) d a = none :=
              (copied.users (Set.notMem_empty a)).trans (above a (Nat.le_refl a))
            obtain ⟨done,m₂,free₂,call₂,failed,succeeded⟩ :=
              mappages_user (p := p) filled alive' under (by simp [Hold.put])
              (by simpa [Hold.put] using hand')
              (Nat.mod_lt (pteAt m src a) (by decide : 4096 > 0)) none_
            rw [call₂] at call
            cases done with
            | false =>
              obtain ⟨good₂,keeps₂⟩ := failed rfl
              have still : held m₂ (g.put (some p) (.spare 0)) (.spare 0) = some p := by
                rw [held_put loc, if_pos rfl]
              obtain ⟨m₃,freed,good₃⟩ := kfree_good good₂ first loc still
              rw [put_put, put_none loc (show held m g (.spare 0) = none from hand)] at good₃
              simp only [freed, Option.map_some, Option.some.injEq, Prod.mk.injEq] at call
              obtain ⟨rfl,rfl⟩ := call
              have returned : Keeps g d ∅ m₂ m₃ :=
                (keeps_spare good₂ alive' still fun z ne => kfree_word freed ne).unput
              exact ⟨_, good₃, ((copied.trans keeps₂.unput).trans returned).mono
                (Set.empty_subset _), fun eq => by cases eq⟩
            | true =>
              obtain ⟨good₂,keeps₂,value,kept⟩ := succeeded rfl
              rw [put_put, put_none loc (show held m g (.spare 0) = none from hand)] at good₂
              have step : Keeps g d {a} m m₂ :=
                (copied.mono (Set.empty_subset _)).trans keeps₂.unput
              have new : userAt m₂ d a = some p := by
                rw [userAt_pte, value, if_pos ⟨under, present_entry⟩,
                  frame_entry (Nat.mod_lt _ (by decide))]
              obtain ⟨free₃,good₃,keeps₃,copies⟩ := ih (a := a + 1) good₂ (by omega) (fun b out =>
                (step.users fun eq => absurd out (by rw [show b = a from eq]; omega)).trans
                  (above b (by omega))) call
              refine ⟨free₃, good₃, (step.mono one).trans (keeps₃.mono fun b mem =>
                ⟨Nat.le_of_succ_le mem.1, ?_⟩),
                fun eq live ne b from_ below => ?_⟩
              · have := mem.2
                omega
              by_cases mine : b = a
              · subst mine
                have out : b ∉ Set.Ico (b + 1) (b + 1 + n) := fun mem => absurd mem.1 (by omega)
                refine ⟨_, p, source, (keeps₃.users out).trans new, ?_, ?_⟩
                · rw [keeps₃.content alive out new, kept, content]
                  exact Function.update_self ..
                · rw [keeps₃.entries b out, value, entry]
                  have odd : pteAt m src b % 2 = 1 := by simpa [present] using mapped
                  omega
              · obtain ⟨x,y,there,page,same,flags⟩ := copies eq live ne b (by omega) (by omega)
                rw [(step.others src live ne).2 b] at there
                rw [step.entries_other live ne] at flags
                refine ⟨x, y, there, page, same.trans ?_, flags⟩
                exact step.words (.user src b) x (fun own => ne own.1) (by simp [held, live, there])
      · cases call

/-- A copy of the parent's address space: the pages below `sz` are copied one by one, the rest is
    as setupkvm makes it, and the pages in use before are not touched. -/
structure Clone (l : Layout) (g : Hold) (m m' : Mem) (src sz d : Nat) : Prop where
  copies : g.live src = true → ∀ b, b < pages sz → Copied m m' src d b
  kernel : Maps m' d l.kmap
  rest : ∀ b, pages sz ≤ b → b ∉ spanned l.kmap → pteAt m' d b = 0
  words : ∀ q x, held m g q = some x → m'.word x = m.word x

theorem copyuvm_good {src sz : Nat} {found : Option Nat} (good : Good l m g free) (valid : l.Valid)
    (idle : Idle g)
    (low : sz ≤ 2147483648) (call : copyuvm l src sz m = some (found, m')) :
    ∃ free', (∀ e, g.live e = true → Same m m' e) ∧
      (found = none → Good l m' g free') ∧
      (∀ d, found = some d → g.live d = false ∧ Good l m' (g.add d) free' ∧
        (∀ b, pages sz ≤ b → userAt m' d b = none) ∧
        Clone l g m m' src sz d) := by
  obtain ⟨⟨made,m₁⟩,setup,rest⟩ := Option.bind_eq_some_iff.mp call
  obtain ⟨free₁,⟨same,-⟩,failed,succeeded⟩ := setupkvm_good good valid idle setup
  cases made with
  | none =>
    cases rest
    exact ⟨free₁, same, fun _ => failed rfl, fun d eq => by cases eq⟩
  | some d =>
    obtain ⟨dead,good₁,empty,fresh⟩ := succeeded d rfl
    obtain ⟨⟨ok,m₂⟩,copied,rest⟩ := Option.bind_eq_some_iff.mp rest
    have alive : (g.add d).live d = true := Function.update_self ..
    have bound : 0 + pages sz ≤ kernbase := by
      simp only [pages, kernbase]
      omega
    obtain ⟨free₂,good₂,keeps,copies⟩ :=
      copyLoop_good good₁ valid.first alive (idle.spare 0) (idle.spare 1) bound
      (fun b _ => empty b) copied
    have same₂ : ∀ e, g.live e = true → Same m m₂ e := fun e live =>
      (same e live).trans (keeps.others e (add_live dead live).1 (add_live dead live).2)
    have beyond : ∀ b, pages sz ≤ b → b ∉ Set.Ico 0 (0 + pages sz) := fun b out mem => by
      have := mem.2
      omega
    cases ok with
    | true =>
      cases rest
      refine ⟨free₂, same₂, fun eq => (by cases eq), fun d' eq => ?_⟩
      cases eq
      refine ⟨dead, good₂, fun b out => (keeps.users (beyond b out)).trans (empty b),
        fun live b below => ?_, fun k mem j inside => ?_,
        fun b out not => (keeps.entries b (beyond b out)).trans (fresh.rest b not),
          fun q x here => ?_⟩
      · obtain ⟨x,y,there,page,content,flags⟩ :=
          copies rfl (add_live dead live).1 (add_live dead live).2 b (Nat.zero_le b) (by omega)
        rw [(same src live).2 b] at there
        have old : pteAt m₁ src b = pteAt m src b := by
          refine pteAt_congr (fresh.words (.dir src) src (by simp [held, live])) fun t found => ?_
          rw [fresh.words (.table src (b / 1024)) t (by simp [held, live, found])]
        rw [old] at flags
        exact ⟨x, y, there, page, content.trans
          (fresh.words (.user src b) x (by simp [held, live, there])), flags⟩
      · have high := (valid.kernel k mem).1
        rw [keeps.entries _ (beyond _ (by omega)), fresh.kernel k mem j inside]
      · have now : held m₁ g q = some x := (held_of_same same q).trans here
        obtain ⟨there,not⟩ := held_add dead idle (Set.Ico 0 (0 + pages sz)) now
        rw [keeps.words q x not there, fresh.words q x here]
    | false =>
      obtain ⟨m₃,free₃,freed,good₃,spared⟩ := freevm_good good₂ valid.first alive (idle.add d)
      simp only [Bool.false_eq_true, if_false, freed, Option.map_some, Option.some.injEq,
        Prod.mk.injEq] at rest
      obtain ⟨rfl,rfl⟩ := rest
      rw [add_drop dead] at good₃ spared
      exact ⟨free₃, fun e live => (same₂ e live).trans (spared.same e live), fun _ => good₃,
        fun d eq => by cases eq⟩

end Directories

section Loading

theorem loadSegments_good {gs : List Segment} {sz : Nat} {found : Option Nat}
    (good : Good l m g free) (first : 0 < l.first)
    (alive : g.live d = true) (hand : g.spare 0 = none) (hand' : g.spare 1 = none)
    (low : sz < 2147483648)
    (above : ∀ b, pages sz ≤ b → userAt m d b = none)
    (call : loadSegments l d gs sz m = some (found, m')) :
    ∃ free', Good l m' g free' ∧ Within g d m m' ∧
      ∀ sz', found = some sz' → sz' < 2147483648 ∧ ∀ b, pages sz' ≤ b → userAt m' d b = none := by
  induction gs generalizing sz m free with
  | nil =>
    cases call
    refine ⟨free, good, .refl _ _ _, fun sz' eq => ?_⟩
    cases eq
    exact ⟨low, above⟩
  | cons s gs ih =>
    have stop : some (none, m) = some (found, m') → ∃ free', Good l m' g free' ∧ Within g d m m' ∧
        ∀ sz', found = some sz' → sz' < 2147483648 ∧ ∀ b, pages sz' ≤ b → userAt m' d b = none := by
      intro eq
      cases eq
      exact ⟨free, good, .refl _ _ _, fun sz' eq => by cases eq⟩
    rw [loadSegments] at call
    split at call
    · exact stop call
    split at call
    · exact ih good low above call
    split at call
    · exact stop call
    split at call
    · exact stop call
    obtain ⟨⟨r,m₁⟩,grown,rest⟩ := Option.bind_eq_some_iff.mp call
    obtain ⟨free₁,good₁,within,-,bounded,size⟩ :=
      allocuvm_good good first alive hand hand' above grown
    have give : some (none, m₁) = some (found, m') → ∃ free', Good l m' g free' ∧ Within g d m m' ∧
        ∀ sz', found = some sz' → sz' < 2147483648 ∧ ∀ b, pages sz' ≤ b → userAt m' d b = none := by
      intro eq
      cases eq
      exact ⟨free₁, good₁, within, fun sz' eq => by cases eq⟩
    split at rest
    · exact give rest
    next some_ =>
      split at rest
      · exact give rest
      obtain ⟨_,-,rest⟩ := Option.bind_eq_some_iff.mp rest
      split at rest
      · obtain ⟨free₂,good₂,within₂,ends⟩ := ih good₁ (by omega) (bounded some_) rest
        exact ⟨free₂, good₂, within.trans within₂, ends⟩
      · exact give rest

theorem clearpteu_good (good : Good l m g free) (alive : g.live d = true) (low : a < kernbase)
    (call : clearpteu d a m = some m') : Good l m' g free ∧ ∀ e, g.live e = true → Same m m' e := by
  have inside : a / 1024 < 1024 := by
    simp only [kernbase] at low
    omega
  rw [clearpteu, walk_false, ← tableAt_eq inside] at call
  cases found : tableAt m d (a / 1024) with
  | none => simp [found] at call
  | some t =>
    rw [found] at call
    cases call
    generalize pte_ : m.word t (a % 1024) = pte
    have flag : present (pte - pte / 4 % 2 * 4) = present pte := by
      simp only [present]
      congr 1
      omega
    have page : frame (pte - pte / 4 % 2 * 4) = frame pte := by
      simp only [frame]
      omega
    have good' : Good l (m.set t (a % 1024) (pte - pte / 4 % 2 * 4)) g free :=
      set_flags_good good alive low found (flag.trans (congrArg present pte_.symm))
        (page.trans (congrArg frame pte_.symm))
    refine ⟨good', fun e live => same_of_held (fun x => ?_) live⟩
    by_cases mine : x = .user d a
    · rw [(held_set_table (good.sole alive found) x).1 a mine low rfl rfl, mine]
      simp only [held, alive, if_true, userAt_eq low found, pte_, flag, page]
    · exact (held_set_table (good.sole alive found) x).2 fun b eq _ row column =>
        mine (by rw [eq, show b = a by omega])

theorem load_good {image : Image} {found : Option (Nat × Nat)} (good : Good l m g free)
    (valid : l.Valid) (idle : Idle g)
    (call : load l image m = some (found, m')) :
    ∃ free', (∀ e, g.live e = true → Same m m' e) ∧
      (found = none → Good l m' g free') ∧
      (∀ d sz, found = some (d, sz) → g.live d = false ∧ Good l m' (g.add d) free' ∧
        sz < 2147483648 ∧
        ∀ b, pages sz ≤ b → userAt m' d b = none) := by
  unfold load at call
  split at call
  · cases call
    exact ⟨free, fun e _ => .refl m e, fun _ => good, fun d sz eq => by cases eq⟩
  obtain ⟨⟨made,m₁⟩,setup,rest⟩ := Option.bind_eq_some_iff.mp call
  obtain ⟨free₁,⟨same,-⟩,failed,succeeded⟩ := setupkvm_good good valid idle setup
  cases made with
  | none =>
    cases rest
    exact ⟨free₁, same, fun _ => failed rfl, fun d sz eq => by cases eq⟩
  | some d =>
    obtain ⟨dead,good₁,empty,-⟩ := succeeded d rfl
    have alive : (g.add d).live d = true := Function.update_self ..
    -- every failure from here on frees the new directory
    have bad : ∀ {m₂ : Mem} {free₂ : List Nat}, Good l m₂ (g.add d) free₂ →
      (∀ e, g.live e = true → Same m m₂ e) →
        ((freevm l d m₂).map fun m => (none, m)) = some (found, m') →
        ∃ free', (∀ e, g.live e = true → Same m m' e) ∧ (found = none → Good l m' g free') ∧
          (∀ d sz, found = some (d, sz) → g.live d = false ∧ Good l m' (g.add d) free' ∧
            sz < 2147483648 ∧
            ∀ b, pages sz ≤ b → userAt m' d b = none) := by
      intro m₂ free₂ good₂ same₂ eq
      obtain ⟨m₃,free₃,freed,good₃,spared⟩ := freevm_good good₂ valid.first alive (idle.add d)
      rw [freed] at eq
      cases eq
      rw [add_drop dead] at good₃ spared
      exact ⟨free₃, fun e live => (same₂ e live).trans (spared.same e live), fun _ => good₃,
        fun d sz eq => by cases eq⟩
    obtain ⟨⟨size,m₂⟩,loaded,rest⟩ := Option.bind_eq_some_iff.mp rest
    have zero : ∀ b, pages 0 ≤ b → userAt m₁ d b = none := fun b _ => empty b
    obtain ⟨free₂,good₂,within,ends⟩ := loadSegments_good good₁ valid.first alive (idle.spare 0)
      (idle.spare 1) (by decide) zero loaded
    have same₂ : ∀ e, g.live e = true → Same m m₂ e := fun e live =>
      (same e live).trans (within.others e (add_live dead live).1 (add_live dead live).2)
    cases size with
    | none => exact bad good₂ same₂ rest
    | some sz =>
      obtain ⟨low,above⟩ := ends sz rfl
      obtain ⟨⟨r,m₃⟩,grown,rest⟩ := Option.bind_eq_some_iff.mp rest
      have above' : ∀ b, pages (pages sz * 4096) ≤ b → userAt m₂ d b = none := by
        intro b out
        refine above b ?_
        simp only [pages] at out ⊢
        omega
      obtain ⟨free₃,good₃,within₃,-,bounded,value⟩ :=
        allocuvm_good good₂ valid.first alive (idle.spare 0) (idle.spare 1) above' grown
      have same₃ : ∀ e, g.live e = true → Same m m₃ e := fun e live =>
        (same₂ e live).trans (within₃.others e (add_live dead live).1 (add_live dead live).2)
      simp only at rest
      split at rest
      · exact bad good₃ same₃ rest
      next some_ =>
        obtain ⟨m₄,cleared,rest⟩ := Option.bind_eq_some_iff.mp rest
        have under : r / 4096 - 2 < kernbase := by
          simp only [kernbase]
          omega
        obtain ⟨good₄,same₄⟩ := clearpteu_good good₃ alive under cleared
        have all : ∀ e, g.live e = true → Same m m₄ e := fun e live =>
          (same₃ e live).trans (same₄ e (add_live dead live).1)
        split at rest
        · cases rest
          refine ⟨free₃, all, fun eq => (by cases eq), fun d' sz' eq => ?_⟩
          cases eq
          exact ⟨dead, good₄, by omega, fun b out =>
            ((same₄ d alive).2 b).trans (bounded some_ b out)⟩
        · exact bad good₄ all rest

end Loading

end PhysicalPages
