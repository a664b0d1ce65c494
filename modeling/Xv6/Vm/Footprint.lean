import Mathlib.Order.Interval.Set.Basic
import Xv6.Vm.Owned

/- What a function of vm.c that works on one address space leaves alone: the other address spaces,
   the entries of pages it has nothing to do with, and what is in all of their pages. -/
namespace PhysicalPages
open LinkedQueue Ownership

variable {l : Layout} {m m' m'' : Mem} {g : Hold} {free : List Nat} {p r d i k a n : Nat}

def Same (m m' : Mem) (d : Nat) : Prop :=
  (∀ i, tableAt m' d i = tableAt m d i) ∧ ∀ a, userAt m' d a = userAt m d a

theorem Same.refl (m : Mem) (d : Nat) : Same m m d := ⟨fun _ => rfl, fun _ => rfl⟩

theorem Same.trans (first : Same m m' d) (second : Same m' m'' d) : Same m m'' d :=
  ⟨fun i => (second.1 i).trans (first.1 i), fun a => (second.2 a).trans (first.2 a)⟩

theorem same_of_held (same : ∀ x, held m' g x = held m g x) (alive : g.live d = true) :
    Same m m' d := by
  refine ⟨fun i => ?_, fun a => ?_⟩
  · simpa only [held, alive, if_true] using same (.table d i)
  · simpa only [held, alive, if_true] using same (.user d a)

theorem held_of_same (same : ∀ d, g.live d = true → Same m m' d) (x : Place) :
    held m' g x = held m g x := by
  cases x with
  | table d i =>
    simp only [held]
    split
    · next alive => exact (same d alive).1 i
    · rfl
  | user d a =>
    simp only [held]
    split
    · next alive => exact (same d alive).2 a
    · rfl
  | _ => rfl

theorem same_of_word (same : m'.word = m.word) (d : Nat) : Same m m' d := by
  refine ⟨fun i => ?_, fun a => ?_⟩
  · rw [tableAt, tableAt, same]
  · rw [userAt, userAt, tableAt, tableAt, same]

structure Within (g : Hold) (d : Nat) (m m' : Mem) : Prop where
  others : ∀ e, g.live e = true → e ≠ d → Same m m' e
  tables : ∀ i t, tableAt m d i = some t → tableAt m' d i = some t

theorem Within.refl (g : Hold) (d : Nat) (m : Mem) : Within g d m m :=
  ⟨fun e _ _ => .refl m e, fun _ _ => id⟩

theorem Within.trans (first : Within g d m m') (second : Within g d m' m'') : Within g d m m'' :=
  ⟨fun e alive other => (first.others e alive other).trans (second.others e alive other),
    fun i t found => second.tables i t (first.tables i t found)⟩

theorem within_of_word (same : m'.word = m.word) : Within g d m m' :=
  ⟨fun e _ _ => same_of_word same e, fun i _ found => ((same_of_word same d).1 i).trans found⟩

structure Spared (g : Hold) (m m' : Mem) : Prop where
  same : ∀ e, g.live e = true → Same m m' e
  words : ∀ q x, held m g q = some x → m'.word x = m.word x

namespace Spared

theorem refl (g : Hold) (m : Mem) : Spared g m m := ⟨fun e _ => .refl m e, fun _ _ _ => rfl⟩

theorem trans (first : Spared g m m') (second : Spared g m' m'') : Spared g m m'' := by
  refine ⟨fun e live => (first.same e live).trans (second.same e live), fun q x here => ?_⟩
  rw [second.words q x ((held_of_same first.same q).trans here), first.words q x here]

theorem of_word (same : m'.word = m.word) : Spared g m m' :=
  ⟨fun e _ => same_of_word same e, fun _ x _ => by rw [same]⟩

theorem mono {g' : Hold} (spared : Spared g m m') (live : ∀ e, g'.live e = true → g.live e = true)
    (places : ∀ q x, held m g' q = some x → held m g q = some x) : Spared g' m m' :=
  ⟨fun e alive => spared.same e (live e alive), fun q x here => spared.words q x (places q x here)⟩

end Spared

section Holds

theorem put_put (v w : Option Nat) (q : Place) : (g.put v q).put w q = g.put w q := by
  cases q <;> simp [Hold.put, Function.update_idem]

theorem put_none {q : Place} (untied : Untied q) (empty : held m g q = none) :
    g.put none q = g := by
  cases q with
  | kstack p =>
    have none_ : g.stack p = none := empty
    simp only [Hold.put, ← none_, Function.update_eq_self]
  | spare k =>
    have none_ : g.spare k = none := empty
    simp only [Hold.put, ← none_, Function.update_eq_self]
  | deadTable i =>
    have none_ : g.deadTable i = none := empty
    simp only [Hold.put, ← none_, Function.update_eq_self]
  | dead =>
    have none_ : g.dead = none := empty
    simp only [Hold.put, ← none_]
  | _ => rfl

theorem held_same_put {q x : Place} (untied : Untied q) (other : x ≠ q) (v : Option Nat) :
    held m (g.put v q) x = held m g x := by
  rw [held_put untied, if_neg other]

end Holds

theorem kfree_spared {q : Place} (good : Good l m g free) (untied : Untied q)
    (here : held m g q = some p) (freed : kfree l p m = some m') :
    Spared (g.put none q) m m' := by
  have still : ∀ q, held m' g q = held m g q :=
    held_congr (good.loose_untied untied here) fun y ne => kfree_word freed ne
  refine ⟨fun e live => same_of_held still (by rwa [put_live] at live), fun q' x there =>
    kfree_word freed ?_⟩
  rintro rfl
  rw [held_put untied] at there
  split at there
  · cases there
  · next other => exact other (good.once_at there here)

section Tables

theorem walk_false : walkpgdir d a false m = (if present (m.word d (a / 1024)) then
      some (frame (m.word d (a / 1024))) else none, m) := by
  simp only [walkpgdir]
  split <;> rfl

theorem tableAt_eq (inside : a / 1024 < 1024) :
    tableAt m d (a / 1024) = if present (m.word d (a / 1024)) then
      some (frame (m.word d (a / 1024))) else none := by
  simp [tableAt, inside]

theorem userAt_eq {t : Nat} (low : a < kernbase) (found : tableAt m d (a / 1024) = some t) :
    userAt m d a = if present (m.word t (a % 1024)) then some (frame (m.word t (a % 1024)))
      else none := by
  simp only [userAt, if_pos low, found, Option.bind_some]

end Tables

section Footprint

variable {R R' : Set Nat}

def pteAt (m : Mem) (d a : Nat) : Nat :=
  (tableAt m d (a / 1024)).elim 0 fun t => m.word t (a % 1024)

variable {t : Nat}

theorem pteAt_some (found : tableAt m d (a / 1024) = some t) :
    pteAt m d a = m.word t (a % 1024) := by
  rw [pteAt, found]
  rfl

theorem pteAt_none (found : tableAt m d (a / 1024) = none) : pteAt m d a = 0 := by
  rw [pteAt, found]
  rfl

theorem userAt_pte (m : Mem) (d a : Nat) :
    userAt m d a = if a < kernbase ∧ present (pteAt m d a) = true then some (frame (pteAt m d a))
      else none := by
  by_cases low : a < kernbase
  · cases found : tableAt m d (a / 1024) with
    | none =>
      rw [pteAt_none found, userAt, if_pos low, found, if_neg (by simp [present])]
      rfl
    | some t =>
      rw [pteAt_some found, userAt_eq low found]
      simp only [low, true_and]
  · rw [userAt, if_neg low, if_neg fun both => low both.1]

theorem pteAt_congr (dir : m'.word d = m.word d)
    (tables : ∀ t, tableAt m d (a / 1024) = some t → m'.word t (a % 1024) = m.word t (a % 1024)) :
    pteAt m' d a = pteAt m d a := by
  have same : tableAt m' d (a / 1024) = tableAt m d (a / 1024) := tableAt_congr dir
  cases found : tableAt m d (a / 1024) with
  | none => rw [pteAt_none found, pteAt_none (same.trans found)]
  | some t => rw [pteAt_some found, pteAt_some (same.trans found), tables t found]

theorem Spared.entries (spared : Spared g m m') (alive : g.live d = true) (b : Nat) :
    pteAt m' d b = pteAt m d b := by
  refine pteAt_congr (spared.words (.dir d) d (by simp [held, alive])) fun t found => ?_
  rw [spared.words (.table d (b / 1024)) t (by simp [held, alive, found])]

def Own (d : Nat) (R : Set Nat) : Place → Prop
  | .kstack _ => False
  | .dir e => e = d
  | .table e _ => e = d
  | .user e a => e = d ∧ a ∈ R
  | _ => True

/-- Only the pages `R` of the directory `d` change. -/
structure Keeps (g : Hold) (d : Nat) (R : Set Nat) (m m' : Mem) : Prop extends Within g d m m' where
  words : ∀ q x, ¬ Own d R q → held m g q = some x → m'.word x = m.word x
  entries : ∀ b, b ∉ R → pteAt m' d b = pteAt m d b

theorem Own.mono (wider : R ⊆ R') {q : Place} (own : Own d R q) : Own d R' q := by
  cases q with
  | user e a => exact ⟨own.1, wider own.2⟩
  | _ => exact own

namespace Keeps

theorem refl (g : Hold) (d : Nat) (R : Set Nat) (m : Mem) : Keeps g d R m m :=
  ⟨.refl g d m, fun _ _ _ _ => rfl, fun _ _ => rfl⟩

theorem places (keeps : Keeps g d R m m') {q : Place} (not : ¬ Own d R q) :
    held m' g q = held m g q := by
  cases q with
  | kstack p => rfl
  | dir e => rfl
  | table e i =>
    simp only [held]
    split
    · next live => exact (keeps.others e live not).1 i
    · rfl
  | user e a =>
    simp only [held]
    split
    · next live =>
      by_cases same : e = d
      · subst same
        rw [userAt_pte, userAt_pte, keeps.entries a fun mem => not ⟨rfl, mem⟩]
      · exact (keeps.others e live same).2 a
    · rfl
  | spare k => exact absurd trivial not
  | dead => exact absurd trivial not
  | deadTable i => exact absurd trivial not

theorem trans (first : Keeps g d R m m') (second : Keeps g d R m' m'') : Keeps g d R m m'' := by
  refine ⟨first.toWithin.trans second.toWithin, fun q x not here => ?_, fun b out => ?_⟩
  · rw [second.words q x not ((first.places not).trans here), first.words q x not here]
  · rw [second.entries b out, first.entries b out]

theorem mono (keeps : Keeps g d R m m') (wider : R ⊆ R') : Keeps g d R' m m' :=
  ⟨keeps.toWithin, fun q x not here => keeps.words q x (fun own => not (own.mono wider)) here,
    fun b out => keeps.entries b fun mem => out (wider mem)⟩

theorem unput {v : Option Nat} {j : Nat} (keeps : Keeps (g.put v (.spare j)) d R m m') :
    Keeps g d R m m' := by
  refine ⟨⟨fun e live => keeps.others e live, keeps.tables⟩, fun q x not here => ?_, keeps.entries⟩
  have other : q ≠ .spare j := by
    rintro rfl
    exact not trivial
  exact keeps.words q x not
    ((held_same_put (show Untied (.spare j) from trivial) other v).trans here)

theorem users (keeps : Keeps g d R m m') {b : Nat} (out : b ∉ R) :
    userAt m' d b = userAt m d b := by
  rw [userAt_pte, userAt_pte, keeps.entries b out]

theorem content (keeps : Keeps g d R m m') (alive : g.live d = true) {b x : Nat} (out : b ∉ R)
    (here : userAt m d b = some x) :
    m'.word x = m.word x :=
  keeps.words (.user d b) x (fun own => out own.2) (by simp [held, alive, here])

theorem entries_other (keeps : Keeps g d R m m') {e : Nat} (live : g.live e = true) (other : e ≠ d)
    (b : Nat) :
    pteAt m' e b = pteAt m e b := by
  refine pteAt_congr (keeps.words (.dir e) e other (by simp [held, live])) fun t found => ?_
  rw [keeps.words (.table e (b / 1024)) t other (by simp [held, live, found])]

end Keeps

theorem keeps_of_word (same : m'.word = m.word) : Keeps g d R m m' := by
  refine ⟨within_of_word same, fun _ x _ _ => by rw [same], fun b _ => ?_⟩
  exact pteAt_congr (by rw [same]) fun t _ => by rw [same]

theorem pteAt_write {y : Nat} (loose : Loose m g y) (alive : g.live d = true)
    (same : ∀ z, z ≠ y → m'.word z = m.word z) (b : Nat) :
    pteAt m' d b = pteAt m d b := by
  refine pteAt_congr (same d ?_) fun t found => ?_
  · rintro rfl
    rw [loose.1] at alive
    cases alive
  · rw [same t fun eq => loose.2 d _ alive (eq ▸ found)]

theorem keeps_write {q : Place} {y : Nat} (good : Good l m g free) (alive : g.live d = true)
    (here : held m g q = some y)
    (own : Own d R q) (loose : Loose m g y) (same : ∀ z, z ≠ y → m'.word z = m.word z) :
    Keeps g d R m m' := by
  have still : ∀ x, held m' g x = held m g x := held_congr loose same
  refine ⟨⟨fun e live _ => same_of_held still live, fun i t found =>
    ((same_of_held still alive).1 i).trans found⟩,
    fun q' x not there => same x ?_, fun b _ => pteAt_write loose alive same b⟩
  rintro rfl
  exact not (good.once_at here there ▸ own)

theorem keeps_spare {j y : Nat} (good : Good l m g free) (alive : g.live d = true)
    (here : held m g (.spare j) = some y)
    (same : ∀ z, z ≠ y → m'.word z = m.word z) : Keeps g d R m m' :=
  keeps_write good alive here trivial
    (good.loose_untied (show Untied (.spare j) from trivial) here) same

theorem keeps_user {y : Nat} (good : Good l m g free) (alive : g.live d = true)
    (here : held m g (.user d a) = some y) (mem : a ∈ R)
    (same : ∀ z, z ≠ y → m'.word z = m.word z) : Keeps g d R m m' :=
  keeps_write good alive here ⟨rfl, mem⟩ (good.loose_user here) same

theorem pteAt_set {j w : Nat} (sole : Sole m g d i t) (b : Nat) :
    pteAt (m.set t j w) d b = if b / 1024 = i ∧ b % 1024 = j then w else pteAt m d b := by
  have dir : (m.set t j w).word d = m.word d := set_other (sole.dir d sole.alive)
  split
  · next place =>
    have found : tableAt (m.set t j w) d (b / 1024) = some t := by
      rw [tableAt_congr dir, place.1, sole.found]
    rw [pteAt_some found, set_word, if_pos place.2]
  · next place =>
    refine pteAt_congr dir fun t' found => ?_
    by_cases same : t' = t
    · subst same
      have row := (sole.once d _ sole.alive found).2
      rw [set_word, if_neg fun column => place ⟨row, column⟩]
    · rw [set_other same]

theorem keeps_set {j w : Nat} (once : ∀ q q' r, held m g q = some r → held m g q' = some r → q = q')
    (alive : g.live d = true) (found : tableAt m d i = some t)
    (inside : ∀ b, b / 1024 = i → b % 1024 = j → b ∈ R) :
    Keeps g d R m (m.set t j w) := by
  have sole := sole_of_once once alive found
  have table : held m g (.table d i) = some t := by simp [held, alive, found]
  have other : ∀ x, (∀ a, x ≠ .user d a) → held (m.set t j w) g x = held m g x := fun x not =>
    (held_set_table sole x).2 fun a eq => absurd eq (not a)
  refine ⟨⟨fun e live ne => ⟨fun k => ?_, fun b => ?_⟩, fun k t' there => ?_⟩, fun q x not here =>
    set_other ?_, fun b out => ?_⟩
  · simpa only [held, live, if_true] using other (.table e k) (by simp)
  · have :=
      (held_set_table (w := w) (j := j) sole (.user e b)).2 fun a eq => absurd (by cases eq; rfl) ne
    simpa only [held, live, if_true] using this
  · have := other (.table d k) (by simp)
    simp only [held, alive, if_true] at this
    exact this.trans there
  · rintro rfl
    have clash := once _ _ _ table here
    subst clash
    exact not rfl
  · rw [pteAt_set sole, if_neg fun place => out (inside b place.1 place.2)]

theorem keeps_install {q : Place} (good : Good l m g free) (untied : Untied q)
    (here : held m g q = some t)
    (alive : g.live d = true) (inside : i < 1024) (empty : present (m.word d i) = false)
    (zero : m.word t = fun _ => 0) :
    Keeps g d R m (m.set d i (entry t 7)) := by
  have mine : held m g (.dir d) = some d := by simp [held, alive]
  have apart : ∀ {x : Place} {y : Nat}, x ≠ .dir d → held m g x = some y → y ≠ d := by
    rintro x y ne there rfl
    exact ne (good.once_at there mine)
  have hand : q ≠ .dir d := by
    rintro rfl
    exact untied
  have rest := (install_good good untied here alive inside empty zero).2
  have tied : ∀ e k, Place.table e k ≠ q := by
    rintro e k rfl
    exact untied
  have none_ : tableAt m d i = none := by simp [tableAt, empty]
  have tables : ∀ k, k ≠ i → tableAt (m.set d i (entry t 7)) d k = tableAt m d k := fun k ne => by
    simpa only [held, alive, if_true] using rest (.table d k) (fun eq => ne (by cases eq; rfl))
      (tied d k)
  refine ⟨⟨fun e live ne => ⟨fun k => ?_, fun b => ?_⟩, fun k t' there => ?_⟩, fun x y not there =>
    ?_, fun b _ => ?_⟩
  · simpa only [held, live, if_true] using rest (.table e k) (fun eq => ne (by cases eq; rfl))
      (tied e k)
  · have user : Place.user e b ≠ q := by
      rintro rfl
      exact untied
    simpa only [held, live, if_true] using rest (.user e b) (by simp) user
  · refine (tables k fun eq => ?_).trans there
    rw [eq, none_] at there
    cases there
  · refine set_other (apart (fun eq => not ?_) there)
    rw [eq]
    rfl
  · by_cases row : b / 1024 = i
    · have new : tableAt (m.set d i (entry t 7)) d (b / 1024) = some t := by
        simp [tableAt, set_word, row, inside, present_entry, frame_entry]
      rw [pteAt_some new, set_other (apart hand here), zero, pteAt_none (row ▸ none_)]
    · cases found : tableAt m d (b / 1024) with
      | none => rw [pteAt_none found, pteAt_none ((tables _ row).trans found)]
      | some t' =>
        have other : t' ≠ d :=
          apart (x := .table d (b / 1024)) (by simp) (by simp [held, alive, found])
        rw [pteAt_some found, pteAt_some ((tables _ row).trans found), set_other other]

theorem keeps_unmap (good : Good l m g free) (alive : g.live d = true) (low : a < kernbase)
    (found : tableAt m d (a / 1024) = some t) (mapped : present (m.word t (a % 1024)) = true)
    (freed : kfree l (frame (m.word t (a % 1024))) m = some m') (mem : a ∈ R) :
    Keeps g d R m (m'.set t (a % 1024) 0) := by
  have here : held m g (.user d a) = some (frame (m.word t (a % 1024))) := by
    simp [held, alive, userAt_eq low found, mapped]
  have word : ∀ y, y ≠ frame (m.word t (a % 1024)) → m'.word y = m.word y :=
    fun y ne => kfree_word freed ne
  have first : Keeps g d R m m' := keeps_user good alive here mem word
  have same : ∀ x, held m' g x = held m g x := held_congr (good.loose_user here) word
  refine first.trans (keeps_set (fun q q' r one other => ?_) alive (first.tables _ _ found)
    fun b row column => ?_)
  · exact good.once_at ((same q).symm.trans one) ((same q').symm.trans other)
  · rwa [show b = a by omega]

end Footprint

end PhysicalPages
