import Mathlib.Algebra.BigOperators.Group.List.Basic
import Mathlib.Algebra.GroupWithZero.Nat
import Mathlib.Data.List.Induction
import Xv6.Umalloc.Allocator

/- The free list as a list of blocks in address order, and what free and malloc make of it. -/
namespace UserMalloc
open PointerRing

abbrev Extent := Nat × Nat

def Apart (x y : Extent) : Prop := x.1 + 8 * x.2 ≤ y.1 ∨ y.1 + 8 * y.2 ≤ x.1

def total (fs : List Extent) : Nat := (fs.map Prod.snd).sum

abbrev addrs (fs : List Extent) : List Nat := fs.map Prod.fst

theorem addrs_append (u v : List Extent) : addrs (u ++ v) = addrs u ++ addrs v := List.map_append

theorem addrs_cons (f : Extent) (v : List Extent) : addrs (f :: v) = f.1 :: addrs v := rfl

/-- `fs` are the free blocks: the pointers lead from base through them in address order and back,
    and no two of them touch. -/
structure FreeList (base top : Nat) (h : Heap) (fs : List Extent) : Prop where
  ring : Path h.ptr base (addrs fs) base
  sizes : ∀ f ∈ fs, h.size f.1 = f.2
  empty : h.size base = 0
  order : fs.Pairwise fun f g => f.1 + 8 * f.2 < g.1
  freep : h.freep ∈ base :: addrs fs
  bounds : ∀ f ∈ fs, base + 8 ≤ f.1 ∧ 0 < f.2 ∧ f.1 + 8 * f.2 ≤ top

variable {base top bp n fuel : Nat} {h : Heap} {fs u v : List Extent}

theorem final_le (order : u.Pairwise fun f g => f.1 + 8 * f.2 < g.1) {f : Extent} (mem : f ∈ u) :
    f.1 ≤ final base (addrs u) := by
  induction u using List.reverseRecOn with
  | nil => cases mem
  | append_singleton u g ih =>
    rw [addrs, List.map_append, List.map_singleton, final_append]
    rcases List.mem_append.mp mem with before | last
    · have below := (List.pairwise_append.mp order).2.2 f before g (by simp)
      omega
    · obtain rfl : f = g := by simpa using last
      exact Nat.le_refl _

theorem final_split {p : Nat} (mem : p ∈ base :: addrs fs) :
    ∃ u v, fs = u ++ v ∧ final base (addrs u) = p := by
  rcases List.mem_cons.mp mem with rfl | inside
  · exact ⟨[], fs, rfl, rfl⟩
  · obtain ⟨f,within,rfl⟩ := List.mem_map.mp inside
    obtain ⟨u,v,rfl⟩ := List.append_of_mem within
    refine ⟨u ++ [f], v, by simp, ?_⟩
    rw [addrs, List.map_append, List.map_singleton, final_append]

namespace FreeList

theorem below (list : FreeList base top h (u ++ v)) {g : Extent} (mem : g ∈ v) :
    final base (addrs u) < g.1 := by
  have bound := (list.bounds g (by simp [mem])).1
  rcases List.mem_cons.mp (final_mem base (addrs u)) with first | inside
  · omega
  · obtain ⟨f,within,eq⟩ := List.mem_map.mp inside
    have order := (List.pairwise_append.mp list.order).2.2 f within g mem
    omega

theorem split (list : FreeList base top h (u ++ v)) :
    Path h.ptr base (addrs u) (entry (addrs v) base) ∧ Segment h.ptr (addrs v) base :=
  path_split.mp (addrs_append u v ▸ list.ring)

theorem next_final (list : FreeList base top h (u ++ v)) :
    h.ptr (final base (addrs u)) = entry (addrs v) base := path_final list.split.1

theorem distinct (list : FreeList base top h fs) : (base :: addrs fs).Nodup := by
  refine List.nodup_cons.mpr ⟨fun mem => ?_, ?_⟩
  · obtain ⟨f,inside,eq⟩ := List.mem_map.mp mem
    have := (list.bounds f inside).1
    omega
  · rw [addrs, List.Nodup, List.pairwise_map]
    exact list.order.imp fun {f g} below => by omega

end FreeList

theorem final_ge (list : FreeList base top h (u ++ v)) : base ≤ final base (addrs u) := by
  rcases List.mem_cons.mp (final_mem base (addrs u)) with first | inside
  · omega
  · obtain ⟨f,within,eq⟩ := List.mem_map.mp inside
    have := (list.bounds f (by simp [within])).1
    omega

def Before (h : Heap) (bp p : Nat) : Prop :=
  (p < bp ∧ bp < h.ptr p) ∨ (h.ptr p ≤ p ∧ (p < bp ∨ bp < h.ptr p))

instance (h : Heap) (bp p : Nat) : Decidable (Before h bp p) := inferInstanceAs (Decidable (_ ∨ _))

theorem before_iff (list : FreeList base top h (u ++ v)) (above : base < bp) :
    Before h bp (final base (addrs u)) ↔ final base (addrs u) < bp ∧ ∀ g ∈ v, bp < g.1 := by
  have next := list.next_final
  have low := final_ge list
  cases v with
  | nil =>
    have back : h.ptr (final base (addrs u)) = base := next
    simp only [Before, back, List.not_mem_nil, false_implies, implies_true, and_true]
    omega
  | cons g v =>
    have forth : h.ptr (final base (addrs u)) = g.1 := next
    have higher := list.below (g := g) (by simp)
    have rest : ∀ f ∈ v, g.1 < f.1 := by
      intro f mem
      have := List.rel_of_pairwise_cons (List.pairwise_append.mp list.order).2.1 mem
      omega
    simp only [Before, forth, List.forall_mem_cons]
    constructor
    · intro passes
      have both : final base (addrs u) < bp ∧ bp < g.1 := by omega
      exact ⟨both.1, both.2, fun f mem => Nat.lt_trans both.2 (rest f mem)⟩
    · rintro ⟨left,right,-⟩
      exact .inl ⟨left, right⟩

theorem split_at (order : fs.Pairwise fun f g => f.1 + 8 * f.2 < g.1) (bp : Nat) :
    ∃ u v, fs = u ++ v ∧ (∀ f ∈ u, f.1 < bp) ∧ ∀ f ∈ v, bp ≤ f.1 := by
  induction fs with
  | nil => exact ⟨[], [], rfl, by simp, by simp⟩
  | cons f fs ih =>
    by_cases low : f.1 < bp
    · obtain ⟨u,v,rfl,below,above⟩ := ih order.of_cons
      exact ⟨f :: u, v, rfl, List.forall_mem_cons.mpr ⟨low, below⟩, above⟩
    · refine ⟨[], f :: fs, rfl, by simp, List.forall_mem_cons.mpr ⟨by omega, fun g mem => ?_⟩⟩
      have := List.rel_of_pairwise_cons order mem
      omega

theorem seek_spec (list : FreeList base top h fs) (above : base + 8 ≤ bp) (some_ : 0 < n)
    (apart : ∀ f ∈ fs, Apart (bp, n) f) (enough : fs.length < fuel) :
    ∃ u v, fs = u ++ v ∧ seek h fuel bp = some (final base (addrs u)) ∧
      (∀ f ∈ u, f.1 + 8 * f.2 ≤ bp) ∧ ∀ f ∈ v, bp + 8 * n ≤ f.1 := by
  have sides : ∀ f ∈ fs, (f.1 < bp → f.1 + 8 * f.2 ≤ bp) ∧ (bp ≤ f.1 → bp + 8 * n ≤ f.1) := by
    intro f mem
    have away := apart f mem
    have size := (list.bounds f mem).2.1
    simp only [Apart] at away
    omega
  -- the node behind which `bp` belongs passes the test
  have exists_ : ∃ p ∈ base :: addrs fs, decide (Before h bp p) = true := by
    obtain ⟨u,v,rfl,low,high⟩ := split_at list.order bp
    have inside : final base (addrs u) ∈ base :: addrs (u ++ v) := by
      have := final_mem base (addrs u)
      simp only [addrs, List.map_append, List.mem_cons, List.mem_append] at this ⊢
      exact this.imp_right .inl
    refine ⟨_, inside, decide_eq_true ((before_iff list (by omega)).mpr ⟨?_, fun f mem => ?_⟩)⟩
    · rcases List.mem_cons.mp (final_mem base (addrs u)) with first | within
      · omega
      · obtain ⟨f,mem,eq⟩ := List.mem_map.mp within
        exact eq ▸ low f mem
    · have := (sides f (by simp [mem])).2 (high f mem)
      omega
  obtain ⟨p,mem,passes,found⟩ := find_ring list.ring list.freep exists_
    (show (addrs fs).length < fuel by simpa using enough)
  obtain ⟨u,v,rfl,rfl⟩ := final_split mem
  obtain ⟨low,high⟩ := (before_iff list (by omega)).mp (of_decide_eq_true passes)
  refine ⟨u, v, rfl, found, fun f inside => ?_, fun f inside => ?_⟩
  · have order : f.1 ≤ final base (addrs u) :=
      final_le (List.pairwise_append.mp list.order).1 inside
    exact (sides f (by simp [inside])).1 (by omega)
  · exact (sides f (by simp [inside])).2 (Nat.le_of_lt (high f inside))

structure Joined (base top : Nat) (h : Heap) (bp n : Nat) (v : List Extent) (h' : Heap) (m : Nat)
    (w : List Extent) :
    Prop where
  size : h'.size bp = m
  next : h'.ptr bp = entry (addrs w) base
  same : ∀ y, y ≠ bp → h'.ptr y = h.ptr y ∧ h'.size y = h.size y
  tail : w <:+ v
  room : n ≤ m
  gap : ∀ f ∈ w, bp + 8 * m < f.1
  high : bp + 8 * m ≤ top
  units : total w + m = total v + n
  cover : ∀ x : Extent, 0 < x.2 → Apart x (bp, n) → (∀ f ∈ v, Apart x f) → Apart x (bp, m)

theorem joinNext_spec (list : FreeList base top h (u ++ v)) (size : h.size bp = n) (some_ : 0 < n)
    (above : base < bp)
    (high : bp + 8 * n ≤ top) (small : top < word) (after : ∀ f ∈ v, bp + 8 * n ≤ f.1) :
    ∃ m w, Joined base top h bp n v (joinNext h (final base (addrs u)) bp) m w := by
  have next := list.next_final
  have ends : ahead bp n = bp + 8 * n := Nat.mod_eq_of_lt (by omega)
  rw [joinNext, size, ends, next]
  cases v with
  | nil =>
    have back : entry (addrs []) base = base := rfl
    rw [back, if_neg (by omega)]
    refine ⟨n, [], size, Function.update_self .., fun y other =>
      ⟨Function.update_of_ne other .., rfl⟩, List.suffix_refl _, Nat.le_refl _,
      by simp, high, rfl, fun x _ away _ => away⟩
  | cons g v =>
    have forth : entry (addrs (g :: v)) base = g.1 := rfl
    have bound := list.bounds g (by simp)
    rw [forth]
    by_cases touch : bp + 8 * n = g.1
    · have sum : (n + h.size g.1) % word = n + g.2 := by
        rw [list.sizes g (by simp)]
        exact Nat.mod_eq_of_lt (by omega)
      have beyond : h.ptr g.1 = entry (addrs v) base := by
        have longer : FreeList base top h ((u ++ [g]) ++ v) := by simpa using list
        have := longer.next_final
        rwa [addrs, List.map_append, List.map_singleton, final_append] at this
      rw [if_pos touch]
      refine ⟨n + g.2, v, ?_, ?_, fun y other =>
        ⟨Function.update_of_ne other .., Function.update_of_ne other ..⟩,
        List.suffix_cons g v, by omega, fun f mem => ?_, by
          omega, ?_, fun x positive away all => ?_⟩
      · rw [sum]
        exact Function.update_self ..
      · rw [beyond]
        exact Function.update_self ..
      · have := List.rel_of_pairwise_cons (List.pairwise_append.mp list.order).2.1 mem
        omega
      · simp only [total, List.map_cons, List.sum_cons]
        omega
      · have other := all g (by simp)
        simp only [Apart] at away other ⊢
        omega
    · rw [if_neg touch]
      refine ⟨n, g :: v, size, Function.update_self .., fun y other =>
        ⟨Function.update_of_ne other .., rfl⟩, List.suffix_refl _,
        Nat.le_refl _, fun f mem => ?_, high, rfl, fun x _ away _ => away⟩
      have least := after g (by simp)
      rcases List.mem_cons.mp mem with rfl | later
      · omega
      · have := List.rel_of_pairwise_cons (List.pairwise_append.mp list.order).2.1 later
        omega

structure Freed (base top : Nat) (h : Heap) (bp n : Nat) (fs : List Extent) (h' : Heap)
    (fs' : List Extent) : Prop where
  list : FreeList base top h' fs'
  units : total fs' = total fs + n
  large : ∃ f ∈ fs', n ≤ f.2
  cover : ∀ x : Extent, 0 < x.2 → Apart x (bp, n) → (∀ f ∈ fs, Apart x f) → ∀ f ∈ fs', Apart x f
  same : ∀ y, y ≠ bp → y ∉ addrs fs → h'.size y = h.size y

variable {h₁ : Heap} {m : Nat} {w : List Extent}

theorem update_congr {f g : Nat → Nat} {x a b : Nat} (same : f x = g x) :
    Function.update f a b x = Function.update g a b x := by
  rw [Function.update_apply, Function.update_apply, same]

theorem freed_linked (list : FreeList base top h (u ++ v))
    (joined : Joined base top h bp n v h₁ m w)
    (above : base + 8 ≤ bp) (some_ : 0 < n) (before : ∀ f ∈ u, f.1 + 8 * f.2 < bp) :
    Freed base top h bp n (u ++ v)
      { h₁ with ptr := Function.update h₁.ptr (final base
        (addrs u)) bp, freep := final base (addrs u) }
      (u ++ (bp, m) :: w) := by
  have within : ∀ f ∈ w, f ∈ v := fun f mem => joined.tail.subset mem
  have below : ∀ x ∈ base :: addrs u, x < bp := by
    intro x mem
    rcases List.mem_cons.mp mem with rfl | inside
    · omega
    · obtain ⟨f,within,rfl⟩ := List.mem_map.mp inside
      have := before f within
      omega
  have last := below _ (final_mem base (addrs u))
  have behind : ∀ x ∈ addrs w, bp < x := by
    intro x mem
    obtain ⟨f,inside,rfl⟩ := List.mem_map.mp mem
    have := joined.gap f inside
    omega
  obtain ⟨first,second⟩ := list.split
  have distinct : (base :: addrs u).Nodup :=
    list.distinct.sublist (by simp [addrs])
  have bounds := list.bounds
  have roomy := joined.room
  refine ⟨⟨?_, fun f mem => ?_, ?_, ?_, ?_, fun f mem => ?_⟩, ?_, ⟨(bp, m), by simp, roomy⟩,
    fun x positive away all f mem => ?_, fun y other _ => (joined.same y other).2⟩
  · rw [addrs_append, addrs_cons]
    refine path_append.mpr ⟨path_congr (path_retarget first distinct bp) fun x mem => ?_,
      path_of_segment ?_ ?_⟩
    · have := below x mem
      exact update_congr (joined.same x (by omega)).1
    · exact (Function.update_of_ne (by omega) ..).trans joined.next
    · refine segment_congr (segment_suffix second (joined.tail.map _)) fun x mem => ?_
      have := behind x mem
      exact (Function.update_of_ne (by omega) ..).trans (joined.same x (by omega)).1
  · rcases List.mem_append.mp mem with left | right
    · have := before f left
      exact (joined.same f.1 (by omega)).2.trans (list.sizes f (by simp [left]))
    · rcases List.mem_cons.mp right with rfl | right
      · exact joined.size
      · have := joined.gap f right
        exact (joined.same f.1 (by omega)).2.trans (list.sizes f (by simp [within f right]))
  · exact (joined.same base (by omega)).2.trans list.empty
  · obtain ⟨left,right,cross⟩ := List.pairwise_append.mp list.order
    refine List.pairwise_append.mpr
      ⟨left, List.pairwise_cons.mpr ⟨joined.gap, right.sublist joined.tail.sublist⟩, ?_⟩
    intro f inside g mem
    rcases List.mem_cons.mp mem with rfl | mem
    · exact before f inside
    · exact cross f inside g (within g mem)
  · have := final_mem base (addrs u)
    simp only [addrs, List.map_append, List.mem_cons, List.mem_append] at this ⊢
    exact this.imp_right .inl
  · rcases List.mem_append.mp mem with left | right
    · exact bounds f (by simp [left])
    · rcases List.mem_cons.mp right with rfl | right
      · exact ⟨above, by omega, joined.high⟩
      · exact bounds f (by simp [within f right])
  · have := joined.units
    simp only [total, List.map_append, List.map_cons, List.sum_append, List.sum_cons] at this ⊢
    omega
  · rcases List.mem_append.mp mem with left | right
    · exact all f (by simp [left])
    · rcases List.mem_cons.mp right with rfl | right
      · exact joined.cover x positive away fun f mem => all f (by simp [mem])
      · exact all f (by simp [within f right])

theorem freed_merged {a k : Nat} (list : FreeList base top h ((u ++ [(a, k)]) ++ v))
    (joined : Joined base top h bp n v h₁ m w) (touch : a + 8 * k = bp) (some_ : 0 < n) :
    Freed base top h bp n ((u ++ [(a, k)]) ++ v)
      { ptr := Function.update h₁.ptr a (entry
        (addrs w) base), size := Function.update h₁.size a (k + m), freep := a }
      (u ++ (a, k + m) :: w) := by
  have within : ∀ f ∈ w, f ∈ v := fun f mem => joined.tail.subset mem
  have bounds := list.bounds
  have own := bounds (a, k) (by simp)
  obtain ⟨left,right,cross⟩ := List.pairwise_append.mp list.order
  obtain ⟨left,-,until_⟩ := List.pairwise_append.mp left
  have before : ∀ f ∈ u, f.1 + 8 * f.2 < a := fun f mem => until_ f mem (a, k) (by simp)
  have below : ∀ x ∈ base :: addrs u, x < a := by
    intro x mem
    rcases List.mem_cons.mp mem with rfl | inside
    · omega
    · obtain ⟨f,here,rfl⟩ := List.mem_map.mp inside
      have := before f here
      omega
  have behind : ∀ f ∈ w, bp < f.1 := by
    intro f mem
    have := joined.gap f mem
    have := joined.room
    omega
  have first : Path h.ptr base (addrs u) a := by
    have path := list.split.1
    rw [addrs_append] at path
    exact (path_append.mp path).1
  have second := list.split.2
  have roomy := joined.room
  refine ⟨⟨?_, fun f mem => ?_, ?_, ?_, by simp [addrs], fun f mem => ?_⟩, ?_,
    ⟨(a, k + m), by simp, Nat.le_add_left_of_le roomy⟩,
    fun x positive away all f mem => ?_, fun y other out => ?_⟩
  · rw [addrs_append, addrs_cons]
    refine path_append.mpr ⟨path_congr first fun x mem => ?_,
      path_of_segment (Function.update_self ..) ?_⟩
    · have := below x mem
      exact (Function.update_of_ne (by omega) ..).trans (joined.same x (by omega)).1
    · refine segment_congr (segment_suffix second (joined.tail.map _)) fun x mem => ?_
      obtain ⟨f,inside,rfl⟩ := List.mem_map.mp mem
      have := behind f inside
      exact (Function.update_of_ne (by omega) ..).trans (joined.same f.1 (by omega)).1
  · rcases List.mem_append.mp mem with low | high
    · have := before f low
      exact (Function.update_of_ne (by omega) ..).trans
        ((joined.same f.1 (by omega)).2.trans (list.sizes f (by simp [low])))
    · rcases List.mem_cons.mp high with rfl | high
      · exact Function.update_self ..
      · have := behind f high
        exact (Function.update_of_ne (by omega) ..).trans
          ((joined.same f.1 (by omega)).2.trans (list.sizes f (by simp [within f high])))
  · exact (Function.update_of_ne (by omega) ..).trans
      ((joined.same base (by omega)).2.trans list.empty)
  · refine List.pairwise_append.mpr
      ⟨left, List.pairwise_cons.mpr ⟨fun f mem => ?_, right.sublist joined.tail.sublist⟩, ?_⟩
    · have := joined.gap f mem
      simp only
      omega
    · intro f inside g mem
      rcases List.mem_cons.mp mem with rfl | mem
      · exact before f inside
      · exact cross f (by simp [inside]) g (within g mem)
  · rcases List.mem_append.mp mem with low | high
    · exact bounds f (by simp [low])
    · rcases List.mem_cons.mp high with rfl | high
      · have := joined.high
        simp only
        omega
      · exact bounds f (by simp [within f high])
  · have := joined.units
    simp only [total, List.map_append, List.map_cons, List.map_nil, List.sum_append, List.sum_cons,
      List.sum_nil] at this ⊢
    omega
  · rcases List.mem_append.mp mem with low | high
    · exact all f (by simp [low])
    · rcases List.mem_cons.mp high with rfl | high
      · have lower := all (a, k) (by simp)
        have upper := joined.cover x positive away fun f mem => all f (by simp [mem])
        simp only [Apart] at lower upper ⊢
        omega
      · exact all f (by simp [within f high])
  · refine (Function.update_of_ne (fun eq => out ?_) ..).trans (joined.same y other).2
    simp [addrs, eq]

theorem joinPrev_spec (list : FreeList base top h (u ++ v))
    (joined : Joined base top h bp n v h₁ m w)
    (some_ : 0 < n) (above : base + 8 ≤ bp) (small : top < word)
    (low : ∀ f ∈ u, f.1 + 8 * f.2 ≤ bp) :
    ∃ fs', Freed base top h bp n (u ++ v)
      { joinPrev h₁ (final base (addrs u)) bp with freep := final base (addrs u) } fs' := by
  have high := joined.high
  rcases List.eq_nil_or_concat' u with rfl | ⟨u,⟨a,k⟩,rfl⟩
  · -- base has no units, so it takes nothing in
    have empty : h₁.size base = 0 := (joined.same base (by omega)).2.trans list.empty
    have stay : ahead base 0 = base := Nat.mod_eq_of_lt (by omega)
    refine ⟨[] ++ (bp, m) :: w, ?_⟩
    rw [show final base (addrs []) = base from rfl, joinPrev, empty, stay, if_neg (by omega)]
    exact freed_linked list joined above some_ (by simp)
  · obtain ⟨-,positive,-⟩ := list.bounds (a, k) (by simp)
    have bound := low (a, k) (by simp)
    simp only at positive bound
    have ends : final base (addrs (u ++ [(a, k)])) = a := by
      rw [addrs_append]
      exact final_append ..
    have mine : h₁.size a = k := (joined.same a (by omega)).2.trans (list.sizes (a, k) (by simp))
    have until_ : ahead a k = a + 8 * k := Nat.mod_eq_of_lt (by omega)
    by_cases touch : a + 8 * k = bp
    · refine ⟨u ++ (a, k + m) :: w, ?_⟩
      rw [ends, joinPrev, mine, until_, if_pos touch, joined.size, joined.next,
        Nat.mod_eq_of_lt (by omega)]
      exact freed_merged list joined touch some_
    · have strict : ∀ f ∈ u ++ [(a, k)], f.1 + 8 * f.2 < bp := by
        intro f mem
        rcases List.mem_append.mp mem with inside | last
        · have := (List.pairwise_append.mp (List.pairwise_append.mp list.order).1).2.2 f inside
            (a, k) (by simp)
          simp only at this
          omega
        · obtain rfl : f = (a, k) := by simpa using last
          exact Nat.lt_of_le_of_ne bound touch
      have linked := freed_linked list joined above some_ strict
      refine ⟨(u ++ [(a, k)]) ++ (bp, m) :: w, ?_⟩
      rw [ends] at linked
      rw [ends, joinPrev, mine, until_, if_neg touch]
      exact linked

theorem free_spec (list : FreeList base top h fs) (size : h.size bp = n) (some_ : 0 < n)
    (above : base + 8 ≤ bp)
    (high : bp + 8 * n ≤ top) (small : top < word) (apart : ∀ f ∈ fs, Apart (bp, n) f)
    (enough : fs.length < fuel) :
    ∃ h' fs', free fuel h (bp + 8) = some h' ∧ Freed base top h bp n fs h' fs' := by
  obtain ⟨u,v,rfl,found,low,after⟩ := seek_spec list above some_ apart enough
  have start : (bp + 8 + word - 8) % word = bp := by
    rw [show bp + 8 + word - 8 = bp + word by omega, Nat.add_mod_right]
    exact Nat.mod_eq_of_lt (by omega)
  obtain ⟨m,w,joined⟩ := joinNext_spec list size some_ (by omega) high small after
  obtain ⟨fs',freed⟩ := joinPrev_spec list joined some_ above small low
  refine ⟨_, fs', ?_, freed⟩
  simp only [free, start, found, Option.map_some]

end UserMalloc
