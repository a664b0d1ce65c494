import Mathlib.Data.List.Chain
import Mathlib.Data.List.Nodup
import Mathlib.Logic.Function.Basic

/- Circular doubly linked lists through a sentinel node: pointers `next` and `prev` as maps,
   insertion behind the sentinel, unlinking of a node, and the loop that follows one of the
   pointers until it is back at the sentinel. -/
namespace LinkedRing
variable {V : Type}

structure Links (V : Type) where
  next : V → V
  prev : V → V

def Linked (k : Links V) (a b : V) : Prop := k.next a = b ∧ k.prev b = a

structure Circular (k : Links V) (h : V) (l : List V) : Prop where
  distinct : (h :: l).Nodup
  chain : List.IsChain (Linked k) (h :: (l ++ [h]))

def Links.flip (k : Links V) : Links V := ⟨k.prev, k.next⟩

variable {k : Links V} {h : V} {l : List V}

theorem circular_flip (ring : Circular k h l) :
    Circular k.flip h l.reverse := by
  refine ⟨?_, ?_⟩
  · have := ring.distinct
    simpa using this
  · have turned : List.IsChain (Linked k.flip) (h :: (l ++ [h])).reverse := by
      rw [List.isChain_reverse]
      exact ring.chain.imp fun a b link => ⟨link.2,link.1⟩
    simpa using turned

def scan (next : V → V) [DecidableEq V] (stop : V) (test : V → Bool) : Nat → V → Option V
  | 0, _ => none
  | fuel + 1, v =>
    if v = stop then none else if test v then some v else scan next stop test fuel (next v)

theorem scan_chain [DecidableEq V] (test : V → Bool) {a : V}
    (chain : List.IsChain (Linked k) (a :: (l ++ [h]))) (outside : h ∉ l) {fuel : Nat}
    (enough : l.length < fuel) : scan k.next h test fuel (k.next a) = l.find? test := by
  induction l generalizing a fuel with
  | nil =>
    obtain ⟨fuel,rfl⟩ : ∃ m, fuel = m + 1 := ⟨fuel - 1, by simp at enough; omega⟩
    simp only [List.nil_append, List.isChain_cons_cons] at chain
    simp [scan, chain.1.1]
  | cons x l ih =>
    obtain ⟨fuel,rfl⟩ : ∃ m, fuel = m + 1 := ⟨fuel - 1, by simp at enough; omega⟩
    simp only [List.cons_append, List.isChain_cons_cons] at chain
    obtain ⟨first,rest⟩ := chain
    have ne : x ≠ h := by
      rintro rfl
      simp at outside
    simp only [scan, first.1, ne, if_false, List.find?_cons]
    cases found : test x with
    | true => simp
    | false =>
      simpa using ih rest (fun mem => outside (List.mem_cons_of_mem x mem))
        (by simp at enough; omega)

/-- The loop from the sentinel finds the first node of the ring that passes. -/
theorem scan_ring [DecidableEq V] (ring : Circular k h l)
    (test : V → Bool) {fuel : Nat} (enough : l.length < fuel) :
    scan k.next h test fuel (k.next h) = l.find? test :=
  scan_chain test ring.chain (List.nodup_cons.mp ring.distinct).1 enough

variable [DecidableEq V]

/-- `b->next = head.next; b->prev = head; head.next->prev = b; head.next = b` -/
def Links.insert (k : Links V) (h b : V) : Links V where
  next := Function.update (Function.update k.next b (k.next h)) h b
  prev := Function.update (Function.update k.prev b h) (k.next h) b

/-- `b->next->prev = b->prev; b->prev->next = b->next` -/
def Links.unlink (k : Links V) (b : V) : Links V where
  next := Function.update k.next (k.prev b) (k.next b)
  prev := Function.update k.prev (k.next b) (k.prev b)

omit [DecidableEq V] in
theorem chain_congr {m : Links V} {c : List V} (next : ∀ x ∈ c.dropLast, m.next x = k.next x)
    (prev : ∀ x ∈ c.tail, m.prev x = k.prev x) (chain : List.IsChain (Linked k) c) :
    List.IsChain (Linked m) c := by
  induction c with
  | nil => exact .nil
  | cons a c ih =>
    cases c with
    | nil => exact .singleton a
    | cons b c =>
      rw [List.isChain_cons_cons] at chain ⊢
      refine ⟨⟨?_, ?_⟩, ih (fun x mem => next x ?_) (fun x mem => prev x ?_) chain.2⟩
      · rw [next a (by simp), chain.1.1]
      · rw [prev b (by simp), chain.1.2]
      · rw [List.dropLast_cons_of_ne_nil (by simp)]
        exact List.mem_cons_of_mem a mem
      · exact List.mem_cons_of_mem b mem

theorem circular_insert {b : V} (ring : Circular k h l)
    (fresh : b ∉ h :: l) : Circular (k.insert h b) h (b :: l) := by
  obtain ⟨distinct,chain⟩ := ring
  have other : b ≠ h := by
    rintro rfl
    simp at fresh
  have outside := List.nodup_cons.mp distinct
  obtain ⟨q,rest,split⟩ : ∃ q rest, l ++ [h] = q :: rest := by
    cases l with
    | nil => exact ⟨h, [], rfl⟩
    | cons x l => exact ⟨x, l ++ [h], rfl⟩
  have first : k.next h = q := by
    rw [split, List.isChain_cons_cons] at chain
    exact chain.1.1
  have all : (q :: rest).Nodup := by
    rw [← split, List.nodup_append]
    refine ⟨outside.2, by simp, ?_⟩
    intro x mem y eq
    rw [List.mem_singleton.mp eq]
    rintro rfl
    exact outside.1 mem
  have apart : q ≠ b := by
    intro same
    have : b ∈ l ++ [h] := by simp [split, same]
    simp only [List.mem_append, List.mem_singleton] at this
    exact this.elim (fun mem => fresh (List.mem_cons_of_mem h mem)) other
  refine ⟨?_, ?_⟩
  · rw [List.nodup_cons, List.nodup_cons]
    refine ⟨?_, fun mem => fresh (List.mem_cons_of_mem h mem), outside.2⟩
    rw [List.mem_cons, not_or]
    exact ⟨Ne.symm other, outside.1⟩
  · rw [List.cons_append, List.isChain_cons_cons, split, List.isChain_cons_cons]
    refine ⟨⟨?_, ?_⟩, ⟨?_, ?_⟩, ?_⟩
    · simp [Links.insert]
    · simp [Links.insert, first, Ne.symm apart]
    · simp [Links.insert, other, first]
    · simp [Links.insert, first]
    · rw [← split]
      have tail : List.IsChain (Linked k) (l ++ [h]) := by
        rw [split] at chain ⊢
        exact (List.isChain_cons_cons.mp chain).2
      refine chain_congr (fun x mem => ?_) (fun x mem => ?_) tail
      · have inside : x ∈ l := by simpa using mem
        have ne : x ≠ h := by
          rintro rfl
          exact outside.1 inside
        have ne' : x ≠ b := by
          rintro rfl
          exact fresh (List.mem_cons_of_mem h inside)
        simp [Links.insert, ne, ne']
      · rw [split, List.tail_cons] at mem
        have ne : x ≠ q := by
          rintro rfl
          exact (List.nodup_cons.mp all).1 mem
        have ne' : x ≠ b := by
          rintro rfl
          have : x ∈ l ++ [h] := by simp [split, mem]
          simp only [List.mem_append, List.mem_singleton] at this
          exact this.elim (fun mem => fresh (List.mem_cons_of_mem h mem)) other
        simp [Links.insert, first, ne, ne']

theorem circular_build (bs : List V) (ring : Circular k h l)
    (distinct : (h :: (bs.reverse ++ l)).Nodup) :
    Circular (bs.foldl (fun k b => k.insert h b) k) h (bs.reverse ++ l) := by
  induction bs generalizing k l with
  | nil => exact ring
  | cons b bs ih =>
    rw [List.reverse_cons, List.append_assoc, List.singleton_append] at distinct ⊢
    refine ih (circular_insert ring ?_) distinct
    grind

theorem circular_unlink {b : V} {before after : List V}
    (ring : Circular k h (before ++ b :: after)) : Circular (k.unlink b) h (before ++ after) := by
  obtain ⟨distinct,chain⟩ := ring
  -- `p` and `n` are the neighbours of `b`, either of which may be the sentinel.
  obtain ⟨u,p,left⟩ : ∃ u p, h :: before = u ++ [p] :=
    ⟨_, _, (List.dropLast_append_getLast (List.cons_ne_nil h before)).symm⟩
  obtain ⟨n,w,right⟩ : ∃ n w, after ++ [h] = n :: w := by
    cases after with
    | nil => exact ⟨h, [], rfl⟩
    | cons x after => exact ⟨x, after ++ [h], rfl⟩
  have whole : h :: (before ++ b :: after ++ [h]) = u ++ p :: b :: n :: w := by
    rw [List.append_assoc, List.cons_append, ← List.cons_append, left, right]
    simp
  rw [whole, List.isChain_append_cons_cons, List.isChain_cons_cons] at chain
  obtain ⟨front,⟨-,prev⟩,⟨next,-⟩,back⟩ := chain
  have sides : (h :: before).Nodup ∧ (b :: after).Nodup ∧ ∀ x ∈ h :: before, ∀ y ∈ b :: after,
      x ≠ y := by
    have all : ((h :: before) ++ (b :: after)).Nodup := distinct
    simpa only [List.nodup_append] using all
  obtain ⟨first,second,apart⟩ := sides
  have isNext : n ∈ after ∨ n = h := by
    have : n ∈ after ++ [h] := by simp [right]
    simpa using this
  have isPrev : p ∈ h :: before := by simp [left]
  refine ⟨?_, ?_⟩
  · refine List.Nodup.sublist ?_ distinct
    exact ((List.sublist_cons_self b after).append_left before).cons_cons h
  · have joined : h :: (before ++ after ++ [h]) = u ++ p :: n :: w := by
      rw [List.append_assoc, ← List.cons_append, left, right]
      simp
    rw [joined, List.isChain_append_cons_cons]
    refine ⟨chain_congr (fun x mem => ?_) (fun x mem => ?_) front,
      ⟨by simp [Links.unlink, prev, next], by simp [Links.unlink, prev, next]⟩,
      chain_congr (fun x mem => ?_) (fun x mem => ?_) back⟩
    · rw [List.dropLast_concat] at mem
      have ne : x ≠ p := by
        rintro rfl
        rw [left, List.nodup_append] at first
        exact first.2.2 x mem x (by simp) rfl
      simp [Links.unlink, prev, ne]
    · rw [← left, List.tail_cons] at mem
      have ne : x ≠ n := by
        rintro rfl
        cases isNext with
        | inl below => exact apart x (by simp [mem]) x (by simp [below]) rfl
        | inr same => exact (List.nodup_cons.mp first).1 (same ▸ mem)
      simp [Links.unlink, next, ne]
    · rw [← right, List.dropLast_concat] at mem
      have ne : x ≠ p := by
        rintro rfl
        exact apart x isPrev x (by simp [mem]) rfl
      simp [Links.unlink, prev, ne]
    · have ne : x ≠ n := by
        rintro rfl
        have tail : (after ++ [h]).Nodup := by
          rw [List.nodup_append]
          refine ⟨(List.nodup_cons.mp second).2, by simp, fun y inside z eq => ?_⟩
          rw [List.mem_singleton.mp eq]
          exact (apart h (by simp) y (by simp [inside])).symm
        rw [right] at tail
        exact (List.nodup_cons.mp tail).1 mem
      simp [Links.unlink, next, ne]

/-- Unlinking a node of the ring and inserting it behind the sentinel permutes the ring. -/
theorem circular_front {b : V} (ring : Circular k h l)
    (inside : b ∈ l) :
    ∃ rest, Circular ((k.unlink b).insert h b) h (b :: rest) ∧ (b :: rest).Perm l := by
  obtain ⟨before,after,rfl⟩ := List.append_of_mem inside
  refine ⟨before ++ after, circular_insert (circular_unlink ring) ?_, List.perm_middle.symm⟩
  have distinct := ring.distinct
  grind

end LinkedRing
