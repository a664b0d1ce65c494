import Mathlib.Data.List.Pairwise
import Xv6.Umalloc.Blocks

/- What malloc takes from the free blocks, and the blocks over whole runs. -/
namespace UserMalloc
open PointerRing RunLaws

variable {base top nunits : Nat} {h : Heap} {s : State} {fs u v : List Extent}

structure Taken (base top : Nat) (h : Heap) (fs : List Extent) (q nunits : Nat) (h' : Heap)
    (fs' : List Extent) :
    Prop where
  list : FreeList base top h' fs'
  size : h'.size q = nunits
  bounds : base + 8 ≤ q ∧ q + 8 * nunits ≤ top
  apart : ∀ f ∈ fs', Apart (q, nunits) f
  units : total fs' + nunits = total fs
  cover : ∀ x : Extent, 0 < x.2 → (∀ f ∈ fs, Apart x f) → Apart x (q, nunits) ∧ ∀ f ∈ fs', Apart x f
  same : ∀ y, y ≠ q → y ∉ addrs fs → h'.size y = h.size y

theorem taken_whole {a : Nat} (list : FreeList base top h (u ++ (a, nunits) :: v)) :
    Taken base top h (u ++ (a, nunits) :: v) a nunits
      { h with ptr := Function.update h.ptr (final base (addrs u)) (entry
        (addrs v) base), freep := final base (addrs u) }
      (u ++ v) := by
  have own := list.bounds (a, nunits) (by simp)
  obtain ⟨left,right,cross⟩ := List.pairwise_append.mp list.order
  have after : ∀ f ∈ v, a + 8 * nunits < f.1 := fun f mem => List.rel_of_pairwise_cons right mem
  have lesser := list.below (g := (a, nunits)) (by simp)
  have distinct : (base :: addrs u).Nodup := list.distinct.sublist (by simp [addrs])
  obtain ⟨first,second⟩ := list.split
  have inside : ∀ f ∈ u ++ v, f ∈ u ++ (a, nunits) :: v := by
    intro f mem
    exact (List.mem_append.mp mem).elim (fun low => by simp [low]) fun high => by simp [high]
  refine ⟨⟨?_, fun f mem => list.sizes f (inside f mem), list.empty, ?_, ?_, fun f mem =>
    list.bounds f (inside f mem)⟩,
    list.sizes (a, nunits) (by simp), ⟨own.1, own.2.2⟩, fun f mem => ?_, ?_,
    fun x _ all => ⟨all (a, nunits) (by simp), fun f mem => all f (inside f mem)⟩, fun _ _ _ => rfl⟩
  · rw [addrs_append]
    refine path_split.mpr ⟨path_retarget first distinct _,
      segment_congr (segment_of_path second) fun x mem => ?_⟩
    obtain ⟨f,within,rfl⟩ := List.mem_map.mp mem
    have := after f within
    exact Function.update_of_ne (by simp only at lesser; omega) ..
  · exact List.pairwise_append.mpr ⟨left, right.of_cons, fun f low g high =>
      cross f low g (by simp [high])⟩
  · have := final_mem base (addrs u)
    simp only [addrs, List.map_append, List.mem_cons, List.mem_append] at this ⊢
    exact this.imp_right .inl
  · rcases List.mem_append.mp mem with low | high
    · have := cross f low (a, nunits) (by simp)
      simp only [Apart] at this ⊢
      omega
    · exact .inl (Nat.le_of_lt (after f high))
  · simp only [total, List.map_append, List.map_cons, List.sum_append, List.sum_cons]
    omega

theorem taken_tail {a k : Nat} (list : FreeList base top h (u ++ (a, k) :: v)) (more : nunits < k)
    (some_ : 0 < nunits) :
    Taken base top h (u ++ (a, k) :: v) (a + 8 * (k - nunits)) nunits
      { h with
        size :=
          Function.update (Function.update h.size a (k - nunits)) (a + 8 * (k - nunits)) nunits
        freep := final base (addrs u) }
      (u ++ (a, k - nunits) :: v) := by
  have own := list.bounds (a, k) (by simp)
  obtain ⟨left,right,cross⟩ := List.pairwise_append.mp list.order
  have after : ∀ f ∈ v, a + 8 * k < f.1 := fun f mem => List.rel_of_pairwise_cons right mem
  have before : ∀ f ∈ u, f.1 + 8 * f.2 < a := fun f mem => cross f mem (a, k) (by simp)
  have same : addrs (u ++ (a, k - nunits) :: v) = addrs (u ++ (a, k) :: v) := by simp [addrs]
  have others : ∀ y, y ≠ a → y ≠ a + 8 * (k - nunits) →
      Function.update (Function.update h.size a (k - nunits)) (a + 8 * (k - nunits)) nunits y =
        h.size y := by
    intro y head tail
    rw [Function.update_of_ne tail, Function.update_of_ne head]
  simp only at own
  refine ⟨⟨?_, fun f mem => ?_, ?_, ?_, ?_, fun f mem => ?_⟩, Function.update_self ..,
    ⟨by omega, by omega⟩,
    fun f mem => ?_, ?_, fun x positive all => ?_, fun y other out => ?_⟩
  · rw [same]
    exact list.ring
  · rcases List.mem_append.mp mem with low | high
    · have := before f low
      exact (others f.1 (by omega) (by omega)).trans (list.sizes f (by simp [low]))
    · rcases List.mem_cons.mp high with rfl | high
      · exact (Function.update_of_ne (by simp only; omega) ..).trans (Function.update_self ..)
      · have := after f high
        exact (others f.1 (by omega) (by omega)).trans (list.sizes f (by simp [high]))
  · exact (others base (by omega) (by omega)).trans list.empty
  · refine List.pairwise_append.mpr ⟨left, List.pairwise_cons.mpr ⟨fun f mem => ?_, right.of_cons⟩,
      fun f low g high => ?_⟩
    · have := after f mem
      simp only
      omega
    · rcases List.mem_cons.mp high with rfl | high
      · exact before f low
      · exact cross f low g (by simp [high])
  · have := final_mem base (addrs u)
    simp only [addrs, List.map_append, List.mem_cons, List.mem_append] at this ⊢
    exact this.imp_right .inl
  · rcases List.mem_append.mp mem with low | high
    · exact list.bounds f (by simp [low])
    · rcases List.mem_cons.mp high with rfl | high
      · simp only
        omega
      · exact list.bounds f (by simp [high])
  · rcases List.mem_append.mp mem with low | high
    · have := before f low
      simp only [Apart]
      omega
    · rcases List.mem_cons.mp high with rfl | high
      · exact .inr (Nat.le_refl _)
      · have := after f high
        simp only [Apart]
        omega
  · simp only [total, List.map_append, List.map_cons, List.sum_append, List.sum_cons]
    omega
  · have mine := all (a, k) (by simp)
    simp only [Apart] at mine ⊢
    refine ⟨by omega, fun f mem => ?_⟩
    rcases List.mem_append.mp mem with low | high
    · exact all f (by simp [low])
    · rcases List.mem_cons.mp high with rfl | high
      · simp only
        omega
      · exact all f (by simp [high])
  · exact others y (fun eq => out (by simp [addrs, eq])) other

theorem take_spec {f : Extent} (list : FreeList base top h (u ++ f :: v)) (some_ : 0 < nunits)
    (fits : nunits ≤ f.2)
    (small : top < word) :
    ∃ q h' fs', take h nunits (final base (addrs u)) = (q, h') ∧
      Taken base top h (u ++ f :: v) q nunits h' fs' := by
  obtain ⟨a,k⟩ := f
  have own := list.bounds (a, k) (by simp)
  have next : h.ptr (final base (addrs u)) = a := list.next_final
  have size : h.size a = k := list.sizes (a, k) (by simp)
  simp only at own fits
  by_cases exact_ : k = nunits
  · subst exact_
    have onward : h.ptr a = entry (addrs v) base := path_entry list.split.2
    refine ⟨a, _, u ++ v, ?_, taken_whole list⟩
    simp only [take, next, size, if_true, onward]
  · have place : ahead a (k - nunits) = a + 8 * (k - nunits) := Nat.mod_eq_of_lt (by omega)
    refine ⟨_, _, _, ?_, taken_tail list (by omega) some_⟩
    simp only [take, next, size, if_neg exact_, place]

theorem length_le_total (positive : ∀ f ∈ fs, 0 < f.2) : fs.length ≤ total fs := by
  induction fs with
  | nil => exact Nat.le_refl _
  | cons f fs ih =>
    have first := positive f (by simp)
    have rest := ih fun g mem => positive g (by simp [mem])
    simp only [total, List.map_cons, List.sum_cons, List.length_cons] at rest ⊢
    omega

theorem FreeList.length_le (list : FreeList base top h fs) : fs.length ≤ total fs :=
  length_le_total fun f mem => (list.bounds f mem).2.1

theorem hunt_large (list : FreeList base top s.heap fs) (few : total fs ≤ s.units)
    (some_ : 0 < nunits)
    (large : ∃ f ∈ fs, nunits ≤ f.2) :
    ∃ u f v, fs = u ++ f :: v ∧ nunits ≤ f.2 ∧
      hunt s nunits s.heap.freep = some (final base (addrs u)) := by
  have passes : ∃ a ∈ base :: addrs fs, decide (nunits ≤ s.heap.size (s.heap.ptr a)) = true := by
    obtain ⟨f,mem,fits⟩ := large
    obtain ⟨a,inside,next⟩ :=
      ring_before list.ring (f := f.1) (by simp [addrs, List.mem_map_of_mem mem])
    exact ⟨a, inside, decide_eq_true (by rw [next, list.sizes f mem]; exact fits)⟩
  have enough : (addrs fs).length < s.rounds := by
    have := list.length_le
    simp only [addrs, List.length_map, State.rounds]
    omega
  obtain ⟨a,mem,good,found⟩ := find_ring_until list.ring list.distinct list.freep passes enough
  obtain ⟨u,v,rfl,rfl⟩ := final_split mem
  have next := list.next_final
  have good := of_decide_eq_true good
  cases v with
  | nil =>
    -- base is never large enough
    rw [next, show entry (addrs []) base = base from rfl, list.empty] at good
    omega
  | cons f v =>
    rw [next, show entry (addrs (f :: v)) base = f.1 from rfl, list.sizes f (by simp)] at good
    refine ⟨u, f, v, rfl, good, ?_⟩
    simpa [hunt] using found

theorem node_small (list : FreeList base top h fs) (some_ : 0 < nunits)
    (small : ∀ f ∈ fs, f.2 < nunits) {p : Nat}
    (mem : p ∈ base :: addrs fs) : h.size (h.ptr p) < nunits := by
  obtain ⟨u,v,rfl,rfl⟩ := final_split mem
  rw [list.next_final]
  cases v with
  | nil => exact Nat.lt_of_le_of_lt (Nat.le_of_eq list.empty) some_
  | cons f v => exact Nat.lt_of_le_of_lt (Nat.le_of_eq (list.sizes f (by simp))) (small f (by simp))

theorem hunt_small (list : FreeList base top s.heap fs) (few : total fs ≤ s.units)
    (some_ : 0 < nunits)
    (small : ∀ f ∈ fs, f.2 < nunits) :
    ∃ p, hunt s nunits s.heap.freep = some p ∧ ¬ nunits ≤ s.heap.size (s.heap.ptr p) := by
  have back : ∃ a ∈ base :: addrs fs,
      decide (nunits ≤ s.heap.size (s.heap.ptr a) ∨ s.heap.ptr a = s.heap.freep) = true := by
    obtain ⟨b,inside,next⟩ := ring_before list.ring list.freep
    exact ⟨b, inside, decide_eq_true (.inr next)⟩
  have enough : (addrs fs).length < s.rounds := by
    have := list.length_le
    simp only [addrs, List.length_map, State.rounds]
    omega
  obtain ⟨p,mem,-,found⟩ := find_ring list.ring list.freep back enough
  exact ⟨p, found, Nat.not_le.mpr (node_small list some_ small mem)⟩

def Block.extent (b : Block) : Extent := (b.addr, b.units)

instance : Std.Symm fun b c : Block => Apart b.extent c.extent := ⟨fun _ _ => Or.symm⟩

structure Ok (base : Nat) (s : State) (fs : List Extent) : Prop where
  data : 0 < base ∧ base + 8 ≤ s.top ∧ s.top < word
  list : FreeList base s.top s.heap fs
  sizes : ∀ b ∈ s.live, s.heap.size b.addr = b.units
  room : ∀ b ∈ s.live, b.bytes + 8 ≤ 8 * b.units
  bounds : ∀ b ∈ s.live, base + 8 ≤ b.addr ∧ b.addr + 8 * b.units ≤ s.top
  disjoint : s.live.Pairwise fun b c => Apart b.extent c.extent
  apart : ∀ b ∈ s.live, ∀ f ∈ fs, Apart b.extent f
  units : (s.live.map Block.units).sum + total fs = s.units

namespace Ok

variable (ok : Ok base s fs)
include ok

theorem positive {b : Block} (mem : b ∈ s.live) : 0 < b.extent.2 := by
  have := ok.room b mem
  simp only [Block.extent]
  omega

theorem not_free {b : Block} (mem : b ∈ s.live) : b.addr ∉ addrs fs := by
  intro inside
  obtain ⟨f,within,eq⟩ := List.mem_map.mp inside
  have away := ok.apart b mem f within
  have some_ := ok.positive mem
  have size := (ok.list.bounds f within).2.1
  simp only [Apart, Block.extent] at away some_
  omega

theorem take {q nbytes : Nat} {h' : Heap} {fs' : List Extent}
    (taken : Taken base s.top s.heap fs q nunits h' fs')
    (room : nbytes + 8 ≤ 8 * nunits) :
    Ok base { s with heap := h', live := ⟨q, nunits, nbytes⟩ :: s.live } fs' := by
  have away : ∀ b ∈ s.live, Apart b.extent (q, nunits) := fun b mem =>
    (taken.cover b.extent (ok.positive mem) (ok.apart b mem)).1
  refine ⟨ok.data, taken.list, List.forall_mem_cons.mpr ⟨taken.size, fun b mem => ?_⟩,
    List.forall_mem_cons.mpr ⟨room, ok.room⟩, List.forall_mem_cons.mpr ⟨taken.bounds, ok.bounds⟩,
    List.pairwise_cons.mpr ⟨fun b mem => Or.symm (away b mem), ok.disjoint⟩,
    List.forall_mem_cons.mpr ⟨taken.apart, fun b mem =>
      (taken.cover b.extent (ok.positive mem) (ok.apart b mem)).2⟩, ?_⟩
  · have other : b.addr ≠ q := by
      have apart := away b mem
      have some_ := ok.positive mem
      simp only [Apart, Block.extent] at apart some_
      omega
    exact (taken.same b.addr other (ok.not_free mem)).trans (ok.sizes b mem)
  · have before := ok.units
    have after := taken.units
    simp only [List.map_cons, List.sum_cons]
    omega

theorem few : total fs ≤ s.units := by
  have := ok.units
  omega

theorem grow {p : Nat} (fresh : s.top ≤ p) (small : p + 8 * ask nunits < word) :
    ∃ s' fs', morecore s nunits p = some s' ∧ Ok base s' fs' ∧ (∃ f ∈ fs', nunits ≤ f.2) ∧
      s'.top = p + 8 * ask nunits ∧ s'.live = s.live ∧
      ∀ x : Extent, 0 < x.2 → Apart x (p, ask nunits) → (∀ f ∈ fs, Apart x f) → ∀ f ∈ fs',
        Apart x f := by
  have data := ok.data
  have room : nunits ≤ ask nunits := by
    rw [ask]
    split <;> omega
  have some_ : 0 < ask nunits := by
    rw [ask]
    split <;> omega
  let h : Heap := { s.heap with size := Function.update s.heap.size p (ask nunits) }
  have other : ∀ y, y < p → h.size y = s.heap.size y :=
    fun y lower => Function.update_of_ne (by omega) ..
  have list : FreeList base (p + 8 * ask nunits) h fs := by
    refine ⟨ok.list.ring, fun f mem => ?_, (other base (by omega)).trans ok.list.empty,
      ok.list.order, ok.list.freep, fun f mem => ?_⟩
    · have := ok.list.bounds f mem
      exact (other f.1 (by omega)).trans (ok.list.sizes f mem)
    · have := ok.list.bounds f mem
      omega
  have few : fs.length < s.rounds := Nat.lt_succ_of_le (Nat.le_trans ok.list.length_le ok.few)
  obtain ⟨h',fs',freed,spec⟩ :=
    free_spec list (Function.update_self ..) some_ (by omega) (Nat.le_refl _) small
    (fun f mem => .inr (by have := (ok.list.bounds f mem).2.2; simp only; omega)) few
  have ends : p + ask nunits * 8 % word = p + 8 * ask nunits := by
    rw [Nat.mod_eq_of_lt (by omega)]
    omega
  refine ⟨{ s with heap := h', top := p + ask nunits * 8 % word, units := s.units + ask nunits },
    fs', ?_, ?_, ?_, ends, rfl, spec.cover⟩
  · have place : ahead p 1 = p + 8 := Nat.mod_eq_of_lt (by omega)
    simp only [morecore, place]
    rw [freed]
    rfl
  · have away : ∀ b ∈ s.live, Apart b.extent (p, ask nunits) := by
      intro b mem
      have := (ok.bounds b mem).2
      simp only [Apart, Block.extent]
      omega
    refine ⟨?_, ?_, fun b mem => ?_, ok.room, fun b mem => ?_, ok.disjoint, fun b mem =>
      spec.cover b.extent (ok.positive mem) (away b mem) (ok.apart b mem), ?_⟩
    · simp only [ends]
      omega
    · simp only [ends]
      exact spec.list
    · have := (ok.bounds b mem).2
      have some_ := ok.positive mem
      simp only [Block.extent] at some_
      exact (spec.same b.addr (by omega) (ok.not_free mem)).trans
        ((other b.addr (by omega)).trans (ok.sizes b mem))
    · have := ok.bounds b mem
      simp only [ends]
      omega
    · have := ok.units
      have := spec.units
      simp only
      omega
  · obtain ⟨f,mem,large⟩ := spec.large
    exact ⟨f, mem, by omega⟩

theorem search_large (some_ : 0 < nunits) (large : ∃ f ∈ fs, nunits ≤ f.2)
    (answers : List (Option Nat)) :
    ∃ q h' fs', search nunits answers s s.heap.freep = some (some (q + 8), { s with heap := h' }) ∧
      Taken base s.top s.heap fs q nunits h' fs' := by
  have data := ok.data
  obtain ⟨u,f,v,rfl,fits,found⟩ := hunt_large ok.list ok.few some_ large
  obtain ⟨q,h',fs',took,taken⟩ := take_spec ok.list some_ fits data.2.2
  refine ⟨q, h', fs', ?_, taken⟩
  have enough : nunits ≤ s.heap.size (s.heap.ptr (final base (addrs u))) := by
    rw [ok.list.next_final, show entry (addrs (f :: v)) base = f.1 from rfl,
      ok.list.sizes f (by simp)]
    exact fits
  have place : ahead q 1 = q + 8 := by
    have := taken.bounds
    exact Nat.mod_eq_of_lt (by omega)
  unfold search
  rw [found, Option.bind_some, if_pos enough, took]
  simp only [place]

theorem search_small (some_ : 0 < nunits) (small : ∀ f ∈ fs, f.2 < nunits) (answer : Option Nat)
    (answers : List (Option Nat)) :
    search nunits (answer :: answers) s s.heap.freep =
      match answer with
      | none => some (none, s)
      | some p => (morecore s nunits p).bind fun s => search nunits answers s s.heap.freep := by
  obtain ⟨p,found,short⟩ := hunt_small ok.list ok.few some_ small
  conv => lhs; unfold search
  rw [found, Option.bind_some, if_neg short]
  cases answer <;> rfl

theorem started : s.heap.freep ≠ 0 := by
  have data := ok.data
  rcases List.mem_cons.mp ok.list.freep with first | inside
  · omega
  · obtain ⟨f,mem,eq⟩ := List.mem_map.mp inside
    have := (ok.list.bounds f mem).1
    omega

theorem malloc {nbytes : Nat} {answer : Option Nat} (fair : Fair s nbytes answer) :
    ∃ t, step base s (.malloc nbytes answer) = some t ∧ ∃ fs', Ok base t fs' := by
  have small : 8 * ((nbytes + 7) / 8 + 1) < 2147483648 := by
    cases answer with
    | none => exact fair
    | some p => exact fair.1
  have count : unitsFor nbytes = (nbytes + 7) / 8 + 1 := by
    rw [unitsFor, Nat.mod_eq_of_lt (by simp only [word]; omega)]
    omega
  have some_ : 0 < unitsFor nbytes := by omega
  have room : nbytes + 8 ≤ 8 * unitsFor nbytes := by omega
  simp only [step, if_pos fair, UserMalloc.malloc, if_neg ok.started]
  by_cases large : ∃ f ∈ fs, unitsFor nbytes ≤ f.2
  · obtain ⟨q,h',fs',result,taken⟩ := ok.search_large some_ large [answer]
    refine ⟨_, by rw [result]; rfl, fs', ?_⟩
    simpa only [Nat.add_sub_cancel, taken.size] using ok.take taken room
  · rw [ok.search_small some_ (fun f mem => Nat.not_le.mp fun fits => large ⟨f, mem, fits⟩)]
    cases answer with
    | none => exact ⟨s, rfl, fs, ok⟩
    | some p =>
      obtain ⟨t,gs,grown,next,room_,-⟩ := ok.grow fair.2.1 fair.2.2
      obtain ⟨q,h',fs',result,taken⟩ := next.search_large some_ room_ []
      refine ⟨_, by simp only [grown, Option.bind_some, result]; rfl, fs', ?_⟩
      simpa only [Nat.add_sub_cancel, taken.size] using next.take taken room

theorem free {b : Block} (mem : b ∈ s.live) :
    ∃ t fs' c, step base s (.free (b.addr + 8)) = some t ∧ Ok base t fs' ∧ c ∈ s.live ∧
      t.live = s.live.erase c ∧ t.top = s.top ∧
      ∀ x : Extent, 0 < x.2 → Apart x c.extent → (∀ f ∈ fs, Apart x f) → ∀ f ∈ fs', Apart x f := by
  have data := ok.data
  obtain ⟨c,found⟩ : ∃ c, s.live.find? (fun c => c.addr + 8 = b.addr + 8) = some c :=
    Option.isSome_iff_exists.mp (List.find?_isSome.mpr ⟨b, mem, by simp⟩)
  have place : c.addr = b.addr := by simpa using List.find?_some found
  have within := List.mem_of_find?_eq_some found
  have few : fs.length < s.rounds := Nat.lt_succ_of_le (Nat.le_trans ok.list.length_le ok.few)
  obtain ⟨h',fs',freed,spec⟩ :=
    free_spec ok.list (ok.sizes c within) (ok.positive within) (ok.bounds c within).1
    (ok.bounds c within).2 data.2.2 (ok.apart c within) few
  refine ⟨{ s with heap := h', live := s.live.erase c }, fs', c, ?_, ?_, within, rfl, rfl,
    spec.cover⟩
  · simp only [step, found]
    rw [← place, freed]
    rfl
  have perm := List.perm_cons_erase within
  obtain ⟨away,rest⟩ :=
    List.pairwise_cons.mp ((perm.pairwise_iff fun {_ _} apart => Or.symm apart).mp ok.disjoint)
  have kept : ∀ x ∈ s.live.erase c, x ∈ s.live := fun x => List.mem_of_mem_erase
  refine ⟨data, spec.list, fun x mem => ?_, fun x mem => ok.room x (kept x mem), fun x mem =>
    ok.bounds x (kept x mem), rest,
    fun x mem => spec.cover x.extent (ok.positive (kept x mem)) (Or.symm (away x mem))
      (ok.apart x (kept x mem)), ?_⟩
  · have apart := away x mem
    have some_ := ok.positive (kept x mem)
    have more := ok.positive within
    simp only [Block.extent] at apart some_ more
    exact (spec.same x.addr (by omega) (ok.not_free (kept x mem))).trans (ok.sizes x (kept x mem))
  · have before := ok.units
    have sum := (perm.map Block.units).sum_nat
    have after := spec.units
    simp only [List.map_cons, List.sum_cons] at sum ⊢
    omega

theorem store {b : Block} {x : Nat} (mem : b ∈ s.live) (above : b.addr < x)
    (below : x < b.addr + 8 * b.units) (p n : Nat) :
    Ok base
      { s with
        heap :=
          { s.heap with
            ptr := Function.update s.heap.ptr x p, size :=
              Function.update s.heap.size x n } } fs := by
  have outside : ∀ f ∈ fs, f.1 ≠ x := by
    intro f inside
    have away := ok.apart b mem f inside
    have size := (ok.list.bounds f inside).2.1
    simp only [Apart, Block.extent] at away
    omega
  have first : base ≠ x := by
    have := (ok.bounds b mem).1
    omega
  refine ⟨ok.data, ⟨path_congr ok.list.ring fun y node => Function.update_of_ne ?_ ..,
    fun f inside =>
      (Function.update_of_ne (outside f inside) ..).trans (ok.list.sizes f inside),
      (Function.update_of_ne first ..).trans ok.list.empty, ok.list.order, ok.list.freep,
        ok.list.bounds⟩,
      fun c here => (Function.update_of_ne ?_ ..).trans (ok.sizes c here), ok.room, ok.bounds,
        ok.disjoint, ok.apart, ok.units⟩
  · rcases List.mem_cons.mp node with rfl | inside
    · exact first
    · obtain ⟨f,within,rfl⟩ := List.mem_map.mp inside
      exact outside f within
  · by_cases same : c = b
    · rw [same]
      omega
    · have away : Apart c.extent b.extent := ok.disjoint.forall here mem same
      have some_ := ok.positive here
      simp only [Apart, Block.extent] at away some_
      omega

end Ok

def Settled (base : Nat) (s : State) : Prop :=
  (s.heap.freep = 0 ∧ s.live = [] ∧ s.units = 0 ∧ 0 < base ∧ base + 8 ≤ s.top ∧ s.top < word) ∨
    ∃ fs, Ok base s fs

def Allowed (s : State) : Event → Prop
  | .malloc nbytes answer => Fair s nbytes answer
  | .free ap => ∃ b ∈ s.live, b.addr + 8 = ap
  | .store x _ _ => ∃ b ∈ s.live, b.addr < x ∧ x < b.addr + 8 * b.units

theorem allowed_of_step {e : Event} {t : State} (move : step base s e = some t) : Allowed s e := by
  cases e with
  | malloc nbytes answer =>
    by_contra unfair
    simp only [Allowed] at unfair
    simp [step, unfair] at move
  | free ap =>
    simp only [step] at move
    split at move
    · cases move
    · next b found =>
        exact ⟨b, List.mem_of_find?_eq_some found, by simpa using List.find?_some found⟩
  | store x p n =>
    simp only [step] at move
    split at move
    · next inside => simpa [Allowed] using inside
    · cases move

theorem ok_initial (empty : s.live = []) (none_ : s.units = 0)
    (data : 0 < base ∧ base + 8 ≤ s.top ∧ s.top < word) :
    Ok base { s with heap := initial base s.heap } [] := by
  refine ⟨data, ⟨Function.update_self .., by simp, Function.update_self .., .nil, by simp [initial],
    by simp⟩, ?_, ?_, ?_, ?_, ?_, ?_⟩
  all_goals simp [empty, none_, total]

theorem settled_step (settled : Settled base s) {e : Event} (allowed : Allowed s e) :
    ∃ t, step base s e = some t ∧ Settled base t := by
  rcases settled with ⟨null,empty,none_,data⟩ | ⟨fs,ok⟩
  · cases e with
    | malloc nbytes answer =>
      have fair : Fair { s with heap := initial base s.heap } nbytes answer := by
        cases answer <;> exact allowed
      obtain ⟨t,move,next⟩ := (ok_initial empty none_ data).malloc fair
      refine ⟨t, ?_, .inr next⟩
      have first : (initial base s.heap).freep ≠ 0 := Nat.ne_of_gt data.1
      simp only [step, if_pos fair, malloc, if_neg first] at move
      simp only [Allowed] at allowed
      simp only [step, if_pos allowed, malloc, if_pos null, move]
    | free ap =>
      obtain ⟨b,mem,-⟩ := allowed
      simp [empty] at mem
    | store x p n =>
      obtain ⟨b,mem,-⟩ := allowed
      simp [empty] at mem
  · cases e with
    | malloc nbytes answer =>
      obtain ⟨t,move,next⟩ := ok.malloc allowed
      exact ⟨t, move, .inr next⟩
    | free ap =>
      obtain ⟨b,mem,rfl⟩ := allowed
      obtain ⟨t,fs',_,move,next,-⟩ := ok.free mem
      exact ⟨t, move, .inr ⟨fs', next⟩⟩
    | store x p n =>
      obtain ⟨b,mem,above,below⟩ := allowed
      refine ⟨_, if_pos ?_, .inr ⟨fs, ok.store mem above below p n⟩⟩
      exact List.any_eq_true.mpr ⟨b, mem, decide_eq_true ⟨above, below⟩⟩

theorem blocks_never_overlap {base top : Nat} (h : Heap) (null : 0 < base) (data : base + 8 ≤ top)
    (small : top < word)
    {es : List Event} {s : State} (run : exec (step base) (start h top) es = some s) :
    Settled base s ∧ ∀ e, Allowed s e → ∃ t, step base s e = some t := by
  have settled : Settled base s := by
    refine exec_invariant (Settled base) (fun s e t settled _ move => ?_)
      (.inl ⟨rfl, rfl, rfl, null, data, small⟩)
      (along_trivial _ es) run
    obtain ⟨u,same,next⟩ := settled_step settled (allowed_of_step move)
    obtain rfl : u = t := Option.some.inj (same.symm.trans move)
    exact next
  refine ⟨settled, fun e allowed => ?_⟩
  obtain ⟨t,move,-⟩ := settled_step settled allowed
  exact ⟨t, move⟩

def visit : List Event := [.malloc 10 (some 1000), .malloc 20 none, .store 33720 7 7, .free 33752]

theorem blocks_never_overlap_visit :
    ∃ s, exec (step 100) (start ⟨fun _ => 0, fun _ => 0, 0⟩ 1000) visit = some s ∧
      s.live = [⟨33712, 4, 20⟩] ∧ s.heap.freep = 1000 ∧ Settled 100 s ∧
      ∀ e, Allowed s e → ∃ t, step 100 s e = some t := by
  have shape : (exec (step 100) (start ⟨fun _ => 0, fun _ => 0, 0⟩ 1000) visit).map
      (fun s => (s.live, s.heap.freep)) = some ([⟨33712, 4, 20⟩], 1000) := by decide +kernel
  obtain ⟨s,run,eq⟩ := Option.map_eq_some_iff.mp shape
  obtain ⟨live,freep⟩ := Prod.mk.inj eq
  exact ⟨s, run, live, freep, blocks_never_overlap _ (by decide) (by decide) (by decide) run⟩

end UserMalloc
