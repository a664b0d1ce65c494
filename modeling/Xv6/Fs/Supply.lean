import Xv6.Fs.Budget

/- The blocks a write takes and the blocks it logs. balloc takes the first free block, so a loop
   of writes takes a first part of the list of free blocks, and how long that part is and what
   will be logged is known before the loop starts. -/
namespace FsLog
open Bytes FsDisk FsInode FsOwner FsContent

variable {sb : Superblock} {d e f : Disk} {v w x : Dinode} {T : Nat → Dinode} {i b bn : Nat}
  {B C : Finset Nat} {l m : List Nat}

def frees (sb : Superblock) (d : Disk) : List Nat :=
  (List.range sb.size).filter fun b => !used sb d b

theorem filter_of_find {p q : Nat → Bool} {l : List Nat} (once : l.Nodup)
    (first : l.find? p = some b)
    (rest : ∀ c ∈ l, q c = (p c && !decide (c = b))) : l.filter p = b :: l.filter q := by
  induction l with
  | nil => cases first
  | cons a l ih =>
    obtain ⟨apart,once⟩ := List.nodup_cons.mp once
    have here := rest a List.mem_cons_self
    rw [List.find?_cons] at first
    cases hit : p a with
    | true =>
      rw [hit] at first
      cases first
      have same : l.filter p = l.filter q := List.filter_congr fun c mem => by
        have other : c ≠ b := fun eq => apart (eq ▸ mem)
        rw [rest c (List.mem_cons_of_mem _ mem)]
        simp [other]
      rw [List.filter_cons_of_pos hit, List.filter_cons_of_neg (by simp [here]), same]
    | false =>
      rw [hit] at first
      rw [List.filter_cons_of_neg (by simp [hit]), List.filter_cons_of_neg (by simp [here, hit])]
      exact ih once first fun c mem => rest c (List.mem_cons_of_mem _ mem)

theorem balloc_frees {g : Disk} (found : FsInode.balloc sb d = some (b, g))
    (map : ∀ c < sb.size, used sb e c = (used sb d c || decide (c = b))) :
    frees sb d = b :: frees sb e := by
  obtain ⟨a,first,eq⟩ := Option.map_eq_some_iff.mp found
  cases eq
  refine filter_of_find List.nodup_range first fun c mem => ?_
  rw [map c (List.mem_range.mp mem), Bool.not_or]

theorem frees_congr (map : ∀ c < sb.size, used sb e c = used sb d c) : frees sb e = frees sb d :=
  List.filter_congr fun c mem => by rw [map c (List.mem_range.mp mem)]

theorem bmap_frees (layout : Layout sb) (bound : i < sb.ninodes)
    (own : Own sb d (Function.update T i v)) (live : v.type ≠ 0)
    (done : FsInode.bmap sb d v bn = some (b, e, w)) :
    frees sb d = (if ndirect ≤ bn ∧ v.addrs indirect = 0 then [(w.addrs indirect).toNat] else []) ++
      (if fileBlock d v bn = none then [b] else []) ++ frees sb e := by
  have mapped := bmap_mapped layout bound own live done
  have absent : ∀ {p : Place} {c : Nat} {g : Disk} {y : Dinode}, placeOf bn = some p →
    Grown sb d v p c g y → fileBlock d v bn = none :=
      fun place grown => by rw [fileBlock, place, Option.bind_some, grown.empty]
  unfold FsInode.bmap at done
  by_cases low : bn < ndirect
  · rw [dif_pos low] at done
    rw [if_neg fun both => absurd both.1 (by omega), List.nil_append]
    split at done
    · next empty =>
      obtain ⟨⟨a,g⟩,found,eq⟩ := Option.map_eq_some_iff.mp done
      cases eq
      have grown := balloc_addr layout bound own live _ empty found
      rw [if_pos (absent (placeOf_direct low) grown)]
      exact balloc_frees found grown.used
    · next taken =>
      cases done
      have present : fileBlock d v bn ≠ none := by
        rw [fileBlock, placeOf_direct low, Option.bind_some, blockAt, nonzero_of_ne taken]
        exact Option.some_ne_none _
      rw [if_neg present, List.nil_append]
  · rw [dif_neg low] at done
    split at done
    · next inRange =>
      obtain ⟨⟨g,y⟩,loaded,done⟩ := Option.bind_eq_some_iff.mp done
      simp only [loadIndirect] at loaded
      split at loaded
      · next missing =>
        obtain ⟨⟨a,h⟩,found,eq⟩ := Option.map_eq_some_iff.mp loaded
        cases eq
        have first := balloc_addr layout bound own live indirect missing found
        have present := first.places (.addr indirect)
        rw [if_pos rfl] at present
        obtain ⟨name,empty⟩ := balloc_indirect layout bound own live missing found inRange
        have none_ : fileBlock d v bn = none := by
          rw [fileBlock, placeOf_entry low inRange]
          simp [blockAt, missing, nonzero]
        simp only [name, empty, if_true] at done
        obtain ⟨⟨c,g⟩,found',eq⟩ := Option.bind_eq_some_iff.mp done
        cases eq
        have next := own_grows own (.step .refl first) bound live
        have grown :=
          balloc_entry layout bound next live ⟨bn - ndirect, inRange⟩ present empty found'
        rw [if_pos ⟨by omega, missing⟩, if_pos none_, name, balloc_frees found first.used,
          balloc_frees found' grown.used]
        rfl
      · next ready =>
        cases loaded
        have present : blockAt d v (.addr indirect) = some (v.addrs indirect).toNat :=
          nonzero_of_ne ready
        rw [if_neg fun both => ready both.2, List.nil_append]
        dsimp only at done
        split at done
        · next empty =>
          obtain ⟨⟨a,g⟩,found,eq⟩ := Option.bind_eq_some_iff.mp done
          cases eq
          have grown :=
            balloc_entry layout bound own live ⟨bn - ndirect, inRange⟩ present empty found
          rw [if_pos (absent (placeOf_entry low inRange) grown)]
          exact balloc_frees found grown.used
        · next taken =>
          cases done
          have some_ : fileBlock d v bn ≠ none := by
            rw [fileBlock, placeOf_entry low inRange, Option.bind_some, blockAt,
              show nonzero (v.addrs indirect) = _ from present,
              Option.bind_some, nonzero_of_ne taken]
            exact Option.some_ne_none _
          rw [if_neg some_, List.nil_append]
    · cases done

def short (d : Disk) (v : Dinode) (B : Finset Nat) : Nat :=
  (B.filter fun bn => fileBlock d v bn = none).card + if v.addrs indirect = 0 ∧ ∃ bn ∈ B,
    ndirect ≤ bn then 1 else 0

/-- The blocks `B` of a file have been written: the blocks `l` have been taken for them, and the
    blocks in `log` have been logged. -/
structure BlocksTaken (sb : Superblock) (d : Disk) (v : Dinode) (B : Finset Nat) (l log : List Nat)
    (e : Disk) (w : Dinode) : Prop where
  frees : frees sb d = l ++ frees sb e
  count : l.length = short d v B
  missing : ∀ bn, fileBlock e w bn = none ↔ fileBlock d v bn = none ∧ bn ∉ B
  kept : ∀ bn b, fileBlock d v bn = some b → fileBlock e w bn = some b
  level : w.addrs indirect = 0 ↔ v.addrs indirect = 0 ∧ ∀ bn ∈ B, bn < ndirect
  same : v.addrs indirect ≠ 0 → w.addrs indirect = v.addrs indirect
  logged : ∀ c, c ∈ log ↔ (∃ bn ∈ B, fileBlock e w bn = some c) ∨ (∃ b ∈ l, c = bblock sb b) ∨
    (c = (w.addrs indirect).toNat ∧ ∃ bn ∈ B, ndirect ≤ bn ∧ fileBlock d v bn = none)

theorem blocksTaken_refl : BlocksTaken sb d v ∅ [] [] d v :=
  ⟨rfl, by simp [short], fun bn => by simp, fun _ _ block => block, by simp, fun _ => rfl,
    fun c => by simp⟩

theorem short_union (first : BlocksTaken sb d v B l m e w) :
    short d v (B ∪ C) = short d v B + short e w C := by
  have apart : (B ∪ C).filter (fun bn => fileBlock d v bn = none) =
      B.filter (fun bn => fileBlock d v bn = none) ∪
        C.filter fun bn => fileBlock e w bn = none := by
    ext bn
    simp only [Finset.mem_filter, Finset.mem_union, first.missing bn]
    grind
  have once : Disjoint (B.filter fun bn => fileBlock d v bn = none)
      (C.filter fun bn => fileBlock e w bn = none) := by
    refine Finset.disjoint_left.mpr fun bn mem mem' => ?_
    exact ((first.missing bn).mp (Finset.mem_filter.mp mem').2).2 (Finset.mem_filter.mp mem).1
  have tables : (if v.addrs indirect = 0 ∧ ∃ bn ∈ B ∪ C, ndirect ≤ bn then 1 else 0) =
      (if v.addrs indirect = 0 ∧ ∃ bn ∈ B, ndirect ≤ bn then 1 else 0) + if w.addrs indirect = 0 ∧
        ∃ bn ∈ C, ndirect ≤ bn then 1 else 0 := by
    by_cases zero : v.addrs indirect = 0
    · by_cases far : ∃ bn ∈ B, ndirect ≤ bn
      · have set : ¬ w.addrs indirect = 0 := fun zero' => by
          obtain ⟨bn,mem,high⟩ := far
          exact absurd ((first.level.mp zero').2 bn mem) (by omega)
        obtain ⟨bn,mem,high⟩ := far
        rw [if_pos ⟨zero, bn, Finset.mem_union_left _ mem, high⟩, if_pos ⟨zero, bn, mem, high⟩,
          if_neg fun both => set both.1]
      · have still : w.addrs indirect = 0 :=
          first.level.mpr ⟨zero, fun bn mem => Nat.lt_of_not_le fun high => far ⟨bn, mem, high⟩⟩
        have near : ¬ (v.addrs indirect = 0 ∧ ∃ bn ∈ B, ndirect ≤ bn) := fun both => far both.2
        rw [if_neg near, Nat.zero_add]
        congr 1
        simp only [zero, still, true_and, Finset.mem_union, eq_iff_iff]
        refine ⟨?_, ?_⟩
        · rintro ⟨bn,mem,high⟩
          exact ⟨bn, mem.resolve_left fun mem => far ⟨bn, mem, high⟩, high⟩
        · rintro ⟨bn,mem,high⟩
          exact ⟨bn, .inr mem, high⟩
    · have set : ¬ w.addrs indirect = 0 := fun zero' => zero (first.level.mp zero').1
      rw [if_neg fun both => zero both.1, if_neg fun both => zero both.1, if_neg fun both =>
        set both.1]
  rw [short, short, short, apart, Finset.card_union_of_disjoint once, tables]
  omega

theorem BlocksTaken.trans {l' m' : List Nat} (first : BlocksTaken sb d v B l m e w)
    (second : BlocksTaken sb e w C l' m' f x) :
    BlocksTaken sb d v (B ∪ C) (l ++ l') (m ++ m') f x where
  frees := by rw [first.frees, second.frees, List.append_assoc]
  count := by rw [List.length_append, first.count, second.count, short_union first]
  missing bn := by
    rw [second.missing, first.missing, Finset.mem_union, not_or, and_assoc]
  kept bn b block := second.kept bn b (first.kept bn b block)
  level := by
    rw [second.level, first.level, and_assoc]
    refine and_congr_right fun _ => ?_
    simp only [Finset.mem_union, or_imp, forall_and]
  same old := by
    have set : w.addrs indirect ≠ 0 := fun zero => old (first.level.mp zero).1
    rw [second.same set, first.same old]
  logged c := by
    rw [List.mem_append, first.logged, second.logged]
    constructor
    · rintro ((⟨bn,mem,block⟩ | ⟨b,mem,eq⟩ | ⟨eq,bn,mem,far,absent⟩) |
        (⟨bn,mem,block⟩ | ⟨b,mem,eq⟩ | ⟨eq,bn,mem,far,absent⟩))
      · exact .inl ⟨bn, Finset.mem_union_left _ mem, second.kept bn c block⟩
      · exact .inr (.inl ⟨b, List.mem_append_left _ mem, eq⟩)
      · have set : w.addrs indirect ≠ 0 :=
          fun zero => absurd ((first.level.mp zero).2 bn mem) (by omega)
        exact .inr (.inr ⟨by rw [second.same set]; exact eq, bn, Finset.mem_union_left _ mem, far,
          absent⟩)
      · exact .inl ⟨bn, Finset.mem_union_right _ mem, block⟩
      · exact .inr (.inl ⟨b, List.mem_append_right _ mem, eq⟩)
      · exact .inr (.inr ⟨eq, bn, Finset.mem_union_right _ mem, far,
          ((first.missing bn).mp absent).1⟩)
    · rintro (⟨bn,mem,block⟩ | ⟨b,mem,eq⟩ | ⟨eq,bn,mem,far,absent⟩)
      · by_cases here : bn ∈ B
        · cases before : fileBlock e w bn with
          | none => exact absurd here ((first.missing bn).mp before).2
          | some b =>
            have := second.kept bn b before
            rw [block] at this
            cases this
            exact .inl (.inl ⟨bn, here, before⟩)
        · exact .inr (.inl ⟨bn, (Finset.mem_union.mp mem).resolve_left here, block⟩)
      · rcases List.mem_append.mp mem with old | new
        · exact .inl (.inr (.inl ⟨b, old, eq⟩))
        · exact .inr (.inr (.inl ⟨b, new, eq⟩))
      · by_cases here : bn ∈ B
        · have set : w.addrs indirect ≠ 0 :=
            fun zero => absurd ((first.level.mp zero).2 bn here) (by omega)
          exact .inl (.inr (.inr ⟨by rw [← second.same set]; exact eq, bn, here, far, absent⟩))
        · exact .inr (.inr (.inr ⟨eq, bn, (Finset.mem_union.mp mem).resolve_left here, far,
            (first.missing bn).mpr ⟨absent, here⟩⟩))

theorem BlocksTaken.relabel {g : Disk} {y : Dinode} (took : BlocksTaken sb d v B l m e w)
    (map : ∀ c < sb.size, used sb g c = used sb e c)
    (blocks : blockAt g y = blockAt e w) (addrs : y.addrs indirect = w.addrs indirect) :
    BlocksTaken sb d v B l m g y := by
  have files : ∀ bn, fileBlock g y bn = fileBlock e w bn := fun bn => by
    rw [fileBlock, blocks, fileBlock]
  refine ⟨by rw [frees_congr map]; exact took.frees, took.count, fun bn => ?_, fun bn b block => ?_,
    ?_, fun old => ?_, fun c => ?_⟩
  · rw [files, took.missing]
  · rw [files, took.kept bn b block]
  · rw [addrs, took.level]
  · rw [addrs, took.same old]
  · simp only [files, addrs]
    exact took.logged c

section Loops
variable (layout : Layout sb) (bound : i < sb.ninodes)
include layout bound

theorem pass_blocksTaken (own : Own sb d (Function.update T i v)) (live : v.type ≠ 0)
    (done : FsInode.bmap sb d v bn = some (b, e, w))
    {o : Nat} {bs : List UInt8} (inside : o + bs.length ≤ bsize) :
    ∃ l, BlocksTaken sb d v {bn} l (FsLog.bmap sb d v bn ++ [b])
      (store e (bsize * b + o) bs) w := by
  obtain ⟨grows,block⟩ := bmap_spec layout bound own live done
  obtain ⟨q,place,at_⟩ := Option.bind_eq_some_iff.mp block
  obtain ⟨-,missing,level⟩ := mapped_free (bmap_mapped layout bound own live done)
  have grow := (grows_change own grows bound live).1
  have live1 : w.type ≠ 0 := change_type grow ▸ live
  obtain ⟨-,map,-,kept⟩ := store_frame layout grow.own bound live1 place at_ inside
  have blocks := kept i bound (by rwa [Function.update_self])
  rw [Function.update_self] at blocks
  have files : ∀ c, fileBlock (store e (bsize * b + o) bs) w c = fileBlock e w c := fun c => by
    rw [fileBlock, blocks, fileBlock]
  have old : v.addrs indirect ≠ 0 → w.addrs indirect = v.addrs indirect := fun set => by
    have there := grows_kept grows (q := .addr indirect) (nonzero_of_ne set)
    have set' : w.addrs indirect ≠ 0 := fun zero => by
      rw [blockAt, nonzero_eq_none.mpr zero] at there
      cases there
    rw [blockAt, nonzero_of_ne set'] at there
    exact UInt32.toNat_inj.mp (Option.some.inj there)
  refine ⟨(if ndirect ≤ bn ∧ v.addrs indirect = 0 then [(w.addrs indirect).toNat]
    else []) ++ (if fileBlock d v bn = none then [b] else []),
    ?_, ?_, fun c => ?_, fun c a there => ?_, ?_, old, fun c => ?_⟩
  · rw [frees_congr fun c small => used_congr layout small map]
    exact bmap_frees layout bound own live done
  · rw [List.length_append, short]
    have one : ((({bn} : Finset Nat).filter fun bn => fileBlock d v bn = none).card) =
        if fileBlock d v bn = none then 1 else 0 := by
      rw [Finset.filter_singleton]
      split <;> rfl
    rw [one]
    simp only [Finset.mem_singleton, exists_eq_left, and_comm (a := v.addrs indirect = 0)]
    split <;> split <;> rfl
  · rw [files, missing, Finset.mem_singleton]
  · rw [files]
    obtain ⟨p,place',at'⟩ := Option.bind_eq_some_iff.mp there
    rw [fileBlock, place', Option.bind_some]
    exact grows_kept grows at'
  · rw [level]
    simp
  · have mine : ∀ a, fileBlock (store e (bsize * b + o) bs) w bn = some a ↔ a = b := fun a => by
      rw [files, block, Option.some.injEq, eq_comm]
    rw [bmap_blocks layout bound own live done]
    simp only [Finset.mem_singleton, exists_eq_left, mine, List.mem_append, List.mem_singleton]
    by_cases new : ndirect ≤ bn ∧ v.addrs indirect = 0
    · have absent : fileBlock d v bn = none := by
        rw [fileBlock]
        by_cases inRange : bn - ndirect < nindirect
        · rw [placeOf_entry (by omega) inRange]
          simp [blockAt, new.2, nonzero]
        · rw [placeOf, dif_neg (by omega), dif_neg inRange]
          rfl
      simp only [new.1, new.2, absent, and_self, if_true, List.cons_append, List.nil_append,
        List.mem_cons, List.not_mem_nil, or_false,
        exists_eq_or_imp, exists_eq_left, and_true]
      grind
    · simp only [if_neg new]
      by_cases absent : fileBlock d v bn = none
      · by_cases far : ndirect ≤ bn
        · simp only [absent, far, if_true, List.cons_append, List.nil_append, List.mem_cons,
            List.not_mem_nil, or_false, false_or, and_true,
            exists_eq_left]
          grind
        · simp only [absent, far, if_true, if_false, List.append_nil, List.mem_cons,
            List.not_mem_nil, or_false, false_or, false_and, and_false,
            exists_eq_left]
          grind
      · simp [absent]

theorem writeBlocks_blocksTaken {fuel : Nat} (own : Own sb d (Function.update T i v))
    (live : v.type ≠ 0) {src : Nat → UInt8} {off n : Nat}
    (enough : n ≤ fuel) (done : FsInode.writeBlocks sb fuel d v src off n = some (e, w)) :
    ∃ l, BlocksTaken sb d v (touched off n) l (FsLog.writeBlocks sb fuel d v src off n) e w := by
  induction fuel generalizing d v src off n with
  | zero =>
    obtain rfl : n = 0 := by omega
    cases done
    exact ⟨[], blocksTaken_refl⟩
  | succ fuel ih =>
    rw [FsInode.writeBlocks] at done
    rw [FsLog.writeBlocks]
    by_cases none_ : n = 0
    · subst none_
      rw [if_pos rfl] at done ⊢
      cases done
      exact ⟨[], blocksTaken_refl⟩
    · rw [if_neg none_] at done ⊢
      obtain ⟨⟨b,d1,v1⟩,mapped,done⟩ := Option.bind_eq_some_iff.mp done
      have low : off % bsize < bsize := Nat.mod_lt _ (by decide)
      simp only [mapped]
      generalize size : min n (bsize - off % bsize) = m at done ⊢
      have inside : off % bsize + ((List.range m).map src).length ≤ bsize := by
        rw [List.length_map, List.length_range]
        omega
      obtain ⟨grows,block⟩ := bmap_spec layout bound own live mapped
      obtain ⟨q,place,at_⟩ := Option.bind_eq_some_iff.mp block
      have grow := (grows_change own grows bound live).1
      have live1 : v1.type ≠ 0 := change_type grow ▸ live
      have stored := store_change layout grow.own bound live1 place at_ inside
      obtain ⟨l,first⟩ := pass_blocksTaken layout bound own live mapped inside
      obtain ⟨l',rest⟩ := ih stored.own live1 (by omega) done
      refine ⟨l ++ l', ?_⟩
      have both := first.trans rest
      rw [List.append_assoc, List.singleton_append] at both
      rw [(touched_step none_ size).1, ← Finset.singleton_union]
      exact both

theorem writei_blocksTaken (own : Own sb d (Function.update T i v)) (live : v.type ≠ 0)
    {src : Nat → UInt8} {off n : UInt32} {r : Option UInt32}
    (ok : ¬ Refused v off n) (done : FsInode.writei sb i d v src off n = some (r, e, w)) :
    ∃ l m, BlocksTaken sb d v (touched off.toNat n.toNat) l m e w ∧
      ∀ c, c ∈ FsLog.writei sb i d v src off n ↔
        c ∈ m ∨ (c = iblock sb i ∧ 0 < n.toNat ∧ v.size.toNat < off.toNat + n.toNat) := by
  rw [writei_accepted v src ok] at done
  obtain ⟨⟨f,u⟩,loop,eq⟩ := Option.map_eq_some_iff.mp done
  obtain ⟨l,took⟩ := writeBlocks_blocksTaken layout bound own live (Nat.le_refl _) loop
  have change := (writeBlocks_spec layout bound own live (Nat.le_refl _) loop).1
  have sizes : u.size = v.size := by rw [change.fields]
  have list : ∀ c, c ∈ FsLog.writei sb i d v src off n ↔
      c ∈ FsLog.writeBlocks sb n.toNat d v src off.toNat n.toNat ∨
        (c = iblock sb i ∧ 0 < n.toNat ∧ v.size.toNat < off.toNat + n.toNat) := by
    intro c
    simp only [Refused, not_or, Nat.not_lt] at ok
    have sum : (off + n).toNat = off.toNat + n.toNat := by
      rw [UInt32.toNat_add]
      omega
    have top : (UInt32.ofNat (maxfile * bsize)).toNat = maxfile * bsize := rfl
    have zero : (0 : UInt32).toNat = 0 := rfl
    simp only [FsLog.writei, gt_iff_lt, UInt32.lt_iff_toNat_lt, sum, top, loop, sizes, zero]
    rw [if_neg (by omega), if_neg (by omega), List.mem_append]
    refine or_congr_right ?_
    split
    · next grows => simp [grows]
    · next stays => simp [stays]
  refine ⟨l, _, ?_, list⟩
  simp only [sizes] at eq
  split at eq
  · cases eq
    obtain ⟨map,blocks⟩ := writeDinode_areas (d := f) layout bound { u with size := off + n }
    refine took.relabel (fun c small => used_congr layout small map) ?_ rfl
    refine Eq.trans (blockAt_congr fun a at_ => blocks a ?_) (by funext q; cases q <;> rfl)
    have alive : u.type ≠ 0 := change_type change ▸ live
    have there : blockAt f u (.addr indirect) = some a := at_
    exact (own_indirect bound change.own alive there).1
  · cases eq
    exact took

end Loops

theorem touched_append (off m n : Nat) :
    touched off (m + n) = touched off m ∪ touched (off + m) n := by
  by_cases none_ : m = 0
  · simp [touched, none_]
  by_cases none' : n = 0
  · simp [touched, none']
  have both : m + n ≠ 0 := by omega
  have first : off / bsize ≤ (off + m - 1) / bsize := Nat.div_le_div_right (by omega)
  have last : (off + m - 1) / bsize ≤ (off + m) / bsize := Nat.div_le_div_right (by omega)
  have close : (off + m) / bsize ≤ (off + m - 1) / bsize + 1 := by
    simp only [bsize]
    omega
  have more : (off + m) / bsize ≤ (off + (m + n) - 1) / bsize := Nat.div_le_div_right (by omega)
  ext bn
  simp only [touched, if_neg none_, if_neg none', if_neg both, Finset.mem_union, Finset.mem_Ico,
    ← Nat.add_assoc] at *
  omega

end FsLog
