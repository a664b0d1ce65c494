import Mathlib.Data.Finset.Interval
import Mathlib.Order.Interval.Finset.Nat
import Xv6.Fs.Content

/- How many blocks a write takes. balloc panics when no bit is clear, so the loop of writei comes
   to its end exactly when the map has as many clear bits as the range lacks blocks, the indirect
   block included. -/
namespace FsContent
open Bytes FsDisk FsInode FsOwner Ownership

def free (sb : Superblock) (d : Disk) : Nat :=
  ((Finset.range sb.size).filter fun b => used sb d b = false).card

variable {sb : Superblock} {d e : Disk} {v w : Dinode} {T : Nat → Dinode} {i b : Nat} {p : Place}

theorem free_congr (same : ∀ c < sb.size, used sb e c = used sb d c) : free sb e = free sb d := by
  unfold free
  congr 1
  refine Finset.filter_congr fun c mem => ?_
  rw [same c (Finset.mem_range.mp mem)]

theorem balloc_none : balloc sb d = none ↔ free sb d = 0 := by
  rw [balloc, Option.map_eq_none_iff, List.find?_eq_none, free, Finset.card_eq_zero,
    Finset.filter_eq_empty_iff]
  simp

theorem grown_free (grown : Grown sb d v p b e w) : free sb e + 1 = free sb d := by
  have mem : b ∈ (Finset.range sb.size).filter fun b => used sb d b = false := by
    simp [grown.high, grown.free]
  rw [free, free, ← Finset.card_erase_add_one mem]
  congr 2
  ext c
  simp only [Finset.mem_filter, Finset.mem_range, Finset.mem_erase]
  constructor
  · rintro ⟨small,clear⟩
    rw [grown.used c small] at clear
    simp only [Bool.or_eq_false_iff, decide_eq_false_iff_not] at clear
    exact ⟨clear.2, small, clear.1⟩
  · rintro ⟨other,small,clear⟩
    refine ⟨small, ?_⟩
    rw [grown.used c small, clear]
    simp [other]

/-- The blocks bmap has to allocate for block `bn`. -/
def needs (d : Disk) (v : Dinode) (bn : Nat) : Nat :=
  (if fileBlock d v bn = none then 1 else 0) + if ndirect ≤ bn ∧ v.addrs indirect = 0 then 1 else 0

theorem fileBlock_grown (grown : Grown sb d v p b e w) (bn : Nat) :
    fileBlock e w bn = if placeOf bn = some p then some b else fileBlock d v bn := by
  simp only [fileBlock]
  cases place : placeOf bn with
  | none => rfl
  | some q => simp only [Option.bind_some, grown.places, Option.some.injEq]

theorem addrs_grown (grown : Grown sb d v p b e w) : w.addrs indirect = 0 ↔
    v.addrs indirect = 0 ∧ p ≠ .addr indirect := by
  have at_ := grown.places (.addr indirect)
  simp only [blockAt] at at_
  rw [← nonzero_eq_none, ← nonzero_eq_none, at_]
  split
  · rename_i same
    simp [same]
  · rename_i other
    exact ⟨fun zero => ⟨zero, Ne.symm other⟩, fun both => both.1⟩

theorem mapped_free {bn : Nat} (mapped : Mapped sb d v bn b e w) :
    free sb e + needs d v bn = free sb d ∧
      (∀ k, fileBlock e w k = none ↔ fileBlock d v k = none ∧ k ≠ bn) ∧
      (w.addrs indirect = 0 ↔ v.addrs indirect = 0 ∧ bn < ndirect) := by
  cases mapped with
  | present block =>
    have ready : v.addrs indirect = 0 → bn < ndirect := by
      intro zero
      by_contra high
      obtain ⟨q,place,at_⟩ := Option.bind_eq_some_iff.mp block
      by_cases inRange : bn - ndirect < nindirect
      · rw [placeOf_entry high inRange] at place
        cases place
        simp [blockAt, zero, nonzero] at at_
      · simp [placeOf, high, inRange] at place
    refine ⟨?_, fun k => ⟨fun none => ⟨none, ?_⟩, fun both => both.1⟩,
      fun zero => ⟨zero, ready zero⟩,
      fun both => both.1⟩
    · rw [needs, if_neg (by simp [block]), if_neg fun both => absurd (ready both.2) (by omega)]
      omega
    · rintro rfl
      rw [block] at none
      cases none
  | @one p e w place ready grown =>
    have absent : fileBlock d v bn = none := by rw [fileBlock, place, Option.bind_some, grown.empty]
    have used := grown_free grown
    have data : p ≠ .addr indirect := by
      rintro rfl
      exact placeOf_ne_indirect bn place
    refine ⟨?_, fun k => ?_, ?_⟩
    · rw [needs, if_pos absent, if_neg fun both => ready both.1 both.2]
      exact used
    · rw [fileBlock_grown grown]
      by_cases same : k = bn
      · simp [same, place]
      · rw [if_neg fun also => same (placeOf_injective also place)]
        simp [same]
    · rw [addrs_grown grown]
      constructor
      · intro both
        exact ⟨both.1, Nat.lt_of_not_le fun high => ready high both.1⟩
      · intro both
        exact ⟨both.1, data⟩
  | @two p a f e x w place high first grown =>
    have zero : v.addrs indirect = 0 := nonzero_eq_none.mp first.empty
    have data : p ≠ .addr indirect := by
      rintro rfl
      exact placeOf_ne_indirect bn place
    have missing : ∀ k, fileBlock f x k = fileBlock d v k := by
      intro k
      rw [fileBlock_grown first, if_neg (placeOf_ne_indirect k)]
    have absent : fileBlock d v bn = none := by
      rw [← missing, fileBlock, place, Option.bind_some, grown.empty]
    have one := grown_free first
    have two := grown_free grown
    refine ⟨?_, fun k => ?_, ?_⟩
    · rw [needs, if_pos absent, if_pos ⟨high, zero⟩]
      omega
    · rw [fileBlock_grown grown, missing]
      by_cases same : k = bn
      · simp [same, place]
      · rw [if_neg fun also => same (placeOf_injective also place)]
        simp [same]
    · rw [addrs_grown grown, addrs_grown first]
      constructor
      · intro both
        exact absurd rfl both.1.2
      · intro both
        exact absurd both.2 (by omega)

section Total
variable (layout : Layout sb) (bound : i < sb.ninodes)
include layout bound

theorem bmap_total (own : Own sb d (Function.update T i v)) (live : v.type ≠ 0) {bn : Nat}
    (inFile : bn < maxfile) (enough : needs d v bn ≤ free sb d) :
    ∃ b e w, bmap sb d v bn = some (b, e, w) := by
  have found : ∀ {f : Disk}, 0 < free sb f → ∃ b e, balloc sb f = some (b, e) := by
    intro f some_left
    cases found : balloc sb f with
    | none =>
      rw [balloc_none.mp found] at some_left
      cases some_left
    | some r => exact ⟨r.1, r.2, rfl⟩
  simp only [bmap]
  split
  · rename_i low
    split
    · rename_i empty
      have absent : fileBlock d v bn = none := by
        rw [fileBlock, placeOf_direct low]
        exact nonzero_eq_none.mpr empty
      rw [needs, if_pos absent] at enough
      obtain ⟨b,e,eq⟩ := found (f := d) (by omega)
      exact ⟨b, e, _, by rw [eq]; rfl⟩
    · exact ⟨_, _, _, rfl⟩
  · rename_i high
    have inRange : bn - ndirect < nindirect := by
      simp only [maxfile] at inFile
      omega
    rw [if_pos inRange]
    simp only [loadIndirect]
    split
    · rename_i missing
      have absent : fileBlock d v bn = none := by
        rw [fileBlock, placeOf_entry high inRange]
        simp [blockAt, missing, nonzero]
      rw [needs, if_pos absent, if_pos ⟨by omega, missing⟩] at enough
      obtain ⟨b,e,eq⟩ := found (f := d) (by omega)
      have one := grown_free (balloc_addr layout bound own live indirect missing eq)
      obtain ⟨c,f,next⟩ := found (f := e) (by omega)
      rw [eq]
      simp only [Option.map_some, Option.bind_eq_bind, Option.bind_some]
      split
      · exact ⟨c, _, _, by rw [next]; rfl⟩
      · exact ⟨_, _, _, rfl⟩
    · rename_i ready
      simp only [Option.bind_eq_bind, Option.bind_some]
      split
      · rename_i empty
        have absent : fileBlock d v bn = none := by
          rw [fileBlock, placeOf_entry high inRange]
          simp [blockAt, nonzero, ready, empty]
        rw [needs, if_pos absent] at enough
        obtain ⟨b,e,eq⟩ := found (f := d) (by omega)
        exact ⟨b, _, _, by rw [eq]; rfl⟩
      · exact ⟨_, _, _, rfl⟩

end Total

def touched (off n : Nat) : Finset Nat :=
  if n = 0 then ∅ else Finset.Ico (off / bsize) ((off + n - 1) / bsize + 1)

def lacks (d : Disk) (v : Dinode) (off n : Nat) : Nat :=
  ((touched off n).filter fun bn => fileBlock d v bn = none).card +
    if v.addrs indirect = 0 ∧ 0 < n ∧ ndirect ≤ (off + n - 1) / bsize then 1 else 0

section Step
variable {off n m : Nat} (some_left : n ≠ 0) (size : min n (bsize - off % bsize) = m)
include some_left size

theorem last_block : n - m = 0 ∧ (off + n - 1) / bsize = off / bsize ∨
    0 < n - m ∧ off + m + (n - m) = off + n ∧ (off + m) / bsize = off / bsize + 1 ∧
      off / bsize < (off + n - 1) / bsize := by
  simp only [bsize] at *
  omega

theorem touched_step : touched off n = insert (off / bsize) (touched (off + m) (n - m)) ∧
    off / bsize ∉ touched (off + m) (n - m) := by
  rcases last_block some_left size with ⟨last,same⟩ | ⟨more,total,next,below⟩
  · simp only [touched, last, if_true, some_left, if_false, same, Finset.notMem_empty,
      not_false_iff, and_true]
    ext k
    simp only [Finset.mem_Ico, Finset.mem_insert, Finset.notMem_empty, or_false]
    omega
  · simp only [touched, some_left, Nat.ne_of_gt more, if_false, total, next]
    refine ⟨?_, by simp⟩
    ext k
    simp only [Finset.mem_Ico, Finset.mem_insert]
    omega

theorem lacks_step
    (missing : ∀ k, fileBlock e w k = none ↔ fileBlock d v k = none ∧ k ≠ off / bsize)
    (level : w.addrs indirect = 0 ↔ v.addrs indirect = 0 ∧ off / bsize < ndirect) :
    lacks d v off n = needs d v (off / bsize) + lacks e w (off + m) (n - m) := by
  obtain ⟨blocks,fresh⟩ := touched_step some_left size
  have rest : (touched (off + m) (n - m)).filter (fun k => fileBlock e w k = none) =
      (touched (off + m) (n - m)).filter fun k => fileBlock d v k = none := by
    refine Finset.filter_congr fun k mem => ?_
    rw [missing k]
    refine ⟨fun both => both.1, fun none => ⟨none, ?_⟩⟩
    rintro rfl
    exact fresh mem
  have data : ((touched off n).filter fun k => fileBlock d v k = none).card =
      (if fileBlock d v (off / bsize) = none then 1 else 0) +
        ((touched (off + m) (n - m)).filter fun k => fileBlock e w k = none).card := by
    rw [rest, blocks, Finset.filter_insert]
    split
    · rw [Finset.card_insert_of_notMem (by simp [fresh]), Nat.add_comm]
    · rw [Nat.zero_add]
  have tables : (if v.addrs indirect = 0 ∧ 0 < n ∧ ndirect ≤ (off + n - 1) / bsize then 1 else 0) =
      (if ndirect ≤ off / bsize ∧ v.addrs indirect = 0 then 1 else 0) +
        if w.addrs indirect = 0 ∧ 0 < n - m ∧ ndirect ≤ (off + m + (n - m) - 1) / bsize then 1
        else 0 := by
    by_cases zero : v.addrs indirect = 0
    · simp only [level, zero, true_and, and_true]
      rcases last_block some_left size with ⟨last,same⟩ | ⟨more,total,next,below⟩
      · rw [same, last]
        split_ifs <;> omega
      · rw [total]
        split_ifs <;> omega
    · simp [level, zero]
  rw [lacks, data, tables, needs, lacks]
  omega

theorem needs_le_lacks : needs d v (off / bsize) ≤ lacks d v off n := by
  obtain ⟨blocks,-⟩ := touched_step some_left size
  have last : off / bsize ≤ (off + n - 1) / bsize := Nat.div_le_div_right (by omega)
  have data : (if fileBlock d v (off / bsize) = none then 1 else 0) ≤
      ((touched off n).filter fun k => fileBlock d v k = none).card := by
    split
    · refine Finset.card_pos.mpr ⟨off / bsize, ?_⟩
      simp [blocks, ‹fileBlock d v (off / bsize) = none›]
    · exact Nat.zero_le _
  rw [needs, lacks]
  refine Nat.add_le_add data ?_
  split
  · rename_i both
    rw [if_pos ⟨both.2, by omega, by omega⟩]
  · exact Nat.zero_le _

end Step

/-- The loop of writei comes to its end iff there are enough free blocks. -/
theorem writeBlocks_iff (layout : Layout sb) (bound : i < sb.ninodes) {fuel : Nat}
    (own : Own sb d (Function.update T i v)) (live : v.type ≠ 0) {src : Nat → UInt8} {off n : Nat}
    (enough : n ≤ fuel) (inFile : off + n ≤ maxfile * bsize) :
    (writeBlocks sb fuel d v src off n).isSome ↔ lacks d v off n ≤ free sb d := by
  induction fuel generalizing d v src off n with
  | zero =>
    obtain rfl : n = 0 := by omega
    simp [writeBlocks, lacks, touched]
  | succ fuel ih =>
    rw [writeBlocks]
    split
    · subst n
      simp [lacks, touched]
    · rename_i some_left
      have low : off % bsize < bsize := Nat.mod_lt _ (by decide)
      have first : off / bsize < maxfile := by
        rw [Nat.div_lt_iff_lt_mul (by decide)]
        omega
      generalize size : min n (bsize - off % bsize) = m
      have atLeast := needs_le_lacks (d := d) (v := v) some_left size
      cases mapped : bmap sb d v (off / bsize) with
      | none =>
        have short : ¬ needs d v (off / bsize) ≤ free sb d := by
          intro fits
          obtain ⟨b,e,w,eq⟩ := bmap_total layout bound own live first fits
          rw [mapped] at eq
          cases eq
        simp only [Option.bind_eq_bind, Option.bind_none, Option.isSome_none, Bool.false_eq_true,
          false_iff]
        omega
      | some r =>
        obtain ⟨b,d1,v1⟩ := r
        obtain ⟨grows,block⟩ := bmap_spec layout bound own live mapped
        obtain ⟨q,place,at_⟩ := Option.bind_eq_some_iff.mp block
        obtain ⟨count,missing,level⟩ := mapped_free (bmap_mapped layout bound own live mapped)
        have grow := (grows_change own grows bound live).1
        have live1 : v1.type ≠ 0 := change_type grow ▸ live
        have length : ((List.range m).map src).length = m := by simp
        have inside : off % bsize + ((List.range m).map src).length ≤ bsize := by omega
        obtain ⟨-,map,-,kept⟩ := store_frame layout grow.own bound live1 place at_ inside
        have stored := store_change layout grow.own bound live1 place at_ inside
        have mine : Function.update T i v1 i = v1 := Function.update_self ..
        have blocks := kept i bound (mine.symm ▸ live1)
        rw [mine] at blocks
        have sameFree := free_congr fun c small => used_congr layout small map
        have rest :
          (writeBlocks sb fuel (store d1 (bsize * b + off % bsize) ((List.range m).map src)) v1
            (fun k => src (m + k)) (off + m) (n - m)).isSome ↔
            lacks (store d1 (bsize * b + off % bsize) ((List.range m).map src)) v1 (off + m)
              (n - m) ≤
              free sb (store d1 (bsize * b + off % bsize) ((List.range m).map src)) :=
          ih stored.own live1 (by omega) (by omega)
        have step := lacks_step (e := store d1 (bsize * b + off % bsize) ((List.range m).map src))
          (w := v1) some_left size (fun k => by rw [fileBlock, blocks]; exact missing k) level
        simp only [Option.bind_eq_bind, Option.bind_some, rest, sameFree]
        omega

end FsContent
