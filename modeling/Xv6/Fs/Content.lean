import Xv6.Fs.Owner

/- The content of an inode as bytes. Growing an inode and storing in one of its blocks change
   only the bytes they are meant to, in this inode and in no other one, because every block is
   held at one place. -/
namespace FsContent
open Bytes FsDisk FsInode FsOwner Ownership

def byteAt (d : Disk) (v : Dinode) (x : Nat) : Option UInt8 :=
  (fileBlock d v (x / bsize)).map fun b => d (bsize * b + x % bsize)

variable {sb : Superblock} {d e f : Disk} {v w : Dinode} {T : Nat → Dinode} {i j b c : Nat}
  {p : Place}

theorem sameBlock_byte (same : SameBlock d e b) (x : Nat) :
    e (bsize * b + x % bsize) = d (bsize * b + x % bsize) := by
  have low : x % bsize < bsize := Nat.mod_lt _ (by decide)
  exact same _ (by omega) (by rw [Nat.mul_succ]; omega)

theorem byteAt_congr {x : Nat} (blocks : blockAt e w = blockAt d v)
    (same : ∀ q c, q ≠ .addr indirect → blockAt d v q = some c → SameBlock d e c) :
    byteAt e w x = byteAt d v x := by
  simp only [byteAt, fileBlock, blocks]
  cases place : placeOf (x / bsize) with
  | none => rfl
  | some q =>
    have data : q ≠ .addr indirect := by
      rintro rfl
      exact placeOf_ne_indirect _ place
    cases at_ : blockAt d v q with
    | none => simp [at_]
    | some c => simp [at_, sameBlock_byte (same q c data at_) x]

theorem grown_bytes (own : Own sb d (Function.update T i v)) (grown : Grown sb d v p b e w)
    (bound : i < sb.ninodes) (live : v.type ≠ 0) (x : Nat) :
    byteAt e w x = byteAt d v x ∨ byteAt d v x = none ∧ byteAt e w x = some 0 := by
  simp only [byteAt, fileBlock]
  cases place : placeOf (x / bsize) with
  | none => exact .inl rfl
  | some q =>
    simp only [Option.bind_some, grown.places]
    by_cases new : q = p
    · subst new
      refine .inr ⟨by rw [grown.empty]; rfl, ?_⟩
      have low : x % bsize < bsize := Nat.mod_lt _ (by decide)
      rw [if_pos rfl, Option.map_some, grown.zero _ (by omega) (by rw [Nat.mul_succ]; omega)]
    · rw [if_neg new]
      cases at_ : blockAt d v q with
      | none => exact .inl rfl
      | some c =>
        have here := (held_self (T := T) bound live).trans at_
        obtain ⟨low,-,inUse⟩ := own_bounds own here
        have same : SameBlock d e c := by
          refine grown.blocks c low ?_ fun also => placeOf_ne_indirect (x / bsize) ?_
          · rintro rfl
            rw [grown.free] at inUse
            cases inUse
          · have there := (held_self (T := T) bound live).trans also
            exact place.trans (congrArg (fun ip : Nat × Place => some ip.2)
              (own.once _ _ _ here there))
        exact .inl (by simp [sameBlock_byte same x])

theorem grown_bytes_others (own : Own sb d (Function.update T i v)) (grown : Grown sb d v p b e w)
    (bound : i < sb.ninodes) (live : v.type ≠ 0) (other : j ≠ i) (bound' : j < sb.ninodes)
    (live' : (T j).type ≠ 0) (x : Nat) : byteAt e (T j) x = byteAt d (T j) x := by
  refine byteAt_congr (grows_others own (.step .refl grown) bound live other bound' live') ?_
  intro q c _ at_
  have here := (held_other (v := v) other bound' live').trans at_
  obtain ⟨low,-,inUse⟩ := own_bounds own here
  refine grown.blocks c low ?_ fun mine => other ?_
  · rintro rfl
    rw [grown.free] at inUse
    cases inUse
  · have there := (held_self (T := T) bound live).trans mine
    exact congrArg Prod.fst (own.once _ _ _ here there)

/-- What a step of a write to inode `i` leaves alone: the map is exact again, only addresses of
    the inode in memory have changed, and no other file has. -/
structure Change (sb : Superblock) (T : Nat → Dinode) (i : Nat) (d : Disk) (v : Dinode) (e : Disk)
    (w : Dinode) : Prop where
  own : Own sb e (Function.update T i w)
  fields : w = { v with addrs := w.addrs }
  inodes : SameInodes sb d e
  others : ∀ j, j ≠ i → j < sb.ninodes → (T j).type ≠ 0 → ∀ x, byteAt e (T j) x = byteAt d (T j) x

theorem change_refl (own : Own sb d (Function.update T i v)) : Change sb T i d v d v :=
  ⟨own, rfl, fun _ _ _ => rfl, fun _ _ _ _ _ => rfl⟩

theorem change_trans {x : Dinode} (first : Change sb T i d v e w) (second : Change sb T i e w f x) :
    Change sb T i d v f x where
  own := second.own
  fields := by rw [second.fields, first.fields]
  inodes y low high := by rw [second.inodes y low high, first.inodes y low high]
  others j other bound live y := by
    rw [second.others j other bound live, first.others j other bound live]

theorem change_type (change : Change sb T i d v e w) : w.type = v.type := by
  rw [change.fields]

theorem grows_change (own : Own sb d (Function.update T i v)) (grows : Grows sb d v e w)
    (bound : i < sb.ninodes) (live : v.type ≠ 0) :
    Change sb T i d v e w ∧
      ∀ x, byteAt e w x = byteAt d v x ∨ byteAt d v x = none ∧ byteAt e w x = some 0 := by
  induction grows with
  | refl => exact ⟨change_refl own, fun _ => .inl rfl⟩
  | @step f x p b g y before grown ih =>
    obtain ⟨change,bytes⟩ := ih
    have alive : x.type ≠ 0 := change_type change ▸ live
    refine ⟨change_trans change ⟨own_grows own (.step before grown) bound live, grown.fields,
      grown.inodes,
      fun j other bound' live' => grown_bytes_others change.own grown bound alive other bound'
        live'⟩, ?_⟩
    intro z
    have next := grown_bytes change.own grown bound alive z
    rcases next with same | ⟨absent,zero⟩
    · rw [same]
      exact bytes z
    · rcases bytes z with same | ⟨missing,now⟩
      · exact .inr ⟨same ▸ absent, zero⟩
      · exact .inr ⟨missing, zero⟩

section Store
variable (layout : Layout sb) (own : Own sb d (Function.update T i v)) (bound : i < sb.ninodes)
  (live : v.type ≠ 0) {q : Place} {bn o : Nat} {bs : List UInt8} (place : placeOf bn = some q)
  (at_ : blockAt d v q = some b) (inside : o + bs.length ≤ bsize)
include layout own bound live place at_ inside

theorem store_frame : SameInodes sb d (store d (bsize * b + o) bs) ∧
    SameMap sb d (store d (bsize * b + o) bs) ∧
    (∀ jq c, held sb d (Function.update T i v) jq = some c → jq ≠ (i, q) →
      SameBlock d (store d (bsize * b + o) bs) c) ∧
    ∀ j < sb.ninodes, (Function.update T i v j).type ≠ 0 →
      blockAt (store d (bsize * b + o) bs) (Function.update T i v j) = blockAt d
        (Function.update T i v j) := by
  have here := (held_self (T := T) bound live).trans at_
  obtain ⟨low,-,-⟩ := own_bounds own here
  obtain ⟨inodes,map,blocks⟩ := store_areas (d := d) layout low inside
  have elsewhere : ∀ jq c, held sb d (Function.update T i v) jq = some c → jq ≠ (i, q) →
      SameBlock d (store d (bsize * b + o) bs) c := by
    intro jq c there other
    refine blocks c ?_
    rintro rfl
    exact other (own.once _ _ _ there here)
  refine ⟨inodes, map, elsewhere, fun j bound' live' => blockAt_congr fun a there => ?_⟩
  refine elsewhere (j, .addr indirect) a ((held_eq bound' live').trans there) fun eq => ?_
  exact placeOf_ne_indirect bn (place.trans (congrArg (fun ip : Nat × Place => some ip.2) eq.symm))

theorem store_change : Change sb T i d v (store d (bsize * b + o) bs) v := by
  obtain ⟨inodes,map,elsewhere,kept⟩ := store_frame layout own bound live place at_ inside
  refine ⟨own_congr layout own map kept, rfl, inodes, fun j other bound' live' x => ?_⟩
  have untouched : Function.update T i v j = T j := Function.update_of_ne other ..
  have blocksKept := kept j bound' (untouched.symm ▸ live')
  rw [untouched] at blocksKept
  refine byteAt_congr blocksKept fun q' c _ there => ?_
  refine elsewhere (j, q') c ((held_other other bound' live').trans there) ?_
  rintro ⟨⟩
  exact other rfl

theorem store_bytes (x : Nat) :
    byteAt (store d (bsize * b + o) bs) v x =
      if bsize * bn + o ≤ x ∧ x < bsize * bn + o + bs.length then bs[x - (bsize * bn + o)]?
      else byteAt d v x := by
  obtain ⟨-,-,elsewhere,kept⟩ := store_frame layout own bound live place at_ inside
  have mine : Function.update T i v i = v := Function.update_self ..
  have blocks := kept i bound (mine.symm ▸ live)
  rw [mine] at blocks
  have low : x % bsize < bsize := Nat.mod_lt _ (by decide)
  have split := Nat.div_add_mod x bsize
  simp only [byteAt, fileBlock, blocks]
  by_cases this : x / bsize = bn
  · subst this
    rw [place, Option.bind_some, at_, Option.map_some, Option.map_some]
    by_cases range : bsize * (x / bsize) + o ≤ x ∧ x < bsize * (x / bsize) + o + bs.length
    · rw [if_pos range, store_inside (by omega) (by omega), List.getElem?_eq_getElem (by omega)]
      simp only [List.get_eq_getElem]
      congr 2
      omega
    · rw [if_neg range, store_outside (by omega)]
  · have outside : ¬ (bsize * bn + o ≤ x ∧ x < bsize * bn + o + bs.length) := by
      rintro ⟨above,below⟩
      refine this (Nat.div_eq_of_lt_le ?_ ?_)
      · rw [Nat.mul_comm]
        omega
      · rw [Nat.mul_comm, Nat.mul_succ]
        omega
    rw [if_neg outside]
    cases other : placeOf (x / bsize) with
    | none => rfl
    | some q' =>
      rw [Option.bind_some]
      cases there : blockAt d v q' with
      | none => rfl
      | some c =>
        have same : SameBlock d (store d (bsize * b + o) bs) c := by
          refine elsewhere (i, q') c ((held_self bound live).trans there) ?_
          rintro ⟨⟩
          exact this (placeOf_injective other place)
        simp [sameBlock_byte same x]

end Store

section Loops
variable (layout : Layout sb) (bound : i < sb.ninodes)
include layout bound

/-- The loop of writei puts the bytes of the source into the file. A byte outside of the range
    stays, or is a zero that came with a new block. -/
theorem writeBlocks_spec {fuel : Nat} (own : Own sb d (Function.update T i v)) (live : v.type ≠ 0)
    {src : Nat → UInt8} {off n : Nat} (enough : n ≤ fuel)
    (done : writeBlocks sb fuel d v src off n = some (e, w)) :
    Change sb T i d v e w ∧
      (∀ x, off ≤ x → x < off + n → byteAt e w x = some (src (x - off))) ∧
      ∀ x, x < off ∨ off + n ≤ x →
        byteAt e w x = byteAt d v x ∨ byteAt d v x = none ∧ byteAt e w x = some 0 := by
  induction fuel generalizing d v src off n with
  | zero =>
    cases done
    exact ⟨change_refl own, fun x low high => by omega, fun _ _ => .inl rfl⟩
  | succ fuel ih =>
    rw [writeBlocks] at done
    split at done
    · cases done
      exact ⟨change_refl own, fun x low high => by omega, fun _ _ => .inl rfl⟩
    · rename_i some_left
      obtain ⟨⟨b,d1,v1⟩,mapped,done⟩ := Option.bind_eq_some_iff.mp done
      obtain ⟨grows,block⟩ := bmap_spec layout bound own live mapped
      obtain ⟨q,place,at_⟩ := Option.bind_eq_some_iff.mp block
      obtain ⟨grow,grownBytes⟩ := grows_change own grows bound live
      have live1 : v1.type ≠ 0 := change_type grow ▸ live
      have low : off % bsize < bsize := Nat.mod_lt _ (by decide)
      have split := Nat.div_add_mod off bsize
      -- `m` bytes go to the block at `off`
      generalize size : min n (bsize - off % bsize) = m at done
      have length : ((List.range m).map src).length = m := by simp
      have fits : off % bsize + ((List.range m).map src).length ≤ bsize := by omega
      have stored := store_change layout grow.own bound live1 place at_ fits
      have storedBytes := store_bytes layout grow.own bound live1 place at_ fits
      rw [split, length] at storedBytes
      obtain ⟨rest,inside,outside⟩ := ih stored.own live1 (by omega) done
      refine ⟨change_trans grow (change_trans stored rest), fun x above below => ?_,
        fun x out => ?_⟩
      · rcases Nat.lt_or_ge x (off + m) with first | later
        · have here : ∀ y,
              byteAt (store d1 (bsize * b + off % bsize) ((List.range m).map src)) v1 x = some y →
              byteAt e w x = some y := by
            intro y eq
            rcases outside x (.inl first) with same | ⟨absent,-⟩
            · rw [same, eq]
            · rw [eq] at absent
              cases absent
          refine here _ ?_
          rw [storedBytes, if_pos ⟨above, first⟩, List.getElem?_map, List.getElem?_range (by omega)]
          rfl
        · rw [inside x later (by omega)]
          congr 2
          omega
      · have away : byteAt (store d1 (bsize * b + off % bsize) ((List.range m).map src)) v1 x =
            byteAt d1 v1 x := by
          rw [storedBytes, if_neg (by omega)]
        rcases outside x (by omega) with same | ⟨absent,zero⟩
        · rw [same, away]
          exact grownBytes x
        · rw [away] at absent
          rcases grownBytes x with before | ⟨missing,now⟩
          · exact .inr ⟨before ▸ absent, zero⟩
          · exact .inr ⟨missing, zero⟩

end Loops

theorem bmap_present {bn : Nat} (block : fileBlock d v bn = some b) :
    bmap sb d v bn = some (b, d, v) := by
  obtain ⟨q,place,at_⟩ := Option.bind_eq_some_iff.mp block
  simp only [placeOf] at place
  simp only [bmap]
  split at place
  · rename_i low
    cases place
    simp only [blockAt, nonzero] at at_
    split at at_
    · cases at_
    · cases at_
      rw [dif_pos low, if_neg ‹_›]
  · rename_i high
    split at place
    · rename_i inRange
      cases place
      obtain ⟨a,present,there⟩ := Option.bind_eq_some_iff.mp at_
      simp only [nonzero] at present there
      split at present
      · cases present
      · cases present
        split at there
        · cases there
        · cases there
          rw [dif_neg high, if_pos inRange, loadIndirect, if_neg ‹_›]
          simp only [Option.bind_eq_bind, Option.bind_some]
          rw [if_neg ‹_›]
    · cases place

def bytesFrom (d : Disk) (v : Dinode) (off n : Nat) : List UInt8 :=
  (List.range n).map fun k => (byteAt d v (off + k)).getD 0

theorem bytesFrom_append (d : Disk) (v : Dinode) (off m n : Nat) :
    bytesFrom d v off (m + n) = bytesFrom d v off m ++ bytesFrom d v (off + m) n := by
  simp [bytesFrom, List.range_add, Nat.add_assoc]

theorem block_of_byte {x : Nat} (there : byteAt d v x ≠ none) :
    ∃ b, fileBlock d v (x / bsize) = some b := by
  cases block : fileBlock d v (x / bsize) with
  | none => simp [byteAt, block] at there
  | some b => exact ⟨b, rfl⟩

theorem load_block {off m : Nat} (block : fileBlock d v (off / bsize) = some b)
    (inside : off % bsize + m ≤ bsize) :
    load d (bsize * b + off % bsize) m = bytesFrom d v off m := by
  have split := Nat.div_add_mod off bsize
  refine List.map_congr_left fun k mem => ?_
  have bound := List.mem_range.mp mem
  have same : (off + k) / bsize = off / bsize := by
    refine Nat.div_eq_of_lt_le ?_ ?_
    · rw [Nat.mul_comm]
      omega
    · rw [Nat.mul_comm, Nat.mul_succ]
      omega
  have place : (off + k) % bsize = off % bsize + k := by
    have whole := Nat.div_add_mod (off + k) bsize
    rw [same] at whole
    omega
  rw [byteAt, same, block, Option.map_some, Option.getD_some, place, Nat.add_assoc]

theorem readBlocks_present {fuel off n : Nat} (enough : n ≤ fuel)
    (full : ∀ x, off ≤ x → x < off + n → byteAt d v x ≠ none) :
    readBlocks sb fuel d v off n = some (bytesFrom d v off n, d, v) := by
  induction fuel generalizing off n with
  | zero =>
    obtain rfl : n = 0 := by omega
    rfl
  | succ fuel ih =>
    rw [readBlocks]
    split
    · subst n
      rfl
    · have low : off % bsize < bsize := Nat.mod_lt _ (by decide)
      obtain ⟨b,block⟩ := block_of_byte (full off (by omega) (by omega))
      generalize size : min n (bsize - off % bsize) = m
      have rest : readBlocks sb fuel d v (off + m) (n - m) =
          some (bytesFrom d v (off + m) (n - m), d, v) :=
        ih (by omega) fun x above below => full x (by omega) (by omega)
      have total : m + (n - m) = n := by omega
      rw [bmap_present block]
      simp only [Option.bind_eq_bind, Option.bind_some, rest]
      rw [load_block block (by omega), ← bytesFrom_append, total]

def content (d : Disk) (v : Dinode) : List UInt8 := bytesFrom d v 0 v.size.toNat

def Whole (d : Disk) (v : Dinode) : Prop := ∀ x, x < v.size.toNat → byteAt d v x ≠ none

theorem take_drop_content {off n : Nat} (inside : off + n ≤ v.size.toNat) :
    ((content d v).drop off).take n = bytesFrom d v off n := by
  refine List.ext_getElem (by simp [content, bytesFrom]; omega) fun k low high => ?_
  simp [content, bytesFrom]

theorem readi_whole (whole : Whole d v) (off n : UInt32) :
    readi sb d v off n =
      if v.size < off ∨ off + n < off then some (none, d, v)
      else some (some (((content d v).drop off.toNat).take n.toNat), d, v) := by
  rw [readi]
  simp only [gt_iff_lt]
  split
  · rfl
  · rename_i ok
    rw [not_or] at ok
    have inFile : off.toNat ≤ v.size.toNat := by simpa [UInt32.lt_iff_toNat_lt] using ok.1
    have noWrap : (off + n).toNat = off.toNat + n.toNat := by
      have after := ok.2
      rw [UInt32.lt_iff_toNat_lt, UInt32.toNat_add] at after
      rw [UInt32.toNat_add]
      have := off.toNat_lt
      have := n.toNat_lt
      omega
    generalize clip : (if v.size < off + n then v.size - off else n) = m
    have bound : off.toNat + m.toNat ≤ v.size.toNat ∧
        m.toNat = min n.toNat (v.size.toNat - off.toNat) := by
      subst clip
      split
      · rename_i past
        rw [UInt32.lt_iff_toNat_lt, noWrap] at past
        rw [UInt32.toNat_sub_of_le _ _ (UInt32.le_iff_toNat_le.mpr inFile)]
        omega
      · rename_i within
        rw [UInt32.lt_iff_toNat_lt, noWrap] at within
        omega
    rw [readBlocks_present (Nat.le_refl _) fun x above below => whole x (by omega)]
    simp only [Option.map_some, Option.some.injEq, Prod.mk.injEq, and_true]
    rw [← take_drop_content bound.1, bound.2, List.take_eq_take_min (i := n.toNat)]
    congr 1
    simp [content, bytesFrom]

end FsContent
