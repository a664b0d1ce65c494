import Xv6.Fs.Capacity

/- A well-formed file system, and readi and writei on it: an inode's content behaves as an array
   of bytes, and a write to one inode is not seen in another. -/
namespace FsContent
open Bytes FsDisk FsInode FsOwner Ownership

variable {sb : Superblock} {d e : Disk} {v w : Dinode} {T : Nat → Dinode} {i j b : Nat} {p : Place}

theorem own_table {U : Nat → Dinode} (own : Own sb d T)
    (same : ∀ j < sb.ninodes, (U j).type = (T j).type ∧ (U j).addrs = (T j).addrs) :
    Own sb d U := by
  refine exact_congr own (fun _ => Iff.rfl) fun ip => ?_
  simp only [held]
  by_cases bound : ip.1 < sb.ninodes
  · obtain ⟨type,addrs⟩ := same ip.1 bound
    rw [type]
    cases ip.2 <;> simp only [blockAt, addrs]
  · simp [bound]

theorem writeDinode_kept (layout : Layout sb) (bound : i < sb.ninodes) (own : Own sb d T)
    (w : Dinode) :
    Own sb (writeDinode sb d i w) T ∧
      ∀ j < sb.ninodes, (T j).type ≠ 0 →
        ∀ x, byteAt (writeDinode sb d i w) (T j) x = byteAt d (T j) x := by
  obtain ⟨map,blocks⟩ := writeDinode_areas (d := d) layout bound w
  have data : ∀ j < sb.ninodes, (T j).type ≠ 0 → ∀ q c, blockAt d (T j) q = some c →
      SameBlock d (writeDinode sb d i w) c := by
    intro j bound live q c at_
    exact blocks c (own_bounds own ((held_eq bound live).trans at_)).1
  have places : ∀ j < sb.ninodes, (T j).type ≠ 0 →
    blockAt (writeDinode sb d i w) (T j) = blockAt d (T j) :=
      fun j bound live => blockAt_congr fun a at_ => data j bound live _ a at_
  exact ⟨own_congr layout own map places, fun j bound live x =>
    byteAt_congr (places j bound live) fun q c _ at_ => data j bound live q c at_⟩

theorem iupdate_change (layout : Layout sb) (bound : i < sb.ninodes) (live : v.type ≠ 0)
    (own : Own sb d (Function.update T i v)) (type : w.type = v.type) (addrs : w.addrs = v.addrs) :
    Own sb (writeDinode sb d i w) (Function.update T i w) ∧
      (∀ x, byteAt (writeDinode sb d i w) w x = byteAt d v x) ∧
      ∀ j, j ≠ i → j < sb.ninodes → (T j).type ≠ 0 → ∀ x,
        byteAt (writeDinode sb d i w) (T j) x = byteAt d (T j) x := by
  have own' : Own sb d (Function.update T i w) := by
    refine own_table own fun j _ => ?_
    by_cases same : j = i
    · simp [same, type, addrs]
    · simp [same]
  obtain ⟨ownNew,bytes⟩ := writeDinode_kept layout bound own' w
  refine ⟨ownNew, fun x => ?_, fun j other bound' live' x => ?_⟩
  · have mine : Function.update T i w i = w := Function.update_self ..
    have here := bytes i bound (by rw [mine, type]; exact live) x
    rw [mine] at here
    have same : blockAt d w = blockAt d v := by
      funext q
      cases q <;> simp only [blockAt, addrs]
    rw [here]
    exact byteAt_congr same fun _ _ _ _ _ _ _ => rfl
  · have there : Function.update T i w j = T j := Function.update_of_ne other ..
    have kept := bytes j bound' (there.symm ▸ live') x
    rwa [there] at kept

variable {src : Nat → UInt8}

theorem writeBlocks_present (layout : Layout sb) (bound : i < sb.ninodes) {fuel : Nat}
    (own : Own sb d (Function.update T i v)) (live : v.type ≠ 0) {off n : Nat}
    (enough : n ≤ fuel) (full : ∀ x, off ≤ x → x < off + n → byteAt d v x ≠ none)
    (done : writeBlocks sb fuel d v src off n = some (e, w)) : w = v := by
  induction fuel generalizing d src off n with
  | zero =>
    cases done
    rfl
  | succ fuel ih =>
    rw [writeBlocks] at done
    split at done
    · cases done
      rfl
    · have low : off % bsize < bsize := Nat.mod_lt _ (by decide)
      obtain ⟨b,block⟩ := block_of_byte (full off (by omega) (by omega))
      obtain ⟨q,place,at_⟩ := Option.bind_eq_some_iff.mp block
      rw [bmap_present block] at done
      simp only [Option.bind_eq_bind, Option.bind_some] at done
      generalize size : min n (bsize - off % bsize) = m at done
      have length : ((List.range m).map src).length = m := by simp
      have inside : off % bsize + ((List.range m).map src).length ≤ bsize := by omega
      have bytes := store_bytes layout own bound live place at_ inside
      refine ih (store_change layout own bound live place at_ inside).own (by omega)
        (fun x above below => ?_) done
      have split := Nat.div_add_mod off bsize
      rw [bytes, if_neg (by omega)]
      exact full x (by omega) (by omega)

/-- No block that a size below MAXFILE blocks asks for is missing. -/
def Filled (d : Disk) (v : Dinode) : Prop :=
  ∀ x, x < v.size.toNat → x < maxfile * bsize → byteAt d v x ≠ none

def Refused (v : Dinode) (off n : UInt32) : Prop :=
  v.size.toNat < off.toNat ∨ 2 ^ 32 ≤ off.toNat + n.toNat ∨ maxfile * bsize < off.toNat + n.toNat

structure Wrote (sb : Superblock) (i : Nat) (d : Disk) (v : Dinode) (src : Nat → UInt8)
    (off n : UInt32)
    (e : Disk) (w : Dinode) : Prop where
  own : Own sb e (dinode sb e)
  here : dinode sb e i = w
  table : ∀ j, j ≠ i → j < sb.ninodes → dinode sb e j = dinode sb d j
  fields : w = { v with size := w.size, addrs := w.addrs }
  size : w.size.toNat = if 0 < n.toNat then max v.size.toNat (off.toNat + n.toNat) else v.size.toNat
  inside : ∀ x, off.toNat ≤ x → x < off.toNat + n.toNat → byteAt e w x = some (src (x - off.toNat))
  outside : ∀ x, x < off.toNat ∨ off.toNat + n.toNat ≤ x →
    byteAt e w x = byteAt d v x ∨ byteAt d v x = none ∧ byteAt e w x = some 0
  others : ∀ j, j ≠ i → j < sb.ninodes → (dinode sb d j).type ≠ 0 →
    ∀ x, byteAt e (dinode sb d j) x = byteAt d (dinode sb d j) x

variable {off n : UInt32}

theorem writei_refused (v : Dinode) (src : Nat → UInt8) (refused : Refused v off n) :
    writei sb i d v src off n = some (none, d, v) := by
  have := off.toNat_lt
  have := n.toNat_lt
  simp only [writei, gt_iff_lt, UInt32.lt_iff_toNat_lt, UInt32.toNat_add]
  split
  · rfl
  · rename_i ok
    rw [if_pos]
    have top : (UInt32.ofNat (maxfile * bsize)).toNat = maxfile * bsize := rfl
    rw [top]
    rcases refused with beyond | wraps | large
    all_goals omega

theorem writei_accepted (v : Dinode) (src : Nat → UInt8) (ok : ¬ Refused v off n) :
    writei sb i d v src off n = (writeBlocks sb n.toNat d v src off.toNat n.toNat).map fun (e, w) =>
      if 0 < n.toNat ∧ w.size.toNat < off.toNat + n.toNat then
        (some n, writeDinode sb e i { w with size := off + n }, { w with size := off + n })
      else (some n, e, w) := by
  simp only [Refused, not_or, Nat.not_lt] at ok
  obtain ⟨inFile,noWrap,small⟩ := ok
  have sum : (off + n).toNat = off.toNat + n.toNat := by
    rw [UInt32.toNat_add]
    omega
  have top : (UInt32.ofNat (maxfile * bsize)).toNat = maxfile * bsize := rfl
  simp only [writei, gt_iff_lt, UInt32.lt_iff_toNat_lt, sum, top]
  rw [if_neg (by omega), if_neg (by omega)]
  cases writeBlocks sb n.toNat d v src off.toNat n.toNat with
  | none => rfl
  | some r =>
    simp only [Option.bind_eq_bind, Option.bind_some, Option.map_some]
    have zero : (0 : UInt32).toNat = 0 := rfl
    rw [zero]
    split <;> rfl

theorem writei_wrote (layout : Layout sb) (bound : i < sb.ninodes) (own : Own sb d (dinode sb d))
    (here : dinode sb d i = v) (live : v.type ≠ 0) (filled : Filled d v)
    (ok : ¬ Refused v off n) {r : Option UInt32}
    (done : writei sb i d v src off n = some (r, e, w)) :
    r = some n ∧ Wrote sb i d v src off n e w := by
  rw [writei_accepted v src ok] at done
  obtain ⟨⟨f,u⟩,loop,eq⟩ := Option.map_eq_some_iff.mp done
  simp only [Refused, not_or, Nat.not_lt] at ok
  obtain ⟨inFile,noWrap,small⟩ := ok
  have sum : (off + n).toNat = off.toNat + n.toNat := by
    rw [UInt32.toNat_add]
    omega
  have own' : Own sb d (Function.update (dinode sb d) i v) := by
    rwa [← here, Function.update_eq_self]
  obtain ⟨change,inside,outside⟩ := writeBlocks_spec layout bound own' live (Nat.le_refl _) loop
  have sizes : u.size = v.size := by rw [change.fields]
  have table : ∀ j < sb.ninodes, dinode sb f j = dinode sb d j := fun j small =>
    dinode_congr layout small change.inodes
  simp only [sizes] at eq
  split at eq
  · rename_i longer
    cases eq
    have alive : u.type ≠ 0 := change_type change ▸ live
    obtain ⟨ownNew,bytes,kept⟩ :=
      iupdate_change (w := { u with size := off + n }) layout bound alive change.own
      rfl rfl
    refine ⟨rfl, ?_, ?_, fun j other small => ?_, ?_, ?_, fun x above below => ?_, fun x out => ?_,
      fun j other small liveJ x => ?_⟩
    · refine own_table ownNew fun j small => ?_
      rw [dinode_writeDinode]
      by_cases same : j = i
      · simp [same]
      · simp [same, table j small]
    · rw [dinode_writeDinode, if_pos rfl]
    · rw [dinode_writeDinode, if_neg other, table j small]
    · rw [change.fields]
    · rw [if_pos longer.1, sum]
      omega
    · rw [bytes, inside x above below]
    · rw [bytes]
      exact outside x out
    · rw [kept j other small liveJ, change.others j other small liveJ]
  · rename_i within
    cases eq
    -- the range lies below the size, so the loop has not allocated and the disk is up to date
    have same : w = v := by
      refine writeBlocks_present layout bound own' live (Nat.le_refl _) (fun x above below =>
        ?_) loop
      exact filled x (by omega) (by omega)
    subst same
    refine ⟨rfl, ?_, ?_, fun j other small => table j small, rfl, ?_, inside, outside,
      change.others⟩
    · refine own_table change.own fun j small => ?_
      by_cases same : j = i
      · subst same
        simp [table j small, here]
      · simp [same, table j small]
    · rw [table i bound, here]
    · split <;> omega

theorem writei_returns (layout : Layout sb) (bound : i < sb.ninodes)
    (own : Own sb d (Function.update T i v)) (live : v.type ≠ 0)
    (src : Nat → UInt8) (ok : ¬ Refused v off n)
    (enough : lacks d v off.toNat n.toNat ≤ free sb d) :
    ∃ r e w, writei sb i d v src off n = some (r, e, w) := by
  rw [writei_accepted v src ok]
  simp only [Refused, not_or, Nat.not_lt] at ok
  have ends : (writeBlocks sb n.toNat d v src off.toNat n.toNat).isSome :=
    (writeBlocks_iff layout bound own live (Nat.le_refl _) ok.2.2).mpr enough
  obtain ⟨r,loop⟩ := Option.isSome_iff_exists.mp ends
  rw [loop]
  exact ⟨_, _, _, rfl⟩

/-- A file system as the kernel keeps it: the free map is exact and files have no holes. -/
structure WellFormed (sb : Superblock) (d : Disk) : Prop where
  layout : Layout sb
  own : Own sb d (dinode sb d)
  whole : ∀ j < sb.ninodes, (dinode sb d j).type ≠ 0 → (dinode sb d j).type ≠ tDev →
    Whole d (dinode sb d j)

def splice (c : List UInt8) (off : Nat) (bs : List UInt8) : List UInt8 :=
  c.take off ++ bs ++ c.drop (off + bs.length)

theorem filled_of_whole (whole : Whole d v) : Filled d v := fun x below _ => whole x below

theorem whole_wrote (whole : Whole d v) (inFile : off.toNat ≤ v.size.toNat)
    (wrote : Wrote sb i d v src off n e w) : Whole e w := by
  intro x below
  rw [wrote.size] at below
  by_cases range : off.toNat ≤ x ∧ x < off.toNat + n.toNat
  · rw [wrote.inside x range.1 range.2]
    simp
  · have old : x < v.size.toNat := by
      split at below <;> omega
    rcases wrote.outside x (by omega) with same | ⟨-,zero⟩
    · rw [same]
      exact whole x old
    · rw [zero]
      simp

theorem content_wrote (inFile : off.toNat ≤ v.size.toNat) (wrote : Wrote sb i d v src off n e w) :
    content e w = splice (content d v) off.toNat ((List.range n.toNat).map src) := by
  have size := wrote.size
  refine List.ext_getElem ?_ fun x low high => ?_
  · simp only [content, bytesFrom, splice, List.length_map, List.length_range, List.length_append,
      List.length_take, List.length_drop]
    split at size <;> omega
  · simp only [content, bytesFrom, List.length_map, List.length_range] at low
    simp only [content, bytesFrom, splice, List.getElem_map, List.getElem_range,
      List.getElem_append,
      List.getElem_take, List.getElem_drop, List.length_append, List.length_take, List.length_map,
      List.length_range, Nat.zero_add]
    by_cases range : off.toNat ≤ x ∧ x < off.toNat + n.toNat
    · rw [wrote.inside x range.1 range.2, dif_pos (by omega), dif_neg (by omega), Option.getD_some]
      congr 1
      omega
    · have old : x < v.size.toNat := by
        rw [size] at low
        split at low <;> omega
      have same : (byteAt e w x).getD 0 = (byteAt d v x).getD 0 := by
        rcases wrote.outside x (by omega) with same | ⟨absent,zero⟩
        · rw [same]
        · rw [absent, zero]
          rfl
      rw [same]
      rcases Nat.lt_or_ge x off.toNat with before | after
      · rw [dif_pos (by omega), dif_pos (by omega)]
      · rw [dif_neg (by omega)]
        congr 2
        omega

theorem content_congr (same : ∀ x, byteAt e v x = byteAt d v x) : content e v = content d v := by
  simp only [content, bytesFrom, same]

theorem wellFormed_wrote (wf : WellFormed sb d) (here : dinode sb d i = v) (bound : i < sb.ninodes)
    (live : v.type ≠ 0) (file : v.type ≠ tDev)
    (inFile : off.toNat ≤ v.size.toNat) (wrote : Wrote sb i d v src off n e w) :
    WellFormed sb e := by
  refine ⟨wf.layout, wrote.own, fun j small liveJ fileJ => ?_⟩
  by_cases same : j = i
  · subst same
    rw [wrote.here]
    exact whole_wrote (here ▸ wf.whole j bound (here ▸ live) (here ▸ file)) inFile wrote
  · rw [wrote.table j same small] at liveJ fileJ ⊢
    intro x below
    rw [wrote.others j same small liveJ]
    exact wf.whole j small liveJ fileJ x below

theorem own_here (wf : WellFormed sb d) :
    Own sb d (Function.update (dinode sb d) i (dinode sb d i)) := by
  rw [Function.update_eq_self]
  exact wf.own

section Array
variable (wf : WellFormed sb d) (bound : i < sb.ninodes) (live : (dinode sb d i).type ≠ 0)
include wf bound live

theorem writei_full (ok : ¬ Refused (dinode sb d i) off n)
    (few : free sb d < lacks d (dinode sb d i) off.toNat n.toNat) :
    writei sb i d (dinode sb d i) src off n = none := by
  rw [writei_accepted _ src ok, Option.map_eq_none_iff, ← Option.not_isSome_iff_eq_none]
  simp only [Refused, not_or, Nat.not_lt] at ok
  rw [writeBlocks_iff wf.layout bound (own_here wf) live (Nat.le_refl _) ok.2.2]
  omega

variable (file : (dinode sb d i).type ≠ tDev)
include file

theorem writei_array (src : Nat → UInt8) (ok : ¬ Refused (dinode sb d i) off n)
    (enough : lacks d (dinode sb d i) off.toNat n.toNat ≤ free sb d) :
    ∃ e, writei sb i d (dinode sb d i) src off n = some (some n, e, dinode sb e i) ∧
      content e (dinode sb e i) =
        splice (content d (dinode sb d i)) off.toNat ((List.range n.toNat).map src) ∧
      (∀ j, j ≠ i → j < sb.ninodes → dinode sb e j = dinode sb d j ∧
        ((dinode sb d j).type ≠ 0 → content e (dinode sb e j) = content d (dinode sb d j))) ∧
      WellFormed sb e := by
  have whole := wf.whole i bound live file
  have accepted := ok
  simp only [Refused, not_or, Nat.not_lt] at accepted
  obtain ⟨ret,e,w,done⟩ :=
    writei_returns wf.layout bound (own_here wf) live src ok enough
  obtain ⟨rfl,wrote⟩ := writei_wrote wf.layout bound wf.own rfl live (filled_of_whole whole) ok done
  have same := wrote.here
  subst same
  refine ⟨e, done, content_wrote accepted.1 wrote, fun j other small =>
    ⟨wrote.table j other small, fun liveJ => ?_⟩,
    wellFormed_wrote wf rfl bound live file accepted.1 wrote⟩
  rw [wrote.table j other small]
  exact content_congr (wrote.others j other small liveJ)

theorem readi_array : readi sb d (dinode sb d i) off n =
    if (dinode sb d i).size.toNat < off.toNat ∨ 2 ^ 32 ≤ off.toNat + n.toNat then
      some (none, d, dinode sb d i)
    else some (some (((content d (dinode sb d i)).drop off.toNat).take n.toNat), d,
      dinode sb d i) := by
  rw [readi_whole (wf.whole i bound live file)]
  have := off.toNat_lt
  have := n.toNat_lt
  have wraps : off + n < off ↔ 2 ^ 32 ≤ off.toNat + n.toNat := by
    rw [UInt32.lt_iff_toNat_lt, UInt32.toNat_add]
    omega
  simp only [UInt32.lt_iff_toNat_lt (a := (dinode sb d i).size), wraps]

end Array

structure Hollow (v : Dinode) : Prop where
  size : v.size = 0
  addrs : v.addrs = fun _ => 0

theorem hollow_fresh (type : Int16) : Hollow (fresh type) := ⟨rfl, rfl⟩

theorem own_ialloc (layout : Layout sb) (own : Own sb d (dinode sb d)) (bound : i < sb.ninodes)
    (unused : (dinode sb d i).type = 0) {v : Dinode} (hollow : Hollow v) :
    Own sb (writeDinode sb d i v) (dinode sb (writeDinode sb d i v)) ∧
      ∀ j, j ≠ i → j < sb.ninodes → (dinode sb d j).type ≠ 0 → ∀ x,
        byteAt (writeDinode sb d i v) (dinode sb d j) x = byteAt d (dinode sb d j) x := by
  obtain ⟨ownNew,bytes⟩ := writeDinode_kept layout bound own v
  refine ⟨exact_congr ownNew (fun _ => Iff.rfl) fun ip => ?_, fun j _ small live =>
    bytes j small live⟩
  simp only [held, dinode_writeDinode]
  by_cases same : ip.1 = i
  · have empty : ∀ q, blockAt (writeDinode sb d i v) v q = none := by
      intro q
      cases q <;> simp only [blockAt, hollow.addrs] <;> rfl
    simp [same, empty, unused]
  · simp [same]

theorem wellFormed_ialloc (wf : WellFormed sb d) (bound : i < sb.ninodes)
    (unused : (dinode sb d i).type = 0) {v : Dinode} (hollow : Hollow v) :
    WellFormed sb (writeDinode sb d i v) := by
  obtain ⟨own,bytes⟩ := own_ialloc wf.layout wf.own bound unused hollow
  refine ⟨wf.layout, own, fun j small live file => ?_⟩
  rw [dinode_writeDinode] at live file ⊢
  by_cases same : j = i
  · rw [if_pos same]
    intro x below
    rw [hollow.size] at below
    cases below
  · rw [if_neg same] at live file ⊢
    intro x below
    rw [bytes j same small live]
    exact wf.whole j small live file x below

def blank (sb : Superblock) : Disk := (List.range (nmeta sb)).foldl (mark sb) fun _ => 0

theorem used_marks (l : List Nat) (d : Disk) (c : Nat) :
    used sb (l.foldl (mark sb) d) c = (used sb d c || decide (c ∈ l)) := by
  induction l generalizing d with
  | nil => simp
  | cons b l ih =>
    rw [List.foldl_cons, ih, used_mark]
    simp [Bool.or_assoc]

theorem inodes_marks (layout : Layout sb) (l : List Nat) (d : Disk) (small : ∀ b ∈ l, b < sb.size) :
    SameInodes sb d (l.foldl (mark sb) d) := by
  induction l generalizing d with
  | nil => exact fun _ _ _ => rfl
  | cons b l ih =>
    intro x low high
    rw [List.foldl_cons, ih (mark sb d b) (fun c mem => small c (List.mem_cons_of_mem b mem)) x
      low high]
    exact (update_bit_areas layout (small b (by simp)) _).1 x low high

theorem dinode_blank (layout : Layout sb) (bound : i < sb.ninodes) :
    dinode sb (blank sb) i = fresh 0 := by
  have zeros : ∀ a k, Bytes.get (fun _ => 0) a k = 0 := by
    intro a k
    have : load (fun _ => 0) a k = List.replicate k 0 := by simp [load, List.map_const']
    rw [Bytes.get, this]
    induction k with
    | zero => rfl
    | succ k ih => simp [List.replicate_succ, number, ih (by simp [load, List.map_const'])]
  rw [blank, dinode_congr layout bound (inodes_marks layout _ _ fun b mem => ?_)]
  · simp only [dinode, readDinode, zeros]
    rfl
  · have := List.mem_range.mp mem
    simp only [nmeta] at this
    omega

theorem wellFormed_blank (layout : Layout sb) : WellFormed sb (blank sb) := by
  have none : ∀ ip, held sb (blank sb) (dinode sb (blank sb)) ip = none := by
    intro ip
    simp only [held]
    split
    · rename_i both
      rw [dinode_blank layout both.1] at both
      exact absurd rfl both.2
    · rfl
  have unmarked : ∀ b, used sb (fun _ => 0) b = false := fun b => by simp [used, testBit]
  refine ⟨layout, ⟨fun b => ?_, fun p q r at_ => ?_, fun p r at_ => ?_⟩, fun j small live => ?_⟩
  · have marked : used sb (blank sb) b = decide (b < nmeta sb) := by
      simp [blank, used_marks, unmarked]
    simp only [marked, none, decide_eq_true_eq, reduceCtorEq, exists_false, or_false,
      and_iff_right_iff_imp]
    intro low
    simp only [nmeta] at low
    omega
  · rw [none] at at_
    cases at_
  · rw [none] at at_
    cases at_
  · rw [dinode_blank layout small] at live
    exact absurd rfl live

def tiny (n : Nat) : Superblock := ⟨34 + n, n, 2, 30, 2, 32, 33⟩

theorem layout_tiny {n : Nat} (small : n < 4000) : Layout (tiny n) := by
  refine ⟨rfl, rfl, ?_, ?_, ?_, ?_⟩
  all_goals simp only [tiny, nmeta, bpb, bsize, ipb]
  all_goals omega

def emptyFile (n : Nat) : Disk := writeDinode (tiny n) (blank (tiny n)) 1 (fresh tFile)

theorem wellFormed_emptyFile {n : Nat} (small : n < 4000) : WellFormed (tiny n) (emptyFile n) := by
  have layout := layout_tiny small
  have bound : 1 < (tiny n).ninodes := Nat.lt_succ_self 1
  refine wellFormed_ialloc (wellFormed_blank layout) bound ?_ (hollow_fresh tFile)
  rw [dinode_blank layout bound]
  rfl

theorem dinode_emptyFile (n : Nat) : dinode (tiny n) (emptyFile n) 1 = fresh tFile := by
  rw [emptyFile, dinode_writeDinode, if_pos rfl]

end FsContent
