import Xv6.Fs.Inode
import Xv6.Lib.Ownership

/- Who owns which block. The places of an inode are its addresses and the entries of its indirect
   block; the free map is exact for the blocks of the layout and those held at a place of some
   allocated inode. The inodes are given as a table, since a locked inode may be ahead of the
   disk until iupdate. -/
namespace FsOwner
open Bytes FsDisk FsInode Ownership

inductive Place where
  | addr (i : Fin 13)
  | entry (j : Fin 128)
  deriving DecidableEq

def nonzero (a : UInt32) : Option Nat := if a = 0 then none else some a.toNat

def blockAt (d : Disk) (v : Dinode) : Place → Option Nat
  | .addr i => nonzero (v.addrs i)
  | .entry j => (nonzero (v.addrs indirect)).bind fun a => nonzero (FsDisk.entry d a j)

def held (sb : Superblock) (d : Disk) (T : Nat → Dinode) (ip : Nat × Place) : Option Nat :=
  if ip.1 < sb.ninodes ∧ (T ip.1).type ≠ 0 then blockAt d (T ip.1) ip.2 else none

def Own (sb : Superblock) (d : Disk) (T : Nat → Dinode) : Prop :=
  Exact (fun b => b < nmeta sb) (fun b => b < sb.size ∧ used sb d b = true) (held sb d T)

variable {sb : Superblock} {d e : Disk} {v w : Dinode} {T : Nat → Dinode} {i j b c : Nat}
  {p q : Place}

theorem nonzero_ofNat (positive : 0 < b) (small : b < 4294967296) :
    nonzero (UInt32.ofNat b) = some b := by
  have back : (UInt32.ofNat b).toNat = b := UInt32.toNat_ofNat_of_lt' small
  have ne : UInt32.ofNat b ≠ 0 := by
    intro zero
    rw [zero] at back
    simp at back
    omega
  rw [nonzero, if_neg ne, back]

theorem nonzero_eq_none {a : UInt32} : nonzero a = none ↔ a = 0 := by
  simp [nonzero]

theorem nonzero_of_ne {a : UInt32} (ne : a ≠ 0) : nonzero a = some a.toNat := by
  rw [nonzero, if_neg ne]

theorem held_eq (bound : i < sb.ninodes) (live : (T i).type ≠ 0) :
    held sb d T (i, p) = blockAt d (T i) p :=
  if_pos ⟨bound, live⟩

theorem held_self (bound : i < sb.ninodes) (live : v.type ≠ 0) :
    held sb d (Function.update T i v) (i, p) = blockAt d v p := by
  rw [held_eq bound (by rwa [Function.update_self]), Function.update_self]

theorem held_other (other : j ≠ i) (bound : j < sb.ninodes) (live : (T j).type ≠ 0) :
    held sb d (Function.update T i v) (j, p) = blockAt d (T j) p := by
  rw [held_eq bound (by rwa [Function.update_of_ne other]), Function.update_of_ne other]

theorem own_bounds (own : Own sb d T) {ip : Nat × Place} (at_ : held sb d T ip = some b) :
    nmeta sb ≤ b ∧ b < sb.size ∧ used sb d b = true := by
  have inUse := exact_used own at_
  exact ⟨Nat.le_of_not_lt (own.open_ _ _ at_), inUse.1, inUse.2⟩

theorem own_congr (layout : Layout sb) (own : Own sb d T) (map : SameMap sb d e)
    (kept : ∀ j < sb.ninodes, (T j).type ≠ 0 → blockAt e (T j) = blockAt d (T j)) : Own sb e T := by
  refine exact_congr own (fun c => ?_) fun ip => ?_
  · constructor
    · exact fun ⟨small,inUse⟩ => ⟨small, used_congr layout small map ▸ inUse⟩
    · exact fun ⟨small,inUse⟩ => ⟨small, (used_congr layout small map).trans inUse⟩
  · simp only [held]
    split
    · rw [kept ip.1 ‹_ ∧ _›.1 ‹_ ∧ _›.2]
    · rfl

structure Fresh (sb : Superblock) (d e : Disk) (b : Nat) : Prop where
  low : nmeta sb ≤ b
  high : b < sb.size
  free : used sb d b = false
  used : ∀ c < sb.size, used sb e c = (used sb d c || decide (c = b))
  inodes : SameInodes sb d e
  blocks : ∀ c, nmeta sb ≤ c → c ≠ b → SameBlock d e c
  zero : ∀ x, bsize * b ≤ x → x < bsize * (b + 1) → e x = 0

theorem balloc_fresh (layout : Layout sb) (own : Own sb d T) (found : balloc sb d = some (b, e)) :
    Fresh sb d e b := by
  obtain ⟨a,first,eq⟩ := Option.map_eq_some_iff.mp found
  cases eq
  have high : b < sb.size := List.mem_range.mp (List.mem_of_find?_eq_some first)
  have free : used sb d b = false := by simpa using List.find?_some first
  have low : nmeta sb ≤ b := by
    rcases Nat.lt_or_ge b (nmeta sb) with reserved | data
    · have inUse := ((own.used_iff b).mpr (.inl reserved)).2
      rw [free] at inUse
      cases inUse
    · exact data
  obtain ⟨markInodes,markBlocks⟩ :=
    update_bit_areas (d := d) layout high (setBit (d (bitAddr sb b)) (b % bpb % 8))
  obtain ⟨zeroInodes,zeroMap,zeroBlocks⟩ := zeroBlock_areas (d := mark sb d b) layout low
  refine ⟨low, high, free, fun c small => ?_, fun x below above => ?_,
    fun c data other x below above => ?_,
    fun x below above => zeroBlock_inside _ below above⟩
  · rw [used_congr layout small zeroMap, used_mark]
  · rw [zeroInodes x below above]
    exact markInodes x below above
  · rw [zeroBlocks c other x below above]
    exact markBlocks c data x below above

theorem blockAt_congr (same : ∀ a, blockAt d v (.addr indirect) = some a → SameBlock d e a) :
    blockAt e v = blockAt d v := by
  funext p
  cases p with
  | addr i => rfl
  | entry j =>
    simp only [blockAt] at same ⊢
    cases at_ : nonzero (v.addrs indirect) with
    | none => rfl
    | some a => simp only [Option.bind_some, entry_congr j.isLt (same a at_)]

theorem blockAt_setAddr (v : Dinode) (i : Fin 13) (a : UInt32) (k : Fin 13) :
    blockAt d (v.setAddr i a) (.addr k) = if k = i then nonzero a else blockAt d v (.addr k) := by
  simp only [blockAt, Dinode.setAddr, Function.update_apply]
  split <;> rfl

structure Grown (sb : Superblock) (d : Disk) (v : Dinode) (p : Place) (b : Nat) (e : Disk)
    (w : Dinode) :
    Prop where
  low : nmeta sb ≤ b
  high : b < sb.size
  free : used sb d b = false
  used : ∀ c < sb.size, used sb e c = (used sb d c || decide (c = b))
  inodes : SameInodes sb d e
  blocks : ∀ c, nmeta sb ≤ c → c ≠ b → blockAt d v (.addr indirect) ≠ some c → SameBlock d e c
  zero : ∀ x, bsize * b ≤ x → x < bsize * (b + 1) → e x = 0
  empty : blockAt d v p = none
  places : ∀ q, blockAt e w q = if q = p then some b else blockAt d v q
  fields : w = { v with addrs := w.addrs }

theorem grown_addr (layout : Layout sb) (fresh : Fresh sb d e b) (k : Fin 13)
    (empty : v.addrs k = 0) (apart : blockAt d v (.addr indirect) ≠ some b)
    (real : ∀ a, blockAt d v (.addr indirect) = some a → nmeta sb ≤ a) :
    Grown sb d v (.addr k) b e (v.setAddr k (UInt32.ofNat b)) := by
  have size := layout.size
  have := fresh.high
  have := bmapstart_below layout
  have := fresh.low
  have named : nonzero (UInt32.ofNat b) = some b := nonzero_ofNat (by omega) (by omega)
  refine ⟨fresh.low, fresh.high, fresh.free, fresh.used, fresh.inodes,
    fun c data other _ => fresh.blocks c data other, fresh.zero, nonzero_eq_none.mpr empty,
      fun q => ?_, rfl⟩
  cases q with
  | addr m =>
    rw [blockAt_setAddr, named]
    simp only [Place.addr.injEq]
    rfl
  | entry m =>
    rw [if_neg (by simp)]
    by_cases this : indirect = k
    · subst this
      have zero : FsDisk.entry e b m = 0 := by
        have zeros : load e (bsize * b + 4 * m) 4 = load (zeroBlock e b) (bsize * b + 4 * m) 4 := by
          refine load_congr fun x low high => ?_
          have bound := m.isLt
          have inside : x < bsize * (b + 1) := by
            simp only [bsize]
            simp only [bsize] at high
            omega
          rw [fresh.zero x (by omega) inside, zeroBlock_inside e (by omega) inside]
        have := entry_zeroBlock e b (j := m) m.isLt
        rwa [FsDisk.entry, Bytes.get, ← zeros] at this
      simp only [blockAt, Dinode.setAddr, Function.update_self, named, empty,
        Option.bind_some, zero]
      rfl
    · simp only [blockAt, Dinode.setAddr, Function.update_of_ne this]
      cases at_ : nonzero (v.addrs indirect) with
      | none => rfl
      | some a =>
        have other : a ≠ b := by
          rintro rfl
          exact apart at_
        simp only [Option.bind_some, entry_congr m.isLt (fresh.blocks a (real a at_) other)]

theorem grown_entry (layout : Layout sb) (fresh : Fresh sb d e b) {a : Nat} (k : Fin 128)
    (present : blockAt d v (.addr indirect) = some a) (data : nmeta sb ≤ a) (other : a ≠ b)
    (empty : FsDisk.entry d a k = 0) :
    Grown sb d v (.entry k) b (setEntry e a k (UInt32.ofNat b)) v := by
  have size := layout.size
  have := fresh.high
  have := bmapstart_below layout
  have := fresh.low
  have named : nonzero (UInt32.ofNat b) = some b := nonzero_ofNat (by omega) (by omega)
  obtain ⟨inodes,map,blocks⟩ := setEntry_areas (d := e) layout data k.isLt (UInt32.ofNat b)
  have at_ : nonzero (v.addrs indirect) = some a := present
  refine ⟨fresh.low, fresh.high, fresh.free, fun c small => ?_, fun x below above => ?_,
    fun c real ne notIndirect x below above => ?_, fun x below above => ?_, ?_, fun q => ?_, rfl⟩
  · rw [used_congr layout small map, fresh.used c small]
  · rw [inodes x below above, fresh.inodes x below above]
  · have elsewhere : c ≠ a := by
      rintro rfl
      exact notIndirect present
    rw [blocks c elsewhere x below above, fresh.blocks c real ne x below above]
  · rw [blocks b (Ne.symm other) x below above, fresh.zero x below above]
  · simp only [blockAt, at_, Option.bind_some, empty]
    rfl
  · cases q with
    | addr m =>
      rw [if_neg (by simp)]
      rfl
    | entry m =>
      have kept := entry_congr m.isLt (fresh.blocks a data other)
      simp only [blockAt, at_, Option.bind_some, entry_setEntry, Place.entry.injEq,
        Fin.val_inj, kept]
      split
      · exact named
      · rfl

theorem grown_others (own : Own sb d T) (grown : Grown sb d (T i) p b e w) (bound : i < sb.ninodes)
    (live : (T i).type ≠ 0) (other : j ≠ i) (bound' : j < sb.ninodes) (live' : (T j).type ≠ 0) :
    blockAt e (T j) = blockAt d (T j) := by
  refine blockAt_congr fun a at_ => ?_
  have here : held sb d T (j, .addr indirect) = some a := by rwa [held_eq bound' live']
  obtain ⟨low,-,inUse⟩ := own_bounds own here
  refine grown.blocks a low ?_ fun mine => other ?_
  · rintro rfl
    rw [grown.free] at inUse
    cases inUse
  · have there : held sb d T (i, .addr indirect) = some a := by rwa [held_eq bound live]
    exact congrArg Prod.fst (own.once _ _ _ here there)

theorem own_grown (own : Own sb d T) (grown : Grown sb d (T i) p b e w) (bound : i < sb.ninodes)
    (live : (T i).type ≠ 0) : Own sb e (Function.update T i w) := by
  have alive : w.type ≠ 0 := by
    rw [grown.fields]
    exact live
  have mine : ∀ q, held sb e (Function.update T i w) (i, q) = blockAt e w q :=
    fun q => held_self bound alive
  refine exact_alloc (p := (i, p)) (r := b) own ?_ ?_ (fun c => ?_) ?_ fun q away => ?_
  · rintro ⟨-,inUse⟩
    rw [grown.free] at inUse
    cases inUse
  · rw [held_eq bound live, grown.empty]
  · constructor
    · rintro ⟨small,inUse⟩
      rw [grown.used c small] at inUse
      by_cases same : c = b
      · exact .inr same
      · exact .inl ⟨small, by simpa [same] using inUse⟩
    · rintro (⟨small,inUse⟩ | rfl)
      · exact ⟨small, by rw [grown.used c small, inUse]; rfl⟩
      · exact ⟨grown.high, by rw [grown.used c grown.high]; simp⟩
  · rw [mine, grown.places, if_pos rfl]
  · obtain ⟨j,q⟩ := q
    by_cases same : j = i
    · subst same
      have ne : q ≠ p := by
        rintro rfl
        exact away rfl
      rw [mine, grown.places, if_neg ne, held_eq bound live]
    · by_cases dead : j < sb.ninodes ∧ (T j).type ≠ 0
      · rw [held_other same dead.1 dead.2, grown_others own grown bound live same dead.1 dead.2,
          held_eq dead.1 dead.2]
      · simp only [held, Function.update_of_ne same, dead, if_false]

def placeOf (bn : Nat) : Option Place :=
  if h : bn < ndirect then some (.addr (direct bn h))
  else if h : bn - ndirect < nindirect then some (.entry ⟨bn - ndirect, h⟩)
  else none

def fileBlock (d : Disk) (v : Dinode) (bn : Nat) : Option Nat := (placeOf bn).bind (blockAt d v)

theorem placeOf_injective {m n : Nat} (first : placeOf m = some p) (second : placeOf n = some p) :
    m = n := by
  simp only [placeOf] at first second
  split at first <;> split at second
  · cases first
    simpa [direct, eq_comm] using second
  · split at second
    · cases first
      cases second
    · cases second
  · split at first
    · cases first
      cases second
    · cases first
  · split at first <;> split at second
    · cases first
      have same : n - ndirect = m - ndirect :=
        congrArg Fin.val (Place.entry.inj (Option.some.inj second))
      omega
    · cases second
    · cases first
    · cases first

theorem placeOf_ne_indirect (bn : Nat) : placeOf bn ≠ some (.addr indirect) := by
  simp only [placeOf]
  split
  · simp only [ne_eq, Option.some.injEq, Place.addr.injEq, direct, indirect, Fin.mk.injEq]
    omega
  · split <;> simp

theorem placeOf_direct {bn : Nat} (h : bn < ndirect) : placeOf bn = some (.addr (direct bn h)) :=
  dif_pos h

theorem placeOf_entry {bn : Nat} (h : ¬ bn < ndirect) (k : bn - ndirect < nindirect) :
    placeOf bn = some (.entry ⟨bn - ndirect, k⟩) := by
  rw [placeOf, dif_neg h, dif_pos k]

inductive Grows (sb : Superblock) (d : Disk) (v : Dinode) : Disk → Dinode → Prop
  | refl : Grows sb d v d v
  | step {e w p b f x} (before : Grows sb d v e w) (grown : Grown sb e w p b f x) : Grows sb d v f x

theorem grows_fields (grows : Grows sb d v e w) : w = { v with addrs := w.addrs } := by
  induction grows with
  | refl => rfl
  | step before grown ih =>
    rw [grown.fields, ih]

theorem grows_kept (grows : Grows sb d v e w) (at_ : blockAt d v q = some c) :
    blockAt e w q = some c := by
  induction grows with
  | refl => exact at_
  | step before grown ih =>
    rw [grown.places]
    split
    · subst q
      rw [grown.empty] at ih
      cases ih
    · exact ih

theorem own_grows (own : Own sb d (Function.update T i v)) (grows : Grows sb d v e w)
    (bound : i < sb.ninodes) (live : v.type ≠ 0) : Own sb e (Function.update T i w) := by
  induction grows with
  | refl => exact own
  | @step f x p b g y before grown ih =>
    have alive : x.type ≠ 0 := by
      rw [grows_fields before]
      exact live
    have here : Function.update T i x i = x := Function.update_self ..
    have next := own_grown (T := Function.update T i x) (w := y) ih (here.symm ▸ grown) bound
      (here.symm ▸ alive)
    rwa [Function.update_idem] at next

theorem grows_others (own : Own sb d (Function.update T i v)) (grows : Grows sb d v e w)
    (bound : i < sb.ninodes) (live : v.type ≠ 0) (other : j ≠ i) (bound' : j < sb.ninodes)
    (live' : (T j).type ≠ 0) : blockAt e (T j) = blockAt d (T j) := by
  induction grows with
  | refl => rfl
  | @step f x p b g y before grown ih =>
    have alive : x.type ≠ 0 := by
      rw [grows_fields before]
      exact live
    have here : Function.update T i x i = x := Function.update_self ..
    have there : Function.update T i x j = T j := Function.update_of_ne other ..
    have same :=
      grown_others (T := Function.update T i x) (w := y) (own_grows own before bound live)
      (here.symm ▸ grown) bound (here.symm ▸ alive) other bound' (there.symm ▸ live')
    rw [there] at same
    rw [same, ih]

/-- What bmap has done when it returns block `b`: nothing if the block was there, and otherwise
    one allocation, or two if the indirect block was missing as well. -/
inductive Mapped (sb : Superblock) (d : Disk) (v : Dinode) (bn b : Nat) : Disk → Dinode → Prop
  | present (block : fileBlock d v bn = some b) : Mapped sb d v bn b d v
  | one {p : Place} {e : Disk} {w : Dinode} (place : placeOf bn = some p)
      (ready : ndirect ≤ bn → v.addrs indirect ≠ 0) (grown : Grown sb d v p b e w) :
      Mapped sb d v bn b e w
  | two {p : Place} {a : Nat} {f e : Disk} {x w : Dinode} (place : placeOf bn = some p)
      (high : ndirect ≤ bn) (first : Grown sb d v (.addr indirect) a f x)
      (grown : Grown sb f x p b e w) : Mapped sb d v bn b e w

theorem own_indirect (bound : i < sb.ninodes) (own : Own sb d (Function.update T i v))
    (live : v.type ≠ 0) {a : Nat} (at_ : blockAt d v p = some a) :
    nmeta sb ≤ a ∧ used sb d a = true := by
  have here := (held_self (T := T) bound live).trans at_
  obtain ⟨low,-,inUse⟩ := own_bounds own here
  exact ⟨low, inUse⟩

section Bmap
variable (layout : Layout sb) (bound : i < sb.ninodes)
include layout bound

theorem balloc_addr (own : Own sb d (Function.update T i v)) (live : v.type ≠ 0) (k : Fin 13)
    (empty : v.addrs k = 0) (found : balloc sb d = some (b, e)) :
    Grown sb d v (.addr k) b e (v.setAddr k (UInt32.ofNat b)) := by
  have fresh := balloc_fresh layout own found
  refine grown_addr layout fresh k empty (fun at_ => ?_) fun a at_ =>
    (own_indirect bound own live at_).1
  have inUse := (own_indirect bound own live at_).2
  rw [fresh.free] at inUse
  cases inUse

theorem balloc_entry (own : Own sb d (Function.update T i v)) (live : v.type ≠ 0) {a : Nat}
    (k : Fin 128) (present : blockAt d v (.addr indirect) = some a) (empty : FsDisk.entry d a k = 0)
    (found : balloc sb d = some (b, e)) :
    Grown sb d v (.entry k) b (setEntry e a k (UInt32.ofNat b)) v := by
  have fresh := balloc_fresh layout own found
  obtain ⟨low,inUse⟩ := own_indirect bound own live present
  refine grown_entry layout fresh k present low ?_ empty
  rintro rfl
  rw [fresh.free] at inUse
  cases inUse

theorem balloc_indirect (own : Own sb d (Function.update T i v)) (live : v.type ≠ 0) {a k : Nat}
    (missing : v.addrs indirect = 0) (found : balloc sb d = some (a, e)) (inRange : k < nindirect) :
    ((v.setAddr indirect (UInt32.ofNat a)).addrs indirect).toNat = a ∧ FsDisk.entry e a k = 0 := by
  have first := balloc_addr layout bound own live indirect missing found
  have present := first.places (.addr indirect)
  rw [if_pos rfl] at present
  have at_ : nonzero ((v.setAddr indirect (UInt32.ofNat a)).addrs indirect) = some a := present
  constructor
  · simp only [nonzero] at at_
    split at at_
    · cases at_
    · exact Option.some.inj at_
  · have absent := first.places (.entry ⟨k, inRange⟩)
    have none : blockAt d v (.entry ⟨k, inRange⟩) = none := by simp [blockAt, missing, nonzero]
    rw [if_neg (by simp), none] at absent
    simpa [blockAt, at_, nonzero_eq_none] using absent

theorem bmap_mapped (own : Own sb d (Function.update T i v)) (live : v.type ≠ 0) {bn : Nat}
    (done : bmap sb d v bn = some (b, e, w)) : Mapped sb d v bn b e w := by
  simp only [bmap] at done
  split at done
  · rename_i low
    split at done
    · rename_i empty
      obtain ⟨⟨a,f⟩,found,eq⟩ := Option.map_eq_some_iff.mp done
      cases eq
      exact .one (placeOf_direct low) (by omega) (balloc_addr layout bound own live _ empty found)
    · cases done
      refine .present ?_
      rw [fileBlock, placeOf_direct low, Option.bind_some]
      exact nonzero_of_ne ‹_›
  · rename_i high
    split at done
    · rename_i inRange
      obtain ⟨⟨f,x⟩,loaded,done⟩ := Option.bind_eq_some_iff.mp done
      simp only [loadIndirect] at loaded
      split at loaded
      · rename_i missing
        obtain ⟨⟨a,g⟩,found,eq⟩ := Option.map_eq_some_iff.mp loaded
        cases eq
        have first := balloc_addr layout bound own live indirect missing found
        have present := first.places (.addr indirect)
        rw [if_pos rfl] at present
        obtain ⟨name,empty⟩ := balloc_indirect layout bound own live missing found inRange
        simp only [name, empty, if_true] at done
        obtain ⟨⟨c,h⟩,found,eq⟩ := Option.bind_eq_some_iff.mp done
        cases eq
        have next := own_grows own (.step .refl first) bound live
        exact .two (placeOf_entry high inRange) (by omega) first
          (balloc_entry layout bound next live ⟨bn - ndirect, inRange⟩ present empty found)
      · rename_i ready
        cases loaded
        have present : blockAt d v (.addr indirect) = some (v.addrs indirect).toNat :=
          nonzero_of_ne ready
        split at done
        · rename_i empty
          obtain ⟨⟨a,g⟩,found,eq⟩ := Option.bind_eq_some_iff.mp done
          cases eq
          exact .one (placeOf_entry high inRange) (fun _ => ready)
            (balloc_entry layout bound own live ⟨bn - ndirect, inRange⟩ present empty found)
        · cases done
          refine .present ?_
          have at_ : nonzero (v.addrs indirect) = some (v.addrs indirect).toNat := present
          rw [fileBlock, placeOf_entry high inRange, Option.bind_some]
          simp only [blockAt, at_, Option.bind_some]
          exact nonzero_of_ne ‹_›
    · cases done

theorem bmap_spec (own : Own sb d (Function.update T i v)) (live : v.type ≠ 0) {bn : Nat}
    (done : bmap sb d v bn = some (b, e, w)) : Grows sb d v e w ∧ fileBlock e w bn = some b := by
  cases bmap_mapped layout bound own live done with
  | present block => exact ⟨.refl, block⟩
  | one place ready grown =>
    refine ⟨.step .refl grown, ?_⟩
    rw [fileBlock, place, Option.bind_some, grown.places, if_pos rfl]
  | two place high first grown =>
    refine ⟨.step (.step .refl first) grown, ?_⟩
    rw [fileBlock, place, Option.bind_some, grown.places, if_pos rfl]

end Bmap

end FsOwner
