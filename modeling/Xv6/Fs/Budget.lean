import Xv6.Fs.Cache
import Xv6.Param

/- The blocks that one transaction logs. A write logs its data blocks, for each block it
   allocates a block of the free map, the indirect block if it puts an entry there, and the
   block of the inode. -/
namespace FsLog
open Bytes FsDisk FsInode FsOwner FsContent FsIcache FsCache Panics Param

variable {sb : Superblock} {d e : Disk} {v w : Dinode} {T : Nat → Dinode} {i b bn : Nat}

section Bmap
variable (layout : Layout sb) (bound : i < sb.ninodes)
include layout bound

theorem bmap_blocks (own : Own sb d (Function.update T i v)) (live : v.type ≠ 0)
    (done : FsInode.bmap sb d v bn = some (b, e, w)) :
    FsLog.bmap sb d v bn =
      (if ndirect ≤ bn ∧ v.addrs indirect = 0 then
        [bblock sb (w.addrs indirect).toNat, (w.addrs indirect).toNat] else []) ++
      if fileBlock d v bn = none then
        [bblock sb b, b] ++ if ndirect ≤ bn then [(w.addrs indirect).toNat] else []
      else [] := by
  unfold FsInode.bmap at done
  unfold FsLog.bmap
  by_cases low : bn < ndirect
  · have direct_ : ¬ ndirect ≤ bn := by omega
    simp only [dif_pos low, if_neg direct_, if_neg fun both : _ ∧ _ => direct_ both.1] at done ⊢
    by_cases empty : v.addrs (direct bn low) = 0
    · have absent : fileBlock d v bn = none := by
        rw [fileBlock, placeOf_direct low]
        exact nonzero_eq_none.mpr empty
      rw [if_pos empty] at done
      obtain ⟨⟨a,f⟩,found,eq⟩ := Option.map_eq_some_iff.mp done
      cases eq
      simp only [if_pos empty, if_pos absent, FsLog.balloc, found, List.nil_append, List.append_nil]
    · have present : fileBlock d v bn ≠ none := by
        rw [fileBlock, placeOf_direct low, Option.bind_some, blockAt, nonzero_of_ne empty]
        exact Option.some_ne_none _
      simp only [if_neg empty, if_neg present, List.append_nil]
  · have high : ndirect ≤ bn := by omega
    rw [dif_neg low] at done ⊢
    split at done
    · next inRange =>
      obtain ⟨⟨f,x⟩,loaded,done⟩ := Option.bind_eq_some_iff.mp done
      simp only [if_pos inRange, if_pos high, loaded]
      simp only [loadIndirect] at loaded
      split at loaded
      · next missing =>
        -- the indirect block is new and has no entries
        obtain ⟨⟨a,g⟩,found,eq⟩ := Option.map_eq_some_iff.mp loaded
        cases eq
        obtain ⟨name,empty⟩ := balloc_indirect layout bound own live missing found inRange
        have absent : fileBlock d v bn = none := by
          rw [fileBlock, placeOf_entry low inRange]
          simp [blockAt, missing, nonzero]
        simp only [name, empty, if_true] at done ⊢
        obtain ⟨⟨c,h⟩,found',eq⟩ := Option.bind_eq_some_iff.mp done
        cases eq
        simp only [missing, and_self, high, if_true, absent, FsLog.balloc, found, found', name]
      · next ready =>
        cases loaded
        have notMissing : ¬ (ndirect ≤ bn ∧ v.addrs indirect = 0) := fun both => ready both.2
        have at_ : nonzero (v.addrs indirect) = some (v.addrs indirect).toNat := nonzero_of_ne ready
        rw [if_neg ready, if_neg notMissing, List.nil_append, List.nil_append]
        dsimp only at done
        split at done
        · next empty =>
          obtain ⟨⟨a,g⟩,found,eq⟩ := Option.bind_eq_some_iff.mp done
          cases eq
          have absent : fileBlock d v bn = none := by
            rw [fileBlock, placeOf_entry low inRange, Option.bind_some, blockAt, at_]
            exact nonzero_eq_none.mpr empty
          simp only [if_pos empty, if_pos absent, FsLog.balloc, found]
        · next taken =>
          have present : fileBlock d v bn ≠ none := by
            rw [fileBlock, placeOf_entry low inRange, Option.bind_some, blockAt, at_,
              Option.bind_some,
              nonzero_of_ne taken]
            exact Option.some_ne_none _
          rw [if_neg taken, if_neg present]
    · cases done

theorem bmap_blocks_stopped (stopped : FsInode.bmap sb d v bn = none)
    (own : Own sb d (Function.update T i v))
    (live : v.type ≠ 0) : ∃ S : Finset Nat, S.card ≤ needs d v bn ∧ ∀ c ∈ FsLog.bmap sb d v bn,
      c ∈ S := by
  unfold FsInode.bmap at stopped
  unfold FsLog.bmap
  by_cases low : bn < ndirect
  · refine ⟨∅, Nat.zero_le _, fun c mem => ?_⟩
    simp only [dif_pos low] at stopped mem
    split at stopped
    · next empty =>
      rw [Option.map_eq_none_iff] at stopped
      simp [FsLog.balloc, stopped] at mem
    · cases stopped
  · have high : ndirect ≤ bn := by omega
    rw [dif_neg low] at stopped ⊢
    by_cases inRange : bn - ndirect < nindirect
    · rw [if_pos inRange] at stopped ⊢
      by_cases missing : v.addrs indirect = 0
      · have absent : fileBlock d v bn = none := by
          rw [fileBlock, placeOf_entry low inRange]
          simp [blockAt, missing, nonzero]
        have two : needs d v bn = 2 := by rw [needs, if_pos absent, if_pos ⟨high, missing⟩]
        simp only [loadIndirect, missing, if_true, FsLog.balloc] at stopped ⊢
        cases found : FsInode.balloc sb d with
        | none => exact ⟨∅, Nat.zero_le _, fun c mem => by simp at mem⟩
        | some r =>
          obtain ⟨a,f⟩ := r
          obtain ⟨name,empty⟩ := balloc_indirect layout bound own live missing found inRange
          rw [found] at stopped
          simp only [Option.map_some, Option.bind_eq_bind, Option.bind_some, name, empty, if_true]
            at stopped ⊢
          rw [Option.bind_eq_none_iff] at stopped
          cases again : FsInode.balloc sb f with
          | none =>
            refine ⟨{bblock sb a, a}, two ▸ Finset.card_le_two, fun c mem => ?_⟩
            simpa using mem
          | some r => cases stopped r again
      · refine ⟨∅, Nat.zero_le _, fun c mem => ?_⟩
        simp only [loadIndirect, if_neg missing, Option.bind_eq_bind, Option.bind_some,
          List.nil_append] at stopped mem
        split at stopped
        · next empty =>
          rw [if_pos empty] at mem
          rw [Option.bind_eq_none_iff] at stopped
          cases found : FsInode.balloc sb d with
          | none => simp [found] at mem
          | some r => cases stopped r found
        · cases stopped
    · rw [if_neg inRange]
      exact ⟨∅, Nat.zero_le _, fun c mem => by cases mem⟩

theorem writeBlocks_blocks {fuel : Nat} (own : Own sb d (Function.update T i v)) (live : v.type ≠ 0)
    (src : Nat → UInt8) (off : Nat) {n : Nat} (enough : n ≤ fuel) :
    ∃ a, ∃ S : Finset Nat, (v.addrs indirect ≠ 0 → a = (v.addrs indirect).toNat) ∧
      S.card ≤ (touched off n).card + lacks d v off n ∧
      ∀ c ∈ FsLog.writeBlocks sb fuel d v src off n, c = a ∨ c ∈ S := by
  induction fuel generalizing d v src off n with
  | zero => exact ⟨_, ∅, fun _ => rfl, Nat.zero_le _, fun c mem => by cases mem⟩
  | succ fuel ih =>
    rw [FsLog.writeBlocks]
    by_cases some_left : n = 0
    · rw [if_pos some_left]
      exact ⟨_, ∅, fun _ => rfl, Nat.zero_le _, fun c mem => by cases mem⟩
    · rw [if_neg some_left]
      have low : off % bsize < bsize := Nat.mod_lt _ (by decide)
      generalize size : min n (bsize - off % bsize) = m
      cases mapped : FsInode.bmap sb d v (off / bsize) with
      | none =>
        obtain ⟨S,few,all⟩ := bmap_blocks_stopped layout bound mapped own live
        have atLeast := needs_le_lacks (d := d) (v := v) some_left size
        refine ⟨_, S, fun _ => rfl, by omega, fun c mem => .inr (all c ?_)⟩
        simpa using mem
      | some r =>
        obtain ⟨b,d1,v1⟩ := r
        obtain ⟨grows,block⟩ := bmap_spec layout bound own live mapped
        obtain ⟨q,place,at_⟩ := Option.bind_eq_some_iff.mp block
        obtain ⟨-,missing,level⟩ := mapped_free (bmap_mapped layout bound own live mapped)
        have grow := (grows_change own grows bound live).1
        have live1 : v1.type ≠ 0 := change_type grow ▸ live
        have inside : off % bsize + ((List.range m).map src).length ≤ bsize := by
          rw [List.length_map, List.length_range]
          omega
        obtain ⟨-,-,-,kept⟩ := store_frame layout grow.own bound live1 place at_ inside
        have stored := store_change layout grow.own bound live1 place at_ inside
        have blocks := kept i bound (by rwa [Function.update_self])
        rw [Function.update_self] at blocks
        have step := lacks_step (e := store d1 (bsize * b + off % bsize) ((List.range m).map src))
          (w := v1) some_left size (fun k => by rw [fileBlock, blocks]; exact missing k) level
        obtain ⟨together,apart⟩ := touched_step some_left size
        have count : (touched off n).card = (touched (off + m) (n - m)).card + 1 := by
          rw [together, Finset.card_insert_of_notMem apart]
        obtain ⟨a,S,here,few,all⟩ :=
          ih stored.own live1 (fun k => src (m + k)) (off + m) (n := n - m) (by omega)
        have mine := bmap_blocks layout bound own live mapped
        -- this pass adds its data block and what it marked in the free map
        let M : Finset Nat :=
          (if ndirect ≤ off / bsize ∧ v.addrs indirect = 0 then
            {bblock sb (v1.addrs indirect).toNat} else ∅) ∪
            if fileBlock d v (off / bsize) = none then {bblock sb b} else ∅
        have marks : M.card ≤ needs d v (off / bsize) := by
          refine (Finset.card_union_le _ _).trans ?_
          rw [needs, Nat.add_comm]
          refine Nat.add_le_add ?_ ?_
          all_goals split <;> simp
        refine ⟨a, insert b M ∪ S, fun some_ => ?_, ?_, fun c mem => ?_⟩
        · have same := grows_kept grows (q := .addr indirect) (nonzero_of_ne some_)
          have some1 : v1.addrs indirect ≠ 0 := fun zero => by
            rw [blockAt, nonzero_eq_none.mpr zero] at same
            cases same
          rw [blockAt, nonzero_of_ne some1] at same
          rw [here some1, Option.some.inj same]
        · have := Finset.card_union_le (insert b M) S
          have := Finset.card_insert_le b M
          omega
        · simp only [List.mem_append, List.mem_cons] at mem
          rcases mem with first | rfl | rest
          · have indirect_ : ndirect ≤ off / bsize → (v1.addrs indirect).toNat = a := fun high => by
              refine (here fun zero => ?_).symm
              have := (level.mp zero).2
              omega
            rw [mine] at first
            by_cases new : ndirect ≤ off / bsize ∧ v.addrs indirect = 0 <;>
              by_cases absent : fileBlock d v (off / bsize) = none <;>
              by_cases high : ndirect ≤ off / bsize <;>
              simp [new, absent, high, M] at first ⊢ <;> grind
          · exact .inr (by simp)
          · rcases all c rest with same | old
            · exact .inl same
            · exact .inr (Finset.mem_union_right _ old)

end Bmap

theorem writei_mem {src : Nat → UInt8} {off n : UInt32} {c : Nat}
    (mem : c ∈ FsLog.writei sb i d v src off n) :
    ¬ Refused v off n ∧ (c = iblock sb i ∨
      c ∈ FsLog.writeBlocks sb n.toNat d v src off.toNat n.toNat) := by
  have top : (UInt32.ofNat (maxfile * bsize)).toNat = maxfile * bsize := rfl
  have := off.toNat_lt
  have := n.toNat_lt
  simp only [FsLog.writei, gt_iff_lt, UInt32.lt_iff_toNat_lt, UInt32.toNat_add, top] at mem
  split at mem
  · cases mem
  next fine =>
    split at mem
    · cases mem
    next small =>
      refine ⟨?_, ?_⟩
      · rintro (beyond | wraps | large)
        all_goals omega
      · rcases List.mem_append.mp mem with data | inode
        · exact .inr data
        · split at inode
          · cases inode
          · split at inode
            · exact .inl (List.mem_singleton.mp inode)
            · cases inode

/-- A write of at most three blocks' worth of bytes. If it starts inside of a block, that block
    is there already, since the write starts within the file. -/
theorem chunk_lacks {off n : Nat} (filled : Filled d v) (inFile : off ≤ v.size.toNat)
    (small : off + n ≤ maxfile * bsize) (short : n ≤ 1536) :
    (touched off n).card + lacks d v off n ≤ 8 := by
  by_cases none_ : n = 0
  · simp [touched, lacks, none_]
  have tables : (if v.addrs indirect = 0 ∧ 0 < n ∧ ndirect ≤ (off + n - 1) / bsize then 1
    else 0) ≤ 1 := by
      split <;> omega
  have blocks : (touched off n).card = (off + n - 1) / bsize + 1 - off / bsize := by
    rw [touched, if_neg none_, Nat.card_Ico]
  have missing := Finset.card_filter_le (touched off n) fun bn => fileBlock d v bn = none
  rw [lacks]
  by_cases aligned : off % bsize = 0
  · simp only [bsize] at blocks aligned
    omega
  · have first : fileBlock d v (off / bsize) ≠ none := by
      have positive : 0 < off := Nat.pos_of_ne_zero fun zero => aligned (by rw [zero]; rfl)
      obtain ⟨b,block⟩ := block_of_byte (filled (off - off % bsize) (by omega) (by omega))
      have same : (off - off % bsize) / bsize = off / bsize := by
        simp only [bsize]
        omega
      rw [same] at block
      rw [block]
      exact Option.some_ne_none b
    have mem : off / bsize ∈ touched off n := by
      rw [touched, if_neg none_, Finset.mem_Ico]
      exact ⟨Nat.le_refl _, Nat.lt_succ_of_le (Nat.div_le_div_right (by omega))⟩
    have less : ((touched off n).filter fun bn => fileBlock d v bn = none).card <
        (touched off n).card := by
      refine Finset.card_lt_card ⟨Finset.filter_subset _ _, fun all => first ?_⟩
      exact (Finset.mem_filter.mp (all mem)).2
    simp only [bsize] at blocks
    omega

theorem writei_within (layout : Layout sb) (bound : i < sb.ninodes)
    (own : Own sb d (Function.update T i v)) (live : v.type ≠ 0) (src : Nat → UInt8)
    (off n : UInt32) : ∃ S : Finset Nat,
      S.card ≤ (touched off.toNat n.toNat).card + lacks d v off.toNat n.toNat + 2 ∧
      ∀ c ∈ FsLog.writei sb i d v src off n, c ∈ S := by
  obtain ⟨a,S,-,few,all⟩ :=
    writeBlocks_blocks layout bound own live src off.toNat (Nat.le_refl n.toNat)
  refine ⟨insert (iblock sb i) (insert a S), ?_, fun c mem => ?_⟩
  · have two := Finset.card_insert_le (iblock sb i) (insert a S)
    have one := Finset.card_insert_le a S
    omega
  · rcases (writei_mem mem).2 with rfl | data
    · simp
    · rcases all c data with rfl | old
      · simp
      · simp [old]

theorem writei_blocks (layout : Layout sb) (bound : i < sb.ninodes)
    (own : Own sb d (Function.update T i v)) (live : v.type ≠ 0) (filled : Filled d v)
    (src : Nat → UInt8) {off n : UInt32} (short : n.toNat ≤ 1536) :
    (FsLog.writei sb i d v src off n).toFinset.card ≤ maxOpBlocks := by
  by_cases refused : Refused v off n
  · have nothing : FsLog.writei sb i d v src off n = [] :=
      List.eq_nil_iff_forall_not_mem.mpr fun c mem => (writei_mem mem).1 refused
    rw [nothing]
    exact Nat.zero_le _
  simp only [Refused, not_or, Nat.not_lt] at refused
  obtain ⟨S,few,all⟩ := writei_within layout bound own live src off n
  have lack := chunk_lacks filled refused.1 refused.2.2 short
  have within : (FsLog.writei sb i d v src off n).toFinset ⊆ S :=
    fun c mem => all c (List.mem_toFinset.mp mem)
  have card := Finset.card_le_card within
  simp only [maxOpBlocks]
  omega

theorem filled_of_wellFormed (wf : WellFormed sb d) (bound : i < sb.ninodes)
    (live : (dinode sb d i).type ≠ 0)
    (file : (dinode sb d i).type ≠ tDev) : Filled d (dinode sb d i) :=
      filled_of_whole (wf.whole i bound live file)

/-- Inode content is an array of bytes. For every well-formed file system, every inode in it
    that is not a device and every header `lh` of the open transaction: writei returns -1 and
    changes nothing iff the range is refused. It panics iff the range is accepted and lacks more
    blocks than are free or a log_write of it finds the header full; the number of blocks the
    range touches and lacks bounds what is logged. Otherwise it returns `n`, the content is the
    old one with the range replaced, the content of every other inode is what it was, and the
    file system is well formed again. readi returns -1 iff the offset is beyond the size or the
    range wraps, and otherwise the bytes of the content in the range; it changes and logs
    nothing. -/
theorem content_is_byte_array (sb : Superblock) (d : Disk) (wf : WellFormed sb d) (inum : Nat)
    (bound : inum < sb.ninodes) (live : (dinode sb d inum).type ≠ 0)
    (file : (dinode sb d inum).type ≠ tDev) (lh : List Nat) (distinct : lh.Nodup)
    (src : Nat → UInt8) (off n : UInt32) :
    (Refused (dinode sb d inum) off n →
      writeiLogged sb lh inum d (dinode sb d inum) src off n =
        some (lh, none, d, dinode sb d inum)) ∧
    (¬ Refused (dinode sb d inum) off n →
      free sb d < lacks d (dinode sb d inum) off.toNat n.toNat →
      writeiLogged sb lh inum d (dinode sb d inum) src off n = none) ∧
    (¬ LogRoom sb.nlog lh (FsLog.writei sb inum d (dinode sb d inum) src off n) →
      writeiLogged sb lh inum d (dinode sb d inum) src off n = none) ∧
    (lh.length + (touched off.toNat n.toNat).card +
        lacks d (dinode sb d inum) off.toNat n.toNat + 2 < capacity sb.nlog →
      LogRoom sb.nlog lh (FsLog.writei sb inum d (dinode sb d inum) src off n)) ∧
    (¬ Refused (dinode sb d inum) off n →
      lacks d (dinode sb d inum) off.toNat n.toNat ≤ free sb d →
      LogRoom sb.nlog lh (FsLog.writei sb inum d (dinode sb d inum) src off n) →
      ∃ lh' e, writeiLogged sb lh inum d (dinode sb d inum) src off n =
          some (lh', some n, e, dinode sb e inum) ∧
        (∀ b, b ∈ lh' ↔ b ∈ lh ∨ b ∈ FsLog.writei sb inum d (dinode sb d inum) src off n) ∧
        content e (dinode sb e inum) =
          splice (content d (dinode sb d inum)) off.toNat ((List.range n.toNat).map src) ∧
        (∀ j, j ≠ inum → j < sb.ninodes → dinode sb e j = dinode sb d j ∧
          ((dinode sb d j).type ≠ 0 → content e (dinode sb e j) = content d (dinode sb d j))) ∧
        WellFormed sb e) ∧
    FsInode.readi sb d (dinode sb d inum) off n =
      (if (dinode sb d inum).size.toNat < off.toNat ∨ 2 ^ 32 ≤ off.toNat + n.toNat then
        some (none, d, dinode sb d inum)
      else some (some (((content d (dinode sb d inum)).drop off.toNat).take n.toNat), d,
        dinode sb d inum)) ∧
    FsLog.readi sb d (dinode sb d inum) off n = [] := by
  refine ⟨fun refused => ?_, fun ok few => ?_, fun crowded => ?_, fun few => ?_,
    fun ok enough room => ?_, readi_array wf bound live file,
    readi_quiet (wf.whole inum bound live file) off n⟩
  · have nothing : FsLog.writei sb inum d (dinode sb d inum) src off n = [] :=
      List.eq_nil_iff_forall_not_mem.mpr fun c mem => (writei_mem mem).1 refused
    rw [writeiLogged, writei_refused _ src refused, nothing]
    rfl
  · rw [writeiLogged, writei_full wf bound live ok few]
    rfl
  · rw [writeiLogged, logWrites_full distinct crowded]
    cases FsInode.writei sb inum d (dinode sb d inum) src off n <;> rfl
  · obtain ⟨S,card,all⟩ :=
      writei_within wf.layout bound (own_here wf) live src off n
    exact logRoom_of_card (S := S) (by omega) fun c mem => all c (List.mem_of_mem_dropLast mem)
  · obtain ⟨e,done,array⟩ := writei_array wf bound live file src ok enough
    obtain ⟨lh',logs,-,header⟩ := logWrites_room distinct room
    refine ⟨lh', e, ?_, header, array⟩
    rw [writeiLogged, done, logs]
    rfl

theorem content_is_byte_array_three :
    ∃ lh e, writeiLogged (tiny 4) [] 1 (emptyFile 4) (dinode (tiny 4) (emptyFile 4) 1)
        (fun i => UInt8.ofNat (7 + i)) 0 3 = some (lh, some 3, e, dinode (tiny 4) e 1) ∧
      content e (dinode (tiny 4) e 1) = [7, 8, 9] ∧ WellFormed (tiny 4) e := by
  have wf : WellFormed (tiny 4) (emptyFile 4) := wellFormed_emptyFile (by decide)
  have here := dinode_emptyFile 4
  have array := content_is_byte_array (tiny 4) (emptyFile 4) wf 1 (by decide)
    (by rw [here]; decide) (by rw [here]; decide) [] List.nodup_nil
    (fun i => UInt8.ofNat (7 + i)) 0 3
  have accepted : ¬ Refused (dinode (tiny 4) (emptyFile 4) 1) 0 3 := by
    rw [here]
    simp only [Refused, fresh]
    decide
  have blocks : lacks (emptyFile 4) (dinode (tiny 4) (emptyFile 4) 1) 0 3 = 1 := by
    decide +kernel
  have room := array.2.2.2.1 (by
    rw [show (0 : UInt32).toNat = 0 from rfl, show (3 : UInt32).toNat = 3 from rfl, blocks]
    decide)
  obtain ⟨lh,e,done,-,spliced,-,wf'⟩ := array.2.2.2.2.1 accepted
    (by rw [show (0 : UInt32).toNat = 0 from rfl, show (3 : UInt32).toNat = 3 from rfl, blocks]
        decide +kernel) room
  refine ⟨lh, e, done, ?_, wf'⟩
  rw [spliced, here]
  rfl

/-- On a full disk a write that is in range panics, with an empty log as well. -/
theorem writei_panics_when_full : WellFormed (tiny 0) (emptyFile 0) ∧
    dinode (tiny 0) (emptyFile 0) 1 = fresh tFile ∧ ¬ Refused (fresh tFile) 0 1 ∧
    writeiLogged (tiny 0) [] 1 (emptyFile 0) (fresh tFile) (fun _ => 7) 0 1 = none := by
  refine ⟨wellFormed_emptyFile (by decide), dinode_emptyFile 0, ?_, ?_⟩
  · simp only [Refused, fresh]
    decide
  · rw [← Option.isNone_iff_eq_none]
    decide +kernel

/-- The writei that filewrite makes between begin_op and end_op. The first part is about the
    list of logged blocks and so about a call that panics in balloc as well. -/
theorem chunk_fits_transaction (k : Mount) (s : Fs) (wf : WellFormed k.sb s.disk)
    (cache : Cache k s) (src : Nat → UInt8)
    (off n : UInt32) (short : n.toNat ≤ (maxOpBlocks - 1 - 1 - 2) / 2 * 512) :
    (∀ inum < k.sb.ninodes, (dinode k.sb s.disk inum).type ≠ 0 →
      (dinode k.sb s.disk inum).type ≠ tDev →
      (FsLog.writei k.sb inum s.disk (dinode k.sb s.disk inum) src off n).toFinset.card ≤
        maxOpBlocks) ∧
    ∀ ip r t, (do beginOp; ilock k ip; FsIcache.writei k ip src off n) s = .ok (r, t) →
      t.log.toFinset.card ≤ maxOpBlocks := by
  have list : ∀ inum < k.sb.ninodes, (dinode k.sb s.disk inum).type ≠ 0 →
    (dinode k.sb s.disk inum).type ≠ tDev →
      (FsLog.writei k.sb inum s.disk (dinode k.sb s.disk inum) src off n).toFinset.card ≤
        maxOpBlocks := by
    intro inum bound live file
    have own :
        Own k.sb s.disk (Function.update (dinode k.sb s.disk) inum (dinode k.sb s.disk inum)) := by
      rw [Function.update_eq_self]
      exact wf.own
    exact writei_blocks wf.layout bound own live (filled_of_wellFormed wf bound live file) src short
  refine ⟨list, fun ip r t run => ?_⟩
  obtain ⟨_,s1,opened,run⟩ := bind_ok run
  cases opened
  obtain ⟨_,s2,locked,run⟩ := bind_ok run
  obtain ⟨held,-,live,rfl⟩ := ilock_ok cache.begun locked
  have bound := cache.named ip held
  simp only [FsIcache.writei, modify_self, lockedCopy] at run
  split at run
  · have quiet : t.log = [] := by
      split at run
      · cases run
        rfl
      · split at run
        all_goals cases run; rfl
    rw [quiet]
    exact Nat.zero_le _
  · next file =>
    split at run
    · cases run
    · cases run
      exact list _ bound live file

theorem chunk_fits_transaction_empty :
    (FsLog.writei (tiny 4) 1 (emptyFile 4) (dinode (tiny 4) (emptyFile 4) 1)
      (fun _ => 7) 0 1536).toFinset.card ≤ maxOpBlocks := by
  have wf : WellFormed (tiny 4) (emptyFile 4) := wellFormed_emptyFile (by decide)
  have live : (dinode (tiny 4) (emptyFile 4) 1).type = tFile := by
    rw [dinode_emptyFile]
    rfl
  refine (chunk_fits_transaction ⟨tiny 4, fun _ => ⟨none, none⟩⟩ (single (emptyFile 4) slot0 1) wf
    (cache_single (by decide)) (fun _ => 7) 0 1536 (by decide)).1 1 (by decide) ?_ ?_
  all_goals
    show (dinode (tiny 4) (emptyFile 4) 1).type ≠ _
    rw [live]
    decide

end FsLog
