import Xv6.Fs.ChangeSize
import Xv6.Log.Admission

/- The blocks that change_file_size passes to log_write between begin_op and end_op. Growing a
   file logs every block from the old end to the new one, the blocks of the free map for those
   that are taken, the indirect block if it gets a new entry, and the inode. -/
namespace FsCalls
open Bytes FsDisk FsInode FsOwner FsContent FsIcache FsDirectory FsCache FsLog FsNames FsPaths
  Panics SlotMap RunLaws LogKernel LogAdmission Param

variable {k : Mount} {s t u : Fs} {ip cwd : Slot} {i L : Nat} {path : List UInt8}

theorem growFrom_blocksTaken {fuel : Nat} (sound : Sound k s) (locked : (s.icache ip).lock = true)
    (file : (s.icache ip).din.type ≠ tDev)
    (fits : L ≤ maxfile * bsize) (enough : L - i ≤ bsize * fuel)
    (at_ : (s.icache ip).din.size.toNat = i) {a : Unit}
    (run : growFrom k ip L fuel i s = .ok (a, t)) :
    ∃ l m, BlocksTaken k.sb s.disk (s.icache ip).din (touched i (L - i)) l m t.disk
      (t.icache ip).din ∧
      ∀ c, c ∈ t.log ↔ c ∈ s.log ∨ c ∈ m ∨ (c = iblock k.sb (s.icache ip).inum ∧ i < L) := by
  have max : maxfile * bsize = 71680 := rfl
  have stays : L ≤ i → t = s → ∃ l m,
    BlocksTaken k.sb s.disk (s.icache ip).din (touched i (L - i)) l m t.disk (t.icache ip).din ∧
      ∀ c, c ∈ t.log ↔ c ∈ s.log ∨ c ∈ m ∨ (c = iblock k.sb (s.icache ip).inum ∧ i < L) := by
    rintro reached rfl
    rw [Nat.sub_eq_zero_of_le reached]
    exact ⟨[], [], blocksTaken_refl, fun c => by simp [Nat.not_lt.mpr reached]⟩
  induction fuel generalizing s i with
  | zero =>
    cases run
    exact stays (by omega) rfl
  | succ fuel ih =>
    by_cases more : i < L
    · obtain ⟨r,u,first,later⟩ := growFrom_pass more run
      have offset := ofNat_small (i := i) (by omega)
      have size := portion_toNat (L := L) (i := i)
      have block : bsize = 512 := rfl
      rcases writei_edits sound locked file first with ⟨refused,-,-⟩ | ⟨ok,-,w,edited,wrote⟩
      · simp only [Refused, offset, size] at refused
        omega
      obtain ⟨held,valid⟩ := sound.cache.locked ip locked
      obtain ⟨copy,live⟩ := sound.cache.copies ip held valid
      have own : Own k.sb s.disk (Function.update (dinode k.sb s.disk) (s.icache ip).inum
          (s.icache ip).din) := by
        rw [copy, Function.update_eq_self]
        exact sound.own
      have mine : (u.icache ip).din = w := by rw [edited.mine]
      have name : (u.icache ip).inum = (s.icache ip).inum := by rw [edited.mine]
      -- what the first chunk takes
      obtain ⟨l,m,took,logged⟩ : ∃ l m,
        BlocksTaken k.sb s.disk (s.icache ip).din (touched i (min (L - i) bsize)) l m u.disk w ∧
          ∀ c, c ∈ u.log ↔ c ∈ s.log ∨ c ∈ m ∨ c = iblock k.sb (s.icache ip).inum := by
        simp only [FsIcache.writei, if_neg file] at first
        split at first
        · cases first
        next r' e w' done =>
          cases first
          obtain rfl : w' = w := by
            rw [← mine]
            exact congrArg Inode.din (Function.update_self ip
              { s.icache ip with din := w' } s.icache).symm
          obtain ⟨l,m,took,list⟩ :=
            writei_blocksTaken sound.layout (sound.cache.named ip held) own live ok done
          rw [offset, size] at took list
          refine ⟨l, m, took, fun c => ?_⟩
          have grows : 0 < min (L - i) bsize ∧
              (s.icache ip).din.size.toNat < i + min (L - i) bsize := by omega
          simp only [Fs.put, List.mem_append, list, grows, and_self, and_true]
      by_cases last : L ≤ i + bsize
      · rw [growFrom_done (by omega)] at later
        cases later
        rw [Nat.min_eq_left (by omega)] at took
        rw [mine]
        exact ⟨l, m, took, fun c => by simp only [logged, more, and_true]⟩
      · have full : min (L - i) bsize = bsize := Nat.min_eq_right (by omega)
        have next := sound.wrote locked file ok edited wrote
        have locked1 : (u.icache ip).lock = true := by
          rw [edited.mine]
          exact locked
        have file1 : (u.icache ip).din.type ≠ tDev := by
          rw [mine, wrote.fields]
          exact file
        have at1 : (u.icache ip).din.size.toNat = i + bsize := by
          rw [mine, wrote.size, offset, size, at_, full]
          split <;> omega
        obtain ⟨l',m',took',logged'⟩ :=
          ih next locked1 file1 (by rw [Nat.mul_succ] at enough; omega) at1 later (by omega)
        rw [full] at took
        rw [mine] at took'
        have sum : L - i = bsize + (L - (i + bsize)) := by omega
        refine ⟨l ++ l', m ++ m', ?_, fun c => ?_⟩
        · rw [sum, touched_append]
          exact took.trans took'
        · rw [logged', logged, name, List.mem_append]
          simp only [more, and_true, show i + bsize < L by omega]
          tauto
    · rw [growFrom_done (by omega)] at run
      cases run
      exact stays (by omega) rfl

section Counting
variable {sb : Superblock} {d e : Disk} {v w : Dinode} {T : Nat → Dinode} {B : Finset Nat}
  {l m : List Nat}

theorem iblock_small (layout : Layout sb) (bound : i < sb.ninodes) :
    iblock sb i < sb.bmapstart := by
  have below : i / ipb ≤ sb.ninodes / ipb := Nat.div_le_div_right (Nat.le_of_lt bound)
  rw [layout.bmapstart, iblock]
  omega

theorem fileBlock_once (bound : i < sb.ninodes) (own : Own sb d (Function.update T i v))
    (live : v.type ≠ 0) {bn bn' c : Nat}
    (first : fileBlock d v bn = some c) (second : fileBlock d v bn' = some c) : bn = bn' := by
  obtain ⟨p,place,at_⟩ := Option.bind_eq_some_iff.mp first
  obtain ⟨q,place',at'⟩ := Option.bind_eq_some_iff.mp second
  have same :=
    own.once (i, p) (i, q) c ((held_self bound live).trans at_) ((held_self bound live).trans at')
  cases same
  exact placeOf_injective place place'

theorem fileBlock_ne_indirect (bound : i < sb.ninodes) (own : Own sb d (Function.update T i v))
    (live : v.type ≠ 0) {bn : Nat}
    (set : v.addrs indirect ≠ 0) : fileBlock d v bn ≠ some (v.addrs indirect).toNat := by
  intro block
  obtain ⟨p,place,at_⟩ := Option.bind_eq_some_iff.mp block
  have same := own.once (i, p) (i, .addr indirect) _ ((held_self bound live).trans at_)
    ((held_self bound live).trans (nonzero_of_ne set))
  cases same
  exact placeOf_ne_indirect bn place

def writeCost (sb : Superblock) (d : Disk) (v : Dinode) (B : Finset Nat) (l : List Nat) : Nat :=
  B.card + (l.map (bblock sb)).toFinset.card + if ∃ bn ∈ B, ndirect ≤ bn ∧
    fileBlock d v bn = none then 1 else 0

/-- The blocks of the file, of the free map and the indirect block are all different, and none is
    the inode's. -/
theorem logged_card (layout : Layout sb) (bound : i < sb.ninodes)
    (own : Own sb e (Function.update T i w)) (live : w.type ≠ 0)
    (took : BlocksTaken sb d v B l m e w) :
    m.toFinset.card = writeCost sb d v B l ∧ iblock sb i ∉ m := by
  classical
  have has : ∀ bn ∈ B, ∃ c, fileBlock e w bn = some c := by
    intro bn mem
    refine Option.ne_none_iff_exists'.mp fun none_ => ?_
    exact ((took.missing bn).mp none_).2 mem
  have data : ∀ {bn c}, fileBlock e w bn = some c → nmeta sb ≤ c := by
    intro bn c block
    obtain ⟨p,-,at_⟩ := Option.bind_eq_some_iff.mp block
    exact (own_indirect bound own live at_).1
  have taken : ∀ b ∈ l, b < sb.size := by
    intro b mem
    have free : b ∈ frees sb d := by
      rw [took.frees]
      exact List.mem_append_left _ mem
    exact List.mem_range.mp (List.mem_filter.mp free).1
  have level : (∃ bn ∈ B, ndirect ≤ bn ∧ fileBlock d v bn = none) → w.addrs indirect ≠ 0 := by
    rintro ⟨bn,mem,far,-⟩ zero
    exact absurd ((took.level.mp zero).2 bn mem) (by omega)
  let blocks : Finset Nat := B.image fun bn => (fileBlock e w bn).getD 0
  let maps : Finset Nat := (l.map (bblock sb)).toFinset
  let tables : Finset Nat := if ∃ bn ∈ B, ndirect ≤ bn ∧ fileBlock d v bn = none then
    {(w.addrs indirect).toNat} else ∅
  have all : m.toFinset = blocks ∪ maps ∪ tables := by
    ext c
    simp only [List.mem_toFinset, took.logged, Finset.mem_union, or_assoc]
    refine or_congr ?_ (or_congr ?_ ?_)
    · simp only [blocks, Finset.mem_image]
      constructor
      · rintro ⟨bn,mem,block⟩
        exact ⟨bn, mem, by rw [block]; rfl⟩
      · rintro ⟨bn,mem,rfl⟩
        obtain ⟨c,block⟩ := has bn mem
        exact ⟨bn, mem, by rw [block]; rfl⟩
    · simp only [maps, List.mem_toFinset, List.mem_map, eq_comm]
    · simp only [tables]
      split
      · next some_ => simp [some_]
      · next none_ => simp [none_]
  have dataBlocks : ∀ c ∈ blocks, nmeta sb ≤ c := by
    intro c mem
    obtain ⟨bn,inside,rfl⟩ := Finset.mem_image.mp mem
    obtain ⟨c,block⟩ := has bn inside
    rw [block]
    exact data block
  have mapBlocks : ∀ c ∈ maps, sb.bmapstart ≤ c ∧ c < nmeta sb := by
    intro c mem
    obtain ⟨b,inside,rfl⟩ := List.mem_map.mp (List.mem_toFinset.mp mem)
    exact bblock_small layout (taken b inside)
  have tableBlocks : ∀ c ∈ tables, nmeta sb ≤ c ∧ c ∉ blocks := by
    intro c mem
    simp only [tables] at mem
    split at mem
    · next some_ =>
      have set := level some_
      obtain rfl := Finset.mem_singleton.mp mem
      refine ⟨(own_indirect bound own live (p := .addr indirect) (nonzero_of_ne set)).1,
        fun also => ?_⟩
      obtain ⟨bn,inside,same⟩ := Finset.mem_image.mp also
      obtain ⟨c,block⟩ := has bn inside
      rw [block] at same
      exact fileBlock_ne_indirect bound own live set (by rw [block, ← same]; rfl)
    · simp at mem
  have once : blocks.card = B.card := by
    refine Finset.card_image_of_injOn fun bn mem bn' mem' same => ?_
    obtain ⟨c,block⟩ := has bn mem
    obtain ⟨c',block'⟩ := has bn' mem'
    simp only [block, block', Option.getD_some] at same
    exact fileBlock_once bound own live block (same ▸ block')
  refine ⟨?_, fun mem => ?_⟩
  · have first : Disjoint blocks maps := Finset.disjoint_left.mpr fun c one two => by
      have := dataBlocks c one
      have := mapBlocks c two
      omega
    have second : Disjoint (blocks ∪ maps) tables := Finset.disjoint_left.mpr fun c one two => by
      obtain ⟨high,other⟩ := tableBlocks c two
      rcases Finset.mem_union.mp one with block | map
      · exact other block
      · have := mapBlocks c map
        omega
    rw [all, Finset.card_union_of_disjoint second, Finset.card_union_of_disjoint first, once,
      writeCost]
    congr 1
    simp only [tables]
    split <;> rfl
  · have low := iblock_small layout bound
    have above : sb.bmapstart ≤ nmeta sb := by
      rw [layout.nmeta, Nat.add_assoc]
      exact Nat.le_add_right ..
    rw [← List.mem_toFinset, all, Finset.mem_union, Finset.mem_union] at mem
    rcases mem with (block | map) | table
    · have := dataBlocks _ block
      omega
    · have := mapBlocks _ map
      omega
    · have := (tableBlocks _ table).1
      omega

end Counting

/-- The number of blocks that change_file_size logs for an inode `v`. -/
def logCost (sb : Superblock) (d : Disk) (v : Dinode) (L : Nat) : Nat :=
  if v.size.toNat < L then
    let B := touched v.size.toNat (L - v.size.toNat)
    writeCost sb d v B ((frees sb d).take (short d v B)) + 1
  else if L < v.size.toNat then 1 else 0

theorem resize_logged (sound : Sound k s) (locked : (s.icache ip).lock = true)
    (file : (s.icache ip).din.type ≠ tDev)
    (fits : L ≤ maxfile * bsize) (clean : s.log = []) {a : Unit}
    (run : resize k ip L s = .ok (a, t)) :
    t.log.toFinset.card = logCost k.sb s.disk (s.icache ip).din L := by
  have max : maxfile * bsize = 71680 := rfl
  obtain ⟨held,valid⟩ := sound.cache.locked ip locked
  have bound := sound.cache.named ip held
  unfold logCost
  rcases resize_cases run with ⟨grows,pages,u,fuel,enough,loop,rfl⟩ | ⟨shrinks,rfl⟩ | ⟨same,rfl⟩
  · obtain ⟨l,m,took,logged⟩ :=
      growFrom_blocksTaken (sound_pages sound pages) locked file fits enough rfl loop
    obtain ⟨w,edited,sound₂,-⟩ :=
      growFrom_ok (sound_pages sound pages) locked file (by omega) enough rfl loop
    have name : (u.icache ip).inum = (s.icache ip).inum := (edited.names ip).1
    obtain ⟨held₂,valid₂⟩ := sound₂.cache.locked ip ((edited.names ip).2.2.trans locked)
    obtain ⟨copy,live⟩ := sound₂.cache.copies ip held₂ valid₂
    have own : Own k.sb u.disk (Function.update (dinode k.sb u.disk) (s.icache ip).inum
        (u.icache ip).din) := by
      rw [copy, ← name, Function.update_eq_self]
      exact sound₂.own
    obtain ⟨card,apart⟩ := logged_card sound.layout bound own live took
    have first : l = (frees k.sb s.disk).take
        (short s.disk (s.icache ip).din
          (touched (s.icache ip).din.size.toNat (L - (s.icache ip).din.size.toNat))) := by
      rw [← took.count]
      exact (List.take_left' rfl).symm.trans (congrArg _ took.frees.symm)
    have all : (sized k u ip L).log.toFinset =
        insert (iblock k.sb (s.icache ip).inum) m.toFinset := by
      ext c
      simp only [sized, Fs.put, List.mem_toFinset, List.mem_append, logged, clean, name,
        Finset.mem_insert, List.mem_singleton, List.not_mem_nil,
        false_or, grows, and_true]
      tauto
    rw [if_pos grows, all, Finset.card_insert_of_notMem
      (fun mem => apart (List.mem_toFinset.mp mem)), card, first]
  · rw [if_neg (by omega), if_pos shrinks]
    simp [sized, Fs.put, clean]
  · rw [if_neg (by omega), if_neg (by omega), clean]
    rfl

def alone (l : List Nat) : List (Event 1) :=
  .beginOp 0 :: l.flatMap fun b => [.logWrite 0 b, .logAppend 0]

theorem update_only (c d : Pc) : Function.update (fun _ : Fin 1 => c) 0 d = fun _ => d := by
  funext p
  rw [Subsingleton.elim p 0, Function.update_self]

theorem logs_alone {block l block' : List Nat} (books : Books 1)
    (logs : logWrites mkfsLog.size block l = some block') :
    ∃ books', exec (step mkfsLog) ⟨⟨block, 1, false, fun _ => .running, none⟩, books⟩
      (l.flatMap fun b => [.logWrite 0 b, .logAppend 0]) =
        some ⟨⟨block', 1, false, fun _ => .running, none⟩, books'⟩ := by
  induction l generalizing block books with
  | nil =>
    cases logs
    exact ⟨books, rfl⟩
  | cons b l ih =>
    rw [logWrites, List.foldlM_cons] at logs
    obtain ⟨next,first,rest⟩ := Option.bind_eq_some_iff.mp logs
    rw [logWrite_eq] at first
    have room : block.length < 29 := (Option.ite_none_right_eq_some.mp first).1
    rw [if_pos (show block.length < capacity mkfsLog.size from room)] at first
    have size : (mkfsLog.size : Int) - 1 = 29 := rfl
    have small : logSize = 30 := rfl
    have checked : LogKernel.logWrite mkfsLog.size ⟨block, 1, false, fun _ => .running, none⟩
        (0 : Fin 1) b = ⟨block, 1, false, fun _ => .logWrite b, none⟩ := by
      rw [LogKernel.logWrite, if_neg (by dsimp only; omega), if_neg (Int.lt_irrefl 1)]
      rw [Kernel.setPc, update_only]
    have appended : logAppend ⟨block, 1, false, fun _ => .logWrite b, none⟩ (0 : Fin 1) b =
        ⟨next, 1, false, fun _ => .running, none⟩ := by
      by_cases known : b ∈ block
      · rw [if_pos known, Option.some.injEq] at first
        rw [logAppend, if_pos known, Kernel.setPc, update_only, first]
      · rw [if_neg known, Option.some.injEq] at first
        rw [logAppend, if_neg known, if_pos (by dsimp only; omega), Kernel.setPc,
          update_only, first]
    obtain ⟨books',later⟩ := ih (record mkfsLog ⟨block, 1, false, fun _ => .logWrite b, none⟩ books
      (.logAppend 0)) rest
    refine ⟨books', ?_⟩
    rw [List.flatMap_cons]
    simp only [List.cons_append, List.nil_append, exec, step, kernelStep, ne_eq, not_true_eq_false,
      if_false, if_true, checked, appended, Option.map_some, Option.bind_some, record]
    exact later

/-- change_file_size of a regular file logs exactly `logCost` blocks, so it keeps to MAXOPBLOCKS
    iff that does, and then no log_write of it panics when there is no other process. -/
theorem changeFileSize_fits_iff (k : Mount) (s : Fs) (cwd : Slot) (path : List UInt8) (i L : Nat)
    (t : Fs) (tree : Tree k s)
    (current : 0 < (s.icache cwd).ref) (string : 0 ∉ path)
    (there : walk k s (startOf s cwd path) (components path) = some i)
    (regular : (dinode k.sb s.disk i).type = tFile) (fits : L ≤ maxfile * bsize)
    (run : changeFileSize k cwd path L s = .ok (0, t)) :
    (t.log.toFinset.card ≤ maxOpBlocks ↔
      logCost k.sb s.disk (dinode k.sb s.disk i) L ≤ maxOpBlocks) ∧
    (logCost k.sb s.disk (dinode k.sb s.disk i) L ≤ maxOpBlocks →
      ∃ u, exec (step mkfsLog) start (alone t.log) = some u ∧ u.kernel.panicked = none) := by
  have count : t.log.toFinset.card = logCost k.sb s.disk (dinode k.sb s.disk i) L := by
    rcases changeFileSize_cases tree current string run
      with ⟨wrong,-⟩ | ⟨-,x,u,y,v,z,found,opened,held,rfl⟩
    · cases wrong
    obtain rfl : i = (u.icache x).inum := Option.some.inj (there.symm.trans found)
    have disk : v.disk = s.disk := opened.second.disk.trans opened.first.disk
    have tree_v : Tree k v :=
      tree_extraRefs (tree_congr (t := begun u) (tree_extraRefs tree opened.first) rfl rfl)
        opened.second
    have row : dinode k.sb v.disk (v.icache y).inum = dinode k.sb s.disk (u.icache x).inum := by
      rw [opened.again, disk]
    obtain ⟨used,free,live,w,done,rfl⟩ := holding_ok tree_v.cache held
    have mine : (v.modify y (lockedCopy k v y)).icache y = lockedCopy k v y := modify_self
    have din : ((v.modify y (lockedCopy k v y)).icache y).din = dinode k.sb s.disk
        (u.icache x).inum := by rw [mine]; exact row
    have sound : Sound k (v.modify y (lockedCopy k v y)) :=
      sound_of_wellFormed tree_v.wf (tree_v.cache.lock used live)
    have logged := resize_logged sound (by rw [mine]; rfl)
      (by rw [din, regular]; decide) fits opened.second.log done
    rw [din, show (v.modify y (lockedCopy k v y)).disk = s.disk from disk] at logged
    exact logged
  refine ⟨by rw [count], fun few => ?_⟩
  rw [← count] at few
  have room : LogRoom mkfsLog.size [] t.log := by
    have most : maxOpBlocks = 10 := rfl
    have cap : capacity mkfsLog.size = 29 := rfl
    refine logRoom_of_card (S := t.log.toFinset) (by rw [cap, List.length_nil]; omega)
      fun c mem => ?_
    exact List.mem_toFinset.mpr (List.mem_of_mem_dropLast mem)
  obtain ⟨block,header,-⟩ := logWrites_room List.nodup_nil room
  obtain ⟨books,logs⟩ := logs_alone (record mkfsLog start.kernel start.books (.beginOp 0)) header
  have began : step mkfsLog start (.beginOp (0 : Fin 1)) =
      some ⟨⟨[], 1, false, fun _ => .running, none⟩,
        record mkfsLog start.kernel start.books (.beginOp 0)⟩ := by
    rw [← update_only .user .running]
    rfl
  refine ⟨⟨⟨block, 1, false, fun _ => .running, none⟩, books⟩, ?_, rfl⟩
  rw [alone, exec, began, Option.bind_some]
  exact logs

theorem changeFileSize_fits_iff_three : logCost (leaf 4) (sampleDisk 4) (made tFile) 3 = 3 ∧
    ∃ t, changeFileSize (sampleMount 4) slot0 [47, 102] 3 (sample 4) = .ok (0, t) ∧
      t.log.toFinset.card ≤ maxOpBlocks := by
  have room : lacks (sampleDir 4) (made tDir) 0 16 ≤ free (leaf 4) (sampleDir 4) := by
    decide +kernel
  obtain ⟨tree,there⟩ := sample_ready (by decide) room
  have file : dinode (sampleMount 4).sb (sample 4).disk 2 = made tFile :=
    (sample_disk (by decide) room).2.2.1
  have cost : logCost (leaf 4) (sampleDisk 4) (made tFile) 3 = 3 := by decide +kernel
  refine ⟨cost, ?_⟩
  have returns : (changeFileSize (sampleMount 4) slot0 [47, 102] 3 (sample 4)).toOption.map
      Prod.fst = some 0 := by decide +kernel
  cases run : changeFileSize (sampleMount 4) slot0 [47, 102] 3 (sample 4) with
  | error e =>
    rw [run] at returns
    cases returns
  | ok q =>
    obtain ⟨r,t⟩ := q
    rw [run] at returns
    obtain rfl : r = 0 := Option.some.inj returns
    have fits := (changeFileSize_fits_iff (sampleMount 4) (sample 4) slot0 [47, 102] 2 3 t tree
      (by decide) (by decide) there (by rw [file]; rfl) (by decide) run).1
    rw [file, show logCost (sampleMount 4).sb (sample 4).disk (made tFile) 3 = 3 from cost] at fits
    exact ⟨t, rfl, fits.mpr (by decide)⟩

/-- Nine blocks of an empty file, the free map and the inode are eleven blocks in one
    transaction. -/
theorem nine_blocks_exceed_the_transaction :
    Tree (sampleMount 20) (sample 20) ∧ 0 < ((sample 20).icache slot0).ref ∧
    walk (sampleMount 20) (sample 20) (startOf (sample 20) slot0 [47, 102]) (components [47, 102]) =
      some 2 ∧
    (dinode (leaf 20) (sampleDisk 20) 2).type = tFile ∧ 9 * bsize ≤ maxfile * bsize ∧
    ((changeFileSize (sampleMount 20) slot0 [47, 102] (9 * bsize : Nat) (sample 20)).toOption.map
      fun q => (q.1, q.2.log.toFinset.card)) = some (0, 11) ∧
    maxOpBlocks < 11 := by
  have room : lacks (sampleDir 20) (made tDir) 0 16 ≤ free (leaf 20) (sampleDir 20) := by
    decide +kernel
  obtain ⟨tree,there⟩ := sample_ready (by decide) room
  have file : dinode (leaf 20) (sampleDisk 20) 2 = made tFile :=
    (sample_disk (by decide) room).2.2.1
  exact ⟨tree, by decide, there, by rw [file]; rfl, by decide, by decide +kernel, by decide⟩

end FsCalls
