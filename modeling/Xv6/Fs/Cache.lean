import Xv6.Fs.Calls
import Xv6.Fs.Files

/- The inode cache beside the disk. A slot with a reference names one inode and no other slot
   does; a valid slot has the fields of the inode on the disk. Under that invariant each function
   on a slot is one equation. -/
namespace FsCache
open Bytes FsDisk FsInode FsOwner FsContent FsIcache FsDirectory Panics

structure Cache (k : Mount) (s : Fs) : Prop where
  nonneg : ∀ x, 0 ≤ (s.icache x).ref
  once : ∀ x y, 0 < (s.icache x).ref → 0 < (s.icache y).ref →
    (s.icache x).inum = (s.icache y).inum → x = y
  named : ∀ x, 0 < (s.icache x).ref → (s.icache x).inum < k.sb.ninodes
  copies : ∀ x, 0 < (s.icache x).ref → (s.icache x).valid = true →
    (s.icache x).din = dinode k.sb s.disk (s.icache x).inum ∧ (s.icache x).din.type ≠ 0
  locked : ∀ x, (s.icache x).lock = true → 0 < (s.icache x).ref ∧ (s.icache x).valid = true

variable {k : Mount} {s t : Fs} {x y ip : Slot} {c : Inode}

@[simp] theorem modify_self : (s.modify x c).icache x = c := Function.update_self ..

theorem modify_other (other : y ≠ x) : (s.modify x c).icache y = s.icache y :=
  Function.update_of_ne other ..

@[simp] theorem modify_disk : (s.modify x c).disk = s.disk := rfl

theorem Cache.modify (cache : Cache k s) (nonneg : 0 ≤ c.ref)
    (once : 0 < c.ref → ∀ y, y ≠ x → 0 < (s.icache y).ref → (s.icache y).inum ≠ c.inum)
    (named : 0 < c.ref → c.inum < k.sb.ninodes)
    (copies : 0 < c.ref → c.valid = true → c.din = dinode k.sb s.disk c.inum ∧ c.din.type ≠ 0)
    (locked : c.lock = true → 0 < c.ref ∧ c.valid = true) : Cache k (s.modify x c) := by
  refine ⟨fun y => ?_, fun y z held held' same => ?_, fun y held => ?_, fun y held valid => ?_,
    fun y lock => ?_⟩
  · by_cases mine : y = x
    · rw [mine, modify_self]
      exact nonneg
    · rw [modify_other mine]
      exact cache.nonneg y
  · by_cases mine : y = x <;> by_cases mine' : z = x
    · rw [mine, mine']
    · rw [mine, modify_self] at held same
      rw [modify_other mine'] at held' same
      exact absurd same.symm (once held z mine' held')
    · rw [mine', modify_self] at held' same
      rw [modify_other mine] at held same
      exact absurd same (once held' y mine held)
    · rw [modify_other mine] at held same
      rw [modify_other mine'] at held' same
      exact cache.once y z held held' same
  · by_cases mine : y = x
    · rw [mine, modify_self] at held ⊢
      exact named held
    · rw [modify_other mine] at held ⊢
      exact cache.named y held
  · by_cases mine : y = x
    · rw [mine, modify_self] at held valid ⊢
      exact copies held valid
    · rw [modify_other mine] at held valid ⊢
      exact cache.copies y held valid
  · by_cases mine : y = x
    · rw [mine, modify_self] at lock ⊢
      exact locked lock
    · rw [modify_other mine] at lock ⊢
      exact cache.locked y lock

def begun (s : Fs) : Fs := { s with op := true, log := [] }

theorem beginOp_eq : beginOp s = .ok ((), begun s) := rfl

theorem Cache.begun (cache : Cache k s) : Cache k (begun s) :=
  ⟨cache.nonneg, cache.once, cache.named, cache.copies, cache.locked⟩

theorem Cache.ended (cache : Cache k s) : Cache k { s with op := false } :=
  ⟨cache.nonneg, cache.once, cache.named, cache.copies, cache.locked⟩

/-- iget: the slot and what has become of its record. -/
structure IgetEffect (s : Fs) (inum : Nat) (x : Slot) (t : Fs) : Prop where
  after : t = s.modify x { s.icache x with
    inum := inum, ref := (s.icache x).ref + 1, valid :=
      decide (0 < (s.icache x).ref) && (s.icache x).valid }
  held : 0 < (s.icache x).ref → (s.icache x).inum = inum
  empty : ¬ 0 < (s.icache x).ref → (s.icache x).ref = 0 ∧ ∀ y, 0 < (s.icache y).ref →
    (s.icache y).inum ≠ inum

theorem iget_effect {inum : Nat} (run : iget inum s = .ok (x, t)) : IgetEffect s inum x t := by
  unfold iget at run
  split at run
  · next found =>
    have here := List.find?_some found
    cases run
    simp only [decide_eq_true_eq] at here
    refine ⟨?_, fun _ => here.2, fun empty => absurd here.1 empty⟩
    congr 1
    simp [here.1, here.2]
  · next none_ =>
    split at run
    · next found =>
      have unused := List.find?_some found
      cases run
      simp only [decide_eq_true_eq] at unused
      rw [List.find?_eq_none] at none_
      refine ⟨?_, fun held => by omega, fun _ => ⟨unused, fun y held same => ?_⟩⟩
      · congr 1
        simp [unused]
      · exact none_ y (List.mem_finRange y) (decide_eq_true ⟨held, same⟩)
    · cases run

/-- iget panics only when every slot is in use and none has the inode. -/
theorem iget_total {inum : Nat}
    (room : (∃ y, (s.icache y).ref = 0) ∨ ∃ y, 0 < (s.icache y).ref ∧ (s.icache y).inum = inum) :
    ∃ x t, iget inum s = .ok (x, t) := by
  unfold iget
  split
  · exact ⟨_, _, rfl⟩
  · next none_ =>
    split
    · exact ⟨_, _, rfl⟩
    · next full =>
      rw [List.find?_eq_none] at none_ full
      obtain ⟨y,unused⟩ | ⟨y,held⟩ := room
      · exact absurd (decide_eq_true unused) (full y (List.mem_finRange y))
      · exact absurd (decide_eq_true held) (none_ y (List.mem_finRange y))

theorem IgetEffect.cache {inum : Nat} (got : IgetEffect s inum x t) (cache : Cache k s)
    (bound : inum < k.sb.ninodes) : Cache k t := by
  rw [got.after]
  have nonneg := cache.nonneg x
  refine cache.modify (by dsimp only; omega) (fun _ y other held same => ?_) (fun _ => bound)
    (fun _ valid => ?_) fun lock => ?_
  · by_cases mine : 0 < (s.icache x).ref
    · exact other (cache.once y x held mine (same.trans (got.held mine).symm))
    · exact (got.empty mine).2 y held same
  · simp only [Bool.and_eq_true, decide_eq_true_eq] at valid
    obtain ⟨copy,live⟩ := cache.copies x valid.1 valid.2
    dsimp only
    rw [← got.held valid.1]
    exact ⟨copy, live⟩
  · obtain ⟨held,valid⟩ := cache.locked x lock
    exact ⟨by dsimp only; omega, by simp [held, valid]⟩

def lockedCopy (k : Mount) (s : Fs) (x : Slot) : Inode :=
  { s.icache x with lock := true, valid := true, din := dinode k.sb s.disk (s.icache x).inum }

theorem ilock_ok {a : Unit} (cache : Cache k s) (run : ilock k x s = .ok (a, t)) :
    0 < (s.icache x).ref ∧ (s.icache x).lock = false ∧
      (dinode k.sb s.disk (s.icache x).inum).type ≠ 0 ∧
      t = s.modify x (lockedCopy k s x) := by
  simp only [ilock] at run
  split at run
  · cases run
  next held =>
    have held : 0 < (s.icache x).ref := by omega
    split at run
    · cases run
    next free =>
      have free : (s.icache x).lock = false := by simpa using free
      split at run
      · next valid =>
        obtain ⟨copy,live⟩ := cache.copies x held valid
        cases run
        refine ⟨held, free, copy ▸ live, ?_⟩
        rw [lockedCopy, ← copy, ← valid]
      · split at run
        · cases run
        · next live =>
          cases run
          exact ⟨held, free, live, rfl⟩

theorem ilock_eq (cache : Cache k s) (held : 0 < (s.icache x).ref)
    (free : (s.icache x).lock = false)
    (live : (dinode k.sb s.disk (s.icache x).inum).type ≠ 0) :
    ilock k x s = .ok ((), s.modify x (lockedCopy k s x)) := by
  have one : ¬ (s.icache x).ref < 1 := by omega
  simp only [ilock, if_neg one, free, Bool.false_eq_true, if_false, if_neg live]
  by_cases valid : (s.icache x).valid = true
  · obtain ⟨copy,-⟩ := cache.copies x held valid
    rw [if_pos valid, lockedCopy, ← copy, ← valid]
  · rw [if_neg valid, lockedCopy]

theorem Cache.lock (cache : Cache k s) (held : 0 < (s.icache x).ref)
    (live : (dinode k.sb s.disk (s.icache x).inum).type ≠ 0) :
    Cache k (s.modify x (lockedCopy k s x)) :=
  cache.modify (cache.nonneg x) (fun _ y other held' same => other (cache.once y x held' held same))
    (fun _ => cache.named x held)
    (fun _ _ => ⟨rfl, live⟩) fun _ => ⟨held, rfl⟩

theorem iunlock_ok {a : Unit} (run : iunlock x s = .ok (a, t)) :
    (s.icache x).lock = true ∧ t = s.modify x { s.icache x with lock := false } := by
  simp only [iunlock] at run
  split at run
  · cases run
  · next taken =>
    cases run
    simp only [not_or, Bool.not_eq_false] at taken
    exact ⟨taken.1, rfl⟩

theorem iunlock_eq (taken : (s.icache x).lock = true) (held : 0 < (s.icache x).ref) :
    iunlock x s = .ok ((), s.modify x { s.icache x with lock := false }) := by
  have fine : ¬ ((s.icache x).lock = false ∨ (s.icache x).ref < 1) := by
    rw [taken]
    rintro (eq | low)
    · cases eq
    · omega
  simp only [iunlock, if_neg fine]

theorem Cache.unlock (cache : Cache k s) : Cache k (s.modify x { s.icache x with lock := false }) :=
  cache.modify (cache.nonneg x) (fun held y other held' same =>
    other (cache.once y x held' held same)) (fun held => cache.named x held)
    (fun held valid => cache.copies x held valid) fun lock => by cases lock

def Frees (s : Fs) (x : Slot) : Prop := (s.icache x).valid = true ∧ (s.icache x).din.nlink = 0 ∧
    (s.icache x).ref = 1

theorem iput_eq (free : (s.icache x).lock = false) (stays : ¬ Frees s x) :
    iput k x s = .ok ((), { s.modify x { s.icache x with ref := (s.icache x).ref - 1 }
      with stray := s.stray || !s.op }) := by
  have stays : ¬ ((s.icache x).valid = true ∧ (s.icache x).din.nlink = 0 ∧ (s.icache x).ref = 1) :=
    stays
  simp only [iput, free, Bool.false_eq_true, if_false, if_neg stays]
  rfl

theorem iput_unlocked {a : Unit} (run : iput k x s = .ok (a, t)) : (s.icache x).lock = false := by
  simp only [iput] at run
  split at run
  · cases run
  · next free => simpa using free

theorem Cache.drop (cache : Cache k s) (held : 0 < (s.icache x).ref)
    (free : (s.icache x).lock = false) :
    Cache k (s.modify x { s.icache x with ref := (s.icache x).ref - 1 }) :=
  cache.modify (by dsimp only; omega) (fun _ y other held' same =>
    other (cache.once y x held' held same)) (fun _ => cache.named x held)
    (fun _ valid => cache.copies x held valid) fun lock => by
      dsimp only at lock
      rw [free] at lock
      cases lock

def single (d : Disk) (x : Slot) (inum : Nat) : Fs :=
  ⟨d, Function.update (fun _ => ⟨0, 0, false, false, fresh 0⟩) x ⟨inum, 1, false, false, fresh 0⟩,
    false, [], false, []⟩

theorem cache_single {d : Disk} {inum : Nat} (bound : inum < k.sb.ninodes) :
    Cache k (single d x inum) := by
  have empty : Cache k ⟨d, fun _ => ⟨0, 0, false, false, fresh 0⟩, false, [], false, []⟩ := by
    constructor
    · exact fun _ => Int.le_refl _
    · intro x y held
      cases held
    · intro x held
      cases held
    · intro x held
      cases held
    · intro x lock
      cases lock
  refine empty.modify Int.one_nonneg (fun _ y _ held => ?_) (fun _ => bound) (fun _ valid => ?_)
    fun lock => ?_
  · cases held
  · cases valid
  · cases lock

theorem put_same : s.put ip s.disk (s.icache ip).din [] = s := by
  simp [Fs.put, Fs.modify]

section Reads

variable {sb : Superblock} {d : Disk} {v : Dinode}

theorem bmap_quiet {b bn : Nat} (block : fileBlock d v bn = some b) :
    FsLog.bmap sb d v bn = [] := by
  unfold FsLog.bmap
  obtain ⟨p,place,at_⟩ := Option.bind_eq_some_iff.mp block
  by_cases low : bn < ndirect
  · rw [placeOf_direct low] at place
    cases place
    have some_ : v.addrs (direct bn low) ≠ 0 := fun zero => by
      rw [blockAt, nonzero_eq_none.mpr zero] at at_
      cases at_
    rw [dif_pos low, if_neg some_]
  · rw [dif_neg low]
    split
    · next within =>
      rw [placeOf_entry low within] at place
      cases place
      rw [blockAt] at at_
      obtain ⟨a,level,found⟩ := Option.bind_eq_some_iff.mp at_
      have some_ : v.addrs indirect ≠ 0 := fun zero => by
        rw [nonzero_eq_none.mpr zero] at level
        cases level
      rw [nonzero_of_ne some_] at level
      cases level
      have entry_ : FsDisk.entry d (v.addrs indirect).toNat (bn - ndirect) ≠ 0 := fun zero => by
        simp only [zero, nonzero_eq_none.mpr rfl] at found
        cases found
      simp only [if_neg some_, loadIndirect, if_neg entry_, List.append_nil]
    · rfl

theorem readBlocks_quiet {fuel off n : Nat} (enough : n ≤ fuel)
    (full : ∀ x, off ≤ x → x < off + n → byteAt d v x ≠ none) :
    FsLog.readBlocks sb fuel d v off n = [] := by
  induction fuel generalizing off n with
  | zero => rfl
  | succ fuel ih =>
    rw [FsLog.readBlocks]
    by_cases done : n = 0
    · rw [if_pos done]
    · rw [if_neg done]
      obtain ⟨b,block⟩ := block_of_byte (full off (Nat.le_refl _) (by omega))
      have some_ : 0 < min n (bsize - off % bsize) := by
        have := Nat.mod_lt off (show 0 < bsize by decide)
        omega
      rw [bmap_quiet block, bmap_present block]
      exact ih (by omega) fun x low high => full x (by omega) (by omega)

theorem readi_quiet (whole : Whole d v) (off n : UInt32) : FsLog.readi sb d v off n = [] := by
  unfold FsLog.readi
  split
  · rfl
  next fine =>
    have inside : off.toNat ≤ v.size.toNat := by
      have := fun above => fine (.inl above)
      simpa [UInt32.lt_iff_toNat_lt] using this
    refine readBlocks_quiet (Nat.le_refl _) fun x low high => whole x ?_
    split at high
    · rw [UInt32.toNat_sub_of_le _ _ (UInt32.le_iff_toNat_le.mpr inside)] at high
      omega
    · next fits =>
      have noWrap : ¬ off + n < off := fun wrap => fine (.inr wrap)
      simp only [UInt32.lt_iff_toNat_lt, UInt32.toNat_add, gt_iff_lt] at fits noWrap
      have := n.toNat_lt
      have := off.toNat_lt
      omega

end Reads

theorem readi_eq (whole : Whole s.disk (s.icache ip).din) (file : (s.icache ip).din.type ≠ tDev)
    (off n : UInt32) :
    FsIcache.readi k ip off n s = .ok (if (s.icache ip).din.size < off ∨ off + n < off then none
      else some (((content s.disk (s.icache ip).din).drop off.toNat).take n.toNat), s) := by
  simp only [FsIcache.readi, if_neg file, readi_whole whole, readi_quiet whole]
  by_cases out : (s.icache ip).din.size < off ∨ off + n < off
  · simp only [if_pos out, put_same]
  · simp only [if_neg out, put_same]

end FsCache
