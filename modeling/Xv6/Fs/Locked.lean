import Xv6.Fs.Budget

/- What the holder of a locked inode does to the file system: the inode changes, on the disk and
   in memory alike, and no other. -/
namespace FsCache
open Bytes FsDisk FsInode FsOwner FsContent FsIcache FsDirectory Panics

/-- A state between calls, or inside of one with the locked inodes written back. -/
structure Sound (k : Mount) (s : Fs) : Prop where
  layout : Layout k.sb
  own : Own k.sb s.disk (dinode k.sb s.disk)
  filled : ∀ j < k.sb.ninodes, (dinode k.sb s.disk j).type ≠ 0 →
    (dinode k.sb s.disk j).type ≠ tDev →
    Filled s.disk (dinode k.sb s.disk j)
  cache : Cache k s

variable {k : Mount} {s t u : Fs} {x y ip : Slot} {w : Dinode} {i : Nat}

structure Edited (k : Mount) (s : Fs) (ip : Slot) (w : Dinode) (t : Fs) : Prop where
  slots : t.icache = Function.update s.icache ip { s.icache ip with valid := true, din := w }
  here : dinode k.sb t.disk (s.icache ip).inum = w
  table : ∀ j, j ≠ (s.icache ip).inum → j < k.sb.ninodes →
    dinode k.sb t.disk j = dinode k.sb s.disk j
  others : ∀ j, j ≠ (s.icache ip).inum → j < k.sb.ninodes → (dinode k.sb s.disk j).type ≠ 0 →
    ∀ x, byteAt t.disk (dinode k.sb s.disk j) x = byteAt s.disk (dinode k.sb s.disk j) x
  pages : t.pages = s.pages

theorem Edited.mine (edited : Edited k s ip w t) :
    t.icache ip = { s.icache ip with valid := true, din := w } := by
  rw [edited.slots, Function.update_self]

theorem Edited.other (edited : Edited k s ip w t) (other : y ≠ ip) : t.icache y = s.icache y := by
  rw [edited.slots, Function.update_of_ne other]

theorem Edited.trans {v : Dinode} (first : Edited k s ip v t) (second : Edited k t ip w u) :
    Edited k s ip w u := by
  have name : (t.icache ip).inum = (s.icache ip).inum := by rw [first.mine]
  have here := second.here
  have table := second.table
  have others := second.others
  rw [name] at here table others
  refine ⟨?_, here, fun j other small => ?_, fun j other small live x => ?_,
    second.pages.trans first.pages⟩
  · rw [second.slots, first.mine, first.slots, Function.update_idem]
  · rw [table j other small, first.table j other small]
  · have same := first.table j other small
    have kept := others j other small (same.symm ▸ live) x
    rw [same] at kept
    rw [kept, first.others j other small live]

theorem edited_refl (cache : Cache k s) (ip : Slot) (locked : (s.icache ip).lock = true) :
    Edited k s ip (s.icache ip).din s := by
  obtain ⟨held,valid⟩ := cache.locked ip locked
  refine ⟨?_, (cache.copies ip held valid).1.symm, fun _ _ _ => rfl, fun _ _ _ _ _ => rfl, rfl⟩
  have same : { s.icache ip with valid := true, din := (s.icache ip).din } = s.icache ip := by
    rw [← valid]
  rw [same, Function.update_eq_self]

theorem Edited.content_other {j : Nat} (edited : Edited k s ip w t) (other : j ≠ (s.icache ip).inum)
    (small : j < k.sb.ninodes)
    (live : (dinode k.sb s.disk j).type ≠ 0) :
    content t.disk (dinode k.sb t.disk j) = content s.disk (dinode k.sb s.disk j) := by
  rw [edited.table j other small]
  exact content_congr (edited.others j other small live)

theorem Edited.names (edited : Edited k s ip w t) (y : Slot) :
    (t.icache y).inum = (s.icache y).inum ∧ (t.icache y).ref = (s.icache y).ref ∧
      (t.icache y).lock = (s.icache y).lock := by
  by_cases mine : y = ip
  · rw [mine, edited.mine]
    exact ⟨rfl, rfl, rfl⟩
  · rw [edited.other mine]
    exact ⟨rfl, rfl, rfl⟩

theorem Edited.cache (edited : Edited k s ip w t) (cache : Cache k s) (held : 0 < (s.icache ip).ref)
    (live : w.type ≠ 0) :
    Cache k t := by
  have name := edited.names
  refine ⟨fun y => ?_, fun y z heldY heldZ same => ?_, fun y heldY => ?_, fun y heldY valid => ?_,
    fun y locked => ?_⟩
  · rw [(name y).2.1]
    exact cache.nonneg y
  · rw [(name y).2.1] at heldY
    rw [(name z).2.1] at heldZ
    rw [(name y).1, (name z).1] at same
    exact cache.once y z heldY heldZ same
  · rw [(name y).2.1] at heldY
    rw [(name y).1]
    exact cache.named y heldY
  · by_cases mine : y = ip
    · rw [mine, edited.mine]
      exact ⟨edited.here.symm, live⟩
    · rw [edited.other mine] at heldY valid ⊢
      have away : (s.icache y).inum ≠ (s.icache ip).inum :=
        fun same => mine (cache.once y ip heldY held same)
      rw [edited.table _ away (cache.named y heldY)]
      exact cache.copies y heldY valid
  · rw [(name y).2.2] at locked
    rw [(name y).2.1]
    by_cases mine : y = ip
    · subst mine
      exact ⟨held, by rw [edited.mine]⟩
    · rw [edited.other mine]
      exact cache.locked y locked

variable {src : Nat → UInt8} {off n : UInt32}

theorem writei_edits (sound : Sound k s) (locked : (s.icache ip).lock = true)
    (file : (s.icache ip).din.type ≠ tDev)
    {r : Option UInt32} (run : FsIcache.writei k ip src off n s = .ok (r, t)) :
    (Refused (s.icache ip).din off n ∧ r = none ∧ t = s) ∨
    (¬ Refused (s.icache ip).din off n ∧ r = some n ∧ ∃ w, Edited k s ip w t ∧
      Wrote k.sb (s.icache ip).inum s.disk (s.icache ip).din src off n t.disk w) := by
  obtain ⟨held,valid⟩ := sound.cache.locked ip locked
  obtain ⟨copy,live⟩ := sound.cache.copies ip held valid
  have bound := sound.cache.named ip held
  simp only [FsIcache.writei, if_neg file] at run
  by_cases refused : Refused (s.icache ip).din off n
  · have nothing : FsLog.writei k.sb (s.icache ip).inum s.disk (s.icache ip).din src off n = [] :=
      List.eq_nil_iff_forall_not_mem.mpr fun c mem => (FsLog.writei_mem mem).1 refused
    rw [writei_refused _ src refused, nothing] at run
    cases run
    exact .inl ⟨refused, rfl, put_same⟩
  · split at run
    · cases run
    next r' e w done =>
      cases run
      obtain ⟨rfl,wrote⟩ := writei_wrote sound.layout bound sound.own copy.symm live
        (copy ▸ sound.filled _ bound (copy ▸ live) (copy ▸ file)) refused done
      refine .inr ⟨refused, rfl, w, ⟨?_, wrote.here, wrote.table, wrote.others, rfl⟩, wrote⟩
      show Function.update s.icache ip { s.icache ip with din := w } = _
      rw [← valid]

theorem writei_total (sound : Sound k s) (locked : (s.icache ip).lock = true)
    (file : (s.icache ip).din.type ≠ tDev) (src : Nat → UInt8)
    (off n : UInt32) (room : ¬ Refused (s.icache ip).din off n →
      lacks s.disk (s.icache ip).din off.toNat n.toNat ≤ free k.sb s.disk) :
    ∃ r t, FsIcache.writei k ip src off n s = .ok (r, t) := by
  obtain ⟨held,valid⟩ := sound.cache.locked ip locked
  obtain ⟨copy,live⟩ := sound.cache.copies ip held valid
  simp only [FsIcache.writei, if_neg file]
  by_cases refused : Refused (s.icache ip).din off n
  · rw [writei_refused _ src refused]
    exact ⟨_, _, rfl⟩
  · have own : Own k.sb s.disk
        (Function.update (dinode k.sb s.disk) (s.icache ip).inum (s.icache ip).din) := by
      rw [copy, Function.update_eq_self]
      exact sound.own
    obtain ⟨r,e,w,done⟩ :=
      writei_returns sound.layout (sound.cache.named ip held) own live src refused (room refused)
    rw [done]
    exact ⟨_, _, rfl⟩

theorem Sound.edited (sound : Sound k s) (edited : Edited k s ip w t) (held : 0 < (s.icache ip).ref)
    (live : w.type ≠ 0)
    (own : Own k.sb t.disk (dinode k.sb t.disk)) (filled : w.type ≠ tDev → Filled t.disk w) :
    Sound k t := by
  refine ⟨sound.layout, own, fun j bound liveJ fileJ => ?_, edited.cache sound.cache held live⟩
  by_cases mine : j = (s.icache ip).inum
  · rw [mine, edited.here] at fileJ ⊢
    exact filled fileJ
  · rw [edited.table j mine bound] at liveJ fileJ ⊢
    intro x below small
    rw [edited.others j mine bound liveJ]
    exact sound.filled j bound liveJ fileJ x below small

theorem filled_wrote {sb : Superblock} {d e : Disk} {v : Dinode} (filled : Filled d v)
    (inFile : off.toNat ≤ v.size.toNat) (wrote : Wrote sb i d v src off n e w) : Filled e w := by
  intro x below small
  rw [wrote.size] at below
  by_cases range : off.toNat ≤ x ∧ x < off.toNat + n.toNat
  · rw [wrote.inside x range.1 range.2]
    exact Option.some_ne_none _
  · have old : x < v.size.toNat := by
      split at below <;> omega
    rcases wrote.outside x (by omega) with same | ⟨-,zero⟩
    · rw [same]
      exact filled x old small
    · rw [zero]
      exact Option.some_ne_none _

theorem Sound.filled_here (sound : Sound k s) (locked : (s.icache ip).lock = true)
    (file : (s.icache ip).din.type ≠ tDev) :
    Filled s.disk (s.icache ip).din := by
  obtain ⟨held,valid⟩ := sound.cache.locked ip locked
  obtain ⟨copy,live⟩ := sound.cache.copies ip held valid
  rw [copy]
  exact sound.filled _ (sound.cache.named ip held) (copy ▸ live) (copy ▸ file)

theorem Sound.wrote (sound : Sound k s) (locked : (s.icache ip).lock = true)
    (file : (s.icache ip).din.type ≠ tDev)
    (ok : ¬ Refused (s.icache ip).din off n) (edited : Edited k s ip w t)
    (wrote : Wrote k.sb (s.icache ip).inum s.disk (s.icache ip).din src off n t.disk w) :
    Sound k t := by
  obtain ⟨held,valid⟩ := sound.cache.locked ip locked
  have live := (sound.cache.copies ip held valid).2
  simp only [Refused, not_or, Nat.not_lt] at ok
  have type : w.type = (s.icache ip).din.type := by rw [wrote.fields]
  exact sound.edited edited held (type ▸ live) wrote.own fun _ =>
    filled_wrote (sound.filled_here locked file) ok.1 wrote

theorem update_eq (f : Dinode → Dinode) :
    (do assign ip f; iupdate k ip : Op Unit) s = .ok ((), s.put ip
    (writeDinode k.sb s.disk (s.icache ip).inum (f (s.icache ip).din)) (f (s.icache ip).din)
      [FsLog.iblock k.sb (s.icache ip).inum]) := by
  rw [bind_of_ok (show assign ip f s = .ok
    ((), s.modify ip { s.icache ip with din := f (s.icache ip).din }) from rfl), iupdate]
  simp only [modify_self]
  rfl

theorem update_edits (sound : Sound k s) (locked : (s.icache ip).lock = true)
    (type : w.type = (s.icache ip).din.type)
    (addrs : w.addrs = (s.icache ip).din.addrs) {l : List Nat} :
    Edited k s ip w (s.put ip (writeDinode k.sb s.disk (s.icache ip).inum w) w l) ∧
      (∀ x, byteAt (writeDinode k.sb s.disk (s.icache ip).inum w) w x = byteAt s.disk
        (s.icache ip).din x) ∧
      ((w.type ≠ tDev → Filled s.disk w) →
        Sound k (s.put ip (writeDinode k.sb s.disk (s.icache ip).inum w) w l)) := by
  obtain ⟨held,valid⟩ := sound.cache.locked ip locked
  obtain ⟨copy,live⟩ := sound.cache.copies ip held valid
  have bound := sound.cache.named ip held
  have own : Own k.sb s.disk (Function.update (dinode k.sb s.disk) (s.icache ip).inum
      (s.icache ip).din) := by
    rw [copy, Function.update_eq_self]
    exact sound.own
  obtain ⟨own',bytes,others⟩ := iupdate_change sound.layout bound live own type addrs
  have rows : ∀ j, dinode k.sb (writeDinode k.sb s.disk (s.icache ip).inum w) j = Function.update
    (dinode k.sb s.disk) (s.icache ip).inum w j :=
      fun j => by rw [dinode_writeDinode, Function.update_apply]
  have edited : Edited k s ip w (s.put ip (writeDinode k.sb s.disk (s.icache ip).inum w) w l) := by
    refine ⟨?_, (rows _).trans (Function.update_self ..), fun j other _ =>
      (rows j).trans (Function.update_of_ne other ..), others, rfl⟩
    show Function.update s.icache ip { s.icache ip with din := w } = _
    rw [← valid]
  refine ⟨edited, bytes, fun filled =>
    sound.edited edited held (type ▸ live) ?_ fun file x below small => ?_⟩
  · exact (funext rows : dinode k.sb (writeDinode k.sb s.disk (s.icache ip).inum w) = _) ▸ own'
  · show byteAt (writeDinode k.sb s.disk (s.icache ip).inum w) w x ≠ none
    have same : byteAt s.disk w x = byteAt s.disk (s.icache ip).din x := by
      have blocks : blockAt s.disk w = blockAt s.disk (s.icache ip).din := by
        funext q
        cases q <;> simp only [blockAt, addrs]
      exact byteAt_congr blocks fun _ _ _ _ _ _ _ => rfl
    rw [bytes, ← same]
    exact filled file x below small

/-- `m` with the inode of slot `ip` locked around it. -/
def holding {α : Type} (k : Mount) (ip : Slot) (m : Op α) : Op α := do
  ilock k ip
  let r ← m
  iunlock ip
  pure r

theorem holding_ok {α : Type} {m : Op α} {r : α} (cache : Cache k s)
    (run : holding k ip m s = .ok (r, t)) :
    0 < (s.icache ip).ref ∧ (s.icache ip).lock = false ∧
      (dinode k.sb s.disk (s.icache ip).inum).type ≠ 0 ∧
      ∃ u, m (s.modify ip (lockedCopy k s ip)) = .ok (r, u) ∧
        t = u.modify ip { u.icache ip with lock := false } := by
  obtain ⟨_,s1,locked,run⟩ := bind_ok run
  obtain ⟨held,free,live,rfl⟩ := ilock_ok cache locked
  obtain ⟨r',u,done,run⟩ := bind_ok run
  obtain ⟨_,s3,unlocked,run⟩ := bind_ok run
  obtain ⟨-,rfl⟩ := iunlock_ok unlocked
  cases run
  exact ⟨held, free, live, u, done, rfl⟩

theorem holding_eq {α : Type} {m : Op α} {r : α} (cache : Cache k s) (held : 0 < (s.icache ip).ref)
    (free : (s.icache ip).lock = false)
    (live : (dinode k.sb s.disk (s.icache ip).inum).type ≠ 0)
    (done : m (s.modify ip (lockedCopy k s ip)) = .ok (r, u))
    (still : (u.icache ip).lock = true) (held' : 0 < (u.icache ip).ref) :
    holding k ip m s = .ok (r, u.modify ip { u.icache ip with lock := false }) := by
  unfold holding
  rw [bind_of_ok (ilock_eq cache held free live), bind_of_ok done,
    bind_of_ok (iunlock_eq still held')]
  rfl

theorem Edited.unlock (edited : Edited k (s.modify ip (lockedCopy k s ip)) ip w u)
    (free : (s.icache ip).lock = false) :
    Edited k s ip w (u.modify ip { u.icache ip with lock := false }) := by
  have name : ((s.modify ip (lockedCopy k s ip)).icache ip).inum = (s.icache ip).inum := by
    rw [modify_self, lockedCopy]
  have here := edited.here
  have table := edited.table
  have others := edited.others
  rw [name] at here table others
  refine ⟨?_, here, table, others, edited.pages⟩
  show Function.update u.icache ip { u.icache ip with lock := false } = _
  rw [edited.mine, edited.slots, Function.update_idem, modify_self, ← free]
  exact Function.update_idem ..

end FsCache
