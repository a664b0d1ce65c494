import Xv6.Fs.Locked

/- filewrite. Each chunk is a transaction of its own; a chunk that writei refuses ends the loop,
   and what earlier chunks have written stays. -/
namespace FsCalls
open Bytes FsDisk FsInode FsOwner FsContent FsIcache FsCache Panics

variable {k : Mount} {s t : Fs} {ip : Slot}

theorem sound_of_wellFormed (wf : WellFormed k.sb s.disk) (cache : Cache k s) : Sound k s :=
  ⟨wf.layout, wf.own, fun _ bound live file => FsLog.filled_of_wellFormed wf bound live file, cache⟩

theorem writei_ok (wf : WellFormed k.sb s.disk) (cache : Cache k s)
    (file : (dinode k.sb s.disk (s.icache ip).inum).type ≠ tDev)
    {src : Nat → UInt8} {off n : UInt32} {r : Option UInt32}
    (run : holding k ip (FsIcache.writei k ip src off n) s = .ok (r, t)) :
    ∃ w, Edited k s ip w t ∧ WellFormed k.sb t.disk ∧ Cache k t ∧
      w.type = (dinode k.sb s.disk (s.icache ip).inum).type ∧
      ((Refused (dinode k.sb s.disk (s.icache ip).inum) off n ∧ r = none ∧
        w = dinode k.sb s.disk (s.icache ip).inum ∧ t.disk = s.disk) ∨
       (¬ Refused (dinode k.sb s.disk (s.icache ip).inum) off n ∧ r = some n ∧
        Wrote k.sb (s.icache ip).inum s.disk (dinode k.sb s.disk (s.icache ip).inum) src off n
          t.disk w)) := by
  obtain ⟨held,free,live,u,done,rfl⟩ := holding_ok cache run
  have bound := cache.named ip held
  have taken := cache.lock held live
  have mine : (s.modify ip (lockedCopy k s ip)).icache ip = lockedCopy k s ip := modify_self
  have edits := writei_edits (sound_of_wellFormed (s := s.modify ip (lockedCopy k s ip)) wf taken)
    (by rw [mine]; rfl)
    (by rw [mine]; exact file) done
  rw [mine] at edits
  rcases edits with ⟨refused,rfl,rfl⟩ | ⟨accepted,rfl,w,edited,wrote⟩
  · have same := (edited_refl taken ip (by rw [mine]; rfl)).unlock free
    have din : ((s.modify ip (lockedCopy k s ip)).icache ip).din = dinode k.sb s.disk
        (s.icache ip).inum := by
      rw [mine]
      rfl
    rw [din] at same
    exact ⟨_, same, wf, same.cache cache held live, rfl, .inl ⟨refused, rfl, rfl, rfl⟩⟩
  · have all := edited.unlock free
    have type : w.type = (dinode k.sb s.disk (s.icache ip).inum).type := by rw [wrote.fields]; rfl
    have inFile : off.toNat ≤ (dinode k.sb s.disk (s.icache ip).inum).size.toNat := by
      simp only [Refused, not_or, Nat.not_lt] at accepted
      exact accepted.1
    exact ⟨w, all, wellFormed_wrote wf rfl bound live file inFile wrote,
      all.cache cache held (type ▸ live), type,
      .inr ⟨accepted, rfl, wrote⟩⟩

def chunk (k : Mount) (ip : Slot) (src : Nat → UInt8) (off n : UInt32) : Op (Option UInt32) := do
  beginOp
  let r ← holding k ip (FsIcache.writei k ip src off n)
  endOp
  pure r

theorem writeChunks_succ (addr : Nat → UInt8) (n : Int) (fuel i : Nat) (off : UInt32)
    (more : (i : Int) < n) :
    writeChunks k ip addr n (fuel + 1) i off =
      chunk k ip (fun j => addr (i + j)) off (UInt32.ofNat (min (n - i) maxChunk).toNat) >>=
        fun r =>
          match r with
          | none => pure (i, off)
          | some r =>
            if (r.toNat : Int) ≠ min (n - i) maxChunk then stop .shortFilewrite
            else writeChunks k ip addr n fuel (i + r.toNat) (off + r) := by
  rw [writeChunks, if_pos more]
  have passes : ∀ {β : Type} (rest : Option UInt32 → Op β) (src : Nat → UInt8) (m : UInt32),
    chunk k ip src off m >>= rest =
      beginOp >>= fun _ => ilock k ip >>= fun _ => FsIcache.writei k ip src off m >>= fun r =>
        iunlock ip >>= fun _ => endOp >>= fun _ => rest r := by
    intro β rest src m
    simp only [chunk, holding, bind_assoc, pure_bind]
  exact (passes ..).symm

theorem chunk_ok (wf : WellFormed k.sb s.disk) (cache : Cache k s)
    (file : (dinode k.sb s.disk (s.icache ip).inum).type ≠ tDev)
    {src : Nat → UInt8} {off n : UInt32} {r : Option UInt32}
    (run : chunk k ip src off n s = .ok (r, t)) :
    ∃ w, Edited k s ip w t ∧ WellFormed k.sb t.disk ∧ Cache k t ∧
      w.type = (dinode k.sb s.disk (s.icache ip).inum).type ∧
      ((Refused (dinode k.sb s.disk (s.icache ip).inum) off n ∧ r = none ∧
        w = dinode k.sb s.disk (s.icache ip).inum ∧ t.disk = s.disk) ∨
       (¬ Refused (dinode k.sb s.disk (s.icache ip).inum) off n ∧ r = some n ∧
        Wrote k.sb (s.icache ip).inum s.disk (dinode k.sb s.disk (s.icache ip).inum) src off n
          t.disk w)) := by
  obtain ⟨_,s1,opened,run⟩ := bind_ok run
  cases opened
  obtain ⟨r',u,done,run⟩ := bind_ok run
  obtain ⟨_,s2,closed,run⟩ := bind_ok run
  cases closed
  cases run
  obtain ⟨w,edited,wf',cache',type,outcome⟩ := writei_ok (s := begun s) wf cache.begun file done
  exact ⟨w, ⟨edited.slots, edited.here, edited.table, edited.others, edited.pages⟩, wf',
    cache'.ended, type, outcome⟩

def bytesAt (addr : Nat → UInt8) (i n : Nat) : List UInt8 :=
  (List.range n).map fun j => addr (i + j)

theorem bytesAt_append (addr : Nat → UInt8) (i m n : Nat) :
    bytesAt addr i (m + n) = bytesAt addr i m ++ bytesAt addr (i + m) n := by
  simp only [bytesAt, List.range_add, List.map_append, List.map_map]
  congr 1
  refine List.map_congr_left fun j _ => ?_
  simp only [Function.comp_apply, Nat.add_assoc]

theorem splice_splice (c : List UInt8) {off m : Nat} {a b : List UInt8} (inFile : off ≤ c.length)
    (length : a.length = m) :
    splice (splice c off a) (off + m) b = splice c off (a ++ b) := by
  have front : (c.take off ++ a).length = off + m := by
    rw [List.length_append, List.length_take, Nat.min_eq_left inFile, length]
  have head : (splice c off a).take (off + m) = c.take off ++ a := by
    rw [splice, ← front, List.take_left]
  have tail : (splice c off a).drop (off + m) = c.drop (off + m) := by
    rw [splice, length, ← front, List.drop_left]
  rw [splice, head, ← List.drop_drop, tail, List.drop_drop, splice, List.length_append, length,
    Nat.add_assoc]
  simp only [List.append_assoc]

structure Wrought (k : Mount) (s : Fs) (ip : Slot) (t : Fs) : Prop where
  wf : WellFormed k.sb t.disk
  cache : Cache k t
  name : (t.icache ip).inum = (s.icache ip).inum
  type : (dinode k.sb t.disk (s.icache ip).inum).type = (dinode k.sb s.disk (s.icache ip).inum).type

structure Reached (k : Mount) (s : Fs) (ip : Slot) (addr : Nat → UInt8) (n i j : Nat)
    (off off' : UInt32) (t : Fs) : Prop where
  low : i ≤ j
  high : j ≤ n
  moved : off'.toNat = off.toNat + (j - i)
  bytes : content t.disk (dinode k.sb t.disk (s.icache ip).inum) =
    splice (content s.disk (dinode k.sb s.disk (s.icache ip).inum)) off.toNat
      (bytesAt addr i (j - i))
  first : i < n → (i < j ↔ off.toNat ≤ (dinode k.sb s.disk (s.icache ip).inum).size.toNat ∧
    off.toNat + min (n - i) maxChunk ≤ maxfile * bsize)
  all : i < n → (j = n ↔ off.toNat ≤ (dinode k.sb s.disk (s.icache ip).inum).size.toNat ∧
    off.toNat + (n - i) ≤ maxfile * bsize)

theorem writeChunks_ok {addr : Nat → UInt8} {n fuel i j : Nat} {off off' : UInt32}
    (enough : n - i ≤ fuel) (within : i ≤ n)
    (wf : WellFormed k.sb s.disk) (cache : Cache k s)
    (file : (dinode k.sb s.disk (s.icache ip).inum).type ≠ tDev)
    (run : writeChunks k ip addr n fuel i off s = .ok ((j, off'), t)) :
    Wrought k s ip t ∧ Reached k s ip addr n i j off off' t := by
  induction fuel generalizing s i off with
  | zero =>
    cases run
    refine ⟨⟨wf, cache, rfl, rfl⟩, Nat.le_refl _, within, by omega, ?_, fun more => by omega,
      fun more => by omega⟩
    simp [bytesAt, splice]
  | succ fuel ih =>
    by_cases more : (i : Int) < n
    · rw [writeChunks_succ addr n fuel i off more] at run
      generalize size : min (n - i) maxChunk = m
      have sizes : (min ((n : Int) - i) maxChunk).toNat = m := by omega
      have small : m ≤ 1536 := by
        simp only [maxChunk] at size
        omega
      have word : (UInt32.ofNat m).toNat = m :=
        UInt32.toNat_ofNat_of_lt' (Nat.lt_of_le_of_lt small (by decide))
      have top : maxfile * bsize = 71680 := rfl
      have part : m ≤ n - i := size ▸ Nat.min_le_left _ _
      have positive : 0 < m := by
        simp only [maxChunk] at size
        omega
      rw [sizes] at run
      obtain ⟨r,s1,step,run⟩ := bind_ok run
      obtain ⟨w,edited,wf1,cache1,type,outcome⟩ := chunk_ok wf cache file step
      have name : (s1.icache ip).inum = (s.icache ip).inum := by rw [edited.mine]
      have some_ : i < n := by omega
      rcases outcome with ⟨refused,rfl,rfl,disk⟩ | ⟨accepted,rfl,wrote⟩
      · cases run
        simp only [Refused, word] at refused
        refine ⟨⟨wf1, cache1, name, by rw [disk]⟩, Nat.le_refl _, within, by omega, ?_,
          fun less => ?_, fun less => ?_⟩
        · rw [disk]
          simp [bytesAt, splice]
        · rw [size]
          clear size sizes
          omega
        · clear size sizes
          omega
      · simp only [Refused, word, not_or, Nat.not_lt] at accepted
        simp only [word] at run
        rw [if_neg (by omega)] at run
        obtain ⟨inFile,-,fits⟩ := accepted
        have here : dinode k.sb s1.disk (s.icache ip).inum = w := edited.here
        have moved : (off + UInt32.ofNat m).toNat = off.toNat + m := by
          rw [UInt32.toNat_add, word]
          omega
        have longer : w.size.toNat = max (dinode k.sb s.disk (s.icache ip).inum).size.toNat
            (off.toNat + m) := by
          rw [wrote.size, word, if_pos (by omega)]
        obtain ⟨wrought,reached⟩ :=
          ih (by omega) (by omega) wf1 cache1 (by rw [name, here, type]; exact file) run
        obtain ⟨low,high,moved',bytes,-,all⟩ := reached
        rw [name, here] at bytes all
        have bytes1 := content_wrote inFile wrote
        refine ⟨⟨wrought.wf, wrought.cache, wrought.name.trans name, ?_⟩, by omega, high, by omega,
          ?_, fun _ => ?_, fun _ => ?_⟩
        · have := wrought.type
          rw [name, here, type] at this
          exact this
        · have total : j - i = m + (j - (i + m)) := by omega
          rw [bytes, bytes1, moved, total, bytesAt_append, word]
          have length : (List.map (fun j => addr (i + j)) (List.range m)).length = m := by simp
          have inside :
              off.toNat ≤ (content s.disk (dinode k.sb s.disk (s.icache ip).inum)).length := by
            simpa [content, bytesFrom] using inFile
          exact splice_splice _ inside length
        · rw [size]
          exact ⟨fun _ => ⟨inFile, fits⟩, fun _ => by omega⟩
        · by_cases done : i + m = n
          · refine ⟨fun _ => ⟨inFile, ?_⟩, fun _ => Nat.le_antisymm high (done ▸ low)⟩
            rw [← done, Nat.add_sub_cancel_left]
            exact fits
          · rw [all (by omega), longer, moved]
            refine ⟨fun both => ⟨inFile, ?_⟩, fun both => ⟨Nat.le_max_right _ _, ?_⟩⟩
            all_goals
              clear all size sizes
              omega
    · rw [writeChunks, if_neg more] at run
      cases run
      have last : j = n := by omega
      refine ⟨⟨wf, cache, rfl, rfl⟩, Nat.le_refl _, within, by omega, ?_, fun less => by omega,
        fun less => by omega⟩
      simp [bytesAt, splice]

theorem filewrite_ok {f f' : File} {addr : Nat → UInt8} {n : Nat} {r : Int}
    (writable : f.writable = true)
    (wf : WellFormed k.sb s.disk) (cache : Cache k s)
    (file : (dinode k.sb s.disk (s.icache f.ip).inum).type ≠ tDev)
    (run : filewrite k f addr n s = .ok ((r, f'), t)) :
    ∃ j off, f' = { f with off := off } ∧ r = (if j = n then (n : Int) else -1) ∧
      Wrought k s f.ip t ∧
      Reached k s f.ip addr n 0 j f.off off t := by
  unfold filewrite at run
  rw [if_pos writable] at run
  obtain ⟨⟨j,off⟩,u,loop,run⟩ := bind_ok run
  obtain ⟨wrought,reached⟩ := writeChunks_ok (by omega) (Nat.zero_le n) wf cache file loop
  cases run
  exact ⟨j, off, rfl, by simp only [Int.natCast_inj], wrought, reached⟩

/-- What the result of filewrite says: the offset has moved and the content has changed by just
    the bytes that are reported, and -1 means nothing happened. -/
def Reports (k : Mount) (s : Fs) (f : File) (addr : Nat → UInt8) (r : Int) (f' : File)
    (t : Fs) : Prop :=
  (f'.off.toNat : Int) = f.off.toNat + max r 0 ∧
  content t.disk (dinode k.sb t.disk (s.icache f.ip).inum) =
    splice (content s.disk (dinode k.sb s.disk (s.icache f.ip).inum)) f.off.toNat
      (bytesAt addr 0 (max r 0).toNat) ∧
  (r = -1 → f' = f ∧ content t.disk (dinode k.sb t.disk (s.icache f.ip).inum) =
    content s.disk (dinode k.sb s.disk (s.icache f.ip).inum))

/-- filewrite to a file that is not a device reports what it did exactly when it fails in its
    first chunk or not at all. -/
theorem filewrite_reports_iff {f f' : File} {addr : Nat → UInt8} {n r : Int} (nonneg : 0 ≤ n)
    (wf : WellFormed k.sb s.disk) (cache : Cache k s)
    (file : (dinode k.sb s.disk (s.icache f.ip).inum).type ≠ tDev)
    (run : filewrite k f addr n s = .ok ((r, f'), t)) :
    Reports k s f addr r f' t ↔
      f.writable = false ∨ (dinode k.sb s.disk (s.icache f.ip).inum).size.toNat < f.off.toNat ∨
      f.off.toNat + n ≤ maxfile * bsize ∨ maxfile * bsize < f.off.toNat + min n maxChunk := by
  obtain ⟨n,rfl⟩ := Int.eq_ofNat_of_zero_le nonneg
  by_cases writable : f.writable = true
  · obtain ⟨j,off,rfl,rfl,wrought,low,high,moved,bytes,first,all⟩ :=
      filewrite_ok writable wf cache file run
    simp only [Nat.sub_zero] at moved bytes first all
    have readOnly : ¬ f.writable = false := by simp [writable]
    rw [or_iff_right readOnly]
    have least : ((min n maxChunk : Nat) : Int) = min (n : Int) maxChunk := by omega
    rcases Nat.eq_or_lt_of_le high with whole | short
    · -- every chunk has been written
      subst whole
      rw [if_pos rfl]
      have count : max (j : Int) 0 = j := by omega
      refine ⟨fun _ => ?_, fun _ => ⟨?_, ?_, fun negative => by omega⟩⟩
      · by_cases none_ : j = 0
        · subst none_
          omega
        · have fits := (all (by omega)).mp rfl
          omega
      · rw [count, moved]
        rfl
      · rw [count]
        exact bytes
    · have some_ : 0 < n := by omega
      rw [if_neg (by omega)]
      by_cases none_ : j = 0
      · -- the first chunk was refused
        subst none_
        have same : off = f.off := UInt32.toNat_inj.mp moved
        have kept : content t.disk (dinode k.sb t.disk (s.icache f.ip).inum) =
            content s.disk (dinode k.sb s.disk (s.icache f.ip).inum) := by
          rw [bytes]
          simp [splice, bytesAt]
        have refused := (first some_).not.mp (Nat.lt_irrefl 0)
        subst same
        exact ⟨fun _ => by omega, fun _ => ⟨(Int.add_zero _).symm, bytes, fun _ => ⟨rfl, kept⟩⟩⟩
      · -- chunks were written before the one that was refused
        have begun := (first some_).mp (Nat.pos_of_ne_zero none_)
        have stopped := (all some_).not.mp (Nat.ne_of_lt short)
        refine ⟨fun reports => ?_, fun fine => by omega⟩
        have still := reports.1
        simp only at still
        omega
  · have readOnly : f.writable = false := by simpa using writable
    unfold filewrite at run
    rw [if_neg writable] at run
    cases run
    simp [Reports, splice, bytesAt, readOnly]

section Total

variable {d : Disk} {v : Dinode} {off n : Nat}

theorem lacks_present (full : ∀ x, off ≤ x → x < off + n → byteAt d v x ≠ none) :
    lacks d v off n = 0 := by
  by_cases none_ : n = 0
  · simp [lacks, touched, none_]
  have present : ∀ bn ∈ touched off n, fileBlock d v bn ≠ none := by
    intro bn mem
    rw [touched, if_neg none_, Finset.mem_Ico] at mem
    simp only [bsize] at mem
    obtain ⟨x,low,high,at_⟩ : ∃ x, off ≤ x ∧ x < off + n ∧ x / bsize = bn := by
      refine ⟨max off (512 * bn), Nat.le_max_left _ _, by omega, ?_⟩
      simp only [bsize]
      omega
    obtain ⟨b,block⟩ := block_of_byte (full x low high)
    rw [at_] at block
    rw [block]
    exact Option.some_ne_none b
  have data : (touched off n).filter (fun bn => fileBlock d v bn = none) = ∅ :=
    Finset.filter_eq_empty_iff.mpr fun bn mem => present bn mem
  have last : (off + n - 1) / bsize ∈ touched off n := by
    rw [touched, if_neg none_, Finset.mem_Ico]
    exact ⟨Nat.div_le_div_right (by omega), Nat.lt_succ_self _⟩
  rw [lacks, data, Finset.card_empty, if_neg]
  rintro ⟨zero,-,high⟩
  refine present _ last ?_
  by_cases inRange : (off + n - 1) / bsize - ndirect < nindirect
  · rw [fileBlock, placeOf_entry (by omega) inRange]
    simp [blockAt, zero, nonzero]
  · rw [fileBlock, placeOf, dif_neg (by omega), dif_neg inRange]
    rfl

end Total

theorem chunk_total (wf : WellFormed k.sb s.disk) (cache : Cache k s) (held : 0 < (s.icache ip).ref)
    (free_ : (s.icache ip).lock = false)
    (live : (dinode k.sb s.disk (s.icache ip).inum).type ≠ 0)
    (file : (dinode k.sb s.disk (s.icache ip).inum).type ≠ tDev)
    (src : Nat → UInt8) (off n : UInt32)
    (room : ¬ Refused (dinode k.sb s.disk (s.icache ip).inum) off n →
      lacks s.disk (dinode k.sb s.disk (s.icache ip).inum) off.toNat n.toNat ≤ free k.sb s.disk) :
    ∃ r t, chunk k ip src off n s = .ok (r, t) := by
  have mine : ((begun s).modify ip (lockedCopy k (begun s) ip)).icache ip = lockedCopy k s ip :=
    modify_self
  have sound : Sound k ((begun s).modify ip (lockedCopy k (begun s) ip)) :=
    sound_of_wellFormed wf (cache.begun.lock held live)
  have locked : (((begun s).modify ip (lockedCopy k (begun s) ip)).icache ip).lock = true := by
    rw [mine]
    rfl
  obtain ⟨r,u,done⟩ :=
    writei_total sound locked (by rw [mine]; exact file) src off n (by rw [mine]; exact room)
  have kept : (u.icache ip).lock = true ∧ 0 < (u.icache ip).ref := by
    rcases writei_edits sound locked (by rw [mine]; exact file) done
      with ⟨-,-,rfl⟩ | ⟨-,-,w,edited,-⟩
    · rw [mine]
      exact ⟨rfl, held⟩
    · rw [edited.mine, mine]
      exact ⟨rfl, held⟩
  have section_ := holding_eq cache.begun held free_ live done kept.1 kept.2
  unfold chunk
  rw [bind_of_ok beginOp_eq, bind_of_ok section_]
  exact ⟨r, _, rfl⟩

theorem writeChunks_full (ip : Slot) (addr : Nat → UInt8) (n fuel i : Nat) (off : UInt32)
    (wf : WellFormed k.sb s.disk) (cache : Cache k s) (held : 0 < (s.icache ip).ref)
    (free_ : (s.icache ip).lock = false)
    (live : (dinode k.sb s.disk (s.icache ip).inum).type ≠ 0)
    (file : (dinode k.sb s.disk (s.icache ip).inum).type ≠ tDev)
    (full : (dinode k.sb s.disk (s.icache ip).inum).size.toNat = maxfile * bsize) :
    ∃ j off' t, writeChunks k ip addr n fuel i off s = .ok ((j, off'), t) := by
  induction fuel generalizing s i off with
  | zero => exact ⟨i, off, s, rfl⟩
  | succ fuel ih =>
    by_cases more : (i : Int) < n
    · rw [writeChunks_succ addr n fuel i off more]
      have size : (min ((n : Int) - i) maxChunk).toNat ≤ 1536 := by
        simp only [maxChunk]
        omega
      generalize count : (min ((n : Int) - i) maxChunk).toNat = m at size
      have exact_ : (m : Int) = min ((n : Int) - i) maxChunk := by
        simp only [maxChunk] at count ⊢
        omega
      have word : (UInt32.ofNat m).toNat = m :=
        UInt32.toNat_ofNat_of_lt' (Nat.lt_of_le_of_lt size (by decide))
      have whole := wf.whole _ (cache.named ip held) live file
      obtain ⟨r,t,step⟩ :=
        chunk_total wf cache held free_ live file (fun j => addr (i + j)) off (UInt32.ofNat m)
        fun accepted => by
          simp only [Refused, not_or, Nat.not_lt] at accepted
          rw [lacks_present fun x low high => whole x (by omega)]
          exact Nat.zero_le _
      rw [bind_of_ok step]
      obtain ⟨w,edited,wf1,cache1,type,outcome⟩ := chunk_ok wf cache file step
      rcases outcome with ⟨-,rfl,-,-⟩ | ⟨accepted,rfl,wrote⟩
      · exact ⟨i, off, t, rfl⟩
      · simp only [Refused, not_or, Nat.not_lt] at accepted
        have same : w.size.toNat = maxfile * bsize := by
          rw [wrote.size, full]
          split <;> omega
        have here := edited.here
        have mine := edited.mine
        have name : (t.icache ip).inum = (s.icache ip).inum := by rw [mine]
        simp only [word]
        rw [if_neg (by omega)]
        refine ih _ _ wf1 cache1 (by rw [mine]; exact held) (by rw [mine]; exact free_) ?_ ?_ ?_
        · rw [name, here, type]
          exact live
        · rw [name, here, type]
          exact file
        · rw [name, here, same]
    · rw [writeChunks, if_neg more]
      exact ⟨i, off, s, rfl⟩

theorem full_file : ∃ d, WellFormed (tiny 150) d ∧ (dinode (tiny 150) d 1).type = tFile ∧
    (dinode (tiny 150) d 1).size = 71680 := by
  have wf : WellFormed (tiny 150) (emptyFile 150) := wellFormed_emptyFile (by decide)
  have here := dinode_emptyFile 150
  have bound : 1 < (tiny 150).ninodes := by decide
  have live : (fresh tFile).type ≠ 0 := by decide
  have file : (fresh tFile).type ≠ tDev := by decide
  have own : Own (tiny 150) (emptyFile 150)
      (Function.update (dinode (tiny 150) (emptyFile 150)) 1 (fresh tFile)) := by
    rw [← here, Function.update_eq_self]
    exact wf.own
  have accepted : ¬ Refused (fresh tFile) 0 71680 := by
    simp only [Refused, fresh]
    decide
  have room : lacks (emptyFile 150) (fresh tFile) (0 : UInt32).toNat (71680 : UInt32).toNat ≤ free
      (tiny 150) (emptyFile 150) := by
    decide +kernel
  obtain ⟨r,e,w,done⟩ := writei_returns wf.layout bound own live (fun _ => 7) accepted room
  have filled := filled_of_whole (wf.whole 1 bound (here ▸ live) (here ▸ file))
  rw [here] at filled
  obtain ⟨-,wrote⟩ := writei_wrote wf.layout bound wf.own here live filled accepted done
  refine ⟨e, wellFormed_wrote wf here bound live file (Nat.zero_le _) wrote, ?_, ?_⟩
  · rw [wrote.here, wrote.fields]
    rfl
  · rw [wrote.here]
    exact UInt32.toNat_inj.mp wrote.size

def fullMount : Mount := ⟨tiny 150, fun _ => ⟨none, none⟩⟩

def fullOpen : File := ⟨true, true, slot0, 69632⟩

theorem filewrite_full (n : Nat) : ∃ s r f' t, WellFormed fullMount.sb s.disk ∧ Cache fullMount s ∧
    (dinode fullMount.sb s.disk (s.icache fullOpen.ip).inum).type ≠ tDev ∧
    (dinode fullMount.sb s.disk (s.icache fullOpen.ip).inum).size.toNat = 71680 ∧
    filewrite fullMount fullOpen (fun _ => 8) n s = .ok ((r, f'), t) := by
  obtain ⟨d,wf,type,size⟩ := full_file
  have live : (dinode fullMount.sb d 1).type ≠ 0 := by
    rw [show (dinode fullMount.sb d 1).type = tFile from type]
    decide
  have file : (dinode fullMount.sb d 1).type ≠ tDev := by
    rw [show (dinode fullMount.sb d 1).type = tFile from type]
    decide
  have length : (dinode fullMount.sb d 1).size.toNat = 71680 := congrArg UInt32.toNat size
  obtain ⟨j,off,t,loop⟩ :=
    writeChunks_full (k := fullMount) (s := single d slot0 1) fullOpen.ip (fun _ => 8)
    n n 0 fullOpen.off wf (cache_single (by decide)) Int.one_pos rfl live file length
  have run : filewrite fullMount fullOpen (fun _ => 8) n (single d slot0 1) =
      .ok ((if (j : Int) = n then (n : Int) else -1, { fullOpen with off := off }), t) := by
    unfold filewrite
    rw [if_pos (show fullOpen.writable = true from rfl), Int.toNat_natCast, bind_of_ok loop]
    rfl
  exact ⟨single d slot0 1, _, _, t, wf, cache_single (by decide), file, length, run⟩

theorem filewrite_reports_iff_within : ∃ s r f' t, WellFormed fullMount.sb s.disk ∧
    filewrite fullMount fullOpen (fun _ => 8) (2048 : Nat) s = .ok ((r, f'), t) ∧
    Reports fullMount s fullOpen (fun _ => 8) r f' t := by
  obtain ⟨s,r,f',t,wf,cache,file,-,run⟩ := filewrite_full 2048
  exact ⟨s, r, f', t, wf, run, (filewrite_reports_iff (by decide) wf cache file run).mpr
    (.inr (.inr (.inl (by decide))))⟩

/-- The second chunk would go one byte beyond MAXFILE blocks: filewrite returns -1, but the first
    chunk has been written and the offset has moved. -/
theorem second_chunk_refused : ∃ s f' t, WellFormed fullMount.sb s.disk ∧ Cache fullMount s ∧
    (dinode fullMount.sb s.disk (s.icache fullOpen.ip).inum).type ≠ tDev ∧
    filewrite fullMount fullOpen (fun _ => 8) (2049 : Nat) s = .ok ((-1, f'), t) ∧
    fullOpen.off.toNat < f'.off.toNat ∧ ¬ Reports fullMount s fullOpen (fun _ => 8) (-1) f' t := by
  obtain ⟨s,r,f',t,wf,cache,file,size,run⟩ := filewrite_full 2049
  obtain ⟨j,off,rfl,rfl,-,-,-,moved,-,first,all⟩ := filewrite_ok rfl wf cache file run
  have begun : 0 < j := (first (by decide)).mpr (by
    rw [size]
    decide)
  have short : j ≠ 2049 := fun eq => absurd ((all (by decide)).mp eq).2 (by decide)
  rw [if_neg short] at run
  have later : fullOpen.off.toNat < off.toNat := by omega
  refine ⟨s, _, t, wf, cache, file, run, later, fun reports => ?_⟩
  have still := reports.1
  simp only at still
  omega

end FsCalls
