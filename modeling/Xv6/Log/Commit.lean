import Mathlib.Data.List.Nodup
import Xv6.Lib.DiskWrites
import Xv6.Param

/- The write-ahead log of log.c: the header block, commit() and recover_from_log(). Each
   function is the list of the disk writes it issues, in program order, with the data each
   one gets from bread; a crash cuts the list off. -/
namespace DiskLog
open DiskWrites Param

abbrev wordsPerBlock : Nat := 128

abbrev Block := Fin wordsPerBlock → UInt32

structure Log where
  start : Nat
  size : Nat

def Log.Area (lg : Log) (b : Nat) : Prop := lg.start ≤ b ∧ b < lg.start + lg.size

instance (lg : Log) (b : Nat) : Decidable (lg.Area b) := inferInstanceAs (Decidable (_ ∧ _))

/-- How often a loop over `i < lh->n` runs; `n` is a signed word. -/
def headCount (hb : Block) : Nat := (hb 0).toInt32.toInt.toNat

def headBlock (hb : Block) (i : Nat) : Nat :=
  if h : i + 1 < wordsPerBlock then (hb ⟨i + 1, h⟩).toNat else 0

def readHead (hb : Block) : List Nat := (List.range (headCount hb)).map (headBlock hb)

def headData (blocks : List Nat) (old : Block) : Block := fun w =>
  if w.val = 0 then UInt32.ofNat blocks.length
  else match blocks[w.val - 1]? with
    | some b => UInt32.ofNat b
    | none => old w

def writeLog (lg : Log) (home : List Nat) : List (Write Nat Block) :=
  home.zipIdx.map fun e => ⟨lg.start + e.2 + 1, fun bread => bread e.1⟩

def writeHead (lg : Log) (home : List Nat) : Write Nat Block :=
  ⟨lg.start, fun bread => headData home (bread lg.start)⟩

def installTrans (lg : Log) (home : List Nat) : List (Write Nat Block) :=
  home.zipIdx.map fun e => ⟨e.1, fun bread => bread (lg.start + e.2 + 1)⟩

def commit (lg : Log) (home : List Nat) : List (Write Nat Block) :=
  if home.length > 0 then
    writeLog lg home ++ (writeHead lg home :: (installTrans lg home ++ [writeHead lg []]))
  else []

def recoverFromLog (lg : Log) (d : Nat → Block) : List (Write Nat Block) :=
  installTrans lg (readHead (d lg.start)) ++ [writeHead lg []]

def cutCommit (lg : Log) (home : List Nat) (s : Store Nat Block) (cut : Nat) : Nat → Block :=
  (run s ((commit lg home).take cut)).disk

def cutRecovery (lg : Log) (d : Nat → Block) (cut : Nat) : Nat → Block :=
  (run (reboot d) ((recoverFromLog lg d).take cut)).disk

def recovered (lg : Log) (d : Nat → Block) : Nat → Block :=
  (run (reboot d) (recoverFromLog lg d)).disk

/-- The blocks of one commit, as the array of the header holds them: different blocks
    outside the log, at most LOGSIZE of them. -/
structure Transaction (lg : Log) where
  home : List Nat
  distinct : home.Nodup
  outside : ∀ b ∈ home, ¬ lg.Area b
  fits : home.length ≤ logSize
  small : ∀ b ∈ home, b < 2 ^ 32

/-- The copies of the blocks have room in the log behind its header, as the second test of
    `log_write` is to ensure. commit() itself tests nothing. -/
structure RoomyTransaction (lg : Log) extends Transaction lg where
  room : home.length < lg.size

theorem headCount_headData (blocks : List Nat) (old : Block) (short : blocks.length ≤ logSize) :
    headCount (headData blocks old) = blocks.length := by
  have small : ∀ n : Fin 31, (UInt32.ofNat n).toInt32.toInt.toNat = n := by decide
  exact small ⟨blocks.length,Nat.lt_succ_of_le short⟩

theorem readHead_headData {blocks : List Nat} (short : blocks.length ≤ logSize)
    (small : ∀ b ∈ blocks, b < 2 ^ 32) (old : Block) :
    readHead (headData blocks old) = blocks := by
  apply List.ext_getElem
  · simp [readHead, headCount_headData blocks old short]
  · intro i hi hi'
    have inside : i + 1 < wordsPerBlock := by
      have bound : blocks.length ≤ 30 := short
      unfold wordsPerBlock
      omega
    have word := small _ (List.getElem_mem hi')
    have back : (UInt32.ofNat blocks[i]).toNat = blocks[i] := by
      rw [UInt32.toNat_ofNat']
      exact Nat.mod_eq_of_lt word
    simp only [readHead, List.getElem_map, List.getElem_range, headBlock, inside, ↓reduceDIte,
      headData, Nat.add_eq_zero_iff, Nat.one_ne_zero, and_false, ↓reduceIte,
      Nat.add_sub_cancel, List.getElem?_eq_getElem hi', back]

theorem readHead_clear {hb : Block} (clear : headCount hb = 0) : readHead hb = [] := by
  simp [readHead, clear]

structure Untouched (lg : Log) (old d : Nat → Block) : Prop where
  clear : headCount (d lg.start) = 0
  kept : ∀ b, ¬ lg.Area b → d b = old b

/-- The header names the home blocks and the log holds their new contents; the home blocks
    themselves may hold anything. -/
structure Committed (lg : Log) (home : List Nat) (old new d : Nat → Block) : Prop where
  head : readHead (d lg.start) = home
  logged : ∀ i b, home[i]? = some b → d (lg.start + i + 1) = new b
  kept : ∀ b, ¬ lg.Area b → b ∉ home → d b = old b

structure Installed (lg : Log) (home : List Nat) (old new d : Nat → Block) : Prop where
  clear : headCount (d lg.start) = 0
  installed : ∀ b ∈ home, d b = new b
  kept : ∀ b, ¬ lg.Area b → b ∉ home → d b = old b

section
variable {lg : Log} {old new d : Nat → Block}

theorem installTrans_targets (home : List Nat) :
    (installTrans lg home).map Write.target = home := by
  simp [installTrans, Function.comp_def]

variable {home : List Nat}

theorem mem_installTrans {w : Write Nat Block}
    (mem : w ∈ installTrans lg home) :
    ∃ i b, home[i]? = some b ∧ w = ⟨b,fun bread => bread (lg.start + i + 1)⟩ := by
  obtain ⟨⟨b,i⟩,listed,rfl⟩ := List.mem_map.mp mem
  exact ⟨i,b,List.mem_zipIdx_iff_getElem?.mp listed,rfl⟩

theorem mem_writeLog {w : Write Nat Block} (mem : w ∈ writeLog lg home) :
    ∃ i b, home[i]? = some b ∧ w = ⟨lg.start + i + 1,fun bread => bread b⟩ := by
  obtain ⟨⟨b,i⟩,listed,rfl⟩ := List.mem_map.mp mem
  exact ⟨i,b,List.mem_zipIdx_iff_getElem?.mp listed,rfl⟩

theorem area_start (txn : RoomyTransaction lg) : lg.Area lg.start := by
  have room := txn.room
  unfold Log.Area
  omega

theorem area_slot (txn : RoomyTransaction lg) {i b : Nat} (listed : txn.home[i]? = some b) :
    lg.Area (lg.start + i + 1) := by
  have room := txn.room
  obtain ⟨inside,_⟩ := List.getElem?_eq_some_iff.mp listed
  unfold Log.Area
  omega

theorem writeLog_distinct (home : List Nat) : ((writeLog lg home).map Write.target).Nodup := by
  have targets : (writeLog lg home).map Write.target =
      (home.zipIdx.map Prod.snd).map fun i => lg.start + i + 1 := by
    simp only [writeLog, List.map_map, Function.comp_def]
  rw [targets, List.zipIdx_map_snd]
  refine List.Nodup.map (fun i j same => ?_) List.nodup_range'
  omega

theorem writeLog_run {s : Store Nat Block}
    (apart : ∀ b ∈ home, ∀ i < home.length, b ≠ lg.start + i + 1) {i b : Nat}
    (listed : home[i]? = some b) :
    (run s (writeLog lg home)).disk (lg.start + i + 1) = s.cache b ∧
      (run s (writeLog lg home)).cache (lg.start + i + 1) = s.cache b := by
  have mem : (⟨lg.start + i + 1,fun bread => bread b⟩ : Write Nat Block) ∈ writeLog lg home :=
    List.mem_map.mpr ⟨(b,i),List.mem_zipIdx_iff_getElem?.mpr listed,rfl⟩
  refine run_independent (writeLog_distinct home) ?_ mem
  intro w mem c c' agree
  obtain ⟨j,x,there,rfl⟩ := mem_writeLog mem
  apply agree
  intro among
  obtain ⟨v,inside,same⟩ := List.mem_map.mp among
  obtain ⟨k,y,other,rfl⟩ := mem_writeLog inside
  obtain ⟨short,_⟩ := List.getElem?_eq_some_iff.mp other
  exact apart x (List.mem_of_getElem? there) k short same.symm

theorem home_apart (txn : RoomyTransaction lg) :
    ∀ b ∈ txn.home, ∀ i < txn.home.length, b ≠ lg.start + i + 1 := by
  rintro b mem i short rfl
  exact txn.outside _ mem (area_slot txn (List.getElem?_eq_getElem short))

theorem installTrans_run (txn : RoomyTransaction lg) (s : Store Nat Block) {i b : Nat}
    (listed : txn.home[i]? = some b) :
    (run s (installTrans lg txn.home)).disk b = s.cache (lg.start + i + 1) := by
  have mem : (⟨b,fun bread => bread (lg.start + i + 1)⟩ : Write Nat Block) ∈
      installTrans lg txn.home :=
    List.mem_map.mpr ⟨(b,i),List.mem_zipIdx_iff_getElem?.mpr listed,rfl⟩
  have distinct : ((installTrans lg txn.home).map Write.target).Nodup := by
    rw [installTrans_targets]
    exact txn.distinct
  refine (run_independent distinct ?_ mem).1
  intro w mem c c' agree
  obtain ⟨j,x,there,rfl⟩ := mem_installTrans mem
  apply agree
  rw [installTrans_targets]
  intro among
  exact txn.outside _ among (area_slot txn there)

variable {s : Store Nat Block}

theorem installTrans_other {b : Nat} (other : b ∉ home)
    (k : Nat) : (run s ((installTrans lg home).take k)).disk b = s.disk b := by
  refine (run_other fun w mem same => other ?_).1
  obtain ⟨i,x,listed,rfl⟩ := mem_installTrans (List.mem_of_mem_take mem)
  exact same ▸ List.mem_of_getElem? listed

theorem writeHead_clears (lg : Log) (s : Store Nat Block) :
    headCount ((issue s (writeHead lg [])).disk lg.start) = 0 ∧
      ∀ b, b ≠ lg.start → (issue s (writeHead lg [])).disk b = s.disk b := by
  constructor
  · simp only [issue, writeHead, Function.update_self]
    exact headCount_headData [] _ (Nat.zero_le _)
  · intro b other
    simp [issue, writeHead, other]

theorem committed_prefix (txn : RoomyTransaction lg)
    (committed : Committed lg txn.home old new s.disk) (k : Nat) :
    Committed lg txn.home old new (run s ((installTrans lg txn.home).take k)).disk := by
  have same : ∀ b, b ∉ txn.home →
      (run s ((installTrans lg txn.home).take k)).disk b = s.disk b :=
    fun b other => installTrans_other other k
  refine ⟨?_, fun i b listed => ?_, fun b free other => ?_⟩
  · rw [same _ fun mem => txn.outside _ mem (area_start txn)]
    exact committed.head
  · rw [same _ fun mem => txn.outside _ mem (area_slot txn listed)]
    exact committed.logged i b listed
  · rw [same b other]
    exact committed.kept b free other

theorem installed_of_committed (txn : RoomyTransaction lg)
    (committed : Committed lg txn.home old new s.disk)
    (cached : ∀ i b, txn.home[i]? = some b → s.cache (lg.start + i + 1) = new b) :
    Installed lg txn.home old new
      (run s (installTrans lg txn.home ++ [writeHead lg []])).disk := by
  have ready : Committed lg txn.home old new (run s (installTrans lg txn.home)).disk := by
    have all := committed_prefix txn committed (installTrans lg txn.home).length
    rwa [List.take_length] at all
  rw [run_append]
  obtain ⟨clear,rest⟩ := writeHead_clears lg (run s (installTrans lg txn.home))
  refine ⟨clear, fun b mem => ?_, fun b free other => ?_⟩
  · obtain ⟨i,listed⟩ := List.getElem?_of_mem mem
    have home : b ≠ lg.start := fun same => txn.outside b mem (same ▸ area_start txn)
    rw [← cached i b listed, ← installTrans_run txn s listed]
    exact rest b home
  · have home : b ≠ lg.start := fun same => free (same ▸ area_start txn)
    rw [← ready.kept b free other]
    exact rest b home

theorem committed_cut (txn : RoomyTransaction lg)
    (committed : Committed lg txn.home old new s.disk)
    (cached : ∀ i b, txn.home[i]? = some b → s.cache (lg.start + i + 1) = new b) (k : Nat) :
    Committed lg txn.home old new
        (run s ((installTrans lg txn.home ++ [writeHead lg []]).take k)).disk ∨
      Installed lg txn.home old new
        (run s ((installTrans lg txn.home ++ [writeHead lg []]).take k)).disk := by
  by_cases before : k ≤ (installTrans lg txn.home).length
  · left
    rw [List.take_append_of_le_length before]
    exact committed_prefix txn committed k
  · right
    rw [List.take_of_length_le (by simp; omega)]
    exact installed_of_committed txn committed cached

theorem cutCommit_before (txn : RoomyTransaction lg) (s : Store Nat Block)
    (clear : headCount (s.disk lg.start) = 0) {cut : Nat} (early : cut ≤ txn.home.length) :
    Untouched lg s.disk (cutCommit lg txn.home s cut) := by
  have slots : ∀ w ∈ (commit lg txn.home).take cut, lg.Area w.target ∧ w.target ≠ lg.start := by
    intro w mem
    unfold commit at mem
    split at mem
    · rw [List.take_append_of_le_length (by simpa [writeLog] using early)] at mem
      obtain ⟨i,b,listed,rfl⟩ := mem_writeLog (List.mem_of_mem_take mem)
      exact ⟨area_slot txn listed,by dsimp only; omega⟩
    · simp at mem
  unfold cutCommit
  refine ⟨?_, fun b free => ?_⟩
  · rw [(run_other fun w mem => (slots w mem).2).1]
    exact clear
  · exact (run_other (a := b) fun w mem same => free (same ▸ (slots w mem).1)).1

theorem cutCommit_after (txn : RoomyTransaction lg) (s : Store Nat Block) {cut : Nat}
    (nonempty : 0 < txn.home.length) (late : txn.home.length < cut) :
    Committed lg txn.home s.disk s.cache (cutCommit lg txn.home s cut) ∨
      Installed lg txn.home s.disk s.cache (cutCommit lg txn.home s cut) := by
  have writes : (commit lg txn.home).take cut = writeLog lg txn.home ++ (writeHead lg txn.home ::
      (installTrans lg txn.home ++ [writeHead lg []]).take (cut - txn.home.length - 1)) := by
    have length : (writeLog lg txn.home).length = txn.home.length := by simp [writeLog]
    obtain ⟨more,rfl⟩ := Nat.exists_eq_add_of_lt late
    rw [commit, if_pos nonempty, List.take_append, length, List.take_of_length_le (by omega)]
    congr 1
    rw [show txn.home.length + more + 1 - txn.home.length = more + 1 by omega]
    rfl
  have off : ∀ b, ¬ lg.Area b → (run s (writeLog lg txn.home)).disk b = s.disk b := by
    intro b free
    refine (run_other fun w mem same => ?_).1
    obtain ⟨i,x,listed,rfl⟩ := mem_writeLog mem
    exact free (same ▸ area_slot txn listed)
  unfold cutCommit
  rw [writes, run_append]
  apply committed_cut txn (s := issue (run s (writeLog lg txn.home)) (writeHead lg txn.home))
  · refine ⟨?_, fun i b listed => ?_, fun b free _ => ?_⟩
    · simp only [issue, writeHead, Function.update_self]
      exact readHead_headData txn.fits txn.small _
    · have other : lg.start + i + 1 ≠ lg.start := by omega
      simpa [issue, writeHead, other] using (writeLog_run (home_apart txn) listed).1
    · have other : b ≠ lg.start := fun same => free (same ▸ area_start txn)
      simpa [issue, writeHead, other] using off b free
  · intro i b listed
    have other : lg.start + i + 1 ≠ lg.start := by omega
    simpa [issue, writeHead, other] using (writeLog_run (home_apart txn) listed).2

theorem recovered_eq_cut (d : Nat → Block) :
    recovered lg d = cutRecovery lg d (recoverFromLog lg d).length := by
  simp [recovered, cutRecovery]

theorem recovery_of_clear (clear : headCount (d lg.start) = 0) (cut : Nat) :
    headCount (cutRecovery lg d cut lg.start) = 0 ∧
      ∀ b, b ≠ lg.start → cutRecovery lg d cut b = d b := by
  have writes : recoverFromLog lg d = [writeHead lg []] := by
    rw [recoverFromLog, readHead_clear clear]
    rfl
  unfold cutRecovery
  rw [writes]
  cases cut with
  | zero =>
    rw [List.take_zero]
    exact ⟨clear,fun _ _ => rfl⟩
  | succ k =>
    rw [List.take_succ_cons, List.take_nil]
    exact writeHead_clears lg (reboot d)

theorem untouched_recovery (txn : RoomyTransaction lg) (untouched : Untouched lg old d)
    (cut : Nat) :
    Untouched lg old (cutRecovery lg d cut) := by
  obtain ⟨clear,same⟩ := recovery_of_clear untouched.clear cut
  refine ⟨clear, fun b free => ?_⟩
  rw [same b fun eq => free (eq ▸ area_start txn)]
  exact untouched.kept b free

theorem committed_recovery (txn : RoomyTransaction lg)
    (committed : Committed lg txn.home old new d) (cut : Nat) :
    Committed lg txn.home old new (cutRecovery lg d cut) ∨
      Installed lg txn.home old new (cutRecovery lg d cut) := by
  unfold cutRecovery recoverFromLog
  rw [committed.head]
  exact committed_cut txn (s := reboot d) committed committed.logged cut

theorem installed_recovery (txn : RoomyTransaction lg)
    (installed : Installed lg txn.home old new d) (cut : Nat) :
    Installed lg txn.home old new (cutRecovery lg d cut) := by
  obtain ⟨clear,same⟩ := recovery_of_clear installed.clear cut
  refine ⟨clear, fun b mem => ?_, fun b free other => ?_⟩
  · rw [same b fun eq => txn.outside b mem (eq ▸ area_start txn)]
    exact installed.installed b mem
  · rw [same b fun eq => free (eq ▸ area_start txn)]
    exact installed.kept b free other

theorem installed_recovered (txn : RoomyTransaction lg)
    (state : Committed lg txn.home old new d ∨ Installed lg txn.home old new d) :
    Installed lg txn.home old new (recovered lg d) := by
  rcases state with committed | installed
  · unfold recovered recoverFromLog
    rw [committed.head]
    exact installed_of_committed txn (s := reboot d) committed committed.logged
  · rw [recovered_eq_cut]
    exact installed_recovery txn installed _

theorem untouched_recoveries (txn : RoomyTransaction lg) (cuts : List Nat)
    (untouched : Untouched lg old d) : Untouched lg old (cuts.foldl (cutRecovery lg) d) := by
  induction cuts generalizing d with
  | nil => exact untouched
  | cons cut cuts ih => exact ih (untouched_recovery txn untouched cut)

theorem committed_recoveries (txn : RoomyTransaction lg) (cuts : List Nat)
    (state : Committed lg txn.home old new d ∨ Installed lg txn.home old new d) :
    Committed lg txn.home old new (cuts.foldl (cutRecovery lg) d) ∨
      Installed lg txn.home old new (cuts.foldl (cutRecovery lg) d) := by
  induction cuts generalizing d with
  | nil => exact state
  | cons cut cuts ih =>
    apply ih
    rcases state with committed | installed
    · exact committed_recovery txn committed cut
    · exact Or.inr (installed_recovery txn installed cut)

end

/-- The disk after a commit of `home` that was cut off after `cut` writes, recoveries cut off
    after `cuts` writes and one that completes. -/
def afterCrashes (lg : Log) (home : List Nat) (s : Store Nat Block) (cut : Nat)
    (cuts : List Nat) : Nat → Block :=
  recovered lg (cuts.foldl (cutRecovery lg) (cutCommit lg home s cut))

/-- All home blocks new if the header reached the disk, all of them old if not; the header
    is write number `home.length`, counted from 0. Nothing else changes outside the log, and
    the header is clear. -/
def CrashAtomic (lg : Log) (home : List Nat) (s : Store Nat Block) (cut : Nat)
    (cuts : List Nat) : Prop :=
  (∀ b ∈ home, afterCrashes lg home s cut cuts b =
    if home.length < cut then s.cache b else s.disk b) ∧
  (∀ b, ¬ lg.Area b → b ∉ home → afterCrashes lg home s cut cuts b = s.disk b) ∧
  headCount (afterCrashes lg home s cut cuts lg.start) = 0

/-- Wherever commit and any number of recoveries are cut off, a recovery that completes finds
    a transaction that has room in the log whole. -/
theorem crash_atomic (lg : Log) (txn : Transaction lg) (room : txn.home.length < lg.size)
    (disk cache : Nat → Block) (clear : headCount (disk lg.start) = 0) (cut : Nat)
    (cuts : List Nat) : CrashAtomic lg txn.home ⟨disk,cache⟩ cut cuts := by
  by_cases late : 0 < txn.home.length ∧ txn.home.length < cut
  · have state := committed_recoveries ⟨txn,room⟩ cuts
      (cutCommit_after ⟨txn,room⟩ ⟨disk,cache⟩ late.1 late.2)
    have final := installed_recovered ⟨txn,room⟩ state
    refine ⟨fun b mem => ?_, final.kept, final.clear⟩
    rw [if_pos late.2]
    exact final.installed b mem
  · -- an empty transaction writes nothing: it ends as one that was cut off at once
    have early : cutCommit lg txn.home ⟨disk,cache⟩ cut =
        cutCommit lg txn.home ⟨disk,cache⟩ (min cut txn.home.length) := by
      by_cases none : txn.home.length = 0
      · simp [cutCommit, commit, none]
      · rw [Nat.min_eq_left (by omega)]
    have state := untouched_recoveries ⟨txn,room⟩ cuts (early ▸ cutCommit_before ⟨txn,room⟩
      ⟨disk,cache⟩ clear (Nat.min_le_right cut txn.home.length))
    have final : Untouched lg disk (afterCrashes lg txn.home ⟨disk,cache⟩ cut cuts) := by
      unfold afterCrashes
      rw [recovered_eq_cut]
      exact untouched_recovery ⟨txn,room⟩ state _
    refine ⟨fun b mem => ?_, fun b free _ => final.kept b free, final.clear⟩
    have nonempty : 0 < txn.home.length := List.length_pos_of_mem mem
    rw [if_neg (by omega)]
    exact final.kept b (txn.outside b mem)

def twoBlocks : Transaction ⟨2,logSize⟩ where
  home := [58, 400]
  distinct := by decide
  outside := by decide
  fits := by decide
  small := by decide

theorem crash_atomic_after_header :
    headCount ((fun _ _ => 0 : Nat → Block) 2) = 0 ∧
      ∀ b ∈ [58, 400], afterCrashes ⟨2,logSize⟩ [58, 400]
        ⟨fun _ _ => 0,fun b _ => UInt32.ofNat b⟩ 3 [1, 0] b = fun _ => UInt32.ofNat b := by
  refine ⟨by decide, ?_⟩
  have final := crash_atomic ⟨2,logSize⟩ twoBlocks (by decide) (fun _ _ => 0)
    (fun b _ => UInt32.ofNat b) (by decide) 3 [1, 0]
  exact final.1

/-- A commit cut off before the header, of as many blocks as the log has, leaves the copy of
    the last one in the block behind the log. -/
theorem full_log_spills (lg : Log) (home : List Nat) (s : Store Nat Block) {last : Nat}
    (full : home.length = lg.size)
    (apart : ∀ b ∈ home, ∀ i < home.length, b ≠ lg.start + i + 1)
    (listed : home[lg.size - 1]? = some last) (clear : headCount (s.disk lg.start) = 0) :
    afterCrashes lg home s home.length [] (lg.start + lg.size) = s.cache last := by
  obtain ⟨inside,_⟩ := List.getElem?_eq_some_iff.mp listed
  have writes : (commit lg home).take home.length = writeLog lg home := by
    have length : (writeLog lg home).length = home.length := by simp [writeLog]
    rw [commit, if_pos (by omega), ← length, List.take_left]
  have header : cutCommit lg home s home.length lg.start = s.disk lg.start := by
    unfold cutCommit
    rw [writes]
    refine (run_other fun w mem same => ?_).1
    obtain ⟨i,b,_,rfl⟩ := mem_writeLog mem
    dsimp only at same
    omega
  have copy := (writeLog_run (s := s) apart listed).1
  rw [show lg.start + (lg.size - 1) + 1 = lg.start + lg.size by omega, ← writes] at copy
  rw [← copy]
  unfold afterCrashes
  rw [List.foldl_nil, recovered_eq_cut]
  exact (recovery_of_clear (header ▸ clear) _).2 _ (by omega)

def fillingBlocks (size : Fin logSize) : Transaction ⟨2,size + 1⟩ where
  home := List.range' 100 (size + 1)
  distinct := List.nodup_range'
  outside := by
    intro b mem
    have bound : size.val < 30 := size.isLt
    have low := (List.mem_range'_1.mp mem).1
    unfold Log.Area
    dsimp only
    omega
  fits := by
    rw [List.length_range']
    exact size.isLt
  small := by
    intro b mem
    have bound : size.val < 30 := size.isLt
    have high := (List.mem_range'_1.mp mem).2
    omega

theorem filled_log_not_atomic (size : Fin logSize) :
    ¬ CrashAtomic ⟨2,size + 1⟩ (fillingBlocks size).home ⟨fun _ _ => 0,fun _ _ => 1⟩
      (fillingBlocks size).home.length [] := by
  intro atomic
  have bound : size.val < 30 := size.isLt
  have length : (fillingBlocks size).home.length = size + 1 := List.length_range'
  have far : ∀ b ∈ (fillingBlocks size).home, 100 ≤ b := fun b mem =>
    (List.mem_range'_1.mp mem).1
  have clear : headCount (fun _ => 0) = 0 := by decide
  have listed : (fillingBlocks size).home[size.val + 1 - 1]? = some (100 + size.val) := by
    simp [fillingBlocks]
  have spilled := full_log_spills ⟨2,size + 1⟩ (fillingBlocks size).home
    ⟨fun _ _ => 0,fun _ _ => 1⟩ length
    (fun b mem i short => by have := far b mem; dsimp only; omega) listed clear
  have behind : ¬ Log.Area ⟨2,size + 1⟩ (2 + (size + 1)) := by
    unfold Log.Area
    dsimp only
    omega
  have kept := atomic.2.1 _ behind fun mem => by have := far _ mem; omega
  have same : (1 : UInt32) = 0 := congrFun (spilled.symm.trans kept) 0
  exact absurd same (by decide)

/-- The log of mkfs, and a transaction of LOGSIZE blocks. -/
theorem full_log_not_atomic :
    ¬ ∀ (txn : Transaction ⟨2,logSize⟩) (disk cache : Nat → Block),
      headCount (disk 2) = 0 → ∀ cut cuts,
        CrashAtomic ⟨2,logSize⟩ txn.home ⟨disk,cache⟩ cut cuts := fun always =>
  filled_log_not_atomic ⟨29, by decide⟩
    (always (fillingBlocks ⟨29, by decide⟩) _ _ (by decide) _ _)

end DiskLog
