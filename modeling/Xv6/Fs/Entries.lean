import Mathlib.Logic.Relation
import Xv6.Fs.Lookup

/- A directory over whole runs: entries come by dirlink and go by unlink, and other calls run in
   between. The directory is a map from names to inode numbers. -/
namespace FsNames
open Bytes FsDisk FsInode FsContent FsIcache FsDirectory FsCache Panics SlotMap

variable {k : Mount} {s t u : Fs} {dp ip : Slot} {name : List UInt8} {i : Nat}

def table (k : Mount) (s : Fs) (i : Nat) : Table (List UInt8) Nat :=
  records (content s.disk (dinode k.sb s.disk i))

structure Directory (k : Mount) (s : Fs) (i : Nat) : Prop where
  wf : WellFormed k.sb s.disk
  cache : Cache k s
  dir : (dinode k.sb s.disk i).type = tDir
  aligned : (dinode k.sb s.disk i).size.toNat % 16 = 0
  unique : Unique (table k s i)

def Holds (s : Fs) (i : Nat) (dp : Slot) : Prop :=
  (s.icache dp).inum = i ∧ (s.icache dp).lock = true

/-- What other calls, and the other parts of the same calls, leave of directory `i`: its content.
    Its lock, its link count and its slot may change. -/
structure Kept (k : Mount) (s : Fs) (i : Nat) (t : Fs) : Prop where
  wf : WellFormed k.sb t.disk
  cache : Cache k t
  type : (dinode k.sb t.disk i).type = (dinode k.sb s.disk i).type
  bytes : content t.disk (dinode k.sb t.disk i) = content s.disk (dinode k.sb s.disk i)

/-- One step in the life of directory `i`. The removal of an entry is that of sys_unlink, which
    looks at the inode it has found before it clears the entry. -/
inductive Step (k : Mount) (i : Nat) : Fs → Fs → Prop
  | link {s t : Fs} {dp : Slot} {name : List UInt8} {inum : Nat} (holder : Holds s i
    dp) (positive : 1 ≤ inum) (small : inum ≤ 65535)
      (run : dirlink k dp name inum s = .ok (true, t)) : Step k i s t
  | unlink {s u v t : Fs} {dp ip : Slot} {name : List UInt8} {off : UInt32} (holder : Holds s i dp)
      (found : dirlookup k dp name s = .ok (some (ip, off), u)) (kept : Kept k u i v)
      (still : Holds v i dp)
      (run : FsCalls.clearDirent k dp off v = .ok ((), t)) : Step k i s t
  | other {s t : Fs} (kept : Kept k s i t) : Step k i s t

theorem Directory.openDir (directory : Directory k s i) (holder : Holds s i dp) :
    OpenDir k s dp ∧ names s dp = table k s i := by
  obtain ⟨name,locked⟩ := holder
  obtain ⟨held,valid⟩ := directory.cache.locked dp locked
  have copy := (directory.cache.copies dp held valid).1
  rw [name] at copy
  refine ⟨⟨directory.wf, directory.cache, locked, ?_, ?_⟩, ?_⟩
  · rw [copy]
    exact directory.dir
  · rw [copy]
    exact directory.aligned
  · rw [names, copy]
    rfl

theorem OpenDir.directory (open_ : OpenDir k s dp) (here : (s.icache dp).inum = i)
    (unique : Unique (names s dp)) :
    Directory k s i ∧ table k s i = names s dp := by
  obtain ⟨-,-,copy⟩ := open_.held
  rw [here] at copy
  have same : table k s i = names s dp := by
    rw [names, copy]
    rfl
  exact ⟨⟨open_.wf, open_.cache, copy ▸ open_.dir, copy ▸ open_.aligned, same ▸ unique⟩, same⟩

theorem Kept.table (kept : Kept k s i t) : table k t i = table k s i := by
  rw [FsNames.table, kept.bytes, FsNames.table]

theorem Kept.directory (directory : Directory k s i) (kept : Kept k s i t) : Directory k t i := by
  have size : (dinode k.sb t.disk i).size.toNat = (dinode k.sb s.disk i).size.toNat := by
    rw [← length_content t.disk, kept.bytes, length_content]
  exact ⟨kept.wf, kept.cache, kept.type.trans directory.dir, size ▸ directory.aligned,
    kept.table ▸ directory.unique⟩

variable {inum : Nat}

theorem iget_disk {x : Slot} (run : iget inum s = .ok (x, t)) : t.disk = s.disk := by
  rw [(iget_effect run).after]
  rfl

theorem dirlookup_found (open_ : OpenDir k s dp) {off : UInt32}
    (run : dirlookup k dp name s = .ok (some (ip, off), t)) :
    ∃ r, find (names s dp) (canon name) = some r ∧ off = UInt32.ofNat (16 * r.1) ∧
      iget r.2 s = .ok (ip, t) := by
  rw [dirlookup_eq open_] at run
  cases found : find (names s dp) (canon name) with
  | none =>
    rw [found] at run
    cases run
  | some r =>
    rw [found, hit] at run
    obtain ⟨x,u,got,run⟩ := bind_ok run
    cases run
    exact ⟨r, rfl, rfl, got⟩

theorem dirlink_linked (open_ : OpenDir k s dp) (run : dirlink k dp name inum s = .ok (true, t)) :
    find (names s dp) (canon name) = none := by
  cases found : find (names s dp) (canon name) with
  | none => rfl
  | some r =>
    rw [dirlink_there open_ found] at run
    obtain ⟨x,u,-,run⟩ := bind_ok run
    obtain ⟨a,v,-,run⟩ := bind_ok run
    cases run

theorem directory_link (directory : Directory k s i) (holder : Holds s i dp) (positive : 1 ≤ inum)
    (small : inum ≤ 65535)
    (run : dirlink k dp name inum s = .ok (true, t)) :
    Directory k t i ∧ Holds t i dp ∧ find (table k s i) (canon name) = none ∧
      table k t i = put (table k s i) (vacancy (table k s i)) (some (canon name, inum)) := by
  obtain ⟨open_,same⟩ := directory.openDir holder
  have fresh := dirlink_linked open_ run
  obtain ⟨-,open',now,w,edited⟩ := dirlink_new open_ positive (Nat.lt_succ_of_le small) fresh run
  have here : (t.icache dp).inum = i := by
    rw [edited.mine]
    exact holder.1
  have unique := directory.unique
  rw [← same] at unique ⊢
  obtain ⟨directory',same'⟩ := open'.directory here (now ▸ unique_put_vacancy unique fresh)
  exact ⟨directory', ⟨here, open'.locked⟩, fresh, same'.trans now⟩

theorem directory_unlink {v : Fs} (directory : Directory k s i) (holder : Holds s i dp)
    {off : UInt32}
    (found : dirlookup k dp name s = .ok (some (ip, off), u)) (kept : Kept k u i v)
    (still : Holds v i dp)
    (run : FsCalls.clearDirent k dp off v = .ok ((), t)) :
    Directory k t i ∧ ∃ r, find (table k s i) (canon name) = some r ∧
      table k t i = put (table k s i) r.1 none := by
  obtain ⟨open_,same⟩ := directory.openDir holder
  obtain ⟨r,there,rfl,got⟩ := dirlookup_found open_ found
  -- looking up has not changed the disk
  have disk := iget_disk got
  have kept' : Kept k s i v :=
    ⟨kept.wf, kept.cache, by rw [kept.type, disk], by rw [kept.bytes, disk]⟩
  have later := kept'.directory directory
  obtain ⟨open',same'⟩ := later.openDir still
  rw [same, ← kept'.table, ← same'] at there
  obtain ⟨open'',now,w,edited⟩ := clearDirent_ok open' there run
  have here : (t.icache dp).inum = i := by
    rw [edited.mine]
    exact still.1
  have unique := later.unique
  rw [← same'] at unique
  obtain ⟨directory',last⟩ := open''.directory here (now ▸ unique_put_none unique there)
  rw [same', kept'.table] at there
  refine ⟨directory', r, there, ?_⟩
  rw [last, now, same', kept'.table]

theorem directory_step (directory : Directory k s i) (step : Step k i s t) : Directory k t i := by
  cases step with
  | link holder positive small run => exact (directory_link directory holder positive small run).1
  | unlink holder found kept still run =>
    exact (directory_unlink directory holder found kept still run).1
  | other kept => exact kept.directory directory

theorem directory_run {s₀ : Fs} (start : Directory k s₀ i)
    (run : Relation.ReflTransGen (Step k i) s₀ s) : Directory k s i := by
  induction run with
  | refl => exact start
  | tail before step ih => exact directory_step ih step

/-- iput of the inode that iget has just returned never frees it: if the inode was cached there
    is another reference, and otherwise it has not been read. -/
theorem iget_iput {x : Slot} (got : iget inum s = .ok (x, t))
    (free : (s.icache x).lock = false) :
    ∃ u, iput k x t = .ok ((), u) := by
  have after := (iget_effect got).after
  have mine : t.icache x = { s.icache x with
      inum := inum, ref := (s.icache x).ref + 1, valid :=
        decide (0 < (s.icache x).ref) && (s.icache x).valid } := by
    rw [after, modify_self]
  refine ⟨_, iput_eq (by rw [mine]; exact free) ?_⟩
  rintro ⟨valid,-,one⟩
  rw [mine] at valid one
  simp only [Bool.and_eq_true, decide_eq_true_eq] at valid one
  have := valid.1
  omega

/-- The caller can take and give back a reference to inode `inum`: it does not hold the lock of
    that inode itself, and there is a slot for it. -/
def Admits (s : Fs) (inum : Nat) : Prop :=
  (∀ y, 0 < (s.icache y).ref → (s.icache y).inum = inum → (s.icache y).lock = false) ∧
  ((∃ y, (s.icache y).ref = 0) ∨ ∃ y, 0 < (s.icache y).ref ∧ (s.icache y).inum = inum)

theorem dirlink_refuses_iff (open_ : OpenDir k s dp) {r : Nat × Nat}
    (found : find (names s dp) (canon name) = some r) :
    (∃ t, dirlink k dp name inum s = .ok (false, t)) ↔ Admits s r.2 := by
  have cache := open_.cache
  rw [dirlink_there open_ found]
  constructor
  · rintro ⟨t,run⟩
    obtain ⟨x,u,got,run⟩ := bind_ok run
    obtain ⟨a,v,dropped,-⟩ := bind_ok run
    have spec := iget_effect got
    have free : (s.icache x).lock = false := by
      have := iput_unlocked dropped
      rwa [spec.after, modify_self] at this
    refine ⟨fun y held here => ?_, ?_⟩
    · by_cases mine : 0 < (s.icache x).ref
      · rw [cache.once y x held mine (here.trans (spec.held mine).symm)]
        exact free
      · exact absurd here ((spec.empty mine).2 y held)
    · by_cases mine : 0 < (s.icache x).ref
      · exact .inr ⟨x, mine, spec.held mine⟩
      · exact .inl ⟨x, (spec.empty mine).1⟩
  · rintro ⟨unlocked,room⟩
    obtain ⟨x,u,got⟩ := iget_total room
    have free : (s.icache x).lock = false := by
      cases locked : (s.icache x).lock with
      | false => rfl
      | true =>
        have held := (cache.locked x locked).1
        rw [unlocked x held ((iget_effect got).held held)] at locked
        cases locked
    obtain ⟨v,dropped⟩ := iget_iput got free
    rw [bind_of_ok got, bind_of_ok dropped]
    exact ⟨v, rfl⟩

def readPanics : List Stop := [.dirlookupRead, .dirlinkRead]

variable {e : Stop}

theorem iget_stops (run : iget inum s = .error e) : e ∉ readPanics := by
  unfold iget at run
  split at run
  · cases run
  · split at run
    · cases run
    · cases run
      decide

theorem iput_stops {x : Slot} (run : iput k x s = .error e) : e ∉ readPanics := by
  simp only [iput] at run
  split at run
  · cases run
    decide
  · split at run
    · split at run
      · cases run
        decide
      · cases run
    · cases run

theorem dirlookup_stops (open_ : OpenDir k s dp) (run : dirlookup k dp name s = .error e) :
    e ∉ readPanics := by
  rw [dirlookup_eq open_] at run
  cases found : find (names s dp) (canon name) with
  | none =>
    rw [found] at run
    cases run
  | some r =>
    rw [found, hit] at run
    rcases bind_error run with stopped | ⟨x,u,-,run⟩
    · exact iget_stops stopped
    · cases run

theorem storeDirent_stops {panic : Stop} (other : panic ∉ readPanics) {de : Dirent} {off : UInt32}
    (file : (s.icache dp).din.type ≠ tDev)
    (run : storeDirent k panic dp de off s = .error e) : e ∉ readPanics := by
  rcases bind_error run with stopped | ⟨r,u,-,run⟩
  · simp only [FsIcache.writei, if_neg file] at stopped
    split at stopped
    · cases stopped
      decide
    · cases stopped
  · split at run
    · split at run
      · cases run
      · cases run
        exact other
    · cases run
      exact other

theorem dirlink_stops (open_ : OpenDir k s dp) (run : dirlink k dp name inum s = .error e) :
    e ∉ readPanics := by
  cases found : find (names s dp) (canon name) with
  | some r =>
    rw [dirlink_there open_ found] at run
    rcases bind_error run with stopped | ⟨x,u,-,run⟩
    · exact iget_stops stopped
    · rcases bind_error run with stopped | ⟨a,v,-,run⟩
      · exact iput_stops stopped
      · cases run
  | none =>
    have absent : dirlookup k dp name s = .ok (none, s) := by
      rw [dirlookup_eq open_, found]
      rfl
    have spot : emptyFrom k dp (entries (s.icache dp).din) 0 s = _ :=
      emptyFrom_eq open_ (i := 0) (by rw [Nat.zero_add, entries_aligned open_])
    unfold dirlink at run
    rw [bind_of_ok absent] at run
    simp only at run
    rw [bind_of_ok (show look dp s = .ok (s.icache dp, s) from rfl), bind_of_ok spot] at run
    rcases bind_error run with stopped | ⟨a,v,-,run⟩
    · exact storeDirent_stops (by decide) open_.file stopped
    · cases run

/-- Directories are maps with unique names. In every state of every run: the size is a multiple
    of an entry's and no name is in two entries; the panics after readi are not reached; dirlink
    returns -1 exactly for the names that are there if and only if the caller can take a reference
    to the inode that the entry names; a name that was linked is found with its number, and the
    other names are found as before, also when a name is unlinked. -/
theorem directory_is_map (k : Mount) (i : Nat) (s₀ s : Fs) (start : Directory k s₀ i)
    (run : Relation.ReflTransGen (Step k i) s₀ s) :
    (dinode k.sb s.disk i).size.toNat % 16 = 0 ∧
    (∀ (m n : Nat) (key : List UInt8) (a b : Nat), (table k s i)[m]? = some (some (key, a)) →
      (table k s i)[n]? = some (some (key, b)) → m = n) ∧
    ∀ dp, Holds s i dp → ∀ name,
      (∀ e, dirlookup k dp name s = .error e → e ∉ readPanics) ∧
      (∀ inum e, dirlink k dp name inum s = .error e → e ∉ readPanics) ∧
      (∀ inum, ((∃ t, dirlink k dp name inum s = .ok (false, t)) ↔
        (find (table k s i) (canon name)).isSome = true) ↔
        ∀ r, find (table k s i) (canon name) = some r → Admits s r.2) ∧
      (∀ inum t, 1 ≤ inum → inum ≤ 65535 → dirlink k dp name inum s = .ok (true, t) →
        (∃ j, dirlookup k dp name t =
          (do let ip ← iget inum; pure (some (ip, UInt32.ofNat (16 * j)))) t) ∧
        ∀ other, canon other ≠ canon name →
          find (table k t i) (canon other) = find (table k s i) (canon other)) ∧
      ∀ ip off u v t, dirlookup k dp name s = .ok (some (ip, off), u) → Kept k u i v →
        Holds v i dp →
        FsCalls.clearDirent k dp off v = .ok ((), t) →
        find (table k t i) (canon name) = none ∧
        ∀ other, canon other ≠ canon name →
          find (table k t i) (canon other) = find (table k s i) (canon other) := by
  have directory := directory_run start run
  refine ⟨directory.aligned, fun m n key a b => unique_slots directory.unique,
    fun dp holder name => ?_⟩
  obtain ⟨open_,same⟩ := directory.openDir holder
  refine ⟨fun e => dirlookup_stops open_, fun inum e => dirlink_stops open_, fun inum => ?_,
    fun inum t positive small done => ?_,
    fun ip off u v t found kept still done => ?_⟩
  · rw [← same]
    cases found : find (names s dp) (canon name) with
    | none =>
      have never : ¬ ∃ t, dirlink k dp name inum s = .ok (false, t) := by
        rintro ⟨t,done⟩
        have absent : dirlookup k dp name s = .ok (none, s) := by
          rw [dirlookup_eq open_, found]
          rfl
        unfold dirlink at done
        rw [bind_of_ok absent] at done
        obtain ⟨_,_,-,done⟩ := bind_ok done
        obtain ⟨_,_,-,done⟩ := bind_ok done
        obtain ⟨_,_,-,done⟩ := bind_ok done
        cases done
      exact iff_of_true (iff_of_false never (by simp)) fun r eq => by cases eq
    | some r =>
      rw [dirlink_refuses_iff open_ found]
      simp
  · obtain ⟨directory',holder',fresh,now⟩ := directory_link directory holder positive small done
    obtain ⟨open',same'⟩ := directory'.openDir holder'
    refine ⟨⟨vacancy (table k s i), ?_⟩, fun other differs => ?_⟩
    · rw [dirlookup_eq open', same', now, find_put_vacancy fresh, if_pos rfl]
      rfl
    · rw [now, find_put_vacancy fresh, if_neg differs]
  · obtain ⟨-,r,there,now⟩ := directory_unlink directory holder found kept still done
    rw [now]
    refine ⟨?_, fun other differs => ?_⟩
    · rw [find_put_none directory.unique there, if_pos rfl]
    · rw [find_put_none directory.unique there, if_neg differs]

theorem dirlink_returns (open_ : OpenDir k s dp) (fresh : find (names s dp) (canon name) = none)
    (fits : ¬ Refused (s.icache dp).din (UInt32.ofNat (16 * vacancy (names s dp))) direntSize)
    (room : lacks s.disk (s.icache dp).din (UInt32.ofNat (16 * vacancy (names s dp))).toNat 16 ≤
      free k.sb s.disk) :
    ∃ t, dirlink k dp name inum s = .ok (true, t) := by
  have absent : dirlookup k dp name s = .ok (none, s) := by
    rw [dirlookup_eq open_, fresh]
    rfl
  have spot : emptyFrom k dp (entries (s.icache dp).din) 0 s = _ :=
    emptyFrom_eq open_ (i := 0) (by rw [Nat.zero_add, entries_aligned open_])
  rw [List.drop_zero, Nat.zero_add] at spot
  have sound := FsCalls.sound_of_wellFormed open_.wf open_.cache
  obtain ⟨r,t,written⟩ := writei_total sound open_.locked open_.file
    (fun i => (Dirent.bytes ⟨UInt16.ofNat inum, strncpy name dirsiz⟩).getD i 0)
    (UInt32.ofNat (16 * vacancy (names s dp))) direntSize fun _ => room
  rcases writei_edits sound open_.locked open_.file written with ⟨refused,-,-⟩ | ⟨-,rfl,-⟩
  · exact absurd refused fits
  have stored : storeDirent k .dirlink dp ⟨UInt16.ofNat inum, strncpy name dirsiz⟩
      (UInt32.ofNat (16 * vacancy (names s dp))) s = .ok ((), t) := by
    unfold storeDirent
    rw [bind_of_ok written]
    rfl
  unfold dirlink
  rw [bind_of_ok absent]
  simp only
  rw [bind_of_ok (show look dp s = .ok (s.icache dp, s) from rfl), bind_of_ok spot,
    bind_of_ok stored]
  exact ⟨t, rfl⟩

theorem dirlink_waits (open_ : OpenDir k s dp) {r : Nat × Nat}
    (found : find (names s dp) (canon name) = some r)
    (self : r.2 = (s.icache dp).inum) : dirlink k dp name inum s = .error .asleep := by
  obtain ⟨held,-,-⟩ := open_.held
  obtain ⟨x,u,got⟩ := iget_total (.inr ⟨dp, held, self.symm⟩)
  have spec := iget_effect got
  have mine : x = dp := by
    by_cases used : 0 < (s.icache x).ref
    · exact open_.cache.once x dp used held ((spec.held used).trans self)
    · exact absurd self.symm ((spec.empty used).2 dp held)
  subst mine
  have locked : (u.icache x).lock = true := by
    rw [spec.after, modify_self]
    exact open_.locked
  have waits : iput k x u = .error .asleep := by simp only [iput, locked, if_true]
  rw [dirlink_there open_ found, bind_of_ok got, bind_of_error waits]

def emptyDir (n : Nat) : Disk := writeDinode (tiny n) (blank (tiny n)) 1 (fresh tDir)

def dirMount : Mount := ⟨tiny 4, fun _ => ⟨none, none⟩⟩

def dirSlot : Slot := slot0

def lockedDir : Fs := (single (emptyDir 4) dirSlot 1).modify dirSlot
    (lockedCopy dirMount (single (emptyDir 4) dirSlot 1) dirSlot)

theorem lockedDir_ready : Directory dirMount lockedDir 1 ∧ Holds lockedDir 1 dirSlot ∧
    names lockedDir dirSlot = [] := by
  have layout : Layout (tiny 4) := layout_tiny (by decide)
  have wf : WellFormed (tiny 4) (emptyDir 4) := by
    refine wellFormed_ialloc (wellFormed_blank layout) (by decide) ?_ (hollow_fresh tDir)
    rw [dinode_blank layout (by decide)]
    rfl
  have here : dinode (tiny 4) (emptyDir 4) 1 = fresh tDir := by
    rw [emptyDir, dinode_writeDinode, if_pos rfl]
  have live :
      (dinode dirMount.sb (single (emptyDir 4) dirSlot 1).disk
        ((single (emptyDir 4) dirSlot 1).icache dirSlot).inum).type ≠ 0 := by
    show (dinode (tiny 4) (emptyDir 4) 1).type ≠ 0
    rw [here]
    decide
  have cache := (cache_single (k := dirMount) (x := dirSlot) (d := emptyDir 4)
    (show 1 < dirMount.sb.ninodes by decide)).lock (x := dirSlot) (by decide) live
  have empty : names lockedDir dirSlot = [] := by
    have copy : (lockedDir.icache dirSlot).din = fresh tDir := here
    rw [names, copy]
    rfl
  have open_ : OpenDir dirMount lockedDir dirSlot := by
    refine ⟨wf, cache, rfl, ?_, ?_⟩
    · show (dinode (tiny 4) (emptyDir 4) 1).type = tDir
      rw [here]
      rfl
    · show (dinode (tiny 4) (emptyDir 4) 1).size.toNat % 16 = 0
      rw [here]
      rfl
  have name : (lockedDir.icache dirSlot).inum = 1 := rfl
  exact ⟨(open_.directory name (by rw [empty]; trivial)).1, ⟨name, rfl⟩, empty⟩

theorem dot_linked : ∃ t, dirlink dirMount dirSlot FsCalls.dot 1 lockedDir = .ok (true, t) := by
  obtain ⟨directory,holder,empty⟩ := lockedDir_ready
  have copy : (lockedDir.icache dirSlot).din = fresh tDir := by
    show dinode (tiny 4) (emptyDir 4) 1 = fresh tDir
    rw [emptyDir, dinode_writeDinode, if_pos rfl]
  refine dirlink_returns (directory.openDir holder).1 (by rw [empty]; rfl) ?_ ?_
  · rw [empty, copy]
    simp only [Refused, fresh]
    decide
  · rw [empty, copy]
    decide +kernel

theorem directory_is_map_dot :
    ∃ s, Step dirMount 1 lockedDir s ∧ (dinode dirMount.sb s.disk 1).size.toNat % 16 = 0 := by
  obtain ⟨directory,holder,-⟩ := lockedDir_ready
  obtain ⟨s,run⟩ := dot_linked
  have step : Step dirMount 1 lockedDir s := .link holder (Nat.le_refl 1) (by decide) run
  exact ⟨s, step, (directory_is_map dirMount 1 lockedDir s directory (.single step)).1⟩

/-- The entry "." of a directory names the directory: linking the name once more does not return
    -1 but waits for ever. -/
theorem dot_linked_again_waits : ∃ s, Directory dirMount s 1 ∧ Holds s 1 dirSlot ∧
    (find (table dirMount s 1) (canon FsCalls.dot)).isSome = true ∧
      dirlink dirMount dirSlot FsCalls.dot 1 s = .error .asleep := by
  obtain ⟨directory,holder,empty⟩ := lockedDir_ready
  obtain ⟨s,run⟩ := dot_linked
  obtain ⟨directory',holder',fresh_,now⟩ :=
    directory_link directory holder (Nat.le_refl 1) (by decide) run
  obtain ⟨open_,same⟩ := directory'.openDir holder'
  have found : find (table dirMount s 1) (canon FsCalls.dot) = some
      (vacancy (table dirMount lockedDir 1), 1) := by
    rw [now, find_put_vacancy fresh_, if_pos rfl]
  refine ⟨s, directory', holder', by rw [found]; rfl,
    dirlink_waits open_ (same ▸ found) holder'.1.symm⟩

end FsNames
