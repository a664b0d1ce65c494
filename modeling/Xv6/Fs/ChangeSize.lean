import Xv6.Fs.Paths
import Xv6.Fs.Resize

/- change_file_size as a whole: the path is looked up twice, and what is found is locked and
   resized. Lookups leave a file system as it is but for the references they keep. -/
namespace FsCalls
open Bytes FsDisk FsInode FsOwner FsContent FsIcache FsDirectory FsCache FsNames FsPaths
  Panics SlotMap

variable {k : Mount} {s t u s₀ : Fs} {cwd x ip : Slot} {path : List UInt8} {more : Slot → Int}
  {i L : Nat}

theorem stays_extraRefs {held : Option Slot} (stays : Stays k s₀ i)
    (extra : ExtraRefs k s₀ s more held) : Stays k s i := by
  rw [Stays, extra.disk]
  refine ⟨stays.1, stays.2.imp_right ?_⟩
  rintro ⟨y,used,name⟩
  exact ⟨y, extra.referenced (.inl used), (extra.names y used).trans name⟩

theorem tree_extraRefs (tree : Tree k s₀) (extra : ExtraRefs k s₀ s more none) : Tree k s := by
  have disk := extra.disk
  refine ⟨disk ▸ tree.wf, extra.cache, fun y => extra.locks y, fun y used => ?_, fun j bound dir =>
    ?_, fun j bound dir name r found => ?_,
    tree.root.1, stays_extraRefs tree.root.2 extra⟩
  · rw [disk]
    by_cases mine : 0 < more y
    · exact (extra.kept y mine).1
    · have total := extra.refs y
      have used₀ : 0 < (s₀.icache y).ref := by omega
      rw [extra.names y used₀]
      exact tree.live y used₀
  · rw [disk] at dir ⊢
    exact tree.aligned j bound dir
  · rw [table, disk] at found
    rw [disk] at dir
    obtain ⟨small,stays⟩ := tree.entries j bound dir name r found
    exact ⟨small, stays_extraRefs stays extra⟩

theorem tree_congr (tree : Tree k s) (disk : t.disk = s.disk) (slots : t.icache = s.icache) :
    Tree k t := by
  obtain ⟨td,ti,_,_,_,_⟩ := t
  dsimp only at disk slots
  subst disk slots
  exact ⟨tree.wf, ⟨tree.cache.nonneg, tree.cache.once, tree.cache.named, tree.cache.copies,
    tree.cache.locked⟩, tree.idle, tree.live, tree.aligned,
    tree.entries, tree.root⟩

theorem walk_disk {C : List (List UInt8)} (disk : t.disk = s.disk) :
    walk k t i C = walk k s i C := by
  have step : enter k t = enter k s := by
    funext j name
    simp only [enter, table, disk]
  rw [walk, walk, step]

theorem enter_inside {j : Nat} {name : List UInt8} (tree : Tree k s) (bound : i < k.sb.ninodes)
    (found : enter k s i name = some j) :
    j < k.sb.ninodes := by
  rw [enter] at found
  split at found
  · next dir =>
    obtain ⟨r,here,rfl⟩ := Option.map_eq_some_iff.mp found
    exact (tree.entries i bound dir _ r here).1
  · cases found

theorem walk_congr {C : List (List UInt8)} (tree : Tree k s)
    (same : ∀ j < k.sb.ninodes, enter k t j = enter k s j) (bound : i < k.sb.ninodes) :
    walk k t i C = walk k s i C := by
  induction C generalizing i with
  | nil => rw [walk_nil, walk_nil]
  | cons name C ih =>
    rw [walk_cons, walk_cons, same i bound]
    cases found : enter k s i name with
    | none => rw [Option.bind_none, Option.bind_none]
    | some j => rw [Option.bind_some, Option.bind_some, ih (enter_inside tree bound found)]

theorem namei_ok (tree : Tree k s) (current : 0 < (s.icache cwd).ref) (string : 0 ∉ path)
    {r : Option Slot} (run : namei k cwd path s = .ok (r, t)) :
    (r = none ∧ walk k s (startOf s cwd path) (components path) = none ∧
      ExtraRefs k s t (fun _ => 0) none) ∨
    ∃ x, r = some x ∧ walk k s (startOf s cwd path) (components path) = some (t.icache x).inum ∧
      ExtraRefs k s t (one x) none := by
  obtain ⟨r',u,inner,run⟩ := bind_ok run
  cases run
  rcases namex_spec tree current string false with ⟨q,v,found,resolved,-⟩ | ⟨stopped,-⟩
  · rw [inner] at found
    cases found
    generalize wanted_ : wanted k s false (startOf s cwd path) (components path) = want at resolved
    have wanted_ : walk k s (startOf s cwd path) (components path) = want := wanted_
    cases resolved with
    | absent extra => exact .inl ⟨rfl, wanted_, extra⟩
    | found extra => exact .inr ⟨_, rfl, wanted_, extra⟩
  · rw [inner] at stopped
    cases stopped

/-- The two lookups of a call that has come to the inode `i`. -/
structure Opened (k : Mount) (s : Fs) (i : Nat) (x : Slot) (u : Fs) (y : Slot) (v : Fs) : Prop where
  first : ExtraRefs k s u (one x) none
  second : ExtraRefs k (begun u) v (one y) none
  here : (u.icache x).inum = i
  again : (v.icache y).inum = i
  -- what the slot has for a type, whether or not it is that of the inode
  type : (u.icache x).din.type = tFile

theorem changeFileSize_cases (tree : Tree k s) (current : 0 < (s.icache cwd).ref)
    (string : 0 ∉ path) {r : Int}
    (run : changeFileSize k cwd path L s = .ok (r, t)) :
    (r = -1 ∧ ∃ more, ExtraRefs k s t more none) ∨
    (r = 0 ∧ ∃ x u y v w, walk k s (startOf s cwd path) (components path) = some (u.icache x).inum ∧
      Opened k s (u.icache x).inum x u y v ∧
      holding k y (resize k y L) v = .ok ((), w) ∧ t = { w with op := false }) := by
  unfold changeFileSize at run
  rw [if_neg (by omega)] at run
  obtain ⟨exists_,u,asked,run⟩ := bind_ok run
  obtain ⟨found,u',looked,answer⟩ := bind_ok asked
  rcases namei_ok tree current string looked with ⟨rfl,-,extra⟩ | ⟨x,rfl,there,extra⟩
  · cases answer
    cases run
    exact .inl ⟨rfl, _, extra⟩
  cases answer
  by_cases file : (u.icache x).din.type = tFile
  · rw [if_pos (decide_eq_true file)] at run
    obtain ⟨_,s₁,opened,run⟩ := bind_ok run
    cases opened
    obtain ⟨found,v,looked',run⟩ := bind_ok run
    have start : startOf (begun u) cwd path = startOf s cwd path := by
      rw [startOf, startOf, show ((begun u).icache cwd).inum = (s.icache cwd).inum
        from extra.names cwd current]
    have begun_ : Tree k (begun u) := tree_congr (tree_extraRefs tree extra) rfl rfl
    rcases namei_ok begun_ (extra.referenced (.inl current)) string looked'
      with ⟨rfl,-,-⟩ | ⟨y,rfl,there',lent'⟩
    · cases run
    rw [start, walk_disk (show (begun u).disk = s.disk from extra.disk), there] at there'
    obtain ⟨_,v₁,locked,run⟩ := bind_ok run
    obtain ⟨_,v₂,sized,run⟩ := bind_ok run
    obtain ⟨_,v₃,unlocked,run⟩ := bind_ok run
    cases run
    refine .inr ⟨rfl, x, u, y, v, v₃, there,
      ⟨extra, lent', rfl, (Option.some.inj there').symm, file⟩, ?_, rfl⟩
    unfold holding
    rw [bind_of_ok locked, bind_of_ok sized, bind_of_ok unlocked]
    rfl
  · rw [if_neg (by simpa using file)] at run
    cases run
    exact .inl ⟨rfl, _, extra⟩

section Files

variable {w : Dinode}

theorem tree_edited (tree : Tree k s) (edited : Edited k s ip w t) (held : 0 < (s.icache ip).ref)
    (wf : WellFormed k.sb t.disk)
    (type : w.type = (dinode k.sb s.disk (s.icache ip).inum).type)
    (nlink : w.nlink = (dinode k.sb s.disk (s.icache ip).inum).nlink)
    (plain : w.type ≠ tDir) : Tree k t := by
  have live : w.type ≠ 0 := type ▸ tree.live ip held
  have rows : ∀ j < k.sb.ninodes, (dinode k.sb t.disk j).type = (dinode k.sb s.disk j).type ∧
      (dinode k.sb t.disk j).nlink = (dinode k.sb s.disk j).nlink := by
    intro j bound
    by_cases mine : j = (s.icache ip).inum
    · rw [mine, edited.here]
      exact ⟨type, nlink⟩
    · rw [edited.table j mine bound]
      exact ⟨rfl, rfl⟩
  have slots := edited.names
  have stays : ∀ j < k.sb.ninodes, Stays k s j → Stays k t j := by
    intro j bound still
    obtain ⟨sameType,sameLinks⟩ := rows j bound
    rw [Stays, sameType, sameLinks]
    refine ⟨still.1, still.2.imp_right ?_⟩
    rintro ⟨y,used,name⟩
    exact ⟨y, (slots y).2.1 ▸ used, (slots y).1.trans name⟩
  have dirs : ∀ j < k.sb.ninodes, (dinode k.sb t.disk j).type = tDir → j ≠ (s.icache ip).inum ∧
      (dinode k.sb s.disk j).type = tDir := by
    intro j bound dir
    refine ⟨fun mine => plain ?_, (rows j bound).1.symm.trans dir⟩
    rw [mine, edited.here] at dir
    exact dir
  refine ⟨wf, edited.cache tree.cache held live, fun y => (slots y).2.2.trans (tree.idle y),
    fun y used => ?_, fun j bound dir => ?_,
    fun j bound dir name r found => ?_, tree.root.1, stays _ tree.root.1 tree.root.2⟩
  · rw [(slots y).2.1] at used
    rw [(slots y).1, (rows _ (tree.cache.named y used)).1]
    exact tree.live y used
  · obtain ⟨other,dir⟩ := dirs j bound dir
    rw [edited.table j other bound]
    exact tree.aligned j bound dir
  · obtain ⟨other,dir⟩ := dirs j bound dir
    rw [table, edited.content_other other bound (by rw [dir]; decide)] at found
    obtain ⟨small,still⟩ := tree.entries j bound dir name r found
    exact ⟨small, stays _ small still⟩

theorem enter_edited (edited : Edited k s ip w t)
    (was : (dinode k.sb s.disk (s.icache ip).inum).type ≠ tDir)
    (plain : w.type ≠ tDir) {j : Nat} (bound : j < k.sb.ninodes) : enter k t j = enter k s j := by
  funext name
  rw [enter, enter]
  by_cases mine : j = (s.icache ip).inum
  · rw [mine, edited.here, if_neg plain, if_neg was]
  · rw [edited.table j mine bound]
    split
    · next dir => rw [table, table, edited.content_other mine bound (by rw [dir]; decide)]
    · rfl

theorem holding_resize (wf : WellFormed k.sb s.disk) (cache : Cache k s)
    (file : (dinode k.sb s.disk (s.icache ip).inum).type ≠ tDev)
    (small : L < 2147483648) (run : holding k ip (resize k ip L) s = .ok ((), t)) :
    ∃ w pages, Edited k { s with pages := pages } ip w t ∧ Sound k t ∧
      Cut s.disk (dinode k.sb s.disk (s.icache ip).inum) L t.disk w := by
  obtain ⟨held,free,live,u,done,rfl⟩ := holding_ok cache run
  have mine : (s.modify ip (lockedCopy k s ip)).icache ip = lockedCopy k s ip := modify_self
  have sound : Sound k (s.modify ip (lockedCopy k s ip)) :=
    sound_of_wellFormed wf (cache.lock held live)
  obtain ⟨w,pages,edited,sound',cut⟩ :=
    resize_ok sound (by rw [mine]; rfl) (by rw [mine]; exact file) small done
  rw [mine] at cut
  have edited :
      Edited k (({ s with pages := pages } : Fs).modify ip
        (lockedCopy k { s with pages := pages } ip)) ip w u := edited
  exact ⟨w, pages, edited.unlock free,
    ⟨sound'.layout, sound'.own, sound'.filled, sound'.cache.unlock⟩, cut⟩

end Files

def Reads (k : Mount) (t : Fs) (i : Nat) (c : List UInt8) : Prop :=
  FsInode.readi k.sb t.disk (dinode k.sb t.disk i) 0 (dinode k.sb t.disk i).size = some
    (some c, t.disk, dinode k.sb t.disk i)

theorem reads_whole {d : Disk} {v : Dinode} {sb : Superblock} (whole : Whole d v) :
    FsInode.readi sb d v 0 v.size = some (some (content d v), d, v) := by
  have fine : ¬ (v.size < 0 ∨ 0 + v.size < 0) := by
    simp [UInt32.lt_iff_toNat_lt]
  rw [readi_whole whole, if_neg fine]
  have all : (content d v).take v.size.toNat = content d v :=
    List.take_of_length_le (by rw [length_content])
  simp only [UInt32.toNat_zero, List.drop_zero, all]

theorem start_inside (tree : Tree k s) (current : 0 < (s.icache cwd).ref) :
    startOf s cwd path < k.sb.ninodes := by
  rw [startOf]
  split
  · exact tree.root.1
  · exact tree.cache.named cwd current

structure Changed (k : Mount) (s : Fs) (cwd : Slot) (path : List UInt8) (i L : Nat) (t : Fs) :
    Prop where
  tree : Tree k t
  inside : i < k.sb.ninodes
  current : 0 < (t.icache cwd).ref
  there : walk k t (startOf t cwd path) (components path) = some i
  regular : (dinode k.sb t.disk i).type = tFile
  bytes : content t.disk (dinode k.sb t.disk i) = resized (content s.disk (dinode k.sb s.disk i)) L
  others : ∀ j, j ≠ i → j < k.sb.ninodes → (dinode k.sb s.disk j).type ≠ 0 →
    content t.disk (dinode k.sb t.disk j) = content s.disk (dinode k.sb s.disk j)

theorem changeFileSize_ok (tree : Tree k s) (current : 0 < (s.icache cwd).ref) (string : 0 ∉ path)
    (there : walk k s (startOf s cwd path) (components path) = some i)
    (regular : (dinode k.sb s.disk i).type = tFile)
    (small : L ≤ maxfile * bsize) (run : changeFileSize k cwd path L s = .ok (0, t)) :
    Changed k s cwd path i L t := by
  rcases changeFileSize_cases tree current string run
    with ⟨wrong,-⟩ | ⟨-,x,u,y,v,z,found,opened,held,rfl⟩
  · cases wrong
  obtain rfl : i = (u.icache x).inum := Option.some.inj (there.symm.trans found)
  have disk : v.disk = s.disk := opened.second.disk.trans opened.first.disk
  have tree_v : Tree k v := tree_extraRefs
    (tree_congr (t := begun u) (tree_extraRefs tree opened.first) rfl rfl) opened.second
  have name := opened.again
  have used : 0 < (v.icache y).ref := opened.second.referenced (.inr (by rw [one_self]; decide))
  have still : 0 < (v.icache cwd).ref :=
    opened.second.referenced (.inl (opened.first.referenced (.inl current)))
  have row : dinode k.sb v.disk (v.icache y).inum = dinode k.sb s.disk (u.icache x).inum := by
    rw [name, disk]
  have bound := tree_v.cache.named y used
  have max : maxfile * bsize = 71680 := rfl
  obtain ⟨w,pages,edited,sound,cut⟩ :=
    holding_resize tree_v.wf tree_v.cache (by rw [row, regular]; decide) (by omega) held
  have bytes : content z.disk w = resized (content v.disk (dinode k.sb v.disk (v.icache y).inum))
      L := cut.content small
  have type : w.type = tFile := by
    rw [cut.fields]
    exact (congrArg Dinode.type row).trans regular
  have wf : WellFormed k.sb z.disk := by
    refine ⟨sound.layout, sound.own, fun j below live file => ?_⟩
    by_cases mine : j = (v.icache y).inum
    · rw [mine, show dinode k.sb z.disk (v.icache y).inum = w from edited.here]
      exact cut.whole (tree_v.wf.whole _ bound (by rw [row, regular]; decide)
        (by rw [row, regular]; decide)) small
    · have same : dinode k.sb z.disk j = dinode k.sb v.disk j := edited.table j mine below
      rw [same] at live file ⊢
      intro b inside
      rw [show byteAt z.disk (dinode k.sb v.disk j) b = byteAt v.disk (dinode k.sb v.disk j) b
        from edited.others j mine below live b]
      exact tree_v.wf.whole j below live file b inside
  have tree_v' : Tree k { v with pages := pages } := tree_congr tree_v rfl rfl
  have plain : w.type ≠ tDir := by
    rw [type]
    decide
  have was : (dinode k.sb v.disk (v.icache y).inum).type ≠ tDir := by
    rw [row, regular]
    decide
  have same : w.type = (dinode k.sb v.disk (v.icache y).inum).type := by rw [type, row, regular]
  have tree_z : Tree k z := tree_edited tree_v' edited used wf same (by rw [cut.fields]) plain
  have slot : (z.icache cwd).inum = (s.icache cwd).inum :=
    (edited.names cwd).1.trans ((opened.second.names cwd
      (opened.first.referenced (.inl current))).trans (opened.first.names cwd current))
  have start : startOf { z with op := false } cwd path = startOf s cwd path := by
    rw [startOf, startOf, show (({ z with op := false } : Fs).icache cwd).inum = (s.icache cwd).inum
      from slot]
  have here : dinode k.sb z.disk (u.icache x).inum = w := by
    rw [← name]
    exact edited.here
  refine ⟨tree_congr tree_z rfl rfl, name ▸ bound, lt_of_lt_of_eq still (edited.names cwd).2.1.symm,
    ?_, by rw [here, type], ?_, fun j other small live => ?_⟩
  · rw [start, walk_disk (show ({ z with op := false } : Fs).disk = z.disk from rfl),
      walk_congr (s := s) tree (fun j bound => ?_) (start_inside tree current), there]
    have entered : enter k z j = enter k { v with pages := pages } j :=
      enter_edited edited was plain bound
    rw [entered]
    funext name
    simp only [enter, table, disk]
  · rw [here, bytes, row, disk]
  · rw [← disk] at live ⊢
    exact edited.content_other (by rw [← name] at other; exact other) small live

/-- change_file_size of a regular file with any length a file can have: the file has the length
    and the bytes it had, with zeros behind them, every other file is as it was, and a later call
    that makes it longer again finds zeros behind the cut, not the old bytes. -/
theorem changeFileSize_resizes (k : Mount) (s : Fs) (cwd : Slot) (path : List UInt8) (i L : Nat)
    (t : Fs) (tree : Tree k s)
    (current : 0 < (s.icache cwd).ref) (string : 0 ∉ path)
    (there : walk k s (startOf s cwd path) (components path) = some i)
    (regular : (dinode k.sb s.disk i).type = tFile) (small : L ≤ maxfile * bsize)
    (run : changeFileSize k cwd path L s = .ok (0, t)) :
    let c := content s.disk (dinode k.sb s.disk i)
    Reads k t i (c.take L ++ List.replicate (L - c.length) 0) ∧
    (∀ j, j ≠ i → j < k.sb.ninodes → (dinode k.sb s.disk j).type ≠ 0 →
      content t.disk (dinode k.sb t.disk j) = content s.disk (dinode k.sb s.disk j)) ∧
    ∀ b u, L ≤ c.length → L < b → b ≤ maxfile * bsize → changeFileSize k cwd path b t = .ok (0, u) →
      Reads k u i (c.take L ++ List.replicate (b - L) 0) := by
  intro c
  have reads : ∀ {a b n}, Changed k a cwd path i n b →
      Reads k b i (resized (content a.disk (dinode k.sb a.disk i)) n) := by
    intro a b n changed
    rw [Reads, reads_whole (changed.tree.wf.whole i changed.inside
      (by rw [changed.regular]; decide) (by rw [changed.regular]; decide)), changed.bytes]
  have first := changeFileSize_ok tree current string there regular small run
  refine ⟨reads first, first.others, fun b u short longer small' again => ?_⟩
  have second :=
    reads (changeFileSize_ok first.tree first.current string first.there first.regular small' again)
  have old : resized c L = c.take L := by
    rw [resized, Nat.sub_eq_zero_of_le short, List.replicate_zero, List.append_nil]
  rw [first.bytes, old, resized, List.length_take_of_le short, List.take_of_length_le] at second
  · exact second
  · rw [List.length_take_of_le short]
    omega

def leaf (n : Nat) : Superblock := ⟨34 + n, n, 3, 30, 2, 32, 33⟩

theorem layout_leaf {n : Nat} (small : n < 4000) : Layout (leaf n) := by
  refine ⟨rfl, rfl, ?_, ?_, ?_, ?_⟩
  all_goals simp only [leaf, nmeta, bpb, bsize, ipb]
  all_goals omega

def made (type : Int16) : Dinode := { fresh type with nlink := 1 }

def sampleDir (n : Nat) : Disk := writeDinode (leaf n) (blank (leaf n)) 1 (made tDir)

/-- The root directory with an entry "f" for an empty file. -/
def sampleDisk (n : Nat) : Disk :=
  match FsInode.writei (leaf n) 1 (sampleDir n) (made tDir)
    (fun i => (Dirent.mk 2 (strncpy [102] dirsiz)).bytes.getD i 0) 0 16 with
  | some (_, e, _) => writeDinode (leaf n) e 2 (made tFile)
  | none => sampleDir n

def sampleMount (n : Nat) : Mount := ⟨leaf n, fun _ => ⟨none, none⟩⟩

def slot1 : Slot := ⟨1, by decide⟩

def sample (n : Nat) : Fs :=
  { (single (sampleDisk n) slot0 1).modify slot1 ⟨2, 1, false, true, made tFile⟩ with pages := [7] }

theorem sample_disk {n : Nat} (small : n < 4000)
    (room : lacks (sampleDir n) (made tDir) 0 16 ≤ free (leaf n) (sampleDir n)) :
    WellFormed (leaf n) (sampleDisk n) ∧ (dinode (leaf n) (sampleDisk n) 0).type = 0 ∧
    dinode (leaf n) (sampleDisk n) 2 = (made tFile) ∧
      (dinode (leaf n) (sampleDisk n) 1).type = tDir ∧
    (dinode (leaf n) (sampleDisk n) 1).nlink = 1 ∧
      content (sampleDisk n) (dinode (leaf n) (sampleDisk n) 1) =
        (Dirent.mk 2 (strncpy [102] dirsiz)).bytes := by
  have layout := layout_leaf small
  have inodes : (leaf n).ninodes = 3 := rfl
  have blank_ : ∀ j < 3, dinode (leaf n) (blank (leaf n)) j = fresh 0 :=
    fun j bound => dinode_blank layout bound
  have rows : ∀ j, dinode (leaf n) (sampleDir n) j = if j = 1 then (made tDir)
    else dinode (leaf n) (blank (leaf n)) j :=
      fun j => dinode_writeDinode ..
  have here := rows 1
  rw [if_pos rfl] at here
  have wf : WellFormed (leaf n) (sampleDir n) :=
    wellFormed_ialloc (wellFormed_blank layout) (show 1 < 3 by decide)
      (by rw [blank_ 1 (by decide)]; rfl) ⟨rfl, rfl⟩
  have own : Own (leaf n) (sampleDir n)
      (Function.update (dinode (leaf n) (sampleDir n)) 1 (made tDir)) := by
    rw [← here, Function.update_eq_self]
    exact wf.own
  have accepted : ¬ Refused (made tDir) 0 16 := by
    simp only [Refused, made, fresh]
    decide
  obtain ⟨r,e,w,done⟩ := writei_returns layout (show 1 < 3 by decide) own (by decide)
    (fun i => (Dirent.mk 2 (strncpy [102] dirsiz)).bytes.getD i 0) accepted room
  obtain ⟨-,wrote⟩ := writei_wrote layout (show 1 < 3 by decide) wf.own here (by decide)
    (filled_of_whole (here ▸ wf.whole 1 (show 1 < 3 by decide) (by rw [here]; decide)
      (by rw [here]; decide)))
    accepted done
  have wf' :=
    wellFormed_wrote wf here (show 1 < 3 by decide) (by decide) (by decide) (by decide) wrote
  have disk : sampleDisk n = writeDinode (leaf n) e 2 (made tFile) := by
    rw [sampleDisk, done]
  have unused : (dinode (leaf n) e 2).type = 0 := by
    rw [wrote.table 2 (by decide) (show 2 < 3 by decide), rows 2, if_neg (by decide),
      blank_ 2 (by decide)]
    rfl
  have rows' : ∀ j, dinode (leaf n) (sampleDisk n) j = if j = 2 then (made tFile)
    else dinode (leaf n) e j := by
      intro j
      rw [disk]
      exact dinode_writeDinode ..
  have there : dinode (leaf n) (sampleDisk n) 1 = w := by
    rw [rows' 1, if_neg (by decide), wrote.here]
  have type : w.type = tDir := by rw [wrote.fields]; rfl
  have bytes : content (sampleDisk n) w = content e w := by
    rw [disk]
    have same := (own_ialloc layout wf'.own (show 2 < 3 by decide) unused (v := (made tFile))
      ⟨rfl, rfl⟩).2 1 (by decide) (show 1 < 3 by decide)
    rw [wrote.here] at same
    exact content_congr (same (by rw [type]; decide))
  refine ⟨?_, ?_, rows' 2, by rw [there, type], by rw [there, wrote.fields]; rfl, ?_⟩
  · rw [disk]
    exact wellFormed_ialloc wf' (show 2 < 3 by decide) unused ⟨rfl, rfl⟩
  · rw [rows' 0, if_neg (by decide), wrote.table 0 (by decide) (show 0 < 3 by decide), rows 0,
      if_neg (by decide), blank_ 0 (by decide)]
    rfl
  · rw [there, bytes, content_wrote (by decide) wrote]
    rfl

theorem sample_tree {n : Nat} {s : Fs} (small : n < 4000)
    (room : lacks (sampleDir n) (made tDir) 0 16 ≤ free (leaf n) (sampleDir n))
    (disk : s.disk = sampleDisk n) (cache : Cache (sampleMount n) s)
    (idle : ∀ x, (s.icache x).lock = false)
    (live : ∀ x, 0 < (s.icache x).ref → (s.icache x).inum ≠ 0) :
    Tree (sampleMount n) s ∧ enter (sampleMount n) s 1 [102] = some 2 := by
  obtain ⟨wf,unused,file,dir,linked,bytes⟩ := sample_disk small room
  have inodes : (sampleMount n).sb.ninodes = 3 := rfl
  have table_ : table (sampleMount n) s 1 = [some (canon [102], 2)] := by
    rw [table, disk]
    show records (content (sampleDisk n) (dinode (leaf n) (sampleDisk n) 1)) = _
    rw [bytes]
    decide +kernel
  have size : (dinode (leaf n) (sampleDisk n) 1).size.toNat = 16 := by
    rw [← length_content (sampleDisk n), bytes]; decide +kernel
  have stays : ∀ i, i ≠ 0 → i < 3 → Stays (sampleMount n) s i := by
    intro i some_ bound
    have which : i = 1 ∨ i = 2 := by omega
    rw [Stays, disk]
    rcases which with rfl | rfl
    · exact ⟨fun zero => absurd (dir.symm.trans zero) (by decide), .inl fun zero =>
        absurd (linked.symm.trans zero) (by decide)⟩
    · refine ⟨fun zero => ?_, .inl fun zero => ?_⟩
      · exact absurd ((congrArg Dinode.type file).symm.trans zero) (by decide)
      · exact absurd ((congrArg Dinode.nlink file).symm.trans zero) (by decide)
  have dirs : ∀ i < 3, (dinode (leaf n) (sampleDisk n) i).type = tDir → i = 1 := by
    intro i bound type
    by_contra other
    have which : i = 0 ∨ i = 2 := by omega
    rcases which with rfl | rfl
    · exact absurd (unused.symm.trans type) (by decide)
    · exact absurd ((congrArg Dinode.type file).symm.trans type) (by decide)
  refine ⟨⟨disk ▸ wf, cache, idle, fun x held => ?_, fun i bound type => ?_,
    fun i bound type name r found => ?_, show 1 < 3 by decide,
    stays 1 (by decide) (by decide)⟩, ?_⟩
  · exact (stays _ (live x held) (cache.named x held)).1
  · rw [disk] at type ⊢
    rw [dirs i bound type]
    show (dinode (leaf n) (sampleDisk n) 1).size.toNat % 16 = 0
    rw [size]
  · rw [disk] at type
    rw [dirs i bound type, table_, find] at found
    split at found
    · cases found
      exact ⟨show 2 < 3 by decide, stays 2 (by decide) (by decide)⟩
    · cases found
  · rw [enter, disk, table_]
    exact if_pos dir

theorem sample_slots (n : Nat) (x : Slot) :
    (sample n).icache x = if x = slot1 then ⟨2, 1, false, true, made tFile⟩
    else if x = slot0 then ⟨1, 1, false, false, fresh 0⟩ else ⟨0, 0, false, false, fresh 0⟩ := by
  simp only [sample, Fs.modify, single, Function.update_apply]

theorem sample_ready {n : Nat} (small : n < 4000)
    (room : lacks (sampleDir n) (made tDir) 0 16 ≤ free (leaf n) (sampleDir n)) :
    Tree (sampleMount n) (sample n) ∧
      walk (sampleMount n) (sample n) (startOf (sample n) slot0 [47, 102]) (components [47, 102]) =
        some 2 := by
  have file := (sample_disk small room).2.2.1
  have base : Cache (sampleMount n) (single (sampleDisk n) slot0 1) :=
    cache_single (show 1 < 3 by decide)
  have cache : Cache (sampleMount n)
      ((single (sampleDisk n) slot0 1).modify slot1 ⟨2, 1, false, true, made tFile⟩) := by
    refine base.modify (by decide) (fun _ y _ held => ?_) (fun _ => show 2 < 3 by decide)
      (fun _ _ => ⟨file.symm, by decide⟩) fun lock => (by cases lock)
    simp only [single, Function.update_apply] at held ⊢
    split at held
    · next here =>
      rw [if_pos here]
      decide
    · exact absurd held (by decide)
  have cache : Cache (sampleMount n) (sample n) :=
    ⟨cache.nonneg, cache.once, cache.named, cache.copies, cache.locked⟩
  obtain ⟨tree,entered⟩ := sample_tree small room rfl cache
    (fun x => by rw [sample_slots]; split <;> [rfl; (split <;> rfl)])
    fun x held => by
      rw [sample_slots] at held ⊢
      split
      · decide
      · next other =>
        rw [if_neg other] at held
        split
        · decide
        · next other' =>
          rw [if_neg other'] at held
          exact absurd held (by decide)
  refine ⟨tree, ?_⟩
  rw [show components [47, 102] = [[102]] by decide +kernel, walk_cons,
    show startOf (sample n) slot0 [47, 102] = 1 from rfl, entered]
  rfl

theorem changeFileSize_resizes_three :
    ∃ t, changeFileSize (sampleMount 4) slot0 [47, 102] 3 (sample 4) = .ok (0, t) ∧
    Reads (sampleMount 4) t 2 [0, 0, 0] := by
  have room : lacks (sampleDir 4) (made tDir) 0 16 ≤ free (leaf 4) (sampleDir 4) := by
    decide +kernel
  obtain ⟨tree,there⟩ := sample_ready (by decide) room
  have file : dinode (sampleMount 4).sb (sample 4).disk 2 = made tFile :=
    (sample_disk (by decide) room).2.2.1
  have returns : (changeFileSize (sampleMount 4) slot0 [47, 102] 3 (sample 4)).toOption.map
      Prod.fst = some 0 := by decide +kernel
  cases run : changeFileSize (sampleMount 4) slot0 [47, 102] 3 (sample 4) with
  | error e =>
    rw [run] at returns
    cases returns
  | ok q =>
    obtain ⟨r,t⟩ := q
    rw [run] at returns
    obtain rfl : r = 0 := Option.some.inj returns
    have reads := (changeFileSize_resizes (sampleMount 4) (sample 4) slot0 [47, 102] 2 3 t tree
      (by decide) (by decide) there (by rw [file]; rfl) (by decide) run).1
    rw [file] at reads
    exact ⟨t, rfl, reads⟩

end FsCalls
