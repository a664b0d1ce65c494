import Xv6.Fs.Names
import Xv6.Fs.Write

/- dirlookup, dirlink and the removal of an entry on a locked directory, as operations on its
   table of names. -/
namespace FsNames
open Bytes FsDisk FsInode FsContent FsIcache FsDirectory FsCache Panics SlotMap

variable {k : Mount} {s t : Fs} {dp ip : Slot} {name : List UInt8}

theorem length_content (d : Disk) (v : Dinode) : (content d v).length = v.size.toNat := by
  simp [content, bytesFrom]

structure OpenDir (k : Mount) (s : Fs) (dp : Slot) : Prop where
  wf : WellFormed k.sb s.disk
  cache : Cache k s
  locked : (s.icache dp).lock = true
  dir : (s.icache dp).din.type = tDir
  aligned : (s.icache dp).din.size.toNat % 16 = 0

def names (s : Fs) (dp : Slot) : Table (List UInt8) Nat :=
  records (content s.disk (s.icache dp).din)

theorem OpenDir.held (open_ : OpenDir k s dp) :
    0 < (s.icache dp).ref ∧ (s.icache dp).inum < k.sb.ninodes ∧
    (s.icache dp).din = dinode k.sb s.disk (s.icache dp).inum := by
  obtain ⟨held,valid⟩ := open_.cache.locked dp open_.locked
  exact ⟨held, open_.cache.named dp held, (open_.cache.copies dp held valid).1⟩

theorem OpenDir.file (open_ : OpenDir k s dp) : (s.icache dp).din.type ≠ tDev := by
  rw [open_.dir]
  decide

theorem OpenDir.whole (open_ : OpenDir k s dp) : Whole s.disk (s.icache dp).din := by
  obtain ⟨-,bound,copy⟩ := open_.held
  have file := open_.file
  have dir := open_.dir
  rw [copy] at file dir ⊢
  refine open_.wf.whole _ bound ?_ file
  rw [dir]
  decide

theorem length_names (s : Fs) (dp : Slot) :
    (names s dp).length = (s.icache dp).din.size.toNat / 16 := by
  rw [names, length_records, length_content]

theorem offset_toNat {n i : Nat} {size : UInt32} (inside : i < n) (count : n ≤ size.toNat / 16) :
    (UInt32.ofNat (16 * i)).toNat = 16 * i :=
  UInt32.toNat_ofNat_of_lt' (by
    have := size.toNat_lt
    have : UInt32.size = 4294967296 := rfl
    omega)

theorem fetchDirent_eq (open_ : OpenDir k s dp) (panic : Stop) {i : Nat}
    (inside : i < (s.icache dp).din.size.toNat / 16) :
    fetchDirent k panic dp (UInt32.ofNat (16 * i)) s = .ok
      (entryAt (content s.disk (s.icache dp).din) i, s) := by
  have off := offset_toNat inside (Nat.le_refl _)
  have top := (s.icache dp).din.size.toNat_lt
  have sixteen : direntSize.toNat = 16 := rfl
  have fine : ¬ ((s.icache dp).din.size < UInt32.ofNat (16 * i) ∨
      UInt32.ofNat (16 * i) + direntSize < UInt32.ofNat (16 * i)) := by
    rw [UInt32.lt_iff_toNat_lt, UInt32.lt_iff_toNat_lt, UInt32.toNat_add, off, sixteen]
    omega
  have bytes := readi_eq (k := k) open_.whole open_.file (UInt32.ofNat (16 * i)) direntSize
  rw [if_neg fine, off, sixteen] at bytes
  have length : (((content s.disk (s.icache dp).din).drop (16 * i)).take 16).length = 16 := by
    rw [List.length_take, List.length_drop, length_content]
    omega
  unfold fetchDirent
  rw [bind_of_ok bytes]
  simp only [length, if_true]
  rfl

def hit : Option (Nat × Nat) → Op (Option (Slot × UInt32))
  | none => pure none
  | some (j, inum) => do
    let ip ← iget inum
    pure (some (ip, UInt32.ofNat (16 * j)))

theorem names_drop {i : Nat} (inside : i < (s.icache dp).din.size.toNat / 16) :
    (names s dp).drop i = recordOf
      (entryAt (content s.disk (s.icache dp).din) i) :: (names s dp).drop (i + 1) := by
  have bound : i < (names s dp).length := by rwa [length_names]
  have here := getElem?_records (content s.disk (s.icache dp).din) i
  rw [length_content, if_pos inside] at here
  rw [List.drop_eq_getElem_cons bound]
  congr 1
  exact Option.some.inj ((List.getElem?_eq_getElem bound).symm.trans here)

theorem lookupFrom_eq (open_ : OpenDir k s dp) {fuel i : Nat}
    (left : i + fuel = (s.icache dp).din.size.toNat / 16) :
    lookupFrom k dp name fuel (UInt32.ofNat (16 * i)) s =
      hit ((find ((names s dp).drop i) (canon name)).map fun r => (i + r.1, r.2)) s := by
  induction fuel generalizing i with
  | zero =>
    rw [List.drop_of_length_le (by rw [length_names]; omega)]
    rfl
  | succ fuel ih =>
    have inside : i < (s.icache dp).din.size.toNat / 16 := by omega
    have off := offset_toNat inside (Nat.le_refl _)
    have below : UInt32.ofNat (16 * i) < (s.icache dp).din.size := by
      rw [UInt32.lt_iff_toNat_lt, off]
      omega
    have next : UInt32.ofNat (16 * i) + direntSize = UInt32.ofNat (16 * (i + 1)) := by
      rw [Nat.mul_add, UInt32.ofNat_add]
      rfl
    have rest := ih (i := i + 1) (by omega)
    have later : (find ((names s dp).drop (i + 1)) (canon name)).map (fun r => (i + 1 + r.1, r.2)) =
        ((find ((names s dp).drop (i + 1)) (canon name)).map fun r => (r.1 + 1, r.2)).map fun r =>
          (i + r.1, r.2) := by
      rw [Option.map_map]
      congr 1
      funext r
      simp only [Function.comp_apply]
      congr 1
      omega
    rw [lookupFrom, bind_of_ok (show look dp s = .ok (s.icache dp, s) from rfl), if_pos below,
      bind_of_ok (fetchDirent_eq open_ .dirlookupRead inside), names_drop inside]
    generalize entryAt (content s.disk (s.icache dp).din) i = de
    by_cases empty : de.inum = 0
    · rw [if_pos empty, next, rest, later, recordOf, if_pos empty, find]
    · rw [if_neg empty, recordOf, if_neg empty, find]
      by_cases mine : canon de.name = canon name
      · rw [if_pos ((namecmp_eq_zero name de.name).mpr mine.symm), if_pos mine]
        rfl
      · rw [if_neg fun same => mine ((namecmp_eq_zero name de.name).mp same).symm, if_neg mine,
          next, rest, later]

theorem entries_aligned (open_ : OpenDir k s dp) :
    entries (s.icache dp).din = (s.icache dp).din.size.toNat / 16 := by
  have := open_.aligned
  rw [entries]
  omega

theorem dirlookup_eq (open_ : OpenDir k s dp) :
    dirlookup k dp name s = hit (find (names s dp) (canon name)) s := by
  have type : ¬ (s.icache dp).din.type ≠ tDir := fun ne => ne open_.dir
  have loop : lookupFrom k dp name (entries (s.icache dp).din) 0 s = _ :=
    lookupFrom_eq open_ (i := 0) (by rw [Nat.zero_add, entries_aligned open_])
  unfold dirlookup
  rw [bind_of_ok (show look dp s = .ok (s.icache dp, s) from rfl), if_neg type]
  refine loop.trans ?_
  rw [List.drop_zero]
  simp only [Nat.zero_add, Prod.mk.eta, Option.map_id']

theorem emptyFrom_eq (open_ : OpenDir k s dp) {fuel i : Nat}
    (left : i + fuel = (s.icache dp).din.size.toNat / 16) :
    emptyFrom k dp fuel (UInt32.ofNat (16 * i)) s = .ok
      (UInt32.ofNat (16 * (i + vacancy ((names s dp).drop i))), s) := by
  induction fuel generalizing i with
  | zero =>
    rw [List.drop_of_length_le (by rw [length_names]; omega)]
    rfl
  | succ fuel ih =>
    have inside : i < (s.icache dp).din.size.toNat / 16 := by omega
    have off := offset_toNat inside (Nat.le_refl _)
    have below : UInt32.ofNat (16 * i) < (s.icache dp).din.size := by
      rw [UInt32.lt_iff_toNat_lt, off]
      omega
    have next : UInt32.ofNat (16 * i) + direntSize = UInt32.ofNat (16 * (i + 1)) := by
      rw [Nat.mul_add, UInt32.ofNat_add]
      rfl
    rw [emptyFrom, bind_of_ok (show look dp s = .ok (s.icache dp, s) from rfl), if_pos below,
      bind_of_ok (fetchDirent_eq open_ .dirlinkRead inside), names_drop inside]
    generalize entryAt (content s.disk (s.icache dp).din) i = de
    by_cases empty : de.inum = 0
    · rw [if_pos empty, recordOf, if_pos empty]
      rfl
    · rw [if_neg empty, recordOf, if_neg empty, next, ih (by omega), vacancy]
      congr 4
      omega

theorem storeDirent_ok (open_ : OpenDir k s dp) {panic : Stop} {de : Dirent}
    (width : de.name.length = dirsiz) {j : Nat} {a : Unit}
    (inside : j ≤ (s.icache dp).din.size.toNat / 16)
    (run : storeDirent k panic dp de (UInt32.ofNat (16 * j)) s = .ok (a, t)) :
    OpenDir k t dp ∧ names t dp = put (names s dp) j (recordOf de) ∧ ∃ w, Edited k s dp w t := by
  obtain ⟨held,bound,copy⟩ := open_.held
  have dir := open_.dir
  have aligned := open_.aligned
  obtain ⟨r,u,written,run⟩ := bind_ok run
  rcases writei_edits (FsCalls.sound_of_wellFormed open_.wf open_.cache) open_.locked open_.file
    written with
      ⟨-,rfl,-⟩ | ⟨accepted,rfl,w,edited,wrote⟩
  · cases run
  simp only [if_true] at run
  cases run
  simp only [Refused, not_or, Nat.not_lt] at accepted
  have sixteen : direntSize.toNat = 16 := rfl
  have off : (UInt32.ofNat (16 * j)).toNat = 16 * j := by
    refine UInt32.toNat_ofNat_of_lt' ?_
    have := (s.icache dp).din.size.toNat_lt
    have : UInt32.size = 4294967296 := rfl
    omega
  have mine := edited.mine
  have type : w.type = tDir := by
    rw [wrote.fields]
    exact dir
  have live : (s.icache dp).din.type ≠ 0 := by
    rw [dir]
    decide
  have size : w.size.toNat = max (s.icache dp).din.size.toNat (16 * j + 16) := by
    rw [wrote.size, off, sixteen]
    rfl
  have bytes := content_wrote accepted.1 wrote
  have record : (List.range direntSize.toNat).map (fun i => de.bytes.getD i 0) = de.bytes := by
    rw [sixteen]
    refine List.ext_getElem (by rw [List.length_map, List.length_range, length_bytes width])
      fun x low high => ?_
    rw [List.getElem_map, List.getElem_range, List.getD_eq_getElem _ _ high]
  rw [off, record] at bytes
  refine ⟨⟨wellFormed_wrote open_.wf copy.symm bound live open_.file accepted.1 wrote, ?_, ?_, ?_,
    ?_⟩, ?_, w, edited⟩
  · exact edited.cache open_.cache held (by rw [type]; decide)
  · rw [mine]
    exact open_.locked
  · rw [mine]
    exact type
  · rw [mine]
    show w.size.toNat % 16 = 0
    rw [size]
    omega
  · rw [names, mine]
    show records (content t.disk w) = _
    rw [bytes]
    exact records_splice (by rw [length_content]; exact aligned)
      (by rw [length_content]; exact inside) width

theorem find_inside {key : List UInt8} {r : Nat × Nat}
    (found : find (names s dp) key = some r) :
    r.1 < (s.icache dp).din.size.toNat / 16 := by
  have := find_lt found
  rwa [length_names] at this

theorem dirlink_new (open_ : OpenDir k s dp) {inum : Nat} (positive : 0 < inum)
    (small : inum < 65536)
    (fresh : find (names s dp) (canon name) = none) {r : Bool}
    (run : dirlink k dp name inum s = .ok (r, t)) :
    r = true ∧ OpenDir k t dp ∧ names t dp = put (names s dp) (vacancy (names s dp))
      (some (canon name, inum)) ∧ ∃ w, Edited k s dp w t := by
  have absent : dirlookup k dp name s = .ok (none, s) := by
    rw [dirlookup_eq open_, fresh]
    rfl
  have spot : emptyFrom k dp (entries (s.icache dp).din) 0 s = _ :=
    emptyFrom_eq open_ (i := 0) (by rw [Nat.zero_add, entries_aligned open_])
  rw [List.drop_zero, Nat.zero_add] at spot
  unfold dirlink at run
  rw [bind_of_ok absent] at run
  simp only at run
  rw [bind_of_ok (show look dp s = .ok (s.icache dp, s) from rfl), bind_of_ok spot] at run
  obtain ⟨a,u,stored,run⟩ := bind_ok run
  cases run
  have inside : vacancy (names s dp) ≤ (s.icache dp).din.size.toNat / 16 :=
    length_names s dp ▸ vacancy_le (names s dp)
  obtain ⟨open',table,edited⟩ := storeDirent_ok open_ (length_strncpy name dirsiz) inside stored
  have value : (UInt16.ofNat inum).toNat = inum := UInt16.toNat_ofNat_of_lt' small
  have live : UInt16.ofNat inum ≠ 0 := fun zero => by
    rw [zero] at value
    have : (0 : UInt16).toNat = 0 := rfl
    omega
  have record : recordOf ⟨UInt16.ofNat inum, strncpy name dirsiz⟩ = some (canon name, inum) := by
    simp only [recordOf, if_neg live, canon_strncpy, value]
  exact ⟨rfl, open', record ▸ table, edited⟩

theorem dirlink_there (open_ : OpenDir k s dp) {inum : Nat} {r : Nat × Nat}
    (found : find (names s dp) (canon name) = some r) :
    dirlink k dp name inum s = (do
      let ip ← iget r.2
      iput k ip
      pure false) s := by
  unfold dirlink
  rw [bind_apply, dirlookup_eq open_, found, hit]
  cases got : iget r.2 s with
  | error e => rw [bind_of_error got, bind_of_error got]; rfl
  | ok q =>
    rw [bind_of_ok got, bind_of_ok got]
    rfl

theorem clearDirent_ok (open_ : OpenDir k s dp) {key : List UInt8} {r : Nat × Nat}
    (found : find (names s dp) key = some r) {a : Unit}
    (run : FsCalls.clearDirent k dp (UInt32.ofNat (16 * r.1)) s = .ok (a, t)) :
    OpenDir k t dp ∧ names t dp = put (names s dp) r.1 none ∧ ∃ w, Edited k s dp w t := by
  have inside := find_inside found
  exact storeDirent_ok open_ List.length_replicate (Nat.le_of_lt inside) run

end FsNames
