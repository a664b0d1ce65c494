import Mathlib.Algebra.BigOperators.Fin
import Xv6.Fs.Calls
import Xv6.Fs.Components
import Xv6.Lib.Balance

/- What change_file_size does to the inode cache and to the free pages, whatever is on the disk.
   Every function is followed by the sum of all reference counts; it tells a balanced call from
   one that keeps a reference. -/
namespace FsCalls
open FsDisk FsIcache FsDirectory FsPaths Panics Balance

def refs (s : Fs) : Int := ∑ x, (s.icache x).ref

theorem refs_modify (s : Fs) (ip : Slot) (c : Inode) :
    refs (s.modify ip c) = refs s + (c.ref - (s.icache ip).ref) := by
  have split : ∀ f : Slot → Inode, ∑ x, (f x).ref = (f ip).ref + ∑ x ∈ Finset.univ.erase ip,
      (f x).ref := fun f =>
        (Finset.add_sum_erase _ _ (Finset.mem_univ ip)).symm
  have rest : ∑ x ∈ Finset.univ.erase ip,
      (Function.update s.icache ip c x).ref = ∑ x ∈ Finset.univ.erase ip, (s.icache x).ref := by
    refine Finset.sum_congr rfl fun x mem => ?_
    rw [Function.update_of_ne (Finset.ne_of_mem_erase mem)]
  simp only [refs, Fs.modify]
  rw [split, split s.icache, rest, Function.update_self]
  omega

variable {k : Mount} {cwd ip dp : Slot}

theorem shifts_look : Shifts refs (look ip) fun _ => 0 := by
  intro s a t run
  cases run
  rw [Int.add_zero]

variable {α : Type}

theorem shifts_stop {e : Stop} {by_ : α → Int} : Shifts refs (stop e : Op α) by_ := by
  intro s a t run
  cases run

theorem shifts_beginOp : Shifts refs beginOp fun _ => 0 := by
  intro s a t run
  cases run
  exact (Int.add_zero _).symm

theorem shifts_endOp : Shifts refs endOp fun _ => 0 := by
  intro s a t run
  cases run
  exact (Int.add_zero _).symm

theorem shifts_kalloc : Shifts refs kalloc fun _ => 0 := by
  intro s a t run
  unfold kalloc at run
  split at run
  · cases run
    rw [Int.add_zero]
  · cases run
    exact (Int.add_zero _).symm

theorem shifts_iget (inum : Nat) : Shifts refs (iget inum) fun _ => 1 := by
  intro s a t run
  unfold iget at run
  split at run
  · cases run
    rw [refs_modify]
    dsimp only
    omega
  · split at run
    · next found =>
      have unused := List.find?_some found
      cases run
      rw [refs_modify]
      simp only [decide_eq_true_eq] at unused
      dsimp only
      omega
    · cases run

theorem shifts_idup : Shifts refs (idup ip) fun _ => 1 := by
  intro s a t run
  cases run
  rw [refs_modify]
  dsimp only
  omega

variable {s : Fs}

theorem refs_same {c : Inode} (same : c.ref = (s.icache ip).ref) :
    refs (s.modify ip c) = refs s + 0 := by
  rw [refs_modify]
  omega

theorem shifts_ilock : Shifts refs (ilock k ip) fun _ => 0 := by
  intro s a t run
  simp only [ilock] at run
  split at run
  · cases run
  split at run
  · cases run
  split at run
  · cases run
    exact refs_same rfl
  split at run
  · cases run
  · cases run
    exact refs_same rfl

theorem shifts_iunlock : Shifts refs (iunlock ip) fun _ => 0 := by
  intro s a t run
  simp only [iunlock] at run
  split at run
  · cases run
  · cases run
    exact refs_same rfl

theorem shifts_iput : Shifts refs (iput k ip) fun _ => -1 := by
  intro s a t run
  simp only [iput] at run
  split at run
  · cases run
  split at run
  · split at run
    · cases run
    · cases run
      exact (refs_modify _ _ _).trans (by show refs s + _ = _; dsimp only; omega)
  · cases run
    exact (refs_modify _ _ _).trans (by show refs s + _ = _; dsimp only; omega)

theorem shifts_iunlockput : Shifts refs (iunlockput k ip) fun _ => -1 :=
  shifts_after shifts_iunlock fun _ => shifts_iput

variable {off : UInt32}

theorem shifts_readi {n : UInt32} : Shifts refs (readi k ip off n) fun _ => 0 := by
  intro s a t run
  simp only [readi] at run
  split at run
  · split at run
    · cases run
      rw [Int.add_zero]
    · split at run
      · cases run
        rw [Int.add_zero]
      · cases run
        rw [Int.add_zero]
  · split at run
    · cases run
    · cases run
      exact refs_same rfl

theorem shifts_writei {src : Nat → UInt8} {n : UInt32} :
    Shifts refs (writei k ip src off n) fun _ => 0 := by
  intro s a t run
  simp only [writei] at run
  split at run
  · split at run
    · cases run
      rw [Int.add_zero]
    · split at run
      · cases run
        rw [Int.add_zero]
      · cases run
        rw [Int.add_zero]
  · split at run
    · cases run
    · cases run
      exact refs_same rfl

theorem shifts_assign {f : Dinode → Dinode} : Shifts refs (assign ip f) fun _ => 0 := by
  intro s a t run
  cases run
  exact refs_same rfl

theorem shifts_iupdate : Shifts refs (iupdate k ip) fun _ => 0 := by
  intro s a t run
  cases run
  exact (Int.add_zero _).symm

theorem shifts_fetchDirent {e : Stop} : Shifts refs (fetchDirent k e dp off) fun _ => 0 := by
  refine shifts_after shifts_readi fun bs => ?_
  cases bs with
  | none => exact shifts_stop
  | some bs =>
    dsimp only
    split
    · exact shifts_pure rfl
    · exact shifts_stop

variable {name : List UInt8} {fuel : Nat}

theorem shifts_lookupFrom :
    Shifts refs (lookupFrom k dp name fuel off) fun r => if r.isSome then 1 else 0 := by
  induction fuel generalizing off with
  | zero => exact shifts_pure rfl
  | succ fuel ih =>
    refine shifts_after shifts_look fun c => ?_
    split
    · refine shifts_after shifts_fetchDirent fun de => ?_
      split
      · exact ih
      split
      · exact shifts_bind (shifts_iget _) fun ip => shifts_pure rfl
      · exact ih
    · exact shifts_pure rfl

theorem shifts_dirlookup :
    Shifts refs (dirlookup k dp name) fun r => if r.isSome then 1 else 0 := by
  refine shifts_after shifts_look fun c => ?_
  split
  · exact shifts_stop
  · exact shifts_lookupFrom

variable {path : List UInt8}

theorem shifts_namexFrom {parent : Bool} (enough : path.length < fuel) :
    Shifts refs (namexFrom k parent fuel ip path name) fun r => if r.isSome then 0 else -1 := by
  induction fuel generalizing ip path name with
  | zero => exact absurd enough (Nat.not_lt_zero _)
  | succ fuel ih =>
    unfold namexFrom
    cases split : skipelem path with
    | none =>
      dsimp only
      split
      · exact shifts_bind shifts_iput fun _ => shifts_pure rfl
      · exact shifts_pure rfl
    | some pair =>
      obtain ⟨rest,elem⟩ := pair
      have shorter := skipelem_shorter split
      dsimp only
      refine shifts_after shifts_ilock fun _ => shifts_after shifts_look fun c => ?_
      split
      · exact shifts_bind shifts_iunlockput fun _ => shifts_pure rfl
      split
      · exact shifts_after shifts_iunlock fun _ => shifts_pure rfl
      · refine shifts_bind shifts_dirlookup fun found => ?_
        cases found with
        | none => exact shifts_bind shifts_iunlockput fun _ => shifts_pure rfl
        | some next =>
          refine shifts_bind shifts_iunlockput fun _ => ?_
          intro s a t run
          have := ih (by omega) s a t run
          simp only [Option.isSome_some, if_true] at this ⊢
          omega

theorem shifts_namex {parent : Bool} :
    Shifts refs (namex k cwd path parent) fun r => if r.isSome then 1 else 0 := by
  have loop : ∀ ip, Shifts refs (namexFrom k parent (path.length + 1) ip path []) fun r =>
      (if r.isSome then 1 else 0) - 1 := by
        intro ip s a t run
        have := shifts_namexFrom (Nat.lt_succ_self _) s a t run
        cases a with
        | none => exact this
        | some _ => exact this
  unfold namex
  split
  · exact shifts_bind (shifts_iget _) loop
  · exact shifts_bind shifts_idup loop

theorem shifts_namei : Shifts refs (namei k cwd path) fun r => if r.isSome then 1 else 0 :=
  shifts_bind shifts_namex fun r => shifts_pure (by cases r <;> rfl)

theorem shifts_growFrom {length i : Int} :
    Shifts refs (growFrom k ip length fuel i) fun _ => 0 := by
  induction fuel generalizing i with
  | zero => exact shifts_pure rfl
  | succ fuel ih =>
    unfold growFrom
    split
    · refine shifts_after shifts_writei fun _ => ?_
      split
      · exact shifts_stop
      · exact ih
    · exact shifts_pure rfl

theorem shifts_resize {length : Int} : Shifts refs (resize k ip length) fun _ => 0 := by
  refine shifts_after shifts_look fun c => ?_
  dsimp only
  split
  · exact shifts_after shifts_kalloc fun _ => shifts_after shifts_growFrom fun _ =>
      shifts_after shifts_assign fun _ => shifts_iupdate
  split
  · exact shifts_after shifts_assign fun _ => shifts_iupdate
  · exact shifts_pure rfl

def Marks (s t : Fs) : Prop := t.op = s.op ∧ (s.stray = true → t.stray = true)

theorem marks_refl (s : Fs) : Marks s s := ⟨rfl, id⟩

theorem marks_trans (s t u : Fs) (first : Marks s t) (second : Marks t u) : Marks s u :=
  ⟨second.1.trans first.1, fun before => second.2 (first.2 before)⟩

theorem marks_bind {β : Type} {m : Op α} {f : α → Op β} (head : Relates Marks m)
    (rest : ∀ a, Relates Marks (f a)) :
    Relates Marks (m >>= f) := relates_bind marks_trans head rest

theorem marks_pure {a : α} : Relates Marks (pure a : Op α) := relates_pure marks_refl

theorem marks_stop {e : Stop} : Relates Marks (stop e : Op α) := by
  intro s a t run
  cases run

theorem marks_look : Relates Marks (look ip) := by
  intro s a t run
  cases run
  exact marks_refl s

theorem marks_iget (inum : Nat) : Relates Marks (iget inum) := by
  intro s a t run
  unfold iget at run
  split at run
  · cases run
    exact ⟨rfl, id⟩
  · split at run
    · cases run
      exact ⟨rfl, id⟩
    · cases run

theorem marks_ilock : Relates Marks (ilock k ip) := by
  intro s a t run
  simp only [ilock] at run
  split at run
  · cases run
  split at run
  · cases run
  split at run
  · cases run
    exact ⟨rfl, id⟩
  split at run
  · cases run
  · cases run
    exact ⟨rfl, id⟩

theorem marks_iunlock : Relates Marks (iunlock ip) := by
  intro s a t run
  simp only [iunlock] at run
  split at run
  · cases run
  · cases run
    exact ⟨rfl, id⟩

variable {t : Fs}

theorem iput_marks {a : Unit} (run : iput k ip s = .ok (a, t)) :
    Marks s t ∧ (s.op = false → t.stray = true) := by
  simp only [iput] at run
  split at run
  · cases run
  split at run
  · split at run
    · cases run
    · cases run
      exact ⟨⟨rfl, fun before => by simp [Fs.modify, before]⟩, fun outside =>
        by simp [Fs.modify, outside]⟩
  · cases run
    exact ⟨⟨rfl, fun before => by simp [Fs.modify, before]⟩, fun outside =>
      by simp [Fs.modify, outside]⟩

theorem iunlockput_marks {a : Unit} (run : iunlockput k ip s = .ok (a, t)) :
    Marks s t ∧ (s.op = false → t.stray = true) := by
  obtain ⟨_,u,unlocked,put⟩ := bind_ok run
  have first := marks_iunlock s _ u unlocked
  have second := iput_marks put
  exact ⟨marks_trans s u t first second.1, fun outside => second.2 (first.1.trans outside)⟩

theorem marks_readi {n : UInt32} : Relates Marks (readi k ip off n) := by
  intro s a t run
  simp only [readi] at run
  split at run
  · split at run
    · cases run
      exact marks_refl s
    · split at run
      · cases run
        exact marks_refl s
      · cases run
        exact marks_refl s
  · split at run
    · cases run
    · cases run
      exact ⟨rfl, id⟩

theorem marks_lookupFrom : Relates Marks (lookupFrom k dp name fuel off) := by
  induction fuel generalizing off with
  | zero => exact marks_pure
  | succ fuel ih =>
    refine marks_bind marks_look fun c => ?_
    split
    · refine marks_bind (marks_bind marks_readi fun bs => ?_) fun de => ?_
      · cases bs with
        | none => exact marks_stop
        | some bs =>
          dsimp only
          split
          · exact marks_pure
          · exact marks_stop
      · split
        · exact ih
        split
        · exact marks_bind (marks_iget _) fun _ => marks_pure
        · exact ih
    · exact marks_pure

theorem marks_dirlookup : Relates Marks (dirlookup k dp name) := by
  refine marks_bind marks_look fun c => ?_
  split
  · exact marks_stop
  · exact marks_lookupFrom

/-- Outside of a transaction namei returns 0 only after an iput. -/
theorem namexFrom_strays (enough : path.length < fuel) (outside : s.op = false)
    (run : namexFrom k false fuel ip path name s = .ok (none, t)) : t.stray = true := by
  induction fuel generalizing ip path name s with
  | zero => exact absurd enough (Nat.not_lt_zero _)
  | succ fuel ih =>
    unfold namexFrom at run
    cases split : skipelem path with
    | none =>
      rw [split] at run
      cases run
    | some pair =>
      obtain ⟨rest,elem⟩ := pair
      have shorter := skipelem_shorter split
      simp only [split, Bool.false_eq_true, false_and, if_false] at run
      obtain ⟨_,u,locked,run⟩ := bind_ok run
      have outside₁ : u.op = false := (marks_ilock s _ u locked).1.trans outside
      obtain ⟨c,_,looked,run⟩ := bind_ok run
      cases looked
      split at run
      · obtain ⟨_,w,put,run⟩ := bind_ok run
        cases run
        exact (iunlockput_marks put).2 outside₁
      · obtain ⟨found,v,searched,run⟩ := bind_ok run
        have outside₂ : v.op = false := (marks_dirlookup u _ v searched).1.trans outside₁
        cases found with
        | none =>
          obtain ⟨_,w,put,run⟩ := bind_ok run
          cases run
          exact (iunlockput_marks put).2 outside₂
        | some next =>
          obtain ⟨_,w,put,run⟩ := bind_ok run
          exact ih (by omega) ((iunlockput_marks put).1.1.trans outside₂) run

theorem namei_strays (outside : s.op = false) (run : namei k cwd path s = .ok (none, t)) :
    t.stray = true := by
  obtain ⟨r,u,run,last⟩ := bind_ok run
  cases r with
  | some _ => cases last
  | none =>
    cases last
    unfold namex at run
    split at run
    · obtain ⟨ip,v,got,run⟩ := bind_ok run
      exact namexFrom_strays (Nat.lt_succ_self _) ((marks_iget _ s _ v got).1.trans outside) run
    · obtain ⟨ip,v,got,run⟩ := bind_ok run
      cases got
      have outside : (s.modify cwd { s.icache cwd with ref := (s.icache cwd).ref + 1 }).op =
          false := outside
      exact namexFrom_strays (Nat.lt_succ_self _) outside run

/-- The call has kept no reference and no page and has put no inode outside of a transaction. -/
def Neutral (s t : Fs) : Prop :=
  (∀ x, (t.icache x).ref = (s.icache x).ref) ∧ (∀ p, p ∈ t.pages ↔ p ∈ s.pages) ∧ t.stray = s.stray

theorem refs_congr (same : ∀ x, (t.icache x).ref = (s.icache x).ref) : refs t = refs s :=
  Finset.sum_congr rfl fun x _ => same x

/-- change_file_size gives back what it took iff it refuses the length at once. -/
theorem changeFileSize_neutral_iff {path : List UInt8} {length r : Int} {s t : Fs}
    (outside : s.op = false) (clean : s.stray = false)
    (run : changeFileSize k cwd path length s = .ok (r, t)) : Neutral s t ↔ length < 0 := by
  unfold changeFileSize at run
  by_cases negative : length < 0
  · rw [if_pos negative] at run
    cases run
    exact iff_of_true ⟨fun _ => rfl, fun _ => Iff.rfl, rfl⟩ negative
  · rw [if_neg negative] at run
    refine iff_of_false (fun neutral => ?_) negative
    have balance := refs_congr neutral.1
    have inside := neutral.2.2.trans clean
    obtain ⟨exists_,u,asked,run⟩ := bind_ok run
    obtain ⟨found,v,looked,answer⟩ := bind_ok asked
    have first := shifts_namei s found v looked
    cases found with
    | none =>
      -- the path has no inode: the last directory was put outside of a transaction
      cases answer
      have strayed := namei_strays outside looked
      cases run
      rw [strayed] at inside
      cases inside
    | some ip =>
      cases answer
      have first : refs u = refs s + 1 := first
      by_cases file : (u.icache ip).din.type = tFile
      · rw [if_pos (decide_eq_true file)] at run
        have shifted : ∀ m : Op Int, m u = .ok (r, t) → Shifts refs m (fun _ => 1) →
            refs t = refs u + 1 := fun m ran shifts => shifts u r t ran
        have second : refs t = refs u + 1 := by
          refine shifted _ run (shifts_after shifts_beginOp fun _ =>
            shifts_bind shifts_namei fun found => ?_)
          cases found with
          | none => exact shifts_stop
          | some ip =>
            exact shifts_after shifts_ilock fun _ => shifts_after shifts_resize fun _ =>
              shifts_after shifts_iunlock fun _ =>
                shifts_after shifts_endOp fun _ => shifts_pure rfl
        omega
      · rw [if_neg (by simpa using file)] at run
        cases run
        omega

def bare : Fs := ⟨fun _ => 0, fun _ => ⟨0, 0, false, false, FsInode.fresh 0⟩, false, [], false, []⟩

def bareMount : Mount := ⟨⟨38, 4, 2, 30, 2, 32, 33⟩, fun _ => ⟨none, none⟩⟩

theorem changeFileSize_neutral_iff_negative :
    ∃ t, changeFileSize bareMount slot0 [slash] (-1) bare = .ok (-1, t) ∧ Neutral bare t := by
  have run : changeFileSize bareMount slot0 [slash] (-1) bare = .ok (-1, bare) := rfl
  exact ⟨bare, run, (changeFileSize_neutral_iff rfl rfl run).mpr (by decide)⟩

/-- The root has not been read, so file_inode_exists finds no regular file; the call fails and
    keeps a reference to the inode. -/
theorem root_reference_kept : ∃ t, changeFileSize bareMount slot0 [slash] 0 bare = .ok (-1, t) ∧
    (bare.icache slot0).ref = 0 ∧ (t.icache slot0).ref = 1 := ⟨_, rfl, rfl, rfl⟩

end FsCalls
