import Mathlib.Data.Fintype.Card
import Xv6.Bio.Cache
import Xv6.Lib.LockOwner
import Xv6.Lib.Tally

/- Behind the buffer cache the disks look like a plain map. The list through bcache.head keeps
   all buffers in a ring, so that bget's first loop meets the buffer of a block if there is one
   and a block never has two; reference counts and sleeplocks keep a buffer in place while some
   call is on it, and B_DIRTY while the disk is behind. -/
namespace BufferCache
open LinkedRing LockOwner RunLaws Tally
variable {nbuf ncall : Nat} {α : Type}

def Ring (k : Links (Option (Fin nbuf))) : Prop :=
  ∃ l : List (Fin nbuf), Circular k none (l.map some) ∧ l.Nodup ∧ ∀ b, b ∈ l

theorem ring_binit (zero : α) (havedisk1 : Bool) (disk : Nat → Nat → α) :
    Ring (binit zero havedisk1 disk : State nbuf ncall α).links := by
  refine ⟨(List.finRange nbuf).reverse, ?_, ?_, by simp⟩
  · have empty : Circular (⟨fun _ => none, fun _ => none⟩ : Links (Option (Fin nbuf))) none [] :=
      ⟨by simp, by simp [Linked]⟩
    have built := circular_build ((List.finRange nbuf).map some) empty (by
      rw [List.append_nil, List.nodup_cons, List.nodup_reverse]
      exact ⟨by simp, (List.nodup_finRange nbuf).map (Option.some_injective _)⟩)
    rw [List.append_nil, ← List.map_reverse] at built
    exact built
  · rw [List.nodup_reverse]
    exact List.nodup_finRange nbuf

theorem ring_front {k : Links (Option (Fin nbuf))} (ring : Ring k) (b : Fin nbuf) :
    Ring ((k.unlink (some b)).insert none (some b)) := by
  obtain ⟨l,circular,distinct,all⟩ := ring
  obtain ⟨rest,moved,perm⟩ := circular_front circular (List.mem_map_of_mem (all b))
  -- the rest of the ring is made of buffers, since it is a part of the old one
  obtain ⟨m,rfl⟩ : ∃ m : List (Fin nbuf), rest = m.map some := by
    refine ⟨rest.filterMap id, ?_⟩
    have real : ∀ v ∈ rest, ∃ c, v = some c := by
      intro v mem
      obtain ⟨c,-,eq⟩ := List.mem_map.mp (perm.subset (List.mem_cons_of_mem _ mem))
      exact ⟨c, eq.symm⟩
    clear moved perm
    induction rest with
    | nil => rfl
    | cons v rest ih =>
      obtain ⟨c,rfl⟩ := real v (by simp)
      simpa using ih fun w mem => real w (List.mem_cons_of_mem _ mem)
  rw [← List.map_cons] at moved perm
  have same := (List.map_perm_map_iff (Option.some_injective _)).mp perm
  exact ⟨b :: m, moved, same.nodup_iff.mpr distinct, fun c => same.mem_iff.mpr (all c)⟩

theorem length_of_ring {l : List (Fin nbuf)} (distinct : l.Nodup) :
    (l.map some).length < nbuf + 1 := by
  have := distinct.length_le_card
  simp only [Fintype.card_fin] at this
  rw [List.length_map]
  omega

theorem scan_buffers {k : Links (Option (Fin nbuf))} {l : List (Fin nbuf)}
    (circular : Circular k none (l.map some)) (distinct : l.Nodup) (test : Fin nbuf → Bool) :
    (scan k.next none (fun v => v.any test) (nbuf + 1) (k.next none)).join = l.find? test := by
  rw [scan_ring circular _ (length_of_ring distinct), List.find?_map]
  have same : ((fun v : Option (Fin nbuf) => v.any test) ∘ some) = test := rfl
  rw [same]
  cases l.find? test with
  | none => rfl
  | some b => rfl

variable {s : State nbuf ncall α} {dev blockno : Nat} {b : Fin nbuf}

theorem cached_some (ring : Ring s.links)
    (found : cached s dev blockno = some b) :
    (s.buf b).dev = dev ∧ (s.buf b).blockno = blockno := by
  obtain ⟨l,circular,distinct,-⟩ := ring
  rw [cached, scan_buffers circular distinct] at found
  simpa using List.find?_some found

theorem cached_none (ring : Ring s.links)
    (missing : cached s dev blockno = none) (b : Fin nbuf) :
    ¬ ((s.buf b).dev = dev ∧ (s.buf b).blockno = blockno) := by
  obtain ⟨l,circular,distinct,all⟩ := ring
  rw [cached, scan_buffers circular distinct] at missing
  simpa using List.find?_eq_none.mp missing b (all b)

theorem unused_some (ring : Ring s.links)
    (found : unused s = some b) : (s.buf b).refcnt = 0 ∧ (s.buf b).dirty = false := by
  obtain ⟨l,circular,distinct,-⟩ := ring
  have back := circular_flip circular
  rw [← List.map_reverse] at back
  have loop := scan_buffers back (List.nodup_reverse.mpr distinct)
    (fun b => (s.buf b).refcnt = 0 ∧ (s.buf b).dirty = false)
  rw [unused] at found
  simp only [Links.flip] at loop
  rw [loop] at found
  simpa using List.find?_some found

@[simp, grind =] theorem modify_buf (s : State nbuf ncall α) (b : Fin nbuf) (c : Buf ncall α)
    (d : Fin nbuf) :
    (s.modify b c).buf d = if d = b then c else s.buf d :=
  Function.update_apply ..

@[simp, grind =] theorem goto_call (s : State nbuf ncall α) (p : Fin ncall) (x : Option (Call nbuf))
    (q : Fin ncall) : (s.goto p x).call q = if q = p then x else s.call q :=
  Function.update_apply ..

@[simp, grind =] theorem goto_buf (s : State nbuf ncall α) (p : Fin ncall)
    (x : Option (Call nbuf)) :
    (s.goto p x).buf = s.buf := rfl

def on : Option (Call nbuf) → Fin nbuf → Nat
  | some x, b => if x.b = b then 1 else 0
  | none, _ => 0

def Stage.locked : Stage → Bool
  | .locking | .leaving => false
  | .reading | .holding _ | .writing => true

def holds (c : Option (Call nbuf)) (b : Fin nbuf) : Prop :=
  ∃ x, c = some x ∧ x.b = b ∧ x.stage.locked

/-- refcnt counts the calls on a buffer, and its sleeplock names the one that holds it. -/
structure Books (s : State nbuf ncall α) : Prop where
  counted : ∀ b, (s.buf b).refcnt = ∑ p, on (s.call p) b
  owned : Owned holds (fun b => (s.buf b).lock) s.call

variable {x : Call nbuf}

theorem holds_some : holds (some x) b ↔ x.b = b ∧ x.stage.locked := by
  simp [holds]

theorem not_holds_none (b : Fin nbuf) : ¬ holds none b := by
  simp [holds]

variable {p : Fin ncall}

theorem refcnt_zero (books : Books s)
    (free : (s.buf b).refcnt = 0) (at_ : s.call p = some x) : x.b ≠ b := by
  intro same
  rw [books.counted b, Finset.sum_eq_zero_iff] at free
  have := free p (Finset.mem_univ p)
  simp [on, at_, same] at this

theorem counted_goto (books : Books s)
    {x : Option (Call nbuf)} {f : Fin nbuf → Nat}
    (change : ∀ b, f b + on (s.call p) b = (s.buf b).refcnt + on x b) (b : Fin nbuf) :
    f b = ∑ q, on (Function.update s.call p x q) b := by
  have moved := sum_change (f := fun q => on (s.call q) b)
    (g := fun q => on (Function.update s.call p x q) b) p (by
      intro q other
      rw [Function.update_of_ne other])
  have same := change b
  rw [books.counted b] at same
  simp only [Function.update_self] at moved
  omega

variable {t : State nbuf ncall α}

theorem books_work (books : Books s) {y : Call nbuf}
    (at_ : s.call p = some x) (calls : t.call = Function.update s.call p (some y))
    (same : y.b = x.b) (before : x.stage.locked) (after : y.stage.locked)
    (refcnt : ∀ b, (t.buf b).refcnt = (s.buf b).refcnt)
    (lock : ∀ b, (t.buf b).lock = (s.buf b).lock) :
    Books t := by
  refine ⟨fun b => ?_, ?_⟩
  · rw [calls, refcnt b]
    exact counted_goto books (f := fun b => (s.buf b).refcnt) (by simp [at_, on, same]) b
  · rw [calls, funext lock]
    refine owned_move books.owned fun b => ?_
    rw [at_, holds_some, holds_some, same, before, after]

theorem lock_modify (s : State nbuf ncall α) (b : Fin nbuf) (c : Buf ncall α) :
    (fun d => ((s.modify b c).buf d).lock) =
      Function.update (fun d => (s.buf d).lock) b c.lock := by
  funext d
  by_cases same : d = b
  · subst same
    simp
  · simp [same]

theorem transfer_frame (done : Transfer s b t) :
    t.call = s.call ∧ t.links = s.links ∧ t.written = s.written ∧
      ∀ d, (t.buf d).refcnt = (s.buf d).refcnt ∧ (t.buf d).lock = (s.buf d).lock ∧
        (t.buf d).dev = (s.buf d).dev ∧ (t.buf d).blockno = (s.buf d).blockno := by
  cases done with
  | write dirty =>
    refine ⟨rfl, rfl, rfl, fun d => ?_⟩
    by_cases same : d = b <;> simp [State.modify, same]
  | read clean =>
    refine ⟨rfl, rfl, rfl, fun d => ?_⟩
    by_cases same : d = b <;> simp [same]

theorem putBack_frame (s : State nbuf ncall α) (b : Fin nbuf) :
    (putBack s b).call = s.call ∧ (putBack s b).written = s.written ∧ (putBack s b).disk = s.disk ∧
      (putBack s b).buf = (s.modify b { s.buf b with refcnt := (s.buf b).refcnt - 1 }).buf := by
  simp only [putBack]
  split <;> exact ⟨rfl, rfl, rfl, rfl⟩

variable {e : Event ncall α}

theorem books_step (ring : Ring s.links)
    (books : Books s) (move : step s e = some t) : Books t := by
  cases step_moves move with
  | hit p dev blockno b idle found =>
    refine ⟨counted_goto books (fun c => ?_), ?_⟩
    · by_cases same : c = b
      · subst same
        simp [idle, on]
      · simp [idle, on, same, Ne.symm same]
    · rw [goto_buf, lock_modify, Function.update_eq_self]
      refine owned_move books.owned fun c => ?_
      simp [idle, holds, Stage.locked]
  | recycle p dev blockno b idle missing free =>
    have zero := (unused_some ring free).1
    refine ⟨counted_goto books (fun c => ?_), ?_⟩
    · by_cases same : c = b
      · subst same
        simp [idle, on, zero]
      · simp [idle, on, same, Ne.symm same]
    · rw [goto_buf, lock_modify, Function.update_eq_self]
      refine owned_move books.owned fun c => ?_
      simp [idle, holds, Stage.locked]
  | lock p x at_ stage free =>
    refine ⟨counted_goto books (fun c => ?_), ?_⟩
    · by_cases same : c = x.b <;> simp [same, at_, on]
    · rw [goto_buf, lock_modify]
      refine owned_acquire books.owned free fun c => ?_
      rw [at_, holds_some, holds_some, stage]
      simp only [Stage.locked, and_true, Bool.false_eq_true, and_false, or_false]
      exact eq_comm
  | present p x at_ stage valid =>
    exact books_work books at_ rfl rfl (by simp [stage, Stage.locked]) rfl (fun _ => rfl)
      fun _ => rfl
  | fill p x u at_ stage stale done =>
    obtain ⟨calls,-,-,same⟩ := transfer_frame done
    exact books_work books at_ (y := { x with stage := .holding false }) (by rw [← calls]; rfl) rfl
      (by simp [stage, Stage.locked]) rfl
      (fun c => (same c).1) fun c => (same c).2.1
  | change p x c data at_ stage =>
    refine books_work books at_ rfl rfl (by simp [stage, Stage.locked]) rfl (fun d => ?_)
      fun d => ?_
    all_goals by_cases same : d = x.b <;> simp [State.goto, State.modify, same]
  | bwrite p x c at_ stage =>
    refine books_work books at_ rfl rfl (by simp [stage, Stage.locked]) rfl (fun d => ?_)
      fun d => ?_
    all_goals by_cases same : d = x.b <;> simp [same]
  | flush p x u at_ stage done =>
    obtain ⟨calls,-,-,same⟩ := transfer_frame done
    exact books_work books at_ (y := { x with stage := .holding false }) (by rw [← calls]; rfl) rfl
      (by simp [stage, Stage.locked]) rfl
      (fun c => (same c).1) fun c => (same c).2.1
  | logWrite p x c at_ stage =>
    refine books_work books at_ rfl rfl (by simp [stage, Stage.locked]) rfl (fun d => ?_)
      fun d => ?_
    all_goals by_cases same : d = x.b <;> simp [same]
  | brelse p x at_ stage =>
    refine ⟨counted_goto books (fun c => ?_), ?_⟩
    · by_cases same : c = x.b <;> simp [same, at_, on]
    · rw [goto_buf, lock_modify]
      refine owned_release books.owned (p := p) (l := x.b) ?_ fun c => ?_
      · simp [at_, holds, stage, Stage.locked]
      · simp only [at_, holds_some, stage, Stage.locked]
        grind
  | putBack p x at_ stage =>
    obtain ⟨calls,-,-,bufs⟩ := putBack_frame s x.b
    have counts : 0 < (s.buf x.b).refcnt := by
      rcases Nat.eq_zero_or_pos (s.buf x.b).refcnt with zero | pos
      · exact absurd rfl (refcnt_zero books zero at_)
      · exact pos
    refine ⟨fun c => ?_, ?_⟩
    · show ((putBack s x.b).buf c).refcnt = ∑ q,
        on (Function.update (putBack s x.b).call p none q) c
      rw [bufs, calls]
      refine counted_goto books (f := fun c => ((s.modify x.b _).buf c).refcnt) (fun c => ?_) c
      by_cases same : c = x.b
      · subst same
        simp [at_, on]
        omega
      · simp [at_, on, same, Ne.symm same]
    · show Owned holds (fun c => ((putBack s x.b).buf c).lock)
        (Function.update (putBack s x.b).call p none)
      rw [bufs, lock_modify, Function.update_eq_self, calls]
      refine owned_move books.owned fun c => ?_
      simp [at_, holds, Stage.locked, stage]

/-- A block has one buffer at most, and a call is on the buffer of the block it asked for. -/
structure Keys (P : Nat → Prop) (s : State nbuf ncall α) : Prop where
  unique : ∀ b c, (s.buf b).dev ≠ 0 → (s.buf b).dev = (s.buf c).dev →
    (s.buf b).blockno = (s.buf c).blockno → b = c
  asked : ∀ p x, s.call p = some x →
    (s.buf x.b).dev = x.dev ∧ (s.buf x.b).blockno = x.blockno ∧ P x.dev
  devices : ∀ b, (s.buf b).dev ≠ 0 → P (s.buf b).dev

def Within (P : Nat → Prop) (_ : State nbuf ncall α) : Event ncall α → Prop
  | .bget _ dev _ => P dev
  | _ => True

variable {P : Nat → Prop}

theorem keys_same (keys : Keys P s)
    (bufs : ∀ d, (t.buf d).dev = (s.buf d).dev ∧ (t.buf d).blockno = (s.buf d).blockno)
    (calls : ∀ q y, t.call q = some y →
      ∃ z, s.call q = some z ∧ y.b = z.b ∧ y.dev = z.dev ∧ y.blockno = z.blockno) : Keys P t where
  unique b c := by
    rw [(bufs b).1, (bufs b).2, (bufs c).1, (bufs c).2]
    exact keys.unique b c
  asked q y at_ := by
    obtain ⟨z,before,b,dev,blockno⟩ := calls q y at_
    rw [(bufs y.b).1, (bufs y.b).2, b, dev, blockno]
    exact keys.asked q z before
  devices b := by
    rw [(bufs b).1]
    exact keys.devices b

theorem calls_stage {stage : Stage}
    (at_ : s.call p = some x)
    (calls : t.call = Function.update s.call p (some { x with stage := stage }))
    (q : Fin ncall) (y : Call nbuf) (now : t.call q = some y) :
    ∃ z, s.call q = some z ∧ y.b = z.b ∧ y.dev = z.dev ∧ y.blockno = z.blockno := by
  rw [calls, Function.update_apply] at now
  split at now
  · cases now
    exact ⟨x, ‹q = p› ▸ at_, rfl, rfl, rfl⟩
  · exact ⟨y, now, rfl, rfl, rfl⟩

variable {c : Buf ncall α}

theorem keys_modify (keys : Keys P s)
    {stage : Stage} (at_ : s.call p = some x)
    (bufs : t.buf = Function.update s.buf b c) (dev : c.dev = (s.buf b).dev)
    (blockno : c.blockno = (s.buf b).blockno)
    (calls : t.call = Function.update s.call p (some { x with stage := stage })) : Keys P t := by
  refine keys_same keys (fun d => ?_) (calls_stage at_ calls)
  rw [bufs, Function.update_apply]
  split
  · subst d
    exact ⟨dev, blockno⟩
  · exact ⟨rfl, rfl⟩

theorem keys_recycle (ring : Ring s.links) (books : Books s)
    (keys : Keys P s) (device : P dev)
    (missing : cached s dev blockno = none) (free : unused s = some b)
    (named : c.dev = dev ∧ c.blockno = blockno) :
    Keys P ((s.modify b c).goto p (some ⟨.locking, dev, blockno, b⟩)) := by
  have absent := cached_none ring missing
  have zero := (unused_some ring free).1
  refine ⟨fun d d' => ?_, fun q y at_ => ?_, fun d => ?_⟩
  · have before := keys.unique d d'
    have here := absent d
    have there := absent d'
    simp only [goto_buf, modify_buf]
    grind
  · simp only [goto_call] at at_
    split at at_
    · cases at_
      simp [named, device]
    · have elsewhere := refcnt_zero books zero at_
      simp only [goto_buf, modify_buf, elsewhere, if_false]
      exact keys.asked q y at_
  · have before := keys.devices d
    simp only [goto_buf, modify_buf]
    grind

theorem keys_step (ring : Ring s.links)
    (books : Books s) (keys : Keys P s) (within : Within P s e) (move : step s e = some t) :
    Keys P t := by
  cases step_moves move with
  | hit p dev blockno b idle found =>
    have named := cached_some ring found
    have bufs : ∀ d, ((s.modify b { s.buf b with refcnt := (s.buf b).refcnt + 1 }).buf d).dev =
      (s.buf d).dev ∧
        ((s.modify b { s.buf b with refcnt := (s.buf b).refcnt + 1 }).buf d).blockno =
          (s.buf d).blockno := by
      intro d
      by_cases same : d = b <;> simp [same]
    refine ⟨fun d d' => ?_, fun q y at_ => ?_, fun d => ?_⟩
    · rw [goto_buf, (bufs d).1, (bufs d).2, (bufs d').1, (bufs d').2]
      exact keys.unique d d'
    · rw [goto_buf, (bufs y.b).1, (bufs y.b).2]
      simp only [goto_call] at at_
      split at at_
      · cases at_
        exact ⟨named.1, named.2, within⟩
      · exact keys.asked q y at_
    · rw [goto_buf, (bufs d).1]
      exact keys.devices d
  | recycle p dev blockno b idle missing free =>
    exact keys_recycle ring books keys within missing free ⟨rfl,rfl⟩
  | lock p x at_ stage free => exact keys_modify keys at_ rfl rfl rfl rfl
  | present p x at_ stage valid => exact keys_same keys (fun _ => ⟨rfl,rfl⟩) (calls_stage at_ rfl)
  | fill p x u at_ stage stale done =>
    obtain ⟨calls,-,-,same⟩ := transfer_frame done
    exact keys_same keys (fun d => (same d).2.2) (calls_stage at_ (by rw [← calls]; rfl))
  | change p x c data at_ stage => exact keys_modify keys at_ rfl rfl rfl rfl
  | bwrite p x c at_ stage => exact keys_modify keys at_ rfl rfl rfl rfl
  | flush p x u at_ stage done =>
    obtain ⟨calls,-,-,same⟩ := transfer_frame done
    exact keys_same keys (fun d => (same d).2.2) (calls_stage at_ (by rw [← calls]; rfl))
  | logWrite p x c at_ stage => exact keys_modify keys at_ rfl rfl rfl rfl
  | brelse p x at_ stage => exact keys_modify keys at_ rfl rfl rfl rfl
  | putBack p x at_ stage =>
    obtain ⟨calls,-,-,bufs⟩ := putBack_frame s x.b
    refine keys_same keys (fun d => ?_) fun q y now => ?_
    · rw [goto_buf, bufs]
      by_cases same : d = x.b <;> simp [same]
    · rw [goto_call] at now
      split at now
      · cases now
      · exact ⟨y, calls ▸ now, rfl, rfl, rfl⟩

def Unsaved (s : State nbuf ncall α) (b : Fin nbuf) : Prop :=
  (s.buf b).dirty = true ∨ ∃ p x, s.call p = some x ∧ x.b = b ∧ x.stage = .holding true

def Ready (s : State nbuf ncall α) (x : Call nbuf) : Prop :=
  (∀ c, x.stage = .holding c → (s.buf x.b).valid = true) ∧
    (x.stage = .writing → (s.buf x.b).dirty = true)

/-- A valid buffer has what was written last to its block, and so has the disk, if no buffer is
    ahead of it. -/
structure Contents (P : Nat → Prop) (s : State nbuf ncall α) : Prop where
  read : ∀ b, (s.buf b).dirty = true → (s.buf b).valid = true
  ready : ∀ p x, s.call p = some x → Ready s x
  valid : ∀ b, (s.buf b).dev ≠ 0 → (s.buf b).valid = true →
    (s.buf b).data = s.written (s.buf b).dev (s.buf b).blockno
  saved : ∀ dev blockno, P dev →
    (∀ b, (s.buf b).dev = dev → (s.buf b).blockno = blockno → ¬ Unsaved s b) →
    s.disk (dev % 2) blockno = s.written dev blockno

theorem unsaved_elsewhere {d : Fin nbuf}
    (dirty : (t.buf d).dirty = (s.buf d).dirty) (calls : ∀ q, q ≠ p → t.call q = s.call q)
    (away : ∀ x, s.call p = some x → x.b ≠ d) (unsaved : Unsaved s d) : Unsaved t d := by
  rcases unsaved with old | ⟨q,y,now,on_,changed⟩
  · exact .inl (dirty.trans old)
  · refine .inr ⟨q, y, ?_, on_, changed⟩
    have other : q ≠ p := by
      rintro rfl
      exact away y now on_
    rw [calls q other, now]

theorem contents_quiet (good : Contents P s)
    (bufs : ∀ d, (t.buf d).valid = (s.buf d).valid ∧ (t.buf d).dirty = (s.buf d).dirty ∧
      (t.buf d).data = (s.buf d).data ∧ (t.buf d).dev = (s.buf d).dev ∧
      (t.buf d).blockno = (s.buf d).blockno)
    (disk : t.disk = s.disk) (written : t.written = s.written)
    (ready : ∀ q y, t.call q = some y → s.call q = some y ∨ Ready s y)
    (kept : ∀ q y, s.call q = some y → y.stage = .holding true → t.call q = some y) :
    Contents P t := by
  refine ⟨fun b => ?_, fun q y now => ?_, fun b => ?_, fun dev blockno device none => ?_⟩
  · obtain ⟨valid,dirty,-⟩ := bufs b
    rw [valid, dirty]
    exact good.read b
  · obtain ⟨valid,dirty,-⟩ := bufs y.b
    have before : Ready s y := (ready q y now).elim (good.ready q y) id
    rw [Ready, valid, dirty]
    exact before
  · obtain ⟨valid,-,data,dev,blockno⟩ := bufs b
    rw [valid, data, dev, blockno, written]
    exact good.valid b
  · rw [disk, written]
    refine good.saved dev blockno device fun b isDev isBlock unsaved => ?_
    obtain ⟨-,dirty,-,sameDev,sameBlock⟩ := bufs b
    refine none b (sameDev.trans isDev) (sameBlock.trans isBlock) ?_
    rcases unsaved with old | ⟨q,y,at_,on_,stage⟩
    · exact .inl (dirty.trans old)
    · exact .inr ⟨q, y, kept q y at_ stage, on_, stage⟩

theorem contents_recycle (ring : Ring s.links) (books : Books s)
    (good : Contents P s) (idle : s.call p = none)
    (free : unused s = some b) (invalid : c.valid = false) (clean : c.dirty = false) :
    Contents P ((s.modify b c).goto p (some ⟨.locking, dev, blockno, b⟩)) := by
  obtain ⟨zero,saved⟩ := unused_some ring free
  refine ⟨fun d => ?_, fun q y now => ?_, fun d => ?_, fun dev' blockno' device none => ?_⟩
  · have := good.read d
    simp only [goto_buf, modify_buf]
    grind
  · rw [goto_call] at now
    split at now
    · cases now
      exact ⟨by simp, by simp⟩
    · have elsewhere := refcnt_zero books zero now
      have before := good.ready q y now
      simpa only [Ready, goto_buf, modify_buf, elsewhere, if_false] using before
  · have := good.valid d
    simp only [State.goto, State.modify, Function.update_apply]
    grind
  · refine good.saved dev' blockno' device fun d isDev isBlock unsaved => ?_
    by_cases recycled : d = b
    · subst recycled
      rcases unsaved with old | ⟨q,y,at_,on_,-⟩
      · rw [saved] at old
        cases old
      · exact refcnt_zero books zero at_ on_
    · refine none d (by simpa [recycled] using isDev) (by simpa [recycled] using isBlock) ?_
      exact unsaved_elsewhere (p := p) (by simp [recycled]) (by simp +contextual [State.modify])
        (by simp [idle]) unsaved

theorem contents_change (nonzero : ¬ P 0) (keys : Keys P s)
    (good : Contents P s) {c : Bool} (data : α)
    (at_ : s.call p = some x) (stage : x.stage = .holding c) :
    Contents P ({ s with written := set s.written x.dev x.blockno data }.modify x.b
      { s.buf x.b with data := data } |>.goto p (some { x with stage := .holding true })) := by
  obtain ⟨isDev,isBlock,device⟩ := keys.asked p x at_
  have real : (s.buf x.b).dev ≠ 0 := by
    intro zero
    exact nonzero (zero ▸ isDev ▸ device)
  refine ⟨fun d => ?_, fun q y now => ?_, fun d => ?_, fun dev blockno ok none => ?_⟩
  · have := good.read d
    simp only [State.goto, State.modify, Function.update_apply]
    grind
  · have before := good.ready p x at_
    have others := good.ready q y
    simp only [State.goto, State.modify, Function.update_apply, Ready] at *
    grind
  · have before := good.valid d
    have same := keys.unique x.b d real
    simp only [State.goto, State.modify, Function.update_apply, set_apply]
    grind
  · have other : ¬ (dev = x.dev ∧ blockno = x.blockno) := by
      rintro ⟨rfl,rfl⟩
      refine none x.b (by simp [isDev, State.modify]) (by simp [isBlock, State.modify]) ?_
      exact .inr ⟨p, { x with stage := .holding true }, by simp, rfl, rfl⟩
    show s.disk (dev % 2) blockno = set s.written x.dev x.blockno data dev blockno
    rw [set_apply, if_neg other]
    refine good.saved dev blockno ok fun d dDev dBlock unsaved => ?_
    have apart : d ≠ x.b := by
      rintro rfl
      exact other ⟨dDev.symm.trans isDev, dBlock.symm.trans isBlock⟩
    refine none d (by simpa [State.modify, apart] using dDev)
      (by simpa [State.modify, apart] using dBlock) ?_
    exact unsaved_elsewhere (p := p) (by simp [State.modify, apart])
      (by simp +contextual [State.modify])
      (by simp [at_, Ne.symm apart]) unsaved

theorem contents_mark (good : Contents P s)
    {c : Bool} {next : Stage} (at_ : s.call p = some x) (stage : x.stage = .holding c) :
    Contents P ((s.modify x.b { s.buf x.b with dirty := true }).goto p
      (some { x with stage := next })) := by
  have present := (good.ready p x at_).1 c stage
  refine ⟨fun d => ?_, fun q y now => ?_, fun d => ?_, fun dev blockno ok none => ?_⟩
  · have := good.read d
    simp only [goto_buf, modify_buf]
    grind
  · have others := good.ready q y
    simp only [goto_buf, goto_call, State.modify, Function.update_apply, Ready] at *
    grind
  · have := good.valid d
    simp only [State.goto, State.modify, Function.update_apply]
    grind
  · refine good.saved dev blockno ok fun d dDev dBlock unsaved => ?_
    by_cases this : d = x.b
    · subst this
      exact none x.b (by simpa using dDev) (by simpa using dBlock) (.inl (by simp))
    · refine none d (by simpa [this] using dDev) (by simpa [this] using dBlock) ?_
      exact unsaved_elsewhere (p := p) (by simp [this]) (by simp +contextual [State.modify])
        (by simp [at_, Ne.symm this]) unsaved

theorem contents_transfer (nonzero : ¬ P 0)
    (apart : ∀ d e, P d → P e → d % 2 = e % 2 → d = e) (books : Books s) (keys : Keys P s)
    (good : Contents P s) (at_ : s.call p = some x)
    (locked : x.stage.locked) (behind : (s.buf x.b).dirty = false → (s.buf x.b).valid = false)
    (done : Transfer s x.b t) :
    Contents P (t.goto p (some { x with stage := .holding false })) := by
  obtain ⟨isDev,isBlock,device⟩ := keys.asked p x at_
  have real : (s.buf x.b).dev ≠ 0 := by
    intro zero
    exact nonzero (zero ▸ isDev ▸ device)
  cases done with
  | write dirty =>
    have same := good.valid x.b real (good.read x.b dirty)
    refine ⟨fun d => ?_, fun q y now => ?_, fun d => ?_, fun dev blockno ok none => ?_⟩
    · have := good.read d
      simp only [State.goto, State.modify, Function.update_apply]
      grind
    · have others := good.ready q y
      have exclusive : s.call q = some y → y.b = x.b → y.stage.locked → q = p := by
        intro there on_ held
        exact owned_exclusive books.owned (l := x.b) (there ▸ holds_some.mpr ⟨on_, held⟩)
          (at_ ▸ holds_some.mpr ⟨rfl, locked⟩)
      simp only [State.goto, State.modify, Function.update_apply, Ready] at *
      grind [Stage.locked]
    · have := good.valid d
      simp only [State.goto, State.modify, Function.update_apply]
      grind
    · show set s.disk ((s.buf x.b).dev % 2) (s.buf x.b).blockno (s.buf x.b).data (dev % 2) blockno =
        s.written dev blockno
      rw [set_apply]
      split
      · rename_i cell
        rw [same, cell.2, apart dev (s.buf x.b).dev ok (isDev ▸ device) cell.1]
      · rename_i cell
        refine good.saved dev blockno ok fun d dDev dBlock unsaved => ?_
        have other : d ≠ x.b := by
          rintro rfl
          exact cell ⟨by rw [dDev], dBlock.symm⟩
        refine none d (by simpa [State.modify, other] using dDev)
          (by simpa [State.modify, other] using dBlock) ?_
        exact unsaved_elsewhere (p := p) (by simp [State.modify, other])
          (by simp +contextual [State.modify])
          (by simp [at_, Ne.symm other]) unsaved
  | read clean =>
    have stale := behind clean
    have settled : s.disk ((s.buf x.b).dev % 2) (s.buf x.b).blockno =
        s.written (s.buf x.b).dev (s.buf x.b).blockno := by
      refine good.saved _ _ (isDev ▸ device) fun d dDev dBlock unsaved => ?_
      have this := keys.unique x.b d real dDev.symm dBlock.symm
      subst this
      rcases unsaved with old | ⟨q,y,now,on_,changed⟩
      · rw [clean] at old
        cases old
      · have := (good.ready q y now).1 true changed
        rw [on_, stale] at this
        cases this
    refine ⟨fun d => ?_, fun q y now => ?_, fun d => ?_, fun dev blockno ok none => ?_⟩
    · have := good.read d
      simp only [State.goto, State.modify, Function.update_apply]
      grind
    · have others := good.ready q y
      simp only [State.goto, State.modify, Function.update_apply, Ready] at *
      grind
    · have := good.valid d
      simp only [State.goto, State.modify, Function.update_apply]
      grind
    · by_cases this : dev = (s.buf x.b).dev ∧ blockno = (s.buf x.b).blockno
      · obtain ⟨rfl,rfl⟩ := this
        exact settled
      · refine good.saved dev blockno ok fun d dDev dBlock unsaved => ?_
        have other : d ≠ x.b := by
          rintro rfl
          exact this ⟨dDev.symm, dBlock.symm⟩
        refine none d (by simpa [other] using dDev) (by simpa [other] using dBlock) ?_
        exact unsaved_elsewhere (p := p) (by simp [other]) (by simp +contextual [State.modify])
          (by simp [at_, Ne.symm other]) unsaved

theorem contents_step (nonzero : ¬ P 0)
    (apart : ∀ d e, P d → P e → d % 2 = e % 2 → d = e) (ring : Ring s.links) (books : Books s)
    (keys : Keys P s) (good : Contents P s) (move : step s e = some t) : Contents P t := by
  cases step_moves move with
  | hit p dev blockno b idle found =>
    refine contents_quiet good (fun d => ?_) rfl rfl (fun q y now => ?_)
      fun q y before changed => ?_
    · by_cases same : d = b <;> simp [same]
    · by_cases mine : q = p
      · refine .inr ?_
        simp only [goto_call, mine, if_true, Option.some.injEq] at now
        subst now
        simp [Ready]
      · exact .inl (by simpa [State.modify, mine] using now)
    · have other : q ≠ p := by
        rintro rfl
        rw [idle] at before
        cases before
      simpa [State.modify, other] using before
  | recycle p dev blockno b idle missing free =>
    exact contents_recycle ring books good idle free rfl rfl
  | lock p x at_ stage free =>
    refine contents_quiet good (fun d => ?_) rfl rfl ?_ ?_
    · by_cases same : d = x.b <;> simp [same]
    · simp only [goto_call, State.modify, Ready]
      grind
    · simp only [goto_call, State.modify]
      grind
  | present p x at_ stage valid =>
    refine contents_quiet good (fun d => ⟨rfl,rfl,rfl,rfl,rfl⟩) rfl rfl ?_ ?_
    · simp only [goto_call, Ready]
      grind
    · simp only [goto_call]
      grind
  | fill p x u at_ stage stale done =>
    exact contents_transfer nonzero apart books keys good at_ (by simp [stage, Stage.locked])
      (fun _ => stale) done
  | change p x c data at_ stage => exact contents_change nonzero keys good data at_ stage
  | bwrite p x c at_ stage => exact contents_mark good at_ stage
  | flush p x u at_ stage done =>
    have dirty := (good.ready p x at_).2 stage
    exact contents_transfer nonzero apart books keys good at_ (by simp [stage, Stage.locked])
      (by simp [dirty]) done
  | logWrite p x c at_ stage => exact contents_mark good at_ stage
  | brelse p x at_ stage =>
    refine contents_quiet good (fun d => ?_) rfl rfl ?_ ?_
    · by_cases same : d = x.b <;> simp [same]
    · simp only [goto_call, State.modify, Ready]
      grind
    · simp only [goto_call, State.modify]
      grind
  | putBack p x at_ stage =>
    obtain ⟨calls,written,disk,bufs⟩ := putBack_frame s x.b
    refine contents_quiet good (fun d => ?_) disk written ?_ ?_
    · rw [goto_buf, bufs]
      by_cases same : d = x.b <;> simp [same]
    · simp only [goto_call, calls]
      grind
    · simp only [goto_call, calls]
      grind

theorem ring_step (ring : Ring s.links)
    (move : step s e = some t) : Ring t.links := by
  cases step_moves move with
  | fill p x u at_ stage stale done => exact (transfer_frame done).2.1 ▸ ring
  | flush p x u at_ stage done => exact (transfer_frame done).2.1 ▸ ring
  | putBack p x at_ stage =>
    show Ring (putBack s x.b).links
    simp only [putBack]
    split
    · exact ring_front ring x.b
    · exact ring
  | _ => exact ring

/-- All of the cache's invariants, for breads of devices in `P`. -/
structure Coherent (P : Nat → Prop) (s : State nbuf ncall α) : Prop where
  ring : Ring s.links
  books : Books s
  keys : Keys P s
  contents : Contents P s

theorem coherent_binit (zero : α) (havedisk1 : Bool) (disk : Nat → Nat → α) :
    Coherent P (binit zero havedisk1 disk : State nbuf ncall α) where
  ring := ring_binit zero havedisk1 disk
  books := ⟨fun b => by simp [binit, on], fun p b => by simp [binit, not_holds_none]⟩
  keys :=
    ⟨fun b c real => absurd rfl real, fun p x at_ => (nomatch at_), fun b real => absurd rfl real⟩
  contents := ⟨fun b dirty => (nomatch dirty), fun p x at_ => (nomatch at_),
    fun b real => absurd rfl real, fun _ _ _ _ => rfl⟩

theorem coherent_step (nonzero : ¬ P 0) (apart : ∀ d e, P d → P e → d % 2 = e % 2 → d = e)
    (good : Coherent P s) (within : Within P s e)
    (move : step s e = some t) : Coherent P t where
  ring := ring_step good.ring move
  books := books_step good.ring good.books move
  keys := keys_step good.ring good.books good.keys within move
  contents := contents_step nonzero apart good.ring good.books good.keys good.contents move

theorem renamed_free (ring : Ring s.links)
    (move : step s e = some t)
    (renamed : ¬ ((t.buf b).dev = (s.buf b).dev ∧ (t.buf b).blockno = (s.buf b).blockno)) :
    (s.buf b).refcnt = 0 ∧ (s.buf b).dirty = false := by
  have kept : ∀ {c : Fin nbuf} {d : Buf ncall α}, d.dev = (s.buf c).dev →
    d.blockno = (s.buf c).blockno →
      (Function.update s.buf c d b).dev = (s.buf b).dev ∧
        (Function.update s.buf c d b).blockno = (s.buf b).blockno := by
    intro c d dev blockno
    by_cases same : b = c
    · subst same
      simp [dev, blockno]
    · simp [same]
  cases step_moves move with
  | recycle p dev blockno c idle missing free =>
    by_cases same : b = c
    · exact same ▸ unused_some ring free
    · simp [same] at renamed
  | present p x at_ stage valid => exact absurd ⟨rfl,rfl⟩ renamed
  | fill p x u at_ stage stale done => exact absurd ((transfer_frame done).2.2.2 b).2.2 renamed
  | flush p x u at_ stage done => exact absurd ((transfer_frame done).2.2.2 b).2.2 renamed
  | putBack p x at_ stage =>
    obtain ⟨-,-,-,bufs⟩ := putBack_frame s x.b
    refine absurd ?_ renamed
    rw [goto_buf, bufs]
    exact kept rfl rfl
  | _ =>
    refine absurd ?_ renamed
    exact kept rfl rfl

/-- In every state that calls of bread reach, for device numbers of which no two select the same
    disk: the list is a ring of all buffers, no block has two buffers, a buffer in use or with
    B_DIRTY is not renamed by any step, and whoever holds a buffer finds in it what was written
    last to the block asked for. -/
theorem cache_transparent (P : Nat → Prop) (nonzero : ¬ P 0)
    (apart : ∀ d e, P d → P e → d % 2 = e % 2 → d = e) (zero : α) (havedisk1 : Bool)
    (disk : Nat → Nat → α) (es : List (Event ncall α)) (s : State nbuf ncall α)
    (within : Along step (Within P) (binit zero havedisk1 disk : State nbuf ncall α) es)
    (run : exec step (binit zero havedisk1 disk) es = some s) :
    (∃ l : List (Fin nbuf), Circular s.links none (l.map some) ∧ l.Nodup ∧ ∀ b, b ∈ l) ∧
      (∀ b c, (s.buf b).dev ≠ 0 → (s.buf b).dev = (s.buf c).dev →
        (s.buf b).blockno = (s.buf c).blockno → b = c) ∧
      (∀ e t b, step s e = some t → 0 < (s.buf b).refcnt ∨ (s.buf b).dirty = true →
        (t.buf b).dev = (s.buf b).dev ∧ (t.buf b).blockno = (s.buf b).blockno) ∧
      ∀ p x c, s.call p = some x → x.stage = .holding c →
        (s.buf x.b).dev = x.dev ∧ (s.buf x.b).blockno = x.blockno ∧
          (s.buf x.b).data = s.written x.dev x.blockno := by
  have good : Coherent P s := exec_invariant (Coherent P)
    (fun _ _ _ good ok move => coherent_step nonzero apart good ok move)
    (coherent_binit zero havedisk1 disk) within run
  refine ⟨good.ring, good.keys.unique, fun e t b move busy => ?_, fun p x c at_ stage => ?_⟩
  · by_contra renamed
    have free := renamed_free good.ring move renamed
    rcases busy with used | dirty
    · omega
    · rw [free.2] at dirty
      cases dirty
  · obtain ⟨isDev,isBlock,device⟩ := good.keys.asked p x at_
    refine ⟨isDev, isBlock, ?_⟩
    have real : (s.buf x.b).dev ≠ 0 := by
      intro zero
      exact nonzero (zero ▸ isDev ▸ device)
    have same := good.contents.valid x.b real ((good.contents.ready p x at_).1 c stage)
    rw [same, isDev, isBlock]

def loggedThenRead : List (Event 2 Nat) :=
  [.bget 0 1 5, .acquiresleep 0, .bread 0, .bget 1 1 5, .modify 0 7, .logWrite 0, .brelse 0,
    .putBack 0, .acquiresleep 1, .bread 1]

theorem cache_transparent_logged :
    ∃ (s : State 30 2 Nat) (x : Call 30),
      exec step (binit 0 true fun _ _ => 0) loggedThenRead = some s ∧
      s.call 1 = some x ∧ x.stage = .holding false ∧ (s.buf x.b).data = 7 ∧
      (s.buf x.b).data = s.written x.dev x.blockno := by
  have out : (exec step (binit 0 true fun _ _ => 0 : State 30 2 Nat) loggedThenRead).map (fun s =>
      (s.call 1).map fun x => (x.stage, (s.buf x.b).data)) = some (some (.holding false, 7)) := by
    decide +kernel
  obtain ⟨s,run,call⟩ := Option.map_eq_some_iff.mp out
  obtain ⟨x,at_,eq⟩ := Option.map_eq_some_iff.mp call
  obtain ⟨stage,data⟩ := Prod.mk.inj eq
  have devices : Along step (Within (· = 1)) (binit 0 true fun _ _ => 0 : State 30 2 Nat)
    loggedThenRead :=
      along_of_forall (by simp [loggedThenRead, Within])
  have transparent := cache_transparent (· = 1) (by decide) (by omega) 0 true (fun _ _ => 0)
    loggedThenRead s devices run
  exact ⟨s, x, run, at_, stage, data, (transparent.2.2.2 1 x false at_ stage).2.2⟩

def otherDevice : List (Event 2 Nat) :=
  [.bget 0 1 5, .acquiresleep 0, .bread 0, .modify 0 7, .bwrite 0, .iderw 0, .brelse 0, .putBack 0,
    .bget 0 3 5, .acquiresleep 0, .bread 0]

/-- After binit all buffers are of block 0 of device 0; and device numbers 1 and 3 select the same
    disk, so that a write to one shows in the other. -/
theorem unused_and_aliased :
    (∃ b c : Fin 30, b ≠ c ∧
      ((binit 0 true fun _ _ => 0 : State 30 2 Nat).buf b).dev =
        ((binit 0 true fun _ _ => 0 : State 30 2 Nat).buf c).dev ∧
      ((binit 0 true fun _ _ => 0 : State 30 2 Nat).buf b).blockno =
        ((binit 0 true fun _ _ => 0 : State 30 2 Nat).buf c).blockno) ∧
    ∃ (s : State 30 2 Nat) (x : Call 30),
      Along step (Within (· ≠ 0)) (binit 0 true fun _ _ => 0 : State 30 2 Nat) otherDevice ∧
      exec step (binit 0 true fun _ _ => 0) otherDevice = some s ∧
      s.call 0 = some x ∧ x.stage = .holding false ∧
      (s.buf x.b).data ≠ s.written x.dev x.blockno := by
  refine ⟨⟨⟨0, by decide⟩, ⟨1, by decide⟩, by decide, rfl, rfl⟩, ?_⟩
  have out : (exec step (binit 0 true fun _ _ => 0 : State 30 2 Nat) otherDevice).map (fun s =>
      (s.call 0).map fun x => (x.stage, (s.buf x.b).data, s.written x.dev x.blockno)) =
        some (some (.holding false, 7, 0)) := by
    decide +kernel
  obtain ⟨s,run,call⟩ := Option.map_eq_some_iff.mp out
  obtain ⟨x,at_,eq⟩ := Option.map_eq_some_iff.mp call
  obtain ⟨stage,rest⟩ := Prod.mk.inj eq
  obtain ⟨data,written⟩ := Prod.mk.inj rest
  refine ⟨s, x, along_of_forall (by simp [otherDevice, Within]), run, at_, stage, ?_⟩
  rw [data, written]
  decide

end BufferCache
