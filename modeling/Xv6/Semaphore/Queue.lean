import Xv6.Semaphore.Accounts

/- The wait queue of a semaphore and the processes in it, along runs in which no kill hits
   a process inside sem_acquire. -/
namespace SemaphoreQueue
open RingQueue RunLaws KernelSemaphore SemaphoreSystem SemaphoreAccounts
variable {nproc nsem : Nat}

/-- A sleeping process sleeps in `sem_acquire` on its own pid field; a process inside
    `sem_acquire` is asleep or woken, and no kill reached it there. -/
structure Seat (p : Fin nproc) (place : Place nsem) (x : Proc nproc) : Prop where
  channel : x.state = .sleeping → x.chan = some p
  lodged : x.state = .sleeping → place ≠ .user
  alive : place ≠ .user → x.state = .sleeping ∨ x.state = .runnable
  spared : place ≠ .user → x.killed = false

def Seated (k : Kernel nproc nsem) : Prop := ∀ p, Seat p (k.place p) (k.ptable p)

variable {k k' : Kernel nproc nsem} {p : Fin nproc}

theorem seated_update (h : Seated k)
    (others : ∀ r, r ≠ p → k'.place r = k.place r ∧ k'.ptable r = k.ptable r)
    (own : Seat p (k'.place p) (k'.ptable p)) : Seated k' := by
  intro r
  by_cases same : r = p
  · subst r; exact own
  · obtain ⟨place,proc⟩ := others r same
    rw [place, proc]
    exact h r

variable {i : Fin nsem}

theorem transit_congr (same : ∀ r, InTransit k' i r ↔ InTransit k i r) :
    transit k' i = transit k i := by
  unfold transit
  congr 1
  ext r
  simp [same]

theorem transit_insert {f : Fin nproc}
    (joins : ∀ r, InTransit k' i r ↔ InTransit k i r ∨ r = f) (new : ¬ InTransit k i f) :
    transit k' i = transit k i + 1 := by
  have grown : Finset.univ.filter (InTransit k' i) =
      insert f (Finset.univ.filter (InTransit k i)) := by
    ext r
    simp only [Finset.mem_filter, Finset.mem_univ, true_and, Finset.mem_insert, joins]
    exact or_comm
  unfold transit
  rw [grown, Finset.card_insert_of_notMem (by simpa using new)]

theorem transit_erase (leaves : ∀ r, InTransit k' i r ↔ InTransit k i r ∧ r ≠ p)
    (was : InTransit k i p) :
    transit k' i + 1 = transit k i := by
  have shrunk : Finset.univ.filter (InTransit k' i) =
      (Finset.univ.filter (InTransit k i)).erase p := by
    ext r
    simp only [Finset.mem_filter, Finset.mem_univ, true_and, Finset.mem_erase, leaves]
    exact and_comm
  unfold transit
  rw [shrunk]
  exact Finset.card_erase_add_one (by simpa using was)

theorem free_not_asleep (free : Free k p)
    (i : Fin nsem) : ¬ Asleep k p i := by
  intro asleep
  have := free.2.1.symm.trans asleep.1
  cases this

/-! The rest of `sem_acquire` after its `sleep`, for a process no kill reached. -/

theorem resume_spared (spared : (k.ptable p).killed = false) :
    semResume k p i =
      { k with
        semtable := Function.update k.semtable i (k.semtable i).decrement
        ptable := Function.update k.ptable p { k.ptable p with chan := none }
        place := Function.update k.place p .user } := by
  simp [semResume, spared]

theorem asleep_after_resume (spared : (k.ptable p).killed = false)
    (woken : (k.ptable p).state = .runnable)
    (r : Fin nproc) (j : Fin nsem) : Asleep (semResume k p i) r j ↔ Asleep k r j := by
  rw [resume_spared spared]
  by_cases same : r = p
  · subst r; simp [Asleep, woken]
  · simp [Asleep, same]

theorem transit_after_resume (spared : (k.ptable p).killed = false) (r : Fin nproc) (j : Fin nsem) :
    InTransit (semResume k p i) j r ↔ InTransit k j r ∧ r ≠ p := by
  rw [resume_spared spared]
  by_cases same : r = p
  · subst r; simp [InTransit]
  · simp [InTransit, same]

theorem transit_resume_own (spared : (k.ptable p).killed = false)
    (inside : k.place p = .acquiring i)
    (woken : (k.ptable p).state = .runnable) :
    transit (semResume k p i) i + 1 = transit k i :=
  transit_erase (transit_after_resume spared · i) ⟨inside,woken⟩

theorem transit_resume_other {j : Fin nsem}
    (spared : (k.ptable p).killed = false) (inside : k.place p = .acquiring i) (other : j ≠ i)
    (r : Fin nproc) : InTransit (semResume k p i) j r ↔ InTransit k j r := by
  rw [transit_after_resume spared]
  refine ⟨And.left, fun moving => ⟨moving, ?_⟩⟩
  rintro rfl
  have place := moving.1.symm.trans inside
  rw [Place.acquiring.injEq] at place
  exact other place

theorem seated_after_resume (h : Seated k) (spared : (k.ptable p).killed = false)
    (woken : (k.ptable p).state = .runnable) : Seated (semResume k p i) := by
  rw [resume_spared spared]
  apply seated_update (p := p) h
  · intro r other
    simp [other]
  · constructor <;> simp [woken]

theorem wakeup1_seated (h : Seated k) {f : Fin nproc}
    (asleep : (k.ptable f).state = .sleeping) :
    wakeup1 (some f) k.ptable =
      Function.update k.ptable f { k.ptable f with state := .runnable } := by
  funext r
  by_cases same : r = f
  · subst r
    simp [wakeup1, asleep, (h f).channel asleep]
  · -- another sleeper waits on its own slot, not on this one
    rw [Function.update_of_ne same]
    unfold wakeup1
    rw [if_neg]
    rintro ⟨sleeping,chan⟩
    have own := (h r).channel sleeping
    rw [own, Option.some.injEq] at chan
    exact same chan

/-! Steps of processes outside `sem_acquire`. -/

/-- No kill is aimed at a process inside `sem_acquire`. -/
def SparesWaiters (s : Sys nproc nsem) : Event nproc nsem → Prop
  | .kill pid => ∀ p ∈ victim s.kernel pid, s.kernel.place p = .user
  | _ => True

variable {s t : Sys nproc nsem} {e : Event nproc nsem}

theorem spares_of_call (call : SemCall e) :
    SparesWaiters s e := by
  cases e with
  | kill pid => exact absurd call (by simp [SemCall])
  | _ => trivial

/-- A step of processes outside `sem_acquire`: the semaphores and the processes inside are
    left alone, and nobody goes to sleep. -/
structure StaysOutside (s t : Sys nproc nsem) : Prop where
  sems : t.kernel.semtable = s.kernel.semtable
  places : ∀ r, t.kernel.place r = s.kernel.place r
  inside : ∀ r, s.kernel.place r ≠ .user → t.kernel.ptable r = s.kernel.ptable r
  awake : ∀ r, s.kernel.place r = .user → (t.kernel.ptable r).state ≠ .sleeping
  arrivals : ∀ i, (t.books.ledger i).arrivals = (s.books.ledger i).arrivals
  woken : ∀ i, (t.books.ledger i).woken = (s.books.ledger i).woken

theorem outside_asleep (out : StaysOutside s t) (i : Fin nsem) (r : Fin nproc) :
    Asleep t.kernel r i ↔ Asleep s.kernel r i := by
  by_cases user : s.kernel.place r = .user
  · simp [Asleep, out.places, user]
  · simp [Asleep, out.places, out.inside r user]

theorem outside_inTransit (out : StaysOutside s t) (i : Fin nsem) (r : Fin nproc) :
    InTransit t.kernel i r ↔ InTransit s.kernel i r := by
  by_cases user : s.kernel.place r = .user
  · simp [InTransit, out.places, user]
  · simp [InTransit, out.places, out.inside r user]

theorem awake_outside (h : Seated k) (outside : k.place p = .user) :
    (k.ptable p).state ≠ .sleeping := fun sleeping => (h p).lodged sleeping outside

theorem outside_of_one (h : Seated s.kernel) (p : Fin nproc)
    (outside : s.kernel.place p = .user) (awake : (t.kernel.ptable p).state ≠ .sleeping)
    (sems : t.kernel.semtable = s.kernel.semtable)
    (places : ∀ r, t.kernel.place r = s.kernel.place r)
    (others : ∀ r, r ≠ p → t.kernel.ptable r = s.kernel.ptable r)
    (arrivals : ∀ i, (t.books.ledger i).arrivals = (s.books.ledger i).arrivals)
    (woken : ∀ i, (t.books.ledger i).woken = (s.books.ledger i).woken) : StaysOutside s t := by
  refine ⟨sems, places, fun r inside => ?_, fun r user => ?_, arrivals, woken⟩
  · apply others r
    rintro rfl
    exact inside outside
  · by_cases same : r = p
    · subst r
      exact awake
    · rw [others r same]
      exact awake_outside h user

theorem outside_refl (h : Seated s.kernel) : StaysOutside s s :=
  ⟨rfl, fun _ => rfl, fun _ _ => rfl, fun _ user => awake_outside h user, fun _ => rfl,
    fun _ => rfl⟩

theorem outside_kill (h : Seated s.kernel) {pid : Int} (spares : SparesWaiters s (.kill pid)) :
    StaysOutside s ⟨(kill s.kernel pid).1,s.books⟩ := by
  cases found : victim s.kernel pid with
  | none => simpa [kill, found] using outside_refl h
  | some p =>
    have outside : s.kernel.place p = .user := spares p found
    apply outside_of_one h p outside
    · simp [kill, found, awake_outside h outside]
    · simp [kill, found]
    · intro r; simp [kill, found]
    · intro r other; simp [kill, found, other]
    · intro i; rfl
    · intro i; rfl

theorem outside_of_state (h : Seated k)
    (asleep : (k.ptable p).state ≠ .sleeping) (woken : (k.ptable p).state ≠ .runnable) :
    k.place p = .user := by
  by_contra inside
  rcases (h p).alive inside with state | state
  · exact asleep state
  · exact woken state

theorem outside_wait (h : Seated s.kernel) (zombie : (s.kernel.ptable p).state = .zombie) :
    StaysOutside s ⟨reap s.kernel p,s.books⟩ := by
  have outside := outside_of_state h (p := p) (by simp [zombie]) (by simp [zombie])
  apply outside_of_one h p outside
  · simp [reap]
  · rfl
  · intro r; rfl
  · intro r other; simp [reap, other]
  · intro i; rfl
  · intro i; rfl

theorem outside_fork (h : Seated s.kernel) : StaysOutside s ⟨fork s.kernel,s.books⟩ := by
  cases found : freeSlot s.kernel with
  | none => simpa [fork, found] using outside_refl h
  | some p =>
    have unused : (s.kernel.ptable p).state = .unused := by
      simpa using List.find?_some found
    have outside := outside_of_state h (p := p) (by simp [unused]) (by simp [unused])
    apply outside_of_one h p outside
    · simp [fork, found]
    · simp [fork, found]
    · intro r; simp [fork, found]
    · intro r other; simp [fork, found, other]
    · intro i; rfl
    · intro i; rfl

variable [NeZero nproc]

/-- The ring of semaphore `i` stands for the list `q` of its sleepers in order of arrival. -/
structure QueueOf (k : Kernel nproc nsem) (l : Ledger nproc) (i : Fin nsem)
    (q : List (Fin nproc)) : Prop where
  ring : (k.semtable i).ring.contents = q.map some
  order : l.arrivals = l.woken ++ q
  distinct : q.Nodup
  sleepers : ∀ p, p ∈ q ↔ Asleep k p i
  early : q ≠ [] → (k.semtable i).value ≤ transit k i

def Orderly (s : Sys nproc nsem) : Prop :=
  Seated s.kernel ∧ ∀ i, ∃ q, QueueOf s.kernel (s.books.ledger i) i q

variable {l : Ledger nproc} {q : List (Fin nproc)}

theorem queue_size (h : QueueOf k l i q) : (k.semtable i).procsQueueSize = q.length := by
  have length := contents_length (k.semtable i).ring
  rw [h.ring, List.length_map] at length
  exact length.symm

theorem queue_keep {l' : Ledger nproc}
    (h : QueueOf k l i q)
    (ring : (k'.semtable i).ring = (k.semtable i).ring)
    (arrivals : l'.arrivals = l.arrivals) (woken : l'.woken = l.woken)
    (asleep : ∀ r, Asleep k' r i ↔ Asleep k r i)
    (early : q ≠ [] → (k'.semtable i).value ≤ transit k' i) : QueueOf k' l' i q where
  ring := by rw [ring]; exact h.ring
  order := by rw [arrivals, woken]; exact h.order
  distinct := h.distinct
  sleepers := fun p => (h.sleepers p).trans (asleep p).symm
  early := early

theorem queue_frame {l' : Ledger nproc}
    (h : QueueOf k l i q) (sem : k'.semtable i = k.semtable i)
    (arrivals : l'.arrivals = l.arrivals) (woken : l'.woken = l.woken)
    (asleep : ∀ r, Asleep k' r i ↔ Asleep k r i)
    (moving : ∀ r, InTransit k' i r ↔ InTransit k i r) : QueueOf k' l' i q := by
  apply queue_keep h (by rw [sem]) arrivals woken asleep
  intro live
  rw [sem, transit_congr moving]
  exact h.early live

/-! The slow branch of `sem_acquire`. -/

theorem asleep_after_sleep (free : Free k p) (slow : (k.semtable i).value ≤ 0) (r : Fin nproc)
    (j : Fin nsem) :
    Asleep (semAcquire k p i) r j ↔ Asleep k r j ∨ (r = p ∧ j = i) := by
  by_cases same : r = p
  · subst r
    simp [Asleep, semAcquire, slow, sleep, free.2.1, eq_comm]
  · simp [Asleep, semAcquire, slow, same]

theorem transit_after_sleep (free : Free k p) (slow : (k.semtable i).value ≤ 0) (r : Fin nproc)
    (j : Fin nsem) :
    InTransit (semAcquire k p i) j r ↔ InTransit k j r := by
  by_cases same : r = p
  · subst r
    simp [InTransit, semAcquire, slow, sleep, free.2.1]
  · simp [InTransit, semAcquire, slow, same]

theorem seated_after_sleep (h : Seated k) (free : Free k p) (slow : (k.semtable i).value ≤ 0) :
    Seated (semAcquire k p i) := by
  apply seated_update (p := p) h
  · intro r other
    simp [semAcquire, slow, other]
  · constructor <;> simp [semAcquire, slow, sleep, free.2.2]

/-- The sleeper is queued behind everyone already there; the ring has room because a
    process that is about to sleep is in no queue yet. -/
theorem queue_after_sleep (h : QueueOf k l i q) (free : Free k p)
    (slow : (k.semtable i).value ≤ 0) :
    QueueOf (semAcquire k p i) (l.arrive p) i (q ++ [p]) := by
  have absent : p ∉ q := fun mem => free_not_asleep free i ((h.sleepers p).mp mem)
  have room : (k.semtable i).ring.size < nproc := by
    have := room_of_nodup h.distinct absent
    have size := queue_size h
    simp only [Semaphore.ring]
    omega
  have pushed : ((semAcquire k p i).semtable i).ring = (k.semtable i).ring.push (some p) := by
    simp [semAcquire, slow, Semaphore.enqueue, Semaphore.ring, Ring.push]
  refine ⟨?_, ?_, ?_, ?_, ?_⟩
  · rw [pushed, contents_push room, h.ring, List.map_append, List.map_cons, List.map_nil]
  · simp only [Ledger.arrive, h.order, List.append_assoc]
  · rw [List.nodup_append]
    refine ⟨h.distinct, by simp, ?_⟩
    intro a ha b hb eq
    rw [List.mem_singleton] at hb
    exact absent (hb ▸ eq ▸ ha)
  · intro r
    rw [List.mem_append, List.mem_singleton, asleep_after_sleep free slow, h.sleepers r]
    simp
  · intro _
    have value : ((semAcquire k p i).semtable i).value = (k.semtable i).value := by
      simp [semAcquire, slow, Semaphore.enqueue]
    rw [value]
    omega

/-! `sem_release`. The process it wakes is the oldest sleeper of this semaphore. -/

theorem wakes_front (h : QueueOf k l i q) (wakes : (k.semtable i).increment.Wakes) :
    ∃ f rest, q = f :: rest ∧ (k.semtable i).increment.front = some f ∧
      (k.semtable i).increment.dequeue.ring.contents = rest.map some := by
  have live : 0 < (k.semtable i).ring.size := wakes.2
  have popped := contents_pop live
  rw [h.ring] at popped
  cases q with
  | nil => cases popped
  | cons f rest =>
    simp only [List.map_cons, List.cons.injEq] at popped
    exact ⟨f,rest,rfl,popped.1.symm,popped.2.symm⟩

structure Handoff (k : Kernel nproc nsem) (i : Fin nsem) (f : Fin nproc) : Prop where
  wakes : (k.semtable i).increment.Wakes
  front : (k.semtable i).increment.front = some f
  asleep : Asleep k f i
  kernel : semRelease k i =
    { k with
      semtable := Function.update k.semtable i (k.semtable i).increment.dequeue
      ptable := Function.update k.ptable f { k.ptable f with state := .runnable } }

theorem handoff_of_wakes (seated : Seated k) (h : QueueOf k l i q)
    (wakes : (k.semtable i).increment.Wakes) :
    ∃ f rest, q = f :: rest ∧ Handoff k i f ∧
      (k.semtable i).increment.dequeue.ring.contents = rest.map some := by
  obtain ⟨f,rest,rfl,front,popped⟩ := wakes_front h wakes
  have asleep : Asleep k f i := (h.sleepers f).mp List.mem_cons_self
  refine ⟨f, rest, rfl, ⟨wakes, front, asleep, ?_⟩, popped⟩
  simp only [semRelease, wakes, ↓reduceIte, front, wakeup1_seated seated asleep.2]

theorem release_silent (silent : ¬ (k.semtable i).increment.Wakes) :
    semRelease k i =
      { k with semtable := Function.update k.semtable i (k.semtable i).increment } := by
  simp only [semRelease, silent, ↓reduceIte]

section Handoff
variable {k : Kernel nproc nsem} {i : Fin nsem} {f : Fin nproc}

theorem handoff_asleep (h : Handoff k i f) (r : Fin nproc) (j : Fin nsem) :
    Asleep (semRelease k i) r j ↔ Asleep k r j ∧ r ≠ f := by
  rw [h.kernel]
  by_cases same : r = f
  · subst r; simp [Asleep]
  · simp [Asleep, same]

theorem handoff_inTransit (h : Handoff k i f) (r : Fin nproc) (j : Fin nsem) :
    InTransit (semRelease k i) j r ↔ InTransit k j r ∨ (r = f ∧ j = i) := by
  rw [h.kernel]
  by_cases same : r = f
  · subst r
    simp [InTransit, h.asleep.1, h.asleep.2, eq_comm]
  · simp [InTransit, same]

theorem handoff_seated (h : Handoff k i f) (seated : Seated k) : Seated (semRelease k i) := by
  rw [h.kernel]
  apply seated_update (p := f) seated
  · intro r other
    simp [other]
  · constructor
    · simp
    · simp
    · simp
    · intro inside
      simpa using (seated f).spared inside

theorem handoff_transit (h : Handoff k i f) :
    transit (semRelease k i) i = transit k i + 1 := by
  apply transit_insert (f := f)
  · intro r
    rw [handoff_inTransit h]
    simp
  · intro moving
    have state := moving.2.symm.trans h.asleep.2
    cases state

theorem handoff_transit_other (h : Handoff k i f) {j : Fin nsem} (other : j ≠ i) (r : Fin nproc) :
    InTransit (semRelease k i) j r ↔ InTransit k j r := by
  rw [handoff_inTransit h]
  simp [other]

theorem handoff_asleep_other (h : Handoff k i f) {j : Fin nsem} (other : j ≠ i) (r : Fin nproc) :
    Asleep (semRelease k i) r j ↔ Asleep k r j := by
  rw [handoff_asleep h]
  refine ⟨And.left, fun sleeping => ⟨sleeping, ?_⟩⟩
  rintro rfl
  have place := sleeping.1.symm.trans h.asleep.1
  rw [Place.acquiring.injEq] at place
  exact other place

theorem queue_after_handoff {l l' : Ledger nproc} {rest : List (Fin nproc)}
    (h : Handoff k i f) (queue : QueueOf k l i (f :: rest))
    (popped : (k.semtable i).increment.dequeue.ring.contents = rest.map some)
    (order : l'.arrivals = l'.woken ++ rest) : QueueOf (semRelease k i) l' i rest := by
  refine ⟨?_, order, (List.nodup_cons.mp queue.distinct).2, fun r => ?_, fun _ => ?_⟩
  · simpa [h.kernel] using popped
  · rw [handoff_asleep h, ← queue.sleepers r, List.mem_cons]
    have absent := (List.nodup_cons.mp queue.distinct).1
    constructor
    · intro mem
      exact ⟨Or.inr mem,fun eq => absent (eq ▸ mem)⟩
    · rintro ⟨eq | mem,other⟩
      · exact absurd eq other
      · exact mem
  · have covered := queue.early (by simp)
    rw [handoff_transit h, h.kernel]
    simp only [Function.update_self, Semaphore.dequeue, Semaphore.increment]
    push_cast
    omega

end Handoff

theorem value_of_silent (h : QueueOf k l i q) (live : q ≠ [])
    (silent : ¬ (k.semtable i).increment.Wakes) : (k.semtable i).value + 1 ≤ 0 := by
  have size := queue_size h
  have long := List.length_pos_iff.mpr live
  by_contra positive
  exact silent ⟨by simp only [Semaphore.increment]; omega,by simp only [Semaphore.increment]; omega⟩

/-! One step of the machine, event by event. -/

theorem orderly_acquire (h : Orderly s)
    (free : Free s.kernel p) :
    Orderly ⟨semAcquire s.kernel p i,record s.kernel s.books (.semAcquire p i)⟩ := by
  obtain ⟨seated,queues⟩ := h
  by_cases slow : (s.kernel.semtable i).value ≤ 0
  · refine ⟨seated_after_sleep seated free slow, ?_⟩
    intro j
    obtain ⟨q,hq⟩ := queues j
    by_cases same : j = i
    · subst j
      refine ⟨q ++ [p], ?_⟩
      simpa [record, slow, Books.post] using queue_after_sleep hq free slow
    · refine ⟨q, queue_frame hq ?_ ?_ ?_ ?_ (transit_after_sleep free slow · j)⟩
      · simp [semAcquire, slow, same]
      · simp [record, slow, Books.post, same]
      · simp [record, slow, Books.post, same]
      · intro r
        rw [asleep_after_sleep free slow]
        simp [same]
  · have kernel : semAcquire s.kernel p i =
        { s.kernel with semtable :=
            Function.update s.kernel.semtable i (s.kernel.semtable i).decrement } := by
      simp [semAcquire, slow]
    refine ⟨by rw [kernel]; exact seated, ?_⟩
    intro j
    obtain ⟨q,hq⟩ := queues j
    refine ⟨q, ?_⟩
    rw [kernel]
    by_cases same : j = i
    · subst j
      apply queue_keep hq
      · simp [Semaphore.ring, Semaphore.decrement]
      · simp [record, slow, Books.addHeld, Books.post, Ledger.acquire]
      · simp [record, slow, Books.addHeld, Books.post, Ledger.acquire]
      · exact fun r => Iff.rfl
      · intro live
        have covered := hq.early live
        simp only [Function.update_self, Semaphore.decrement]
        change (s.kernel.semtable i).value - 1 ≤ (transit s.kernel i : Int)
        omega
    · apply queue_frame hq
      · simp [same]
      · simp [record, slow, Books.addHeld, Books.post, same]
      · simp [record, slow, Books.addHeld, Books.post, same]
      · exact fun r => Iff.rfl
      · exact fun r => Iff.rfl

theorem orderly_resume (h : Orderly s)
    (inside : s.kernel.place p = .acquiring i)
    (woken : (s.kernel.ptable p).state = .runnable) :
    Orderly ⟨semResume s.kernel p i,record s.kernel s.books (.resume p)⟩ := by
  obtain ⟨seated,queues⟩ := h
  have spared : (s.kernel.ptable p).killed = false := (seated p).spared (by simp [inside])
  refine ⟨seated_after_resume seated spared woken, ?_⟩
  intro j
  obtain ⟨q,hq⟩ := queues j
  refine ⟨q, ?_⟩
  have books : record s.kernel s.books (.resume p) =
      (s.books.post i (·.acquire)).addHeld p i := by
    simp [record, inside, spared]
  by_cases same : j = i
  · subst j
    have gone := transit_resume_own spared inside woken
    apply queue_keep hq
    · simp [semResume_semtable, Semaphore.ring, Semaphore.decrement]
    · simp [books, Books.addHeld, Books.post, Ledger.acquire]
    · simp [books, Books.addHeld, Books.post, Ledger.acquire]
    · exact (asleep_after_resume spared woken · i)
    · intro live
      have covered := hq.early live
      simp only [semResume_semtable, Function.update_self, Semaphore.decrement]
      omega
  · apply queue_frame hq
    · simp [semResume_semtable, same]
    · simp [books, Books.addHeld, Books.post, same]
    · simp [books, Books.addHeld, Books.post, same]
    · exact (asleep_after_resume spared woken · j)
    · exact transit_resume_other spared inside same

theorem orderly_handoff (h : Orderly s) (p : Fin nproc)
    (wakes : (s.kernel.semtable i).increment.Wakes) :
    Orderly ⟨semRelease s.kernel i,record s.kernel s.books (.semRelease p i)⟩ := by
  obtain ⟨seated,queues⟩ := h
  obtain ⟨q,hq⟩ := queues i
  obtain ⟨f,rest,rfl,handoff,popped⟩ := handoff_of_wakes seated hq wakes
  refine ⟨handoff_seated handoff seated, fun j => ?_⟩
  by_cases same : j = i
  · subst j
    refine ⟨rest, queue_after_handoff handoff hq popped ?_⟩
    simp [record, wakes, Books.dropHeld, Books.post, Ledger.wake, Ledger.release, handoff.front,
      hq.order]
  · obtain ⟨q',hq'⟩ := queues j
    refine ⟨q', queue_frame hq' ?_ ?_ ?_ (handoff_asleep_other handoff same)
      (handoff_transit_other handoff same)⟩
    · simp [handoff.kernel, same]
    · simp [record, wakes, Books.dropHeld, Books.post, same]
    · simp [record, wakes, Books.dropHeld, Books.post, same]

theorem orderly_silent (h : Orderly s) (p : Fin nproc)
    (silent : ¬ (s.kernel.semtable i).increment.Wakes) :
    Orderly ⟨semRelease s.kernel i,record s.kernel s.books (.semRelease p i)⟩ := by
  obtain ⟨seated,queues⟩ := h
  have kernel := release_silent silent
  refine ⟨by rw [kernel]; exact seated, fun j => ?_⟩
  obtain ⟨q,hq⟩ := queues j
  refine ⟨q, ?_⟩
  rw [kernel]
  by_cases same : j = i
  · subst j
    apply queue_keep hq
    · simp [Semaphore.ring, Semaphore.increment]
    · simp [record, silent, Books.dropHeld, Books.post, Ledger.release]
    · simp [record, silent, Books.dropHeld, Books.post, Ledger.release]
    · exact fun r => Iff.rfl
    · intro live
      have low := value_of_silent hq live silent
      simp only [Function.update_self, Semaphore.increment]
      omega
  · apply queue_frame hq
    · simp [same]
    · simp [record, silent, Books.dropHeld, Books.post, same]
    · simp [record, silent, Books.dropHeld, Books.post, same]
    · exact fun r => Iff.rfl
    · exact fun r => Iff.rfl

theorem orderly_outside (h : Orderly s) (out : StaysOutside s t) : Orderly t := by
  obtain ⟨seated,queues⟩ := h
  constructor
  · intro r
    rw [out.places]
    by_cases user : s.kernel.place r = .user
    · rw [user]
      constructor
      · exact fun sleeping => absurd sleeping (out.awake r user)
      · exact fun sleeping => absurd sleeping (out.awake r user)
      · exact fun inside => absurd rfl inside
      · exact fun inside => absurd rfl inside
    · rw [out.inside r user]
      exact seated r
  · intro i
    obtain ⟨q,hq⟩ := queues i
    exact ⟨q,queue_frame hq (by rw [out.sems]) (out.arrivals i) (out.woken i)
      (outside_asleep out i) (outside_inTransit out i)⟩

theorem outside_exit (h : Seated s.kernel) (outside : s.kernel.place p = .user) :
    StaysOutside s ⟨exit s.kernel p,record s.kernel s.books (.exit p)⟩ := by
  apply outside_of_one h p outside
  · simp [exit]
  · rfl
  · intro r
    by_cases same : r = p
    · subst r; simp [exit, outside]
    · simp [exit, same]
  · intro r other; simp [exit, other]
  · intro i; rfl
  · intro i; rfl

theorem orderly_step (h : Orderly s)
    (spares : SparesWaiters s e) (move : step s e = some t) : Orderly t := by
  obtain ⟨k,moves,rfl⟩ := step_moves move
  cases moves with
  | semAcquire free => exact orderly_acquire h free
  | resume lodged woken _ => exact orderly_resume h lodged woken
  | @semRelease p i free _ =>
    by_cases wakes : (s.kernel.semtable i).increment.Wakes
    · exact orderly_handoff h p wakes
    · exact orderly_silent h p wakes
  | kill => exact orderly_outside h (outside_kill h.1 spares)
  | exit outside => exact orderly_outside h (outside_exit h.1 outside)
  | wait zombie => exact orderly_outside h (outside_wait h.1 zombie)
  | fork => exact orderly_outside h (outside_fork h.1)

theorem orderly_start (v : Fin nsem → Int) : Orderly (start v : Sys nproc nsem) := by
  constructor
  · intro p
    constructor <;> simp [start]
  · intro i
    refine ⟨[], ?_, rfl, List.nodup_nil, ?_, ?_⟩
    · simp [start, semInit, Semaphore.ring, Ring.contents]
    · intro p; simp [Asleep, start]
    · intro live; exact absurd rfl live

theorem orderly_run {v : Fin nsem → Int} {es : List (Event nproc nsem)}
    (spares : Along step SparesWaiters (start v) es)
    (run : exec step (start v) es = some s) : Orderly s :=
  exec_invariant Orderly (fun _ _ _ h spares move => orderly_step h spares move) (orderly_start v)
    spares run

instance (s : Sys nproc nsem) : ∀ e, Decidable (SparesWaiters s e)
  | .kill pid =>
    inferInstanceAs (Decidable (∀ p ∈ victim s.kernel pid, s.kernel.place p = .user))
  | .semAcquire _ _ | .resume _ | .semRelease _ _ | .exit _ | .wait _ | .fork => isTrue trivial

theorem calls_spare {v : Fin nsem → Int} {es : List (Event nproc nsem)}
    (calls : ∀ e ∈ es, SemCall e) : Along step SparesWaiters (start v) es := by
  apply along_of_forall
  intro e mem s
  exact spares_of_call (calls e mem)

theorem contents_step (h : Orderly s)
    (call : SemCall e) (move : step s e = some t) (i : Fin nsem) :
    (t.kernel.semtable i).ring.contents = (s.kernel.semtable i).ring.contents ∨
    (∃ p, (t.kernel.semtable i).ring.contents =
      (s.kernel.semtable i).ring.contents ++ [some p]) ∨
    (∃ f, (s.kernel.semtable i).ring.contents =
      some f :: (t.kernel.semtable i).ring.contents) := by
  obtain ⟨q,hq⟩ := h.2 i
  obtain ⟨k,moves,rfl⟩ := step_moves move
  cases moves with
  | @semAcquire p j free =>
    by_cases same : i = j
    · subst j
      by_cases slow : (s.kernel.semtable i).value ≤ 0
      · have queued := queue_after_sleep hq free slow
        refine Or.inr (Or.inl ⟨p, ?_⟩)
        rw [queued.ring, hq.ring, List.map_append, List.map_cons, List.map_nil]
      · refine Or.inl ?_
        simp [semAcquire, slow, Semaphore.decrement, Semaphore.ring]
    · refine Or.inl ?_
      by_cases slow : (s.kernel.semtable j).value ≤ 0 <;> simp [semAcquire, slow, same]
  | @resume p j lodged woken _ =>
    refine Or.inl ?_
    by_cases same : i = j
    · subst j; simp [semResume_semtable, Semaphore.decrement, Semaphore.ring]
    · simp [semResume_semtable, same]
  | @semRelease p j free _ =>
    by_cases wakes : (s.kernel.semtable j).increment.Wakes
    · by_cases same : i = j
      · subst j
        obtain ⟨f,rest,eq,_,popped⟩ := wakes_front hq wakes
        refine Or.inr (Or.inr ⟨f, ?_⟩)
        rw [hq.ring, eq, List.map_cons]
        simp [semRelease, wakes, popped]
      · refine Or.inl ?_
        simp [semRelease, wakes, same]
    · refine Or.inl ?_
      rw [release_silent wakes]
      by_cases same : i = j
      · subst j; simp [Semaphore.increment, Semaphore.ring]
      · simp [same]
  | kill => exact absurd call (by simp [SemCall])
  | exit outside => exact absurd call (by simp [SemCall])
  | wait zombie => exact absurd call (by simp [SemCall])
  | fork => exact absurd call (by simp [SemCall])

/-- The ring, the value and the sleepers of semaphore `i` agree. `q` is the queue. -/
structure QueueExact (v : Fin nsem → Int) (s : Sys nproc nsem) (i : Fin nsem)
    (q : List (Fin nproc)) : Prop where
  ring : (s.kernel.semtable i).ring.contents = q.map some
  sleepers : ∀ p, p ∈ q ↔ Asleep s.kernel p i
  once : q.Nodup
  bounded : (s.kernel.semtable i).procsQueueSize ≤ nproc
  -- The next call loses no entry of the ring.
  kept : ∀ e t, SemCall e → step s e = some t →
    (t.kernel.semtable i).ring.contents = (s.kernel.semtable i).ring.contents ∨
    (∃ p, (t.kernel.semtable i).ring.contents =
      (s.kernel.semtable i).ring.contents ++ [some p]) ∨
    (∃ f, (s.kernel.semtable i).ring.contents =
      some f :: (t.kernel.semtable i).ring.contents)
  value : (s.kernel.semtable i).value =
    v i - (s.books.ledger i).acquires + (s.books.ledger i).releases
  covered : q ≠ [] → (s.kernel.semtable i).value ≤ transit s.kernel i
  noLostWakeup : 0 < (s.kernel.semtable i).value → transit s.kernel i = 0 →
    ∀ p, ¬ Asleep s.kernel p i
  -- The processes woken so far and those still queued are the arrivals, in order.
  fifo : (s.books.ledger i).arrivals = (s.books.ledger i).woken ++ q
  -- The value stays an int if `sem_init` was given one.
  fits : FitsInt (v i) → FitsInt (s.kernel.semtable i).value
  -- The increment of the next release has a meaning as long as its sum is an int.
  releases : ∀ p, Free s.kernel p → v i + (s.books.ledger i).releases < 2147483647 →
    ∃ t, step s (.semRelease p i) = some t
  acquires : ∀ p, Free s.kernel p → ∃ t, step s (.semAcquire p i) = some t
  resumes : ∀ p, InTransit s.kernel i p → -2147483648 + (s.books.ledger i).acquires < v i →
    ∃ t, step s (.resume p) = some t

theorem semaphore_queue_exact {v : Fin nsem → Int} {s : Sys nproc nsem}
    {es : List (Event nproc nsem)} (calls : ∀ e ∈ es, SemCall e)
    (run : exec step (start v) es = some s) (i : Fin nsem) : ∃ q, QueueExact v s i q := by
  have orderly := orderly_run (calls_spare calls) run
  obtain ⟨q,hq⟩ := orderly.2 i
  have balance := (balance_run run i).value
  have size := queue_size hq
  refine ⟨q, hq.ring, hq.sleepers, hq.distinct, ?_, ?_, ?_, hq.early, ?_, hq.order,
    fits_run run, ?_, ?_, ?_⟩
  · have short := hq.distinct.length_le_card
    rw [Fintype.card_fin] at short
    omega
  · exact fun e t call move => contents_step orderly call move i
  · omega
  · intro positive settled p asleep
    have covered := hq.early (List.ne_nil_of_mem ((hq.sleepers p).mpr asleep))
    omega
  · intro p free room
    exact release_defined free (by omega)
  · exact fun p free => acquire_defined free
  · intro p moving room
    exact resume_defined moving (by omega)

theorem semaphore_queue_exact_two :
    ∃ s : Sys 64 5, exec step (start fun _ => 1) [.semAcquire 0 0, .semAcquire 1 0] = some s ∧
      ∃ q, QueueExact (fun _ => 1) s 0 q := by
  have runs : (exec step (start fun _ => 1 : Sys 64 5)
    [.semAcquire 0 0, .semAcquire 1 0]).isSome = true := by decide
  obtain ⟨s,run⟩ := Option.isSome_iff_exists.mp runs
  exact ⟨s,run,semaphore_queue_exact (by simp [SemCall]) run 0⟩

end SemaphoreQueue
