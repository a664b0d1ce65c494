import Xv6.Pipe.System

/- The pipe is a FIFO queue. Both counters run freely modulo 2^32; since PIPESIZE divides
   2^32 the cells between them are a ring whose length is the difference of the counters,
   also when one of them has wrapped and the other has not. -/
namespace PipeFifo
open PipeSystem RingQueue RunLaws
variable {nproc : Nat}

def backlog (p : Pipe) : Nat := (p.nwrite - p.nread).toNat

def ring (p : Pipe) : Ring UInt8 pipeSize := ⟨p.nread.toNat % pipeSize, backlog p, p.data⟩

theorem full_iff_backlog (p : Pipe) : p.Full ↔ backlog p = pipeSize := by
  have read := p.nread.toNat_lt
  have write := p.nwrite.toNat_lt
  simp only [Pipe.Full, backlog, pipeSize, ← UInt32.toNat_inj, UInt32.toNat_add,
    UInt32.toNat_sub, UInt32.reduceToNat]
  omega

theorem empty_iff_backlog (p : Pipe) : p.Empty ↔ backlog p = 0 := by
  have read := p.nread.toNat_lt
  have write := p.nwrite.toNat_lt
  simp only [Pipe.Empty, backlog, ← UInt32.toNat_inj, UInt32.toNat_sub]
  omega

theorem slot_mod (k m : Nat) : slot pipeSize (k % pipeSize + m) = slot pipeSize (k + m) := by
  apply Fin.ext
  simp only [slot, Nat.mod_add_mod]

theorem ring_store {p : Pipe} (bounded : backlog p ≤ pipeSize) (room : ¬ p.Full) (b : UInt8) :
    ring (p.store b) = (ring p).push b := by
  have below : backlog p < pipeSize := by
    have := mt (full_iff_backlog p).mpr room
    omega
  have read := p.nread.toNat_lt
  have write := p.nwrite.toNat_lt
  have longer : backlog (p.store b) = backlog p + 1 := by
    simp only [backlog, pipeSize, Pipe.store, UInt32.toNat_sub, UInt32.toNat_add,
      UInt32.reduceToNat] at below ⊢
    omega
  have place : slot pipeSize p.nwrite.toNat = slot pipeSize
      (p.nread.toNat % pipeSize + backlog p) := by
    apply Fin.ext
    simp only [slot, backlog, pipeSize, UInt32.toNat_sub]
    omega
  simp only [ring, Ring.push, longer, ← place]
  rfl

theorem ring_fetch {p : Pipe} (bytes : ¬ p.Empty) :
    p.fetch.1 = (ring p).head ∧ ring p.fetch.2 = (ring p).pop := by
  have live := mt (empty_iff_backlog p).mpr bytes
  have read := p.nread.toNat_lt
  have write := p.nwrite.toNat_lt
  have shorter : backlog p.fetch.2 = backlog p - 1 := by
    simp only [backlog, Pipe.fetch, UInt32.toNat_sub, UInt32.toNat_add,
      UInt32.reduceToNat] at live ⊢
    omega
  have front : p.fetch.2.nread.toNat % pipeSize = (p.nread.toNat % pipeSize + 1) % pipeSize := by
    simp only [Pipe.fetch, pipeSize, UInt32.toNat_add, UInt32.reduceToNat]
    omega
  constructor
  · simpa [ring, Ring.head, Pipe.fetch] using congrArg p.data (slot_mod p.nread.toNat 0).symm
  · simp only [ring, Ring.pop, shorter, front]
    rfl

/-- The books of the pipe: what was delivered and what is still in the ring is what was
    stored, and the ring is no longer than the array. -/
structure Fifo (s : State nproc) : Prop where
  bounded : backlog s.pipe ≤ pipeSize
  bytes : s.delivered ++ (ring s.pipe).contents = s.stored

theorem fifo_of_same {s t : State nproc} (fifo : Fifo s) (same : ring t.pipe = ring s.pipe)
    (out : t.delivered = s.delivered) (inn : t.stored = s.stored) : Fifo t := by
  have size : backlog t.pipe = backlog s.pipe := congrArg Ring.size same
  exact ⟨size ▸ fifo.bounded, by rw [same, out, inn, fifo.bytes]⟩

theorem fifo_step {s t : State nproc} {e : Event nproc} (fifo : Fifo s)
    (move : step s e = some t) : Fifo t := by
  cases step_moves move with
  | store p b addr at_ room =>
    have pushed := ring_store fifo.bounded room b
    have below : backlog s.pipe < pipeSize := by
      have := mt (full_iff_backlog s.pipe).mpr room
      have := fifo.bounded
      omega
    refine ⟨?_, ?_⟩
    · have size : backlog (s.pipe.store b) = backlog s.pipe + 1 := congrArg Ring.size pushed
      exact size ▸ below
    · show s.delivered ++ (ring (s.pipe.store b)).contents = s.stored ++ [b]
      rw [pushed, contents_push below, ← List.append_assoc, fifo.bytes]
  | fetch p n at_ bytes =>
    obtain ⟨byte,popped⟩ := ring_fetch bytes
    have live : 0 < backlog s.pipe := by
      have := mt (empty_iff_backlog s.pipe).mpr bytes
      omega
    refine ⟨?_, ?_⟩
    · have size : backlog s.pipe.fetch.2 = backlog s.pipe - 1 := congrArg Ring.size popped
      have := fifo.bounded
      show backlog s.pipe.fetch.2 ≤ pipeSize
      omega
    · show (s.delivered ++ [s.pipe.fetch.1]) ++ (ring s.pipe.fetch.2).contents = s.stored
      rw [byte, popped, List.append_assoc, List.singleton_append,
        ← contents_pop (r := ring s.pipe) live, fifo.bytes]
  | shut p e at_ =>
    cases e <;> exact fifo_of_same fifo rfl rfl rfl
  | _ => exact fifo_of_same fifo rfl rfl rfl

theorem fifo_start (data : Fin pipeSize → UInt8) (p : Fin nproc) : Fifo (start data p) :=
  ⟨by simp [start, backlog], by simp [start, ring, Ring.contents, backlog]⟩

/-- In every state of every run: the bytes delivered to readers, followed by the bytes still
    in `data[]` from `nread` to `nwrite`, are the bytes stored, in that order, and the
    counters are at most PIPESIZE apart. -/
theorem pipe_is_fifo (data : Fin pipeSize → UInt8) (p : Fin nproc) (es : List (Event nproc))
    (s : State nproc) (run : exec step (start data p) es = some s) :
    s.delivered ++ (List.range (s.pipe.nwrite - s.pipe.nread).toNat).map
        (fun k => s.pipe.data (slot pipeSize (s.pipe.nread.toNat + k))) = s.stored ∧
      (s.pipe.nwrite - s.pipe.nread).toNat ≤ pipeSize := by
  have fifo : Fifo s := exec_invariant Fifo
    (fun _ _ _ fifo _ move => fifo_step fifo move) (fifo_start data p) (along_trivial _ _) run
  have window : (ring s.pipe).contents = (List.range (s.pipe.nwrite - s.pipe.nread).toNat).map
      (fun k => s.pipe.data (slot pipeSize (s.pipe.nread.toNat + k))) := by
    simp only [Ring.contents, ring, backlog, slot_mod]
  exact ⟨window ▸ fifo.bytes, fifo.bounded⟩

def threeThenTwo : List (Event 1) :=
  .write 0 [7, 8, 9] :: List.replicate 7 (.run 0) ++ .read 0 2 :: List.replicate 7 (.run 0)

theorem pipe_is_fifo_three_bytes :
    ∃ s, exec step (start (fun _ => 0) (0 : Fin 1)) threeThenTwo = some s ∧
      s.stored = [7, 8, 9] ∧ s.delivered = [7, 8] ∧
      s.delivered ++ (List.range (s.pipe.nwrite - s.pipe.nread).toNat).map
        (fun k => s.pipe.data (slot pipeSize (s.pipe.nread.toNat + k))) = s.stored ∧
      (s.pipe.nwrite - s.pipe.nread).toNat ≤ pipeSize := by
  have runs : (exec step (start (fun _ => 0) (0 : Fin 1)) threeThenTwo).isSome = true := by
    decide +kernel
  obtain ⟨s,run⟩ := Option.isSome_iff_exists.mp runs
  refine ⟨s, run, ?_, ?_, pipe_is_fifo _ 0 threeThenTwo s run⟩
  · exact Option.some.inj (Eq.trans (congrArg (Option.map State.stored) run).symm
      (by decide +kernel))
  · exact Option.some.inj (Eq.trans (congrArg (Option.map State.delivered) run).symm
      (by decide +kernel))

end PipeFifo
