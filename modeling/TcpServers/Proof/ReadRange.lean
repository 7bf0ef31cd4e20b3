import TcpServers.Model.Server
import TcpServers.Proof.Indices

/-!
# The range a `read()` is given

The count is `buffer_.size() - read_index_ + 1`, one more than what is left of the
buffer. So the range ends one past the buffer, at every read, and the count gets
down to `0` only behind a read that stored that last byte too.
-/

namespace TcpServers

open Lib

/-- The destination of a `read()` on the connection lies inside `buffer_`. -/
def ConnectionData.ReadInside (cd : ConnectionData) : Prop :=
  0 ≤ cd.readIndex ∧ cd.readIndex + cd.readCount ≤ bufferSize

namespace ConnectionData

/-- **The range ends behind the buffer**, wherever it begins and even if the count wraps. -/
theorem read_beyond {cd : ConnectionData} (h : 0 ≤ cd.readIndex) :
    bufferSize < cd.readIndex + cd.readCount := by
  unfold readCount toSize bufferSize
  omega

/-- So it is never inside. -/
theorem not_readInside (cd : ConnectionData) : ¬ cd.ReadInside := by
  intro hin
  have hbeyond := read_beyond hin.1
  have hend := hin.2
  omega

end ConnectionData

namespace Server

variable {ι : Type} {cfg : Config ι} {s : Server ι} [DecidableEq ι]

/--
**No read is inside the buffer.** In every state of the server, with any number of
workers, at whatever connection a worker is about to call `read()`.
-/
theorem read_outside (_ : (machine cfg).Reachable s) :
    ∀ i p f, (s.worker i).pc = .handle p f .read → ¬ (s.mem p).ReadInside := by
  intro i p f _
  exact (s.mem p).not_readInside

/-- The first read of a connection. -/
def firstRead : List (Fin 2 × Act) :=
  acceptOne worker0 7 1
    ++ [(worker0, .deliver 7 { epollin := true }), (worker0, .wake), (worker0, .take),
      (worker0, .handle .quiet)]

/-- It is answered with as many bytes as it asked for. -/
def filled : List (Fin 2 × Act) :=
  firstRead
    ++ [(worker0, .handle (.read (.data (List.replicate 1025 65)))), (worker0, .handle .quiet)]

theorem read_outside_firstRead :
    ∃ s : Server (Fin 2), (s.worker 0).pc = .handle 1 (.conn 0) .read
      ∧ ¬ (s.mem 1).ReadInside := by
  have hval : ((machine (shared 2 .byReference)).run (start (shared 2 .byReference))
      firstRead).map (fun s => (s.worker 0).pc) = some (.handle 1 (.conn 0) .read) := by
    decide +kernel
  obtain ⟨s, hrun, hpc⟩ := Option.map_eq_some_iff.mp hval
  have hr : (machine (shared 2 .byReference)).Reachable s :=
    .of_run (.init rfl) (by decide +kernel) hrun
  exact ⟨s, hpc, read_outside hr 0 1 _ hpc⟩

/-- The first read of a connection may store a byte behind the buffer, and then the index is. -/
theorem read_not_inside :
    (∃ s : Server (Fin 2), (machine (shared 2 .byReference)).Reachable s
      ∧ (s.worker 0).pc = .handle 1 (.conn 0) .read ∧ ¬ (s.mem 1).ReadInside)
    ∧ ∃ s : Server (Fin 2), (machine (shared 2 .byReference)).Reachable s
      ∧ ConnectionData.bufferSize < (s.mem 1).readIndex := by
  refine ⟨?_, ?_⟩
  · have hval : ((machine (shared 2 .byReference)).run (start (shared 2 .byReference))
        firstRead).map (fun s => ((s.worker 0).pc, (s.mem 1).readIndex, (s.mem 1).readCount))
        = some (.handle 1 (.conn 0) .read, 0, 1025) := by decide +kernel
    obtain ⟨s, hrun, heq⟩ := Option.map_eq_some_iff.mp hval
    simp only [Prod.mk.injEq] at heq
    refine ⟨s, .of_run (.init rfl) (by decide +kernel) hrun, heq.1, fun hin => ?_⟩
    have hend := hin.2
    rw [heq.2.1, heq.2.2] at hend
    exact absurd hend (by decide)
  · have hval : ((machine (shared 2 .byReference)).run (start (shared 2 .byReference))
        filled).map (fun s => (s.mem 1).readIndex) = some 1025 := by decide +kernel
    obtain ⟨s, hrun, hidx⟩ := Option.map_eq_some_iff.mp hval
    refine ⟨s, .of_run (.init rfl) (by decide +kernel) hrun, ?_⟩
    rw [hidx]
    decide

end Server

namespace Connection

/-- The connection is not about to be read with a count of `0`. -/
def RoomToRead (s : Connection) : Prop := s.phase = .handling .read → 0 < s.data.readCount

/-- A `read()` returns fewer bytes than it was asked for. -/
def NotFilled (s : Connection) : Label → Prop
  | .handler (.read (.data bs)) => bs.length < s.data.readCount
  | _ => True

instance (s : Connection) : (l : Label) → Decidable (NotFilled s l)
  | .handler (.read (.data bs)) => inferInstanceAs (Decidable (bs.length < s.data.readCount))
  | .handler (.read (.fail _)) | .handler .quiet | .handler (.write _) | .handler (.epollCtl _)
  | .deliver _ _ | .dispatch => isTrue trivial

/-- What was read fits the buffer. -/
structure FitsInv (s : Connection) : Prop where
  index : IndexInv s
  fits : s.data.readIndex + s.rlen ≤ ConnectionData.bufferSize

/-- A read has stored one byte more than the buffer has, and the next one is coming. -/
def Overfull (s : Connection) : Prop :=
  s.data.readIndex + s.rlen = ConnectionData.bufferSize + 1 ∧ IndexInv s
    ∧ ((∃ n, s.phase = .handling (.addReadIndex n)) ∨ s.phase = .handling .logReceived
      ∨ s.phase = .handling .read)

theorem FitsInv.readCount {s : Connection} (h : FitsInv s) (hr : s.rlen = 0) :
    (s.data.readCount : Int) = ConnectionData.bufferSize + 1 - s.data.readIndex := by
  have hfits := h.fits
  rw [hr] at hfits
  exact readCount_eq h.index.read_nonneg (by omega)

theorem FitsInv.roomToRead {s : Connection} (h : FitsInv s) : RoomToRead s := by
  intro hp
  have hr : s.rlen = 0 := by simp [rlen, hp]
  have hcount := h.readCount hr
  have hfits := h.fits
  rw [hr] at hfits
  omega

theorem fitsInv_init (fd : Fd) : FitsInv (accepted fd) where
  index := indexInv_init fd
  fits := by
    show (0 : Int) + 0 ≤ 1024
    omega

/-- Only a read makes the buffer fuller. -/
theorem fitsInv_step {s s' : Connection} {l : Label} (h : FitsInv s) (hl : NotFilled s l)
    (hs : next s l = some s') : FitsInv s' := by
  refine ⟨indexInv_step h.index hs, ?_⟩
  have hfits := h.fits
  rcases next_cases hs with ⟨flags, e, mask, rfl, hp, _, rfl⟩ | ⟨flags, rfl, hp, hd⟩ |
    ⟨a, pc, out, rfl, hp, hstep, rfl⟩
  · simpa [rlen, hp] using hfits
  · rcases hd with ⟨_, rfl⟩ | ⟨_, rfl⟩ | ⟨_, rfl⟩ <;> simpa [rlen, hp] using hfits
  · cases hstep with
    | @chunk bs hpos hle =>
        have hcount := h.readCount (by simp [rlen, hp])
        have hlt : bs.length < s.data.readCount := hl
        show s.data.readIndex + (bs.length : Int) ≤ _
        omega
    | @addReadIndex n =>
        show s.data.readIndex + (n : Int) + 0 ≤ _
        simp only [rlen, hp] at hfits
        omega
    | resetReadIndex =>
        show (0 : Int) + 0 ≤ 1024
        omega
    | _ => simpa [rlen, hp, afterStep] using hfits

/-- A read that is answered in full, or that has a count of `0`, fills the buffer. -/
theorem FitsInv.overfull {s s' : Connection} {l : Label} (h : FitsInv s) (hl : ¬ NotFilled s l)
    (hs : next s l = some s') : Overfull s' := by
  have hi' := indexInv_step h.index hs
  rcases next_cases hs with ⟨flags, e, mask, rfl, _, _, _⟩ | ⟨flags, rfl, _, _⟩ |
    ⟨a, pc, out, rfl, hp, hstep, rfl⟩
  · exact absurd trivial hl
  · exact absurd trivial hl
  · cases hstep with
    | endOfStream =>
        have hroom := h.roomToRead hp
        exact absurd hroom hl
    | @chunk bs hpos hle =>
        have hcount := h.readCount (by simp [rlen, hp])
        have hfull : ¬ bs.length < s.data.readCount := hl
        refine ⟨?_, hi', Or.inl ⟨bs.length, rfl⟩⟩
        show s.data.readIndex + (bs.length : Int) = _
        omega
    | _ => exact absurd trivial hl

/-- From the full buffer the handler goes straight to a read with a count of `0`. -/
theorem Overfull.step {s s' : Connection} {l : Label} (h : Overfull s) (hroom : RoomToRead s)
    (hs : next s l = some s') : Overfull s' := by
  obtain ⟨hfull, hi, hphase⟩ := h
  have hi' := indexInv_step hi hs
  rcases next_cases hs with ⟨_, _, _, rfl, hp, _, rfl⟩ | ⟨_, rfl, hp, _⟩ |
    ⟨a, pc, out, rfl, hp, hstep, rfl⟩
  · simp [hp] at hphase
  · simp [hp] at hphase
  · rw [hp] at hphase
    rcases hphase with ⟨n, hpc⟩ | hpc | hpc
    · cases hpc
      cases hstep
      refine ⟨?_, hi', Or.inr (Or.inl rfl)⟩
      show s.data.readIndex + (n : Int) + 0 = _
      simpa [rlen, hp] using hfull
    · cases hpc
      cases hstep
      exact ⟨by simpa [rlen, hp, afterStep] using hfull, hi', Or.inr (Or.inr rfl)⟩
    · cases hpc
      have hcount := readCount_eq hi.read_nonneg (by have := hi.room; omega)
      have hpos := hroom hp
      simp only [rlen, hp] at hfull
      omega

/--
**A count of `0` comes from a full answer.** While every `read()` returns fewer bytes
than it was asked for, none is called with a count of `0`; and in a run that ends
between events that is the only way for none to be.
-/
theorem room_to_read_iff {fd : Fd} {s : Connection} {ls : List Label}
    (hrun : (machine fd).run (accepted fd) ls = some s) :
    ((machine fd).Along NotFilled (accepted fd) ls →
      (machine fd).Throughout RoomToRead (accepted fd) ls)
    ∧ (BetweenEvents s →
      (machine fd).Throughout RoomToRead (accepted fd) ls →
        (machine fd).Along NotFilled (accepted fd) ls) := by
  refine Machine.throughout_iff_along (fitsInv_init fd) (fun _ h => h.roomToRead)
    (fun _ _ _ h _ hl hs => fitsInv_step h hl hs) (fun _ _ _ h _ hl hs => h.overfull hl hs)
    (fun _ _ _ h hp _ hs => h.step hp hs) ?_ hrun Machine.along_true
  intro s hover hrest _
  obtain ⟨_, _, ⟨n, hp⟩ | hp | hp⟩ := hover
  · exact hrest _ hp
  · exact hrest _ hp
  · exact hrest _ hp

/-- Two bytes arrive and are echoed. -/
def roomy : List Label :=
  [.deliver { epollin := true } .success, .dispatch, .handler .quiet,
    .handler (.read (.data [104, 105])), .handler .quiet, .handler .quiet,
    .handler (.read (.fail .eagain)), .handler .quiet, .handler .quiet,
    .handler (.write (.wrote 2)), .handler .quiet, .handler .quiet, .handler .quiet,
    .handler (.epollCtl none)]

theorem room_to_read_roomy :
    ((machine 7).run (accepted 7) roomy).isSome = true
      ∧ (machine 7).Throughout RoomToRead (accepted 7) roomy
      ∧ (machine 7).Along NotFilled (accepted 7) roomy := by
  have hval : ((machine 7).run (accepted 7) roomy).map (fun s => s.phase) = some .idle := by
    decide +kernel
  obtain ⟨s, hrun, hp⟩ := Option.map_eq_some_iff.mp hval
  have hroom := (room_to_read_iff hrun).1 (by decide +kernel)
  exact ⟨by rw [hrun]; rfl, hroom, (room_to_read_iff hrun).2 (by simp [BetweenEvents, hp]) hroom⟩

/-- As many bytes as the first read asks for. -/
def brimful : List Label :=
  [.deliver { epollin := true } .success, .dispatch, .handler .quiet,
    .handler (.read (.data (List.replicate 1025 65))), .handler .quiet, .handler .quiet]

theorem no_room_to_read :
    ∃ s, (machine 7).Reachable s ∧ s.phase = .handling .read ∧ s.data.readCount = 0
      ∧ ¬ RoomToRead s := by
  have hval : ((machine 7).run (accepted 7) brimful).map (fun s => (s.phase, s.data.readCount))
      = some (.handling .read, 0) := by decide +kernel
  obtain ⟨s, hrun, heq⟩ := Option.map_eq_some_iff.mp hval
  have hr : (machine 7).Reachable s := .of_run (.init rfl) (by decide +kernel) hrun
  have hp : s.phase = .handling .read := congrArg Prod.fst heq
  have hzero : s.data.readCount = 0 := congrArg Prod.snd heq
  refine ⟨s, hr, hp, hzero, fun hroom => ?_⟩
  exact absurd (hroom hp) (by omega)

end Connection

end TcpServers
