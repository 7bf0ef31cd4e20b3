import TcpServers.Proof.EchoSound

/-!
# What `ready_for_write_` says between events

The flag is put down on every way out of the write loop, the one taken when the
client's window is full included, and up again only by a read that would block. So
between events it is down, whatever is left to write. It says what it should as
long as no event ends with bytes pending.
-/

namespace TcpServers.Connection

open Lib

/-- The flag of an open connection is up exactly when an echo is unfinished. -/
def FlagRecords (s : Connection) : Prop :=
  BetweenEvents s → s.phase ≠ .closed →
    (s.data.readyForWrite = true ↔ s.data.writeIndex < s.data.readIndex)

/-- No hard error, and no end of stream: a read of `0` bytes is one with a count of `0`. -/
def OnlyBlocks (s : Connection) : Label → Prop
  | .handler (.read (.data bs)) => bs = [] → s.data.readCount = 0
  | .handler (.read (.fail e)) => e.wouldBlock = true
  | .handler (.write (.fail e)) => e.wouldBlock = true
  | _ => True

instance (s : Connection) : (l : Label) → Decidable (OnlyBlocks s l)
  | .handler (.read (.data bs)) => inferInstanceAs (Decidable (bs = [] → s.data.readCount = 0))
  | .handler (.read (.fail e)) => inferInstanceAs (Decidable (e.wouldBlock = true))
  | .handler (.write (.fail e)) => inferInstanceAs (Decidable (e.wouldBlock = true))
  | .handler .quiet | .handler (.write (.wrote _)) | .handler (.epollCtl _)
  | .deliver _ _ | .dispatch => isTrue trivial

/-- A read of `0` bytes and a write that accepts nothing find nothing pending. -/
def NothingPending (s : Connection) : Label → Prop
  | .handler (.read (.data bs)) => bs = [] → s.data.writeIndex = s.data.readIndex
  | .handler (.write (.wrote n)) => n = 0 → s.data.writeIndex = s.data.readIndex
  | .handler (.write (.fail _)) => s.data.writeIndex = s.data.readIndex
  | _ => True

instance (s : Connection) : (l : Label) → Decidable (NothingPending s l)
  | .handler (.read (.data bs)) =>
      inferInstanceAs (Decidable (bs = [] → s.data.writeIndex = s.data.readIndex))
  | .handler (.write (.wrote n)) =>
      inferInstanceAs (Decidable (n = 0 → s.data.writeIndex = s.data.readIndex))
  | .handler (.write (.fail _)) =>
      inferInstanceAs (Decidable (s.data.writeIndex = s.data.readIndex))
  | .handler .quiet | .handler (.read (.fail _)) | .handler (.epollCtl _)
  | .deliver _ _ | .dispatch => isTrue trivial

/-- Where nothing is left to echo, as long as no event ends with bytes pending. -/
def echoedAt (ready : Bool) : Phase → Bool
  | .idle => true
  | .fetched _ => true
  | .handling .testRead => true
  -- past the read loop without having gone through `ready_for_write_ = true`
  | .handling .testWrite => !ready
  | .handling .clearEchoed => true
  | .handling .echoedRearm => true
  | .handling .clearUnwritten => true
  | .handling .blockedRearm => true
  | .handling .writeFailRearm => true
  | _ => false

/-- Every echo so far was finished in the event that began it. -/
structure FinishedInv (s : Connection) : Prop where
  index : IndexInv s
  noReset : ∀ pc, s.phase = .handling pc → resetting pc = false
  echoed : echoedAt s.data.readyForWrite s.phase = true → s.data.writeIndex = s.data.readIndex

/-- An event is about to end, or has ended, with bytes pending. -/
structure Unrecorded (s : Connection) : Prop where
  index : IndexInv s
  pending : s.data.writeIndex < s.data.readIndex
  phase : (s.phase = .handling .testWrite ∧ s.data.readyForWrite = false)
    ∨ s.phase = .handling .clearUnwritten ∨ s.phase = .handling .blockedRearm
    ∨ s.phase = .handling .writeFailRearm ∨ s.phase = .idle

theorem finishedInv_init (fd : Fd) : FinishedInv (accepted fd) where
  index := indexInv_init fd
  noReset := by intro pc h; exact absurd h (by simp [accepted])
  echoed := fun _ => rfl

theorem FinishedInv.flagRecords {s : Connection} (h : FinishedInv s) : FlagRecords s := by
  intro hbetween hopen
  have hdone : s.data.readyForWrite = false ∧ s.data.writeIndex = s.data.readIndex := by
    cases hp : s.phase with
    | idle => exact ⟨h.index.flag false (by rw [hp]; rfl), h.echoed (by rw [hp]; rfl)⟩
    | fetched flags => exact ⟨h.index.flag false (by rw [hp]; rfl), h.echoed (by rw [hp]; rfl)⟩
    | handling pc => exact absurd hp (hbetween pc)
    | closed => exact absurd hp hopen
  rw [hdone.1, hdone.2]
  simp

/-- The order of the indices where no `write()` has returned bytes not added yet. -/
theorem FinishedInv.le {s : Connection} (h : FinishedInv s) (hw : s.wlen = 0) :
    s.data.writeIndex ≤ s.data.readIndex := by
  have hle := h.index.le (fun hp => absurd (h.noReset _ hp) (by simp [resetting]))
  rw [hw] at hle
  omega

theorem finishedInv_step {s s' : Connection} {l : Label} (h : FinishedInv s)
    (hl : OnlyBlocks s l) (hc : NothingPending s l) (hs : next s l = some s') :
    FinishedInv s' := by
  have hi' := indexInv_step h.index hs
  rcases next_cases hs with ⟨flags, e, mask, rfl, hp, _, rfl⟩ | ⟨flags, rfl, hp, hd⟩ |
    ⟨a, pc, out, rfl, hp, hstep, rfl⟩
  · exact ⟨hi', (by intro pc hpc; cases hpc), fun _ => h.echoed (by rw [hp]; rfl)⟩
  · have heq : s.data.writeIndex = s.data.readIndex := h.echoed (by rw [hp]; rfl)
    rcases hd with ⟨_, rfl⟩ | ⟨_, rfl⟩ | ⟨_, rfl⟩
    · exact ⟨hi', (by intro pc hpc; cases hpc), fun _ => heq⟩
    · exact ⟨hi', (by intro pc hpc; cases hpc), fun _ => heq⟩
    · exact ⟨hi', (by intro pc hpc; cases hpc; rfl), fun _ => heq⟩
  · have hpc := h.noReset pc hp
    have hdone := h.echoed
    rw [hp] at hdone
    cases hstep with
    | readFailed he => exact absurd hl (by simp [OnlyBlocks, he])
    | readFailRearm | resetReadIndex | resetWriteIndex | resetReady =>
        exact absurd hpc (by simp [resetting])
    | resume hb =>
        refine ⟨hi', (by intro pc hpc; cases hpc; rfl), fun hat => ?_⟩
        exact absurd hat (by simp [echoedAt, afterStep, hb])
    | endOfStream => exact ⟨hi', (by intro pc hpc; cases hpc; rfl), fun _ => hc rfl⟩
    | wroteNothing => exact ⟨hi', (by intro pc hpc; cases hpc; rfl), fun _ => hc rfl⟩
    | writeFailed => exact ⟨hi', (by intro pc hpc; cases hpc; rfl), fun _ => hc⟩
    | nothingToWrite hb =>
        refine ⟨hi', (by intro pc hpc; cases hpc), fun _ => hdone ?_⟩
        rw [hb]
        rfl
    | echoed hge =>
        have hle := h.le (by simp [wlen, hp])
        refine ⟨hi', (by intro pc hpc; cases hpc; rfl), fun _ => ?_⟩
        show s.data.writeIndex = s.data.readIndex
        omega
    | clearEchoed | blocked | failed =>
        exact ⟨hi', (by intro pc hpc; cases hpc; rfl), fun _ => hdone rfl⟩
    | echoedRearm | blockedRearm | writeFailRearm =>
        exact ⟨hi', (by intro pc hpc; cases hpc), fun _ => hdone rfl⟩
    | startRead | chunk | drained | addReadIndex | logReceived | setReady | startWrite | wrote
    | addWriteIndex | notEchoed =>
        refine ⟨hi', (by intro pc hpc; cases hpc; rfl), fun hat => ?_⟩
        exact absurd hat (by simp [echoedAt, afterStep])

/-- The step that leaves bytes pending behind is on its way out of the event. -/
theorem FinishedInv.unrecorded {s s' : Connection} {l : Label} (h : FinishedInv s)
    (hc : ¬ NothingPending s l) (hs : next s l = some s') : Unrecorded s' := by
  have hi' := indexInv_step h.index hs
  rcases next_cases hs with ⟨flags, e, mask, rfl, hp, _, rfl⟩ | ⟨flags, rfl, hp, hd⟩ |
    ⟨a, pc, out, rfl, hp, hstep, rfl⟩
  · exact absurd trivial hc
  · exact absurd trivial hc
  · have hle := h.le
    cases hstep with
    | endOfStream =>
        have hne : s.data.writeIndex ≠ s.data.readIndex := fun heq => hc (fun _ => heq)
        have hle' := hle (by simp [wlen, hp])
        have hflag : s.data.readyForWrite = false := h.index.flag false (by rw [hp]; rfl)
        exact ⟨hi', by show s.data.writeIndex < s.data.readIndex; omega, Or.inl ⟨rfl, hflag⟩⟩
    | wroteNothing =>
        have hne : s.data.writeIndex ≠ s.data.readIndex := fun heq => hc (fun _ => heq)
        have hle' := hle (by simp [wlen, hp])
        exact ⟨hi', by show s.data.writeIndex < s.data.readIndex; omega, Or.inr (Or.inl rfl)⟩
    | writeFailed =>
        have hne : s.data.writeIndex ≠ s.data.readIndex := hc
        have hle' := hle (by simp [wlen, hp])
        exact ⟨hi', by show s.data.writeIndex < s.data.readIndex; omega, Or.inr (Or.inl rfl)⟩
    | @chunk bs hpos _ =>
        refine absurd (fun hnil => ?_) hc
        subst hnil
        exact absurd hpos (by simp)
    | @wrote n hpos _ => exact absurd (fun hz => absurd hpos (by omega)) hc
    | _ => exact absurd trivial hc

/-- Nothing but the next event gets a connection out of that. -/
theorem Unrecorded.step {s s' : Connection} {l : Label} (h : Unrecorded s) (hP : FlagRecords s)
    (hs : next s l = some s') : Unrecorded s' := by
  have hi' := indexInv_step h.index hs
  have hpend := h.pending
  have hphase := h.phase
  rcases next_cases hs with ⟨flags, e, mask, rfl, hp, _, rfl⟩ | ⟨flags, rfl, hp, hd⟩ |
    ⟨a, pc, out, rfl, hp, hstep, rfl⟩
  · -- the flag is down between events, with bytes pending
    have hflag : s.data.readyForWrite = false := h.index.flag false (by rw [hp]; rfl)
    have hiff := hP (by intro pc; rw [hp]; simp) (by simp [hp])
    rw [hflag] at hiff
    exact absurd (hiff.mpr hpend) (by simp)
  · simp [hp] at hphase
  · rw [hp] at hphase
    simp only [Phase.handling.injEq, reduceCtorEq, or_false] at hphase
    rcases hphase with ⟨rfl, hflag⟩ | rfl | rfl | rfl
    · cases hstep with
      | startWrite hb => exact absurd hb (by simp [hflag])
      | nothingToWrite =>
          exact ⟨hi', hpend, Or.inr (Or.inr (Or.inr (Or.inr rfl)))⟩
    · cases hstep with
      | blocked => exact ⟨hi', hpend, Or.inr (Or.inr (Or.inl rfl))⟩
      | failed => exact ⟨hi', hpend, Or.inr (Or.inr (Or.inr (Or.inl rfl)))⟩
    · cases hstep
      exact ⟨hi', hpend, Or.inr (Or.inr (Or.inr (Or.inr rfl)))⟩
    · cases hstep
      exact ⟨hi', hpend, Or.inr (Or.inr (Or.inr (Or.inr rfl)))⟩

/--
**The flag records an unfinished echo only where there is none.** In a run without
hard errors and without end of stream: while every write that accepts nothing, and
every read of `0` bytes, finds nothing pending, the flag is right in every state;
and in a run that ends between events that is the only way for it to be.
-/
theorem flag_records_iff {fd : Fd} {s : Connection} {ls : List Label}
    (hrun : (machine fd).run (accepted fd) ls = some s)
    (honly : (machine fd).Along OnlyBlocks (accepted fd) ls) :
    ((machine fd).Along NothingPending (accepted fd) ls →
      (machine fd).Throughout FlagRecords (accepted fd) ls)
    ∧ (BetweenEvents s →
      (machine fd).Throughout FlagRecords (accepted fd) ls →
        (machine fd).Along NothingPending (accepted fd) ls) := by
  refine Machine.throughout_iff_along (finishedInv_init fd) (fun _ h => h.flagRecords)
    (fun _ _ _ h hl hc hs => finishedInv_step h hl hc hs)
    (fun _ _ _ h _ hc hs => h.unrecorded hc hs) (fun _ _ _ h hP _ hs => h.step hP hs) ?_
    hrun honly
  intro s hun hrest hflag
  obtain ⟨hi, hpend, ⟨hp, _⟩ | hp | hp | hp | hp⟩ := hun
  · exact hrest _ hp
  · exact hrest _ hp
  · exact hrest _ hp
  · exact hrest _ hp
  · have hdown : s.data.readyForWrite = false := hi.flag false (by rw [hp]; rfl)
    have hiff := hflag hrest (by simp [hp])
    rw [hdown] at hiff
    exact absurd (hiff.mpr hpend) (by simp)

/-- Two bytes arrive and are echoed, the second by a write of its own. -/
def inTwoWrites : List Label :=
  [.deliver { epollin := true } .success, .dispatch, .handler .quiet,
    .handler (.read (.data [104, 105])), .handler .quiet, .handler .quiet,
    .handler (.read (.fail .eagain)), .handler .quiet, .handler .quiet,
    .handler (.write (.wrote 1)), .handler .quiet, .handler .quiet,
    .handler (.write (.wrote 1)), .handler .quiet, .handler .quiet, .handler .quiet,
    .handler (.epollCtl none)]

theorem flag_records_inTwoWrites :
    (machine 7).Throughout FlagRecords (accepted 7) inTwoWrites
      ∧ (machine 7).Along NothingPending (accepted 7) inTwoWrites := by
  have hval : ((machine 7).run (accepted 7) inTwoWrites).map (fun s => s.phase) = some .idle := by
    decide +kernel
  obtain ⟨s, hrun, hp⟩ := Option.map_eq_some_iff.mp hval
  have honly : (machine 7).Along OnlyBlocks (accepted 7) inTwoWrites := by decide +kernel
  have hflag := (flag_records_iff hrun honly).1 (by decide +kernel)
  exact ⟨hflag, (flag_records_iff hrun honly).2 (by simp [BetweenEvents, hp]) hflag⟩

/-- Two bytes arrive, one is written back, and the client takes no more for now. -/
def windowFull : List Label :=
  [.deliver { epollin := true } .success, .dispatch, .handler .quiet,
    .handler (.read (.data [104, 105])), .handler .quiet, .handler .quiet,
    .handler (.read (.fail .eagain)), .handler .quiet, .handler .quiet,
    .handler (.write (.wrote 1)), .handler .quiet, .handler .quiet,
    .handler (.write (.fail .eagain)), .handler .quiet, .handler (.epollCtl none)]

theorem flag_not_recorded :
    ∃ s, (machine 7).ReachableVia OnlyBlocks s ∧ s.phase = .idle
      ∧ s.data.readyForWrite = false ∧ s.data.writeIndex < s.data.readIndex
      ∧ ¬ FlagRecords s := by
  have hval : ((machine 7).run (accepted 7) windowFull).map
      (fun s => (s.phase, s.data.readyForWrite, s.data.writeIndex, s.data.readIndex))
      = some (.idle, false, 1, 2) := by decide +kernel
  obtain ⟨s, hrun, heq⟩ := Option.map_eq_some_iff.mp hval
  simp only [Prod.mk.injEq] at heq
  obtain ⟨hp, hdown, hw, hr⟩ := heq
  have hlt : s.data.writeIndex < s.data.readIndex := by
    rw [hw, hr]
    decide
  refine ⟨s, .of_run (.init rfl) (by decide +kernel) hrun, hp, hdown, hlt, fun hrecords => ?_⟩
  have hiff := hrecords (by simp [BetweenEvents, hp]) (by simp [hp])
  exact absurd (hiff.mpr hlt) (by simp [hdown])

end TcpServers.Connection
