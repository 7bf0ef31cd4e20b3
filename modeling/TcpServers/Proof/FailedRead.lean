import TcpServers.Proof.EchoSound

/-!
# What a failed read takes with it

After a failed read the handler keeps the connection and calls `reset()`, which
forgets whatever `read_index_` and `write_index_` still had between them. What
comes next is echoed as if nothing had been there before, so the stream has a hole
exactly when something was pending.

No step looks at the two histories. So what happens behind a reset that lost
nothing is a run of a connection that was never read from before, with the same
bytes put in front of both of its histories.
-/

namespace TcpServers.Connection

open Lib

/-- `buffer_[write_index_ .. read_index_)`. -/
def pending (s : Connection) : List Byte :=
  s.data.buffer.load s.data.writeIndex (s.data.readIndex - s.data.writeIndex).toNat

/--
What was written is a prefix of what was read, and between events the rest of it is
still in the buffer.
-/
def NoHole (s : Connection) : Prop :=
  s.sent <+: s.received ∧ (BetweenEvents s → s.sent ++ s.pending = s.received)

/-- A `read()` that fails finds nothing pending. -/
def FailsWithNothingPending (s : Connection) : Label → Prop
  | .handler (.read (.fail e)) => e.wouldBlock = false → s.data.writeIndex = s.data.readIndex
  | _ => True

instance (s : Connection) : (l : Label) → Decidable (FailsWithNothingPending s l)
  | .handler (.read (.fail e)) =>
      inferInstanceAs (Decidable (e.wouldBlock = false → s.data.writeIndex = s.data.readIndex))
  | .handler (.read (.data _)) | .handler .quiet | .handler (.write _) | .handler (.epollCtl _)
  | .deliver _ _ | .dispatch => isTrue trivial

/-! ## Histories with something in front -/

/-- The same connection with `pre` read and echoed before all it has seen. -/
def after (pre : List Byte) (s : Connection) : Connection :=
  { s with received := pre ++ s.received, sent := pre ++ s.sent }

/-- **The histories decide nothing.** -/
theorem next_after (pre : List Byte) (s : Connection) (l : Label) :
    next (s.after pre) l = (next s l).map (after pre) := by
  cases l with
  | deliver flags errno =>
      simp only [next, after]
      cases s.phase <;> cases s.armed <;> rfl
  | dispatch =>
      simp only [next, after]
      cases s.phase with
      | fetched flags =>
          dsimp only
          cases TcpServers.dispatch flags <;> rfl
      | _ => rfl
  | handler a =>
      simp only [next, after]
      cases s.phase with
      | handling pc =>
          dsimp only
          cases handlerStep pc s.data s.errno a with
          | none => rfl
          | some out =>
              simp only [Option.map_some, stepped, after, List.append_assoc]
      | _ => rfl

theorem indexInv_of_after {pre : List Byte} {s : Connection} (h : IndexInv (s.after pre)) :
    IndexInv s :=
  ⟨h.write_nonneg, h.read_nonneg, h.le, h.room, h.flag⟩

theorem EchoInv.noHole {s : Connection} (hi : IndexInv s) (h : EchoInv s) (pre : List Byte) :
    NoHole (s.after pre) := by
  refine ⟨(List.prefix_append_right_inj pre).mpr (h.sent_isPrefix hi), fun hbetween => ?_⟩
  have hr : s.rlen = 0 := by
    unfold rlen
    split
    · rename_i n hp
      exact absurd hp (hbetween _)
    · rfl
  have hw : s.wlen = 0 := by
    unfold wlen
    split
    · rename_i n hp
      exact absurd hp (hbetween _)
    · rfl
  obtain ⟨hrec, hsent⟩ := h.settled hr hw
  have hle := h.ordered hi
  rw [hw] at hle
  have hnat : s.data.writeIndex + ((s.data.readIndex - s.data.writeIndex).toNat : Int)
      = s.data.readIndex := by omega
  show (pre ++ s.sent) ++ s.pending = pre ++ s.received
  rw [List.append_assoc, ← hsent, ← hrec]
  unfold pending
  rw [← bytes_wrote _ hi.write_nonneg, hnat]

/-! ## Both ways through a failed read -/

/-- `reset()` clears `read_index_` first. -/
structure ResetInv (s : Connection) : Prop where
  index : IndexInv s
  cleared : s.phase = .handling .resetWriteIndex ∨ s.phase = .handling .resetReady →
    s.data.readIndex = 0

theorem resetInv_init (fd : Fd) : ResetInv (accepted fd) where
  index := indexInv_init fd
  cleared := fun _ => rfl

theorem resetInv_step {s s' : Connection} {l : Label} (h : ResetInv s)
    (hs : next s l = some s') : ResetInv s' := by
  have hi' := indexInv_step h.index hs
  rcases next_cases hs with ⟨flags, e, mask, rfl, hp, _, rfl⟩ | ⟨flags, rfl, hp, hd⟩ |
    ⟨a, pc, out, rfl, hp, hstep, rfl⟩
  · exact ⟨hi', by simp⟩
  · rcases hd with ⟨_, rfl⟩ | ⟨_, rfl⟩ | ⟨_, rfl⟩
    · exact ⟨hi', by simp⟩
    · exact ⟨hi', by simp⟩
    · exact ⟨hi', by simp⟩
  · cases hstep with
    | resetReadIndex => exact ⟨hi', fun _ => rfl⟩
    | resetWriteIndex => exact ⟨hi', fun _ => h.cleared (Or.inl hp)⟩
    | _ => exact ⟨hi', by simp [afterStep]⟩

/-- In `reset()` and in the re-arm before it. -/
def InReset (s : Connection) : Prop := ∃ pc, s.phase = .handling pc ∧ resetting pc = true

/-- Everything read has been echoed or is in the buffer. -/
structure KeptAll (s : Connection) : Prop where
  reset : ResetInv s
  kept : (∃ pre s₀, EchoInv s₀ ∧ s = after pre s₀) ∨ (InReset s ∧ s.sent = s.received)

/-- What was read and not written, as far as the indices know of it. -/
def outstanding (s : Connection) : Int :=
  match s.phase with
  | .handling pc =>
      if resetting pc then 0 else s.data.readIndex + s.rlen - (s.data.writeIndex + s.wlen)
  | _ => s.data.readIndex - s.data.writeIndex

/-- More was read than was written or is in the buffer. -/
structure LostSome (s : Connection) : Prop where
  reset : ResetInv s
  lost : s.sent.length + s.outstanding < s.received.length

theorem keptAll_init (fd : Fd) : KeptAll (accepted fd) where
  reset := resetInv_init fd
  kept := Or.inl ⟨[], accepted fd, echoInv_init fd, rfl⟩

theorem KeptAll.noHole {s : Connection} (h : KeptAll s) : NoHole s := by
  rcases h.kept with ⟨pre, s₀, he, rfl⟩ | ⟨⟨pc, hp, _⟩, heq⟩
  · exact he.noHole (indexInv_of_after h.reset.index) pre
  · exact ⟨⟨[], by rw [List.append_nil, heq]⟩, fun hbetween => absurd hp (hbetween pc)⟩

/-- Behind `reset()` a connection is as good as new. -/
theorem keptAll_resetReady {s : Connection} (h : ResetInv s) (heq : s.sent = s.received)
    (hp : s.phase = .handling .resetReady) :
    ∃ s₀, EchoInv s₀ ∧ s.stepped .resetReady .quiet
      ⟨none, { s.data with readyForWrite := false }, s.errno⟩ = after s.received s₀ := by
  have hr : s.data.readIndex = 0 := h.cleared (Or.inr hp)
  have hle := h.index.le_of_handling hp (by simp)
  have hw0 := h.index.write_nonneg
  have hw : s.data.writeIndex = 0 := by omega
  refine ⟨{ s.stepped .resetReady .quiet ⟨none, { s.data with readyForWrite := false }, s.errno⟩
    with received := [], sent := [] }, ⟨?_, ?_, ?_⟩, ?_⟩
  · simp [rlen, afterStep, hr, ConnectionData.bytes]
  · simp [wlen, afterStep, hw, ConnectionData.bytes]
  · intro pc hpc
    simp [afterStep] at hpc
  · simp [after, stepped, stored, accepts, heq]

theorem keptAll_step {s s' : Connection} {l : Label} (h : KeptAll s)
    (hc : FailsWithNothingPending s l) (hs : next s l = some s') : KeptAll s' := by
  refine ⟨resetInv_step h.reset hs, ?_⟩
  rcases h.kept with ⟨pre, s₀, he, rfl⟩ | ⟨⟨pc, hp, hreset⟩, heq⟩
  · have hi := indexInv_of_after h.reset.index
    by_cases hl : NoReadFailure s₀ l
    · rw [next_after] at hs
      obtain ⟨s₀', hs₀, rfl⟩ := Option.map_eq_some_iff.mp hs
      exact Or.inl ⟨pre, s₀', echoInv_step hi he hl hs₀, rfl⟩
    · -- a failed read, and nothing was pending
      rcases next_cases hs with ⟨_, _, _, rfl, _, _, _⟩ | ⟨_, rfl, _, _⟩ |
        ⟨a, pc, out, rfl, hp, hstep, rfl⟩
      · exact absurd trivial hl
      · exact absurd trivial hl
      · cases hstep with
        | readFailed hb =>
            have hidx : s₀.data.writeIndex = s₀.data.readIndex := hc hb
            have hp₀ : s₀.phase = .handling .read := hp
            obtain ⟨hrec, hsent⟩ := he.settled (by simp [rlen, hp₀]) (by simp [wlen, hp₀])
            refine Or.inr ⟨⟨_, rfl, rfl⟩, ?_⟩
            show (pre ++ s₀.sent) ++ [] = (pre ++ s₀.received) ++ []
            rw [← hrec, ← hsent, hidx]
        | drained hb => exact absurd hb hl
        | _ => exact absurd trivial hl
  · rcases next_cases hs with ⟨_, _, _, rfl, hp', _, rfl⟩ | ⟨_, rfl, hp', _⟩ |
      ⟨a, pc', out, rfl, hp', hstep, rfl⟩
    · exact absurd (hp.symm.trans hp') (by simp)
    · exact absurd (hp.symm.trans hp') (by simp)
    · rw [hp] at hp'
      cases hp'
      cases hstep with
      | readFailRearm | resetReadIndex | resetWriteIndex =>
          exact Or.inr ⟨⟨_, rfl, rfl⟩, by simpa [stored, accepts] using heq⟩
      | resetReady =>
          obtain ⟨s₀, he, hs₀⟩ := keptAll_resetReady h.reset heq hp
          exact Or.inl ⟨s.received, s₀, he, hs₀⟩
      | _ => exact absurd hreset (by simp [resetting])

theorem KeptAll.lostSome {s s' : Connection} {l : Label} (h : KeptAll s)
    (hc : ¬ FailsWithNothingPending s l) (hs : next s l = some s') : LostSome s' := by
  refine ⟨resetInv_step h.reset hs, ?_⟩
  rcases next_cases hs with ⟨_, _, _, rfl, _, _, _⟩ | ⟨_, rfl, _, _⟩ |
    ⟨a, pc, out, rfl, hp, hstep, rfl⟩
  · exact absurd trivial hc
  · exact absurd trivial hc
  · cases hstep with
    | readFailed hb =>
        have hne : s.data.writeIndex ≠ s.data.readIndex := fun heq => hc (fun _ => heq)
        have hle := h.reset.index.le_of_handling hp (by simp)
        rcases h.kept with ⟨pre, s₀, he, rfl⟩ | ⟨⟨pc, hp', hreset⟩, _⟩
        · have hp₀ : s₀.phase = .handling .read := hp
          obtain ⟨hrec, hsent⟩ := he.settled (by simp [rlen, hp₀]) (by simp [wlen, hp₀])
          have hi := indexInv_of_after h.reset.index
          have hlr := congrArg List.length hrec
          have hls := congrArg List.length hsent
          simp only [ConnectionData.bytes, Store.length_load] at hlr hls
          have hr0 := hi.read_nonneg
          have hw0 := hi.write_nonneg
          have hne₀ : s₀.data.writeIndex ≠ s₀.data.readIndex := hne
          have hle₀ : s₀.data.writeIndex ≤ s₀.data.readIndex := hle
          simp only [outstanding, stepped_phase, afterStep, resetting, stepped_sent,
            stepped_received, stored, accepts, List.append_nil, after, List.length_append,
            if_true]
          omega
        · rw [hp] at hp'
          cases hp'
          exact absurd hreset (by simp [resetting])
    | drained hb => exact absurd (fun hf => absurd hb (by simp [hf])) hc
    | _ => exact absurd trivial hc

/-- What is lost stays lost. -/
theorem LostSome.step {s s' : Connection} {l : Label} (h : LostSome s)
    (hs : next s l = some s') : LostSome s' := by
  refine ⟨resetInv_step h.reset hs, ?_⟩
  have hlost := h.lost
  have hi := h.reset.index
  rcases next_cases hs with ⟨flags, e, mask, rfl, hp, _, rfl⟩ | ⟨flags, rfl, hp, hd⟩ |
    ⟨a, pc, out, rfl, hp, hstep, rfl⟩
  · simpa [outstanding, hp] using hlost
  · rcases hd with ⟨_, rfl⟩ | ⟨_, rfl⟩ | ⟨_, rfl⟩ <;>
      simpa [outstanding, hp, resetting, rlen, wlen] using hlost
  · have hle : pc ≠ .resetWriteIndex → s.data.writeIndex ≤ s.data.readIndex :=
      hi.le_of_handling hp
    cases hstep with
    | chunk | addReadIndex | wrote | addWriteIndex =>
        simp only [outstanding, hp, rlen, wlen, resetting, Bool.false_eq_true, if_false] at hlost
        simp only [outstanding, stepped_phase, afterStep, rlen, wlen, resetting, stepped_sent,
          stepped_received, stepped_data, stored, accepts, List.append_nil, List.length_append,
          Store.length_load, Bool.false_eq_true, if_false]
        omega
    | readFailed =>
        have hle' := hle (by simp)
        simp only [outstanding, hp, rlen, wlen, resetting, Bool.false_eq_true, if_false] at hlost
        simp only [outstanding, stepped_phase, afterStep, resetting, stepped_sent,
          stepped_received, stored, accepts, List.append_nil, if_true]
        omega
    | resetReady =>
        have hle' := hle (by simp)
        have hr : s.data.readIndex = 0 := h.reset.cleared (Or.inr hp)
        have hw := hi.write_nonneg
        simp only [outstanding, hp, resetting, if_true] at hlost
        simp only [outstanding, stepped_phase, afterStep, stepped_sent, stepped_received,
          stepped_data, stored, accepts, List.append_nil]
        omega
    | _ =>
        simpa [outstanding, hp, rlen, wlen, resetting, afterStep, stored, accepts] using hlost

theorem LostSome.hole {s : Connection} (h : LostSome s) (hbetween : BetweenEvents s) :
    ¬ NoHole s := by
  intro hno
  have hlen := congrArg List.length (hno.2 hbetween)
  have hlost := h.lost
  have hout : s.outstanding = s.data.readIndex - s.data.writeIndex := by
    unfold outstanding
    split
    · rename_i pc hp
      exact absurd hp (hbetween pc)
    · rfl
  have hle := h.reset.index.le (hbetween _)
  rw [List.length_append, pending, Store.length_load] at hlen
  omega

/--
**A failed read loses what is pending.** While every `read()` that fails finds nothing
pending, the bytes written stay a prefix of the bytes read and the rest is kept; and in
a run that ends between events that is the only way for it to be so.
-/
theorem no_hole_iff {fd : Fd} {s : Connection} {ls : List Label}
    (hrun : (machine fd).run (accepted fd) ls = some s) :
    ((machine fd).Along FailsWithNothingPending (accepted fd) ls →
      (machine fd).Throughout NoHole (accepted fd) ls)
    ∧ (BetweenEvents s →
      (machine fd).Throughout NoHole (accepted fd) ls →
        (machine fd).Along FailsWithNothingPending (accepted fd) ls) := by
  exact Machine.throughout_iff_along (keptAll_init fd) (fun _ h => h.noHole)
    (fun _ _ _ h _ hc hs => keptAll_step h hc hs)
    (fun _ _ _ h _ hc hs => h.lostSome hc hs) (fun _ _ _ h _ _ hs => h.step hs)
    (fun _ h hrest => h.hole hrest) hrun Machine.along_true

/-- A read fails when both bytes read so far have been written back. -/
def failsAfterEcho : List Label :=
  [.deliver { epollin := true } .success, .dispatch, .handler .quiet,
    .handler (.read (.data [104, 105])), .handler .quiet, .handler .quiet,
    .handler (.read (.fail .eagain)), .handler .quiet, .handler .quiet,
    .handler (.write (.wrote 2)), .handler .quiet, .handler .quiet, .handler .quiet,
    .handler (.epollCtl none),
    .deliver { epollin := true } .success, .dispatch, .handler .quiet,
    .handler (.read (.fail (.other 4))), .handler (.epollCtl none), .handler .quiet,
    .handler .quiet, .handler .quiet]

theorem no_hole_failsAfterEcho :
    (machine 7).Throughout NoHole (accepted 7) failsAfterEcho
      ∧ (machine 7).Along FailsWithNothingPending (accepted 7) failsAfterEcho := by
  have hval : ((machine 7).run (accepted 7) failsAfterEcho).map (fun s => s.phase)
      = some .idle := by decide +kernel
  obtain ⟨s, hrun, hp⟩ := Option.map_eq_some_iff.mp hval
  have hno := (no_hole_iff hrun).1 (by decide +kernel)
  exact ⟨hno, (no_hole_iff hrun).2 (by simp [BetweenEvents, hp]) hno⟩

/-- A read is interrupted with two bytes pending; a third one arrives later and is echoed. -/
def interrupted : List Label :=
  [.deliver { epollin := true } .success, .dispatch, .handler .quiet,
    .handler (.read (.data [104, 105])), .handler .quiet, .handler .quiet,
    .handler (.read (.fail (.other 4))), .handler (.epollCtl none), .handler .quiet,
    .handler .quiet, .handler .quiet,
    .deliver { epollin := true } .success, .dispatch, .handler .quiet,
    .handler (.read (.data [33])), .handler .quiet, .handler .quiet,
    .handler (.read (.fail .eagain)), .handler .quiet, .handler .quiet,
    .handler (.write (.wrote 1)), .handler .quiet, .handler .quiet, .handler .quiet,
    .handler (.epollCtl none)]

theorem hole_interrupted :
    ∃ s, (machine 7).Reachable s ∧ s.phase = .idle ∧ s.received = [104, 105, 33]
      ∧ s.sent = [33] ∧ ¬ NoHole s := by
  have hval : ((machine 7).run (accepted 7) interrupted).map
      (fun s => (s.phase, s.received, s.sent)) = some (.idle, [104, 105, 33], [33]) := by
    decide +kernel
  obtain ⟨s, hrun, heq⟩ := Option.map_eq_some_iff.mp hval
  simp only [Prod.mk.injEq] at heq
  obtain ⟨hp, hrec, hsent⟩ := heq
  refine ⟨s, .of_run (.init rfl) (by decide +kernel) hrun, hp, hrec, hsent, fun hno => ?_⟩
  have hprefix := hno.1
  rw [hrec, hsent] at hprefix
  exact absurd hprefix (by decide)

end TcpServers.Connection
