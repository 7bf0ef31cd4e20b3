import TcpServers.Model.Connection

/-!
# Where the two indices and the flag can stand

Three facts about every run of a connection, failed reads and their resets
included: the indices stay in order, `read_index_` stops at most one past the end
of the buffer, and `ready_for_write_` has a fixed value at almost every statement
of the handler. Between events the flag is always false.
-/

namespace TcpServers.Connection

open Lib

/-- Bytes the last `read()` stored that are not in `read_index_` yet. -/
def rlen (s : Connection) : Nat :=
  match s.phase with
  | .handling (.addReadIndex n) => n
  | _ => 0

/-- Bytes the last `write()` accepted that are not in `write_index_` yet. -/
def wlen (s : Connection) : Nat :=
  match s.phase with
  | .handling (.addWriteIndex n) => n
  | _ => 0

/-- The value of `ready_for_write_` at a statement, where it has only one. -/
def flagAt : HandlerPc → Option Bool
  | .testWrite => none
  | .write | .addWriteIndex _ | .testEchoed | .clearEchoed | .clearUnwritten => some true
  | _ => some false

/-- The flag a connection must have in a phase. -/
def flagIn : Phase → Option Bool
  | .handling pc => flagAt pc
  | .closed => none
  | _ => some false

theorem toSize_le {n : Int} (h : 0 ≤ n) : (ConnectionData.toSize n : Int) ≤ n := by
  unfold ConnectionData.toSize
  omega

/-- The range given to `write()` ends at or before `read_index_`. -/
theorem writeCount_le {cd : ConnectionData} (h : cd.writeIndex ≤ cd.readIndex) :
    (cd.writeCount : Int) ≤ cd.readIndex - cd.writeIndex :=
  toSize_le (by omega)

/-- The count given to `read()`, as long as it does not wrap. -/
theorem readCount_eq {cd : ConnectionData} (h0 : 0 ≤ cd.readIndex)
    (h : cd.readIndex ≤ ConnectionData.bufferSize + 1) :
    (cd.readCount : Int) = ConnectionData.bufferSize + 1 - cd.readIndex := by
  unfold ConnectionData.readCount ConnectionData.toSize ConnectionData.bufferSize
  unfold ConnectionData.bufferSize at h
  omega

/-- The indices and the flag of a connection, in every state. -/
structure IndexInv (s : Connection) : Prop where
  write_nonneg : 0 ≤ s.data.writeIndex
  read_nonneg : 0 ≤ s.data.readIndex
  /-- Only inside `reset()`, with the first index cleared, is the order broken. -/
  le : s.phase ≠ .handling .resetWriteIndex → s.data.writeIndex + s.wlen ≤ s.data.readIndex
  room : s.data.readIndex + s.rlen ≤ ConnectionData.bufferSize + 1
  flag : ∀ b, flagIn s.phase = some b → s.data.readyForWrite = b

theorem indexInv_init (fd : Fd) : IndexInv (accepted fd) where
  write_nonneg := Int.le_refl _
  read_nonneg := Int.le_refl _
  le := fun _ => Int.le_refl _
  room := by simp [accepted, ConnectionData.new, rlen, ConnectionData.bufferSize]
  flag := by intro b hb; cases hb; rfl

/-- Steps that leave the indices alone need only answer for the flag. -/
theorem IndexInv.of_same {s s' : Connection} (h : IndexInv s)
    (hp : s.phase ≠ .handling .resetWriteIndex) (hr0 : s.rlen = 0) (hw0 : s.wlen = 0)
    (hr : s'.data.readIndex = s.data.readIndex) (hw : s'.data.writeIndex = s.data.writeIndex)
    (hrlen : s'.rlen = 0) (hwlen : s'.wlen = 0)
    (hflag : ∀ b, flagIn s'.phase = some b → s'.data.readyForWrite = b) : IndexInv s' := by
  have hle := h.le hp
  have hroom := h.room
  have hw1 := h.write_nonneg
  have hr1 := h.read_nonneg
  rw [hw0] at hle
  rw [hr0] at hroom
  refine ⟨by omega, by omega, fun _ => ?_, ?_, hflag⟩
  · rw [hw, hr, hwlen]; exact hle
  · rw [hr, hrlen]; exact hroom

theorem indexInv_handler {s : Connection} {pc : HandlerPc} {a : Answer} {out : HandlerOut}
    (h : IndexInv s) (hp : s.phase = .handling pc) (hstep : HandlerStep s.data s.errno pc a out) :
    IndexInv (s.stepped pc a out) := by
  have hw0 := h.write_nonneg
  have hr0 := h.read_nonneg
  have hroom := h.room
  have hle := h.le
  have hflag : ∀ b, flagAt pc = some b → s.data.readyForWrite = b := by
    intro b hb
    exact h.flag b (by rw [hp]; exact hb)
  rw [hp] at hle
  cases hstep with
  | chunk hpos hbs =>
      rename_i bs
      have hle' : s.data.writeIndex ≤ s.data.readIndex := by simpa [wlen, hp] using hle
      have hroom' : s.data.readIndex ≤ ConnectionData.bufferSize + 1 := by
        simpa [rlen, hp] using hroom
      have hcount := readCount_eq hr0 hroom'
      refine ⟨hw0, hr0, fun _ => by simpa [wlen, afterStep] using hle', ?_, hflag⟩
      simp only [rlen, stepped_data, stepped_phase, afterStep]
      omega
  | addReadIndex =>
      rename_i n
      have hle' : s.data.writeIndex ≤ s.data.readIndex := by simpa [wlen, hp] using hle
      have hroom' : s.data.readIndex + n ≤ ConnectionData.bufferSize + 1 := by
        simpa [rlen, hp] using hroom
      refine ⟨hw0, by simp only [stepped_data]; omega, fun _ => ?_, ?_, hflag⟩
      · simp only [wlen, stepped_data, stepped_phase, afterStep]; omega
      · simpa [rlen, afterStep] using hroom'
  | wrote hpos hn =>
      rename_i n
      have hle' : s.data.writeIndex ≤ s.data.readIndex := by simpa [wlen, hp] using hle
      have hcount := writeCount_le hle'
      refine ⟨hw0, hr0, fun _ => ?_, by simpa [rlen, hp, afterStep] using hroom, hflag⟩
      simp only [wlen, stepped_data, stepped_phase, afterStep]
      omega
  | addWriteIndex =>
      rename_i n
      have hle' : s.data.writeIndex + n ≤ s.data.readIndex := by simpa [wlen, hp] using hle
      refine ⟨by simp only [stepped_data]; omega, hr0,
        fun _ => by simpa [wlen, afterStep] using hle', ?_, hflag⟩
      simpa [rlen, hp, afterStep] using hroom
  | resetReadIndex =>
      refine ⟨hw0, Int.le_refl _, fun hne => absurd rfl hne, ?_, hflag⟩
      simp [rlen, afterStep, ConnectionData.bufferSize]
  | resetWriteIndex =>
      refine ⟨Int.le_refl _, hr0, fun _ => by simpa [wlen, afterStep] using hr0, ?_, hflag⟩
      simpa [rlen, hp, afterStep] using hroom
  | resume hb =>
      exact absurd (hflag false rfl) (by simp [hb])
  | startWrite hb =>
      exact h.of_same (by simp [hp]) (by simp [rlen, hp]) (by simp [wlen, hp]) rfl rfl rfl rfl
        (by intro b heq; cases heq; exact hb)
  | nothingToWrite hb =>
      exact h.of_same (by simp [hp]) (by simp [rlen, hp]) (by simp [wlen, hp]) rfl rfl rfl rfl
        (by intro b heq; cases heq; exact hb)
  | endOfStream | setReady =>
      exact h.of_same (by simp [hp]) (by simp [rlen, hp]) (by simp [wlen, hp]) rfl rfl rfl rfl
        (by intro b heq; cases heq)
  | clearEchoed | blocked | failed | resetReady =>
      exact h.of_same (by simp [hp]) (by simp [rlen, hp]) (by simp [wlen, hp]) rfl rfl rfl rfl
        (by intro b heq; cases heq; rfl)
  | startRead | drained | readFailed | logReceived | readFailRearm | wroteNothing | writeFailed
  | echoed | notEchoed | echoedRearm | blockedRearm | writeFailRearm =>
      exact h.of_same (by simp [hp]) (by simp [rlen, hp]) (by simp [wlen, hp]) rfl rfl rfl rfl hflag

/-- **Preserved by every step.** -/
theorem indexInv_step {s s' : Connection} {l : Label} (h : IndexInv s)
    (hs : next s l = some s') : IndexInv s' := by
  rcases next_cases hs with ⟨flags, e, mask, rfl, hp, _, rfl⟩ | ⟨flags, rfl, hp, hd⟩ |
    ⟨a, pc, out, rfl, hp, hstep, rfl⟩
  · exact h.of_same (by simp [hp]) (by simp [rlen, hp]) (by simp [wlen, hp]) rfl rfl rfl rfl
      (fun b hb => h.flag b (by rw [hp]; exact hb))
  · have hne : s.phase ≠ .handling .resetWriteIndex := by simp [hp]
    have hr : s.rlen = 0 := by simp [rlen, hp]
    have hw : s.wlen = 0 := by simp [wlen, hp]
    have hflag : s.data.readyForWrite = false := h.flag false (by rw [hp]; rfl)
    rcases hd with ⟨_, rfl⟩ | ⟨_, rfl⟩ | ⟨_, rfl⟩
    · exact h.of_same hne hr hw rfl rfl rfl rfl (by intro b hb; cases hb)
    · exact h.of_same hne hr hw rfl rfl rfl rfl (by intro b hb; cases hb; exact hflag)
    · exact h.of_same hne hr hw rfl rfl rfl rfl (by intro b hb; cases hb; exact hflag)
  · exact indexInv_handler h hp hstep

theorem indexInv_reachable {fd : Fd} {C : Connection → Label → Prop} {s : Connection}
    (h : (machine fd).ReachableVia C s) : IndexInv s := by
  refine Machine.ReachableVia.invariant ?_ ?_ h
  · intro s hinit
    subst hinit
    exact indexInv_init fd
  · intro s l s' _ hi _ hs
    exact indexInv_step hi hs

/-- Everywhere in the handler but inside `reset()` the indices are in order. -/
theorem IndexInv.le_of_handling {s : Connection} {pc : HandlerPc} (h : IndexInv s)
    (hp : s.phase = .handling pc) (hpc : pc ≠ .resetWriteIndex) :
    s.data.writeIndex ≤ s.data.readIndex := by
  have hle := h.le (by rw [hp]; intro heq; exact hpc (Phase.handling.inj heq))
  omega

/-- Between events the flag is down. -/
theorem not_ready_idle {s : Connection} (h : IndexInv s) (hp : s.phase = .idle) :
    s.data.readyForWrite = false :=
  h.flag false (by rw [hp]; rfl)

end TcpServers.Connection
