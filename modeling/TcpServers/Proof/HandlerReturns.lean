import TcpServers.Lib.Drive
import TcpServers.Proof.Indices

/-!
# `handleConnectionEvent` returns

Neither of its loops has a bound of its own. The read loop ends because every
chunk takes some of the room behind `read_index_`, and the count it passes to
`read()` never exceeds that room; the write loop because every write takes some
of what is unsent. Both rest on the order of the two indices, which also keeps the
`size_t` differences from wrapping.

The kernel is any that moves at most as many bytes as it is asked to.
-/

namespace TcpServers.Connection

open Lib

/-- The answers of a kernel, one for each step, to a given count. -/
structure KernelAnswers where
  read : Nat → Nat → ReadResult
  write : Nat → Nat → WriteResult
  epollCtl : Nat → Option Errno
  read_le : ∀ n count bs, read n count = .data bs → bs.length ≤ count
  write_le : ∀ n count m, write n count = .wrote m → m ≤ count

/-- What the kernel answers to a statement of the handler. -/
def KernelAnswers.answer (k : KernelAnswers) (n : Nat) (cd : ConnectionData) : HandlerPc → Answer
  | .read => .read (k.read n cd.readCount)
  | .write => .write (k.write n cd.writeCount)
  | .readFailRearm | .echoedRearm | .blockedRearm | .writeFailRearm => .epollCtl (k.epollCtl n)
  | _ => .quiet

/-- The next step of the handler, the kernel answering. -/
def KernelAnswers.choose (k : KernelAnswers) (n : Nat) (s : Connection) : Label :=
  match s.phase with
  | .handling pc => .handler (k.answer n s.data pc)
  | _ => .dispatch

/-- The handler is running. -/
def Handling (s : Connection) : Prop := ∃ pc, s.phase = .handling pc

/-- `reset()` has stored the first index and not the second. -/
def HalfReset (s : Connection) : Prop := s.phase = .handling .resetWriteIndex

/-! ## What is left to do -/

/-- The room behind `read_index_`. -/
def room (cd : ConnectionData) : Nat := (ConnectionData.bufferSize + 1 - cd.readIndex).toNat

/-- What is not echoed yet. -/
def unsent (cd : ConnectionData) : Nat := (cd.readIndex - cd.writeIndex).toNat

/-- The statements that are left, at most: six for a byte of room, three for an unsent one. -/
def left (cd : ConnectionData) : HandlerPc → Nat
  | .testRead => 6 * room cd + 3 * unsent cd + 7
  | .read => 6 * room cd + 3 * unsent cd + 6
  | .addReadIndex rlen => 6 * (room cd - rlen) + 3 * (unsent cd + rlen) + 8
  | .logReceived => 6 * room cd + 3 * unsent cd + 7
  | .setReady => 3 * unsent cd + 5
  | .testWrite => 3 * unsent cd + 4
  | .write => 3 * unsent cd + 3
  | .addWriteIndex wlen => 3 * (unsent cd - wlen) + 5
  | .testEchoed => 3 * unsent cd + 4
  | .readFailRearm => 4
  | .resetReadIndex => 3
  | .resetWriteIndex => 2
  | .resetReady => 1
  | .clearEchoed => 2
  | .clearUnwritten => 2
  | .echoedRearm => 1
  | .blockedRearm => 1
  | .writeFailRearm => 1

/-- The same for a connection. -/
def leftIn (s : Connection) : Nat :=
  match s.phase with
  | .handling pc => left s.data pc
  | _ => 0

/-! ## One step -/

/-- Every statement can be executed, whatever the kernel answers. -/
theorem handlerStep_answer (k : KernelAnswers) (n : Nat) (pc : HandlerPc) (cd : ConnectionData)
    (errno : Errno) : ∃ out, handlerStep pc cd errno (k.answer n cd pc) = some out := by
  cases pc with
  | read =>
      cases hr : k.read n cd.readCount with
      | data bs =>
          have hle := k.read_le n cd.readCount bs hr
          simp [handlerStep, KernelAnswers.answer, hr, hle]
      | fail e => simp [handlerStep, KernelAnswers.answer, hr]
  | write =>
      cases hw : k.write n cd.writeCount with
      | wrote m =>
          have hle := k.write_le n cd.writeCount m hw
          simp [handlerStep, KernelAnswers.answer, hw, hle]
      | fail e => simp [handlerStep, KernelAnswers.answer, hw]
  | _ => exact ⟨_, rfl⟩

/-- **Every statement leaves fewer to do.** -/
theorem leftIn_lt {s : Connection} {pc : HandlerPc} {a : Answer} {out : HandlerOut}
    (h : IndexInv s) (hp : s.phase = .handling pc) (hstep : HandlerStep s.data s.errno pc a out) :
    leftIn (s.stepped pc a out) < leftIn s := by
  have hroom := h.room
  have hr0 := h.read_nonneg
  have hle := h.le
  rw [hp] at hle
  simp only [leftIn, hp, stepped_phase, stepped_data]
  cases hstep with
  | chunk hpos hbs =>
      rename_i bs
      have hroom' : s.data.readIndex ≤ ConnectionData.bufferSize + 1 := by
        simpa [rlen, hp] using hroom
      have hcount := readCount_eq hr0 hroom'
      simp only [afterStep, left, room, unsent]
      omega
  | addReadIndex =>
      simp only [rlen, hp] at hroom
      simp only [wlen, hp] at hle
      have hle' := hle (by simp)
      simp only [afterStep, left, room, unsent]
      omega
  | wrote hpos hn =>
      have hle' : s.data.writeIndex ≤ s.data.readIndex := by simpa [wlen, hp] using hle
      have hcount := writeCount_le hle'
      simp only [afterStep, left, unsent]
      omega
  | addWriteIndex =>
      rename_i n
      have hle' : s.data.writeIndex + n ≤ s.data.readIndex := by simpa [wlen, hp] using hle
      simp only [afterStep, left, unsent]
      omega
  | _ => simp only [afterStep, left, room, unsent]; omega

/-- One step of a running handler, with any kernel. -/
theorem handling_step {s : Connection} (k : KernelAnswers) (n : Nat) (h : IndexInv s)
    (hrunning : Handling s) :
    ∃ s', next s (k.choose n s) = some s' ∧ (IndexInv s' ∧ (Handling s' ∨ s'.phase = .idle))
      ∧ leftIn s' < leftIn s := by
  obtain ⟨pc, hp⟩ := hrunning
  obtain ⟨out, hout⟩ := handlerStep_answer k n pc s.data s.errno
  have hnext : next s (k.choose n s) = some (s.stepped pc (k.answer n s.data pc) out) := by
    simp only [KernelAnswers.choose, hp, next, hout, Option.map_some]
  refine ⟨_, hnext, ⟨indexInv_step h hnext, ?_⟩, leftIn_lt h hp (handlerStep_cases hout)⟩
  rw [stepped_phase]
  cases hpc : out.pc with
  | none => exact Or.inr rfl
  | some pc' => exact Or.inl ⟨pc', by rw [stepped_phase, hpc]; rfl⟩

/-- The handler can take no more than that many statements. -/
theorem leftIn_le {s : Connection} (h : IndexInv s) :
    leftIn s ≤ 6 * (ConnectionData.bufferSize + 1).toNat + 8 := by
  have hw0 := h.write_nonneg
  have hr0 := h.read_nonneg
  have hroom := h.room
  unfold leftIn
  split
  · rename_i pc hp
    rw [rlen, hp] at hroom
    cases pc <;> simp only [left, room, unsent, ConnectionData.bufferSize] at hroom ⊢ <;> omega
  · exact Nat.zero_le _

/-! ## The sizes -/

/-- The two indices and the sizes computed from them, as numbers without a bound. -/
structure SizesInRange (s : Connection) : Prop where
  write_nonneg : 0 ≤ s.data.writeIndex
  read_nonneg : 0 ≤ s.data.readIndex
  read_le : s.data.readIndex ≤ ConnectionData.bufferSize + 1
  readCount : (s.data.readCount : Int) = ConnectionData.bufferSize - s.data.readIndex + 1
  /-- Between the two stores of `reset()` the second index is not cleared yet. -/
  write_le : ¬ HalfReset s → s.data.writeIndex ≤ s.data.readIndex
    ∧ (s.data.writeCount : Int) = s.data.readIndex - s.data.writeIndex

theorem sizesInRange {s : Connection} (h : IndexInv s) : SizesInRange s := by
  have hroom := h.room
  have hr0 := h.read_nonneg
  have hw0 := h.write_nonneg
  have hle : s.data.readIndex ≤ ConnectionData.bufferSize + 1 := by omega
  refine ⟨hw0, hr0, hle, ?_, fun hreset => ?_⟩
  · rw [readCount_eq hr0 hle]
    omega
  · have hord := h.le hreset
    refine ⟨by omega, ?_⟩
    unfold ConnectionData.writeCount ConnectionData.toSize
    unfold ConnectionData.bufferSize at hle
    omega

/--
**The handler always returns, and its sizes never wrap.** In every reachable
state the indices are in order and the sizes are the differences; and from every
statement of the handler, whatever the kernel answers, it has returned after a
bounded number of statements.
-/
theorem handler_returns {fd : Fd} {s : Connection} (h : (machine fd).Reachable s) :
    SizesInRange s ∧ (Handling s → ∀ k : KernelAnswers, ∃ n t,
      n ≤ 6 * (ConnectionData.bufferSize + 1).toNat + 8
        ∧ (machine fd).drive k.choose s n = some t ∧ t.phase = .idle) := by
  have hi := indexInv_reachable h
  refine ⟨sizesInRange hi, fun hrunning k => ?_⟩
  obtain ⟨n, t, hn, ht, ⟨_, hphase⟩, hdone⟩ := @Machine.drive_ends _ _ (machine fd) k.choose
    (fun _ t => IndexInv t ∧ (Handling t ∨ t.phase = .idle)) Handling (fun _ => leftIn) s
    ⟨hi, Or.inl hrunning⟩ (fun n t ht hb => handling_step k n ht.1 hb)
  exact ⟨n, t, Nat.le_trans hn (leftIn_le hi), ht, hphase.resolve_left hdone⟩

/-- A kernel that has one byte for every read, and takes one with every write. -/
def byteByByte : KernelAnswers where
  read _ count := .data (if count = 0 then [] else [104])
  write _ count := .wrote (if count = 0 then 0 else 1)
  epollCtl _ := none
  read_le := by
    intro n count bs h
    cases h
    split
    · simp
    · rw [List.length_singleton]
      omega
  write_le := by
    intro n count m h
    cases h
    split <;> omega

theorem handler_returns_byteByByte :
    ∃ s n t, s.phase = .handling .testRead
      ∧ (machine 7).drive byteByByte.choose s n = some t ∧ t.phase = .idle := by
  have hval : ((machine 7).run (accepted 7)
      [.deliver { epollin := true } .success, .dispatch]).map (fun s => s.phase)
      = some (.handling .testRead) := by decide +kernel
  obtain ⟨s, hrun, hp⟩ := Option.map_eq_some_iff.mp hval
  have hr : (machine 7).Reachable s := .of_run (.init rfl) Machine.along_true hrun
  obtain ⟨n, t, _, ht, hidle⟩ := (handler_returns hr).2 ⟨_, hp⟩ byteByByte
  exact ⟨s, n, t, hp, ht, hidle⟩

end TcpServers.Connection
