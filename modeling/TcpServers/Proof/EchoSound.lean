import TcpServers.Lib.Store
import TcpServers.Proof.Indices

/-!
# The echo is a prefix of what was received

The two indices delimit the two histories in the buffer: `buffer_[0 .. read_index_)`
is what was read, `buffer_[0 .. write_index_)` what was written, and the second
index never passes the first. Between a system call and the statement that adds
its result to an index the local `rlen` or `wlen` makes up the difference.

A failed read is excluded: it resets the indices, after which the buffer no
longer holds the history.
-/

namespace TcpServers.Connection

open Lib

/-- No `read()` fails with an error other than the two would-block ones. -/
def NoReadFailure (_ : Connection) : Label → Prop
  | .handler (.read (.fail e)) => e.wouldBlock = true
  | _ => True

instance (s : Connection) : (l : Label) → Decidable (NoReadFailure s l)
  | .handler (.read (.fail e)) => inferInstanceAs (Decidable (e.wouldBlock = true))
  | .handler (.read (.data _)) | .handler .quiet | .handler (.write _) | .handler (.epollCtl _)
  | .deliver _ _ | .dispatch => isTrue trivial

/-- The statements only a failed read leads to. -/
def resetting : HandlerPc → Bool
  | .readFailRearm => true
  | .resetReadIndex => true
  | .resetWriteIndex => true
  | .resetReady => true
  | _ => false

/-- The indices delimit the two histories in the buffer. -/
structure EchoInv (s : Connection) : Prop where
  received : s.data.bytes (s.data.readIndex + s.rlen) = s.received
  sent : s.data.bytes (s.data.writeIndex + s.wlen) = s.sent
  noReset : ∀ pc, s.phase = .handling pc → resetting pc = false

theorem echoInv_init (fd : Fd) : EchoInv (accepted fd) where
  received := rfl
  sent := rfl
  noReset := by intro pc h; exact absurd h (by simp [accepted])

/-- Storing a chunk at `read_index_` appends it to what the buffer holds. -/
theorem bytes_chunk {cd : ConnectionData} (bs : List Byte) (h : 0 ≤ cd.readIndex) :
    ({ cd with buffer := cd.buffer.save cd.readIndex bs } : ConnectionData).bytes
      (cd.readIndex + bs.length) = cd.bytes cd.readIndex ++ bs := by
  have hr : (cd.readIndex + bs.length).toNat = cd.readIndex.toNat + bs.length := by omega
  have happ := Store.load_save_append cd.buffer 0 cd.readIndex.toNat bs
  rw [Int.zero_add, Int.toNat_of_nonneg h] at happ
  unfold ConnectionData.bytes
  dsimp only
  rw [hr]
  exact happ

/-- A chunk stored at `read_index_` leaves the bytes below alone. -/
theorem bytes_chunk_below {cd : ConnectionData} (bs : List Byte) {n : Int}
    (h0 : 0 ≤ n) (h : n ≤ cd.readIndex) :
    ({ cd with buffer := cd.buffer.save cd.readIndex bs } : ConnectionData).bytes n
      = cd.bytes n :=
  Store.load_save_below (by omega)

/-- The bytes up to `write_index_` and an accepted range behind it read on as one. -/
theorem bytes_wrote {cd : ConnectionData} (n : Nat) (h : 0 ≤ cd.writeIndex) :
    cd.bytes (cd.writeIndex + n) = cd.bytes cd.writeIndex ++ cd.buffer.load cd.writeIndex n := by
  have hw : (cd.writeIndex + n).toNat = cd.writeIndex.toNat + n := by omega
  unfold ConnectionData.bytes
  rw [hw, Store.load_add, Int.zero_add, Int.toNat_of_nonneg h]

/-- The histories where no system call result is waiting to be added. -/
theorem EchoInv.settled {s : Connection} (h : EchoInv s) (hr : s.rlen = 0) (hw : s.wlen = 0) :
    s.data.bytes s.data.readIndex = s.received ∧ s.data.bytes s.data.writeIndex = s.sent := by
  have hrec := h.received
  have hsent := h.sent
  rw [hr, Int.natCast_zero, Int.add_zero] at hrec
  rw [hw, Int.natCast_zero, Int.add_zero] at hsent
  exact ⟨hrec, hsent⟩

/-- Steps that leave buffer, indices and histories alone keep the invariant. -/
theorem EchoInv.of_same {s s' : Connection} (h : EchoInv s) (hr0 : s.rlen = 0) (hw0 : s.wlen = 0)
    (hbuf : s'.data.buffer = s.data.buffer) (hr : s'.data.readIndex = s.data.readIndex)
    (hw : s'.data.writeIndex = s.data.writeIndex) (hrec' : s'.received = s.received)
    (hsent' : s'.sent = s.sent) (hrlen : s'.rlen = 0) (hwlen : s'.wlen = 0)
    (hno : ∀ pc, s'.phase = .handling pc → resetting pc = false) : EchoInv s' := by
  obtain ⟨hrec, hsent⟩ := h.settled hr0 hw0
  refine ⟨?_, ?_, hno⟩
  · rw [hrlen, hr, hrec', ← hrec]
    simp [ConnectionData.bytes, hbuf]
  · rw [hwlen, hw, hsent', ← hsent]
    simp [ConnectionData.bytes, hbuf]

/-- The handler keeps the invariant, as long as it is not on its way to a reset. -/
theorem echoInv_handler {s : Connection} {pc : HandlerPc} {a : Answer} {out : HandlerOut}
    (hi : IndexInv s) (h : EchoInv s) (hp : s.phase = .handling pc)
    (hl : NoReadFailure s (.handler a)) (hstep : HandlerStep s.data s.errno pc a out) :
    EchoInv (s.stepped pc a out) := by
  have hpc := h.noReset pc hp
  cases hstep with
  | chunk hpos hbs =>
      rename_i bs
      obtain ⟨hrec, hsent⟩ := h.settled (by simp [rlen, hp]) (by simp [wlen, hp])
      have hle : s.data.writeIndex ≤ s.data.readIndex := by
        simpa [wlen, hp] using hi.le (by simp [hp])
      refine ⟨?_, ?_, by intro pc h; cases h; rfl⟩
      · simp only [rlen, stepped_data, stepped_phase, stepped_received, afterStep, stored]
        rw [bytes_chunk bs hi.read_nonneg, hrec]
      · simp only [wlen, stepped_data, stepped_phase, stepped_sent, afterStep, accepts,
          Int.natCast_zero, Int.add_zero, List.append_nil]
        rw [bytes_chunk_below bs hi.write_nonneg hle, hsent]
  | wrote hpos hn =>
      rename_i n
      obtain ⟨hrec, hsent⟩ := h.settled (by simp [rlen, hp]) (by simp [wlen, hp])
      refine ⟨?_, ?_, by intro pc h; cases h; rfl⟩
      · simpa [rlen, afterStep, stored] using hrec
      · simp only [wlen, stepped_data, stepped_phase, stepped_sent, afterStep, accepts]
        rw [bytes_wrote n hi.write_nonneg, hsent]
  | addReadIndex =>
      have hrec := h.received
      have hsent := h.sent
      simp only [rlen, wlen, hp] at hrec hsent
      refine ⟨?_, ?_, by intro pc h; cases h; rfl⟩
      · simpa [rlen, afterStep, stored, ConnectionData.bytes] using hrec
      · simpa [wlen, afterStep, accepts, ConnectionData.bytes] using hsent
  | addWriteIndex =>
      have hrec := h.received
      have hsent := h.sent
      simp only [rlen, wlen, hp] at hrec hsent
      refine ⟨?_, ?_, by intro pc h; cases h; rfl⟩
      · simpa [rlen, afterStep, stored, ConnectionData.bytes] using hrec
      · simpa [wlen, afterStep, accepts, ConnectionData.bytes] using hsent
  | readFailed he => exact absurd hl (by simp [NoReadFailure, he])
  | readFailRearm => exact absurd hpc (by simp [resetting])
  | resetReadIndex => exact absurd hpc (by simp [resetting])
  | resetWriteIndex => exact absurd hpc (by simp [resetting])
  | resetReady => exact absurd hpc (by simp [resetting])
  | resume | startRead | endOfStream | drained | logReceived | setReady | startWrite
  | wroteNothing | writeFailed | echoed | notEchoed | clearEchoed | blocked | failed =>
      exact h.of_same (by simp [rlen, hp]) (by simp [wlen, hp]) rfl rfl rfl (List.append_nil _)
        (List.append_nil _) rfl rfl (by intro pc h; cases h; rfl)
  | nothingToWrite | echoedRearm | blockedRearm | writeFailRearm =>
      exact h.of_same (by simp [rlen, hp]) (by simp [wlen, hp]) rfl rfl rfl (List.append_nil _)
        (List.append_nil _) rfl rfl (by intro pc h; cases h)

/-- **Preserved by every step that is not a failed read.** -/
theorem echoInv_step {s s' : Connection} {l : Label} (hi : IndexInv s) (h : EchoInv s)
    (hl : NoReadFailure s l) (hs : next s l = some s') : EchoInv s' := by
  rcases next_cases hs with ⟨flags, e, mask, rfl, hp, _, rfl⟩ | ⟨flags, rfl, hp, hd⟩ |
    ⟨a, pc, out, rfl, hp, hstep, rfl⟩
  · exact h.of_same (by simp [rlen, hp]) (by simp [wlen, hp]) rfl rfl rfl rfl rfl rfl rfl
      (by intro pc h; cases h)
  · have hr : s.rlen = 0 := by simp [rlen, hp]
    have hw : s.wlen = 0 := by simp [wlen, hp]
    rcases hd with ⟨_, rfl⟩ | ⟨_, rfl⟩ | ⟨_, rfl⟩
    · exact h.of_same hr hw rfl rfl rfl rfl rfl rfl rfl (by intro pc h; cases h)
    · exact h.of_same hr hw rfl rfl rfl rfl rfl rfl rfl (by intro pc h; cases h)
    · exact h.of_same hr hw rfl rfl rfl rfl rfl rfl rfl (by intro pc h; cases h; rfl)
  · exact echoInv_handler hi h hp hl hstep

theorem echoInv_reachable {fd : Fd} {s : Connection}
    (h : (machine fd).ReachableVia NoReadFailure s) : EchoInv s := by
  refine Machine.ReachableVia.invariant ?_ ?_ h
  · intro s hinit
    subst hinit
    exact echoInv_init fd
  · intro s l s' hr hi hc hs
    exact echoInv_step (indexInv_reachable hr) hi hc hs

/-- Without a failed read the indices are ordered at every moment. -/
theorem EchoInv.ordered {s : Connection} (hi : IndexInv s) (h : EchoInv s) :
    s.data.writeIndex + s.wlen ≤ s.data.readIndex :=
  hi.le (fun hp => absurd (h.noReset _ hp) (by simp [resetting]))

/-- What was written is a prefix of what was read. -/
theorem EchoInv.sent_isPrefix {s : Connection} (hi : IndexInv s) (h : EchoInv s) :
    s.sent <+: s.received := by
  have hle := h.ordered hi
  rw [← h.sent, ← h.received]
  exact Store.load_isPrefix_load _ _ (by omega)

/--
**Echo soundness.** Whatever the chunks, short writes, would-block answers, hard
write errors and ends of stream, as long as no read fails: the indices stay
ordered, the buffer up to `read_index_` is what was read since accept, a `write()`
is only ever given a range inside `[write_index_, read_index_)`, and what it
accepted is the buffer up to `write_index_`, a prefix of what was read.
-/
theorem echo_sound {fd : Fd} {s : Connection}
    (h : (machine fd).ReachableVia NoReadFailure s) :
    0 ≤ s.data.writeIndex ∧ s.data.writeIndex ≤ s.data.readIndex
      ∧ s.data.bytes (s.data.readIndex + s.rlen) = s.received
      ∧ (s.phase = .handling .write →
          s.data.writeIndex + s.data.writeCount ≤ s.data.readIndex)
      ∧ s.data.bytes (s.data.writeIndex + s.wlen) = s.sent
      ∧ s.sent <+: s.received := by
  have hi := indexInv_reachable h
  have he := echoInv_reachable h
  have hle : s.data.writeIndex ≤ s.data.readIndex := by
    have := he.ordered hi
    omega
  refine ⟨hi.write_nonneg, hle, he.received, ?_, he.sent, he.sent_isPrefix hi⟩
  intro _
  have := writeCount_le hle
  omega

/-- Two bytes read, one of them written back. -/
def halfEchoed : List Label :=
  [.deliver { epollin := true } .success, .dispatch, .handler .quiet,
    .handler (.read (.data [104, 105])), .handler .quiet, .handler .quiet,
    .handler (.read (.fail .eagain)), .handler .quiet, .handler .quiet,
    .handler (.write (.wrote 1)), .handler .quiet]

theorem echo_sound_halfEchoed :
    ∃ s : Connection, s.received = [104, 105] ∧ s.sent = [104] ∧ s.sent <+: s.received := by
  have hval : ((machine 7).run (accepted 7) halfEchoed).map (fun s => (s.received, s.sent))
      = some ([104, 105], [104]) := by decide +kernel
  obtain ⟨s, hrun, heq⟩ := Option.map_eq_some_iff.mp hval
  have hr : (machine 7).ReachableVia NoReadFailure s :=
    .of_run (.init rfl) (by decide +kernel) hrun
  exact ⟨s, congrArg Prod.fst heq, congrArg Prod.snd heq, (echo_sound hr).2.2.2.2.2⟩

end TcpServers.Connection
