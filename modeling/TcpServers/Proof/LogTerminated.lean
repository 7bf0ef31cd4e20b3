import TcpServers.Lib.Layers
import TcpServers.Lib.Observe
import TcpServers.Proof.Indices

/-!
# Where the log of the received data stops

After each successful read the handler logs `buffer_.data()` as a C string. The buffer
starts as zeros and is only ever added to, from `read_index_` on; a failed read puts
that back to `0` and leaves the bytes where they are. So what stands at an offset is
what the latest of the client's byte strings that reaches it has there, a string
beginning at accept or after a failed read. Nothing sees to it that a zero is left.
-/

namespace TcpServers.Connection

open Lib

variable {fd : Fd} {s s' t : Connection} {l : Label}

/-- What comes in with a read: bytes, or the failure after which the indices are reset. -/
inductive Arrived where
  | bytes (bs : List Byte)
  | failure
  deriving DecidableEq, Repr

/-- What a step reads. -/
def arrives (_ : Connection) : Label → List Arrived
  | .handler (.read (.data bs)) => [.bytes bs]
  | .handler (.read (.fail e)) => if e.wouldBlock then [] else [.failure]
  | .handler .quiet | .handler (.write _) | .handler (.epollCtl _) | .deliver _ _ | .dispatch => []

/-- The byte strings up to each failure, the latest first. -/
def addArrived : List (List Byte) → Arrived → List (List Byte)
  | [], .bytes bs => [bs]
  | p :: ps, .bytes bs => (p ++ bs) :: ps
  | ps, .failure => [] :: ps

def byteStrings (arrived : List Arrived) : List (List Byte) := arrived.foldl addArrived [[]]

/-- What a run has read. -/
def arrived (fd : Fd) (ls : List Label) : List Arrived :=
  (machine fd).observed arrives (accepted fd) ls

/-- There is a NUL byte within the buffer. -/
def NulInBuffer (cd : ConnectionData) : Prop :=
  ∃ k : Nat, (k : Int) < ConnectionData.bufferSize ∧ cd.buffer k = 0

/-- At some offset within the buffer the client has put nothing, or a NUL last. -/
def LeavesNul (strings : List (List Byte)) : Prop :=
  ∃ k : Nat, (k : Int) < ConnectionData.bufferSize ∧ ∀ b, topmost strings k = some b → b = 0

/-- A read has failed, and `read_index_` is not reset yet. -/
def failing : Phase → Bool
  | .handling .readFailRearm => true
  | .handling .resetReadIndex => true
  | _ => false

/-- The buffer holds the byte strings, and `read_index_` is behind the latest. -/
structure StringsInv (arrived : List Arrived) (s : Connection) : Prop where
  shows : Shows s.data.buffer 0 (byteStrings arrived)
  current : ∃ p ps, byteStrings arrived = p :: ps
    ∧ (p.length : Int) = if failing s.phase then 0 else s.data.readIndex + s.rlen

theorem stringsInv_init (fd : Fd) : StringsInv [] (accepted fd) where
  shows := shows_ground 0
  current := ⟨[], [], rfl, rfl⟩

theorem byteStrings_snoc (evs : List Arrived) (ev : Arrived) :
    byteStrings (evs ++ [ev]) = addArrived (byteStrings evs) ev := by
  rw [byteStrings, List.foldl_append]
  rfl

variable {evs : List Arrived}

/-- A step that stores nothing and moves neither `read_index_` nor the failure. -/
theorem StringsInv.of_same (h : StringsInv evs s) (hbuf : s'.data.buffer = s.data.buffer)
    (hfail : failing s'.phase = failing s.phase)
    (hindex : failing s.phase = false → s'.data.readIndex + s'.rlen = s.data.readIndex + s.rlen) :
    StringsInv evs s' := by
  obtain ⟨p, ps, hps, hlen⟩ := h.current
  refine ⟨by rw [hbuf]; exact h.shows, p, ps, hps, ?_⟩
  rw [hfail]
  cases hf : failing s.phase with
  | true =>
      rw [hf] at hlen
      exact hlen
  | false =>
      rw [hf] at hlen
      rw [hlen]
      simp only [Bool.false_eq_true, if_false]
      exact (hindex hf).symm

theorem stringsInv_handler {pc : HandlerPc} {a : Answer} {out : HandlerOut}
    (h : StringsInv evs s) (hp : s.phase = .handling pc)
    (hstep : HandlerStep s.data s.errno pc a out) :
    StringsInv (evs ++ arrives s (.handler a)) (s.stepped pc a out) := by
  obtain ⟨p, ps, hps, hlen⟩ := h.current
  cases hstep with
  | @chunk bs hpos hle =>
      have hlen' : (p.length : Int) = s.data.readIndex := by
        simpa [failing, hp, rlen] using hlen
      have hnew : byteStrings (evs ++ [.bytes bs]) = (p ++ bs) :: ps := by
        rw [byteStrings_snoc, hps]
        rfl
      refine ⟨?_, p ++ bs, ps, hnew, ?_⟩
      · show Shows _ 0 (byteStrings (evs ++ [.bytes bs]))
        rw [hnew]
        exact (hps ▸ h.shows).save hlen' bs
      · simp [failing, afterStep, rlen, hlen']
  | endOfStream =>
      have hnew : byteStrings (evs ++ [.bytes []]) = p :: ps := by
        rw [byteStrings_snoc, hps, addArrived, List.append_nil]
      refine ⟨?_, p, ps, hnew, ?_⟩
      · show Shows _ 0 (byteStrings (evs ++ [.bytes []]))
        rw [hnew, ← hps]
        exact h.shows
      · simpa [failing, afterStep, rlen, hp] using hlen
  | @readFailed e he =>
      have harr : arrives s (.handler (.read (.fail e))) = [.failure] := by simp [arrives, he]
      rw [harr]
      have hnew : byteStrings (evs ++ [.failure]) = [] :: p :: ps := by
        rw [byteStrings_snoc, hps]
        rfl
      refine ⟨?_, [], p :: ps, hnew, rfl⟩
      rw [hnew, ← hps]
      exact h.shows.restart
  | @drained e he =>
      have harr : arrives s (.handler (.read (.fail e))) = [] := by simp [arrives, he]
      rw [harr, List.append_nil]
      exact h.of_same rfl (by simp [failing, hp, afterStep]) (by simp [rlen, hp, afterStep])
  | resetReadIndex =>
      show StringsInv (evs ++ []) _
      rw [List.append_nil]
      refine ⟨h.shows, p, ps, hps, ?_⟩
      simpa [failing, afterStep, rlen, hp] using hlen
  | addReadIndex | readFailRearm | resume | startRead | logReceived | setReady | resetWriteIndex
  | resetReady | startWrite | nothingToWrite | wrote | wroteNothing | writeFailed | addWriteIndex
  | echoed | notEchoed | clearEchoed | echoedRearm | blocked | failed | blockedRearm
  | writeFailRearm =>
      show StringsInv (evs ++ []) _
      rw [List.append_nil]
      exact h.of_same rfl (by simp [failing, hp, afterStep])
        (by simp [rlen, hp, afterStep, failing])

/-- **Preserved by every step.** -/
theorem stringsInv_step (h : StringsInv evs s) (hs : next s l = some s') :
    StringsInv (evs ++ arrives s l) s' := by
  rcases next_cases hs with ⟨flags, e, mask, rfl, hp, _, rfl⟩ | ⟨flags, rfl, hp, hd⟩ |
    ⟨a, pc, out, rfl, hp, hstep, rfl⟩
  · show StringsInv (evs ++ []) _
    rw [List.append_nil]
    exact h.of_same rfl (by simp [failing, hp]) (by simp [rlen, hp])
  · show StringsInv (evs ++ []) _
    rw [List.append_nil]
    rcases hd with ⟨_, rfl⟩ | ⟨_, rfl⟩ | ⟨_, rfl⟩
    · exact h.of_same rfl (by simp [failing, hp]) (by simp [rlen, hp])
    · exact h.of_same rfl (by simp [failing, hp]) (by simp [rlen, hp])
    · exact h.of_same rfl (by simp [failing, hp]) (by simp [rlen, hp])
  · exact stringsInv_handler h hp hstep

/-- **The buffer holds what the client sent**, in every run. -/
theorem stringsInv_run {ls : List Label} (hrun : (machine fd).run (accepted fd) ls = some s) :
    StringsInv (arrived fd ls) s :=
  Machine.observed_invariant (stringsInv_init fd)
    (fun _ _ _ _ hi _ hn => stringsInv_step hi hn) hrun Machine.along_true

/--
**The log finds its NUL exactly where the client leaves one.** In every run, at the
log after a read as everywhere else: there is a NUL within the buffer if and only if
at some offset within it the client's byte strings have put nothing, or a NUL last.
-/
theorem nulInBuffer_iff {ls : List Label} (hrun : (machine fd).run (accepted fd) ls = some s) :
    NulInBuffer s.data ↔ LeavesNul (byteStrings (arrived fd ls)) := by
  have hshows := (stringsInv_run hrun).shows
  have hcell : ∀ k : Nat, s.data.buffer k = 0 ↔
      ∀ b, topmost (byteStrings (arrived fd ls)) k = some b → b = 0 := by
    intro k
    rw [hshows k]
    cases topmost (byteStrings (arrived fd ls)) k with
    | none => simp
    | some b => simp
  constructor
  · rintro ⟨k, hk, hnul⟩
    exact ⟨k, hk, (hcell k).mp hnul⟩
  · rintro ⟨k, hk, hlast⟩
    exact ⟨k, hk, (hcell k).mpr hlast⟩

/-- A client's event is taken, and its first read brings `bs`, up to the log. -/
def upToLog (bs : List Byte) : List Label :=
  [.deliver { epollin := true } .success, .dispatch, .handler .quiet,
    .handler (.read (.data bs)), .handler .quiet]

theorem nulInBuffer_hi :
    ∃ s : Connection, s.phase = .handling .logReceived ∧ NulInBuffer s.data := by
  have hval : ((machine 7).run (accepted 7) (upToLog [104, 105])).map (fun s => s.phase)
      = some (.handling .logReceived) := by decide +kernel
  obtain ⟨s, hrun, hp⟩ := Option.map_eq_some_iff.mp hval
  refine ⟨s, hp, (nulInBuffer_iff hrun).mpr ⟨2, by decide, ?_⟩⟩
  have hnone : topmost (byteStrings (arrived 7 (upToLog [104, 105]))) 2 = none := by
    decide +kernel
  intro b hb
  rw [hnone] at hb
  cases hb

/-- After `1024` bytes without a NUL the log reads on behind the buffer. -/
theorem no_nulInBuffer :
    ¬ ∀ (fd : Fd) (s : Connection), (machine fd).Reachable s →
        s.phase = .handling .logReceived → NulInBuffer s.data := by
  intro hall
  have hval : ((machine 7).run (accepted 7) (upToLog (List.replicate 1024 104))).map
      (fun s => s.phase) = some (.handling .logReceived) := by decide +kernel
  obtain ⟨s, hrun, hp⟩ := Option.map_eq_some_iff.mp hval
  have hr : (machine 7).Reachable s := .of_run (.init rfl) Machine.along_true hrun
  obtain ⟨k, hk, hnul⟩ := hall 7 s hr hp
  have harrived : arrived 7 (upToLog (List.replicate 1024 104))
      = [.bytes (List.replicate 1024 104)] := by decide +kernel
  have hlt : k < 1024 := by
    unfold ConnectionData.bufferSize at hk
    omega
  have hcell := (stringsInv_run hrun).shows k
  rw [hnul, harrived] at hcell
  have htop : topmost (byteStrings [.bytes (List.replicate 1024 104)]) k = some (104 : Byte) := by
    show topmost [List.replicate 1024 104] k = _
    rw [topmost_cons, List.getElem?_replicate, if_pos hlt]
    rfl
  rw [htop] at hcell
  exact absurd hcell (by decide)

end TcpServers.Connection
