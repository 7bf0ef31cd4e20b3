import TcpServers.Model.Peer
import TcpServers.Proof.EchoSound

/-!
# When the whole stream is echoed

The handler gives a connection up, without a re-arm, in two ways: `read()` returns
`0`, which sends it past the write loop with `ready_for_write_` still false, or the
dispatcher sees `EPOLLERR`, `EPOLLRDHUP` or `EPOLLHUP`. Neither looks at
`write_index_`. So a connection that is left to itself has echoed its client's
whole stream exactly when, at the step that gave it up, nothing was left to echo.

A full buffer is no exception: the read that follows has count `0`, its answer is
taken for the end of the stream, and there is always something pending then.
-/

namespace TcpServers

open Lib

namespace Connection

/-- No worker is at the connection and no event can come any more. -/
def Quiescent (c : Connection) : Prop :=
  (c.phase = .idle ∧ c.armed = none) ∨ c.phase = .closed

/-- Quiescent, or a return without re-arm away from it. -/
def GivenUp (c : Connection) : Prop :=
  c.armed = none ∧ (c.phase = .idle ∨ c.phase = .closed
    ∨ (c.phase = .handling .testWrite ∧ c.data.readyForWrite = false))

/-- While a worker is at a connection its one-shot registration is spent. -/
def SpentInv (c : Connection) : Prop := c.phase ≠ .idle → c.armed = none

/-- Every re-arm but the one before a reset is the handler's last step. -/
theorem spentInv_step {s s' : Connection} {l : Label} (he : EchoInv s) (h : SpentInv s)
    (hs : next s l = some s') : SpentInv s' := by
  rcases next_cases hs with ⟨_, _, _, rfl, _, _, rfl⟩ | ⟨flags, rfl, hp, hd⟩ |
    ⟨a, pc, out, rfl, hp, hstep, rfl⟩
  · exact fun _ => rfl
  · have ha : s.armed = none := h (by simp [hp])
    rcases hd with ⟨_, rfl⟩ | ⟨_, rfl⟩ | ⟨_, rfl⟩
    · exact fun _ => ha
    · exact fun _ => ha
    · exact fun _ => ha
  · have ha : s.armed = none := h (by simp [hp])
    cases hstep with
    | readFailRearm => exact absurd (he.noReset _ hp) (by simp [resetting])
    | nothingToWrite | echoedRearm | blockedRearm | writeFailRearm | resetReady =>
        intro hne
        exact absurd rfl hne
    | _ => exact fun _ => ha

theorem GivenUp.of_quiescent {c : Connection} (hsp : SpentInv c) (h : Quiescent c) :
    GivenUp c := by
  rcases h with ⟨hp, ha⟩ | hp
  · exact ⟨ha, Or.inl hp⟩
  · exact ⟨hsp (by simp [hp]), Or.inr (Or.inl hp)⟩

end Connection

namespace Served

open Connection (IndexInv EchoInv SpentInv GivenUp Quiescent)

/-- No system call fails, except for the would-block answers. -/
def Untroubled (_ : Served) : Label → Prop
  | .server (.handler (.read (.fail e))) => e.wouldBlock = true
  | .server (.handler (.write (.fail e))) => e.wouldBlock = true
  | .server (.handler (.epollCtl (some _))) => False
  | _ => True

instance (s : Served) (l : Label) : Decidable (Untroubled s l) := by
  unfold Untroubled
  split <;> infer_instance

/--
The connection is given up only once nothing is left to echo: a `read()` that
returns `0` finds the indices equal, and an event with one of the three flags that
are not handled finds nothing on its way, queued or pending.
-/
def NothingLost (s : Served) : Label → Prop
  | .server (.handler (.read (.data []))) => s.conn.data.writeIndex = s.conn.data.readIndex
  | .server .dispatch =>
      match s.conn.phase with
      | .fetched flags => dispatch flags = .handle
          ∨ (s.peer.Exhausted ∧ s.conn.data.writeIndex = s.conn.data.readIndex)
      | _ => True
  | _ => True

instance (s : Served) (l : Label) : Decidable (NothingLost s l) := by
  unfold NothingLost
  split
  · infer_instance
  · split <;> infer_instance
  · infer_instance

/-- What the runs without failures keep. -/
structure ServedInv (bytes : List Byte) (s : Served) : Prop where
  index : IndexInv s.conn
  echo : EchoInv s.conn
  spent : SpentInv s.conn
  /-- The client's stream is what was read, what is queued and what is on its way. -/
  stream : s.conn.received ++ (s.peer.queue ++ s.peer.toArrive) = bytes
  fin : s.peer.fin = true → s.peer.toArrive = []
  /-- A chunk that was read is not empty. -/
  chunk : ∀ n, s.conn.phase = .handling (.addReadIndex n) → 0 < n
  /-- A full buffer is on its way to being given up, with bytes pending. -/
  full : ConnectionData.bufferSize < s.conn.data.readIndex →
    s.conn.data.writeIndex < s.conn.data.readIndex
      ∧ (s.conn.phase = .handling .read ∨ s.conn.phase = .handling .logReceived ∨ GivenUp s.conn)

theorem servedInv_start (fd : Fd) (bytes : List Byte) : ServedInv bytes (start fd bytes) where
  index := Connection.indexInv_init fd
  echo := Connection.echoInv_init fd
  spent := by intro h; exact absurd rfl h
  stream := rfl
  fin := by intro h; exact absurd h (by simp [start, Peer.sending])
  chunk := by intro n h; exact absurd h (by simp [start, Connection.accepted])
  full := by intro h; exact absurd h (by simp [start, Connection.accepted, ConnectionData.new,
    ConnectionData.bufferSize])

/-- The stream invariant only depends on what the step stores. -/
theorem stream_step {bytes : List Byte} {s s' : Served} {l : Label} (h : ServedInv bytes s)
    (hl : Untroubled s l) (hs : s.next l = some s') :
    s'.conn.received ++ (s'.peer.queue ++ s'.peer.toArrive) = bytes
      ∧ (s'.peer.fin = true → s'.peer.toArrive = []) := by
  rcases next_cases hs with ⟨c, c', p', rfl, hc, rfl, hread⟩ | ⟨n, rfl, rfl⟩ | ⟨rfl, ha, rfl⟩
  · rcases hread with ⟨r, rfl, hr⟩ | ⟨hne, rfl⟩
    · rcases Peer.read_cases hr with ⟨rfl, rfl, _⟩ | ⟨bs, rfl, _, _, hq, ht, hf⟩ | ⟨e, rfl, rfl, _⟩
      · dsimp only
        rw [Connection.next_received_read hc, List.append_nil]
        exact ⟨h.stream, h.fin⟩
      · dsimp only
        have hst := h.stream
        rw [hq, List.append_assoc] at hst
        rw [Connection.next_received_read hc, hf, ht, List.append_assoc]
        exact ⟨hst, h.fin⟩
      · dsimp only
        rw [Connection.next_received hc (by simp)]
        exact ⟨h.stream, h.fin⟩
    · dsimp only
      rw [Connection.next_received hc (by rintro bs rfl; exact hne _ rfl)]
      exact ⟨h.stream, h.fin⟩
  · refine ⟨?_, fun hf => ?_⟩
    · dsimp only
      rw [List.append_assoc, List.take_append_drop]
      exact h.stream
    · dsimp only
      rw [h.fin hf, List.drop_nil]
  · exact ⟨h.stream, fun _ => ha⟩

/-- The length of a chunk that is about to be added to `read_index_`. -/
theorem chunk_step {bytes : List Byte} {s s' : Served} {l : Label} (h : ServedInv bytes s)
    (hs : s.next l = some s') (n : Nat) (hp' : s'.conn.phase = .handling (.addReadIndex n)) :
    0 < n := by
  rcases next_cases hs with ⟨c, c', p', rfl, hc, rfl, _⟩ | ⟨_, rfl, rfl⟩ | ⟨rfl, _, rfl⟩
  · rcases Connection.next_cases hc with ⟨_, _, _, rfl, _, _, rfl⟩ | ⟨_, rfl, _, hd⟩ |
      ⟨a, pc, out, rfl, hp, hstep, rfl⟩
    · exact absurd hp' (by simp)
    · rcases hd with ⟨_, rfl⟩ | ⟨_, rfl⟩ | ⟨_, rfl⟩ <;> exact absurd hp' (by simp)
    · cases hstep with
      | chunk hpos =>
          cases hp'
          exact hpos
      | _ => exact absurd hp' (by simp [Connection.afterStep])
  · exact h.chunk n hp'
  · exact h.chunk n hp'

/-- Nothing more can be read once the buffer is full. -/
theorem readCount_full {cd : ConnectionData} (h0 : 0 ≤ cd.readIndex)
    (hroom : cd.readIndex ≤ ConnectionData.bufferSize + 1)
    (hfull : ConnectionData.bufferSize < cd.readIndex) : cd.readCount = 0 := by
  have := Connection.readCount_eq h0 hroom
  omega

/-- The read from a full buffer, with count `0`, looks like the end of the stream. -/
theorem full_read {bytes : List Byte} {s : Served} {a : Answer} {out : HandlerOut} {p' : Peer}
    (h : ServedInv bytes s) (hl : Untroubled s (.server (.handler a)))
    (hp : s.conn.phase = .handling .read)
    (hfull : ConnectionData.bufferSize < s.conn.data.readIndex)
    (hstep : HandlerStep s.conn.data s.conn.errno .read a out)
    (hread : (∃ r, Connection.Label.handler a = .handler (.read r)
        ∧ s.peer.read s.conn.data.readCount r = some p')
      ∨ ((∀ r, Connection.Label.handler a ≠ .handler (.read r)) ∧ p' = s.peer)) :
    GivenUp (s.conn.stepped .read a out) := by
  have hsp : s.conn.armed = none := h.spent (by simp [hp])
  have hready : s.conn.data.readyForWrite = false := h.index.flag false (by rw [hp]; rfl)
  have hcount : s.conn.data.readCount = 0 := by
    refine readCount_full h.index.read_nonneg ?_ hfull
    have hroom := h.index.room
    omega
  cases hstep with
  | endOfStream => exact ⟨hsp, Or.inr (Or.inr ⟨rfl, hready⟩)⟩
  | chunk hpos hbs => omega
  | drained he =>
      rcases hread with ⟨r, hr, hread⟩ | ⟨hne, _⟩
      · cases hr
        rcases Peer.read_cases hread with ⟨hr, _⟩ | ⟨_, hr, _⟩ | ⟨_, hr, _, hkernel⟩
        · cases hr
        · cases hr
        · cases hr
          have hpos := (hkernel he).1
          omega
      · exact absurd rfl (hne _)
  | readFailed he => exact absurd hl (by simp [Untroubled, he])

/-- A full buffer is read from once more, with count `0`, and then given up. -/
theorem full_step {bytes : List Byte} {s s' : Served} {l : Label} (h : ServedInv bytes s)
    (hl : Untroubled s l) (hs : s.next l = some s')
    (hfull : ConnectionData.bufferSize < s'.conn.data.readIndex) :
    s'.conn.data.writeIndex < s'.conn.data.readIndex
      ∧ (s'.conn.phase = .handling .read ∨ s'.conn.phase = .handling .logReceived
        ∨ GivenUp s'.conn) := by
  rcases next_cases hs with ⟨c, c', p', rfl, hc, rfl, hread⟩ | ⟨_, rfl, rfl⟩ | ⟨rfl, _, rfl⟩
  · rcases Connection.next_cases hc with ⟨_, _, mask, rfl, hp, ha, rfl⟩ | ⟨_, rfl, hp, hd⟩ |
      ⟨a, pc, out, rfl, hp, hstep, rfl⟩
    · -- a full connection is not armed, so no event comes
      obtain ⟨_, hr | hr | hg⟩ := h.full hfull
      · rw [hp] at hr; cases hr
      · rw [hp] at hr; cases hr
      · rw [hg.1] at ha; cases ha
    · have hfull' : ConnectionData.bufferSize < s.conn.data.readIndex := by
        rcases hd with ⟨_, rfl⟩ | ⟨_, rfl⟩ | ⟨_, rfl⟩ <;> exact hfull
      obtain ⟨_, hr | hr | ⟨_, hg⟩⟩ := h.full hfull'
      · rw [hp] at hr; cases hr
      · rw [hp] at hr; cases hr
      · simp [hp] at hg
    · have hno := h.echo.noReset pc hp
      have hle := h.echo.ordered h.index
      have hsp : s.conn.armed = none := h.spent (by simp [hp])
      by_cases hadd : ∃ n, pc = .addReadIndex n
      · -- the step that fills the buffer
        obtain ⟨n, rfl⟩ := hadd
        have hn := h.chunk n hp
        cases hstep with
        | addReadIndex =>
            simp only [Connection.wlen, hp] at hle
            refine ⟨?_, Or.inr (Or.inl rfl)⟩
            simp only [Connection.stepped_data]
            omega
      · -- every other step finds the buffer as full as it leaves it
        have hfull' : ConnectionData.bufferSize < s.conn.data.readIndex := by
          cases hstep with
          | addReadIndex => exact absurd ⟨_, rfl⟩ hadd
          | resetReadIndex => exact absurd hno (by simp [Connection.resetting])
          | _ => exact hfull
        obtain ⟨hlt, hr | hr | ⟨_, hg⟩⟩ := h.full hfull'
        · rw [hp] at hr
          cases hr
          have hgiven := full_read h hl hp hfull' hstep hread
          refine ⟨?_, Or.inr (Or.inr hgiven)⟩
          cases hstep <;> exact hlt
        · rw [hp] at hr
          cases hr
          cases hstep with
          | logReceived => exact ⟨hlt, Or.inl rfl⟩
        · simp only [hp, reduceCtorEq, false_or, Phase.handling.injEq] at hg
          obtain ⟨rfl, hready⟩ := hg
          cases hstep with
          | startWrite ht => rw [hready] at ht; cases ht
          | nothingToWrite => exact ⟨hlt, Or.inr (Or.inr ⟨hsp, Or.inl rfl⟩)⟩
  · exact h.full hfull
  · exact h.full hfull

/-- A served connection steps only where its connection does. -/
theorem conn_step {s s' : Served} {l : Label} (hl : Untroubled s l) (hs : s.next l = some s') :
    s'.conn = s.conn ∨ ∃ c, Connection.NoReadFailure s.conn c ∧ s.conn.next c = some s'.conn := by
  rcases next_cases hs with ⟨c, c', p', rfl, hc, rfl, _⟩ | ⟨_, rfl, rfl⟩ | ⟨rfl, _, rfl⟩
  · refine Or.inr ⟨c, ?_, hc⟩
    unfold Connection.NoReadFailure
    split
    · exact hl
    · trivial
  · exact Or.inl rfl
  · exact Or.inl rfl

/-- **Preserved by every step that does not fail.** -/
theorem servedInv_step {bytes : List Byte} {s s' : Served} {l : Label} (h : ServedInv bytes s)
    (hl : Untroubled s l) (hs : s.next l = some s') : ServedInv bytes s' := by
  obtain ⟨hstream, hfin⟩ := stream_step h hl hs
  have hconn : IndexInv s'.conn ∧ EchoInv s'.conn ∧ SpentInv s'.conn := by
    rcases conn_step hl hs with heq | ⟨c, hc, hstep⟩
    · rw [heq]; exact ⟨h.index, h.echo, h.spent⟩
    · exact ⟨Connection.indexInv_step h.index hstep,
        Connection.echoInv_step h.index h.echo hc hstep,
        Connection.spentInv_step h.echo h.spent hstep⟩
  exact ⟨hconn.1, hconn.2.1, hconn.2.2, hstream, hfin, chunk_step h hs, full_step h hl hs⟩

/-! ## Giving up -/

/-- Once given up nothing more is sent. -/
theorem givenUp_step {s s' : Served} {l : Label} (h : GivenUp s.conn) (hs : s.next l = some s') :
    GivenUp s'.conn ∧ s'.conn.sent = s.conn.sent := by
  obtain ⟨ha, hph⟩ := h
  rcases next_cases hs with ⟨c, c', p', rfl, hc, rfl, _⟩ | ⟨_, rfl, rfl⟩ | ⟨rfl, _, rfl⟩
  · rcases Connection.next_cases hc with ⟨_, _, mask, rfl, hp, harm, rfl⟩ | ⟨_, rfl, hp, hd⟩ |
      ⟨a, pc, out, rfl, hp, hstep, rfl⟩
    · rw [ha] at harm; cases harm
    · simp [hp] at hph
    · simp only [hp, reduceCtorEq, false_or, Phase.handling.injEq] at hph
      obtain ⟨rfl, hready⟩ := hph
      cases hstep with
      | startWrite ht => rw [hready] at ht; cases ht
      | nothingToWrite => exact ⟨⟨ha, Or.inl rfl⟩, List.append_nil _⟩
  · exact ⟨⟨ha, hph⟩, rfl⟩
  · exact ⟨⟨ha, hph⟩, rfl⟩

/-- A connection with pending bytes has not sent everything it received. -/
theorem sent_ne_of_pending {bytes : List Byte} {s : Served} (h : ServedInv bytes s)
    (hr : s.conn.rlen = 0) (hw : s.conn.wlen = 0)
    (hne : s.conn.data.writeIndex ≠ s.conn.data.readIndex) : s.conn.sent ≠ bytes := by
  obtain ⟨hrec, hsent⟩ := h.echo.settled hr hw
  have hle := h.echo.ordered h.index
  have hw0 := h.index.write_nonneg
  intro heq
  have hlen : s.conn.sent.length < s.conn.received.length := by
    rw [← hrec, ← hsent]
    simp only [ConnectionData.bytes, Store.length_load]
    omega
  have htotal := congrArg List.length h.stream
  rw [List.length_append, ← heq] at htotal
  omega

/-- With nothing on its way, queued or pending, everything has been sent. -/
theorem sent_eq_of_exhausted {bytes : List Byte} {s : Served} (h : ServedInv bytes s)
    (hr : s.conn.rlen = 0) (hw : s.conn.wlen = 0) (hex : s.peer.Exhausted)
    (heq : s.conn.data.writeIndex = s.conn.data.readIndex) : s.conn.sent = bytes := by
  obtain ⟨hrec, hsent⟩ := h.echo.settled hr hw
  have hst := h.stream
  rw [hex.1, hex.2, List.append_nil, List.append_nil] at hst
  rw [← hsent, heq, hrec, hst]

/-- Sending everything takes everything having been received. -/
theorem exhausted_of_sent {bytes : List Byte} {s : Served} (h : ServedInv bytes s)
    (heq : s.conn.sent = bytes) : s.peer.Exhausted := by
  have hlen := (h.echo.sent_isPrefix h.index).length_le
  have htotal := congrArg List.length h.stream
  rw [List.length_append, List.length_append, ← heq] at htotal
  exact ⟨List.length_eq_zero_iff.mp (by omega), List.length_eq_zero_iff.mp (by omega)⟩

/-- Where no result is waiting to be added, the stream is echoed if nothing is left of it. -/
theorem sent_iff {bytes : List Byte} {s : Served} (h : ServedInv bytes s)
    (hr : s.conn.rlen = 0) (hw : s.conn.wlen = 0) :
    s.conn.sent = bytes
      ↔ s.peer.Exhausted ∧ s.conn.data.writeIndex = s.conn.data.readIndex := by
  constructor
  · intro heq
    refine ⟨exhausted_of_sent h heq, ?_⟩
    by_contra hne
    exact sent_ne_of_pending h hr hw hne heq
  · intro hex
    exact sent_eq_of_exhausted h hr hw hex.1 hex.2

/-- At a `read()` that returns `0`, nothing is on its way or queued. -/
theorem exhausted_at_end {bytes : List Byte} {s : Served} {p' : Peer} (h : ServedInv bytes s)
    (hread : s.peer.read s.conn.data.readCount (.data []) = some p')
    (heq : s.conn.data.writeIndex = s.conn.data.readIndex) : s.peer.Exhausted := by
  rcases Peer.read_cases hread with ⟨_, _, h0 | ⟨hq, hf⟩⟩ | ⟨bs, hb, hpos, _⟩ | ⟨e, he, _⟩
  · -- a count of `0` means a full buffer, and that has bytes pending
    exfalso
    have hroom := h.index.room
    have hcount := Connection.readCount_eq h.index.read_nonneg (by omega)
    have hlt := (h.full (by omega)).1
    omega
  · exact ⟨h.fin hf, hq⟩
  · cases hb
    exact absurd hpos (by simp)
  · cases he

/--
The step that gives a connection up decides: it was `NothingLost` exactly when
the whole stream has been sent.
-/
theorem gives_up {bytes : List Byte} {s s' : Served} {l : Label} (h : ServedInv bytes s)
    (hl : Untroubled s l) (hs : s.next l = some s') (hng : ¬ GivenUp s.conn)
    (hg : GivenUp s'.conn) : s'.conn.sent = bytes ↔ NothingLost s l := by
  rcases next_cases hs with ⟨c, c', p', rfl, hc, rfl, hread⟩ | ⟨_, rfl, rfl⟩ | ⟨rfl, _, rfl⟩
  · rcases Connection.next_cases hc with ⟨_, _, mask, rfl, hp, harm, rfl⟩ | ⟨flags, rfl, hp, hd⟩ |
      ⟨a, pc, out, rfl, hp, hstep, rfl⟩
    · exact absurd hg.2 (by simp)
    · -- an event with flags that are not handled
      have hr : s.conn.rlen = 0 := by simp [Connection.rlen, hp]
      have hw : s.conn.wlen = 0 := by simp [Connection.wlen, hp]
      have hsent : c'.sent = s.conn.sent := by
        rcases hd with ⟨_, rfl⟩ | ⟨_, rfl⟩ | ⟨_, rfl⟩ <;> rfl
      have hnh : dispatch flags ≠ .handle := by
        rcases hd with ⟨hf, _⟩ | ⟨hf, _⟩ | ⟨_, rfl⟩
        · rw [hf]; decide
        · rw [hf]; decide
        · exact absurd hg.2 (by simp)
      simp only [NothingLost, hp, hnh, false_or, hsent]
      exact sent_iff h hr hw
    · have hspent : s.conn.armed = none := h.spent (by simp [hp])
      have hno := h.echo.noReset pc hp
      cases hstep with
      | endOfStream =>
          have hr : s.conn.rlen = 0 := by simp [Connection.rlen, hp]
          have hw : s.conn.wlen = 0 := by simp [Connection.wlen, hp]
          simp only [NothingLost, Connection.stepped_sent, Connection.accepts, List.append_nil]
          rw [sent_iff h hr hw]
          refine ⟨fun hex => hex.2, fun heq => ⟨?_, heq⟩⟩
          rcases hread with ⟨r, hr, hk⟩ | ⟨hne, _⟩
          · cases hr
            exact exhausted_at_end h hk heq
          · exact absurd rfl (hne _)
      | nothingToWrite hready =>
          exact absurd ⟨hspent, Or.inr (Or.inr ⟨hp, hready⟩)⟩ hng
      | echoedRearm | blockedRearm | writeFailRearm =>
          rename_i r
          cases r with
          | none => exact absurd hg.1 (by simp [Connection.rearmed, HandlerPc.rearm?])
          | some e => exact absurd hl (by simp [Untroubled])
      | setReady => exact absurd hg.2 (by simp [Connection.afterStep])
      | resume hready => exact absurd (h.index.flag false (by rw [hp]; rfl)) (by simp [hready])
      | resetReady => exact absurd hno (by simp [Connection.resetting])
      | _ => exact absurd hg.2 (by simp [Connection.afterStep])
  · exact absurd hg hng
  · exact absurd hg hng

/-- A step that loses something gives the connection up. -/
theorem givenUp_of_lost {bytes : List Byte} {s s' : Served} {l : Label} (h : ServedInv bytes s)
    (hs : s.next l = some s') (hlost : ¬ NothingLost s l) : GivenUp s'.conn := by
  rcases next_cases hs with ⟨c, c', p', rfl, hc, rfl, _⟩ | ⟨_, rfl, rfl⟩ | ⟨rfl, _, rfl⟩
  · rcases Connection.next_cases hc with ⟨_, _, _, rfl, _, _, rfl⟩ | ⟨flags, rfl, hp, hd⟩ |
      ⟨a, pc, out, rfl, hp, hstep, rfl⟩
    · exact absurd trivial hlost
    · have hspent : s.conn.armed = none := h.spent (by simp [hp])
      rcases hd with ⟨_, rfl⟩ | ⟨_, rfl⟩ | ⟨hf, rfl⟩
      · exact ⟨hspent, Or.inr (Or.inl rfl)⟩
      · exact ⟨hspent, Or.inl rfl⟩
      · exact absurd (by simp [NothingLost, hp, hf]) hlost
    · cases hstep with
      | endOfStream =>
          have hspent : s.conn.armed = none := h.spent (by simp [hp])
          have hready : s.conn.data.readyForWrite = false := h.index.flag false (by rw [hp]; rfl)
          exact ⟨hspent, Or.inr (Or.inr ⟨rfl, hready⟩)⟩
      | @chunk bs hpos _ =>
          cases bs with
          | nil => exact absurd hpos (by simp)
          | cons b bs => exact absurd trivial hlost
      | _ => exact absurd trivial hlost
  · exact absurd trivial hlost
  · exact absurd trivial hlost

/-- Once given up there is nothing left to lose. -/
theorem nothingLost_of_givenUp {s s' : Served} {l : Label} (h : GivenUp s.conn)
    (hs : s.next l = some s') : NothingLost s l := by
  obtain ⟨_, hph⟩ := h
  rcases next_cases hs with ⟨c, c', p', rfl, hc, rfl, _⟩ | ⟨_, rfl, rfl⟩ | ⟨rfl, _, rfl⟩
  · rcases Connection.next_cases hc with ⟨_, _, _, rfl, _, _, rfl⟩ | ⟨_, rfl, hp, _⟩ |
      ⟨a, pc, out, rfl, hp, hstep, rfl⟩
    · trivial
    · simp [hp] at hph
    · simp only [hp, reduceCtorEq, false_or, Phase.handling.injEq] at hph
      obtain ⟨rfl, _⟩ := hph
      cases hstep with
      | startWrite => trivial
      | nothingToWrite => trivial
  · trivial
  · trivial

/-! ## Whole runs -/

/-- How a run without failures stands to the stream. -/
structure RunInv (fd : Fd) (bytes : List Byte) (ls : List Label) (s : Served) : Prop where
  inv : ServedInv bytes s
  kept : (machine fd bytes).Along NothingLost (start fd bytes) ls →
    GivenUp s.conn → s.conn.sent = bytes
  lost : ¬ (machine fd bytes).Along NothingLost (start fd bytes) ls →
    GivenUp s.conn ∧ s.conn.sent ≠ bytes

theorem runInv_start (fd : Fd) (bytes : List Byte) : RunInv fd bytes [] (start fd bytes) where
  inv := servedInv_start fd bytes
  kept := fun _ hg => absurd hg.1 (by simp [start, Connection.accepted])
  lost := fun hn => absurd trivial hn

/-- **One more step.** The step that gives up decides, and what follows changes nothing. -/
theorem runInv_step {fd : Fd} {bytes : List Byte} {ls : List Label} {t t' : Served} {l : Label}
    (hrun : (machine fd bytes).run (start fd bytes) ls = some t) (h : RunInv fd bytes ls t)
    (hl : Untroubled t l) (hs : t.next l = some t') : RunInv fd bytes (ls ++ [l]) t' := by
  refine ⟨servedInv_step h.inv hl hs, ?_, ?_⟩
  · intro hall hg
    obtain ⟨hall', hn⟩ := (Machine.along_snoc hrun).mp hall
    by_cases hgt : GivenUp t.conn
    · rw [(givenUp_step hgt hs).2]
      exact h.kept hall' hgt
    · exact (gives_up h.inv hl hs hgt hg).mpr hn
  · intro hnot
    rw [Machine.along_snoc hrun] at hnot
    by_cases hall : (machine fd bytes).Along NothingLost (start fd bytes) ls
    · have hn : ¬ NothingLost t l := fun hn => hnot ⟨hall, hn⟩
      have hg := givenUp_of_lost h.inv hs hn
      have hgt : ¬ GivenUp t.conn := fun hgt => hn (nothingLost_of_givenUp hgt hs)
      exact ⟨hg, fun heq => hn ((gives_up h.inv hl hs hgt hg).mp heq)⟩
    · obtain ⟨hgt, hne⟩ := h.lost hall
      obtain ⟨hg, hsent⟩ := givenUp_step hgt hs
      exact ⟨hg, by rw [hsent]; exact hne⟩

theorem runInv_run {fd : Fd} {bytes : List Byte} {ls : List Label} {s : Served}
    (hrun : (machine fd bytes).run (start fd bytes) ls = some s)
    (hu : (machine fd bytes).Along Untroubled (start fd bytes) ls) : RunInv fd bytes ls s := by
  refine Machine.run_induction (fun ls s =>
    (machine fd bytes).Along Untroubled (start fd bytes) ls → RunInv fd bytes ls s) ?_ ?_ hrun hu
  · intro _
    exact runInv_start fd bytes
  · intro ls t l t' hrun ih hs hu
    obtain ⟨hu', hl⟩ := (Machine.along_snoc hrun).mp hu
    exact runInv_step hrun (ih hu') hl hs

/--
**Echo completeness, exactly.** In a run without failures that has come to rest,
the whole stream has been echoed if and only if no step gave the connection up
with something left to echo.
-/
theorem echo_complete_iff {fd : Fd} {bytes : List Byte} {ls : List Label} {s : Served}
    (hrun : (machine fd bytes).run (start fd bytes) ls = some s)
    (hu : (machine fd bytes).Along Untroubled (start fd bytes) ls) (hq : Quiescent s.conn) :
    s.conn.sent = bytes ↔ (machine fd bytes).Along NothingLost (start fd bytes) ls := by
  have h := runInv_run hrun hu
  have hg := GivenUp.of_quiescent h.inv.spent hq
  constructor
  · intro heq
    by_contra hnot
    exact (h.lost hnot).2 heq
  · intro hall
    exact h.kept hall hg

/-- One byte, read and echoed, and only then the half-close. -/
def echoedThenClosed : List Label :=
  [.arrive 1, .server (.deliver { epollin := true } .success), .server .dispatch,
    .server (.handler .quiet), .server (.handler (.read (.data [104]))),
    .server (.handler .quiet), .server (.handler .quiet),
    .server (.handler (.read (.fail .eagain))), .server (.handler .quiet),
    .server (.handler .quiet), .server (.handler (.write (.wrote 1))),
    .server (.handler .quiet), .server (.handler .quiet), .server (.handler .quiet),
    .server (.handler (.epollCtl none)), .finish,
    .server (.deliver { epollin := true } .eagain), .server .dispatch,
    .server (.handler .quiet), .server (.handler (.read (.data []))), .server (.handler .quiet)]

theorem echo_complete_echoedThenClosed :
    ∃ s : Served, Quiescent s.conn ∧ s.conn.sent = [104] := by
  have hval : ((machine 7 [104]).run (start 7 [104]) echoedThenClosed).map
      (fun s => (s.conn.phase, s.conn.armed)) = some (.idle, none) := by decide +kernel
  obtain ⟨s, hrun, heq⟩ := Option.map_eq_some_iff.mp hval
  have hq : Quiescent s.conn := Or.inl ⟨congrArg Prod.fst heq, congrArg Prod.snd heq⟩
  exact ⟨s, hq, (echo_complete_iff hrun (by decide +kernel) hq).mpr (by decide +kernel)⟩

/-- One byte and the half-close arrive together: the byte is read and never echoed. -/
def closedWithPending : List Label :=
  [.arrive 1, .finish, .server (.deliver { epollin := true } .success), .server .dispatch,
    .server (.handler .quiet), .server (.handler (.read (.data [104]))),
    .server (.handler .quiet), .server (.handler .quiet),
    .server (.handler (.read (.data []))), .server (.handler .quiet)]

/-- The whole stream is not always echoed. -/
theorem echo_incomplete :
    ¬ ∀ (fd : Fd) (bytes : List Byte) (s : Served),
        (machine fd bytes).ReachableVia Untroubled s → Quiescent s.conn →
          s.conn.sent = bytes := by
  intro hall
  have hval : ((machine 7 [104]).run (start 7 [104]) closedWithPending).map
      (fun s => (s.conn.phase, s.conn.armed, s.conn.sent)) = some (.idle, none, []) := by
    decide +kernel
  obtain ⟨s, hrun, heq⟩ := Option.map_eq_some_iff.mp hval
  have hr : (machine 7 [104]).ReachableVia Untroubled s :=
    .of_run (.init rfl) (by decide +kernel) hrun
  have hq : Quiescent s.conn :=
    Or.inl ⟨congrArg Prod.fst heq, congrArg (fun p => p.2.1) heq⟩
  have hsent : s.conn.sent = [] := congrArg (fun p => p.2.2) heq
  rw [hall 7 [104] s hr hq] at hsent
  cases hsent

end Served

end TcpServers
