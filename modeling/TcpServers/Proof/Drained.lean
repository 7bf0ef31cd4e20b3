import TcpServers.Model.Continuation
import TcpServers.Proof.Indices

/-!
# A drained connection and a new one

After a complete echo both indices stand where the last byte was, and nothing
takes them back: `reset()` runs only after a failed read. So a connection that
has echoed `k` bytes has room for `1025 - k` more, where a new one has room for
`1025`. The two behave alike exactly when `k` is zero.

With equal indices the two sides run in lockstep, whatever the buffer holds
beyond them. With `k > 0` a continuation that just fills the drained buffer tells
them apart: the read that follows has count `0`, and the handler returns without
writing or re-arming.
-/

namespace TcpServers.Session

open Lib Connection

/-! ## Equal indices run in lockstep -/

/-- The handler looks at neither the descriptor nor the bytes of the buffer. -/
theorem handlerStep_with (pc : HandlerPc) (cd : ConnectionData) (errno : Errno) (a : Answer)
    (fd : Fd) (m : Store Byte) :
    handlerStep pc { cd with connFd := fd, buffer := m } errno a
      = (handlerStep pc cd errno a).map (fun out => { out with
          data := { out.data with connFd := fd, buffer := m.save cd.readIndex (stored a) } }) := by
  cases pc with
  | read =>
      cases a with
      | read r =>
          cases r with
          | data bs =>
              have hcount : ({ cd with connFd := fd, buffer := m } : ConnectionData).readCount
                  = cd.readCount := rfl
              by_cases hle : bs.length ≤ cd.readCount
              · simp [handlerStep, stored, hcount, hle]
              · simp [handlerStep, hcount, hle]
          | fail e => rfl
      | _ => rfl
  | write =>
      cases a with
      | write r =>
          cases r with
          | wrote n =>
              have hcount : ({ cd with connFd := fd, buffer := m } : ConnectionData).writeCount
                  = cd.writeCount := rfl
              by_cases hle : n ≤ cd.writeCount
              · simp [handlerStep, stored, hcount, hle]
              · simp [handlerStep, hcount, hle]
          | fail e => rfl
      | _ => rfl
  | _ => cases a <;> rfl

/-- Two connections alike in everything a worker can come to see. -/
structure Alike (c₁ c₂ : Connection) : Prop where
  phase : c₁.phase = c₂.phase
  errno : c₁.errno = c₂.errno
  armed : c₁.armed = c₂.armed
  readIndex : c₁.data.readIndex = c₂.data.readIndex
  writeIndex : c₁.data.writeIndex = c₂.data.writeIndex
  ready : c₁.data.readyForWrite = c₂.data.readyForWrite
  /-- Beyond what has been read the buffers may differ. -/
  buffer : ∀ i, 0 ≤ i → i < c₁.data.readIndex + c₁.rlen → c₁.data.buffer i = c₂.data.buffer i

/-- What has been read grows by what a step stores. -/
theorem read_le {s : Connection} {pc : HandlerPc} {a : Answer} {out : HandlerOut}
    (h : IndexInv s) (hp : s.phase = .handling pc) (hstep : HandlerStep s.data s.errno pc a out) :
    (s.stepped pc a out).data.readIndex + (s.stepped pc a out).rlen
      ≤ s.data.readIndex + s.rlen + (stored a).length := by
  have hr := h.read_nonneg
  cases hstep <;> (simp [rlen, hp, afterStep, stored]; try omega)

/-- A step that stores something does so right behind what has been read. -/
theorem stored_eq_nil {s : Connection} {pc : HandlerPc} {a : Answer} {out : HandlerOut}
    (hp : s.phase = .handling pc) (hstep : HandlerStep s.data s.errno pc a out) :
    s.rlen = 0 ∨ stored a = [] := by
  cases hstep <;> simp [rlen, hp, stored]

/-- The data of an alike connection differs in the descriptor and the buffer only. -/
theorem Alike.data {c₁ c₂ : Connection} (h : Alike c₁ c₂) :
    c₂.data = { c₁.data with connFd := c₂.data.connFd, buffer := c₂.data.buffer } := by
  have hr := h.readIndex
  have hw := h.writeIndex
  have hf := h.ready
  cases c₂ with
  | mk d₂ e₂ a₂ p₂ r₂ s₂ =>
      cases d₂
      simp_all

/-- Where the phases say no chunk is under way, agreement up to `read_index_` is enough. -/
theorem Alike.of_data {c₁ c₂ : Connection} (hphase : c₁.phase = c₂.phase)
    (herrno : c₁.errno = c₂.errno) (harmed : c₁.armed = c₂.armed)
    {d₁ d₂ : Connection} (h : Alike d₁ d₂) (h₁ : c₁.data = d₁.data) (h₂ : c₂.data = d₂.data)
    (hr : c₁.rlen = 0) : Alike c₁ c₂ := by
  refine ⟨hphase, herrno, harmed, ?_, ?_, ?_, ?_⟩
  · rw [h₁, h₂]; exact h.readIndex
  · rw [h₁, h₂]; exact h.writeIndex
  · rw [h₁, h₂]; exact h.ready
  · intro i h0 hlt
    rw [h₁] at hlt
    rw [h₁, h₂]
    exact h.buffer i h0 (by omega)

/-- **Alike connections answered alike stay alike.** -/
theorem Alike.stepped {c₁ c₂ : Connection} {pc : HandlerPc} {a : Answer} {out : HandlerOut}
    (hi : IndexInv c₁) (h : Alike c₁ c₂) (hp : c₁.phase = .handling pc)
    (hout : handlerStep pc c₁.data c₁.errno a = some out) :
    ∃ c₂', c₂.next (.handler a) = some c₂' ∧ Alike (c₁.stepped pc a out) c₂' := by
  have hp₂ : c₂.phase = .handling pc := by rw [← h.phase, hp]
  have hstep := handlerStep_cases hout
  have hwith := handlerStep_with pc c₁.data c₁.errno a c₂.data.connFd c₂.data.buffer
  rw [← h.data, hout, h.errno] at hwith
  refine ⟨_, by simp only [Connection.next, hp₂, hwith, Option.map_some]; rfl, ?_⟩
  refine ⟨rfl, rfl, ?_, rfl, rfl, rfl, ?_⟩
  · simp [h.armed]
  · intro i h0 hlt
    have hle := read_le hi hp hstep
    have hbuf : out.data.buffer = c₁.data.buffer.save c₁.data.readIndex (stored a) := by
      have hself := handlerStep_with pc c₁.data c₁.errno a c₁.data.connFd c₁.data.buffer
      rw [hout] at hself
      exact congrArg (fun o => o.data.buffer) (Option.some.inj hself)
    have hagree : ∀ i, 0 ≤ i → i < c₁.data.readIndex → c₁.data.buffer i = c₂.data.buffer i :=
      fun i h0 hlt => h.buffer i h0 (by omega)
    simp only [stepped_data, hbuf]
    rcases stored_eq_nil hp hstep with hr | hnil
    · exact Store.save_congr hagree h0 (by omega)
    · rw [hnil, Store.save_nil, Store.save_nil]
      rw [hnil, List.length_nil] at hle
      exact h.buffer i h0 (by omega)

/-- What is passed on lies below `read_index_`, where alike buffers agree. -/
theorem Alike.accepts {c₁ c₂ : Connection} {pc : HandlerPc} {a : Answer} {out : HandlerOut}
    (hi : IndexInv c₁) (h : Alike c₁ c₂) (hp : c₁.phase = .handling pc)
    (hstep : HandlerStep c₁.data c₁.errno pc a out) :
    Connection.accepts c₂.data a = Connection.accepts c₁.data a := by
  cases hstep with
  | @wrote n hpos hn =>
      have hle : c₁.data.writeIndex ≤ c₁.data.readIndex := by
        simpa [wlen, hp] using hi.le (by simp [hp])
      have hcount := writeCount_le hle
      simp only [Connection.accepts]
      rw [← h.writeIndex]
      refine Store.load_congr (fun i hl hr => (h.buffer i ?_ ?_).symm)
      · have := hi.write_nonneg
        omega
      · omega
  | _ => rfl

/-! ## Sessions in lockstep -/

/-- Two sessions that cannot be told apart. -/
structure Lockstep (s₁ s₂ : Session) : Prop where
  index : IndexInv s₁.conn
  conn : Alike s₁.conn s₂.conn
  queue : s₁.queue = s₂.queue
  reads : s₁.reads = s₂.reads
  writes : s₁.writes = s₂.writes
  trace : s₁.trace = s₂.trace

theorem Lockstep.answer {s₁ s₂ : Session} (h : Lockstep s₁ s₂) (k : Continuation)
    (pc : HandlerPc) : s₂.answer k pc = s₁.answer k pc := by
  have hr : s₂.conn.data.readCount = s₁.conn.data.readCount := by
    simp only [ConnectionData.readCount, h.conn.readIndex]
  have hw : s₂.conn.data.writeCount = s₁.conn.data.writeCount := by
    simp only [ConnectionData.writeCount, h.conn.readIndex, h.conn.writeIndex]
  unfold Session.answer
  rw [hr, hw, h.queue, h.reads, h.writes]

/-- A continuation answers every statement. -/
theorem answer_step (k : Continuation) (s : Session) (pc : HandlerPc) :
    ∃ out, handlerStep pc s.conn.data s.conn.errno (s.answer k pc) = some out := by
  cases pc with
  | read =>
      simp only [answer, readAnswer]
      split
      · exact ⟨_, rfl⟩
      · split
        · exact ⟨_, rfl⟩
        · exact ⟨_, if_pos (List.length_take_le _ _)⟩
  | write =>
      simp only [answer, writeAnswer]
      split
      · exact ⟨_, if_pos (Nat.min_le_right _ _)⟩
      · exact ⟨_, rfl⟩
  | _ => exact ⟨_, rfl⟩

/-- **One tick keeps two sessions in lockstep.** -/
theorem Lockstep.tick {s₁ s₂ : Session} (h : Lockstep s₁ s₂) (k : Continuation) :
    Lockstep (s₁.tick k) (s₂.tick k) := by
  cases hp : s₁.conn.phase with
  | idle =>
      have hp₂ : s₂.conn.phase = .idle := by rw [← h.conn.phase, hp]
      cases ha : s₁.conn.armed with
      | none =>
          have ha₂ : s₂.conn.armed = none := by rw [← h.conn.armed, ha]
          simpa [Session.tick, hp, hp₂, Connection.next, ha, ha₂] using h
      | some mask =>
          have ha₂ : s₂.conn.armed = some mask := by rw [← h.conn.armed, ha]
          have hidx : ∀ c, s₁.conn.next (.deliver { epollin := true } .success) = some c →
              IndexInv c := fun c hc => indexInv_step h.index hc
          simp only [Connection.next, hp, ha] at hidx
          simp only [Session.tick, hp, hp₂, Connection.next, ha, ha₂, Option.getD_some]
          exact ⟨hidx _ rfl, .of_data rfl rfl rfl h.conn rfl rfl rfl, h.queue, h.reads, h.writes,
            h.trace⟩
  | fetched flags =>
      have hp₂ : s₂.conn.phase = .fetched flags := by rw [← h.conn.phase, hp]
      simp only [Session.tick, hp, hp₂, Connection.next]
      have hidx : ∀ c, Connection.next s₁.conn .dispatch = some c → IndexInv c :=
        fun c hc => indexInv_step h.index hc
      simp only [Connection.next, hp] at hidx
      cases hd : TcpServers.dispatch flags with
      | close | skip | handle =>
          rw [hd] at hidx
          exact ⟨hidx _ rfl, .of_data rfl h.conn.errno h.conn.armed h.conn rfl rfl rfl, h.queue,
            h.reads, h.writes, h.trace⟩
  | handling pc =>
      have hp₂ : s₂.conn.phase = .handling pc := by rw [← h.conn.phase, hp]
      obtain ⟨out, hout⟩ := answer_step k s₁ pc
      obtain ⟨c₂', hc₂, halike⟩ := h.conn.stepped h.index hp hout
      have hc₁ : s₁.conn.next (.handler (s₁.answer k pc))
          = some (s₁.conn.stepped pc (s₁.answer k pc) out) := by
        simp only [Connection.next, hp, hout, Option.map_some]
      have hobs : observed s₂.conn.data pc (s₁.answer k pc)
          = observed s₁.conn.data pc (s₁.answer k pc) := by
        simp only [observed, h.conn.accepts h.index hp (handlerStep_cases hout)]
      simp only [Session.tick, hp, hp₂, h.answer k pc, hc₁, hc₂, Option.getD_some, hobs]
      exact ⟨indexInv_step h.index hc₁, halike, by rw [h.queue, h.reads], by rw [h.reads],
        by rw [h.writes], by rw [h.trace]⟩
  | closed =>
      have hp₂ : s₂.conn.phase = .closed := by rw [← h.conn.phase, hp]
      simpa [Session.tick, hp, hp₂] using h

/-- **Data with the same indices and flag emit the same.** -/
theorem lockstep_after {d₁ d₂ : ConnectionData} (h : Lockstep (start d₁) (start d₂))
    (k : Continuation) (n : Nat) : Lockstep (after k d₁ n) (after k d₂ n) := by
  induction n with
  | zero => exact h
  | succ n ih => exact ih.tick k

theorem Lockstep.emits {d₁ d₂ : ConnectionData} (h : Lockstep (start d₁) (start d₂))
    (k : Continuation) (t : List Observed) : Emits k d₁ t ↔ Emits k d₂ t := by
  have htrace : ∀ n, (after k d₁ n).trace = (after k d₂ n).trace :=
    fun n => (lockstep_after h k n).trace
  unfold Emits
  simp only [htrace]

/-! ## A continuation that tells them apart -/

/--
`1024` bytes arrive before the first read and nothing after; writes are accepted
whole. Any connection that has read something before is filled to the brim.
-/
def burst : Continuation where
  arrive i := if i = 0 then List.replicate 1024 0 else []
  write _ := .accept 1024

theorem tick_handling {k : Continuation} {s : Session} {pc : HandlerPc} {a : Answer}
    {out : HandlerOut} (hp : s.conn.phase = .handling pc) (ha : s.answer k pc = a)
    (hout : handlerStep pc s.conn.data s.conn.errno a = some out) :
    (s.tick k).conn = s.conn.stepped pc a out
      ∧ (s.tick k).trace = s.trace ++ observed s.conn.data pc a := by
  simp only [tick, hp, ha, Connection.next, hout, Option.map_some, Option.getD_some, and_self]

/-- Up to the first read nothing is consumed. -/
theorem tick_testRead {k : Continuation} {s : Session}
    (hp : s.conn.phase = .handling .testRead) :
    (s.tick k).queue = s.queue ∧ (s.tick k).reads = s.reads := by
  simp only [tick, hp, and_self]

/-- Nothing of the burst is consumed yet, and there is no room for all of it. -/
structure Waiting (s : Session) : Prop where
  queue : s.queue = []
  reads : s.reads = 0
  pos : 1 ≤ s.conn.data.readIndex
  room : s.conn.data.readIndex ≤ 1025

/-- The places a drained connection passes through under `burst`. -/
def MuteAt (s : Session) : Phase → Prop
  | .idle => s.conn.armed = none ∨ Waiting s
  | .fetched flags => flags = { epollin := true } ∧ Waiting s
  | .handling .testRead => Waiting s
  | .handling .read => Waiting s ∨ s.conn.data.readIndex = 1025
  | .handling (.addReadIndex n) => s.conn.data.readIndex + n = 1025
  | .handling .logReceived => s.conn.data.readIndex = 1025
  | .handling .testWrite => True
  | _ => False

/-- A session that has shown nothing, and has no way to. -/
structure Mute (s : Session) : Prop where
  trace : s.trace = []
  ready : s.conn.data.readyForWrite = false
  spent : s.conn.phase ≠ .idle → s.conn.armed = none
  phase : MuteAt s s.conn.phase

/-- A step of a mute session that shows nothing and stays on the way. -/
theorem Mute.of_step {s : Session} {pc : HandlerPc} {a : Answer} {out : HandlerOut} (h : Mute s)
    (hp : s.conn.phase = .handling pc) (ha : s.answer burst pc = a)
    (hout : handlerStep pc s.conn.data s.conn.errno a = some out)
    (hacc : accepts s.conn.data a = []) (hrearm : pc.rearm? = none)
    (hready : out.data.readyForWrite = false)
    (hat : MuteAt (s.tick burst) (afterStep out.pc)) : Mute (s.tick burst) := by
  obtain ⟨hconn, htrace⟩ := tick_handling hp ha hout
  have hspent : s.conn.armed = none := h.spent (by simp [hp])
  refine ⟨?_, ?_, fun _ => ?_, ?_⟩
  · rw [htrace, h.trace, observed, hacc, hrearm]
    rfl
  · rw [hconn]
    exact hready
  · simp only [hconn, stepped_armed, rearmed, hrearm]
    exact hspent
  · have hphase : (s.tick burst).conn.phase = afterStep out.pc := by
      rw [hconn]
      rfl
    rw [hphase]
    exact hat

/-- A full buffer makes the read return `0`, and the handler return with nothing written. -/
theorem Mute.full {s : Session} (h : Mute s) (hp : s.conn.phase = .handling .read)
    (hcount : s.conn.data.readCount = 0) : Mute (s.tick burst) := by
  have ha : s.answer burst .read = .read (.data []) := by
    simp only [answer, readAnswer, hcount, if_true]
  have hout : handlerStep .read s.conn.data s.conn.errno (.read (.data []))
      = some ⟨some .testWrite, { s.conn.data with
          buffer := s.conn.data.buffer.save s.conn.data.readIndex [] }, s.conn.errno⟩ := by
    simp [handlerStep]
  exact h.of_step hp ha hout rfl rfl h.ready trivial

/-- A read into what room there is takes as much of the burst as fits. -/
theorem Mute.fill {s : Session} (h : Mute s) (hp : s.conn.phase = .handling .read)
    (hwait : Waiting s) (hcount : (s.conn.data.readCount : Int) = 1025 - s.conn.data.readIndex)
    (hpos : 0 < s.conn.data.readCount) : Mute (s.tick burst) := by
  have hle : s.conn.data.readCount ≤ 1024 := by
    have := hwait.pos
    omega
  have hbytes : s.queue ++ burst.arrive s.reads = List.replicate 1024 0 := by
    rw [hwait.queue, hwait.reads]
    rfl
  have hne : List.replicate 1024 (0 : Byte) ≠ [] := by
    simp only [ne_eq, List.replicate_eq_nil_iff]
    decide
  have htake : (List.replicate 1024 (0 : Byte)).take s.conn.data.readCount
      = List.replicate s.conn.data.readCount 0 := by
    rw [List.take_replicate, Nat.min_eq_left hle]
  have ha : s.answer burst .read = .read (.data (List.replicate s.conn.data.readCount 0)) := by
    simp only [answer, readAnswer, hbytes, if_neg (Nat.ne_of_gt hpos), if_neg hne, htake]
  have hout : handlerStep .read s.conn.data s.conn.errno
      (.read (.data (List.replicate s.conn.data.readCount 0)))
      = some ⟨some (.addReadIndex s.conn.data.readCount), { s.conn.data with
          buffer := s.conn.data.buffer.save s.conn.data.readIndex
            (List.replicate s.conn.data.readCount 0) }, s.conn.errno⟩ := by
    simp only [handlerStep, List.length_replicate, Nat.le_refl, if_true,
      if_neg (Nat.ne_of_gt hpos)]
  refine h.of_step hp ha hout rfl rfl h.ready ?_
  simp only [afterStep, MuteAt, (tick_handling hp ha hout).1, stepped_data]
  omega

/-- Between events a mute session waits for the next one, if there is to be any. -/
theorem Mute.idle {s : Session} (h : Mute s) (hp : s.conn.phase = .idle) :
    Mute (s.tick burst) := by
  have hat := h.phase
  rw [hp] at hat
  cases ha : s.conn.armed with
  | none =>
      have hs : s.tick burst = s := by simp [Session.tick, hp, Connection.next, ha]
      rw [hs]
      exact h
  | some mask =>
      rcases hat with hnone | hwait
      · rw [ha] at hnone
        cases hnone
      · simp only [Session.tick, hp, Connection.next, ha, Option.getD_some]
        exact ⟨h.trace, h.ready, fun _ => rfl, rfl, hwait.queue, hwait.reads, hwait.pos,
          hwait.room⟩

/-- With the flag down the handler goes to its read loop. -/
theorem Mute.testRead {s : Session} (h : Mute s) (hp : s.conn.phase = .handling .testRead) :
    Mute (s.tick burst) := by
  have hat := h.phase
  rw [hp] at hat
  have hwait : Waiting s := hat
  have hout : handlerStep .testRead s.conn.data s.conn.errno .quiet
      = some ⟨some .read, s.conn.data, s.conn.errno⟩ := by
    simp [handlerStep, h.ready]
  obtain ⟨hqueue, hreads⟩ := tick_testRead (k := burst) hp
  have hconn := (tick_handling (k := burst) hp rfl hout).1
  refine h.of_step hp rfl hout rfl rfl h.ready (Or.inl ?_)
  refine ⟨by rw [hqueue, hwait.queue], by rw [hreads, hwait.reads], ?_, ?_⟩
  · rw [hconn]
    exact hwait.pos
  · rw [hconn]
    exact hwait.room

/-- **A mute session stays mute.** -/
theorem Mute.tick {s : Session} (h : Mute s) : Mute (s.tick burst) := by
  have hat := h.phase
  cases hp : s.conn.phase with
  | idle => exact h.idle hp
  | fetched flags =>
      rw [hp] at hat
      obtain ⟨rfl, hwait⟩ := hat
      have hd : TcpServers.dispatch { epollin := true } = .handle := rfl
      simp only [Session.tick, hp, Connection.next, hd, Option.getD_some]
      exact ⟨h.trace, h.ready, fun _ => h.spent (by simp [hp]), hwait.queue, hwait.reads,
        hwait.pos, hwait.room⟩
  | handling pc =>
      rw [hp] at hat
      cases pc with
      | testRead => exact h.testRead hp
      | read =>
          have hroom : 1 ≤ s.conn.data.readIndex ∧ s.conn.data.readIndex ≤ 1025 := by
            rcases hat with hwait | hfull
            · exact ⟨hwait.pos, hwait.room⟩
            · omega
          have hcount := @readCount_eq s.conn.data (by omega)
            (by unfold ConnectionData.bufferSize; omega)
          unfold ConnectionData.bufferSize at hcount
          by_cases hz : s.conn.data.readCount = 0
          · exact h.full hp hz
          · rcases hat with hwait | hfull
            · exact h.fill hp hwait (by omega) (Nat.pos_of_ne_zero hz)
            · exact absurd hz (by omega)
      | addReadIndex n =>
          refine h.of_step hp rfl rfl rfl rfl h.ready ?_
          simp only [afterStep, MuteAt, (tick_handling (k := burst) hp rfl rfl).1, stepped_data]
          exact hat
      | logReceived =>
          refine h.of_step hp rfl rfl rfl rfl h.ready (Or.inr ?_)
          rw [(tick_handling (k := burst) hp rfl rfl).1]
          exact hat
      | testWrite =>
          have hout : handlerStep .testWrite s.conn.data s.conn.errno .quiet
              = some ⟨none, s.conn.data, s.conn.errno⟩ := by
            simp [handlerStep, h.ready]
          refine h.of_step hp rfl hout rfl rfl h.ready (Or.inl ?_)
          rw [(tick_handling (k := burst) hp rfl hout).1]
          exact h.spent (by simp [hp])
      | _ => exact absurd hat id
  | closed =>
      rw [hp] at hat
      exact absurd hat id

/-- A drained connection that has received something never shows anything under `burst`. -/
theorem mute_after {cd : ConnectionData} (hpos : 1 ≤ cd.readIndex) (hroom : cd.readIndex ≤ 1025)
    (hready : cd.readyForWrite = false) (n : Nat) : Mute (after burst cd n) := by
  induction n with
  | zero => exact ⟨rfl, hready, fun h => absurd rfl h, Or.inr ⟨rfl, rfl, hpos, hroom⟩⟩
  | succ n ih => exact ih.tick

/-! ## Drained and new -/

/-- Data with the indices and the flag of a new connection are in lockstep with one. -/
theorem lockstep_new {cd : ConnectionData} {fd : Fd} (hr : cd.readIndex = 0)
    (hw : cd.writeIndex = 0) (hready : cd.readyForWrite = false) :
    Lockstep (start cd) (start (.new fd)) := by
  refine ⟨⟨?_, ?_, fun _ => ?_, ?_, ?_⟩, ⟨rfl, rfl, rfl, hr, hw, hready, ?_⟩, rfl, rfl, rfl, rfl⟩
  · simp [start, hw]
  · simp [start, hr]
  · simp [start, wlen, accepted, hr, hw]
  · simp [start, rlen, accepted, hr, ConnectionData.bufferSize]
  · intro b hb
    cases hb
    exact hready
  · intro i h0 hlt
    simp only [start, rlen, accepted, hr] at hlt
    omega

/-- A new connection echoes the burst. -/
theorem new_echoes_burst (fd : Fd) : ∃ t, t ≠ [] ∧ Emits burst (.new fd) t := by
  have hlock : Lockstep (start (.new 0)) (start (.new fd)) := lockstep_new rfl rfl rfl
  refine ⟨_, ?_, (hlock.emits burst _).mp ⟨10, rfl⟩⟩
  intro h
  have hempty : (after burst (.new 0) 10).trace.isEmpty = false := by decide +kernel
  rw [h] at hempty
  exact absurd hempty (by decide)

/--
**A drained connection is as good as new exactly when it has received nothing**
since it was accepted or last reset.
-/
theorem drained_as_new_iff {fd : Fd} {s : Connection} (h : (Connection.machine fd).Reachable s)
    (hp : s.phase = .idle) (hd : s.data.writeIndex = s.data.readIndex) :
    (∀ k t, Emits k s.data t ↔ Emits k (.new fd) t) ↔ s.data.readIndex = 0 := by
  have hinv := indexInv_reachable h
  have hready := not_ready_idle hinv hp
  constructor
  · intro hall
    by_contra hne
    obtain ⟨t, ht, hnew⟩ := new_echoes_burst fd
    obtain ⟨n, hn⟩ := (hall burst t).mpr hnew
    have hroom : s.data.readIndex ≤ 1025 := by
      simpa [rlen, hp, ConnectionData.bufferSize] using hinv.room
    have hpos := hinv.read_nonneg
    have hmute := @mute_after s.data (by omega) hroom hready n
    rw [hmute.trace] at hn
    exact ht hn.symm
  · intro hr k t
    exact (lockstep_new hr (by omega) hready).emits k t

/-- One byte read and echoed. -/
def oneEchoed : List Label :=
  [.deliver { epollin := true } .success, .dispatch, .handler .quiet,
    .handler (.read (.data [104])), .handler .quiet, .handler .quiet,
    .handler (.read (.fail .eagain)), .handler .quiet, .handler .quiet,
    .handler (.write (.wrote 1)), .handler .quiet, .handler .quiet, .handler .quiet,
    .handler (.epollCtl none)]

theorem drained_as_new_oneEchoed :
    ∃ s : Connection, s.sent = [104] ∧ s.phase = .idle ∧ s.data.writeIndex = s.data.readIndex ∧
      ¬ ∀ k t, Emits k s.data t ↔ Emits k (.new 7) t := by
  have hval : ((Connection.machine 7).run (accepted 7) oneEchoed).map
      (fun s => (s.sent, s.phase, s.data.writeIndex, s.data.readIndex))
      = some ([104], .idle, 1, 1) := by
    decide +kernel
  obtain ⟨s, hrun, heq⟩ := Option.map_eq_some_iff.mp hval
  have hr : (Connection.machine 7).Reachable s := .of_run (.init rfl) (by decide +kernel) hrun
  obtain ⟨hsent, hp, hw, hread⟩ : s.sent = [104] ∧ s.phase = .idle ∧ s.data.writeIndex = 1
      ∧ s.data.readIndex = 1 := by simpa only [Prod.mk.injEq] using heq
  have hd : s.data.writeIndex = s.data.readIndex := by rw [hw, hread]
  refine ⟨s, hsent, hp, hd, fun hall => ?_⟩
  have h0 := (drained_as_new_iff hr hp hd).mp hall
  exact absurd h0 (by rw [hread]; decide)

/-- After one echoed byte a connection is not as good as new. -/
theorem drained_not_as_new :
    ¬ ∀ (fd : Fd) (s : Connection), (Connection.machine fd).Reachable s → s.phase = .idle →
        s.data.writeIndex = s.data.readIndex →
          ∀ k t, Emits k s.data t ↔ Emits k (.new fd) t := by
  intro hall
  have hval : ((Connection.machine 7).run (accepted 7) oneEchoed).map
      (fun s => (s.phase, s.data.writeIndex, s.data.readIndex, s.data.readyForWrite))
      = some (.idle, 1, 1, false) := by decide +kernel
  obtain ⟨s, hrun, heq⟩ := Option.map_eq_some_iff.mp hval
  have hr : (Connection.machine 7).Reachable s := .of_run (.init rfl) (by decide +kernel) hrun
  obtain ⟨hp, hw, hread, hready⟩ : s.phase = .idle ∧ s.data.writeIndex = 1
      ∧ s.data.readIndex = 1 ∧ s.data.readyForWrite = false := by
    simpa only [Prod.mk.injEq] using heq
  obtain ⟨t, ht, hnew⟩ := new_echoes_burst 7
  obtain ⟨n, hn⟩ := (hall 7 s hr hp (by rw [hw, hread]) burst t).mpr hnew
  have hmute := @mute_after s.data (by omega) (by omega) hready n
  rw [hmute.trace] at hn
  exact ht hn.symm

end TcpServers.Session
