import TcpServers.Model.Service
import TcpServers.Proof.EchoSound

/-!
# A connection is a pipe

In every run of a connection, failed reads and their resets included, the handler takes
from a pipe what it put in before. What is in the pipe is what the buffer holds between
the two indices; it is lost in one place only, at a failed read.
-/

namespace TcpServers.Connection

open Lib

/-- `buffer_[write_index_ .. read_index_)`. -/
def unwritten (cd : ConnectionData) : List Byte :=
  cd.buffer.load cd.writeIndex (cd.readIndex - cd.writeIndex).toNat

/-- What was read, is not written, and is not given up. -/
def contents (cd : ConnectionData) : Phase → List Byte
  | .handling (.addReadIndex rlen) => unwritten { cd with readIndex := cd.readIndex + rlen }
  | .handling (.addWriteIndex wlen) => unwritten { cd with writeIndex := cd.writeIndex + wlen }
  | .handling .readFailRearm => []
  | .handling .resetReadIndex => []
  | .handling .resetWriteIndex => []
  | .handling .resetReady => []
  | _ => unwritten cd

/-- The pipe of a connection. -/
structure InPipe (s : Connection) (q : List Byte) : Prop where
  contents : q = contents s.data s.phase
  /-- `reset()` clears the read index first. -/
  cleared : s.phase = .handling .resetWriteIndex ∨ s.phase = .handling .resetReady →
    s.data.readIndex = 0

/-- Every connection lives with some descriptor. -/
theorem lives_reachable {C : Connection → Label → Prop} {s : Connection}
    (h : lives.ReachableVia C s) : ∃ fd, (machine fd).ReachableVia C s := by
  induction h with
  | init hi =>
      obtain ⟨fd, hfd⟩ := hi
      exact ⟨fd, .init hfd⟩
  | tail _ hc hn ih =>
      obtain ⟨fd, hr⟩ := ih
      exact ⟨fd, .tail hr hc hn⟩

theorem inPipe_accepted (fd : Fd) : InPipe (accepted fd) [] where
  contents := rfl
  cleared := by
    intro h
    rcases h with h | h <;> cases h

/-! ## The range between the indices -/

/-- A chunk goes to the end of the range. -/
theorem unwritten_chunk {cd : ConnectionData} (bs : List Byte)
    (hle : cd.writeIndex ≤ cd.readIndex) :
    unwritten { cd with
        buffer := cd.buffer.save cd.readIndex bs, readIndex := cd.readIndex + bs.length }
      = unwritten cd ++ bs := by
  have hlen : (cd.readIndex + bs.length - cd.writeIndex).toNat
      = (cd.readIndex - cd.writeIndex).toNat + bs.length := by omega
  have hpos : cd.writeIndex + ((cd.readIndex - cd.writeIndex).toNat : Int) = cd.readIndex := by
    omega
  have happ := Store.load_save_append cd.buffer cd.writeIndex
    (cd.readIndex - cd.writeIndex).toNat bs
  rw [hpos] at happ
  unfold unwritten
  dsimp only
  rw [hlen]
  exact happ

/-- What is written comes from the front of the range. -/
theorem unwritten_wrote {cd : ConnectionData} {n : Nat} (hle : cd.writeIndex + n ≤ cd.readIndex) :
    unwritten cd = cd.buffer.load cd.writeIndex n
      ++ unwritten { cd with writeIndex := cd.writeIndex + n } := by
  have hlen : (cd.readIndex - cd.writeIndex).toNat
      = n + (cd.readIndex - (cd.writeIndex + n)).toNat := by omega
  unfold unwritten
  dsimp only
  rw [hlen, Store.load_add]

/-- Behind the read index nothing is left to write. -/
theorem unwritten_empty {cd : ConnectionData} (hle : cd.readIndex ≤ cd.writeIndex) :
    unwritten cd = [] := by
  have hlen : (cd.readIndex - cd.writeIndex).toNat = 0 := by omega
  unfold unwritten
  rw [hlen]
  rfl

theorem length_unwritten (cd : ConnectionData) :
    (unwritten cd).length = (cd.readIndex - cd.writeIndex).toNat :=
  Store.length_load _ _ _

/-! ## The steps -/

/-- What a statement of the handler does to the buffer is what it does to the pipe. -/
theorem inPipe_handler {s : Connection} {pc : HandlerPc} {a : Answer} {out : HandlerOut}
    {q : List Byte} (hi : IndexInv s) (hp : s.phase = .handling pc) (hq : InPipe s q)
    (hstep : HandlerStep s.data s.errno pc a out) :
    ∃ q', pipe.run q (s.traffic (.handler a)) = some q' ∧ InPipe (s.stepped pc a out) q' := by
  have hw0 := hi.write_nonneg
  obtain ⟨hcontents, hcleared⟩ := hq
  rw [hp] at hcontents hcleared
  cases hstep with
  | @chunk bs hpos hle =>
      have hle' := hi.le_of_handling hp (by simp)
      refine ⟨q ++ bs, rfl, ?_, by simp [afterStep]⟩
      rw [hcontents]
      exact (unwritten_chunk bs hle').symm
  | @wrote n hpos hle =>
      have hle' := hi.le_of_handling hp (by simp)
      have hcount := writeCount_le hle'
      have hsplit : unwritten s.data = s.data.buffer.load s.data.writeIndex n
          ++ unwritten { s.data with writeIndex := s.data.writeIndex + n } :=
        unwritten_wrote (by omega)
      refine ⟨unwritten { s.data with writeIndex := s.data.writeIndex + n }, ?_, rfl,
        by simp [afterStep]⟩
      rw [hcontents]
      show pipe.run (unwritten s.data) [.get (s.data.buffer.load s.data.writeIndex n)] = _
      rw [hsplit, Machine.run_cons, pipe_get]
      rfl
  | @readFailed e he =>
      refine ⟨[], ?_, rfl, by simp [afterStep]⟩
      have hlost : q.drop (s.data.readIndex - s.data.writeIndex).toNat = [] := by
        rw [hcontents]
        exact List.drop_eq_nil_of_le (Nat.le_of_eq (length_unwritten s.data))
      simp only [traffic, he, Bool.false_eq_true, if_false, Machine.run_cons, pipe_drop, hlost]
      rfl
  | resetReady =>
      have hle := hi.le_of_handling hp (by simp)
      have hzero : s.data.readIndex ≤ s.data.writeIndex := by
        rw [hcleared (Or.inr rfl)]
        exact hw0
      refine ⟨q, rfl, ?_, by simp [afterStep]⟩
      rw [hcontents]
      exact (unwritten_empty hzero).symm
  | @drained e he =>
      refine ⟨q, ?_, hcontents, by simp [afterStep]⟩
      simp only [traffic, he]
      rfl
  | endOfStream =>
      refine ⟨q, ?_, hcontents, by simp [afterStep]⟩
      show some (q ++ []) = some q
      rw [List.append_nil]
  | wroteNothing => exact ⟨q, rfl, hcontents, by simp [afterStep]⟩
  | resetReadIndex => exact ⟨q, rfl, hcontents, fun _ => rfl⟩
  | resetWriteIndex => exact ⟨q, rfl, hcontents, fun _ => hcleared (Or.inl rfl)⟩
  | _ => exact ⟨q, rfl, hcontents, by simp [afterStep]⟩

/--
**A connection follows its pipe**: in every run the handler takes out what it put in, and
loses nothing but at a failed read.
-/
theorem follows_pipe : pipe.Follows lives (fun _ _ => True) traffic InPipe where
  init := by
    rintro s ⟨fd, rfl⟩
    exact ⟨[], rfl, inPipe_accepted fd⟩
  step := by
    intro s q l s' hr hq _ hn
    obtain ⟨fd, hr⟩ := lives_reachable hr
    have hi := indexInv_reachable hr
    rcases next_cases hn with ⟨flags, e, mask, rfl, hp, _, rfl⟩ | ⟨flags, rfl, hp, hd⟩ |
      ⟨a, pc, out, rfl, hp, hstep, rfl⟩
    · refine ⟨q, rfl, ?_, by simp⟩
      rw [hq.contents, hp]
      rfl
    · have hcontents : q = unwritten s.data := by
        rw [hq.contents, hp]
        rfl
      rcases hd with ⟨_, rfl⟩ | ⟨_, rfl⟩ | ⟨_, rfl⟩ <;>
        exact ⟨q, rfl, hcontents, by simp⟩
    · exact inPipe_handler hi hp hq hstep

end TcpServers.Connection
