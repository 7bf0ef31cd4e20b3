import TcpServers.Lib.Pipe
import TcpServers.Lib.Store
import TcpServers.Model.Posix

/-!
# The inner loop of the two blocking servers

`single_client_blocking_io_server` and the children of `fork_process_per_connection_server`
read a chunk, print it and write it back until the stream ends. The three ways out close
`client_sfd` first; what they do next is for each server to say.

A short `write()` is not continued: what it did not take is overwritten by the next chunk.
-/

namespace TcpServers

open Lib

/-- What a descriptor of a blocking server stands for. -/
inductive OpenFile where
  | listener
  -- the connections are numbered as they are accepted
  | conn (c : Nat)
  deriving DecidableEq, Repr

/-- A process's table of descriptors. -/
abbrev Descriptors := Fd → Option OpenFile

/-- What ends the loop. -/
inductive EchoExit where
  -- `rlen == 0`
  | closed
  -- `throw std::runtime_error("ERROR on reading")`
  | reading
  -- `throw std::runtime_error("ERROR on  writing")`
  | writing
  deriving DecidableEq, Repr

/-- The statement of the loop that comes next. -/
inductive EchoPc where
  -- `rlen = read(client_sfd.get_fd(), buffer, sizeof(buffer))`
  | read
  -- `std::cout << "  received: " << buffer`
  | received (rlen : Nat)
  -- `wlen = write(client_sfd.get_fd(), buffer, (size_t)rlen)`
  | write (rlen : Nat)
  -- `client_sfd.close_fd()`
  | close (why : EchoExit)
  deriving DecidableEq, Repr

/-- What a statement of the loop gets back. -/
inductive EchoAnswer where
  | read (r : ReadResult)
  | write (w : WriteResult)
  | quiet
  deriving DecidableEq, Repr

/--
A statement of the loop, up to the one that closes. `none` where the answer is not one to
it, or the kernel would move more bytes than it was asked to.
-/
def echoStep (buffer : Store Byte) : EchoPc → EchoAnswer → Option (EchoPc × Store Byte)
  | .read, .read (.data bs) =>
      if bs.length ≤ buffSize then
        some (if bs.length = 0 then .close .closed else .received bs.length, buffer.save 0 bs)
      else none
  | .read, .read (.fail _) => some (.close .reading, buffer)
  | .received rlen, .quiet => some (.write rlen, buffer)
  | .write rlen, .write (.wrote wlen) => if wlen ≤ rlen then some (.read, buffer) else none
  | .write _, .write (.fail _) => some (.close .writing, buffer)
  | _, _ => none

/-- What it does to the pipe of the connection. -/
def echoTraffic (buffer : Store Byte) : EchoPc → EchoAnswer → List (PipeAct Byte)
  | .read, .read (.data bs) => [.put bs]
  | .write rlen, .write (.wrote wlen) => [.get (buffer.load 0 wlen), .drop (rlen - wlen)]
  | .write rlen, .write (.fail _) => [.drop rlen]
  | _, _ => []

/-- The answers with which a chunk is written back whole. -/
def WritesAll : EchoPc → EchoAnswer → Prop
  | .write rlen, .write (.wrote wlen) => wlen = rlen
  | .write _, .write (.fail _) => False
  | _, _ => True

/-- What was read and is not given up. -/
def echoPending (buffer : Store Byte) : EchoPc → List Byte
  | .received rlen => buffer.load 0 rlen
  | .write rlen => buffer.load 0 rlen
  | _ => []

/-- Everything a statement of the loop can do. -/
inductive EchoStep (buffer : Store Byte) : EchoPc → EchoAnswer → EchoPc → Store Byte → Prop where
  | chunk {bs : List Byte} (hpos : 0 < bs.length) (hle : bs.length ≤ buffSize) :
      EchoStep buffer .read (.read (.data bs)) (.received bs.length) (buffer.save 0 bs)
  | endOfStream : EchoStep buffer .read (.read (.data [])) (.close .closed) buffer
  | readFailed {e : Errno} : EchoStep buffer .read (.read (.fail e)) (.close .reading) buffer
  | received {rlen : Nat} : EchoStep buffer (.received rlen) .quiet (.write rlen) buffer
  | wrote {rlen wlen : Nat} (hle : wlen ≤ rlen) :
      EchoStep buffer (.write rlen) (.write (.wrote wlen)) .read buffer
  | writeFailed {rlen : Nat} {e : Errno} :
      EchoStep buffer (.write rlen) (.write (.fail e)) (.close .writing) buffer

/-- **A statement of the code is one of the listed ones.** -/
theorem echoStep_cases {buffer buffer' : Store Byte} {pc pc' : EchoPc} {a : EchoAnswer}
    (h : echoStep buffer pc a = some (pc', buffer')) : EchoStep buffer pc a pc' buffer' := by
  unfold echoStep at h
  split at h
  · rename_i bs
    split at h
    · rename_i hle
      cases bs with
      | nil => cases h; exact .endOfStream
      | cons b bs => cases h; exact .chunk (Nat.succ_pos _) hle
    · exact absurd h (by simp)
  · cases h; exact .readFailed
  · cases h; exact .received
  · split at h
    · rename_i hle; cases h; exact .wrote hle
    · exact absurd h (by simp)
  · cases h; exact .writeFailed
  · exact absurd h (by simp)

/-- **What a statement does to the buffer is what it does to the pipe.** -/
theorem echoStep_pipe {buffer buffer' : Store Byte} {pc pc' : EchoPc} {a : EchoAnswer}
    (h : EchoStep buffer pc a pc' buffer') :
    pipe.run (echoPending buffer pc) (echoTraffic buffer pc a)
      = some (echoPending buffer' pc') := by
  cases h with
  | @chunk bs hpos hle =>
      show some ([] ++ bs) = some ((buffer.save 0 bs).load 0 bs.length)
      rw [Store.load_save, List.nil_append]
  | endOfStream => rfl
  | readFailed => rfl
  | received => rfl
  | @wrote rlen wlen hle =>
      obtain ⟨rest, rfl⟩ := Nat.exists_eq_add_of_le hle
      simp only [echoPending, echoTraffic, Store.load_add, Machine.run_cons, pipe_get,
        Option.bind_some, pipe_drop]
      have hrest : (buffer.load (0 + wlen) rest).drop (wlen + rest - wlen) = [] :=
        List.drop_eq_nil_of_le (by rw [Store.length_load]; omega)
      rw [hrest]
      rfl
  | @writeFailed rlen e =>
      simp only [echoPending, echoTraffic, Machine.run_cons, pipe_drop, Option.bind_some]
      rw [List.drop_eq_nil_of_le (Nat.le_of_eq (Store.length_load _ _ _))]
      rfl

/-- A chunk that is written back whole drops nothing. -/
theorem echoTraffic_lossless {buffer : Store Byte} {pc : EchoPc} {a : EchoAnswer}
    (h : WritesAll pc a) : PipeAct.Lossless (echoTraffic buffer pc a) := by
  intro n hn
  unfold echoTraffic at hn
  split at hn
  · simp at hn
  · obtain rfl : _ = _ := h
    simpa using hn
  · exact absurd h id
  · exact absurd hn List.not_mem_nil

end TcpServers
