import TcpServers.Lib.Clients
import TcpServers.Lib.Store
import TcpServers.Model.Posix

/-!
# `echo_client`

`main` of the client from its connection on: ten times it writes its message, reads once
into a fresh vector and prints that up to the first NUL. It blocks where it has nothing to
read; neither a short `write()` nor a short `read()` is continued.
-/

namespace TcpServers

open Lib

/-- The statement of the client that comes next, with the round. -/
inductive EchoClientPc where
  -- `write(sockfd, write_buffer.data(), write_buffer.size())`
  | write (i : Nat)
  -- `read(sockfd, read_buffer.data(), read_buffer.size())`
  | read (i : Nat)
  -- `std::cout << read_buffer.data()`, after a `read()` that returned `rlen`
  | print (i rlen : Nat)
  -- `return 0`, or `exit(EXIT_FAILURE)`
  | exited (failed : Bool)
  deriving DecidableEq, Repr

structure EchoClient where
  /-- The vector of the round, and the memory around it. -/
  readBuffer : Store Byte
  pc : EchoClientPc
  /-- History: what `write()` accepted. -/
  said : List Byte
  /-- History: what was read. -/
  heard : List Byte

namespace EchoClient

/-- `write_buffer`. -/
def writeBuffer : List Byte :=
  "Hello, I am the client.\nPlease echo back what I'm saying.".toList.map
    fun c => UInt8.ofNat c.toNat

/-- The number of rounds. -/
def rounds : Nat := 10

/-- The size of `read_buffer`. -/
def readSize : Nat := 1024

/-- `std::vector<char> read_buffer(1024, 0)`, somewhere in memory. -/
def zeroed (memory : Store Byte) : Store Byte := fun i =>
  if 0 ≤ i ∧ i < readSize then 0 else memory i

def start (memory : Store Byte) : EchoClient where
  readBuffer := memory
  pc := .write 0
  said := []
  heard := []

inductive Act where
  | write (r : WriteResult)
  -- with the memory the vector is in
  | read (memory : Store Byte) (r : ReadResult)
  | print

/-- A statement of the client. A blocking `write()` accepts at least one byte. -/
def next (s : EchoClient) (a : Act) : Option EchoClient :=
  match s.pc, a with
  | .write i, .write (.wrote n) =>
      if 0 < n ∧ n ≤ writeBuffer.length then
        some { s with pc := .read i, said := s.said ++ writeBuffer.take n }
      else none
  | .write _, .write (.fail _) => some { s with pc := .exited true }
  | .read i, .read memory (.data bs) =>
      if bs.length ≤ readSize then
        some { s with
          readBuffer := (zeroed memory).save 0 bs
          pc := .print i bs.length
          heard := s.heard ++ bs }
      else none
  | .read _, .read _ (.fail _) => some { s with pc := .exited true }
  | .print i _, .print =>
      some { s with pc := if i + 1 < rounds then .write (i + 1) else .exited false }
  | _, _ => none

end EchoClient

/-- The client, as it is seen from its connection. -/
def echoClient : Client EchoClient EchoClient.Act Byte where
  machine := { init := fun s => ∃ memory, s = EchoClient.start memory, next := EchoClient.next }
  output
    | _, .write (.wrote n) => EchoClient.writeBuffer.take n
    | _, _ => []
  input
    | _, .read _ (.data bs) => bs
    | _, _ => []

namespace EchoClient

variable (s : EchoClient)

/-- Everything a statement of the client can do. -/
inductive Step : Act → EchoClient → Prop where
  | wrote {i n : Nat} (hpc : s.pc = .write i) (hpos : 0 < n) (hle : n ≤ writeBuffer.length) :
      Step (.write (.wrote n)) { s with pc := .read i, said := s.said ++ writeBuffer.take n }
  | writeFailed {i : Nat} {e : Errno} (hpc : s.pc = .write i) :
      Step (.write (.fail e)) { s with pc := .exited true }
  | chunk {i : Nat} {memory : Store Byte} {bs : List Byte} (hpc : s.pc = .read i)
      (hle : bs.length ≤ readSize) :
      Step (.read memory (.data bs))
        { s with
          readBuffer := (zeroed memory).save 0 bs
          pc := .print i bs.length
          heard := s.heard ++ bs }
  | readFailed {i : Nat} {memory : Store Byte} {e : Errno} (hpc : s.pc = .read i) :
      Step (.read memory (.fail e)) { s with pc := .exited true }
  | again {i rlen : Nat} (hpc : s.pc = .print i rlen) (hi : i + 1 < rounds) :
      Step .print { s with pc := .write (i + 1) }
  | done {i rlen : Nat} (hpc : s.pc = .print i rlen) (hi : rounds ≤ i + 1) :
      Step .print { s with pc := .exited false }

variable {s}

/-- **A statement of the code is one of the listed ones.** -/
theorem next_cases {a : Act} {s' : EchoClient} (h : s.next a = some s') : Step s a s' := by
  unfold next at h
  split at h
  · rename_i hpc
    split at h
    · rename_i hok
      cases h
      exact .wrote hpc hok.1 hok.2
    · exact absurd h (by simp)
  · rename_i hpc
    cases h
    exact .writeFailed hpc
  · rename_i hpc
    split at h
    · rename_i hle
      cases h
      exact .chunk hpc hle
    · exact absurd h (by simp)
  · rename_i hpc
    cases h
    exact .readFailed hpc
  · rename_i i _ hpc
    cases h
    by_cases hi : i + 1 < rounds
    · rw [if_pos hi]
      exact .again hpc hi
    · rw [if_neg hi]
      exact .done hpc (Nat.not_lt.mp hi)
  · exact absurd h (by simp)

end EchoClient

end TcpServers
