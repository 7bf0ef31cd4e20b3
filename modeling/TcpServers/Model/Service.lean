import TcpServers.Lib.Family
import TcpServers.Lib.Pipe
import TcpServers.Model.Server

/-!
# What the echo servers are for

The service that all of them are to give their clients: a pipe for each connection,
through which its bytes come back, whatever happens on the others. This module names no
server; what a server's steps put into a pipe and take from it is its traffic.

For the multi-worker server there is a level in between: a family of `Connection`s, each
alone with its events.
-/

namespace TcpServers

open Lib

/-- A pipe for each connection. The connections are numbered, and join with a descriptor. -/
def echoService : Machine (Nat → Option (List Byte)) (FamilyAct Nat Fd (PipeAct Byte)) :=
  Machine.family pipe (fun _ => [])

/-- What was read from connection `c`. -/
def readFrom (c : Nat) (ls : List (FamilyAct Nat Fd (PipeAct Byte))) : List Byte :=
  PipeAct.given (FamilyAct.of c ls)

/-- What was written to it. -/
def writtenTo (c : Nat) (ls : List (FamilyAct Nat Fd (PipeAct Byte))) : List Byte :=
  PipeAct.taken (FamilyAct.of c ls)

/-- Nothing that was read is dropped. -/
def DropsNothing (ls : List (FamilyAct Nat Fd (PipeAct Byte))) : Prop :=
  ∀ c, PipeAct.Lossless (FamilyAct.of c ls)

namespace Connection

/-- The lives of all connections, whatever their descriptor. -/
def lives : Machine Connection Label where
  init s := ∃ fd, s = accepted fd
  next := next

/--
What a statement of the handler does to the pipe. A failed read leads to `reset()`, and
what was not written by then is lost.
-/
def traffic (s : Connection) : Label → List (PipeAct Byte)
  | .handler (.read (.data bs)) => [.put bs]
  | .handler (.read (.fail e)) =>
      if e.wouldBlock then [] else [.drop (s.data.readIndex - s.data.writeIndex).toNat]
  | .handler (.write (.wrote n)) => [.get (s.data.buffer.load s.data.writeIndex n)]
  | _ => []

end Connection

/-- The connections of a server, by themselves. -/
def connections : Machine (Nat → Option Connection) (FamilyAct Nat Fd Connection.Label) :=
  Machine.family Connection.lives Connection.accepted

namespace Server

variable {ι : Type} (s : Server ι)

/--
What a step of a worker is to the connection it is about. The event counts as delivered
when the worker takes it from its batch, with the `errno` it has then.
-/
def stepsOf : ι × Act → List (FamilyAct Nat Fd Connection.Label)
  | (i, .epollAdd none) =>
      match (s.worker i).pc with
      | .add fd _ c => [.spawn c fd]
      | _ => []
  | (i, .take) =>
      match (s.worker i).batch with
      | ⟨flags, _, _, .conn c⟩ :: _ =>
          [.step c (.deliver flags (s.worker i).errno), .step c .dispatch]
      | _ => []
  | (i, .handle a) =>
      match (s.worker i).pc with
      | .handle _ (.conn c) _ => [.step c (.handler a)]
      | _ => []
  | _ => []

/-- What a step of a worker reads from a connection, or writes to it. -/
def traffic : ι × Act → List (FamilyAct Nat Fd (PipeAct Byte))
  | (i, .epollAdd none) =>
      match (s.worker i).pc with
      | .add fd _ c => [.spawn c fd]
      | _ => []
  | (i, .handle (.read (.data bs))) =>
      match (s.worker i).pc with
      | .handle _ (.conn c) _ => [.step c (.put bs)]
      | _ => []
  | (i, .handle (.write (.wrote n))) =>
      match (s.worker i).pc with
      | .handle p (.conn c) _ =>
          [.step c (.get ((s.mem p).buffer.load (s.mem p).writeIndex n))]
      | _ => []
  | _ => []

end Server

end TcpServers
