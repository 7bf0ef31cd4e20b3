import TcpServers.Proof.EchoClient
import TcpServers.Proof.MultiClient
import TcpServers.Proof.SelectService
import TcpServers.Proof.ServerEcho

/-!
# Clients and their servers

Any number of `echo_client`s, each on a connection of its own, or `multi_client` with all of
its connections, and one server: every statement of any of them is a step of the whole. As
each of the servers follows the echo service, what holds of a client with a pipe behind its
connection holds here.
-/

namespace TcpServers

open Lib

section AnyServer

variable {σ α : Type} {M : Machine σ α} {traffic : σ → α → List (FamilyAct Nat Fd (PipeAct Byte))}
  {C : σ → α → Prop} {R : σ → (Nat → Option (List Byte)) → Prop}

/-- A server with its echo clients. -/
abbrev withClients (M : Machine σ α)
    (traffic : σ → α → List (FamilyAct Nat Fd (PipeAct Byte))) :
    Machine (σ × (Nat → EchoClient × Wire Byte)) (α ⊕ Nat × EchoClient.Act) :=
  echoClient.system M traffic

end AnyServer

namespace SelectServer

/-- A client of the select server, whose first reply is a byte of its message. -/
def firstReply : List (Label ⊕ Nat × EchoClient.Act) :=
  [.inr (0, .write (.wrote 57)), .inl (.select [3] 1), .inl .scan, .inl .scan, .inl .scan,
    .inl .scan, .inl (.accept4 (.ok 4)), .inl (.accept4 (.error .eagain)), .inl .scan,
    .inl (.select [4] 1), .inl .scan, .inl .scan, .inl .scan, .inl .scan, .inl .scan,
    .inl (.read (.data [72, 101])), .inl .log, .inl (.write (.wrote 1)),
    .inr (0, .read (fun _ => 1) (.data [72]))]

/-- A message of `multi_client`, of which a byte is dropped. -/
def pingLosesByte : List (Label ⊕ MultiClient.Label) :=
  [.inr .spawn, .inr (.thread 0 (.socket 3)), .inr (.thread 0 (.connect true)),
    .inr (.thread 0 (.write (.wrote 11))), .inl (.select [3] 1), .inl .scan, .inl .scan,
    .inl .scan, .inl .scan, .inl (.accept4 (.ok 4)), .inl (.accept4 (.error .eagain)), .inl .scan,
    .inl (.select [4] 1), .inl .scan, .inl .scan, .inl .scan, .inl .scan, .inl .scan,
    .inl (.read (.data [112, 105])), .inl .log, .inl (.write (.wrote 1)),
    .inl (.read (.fail .eagain))]

end SelectServer

namespace Server

variable {ι : Type} [DecidableEq ι] {cfg : Config ι}

/-- A client's message comes in two chunks, the first of which is on its way back. -/
def halfway : List (Fin 2 × Act ⊕ Nat × EchoClient.Act) :=
  .inr (0, .write (.wrote 57)) :: (acceptOne worker0 7 1).map .inl
    ++ [.inl (worker0, .deliver 7 { epollin := true }), .inl (worker0, .wake),
      .inl (worker0, .take), .inl (worker0, .handle .quiet),
      .inl (worker0, .handle (.read (.data (EchoClient.writeBuffer.take 20)))),
      .inl (worker0, .handle .quiet), .inl (worker0, .handle .quiet),
      .inl (worker0, .handle (.read (.fail .eagain))), .inl (worker0, .handle .quiet),
      .inl (worker0, .handle .quiet), .inl (worker0, .handle (.write (.wrote 12)))]

end Server

end TcpServers
