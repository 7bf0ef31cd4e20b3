import TcpServers.Model.Connection

/-!
# What a connection does from here on

A continuation fixes everything the outside does from some moment on, however the
connection stands: the bytes that reach the receive queue before each `read()`,
and what each `write()` is answered. `read()` returns the smaller of the count
and what is queued, and would block on an empty queue. Under a continuation the
server's side is deterministic; `Emits` is what can be seen of it, the bytes
written and the re-arms, in their order.
-/

namespace TcpServers

/-- What the kernel does with a `write()`. -/
inductive WritePlan where
  -- accept at most so many bytes
  | accept (upTo : Nat)
  | fail (e : Errno)
  deriving DecidableEq, Repr

structure Continuation where
  /-- What reaches the receive queue just before the `n`-th `read()`. -/
  arrive : Nat → List Byte
  /-- What the `n`-th `write()` is answered. -/
  write : Nat → WritePlan

/-- What can be seen of a connection from outside. -/
inductive Observed where
  | byte (b : Byte)
  | rearm (isRead : Bool)
  deriving DecidableEq, Repr

/-- A connection on its way through a continuation. -/
structure Session where
  conn : Connection
  queue : List Byte
  reads : Nat
  writes : Nat
  trace : List Observed

namespace Session

/-- `read(count)` on a connection that stays open. -/
def readAnswer (count : Nat) (queue : List Byte) : ReadResult :=
  if count = 0 then .data []
  else if queue = [] then .fail .eagain
  else .data (queue.take count)

def writeAnswer (count : Nat) : WritePlan → WriteResult
  | .accept upTo => .wrote (min upTo count)
  | .fail e => .fail e

/-- The answer to the statement the handler has come to. -/
def answer (k : Continuation) (s : Session) (pc : HandlerPc) : Answer :=
  match pc with
  | .read => .read (readAnswer s.conn.data.readCount (s.queue ++ k.arrive s.reads))
  | .write => .write (writeAnswer s.conn.data.writeCount (k.write s.writes))
  | .readFailRearm | .echoedRearm | .blockedRearm | .writeFailRearm => .epollCtl none
  | _ => .quiet

/-- What can be seen of a handler step. -/
def observed (cd : ConnectionData) (pc : HandlerPc) (a : Answer) : List Observed :=
  (Connection.accepts cd a).map .byte ++ (pc.rearm?.map .rearm).toList

/-- The next step, the next event included; a connection that is not armed has none. -/
def tick (k : Continuation) (s : Session) : Session :=
  match s.conn.phase with
  | .idle => { s with conn := (s.conn.next (.deliver { epollin := true } .success)).getD s.conn }
  | .fetched _ => { s with conn := (s.conn.next .dispatch).getD s.conn }
  | .handling pc =>
      let a := answer k s pc
      { conn := (s.conn.next (.handler a)).getD s.conn
        queue := match pc with
          | .read => (s.queue ++ k.arrive s.reads).drop (Connection.stored a).length
          | _ => s.queue
        reads := match pc with
          | .read => s.reads + 1
          | _ => s.reads
        writes := match pc with
          | .write => s.writes + 1
          | _ => s.writes
        trace := s.trace ++ observed s.conn.data pc a }
  | .closed => s

/-- An open connection with the given data, between events. -/
def start (cd : ConnectionData) : Session where
  conn := { Connection.accepted cd.connFd with data := cd }
  queue := []
  reads := 0
  writes := 0
  trace := []

/-- The state after `n` steps. -/
def after (k : Continuation) (cd : ConnectionData) : Nat → Session
  | 0 => start cd
  | n + 1 => tick k (after k cd n)

/-- A connection with the given data, under the continuation, shows `t` at some moment. -/
def Emits (k : Continuation) (cd : ConnectionData) (t : List Observed) : Prop :=
  ∃ n, (after k cd n).trace = t

end Session

end TcpServers
