/-!
# The system-call vocabulary the servers share

Descriptors, `errno`, epoll event masks, and what `read()` and `write()` can
answer. Only the distinctions the servers themselves make are kept: of `errno`
they ask nothing but whether it is `EAGAIN` or `EWOULDBLOCK`.
-/

namespace TcpServers

/-- A descriptor number: an `int`, `-1` for none. -/
abbrev Fd : Type := Int

abbrev Byte : Type := UInt8

/-- `BUFF_SIZE`, the size of the buffers on the stack. -/
def buffSize : Nat := 1000

/-- `errno`. The servers test for the two would-block values only. -/
inductive Errno where
  | success
  | eagain
  | ewouldblock
  | other (code : Nat)
  deriving DecidableEq, Repr

/-- `errno == EWOULDBLOCK or errno == EAGAIN`. -/
def Errno.wouldBlock : Errno → Bool
  | .eagain => true
  | .ewouldblock => true
  | .success => false
  | .other _ => false

/-- The bits of `epoll_event.events`, in a requested mask or a delivered event. -/
structure Events where
  epollin : Bool := false
  epollout : Bool := false
  epollerr : Bool := false
  epollhup : Bool := false
  epollrdhup : Bool := false
  epollet : Bool := false
  epolloneshot : Bool := false
  epollexclusive : Bool := false
  deriving DecidableEq, Repr

/-- What `read()` answers: the bytes stored, none of them for a return of `0`. -/
inductive ReadResult where
  | data (bs : List Byte)
  | fail (e : Errno)
  deriving DecidableEq, Repr

/-- What `write()` answers: how many bytes it accepted, possibly `0`. -/
inductive WriteResult where
  | wrote (n : Nat)
  | fail (e : Errno)
  deriving DecidableEq, Repr

end TcpServers
