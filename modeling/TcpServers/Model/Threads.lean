import TcpServers.Lib.Machine
import TcpServers.Model.Posix

/-!
# The threads `start()` spawns

With `reuse_port_`, each round of `start()`'s loop sets up a listener, an epoll
instance and a thread. The thread's lambda has `epoll_fd` and `i` by value, and
reads the member `server_sfd_` when it begins to run, whenever that is. Meanwhile
the main thread goes on to its next assignment of `server_sfd_`, and after the
last round to the one on the line after the loop.

Every call succeeds here, and returns a descriptor not returned before.
-/

namespace TcpServers

open Lib

/-- The statement of `start()` that comes next, in round `n` of its loop. -/
inductive MainPc where
  -- `server_sfd_ = setupServerTcpSocket(...)`; the one after the loop is round `worker_num_`
  | setup (n : Nat)
  -- `int epoll_fd = epoll_create1(0)`
  | create (n : Nat)
  -- `epoll_ctl(epoll_fd, EPOLL_CTL_ADD, server_sfd_, &event)`
  | add (n : Nat) (epollFd : Fd)
  -- `workers_threads.emplace_back(...)`
  | spawn (n : Nat) (epollFd : Fd)
  | join
  deriving DecidableEq, Repr

/-- What a `Worker` is constructed with. -/
structure Constructed where
  serverSfd : Fd
  epollFd : Fd
  deriving DecidableEq, Repr

/-- What a worker does with an event of the descriptor. -/
inductive Handler where
  | acceptConnections
  | handleConnectionEvent
  deriving DecidableEq, Repr

/-- The test `conn_data->conn_fd_ == server_sfd_` of `Worker::start`. -/
def Constructed.dispatch (w : Constructed) (connFd : Fd) : Handler :=
  if connFd = w.serverSfd then .acceptConnections else .handleConnectionEvent

/-- `start()`, its threads, and the epoll instances. -/
structure Threads where
  pc : MainPc
  /-- The member `server_sfd_`. -/
  serverSfd : Fd
  /-- The listeners set up so far, in their order. -/
  listeners : List Fd
  /-- The listener added to an epoll instance. -/
  added : Fd → Option Fd
  /-- Spawned threads: the `epoll_fd` their lambda has captured. -/
  captured : Nat → Option Fd
  /-- Threads that have begun. -/
  worker : Nat → Option Constructed

namespace Threads

inductive Step where
  -- the main thread; the descriptor is what its call returns, if it returns one
  | main (fd : Fd)
  -- thread `i` begins
  | begins (i : Nat)
  deriving DecidableEq, Repr

def init : Threads where
  pc := .setup 0
  serverSfd := -1
  listeners := []
  added _ := none
  captured _ := none
  worker _ := none

/-- A statement of the main thread. -/
def mainStep (workerNum : Nat) (s : Threads) (fd : Fd) : Option Threads :=
  match s.pc with
  | .setup n =>
      if fd ∈ s.listeners ∨ s.added fd ≠ none then none
      else
        some { s with
          serverSfd := fd
          listeners := s.listeners ++ [fd]
          pc := if n < workerNum then .create n else .join }
  | .create n =>
      if fd ∈ s.listeners ∨ s.added fd ≠ none then none else some { s with pc := .add n fd }
  | .add n epollFd =>
      some { s with
        added := fun ep => if ep = epollFd then some s.serverSfd else s.added ep
        pc := .spawn n epollFd }
  | .spawn n epollFd =>
      some { s with
        captured := fun i => if i = n then some epollFd else s.captured i
        pc := .setup (n + 1) }
  | .join => none

/-- A thread's first statement: `Worker worker{server_sfd_, epoll_fd, i, data_manager_}`. -/
def beginStep (s : Threads) (i : Nat) : Option Threads :=
  match s.captured i, s.worker i with
  | some epollFd, none =>
      some { s with worker := fun j => if j = i then some ⟨s.serverSfd, epollFd⟩ else s.worker j }
  | _, _ => none

def next (workerNum : Nat) (s : Threads) : Step → Option Threads
  | .main fd => s.mainStep workerNum fd
  | .begins i => s.beginStep i

/-- `start()` with `reuse_port_` and `worker_num_` workers. -/
def machine (workerNum : Nat) : Machine Threads Step where
  init s := s = init
  next := next workerNum

end Threads

end TcpServers
