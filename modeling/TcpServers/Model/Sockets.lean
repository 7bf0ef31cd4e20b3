import Mathlib.Data.List.Basic
import TcpServers.Model.Posix

/-!
# `setupServerTcpSocket` and `start()`

The listening sockets of the multi-worker server, from `getaddrinfo` to the join
loop, against any kernel: what a call answers is a function of the sockets that
are open and of how many calls came before. A kernel is an oracle, and what is
assumed of one is stated where it is used.

An exception leaves `start()` through `exit(EXIT_FAILURE)`; it is modelled by its
message.
-/

namespace TcpServers

/-- A wildcard address, as `getaddrinfo(nullptr, port, AI_PASSIVE)` returns them. -/
structure SockAddr where
  family : Nat
  port : Nat
  deriving DecidableEq, Repr

/-- `struct addrinfo`. -/
structure AddrInfo where
  family : Nat
  socktype : Nat
  protocol : Nat
  addr : SockAddr
  deriving DecidableEq, Repr

/-- An open socket of the process. -/
structure Socket where
  fd : Fd
  /-- `SO_REUSEPORT` is set. -/
  reusePort : Bool
  bound : Option SockAddr
  listening : Bool
  deriving DecidableEq, Repr

/-- What the calls of `start()` have left in the kernel and on the heap. -/
structure Net where
  sockets : List Socket
  /-- Address lists obtained, less those released: a second `freeaddrinfo` would show. -/
  addrLists : Int
  calls : Nat
  deriving DecidableEq, Repr

namespace Net

variable (net : Net) (fd : Fd)

def called : Net := { net with calls := net.calls + 1 }

/-- After `socket()`. -/
def opened : Net :=
  if fd < 0 then net.called
  else { net.called with sockets := ⟨fd, false, none, false⟩ :: net.sockets }

/-- Change the socket behind a descriptor. -/
def change (f : Socket → Socket) : Net :=
  { net.called with sockets := net.sockets.map (fun t => if t.fd = fd then f t else t) }

/-- `setsockopt`: `SO_REUSEADDR | SO_REUSEPORT` is `2 | 15`, which is `SO_REUSEPORT`. -/
def setReusePort : Net := net.change fd (fun t => { t with reusePort := true })

def bindTo (a : SockAddr) : Net := net.change fd (fun t => { t with bound := some a })

def listenOn : Net := net.change fd (fun t => { t with listening := true })

def close : Net := { net.called with sockets := net.sockets.filter (fun t => t.fd ≠ fd) }

/-- `concurrent_servers::close_fd`. -/
def closeFd : Net := if fd ≠ -1 then net.close fd else net

def freeaddrinfo : Net := { net with addrLists := net.addrLists - 1 }

end Net

/-- The answers of the kernel and of the resolver. -/
structure Kernel where
  /-- The addresses, or the text of `gai_strerror`. -/
  getaddrinfo : Net → String → Except String (List AddrInfo)
  socket : Net → AddrInfo → Bool → Fd
  bind : Net → Fd → SockAddr → Bool
  listen : Net → Fd → Nat → Bool
  epollCreate : Net → Fd
  epollAdd : Net → Fd → Fd → Bool

/-- The loop over the addresses: the bound descriptor, or `none` with `rp == nullptr`. -/
def bindFirst (k : Kernel) (isNonblock reusePort : Bool) : List AddrInfo → Net → Option Fd × Net
  | [], net => (none, net)
  | rp :: rest, net =>
      let serverSfd := k.socket net rp isNonblock
      let net := net.opened serverSfd
      -- `if (!server_sfd)` skips descriptor 0, and not a failed `socket()`
      if serverSfd = 0 then bindFirst k isNonblock reusePort rest net
      else
        let net := if reusePort then net.setReusePort serverSfd else net
        if k.bind net serverSfd rp.addr then (some serverSfd, net.bindTo serverSfd rp.addr)
        else bindFirst k isNonblock reusePort rest (net.called.closeFd serverSfd)

def setupServerTcpSocket (k : Kernel) (portNum : String) (backlog : Nat)
    (isNonblock reusePort : Bool) (net : Net) : Except String Fd × Net :=
  match k.getaddrinfo net portNum with
  | .error e => (.error ("getaddrinfo: " ++ e), net.called)
  | .ok result =>
      match bindFirst k isNonblock reusePort result
          { net.called with addrLists := net.addrLists + 1 } with
      | (none, net) => (.error "Could not bind", net)
      | (some serverSfd, net) =>
          let net := net.freeaddrinfo
          if k.listen net serverSfd backlog then (.ok serverSfd, net.listenOn serverSfd)
          else (.error ("Could not listen to port " ++ portNum), net.called.closeFd serverSfd)

/-- The constructor's arguments. -/
structure ServerArgs where
  portNum : String
  backlog : Nat
  workerNum : Nat
  reusePort : Bool

/-- A worker thread: its epoll instance, and the listener registered there. -/
structure Spawned where
  epollFd : Fd
  listener : Fd
  deriving DecidableEq, Repr

/-- Where `start()` stands. -/
structure Startup where
  net : Net
  serverSfd : Fd
  workers : List Spawned

/-- A listening socket in an epoll instance of its own. -/
def setupEpoll (k : Kernel) (args : ServerArgs) (st : Startup) : Except String (Startup × Fd) :=
  match setupServerTcpSocket k args.portNum args.backlog true false st.net with
  | (.error e, _) => .error e
  | (.ok serverSfd, net) =>
      let epollFd := k.epollCreate net
      if epollFd < 0 then .error "epoll_create1() failed"
      else if k.epollAdd net.called epollFd serverSfd then
        .ok ({ st with net := net.called.called, serverSfd := serverSfd }, epollFd)
      else .error "epoll_ctl() failed"

/-- The loop of `start()` with `reuse_port_`: a listener, an epoll instance and a thread each. -/
def startWorkers (k : Kernel) (args : ServerArgs) : Nat → Startup → Except String Startup
  | 0, st => .ok st
  | n + 1, st =>
      match setupEpoll k args st with
      | .error e => .error e
      | .ok (st, epollFd) =>
          startWorkers k args n { st with workers := st.workers ++ [⟨epollFd, st.serverSfd⟩] }

/-- `start()` up to the join loop. -/
def start (k : Kernel) (args : ServerArgs) (net : Net) : Except String Startup :=
  let st : Startup := ⟨net, -1, []⟩
  if args.reusePort then
    match startWorkers k args args.workerNum st with
    | .error e => .error e
    | .ok st =>
        match setupServerTcpSocket k args.portNum args.backlog true true st.net with
        | (.error e, _) => .error e
        | (.ok serverSfd, net) => .ok { st with net := net, serverSfd := serverSfd }
  else
    match setupEpoll k args st with
    | .error e => .error e
    | .ok (st, epollFd) =>
        .ok { st with workers := List.replicate args.workerNum ⟨epollFd, st.serverSfd⟩ }

end TcpServers
