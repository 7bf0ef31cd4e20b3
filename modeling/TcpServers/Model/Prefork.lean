import TcpServers.Model.EpollLoop
import TcpServers.Model.ServerSetup

/-!
# The pre-forking server

`linux_concurrent_server::start`, and the `main` it was taken from: a master forks the
workers, and each sets up a listening socket, an epoll instance and an event loop of its
own. They share one thing, the port. A kernel gives it to a second socket only if that one
and every socket that has it already had `SO_REUSEPORT` set, and hands each connection to
one of the sockets that listen on it.

`epoll_event_loop` is left by an exception only, so a worker never gets to the `wait()`
behind it, nor to the next round of the master's loop.

The class `file_descriptor` is not part of the source. It is taken as a plain holder of a
number, whose destructor does not close that.
-/

namespace TcpServers

open Lib

namespace Prefork

structure Config where
  /-- `_worker_process_num`, as `atoi` made it. -/
  workerProcessNum : Int
  /-- The sockets other programs have. -/
  foreign : List Socket

/-- Where the master is. -/
inductive MasterPc where
  -- `fork()`, or the end of the loop
  | fork (i : Nat)
  -- out of `start()`, and of `main`
  | returned
  -- nobody catches "Failed to fork worker processes"
  | terminated
  deriving DecidableEq, Repr

/-- What a worker caught. -/
inductive WorkerError where
  | setup (e : SetupError)
  -- "epoll_create1() failed"
  | epollCreate
  -- "epoll_ctl() failed"
  | epollCtl
  -- one of those the event loop throws
  | eventLoop
  deriving DecidableEq, Repr

/-- Where a worker is. -/
inductive WorkerPc where
  | setup (pc : SetupPc)
  | epollCreate (serverSfd : Fd)
  -- `epoll_ctl(EPOLL_CTL_ADD)` of the listener
  | epollAdd (serverSfd epollFd : Fd)
  | eventLoop (cfg : EpollLoop.Config) (loop : EpollLoop)
  -- the `catch` block: `server_sfd.close_fd()`
  | caught (serverSfd : Fd) (e : WorkerError)
  -- `exit(EXIT_FAILURE)`
  | exit
  | exited

structure Worker where
  net : Net
  pc : WorkerPc
  /-- The connections at the listener that no event loop knows of. -/
  queued : Nat
  /-- History: how many connections the kernel gave to the listener. -/
  arrived : Nat

/-- What happens to a worker. -/
inductive WorkerAct where
  -- a statement up to the event loop, or after it
  | call (a : SetupAnswer)
  | eventLoop (l : EpollLoop.Label)
  -- the kernel gives it a connection
  | arrive

namespace Worker

/-- At the `try`. -/
def start : Worker where
  net := ⟨[], 0, 0⟩
  pc := .setup .getaddrinfo
  queued := 0
  arrived := 0

variable (wk : Worker)

/-- A statement outside of the event loop. -/
def call (a : SetupAnswer) : Option Worker :=
  match wk.pc, a with
  | .setup (.returned fd), .quiet => some { wk with pc := .epollCreate fd }
  -- `server_sfd` has not been assigned
  | .setup (.thrown e), .quiet => some { wk with pc := .caught (-1) (.setup e) }
  | .setup pc, a =>
      (setupStep true wk.net pc a).map (fun r => { wk with pc := .setup r.1, net := r.2 })
  | .epollCreate serverSfd, .fd epollFd =>
      if 0 ≤ epollFd ∧ wk.net.isOpen epollFd then none
      else some { wk with
        pc := if epollFd < 0 then .caught serverSfd .epollCreate
          else .epollAdd serverSfd epollFd }
  | .epollAdd serverSfd _, .done false => some { wk with pc := .caught serverSfd .epollCtl }
  | .epollAdd serverSfd _, .done true =>
      let cfg : EpollLoop.Config := ⟨.linuxConcurrentServer, serverSfd, wk.queued⟩
      some { wk with pc := .eventLoop cfg (EpollLoop.start cfg), queued := 0 }
  | .caught serverSfd _, .quiet =>
      -- with the listener go the connections it had
      some { wk with net := wk.net.closeFd serverSfd, pc := .exit, queued := 0 }
  | .exit, .quiet => some { wk with net := { wk.net with sockets := [] }, pc := .exited }
  | _, _ => none

/-- A statement of the event loop; the exception that leaves it is caught at once. -/
def eventLoop (l : EpollLoop.Label) : Option Worker :=
  match wk.pc with
  | .eventLoop cfg loop =>
      (loop.next cfg l).map (fun loop' =>
        if loop'.pc = .thrown then
          { wk with pc := .caught cfg.serverSfd .eventLoop, queued := loop'.acceptQueue }
        else { wk with pc := .eventLoop cfg loop' })
  | _ => none

/-- A connection, where the worker listens. -/
def arrive : Option Worker :=
  if wk.net.sockets.any Socket.listening then
    match wk.pc with
    | .eventLoop cfg loop =>
        (loop.next cfg .arrive).map (fun loop' =>
          { wk with pc := .eventLoop cfg loop', arrived := wk.arrived + 1 })
    | _ => some { wk with queued := wk.queued + 1, arrived := wk.arrived + 1 }
  else none

def next : WorkerAct → Option Worker
  | .call a => wk.call a
  | .eventLoop .arrive => none
  | .eventLoop l => wk.eventLoop l
  | .arrive => wk.arrive

/-- A worker by itself. -/
def machine : Machine Worker WorkerAct where
  init wk := wk = start
  next := next

end Worker

end Prefork

/-- The master, and the workers in the order they were forked in. -/
structure Prefork where
  master : Prefork.MasterPc
  worker : Nat → Option Prefork.Worker
  /-- How many there are. -/
  forked : Nat

namespace Prefork

variable (cfg : Config)

def start : Prefork where
  master := .fork 0
  worker _ := none
  forked := 0

inductive Label where
  -- `true` for a child's pid and for the `0` in the child, `false` for `-1`
  | fork (ok : Bool)
  -- the master's loop is over
  | returns
  | worker (w : Nat) (a : WorkerAct)

/-- A socket is bound to a port. -/
def holds (t : Socket) (port : Nat) : Bool := t.bound.any (fun a => a.port = port)

variable (s : Prefork)

/-- The sockets a worker has open. -/
def sockets (w : Nat) : List Socket := ((s.worker w).map (fun wk => wk.net.sockets)).getD []

/-- A worker's socket has `SO_REUSEPORT` set. -/
def shares (w : Nat) (fd : Fd) : Prop := ∀ t ∈ s.sockets w, t.fd = fd → t.reusePort = true

instance (w : Nat) (fd : Fd) : Decidable (s.shares w fd) :=
  inferInstanceAs (Decidable (∀ _ ∈ _, _))

/--
A worker's socket can have the port: every other socket that has it had `SO_REUSEPORT`
set, and this one has it set too.
-/
def MayBind (w : Nat) (fd : Fd) (port : Nat) : Prop :=
  (∀ t ∈ cfg.foreign, holds t port → t.reusePort = true ∧ s.shares w fd)
    ∧ ∀ v < s.forked, ∀ t ∈ s.sockets v, (v = w → t.fd ≠ fd) → holds t port →
        t.reusePort = true ∧ s.shares w fd

instance (w : Nat) (fd : Fd) (port : Nat) : Decidable (s.MayBind cfg w fd port) :=
  inferInstanceAs (Decidable (_ ∧ _))

/-- What `bind()` may answer a worker, given what the others have. -/
def Answers (w : Nat) : WorkerPc → WorkerAct → Prop
  | .setup (.bind fd rp _), .call (.bind .bound) => s.MayBind cfg w fd rp.addr.port
  | .setup (.bind fd rp _), .call (.bind .addrInUse) => ¬ s.MayBind cfg w fd rp.addr.port
  | _, _ => True

instance (w : Nat) (pc : WorkerPc) (a : WorkerAct) : Decidable (s.Answers cfg w pc a) := by
  unfold Answers
  split <;> infer_instance

/-- `fork()`, in the master. -/
def fork (ok : Bool) : Option Prefork :=
  match s.master with
  | .fork i =>
      if i < cfg.workerProcessNum then
        some (if ok then
          { s with
            master := .fork (i + 1)
            worker := Function.update s.worker s.forked (some Worker.start)
            forked := s.forked + 1 }
        else { s with master := .terminated })
      else none
  | _ => none

/-- A step of one of the workers. -/
def stepWorker (w : Nat) (a : WorkerAct) : Option Prefork :=
  (s.worker w).bind (fun wk =>
    if s.Answers cfg w wk.pc a then
      (wk.next a).map (fun wk' => { s with worker := Function.update s.worker w (some wk') })
    else none)

def next : Label → Option Prefork
  | .fork ok => s.fork cfg ok
  | .returns =>
      match s.master with
      | .fork i => if i < cfg.workerProcessNum then none else some { s with master := .returned }
      | _ => none
  | .worker w a => s.stepWorker cfg w a

def machine : Machine Prefork Label where
  init s := s = start
  next := next cfg

/-! ## The steps -/

/-- Everything that can happen to a worker. -/
inductive WorkerStep (wk : Worker) : WorkerAct → Worker → Prop where
  | setup {pc pc' : SetupPc} {net : Net} {a : SetupAnswer} (hpc : wk.pc = .setup pc)
      (hstep : SetupStep true wk.net pc a pc' net) :
      WorkerStep wk (.call a) { wk with pc := .setup pc', net := net }
  | returned {fd : Fd} (hpc : wk.pc = .setup (.returned fd)) :
      WorkerStep wk (.call .quiet) { wk with pc := .epollCreate fd }
  | thrown {e : SetupError} (hpc : wk.pc = .setup (.thrown e)) :
      WorkerStep wk (.call .quiet) { wk with pc := .caught (-1) (.setup e) }
  | notCreated {fd epollFd : Fd} (hpc : wk.pc = .epollCreate fd) :
      WorkerStep wk (.call (.fd epollFd)) { wk with pc := .caught fd .epollCreate }
  | created {fd epollFd : Fd} (hpc : wk.pc = .epollCreate fd) :
      WorkerStep wk (.call (.fd epollFd)) { wk with pc := .epollAdd fd epollFd }
  | notAdded {fd epollFd : Fd} (hpc : wk.pc = .epollAdd fd epollFd) :
      WorkerStep wk (.call (.done false)) { wk with pc := .caught fd .epollCtl }
  | added {fd epollFd : Fd} (hpc : wk.pc = .epollAdd fd epollFd) :
      WorkerStep wk (.call (.done true))
        { wk with
          pc := .eventLoop ⟨.linuxConcurrentServer, fd, wk.queued⟩
            (EpollLoop.start ⟨.linuxConcurrentServer, fd, wk.queued⟩)
          queued := 0 }
  | caught {fd : Fd} {e : WorkerError} (hpc : wk.pc = .caught fd e) :
      WorkerStep wk (.call .quiet)
        { wk with net := wk.net.closeFd fd, pc := .exit, queued := 0 }
  | exit (hpc : wk.pc = .exit) :
      WorkerStep wk (.call .quiet) { wk with net := { wk.net with sockets := [] }, pc := .exited }
  | loop {cfg : EpollLoop.Config} {loop loop' : EpollLoop} {l : EpollLoop.Label}
      (hpc : wk.pc = .eventLoop cfg loop) (hl : l ≠ .arrive) (hnext : loop.next cfg l = some loop')
      (hpc' : loop'.pc ≠ .thrown) :
      WorkerStep wk (.eventLoop l) { wk with pc := .eventLoop cfg loop' }
  | loopThrew {cfg : EpollLoop.Config} {loop loop' : EpollLoop} {l : EpollLoop.Label}
      (hpc : wk.pc = .eventLoop cfg loop) (hl : l ≠ .arrive) (hnext : loop.next cfg l = some loop')
      (hpc' : loop'.pc = .thrown) :
      WorkerStep wk (.eventLoop l)
        { wk with pc := .caught cfg.serverSfd .eventLoop, queued := loop'.acceptQueue }
  | arriveLoop {cfg : EpollLoop.Config} {loop loop' : EpollLoop}
      (hpc : wk.pc = .eventLoop cfg loop) (hnext : loop.next cfg .arrive = some loop') :
      WorkerStep wk .arrive
        { wk with pc := .eventLoop cfg loop', arrived := wk.arrived + 1 }
  | arrive (hpc : ∀ cfg loop, wk.pc ≠ .eventLoop cfg loop)
      (hlisten : ∃ t ∈ wk.net.sockets, t.listening = true) :
      WorkerStep wk .arrive { wk with queued := wk.queued + 1, arrived := wk.arrived + 1 }

/-- Everything a step can do. -/
inductive Step : Label → Prefork → Prop where
  | forked {i : Nat} (hmaster : s.master = .fork i) (hi : i < cfg.workerProcessNum) :
      Step (.fork true)
        { s with
          master := .fork (i + 1)
          worker := Function.update s.worker s.forked (some Worker.start)
          forked := s.forked + 1 }
  | forkFailed {i : Nat} (hmaster : s.master = .fork i) :
      Step (.fork false) { s with master := .terminated }
  | returns {i : Nat} (hmaster : s.master = .fork i) (hi : cfg.workerProcessNum ≤ i) :
      Step .returns { s with master := .returned }
  | worker {w : Nat} {wk wk' : Worker} {a : WorkerAct} (hw : s.worker w = some wk)
      (hanswers : s.Answers cfg w wk.pc a) (hnext : wk.next a = some wk') :
      Step (.worker w a) { s with worker := Function.update s.worker w (some wk') }

variable {cfg s}

theorem Worker.call_cases {wk wk' : Worker} {a : SetupAnswer} (h : wk.call a = some wk') :
    WorkerStep wk (.call a) wk' := by
  unfold Worker.call at h
  split at h
  · rename_i hpc; cases h; exact .returned hpc
  · rename_i hpc; cases h; exact .thrown hpc
  · rename_i hpc _ _
    obtain ⟨⟨pc', net⟩, hr, rfl⟩ := Option.map_eq_some_iff.mp h
    exact .setup hpc (setupStep_cases hr)
  · rename_i hpc
    split at h
    · exact absurd h (by simp)
    · cases h
      split
      · exact .notCreated hpc
      · exact .created hpc
  · rename_i hpc; cases h; exact .notAdded hpc
  · rename_i hpc; cases h; exact .added hpc
  · rename_i hpc; cases h; exact .caught hpc
  · rename_i hpc; cases h; exact .exit hpc
  · exact absurd h (by simp)

theorem Worker.eventLoop_cases {wk wk' : Worker} {l : EpollLoop.Label} (hl : l ≠ .arrive)
    (h : wk.eventLoop l = some wk') : WorkerStep wk (.eventLoop l) wk' := by
  unfold Worker.eventLoop at h
  split at h
  · rename_i hpc
    obtain ⟨loop', hnext, rfl⟩ := Option.map_eq_some_iff.mp h
    split
    · rename_i hthrown
      exact .loopThrew hpc hl hnext hthrown
    · rename_i hgoes
      exact .loop hpc hl hnext hgoes
  · exact absurd h (by simp)

theorem Worker.arrive_cases {wk wk' : Worker} (h : wk.arrive = some wk') :
    WorkerStep wk .arrive wk' := by
  unfold Worker.arrive at h
  split at h
  · rename_i hlisten
    split at h
    · rename_i hpc
      obtain ⟨loop', hnext, rfl⟩ := Option.map_eq_some_iff.mp h
      exact .arriveLoop hpc hnext
    · rename_i hpc
      cases h
      exact .arrive hpc (List.any_eq_true.mp hlisten)
  · exact absurd h (by simp)

/-- **What happens to a worker is one of the listed things.** -/
theorem Worker.next_cases {wk wk' : Worker} {a : WorkerAct} (h : wk.next a = some wk') :
    WorkerStep wk a wk' := by
  unfold Worker.next at h
  split at h
  · exact Worker.call_cases h
  · exact absurd h (by simp)
  · rename_i hl
    exact Worker.eventLoop_cases hl h
  · exact Worker.arrive_cases h

/-- **A step of the code is one of the listed ones.** -/
theorem next_cases {l : Label} {s' : Prefork} (h : s.next cfg l = some s') : Step cfg s l s' := by
  cases l with
  | fork ok =>
      simp only [next, fork] at h
      split at h
      · rename_i hmaster
        split at h
        · rename_i hi
          cases ok <;> cases h
          · exact .forkFailed hmaster
          · exact .forked hmaster hi
        · exact absurd h (by simp)
      · exact absurd h (by simp)
  | returns =>
      simp only [next] at h
      split at h
      · rename_i hmaster
        split at h
        · exact absurd h (by simp)
        · rename_i hi
          cases h
          exact .returns hmaster (Int.not_lt.mp hi)
      · exact absurd h (by simp)
  | worker w a =>
      obtain ⟨wk, hw, h⟩ := Option.bind_eq_some_iff.mp h
      split at h
      · rename_i hanswers
        obtain ⟨wk', hnext, rfl⟩ := Option.map_eq_some_iff.mp h
        exact .worker hw hanswers hnext
      · exact absurd h (by simp)

end Prefork

end TcpServers
