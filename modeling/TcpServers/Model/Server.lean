import Mathlib.Data.List.AList
import Mathlib.Tactic.Simps.Basic
import TcpServers.Model.Connection

/-!
# The workers, the manager and epoll

Any number of workers around one `ConnectionDataManager`, each on its epoll
instance. A worker is at a statement of `Worker::start`, `acceptConnections`,
`handleConnectionEvent` or `closeConnection`; whose turn it is, and what the
kernel answers, is in the label.

What `closeConnection` gets is a reference to `conn_data->conn_fd_`. Storage that
`remove` has freed is any allocation's to take: `insert` makes a `ConnectionData` of it, a
string for the log writes anything there. So a read through the reference sees whatever
lives there by then. `Passing` says whether `conn_fd` is read that way or keeps the value
it had on entry.

Descriptors stand for open files. Which file an entry, an event or a statement
belongs to is history: no step looks at it.
-/

namespace TcpServers

open Lib

/-- Storage for a `ConnectionData`. -/
abbrev Addr := Nat

/-- An epoll instance. -/
abbrev Ep := Nat

/-- What an open descriptor stands for. -/
inductive File where
  | listener (ep : Ep)
  -- the connections are numbered as they are accepted
  | conn (c : Nat)
  deriving DecidableEq, Repr

def File.conn? : File → Option Nat
  | .listener _ => none
  | .conn c => some c

/-- What epoll keeps for a descriptor: the `epoll_event`, and whether it can fire. -/
structure Registration where
  mask : Events
  ptr : Option Addr
  armed : Bool
  deriving DecidableEq, Repr

/-- An element of `data_`: where the `ConnectionData` lives. -/
structure Entry where
  addr : Addr
  file : File
  deriving DecidableEq, Repr

/-- An element of `events_`, with the descriptor it was registered for. -/
structure Event where
  flags : Events
  ptr : Option Addr
  fd : Fd
  file : File
  deriving DecidableEq, Repr

/-- The statement of `closeConnection` that comes next. -/
inductive ClosePc where
  -- `if (conn_fd < 0)`
  | test
  -- `data_manager_.remove(conn_fd)`
  | remove
  -- `epoll_ctl(epoll_fd, EPOLL_CTL_DEL, conn_fd, nullptr)`
  | del
  -- `close(conn_fd)`
  | close
  -- `conn_fd = -1`
  | store
  deriving DecidableEq, Repr

/-- The statement of a worker that comes next. -/
inductive WorkerPc where
  | epollWait
  -- `for (int i{0}; i < nfds; ++i)`
  | loop
  -- `accept4(...)`
  | accept
  -- `data_manager_.insert(conn_fd)`
  | insert (fd : Fd) (c : Nat)
  -- `epoll_ctl(epoll_fd_, EPOLL_CTL_ADD, conn_fd, &event_)`
  | add (fd : Fd) (ptr : Option Addr) (c : Nat)
  | handle (ptr : Addr) (file : File) (pc : HandlerPc)
  -- `fd` is what `conn_fd` was on entry
  | close (ptr : Addr) (fd : Fd) (file : File) (pc : ClosePc)
  deriving DecidableEq, Repr

structure Worker where
  pc : WorkerPc
  /-- The part of `events_` not dispatched yet. -/
  batch : List Event
  errno : Errno

/-- `MAX_EVENTS`. -/
def maxEvents : Nat := 100000

/-- How `closeConnection` gets `conn_fd`; the code has `int &conn_fd`. -/
inductive Passing where
  | byReference
  | byValue
  deriving DecidableEq, Repr

/-- The mask a listening socket is registered with. -/
def listenMask : Events := { epollin := true, epollexclusive := true }

/-- What `start()` sets up before the workers run. -/
structure Config (ι : Type) where
  /-- The epoll instance of each worker; `server_sfd_` is the listener in it. -/
  epollFd : ι → Ep
  eps : List Ep
  listenFd : Ep → Fd
  listenPtr : Ep → Addr
  passing : Passing
  epollFd_mem : ∀ i, epollFd i ∈ eps
  nodup : eps.Nodup
  listenFd_inj : ∀ e ∈ eps, ∀ e' ∈ eps, listenFd e = listenFd e' → e = e'
  listenPtr_inj : ∀ e ∈ eps, ∀ e' ∈ eps, listenPtr e = listenPtr e' → e = e'

structure Server (ι : Type) where
  fdTable : Fd → Option File
  /-- `ConnectionDataManager::data_`. -/
  data : AList (fun _ : Fd => Entry)
  mem : Addr → ConnectionData
  interest : Ep → Fd → Option Registration
  worker : ι → Worker
  /-- History: how many connections were accepted. -/
  nextConn : Nat
  /-- History: how often a connection's descriptor was closed. -/
  closes : Nat → Nat
  /-- History: a `read()` with a non-zero count returned `0` with nothing unsent. -/
  eof : Nat → Bool

namespace ConnectionDataManager

/-- `insert`: the map, and the pointer returned. -/
def insert (data : AList (fun _ : Fd => Entry)) (fd : Fd) (e : Entry) :
    AList (fun _ : Fd => Entry) × Option Addr :=
  match data.lookup fd with
  | none => (data.insert fd e, some e.addr)
  | some _ => (data, none)

/-- `remove`. -/
def remove (data : AList (fun _ : Fd => Entry)) (fd : Fd) : AList (fun _ : Fd => Entry) :=
  data.erase fd

/-- The storage is that of an element of the map. -/
def Owns (data : AList (fun _ : Fd => Entry)) (a : Addr) : Prop :=
  ∃ fd e, data.lookup fd = some e ∧ e.addr = a

/-- `Owns`, as a search through the map. -/
def owns (data : AList (fun _ : Fd => Entry)) (a : Addr) : Bool :=
  data.entries.any (fun p => p.2.addr = a)

theorem owns_iff (data : AList (fun _ : Fd => Entry)) (a : Addr) :
    owns data a = true ↔ Owns data a := by
  simp only [owns, List.any_eq_true, decide_eq_true_eq]
  constructor
  · intro hex
    obtain ⟨⟨fd, e⟩, hmem, ha⟩ := hex
    exact ⟨fd, e, AList.mem_lookup_iff.mpr hmem, ha⟩
  · intro hex
    obtain ⟨fd, e, hl, ha⟩ := hex
    exact ⟨⟨fd, e⟩, AList.mem_lookup_iff.mp hl, ha⟩

end ConnectionDataManager

namespace Server

variable {ι : Type} [DecidableEq ι] (cfg : Config ι) (s : Server ι) (i : ι)

/-- All workers about to wait, the listeners open, in the manager and in epoll. -/
def start : Server ι where
  fdTable fd := (cfg.eps.find? (fun ep => cfg.listenFd ep = fd)).map .listener
  data := ⟨cfg.eps.map (fun ep => ⟨cfg.listenFd ep, cfg.listenPtr ep, .listener ep⟩), by
    rw [List.NodupKeys, List.keys, List.map_map]
    exact cfg.nodup.map_on (fun e he e' he' h => cfg.listenFd_inj e he e' he' h)⟩
  mem a := .new (((cfg.eps.find? (fun ep => cfg.listenPtr ep = a)).map cfg.listenFd).getD 0)
  interest ep fd :=
    if ep ∈ cfg.eps ∧ cfg.listenFd ep = fd then some ⟨listenMask, some (cfg.listenPtr ep), true⟩
    else none
  worker _ := ⟨.epollWait, [], .success⟩
  nextConn := 0
  closes _ := 0
  eof _ := false

/-! ## What a step changes -/

@[simps]
def setWorker (w : Worker) : Server ι := { s with worker := Function.update s.worker i w }

@[simps]
def setPc (pc : WorkerPc) : Server ι :=
  { s with worker := Function.update s.worker i { s.worker i with pc := pc } }

@[simps]
def setMem (a : Addr) (cd : ConnectionData) : Server ι :=
  { s with mem := Function.update s.mem a cd }

@[simps]
def setInterest (ep : Ep) (fd : Fd) (r : Option Registration) : Server ι :=
  { s with interest := fun e f => if e = ep ∧ f = fd then r else s.interest e f }

/-- The last descriptor of a file is closed: it leaves every epoll instance. -/
@[simps]
def closeFd (fd : Fd) : Server ι :=
  { s with
    fdTable := Function.update s.fdTable fd none
    interest := fun e f => if f = fd then none else s.interest e f
    closes := match s.fdTable fd with
      | some (.conn c) => Function.update s.closes c (s.closes c + 1)
      | _ => s.closes }

/-! ## The statements of a worker -/

/-- `epoll_wait` puts one more event into `events_`; a one-shot event disarms. -/
def deliver (fd : Fd) (flags : Events) : Option (Server ι) :=
  let w := s.worker i
  if w.pc = .epollWait ∧ w.batch.length < maxEvents then
    match s.interest (cfg.epollFd i) fd, s.fdTable fd with
    | some reg, some file =>
        if reg.armed then
          some ((s.setInterest (cfg.epollFd i) fd
              (some { reg with armed := !reg.mask.epolloneshot })).setWorker i
            { w with batch := w.batch ++ [⟨flags, reg.ptr, fd, file⟩] })
        else none
    | _, _ => none
  else none

/-- Where `Worker::start` goes with an event whose `data.ptr` is `p`. -/
def dispatched (ev : Event) (p : Addr) : WorkerPc :=
  if (s.mem p).connFd = cfg.listenFd (cfg.epollFd i) then .accept
  else
    match dispatch ev.flags with
    | .close => .close p (s.mem p).connFd ev.file .test
    | .skip => .loop
    | .handle => .handle p ev.file .testRead

/-- The next event of the batch; a null `data.ptr` cannot be dereferenced. -/
def take : Option (Server ι) :=
  let w := s.worker i
  match w.pc, w.batch with
  | .loop, [] => some (s.setPc i .epollWait)
  | .loop, ev :: rest =>
      ev.ptr.map (fun p => s.setWorker i { w with pc := s.dispatched cfg i ev p, batch := rest })
  | _, _ => none

/-- `accept4`: a descriptor that is not open, or an error. -/
def accept4 (r : Except Errno Fd) : Option (Server ι) :=
  let w := s.worker i
  match w.pc, r with
  | .accept, .ok fd =>
      if 0 ≤ fd ∧ s.fdTable fd = none then
        some ({ s with
          fdTable := Function.update s.fdTable fd (some (.conn s.nextConn))
          nextConn := s.nextConn + 1 }.setPc i (.insert fd s.nextConn))
      else none
  | .accept, .error e => some (s.setWorker i { w with pc := .loop, errno := e })
  | _, _ => none

/-- `data_manager_.insert(conn_fd)`, with the new `ConnectionData` in storage `a`. -/
def insert (a : Addr) : Option (Server ι) :=
  match (s.worker i).pc with
  | .insert fd c =>
      if ConnectionDataManager.owns s.data a then none
      else
        let r := ConnectionDataManager.insert s.data fd ⟨a, .conn c⟩
        some (({ s with data := r.1 }.setMem a (.new fd)).setPc i (.add fd r.2 c))
  | _ => none

/--
Any other allocation of the process, in whichever thread: `acceptConnections` makes one for
its log, `insert` makes more than one. It gets storage that no element of the map has, and
what is written there is not known. What the allocator itself writes to freed storage is
one of these.
-/
def allocate (a : Addr) (contents : ConnectionData) : Option (Server ι) :=
  if ConnectionDataManager.owns s.data a then none else some (s.setMem a contents)

/-- `epoll_ctl(EPOLL_CTL_ADD)`, and what follows it in the accept loop. -/
def epollAdd (failure : Option Errno) : Option (Server ι) :=
  let w := s.worker i
  match w.pc, failure with
  | .add fd ptr _, none =>
      if s.interest (cfg.epollFd i) fd = none ∧ s.fdTable fd ≠ none then
        some ((s.setInterest (cfg.epollFd i) fd (some ⟨acceptMask, ptr, true⟩)).setPc i .accept)
      else none
  | .add _ _ _, some e => some (s.setWorker i { w with pc := .loop, errno := e })
  | _, _ => none

/-- A `read()` with a non-zero count that returns `0` with nothing left to write. -/
def sawEnd (cd : ConnectionData) (pc : HandlerPc) (a : Answer) : Bool :=
  pc = .read ∧ a = .read (.data []) ∧ cd.readCount ≠ 0 ∧ cd.writeIndex = cd.readIndex

/-- The history of an end of stream on a connection. -/
def noteEnd (file : File) (cd : ConnectionData) (pc : HandlerPc) (a : Answer) : Nat → Bool :=
  match file with
  | .conn c => if sawEnd cd pc a then Function.update s.eof c true else s.eof
  | .listener _ => s.eof

/-- Where a worker goes from a statement of the handler. -/
def afterHandler (ptr : Addr) (file : File) : Option HandlerPc → WorkerPc
  | some pc => .handle ptr file pc
  | none => .loop

/-- A statement of `handleConnectionEvent` that leaves epoll alone. -/
@[simps]
def handled (ptr : Addr) (file : File) (pc : HandlerPc) (a : Answer) (out : HandlerOut) :
    Server ι :=
  { s with
    mem := Function.update s.mem ptr out.data
    worker := Function.update s.worker i
      { s.worker i with pc := afterHandler ptr file out.pc, errno := out.errno }
    eof := s.noteEnd file (s.mem ptr) pc a }

/-- A statement of `handleConnectionEvent`. `EPOLL_CTL_MOD` succeeds on a registration only. -/
def handle (a : Answer) : Option (Server ι) :=
  match (s.worker i).pc with
  | .handle ptr file pc =>
      (handlerStep pc (s.mem ptr) (s.worker i).errno a).bind (fun out =>
        match pc.rearm?, a with
        | some isRead, .epollCtl none =>
            (s.interest (cfg.epollFd i) (s.mem ptr).connFd).map (fun _ =>
              (s.handled i ptr file pc a out).setInterest (cfg.epollFd i) (s.mem ptr).connFd
                (some ⟨rearmMask isRead, some ptr, true⟩))
        | _, _ => some (s.handled i ptr file pc a out))
  | _ => none

/-- What a statement of `closeConnection` reads as `conn_fd`. -/
def connFd (ptr : Addr) (fd : Fd) : Fd :=
  match cfg.passing with
  | .byReference => (s.mem ptr).connFd
  | .byValue => fd

/-- `conn_fd = -1`: through the reference, or to the parameter only. -/
@[simps]
def storeClosed (ptr : Addr) : Server ι :=
  { s with
    mem := match cfg.passing with
      | .byReference => Function.update s.mem ptr { s.mem ptr with connFd := -1 }
      | .byValue => s.mem }

/-- A statement of `closeConnection`; what `epoll_ctl` returns is not looked at. -/
def closeConnection : Option (Server ι) :=
  match (s.worker i).pc with
  | .close ptr fd file .test =>
      some (s.setPc i (if s.connFd cfg ptr fd < 0 then .loop else .close ptr fd file .remove))
  | .close ptr fd file .remove =>
      some ({ s with data := ConnectionDataManager.remove s.data (s.connFd cfg ptr fd) }.setPc i
        (.close ptr fd file .del))
  | .close ptr fd file .del =>
      some ((s.setInterest (cfg.epollFd i) (s.connFd cfg ptr fd) none).setPc i
        (.close ptr fd file .close))
  | .close ptr fd file .close =>
      some ((s.closeFd (s.connFd cfg ptr fd)).setPc i (.close ptr fd file .store))
  | .close ptr _ _ .store => some ((s.storeClosed cfg ptr).setPc i .loop)
  | _ => none

/-- What happens at a step, as far as the worker does not decide it. -/
inductive Act where
  | deliver (fd : Fd) (flags : Events)
  -- `epoll_wait` returns
  | wake
  | take
  | accept4 (r : Except Errno Fd)
  -- the storage `make_shared` gets
  | insert (a : Addr)
  -- the storage of a string for the log, say
  | allocate (a : Addr) (contents : ConnectionData)
  | epollAdd (failure : Option Errno)
  | handle (a : Answer)
  | closeConnection

/-- The storage that an allocation gets. -/
def Act.takes : Act → Option Addr
  | .insert a => some a
  | .allocate a _ => some a
  | _ => none

/-- A step of worker `i`, or an allocation. -/
def next : ι × Act → Option (Server ι)
  | (i, .deliver fd flags) => s.deliver cfg i fd flags
  | (i, .wake) =>
      if (s.worker i).pc = .epollWait ∧ (s.worker i).batch ≠ [] then some (s.setPc i .loop)
      else none
  | (i, .take) => s.take cfg i
  | (i, .accept4 r) => s.accept4 i r
  | (i, .insert a) => s.insert i a
  | (_, .allocate a contents) => s.allocate a contents
  | (i, .epollAdd failure) => s.epollAdd cfg i failure
  | (i, .handle a) => s.handle cfg i a
  | (i, .closeConnection) => s.closeConnection cfg i

def machine : Machine (Server ι) (ι × Act) where
  init s := s = start cfg
  next := next cfg

/-! ## One epoll instance for all workers -/

/-- `start()` with `reuse_port_ = false`: `n` workers on the one listener, descriptor `3`. -/
def shared (n : Nat) (passing : Passing) : Config (Fin n) where
  epollFd _ := 0
  eps := [0]
  listenFd _ := 3
  listenPtr _ := 0
  passing := passing
  epollFd_mem _ := List.mem_singleton.mpr rfl
  nodup := by decide
  listenFd_inj := by decide
  listenPtr_inj := by decide

/-- A worker accepts a connection: the descriptor and the storage it gets. -/
def acceptOne {n : Nat} (i : Fin n) (fd : Fd) (a : Addr) : List (Fin n × Act) :=
  [(i, .deliver 3 { epollin := true }), (i, .wake), (i, .take), (i, .accept4 (.ok fd)),
    (i, .insert a), (i, .epollAdd none), (i, .accept4 (.error .eagain)), (i, .take)]

/-- The first of two workers. -/
abbrev worker0 : Fin 2 := 0

/-- The second of two workers. -/
abbrev worker1 : Fin 2 := 1

/-- The peer half-closes: the read returns `0` and the worker goes back to wait. -/
def halfClosed : List (Fin 2 × Act) :=
  acceptOne worker0 7 1
    ++ [(worker0, .deliver 7 { epollin := true }), (worker0, .wake), (worker0, .take),
      (worker0, .handle .quiet), (worker0, .handle (.read (.data []))), (worker0, .handle .quiet),
      (worker0, .take)]

/-! ## The steps -/

/-- Everything a step of worker `i` can do. -/
inductive Step : Act → Server ι → Prop where
  | deliver {fd : Fd} {flags : Events} {reg : Registration} {file : File}
      (hpc : (s.worker i).pc = .epollWait) (hreg : s.interest (cfg.epollFd i) fd = some reg)
      (hfile : s.fdTable fd = some file) (harmed : reg.armed = true) :
      Step (.deliver fd flags)
        ((s.setInterest (cfg.epollFd i) fd
            (some { reg with armed := !reg.mask.epolloneshot })).setWorker i
          { s.worker i with batch := (s.worker i).batch ++ [⟨flags, reg.ptr, fd, file⟩] })
  | wake (hpc : (s.worker i).pc = .epollWait) : Step .wake (s.setPc i .loop)
  | endBatch (hpc : (s.worker i).pc = .loop) (hbatch : (s.worker i).batch = []) :
      Step .take (s.setPc i .epollWait)
  | take {ev : Event} {rest : List Event} {p : Addr} (hpc : (s.worker i).pc = .loop)
      (hbatch : (s.worker i).batch = ev :: rest) (hptr : ev.ptr = some p) :
      Step .take
        (s.setWorker i { s.worker i with pc := s.dispatched cfg i ev p, batch := rest })
  | accepted {fd : Fd} (hpc : (s.worker i).pc = .accept) (hnonneg : 0 ≤ fd)
      (hfresh : s.fdTable fd = none) :
      Step (.accept4 (.ok fd))
        ({ s with
          fdTable := Function.update s.fdTable fd (some (.conn s.nextConn))
          nextConn := s.nextConn + 1 }.setPc i (.insert fd s.nextConn))
  | acceptFailed {e : Errno} (hpc : (s.worker i).pc = .accept) :
      Step (.accept4 (.error e)) (s.setWorker i { s.worker i with pc := .loop, errno := e })
  | inserted {a : Addr} {fd : Fd} {c : Nat} (hpc : (s.worker i).pc = .insert fd c)
      (hfree : ¬ ConnectionDataManager.Owns s.data a) (hnew : s.data.lookup fd = none) :
      Step (.insert a)
        (({ s with data := s.data.insert fd ⟨a, .conn c⟩ }.setMem a (.new fd)).setPc i
          (.add fd (some a) c))
  | insertedNull {a : Addr} {fd : Fd} {c : Nat} (hpc : (s.worker i).pc = .insert fd c)
      (hfree : ¬ ConnectionDataManager.Owns s.data a) (hold : s.data.lookup fd ≠ none) :
      Step (.insert a) ((s.setMem a (.new fd)).setPc i (.add fd none c))
  | allocated {a : Addr} {contents : ConnectionData}
      (hfree : ¬ ConnectionDataManager.Owns s.data a) :
      Step (.allocate a contents) (s.setMem a contents)
  | added {fd : Fd} {ptr : Option Addr} {c : Nat} (hpc : (s.worker i).pc = .add fd ptr c)
      (hnew : s.interest (cfg.epollFd i) fd = none) (hopen : s.fdTable fd ≠ none) :
      Step (.epollAdd none)
        ((s.setInterest (cfg.epollFd i) fd (some ⟨acceptMask, ptr, true⟩)).setPc i .accept)
  | addFailed {fd : Fd} {ptr : Option Addr} {c : Nat} {e : Errno}
      (hpc : (s.worker i).pc = .add fd ptr c) :
      Step (.epollAdd (some e)) (s.setWorker i { s.worker i with pc := .loop, errno := e })
  | handled {ptr : Addr} {file : File} {pc : HandlerPc} {a : Answer} {out : HandlerOut}
      (hpc : (s.worker i).pc = .handle ptr file pc)
      (hstep : HandlerStep (s.mem ptr) (s.worker i).errno pc a out)
      (hmod : pc.rearm? = none ∨ a ≠ .epollCtl none) :
      Step (.handle a) (s.handled i ptr file pc a out)
  | rearmed {ptr : Addr} {file : File} {pc : HandlerPc} {out : HandlerOut} {isRead : Bool}
      {reg : Registration} (hpc : (s.worker i).pc = .handle ptr file pc)
      (hstep : HandlerStep (s.mem ptr) (s.worker i).errno pc (.epollCtl none) out)
      (hrearm : pc.rearm? = some isRead)
      (hreg : s.interest (cfg.epollFd i) (s.mem ptr).connFd = some reg) :
      Step (.handle (.epollCtl none))
        ((s.handled i ptr file pc (.epollCtl none) out).setInterest (cfg.epollFd i)
          (s.mem ptr).connFd (some ⟨rearmMask isRead, some ptr, true⟩))
  | closeNegative {ptr : Addr} {fd : Fd} {file : File}
      (hpc : (s.worker i).pc = .close ptr fd file .test) (hneg : s.connFd cfg ptr fd < 0) :
      Step .closeConnection (s.setPc i .loop)
  | closeTest {ptr : Addr} {fd : Fd} {file : File}
      (hpc : (s.worker i).pc = .close ptr fd file .test) (hnonneg : 0 ≤ s.connFd cfg ptr fd) :
      Step .closeConnection (s.setPc i (.close ptr fd file .remove))
  | closeRemove {ptr : Addr} {fd : Fd} {file : File}
      (hpc : (s.worker i).pc = .close ptr fd file .remove) :
      Step .closeConnection
        ({ s with data := ConnectionDataManager.remove s.data (s.connFd cfg ptr fd) }.setPc i
          (.close ptr fd file .del))
  | closeDel {ptr : Addr} {fd : Fd} {file : File}
      (hpc : (s.worker i).pc = .close ptr fd file .del) :
      Step .closeConnection
        ((s.setInterest (cfg.epollFd i) (s.connFd cfg ptr fd) none).setPc i
          (.close ptr fd file .close))
  | closeClose {ptr : Addr} {fd : Fd} {file : File}
      (hpc : (s.worker i).pc = .close ptr fd file .close) :
      Step .closeConnection
        ((s.closeFd (s.connFd cfg ptr fd)).setPc i (.close ptr fd file .store))
  | closeStore {ptr : Addr} {fd : Fd} {file : File}
      (hpc : (s.worker i).pc = .close ptr fd file .store) :
      Step .closeConnection ((s.storeClosed cfg ptr).setPc i .loop)

variable {cfg s i}

theorem handle_cases {a : Answer} {s' : Server ι} (h : s.handle cfg i a = some s') :
    Step cfg s i (.handle a) s' := by
  unfold handle at h
  split at h
  · rename_i ptr file pc hpc
    obtain ⟨out, hout, hs⟩ := Option.bind_eq_some_iff.mp h
    have hstep := handlerStep_cases hout
    cases hr : pc.rearm? with
    | none =>
        rw [hr] at hs
        cases hs
        exact .handled hpc hstep (Or.inl hr)
    | some isRead =>
        rw [hr] at hs
        by_cases ha : a = .epollCtl none
        · subst ha
          obtain ⟨reg, hreg, rfl⟩ := Option.map_eq_some_iff.mp hs
          exact .rearmed hpc hstep hr hreg
        · split at hs
          · exact absurd rfl ha
          · cases hs
            exact .handled hpc hstep (Or.inr ha)
  · exact absurd h (by simp)

theorem closeConnection_cases {s' : Server ι} (h : s.closeConnection cfg i = some s') :
    Step cfg s i .closeConnection s' := by
  unfold closeConnection at h
  split at h
  · rename_i ptr fd file hpc
    cases h
    split
    · rename_i hneg; exact .closeNegative hpc hneg
    · rename_i hneg; exact .closeTest hpc (Int.not_lt.mp hneg)
  · rename_i hpc; cases h; exact .closeRemove hpc
  · rename_i hpc; cases h; exact .closeDel hpc
  · rename_i hpc; cases h; exact .closeClose hpc
  · rename_i hpc; cases h; exact .closeStore hpc
  · exact absurd h (by simp)

theorem allocate_cases {a : Addr} {contents : ConnectionData} {s' : Server ι}
    (h : s.allocate a contents = some s') : Step cfg s i (.allocate a contents) s' := by
  unfold allocate at h
  split at h
  · exact absurd h (by simp)
  · rename_i howns
    cases h
    exact .allocated fun ho => howns ((ConnectionDataManager.owns_iff s.data a).mpr ho)

theorem accepting_cases {act : Act} {s' : Server ι} (h : s.next cfg (i, act) = some s')
    (hact : (∃ r, act = .accept4 r) ∨ (∃ a, act = .insert a) ∨ ∃ f, act = .epollAdd f) :
    Step cfg s i act s' := by
  rcases hact with ⟨r, rfl⟩ | ⟨a, rfl⟩ | ⟨f, rfl⟩
  · simp only [next, accept4] at h
    split at h
    · split at h
      · rename_i hpc hok
        cases h
        exact .accepted hpc hok.1 hok.2
      · exact absurd h (by simp)
    · rename_i hpc; cases h; exact .acceptFailed hpc
    · exact absurd h (by simp)
  · simp only [next, insert] at h
    split at h
    · rename_i fd c hpc
      split at h
      · exact absurd h (by simp)
      · rename_i howns
        have hfree : ¬ ConnectionDataManager.Owns s.data a :=
          fun ho => howns ((ConnectionDataManager.owns_iff s.data a).mpr ho)
        cases h
        cases hl : s.data.lookup fd with
        | none =>
            simp only [ConnectionDataManager.insert, hl]
            exact .inserted hpc hfree hl
        | some e =>
            simp only [ConnectionDataManager.insert, hl]
            exact .insertedNull hpc hfree (by simp [hl])
    · exact absurd h (by simp)
  · simp only [next, epollAdd] at h
    split at h
    · split at h
      · rename_i hpc hok
        cases h
        exact .added hpc hok.1 hok.2
      · exact absurd h (by simp)
    · rename_i hpc; cases h; exact .addFailed hpc
    · exact absurd h (by simp)

/-- **A step of the code is one of the listed ones.** -/
theorem next_cases {act : Act} {s' : Server ι} (h : s.next cfg (i, act) = some s') :
    Step cfg s i act s' := by
  cases act with
  | deliver fd flags =>
      simp only [next, deliver] at h
      split at h
      · rename_i hpc
        split at h
        · rename_i hreg hfile
          split at h
          · rename_i harmed
            cases h
            exact .deliver hpc.1 hreg hfile harmed
          · exact absurd h (by simp)
        · exact absurd h (by simp)
      · exact absurd h (by simp)
  | wake =>
      simp only [next] at h
      split at h
      · rename_i hpc; cases h; exact .wake hpc.1
      · exact absurd h (by simp)
  | take =>
      simp only [next, take] at h
      split at h
      · rename_i hpc hbatch; cases h; exact .endBatch hpc hbatch
      · rename_i hpc hbatch
        obtain ⟨p, hp, rfl⟩ := Option.map_eq_some_iff.mp h
        exact .take hpc hbatch hp
      · exact absurd h (by simp)
  | accept4 r => exact accepting_cases h (Or.inl ⟨r, rfl⟩)
  | insert a => exact accepting_cases h (Or.inr (Or.inl ⟨a, rfl⟩))
  | allocate a contents => exact allocate_cases h
  | epollAdd f => exact accepting_cases h (Or.inr (Or.inr ⟨f, rfl⟩))
  | handle a => exact handle_cases h
  | closeConnection => exact closeConnection_cases h

end Server

end TcpServers
