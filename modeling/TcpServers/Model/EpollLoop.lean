import Mathlib.Logic.Function.Basic
import TcpServers.Lib.Machine
import TcpServers.Model.Posix

/-!
# The two event loops around one listener

`concurrent_servers::epoll_event_loop` of the edge-triggered server, and the member
of `linux_concurrent_server` that each of its worker processes runs on an epoll
instance and a listener of its own. They are the same loop but for what they do with
a chunk, and with the end of a stream: the first leaves the drain loop there, the
second hands an empty chunk to `_read_handler` and reads on.

Connections arrive at the listener at any moment. The registration of the listener is
edge-triggered: an arrival queues an edge unless one is there already, and the edge is
gone once its event has been fetched. The clients' registrations are one-shot.

The class `file_descriptor` is not part of the source. It is taken as a plain holder of a
number: `close_fd` closes that, its destructor does not.

The connections are numbered as they are accepted. Which one a descriptor is, which
were added to epoll and closed, and the chunks passed on are history.
-/

namespace TcpServers

open Lib

/-- Which of the two loops. -/
inductive LoopVariant where
  | concurrentServers
  | linuxConcurrentServer
  deriving DecidableEq, Repr

/-- The mask the listening socket is registered with. -/
def listenerMask : Events := { epollin := true, epollet := true }

/-- The mask a client is registered with, and re-armed with. -/
def clientMask : Events :=
  { epollin := true, epollrdhup := true, epollet := true, epolloneshot := true }

/-- A registration: its mask, and whether it can fire. -/
structure Interest where
  mask : Events
  armed : Bool
  deriving DecidableEq, Repr

/-- An element of `events`. -/
structure LoopEvent where
  flags : Events
  fd : Fd
  deriving DecidableEq, Repr

/-- The statement of the loop that comes next. -/
inductive LoopPc where
  -- `epoll_wait(...)`
  | epollWait
  -- `for (int i{0}; i < nfds; ++i)`
  | loop
  -- `epoll_ctl(EPOLL_CTL_DEL)` on `EPOLLRDHUP`
  | del (fd : Fd)
  -- `close(events[i].data.fd)`
  | close (fd : Fd)
  -- `accept4(...)`
  | accept
  -- `epoll_ctl(EPOLL_CTL_ADD)`
  | add (fd : Fd)
  -- `rlen = read(...)`
  | drain (fd : Fd)
  -- `epoll_ctl(EPOLL_CTL_MOD)` after a read that would block
  | rearm (fd : Fd)
  -- a `std::runtime_error` is on its way out of the loop
  | thrown
  deriving DecidableEq, Repr

structure EpollLoop where
  /-- The open client sockets. -/
  fdTable : Fd → Option Nat
  /-- The clients' registrations. -/
  interest : Fd → Option Interest
  acceptQueue : Nat
  /-- An edge of the listener is queued. -/
  edge : Bool
  pc : LoopPc
  /-- The part of `events` not looked at yet. -/
  batch : List LoopEvent
  /-- History: how many connections were accepted. -/
  nextConn : Nat
  /-- History: the connections added to epoll. -/
  added : Nat → Bool
  /-- History: the connections whose descriptor was closed. -/
  closed : Nat → Bool
  /-- History: the chunks passed on, to the log or to `_read_handler`. -/
  chunks : Nat → List (List Byte)

namespace EpollLoop

structure Config where
  variant : LoopVariant
  serverSfd : Fd
  /-- The connections that arrived before the listener was added to epoll. -/
  early : Nat

variable (cfg : Config) (s : EpollLoop)

/-- The listener has been added to epoll, which queues an edge if its queue is not empty. -/
def start : EpollLoop where
  fdTable _ := none
  interest _ := none
  acceptQueue := cfg.early
  edge := decide (0 < cfg.early)
  pc := .epollWait
  batch := []
  nextConn := 0
  added _ := false
  closed _ := false
  chunks _ := []

/-- `MAX_EVENTS`. -/
def maxEvents : Nat := 10000

/-- A kernel reports what was asked for, besides `EPOLLERR` and `EPOLLHUP`. -/
def reports (mask flags : Events) : Bool :=
  (flags.epollin → mask.epollin) ∧ (flags.epollout → mask.epollout)
    ∧ (flags.epollrdhup → mask.epollrdhup)

/-- `epoll_wait` puts an event into `events`: the listener's edge, or a client's one shot. -/
def fetch (ev : LoopEvent) : Option EpollLoop :=
  if ev.fd = cfg.serverSfd then
    if s.edge ∧ ev.flags.epollin ∧ reports listenerMask ev.flags then
      some { s with edge := false, batch := s.batch ++ [ev] }
    else none
  else
    match s.interest ev.fd with
    | some w =>
        if w.armed ∧ reports w.mask ev.flags then
          some { s with
            interest := Function.update s.interest ev.fd
              (some { w with armed := !w.mask.epolloneshot })
            batch := s.batch ++ [ev] }
        else none
    | none => none

/-- `epoll_wait` returns these events. -/
def epollWait (evs : List LoopEvent) : Option EpollLoop :=
  if s.pc = .epollWait ∧ evs ≠ [] ∧ evs.length ≤ maxEvents then
    (evs.foldlM (fetch cfg) s).map (fun m => { m with pc := .loop })
  else none

/-- The flag tests, in their order; `EPOLLERR`, `EPOLLHUP` and `EPOLLOUT` are only logged. -/
def dispatch (ev : LoopEvent) : LoopPc :=
  if ev.flags.epollrdhup then .del ev.fd
  else if ev.flags.epollin then
    if ev.fd = cfg.serverSfd then .accept else .drain ev.fd
  else .loop

/-- The next event, or the end of the batch. -/
def take : Option EpollLoop :=
  match s.pc, s.batch with
  | .loop, [] => some { s with pc := .epollWait }
  | .loop, ev :: rest => some { s with pc := dispatch cfg ev, batch := rest }
  | _, _ => none

/-- `EPOLL_CTL_DEL`, whose result is not looked at, or `close`. -/
def hangUp : Option EpollLoop :=
  match s.pc with
  | .del fd => some { s with interest := Function.update s.interest fd none, pc := .close fd }
  | .close fd =>
      some { s with
        fdTable := Function.update s.fdTable fd none
        interest := Function.update s.interest fd none
        pc := .loop
        closed := match s.fdTable fd with
          | some c => Function.update s.closed c true
          | none => s.closed }
  | _ => none

/-- `accept4`: would-block only on an empty queue; any other error throws. -/
def accept4 (r : Except Errno Fd) : Option EpollLoop :=
  match s.pc, r with
  | .accept, .ok fd =>
      if 0 < s.acceptQueue ∧ 0 ≤ fd ∧ fd ≠ cfg.serverSfd ∧ s.fdTable fd = none then
        some { s with
          fdTable := Function.update s.fdTable fd (some s.nextConn)
          acceptQueue := s.acceptQueue - 1
          pc := .add fd
          nextConn := s.nextConn + 1 }
      else none
  | .accept, .error e =>
      if e.wouldBlock then
        if s.acceptQueue = 0 then some { s with pc := .loop } else none
      else some { s with pc := .thrown }
  | _, _ => none

/-- `EPOLL_CTL_ADD`: a failure throws. -/
def epollAdd (failure : Option Errno) : Option EpollLoop :=
  match s.pc, failure with
  | .add fd, none =>
      match s.fdTable fd, s.interest fd with
      | some c, none =>
          some { s with
            interest := Function.update s.interest fd (some ⟨clientMask, true⟩)
            pc := .accept
            added := Function.update s.added c true }
      | _, _ => none
  | .add _, some _ => some { s with pc := .thrown }
  | _, _ => none

/-- `read` in the drain loop. -/
def read (r : ReadResult) : Option EpollLoop :=
  match s.pc, r with
  | .drain fd, .data bs =>
      if bs.length ≤ buffSize then
        (s.fdTable fd).map (fun c =>
          if bs.length = 0 ∧ cfg.variant = .concurrentServers then { s with pc := .loop }
          else { s with chunks := Function.update s.chunks c (s.chunks c ++ [bs]) })
      else none
  | .drain fd, .fail e => some { s with pc := if e.wouldBlock then .rearm fd else .loop }
  | _, _ => none

/-- `EPOLL_CTL_MOD`: a failure throws. -/
def epollMod (failure : Option Errno) : Option EpollLoop :=
  match s.pc, failure with
  | .rearm fd, none =>
      (s.interest fd).map (fun _ =>
        { s with
          interest := Function.update s.interest fd (some ⟨clientMask, true⟩)
          pc := .loop })
  | .rearm _, some _ => some { s with pc := .thrown }
  | _, _ => none

inductive Label where
  -- a connection arrives at the listener
  | arrive
  | epollWait (evs : List LoopEvent)
  | waitFailed
  | take
  | hangUp
  | accept4 (r : Except Errno Fd)
  | epollAdd (failure : Option Errno)
  | read (r : ReadResult)
  | epollMod (failure : Option Errno)

def next : Label → Option EpollLoop
  | .arrive => some { s with acceptQueue := s.acceptQueue + 1, edge := true }
  | .epollWait evs => s.epollWait cfg evs
  | .waitFailed => if s.pc = .epollWait then some { s with pc := .thrown } else none
  | .take => s.take cfg
  | .hangUp => s.hangUp
  | .accept4 r => s.accept4 cfg r
  | .epollAdd failure => s.epollAdd failure
  | .read r => s.read cfg r
  | .epollMod failure => s.epollMod failure

def machine : Machine EpollLoop Label where
  init s := s = start cfg
  next := next cfg

/-! ## The steps -/

/-- What fetching one event can do. -/
inductive Fetched (ev : LoopEvent) : EpollLoop → Prop where
  | listener (hfd : ev.fd = cfg.serverSfd) (hedge : s.edge = true)
      (hin : ev.flags.epollin = true) (hrdhup : ev.flags.epollrdhup = false) :
      Fetched ev { s with edge := false, batch := s.batch ++ [ev] }
  | client {w : Interest} (hfd : ev.fd ≠ cfg.serverSfd) (hw : s.interest ev.fd = some w)
      (harmed : w.armed = true) :
      Fetched ev
        { s with
          interest := Function.update s.interest ev.fd
            (some { w with armed := !w.mask.epolloneshot })
          batch := s.batch ++ [ev] }

/-- Everything a step can do. -/
inductive Step : Label → EpollLoop → Prop where
  | arrive : Step .arrive { s with acceptQueue := s.acceptQueue + 1, edge := true }
  | epollWait {evs : List LoopEvent} {m : EpollLoop} (hpc : s.pc = .epollWait)
      (hfetch : evs.foldlM (fetch cfg) s = some m) : Step (.epollWait evs) { m with pc := .loop }
  | waitFailed (hpc : s.pc = .epollWait) : Step .waitFailed { s with pc := .thrown }
  | endBatch (hpc : s.pc = .loop) (hbatch : s.batch = []) : Step .take { s with pc := .epollWait }
  | take {ev : LoopEvent} {rest : List LoopEvent} (hpc : s.pc = .loop)
      (hbatch : s.batch = ev :: rest) : Step .take { s with pc := dispatch cfg ev, batch := rest }
  | del {fd : Fd} (hpc : s.pc = .del fd) :
      Step .hangUp { s with interest := Function.update s.interest fd none, pc := .close fd }
  | close {fd : Fd} (hpc : s.pc = .close fd) :
      Step .hangUp
        { s with
          fdTable := Function.update s.fdTable fd none
          interest := Function.update s.interest fd none
          pc := .loop
          closed := match s.fdTable fd with
            | some c => Function.update s.closed c true
            | none => s.closed }
  | accepted {fd : Fd} (hpc : s.pc = .accept) (hqueue : 0 < s.acceptQueue) (hnonneg : 0 ≤ fd)
      (hne : fd ≠ cfg.serverSfd) (hfresh : s.fdTable fd = none) :
      Step (.accept4 (.ok fd))
        { s with
          fdTable := Function.update s.fdTable fd (some s.nextConn)
          acceptQueue := s.acceptQueue - 1
          pc := .add fd
          nextConn := s.nextConn + 1 }
  | noMore {e : Errno} (hpc : s.pc = .accept) (he : e.wouldBlock = true)
      (hqueue : s.acceptQueue = 0) : Step (.accept4 (.error e)) { s with pc := .loop }
  | acceptFailed {e : Errno} (hpc : s.pc = .accept) (he : e.wouldBlock = false) :
      Step (.accept4 (.error e)) { s with pc := .thrown }
  | added {fd : Fd} {c : Nat} (hpc : s.pc = .add fd) (hopen : s.fdTable fd = some c)
      (hnew : s.interest fd = none) :
      Step (.epollAdd none)
        { s with
          interest := Function.update s.interest fd (some ⟨clientMask, true⟩)
          pc := .accept
          added := Function.update s.added c true }
  | addFailed {fd : Fd} {e : Errno} (hpc : s.pc = .add fd) :
      Step (.epollAdd (some e)) { s with pc := .thrown }
  | endOfStream {fd : Fd} {c : Nat} (hpc : s.pc = .drain fd) (hopen : s.fdTable fd = some c)
      (hv : cfg.variant = .concurrentServers) : Step (.read (.data [])) { s with pc := .loop }
  | chunk {fd : Fd} {c : Nat} {bs : List Byte} (hpc : s.pc = .drain fd)
      (hopen : s.fdTable fd = some c) (hle : bs.length ≤ buffSize)
      (hv : bs = [] → cfg.variant ≠ .concurrentServers) :
      Step (.read (.data bs))
        { s with chunks := Function.update s.chunks c (s.chunks c ++ [bs]) }
  | drained {fd : Fd} {e : Errno} (hpc : s.pc = .drain fd) (he : e.wouldBlock = true) :
      Step (.read (.fail e)) { s with pc := .rearm fd }
  | readFailed {fd : Fd} {e : Errno} (hpc : s.pc = .drain fd) (he : e.wouldBlock = false) :
      Step (.read (.fail e)) { s with pc := .loop }
  | rearmed {fd : Fd} {w : Interest} (hpc : s.pc = .rearm fd) (hw : s.interest fd = some w) :
      Step (.epollMod none)
        { s with
          interest := Function.update s.interest fd (some ⟨clientMask, true⟩)
          pc := .loop }
  | rearmFailed {fd : Fd} {e : Errno} (hpc : s.pc = .rearm fd) :
      Step (.epollMod (some e)) { s with pc := .thrown }

variable {cfg s}

/-- **Fetching an event is one of the two.** -/
theorem fetch_cases {ev : LoopEvent} {s' : EpollLoop} (h : s.fetch cfg ev = some s') :
    Fetched cfg s ev s' := by
  unfold fetch at h
  split at h
  · rename_i hfd
    split at h
    · rename_i hok
      cases h
      have hreports := hok.2.2
      simp only [reports, decide_eq_true_eq] at hreports
      refine .listener hfd hok.1 hok.2.1 (Bool.eq_false_iff.mpr (fun hr => ?_))
      exact absurd (hreports.2.2 hr) (by decide)
    · exact absurd h (by simp)
  · rename_i hfd
    split at h
    · rename_i w hw
      split at h
      · rename_i hok
        cases h
        exact .client hfd hw hok.1
      · exact absurd h (by simp)
    · exact absurd h (by simp)

/-- What every fetched event preserves, the whole of `epoll_wait` does. -/
theorem fetches_induction {P : EpollLoop → Prop}
    (hstep : ∀ s ev s', P s → Fetched cfg s ev s' → P s') {evs : List LoopEvent} {m : EpollLoop}
    (h : evs.foldlM (fetch cfg) s = some m) (h0 : P s) : P m := by
  induction evs generalizing s with
  | nil =>
      cases h
      exact h0
  | cons ev evs ih =>
      rw [List.foldlM_cons] at h
      obtain ⟨s', hs', hrest⟩ := Option.bind_eq_some_iff.mp h
      exact ih hrest (hstep s ev s' h0 (fetch_cases hs'))

theorem accept4_cases {r : Except Errno Fd} {s' : EpollLoop} (h : s.accept4 cfg r = some s') :
    Step cfg s (.accept4 r) s' := by
  unfold accept4 at h
  split at h
  · rename_i hpc
    split at h
    · rename_i hok
      cases h
      exact .accepted hpc hok.1 hok.2.1 hok.2.2.1 hok.2.2.2
    · exact absurd h (by simp)
  · rename_i e hpc
    split at h
    · rename_i he
      split at h
      · rename_i hqueue
        cases h
        exact .noMore hpc he hqueue
      · exact absurd h (by simp)
    · rename_i he
      cases h
      exact .acceptFailed hpc (Bool.eq_false_iff.mpr he)
  · exact absurd h (by simp)

theorem read_cases {r : ReadResult} {s' : EpollLoop} (h : s.read cfg r = some s') :
    Step cfg s (.read r) s' := by
  unfold read at h
  split at h
  · rename_i fd bs hpc
    split at h
    · rename_i hle
      obtain ⟨c, hopen, rfl⟩ := Option.map_eq_some_iff.mp h
      split
      · rename_i hend
        have hnil : bs = [] := List.length_eq_zero_iff.mp hend.1
        subst hnil
        exact .endOfStream hpc hopen hend.2
      · rename_i hmore
        refine .chunk hpc hopen hle (fun hnil hv => hmore ⟨?_, hv⟩)
        rw [hnil, List.length_nil]
    · exact absurd h (by simp)
  · rename_i fd e hpc
    cases h
    cases he : e.wouldBlock with
    | true => exact .drained hpc he
    | false => exact .readFailed hpc he
  · exact absurd h (by simp)

/-- **A step of the code is one of the listed ones.** -/
theorem next_cases {l : Label} {s' : EpollLoop} (h : s.next cfg l = some s') :
    Step cfg s l s' := by
  cases l with
  | arrive => cases h; exact .arrive
  | epollWait evs =>
      simp only [next, epollWait] at h
      split at h
      · rename_i hok
        obtain ⟨m, hm, rfl⟩ := Option.map_eq_some_iff.mp h
        exact .epollWait hok.1 hm
      · exact absurd h (by simp)
  | waitFailed =>
      simp only [next] at h
      split at h
      · rename_i hpc; cases h; exact .waitFailed hpc
      · exact absurd h (by simp)
  | take =>
      simp only [next, take] at h
      split at h
      · rename_i hpc hbatch; cases h; exact .endBatch hpc hbatch
      · rename_i hpc hbatch; cases h; exact .take hpc hbatch
      · exact absurd h (by simp)
  | hangUp =>
      simp only [next, hangUp] at h
      split at h
      · rename_i hpc; cases h; exact .del hpc
      · rename_i hpc; cases h; exact .close hpc
      · exact absurd h (by simp)
  | accept4 r => exact accept4_cases h
  | epollAdd failure =>
      simp only [next, epollAdd] at h
      split at h
      · rename_i hpc
        split at h
        · rename_i hopen hnew; cases h; exact .added hpc hopen hnew
        · exact absurd h (by simp)
      · rename_i hpc; cases h; exact .addFailed hpc
      · exact absurd h (by simp)
  | read r => exact read_cases h
  | epollMod failure =>
      simp only [next, epollMod] at h
      split at h
      · rename_i hpc
        obtain ⟨w, hw, rfl⟩ := Option.map_eq_some_iff.mp h
        exact .rearmed hpc hw
      · rename_i hpc; cases h; exact .rearmFailed hpc
      · exact absurd h (by simp)

end EpollLoop

end TcpServers
