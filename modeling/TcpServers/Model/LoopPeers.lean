import TcpServers.Model.EpollLoop
import TcpServers.Model.Peer

/-!
# The event loop together with its clients

Each client sends a byte string and closes. Its bytes reach the receive queue of its
connection in their own time, before it is accepted or after; `read()` answers from
there. `epoll_wait` reports `EPOLLRDHUP` for a client exactly once its close has
arrived, and `EPOLLIN` if there is anything unread.
-/

namespace TcpServers

open Lib

namespace Peer

/-- The next bytes reach the receive queue. -/
def arrive (p : Peer) (n : Nat) : Peer :=
  { p with toArrive := p.toArrive.drop n, queue := p.queue ++ p.toArrive.take n }

/-- All bytes have arrived, and the close does. -/
def finish (p : Peer) : Peer := { p with fin := true }

/-- What the kernel may report for the client's connection. -/
def reported (p : Peer) (flags : Events) : Bool :=
  flags.epollrdhup = p.fin ∧ (p.queue ≠ [] → flags.epollin = true)

end Peer

/-- The loop, and the client of each connection. -/
structure LoopPeers where
  loop : EpollLoop
  peer : Nat → Peer

namespace LoopPeers

inductive Label where
  | loop (l : EpollLoop.Label)
  | arrive (c n : Nat)
  | finish (c : Nat)

variable (cfg : EpollLoop.Config) (s : LoopPeers)

/-- A `read()` of the loop, answered from the queue of the connection. -/
def read (r : ReadResult) : Option LoopPeers :=
  match s.loop.pc with
  | .drain fd =>
      (s.loop.fdTable fd).bind (fun c =>
        ((s.peer c).read buffSize r).bind (fun p =>
          (s.loop.next cfg (.read r)).map (fun loop =>
            ⟨loop, Function.update s.peer c p⟩)))
  | _ => none

def next : Label → Option LoopPeers
  | .loop (.read r) => s.read cfg r
  | .loop (.epollWait evs) =>
      if ∀ ev ∈ evs, ∀ c ∈ s.loop.fdTable ev.fd, (s.peer c).reported ev.flags = true then
        (s.loop.next cfg (.epollWait evs)).map (fun loop => { s with loop := loop })
      else none
  | .loop l => (s.loop.next cfg l).map (fun loop => { s with loop := loop })
  | .arrive c n => some { s with peer := Function.update s.peer c ((s.peer c).arrive n) }
  | .finish c =>
      if (s.peer c).toArrive = [] then
        some { s with peer := Function.update s.peer c (s.peer c).finish }
      else none

/-- The loop before its first step; the client of connection `c` is to send `bytes c`. -/
def start (bytes : Nat → List Byte) : LoopPeers := ⟨.start cfg, fun c => .sending (bytes c)⟩

def machine (bytes : Nat → List Byte) : Machine LoopPeers Label where
  init s := s = start cfg bytes
  next := next cfg

/-- Everything a step can do. -/
inductive Step : Label → LoopPeers → Prop where
  | read {r : ReadResult} {fd : Fd} {c : Nat} {p : Peer} {loop : EpollLoop}
      (hpc : s.loop.pc = .drain fd) (hopen : s.loop.fdTable fd = some c)
      (hread : (s.peer c).read buffSize r = some p)
      (hstep : s.loop.Step cfg (.read r) loop) :
      Step (.loop (.read r)) ⟨loop, Function.update s.peer c p⟩
  | epollWait {evs : List LoopEvent} {loop : EpollLoop}
      (hreported : ∀ ev ∈ evs, ∀ c, s.loop.fdTable ev.fd = some c →
        ev.flags.epollrdhup = (s.peer c).fin)
      (hstep : s.loop.Step cfg (.epollWait evs) loop) :
      Step (.loop (.epollWait evs)) { s with loop := loop }
  | other {l : EpollLoop.Label} {loop : EpollLoop} (hread : ∀ r, l ≠ .read r)
      (hwait : ∀ evs, l ≠ .epollWait evs) (hstep : s.loop.Step cfg l loop) :
      Step (.loop l) { s with loop := loop }
  | arrive {c n : Nat} :
      Step (.arrive c n) { s with peer := Function.update s.peer c ((s.peer c).arrive n) }
  | finish {c : Nat} (hdone : (s.peer c).toArrive = []) :
      Step (.finish c) { s with peer := Function.update s.peer c (s.peer c).finish }

variable {cfg s}

/-- **A step is one of the listed ones.** -/
theorem next_cases {l : Label} {s' : LoopPeers} (h : s.next cfg l = some s') :
    Step cfg s l s' := by
  unfold next at h
  split at h
  · rename_i r
    unfold read at h
    split at h
    · rename_i fd hpc
      obtain ⟨c, hopen, h⟩ := Option.bind_eq_some_iff.mp h
      obtain ⟨p, hread, h⟩ := Option.bind_eq_some_iff.mp h
      obtain ⟨loop, hloop, rfl⟩ := Option.map_eq_some_iff.mp h
      exact .read hpc hopen hread (EpollLoop.next_cases hloop)
    · exact absurd h (by simp)
  · rename_i evs
    split at h
    · rename_i hok
      obtain ⟨loop, hloop, rfl⟩ := Option.map_eq_some_iff.mp h
      refine .epollWait (fun ev hev c hc => ?_) (EpollLoop.next_cases hloop)
      have hrep := hok ev hev c hc
      simp only [Peer.reported, decide_eq_true_eq] at hrep
      exact hrep.1
    · exact absurd h (by simp)
  · rename_i l hread hwait
    obtain ⟨loop, hloop, rfl⟩ := Option.map_eq_some_iff.mp h
    exact .other hread hwait (EpollLoop.next_cases hloop)
  · cases h
    exact .arrive
  · split at h
    · rename_i hdone
      cases h
      exact .finish hdone
    · exact absurd h (by simp)

end LoopPeers

end TcpServers
