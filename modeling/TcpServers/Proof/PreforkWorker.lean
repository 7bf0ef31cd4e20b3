import TcpServers.Model.Prefork
import TcpServers.Proof.LoopListener
import TcpServers.Proof.ServerSetup

/-!
# One worker of the pre-forking server

From its `try` to its exit, whatever the kernel answers: a worker has at most one listening
socket, it serves that one, and a connection the kernel gave to the listener is in its
accept queue or has been accepted, until the worker leaves by an exception.
-/

namespace TcpServers.EpollLoop

open Lib

variable {cfg : Config} {s s' : EpollLoop} {l : Label}

/-- Connections come by `arrive` only, and leave the queue by being accepted. -/
theorem arrivals_step (hl : l ≠ .arrive) (hs : Step cfg s l s') :
    s'.acceptQueue + s'.nextConn = s.acceptQueue + s.nextConn := by
  cases hs with
  | arrive => exact absurd rfl hl
  | @epollWait evs m _ hfetch =>
      show m.acceptQueue + m.nextConn = s.acceptQueue + s.nextConn
      refine fetches_induction (P := fun m =>
        m.acceptQueue + m.nextConn = s.acceptQueue + s.nextConn) ?_ hfetch rfl
      intro m ev m' hm hf
      cases hf with
      | listener => exact hm
      | client => exact hm
  | accepted _ hqueue =>
      show s.acceptQueue - 1 + (s.nextConn + 1) = s.acceptQueue + s.nextConn
      omega
  | waitFailed | endBatch | take | del | close | noMore | acceptFailed | added | addFailed
  | endOfStream | chunk | drained | readFailed | rearmed | rearmFailed => rfl

end TcpServers.EpollLoop

namespace TcpServers.Prefork

open Lib

variable {wk wk' : Worker} {a : WorkerAct}

/-- The sockets a worker has open. -/
def WorkerSockets : WorkerPc → List Socket → Prop
  | .setup pc, l => OwnSocket pc l
  | .epollCreate fd, l | .epollAdd fd _, l => OwnSocket (.returned fd) l
  | .eventLoop cfg _, l => OwnSocket (.returned cfg.serverSfd) l
  | .caught fd _, l => (fd = -1 ∧ l = []) ∨ OwnSocket (.returned fd) l
  | .exit, l | .exited, l => l = []

/-- Where the connections are that the kernel gave to a worker's listener. -/
def Accounted (wk : Worker) : WorkerPc → Prop
  | .setup _ | .epollCreate _ | .epollAdd _ _ => wk.arrived = wk.queued
  | .eventLoop cfg loop =>
      (EpollLoop.machine cfg).Reachable loop ∧ cfg.variant = .linuxConcurrentServer
        ∧ loop.pc ≠ .thrown ∧ wk.arrived = loop.acceptQueue + loop.nextConn
  | .caught _ _ | .exit | .exited => True

theorem ownSocket_length (pc : SetupPc) {l : List Socket} (h : OwnSocket pc l) :
    l.length ≤ 1 := by
  cases pc with
  | getaddrinfo | socket | thrown =>
      have hnil : l = [] := h
      rw [hnil]
      exact Nat.zero_le 1
  | setsockopt =>
      rw [h.2]
      exact Nat.le_refl 1
  | bind | closeFd =>
      obtain ⟨_, r, hone⟩ := h
      rw [hone]
      exact Nat.le_refl 1
  | listen | closeDeaf | returned =>
      obtain ⟨_, r, b, hone⟩ := h
      rw [hone]
      exact Nat.le_refl 1

theorem workerSockets_length (pc : WorkerPc) {l : List Socket} (h : WorkerSockets pc l) :
    l.length ≤ 1 := by
  cases pc with
  | setup pc => exact ownSocket_length pc h
  | epollCreate fd | epollAdd fd => exact ownSocket_length (.returned fd) h
  | eventLoop c => exact ownSocket_length (.returned c.serverSfd) h
  | caught fd =>
      rcases h with ⟨_, hnil⟩ | hown
      · rw [hnil]
        exact Nat.zero_le 1
      · exact ownSocket_length (.returned fd) hown
  | exit | exited =>
      have hnil : l = [] := h
      rw [hnil]
      exact Nat.zero_le 1

structure WorkerInv (wk : Worker) : Prop where
  sockets : WorkerSockets wk.pc wk.net.sockets
  accounted : Accounted wk wk.pc

theorem workerInv_start : WorkerInv Worker.start where
  sockets := rfl
  accounted := rfl

/-- The set-up is called with no socket open. -/
theorem ownSocket_step {pc pc' : SetupPc} {net net' : Net} {a : SetupAnswer}
    (h : OwnSocket pc net.sockets) (hs : SetupStep true net pc a pc' net') :
    OwnSocket pc' net'.sockets := by
  have hlaw : SetupLaw ⟨[], net.addrLists - addrListsOwed pc, 0⟩ pc net := by
    refine ⟨⟨net.sockets, (List.append_nil _).symm, h, fun _ _ u hu => ?_⟩, ?_⟩
    · exact absurd hu List.not_mem_nil
    · exact (Int.sub_add_cancel _ _).symm
  obtain ⟨⟨own, hnet, hown, _⟩, _⟩ := setupLaw_step hlaw hs
  rw [hnet, List.append_nil]
  exact hown

/-- Closing the listener leaves no socket. -/
theorem sockets_caught {fd : Fd} {e : WorkerError} {net : Net}
    (h : WorkerSockets (.caught fd e) net.sockets) : (net.closeFd fd).sockets = [] := by
  rcases h with ⟨rfl, hnil⟩ | ⟨hfd, r, b, hone⟩
  · exact hnil
  · exact Net.sockets_closeFd hone rfl hfd (fun u hu => absurd hu List.not_mem_nil)

/-- **Kept by everything that happens to a worker.** -/
theorem workerInv_step (h : WorkerInv wk) (hs : WorkerStep wk a wk') : WorkerInv wk' := by
  obtain ⟨hsockets, haccounted⟩ := h
  cases hs with
  | setup hpc hstep =>
      rw [hpc] at hsockets haccounted
      exact ⟨ownSocket_step hsockets hstep, haccounted⟩
  | returned hpc | created hpc =>
      rw [hpc] at hsockets haccounted
      exact ⟨hsockets, haccounted⟩
  | thrown hpc =>
      rw [hpc] at hsockets
      exact ⟨Or.inl ⟨rfl, hsockets⟩, trivial⟩
  | notCreated hpc | notAdded hpc =>
      rw [hpc] at hsockets
      exact ⟨Or.inr hsockets, trivial⟩
  | @added fd epollFd hpc =>
      rw [hpc] at hsockets haccounted
      exact ⟨hsockets, .init rfl, rfl, by simp [EpollLoop.start], haccounted⟩
  | caught hpc =>
      rw [hpc] at hsockets
      exact ⟨sockets_caught hsockets, trivial⟩
  | exit => exact ⟨rfl, trivial⟩
  | @loop cfg loop loop' l hpc hl hnext hpc' =>
      rw [hpc] at hsockets haccounted
      obtain ⟨hr, hv, _, harrived⟩ := haccounted
      refine ⟨hsockets, .tail hr trivial hnext, hv, hpc', ?_⟩
      have hsame := EpollLoop.arrivals_step hl (EpollLoop.next_cases hnext)
      exact harrived.trans hsame.symm
  | loopThrew hpc =>
      rw [hpc] at hsockets
      exact ⟨Or.inr hsockets, trivial⟩
  | @arriveLoop cfg loop loop' hpc hnext =>
      rw [hpc] at hsockets haccounted
      obtain ⟨hr, hv, hthrown, harrived⟩ := haccounted
      refine ⟨hsockets, .tail (a := .arrive) hr trivial hnext, hv, ?_⟩
      cases EpollLoop.next_cases hnext with
      | arrive =>
          refine ⟨hthrown, ?_⟩
          show wk.arrived + 1 = loop.acceptQueue + 1 + loop.nextConn
          omega
  | arrive hpc hlisten =>
      refine ⟨hsockets, ?_⟩
      cases hwk : wk.pc with
      | setup | epollCreate | epollAdd =>
          rw [hwk] at haccounted
          exact congrArg (· + 1) haccounted
      | eventLoop cfg loop => exact absurd hwk (hpc cfg loop)
      | caught | exit | exited => trivial

end TcpServers.Prefork
