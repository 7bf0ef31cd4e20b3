import TcpServers.Proof.ConnectionPipe
import TcpServers.Proof.ServerConnections
import TcpServers.Proof.Service

/-!
# The multi-worker server is an echo service

Two refinements on top of each other: the workers follow the family of connections, and
each connection follows its pipe. So in whichever order the workers take their statements,
every client gets back what was read from it, in that order, and nothing of another
client's. Both need that a worker is done with a connection when it re-arms it, so that no
read fails, and that storage is not taken while `closeConnection` refers to it.
-/

namespace TcpServers.Server

open Lib

variable {ι : Type} {cfg : Config ι} {s s' : Server ι}

/-- The family of connections follows the family of their pipes. -/
theorem connections_follow : echoService.Follows connections (Machine.Members fun _ _ => True)
    (Machine.memberObs Connection.traffic) (Machine.Memberwise Connection.InPipe) :=
  Connection.follows_pipe.family (fun fd => ⟨fd, rfl⟩) Connection.inPipe_accepted

/-- An event that is fetched and dispatched moves no bytes. -/
theorem traffic_taken (F : Nat → Option Connection) (c : Nat) (flags : Events) (errno : Errno) :
    connections.observed (Machine.memberObs Connection.traffic) F
      [.step c (.deliver flags errno), .step c .dispatch] = [] := by
  refine Machine.observed_eq_nil (fun G a ha => ?_)
  have hquiet : ∀ l, (∀ k : Connection, k.traffic l = []) →
      Machine.memberObs Connection.traffic G (.step c l : FamilyAct Nat Fd _) = [] := by
    intro l hl
    cases hG : G c <;> simp [Machine.memberObs, hG, hl]
  rcases List.mem_pair.mp ha with rfl | rfl
  · exact hquiet _ (fun _ => rfl)
  · exact hquiet _ (fun _ => rfl)

/-- What a statement of the handler moves, it moves for its connection. -/
theorem traffic_handle {F : Nat → Option Connection} {i : ι} {a : Answer} {p : Addr} {c : Nat}
    {pc : HandlerPc} (hm : Matches s F) (hc : ReadsSucceed s (i, .handle a))
    (hpc : (s.worker i).pc = .handle p (.conn c) pc) :
    Machine.memberObs Connection.traffic F (.step c (.handler a) : FamilyAct Nat Fd _)
      = s.traffic (i, .handle a) := by
  obtain ⟨k, hk, hdata, _⟩ := hm.handling i p c pc hpc
  simp only [Machine.memberObs, hk, Option.map_some, Option.getD_some]
  cases a with
  | read r =>
      cases r with
      | data bs => simp only [Connection.traffic, traffic, hpc, List.map_cons, List.map_nil]
      | fail e =>
          have hwould : e.wouldBlock = true := hc
          simp only [Connection.traffic, traffic, hwould, if_true, List.map_nil]
  | write r =>
      cases r with
      | wrote n =>
          simp only [Connection.traffic, traffic, hpc, hdata, List.map_cons, List.map_nil]
      | fail e => rfl
  | quiet => rfl
  | epollCtl r => rfl

/-- Outside the handler of a connection nothing is moved. -/
theorem traffic_elsewhere {i : ι} {a : Answer}
    (h : ∀ p c pc, (s.worker i).pc ≠ .handle p (.conn c) pc) :
    s.traffic (i, .handle a) = [] := by
  cases a with
  | read r =>
      cases r with
      | data bs => simp only [traffic]
      | fail e => rfl
  | write r =>
      cases r with
      | wrote n => simp only [traffic]
      | fail e => rfl
  | quiet => rfl
  | epollCtl r => rfl

/-- What a worker's step shows of the connection is what the connection shows of the pipe. -/
theorem traffic_eq {F : Nat → Option Connection} {l : ι × Act} (hm : Matches s F)
    (hc : ReadsSucceed s l) :
    connections.observed (Machine.memberObs Connection.traffic) F (s.stepsOf l) = s.traffic l := by
  obtain ⟨i, act⟩ := l
  cases act with
  | epollAdd failure =>
      cases failure with
      | some e => rfl
      | none =>
          cases hpc : (s.worker i).pc with
          | add fd ptr c =>
              simp only [stepsOf, traffic, hpc, Machine.observed_singleton]
              rfl
          | _ => simp only [stepsOf, traffic, hpc]; rfl
  | take =>
      have hnone : s.traffic (i, .take) = [] := rfl
      rw [hnone]
      cases hbatch : (s.worker i).batch with
      | nil => simp only [stepsOf, hbatch]; rfl
      | cons ev rest =>
          obtain ⟨flags, ptr, fd, file⟩ := ev
          cases file with
          | listener ep => simp only [stepsOf, hbatch]; rfl
          | conn c =>
              simp only [stepsOf, hbatch]
              exact traffic_taken F c flags _
  | handle a =>
      by_cases hconn : ∃ p c pc, (s.worker i).pc = .handle p (.conn c) pc
      · obtain ⟨p, c, pc, hpc⟩ := hconn
        simp only [stepsOf, hpc, Machine.observed_singleton]
        exact traffic_handle hm hc hpc
      · have hnone : ∀ p c pc, (s.worker i).pc ≠ .handle p (.conn c) pc :=
          fun p c pc hpc => hconn ⟨p, c, pc, hpc⟩
        have hsteps : s.stepsOf (i, .handle a) = [] := by simp only [stepsOf]
        rw [hsteps, traffic_elsewhere hnone]
        rfl
  | _ => rfl

/-- A statement of a worker drops nothing from a pipe. -/
theorem traffic_keeps (s : Server ι) (l : ι × Act) (c n : Nat) :
    FamilyAct.step c (.drop n) ∉ s.traffic l := by
  unfold traffic
  split <;> try split
  all_goals simp

variable [DecidableEq ι]

/-- **The workers follow the echo service.** -/
theorem follows_service (cfg : Config ι) :
    echoService.Follows (machine cfg) RearmsLast traffic (fun s Q => ∃ F,
      connections.ReachableVia (Machine.Members fun _ _ => True) F ∧ Matches s F
        ∧ Machine.Memberwise Connection.InPipe F Q) :=
  (follows_connections cfg).trans connections_follow
    (fun _ _ _ _ _ _ _ _ => Machine.along_imp (fun _ l _ => by cases l <;> simp [Machine.Members])
      Machine.along_true)
    (fun _ _ _ _ _ hm hc _ => traffic_eq hm hc.2)

/-- Without a failed read nothing is dropped. -/
theorem dropsNothing {as : List (ι × Act)} (hrun : (machine cfg).run (start cfg) as = some s)
    (hC : (machine cfg).Along RearmsLast (start cfg) as) :
    DropsNothing ((machine cfg).observed traffic (start cfg) as) :=
  dropsNothing_of_step (fun s l _ _ c n hmem => absurd hmem (traffic_keeps s l c n))
    (.init rfl) hrun hC

/-! ## What that gives the clients -/

/-- Two workers echo to two clients, their statements in turn; the second write is short. -/
def twoClients : List (Fin 2 × Act) :=
  acceptOne worker0 7 1 ++ acceptOne worker0 8 2
    ++ [(worker0, .deliver 7 { epollin := true }), (worker1, .deliver 8 { epollin := true }),
      (worker0, .wake), (worker1, .wake), (worker0, .take), (worker1, .take),
      (worker0, .handle .quiet), (worker1, .handle .quiet),
      (worker0, .handle (.read (.data [104]))), (worker1, .handle (.read (.data [105, 106]))),
      (worker1, .handle .quiet), (worker0, .handle .quiet), (worker0, .handle .quiet),
      (worker1, .handle .quiet), (worker1, .handle (.read (.fail .eagain))),
      (worker0, .handle (.read (.fail .ewouldblock))), (worker0, .handle .quiet),
      (worker1, .handle .quiet), (worker1, .handle .quiet), (worker0, .handle .quiet),
      (worker0, .handle (.write (.wrote 1))), (worker1, .handle (.write (.wrote 1)))]

end TcpServers.Server
