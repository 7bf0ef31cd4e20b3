import Mathlib.Algebra.Order.BigOperators.Group.Finset
import TcpServers.Lib.Amortized
import TcpServers.Proof.LoopDelivery

/-!
# The event loop gets back to `epoll_wait`

A batch costs three statements for each of its events, two for each connection that waits or
arrives, and one for each chunk. The chunks are paid for by what they leave behind: a byte
passed on is one the client cannot send again. So a batch ends, for clients that send
finitely much; only an end of stream that is read over costs the loop something and leaves
nothing behind.
-/

namespace TcpServers.EpollLoop

open Lib

variable {cfg : Config} {s s' : EpollLoop} {l : Label}

/-- The statements that are left of the one event the loop is at, and the last test. -/
def eventLeft : LoopPc → Nat
  | .epollWait | .thrown => 0
  | .loop => 1
  | .close _ | .accept | .rearm _ => 2
  | .del _ | .add _ | .drain _ => 3

/-- The statements a batch has left, with those for the connections that wait. -/
def batchLeft (s : EpollLoop) : Nat :=
  eventLeft s.pc + 3 * s.batch.length + 2 * s.acceptQueue

/-- How much was passed on. -/
def passedOn (s : EpollLoop) : Nat := ∑ c ∈ Finset.range s.nextConn, (s.chunks c).flatten.length

/-- A statement of the loop. -/
def ownStatement : Label → Nat
  | .arrive => 0
  | _ => 1

/-- A connection arrives. -/
def arrives : Label → Nat
  | .arrive => 1
  | _ => 0

/-- An end of stream is read over. -/
def readOver (cfg : Config) : Label → Nat
  | .read (.data []) => if cfg.variant = .linuxConcurrentServer then 1 else 0
  | _ => 0

/-- `epoll_wait` is not called. -/
def InBatch : Label → Prop
  | .epollWait _ | .waitFailed => False
  | _ => True

instance : (l : Label) → Decidable (InBatch l)
  | .epollWait _ | .waitFailed => isFalse id
  | .arrive | .take | .hangUp | .accept4 _ | .epollAdd _ | .read _ | .epollMod _ => isTrue trivial

/-- An event costs at most two statements behind the test of its flags. -/
theorem eventLeft_dispatch (cfg : Config) (ev : LoopEvent) : eventLeft (dispatch cfg ev) ≤ 3 := by
  unfold dispatch
  split
  · simp [eventLeft]
  · split
    · split <;> simp [eventLeft]
    · simp [eventLeft]

/-- A chunk leaves its bytes behind. -/
theorem passedOn_chunk {c : Nat} (hc : c < s.nextConn) (bs : List Byte) :
    passedOn { s with chunks := Function.update s.chunks c (s.chunks c ++ [bs]) }
      = passedOn s + bs.length := by
  have hmem : c ∈ Finset.range s.nextConn := Finset.mem_range.mpr hc
  have hrest : ∀ d ∈ (Finset.range s.nextConn).erase c,
      (Function.update s.chunks c (s.chunks c ++ [bs]) d).flatten.length
        = (s.chunks d).flatten.length := by
    intro d hd
    rw [Function.update_of_ne (Finset.ne_of_mem_erase hd)]
  unfold passedOn
  rw [← Finset.add_sum_erase _ _ hmem, ← Finset.add_sum_erase _ (fun d => _) hmem,
    Finset.sum_congr rfl hrest]
  simp only [Function.update_self, List.flatten_append, List.length_append, List.flatten_singleton]
  omega

/-- Connections that are accepted have nothing passed on yet, or more than nothing. -/
theorem passedOn_accepted (s : EpollLoop) (table : Fd → Option Nat) (queue : Nat) (pc : LoopPc) :
    passedOn s ≤ passedOn { s with
      fdTable := table, acceptQueue := queue, pc := pc, nextConn := s.nextConn + 1 } := by
  unfold passedOn
  rw [Finset.sum_range_succ]
  exact Nat.le_add_right _ _

/-- **A statement of the batch** is paid for by what is left, or leaves something behind. -/
theorem batchLeft_step (ht : TableInv s) (hl : InBatch l) (hs : Step cfg s l s') :
    batchLeft s' + ownStatement l + passedOn s
      ≤ batchLeft s + (2 * arrives l + readOver cfg l) + passedOn s' := by
  cases hs with
  | epollWait | waitFailed => exact absurd hl id
  | arrive =>
      simp only [batchLeft, passedOn, ownStatement, arrives, readOver]
      omega
  | endBatch hpc =>
      simp only [batchLeft, passedOn, hpc, eventLeft, ownStatement, arrives, readOver]
      omega
  | @take ev rest hpc hbatch =>
      have hle := eventLeft_dispatch cfg ev
      have hloop : eventLeft .loop = 1 := rfl
      simp only [batchLeft, passedOn, hpc, hbatch, hloop, ownStatement, arrives, readOver,
        List.length_cons]
      omega
  | @accepted fd hpc hqueue =>
      have hle := passedOn_accepted s (Function.update s.fdTable fd (some s.nextConn))
        (s.acceptQueue - 1) (.add fd)
      simp only [batchLeft, hpc, eventLeft, ownStatement, arrives, readOver]
      omega
  | @chunk fd c bs hpc hopen hle hv =>
      rw [passedOn_chunk (ht.accepted fd c hopen) bs]
      cases bs with
      | nil =>
          have hlinux : cfg.variant = .linuxConcurrentServer := by
            cases hvar : cfg.variant with
            | concurrentServers => exact absurd hvar (hv rfl)
            | linuxConcurrentServer => rfl
          simp only [batchLeft, ownStatement, arrives, readOver, hlinux, if_true, List.length_nil]
          omega
      | cons b bs =>
          simp only [batchLeft, ownStatement, arrives, readOver, List.length_cons]
          omega
  | del hpc | close hpc | noMore hpc | acceptFailed hpc | added hpc | addFailed hpc
  | endOfStream hpc | drained hpc | readFailed hpc | rearmed hpc | rearmFailed hpc =>
      simp only [batchLeft, passedOn, hpc, eventLeft, ownStatement, arrives]
      omega

/-- What `epoll_wait` returns is what the batch has to do, and what waits at the listener. -/
theorem batchLeft_epollWait (hdone : BatchDone s) {evs : List LoopEvent}
    (hs : Step cfg s (.epollWait evs) s') :
    batchLeft s' = 3 * evs.length + 1 + 2 * s.acceptQueue := by
  cases hs with
  | epollWait hpc hfetch =>
      have hqueue := fetches_induction (P := fun m => m.acceptQueue = s.acceptQueue)
        (fun _ _ _ hm hf => by cases hf <;> exact hm) hfetch rfl
      simp only [batchLeft, (fetches_frame hfetch).1, hdone hpc, hqueue, eventLeft,
        List.nil_append]
      omega

end TcpServers.EpollLoop

namespace TcpServers.LoopPeers

open Lib

variable {cfg : EpollLoop.Config} {bytes : Nat → List Byte} {s s' t : LoopPeers} {l : Label}

/-- What a label says of the loop. -/
def ofLoop (f : EpollLoop.Label → Nat) : Label → Nat
  | .loop l => f l
  | .arrive _ _ | .finish _ => 0

/-- `epoll_wait` is not called. -/
def InBatch : Label → Prop
  | .loop l => EpollLoop.InBatch l
  | .arrive _ _ | .finish _ => True

instance : (l : Label) → Decidable (InBatch l)
  | .loop l => inferInstanceAs (Decidable (EpollLoop.InBatch l))
  | .arrive _ _ | .finish _ => isTrue trivial

theorem streamInv_reachable {C : LoopPeers → Label → Prop}
    (h : (machine cfg bytes).ReachableVia C s) : StreamInv cfg bytes s := by
  refine Machine.ReachableVia.invariant ?_ ?_ h
  · intro s hinit
    subst hinit
    exact streamInv_start cfg bytes
  · intro s l s' _ hi _ hs
    exact streamInv_step hi (next_cases hs)

/-- What arrives from a client costs the loop nothing. -/
theorem batchLeft_step (h : StreamInv cfg bytes s) (hl : InBatch l) (hs : Step cfg s l s') :
    s'.loop.batchLeft + ofLoop EpollLoop.ownStatement l + s.loop.passedOn
      ≤ s.loop.batchLeft
        + (2 * ofLoop EpollLoop.arrives l + ofLoop (EpollLoop.readOver cfg) l)
        + s'.loop.passedOn := by
  cases hs with
  | read _ _ _ hstep | epollWait _ hstep | other _ _ hstep =>
      exact EpollLoop.batchLeft_step h.tables (by exact hl) hstep
  | arrive | finish => exact Nat.le_refl _

/-- No more is passed on than is sent. -/
theorem passedOn_le (h : StreamInv cfg bytes s) :
    s.loop.passedOn ≤ ∑ c ∈ Finset.range s.loop.nextConn, (bytes c).length := by
  refine Finset.sum_le_sum (fun c _ => ?_)
  have hlen := congrArg List.length (h.stream c)
  rw [List.length_append] at hlen
  omega

/-- In a batch there is a next statement of the loop. -/
theorem exists_inBatch (h : StreamInv cfg bytes s) (hwait : s.loop.pc ≠ .epollWait)
    (hgoes : s.loop.pc ≠ .thrown) :
    ∃ l, InBatch l ∧ ofLoop EpollLoop.ownStatement l = 1 ∧ (s.next cfg l).isSome := by
  cases hpc : s.loop.pc with
  | epollWait => exact absurd hpc hwait
  | thrown => exact absurd hpc hgoes
  | loop =>
      refine ⟨.loop .take, trivial, rfl, ?_⟩
      cases hbatch : s.loop.batch <;> simp [next, EpollLoop.next, EpollLoop.take, hpc, hbatch]
  | del fd =>
      exact ⟨.loop .hangUp, trivial, rfl, by simp [next, EpollLoop.next, EpollLoop.hangUp, hpc]⟩
  | close fd =>
      exact ⟨.loop .hangUp, trivial, rfl, by simp [next, EpollLoop.next, EpollLoop.hangUp, hpc]⟩
  | accept =>
      refine ⟨.loop (.accept4 (.error .success)), trivial, rfl, ?_⟩
      simp [next, EpollLoop.next, EpollLoop.accept4, Errno.wouldBlock, hpc]
  | add fd =>
      refine ⟨.loop (.epollAdd (some .success)), trivial, rfl, ?_⟩
      simp [next, EpollLoop.next, EpollLoop.epollAdd, hpc]
  | drain fd =>
      have hat : EpollLoop.atWork s.loop.pc = some fd := by rw [hpc]; rfl
      obtain ⟨c, hopen⟩ := h.loop.at_open hat
      refine ⟨.loop (.read (.fail .success)), trivial, rfl, ?_⟩
      simp [next, read, EpollLoop.next, EpollLoop.read, Peer.read, Errno.wouldBlock, hpc, hopen]
  | rearm fd =>
      refine ⟨.loop (.epollMod (some .success)), trivial, rfl, ?_⟩
      simp [next, EpollLoop.next, EpollLoop.epollMod, hpc]

/--
**The event loop gets back to `epoll_wait`.** For both loops, clients that send finitely much,
every reachable state and any events: however the batch goes on, as long as the loop is not
back its statements are at most three for each event and one, two for each connection that
was waiting or has arrived, and one for each byte its clients send; and until it is back it
has a next statement, unless an exception is on its way out. Only a loop that reads over the
end of a stream can make more of them, one for each such `read()`.
-/
theorem batch_ends (h : (machine cfg bytes).Reachable s) {evs : List LoopEvent}
    (hs : s.next cfg (.loop (.epollWait evs)) = some s') {ls : List Label}
    (hrun : (machine cfg bytes).run s' ls = some t)
    (hbatch : (machine cfg bytes).Along (fun _ l => InBatch l) s' ls) :
    Machine.weight (ofLoop EpollLoop.ownStatement) ls
        ≤ 3 * evs.length + 1
          + 2 * (s.loop.acceptQueue + Machine.weight (ofLoop EpollLoop.arrives) ls)
          + ∑ c ∈ Finset.range t.loop.nextConn, (bytes c).length
          + Machine.weight (ofLoop (EpollLoop.readOver cfg)) ls
      ∧ (t.loop.pc ≠ .epollWait → t.loop.pc ≠ .thrown →
          ∃ l, InBatch l ∧ ofLoop EpollLoop.ownStatement l = 1 ∧ (t.next cfg l).isSome) := by
  have hr : (machine cfg bytes).Reachable s' :=
    .tail (a := .loop (.epollWait evs)) h trivial hs
  have hrt : (machine cfg bytes).Reachable t := hr.of_run Machine.along_true hrun
  refine ⟨?_, exists_inBatch (streamInv_reachable hrt)⟩
  have hpaid := Machine.accounting_leaving (I := StreamInv cfg bytes) (fun s => s.loop.batchLeft)
    (fun s => s.loop.passedOn) (ofLoop EpollLoop.ownStatement) _ (streamInv_reachable hr)
    (fun _ _ _ hi _ hn => streamInv_step hi (next_cases hn))
    (fun _ _ _ hi hl hn => batchLeft_step hi hl (next_cases hn)) hrun hbatch
  have hfirst : s'.loop.batchLeft = 3 * evs.length + 1 + 2 * s.loop.acceptQueue := by
    cases next_cases hs with
    | epollWait _ hstep | other _ _ hstep =>
        exact EpollLoop.batchLeft_epollWait (streamInv_reachable h).done hstep
  have hsent := passedOn_le (streamInv_reachable hrt)
  rw [Machine.weight_add, Machine.weight_mul, hfirst] at hpaid
  omega

/-- A second connection arrives while the two bytes of the first are read. -/
def readsTwo : List Label :=
  [.loop .take, .loop (.read (.data [104])), .loop .arrive, .loop (.read (.data [105]))]

theorem batch_ends_readsTwo :
    ∃ t : LoopPeers, t.loop.pc = .drain 5
      ∧ Machine.weight (ofLoop EpollLoop.ownStatement) readsTwo = 3
      ∧ Machine.weight (ofLoop EpollLoop.ownStatement) readsTwo ≤ 3 * 1 + 1 + 2 * (0 + 1) + 2 + 0
      ∧ ∃ l, InBatch l ∧ ofLoop EpollLoop.ownStatement l = 1 ∧ (t.next worker l).isSome := by
  have hval : ((machine worker twoBytes).run (start worker twoBytes) bytesArrive).bind
      (fun s => (s.next worker (.loop (.epollWait [⟨{ epollin := true }, 5⟩]))).bind (fun s' =>
        ((machine worker twoBytes).run s' readsTwo).map (fun t =>
          (s.loop.acceptQueue, t.loop.pc, t.loop.nextConn,
            decide ((machine worker twoBytes).Along (fun _ l => InBatch l) s' readsTwo)))))
      = some (0, .drain 5, 1, true) := by decide +kernel
  obtain ⟨s, hrun, hval⟩ := Option.bind_eq_some_iff.mp hval
  obtain ⟨s', hs, hval⟩ := Option.bind_eq_some_iff.mp hval
  obtain ⟨t, ht, heq⟩ := Option.map_eq_some_iff.mp hval
  simp only [Prod.mk.injEq, decide_eq_true_eq] at heq
  obtain ⟨hqueue, hpc, hconns, hbatch⟩ := heq
  have hr : (machine worker twoBytes).Reachable s :=
    .of_run (.init rfl) Machine.along_true hrun
  obtain ⟨hle, hnext⟩ := batch_ends hr hs ht hbatch
  rw [hqueue, hconns] at hle
  exact ⟨t, hpc, by decide, hle, hnext (by rw [hpc]; simp) (by rw [hpc]; simp)⟩

end TcpServers.LoopPeers
