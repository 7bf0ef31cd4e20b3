import TcpServers.Proof.LoopOwnership

/-!
# No connection is lost on the edge-triggered listener

An edge is gone once its event is fetched, and from then on the accept loop is still to
come or is running: it ends only on an empty queue. Whatever arrives after that has an
edge of its own. So a connection in the queue always has something to point to it, and
where the loop waits that can only be an edge.
-/

namespace TcpServers.EpollLoop

open Lib

variable {cfg : Config} {s s' : EpollLoop} {l : Label}

/-- Something will make the loop look at the accept queue. -/
def Noticed (cfg : Config) (s : EpollLoop) : Prop :=
  s.edge = true ∨ (∃ ev ∈ s.batch, ev.fd = cfg.serverSfd) ∨ s.pc = .accept
    ∨ (∃ fd, s.pc = .add fd) ∨ s.pc = .thrown

/-- The accept queue and the accepted connections. -/
structure ListenerInv (cfg : Config) (s : EpollLoop) : Prop where
  loop : LoopInv cfg s
  noticed : 0 < s.acceptQueue → Noticed cfg s
  added : ∀ c, c < s.nextConn →
    s.added c = true ∨ (∃ fd, s.pc = .add fd ∧ s.fdTable fd = some c) ∨ s.pc = .thrown

theorem listenerInv_start (cfg : Config) : ListenerInv cfg (start cfg) where
  loop := loopInv_start cfg
  noticed := by
    intro hqueue
    exact Or.inl (decide_eq_true hqueue)
  added := by
    intro c hc
    exact absurd hc (Nat.not_lt_zero c)

/-- Away from the accept loop, what will be noticed is in the edge or in the batch. -/
theorem ListenerInv.noticed_batch (h : ListenerInv cfg s) (hqueue : 0 < s.acceptQueue)
    (haccept : s.pc ≠ .accept) (hadd : ∀ fd, s.pc ≠ .add fd) (hthrown : s.pc ≠ .thrown) :
    s.edge = true ∨ ∃ ev ∈ s.batch, ev.fd = cfg.serverSfd := by
  rcases h.noticed hqueue with hedge | hbatch | hpc | ⟨fd, hpc⟩ | hpc
  · exact Or.inl hedge
  · exact Or.inr hbatch
  · exact absurd hpc haccept
  · exact absurd hpc (hadd fd)
  · exact absurd hpc hthrown

/-- Away from `EPOLL_CTL_ADD`, what was accepted has been added. -/
theorem ListenerInv.added_all (h : ListenerInv cfg s) (hadd : ∀ fd, s.pc ≠ .add fd)
    (hthrown : s.pc ≠ .thrown) {c : Nat} (hc : c < s.nextConn) : s.added c = true := by
  rcases h.added c hc with hdone | ⟨fd, hpc, _⟩ | hpc
  · exact hdone
  · exact absurd hpc (hadd fd)
  · exact absurd hpc hthrown

/-- Steps that leave the queue, the edge and the batch alone, away from the accept loop. -/
theorem ListenerInv.of_same (h : ListenerInv cfg s) (hloop : LoopInv cfg s')
    (hpc : s.pc ≠ .accept ∧ (∀ fd, s.pc ≠ .add fd) ∧ s.pc ≠ .thrown)
    (hqueue : s'.acceptQueue = s.acceptQueue) (hedge : s'.edge = s.edge)
    (hbatch : s'.batch = s.batch) (hnext : s'.nextConn = s.nextConn)
    (hadded : s'.added = s.added) : ListenerInv cfg s' where
  loop := hloop
  noticed := by
    intro hpos
    rw [hqueue] at hpos
    unfold Noticed
    rw [hedge, hbatch]
    rcases h.noticed_batch hpos hpc.1 hpc.2.1 hpc.2.2 with he | hb
    · exact Or.inl he
    · exact Or.inr (Or.inl hb)
  added := by
    intro c hc
    rw [hnext] at hc
    rw [hadded]
    exact Or.inl (h.added_all hpc.2.1 hpc.2.2 hc)

theorem listenerInv_fetched (h : ListenerInv cfg s) (hpc : s.pc = .epollWait) {ev : LoopEvent}
    (hf : Fetched cfg s ev s') : ListenerInv cfg s' := by
  have hloop := loopInv_fetched h.loop hpc hf
  cases hf with
  | listener hfd =>
      refine ⟨hloop, fun _ => Or.inr (Or.inl ⟨ev, ?_, hfd⟩), h.added⟩
      exact List.mem_append_right _ List.mem_cons_self
  | client hfd =>
      refine ⟨hloop, fun hqueue => ?_, h.added⟩
      rcases h.noticed hqueue with hedge | ⟨e, he, hefd⟩ | hrest
      · exact Or.inl hedge
      · exact Or.inr (Or.inl ⟨e, List.mem_append_left _ he, hefd⟩)
      · exact Or.inr (Or.inr hrest)

theorem listenerInv_take (h : ListenerInv cfg s) (hpc : s.pc = .loop) {ev : LoopEvent}
    {rest : List LoopEvent} (hbatch : s.batch = ev :: rest) :
    ListenerInv cfg { s with pc := dispatch cfg ev, batch := rest } := by
  refine ⟨loopInv_take h.loop hpc hbatch, fun hqueue => ?_, fun c hc => Or.inl ?_⟩
  · have hev : ev ∈ s.batch := by
      rw [hbatch]
      exact List.mem_cons_self
    rcases h.noticed_batch hqueue (by simp [hpc]) (by simp [hpc]) (by simp [hpc])
      with hedge | ⟨e, he, hefd⟩
    · exact Or.inl hedge
    · rw [hbatch, List.mem_cons] at he
      rcases he with rfl | he
      · -- the listener's event leads to the accept loop
        obtain ⟨hin, hrdhup⟩ := h.loop.connection e hev hefd
        refine Or.inr (Or.inr (Or.inl ?_))
        show dispatch cfg e = .accept
        unfold dispatch
        rw [hrdhup, hin, if_neg (by simp), if_pos rfl, if_pos hefd]
      · exact Or.inr (Or.inl ⟨e, he, hefd⟩)
  · exact h.added_all (by simp [hpc]) (by simp [hpc]) hc

/-- `EPOLL_CTL_ADD` adds the connection that was accepted last. -/
theorem listenerInv_added (h : ListenerInv cfg s) {fd : Fd} {c : Nat} (hpc : s.pc = .add fd)
    (hopen : s.fdTable fd = some c) :
    ListenerInv cfg
      { s with
        interest := Function.update s.interest fd (some ⟨clientMask, true⟩)
        pc := .accept
        added := Function.update s.added c true } := by
  refine ⟨loopInv_armed h.loop (by rw [hpc]; rfl) (Or.inl rfl),
    fun _ => Or.inr (Or.inr (Or.inl rfl)), fun d hd => Or.inl ?_⟩
  show Function.update s.added c true d = true
  by_cases hdc : d = c
  · rw [hdc, Function.update_self]
  · rw [Function.update_of_ne hdc]
    rcases h.added d hd with hdone | ⟨f, hf, hfd⟩ | hthrown
    · exact hdone
    · rw [hpc] at hf
      cases hf
      exact absurd (Option.some.inj (hfd.symm.trans hopen)) hdc
    · rw [hpc] at hthrown
      cases hthrown

/-- **Preserved by every step.** -/
theorem listenerInv_step (h : ListenerInv cfg s) (hs : Step cfg s l s') : ListenerInv cfg s' := by
  have hloop := loopInv_step h.loop hs
  cases hs with
  | arrive => exact ⟨hloop, fun _ => Or.inl rfl, h.added⟩
  | @epollWait evs m hpc hfetch =>
      have hm : ListenerInv cfg m ∧ m.pc = .epollWait := by
        refine fetches_induction (P := fun s => ListenerInv cfg s ∧ s.pc = .epollWait) ?_ hfetch
          ⟨h, hpc⟩
        intro s ev s' hs hf
        refine ⟨listenerInv_fetched hs.1 hs.2 hf, ?_⟩
        cases hf <;> exact hs.2
      exact hm.1.of_same hloop (by simp [hm.2]) rfl rfl rfl rfl rfl
  | waitFailed hpc | endBatch hpc | del hpc | close hpc | endOfStream hpc | chunk hpc
  | drained hpc | readFailed hpc | rearmed hpc | rearmFailed hpc =>
      exact h.of_same hloop (by simp [hpc]) rfl rfl rfl rfl rfl
  | take hpc hbatch => exact listenerInv_take h hpc hbatch
  | @accepted fd hpc _ _ _ _ =>
      refine ⟨hloop, fun _ => Or.inr (Or.inr (Or.inr (Or.inl ⟨fd, rfl⟩))), fun c hc => ?_⟩
      rcases Nat.lt_succ_iff_lt_or_eq.mp hc with hlt | rfl
      · exact Or.inl (h.added_all (by simp [hpc]) (by simp [hpc]) hlt)
      · exact Or.inr (Or.inl ⟨fd, rfl, Function.update_self _ _ _⟩)
  | noMore hpc _ hqueue =>
      refine ⟨hloop, fun hpos => ?_, fun c hc => Or.inl ?_⟩
      · have hzero : 0 < s.acceptQueue := hpos
        omega
      · exact h.added_all (by simp [hpc]) (by simp [hpc]) hc
  | acceptFailed | addFailed =>
      exact ⟨hloop, fun _ => Or.inr (Or.inr (Or.inr (Or.inr rfl))), fun _ _ => Or.inr (Or.inr rfl)⟩
  | added hpc hopen => exact listenerInv_added h hpc hopen

theorem listenerInv_reachable {C : EpollLoop → Label → Prop}
    (h : (machine cfg).ReachableVia C s) : ListenerInv cfg s := by
  refine Machine.ReachableVia.invariant ?_ ?_ h
  · intro s hinit
    subst hinit
    exact listenerInv_start cfg
  · intro s l s' _ hi _ hs
    exact listenerInv_step hi (next_cases hs)

/--
**No connection is lost.** For either loop and any arrivals: whenever the loop waits in
`epoll_wait` the accept queue is empty or an edge is queued, and every accepted
connection has been added to epoll, unless it is just about to be or the loop has thrown.
-/
theorem no_lost_connection (h : (machine cfg).Reachable s) :
    (s.pc = .epollWait → (s.acceptQueue = 0 ∨ s.edge = true)
      ∧ ∀ c, c < s.nextConn → s.added c = true)
    ∧ ∀ c, c < s.nextConn →
      s.added c = true ∨ (∃ fd, s.pc = .add fd ∧ s.fdTable fd = some c) ∨ s.pc = .thrown := by
  have hinv := listenerInv_reachable h
  refine ⟨fun hpc => ⟨?_, fun c hc => ?_⟩, hinv.added⟩
  · rcases Nat.eq_zero_or_pos s.acceptQueue with hzero | hpos
    · exact Or.inl hzero
    · rcases hinv.noticed_batch hpos (by simp [hpc]) (by simp [hpc]) (by simp [hpc])
        with hedge | ⟨ev, hev, _⟩
      · exact Or.inr hedge
      · rw [batchDone_reachable h hpc] at hev
        cases hev
  · exact hinv.added_all (by simp [hpc]) (by simp [hpc]) hc

/-- A second connection arrives between the `EAGAIN` answer and the next `epoll_wait`. -/
def arrivesLate : List Label :=
  [.epollWait [⟨{ epollin := true }, 3⟩], .take, .accept4 (.ok 5), .epollAdd none,
    .accept4 (.error .eagain), .arrive, .take]

theorem no_lost_connection_arrivesLate :
    ∃ s : EpollLoop, s.pc = .epollWait ∧ s.acceptQueue = 1 ∧ s.edge = true ∧ s.added 0 = true := by
  have hval : ((machine ⟨.concurrentServers, 3, 1⟩).run (start ⟨.concurrentServers, 3, 1⟩)
      arrivesLate).map (fun s => (s.pc, s.acceptQueue, s.nextConn)) = some (.epollWait, 1, 1) := by
    decide +kernel
  obtain ⟨s, hrun, heq⟩ := Option.map_eq_some_iff.mp hval
  simp only [Prod.mk.injEq] at heq
  obtain ⟨hpc, hqueue, hnext⟩ := heq
  have hr : (machine ⟨.concurrentServers, 3, 1⟩).Reachable s :=
    .of_run (.init rfl) (by decide +kernel) hrun
  obtain ⟨hedge, hadded⟩ := (no_lost_connection hr).1 hpc
  refine ⟨s, hpc, hqueue, hedge.resolve_left (by omega), hadded 0 (by omega)⟩

end TcpServers.EpollLoop
