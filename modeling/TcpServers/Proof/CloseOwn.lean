import TcpServers.Proof.OwnershipStep

/-!
# `closeConnection` closes its own connection

Each statement of `closeConnection` reads `conn_fd` again. Before `remove` it
reads the element the worker is at work for, and afterwards the storage that was
freed. As long as no allocation takes that storage, the descriptor read is the one
the event was for, to the last statement, and what belongs to other connections
is not touched.

When `insert` does take it, the remaining statements read the descriptor of the new
connection: they deregister and close that one. When a string for the log does, they
read what it has there, and the connection's own descriptor stays open.
-/

namespace TcpServers.Server

open Lib ConnectionDataManager

variable {ι : Type} {cfg : Config ι} {s s' : Server ι} {i : ι}

/-- A statement of `closeConnection`, for an event of the file `f`, that minds its own business. -/
structure ClosesOwn (cfg : Config ι) (s s' : Server ι) (p : Addr) (v : Fd) (f : File)
    (cpc : ClosePc) : Prop where
  /-- The descriptor it reads is the one the event was for. -/
  own : cpc ≠ .store → s.fdTable (s.connFd cfg p v) = some f
  /-- That is closed once. -/
  once : ∀ c, f = .conn c → s'.closes c ≤ 1 ∧ (cpc = .store → s.closes c = 1)
  /-- Nothing else that is open is changed, nor what belongs to it. -/
  others : ∀ fd g, s.fdTable fd = some g → g ≠ f →
    s'.fdTable fd = some g ∧ s'.data.lookup fd = s.data.lookup fd
      ∧ (∀ ep, s'.interest ep fd = s.interest ep fd)
      ∧ ∀ e, s.data.lookup fd = some e → s'.mem e.addr = s.mem e.addr

/-- The descriptor of another open file is not the one `closeConnection` reads. -/
theorem OwnInv.other_fd (h : OwnInv cfg s) {p : Addr} {v : Fd} {f : File} {cpc : ClosePc}
    (hpc : (s.worker i).pc = .close p v f cpc) (hstore : cpc ≠ .store) {fd : Fd} {g : File}
    (hg : s.fdTable fd = some g) (hne : g ≠ f) : fd ≠ s.connFd cfg p v := by
  intro hfd
  rw [hfd, h.closing_fd hpc hstore] at hg
  exact hne (Option.some.inj hg).symm

/-- The statement `conn_fd = -1` reaches no element of the map. -/
theorem OwnInv.store_mem (h : OwnInv cfg s) {p : Addr} {v : Fd} {f : File}
    (hpc : (s.worker i).pc = .close p v f .store) {fd : Fd} {e : Entry}
    (hl : s.data.lookup fd = some e) : (s.storeClosed cfg p).mem e.addr = s.mem e.addr := by
  have hok := h.pcs i
  rw [hpc] at hok
  obtain ⟨c, _, _, hfreed⟩ := hok
  cases hp : cfg.passing with
  | byValue => simp only [storeClosed_mem, hp]
  | byReference =>
      simp only [storeClosed_mem, hp]
      refine Function.update_of_ne ?_ _ _
      intro heq
      subst heq
      exact (hfreed hp).2 ⟨fd, e, hl, rfl⟩

variable [DecidableEq ι]

/--
**`closeConnection` closes its own connection**, in every run in which no allocation
takes storage that a worker inside `closeConnection` still refers to.
-/
theorem close_own {p : Addr} {v : Fd} {f : File} {cpc : ClosePc}
    (h : (machine cfg).ReachableVia NoReuse s) (hpc : (s.worker i).pc = .close p v f cpc)
    (hs : s.next cfg (i, .closeConnection) = some s') : ClosesOwn cfg s s' p v f cpc := by
  have hinv : OwnInv cfg s := ownInv_reachable (fun _ _ hc _ => hc) h
  have hinv' : OwnInv cfg s' := ownInv_step hinv (fun _ => noReuse_of_takes rfl) hs
  have hok := hinv.pcs i
  refine ⟨hinv.closing_fd hpc, fun c hc => ⟨hinv'.tables.closes_le c, ?_⟩,
    fun fd g hg hne => ?_⟩
  · intro heq
    subst heq
    rw [hpc] at hok
    obtain ⟨d, rfl, hd, _⟩ := hok
    cases hc
    exact hd
  · cases next_cases hs with
    | closeNegative hpc' _ | closeTest hpc' _ => exact ⟨hg, rfl, fun ep => rfl, fun e _ => rfl⟩
    | closeRemove hpc' =>
        rw [hpc] at hpc'
        cases hpc'
        exact ⟨hg, AList.lookup_erase_ne (hinv.other_fd hpc (by simp) hg hne), fun ep => rfl,
          fun e _ => rfl⟩
    | closeDel hpc' =>
        rw [hpc] at hpc'
        cases hpc'
        refine ⟨hg, rfl, fun ep => ?_, fun e _ => rfl⟩
        exact if_neg (fun hfd => hinv.other_fd hpc (by simp) hg hne hfd.2)
    | closeClose hpc' =>
        rw [hpc] at hpc'
        cases hpc'
        have hfd := hinv.other_fd hpc (by simp) hg hne
        exact ⟨(Function.update_of_ne hfd _ _).trans hg, rfl, fun ep => if_neg hfd, fun e _ => rfl⟩
    | closeStore hpc' =>
        rw [hpc] at hpc'
        cases hpc'
        exact ⟨hg, rfl, fun ep => rfl, fun e hl => hinv.store_mem hpc hl⟩

/-- An error event on descriptor `7`, up to `remove`. -/
def removeSeven : List (Fin 2 × Act) :=
  [(worker0, .deliver 7 { epollerr := true }), (worker0, .wake), (worker0, .take),
    (worker0, .closeConnection), (worker0, .closeConnection)]

theorem close_own_alone :
    ∃ s s' : Server (Fin 2), (s.worker 0).pc = .close 1 7 (.conn 0) .del
      ∧ s.next (shared 2 .byReference) (0, .closeConnection) = some s'
      ∧ ClosesOwn (shared 2 .byReference) s s' 1 7 (.conn 0) .del := by
  have hval : ((machine (shared 2 .byReference)).run (start (shared 2 .byReference))
      (acceptOne 0 7 1 ++ removeSeven)).map (fun s => (s.worker 0).pc)
      = some (.close 1 7 (.conn 0) .del) := by decide +kernel
  obtain ⟨s, hrun, hpc⟩ := Option.map_eq_some_iff.mp hval
  have hr : (machine (shared 2 .byReference)).ReachableVia NoReuse s :=
    .of_run (.init rfl) (by decide +kernel) hrun
  have hnext : ∃ s', s.next (shared 2 .byReference) (0, .closeConnection) = some s' := by
    simp only [next, closeConnection, hpc]
    exact ⟨_, rfl⟩
  obtain ⟨s', hs⟩ := hnext
  exact ⟨s, s', hpc, hs, close_own hr hpc hs⟩

/-- Before the deregistration the other worker accepts into the storage just freed. -/
def acceptedInto : List (Fin 2 × Act) :=
  acceptOne worker0 7 1 ++ removeSeven
    ++ [(worker1, .deliver 3 { epollin := true }), (worker1, .wake), (worker1, .take),
      (worker1, .accept4 (.ok 8)), (worker1, .insert 1)]

/-- `closeConnection` does not always close its own connection. -/
theorem close_foreign :
    ¬ ∀ (ι : Type) [DecidableEq ι] (cfg : Config ι) (s s' : Server ι) (i : ι) (p : Addr) (v : Fd)
        (f : File) (cpc : ClosePc), cfg.passing = .byReference → (machine cfg).Reachable s →
          (s.worker i).pc = .close p v f cpc →
            s.next cfg (i, .closeConnection) = some s' → ClosesOwn cfg s s' p v f cpc := by
  intro hall
  have hval : ((machine (shared 2 .byReference)).run (start (shared 2 .byReference))
      acceptedInto).map
      (fun s => ((s.worker 0).pc, s.fdTable (s.connFd (shared 2 .byReference) 1 7)))
      = some (.close 1 7 (.conn 0) .del, some (.conn 1)) := by decide +kernel
  obtain ⟨s, hrun, heq⟩ := Option.map_eq_some_iff.mp hval
  obtain ⟨hpc, hfd⟩ := Prod.mk.inj heq
  have hr : (machine (shared 2 .byReference)).Reachable s :=
    .of_run (.init rfl) (by decide +kernel) hrun
  have hnext : ∃ s', s.next (shared 2 .byReference) (0, .closeConnection) = some s' := by
    simp only [next, closeConnection, hpc]
    exact ⟨_, rfl⟩
  obtain ⟨s', hs⟩ := hnext
  have hown := (hall (Fin 2) _ s s' 0 1 7 _ _ rfl hr hpc hs).own (by decide)
  rw [hfd] at hown
  cases hown

end TcpServers.Server
