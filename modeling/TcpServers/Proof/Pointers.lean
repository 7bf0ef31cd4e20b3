import TcpServers.Proof.OwnershipStep

/-!
# No stale, foreign or null event pointer

An element is inserted before its descriptor is added to epoll and removed before
it is closed, and only the worker that took the one-shot event removes it. So a
pointer that epoll can hand out, or has handed out and no worker has looked at
yet, is an element of the map, under the descriptor it is registered for, however
soon the kernel reuses descriptors and the allocator storage. `conn_fd` is taken
by value here.
-/

namespace TcpServers.Server

open Lib

variable {ι : Type} {cfg : Config ι} {s : Server ι}

/-- The pointer is the element that is in the map for the descriptor. -/
def Current (s : Server ι) (fd : Fd) (ptr : Option Addr) : Prop :=
  ∃ e, ptr = some e.addr ∧ s.data.lookup fd = some e ∧ (s.mem e.addr).connFd = fd

theorem Tables.current (h : Tables cfg s) {fd : Fd} {e : Entry} {ptr : Option Addr}
    (hl : s.data.lookup fd = some e) (hptr : ptr = some e.addr) : Current s fd ptr :=
  ⟨e, hptr, hl, (h.entry fd e hl).2⟩

variable [DecidableEq ι]

/--
**Event pointers are current.** With `conn_fd` passed by value: `insert` returns a
pointer whenever it is called, and the pointer of every armed registration and of
every event that waits in a batch is the element of its descriptor.
-/
theorem pointers_current (hp : cfg.passing = .byValue) (h : (machine cfg).Reachable s) :
    (∀ i fd c a, (s.worker i).pc = .insert fd c →
        (ConnectionDataManager.insert s.data fd ⟨a, .conn c⟩).2 = some a)
      ∧ (∀ ep fd reg, s.interest ep fd = some reg → reg.armed = true → Current s fd reg.ptr)
      ∧ ∀ i, ∀ ev ∈ (s.worker i).batch, Current s ev.fd ev.ptr := by
  have hinv : OwnInv cfg s := by
    refine ownInv_reachable (fun _ _ _ href => ?_) h
    rw [hp] at href
    cases href
  refine ⟨fun i fd c a hpc => ?_, fun ep fd reg hr harmed => ?_, fun i ev hev => ?_⟩
  · have hok := hinv.pcs i
    rw [hpc] at hok
    simp only [ConnectionDataManager.insert, hok.2.1]
  · obtain ⟨e, hl, hptr⟩ := hinv.tables.armed ep fd reg hr harmed
    exact hinv.tables.current hl hptr
  · obtain ⟨a, hptr, hl⟩ := (hinv.events i ev hev).entry
    exact hinv.tables.current hl hptr

/--
Between `close` and the end of `closeConnection` the other worker accepts again:
the same descriptor, the same storage, and an event for it right away.
-/
def reused : List (Fin 2 × Act) :=
  acceptOne worker0 7 1
    ++ [(worker0, .deliver 7 { epollerr := true }), (worker0, .wake), (worker0, .take),
      (worker0, .closeConnection), (worker0, .closeConnection), (worker0, .closeConnection),
      (worker0, .closeConnection)]
    ++ acceptOne worker1 7 1
    ++ [(worker1, .deliver 7 { epollin := true }), (worker0, .closeConnection)]

theorem pointers_current_reused :
    ∃ s : Server (Fin 2), (s.worker 1).batch = [⟨{ epollin := true }, some 1, 7, .conn 1⟩]
      ∧ Current s 7 (some 1) := by
  have hval : ((machine (shared 2 .byValue)).run (start (shared 2 .byValue)) reused).map
      (fun s => (s.worker 1).batch)
      = some [⟨{ epollin := true }, some 1, 7, .conn 1⟩] := by decide +kernel
  obtain ⟨s, hrun, hbatch⟩ := Option.map_eq_some_iff.mp hval
  have hr : (machine (shared 2 .byValue)).Reachable s :=
    .of_run (.init rfl) (by decide +kernel) hrun
  have hcurrent := (pointers_current rfl hr).2.2 1 _ (by rw [hbatch]; exact List.mem_cons_self)
  exact ⟨s, hbatch, hcurrent⟩

end TcpServers.Server
