import TcpServers.Lib.Ownership
import TcpServers.Proof.Effects

/-!
# Who works on a connection

A one-shot registration is a token. While it is armed nobody works on the
connection; the `epoll_wait` that delivers its event takes it, and the worker
holds the connection from its batch through the handler until it re-arms, or
through `closeConnection` until the descriptor is closed. A connection being
accepted is held the same way until it is added to epoll.

`OwnInv` is this discipline together with what it protects: the tables agree
with each other, every event and every statement refers to an element that is in
the map, and inside `closeConnection` the reference still reads the descriptor the
event was for. The last point needs `NoReuse` when `conn_fd` is passed by
reference, and nothing else does.
-/

namespace TcpServers.Server

open Lib ConnectionDataManager

variable {ι : Type} {cfg : Config ι} {s : Server ι} {i j : ι}

/-- The statements that follow a re-arm: those of `reset()`. -/
def pastRearm : HandlerPc → Bool
  | .resetReadIndex => true
  | .resetWriteIndex => true
  | .resetReady => true
  | _ => false

/-- The connection a statement is at work for. -/
def atWork : WorkerPc → Option Nat
  | .insert _ c => some c
  | .add _ _ c => some c
  | .handle _ file pc => if pastRearm pc then none else file.conn?
  | .close _ _ _ .store => none
  | .close _ _ file _ => file.conn?
  | _ => none

/-- The connections a worker holds: at its statement, and in its batch. -/
def holds (w : Worker) : List Nat :=
  (atWork w.pc).toList ++ w.batch.filterMap (fun ev => ev.file.conn?)

/-- The connection's event can be delivered. -/
def Armed (s : Server ι) (c : Nat) : Prop :=
  ∃ ep fd reg, s.interest ep fd = some reg ∧ reg.armed = true ∧ s.fdTable fd = some (.conn c)

/-- What the reference in `closeConnection` is worth once `remove` has freed the storage. -/
def Freed (cfg : Config ι) (s : Server ι) (p : Addr) (fd : Fd) : Prop :=
  cfg.passing = .byReference → (s.mem p).connFd = fd ∧ ¬ Owns s.data p

/-- What a statement relies on. -/
def PcOk (cfg : Config ι) (s : Server ι) : WorkerPc → Prop
  | .insert fd c =>
      s.fdTable fd = some (.conn c) ∧ s.data.lookup fd = none ∧ ∀ ep, s.interest ep fd = none
  | .add fd ptr c =>
      (∃ a, ptr = some a ∧ s.data.lookup fd = some ⟨a, .conn c⟩) ∧ ∀ ep, s.interest ep fd = none
  | .handle p file pc =>
      pastRearm pc = false → ∃ c fd, file = .conn c ∧ s.data.lookup fd = some ⟨p, file⟩
  | .close p fd file .test => ∃ c, file = .conn c ∧ s.data.lookup fd = some ⟨p, file⟩
  | .close p fd file .remove => ∃ c, file = .conn c ∧ s.data.lookup fd = some ⟨p, file⟩
  | .close p fd file .del =>
      ∃ c, file = .conn c ∧ s.fdTable fd = some file ∧ s.data.lookup fd = none ∧ Freed cfg s p fd
  | .close p fd file .close =>
      ∃ c, file = .conn c ∧ s.fdTable fd = some file ∧ s.data.lookup fd = none ∧ Freed cfg s p fd
  | .close p fd file .store => ∃ c, file = .conn c ∧ s.closes c = 1 ∧ Freed cfg s p fd
  | _ => True

/-- What an event in the batch of a worker on `ep` relies on. -/
structure EventOk (s : Server ι) (ep : Ep) (ev : Event) : Prop where
  entry : ∃ a, ev.ptr = some a ∧ s.data.lookup ev.fd = some ⟨a, ev.file⟩
  listener : ∀ ep', ev.file = .listener ep' → ep' = ep

/-- The descriptors, the map, the storage and the registrations agree. -/
structure Tables (cfg : Config ι) (s : Server ι) : Prop where
  /-- A closed descriptor is nowhere. -/
  closed : ∀ fd, s.fdTable fd = none → s.data.lookup fd = none ∧ ∀ ep, s.interest ep fd = none
  /-- An element is under the descriptor its `conn_fd_` says, and that is open. -/
  entry : ∀ fd e, s.data.lookup fd = some e →
    s.fdTable fd = some e.file ∧ (s.mem e.addr).connFd = fd
  addr : ∀ fd fd' e e', s.data.lookup fd = some e → s.data.lookup fd' = some e' →
    e.addr = e'.addr → fd = fd'
  /-- What an armed registration points to is in the map. -/
  armed : ∀ ep fd reg, s.interest ep fd = some reg → reg.armed = true →
    ∃ e, s.data.lookup fd = some e ∧ reg.ptr = some e.addr
  one : ∀ ep ep' fd, s.interest ep fd ≠ none → s.interest ep' fd ≠ none → ep = ep'
  fd_unique : ∀ fd fd' f, s.fdTable fd = some f → s.fdTable fd' = some f → fd = fd'
  conn : ∀ fd c, s.fdTable fd = some (.conn c) → 0 ≤ fd ∧ c < s.nextConn ∧ s.closes c = 0
  fresh : ∀ c, s.nextConn ≤ c → s.closes c = 0
  closes_le : ∀ c, s.closes c ≤ 1
  listener : ∀ fd ep, s.fdTable fd = some (.listener ep) → ep ∈ cfg.eps ∧ fd = cfg.listenFd ep
  listening : ∀ ep ∈ cfg.eps, s.fdTable (cfg.listenFd ep) = some (.listener ep)
    ∧ s.data.lookup (cfg.listenFd ep) = some ⟨cfg.listenPtr ep, .listener ep⟩
  /-- Connections are registered one-shot, for reading or for writing. -/
  mask : ∀ ep fd reg c, s.interest ep fd = some reg → s.fdTable fd = some (.conn c) →
    reg.mask = acceptMask ∨ ∃ isRead, reg.mask = rearmMask isRead
  listenEp : ∀ ep fd reg ep', s.interest ep fd = some reg → s.fdTable fd = some (.listener ep') →
    ep' = ep

/-- The state of the server as the workers may rely on it. -/
structure OwnInv (cfg : Config ι) (s : Server ι) : Prop where
  holds : Exclusive (fun i => holds (s.worker i)) (Armed s)
  tables : Tables cfg s
  events : ∀ i, ∀ ev ∈ (s.worker i).batch, EventOk s (cfg.epollFd i) ev
  pcs : ∀ i, PcOk cfg s (s.worker i).pc
  /-- No two workers have a reference to the same freed storage. -/
  freed : cfg.passing = .byReference → ∀ i j p, dangling (s.worker i).pc = some p →
    dangling (s.worker j).pc = some p → i = j

/-- No allocation takes storage that a worker in `closeConnection` still refers to. -/
def NoReuse (s : Server ι) (l : ι × Act) : Prop :=
  ∀ a ∈ l.2.takes, ∀ j, dangling (s.worker j).pc ≠ some a

instance {n : Nat} (s : Server (Fin n)) (l : Fin n × Act) : Decidable (NoReuse s l) :=
  inferInstanceAs (Decidable (∀ a ∈ l.2.takes, _))

theorem noReuse_of_takes {l : ι × Act} (h : l.2.takes = none) : NoReuse s l := by
  intro a ha
  rw [h] at ha
  cases ha

/-! ## What holding gives -/

/-- Storage belongs to one element of the map. -/
theorem Tables.element_unique (h : Tables cfg s) {fd fd' : Fd} {p : Addr} {f f' : File}
    (hl : s.data.lookup fd = some ⟨p, f⟩) (hl' : s.data.lookup fd' = some ⟨p, f'⟩) :
    fd = fd' ∧ f = f' := by
  have hfd := h.addr fd fd' _ _ hl hl' rfl
  subst hfd
  rw [hl] at hl'
  cases hl'
  exact ⟨rfl, rfl⟩

theorem mem_holds_atWork {c : Nat} (h : atWork (s.worker i).pc = some c) :
    c ∈ holds (s.worker i) := by
  unfold holds
  rw [h]
  exact List.mem_append_left _ (List.mem_singleton.mpr rfl)

theorem mem_holds_event {ev : Event} {c : Nat} (h : ev ∈ (s.worker i).batch)
    (hc : ev.file = .conn c) : c ∈ holds (s.worker i) := by
  refine List.mem_append_right _ (List.mem_filterMap.mpr ⟨ev, h, ?_⟩)
  rw [hc]
  rfl

/-- Two workers are never at work for the same connection. -/
theorem OwnInv.atWork_unique (h : OwnInv cfg s) {c : Nat} (hi : atWork (s.worker i).pc = some c)
    (hj : atWork (s.worker j).pc = some c) : i = j :=
  h.holds.unique i j c (mem_holds_atWork hi) (mem_holds_atWork hj)

/-- The connection a worker is at work for has no event in a batch. -/
theorem OwnInv.no_event (h : OwnInv cfg s) {c : Nat} (hi : atWork (s.worker i).pc = some c)
    {ev : Event} (hev : ev ∈ (s.worker j).batch) : ev.file ≠ .conn c := by
  intro hc
  have hji : j = i := h.holds.unique j i c (mem_holds_event hev hc) (mem_holds_atWork hi)
  subst hji
  have hnodup := h.holds.nodup j
  have hmem : c ∈ (s.worker j).batch.filterMap (fun ev => ev.file.conn?) := by
    refine List.mem_filterMap.mpr ⟨ev, hev, ?_⟩
    rw [hc]
    rfl
  dsimp only [Server.holds] at hnodup
  rw [hi] at hnodup
  exact (List.nodup_cons.mp hnodup).1 hmem

/-- What `closeConnection` reads as `conn_fd` is what it was called with. -/
theorem OwnInv.connFd_eq (h : OwnInv cfg s) {p : Addr} {v : Fd} {f : File} {cpc : ClosePc}
    (hpc : (s.worker i).pc = .close p v f cpc) : s.connFd cfg p v = v := by
  have hok := h.pcs i
  rw [hpc] at hok
  cases hp : cfg.passing with
  | byValue => simp only [connFd, hp]
  | byReference =>
      simp only [connFd, hp]
      cases cpc with
      | test | remove =>
          obtain ⟨c, _, hl⟩ := hok
          exact (h.tables.entry v _ hl).2
      | del | close =>
          obtain ⟨c, _, _, _, hfreed⟩ := hok
          exact (hfreed hp).1
      | store =>
          obtain ⟨c, _, _, hfreed⟩ := hok
          exact (hfreed hp).1

/-- Up to its `close`, the descriptor `closeConnection` reads is the one the event was for. -/
theorem OwnInv.closing_fd (h : OwnInv cfg s) {p : Addr} {v : Fd} {f : File} {cpc : ClosePc}
    (hpc : (s.worker i).pc = .close p v f cpc) (hstore : cpc ≠ .store) :
    s.fdTable (s.connFd cfg p v) = some f := by
  have hok := h.pcs i
  rw [h.connFd_eq hpc]
  rw [hpc] at hok
  cases cpc with
  | test | remove =>
      obtain ⟨c, rfl, hl⟩ := hok
      exact (h.tables.entry v _ hl).1
  | del | close =>
      obtain ⟨c, rfl, hf, _⟩ := hok
      exact hf
  | store => exact absurd rfl hstore

/-- The worker that removes an element is at work for its connection. -/
theorem OwnInv.removing (h : OwnInv cfg s) {p : Addr} {v : Fd} {f : File} {fd : Fd} {e : Entry}
    (hpc : (s.worker i).pc = .close p v f .remove) (hv : s.connFd cfg p v = fd)
    (hl : s.data.lookup fd = some e) :
    ∃ c, e = ⟨p, .conn c⟩ ∧ atWork (s.worker i).pc = some c := by
  have hok := h.pcs i
  rw [hpc] at hok
  obtain ⟨c, rfl, hlv⟩ := hok
  rw [h.connFd_eq hpc] at hv
  subst hv
  rw [hl] at hlv
  cases hlv
  exact ⟨c, rfl, by rw [hpc]; rfl⟩

/-- The worker that closes a descriptor is at work for its connection. -/
theorem OwnInv.closing (h : OwnInv cfg s) {p : Addr} {v : Fd} {f : File} {fd : Fd} {g : File}
    (hpc : (s.worker i).pc = .close p v f .close) (hv : s.connFd cfg p v = fd)
    (hg : s.fdTable fd = some g) :
    ∃ c, g = .conn c ∧ f = .conn c ∧ s.data.lookup fd = none
      ∧ atWork (s.worker i).pc = some c := by
  have hok := h.pcs i
  rw [hpc] at hok
  obtain ⟨c, rfl, hf, hl, _⟩ := hok
  rw [h.connFd_eq hpc] at hv
  subst hv
  rw [hg] at hf
  cases hf
  exact ⟨c, rfl, rfl, hl, by rw [hpc]; rfl⟩

/-- A worker in the handler before its re-arm is at work for an element of the map. -/
theorem OwnInv.handling (h : OwnInv cfg s) {p : Addr} {f : File} {pc : HandlerPc}
    (hpc : (s.worker i).pc = .handle p f pc) (hpast : pastRearm pc = false) :
    ∃ c fd, f = .conn c ∧ s.data.lookup fd = some ⟨p, .conn c⟩ ∧ s.fdTable fd = some (.conn c)
      ∧ (s.mem p).connFd = fd ∧ atWork (s.worker i).pc = some c := by
  have hok := h.pcs i
  rw [hpc] at hok
  obtain ⟨c, fd, rfl, hl⟩ := hok hpast
  have hentry := h.tables.entry fd _ hl
  refine ⟨c, fd, rfl, hl, hentry.1, hentry.2, ?_⟩
  rw [hpc]
  simp [atWork, hpast, File.conn?]

/-- A re-arm is not past itself. -/
theorem pastRearm_of_rearm {pc : HandlerPc} {isRead : Bool} (h : pc.rearm? = some isRead) :
    pastRearm pc = false := by
  cases pc with
  | resetReadIndex | resetWriteIndex | resetReady => cases h
  | _ => rfl

/-- A connection that is held is open. -/
theorem OwnInv.held_open (h : OwnInv cfg s) {c : Nat} (hc : c ∈ Server.holds (s.worker i)) :
    ∃ fd, s.fdTable fd = some (.conn c) := by
  rcases List.mem_append.mp hc with hpc | hev
  · have hat : atWork (s.worker i).pc = some c := by simpa using hpc
    have hok := h.pcs i
    cases hpc : (s.worker i).pc with
    | insert fd d =>
        rw [hpc] at hok hat
        cases hat
        exact ⟨fd, hok.1⟩
    | add fd ptr d =>
        rw [hpc] at hok hat
        cases hat
        obtain ⟨⟨a, _, hl⟩, _⟩ := hok
        exact ⟨fd, (h.tables.entry fd _ hl).1⟩
    | handle p f pc =>
        have hpast : pastRearm pc = false := by
          rw [hpc] at hat
          by_contra hne
          rw [atWork, if_pos (by simpa using hne)] at hat
          cases hat
        obtain ⟨d, fd, _, _, hopen, _, hat'⟩ := h.handling hpc hpast
        rw [hat] at hat'
        cases hat'
        exact ⟨fd, hopen⟩
    | close p v f cpc =>
        rw [hpc] at hok hat
        cases cpc with
        | test | remove =>
            obtain ⟨d, rfl, hl⟩ := hok
            cases hat
            exact ⟨v, (h.tables.entry v _ hl).1⟩
        | del | close =>
            obtain ⟨d, rfl, hopen, _⟩ := hok
            cases hat
            exact ⟨v, hopen⟩
        | store => cases hat
    | _ =>
        rw [hpc] at hat
        cases hat
  · obtain ⟨ev, hmem, hfile⟩ := List.mem_filterMap.mp hev
    obtain ⟨a, _, hl⟩ := (h.events i ev hmem).entry
    refine ⟨ev.fd, ?_⟩
    rw [(h.tables.entry ev.fd _ hl).1]
    cases hf : ev.file with
    | listener ep => rw [hf] at hfile; cases hfile
    | conn d => rw [hf] at hfile; cases hfile; rfl

/-- A worker that takes nothing holds no more than before. -/
theorem holds_sublist {w w' : Worker} (hbatch : w'.batch = w.batch)
    (hpc : atWork w'.pc = none ∨ atWork w'.pc = atWork w.pc) :
    (holds w').Sublist (holds w) := by
  unfold holds
  rw [hbatch]
  refine List.Sublist.append_right ?_ _
  rcases hpc with hnone | heq
  · rw [hnone]
    exact List.nil_sublist _
  · rw [heq]

/-- A worker that re-arms a connection does not hold it any more. -/
theorem OwnInv.released (h : OwnInv cfg s) {w : Worker} {c : Nat}
    (hat : atWork (s.worker i).pc = some c) (hpc : atWork w.pc = none)
    (hbatch : w.batch = (s.worker i).batch) : c ∉ Server.holds w := by
  intro hc
  rw [Server.holds, hpc, hbatch] at hc
  obtain ⟨ev, hmem, hfile⟩ := List.mem_filterMap.mp (by simpa using hc)
  have hne := h.no_event hat hmem
  cases hf : ev.file with
  | listener ep => rw [hf] at hfile; cases hfile
  | conn d => rw [hf] at hfile hne; cases hfile; exact hne rfl

/-! ## What a statement leaves to the next -/

/-- Where `Worker::start` goes with an event: to its own connection, or to accept more. -/
theorem dispatched_ok (h : OwnInv cfg s) {ev : Event} {p : Addr}
    (hev : EventOk s (cfg.epollFd i) ev) (hptr : ev.ptr = some p) :
    PcOk cfg s (s.dispatched cfg i ev p) := by
  obtain ⟨a, ha, hl⟩ := hev.entry
  rw [hptr] at ha
  cases ha
  have hfd := (h.tables.entry ev.fd _ hl).2
  unfold dispatched
  split
  · trivial
  · rename_i hne
    have hconn : ∃ c, ev.file = .conn c := by
      cases hfile : ev.file with
      | conn c => exact ⟨c, rfl⟩
      | listener ep =>
          -- its own listener is what the first test looks for
          have hep := hev.listener ep hfile
          subst hep
          have hlisten := (h.tables.listening _ (cfg.epollFd_mem i)).1
          have hopen := (h.tables.entry ev.fd _ hl).1
          rw [hfile] at hopen
          have heq := h.tables.fd_unique _ _ _ hopen hlisten
          exact absurd (hfd.trans heq) hne
    obtain ⟨c, hc⟩ := hconn
    split
    · rw [hfd]
      exact ⟨c, hc, hl⟩
    · trivial
    · exact fun _ => ⟨c, ev.fd, hc, hl⟩

/-- The handler only comes to a statement before the re-arm from another one. -/
theorem pastRearm_back {pc pc' : HandlerPc} {cd : ConnectionData} {errno : Errno} {a : Answer}
    {out : HandlerOut} (h : HandlerStep cd errno pc a out) (hout : out.pc = some pc')
    (hpast : pastRearm pc' = false) : pastRearm pc = false := by
  cases h with
  | resetReadIndex | resetWriteIndex =>
      cases hout
      cases hpast
  | resetReady => cases hout
  | _ => rfl

/-- A statement of the handler leaves the element it is at work for in the map. -/
theorem handled_ok (h : OwnInv cfg s) {p : Addr} {f : File} {pc : HandlerPc} {a : Answer}
    {out : HandlerOut} (hpc : (s.worker i).pc = .handle p f pc)
    (hstep : HandlerStep (s.mem p) (s.worker i).errno pc a out) {t : Server ι}
    (ht : t.data = s.data) : PcOk cfg t (afterHandler p f out.pc) := by
  cases hout : out.pc with
  | none => trivial
  | some pc' =>
      intro hpast
      obtain ⟨c, fd, rfl, hl, _⟩ := h.handling hpc (pastRearm_back hstep hout hpast)
      exact ⟨c, fd, rfl, by rw [ht, hl]⟩

/-- After `remove` the reference reads storage nothing else refers to. -/
theorem removed_ok (h : OwnInv cfg s) {p : Addr} {v : Fd} {f : File}
    (hpc : (s.worker i).pc = .close p v f .remove) :
    PcOk cfg ({ s with data := remove s.data (s.connFd cfg p v) } : Server ι)
      (.close p v f .del) := by
  have hv := h.connFd_eq hpc
  have hok := h.pcs i
  rw [hpc] at hok
  obtain ⟨c, rfl, hl⟩ := hok
  obtain ⟨hopen, hfd⟩ := h.tables.entry v _ hl
  rw [hv]
  refine ⟨c, rfl, hopen, AList.lookup_erase v s.data, fun hp => ⟨hfd, ?_⟩⟩
  intro hex
  obtain ⟨fd, e, hl', ha⟩ := hex
  by_cases hne : fd = v
  · subst hne
    exact absurd ((AList.lookup_erase fd s.data).symm.trans hl') (by simp)
  · have hold := (AList.lookup_erase_ne hne).symm.trans hl'
    exact hne (h.tables.addr fd v e _ hold hl ha)

/-! ## The start -/

theorem start_fdTable {fd : Fd} {f : File} :
    (start cfg).fdTable fd = some f ↔ ∃ ep ∈ cfg.eps, cfg.listenFd ep = fd ∧ f = .listener ep := by
  simp only [start, Option.map_eq_some_iff]
  constructor
  · intro hex
    obtain ⟨ep, hfind, rfl⟩ := hex
    exact ⟨ep, List.mem_of_find?_eq_some hfind, by simpa using List.find?_some hfind, rfl⟩
  · intro hex
    obtain ⟨ep, hep, rfl, rfl⟩ := hex
    cases hfind : cfg.eps.find? (fun e => cfg.listenFd e = cfg.listenFd ep) with
    | none => exact absurd (List.find?_eq_none.mp hfind ep hep) (by simp)
    | some e =>
        have heq : cfg.listenFd e = cfg.listenFd ep := by simpa using List.find?_some hfind
        exact ⟨e, rfl, by rw [cfg.listenFd_inj e (List.mem_of_find?_eq_some hfind) ep hep heq]⟩

theorem start_lookup {fd : Fd} {e : Entry} :
    (start cfg).data.lookup fd = some e
      ↔ ∃ ep ∈ cfg.eps, cfg.listenFd ep = fd ∧ e = ⟨cfg.listenPtr ep, .listener ep⟩ := by
  rw [← Option.mem_def, AList.mem_lookup_iff]
  simp only [start, List.mem_map]
  constructor
  · intro hex
    obtain ⟨ep, hep, heq⟩ := hex
    cases heq
    exact ⟨ep, hep, rfl, rfl⟩
  · intro hex
    obtain ⟨ep, hep, rfl, rfl⟩ := hex
    exact ⟨ep, hep, rfl⟩

theorem start_connFd {ep : Ep} (hep : ep ∈ cfg.eps) :
    ((start cfg).mem (cfg.listenPtr ep)).connFd = cfg.listenFd ep := by
  simp only [start]
  cases hfind : cfg.eps.find? (fun e => cfg.listenPtr e = cfg.listenPtr ep) with
  | none => exact absurd (List.find?_eq_none.mp hfind ep hep) (by simp)
  | some e =>
      have heq : cfg.listenPtr e = cfg.listenPtr ep := by simpa using List.find?_some hfind
      have he := cfg.listenPtr_inj e (List.mem_of_find?_eq_some hfind) ep hep heq
      subst he
      rfl

theorem start_interest {ep : Ep} {fd : Fd} {reg : Registration}
    (h : (start cfg).interest ep fd = some reg) :
    ep ∈ cfg.eps ∧ cfg.listenFd ep = fd ∧ reg = ⟨listenMask, some (cfg.listenPtr ep), true⟩ := by
  simp only [start] at h
  split at h
  · rename_i hep
    cases h
    exact ⟨hep.1, hep.2, rfl⟩
  · cases h

theorem tables_start (cfg : Config ι) : Tables cfg (start cfg) where
  closed := by
    intro fd hn
    refine ⟨?_, fun ep => ?_⟩
    · cases hl : (start cfg).data.lookup fd with
      | none => rfl
      | some e =>
          obtain ⟨ep, hep, hfd, _⟩ := start_lookup.mp hl
          rw [start_fdTable.mpr ⟨ep, hep, hfd, rfl⟩] at hn
          cases hn
    · cases hr : (start cfg).interest ep fd with
      | none => rfl
      | some reg =>
          obtain ⟨hep, hfd, _⟩ := start_interest hr
          rw [start_fdTable.mpr ⟨ep, hep, hfd, rfl⟩] at hn
          cases hn
  entry := by
    intro fd e hl
    obtain ⟨ep, hep, hfd, rfl⟩ := start_lookup.mp hl
    exact ⟨start_fdTable.mpr ⟨ep, hep, hfd, rfl⟩, (start_connFd hep).trans hfd⟩
  addr := by
    intro fd fd' e e' hl hl' ha
    obtain ⟨ep, hep, rfl, rfl⟩ := start_lookup.mp hl
    obtain ⟨ep', hep', rfl, rfl⟩ := start_lookup.mp hl'
    rw [cfg.listenPtr_inj ep hep ep' hep' ha]
  armed := by
    intro ep fd reg hr _
    obtain ⟨hep, hfd, rfl⟩ := start_interest hr
    exact ⟨_, start_lookup.mpr ⟨ep, hep, hfd, rfl⟩, rfl⟩
  one := by
    intro ep ep' fd hr hr'
    obtain ⟨reg, hreg⟩ := Option.ne_none_iff_exists'.mp hr
    obtain ⟨reg', hreg'⟩ := Option.ne_none_iff_exists'.mp hr'
    obtain ⟨hep, hfd, _⟩ := start_interest hreg
    obtain ⟨hep', hfd', _⟩ := start_interest hreg'
    exact cfg.listenFd_inj ep hep ep' hep' (hfd.trans hfd'.symm)
  fd_unique := by
    intro fd fd' f hf hf'
    obtain ⟨ep, hep, rfl, rfl⟩ := start_fdTable.mp hf
    obtain ⟨ep', hep', rfl, he⟩ := start_fdTable.mp hf'
    cases he
    rfl
  conn := by
    intro fd c hf
    obtain ⟨ep, _, _, he⟩ := start_fdTable.mp hf
    cases he
  fresh := fun c _ => rfl
  closes_le := fun c => Nat.zero_le 1
  listener := by
    intro fd ep hf
    obtain ⟨ep', hep, hfd, he⟩ := start_fdTable.mp hf
    cases he
    exact ⟨hep, hfd.symm⟩
  listening := by
    intro ep hep
    exact ⟨start_fdTable.mpr ⟨ep, hep, rfl, rfl⟩, start_lookup.mpr ⟨ep, hep, rfl, rfl⟩⟩
  mask := by
    intro ep fd reg c _ hf
    obtain ⟨ep', _, _, he⟩ := start_fdTable.mp hf
    cases he
  listenEp := by
    intro ep fd reg ep' hr hf
    obtain ⟨hep, hfd, _⟩ := start_interest hr
    obtain ⟨ep'', hep'', hfd', he⟩ := start_fdTable.mp hf
    cases he
    exact cfg.listenFd_inj ep' hep'' ep hep (hfd'.trans hfd.symm)

theorem ownInv_start (cfg : Config ι) : OwnInv cfg (start cfg) where
  holds := .of_empty (fun _ => rfl)
  tables := tables_start cfg
  events := by
    intro i ev hev
    exact absurd hev List.not_mem_nil
  pcs := fun _ => trivial
  freed := by
    intro _ i j p hi
    cases hi

end TcpServers.Server
