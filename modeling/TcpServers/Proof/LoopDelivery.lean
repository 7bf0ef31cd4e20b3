import TcpServers.Model.LoopPeers
import TcpServers.Proof.LoopClosing

/-!
# What a client sent before its close

The loop reads a client dry whenever it drains it, so nothing is lost as long as the
close arrives after that. But `EPOLLRDHUP` is tested first, and from the moment an event
that has it is fetched the client is not read any more: whatever its receive queue
holds then goes with the descriptor. That is the only way to lose anything.
-/

namespace TcpServers.LoopPeers

open Lib

variable {cfg : EpollLoop.Config} {bytes : Nat → List Byte} {s s' t : LoopPeers} {l : Label}

/-- What was passed on, what is unread and what is on its way make up what is sent. -/
structure StreamInv (cfg : EpollLoop.Config) (bytes : Nat → List Byte) (s : LoopPeers) :
    Prop where
  loop : s.loop.LoopInv cfg
  tables : s.loop.TableInv
  done : s.loop.BatchDone
  stream : ∀ c,
    (s.loop.chunks c).flatten ++ ((s.peer c).queue ++ (s.peer c).toArrive) = bytes c
  ended : ∀ c, (s.peer c).fin = true → (s.peer c).toArrive = []
  closing : ∀ c, s.loop.Closing c → (s.peer c).fin = true

/-- What the clients of the closed connections sent was passed on, all of it and in order. -/
def AllDelivered (bytes : Nat → List Byte) (s : LoopPeers) : Prop :=
  ∀ c, s.loop.closed c = true → (s.loop.chunks c).flatten = bytes c

/-- An event with `EPOLLRDHUP` is fetched for a client only when its receive queue is empty. -/
def NothingUnread (s : LoopPeers) : Label → Prop
  | .loop (.epollWait evs) => ∀ ev ∈ evs, ev.flags.epollrdhup = true →
      ∀ c ∈ s.loop.fdTable ev.fd, (s.peer c).queue = []
  | _ => True

instance (s : LoopPeers) : (l : Label) → Decidable (NothingUnread s l)
  | .loop (.epollWait evs) => inferInstanceAs (Decidable (∀ ev ∈ evs,
      ev.flags.epollrdhup = true → ∀ c ∈ s.loop.fdTable ev.fd, (s.peer c).queue = []))
  | .loop .arrive | .loop .waitFailed | .loop .take | .loop .hangUp | .loop (.accept4 _)
  | .loop (.epollAdd _) | .loop (.read _) | .loop (.epollMod _) | .arrive _ _ | .finish _ =>
      isTrue trivial

theorem streamInv_start (cfg : EpollLoop.Config) (bytes : Nat → List Byte) :
    StreamInv cfg bytes (start cfg bytes) where
  loop := EpollLoop.loopInv_start cfg
  tables := EpollLoop.tableInv_start cfg
  done := fun _ => rfl
  stream := fun _ => rfl
  ended := by
    intro c hc
    cases hc
  closing := by
    rintro c (hpast | ⟨fd, hfd, _⟩)
    · cases hpast
    · cases hfd

/-- Only `read()` passes anything on. -/
theorem chunks_step {l : EpollLoop.Label} {e e' : EpollLoop} (hread : ∀ r, l ≠ .read r)
    (hs : e.Step cfg l e') : e'.chunks = e.chunks := by
  cases hs with
  | epollWait hpc hfetch => exact (EpollLoop.fetches_frame hfetch).2.2.2.2
  | endOfStream | chunk | drained | readFailed => exact absurd rfl (hread _)
  | _ => rfl

/-- A `read()` of the loop passes on what it takes from the queue. -/
theorem read_step {e e' : EpollLoop} {fd : Fd} {c : Nat} {r : ReadResult} {p p' : Peer}
    (hpc : e.pc = .drain fd) (hopen : e.fdTable fd = some c)
    (hread : p.read buffSize r = some p') (hs : e.Step cfg (.read r) e') :
    (∀ d, d ≠ c → e'.chunks d = e.chunks d)
      ∧ (e'.chunks c).flatten ++ p'.queue = (e.chunks c).flatten ++ p.queue
      ∧ p'.toArrive = p.toArrive ∧ p'.fin = p.fin := by
  have hsame : ∀ f d, e.pc = .drain f → e.fdTable f = some d → d = c := by
    intro f d hf hd
    rw [hpc] at hf
    cases hf
    exact Option.some.inj (hd.symm.trans hopen)
  rcases Peer.read_cases hread with ⟨rfl, rfl, _⟩ | ⟨bs, rfl, hpos, _, hqueue, harrive, hfin⟩ |
    ⟨_, rfl, rfl, _⟩
  · cases hs with
    | endOfStream => exact ⟨fun _ _ => rfl, rfl, rfl, rfl⟩
    | chunk hf hd =>
        cases hsame _ _ hf hd
        refine ⟨fun d hdc => Function.update_of_ne hdc _ _, ?_, rfl, rfl⟩
        simp only [Function.update_self, List.flatten_append, List.flatten_cons, List.flatten_nil,
          List.append_nil]
  · cases hs with
    | endOfStream => exact absurd hpos (Nat.lt_irrefl 0)
    | chunk hf hd =>
        cases hsame _ _ hf hd
        refine ⟨fun d hdc => Function.update_of_ne hdc _ _, ?_, harrive, hfin⟩
        simp only [Function.update_self, List.flatten_append, List.flatten_cons, List.flatten_nil,
          List.append_nil, List.append_assoc, hqueue]
  · cases hs with
    | drained => exact ⟨fun _ _ => rfl, rfl, rfl, rfl⟩
    | readFailed => exact ⟨fun _ _ => rfl, rfl, rfl, rfl⟩

/-- A step that touches the client of one connection at most. -/
theorem StreamInv.updated (h : StreamInv cfg bytes s) {loop : EpollLoop} {c : Nat} {p : Peer}
    (hloop : loop.LoopInv cfg ∧ loop.TableInv ∧ loop.BatchDone)
    (hchunks : ∀ d, d ≠ c → loop.chunks d = s.loop.chunks d)
    (hstream : (loop.chunks c).flatten ++ (p.queue ++ p.toArrive) = bytes c)
    (hended : p.fin = true → p.toArrive = []) (hfin : (s.peer c).fin = true → p.fin = true)
    (hclosing : ∀ d, loop.Closing d → s.loop.Closing d) :
    StreamInv cfg bytes ⟨loop, Function.update s.peer c p⟩ where
  loop := hloop.1
  tables := hloop.2.1
  done := hloop.2.2
  stream := by
    refine (Function.forall_update_iff s.peer (fun d (q : Peer) =>
      (loop.chunks d).flatten ++ (q.queue ++ q.toArrive) = bytes d)).mpr ⟨hstream, fun d hd => ?_⟩
    rw [hchunks d hd]
    exact h.stream d
  ended := (Function.forall_update_iff s.peer (fun _ (q : Peer) =>
    q.fin = true → q.toArrive = [])).mpr ⟨hended, fun d _ => h.ended d⟩
  closing := (Function.forall_update_iff s.peer (fun d (q : Peer) =>
    loop.Closing d → q.fin = true)).mpr
      ⟨fun hc => hfin (h.closing c (hclosing c hc)), fun d _ hd => h.closing d (hclosing d hd)⟩

theorem StreamInv.loop_step (h : StreamInv cfg bytes s) {l : EpollLoop.Label} {e : EpollLoop}
    (hs : s.loop.Step cfg l e) : e.LoopInv cfg ∧ e.TableInv ∧ e.BatchDone :=
  ⟨EpollLoop.loopInv_step h.loop hs, EpollLoop.tableInv_step h.loop h.tables hs,
    EpollLoop.batchDone_step h.done hs⟩

/-- **Preserved by every step.** -/
theorem streamInv_step (h : StreamInv cfg bytes s) (hs : Step cfg s l s') :
    StreamInv cfg bytes s' := by
  cases hs with
  | @read r fd c p loop hpc hopen hread hstep =>
      obtain ⟨hother, hstream, harrive, hfin⟩ := read_step hpc hopen hread hstep
      refine h.updated (h.loop_step hstep) hother ?_ ?_ ?_ (fun d hd => ?_)
      · rw [← List.append_assoc, hstream, harrive, List.append_assoc]
        exact h.stream c
      · rw [hfin, harrive]
        exact h.ended c
      · rw [hfin]
        exact id
      · exact ((EpollLoop.closing_step h.loop hstep d).mp hd).resolve_right not_false
  | @epollWait evs loop hreported hstep =>
      obtain ⟨hloop, htables, hdone⟩ := h.loop_step hstep
      refine ⟨hloop, htables, hdone, fun c => ?_, h.ended, fun c hc => ?_⟩
      · rw [chunks_step (by simp) hstep]
        exact h.stream c
      · rcases (EpollLoop.closing_step h.loop hstep c).mp hc with hold | ⟨ev, hev, hfd, hrdhup⟩
        · exact h.closing c hold
        · exact (hreported ev hev c hfd).symm.trans hrdhup
  | @other l loop hread hwait hstep =>
      obtain ⟨hloop, htables, hdone⟩ := h.loop_step hstep
      refine ⟨hloop, htables, hdone, fun c => ?_, h.ended, fun c hc => ?_⟩
      · rw [chunks_step hread hstep]
        exact h.stream c
      · rcases (EpollLoop.closing_step h.loop hstep c).mp hc with hold | hreports
        · exact h.closing c hold
        · cases l with
          | epollWait evs => exact absurd rfl (hwait evs)
          | _ => cases hreports
  | @arrive c n =>
      refine h.updated ⟨h.loop, h.tables, h.done⟩ (fun _ _ => rfl) ?_ (fun hfin => ?_) id
        (fun _ => id)
      · simp only [Peer.arrive, List.append_assoc, List.take_append_drop]
        exact h.stream c
      · simp only [Peer.arrive, h.ended c hfin, List.drop_nil]
  | @finish c hdone =>
      exact h.updated ⟨h.loop, h.tables, h.done⟩ (fun _ _ => rfl) (h.stream c) (fun _ => hdone)
        (fun _ => rfl) (fun _ => id)

/-- A client that is closing is not read any more, and has nothing left to arrive. -/
theorem closing_queue (h : StreamInv cfg bytes s) (hs : Step cfg s l s') {c : Nat}
    (hc : s.loop.Closing c) : (s'.peer c).queue = (s.peer c).queue := by
  cases hs with
  | @read r fd d p loop hpc hopen =>
      have hcd : c ≠ d := by
        intro heq
        subst heq
        exact h.loop.not_closing h.tables hpc hopen hc
      simp only [Function.update_of_ne hcd]
  | epollWait => rfl
  | other => rfl
  | @arrive d n =>
      by_cases hcd : c = d
      · subst hcd
        simp only [Function.update_self, Peer.arrive, h.ended c (h.closing c hc), List.take_nil,
          List.append_nil]
      · simp only [Function.update_of_ne hcd]
  | @finish d =>
      by_cases hcd : c = d
      · subst hcd
        simp only [Function.update_self, Peer.finish]
      · simp only [Function.update_of_ne hcd]

/-- The step of the loop with its clients fetches such an event. -/
def ReportsClose (s : LoopPeers) (c : Nat) : Label → Prop
  | .loop e => s.loop.ReportsClose c e
  | _ => False

theorem closing_next (h : StreamInv cfg bytes s) (hs : Step cfg s l s') (c : Nat) :
    s'.loop.Closing c ↔ s.loop.Closing c ∨ ReportsClose s c l := by
  cases hs with
  | read _ _ _ hstep => exact EpollLoop.closing_step h.loop hstep c
  | epollWait _ hstep => exact EpollLoop.closing_step h.loop hstep c
  | other _ _ hstep => exact EpollLoop.closing_step h.loop hstep c
  | arrive => exact (or_iff_left not_false).symm
  | finish => exact (or_iff_left not_false).symm

/-- Fetching the event leaves the clients as they are. -/
theorem reports_peer (hs : Step cfg s l s') {c : Nat} (hr : ReportsClose s c l) :
    s'.peer = s.peer := by
  cases hs with
  | epollWait => rfl
  | other => rfl
  | read => cases hr
  | arrive => cases hr
  | finish => cases hr

/-- Nothing is unread for a closing client. -/
structure Kept (cfg : EpollLoop.Config) (bytes : Nat → List Byte) (s : LoopPeers) : Prop where
  inv : StreamInv cfg bytes s
  queue : ∀ c, s.loop.Closing c → (s.peer c).queue = []

/-- Something is unread for a closing client. -/
structure Lost (cfg : EpollLoop.Config) (bytes : Nat → List Byte) (s : LoopPeers) : Prop where
  inv : StreamInv cfg bytes s
  queue : ∃ c, s.loop.Closing c ∧ (s.peer c).queue ≠ []

theorem kept_start (cfg : EpollLoop.Config) (bytes : Nat → List Byte) :
    Kept cfg bytes (start cfg bytes) where
  inv := streamInv_start cfg bytes
  queue := fun _ _ => rfl

/-- A closed connection with nothing unread has had everything passed on. -/
theorem Kept.delivered (h : Kept cfg bytes s) : AllDelivered bytes s := by
  intro c hpast
  have hc : s.loop.Closing c := Or.inl hpast
  have hstream := h.inv.stream c
  rw [h.queue c hc, h.inv.ended c (h.inv.closing c hc), List.append_nil, List.append_nil]
    at hstream
  exact hstream

theorem kept_step (h : Kept cfg bytes s) (hread : NothingUnread s l) (hs : Step cfg s l s') :
    Kept cfg bytes s' := by
  refine ⟨streamInv_step h.inv hs, fun c hc => ?_⟩
  rcases (closing_next h.inv hs c).mp hc with hold | hnew
  · rw [closing_queue h.inv hs hold]
    exact h.queue c hold
  · rw [reports_peer hs hnew]
    cases l with
    | loop e =>
        cases e with
        | epollWait evs =>
            obtain ⟨ev, hev, hfd, hrdhup⟩ := hnew
            exact hread ev hev hrdhup c hfd
        | _ => cases hnew
    | _ => cases hnew

/-- Fetching the close of a client with unread bytes loses them. -/
theorem lost_new (h : StreamInv cfg bytes s) (hunread : ¬ NothingUnread s l)
    (hs : Step cfg s l s') : Lost cfg bytes s' := by
  obtain ⟨c, hr, hqueue⟩ : ∃ c, ReportsClose s c l ∧ (s.peer c).queue ≠ [] := by
    cases l with
    | loop e =>
        cases e with
        | epollWait evs =>
            simp only [NothingUnread] at hunread
            push Not at hunread
            obtain ⟨ev, hev, hrdhup, c, hc, hqueue⟩ := hunread
            exact ⟨c, ⟨ev, hev, hc, hrdhup⟩, hqueue⟩
        | _ => exact absurd trivial hunread
    | _ => exact absurd trivial hunread
  refine ⟨streamInv_step h hs, c, (closing_next h hs c).mpr (Or.inr hr), ?_⟩
  rw [reports_peer hs hr]
  exact hqueue

theorem lost_step (h : Lost cfg bytes s) (hs : Step cfg s l s') : Lost cfg bytes s' := by
  obtain ⟨c, hc, hqueue⟩ := h.queue
  refine ⟨streamInv_step h.inv hs, c, (closing_next h.inv hs c).mpr (Or.inl hc), ?_⟩
  rw [closing_queue h.inv hs hc]
  exact hqueue

/-- Once the batch is done with, what was lost belongs to a closed connection. -/
theorem Lost.not_delivered (h : Lost cfg bytes s) (hpc : s.loop.pc = .epollWait) :
    ¬ AllDelivered bytes s := by
  intro hall
  obtain ⟨c, hc, hqueue⟩ := h.queue
  have hpast : s.loop.closed c = true := by
    refine hc.resolve_right ?_
    rintro ⟨fd, _, hat | ⟨ev, hev, _⟩⟩
    · rw [hpc] at hat
      cases hat
    · rw [h.inv.done hpc] at hev
      cases hev
  have hstream := h.inv.stream c
  rw [hall c hpast, List.append_right_eq_self] at hstream
  exact hqueue (List.append_eq_nil_iff.mp hstream).1

/--
**When everything sent before the close is delivered.** In every run, if an event with
`EPOLLRDHUP` is fetched for a client only when its receive queue is empty, then all that
the closed clients sent was passed on in order; and in a run that is back at
`epoll_wait` only then.
-/
theorem all_delivered_iff {ls : List Label}
    (hrun : (machine cfg bytes).run (start cfg bytes) ls = some t) :
    ((machine cfg bytes).Along NothingUnread (start cfg bytes) ls →
      (machine cfg bytes).Throughout (AllDelivered bytes) (start cfg bytes) ls)
    ∧ (t.loop.pc = .epollWait →
      (machine cfg bytes).Throughout (AllDelivered bytes) (start cfg bytes) ls →
      (machine cfg bytes).Along NothingUnread (start cfg bytes) ls) := by
  exact Machine.throughout_iff_along (kept_start cfg bytes) (fun _ hk => hk.delivered)
    (fun _ _ _ hk _ hl hnext => kept_step hk hl (next_cases hnext))
    (fun _ _ _ hk _ hl hnext => lost_new hk.inv hl (next_cases hnext))
    (fun _ _ _ hj _ _ hnext => lost_step hj (next_cases hnext))
    (fun _ hj hpc => hj.not_delivered hpc) hrun Machine.along_true

/-- A worker on descriptor `3`, one connection in its queue. -/
def worker : EpollLoop.Config := ⟨.linuxConcurrentServer, 3, 1⟩

/-- The client of the first connection sends two bytes. -/
def twoBytes : Nat → List Byte
  | 0 => [104, 105]
  | _ => []

/-- The connection is accepted as descriptor `5` and added to epoll; the bytes arrive. -/
def bytesArrive : List Label :=
  [.loop (.epollWait [⟨{ epollin := true }, 3⟩]), .loop .take, .loop (.accept4 (.ok 5)),
    .loop (.epollAdd none), .loop (.accept4 (.error .eagain)), .loop .take, .arrive 0 2]

/-- The bytes are read, and then the close arrives. -/
def closesLate : List Label :=
  bytesArrive ++ [.loop (.epollWait [⟨{ epollin := true }, 5⟩]), .loop .take,
    .loop (.read (.data [104, 105])), .loop (.read (.fail .eagain)), .loop (.epollMod none),
    .loop .take, .finish 0, .loop (.epollWait [⟨{ epollin := true, epollrdhup := true }, 5⟩]),
    .loop .take, .loop .hangUp, .loop .hangUp, .loop .take]

theorem all_delivered_closesLate :
    ∃ t, (machine worker twoBytes).run (start worker twoBytes) closesLate = some t
      ∧ t.loop.closed 0 = true ∧ (t.loop.chunks 0).flatten = [104, 105] := by
  have hval : ((machine worker twoBytes).run (start worker twoBytes) closesLate).map
      (fun s => s.loop.closed 0) = some true := by decide +kernel
  obtain ⟨t, hrun, hpast⟩ := Option.map_eq_some_iff.mp hval
  have hread : (machine worker twoBytes).Along NothingUnread (start worker twoBytes)
      closesLate := by decide +kernel
  exact ⟨t, hrun, hpast, ((all_delivered_iff hrun).1 hread).last hrun 0 hpast⟩

/-- The client closes right after it has sent its bytes. -/
def closesEarly : List Label :=
  bytesArrive ++ [.finish 0, .loop (.epollWait [⟨{ epollin := true, epollrdhup := true }, 5⟩]),
    .loop .take, .loop .hangUp, .loop .hangUp, .loop .take]

theorem not_delivered_closesEarly :
    ∃ t, (machine worker twoBytes).Reachable t ∧ t.loop.pc = .epollWait
      ∧ t.loop.closed 0 = true ∧ t.loop.chunks 0 = [] ∧ ¬ AllDelivered twoBytes t := by
  have hval : ((machine worker twoBytes).run (start worker twoBytes) closesEarly).map
      (fun s => (s.loop.pc, s.loop.closed 0, s.loop.chunks 0)) = some (.epollWait, true, []) := by
    decide +kernel
  obtain ⟨t, hrun, heq⟩ := Option.map_eq_some_iff.mp hval
  simp only [Prod.mk.injEq] at heq
  obtain ⟨hpc, hpast, hchunks⟩ := heq
  refine ⟨t, .of_run (.init rfl) Machine.along_true hrun, hpc, hpast, hchunks, fun hall => ?_⟩
  have hbytes := hall 0 hpast
  rw [hchunks] at hbytes
  cases hbytes

end TcpServers.LoopPeers
