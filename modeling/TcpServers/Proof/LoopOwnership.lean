import TcpServers.Lib.Ownership
import TcpServers.Lib.Table
import TcpServers.Model.EpollLoop

/-!
# The events of the loop and the descriptors they are for

A client's registration fires once. From then on its descriptor is in the batch or is
being worked on, in one place, until the loop re-arms it, closes it or drops it; so
the event of a descriptor is always for the connection it still is. This is the token
discipline with the loop as the only holder.
-/

namespace TcpServers.EpollLoop

open Lib

variable {cfg : Config} {s s' : EpollLoop} {l : Label}

/-- The client the loop is at. -/
def atWork : LoopPc → Option Fd
  | .del fd => some fd
  | .close fd => some fd
  | .add fd => some fd
  | .drain fd => some fd
  | .rearm fd => some fd
  | .epollWait => none
  | .loop => none
  | .accept => none
  | .thrown => none

/-- The clients whose events are in the batch. -/
def waiting (cfg : Config) (batch : List LoopEvent) : List Fd :=
  (batch.map LoopEvent.fd).filter (fun fd => fd ≠ cfg.serverSfd)

/-- The clients the loop has in hand. -/
def held (cfg : Config) (s : EpollLoop) : List Fd := (atWork s.pc).toList ++ waiting cfg s.batch

def Armed (s : EpollLoop) (fd : Fd) : Prop := ∃ w, s.interest fd = some w ∧ w.armed = true

/-- What is known of the client at a statement. -/
def PcOk (s : EpollLoop) : LoopPc → Prop
  | .del fd => ∃ w, s.interest fd = some w
  | .drain fd => ∃ w, s.interest fd = some w
  | .rearm fd => ∃ w, s.interest fd = some w
  | .close fd => ∃ c, s.fdTable fd = some c
  | .add fd => (∃ c, s.fdTable fd = some c) ∧ s.interest fd = none
  | _ => True

/-- Tables, batch and program counter fit. -/
structure LoopInv (cfg : Config) (s : EpollLoop) : Prop where
  exclusive : Exclusive (fun _ : Unit => held cfg s) (Armed s)
  registered : ∀ fd w, s.interest fd = some w →
    (∃ c, s.fdTable fd = some c) ∧ w.mask = clientMask
  listener : s.fdTable cfg.serverSfd = none
  event : ∀ ev ∈ s.batch, ev.fd ≠ cfg.serverSfd → ∃ w, s.interest ev.fd = some w
  connection : ∀ ev ∈ s.batch, ev.fd = cfg.serverSfd →
    ev.flags.epollin = true ∧ ev.flags.epollrdhup = false
  pc : PcOk s s.pc

theorem waiting_snoc (cfg : Config) (batch : List LoopEvent) (ev : LoopEvent) :
    waiting cfg (batch ++ [ev])
      = waiting cfg batch ++ if ev.fd = cfg.serverSfd then [] else [ev.fd] := by
  unfold waiting
  rw [List.map_append, List.filter_append, List.map_cons, List.map_nil]
  by_cases hfd : ev.fd = cfg.serverSfd
  · simp [hfd]
  · simp [hfd]

theorem waiting_cons (cfg : Config) (ev : LoopEvent) (batch : List LoopEvent) :
    waiting cfg (ev :: batch)
      = (if ev.fd = cfg.serverSfd then [] else [ev.fd]) ++ waiting cfg batch := by
  unfold waiting
  by_cases hfd : ev.fd = cfg.serverSfd
  · simp [hfd]
  · simp [hfd]

theorem mem_waiting {fd : Fd} {batch : List LoopEvent} :
    fd ∈ waiting cfg batch ↔ fd ≠ cfg.serverSfd ∧ ∃ ev ∈ batch, ev.fd = fd := by
  unfold waiting
  rw [List.mem_filter, List.mem_map, decide_eq_true_eq]
  exact and_comm

theorem mem_held {fd : Fd} :
    fd ∈ held cfg s ↔ atWork s.pc = some fd ∨ fd ∈ waiting cfg s.batch := by
  unfold held
  rw [List.mem_append, Option.mem_toList]

/-- What the loop has in hand is open. -/
theorem LoopInv.held_open (h : LoopInv cfg s) {fd : Fd} (hfd : fd ∈ held cfg s) :
    ∃ c, s.fdTable fd = some c := by
  rcases mem_held.mp hfd with hat | hwait
  · have hpc := h.pc
    cases hp : s.pc with
    | del f | drain f | rearm f =>
        rw [hp] at hat hpc
        cases hat
        obtain ⟨w, hw⟩ := hpc
        exact (h.registered _ w hw).1
    | close f =>
        rw [hp] at hat hpc
        cases hat
        exact hpc
    | add f =>
        rw [hp] at hat hpc
        cases hat
        exact hpc.1
    | _ =>
        rw [hp] at hat
        cases hat
  · obtain ⟨hne, ev, hev, rfl⟩ := mem_waiting.mp hwait
    obtain ⟨w, hw⟩ := h.event ev hev hne
    exact (h.registered _ w hw).1

/-- The client at work is open. -/
theorem LoopInv.at_open (h : LoopInv cfg s) {fd : Fd} (hat : atWork s.pc = some fd) :
    ∃ c, s.fdTable fd = some c :=
  h.held_open (mem_held.mpr (Or.inl hat))

/-- The client at work has no event in the batch. -/
theorem LoopInv.no_event (h : LoopInv cfg s) {fd : Fd} (hat : atWork s.pc = some fd) :
    fd ∉ waiting cfg s.batch := by
  have hnodup := h.exclusive.nodup ()
  simp only [held, hat, Option.toList_some, List.singleton_append, List.nodup_cons] at hnodup
  exact hnodup.1

/-- The events in the batch are for other clients than the one at work. -/
theorem LoopInv.event_ne (h : LoopInv cfg s) {fd : Fd} (hat : atWork s.pc = some fd)
    {ev : LoopEvent} (hev : ev ∈ s.batch) (hne : ev.fd ≠ cfg.serverSfd) : ev.fd ≠ fd := by
  intro heq
  exact h.no_event hat (mem_waiting.mpr ⟨by rw [← heq]; exact hne, ev, hev, heq⟩)

theorem loopInv_start (cfg : Config) : LoopInv cfg (start cfg) where
  exclusive := Exclusive.of_empty (fun _ => rfl)
  registered := by
    intro fd w hw
    cases hw
  listener := rfl
  event := by
    intro ev hev
    cases hev
  connection := by
    intro ev hev
    cases hev
  pc := trivial

/-- The loop goes on, and takes nothing new in hand. -/
theorem LoopInv.of_sub (h : LoopInv cfg s) {pc : LoopPc} {batch : List LoopEvent}
    (hsub : ((atWork pc).toList ++ waiting cfg batch).Sublist (held cfg s))
    (hbatch : ∀ ev ∈ batch, ev ∈ s.batch) (hok : PcOk s pc) :
    LoopInv cfg { s with pc := pc, batch := batch } where
  exclusive := h.exclusive.release (i := ()) (fun j hj => absurd rfl hj) hsub
    (fun _ ht => Or.inl ht)
  registered := h.registered
  listener := h.listener
  event := fun ev hev => h.event ev (hbatch ev hev)
  connection := fun ev hev => h.connection ev (hbatch ev hev)
  pc := by cases pc <;> exact hok

/-- The same, with the batch as it is. -/
theorem LoopInv.of_pc (h : LoopInv cfg s) {pc : LoopPc}
    (hat : atWork pc = atWork s.pc ∨ atWork pc = none) (hok : PcOk s pc) :
    LoopInv cfg { s with pc := pc } := by
  have hbatch : ∀ ev ∈ s.batch, ev ∈ s.batch := fun _ hev => hev
  refine h.of_sub ?_ hbatch hok
  rcases hat with hat | hat
  · rw [hat]
    exact List.Sublist.refl _
  · rw [hat]
    exact List.sublist_append_right _ _

/-- The listener's event is fetched: no client is taken in hand. -/
theorem loopInv_edge (h : LoopInv cfg s) (hpc : s.pc = .epollWait) {ev : LoopEvent}
    (hfd : ev.fd = cfg.serverSfd) (hin : ev.flags.epollin = true)
    (hrdhup : ev.flags.epollrdhup = false) :
    LoopInv cfg { s with edge := false, batch := s.batch ++ [ev] } := by
  refine ⟨?_, h.registered, h.listener, fun e he hne => ?_, fun e he heq => ?_, ?_⟩
  · have hheld : held cfg { s with edge := false, batch := s.batch ++ [ev] } = held cfg s := by
      show (atWork s.pc).toList ++ waiting cfg (s.batch ++ [ev]) = held cfg s
      rw [waiting_snoc, if_pos hfd, List.append_nil]
      rfl
    rw [hheld]
    exact h.exclusive
  · rcases List.mem_append.mp he with hold | hnew
    · exact h.event e hold hne
    · rw [List.mem_singleton.mp hnew] at hne
      exact absurd hfd hne
  · rcases List.mem_append.mp he with hold | hnew
    · exact h.connection e hold heq
    · rw [List.mem_singleton.mp hnew]
      exact ⟨hin, hrdhup⟩
  · show PcOk _ s.pc
    rw [hpc]
    trivial

/-- A client's event is fetched: its one shot is spent, and it is taken in hand. -/
theorem loopInv_shot (h : LoopInv cfg s) (hpc : s.pc = .epollWait) {ev : LoopEvent} {w : Interest}
    (hfd : ev.fd ≠ cfg.serverSfd) (hw : s.interest ev.fd = some w) (harmed : w.armed = true) :
    LoopInv cfg
      { s with
        interest := Function.update s.interest ev.fd
          (some { w with armed := !w.mask.epolloneshot })
        batch := s.batch ++ [ev] } := by
  have hmask := (h.registered ev.fd w hw).2
  have hfree : Armed s ev.fd := ⟨w, hw, harmed⟩
  have hspent : (!w.mask.epolloneshot) = false := by
    rw [hmask]
    rfl
  refine ⟨?_, fun fd u hu => ?_, h.listener, fun e he hne => ?_, fun e he heq => ?_, ?_⟩
  · refine h.exclusive.take (i := ()) (t := ev.fd) (fun j hj => absurd rfl hj) ?_
      (h.exclusive.not_held hfree) ?_ ?_
    · show List.Perm ((atWork s.pc).toList ++ waiting cfg (s.batch ++ [ev])) _
      rw [waiting_snoc, if_neg hfd, ← List.append_assoc]
      exact List.perm_append_singleton _ _
    · rintro ⟨u, hu, ha⟩
      rcases Table.of_insert hu with ⟨_, rfl⟩ | ⟨hne, _⟩
      · rw [hspent] at ha
        cases ha
      · exact hne rfl
    · rintro fd ⟨u, hu, ha⟩
      rcases Table.of_insert hu with ⟨rfl, _⟩ | ⟨_, hu⟩
      · exact hfree
      · exact ⟨u, hu, ha⟩
  · rcases Table.of_insert hu with ⟨rfl, rfl⟩ | ⟨_, hu⟩
    · exact h.registered _ w hw
    · exact h.registered fd u hu
  · by_cases heq : e.fd = ev.fd
    · rw [heq]
      exact ⟨_, Function.update_self _ _ _⟩
    · simp only [Function.update_of_ne heq]
      rcases List.mem_append.mp he with hold | hnew
      · exact h.event e hold hne
      · rw [List.mem_singleton.mp hnew] at heq
        exact absurd rfl heq
  · rcases List.mem_append.mp he with hold | hnew
    · exact h.connection e hold heq
    · rw [List.mem_singleton.mp hnew] at heq
      exact absurd heq hfd
  · show PcOk _ s.pc
    rw [hpc]
    trivial

theorem loopInv_fetched (h : LoopInv cfg s) (hpc : s.pc = .epollWait) {ev : LoopEvent}
    (hf : Fetched cfg s ev s') : LoopInv cfg s' := by
  cases hf with
  | listener hfd _ hin hrdhup => exact loopInv_edge h hpc hfd hin hrdhup
  | client hfd hw harmed => exact loopInv_shot h hpc hfd hw harmed

theorem loopInv_fetches (h : LoopInv cfg s) (hpc : s.pc = .epollWait) {evs : List LoopEvent}
    {m : EpollLoop} (hfetch : evs.foldlM (fetch cfg) s = some m) :
    LoopInv cfg m ∧ m.pc = .epollWait := by
  refine fetches_induction (P := fun s => LoopInv cfg s ∧ s.pc = .epollWait) ?_ hfetch ⟨h, hpc⟩
  intro s ev s' hs hf
  refine ⟨loopInv_fetched hs.1 hs.2 hf, ?_⟩
  cases hf <;> exact hs.2

/-- Where the loop goes with an event, its client is the one in hand. -/
theorem loopInv_take (h : LoopInv cfg s) (hpc : s.pc = .loop) {ev : LoopEvent}
    {rest : List LoopEvent} (hbatch : s.batch = ev :: rest) :
    LoopInv cfg { s with pc := dispatch cfg ev, batch := rest } := by
  have hev : ev ∈ s.batch := by
    rw [hbatch]
    exact List.mem_cons_self
  have hrest : ∀ e ∈ rest, e ∈ s.batch := by
    intro e he
    rw [hbatch]
    exact List.mem_cons_of_mem _ he
  have hheld : held cfg s
      = (if ev.fd = cfg.serverSfd then [] else [ev.fd]) ++ waiting cfg rest := by
    unfold held
    rw [hpc, hbatch, waiting_cons]
    rfl
  by_cases hfd : ev.fd = cfg.serverSfd
  · obtain ⟨hin, hrdhup⟩ := h.connection ev hev hfd
    have hpc' : dispatch cfg ev = .accept := by
      unfold dispatch
      rw [hrdhup, hin, if_neg (by simp), if_pos rfl, if_pos hfd]
    rw [hpc']
    refine h.of_sub ?_ hrest trivial
    rw [hheld, if_pos hfd]
    exact List.Sublist.refl _
  · have hw := h.event ev hev hfd
    rw [if_neg hfd] at hheld
    unfold dispatch
    split
    · refine h.of_sub ?_ hrest hw
      rw [hheld]
      exact List.Sublist.refl _
    · split
      · refine h.of_sub ?_ hrest hw
        rw [hheld]
        exact List.Sublist.refl _
      · refine h.of_sub ?_ hrest trivial
        rw [hheld]
        exact List.sublist_append_right _ _

/-- `EPOLL_CTL_DEL`: the registration goes. -/
theorem loopInv_del (h : LoopInv cfg s) {fd : Fd} (hpc : s.pc = .del fd) :
    LoopInv cfg
      { s with interest := Function.update s.interest fd none, pc := .close fd } := by
  have hat : atWork s.pc = some fd := by
    rw [hpc]
    rfl
  have hheld : held cfg s = (atWork (.close fd)).toList ++ waiting cfg s.batch := by
    unfold held
    rw [hpc]
    rfl
  refine ⟨?_, fun f w hw => ?_, h.listener, fun ev hev hne => ?_, h.connection, ?_⟩
  · refine h.exclusive.release (i := ()) (fun j hj => absurd rfl hj) ?_ ?_
    · rw [hheld]
      exact List.Sublist.refl _
    · rintro f ⟨w, hw, ha⟩
      exact Or.inl ⟨w, (Table.of_remove hw).2, ha⟩
  · exact h.registered f w (Table.of_remove hw).2
  · simp only [Function.update_of_ne (h.event_ne hat hev hne)]
    exact h.event ev hev hne
  · exact h.at_open hat

/-- `close`: the descriptor goes. -/
theorem loopInv_close (h : LoopInv cfg s) {fd : Fd} (hpc : s.pc = .close fd)
    (closed : Nat → Bool) :
    LoopInv cfg
      { s with
        fdTable := Function.update s.fdTable fd none
        interest := Function.update s.interest fd none
        pc := .loop
        closed := closed } := by
  have hat : atWork s.pc = some fd := by
    rw [hpc]
    rfl
  refine ⟨?_, fun f w hw => ?_, ?_, fun ev hev hne => ?_, h.connection, trivial⟩
  · refine h.exclusive.release (i := ()) (fun j hj => absurd rfl hj)
      (List.sublist_append_right _ _) ?_
    rintro f ⟨w, hw, ha⟩
    exact Or.inl ⟨w, (Table.of_remove hw).2, ha⟩
  · obtain ⟨hne, hw⟩ := Table.of_remove hw
    simp only [Function.update_of_ne hne]
    exact h.registered f w hw
  · show Function.update s.fdTable fd none cfg.serverSfd = none
    by_cases heq : cfg.serverSfd = fd
    · rw [heq, Function.update_self]
    · rw [Function.update_of_ne heq]
      exact h.listener
  · simp only [Function.update_of_ne (h.event_ne hat hev hne)]
    exact h.event ev hev hne

/-- `accept4`: the new descriptor is taken in hand, not registered yet. -/
theorem loopInv_accepted (h : LoopInv cfg s) {fd : Fd} (hpc : s.pc = .accept)
    (hne : fd ≠ cfg.serverSfd) (hfresh : s.fdTable fd = none) :
    LoopInv cfg
      { s with
        fdTable := Function.update s.fdTable fd (some s.nextConn)
        acceptQueue := s.acceptQueue - 1
        pc := .add fd
        nextConn := s.nextConn + 1 } := by
  have hunregistered : s.interest fd = none := by
    cases hw : s.interest fd with
    | none => rfl
    | some w =>
        obtain ⟨c, hc⟩ := (h.registered fd w hw).1
        rw [hfresh] at hc
        cases hc
  refine ⟨?_, fun f w hw => ?_, ?_, h.event, h.connection,
    ⟨⟨_, Function.update_self _ _ _⟩, hunregistered⟩⟩
  · refine h.exclusive.take (i := ()) (t := fd) (fun j hj => absurd rfl hj) ?_ ?_ ?_
      (fun _ ht => ht)
    · show List.Perm ([fd] ++ waiting cfg s.batch) _
      unfold held
      rw [hpc]
      exact List.Perm.refl _
    · intro _ hmem
      obtain ⟨c, hc⟩ := h.held_open hmem
      rw [hfresh] at hc
      cases hc
    · intro harm
      obtain ⟨w, hw, _⟩ := harm
      exact absurd (hunregistered.symm.trans hw) (by simp)
  · have hf : f ≠ fd := by
      intro heq
      rw [heq, hunregistered] at hw
      cases hw
    simp only [Function.update_of_ne hf]
    exact h.registered f w hw
  · show Function.update s.fdTable fd _ cfg.serverSfd = none
    rw [Function.update_of_ne (fun heq => hne heq.symm)]
    exact h.listener

/-- `EPOLL_CTL_ADD` or `EPOLL_CTL_MOD`: the client at work is let go, armed. -/
theorem loopInv_armed (h : LoopInv cfg s) {fd : Fd} {pc : LoopPc} {added : Nat → Bool}
    (hat : atWork s.pc = some fd) (hpc : pc = .accept ∨ pc = .loop) :
    LoopInv cfg
      { s with
        interest := Function.update s.interest fd (some ⟨clientMask, true⟩)
        pc := pc
        added := added } := by
  have hnone : atWork pc = none := by
    rcases hpc with rfl | rfl <;> rfl
  have hheld : held cfg s = fd :: waiting cfg s.batch := by
    unfold held
    rw [hat]
    rfl
  refine ⟨?_, fun f w hw => ?_, h.listener, fun ev hev hne => ?_, h.connection, ?_⟩
  · refine h.exclusive.release (i := ()) (fun j hj => absurd rfl hj) ?_ ?_
    · show ((atWork pc).toList ++ waiting cfg s.batch).Sublist _
      rw [hnone]
      exact List.sublist_append_right _ _
    · rintro f ⟨w, hw, ha⟩
      rcases Table.of_insert hw with ⟨rfl, _⟩ | ⟨_, hw⟩
      · refine Or.inr ⟨by rw [hheld]; exact List.mem_cons_self, fun hmem => ?_⟩
        have hmem' : f ∈ (atWork pc).toList ++ waiting cfg s.batch := hmem
        rw [hnone] at hmem'
        exact h.no_event hat hmem'
      · exact Or.inl ⟨w, hw, ha⟩
  · rcases Table.of_insert hw with ⟨rfl, rfl⟩ | ⟨_, hw⟩
    · exact ⟨h.at_open hat, rfl⟩
    · exact h.registered f w hw
  · simp only [Function.update_of_ne (h.event_ne hat hev hne)]
    exact h.event ev hev hne
  · rcases hpc with rfl | rfl <;> trivial

/-- **Preserved by every step.** -/
theorem loopInv_step (h : LoopInv cfg s) (hs : Step cfg s l s') : LoopInv cfg s' := by
  cases hs with
  | arrive => exact ⟨h.exclusive, h.registered, h.listener, h.event, h.connection, h.pc⟩
  | epollWait hpc hfetch =>
      obtain ⟨hm, hmpc⟩ := loopInv_fetches h hpc hfetch
      exact hm.of_pc (Or.inr rfl) trivial
  | waitFailed | endBatch | noMore | acceptFailed | addFailed | endOfStream | readFailed
  | rearmFailed => exact h.of_pc (Or.inr rfl) trivial
  | take hpc hbatch => exact loopInv_take h hpc hbatch
  | del hpc => exact loopInv_del h hpc
  | close hpc => exact loopInv_close h hpc _
  | accepted hpc _ _ hne hfresh => exact loopInv_accepted h hpc hne hfresh
  | added hpc => exact loopInv_armed h (by rw [hpc]; rfl) (Or.inl rfl)
  | chunk => exact ⟨h.exclusive, h.registered, h.listener, h.event, h.connection, h.pc⟩
  | drained hpc =>
      refine h.of_pc (Or.inl (by rw [hpc]; rfl)) ?_
      have hok := h.pc
      rw [hpc] at hok
      exact hok
  | rearmed hpc => exact loopInv_armed h (by rw [hpc]; rfl) (Or.inr rfl)

theorem loopInv_reachable {C : EpollLoop → Label → Prop} (h : (machine cfg).ReachableVia C s) :
    LoopInv cfg s := by
  refine Machine.ReachableVia.invariant ?_ ?_ h
  · intro s hinit
    subst hinit
    exact loopInv_start cfg
  · intro s l s' _ hi _ hs
    exact loopInv_step hi (next_cases hs)

/-! ## Between two batches -/

/-- `epoll_wait` is called with nothing left of the last batch. -/
def BatchDone (s : EpollLoop) : Prop := s.pc = .epollWait → s.batch = []

theorem batchDone_step (h : BatchDone s) (hs : Step cfg s l s') : BatchDone s' := by
  cases hs with
  | endBatch hpc hbatch => exact fun _ => hbatch
  | arrive => exact h
  | take hpc hbatch =>
      intro hwait
      rename_i ev rest
      have hne : dispatch cfg ev ≠ .epollWait := by
        unfold dispatch
        split
        · simp
        · split
          · split <;> simp
          · simp
      exact absurd hwait hne
  | chunk hpc =>
      intro hwait
      exact absurd (hpc.symm.trans hwait) (by simp)
  | _ =>
      intro hwait
      cases hwait

theorem batchDone_reachable {C : EpollLoop → Label → Prop} (h : (machine cfg).ReachableVia C s) :
    BatchDone s := by
  refine Machine.ReachableVia.invariant ?_ ?_ h
  · intro s hinit
    subst hinit
    exact fun _ => rfl
  · intro s l s' _ hb _ hs
    exact batchDone_step hb (next_cases hs)

end TcpServers.EpollLoop
