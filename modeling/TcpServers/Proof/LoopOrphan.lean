import TcpServers.Proof.LoopOwnership

/-!
# When the loop drops a client

An event is done with when the loop has closed its descriptor or re-armed it. The loop
does neither in three places: the end of the stream and a failed read both leave the
drain loop without a re-arm, and an event with neither `EPOLLRDHUP` nor `EPOLLIN` has
its flags logged and nothing else. A client dropped there is open, cannot fire any
more, and is nowhere in hand.
-/

namespace TcpServers.EpollLoop

open Lib

variable {cfg : Config} {s s' : EpollLoop} {l : Label}

/-- Every open client can fire, or its event is being handled or waits in the batch. -/
def NoneDropped (cfg : Config) (s : EpollLoop) : Prop :=
  ∀ fd c, s.fdTable fd = some c → Armed s fd ∨ fd ∈ held cfg s

/-- Every `epoll_ctl` succeeds. -/
def CtlSucceeds (_ : EpollLoop) : Label → Prop
  | .epollAdd failure => failure = none
  | .epollMod failure => failure = none
  | _ => True

instance (s : EpollLoop) : (l : Label) → Decidable (CtlSucceeds s l)
  | .epollAdd failure => inferInstanceAs (Decidable (failure = none))
  | .epollMod failure => inferInstanceAs (Decidable (failure = none))
  | .arrive | .epollWait _ | .waitFailed | .take | .hangUp | .accept4 _ | .read _ => isTrue trivial

/--
A client's event has `EPOLLRDHUP` or `EPOLLIN`, and a `read()` in the drain loop returns
bytes or would block.
-/
def SeenThrough (cfg : Config) (s : EpollLoop) : Label → Prop
  | .take => ∀ ev ∈ s.batch.head?, ev.fd ≠ cfg.serverSfd →
      ev.flags.epollrdhup = true ∨ ev.flags.epollin = true
  | .read (.data bs) => bs ≠ []
  | .read (.fail e) => e.wouldBlock = true
  | _ => True

instance (s : EpollLoop) : (l : Label) → Decidable (SeenThrough cfg s l)
  | .take => inferInstanceAs (Decidable (∀ ev ∈ s.batch.head?, ev.fd ≠ cfg.serverSfd →
      ev.flags.epollrdhup = true ∨ ev.flags.epollin = true))
  | .read (.data bs) => inferInstanceAs (Decidable (bs ≠ []))
  | .read (.fail e) => inferInstanceAs (Decidable (e.wouldBlock = true))
  | .arrive | .epollWait _ | .waitFailed | .hangUp | .accept4 _ | .epollAdd _ | .epollMod _ =>
      isTrue trivial

/-- Another client's registration arms nothing less. -/
theorem Armed.other {fd f : Fd} {o : Option Interest} (h : Armed s f) (hne : f ≠ fd)
    (hinterest : s'.interest = Function.update s.interest fd o) : Armed s' f := by
  obtain ⟨w, hw, ha⟩ := h
  refine ⟨w, ?_, ha⟩
  rw [hinterest, Function.update_of_ne hne]
  exact hw

/-- What is in hand and not at work waits in the batch. -/
theorem waiting_of_held {fd : Fd} (h : fd ∈ held cfg s) (hne : atWork s.pc ≠ some fd) :
    fd ∈ waiting cfg s.batch :=
  (mem_held.mp h).resolve_left hne

theorem noneDropped_start (cfg : Config) : NoneDropped cfg (start cfg) := by
  intro fd c hc
  cases hc

/-- Between two statements at which no client is in hand. -/
theorem NoneDropped.of_pc (h : NoneDropped cfg s) {pc : LoopPc}
    (hat : atWork pc = atWork s.pc ∨ atWork s.pc = none) :
    NoneDropped cfg { s with pc := pc } := by
  intro fd c hc
  refine (h fd c hc).imp (fun harm => harm) (fun hheld => ?_)
  rcases mem_held.mp hheld with hwork | hwait
  · rcases hat with heq | hnone
    · exact mem_held.mpr (Or.inl (heq.trans hwork))
    · rw [hnone] at hwork
      cases hwork
  · exact mem_held.mpr (Or.inr hwait)

theorem noneDropped_fetched (h : NoneDropped cfg s) {ev : LoopEvent}
    (hf : Fetched cfg s ev s') : NoneDropped cfg s' := by
  have hgrows : ∀ fd, fd ∈ held cfg s →
      atWork s.pc = some fd ∨ fd ∈ waiting cfg (s.batch ++ [ev]) := by
    intro fd hheld
    refine (mem_held.mp hheld).imp (fun hwork => hwork) (fun hwait => ?_)
    rw [waiting_snoc]
    exact List.mem_append_left _ hwait
  cases hf with
  | listener =>
      intro fd c hc
      exact (h fd c hc).imp (fun harm => harm) (fun hheld => mem_held.mpr (hgrows fd hheld))
  | client hfd hw harmed =>
      intro fd c hc
      by_cases heq : fd = ev.fd
      · refine Or.inr (mem_held.mpr (Or.inr ?_))
        show fd ∈ waiting cfg (s.batch ++ [ev])
        rw [waiting_snoc, if_neg hfd, heq]
        exact List.mem_append_right _ List.mem_cons_self
      · exact (h fd c hc).imp (fun harm => harm.other heq rfl)
          (fun hheld => mem_held.mpr (hgrows fd hheld))

/-- An event that is seen through takes its client from the batch into the loop's hand. -/
theorem noneDropped_take (h : NoneDropped cfg s) (hpc : s.pc = .loop) {ev : LoopEvent}
    {rest : List LoopEvent} (hbatch : s.batch = ev :: rest) (hseen : SeenThrough cfg s .take) :
    NoneDropped cfg { s with pc := dispatch cfg ev, batch := rest } := by
  intro fd c hc
  refine (h fd c hc).imp (fun harm => harm) (fun hheld => ?_)
  rw [mem_held, hpc, hbatch, waiting_cons] at hheld
  rcases hheld with hwork | hwait
  · cases hwork
  · by_cases hfd : ev.fd = cfg.serverSfd
    · rw [if_pos hfd, List.nil_append] at hwait
      exact mem_held.mpr (Or.inr hwait)
    · rw [if_neg hfd, List.singleton_append, List.mem_cons] at hwait
      rcases hwait with rfl | hwait
      · refine mem_held.mpr (Or.inl ?_)
        show atWork (dispatch cfg ev) = some ev.fd
        unfold dispatch
        split
        · rfl
        · rename_i hrdhup
          have hin := (hseen ev (by rw [hbatch]; rfl) hfd).resolve_left hrdhup
          rw [if_pos hin]
          rfl
      · exact mem_held.mpr (Or.inr hwait)

theorem noneDropped_step (hi : LoopInv cfg s) (h : NoneDropped cfg s) (hctl : CtlSucceeds s l)
    (hseen : SeenThrough cfg s l) (hs : Step cfg s l s') : NoneDropped cfg s' := by
  cases hs with
  | arrive => exact h
  | epollWait hpc hfetch =>
      have hm : NoneDropped cfg _ :=
        fetches_induction (fun _ _ _ hd hf => noneDropped_fetched hd hf) hfetch h
      have hmpc := (loopInv_fetches hi hpc hfetch).2
      exact hm.of_pc (Or.inr (by rw [hmpc]; rfl))
  | waitFailed hpc | endBatch hpc | noMore hpc | acceptFailed hpc =>
      exact h.of_pc (Or.inr (by rw [hpc]; rfl))
  | take hpc hbatch => exact noneDropped_take h hpc hbatch hseen
  | drained hpc => exact h.of_pc (Or.inl (by rw [hpc]; rfl))
  | chunk => exact h
  | @del fd hpc =>
      intro f c hc
      by_cases heq : f = fd
      · exact Or.inr (mem_held.mpr (Or.inl (by rw [heq]; rfl)))
      · refine (h f c hc).imp (fun harm => harm.other heq rfl) (fun hheld => ?_)
        rw [mem_held, hpc] at hheld
        exact mem_held.mpr hheld
  | @close fd hpc =>
      intro f c hc
      obtain ⟨hne, hc⟩ := Table.of_remove hc
      refine (h f c hc).imp (fun harm => harm.other hne rfl) (fun hheld => ?_)
      have hwork : atWork s.pc ≠ some f := by
        rw [hpc]
        exact fun heq => hne (Option.some.inj heq).symm
      exact mem_held.mpr (Or.inr (waiting_of_held (s := s) hheld hwork))
  | @accepted fd hpc =>
      intro f c hc
      rcases Table.of_insert hc with ⟨rfl, _⟩ | ⟨_, hc⟩
      · exact Or.inr (mem_held.mpr (Or.inl rfl))
      · refine (h f c hc).imp (fun harm => harm) (fun hheld => ?_)
        exact mem_held.mpr (Or.inr (waiting_of_held (s := s) hheld (by simp [hpc, atWork])))
  | @added fd c hpc | @rearmed fd w hpc =>
      intro f c hc
      by_cases heq : f = fd
      · rw [heq]
        exact Or.inl ⟨_, Function.update_self _ _ _, rfl⟩
      · refine (h f c hc).imp (fun harm => harm.other heq rfl) (fun hheld => ?_)
        have hwork : atWork s.pc ≠ some f := by
          rw [hpc]
          exact fun hat => heq (Option.some.inj hat).symm
        exact mem_held.mpr (Or.inr (waiting_of_held (s := s) hheld hwork))
  | addFailed | rearmFailed => cases hctl
  | endOfStream => exact absurd rfl hseen
  | readFailed hpc he => exact absurd hseen (by simp [SeenThrough, he])

/-- What is in hand and is let go without a re-arm is dropped. -/
theorem LoopInv.dropped (hi : LoopInv cfg s) {fd : Fd} (hheld : fd ∈ held cfg s)
    (htable : s'.fdTable = s.fdTable) (hinterest : s'.interest = s.interest)
    (hgone : fd ∉ held cfg s') : ¬ NoneDropped cfg s' := by
  intro hnone
  obtain ⟨c, hc⟩ := hi.held_open hheld
  rcases hnone fd c (by rw [htable]; exact hc) with harm | hmem
  · obtain ⟨w, hw, ha⟩ := harm
    rw [hinterest] at hw
    exact hi.exclusive.taken () fd hheld ⟨w, hw, ha⟩
  · exact hgone hmem

/-- **Each of the three places drops a client.** -/
theorem dropped_step (hi : LoopInv cfg s) (hv : cfg.variant = .concurrentServers)
    (hseen : ¬ SeenThrough cfg s l) (hs : Step cfg s l s') : ¬ NoneDropped cfg s' := by
  cases hs with
  | @take ev rest hpc hbatch =>
      have hev : ev.fd ≠ cfg.serverSfd ∧ ev.flags.epollrdhup = false
          ∧ ev.flags.epollin = false := by
        simp only [SeenThrough, hbatch, List.head?_cons, Option.mem_some_iff] at hseen
        push Not at hseen
        obtain ⟨e, rfl, hne, hrdhup, hin⟩ := hseen
        exact ⟨hne, by simpa using hrdhup, by simpa using hin⟩
      obtain ⟨hne, hrdhup, hin⟩ := hev
      have hpc' : dispatch cfg ev = .loop := by
        unfold dispatch
        rw [hrdhup, hin]
        rfl
      have hnodup := hi.exclusive.nodup ()
      simp only [held, hpc, hbatch, waiting_cons, if_neg hne] at hnodup
      have hheld : ev.fd ∈ held cfg s := by
        rw [mem_held, hpc, hbatch, waiting_cons, if_neg hne]
        exact Or.inr List.mem_cons_self
      refine hi.dropped hheld rfl rfl (fun hmem => ?_)
      rw [hpc'] at hmem
      exact (List.nodup_cons.mp hnodup).1 hmem
  | @endOfStream fd c hpc | @readFailed fd e hpc =>
      have hat : atWork s.pc = some fd := by
        rw [hpc]
        rfl
      exact hi.dropped (mem_held.mpr (Or.inl hat)) rfl rfl (fun hmem => hi.no_event hat hmem)
  | @chunk fd c bs hpc hopen hle hne =>
      exact absurd (fun hnil => hne hnil hv) hseen
  | drained hpc he => exact absurd he hseen
  | endBatch hpc hbatch => exact absurd (by simp [SeenThrough, hbatch]) hseen
  | _ => exact absurd trivial hseen

/--
**When no client is dropped.** With every `epoll_ctl` succeeding, in every run: each open
client stays armed or in hand if and only if every client's event has `EPOLLRDHUP` or
`EPOLLIN` and every read of the drain loop returns bytes or would block.
-/
theorem none_dropped_iff (hv : cfg.variant = .concurrentServers) {ls : List Label}
    (hrun : (machine cfg).run (start cfg) ls = some s)
    (hctl : (machine cfg).Along CtlSucceeds (start cfg) ls) :
    (machine cfg).Throughout (NoneDropped cfg) (start cfg) ls
      ↔ (machine cfg).Along (SeenThrough cfg) (start cfg) ls := by
  have h0 : LoopInv cfg (start cfg) ∧ NoneDropped cfg (start cfg) :=
    ⟨loopInv_start cfg, noneDropped_start cfg⟩
  have hgood : ∀ s l s', LoopInv cfg s ∧ NoneDropped cfg s → CtlSucceeds s l →
      SeenThrough cfg s l → (machine cfg).next s l = some s' →
      LoopInv cfg s' ∧ NoneDropped cfg s' := by
    intro s l s' hs hl hseen hnext
    have hstep := next_cases hnext
    exact ⟨loopInv_step hs.1 hstep, noneDropped_step hs.1 hs.2 hl hseen hstep⟩
  -- a dropped client is seen at once, so the last state need not be a special one
  have hiff := Machine.throughout_iff_along (Q := fun _ => True)
    (J := fun s => ¬ NoneDropped cfg s) h0 (fun _ hs => hs.2) hgood
    (fun _ _ _ hs _ hseen hnext => dropped_step hs.1 hv hseen (next_cases hnext))
    (fun _ _ _ hd hn _ _ => absurd hn hd) (fun _ hd _ => hd) hrun hctl
  exact ⟨hiff.2 trivial, hiff.1⟩

/-- The edge-triggered server on descriptor `3`, one connection in its queue. -/
def edgeTriggered : Config := ⟨.concurrentServers, 3, 1⟩

/-- The connection is accepted as descriptor `5` and added to epoll. -/
def acceptsOne : List Label :=
  [.epollWait [⟨{ epollin := true }, 3⟩], .take, .accept4 (.ok 5), .epollAdd none,
    .accept4 (.error .eagain), .take]

/-- Its client sends a byte, and later closes. -/
def sendsAndCloses : List Label :=
  acceptsOne ++ [.epollWait [⟨{ epollin := true }, 5⟩], .take, .read (.data [104]),
    .read (.fail .eagain), .epollMod none, .take,
    .epollWait [⟨{ epollin := true, epollrdhup := true }, 5⟩], .take, .hangUp, .hangUp, .take]

theorem none_dropped_sendsAndCloses :
    (machine edgeTriggered).Along (SeenThrough edgeTriggered) (start edgeTriggered) sendsAndCloses
      ∧ (machine edgeTriggered).Throughout (NoneDropped edgeTriggered) (start edgeTriggered)
        sendsAndCloses := by
  have hval : ((machine edgeTriggered).run (start edgeTriggered) sendsAndCloses).map
      (fun s => s.pc) = some .epollWait := by decide +kernel
  obtain ⟨s, hrun, _⟩ := Option.map_eq_some_iff.mp hval
  have hctl : (machine edgeTriggered).Along CtlSucceeds (start edgeTriggered) sendsAndCloses := by
    decide +kernel
  have hseen : (machine edgeTriggered).Along (SeenThrough edgeTriggered) (start edgeTriggered)
      sendsAndCloses := by decide +kernel
  exact ⟨hseen, (none_dropped_iff rfl hrun hctl).mpr hseen⟩

/-- The client shuts down its side while the loop drains it, so that no flag says so. -/
def endsWhileDrained : List Label :=
  acceptsOne ++ [.epollWait [⟨{ epollin := true }, 5⟩], .take, .read (.data [104]),
    .read (.data []), .take]

theorem dropped_endsWhileDrained :
    ∃ s, (machine edgeTriggered).ReachableVia CtlSucceeds s ∧ s.pc = .epollWait
      ∧ s.fdTable 5 = some 0 ∧ s.interest 5 = some ⟨clientMask, false⟩
      ∧ ¬ NoneDropped edgeTriggered s := by
  have hval : ((machine edgeTriggered).run (start edgeTriggered) endsWhileDrained).map
      (fun s => (s.pc, s.fdTable 5, s.interest 5, s.batch))
      = some (.epollWait, some 0, some ⟨clientMask, false⟩, []) := by decide +kernel
  obtain ⟨s, hrun, heq⟩ := Option.map_eq_some_iff.mp hval
  simp only [Prod.mk.injEq] at heq
  obtain ⟨hpc, hopen, hspent, hbatch⟩ := heq
  refine ⟨s, .of_run (.init rfl) (by decide +kernel) hrun, hpc, hopen, hspent, fun hnone => ?_⟩
  rcases hnone 5 0 hopen with ⟨w, hw, ha⟩ | hheld
  · rw [hspent] at hw
    cases hw
    cases ha
  · rw [mem_held, hpc, hbatch] at hheld
    rcases hheld with hwork | hwait
    · cases hwork
    · cases hwait

end TcpServers.EpollLoop
