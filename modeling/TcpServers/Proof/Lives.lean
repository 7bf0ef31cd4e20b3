import TcpServers.Proof.OneShot

/-!
# The workers together do to a connection what `Connection` says

`Connection` follows a single connection whose events are handled one at a time.
Here that is what any number of workers on one `ConnectionDataManager` make of
each of their connections, as long as one worker at a time is at it: whenever its
event can come, waits in a batch or is being handled, its data are those of a
reachable `Connection`. So what was proved of one connection holds of all of them.
-/

namespace TcpServers.Server

open Lib ConnectionDataManager

variable {ι : Type} {cfg : Config ι} {s s' : Server ι} {i j : ι} {act : Act}

/-- A connection, followed on its own, can come to the phase `ph` with the data `cd`. -/
def Lives (cd : ConnectionData) (errno : Errno) (armed : Option Events) (ph : Phase) : Prop :=
  ∃ k, (Connection.machine cd.connFd).ReachableVia Connection.NoReadFailure k
    ∧ k.data = cd ∧ k.errno = errno ∧ k.armed = armed ∧ k.phase = ph

/-- Whatever the workers have to do with a connection, it is at that point of its life. -/
structure LivesInv (s : Server ι) : Prop where
  /-- A connection that is about to be added to epoll is new. -/
  new : ∀ i fd a c, (s.worker i).pc = .add fd (some a) c → s.mem a = .new fd
  armed : ∀ ep fd reg a c, s.interest ep fd = some reg → reg.armed = true →
    s.data.lookup fd = some ⟨a, .conn c⟩ →
      ∃ errno, Lives (s.mem a) errno (some reg.mask) .idle
  -- the `errno` it will be handled with is that of the worker by then
  fetched : ∀ i, ∀ ev ∈ (s.worker i).batch, ∀ a c, ev.ptr = some a → ev.file = .conn c →
    ∀ errno, Lives (s.mem a) errno none (.fetched ev.flags)
  handling : ∀ i p f pc, (s.worker i).pc = .handle p f pc →
    Lives (s.mem p) (s.worker i).errno none (.handling pc)

/-! ## One step of a life -/

theorem Lives.new (fd : Fd) : Lives (.new fd) .success (some acceptMask) .idle :=
  ⟨.accepted fd, .init rfl, rfl, rfl, rfl, rfl⟩

theorem Lives.deliver {cd : ConnectionData} {errno : Errno} {mask : Events}
    (h : Lives cd errno (some mask) .idle) (flags : Events) (errno' : Errno) :
    Lives cd errno' none (.fetched flags) := by
  obtain ⟨k, hk, rfl, _, harmed, hidle⟩ := h
  refine ⟨{ k with armed := none, phase := .fetched flags, errno := errno' },
    .tail (a := .deliver flags errno') hk trivial ?_, rfl, rfl, rfl, rfl⟩
  show k.next (.deliver flags errno') = _
  simp only [Connection.next, hidle, harmed]

theorem Lives.dispatch {cd : ConnectionData} {errno : Errno} {flags : Events}
    (h : Lives cd errno none (.fetched flags)) (hd : TcpServers.dispatch flags = .handle) :
    Lives cd errno none (.handling .testRead) := by
  obtain ⟨k, hk, rfl, rfl, harmed, hfetched⟩ := h
  refine ⟨{ k with phase := .handling .testRead }, .tail (a := .dispatch) hk trivial ?_, rfl,
    rfl, harmed, rfl⟩
  show k.next .dispatch = _
  simp only [Connection.next, hfetched, hd]

/-- A statement of the handler is one also when the connection is followed on its own. -/
theorem Lives.handler {cd : ConnectionData} {errno : Errno} {pc : HandlerPc} {a : Answer}
    {out : HandlerOut} (h : Lives cd errno none (.handling pc))
    (hstep : HandlerStep cd errno pc a out)
    (hread : ∀ e, a = .read (.fail e) → e.wouldBlock = true) :
    Lives out.data out.errno (Connection.rearmed none pc a) (Connection.afterStep out.pc) := by
  obtain ⟨k, hk, rfl, rfl, harmed, hphase⟩ := h
  have hfd := handlerStep_connFd hstep
  refine ⟨k.stepped pc a out, ?_, rfl, rfl, by rw [Connection.stepped_armed, harmed], rfl⟩
  rw [hfd]
  refine .tail (a := .handler a) hk ?_ ?_
  · unfold Connection.NoReadFailure
    split
    · rename_i e heq
      cases heq
      exact hread e rfl
    · trivial
  · show k.next (.handler a) = _
    simp only [Connection.next, hphase, handlerStep_of hstep, Option.map_some]

/-! ## What a step makes of the lives -/

/-- The listeners' data are no connection's, and no life has begun. -/
theorem livesInv_start (cfg : Config ι) : LivesInv (start cfg) where
  new := by
    intro i fd a c hpc
    cases hpc
  armed := by
    intro ep fd reg a c _ _ hl
    obtain ⟨ep', _, _, he⟩ := start_lookup.mp hl
    cases he
  fetched := by
    intro i ev hev
    exact absurd hev List.not_mem_nil
  handling := by
    intro i p f pc hpc
    cases hpc

/-- The worker in the handler is at work for the connection that has these data. -/
theorem OwnInv.handling_element (h : OwnInv cfg s) (hn : NoResetting s) {p : Addr} {f : File}
    {pc : HandlerPc} (hpc : (s.worker i).pc = .handle p f pc) {fd : Fd} {c : Nat}
    (hl : s.data.lookup fd = some ⟨p, .conn c⟩) : atWork (s.worker i).pc = some c := by
  obtain ⟨d, fd', _, hl', _, _, hat⟩ := h.handling hpc (pastRearm_of_resetting (hn i p f pc hpc))
  have hcd := (h.tables.element_unique hl hl').2
  cases hcd
  exact hat

variable [DecidableEq ι]

/-- The data of a connection are written by the worker that is at work for it only. -/
theorem OwnInv.mem_stays (h : OwnInv cfg s) (hn : NoResetting s) (hs : Step cfg s i act s')
    {fd : Fd} {a : Addr} {c : Nat} (hl : s.data.lookup fd = some ⟨a, .conn c⟩)
    (hat : atWork (s.worker i).pc ≠ some c) : s'.mem a = s.mem a := by
  rcases step_mem hs a with heq | htakes | ⟨f, pc, _, _, hpc, _⟩ | ⟨hp, ⟨v, f, hpc⟩, _⟩
  · exact heq
  · exact absurd ⟨fd, _, hl, rfl⟩ (step_takes_free hs htakes)
  · exact absurd (h.handling_element hn hpc hl) hat
  · have hok := h.pcs i
    rw [hpc] at hok
    obtain ⟨_, _, _, hfreed⟩ := hok
    exact absurd ⟨fd, _, hl, rfl⟩ (hfreed hp).2

theorem lives_new (h : OwnInv cfg s) (hn : NoResetting s) (hv : LivesInv s)
    (hs : Step cfg s i act s') (j : ι) (fd : Fd) (a : Addr) (c : Nat)
    (hpc : (s'.worker j).pc = .add fd (some a) c) : s'.mem a = .new fd := by
  by_cases hj : j = i
  · subst hj
    cases hs with
    | inserted =>
        rw [setPc_worker, Function.update_self] at hpc
        cases hpc
        exact Function.update_self _ _ _
    | deliver hpc' =>
        rw [setWorker_worker, Function.update_self, hpc'] at hpc
        cases hpc
    | @take ev rest q _ _ _ =>
        simp only [setWorker_worker, Function.update_self] at hpc
        rcases dispatched_cases cfg s j ev q with heq | heq | ⟨_, heq⟩ | ⟨_, heq⟩ <;>
          rw [heq] at hpc <;> cases hpc
    | @handled p f pc an out _ _ _ | @rearmed p f pc out _ _ _ _ _ _ =>
        cases hout : out.pc <;> simp [hout, afterHandler] at hpc
    | @allocated q cd hfree =>
        have hok := h.pcs j
        rw [setMem_worker] at hpc
        rw [hpc] at hok
        obtain ⟨⟨a', ha, hl⟩, _⟩ := hok
        cases ha
        have halloc : Allocation s _ (.allocate q cd) q cd := ⟨rfl, hfree, rfl⟩
        rw [halloc.mem ⟨fd, _, hl, rfl⟩]
        exact hv.new j fd a c hpc
    | _ => simp at hpc
  · rw [step_worker hs hj] at hpc
    have hok := h.pcs j
    rw [hpc] at hok
    obtain ⟨⟨a', ha, hl⟩, _⟩ := hok
    cases ha
    have hat : atWork (s.worker j).pc = some c := by rw [hpc]; rfl
    rw [h.mem_stays hn hs hl (fun hi => hj (h.atWork_unique hat hi))]
    exact hv.new j fd a c hpc

/-- An element that is in epoll was in the map before: what `insert` puts in is not yet. -/
theorem OwnInv.lookup_before (h : OwnInv cfg s) (hs : Step cfg s i act s') {ep : Ep} {fd : Fd}
    {reg : Registration} {e : Entry} (hr : s'.interest ep fd = some reg)
    (hl' : s'.data.lookup fd = some e) : s.data.lookup fd = some e := by
  rcases step_lookup_back hs hl' with hold | ⟨b, d, rfl, hpc, _⟩
  · exact hold
  · have hok := h.pcs i
    rw [hpc] at hok
    rcases step_interest_none hs (hok.2.2 ep) with hnone | ⟨_, _, hpc', _⟩
    · rw [hr] at hnone
      cases hnone
    · rw [hpc] at hpc'
      cases hpc'

/-- **An armed connection** waits for its event with the mask it was armed with. -/
theorem lives_armed (h : OwnInv cfg s) (hn : NoResetting s) (hv : LivesInv s)
    (hs : Step cfg s i act s') (ep : Ep) (fd : Fd)
    (reg : Registration) (a : Addr) (c : Nat) (hr : s'.interest ep fd = some reg)
    (harmed : reg.armed = true) (hl' : s'.data.lookup fd = some ⟨a, .conn c⟩) :
    ∃ errno, Lives (s'.mem a) errno (some reg.mask) .idle := by
  have hl := h.lookup_before hs hr hl'
  obtain ⟨hopen, hfd⟩ := h.tables.entry fd _ hl
  rcases step_interest_back hs hr with hold | ⟨old, flags, _, _, rfl, hold, _, rfl⟩ |
    ⟨ptr, d, rfl, hpc, rfl, rfl⟩ | ⟨p, f, pc, isRead, rfl, hpc, hrearm, rfl, rfl, _, rfl⟩
  · have hat : atWork (s.worker i).pc ≠ some c :=
      fun hat => h.holds.taken i c (mem_holds_atWork hat) ⟨ep, fd, reg, hold, harmed, hopen⟩
    rw [h.mem_stays hn hs hl hat]
    exact hv.armed ep fd reg a c hold harmed hl
  · -- a one-shot event has disarmed it
    rcases h.tables.mask _ fd old c hold hopen with hm | ⟨b, hm⟩
    · simp [hm, acceptMask] at harmed
    · simp [hm, rearmMask] at harmed
  · have hok := h.pcs i
    rw [hpc] at hok
    obtain ⟨⟨a', rfl, hla⟩, _⟩ := hok
    rw [hl] at hla
    cases hla
    have hnew := hv.new i fd a c hpc
    cases hs with
    | added =>
        refine ⟨.success, ?_⟩
        rw [setPc_mem, setInterest_mem, hnew]
        exact Lives.new fd
  · obtain ⟨d, fd', rfl, hlp, _, hfd', _⟩ := h.handling hpc (pastRearm_of_rearm hrearm)
    rw [hfd', hlp] at hl
    cases hl
    have hlife := hv.handling i a _ pc hpc
    rcases step_handle hs hpc with ⟨an, out, heff⟩ | ⟨_, _, halloc⟩
    case inr => cases halloc.act_eq
    have hact := heff.act_eq
    cases hact
    have hnext := hlife.handler heff.step (fun e he => by cases he)
    rw [rearm_last heff.step (by rw [hrearm]; simp) (hn i a _ pc hpc), ← heff.mem] at hnext
    refine ⟨out.errno, ?_⟩
    simpa [Connection.rearmed, hrearm, Connection.afterStep] using hnext

/-- **An event in a batch** waits to be handled, whatever the worker does before it. -/
theorem lives_fetched (h : OwnInv cfg s) (hn : NoResetting s) (hv : LivesInv s)
    (hs : Step cfg s i act s') (j : ι) (ev : Event) (hev : ev ∈ (s'.worker j).batch) (a : Addr)
    (c : Nat) (hptr : ev.ptr = some a) (hfile : ev.file = .conn c) (errno : Errno) :
    Lives (s'.mem a) errno none (.fetched ev.flags) := by
  have hold : ev ∈ (s.worker j).batch → Lives (s'.mem a) errno none (.fetched ev.flags) := by
    intro hmem
    obtain ⟨b, hb, hl⟩ := (h.events j ev hmem).entry
    rw [hptr] at hb
    cases hb
    rw [hfile] at hl
    rw [h.mem_stays hn hs hl (fun hat => h.no_event hat hmem hfile)]
    exact hv.fetched j ev hmem a c hptr hfile errno
  by_cases hj : j = i
  · subst hj
    cases hs with
    | @deliver fd flags reg file hpc hreg hopen harmed =>
        simp only [setWorker_worker, Function.update_self, List.mem_append,
          List.mem_singleton] at hev
        rcases hev with hmem | rfl
        · exact hold hmem
        · obtain ⟨e, hl, hptr'⟩ := h.tables.armed _ fd reg hreg harmed
          have hentry := (h.tables.entry fd e hl).1
          rw [hopen] at hentry
          obtain ⟨b, g⟩ := e
          cases hentry
          dsimp only at hfile hptr
          rw [hptr] at hptr'
          cases hptr'
          subst hfile
          obtain ⟨errno', hlife⟩ := hv.armed _ fd reg _ c hreg harmed hl
          exact hlife.deliver flags errno
    | take _ hbatch _ =>
        simp only [setWorker_worker, Function.update_self] at hev
        exact hold (by rw [hbatch]; exact List.mem_cons_of_mem _ hev)
    | _ => exact hold (by simpa using hev)
  · rw [step_worker hs hj] at hev
    exact hold hev

/-- **A worker in the handler** is at a statement of the connection's life. -/
theorem lives_handling (h : OwnInv cfg s) (hn : NoResetting s) (hv : LivesInv s)
    (hc : RearmsLast s (i, act)) (hs : Step cfg s i act s') (j : ι) (p : Addr) (f : File)
    (pc : HandlerPc) (hpc : (s'.worker j).pc = .handle p f pc) :
    Lives (s'.mem p) (s'.worker j).errno none (.handling pc) := by
  by_cases hj : j = i
  · subst hj
    rcases step_to_handle hs hpc with ⟨ev, hmem, hptr, rfl, hd, rfl, heq, herrno⟩ |
      ⟨pc₀, a, out, hold, heff, hout⟩ | ⟨q, cd, halloc⟩
    · have hok := pcOk_self h hs (fun _ => hc.1)
      rw [hpc] at hok
      obtain ⟨c, _, hfile, _⟩ := hok rfl
      rw [heq, herrno]
      exact (hv.fetched j ev hmem p c hptr hfile _).dispatch hd
    · have hact := heff.act_eq
      have hread : ∀ e, a = .read (.fail e) → e.wouldBlock = true := by
        intro e he
        subst he
        subst hact
        exact hc.2
      -- a re-arm would have been the last statement
      have hunarmed : Connection.rearmed none pc₀ a = none := by
        have hnone : pc₀.rearm? = none := by
          by_contra hrearm
          rw [rearm_last heff.step hrearm (hn j p f pc₀ hold)] at hout
          cases hout
        simp only [Connection.rearmed, hnone]
      have hnext := (hv.handling j p f pc₀ hold).handler heff.step hread
      rw [hunarmed, hout, ← heff.mem] at hnext
      rw [heff.worker]
      exact hnext
    · rw [halloc.worker] at hpc ⊢
      obtain ⟨c, fd, _, hl, _⟩ := h.handling hpc (pastRearm_of_resetting (hn j p f pc hpc))
      rw [halloc.mem ⟨fd, _, hl, rfl⟩]
      exact hv.handling j p f pc hpc
  · rw [step_worker hs hj] at hpc ⊢
    obtain ⟨c, fd, _, hl, _, _, hat⟩ := h.handling hpc (pastRearm_of_resetting (hn j p f pc hpc))
    rw [h.mem_stays hn hs hl (fun hi => hj (h.atWork_unique hat hi))]
    exact hv.handling j p f pc hpc

theorem livesInv_step (h : OwnInv cfg s) (hn : NoResetting s) (hv : LivesInv s)
    (hc : RearmsLast s (i, act)) (hs : Step cfg s i act s') : LivesInv s' where
  new := lives_new h hn hv hs
  armed := lives_armed h hn hv hs
  fetched := lives_fetched h hn hv hs
  handling := lives_handling h hn hv hc hs

theorem livesInv_reachable (h : (machine cfg).ReachableVia RearmsLast s) : LivesInv s := by
  refine Machine.ReachableVia.invariant ?_ ?_ h
  · intro s hinit
    subst hinit
    exact livesInv_start cfg
  · intro s l s' hr hv hc hs
    have hi : OwnInv cfg s := ownInv_reachable (fun _ _ hc _ => hc.1) hr
    exact livesInv_step hi (noResetting_reachable hr) hv hc (next_cases hs)

/-! ## What that gives the workers -/

/--
**A worker only writes what was read and is not written yet**, whichever worker read it,
as long as every re-arm comes last: the range it gives to `write()` lies between the two
indices.
-/
theorem write_inside (h : (machine cfg).ReachableVia RearmsLast s) {p : Addr} {f : File}
    (hpc : (s.worker i).pc = .handle p f .write) :
    0 ≤ (s.mem p).writeIndex
      ∧ (s.mem p).writeIndex + (s.mem p).writeCount ≤ (s.mem p).readIndex := by
  obtain ⟨k, hk, hdata, _, _, hphase⟩ := (livesInv_reachable h).handling i p f _ hpc
  have hi := Connection.indexInv_reachable hk
  have hle := (Connection.echoInv_reachable hk).ordered hi
  rw [hdata] at hle
  have hnonneg := hi.write_nonneg
  rw [hdata] at hnonneg
  refine ⟨hnonneg, ?_⟩
  have hcount : ((s.mem p).writeCount : Int) ≤ (s.mem p).readIndex - (s.mem p).writeIndex :=
    Connection.writeCount_le (by omega)
  omega

end TcpServers.Server
