import TcpServers.Model.Service
import TcpServers.Proof.Lives
import TcpServers.Proof.Orphan

/-!
# The workers do to each connection what it would do by itself

Any number of workers on one `ConnectionDataManager`, against a family of `Connection`s
of which each is alone with its events. A run of the workers is one of the family: every
statement of a worker is a step of the one connection it is about, or of none. The
statements of several workers on several connections may alternate in any way; that one
worker at a time has a connection is what keeps the members apart, and that holds in the
runs of `RearmsLast`.
-/

namespace TcpServers.Server

open Lib ConnectionDataManager

variable {ι : Type} {cfg : Config ι} {s s' : Server ι} {i j : ι} {act : Act}
  {F F' : Nat → Option Connection}

/-- Where the flags of its event lead a connection. -/
def afterDispatch : Dispatch → Phase
  | .close => .closed
  | .skip => .idle
  | .handle => .handling .testRead

/-- The member for every connection, at the point where the workers have it. -/
structure Matches (s : Server ι) (F : Nat → Option Connection) : Prop where
  unborn : ∀ c, s.nextConn ≤ c → F c = none
  inserting : ∀ i fd c, (s.worker i).pc = .insert fd c → F c = none
  adding : ∀ i fd a c, (s.worker i).pc = .add fd (some a) c → F c = none ∧ s.mem a = .new fd
  armed : ∀ ep fd reg a c, s.interest ep fd = some reg → reg.armed = true →
    s.data.lookup fd = some ⟨a, .conn c⟩ →
      ∃ k, F c = some k ∧ k.data = s.mem a ∧ k.armed = some reg.mask ∧ k.phase = .idle
  -- for the member its event is still to come
  fetched : ∀ i, ∀ ev ∈ (s.worker i).batch, ∀ a c, ev.ptr = some a → ev.file = .conn c →
    ∃ k mask, F c = some k ∧ k.data = s.mem a ∧ k.armed = some mask ∧ k.phase = .idle
  handling : ∀ i p c pc, (s.worker i).pc = .handle p (.conn c) pc →
    ∃ k, F c = some k ∧ k.data = s.mem p ∧ k.errno = (s.worker i).errno ∧ k.armed = none
      ∧ k.phase = .handling pc
  -- nobody has it, and its event cannot come
  resting : ∀ ep fd reg a c, s.interest ep fd = some reg → reg.armed = false →
    s.data.lookup fd = some ⟨a, .conn c⟩ → (∀ i, c ∉ holds (s.worker i)) →
      ∃ k, F c = some k ∧ k.data = s.mem a ∧ k.armed = none ∧ k.phase = .idle
  -- until `remove`, which frees the data
  closing : ∀ i p v c cpc, (s.worker i).pc = .close p v (.conn c) cpc →
    cpc = .test ∨ cpc = .remove →
      ∃ k, F c = some k ∧ k.data = s.mem p ∧ k.armed = none ∧ k.phase = .closed

/-- What a step makes of the family. -/
inductive Moved (s s' : Server ι) (i : ι) (act : Act) (F : Nat → Option Connection) :
    (Nat → Option Connection) → Prop where
  | quiet (h : s.stepsOf (i, act) = []) : Moved s s' i act F F
  | spawned {fd : Fd} {a : Addr} {c : Nat} (hact : act = .epollAdd none)
      (hpc : (s.worker i).pc = .add fd (some a) c) :
      Moved s s' i act F (Function.update F c (some (.accepted fd)))
  | taken {ev : Event} {rest : List Event} {a : Addr} {c : Nat} {k : Connection}
      (hact : act = .take) (hbatch : (s.worker i).batch = ev :: rest) (hptr : ev.ptr = some a)
      (hfile : ev.file = .conn c) (hdata : k.data = s.mem a)
      (herrno : k.errno = (s.worker i).errno) (harmed : k.armed = none)
      (hphase : k.phase = afterDispatch (dispatch ev.flags)) :
      Moved s s' i act F (Function.update F c (some k))
  | handled {p : Addr} {c : Nat} {pc : HandlerPc} {a : Answer} {out : HandlerOut}
      {k : Connection} (hpc : (s.worker i).pc = .handle p (.conn c) pc)
      (heff : HandlerEffect s s' i act p (.conn c) pc a out) (harmed : k.armed = none) :
      Moved s s' i act F (Function.update F c (some (k.stepped pc a out)))

/-! ## The step of the member -/

theorem matches_start (cfg : Config ι) : Matches (start cfg) (fun _ => none) where
  unborn := fun _ _ => rfl
  inserting := fun _ _ _ _ => rfl
  adding := by
    intro i fd a c hpc
    cases hpc
  armed := by
    intro ep fd reg a c _ _ hl
    obtain ⟨ep', _, _, he⟩ := start_lookup.mp hl
    cases he
  fetched := by
    intro i ev hev
    exact absurd hev List.not_mem_nil
  handling := by
    intro i p c pc hpc
    cases hpc
  resting := by
    intro ep fd reg a c _ _ hl
    obtain ⟨ep', _, _, he⟩ := start_lookup.mp hl
    cases he
  closing := by
    intro i p v c cpc hpc
    cases hpc

/-- What the flags make of a connection whose event was fetched. -/
theorem next_dispatch {k : Connection} {flags : Events} (h : k.phase = .fetched flags) :
    ∃ k', k.next .dispatch = some k' ∧ k'.data = k.data ∧ k'.errno = k.errno
      ∧ k'.armed = k.armed ∧ k'.phase = afterDispatch (dispatch flags) := by
  simp only [Connection.next, h]
  cases dispatch flags with
  | close | skip | handle => exact ⟨_, rfl, rfl, rfl, rfl, rfl⟩

/-- An event that is taken from a batch is delivered to the member and dispatched. -/
theorem run_taken {k : Connection} {c : Nat} {mask : Events} (hk : F c = some k)
    (harmed : k.armed = some mask) (hidle : k.phase = .idle) (flags : Events) (errno : Errno) :
    ∃ k', connections.run F [.step c (.deliver flags errno), .step c .dispatch]
        = some (Function.update F c (some k'))
      ∧ k'.data = k.data ∧ k'.errno = errno ∧ k'.armed = none
      ∧ k'.phase = afterDispatch (dispatch flags) := by
  have hdeliver : Connection.lives.next k (.deliver flags errno)
      = some { k with armed := none, phase := .fetched flags, errno := errno } := by
    show k.next (.deliver flags errno) = _
    simp only [Connection.next, hidle, harmed]
  obtain ⟨k', hdispatch, hdata, herrno, harmed', hphase⟩ :=
    next_dispatch (k := { k with armed := none, phase := .fetched flags, errno := errno }) rfl
  have hmember : Connection.lives.run k [.deliver flags errno, .dispatch] = some k' := by
    rw [Machine.run_cons, hdeliver, Option.bind_some, Machine.run_cons]
    exact (congrArg (Option.bind · _) hdispatch).trans rfl
  exact ⟨k', Machine.family_run hk hmember, hdata, herrno, harmed', hphase⟩

/-- Only the member of a connection that the worker holds moves. -/
theorem Moved.other (hF : Moved s s' i act F F') (h : OwnInv cfg s) (hn : NoResetting s) {d : Nat}
    (hd : d ∉ holds (s.worker i)) : F' d = F d := by
  cases hF with
  | quiet => rfl
  | @spawned fd a c hact hpc =>
      have hc : c ∈ holds (s.worker i) := mem_holds_atWork (by rw [hpc]; rfl)
      exact Function.update_of_ne (ne_of_mem_of_not_mem hc hd).symm _ _
  | @taken ev rest a c k hact hbatch hptr hfile =>
      have hc : c ∈ holds (s.worker i) :=
        mem_holds_event (by rw [hbatch]; exact List.mem_cons_self) hfile
      exact Function.update_of_ne (ne_of_mem_of_not_mem hc hd).symm _ _
  | @handled p c pc a out k hpc heff =>
      obtain ⟨c', _, hc', _, _, _, hat⟩ :=
        h.handling hpc (pastRearm_of_resetting (hn i _ _ _ hpc))
      cases hc'
      exact Function.update_of_ne (ne_of_mem_of_not_mem (mem_holds_atWork hat) hd).symm _ _

/-- What another worker holds stays where it is. -/
theorem Moved.held (hF : Moved s s' i act F F') (h : OwnInv cfg s) (hn : NoResetting s)
    (hj : j ≠ i) {d : Nat} (hd : d ∈ holds (s.worker j)) : F' d = F d :=
  hF.other h hn (fun hi => hj (h.holds.unique j i d hd hi))

/-- Until `remove` a worker in `closeConnection` refers to the element of its connection. -/
theorem OwnInv.closing_element (h : OwnInv cfg s) {p : Addr} {v : Fd} {c : Nat} {cpc : ClosePc}
    (hpc : (s.worker i).pc = .close p v (.conn c) cpc) (hcpc : cpc = .test ∨ cpc = .remove) :
    atWork (s.worker i).pc = some c ∧ s.data.lookup v = some ⟨p, .conn c⟩ := by
  have hok := h.pcs i
  rw [hpc] at hok
  rcases hcpc with rfl | rfl
  · obtain ⟨_, _, hl⟩ := hok
    exact ⟨by rw [hpc]; rfl, hl⟩
  · obtain ⟨_, _, hl⟩ := hok
    exact ⟨by rw [hpc]; rfl, hl⟩

/-- An allocation gets storage that no connection has. -/
theorem matches_allocated (h : OwnInv cfg s) (hn : NoResetting s) (hm : Matches s F) {q : Addr}
    {cd : ConnectionData} (hF : Moved s (s.setMem q cd) i (.allocate q cd) F F')
    (hfree : ¬ Owns s.data q) : Matches (s.setMem q cd) F' := by
  have hsame : F' = F := by
    cases hF with
    | quiet => rfl
    | spawned hact => cases hact
    | taken hact => cases hact
    | handled _ heff => cases heff.act_eq
  have halloc : Allocation s (s.setMem q cd) (.allocate q cd) q cd := ⟨rfl, hfree, rfl⟩
  have hmem : ∀ {fd a f}, s.data.lookup fd = some ⟨a, f⟩ → (s.setMem q cd).mem a = s.mem a :=
    fun {fd _ _} hl => halloc.mem ⟨fd, _, hl, rfl⟩
  rw [hsame]
  exact {
    unborn := hm.unborn
    inserting := hm.inserting
    adding := fun j fd a c hpc => by
      have hok := h.pcs j
      rw [setMem_worker] at hpc
      rw [hpc] at hok
      obtain ⟨⟨a', ha, hl⟩, _⟩ := hok
      cases ha
      rw [hmem hl]
      exact hm.adding j fd a c hpc
    armed := fun ep fd reg a c hr harmed hl => by
      rw [hmem hl]
      exact hm.armed ep fd reg a c hr harmed hl
    fetched := fun j ev hev a c hptr hfile => by
      obtain ⟨b, hb, hl⟩ := (h.events j ev hev).entry
      rw [hptr] at hb
      cases hb
      rw [hmem hl]
      exact hm.fetched j ev hev a c hptr hfile
    handling := fun j p c pc hpc => by
      obtain ⟨_, _, _, hl, _⟩ := h.handling hpc (pastRearm_of_resetting (hn j _ _ _ hpc))
      rw [hmem hl]
      exact hm.handling j p c pc hpc
    resting := fun ep fd reg a c hr harmed hl hun => by
      rw [hmem hl]
      exact hm.resting ep fd reg a c hr harmed hl hun
    closing := fun j p v c cpc hpc hcpc => by
      obtain ⟨_, hl⟩ := h.closing_element hpc hcpc
      rw [hmem hl]
      exact hm.closing j p v c cpc hpc hcpc }

variable [DecidableEq ι]

/-- **Every step of a worker is a step of its connection**, or of none. -/
theorem moved (h : OwnInv cfg s) (hm : Matches s F) (hs : Step cfg s i act s') :
    ∃ F', connections.run F (s.stepsOf (i, act)) = some F' ∧ Moved s s' i act F F' := by
  have hquiet : s.stepsOf (i, act) = [] →
      ∃ F', connections.run F (s.stepsOf (i, act)) = some F' ∧ Moved s s' i act F F' := by
    intro hnil
    exact ⟨F, by rw [hnil]; rfl, .quiet hnil⟩
  have hhandle : ∀ p f pc, (s.worker i).pc = .handle p f pc →
      ∃ F', connections.run F (s.stepsOf (i, act)) = some F' ∧ Moved s s' i act F F' := by
    intro p f pc hpc
    rcases step_handle hs hpc with ⟨a, out, heff⟩ | ⟨q, cd, halloc⟩
    case inr =>
      obtain rfl := halloc.act_eq
      exact hquiet rfl
    obtain rfl := heff.act_eq
    cases f with
    | listener ep => exact hquiet (by simp only [stepsOf, hpc])
    | conn c =>
        obtain ⟨k, hk, hdata, herrno, harmed, hphase⟩ := hm.handling i p c pc hpc
        refine ⟨_, ?_, .handled hpc heff harmed⟩
        have hstep : Connection.lives.next k (.handler a) = some (k.stepped pc a out) := by
          show k.next (.handler a) = _
          simp only [Connection.next, hphase, hdata, herrno, handlerStep_of heff.step,
            Option.map_some]
        simp only [stepsOf, hpc, Machine.run_cons]
        rw [connections, Machine.family_step hk hstep]
        rfl
  cases hs with
  | @added fd ptr c hpc hnew hopen =>
      have hok := h.pcs i
      rw [hpc] at hok
      obtain ⟨⟨a, rfl, _⟩, _⟩ := hok
      refine ⟨_, ?_, .spawned rfl hpc⟩
      simp only [stepsOf, hpc, Machine.run_cons]
      rw [connections, Machine.family_spawn (hm.adding i fd a c hpc).1]
      rfl
  | @take ev rest p hpc hbatch hptr =>
      obtain ⟨flags, ptr, fd, file⟩ := ev
      cases file with
      | listener ep => exact hquiet (by simp only [stepsOf, hbatch])
      | conn c =>
          obtain ⟨k, mask, hk, hdata, harmed, hidle⟩ :=
            hm.fetched i _ (by rw [hbatch]; exact List.mem_cons_self) p c hptr rfl
          obtain ⟨k', hrun, hdata', herrno, harmed', hphase⟩ :=
            run_taken hk harmed hidle flags (s.worker i).errno
          exact ⟨_, by simpa only [stepsOf, hbatch] using hrun,
            .taken rfl hbatch hptr rfl (hdata'.trans hdata) herrno harmed' hphase⟩
  | handled hpc => exact hhandle _ _ _ hpc
  | rearmed hpc => exact hhandle _ _ _ hpc
  | endBatch hpc hbatch => exact hquiet (by simp only [stepsOf, hbatch])
  | _ => exact hquiet rfl

/-! ## The members stay where the workers have them -/

/-- An event that stays in the batch keeps its connection where it is. -/
theorem Moved.event (hF : Moved s s' i act F F') (h : OwnInv cfg s) (hn : NoResetting s)
    (hs : Step cfg s i act s') {ev : Event} {c : Nat} (hev : ev ∈ (s.worker i).batch)
    (hstay : ev ∈ (s'.worker i).batch) (hfile : ev.file = .conn c) : F' c = F c := by
  cases hF with
  | quiet => rfl
  | @spawned fd a d hact hpc =>
      have hat : atWork (s.worker i).pc = some d := by rw [hpc]; rfl
      have hne : d ≠ c := fun hd => h.no_event hat hev (by rw [hfile, hd])
      exact Function.update_of_ne hne.symm _ _
  | @handled p d pc a out k hpc heff =>
      obtain ⟨d', _, hd, _, _, _, hat⟩ :=
        h.handling hpc (pastRearm_of_resetting (hn i _ _ _ hpc))
      cases hd
      have hne : d ≠ c := fun hd => h.no_event hat hev (by rw [hfile, hd])
      exact Function.update_of_ne hne.symm _ _
  | @taken ev₀ rest a d k hact hbatch hptr hfile₀ =>
      -- a batch has one event for a connection
      have hnodup := h.holds.nodup i
      simp only [Server.holds, hbatch, List.filterMap_cons, hfile₀, File.conn?] at hnodup
      have hne := (List.nodup_cons.mp (List.nodup_append.mp hnodup).2.1).1
      subst hact
      cases hs with
      | endBatch _ hnil => rw [hbatch] at hnil; cases hnil
      | @take _ _ _ _ hbatch' _ =>
          rw [hbatch] at hbatch'
          cases hbatch'
          simp only [setWorker_worker, Function.update_self] at hstay
          refine Function.update_of_ne (fun hc => hne ?_) _ _
          exact List.mem_filterMap.mpr ⟨ev, hstay, by rw [hfile, hc]⟩

omit [DecidableEq ι] in
/-- The member of a connection whose event is taken is where the flags lead it. -/
theorem Moved.dispatched (hF : Moved s s' i .take F F') {ev : Event} {rest : List Event}
    {p : Addr} {c : Nat} (hbatch : (s.worker i).batch = ev :: rest) (hptr : ev.ptr = some p)
    (hfile : ev.file = .conn c) :
    ∃ k, F' c = some k ∧ k.data = s.mem p ∧ k.errno = (s.worker i).errno ∧ k.armed = none
      ∧ k.phase = afterDispatch (dispatch ev.flags) := by
  cases hF with
  | quiet hq =>
      obtain ⟨flags, ptr, fd, file⟩ := ev
      dsimp only at hfile
      subst hfile
      simp only [stepsOf, hbatch] at hq
      cases hq
  | spawned hact => cases hact
  | handled _ heff => cases heff.act_eq
  | taken _ hbatch' hptr' hfile' hdata herrno harmed hphase =>
      rw [hbatch] at hbatch'
      cases hbatch'
      cases hptr.symm.trans hptr'
      cases hfile.symm.trans hfile'
      exact ⟨_, Function.update_self _ _ _, hdata, herrno, harmed, hphase⟩

omit [DecidableEq ι] in
/-- The member of a connection that is handled takes the statement. -/
theorem Moved.stepped (hF : Moved s s' i act F F') {p : Addr} {c : Nat} {pc : HandlerPc}
    {a : Answer} {out : HandlerOut} (hpc : (s.worker i).pc = .handle p (.conn c) pc)
    (heff : HandlerEffect s s' i act p (.conn c) pc a out) :
    ∃ k : Connection, F' c = some (k.stepped pc a out) ∧ k.armed = none := by
  have hact := heff.act_eq
  cases hF with
  | quiet hq => simp only [hact, stepsOf, hpc] at hq; cases hq
  | spawned _ hpc' => rw [hpc] at hpc'; cases hpc'
  | taken htake => rw [hact] at htake; cases htake
  | @handled _ _ _ _ out' k hpc' heff' harmed =>
      rw [hpc] at hpc'
      cases hpc'
      have hsame : out' = out := heff'.out_unique heff
      subst hsame
      cases heff'.act_eq.symm.trans hact
      exact ⟨k, Function.update_self _ _ _, harmed⟩

theorem matches_unborn (h : OwnInv cfg s) (hn : NoResetting s) (hm : Matches s F)
    (hF : Moved s s' i act F F') (hs : Step cfg s i act s') (c : Nat) (hc : s'.nextConn ≤ c) :
    F' c = none := by
  have hle := step_nextConn hs
  rw [hF.other h hn (fun hi => ?_)]
  · exact hm.unborn c (by omega)
  · obtain ⟨fd, hopen⟩ := h.held_open hi
    have := (h.tables.conn fd c hopen).2.1
    omega

theorem matches_inserting (h : OwnInv cfg s) (hn : NoResetting s) (hm : Matches s F)
    (hF : Moved s s' i act F F') (hs : Step cfg s i act s') (j : ι) (fd : Fd) (c : Nat)
    (hpc : (s'.worker j).pc = .insert fd c) : F' c = none := by
  by_cases hj : j = i
  · subst hj
    cases hs with
    | accepted hpc' _ _ =>
        simp only [setPc_worker, Function.update_self] at hpc
        cases hpc
        rw [hF.other h hn (fun hi => ?_)]
        · exact hm.unborn _ (Nat.le_refl _)
        · obtain ⟨fd', hopen⟩ := h.held_open hi
          exact Nat.lt_irrefl _ (h.tables.conn fd' _ hopen).2.1
    | deliver hpc' _ _ _ =>
        rw [setWorker_worker, Function.update_self, hpc'] at hpc
        cases hpc
    | @take ev rest q _ _ _ =>
        simp only [setWorker_worker, Function.update_self] at hpc
        rcases dispatched_cases cfg s j ev q with heq | heq | ⟨_, heq⟩ | ⟨_, heq⟩ <;>
          rw [heq] at hpc <;> cases hpc
    | @handled p f pc an out _ _ _ | @rearmed p f pc out _ _ _ _ _ _ =>
        cases hout : out.pc <;> simp [hout, afterHandler] at hpc
    | allocated hfree => exact (matches_allocated h hn hm hF hfree).inserting j fd c hpc
    | _ => simp at hpc
  · rw [step_worker hs hj] at hpc
    rw [hF.held h hn hj (mem_holds_atWork (by rw [hpc]; rfl))]
    exact hm.inserting j fd c hpc

theorem matches_adding (h : OwnInv cfg s) (hn : NoResetting s) (hm : Matches s F)
    (hF : Moved s s' i act F F') (hs : Step cfg s i act s') (j : ι) (fd : Fd) (a : Addr) (c : Nat)
    (hpc : (s'.worker j).pc = .add fd (some a) c) : F' c = none ∧ s'.mem a = .new fd := by
  by_cases hj : j = i
  · subst hj
    cases hs with
    | @inserted a' fd' c' hpc' hfree hnew =>
        simp only [setPc_worker, Function.update_self] at hpc
        cases hpc
        have hF' : F' = F := by
          cases hF with
          | quiet => rfl
          | spawned hact => cases hact
          | taken hact => cases hact
          | handled hpc'' => rw [hpc'] at hpc''; cases hpc''
        rw [hF']
        exact ⟨hm.inserting j fd c hpc', Function.update_self _ _ _⟩
    | deliver hpc' =>
        rw [setWorker_worker, Function.update_self, hpc'] at hpc
        cases hpc
    | @take ev rest q _ _ _ =>
        simp only [setWorker_worker, Function.update_self] at hpc
        rcases dispatched_cases cfg s j ev q with heq | heq | ⟨_, heq⟩ | ⟨_, heq⟩ <;>
          rw [heq] at hpc <;> cases hpc
    | @handled p f pc an out _ _ _ | @rearmed p f pc out _ _ _ _ _ _ =>
        cases hout : out.pc <;> simp [hout, afterHandler] at hpc
    | allocated hfree => exact (matches_allocated h hn hm hF hfree).adding j fd a c hpc
    | _ => simp at hpc
  · rw [step_worker hs hj] at hpc
    have hat : atWork (s.worker j).pc = some c := by rw [hpc]; rfl
    have hok := h.pcs j
    rw [hpc] at hok
    obtain ⟨⟨a', ha, hl⟩, _⟩ := hok
    cases ha
    rw [hF.held h hn hj (mem_holds_atWork hat),
      h.mem_stays hn hs hl (fun hi => hj (h.atWork_unique hat hi))]
    exact hm.adding j fd a c hpc

/-- An armed connection's member waits for its event with the same mask. -/
theorem matches_armed (h : OwnInv cfg s) (hn : NoResetting s) (hm : Matches s F)
    (hF : Moved s s' i act F F') (hs : Step cfg s i act s') (ep : Ep) (fd : Fd)
    (reg : Registration) (a : Addr) (c : Nat) (hr : s'.interest ep fd = some reg)
    (harmed : reg.armed = true) (hl' : s'.data.lookup fd = some ⟨a, .conn c⟩) :
    ∃ k, F' c = some k ∧ k.data = s'.mem a ∧ k.armed = some reg.mask ∧ k.phase = .idle := by
  have hl := h.lookup_before hs hr hl'
  obtain ⟨hopen, hfd⟩ := h.tables.entry fd _ hl
  rcases step_interest_back hs hr with hold | ⟨old, flags, _, _, rfl, hold, _, rfl⟩ |
    ⟨ptr, d, rfl, hpc, rfl, rfl⟩ | ⟨p, f, pc, isRead, rfl, hpc, hrearm, rfl, rfl, _, rfl⟩
  · have hfree : c ∉ holds (s.worker i) :=
      h.holds.not_held ⟨ep, fd, reg, hold, harmed, hopen⟩ i
    rw [hF.other h hn hfree, h.mem_stays hn hs hl (fun hat => hfree (mem_holds_atWork hat))]
    exact hm.armed ep fd reg a c hold harmed hl
  · -- a one-shot event has disarmed it
    rcases h.tables.mask _ fd old c hold hopen with hmask | ⟨b, hmask⟩
    · simp [hmask, acceptMask] at harmed
    · simp [hmask, rearmMask] at harmed
  · have hok := h.pcs i
    rw [hpc] at hok
    obtain ⟨⟨a', rfl, hla⟩, _⟩ := hok
    rw [hl] at hla
    cases hla
    have hnew := (hm.adding i fd a c hpc).2
    cases hF with
    | quiet hq => simp only [stepsOf, hpc] at hq; cases hq
    | taken hact => cases hact
    | handled hpc' => rw [hpc] at hpc'; cases hpc'
    | spawned _ hpc' =>
        rw [hpc] at hpc'
        cases hpc'
        cases hs with
        | added => exact ⟨_, Function.update_self _ _ _, hnew.symm, rfl, rfl⟩
  · obtain ⟨d, fd', rfl, hlp, _, hfd', _⟩ := h.handling hpc (pastRearm_of_rearm hrearm)
    rw [hfd', hlp] at hl
    cases hl
    cases hF with
    | quiet hq => simp only [stepsOf, hpc] at hq; cases hq
    | spawned hact => cases hact
    | taken hact => cases hact
    | @handled _ _ _ an out k hpc' heff hunarmed =>
        rw [hpc] at hpc'
        cases hpc'
        have hact := heff.act_eq
        cases hact
        refine ⟨_, Function.update_self _ _ _, heff.mem.symm, ?_, ?_⟩
        · simp only [Connection.stepped_armed, Connection.rearmed, hrearm]
        · rw [Connection.stepped_phase,
            rearm_last heff.step (by rw [hrearm]; simp) (hn i a _ pc hpc)]
          rfl

/-- The member of an event in a batch waits for it. -/
theorem matches_fetched (h : OwnInv cfg s) (hn : NoResetting s) (hm : Matches s F)
    (hF : Moved s s' i act F F') (hs : Step cfg s i act s') (j : ι) (ev : Event)
    (hev : ev ∈ (s'.worker j).batch) (a : Addr) (c : Nat) (hptr : ev.ptr = some a)
    (hfile : ev.file = .conn c) :
    ∃ k mask, F' c = some k ∧ k.data = s'.mem a ∧ k.armed = some mask ∧ k.phase = .idle := by
  have hold : ev ∈ (s.worker j).batch →
      ∃ k mask, F' c = some k ∧ k.data = s'.mem a ∧ k.armed = some mask ∧ k.phase = .idle := by
    intro hmem
    obtain ⟨b, hb, hl⟩ := (h.events j ev hmem).entry
    rw [hptr] at hb
    cases hb
    rw [hfile] at hl
    rw [h.mem_stays hn hs hl (fun hat => h.no_event hat hmem hfile)]
    by_cases hj : j = i
    · subst hj
      rw [hF.event h hn hs hmem hev hfile]
      exact hm.fetched j ev hmem a c hptr hfile
    · rw [hF.held h hn hj (mem_holds_event hmem hfile)]
      exact hm.fetched j ev hmem a c hptr hfile
  by_cases hj : j = i
  · subst hj
    cases hs with
    | @deliver fd flags reg file hpc hreg hopen harmed =>
        simp only [setWorker_worker, Function.update_self, List.mem_append,
          List.mem_singleton] at hev
        rcases hev with hmem | rfl
        · exact hold hmem
        · dsimp only at hptr hfile
          subst hfile
          obtain ⟨e, hl, hptr'⟩ := h.tables.armed _ fd reg hreg harmed
          have hentry := (h.tables.entry fd e hl).1
          rw [hopen] at hentry
          obtain ⟨b, g⟩ := e
          cases hentry
          rw [hptr] at hptr'
          cases hptr'
          obtain ⟨k, hk, hdata, harm, hidle⟩ := hm.armed _ fd reg _ c hreg harmed hl
          rw [hF.other h hn (h.holds.not_held ⟨_, fd, reg, hreg, harmed, hopen⟩ j)]
          exact ⟨k, reg.mask, hk, hdata, harm, hidle⟩
    | take _ hbatch _ =>
        refine hold ?_
        simp only [setWorker_worker, Function.update_self] at hev
        rw [hbatch]
        exact List.mem_cons_of_mem _ hev
    | _ => exact hold (by simpa using hev)
  · rw [step_worker hs hj] at hev
    exact hold hev

omit [DecidableEq ι] in
/-- A worker that stays in the handler has taken the member to the same statement. -/
theorem matches_handled (hn : NoResetting s) (hF : Moved s s' i act F F') {q : Addr} {g : File}
    {pc₀ : HandlerPc} {a : Answer} {out : HandlerOut} (hold : (s.worker i).pc = .handle q g pc₀)
    (heff : HandlerEffect s s' i act q g pc₀ a out) {p : Addr} {c : Nat} {pc : HandlerPc}
    (hpc : (s'.worker i).pc = .handle p (.conn c) pc) :
    ∃ k, F' c = some k ∧ k.data = s'.mem p ∧ k.errno = (s'.worker i).errno ∧ k.armed = none
      ∧ k.phase = .handling pc := by
  rw [heff.worker] at hpc ⊢
  cases hout : out.pc with
  | none =>
      rw [hout] at hpc
      cases hpc
  | some pc' =>
      rw [hout] at hpc
      cases hpc
      obtain ⟨k, hk, hunarmed⟩ := hF.stepped hold heff
      refine ⟨_, hk, heff.mem.symm, rfl, ?_, ?_⟩
      · -- a re-arm would have been the last statement
        have hnone : pc₀.rearm? = none := by
          by_contra hrearm
          rw [rearm_last heff.step hrearm (hn i _ _ pc₀ hold)] at hout
          cases hout
        simp only [Connection.stepped_armed, Connection.rearmed, hnone, hunarmed]
      · rw [Connection.stepped_phase, hout]
        rfl

/-- The member of a connection in a worker's handler is at the same statement. -/
theorem matches_handling (h : OwnInv cfg s) (hn : NoResetting s) (hm : Matches s F)
    (hF : Moved s s' i act F F') (hs : Step cfg s i act s') (j : ι) (p : Addr) (c : Nat)
    (pc : HandlerPc) (hpc : (s'.worker j).pc = .handle p (.conn c) pc) :
    ∃ k, F' c = some k ∧ k.data = s'.mem p ∧ k.errno = (s'.worker j).errno ∧ k.armed = none
      ∧ k.phase = .handling pc := by
  by_cases hj : j = i
  · subst hj
    have hfrom : ∀ q g pc₀, (s.worker j).pc = .handle q g pc₀ →
        ∃ k, F' c = some k ∧ k.data = s'.mem p ∧ k.errno = (s'.worker j).errno
          ∧ k.armed = none ∧ k.phase = .handling pc := by
      intro q g pc₀ hold
      rcases step_handle hs hold with ⟨a, out, heff⟩ | ⟨r, cd, halloc⟩
      · exact matches_handled hn hF hold heff hpc
      · obtain rfl := halloc.act_eq
        obtain rfl := halloc.next
        exact (matches_allocated h hn hm hF halloc.free).handling j p c pc hpc
    cases hs with
    | @take ev rest q hloop hbatch hptr =>
        simp only [setWorker_worker, Function.update_self] at hpc ⊢
        rcases dispatched_cases cfg s j ev q with heq | heq | ⟨_, heq⟩ | ⟨hd, heq⟩
        · rw [heq] at hpc
          cases hpc
        · rw [heq] at hpc
          cases hpc
        · rw [heq] at hpc
          cases hpc
        · obtain ⟨rfl, hfile, rfl⟩ := WorkerPc.handle.inj (heq.symm.trans hpc)
          have hmember := hF.dispatched hbatch hptr hfile
          rw [hd] at hmember
          exact hmember
    | handled hold _ _ | rearmed hold _ _ _ => exact hfrom _ _ _ hold
    | allocated hfree => exact (matches_allocated h hn hm hF hfree).handling j p c pc hpc
    | deliver hpc' =>
        rw [setWorker_worker, Function.update_self, hpc'] at hpc
        cases hpc
    | _ => simp at hpc
  · rw [step_worker hs hj] at hpc ⊢
    obtain ⟨c', fd, hc', hl, _, _, hat⟩ :=
      h.handling hpc (pastRearm_of_resetting (hn j p _ pc hpc))
    cases hc'
    rw [hF.held h hn hj (mem_holds_atWork hat),
      h.mem_stays hn hs hl (fun hi => hj (h.atWork_unique hat hi))]
    exact hm.handling j p c pc hpc

/--
**How a worker lets go of a connection** that stays in the map and in epoll, but unarmed: it
skips the event, or returns from the handler without a re-arm.
-/
theorem let_go (h : OwnInv cfg s) (hn' : NoResetting s') (hs : Step cfg s i act s') {ep : Ep}
    {fd : Fd} {reg : Registration} {a : Addr} {c : Nat} (hi : c ∈ holds (s.worker i))
    (hi' : c ∉ holds (s'.worker i)) (hl : s.data.lookup fd = some ⟨a, .conn c⟩)
    (hr : s'.interest ep fd = some reg) (hun : ¬ Armed s' c) :
    (∃ ev, act = .take ∧ (s.worker i).batch.head? = some ev ∧ ev.file = .conn c
        ∧ dispatch ev.flags = .skip)
      ∨ ∃ pc an out, (s.worker i).pc = .handle a (.conn c) pc ∧ act = .handle an
          ∧ HandlerEffect s s' i act a (.conn c) pc an out ∧ out.pc = none
          ∧ (pc.rearm? = none ∨ an ≠ .epollCtl none) := by
  obtain ⟨hopen, hfd⟩ := h.tables.entry fd _ hl
  rcases mem_holds.mp hi with hat | ⟨ev, hev, hfile⟩
  case inr =>
    rcases event_kept h hs hev hfile with hheld | ⟨htake, hhead, hskip⟩
    · exact absurd hheld hi'
    · exact Or.inl ⟨ev, htake, hhead, hfile, hskip⟩
  have hok := h.pcs i
  have hkept : atWork (s'.worker i).pc ≠ some c := fun hat' => hi' (mem_holds_atWork hat')
  cases hs with
  | deliver hpc _ _ _ | wake hpc | endBatch hpc _ | take hpc _ _ | accepted hpc _ _
  | acceptFailed hpc | closeStore hpc =>
      rw [hpc] at hat
      cases hat
  | inserted hpc _ _ | insertedNull hpc _ _ | closeTest hpc _ | closeRemove hpc | closeDel hpc =>
      rw [hpc] at hat
      exact absurd hat (by simpa [atWork] using hkept)
  | allocated => exact absurd hat hkept
  | @added fd' ptr d hpc hnew hopen' =>
      rw [hpc] at hok hat
      cases hat
      obtain ⟨⟨b, _, hlb⟩, _⟩ := hok
      refine absurd ⟨cfg.epollFd i, fd', ⟨acceptMask, ptr, true⟩, ?_, rfl,
        (h.tables.entry fd' _ hlb).1⟩ hun
      exact if_pos ⟨rfl, rfl⟩
  | @addFailed fd' ptr d e hpc =>
      -- not in epoll yet
      rw [hpc] at hok hat
      cases hat
      obtain ⟨⟨b, _, hlb⟩, hnone⟩ := hok
      have hsame : fd = fd' := h.tables.fd_unique _ _ _ hopen (h.tables.entry fd' _ hlb).1
      subst hsame
      rw [setWorker_interest, hnone ep] at hr
      cases hr
  | @handled p f pc an out hpc hstep hmod =>
      have hpast : pastRearm pc = false := by
        rw [hpc] at hat
        by_contra hne
        rw [atWork, if_pos (by simpa using hne)] at hat
        cases hat
      obtain ⟨d, fd', rfl, hld, hopend, _, hatd⟩ := h.handling hpc hpast
      rw [hat] at hatd
      cases hatd
      have hsame : fd = fd' := h.tables.fd_unique _ _ _ hopen hopend
      subst hsame
      rw [hl] at hld
      cases hld
      refine Or.inr ⟨pc, an, out, hpc, rfl, ⟨rfl, hstep, ?_, ?_, rfl⟩, ?_, hmod⟩
      · exact Function.update_self _ _ _
      · exact Function.update_self _ _ _
      · -- in the handler it would still have it
        cases hout : out.pc with
        | none => rfl
        | some pc' =>
            refine absurd ?_ hkept
            have hpc' : ((s.handled i a (.conn c) pc an out).worker i).pc
                = .handle a (.conn c) pc' := by
              simp [hout, afterHandler]
            have hlast := pastRearm_of_resetting (hn' i a (.conn c) pc' hpc')
            rw [hpc', atWork, if_neg (by simpa using hlast)]
            rfl
  | @rearmed p f pc out isRead old hpc hstep hrearm hreg =>
      obtain ⟨d, fd', rfl, _, hopend, hfd', hatd⟩ := h.handling hpc (pastRearm_of_rearm hrearm)
      rw [hat] at hatd
      cases hatd
      refine absurd ⟨cfg.epollFd i, fd', ⟨rearmMask isRead, some p, true⟩, ?_, rfl, hopend⟩ hun
      rw [setInterest_interest]
      exact if_pos ⟨rfl, hfd'.symm⟩
  | @closeNegative p v f hpc hneg =>
      have hv := h.connFd_eq hpc
      rw [hpc] at hok
      obtain ⟨d, rfl, hlv⟩ := hok
      have h0 := (h.tables.conn v d (h.tables.entry v _ hlv).1).1
      rw [hv] at hneg
      exact absurd hneg (Int.not_lt.mpr h0)
  | @closeClose p v f hpc =>
      -- `remove` has taken the element out before
      rw [hpc] at hok hat
      obtain ⟨d, rfl, hopenv, hlv, _⟩ := hok
      cases hat
      have hsame : fd = v := h.tables.fd_unique _ _ _ hopen hopenv
      subst hsame
      rw [hlv] at hl
      cases hl

/-- Nobody had the connection before, and its event could not come. -/
theorem resting_before (h : OwnInv cfg s) (hs : Step cfg s i act s')
    {ep : Ep} {fd : Fd} {reg : Registration} {a : Addr} {c : Nat}
    (hr : s'.interest ep fd = some reg) (hun : ¬ Armed s' c)
    (hl' : s'.data.lookup fd = some ⟨a, .conn c⟩) (hl : s.data.lookup fd = some ⟨a, .conn c⟩)
    (hfree' : ∀ j, c ∉ holds (s'.worker j)) (hi : c ∉ holds (s.worker i)) :
    ∃ reg₀, s.interest ep fd = some reg₀ ∧ reg₀.armed = false := by
  have hopen := (h.tables.entry fd _ hl).1
  obtain ⟨reg₀, hr₀⟩ : ∃ reg₀, s.interest ep fd = some reg₀ := by
    rcases step_interest_back hs hr with hold | ⟨old, _, _, _, rfl, hold, _⟩ |
      ⟨ptr, d, _, hpc, _⟩ | ⟨_, _, _, _, _, _, _, rfl, _, hreg, _⟩
    · exact ⟨reg, hold⟩
    · exact ⟨old, hold⟩
    · have hok := h.pcs i
      rw [hpc] at hok
      obtain ⟨⟨b, _, hlb⟩, _⟩ := hok
      rw [hl] at hlb
      cases hlb
      exact absurd (mem_holds_atWork (by rw [hpc]; rfl)) hi
    · exact Option.ne_none_iff_exists'.mp hreg
  refine ⟨reg₀, hr₀, ?_⟩
  cases harmed : reg₀.armed with
  | false => rfl
  | true =>
      rcases armed_covered h hs hr₀ harmed hopen with ⟨j, hj⟩ | harm | hrel
      · exact absurd hj (hfree' j)
      · exact absurd harm hun
      · exact absurd rfl (hrel.2 fd _ hl')

/-- The member of a connection that nobody has and whose event cannot come is idle. -/
theorem matches_resting (h : OwnInv cfg s) (h' : OwnInv cfg s') (hn : NoResetting s)
    (hn' : NoResetting s') (hm : Matches s F) (hF : Moved s s' i act F F')
    (hs : Step cfg s i act s') (ep : Ep) (fd : Fd) (reg : Registration) (a : Addr) (c : Nat)
    (hr : s'.interest ep fd = some reg) (hoff : reg.armed = false)
    (hl' : s'.data.lookup fd = some ⟨a, .conn c⟩) (hfree' : ∀ j, c ∉ holds (s'.worker j)) :
    ∃ k, F' c = some k ∧ k.data = s'.mem a ∧ k.armed = none ∧ k.phase = .idle := by
  have hl := h.lookup_before hs hr hl'
  have hun : ¬ Armed s' c := by
    rintro ⟨ep', fd', reg', hr', harmed', hf'⟩
    have hsame := h'.tables.fd_unique _ _ _ hf' (h'.tables.entry fd _ hl').1
    subst hsame
    have hep := h'.tables.one ep ep' fd' (by rw [hr]; simp) (by rw [hr']; simp)
    subst hep
    rw [hr] at hr'
    cases hr'
    rw [hoff] at harmed'
    cases harmed'
  by_cases hi : c ∈ holds (s.worker i)
  · rcases let_go h hn' hs hi (hfree' i) hl hr hun with ⟨ev, rfl, hhead, hfile, hskip⟩ |
      ⟨pc, an, out, hpc, hact, heff, hout, hmod⟩
    · obtain ⟨rest, hbatch⟩ := List.head?_eq_some_iff.mp hhead
      obtain ⟨b, hptr, hlb⟩ := (h.events i ev (by rw [hbatch]; exact List.mem_cons_self)).entry
      rw [hfile] at hlb
      have hfd := h.tables.fd_unique _ _ _ (h.tables.entry fd _ hl).1
        (h.tables.entry ev.fd _ hlb).1
      rw [← hfd, hl] at hlb
      cases hlb
      obtain ⟨k, hk, hdata, _, harmed, hphase⟩ := hF.dispatched hbatch hptr hfile
      rw [hskip] at hphase
      have hmem : s'.mem a = s.mem a := by
        cases hs with
        | take | endBatch => rfl
      exact ⟨k, hk, by rw [hdata, hmem], harmed, hphase⟩
    · obtain ⟨k, hk, harmed⟩ := hF.stepped hpc heff
      refine ⟨_, hk, heff.mem.symm, ?_, ?_⟩
      · rw [Connection.stepped_armed, Connection.rearmed_of_not hmod, harmed]
      · rw [Connection.stepped_phase, hout]
        rfl
  · obtain ⟨reg₀, hr₀, hoff₀⟩ := resting_before h hs hr hun hl' hl hfree' hi
    have hfree : ∀ j, c ∉ holds (s.worker j) := by
      intro j
      by_cases hj : j = i
      · rw [hj]
        exact hi
      · rw [← step_worker hs hj]
        exact hfree' j
    rw [hF.other h hn hi, h.mem_stays hn hs hl (fun hat => hi (mem_holds_atWork hat))]
    exact hm.resting ep fd reg₀ a c hr₀ hoff₀ hl hfree

/-- The member of a connection that a worker is about to remove has been closed. -/
theorem matches_closing (h : OwnInv cfg s) (hn : NoResetting s) (hm : Matches s F)
    (hF : Moved s s' i act F F') (hs : Step cfg s i act s') (j : ι) (p : Addr) (v : Fd) (c : Nat)
    (cpc : ClosePc) (hpc : (s'.worker j).pc = .close p v (.conn c) cpc)
    (hcpc : cpc = .test ∨ cpc = .remove) :
    ∃ k, F' c = some k ∧ k.data = s'.mem p ∧ k.armed = none ∧ k.phase = .closed := by
  by_cases hj : j = i
  · subst hj
    cases hs with
    | @take ev rest q hloop hbatch hptr =>
        simp only [setWorker_worker, Function.update_self] at hpc
        rcases dispatched_cases cfg s j ev q with heq | heq | ⟨hd, heq⟩ | ⟨_, heq⟩
        · rw [heq] at hpc
          cases hpc
        · rw [heq] at hpc
          cases hpc
        · obtain ⟨rfl, _, hfile, _⟩ := WorkerPc.close.inj (heq.symm.trans hpc)
          obtain ⟨k, hk, hdata, _, harmed, hphase⟩ := hF.dispatched hbatch hptr hfile
          rw [hd] at hphase
          exact ⟨k, hk, hdata, harmed, hphase⟩
        · rw [heq] at hpc
          cases hpc
    | @closeTest q w f hold hnonneg =>
        simp only [setPc_worker, Function.update_self] at hpc
        cases hpc
        have hsame : F' = F := by
          cases hF with
          | quiet => rfl
          | spawned hact => cases hact
          | taken hact => cases hact
          | handled _ heff => cases heff.act_eq
        rw [hsame]
        exact hm.closing j p v c .test hold (Or.inl rfl)
    | closeRemove | closeDel | closeClose =>
        simp only [setPc_worker, Function.update_self] at hpc
        cases hpc
        rcases hcpc with hne | hne <;> cases hne
    | allocated hfree => exact (matches_allocated h hn hm hF hfree).closing j p v c cpc hpc hcpc
    | deliver hpc' =>
        rw [setWorker_worker, Function.update_self, hpc'] at hpc
        cases hpc
    | @handled q f pc an out _ _ _ | @rearmed q f pc out _ _ _ _ _ _ =>
        cases hout : out.pc <;> simp [hout, afterHandler] at hpc
    | _ => simp at hpc
  · rw [step_worker hs hj] at hpc
    obtain ⟨hat, hl⟩ := h.closing_element hpc hcpc
    rw [hF.held h hn hj (mem_holds_atWork hat),
      h.mem_stays hn hs hl (fun hi => hj (h.atWork_unique hat hi))]
    exact hm.closing j p v c cpc hpc hcpc

/-! ## The workers follow the family -/

theorem matches_step (h : OwnInv cfg s) (h' : OwnInv cfg s') (hn : NoResetting s)
    (hn' : NoResetting s') (hm : Matches s F) (hF : Moved s s' i act F F')
    (hs : Step cfg s i act s') : Matches s' F' where
  unborn := matches_unborn h hn hm hF hs
  inserting := matches_inserting h hn hm hF hs
  adding := matches_adding h hn hm hF hs
  armed := matches_armed h hn hm hF hs
  fetched := matches_fetched h hn hm hF hs
  handling := matches_handling h hn hm hF hs
  resting := matches_resting h h' hn hn' hm hF hs
  closing := matches_closing h hn hm hF hs

/-- **A run of the workers is a run of the connections by themselves.** -/
theorem follows_connections (cfg : Config ι) :
    connections.Follows (machine cfg) RearmsLast stepsOf Matches where
  init := by
    intro s hs
    subst hs
    exact ⟨fun _ => none, fun _ => rfl, matches_start cfg⟩
  step := by
    rintro s F ⟨i, act⟩ s' hr hm hc hn
    have h : OwnInv cfg s := ownInv_reachable (fun _ _ hc _ => hc.1) hr
    have hr' : (machine cfg).ReachableVia RearmsLast s' := .tail hr hc hn
    obtain ⟨F', hrun, hF⟩ := moved h hm (next_cases hn)
    exact ⟨F', hrun, matches_step h (ownInv_reachable (fun _ _ hc _ => hc.1) hr')
      (noResetting_reachable hr) (noResetting_reachable hr') hm hF (next_cases hn)⟩

end TcpServers.Server
