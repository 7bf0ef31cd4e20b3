import TcpServers.Proof.Effects

/-!
# What `acceptConnections` leaves in the tables

One call, from the first `accept4()` to the return into the event loop. A
descriptor it accepts goes through three tables: the open descriptors, the
manager, and epoll's interest list. The loop undoes nothing: when the
registration fails it logs, leaves the descriptor in the first two tables, and
returns.
-/

namespace TcpServers.Server

open Lib

variable {ι : Type}

/-- The statements of `acceptConnections`, and what they allocate. -/
def Accepting : Act → Prop
  | .accept4 _ | .insert _ | .allocate _ _ | .epollAdd _ => True
  | .deliver _ _ | .wake | .take | .handle _ | .closeConnection => False

/-- In the manager and registered with the worker's epoll instance, or in no table at all. -/
def AllOrNothing (cfg : Config ι) (s : Server ι) (i : ι) (fd : Fd) : Prop :=
  (s.data.lookup fd ≠ none ∧ s.interest (cfg.epollFd i) fd ≠ none)
    ∨ (s.data.lookup fd = none ∧ s.fdTable fd = none)

/-- The descriptor `acceptConnections` is about to put into the other two tables. -/
def pendingFd : WorkerPc → Option Fd
  | .insert fd _ => some fd
  | .add fd _ _ => some fd
  | _ => none

/-- epoll keeps open descriptors only. -/
def RegisteredOpen (s : Server ι) : Prop :=
  ∀ ep fd, s.fdTable fd = none → s.interest ep fd = none

variable {cfg : Config ι} {s s' : Server ι} {i : ι} {act : Act}

theorem registeredOpen_init (cfg : Config ι) : RegisteredOpen (start cfg) := by
  intro ep fd hclosed
  simp only [start, Option.map_eq_none_iff, List.find?_eq_none, decide_eq_true_eq] at hclosed
  exact if_neg (fun hreg => hclosed ep hreg.1 hreg.2)

theorem registeredOpen_step [DecidableEq ι] (h : RegisteredOpen s) (hs : Step cfg s i act s') :
    RegisteredOpen s' := by
  intro ep fd hclosed
  cases hf : s.fdTable fd with
  | none =>
      rcases step_interest_none hs (h ep fd hf) with hn | ⟨_, _, _, hopen, _⟩
      · exact hn
      · exact absurd hf hopen
  | some f =>
      rcases step_fdTable hs hf with hf' | ⟨_, _, hnone⟩
      · rw [hclosed] at hf'
        cases hf'
      · exact hnone ep

theorem registeredOpen_reachable [DecidableEq ι] (h : (machine cfg).Reachable s) :
    RegisteredOpen s := by
  refine Machine.ReachableVia.invariant ?_ ?_ h
  · intro s hinit
    subst hinit
    exact registeredOpen_init cfg
  · intro s l s' _ hi _ hs
    exact registeredOpen_step hi (next_cases hs)

/-! ## During a call -/

/-- The tables within a call that has taken the steps `ls`. -/
structure CallInv (cfg : Config ι) (i : ι) (ls : List (ι × Act)) (s : Server ι) : Prop where
  tables : RegisteredOpen s
  /-- Nothing accepted is closed again. -/
  still_open : ∀ fd, (i, .accept4 (.ok fd)) ∈ ls → s.fdTable fd ≠ none
  /-- Only the descriptor in hand can be missing from the manager. -/
  entry : ∀ fd, (i, .accept4 (.ok fd)) ∈ ls → s.data.lookup fd = none →
    ∃ c, (s.worker i).pc = .insert fd c
  /-- And only it, or one whose registration failed, from epoll. -/
  interest : ∀ fd, (i, .accept4 (.ok fd)) ∈ ls → s.interest (cfg.epollFd i) fd = none →
    pendingFd (s.worker i).pc = some fd ∨ ∃ e, (i, .epollAdd (some e)) ∈ ls
  pending : ∀ fd, pendingFd (s.worker i).pc = some fd →
    (i, .accept4 (.ok fd)) ∈ ls ∧ s.interest (cfg.epollFd i) fd = none
  /-- A registration that failed has ended the call. -/
  failed : ∀ e, (i, .epollAdd (some e)) ∈ ls → (s.worker i).pc = .loop
    ∧ ∃ fd, (i, .accept4 (.ok fd)) ∈ ls ∧ s.interest (cfg.epollFd i) fd = none

theorem callInv_init (h : RegisteredOpen s) (hpc : (s.worker i).pc = .accept) :
    CallInv cfg i [] s where
  tables := h
  still_open := by intro fd hfd; simp at hfd
  entry := by intro fd hfd; simp at hfd
  interest := by intro fd hfd; simp at hfd
  pending := by intro fd hfd; rw [hpc] at hfd; cases hfd
  failed := by intro e he; simp at he

/-- No registration has failed as long as the call goes on. -/
theorem CallInv.not_failed {ls : List (ι × Act)} (h : CallInv cfg i ls s)
    (hpc : (s.worker i).pc ≠ .loop) (e : Errno) : (i, .epollAdd (some e)) ∉ ls :=
  fun he => hpc (h.failed e he).1

/-- So what is missing from epoll until then is in hand. -/
theorem CallInv.in_hand {ls : List (ι × Act)} (h : CallInv cfg i ls s)
    (hpc : (s.worker i).pc ≠ .loop) {fd : Fd} (hfd : (i, .accept4 (.ok fd)) ∈ ls)
    (hn : s.interest (cfg.epollFd i) fd = none) : pendingFd (s.worker i).pc = some fd := by
  rcases h.interest fd hfd hn with hp | ⟨e, he⟩
  · exact hp
  · exact absurd he (h.not_failed hpc e)

/-- And what is missing from the manager waits for its insertion. -/
theorem CallInv.in_manager {ls : List (ι × Act)} (h : CallInv cfg i ls s)
    (hpc : ∀ fd c, (s.worker i).pc ≠ .insert fd c) {fd : Fd}
    (hfd : (i, .accept4 (.ok fd)) ∈ ls) : s.data.lookup fd ≠ none := by
  intro hl
  obtain ⟨c, hc⟩ := h.entry fd hfd hl
  exact hpc fd c hc

/-- At `accept4()` nothing is in hand. -/
theorem CallInv.registered {ls : List (ι × Act)} (h : CallInv cfg i ls s)
    (hpc : (s.worker i).pc = .accept) {fd : Fd} (hfd : (i, .accept4 (.ok fd)) ∈ ls) :
    s.interest (cfg.epollFd i) fd ≠ none := by
  intro hn
  have hp := h.in_hand (by simp [hpc]) hfd hn
  rw [hpc] at hp
  cases hp

/-- A step that accepts nothing and does not fail in epoll leaves the other tables to check. -/
theorem CallInv.of_quiet {ls : List (ι × Act)} (h : CallInv cfg i ls s)
    (hpc : (s.worker i).pc ≠ .loop) (htables : RegisteredOpen s')
    (hacc : ∀ fd, act ≠ .accept4 (.ok fd)) (hadd : ∀ e, act ≠ .epollAdd (some e))
    (hopen : ∀ fd, s.fdTable fd ≠ none → s'.fdTable fd ≠ none)
    (hentry : ∀ fd, (i, .accept4 (.ok fd)) ∈ ls → s'.data.lookup fd = none →
      ∃ c, (s'.worker i).pc = .insert fd c)
    (hinterest : ∀ fd, (i, .accept4 (.ok fd)) ∈ ls → s'.interest (cfg.epollFd i) fd = none →
      pendingFd (s'.worker i).pc = some fd)
    (hpending : ∀ fd, pendingFd (s'.worker i).pc = some fd →
      pendingFd (s.worker i).pc = some fd ∧ s'.interest (cfg.epollFd i) fd = none) :
    CallInv cfg i (ls ++ [(i, act)]) s' := by
  have hmem : ∀ fd, (i, Act.accept4 (.ok fd)) ∈ ls ++ [(i, act)] ↔
      (i, Act.accept4 (.ok fd)) ∈ ls := by
    intro fd
    simp [(hacc fd).symm]
  have hfail : ∀ e, (i, .epollAdd (some e)) ∉ ls ++ [(i, act)] := by
    intro e he
    simp only [List.mem_append, List.mem_singleton, Prod.mk.injEq, true_and, (hadd e).symm,
      or_false] at he
    exact h.not_failed hpc e he
  refine ⟨htables, fun fd hfd => hopen fd (h.still_open fd ((hmem fd).mp hfd)),
    fun fd hfd => hentry fd ((hmem fd).mp hfd), fun fd hfd hn => ?_, fun fd hfd => ?_,
    fun e he => absurd he (hfail e)⟩
  · exact Or.inl (hinterest fd ((hmem fd).mp hfd) hn)
  · obtain ⟨hp, hn⟩ := hpending fd hfd
    exact ⟨(hmem fd).mpr (h.pending fd hp).1, hn⟩

/-- `insert` leaves an entry for the descriptor in hand, its own or an older one. -/
theorem CallInv.entered {ls : List (ι × Act)} (h : CallInv cfg i ls s) {fd : Fd} {c a : Nat}
    (hpc : (s.worker i).pc = .insert fd c)
    (hpc' : pendingFd (s'.worker i).pc = some fd) (htables : RegisteredOpen s')
    (hopen : s'.fdTable = s.fdTable) (hinterest : s'.interest = s.interest)
    (hlookup : ∀ fd', s'.data.lookup fd' = none → fd' ≠ fd ∧ s.data.lookup fd' = none) :
    CallInv cfg i (ls ++ [(i, .insert a)]) s' := by
  have hloop : (s.worker i).pc ≠ .loop := by simp [hpc]
  have hand : pendingFd (s'.worker i).pc = pendingFd (s.worker i).pc := by
    rw [hpc, hpc']
    rfl
  refine h.of_quiet hloop htables (by simp) (by simp) (fun fd' hf => by rwa [hopen])
    (fun fd' hfd' hl => ?_) (fun fd' hfd' hn => ?_) (fun fd' hfd' => ?_)
  · obtain ⟨hne, hl'⟩ := hlookup fd' hl
    obtain ⟨c', hc'⟩ := h.entry fd' hfd' hl'
    rw [hpc] at hc'
    cases hc'
    exact absurd rfl hne
  · rw [hinterest] at hn
    rw [hand]
    exact h.in_hand hloop hfd' hn
  · rw [hand] at hfd'
    rw [hinterest]
    exact ⟨hfd', (h.pending fd' hfd').2⟩

/-- An accepted descriptor is open, in hand, and in neither of the other tables yet. -/
theorem CallInv.accepted {ls : List (ι × Act)} (h : CallInv cfg i ls s) {fd : Fd}
    (hpc : (s.worker i).pc = .accept) (hfresh : s.fdTable fd = none)
    (hpc' : (s'.worker i).pc = .insert fd s.nextConn) (htables : RegisteredOpen s')
    (hopen : s'.fdTable = Function.update s.fdTable fd (some (.conn s.nextConn)))
    (hdata : s'.data = s.data) (hinterest : s'.interest = s.interest) :
    CallInv cfg i (ls ++ [(i, .accept4 (.ok fd))]) s' := by
  have hloop : (s.worker i).pc ≠ .loop := by simp [hpc]
  have hmem : ∀ fd', (i, Act.accept4 (.ok fd')) ∈ ls ++ [(i, .accept4 (.ok fd))] →
      fd' = fd ∨ ((i, Act.accept4 (.ok fd')) ∈ ls ∧ fd' ≠ fd) := by
    intro fd' hfd'
    by_cases heq : fd' = fd
    · exact Or.inl heq
    · simp only [List.mem_append, List.mem_singleton, Prod.mk.injEq, Act.accept4.injEq,
        Except.ok.injEq, true_and, heq, or_false] at hfd'
      exact Or.inr ⟨hfd', heq⟩
  refine ⟨htables, fun fd' hfd' => ?_, fun fd' hfd' hl => ?_, fun fd' hfd' hn => ?_,
    fun fd' hfd' => ?_, fun e he => ?_⟩
  · rw [hopen]
    rcases hmem fd' hfd' with rfl | ⟨hfd', hne⟩
    · simp
    · simpa [Function.update_of_ne hne] using h.still_open fd' hfd'
  · rw [hdata] at hl
    rcases hmem fd' hfd' with rfl | ⟨hfd', _⟩
    · exact ⟨s.nextConn, hpc'⟩
    · exact absurd hl (h.in_manager (by simp [hpc]) hfd')
  · rw [hinterest] at hn
    rcases hmem fd' hfd' with rfl | ⟨hfd', _⟩
    · exact Or.inl (by rw [hpc']; rfl)
    · exact absurd hn (h.registered hpc hfd')
  · simp only [hpc', pendingFd, Option.some.injEq] at hfd'
    subst hfd'
    rw [hinterest]
    exact ⟨by simp, h.tables _ _ hfresh⟩
  · simp only [List.mem_append, List.mem_singleton, Prod.mk.injEq, reduceCtorEq,
      and_false, or_false] at he
    exact absurd he (h.not_failed hloop e)

/-- An allocation touches none of the tables. -/
theorem CallInv.allocated {ls : List (ι × Act)} (h : CallInv cfg i ls s) {a : Addr}
    {contents : ConnectionData} :
    CallInv cfg i (ls ++ [(i, .allocate a contents)]) (s.setMem a contents) where
  tables := h.tables
  still_open := by simpa using h.still_open
  entry := by simpa using h.entry
  interest := by simpa using h.interest
  pending := by simpa using h.pending
  failed := by simpa using h.failed

variable [DecidableEq ι]

/-- **Preserved by every step of a call.** -/
theorem callInv_step {ls : List (ι × Act)} (h : CallInv cfg i ls s) (hact : Accepting act)
    (hs : Step cfg s i act s') : CallInv cfg i (ls ++ [(i, act)]) s' := by
  have htables := registeredOpen_step h.tables hs
  cases hs with
  | accepted hpc _ hfresh =>
      exact h.accepted hpc hfresh (by simp) htables rfl rfl rfl
  | @acceptFailed e hpc =>
      have hloop : (s.worker i).pc ≠ .loop := by simp [hpc]
      refine h.of_quiet hloop htables (by simp) (by simp) (fun _ hf => hf) (fun fd hfd hl => ?_)
        (fun fd hfd hn => ?_) (fun fd hfd => ?_)
      · exact absurd hl (h.in_manager (by simp [hpc]) hfd)
      · exact absurd hn (h.registered hpc hfd)
      · simp [pendingFd] at hfd
  | @inserted a fd c hpc _ _ =>
      refine h.entered hpc (by simp [pendingFd]) htables rfl rfl (fun fd' hl => ?_)
      have hne : fd' ≠ fd := by
        intro heq
        subst heq
        simp at hl
      exact ⟨hne, (AList.lookup_insert_ne hne).symm.trans hl⟩
  | @insertedNull a fd c hpc _ hold =>
      refine h.entered hpc (by simp [pendingFd]) htables rfl rfl (fun fd' hl => ⟨fun heq => ?_, hl⟩)
      rw [heq] at hl
      exact hold hl
  | @added fd ptr c hpc _ _ =>
      have hloop : (s.worker i).pc ≠ .loop := by simp [hpc]
      refine h.of_quiet hloop htables (by simp) (by simp) (fun _ hf => hf) (fun fd' hfd' hl => ?_)
        (fun fd' hfd' hn => ?_) (fun fd' hfd' => ?_)
      · exact absurd hl (h.in_manager (by simp [hpc]) hfd')
      · simp only [setPc_interest, setInterest_interest, true_and] at hn
        split at hn
        · cases hn
        · rename_i hne
          have hp := h.in_hand hloop hfd' hn
          rw [hpc] at hp
          exact absurd (Option.some.inj hp).symm hne
      · simp [pendingFd] at hfd'
  | @addFailed fd ptr c e hpc =>
      have hin := h.pending fd (by rw [hpc]; rfl)
      have hmem : ∀ fd', (i, Act.accept4 (.ok fd')) ∈ ls ++ [(i, .epollAdd (some e))] ↔
          (i, Act.accept4 (.ok fd')) ∈ ls := by
        intro fd'
        simp
      refine ⟨htables, fun fd' hfd' => h.still_open fd' ((hmem fd').mp hfd'),
        fun fd' hfd' hl => ?_, fun fd' hfd' hn => Or.inr ⟨e, by simp⟩, fun fd' hfd' => ?_,
        fun e' _ => ⟨by simp, fd, (hmem fd).mpr hin.1, hin.2⟩⟩
      · exact absurd hl (h.in_manager (by simp [hpc]) ((hmem fd').mp hfd'))
      · simp [pendingFd] at hfd'
  | allocated => exact h.allocated
  | _ => exact absurd hact (by simp [Accepting])

/-- **What a call has done so far**, whatever the kernel answered. -/
theorem callInv_run {ls : List (ι × Act)} (hreach : (machine cfg).Reachable s)
    (hpc : (s.worker i).pc = .accept) (hcall : ∀ l ∈ ls, l.1 = i ∧ Accepting l.2)
    (hrun : (machine cfg).run s ls = some s') : CallInv cfg i ls s' := by
  refine Machine.run_induction
    (fun ls s' => (∀ l ∈ ls, l.1 = i ∧ Accepting l.2) → CallInv cfg i ls s')
    (fun _ => callInv_init (registeredOpen_reachable hreach) hpc) ?_ hrun hcall
  intro ls t l t' _ ih hn hall
  obtain ⟨hi, hact⟩ := hall l (by simp)
  obtain ⟨j, act⟩ := l
  cases hi
  exact callInv_step (ih (fun l hl => hall l (List.mem_append_left _ hl))) hact (next_cases hn)

/--
**Accept is all-or-nothing exactly where no registration fails.** Over one call,
for every sequence of `accept4()` and `epoll_ctl()` results: every descriptor it
accepted is in both tables or in none, if and only if no `EPOLL_CTL_ADD` failed.
-/
theorem accept_allOrNothing_iff {ls : List (ι × Act)} (hreach : (machine cfg).Reachable s)
    (hpc : (s.worker i).pc = .accept) (hcall : ∀ l ∈ ls, l.1 = i ∧ Accepting l.2)
    (hrun : (machine cfg).run s ls = some s') (hret : (s'.worker i).pc = .loop) :
    (∀ fd, (i, .accept4 (.ok fd)) ∈ ls → AllOrNothing cfg s' i fd)
      ↔ ∀ e, (i, .epollAdd (some e)) ∉ ls := by
  have hinv := callInv_run hreach hpc hcall hrun
  constructor
  · intro hall e he
    obtain ⟨_, fd, hfd, hn⟩ := hinv.failed e he
    rcases hall fd hfd with ⟨_, hreg⟩ | ⟨_, hclosed⟩
    · exact hreg hn
    · exact hinv.still_open fd hfd hclosed
  · intro hall fd hfd
    refine Or.inl ⟨hinv.in_manager (by simp [hret]) hfd, fun hn => ?_⟩
    rcases hinv.interest fd hfd hn with hp | ⟨e, he⟩
    · rw [hret] at hp
      cases hp
    · exact hall e he

/-- The listener's event, up to the first `accept4()`. -/
def toAccept : List (Fin 1 × Act) :=
  [(0, .deliver 3 { epollin := true }), (0, .wake), (0, .take)]

/-- One connection is accepted; `epoll_ctl()` answers as given, and the call returns. -/
def acceptSeven (rest : List (Fin 1 × Act)) : List (Fin 1 × Act) :=
  [(0, .accept4 (.ok 7)), (0, .insert 1)] ++ rest

theorem accept_allOrNothing_seven :
    ∃ s', AllOrNothing (shared 1 .byReference) s' 0 7 := by
  have hval : ((machine (shared 1 .byReference)).run (start (shared 1 .byReference))
      toAccept).map (fun s => ((s.worker 0).pc,
        ((machine (shared 1 .byReference)).run s
          (acceptSeven [(0, .epollAdd none), (0, .accept4 (.error .eagain))])).map
            (fun s' => (s'.worker 0).pc))) = some (.accept, some .loop) := by decide +kernel
  obtain ⟨s, hrun, heq⟩ := Option.map_eq_some_iff.mp hval
  obtain ⟨hpc, hcall⟩ := Prod.mk.inj heq
  obtain ⟨s', hrun', hret⟩ := Option.map_eq_some_iff.mp hcall
  have hr : (machine (shared 1 .byReference)).Reachable s :=
    .of_run (.init rfl) Machine.along_true hrun
  exact ⟨s', (accept_allOrNothing_iff hr hpc (by simp [acceptSeven, Accepting]) hrun' hret).mpr
    (by simp [acceptSeven]) 7 (by simp [acceptSeven])⟩

/-- A descriptor can stay open and in the manager without a registration. -/
theorem accept_not_allOrNothing :
    ¬ ∀ (ι : Type) [DecidableEq ι] (cfg : Config ι) (s s' : Server ι) (i : ι)
        (ls : List (ι × Act)), (machine cfg).Reachable s → (s.worker i).pc = .accept →
          (∀ l ∈ ls, l.1 = i ∧ Accepting l.2) → (machine cfg).run s ls = some s' →
            (s'.worker i).pc = .loop →
              ∀ fd, (i, .accept4 (.ok fd)) ∈ ls → AllOrNothing cfg s' i fd := by
  intro hall
  have hval : ((machine (shared 1 .byReference)).run (start (shared 1 .byReference))
      toAccept).map (fun s => ((s.worker 0).pc,
        ((machine (shared 1 .byReference)).run s
          (acceptSeven [(0, .epollAdd (some (.other 28)))])).map
            (fun s' => ((s'.worker 0).pc, s'.fdTable 7, s'.interest 0 7))))
      = some (.accept, some (.loop, some (.conn 0), none)) := by decide +kernel
  obtain ⟨s, hrun, heq⟩ := Option.map_eq_some_iff.mp hval
  obtain ⟨hpc, hcall⟩ := Prod.mk.inj heq
  obtain ⟨s', hrun', heq'⟩ := Option.map_eq_some_iff.mp hcall
  simp only [Prod.mk.injEq] at heq'
  obtain ⟨hret, hopen, hnone⟩ := heq'
  have hr : (machine (shared 1 .byReference)).Reachable s :=
    .of_run (.init rfl) Machine.along_true hrun
  rcases hall (Fin 1) _ s s' 0 _ hr hpc (by simp [acceptSeven, Accepting]) hrun' hret 7
    (by simp [acceptSeven]) with ⟨_, hreg⟩ | ⟨_, hclosed⟩
  · exact hreg hnone
  · rw [hopen] at hclosed
    cases hclosed

end TcpServers.Server
