import TcpServers.Proof.Ownership

/-!
# Every step keeps the discipline

The tables first, then what the other workers rely on, then what the worker that
moved relies on, and last who holds what. A fact of another worker can only be
destroyed by a step of a worker at work for the same connection, and there is no
such other worker.
-/

namespace TcpServers.Server

open Lib ConnectionDataManager

variable {ι : Type} [DecidableEq ι] {cfg : Config ι} {s s' : Server ι} {i j : ι} {act : Act}

/-! ## The tables -/

/-- An element stays in the map unless its own connection is being closed. -/
theorem OwnInv.lookup_stays (h : OwnInv cfg s) (hs : Step cfg s i act s') {fd : Fd} {e : Entry}
    (hl : s.data.lookup fd = some e) :
    s'.data.lookup fd = some e
      ∨ ∃ c p v f, e = ⟨p, .conn c⟩ ∧ atWork (s.worker i).pc = some c
        ∧ (s.worker i).pc = .close p v f .remove := by
  rcases step_lookup hs hl with hl' | ⟨p, v, f, hpc, hv, _⟩
  · exact Or.inl hl'
  · obtain ⟨c, he, hat⟩ := h.removing hpc hv hl
    exact Or.inr ⟨c, p, v, f, he, hat, hpc⟩

/-- A descriptor stays open unless its own connection is being closed. -/
theorem OwnInv.open_stays (h : OwnInv cfg s) (hs : Step cfg s i act s') {fd : Fd} {f : File}
    (hf : s.fdTable fd = some f) :
    s'.fdTable fd = some f
      ∨ ∃ c, f = .conn c ∧ atWork (s.worker i).pc = some c ∧ s.data.lookup fd = none
        ∧ s'.fdTable fd = none ∧ ∀ ep, s'.interest ep fd = none := by
  rcases step_fdTable hs hf with hf' | ⟨⟨p, v, g, hpc, hv⟩, hnone, hint⟩
  · exact Or.inl hf'
  · obtain ⟨c, hc, _, hl, hat⟩ := h.closing hpc hv hf
    exact Or.inr ⟨c, hc, hat, hl, hnone, hint⟩

/-- The descriptor of an element of the map stays open. -/
theorem OwnInv.entry_open_stays (h : OwnInv cfg s) (hs : Step cfg s i act s') {fd : Fd} {e : Entry}
    (hl : s.data.lookup fd = some e) : s'.fdTable fd = some e.file := by
  rcases h.open_stays hs (h.tables.entry fd e hl).1 with hf | ⟨c, _, _, hnone, _⟩
  · exact hf
  · rw [hnone] at hl
    cases hl

/-- The data of an element of the map keeps its `conn_fd_`. -/
theorem OwnInv.entry_connFd_stays (h : OwnInv cfg s) (hs : Step cfg s i act s') {fd : Fd}
    {e : Entry} (hl : s.data.lookup fd = some e) : (s'.mem e.addr).connFd = fd := by
  rw [← (h.tables.entry fd e hl).2]
  rcases step_connFd hs e.addr with heq | htakes | ⟨hp, v, f, hpc⟩
  · exact heq
  · exact absurd ⟨fd, e, hl, rfl⟩ (step_takes_free hs htakes)
  · have hok := h.pcs i
    rw [hpc] at hok
    obtain ⟨c, _, _, hfreed⟩ := hok
    exact absurd ⟨fd, e, hl, rfl⟩ (hfreed hp).2

/-- A registration in a later state is an earlier one, or `EPOLL_CTL_ADD` just made it. -/
theorem OwnInv.interest_ne_none (h : OwnInv cfg s) (hs : Step cfg s i act s') {ep : Ep} {fd : Fd}
    (hr : s'.interest ep fd ≠ none) :
    s.interest ep fd ≠ none
      ∨ ((∀ ep, s.interest ep fd = none) ∧ ep = cfg.epollFd i
        ∧ ∃ ptr c, (s.worker i).pc = .add fd ptr c) := by
  by_cases hn : s.interest ep fd = none
  · rcases step_interest_none hs hn with hn' | ⟨ptr, c, hpc, _, hep⟩
    · exact absurd hn' hr
    · have hok := h.pcs i
      rw [hpc] at hok
      exact Or.inr ⟨hok.2, hep, ptr, c, hpc⟩
  · exact Or.inl hn

theorem closed_step (h : OwnInv cfg s) (hs : Step cfg s i act s') (fd : Fd)
    (hn : s'.fdTable fd = none) :
    s'.data.lookup fd = none ∧ ∀ ep, s'.interest ep fd = none := by
  cases hf : s.fdTable fd with
  | none =>
      obtain ⟨hl, hint⟩ := h.tables.closed fd hf
      refine ⟨?_, fun ep => ?_⟩
      · cases hl' : s'.data.lookup fd with
        | none => rfl
        | some e =>
            rcases step_lookup_back hs hl' with hold | ⟨a, c, _, hpc, _⟩
            · rw [hl] at hold
              cases hold
            · have hok := h.pcs i
              rw [hpc] at hok
              rw [hok.1] at hf
              cases hf
      · rcases step_interest_none hs (hint ep) with hint' | ⟨_, _, _, hopen, _⟩
        · exact hint'
        · exact absurd hf hopen
  | some f =>
      rcases h.open_stays hs hf with hf' | ⟨c, _, _, hl, _, hint⟩
      · rw [hn] at hf'
        cases hf'
      · refine ⟨?_, hint⟩
        cases hl' : s'.data.lookup fd with
        | none => rfl
        | some e =>
            rcases step_lookup_back hs hl' with hold | ⟨a, d, rfl, hpc, _⟩
            · rw [hl] at hold
              cases hold
            · have hopen := step_fdTable hs hf
              rcases hopen with hopen | ⟨⟨p, v, g, hpc', _⟩, _⟩
              · rw [hn] at hopen
                cases hopen
              · rw [hpc] at hpc'
                cases hpc'

theorem entry_step (h : OwnInv cfg s) (hs : Step cfg s i act s') (fd : Fd) (e : Entry)
    (hl : s'.data.lookup fd = some e) :
    s'.fdTable fd = some e.file ∧ (s'.mem e.addr).connFd = fd := by
  rcases step_lookup_back hs hl with hold | ⟨a, c, rfl, hpc, rfl, _, _, hmem⟩
  · exact ⟨h.entry_open_stays hs hold, h.entry_connFd_stays hs hold⟩
  · have hok := h.pcs i
    rw [hpc] at hok
    refine ⟨?_, ?_⟩
    · rcases step_fdTable hs hok.1 with hf | ⟨⟨p, v, g, hpc', _⟩, _⟩
      · exact hf
      · rw [hpc] at hpc'
        cases hpc'
    · rw [hmem, Function.update_self]
      rfl

theorem addr_step (h : OwnInv cfg s) (hs : Step cfg s i act s') (fd fd' : Fd) (e e' : Entry)
    (hl : s'.data.lookup fd = some e) (hl' : s'.data.lookup fd' = some e')
    (ha : e.addr = e'.addr) : fd = fd' := by
  rcases step_lookup_back hs hl with hold | ⟨a, c, rfl, hpc, rfl, _, hfree, _⟩
  · rcases step_lookup_back hs hl' with hold' | ⟨a', c', rfl, hpc', rfl, _, hfree', _⟩
    · exact h.tables.addr fd fd' e e' hold hold' ha
    · exact absurd ⟨fd, e, hold, ha⟩ hfree'
  · rcases step_lookup_back hs hl' with hold' | ⟨a', c', _, hpc', _⟩
    · exact absurd ⟨fd', e', hold', ha.symm⟩ hfree
    · rw [hpc] at hpc'
      cases hpc'
      rfl

theorem armed_step (h : OwnInv cfg s) (hs : Step cfg s i act s') (ep : Ep) (fd : Fd)
    (reg : Registration) (hr : s'.interest ep fd = some reg) (harmed : reg.armed = true) :
    ∃ e, s'.data.lookup fd = some e ∧ reg.ptr = some e.addr := by
  rcases step_interest_back hs hr with hold | ⟨old, flags, _, hpc, rfl, hold, ho, rfl⟩ |
    ⟨ptr, c, _, hpc, rfl, rfl⟩ | ⟨ptr, f, pc, isRead, _, hpc, hrearm, rfl, rfl, _, rfl⟩
  · obtain ⟨e, hl, hptr⟩ := h.tables.armed ep fd reg hold harmed
    rcases h.lookup_stays hs hl with hl' | ⟨c, p, v, f, rfl, hat, _⟩
    · exact ⟨e, hl', hptr⟩
    · -- a connection being closed is not armed
      have hopen := (h.tables.entry fd _ hl).1
      exact absurd ⟨ep, fd, reg, hold, harmed, hopen⟩
        (h.holds.taken i c (mem_holds_atWork hat))
  · obtain ⟨e, hl, hptr⟩ := h.tables.armed _ fd old hold ho
    rcases step_lookup hs hl with hl' | ⟨p, v, f, hpc', _⟩
    · exact ⟨e, hl', hptr⟩
    · rw [hpc] at hpc'
      cases hpc'
  · have hok := h.pcs i
    rw [hpc] at hok
    obtain ⟨⟨a, rfl, hl⟩, _⟩ := hok
    rcases step_lookup hs hl with hl' | ⟨p, v, f, hpc', _⟩
    · exact ⟨_, hl', rfl⟩
    · rw [hpc] at hpc'
      cases hpc'
  · obtain ⟨c, fd, rfl, hl, _, hfd, _⟩ := h.handling hpc (pastRearm_of_rearm hrearm)
    rw [hfd]
    rcases step_lookup hs hl with hl' | ⟨p, v, f, hpc', _⟩
    · exact ⟨_, hl', rfl⟩
    · rw [hpc] at hpc'
      cases hpc'

theorem one_step (h : OwnInv cfg s) (hs : Step cfg s i act s') (ep ep' : Ep) (fd : Fd)
    (hr : s'.interest ep fd ≠ none) (hr' : s'.interest ep' fd ≠ none) : ep = ep' := by
  rcases h.interest_ne_none hs hr with hold | ⟨hnone, rfl, _⟩
  · rcases h.interest_ne_none hs hr' with hold' | ⟨hnone, _⟩
    · exact h.tables.one ep ep' fd hold hold'
    · exact absurd (hnone ep) hold
  · rcases h.interest_ne_none hs hr' with hold' | ⟨_, rfl, _⟩
    · exact absurd (hnone ep') hold'
    · rfl

theorem fd_unique_step (h : OwnInv cfg s) (hs : Step cfg s i act s') (fd fd' : Fd) (f : File)
    (hf : s'.fdTable fd = some f) (hf' : s'.fdTable fd' = some f) : fd = fd' := by
  rcases step_fdTable_back hs hf with hold | ⟨ha, rfl, _⟩
  · rcases step_fdTable_back hs hf' with hold' | ⟨_, rfl, _⟩
    · exact h.tables.fd_unique fd fd' f hold hold'
    · exact absurd (h.tables.conn fd _ hold).2.1 (Nat.lt_irrefl _)
  · rcases step_fdTable_back hs hf' with hold' | ⟨ha', _⟩
    · exact absurd (h.tables.conn fd' _ hold').2.1 (Nat.lt_irrefl _)
    · rw [ha] at ha'
      cases ha'
      rfl

theorem conn_step (h : OwnInv cfg s) (hs : Step cfg s i act s') (fd : Fd) (c : Nat)
    (hf : s'.fdTable fd = some (.conn c)) : 0 ≤ fd ∧ c < s'.nextConn ∧ s'.closes c = 0 := by
  rcases step_fdTable_back hs hf with hold | ⟨rfl, hc, hnone, h0, hnext⟩
  · obtain ⟨h0, hlt, hcl⟩ := h.tables.conn fd c hold
    refine ⟨h0, Nat.lt_of_lt_of_le hlt (step_nextConn hs), ?_⟩
    rcases step_closes hs c with heq | ⟨p, v, g, _, hopen, hgone, _⟩
    · rw [heq, hcl]
    · rw [h.tables.fd_unique _ _ _ hopen hold, hf] at hgone
      cases hgone
  · cases hc
    refine ⟨h0, by omega, ?_⟩
    rcases step_closes hs s.nextConn with heq | ⟨p, v, g, _, hopen, _⟩
    · rw [heq]
      exact h.tables.fresh _ (Nat.le_refl _)
    · exact absurd (h.tables.conn _ _ hopen).2.1 (Nat.lt_irrefl _)

theorem fresh_step (h : OwnInv cfg s) (hs : Step cfg s i act s') (c : Nat)
    (hc : s'.nextConn ≤ c) : s'.closes c = 0 := by
  have hle : s.nextConn ≤ c := Nat.le_trans (step_nextConn hs) hc
  rcases step_closes hs c with heq | ⟨p, v, g, _, hopen, _⟩
  · rw [heq]
    exact h.tables.fresh c hle
  · exact absurd (h.tables.conn _ _ hopen).2.1 (Nat.not_lt.mpr hle)

theorem closes_le_step (h : OwnInv cfg s) (hs : Step cfg s i act s') (c : Nat) :
    s'.closes c ≤ 1 := by
  rcases step_closes hs c with heq | ⟨p, v, g, _, hopen, _, heq⟩
  · rw [heq]
    exact h.tables.closes_le c
  · rw [heq, (h.tables.conn _ _ hopen).2.2]

theorem listening_step (h : OwnInv cfg s) (hs : Step cfg s i act s') (ep : Ep)
    (hep : ep ∈ cfg.eps) :
    s'.fdTable (cfg.listenFd ep) = some (.listener ep)
      ∧ s'.data.lookup (cfg.listenFd ep) = some ⟨cfg.listenPtr ep, .listener ep⟩ := by
  obtain ⟨hf, hl⟩ := h.tables.listening ep hep
  refine ⟨h.entry_open_stays hs hl, ?_⟩
  rcases h.lookup_stays hs hl with hl' | ⟨c, _, _, _, he, _⟩
  · exact hl'
  · cases he

/-- What a registration is for does not change while it lasts. -/
theorem OwnInv.registered_file (h : OwnInv cfg s) (hs : Step cfg s i act s') {ep : Ep} {fd : Fd}
    {f : File} (hr : s.interest ep fd ≠ none) (hf : s'.fdTable fd = some f) :
    s.fdTable fd = some f := by
  rcases step_fdTable_back hs hf with hold | ⟨_, _, hnone, _⟩
  · exact hold
  · exact absurd ((h.tables.closed fd hnone).2 ep) hr

theorem mask_step (h : OwnInv cfg s) (hs : Step cfg s i act s') (ep : Ep) (fd : Fd)
    (reg : Registration) (c : Nat) (hr : s'.interest ep fd = some reg)
    (hf : s'.fdTable fd = some (.conn c)) :
    reg.mask = acceptMask ∨ ∃ isRead, reg.mask = rearmMask isRead := by
  rcases step_interest_back hs hr with hold | ⟨old, flags, _, _, rfl, hold, _, rfl⟩ |
    ⟨ptr, c, _, hpc, rfl, rfl⟩ | ⟨ptr, f, pc, isRead, _, hpc, hrearm, rfl, rfl, _, rfl⟩
  · exact h.tables.mask ep fd reg c hold (h.registered_file hs (by rw [hold]; simp) hf)
  · exact h.tables.mask _ fd old c hold (h.registered_file hs (by rw [hold]; simp) hf)
  · exact Or.inl rfl
  · exact Or.inr ⟨isRead, rfl⟩

theorem listenEp_step (h : OwnInv cfg s) (hs : Step cfg s i act s') (ep : Ep) (fd : Fd)
    (reg : Registration) (ep' : Ep) (hr : s'.interest ep fd = some reg)
    (hf : s'.fdTable fd = some (.listener ep')) : ep' = ep := by
  have hne : s'.interest ep fd ≠ none := by rw [hr]; simp
  rcases h.interest_ne_none hs hne with hold | ⟨_, _, ptr, c, hpc⟩
  · obtain ⟨reg', hreg'⟩ := Option.ne_none_iff_exists'.mp hold
    exact h.tables.listenEp ep fd reg' ep' hreg' (h.registered_file hs hold hf)
  · have hok := h.pcs i
    rw [hpc] at hok
    obtain ⟨⟨a, _, hl⟩, _⟩ := hok
    rw [h.entry_open_stays hs hl] at hf
    cases hf

/-- **The tables still agree.** -/
theorem tables_step (h : OwnInv cfg s) (hs : Step cfg s i act s') : Tables cfg s' where
  closed := closed_step h hs
  entry := entry_step h hs
  addr := addr_step h hs
  armed := armed_step h hs
  one := one_step h hs
  fd_unique := fd_unique_step h hs
  conn := conn_step h hs
  fresh := fresh_step h hs
  closes_le := closes_le_step h hs
  listener := by
    intro fd ep hf
    rcases step_fdTable_back hs hf with hold | ⟨_, hc, _⟩
    · exact h.tables.listener fd ep hold
    · cases hc
  listening := listening_step h hs
  mask := mask_step h hs
  listenEp := listenEp_step h hs

/-! ## What the other workers rely on -/

/-- Freed storage stays as it is for the workers that still refer to it. -/
theorem OwnInv.freed_stays (h : OwnInv cfg s) (hs : Step cfg s i act s')
    (hreuse : cfg.passing = .byReference → NoReuse s (i, act)) {p : Addr} {v : Fd} (hj : j ≠ i)
    (hd : dangling (s.worker j).pc = some p) (hfreed : Freed cfg s p v) : Freed cfg s' p v := by
  intro hp
  obtain ⟨hv, howns⟩ := hfreed hp
  have hnew : act.takes ≠ some p := fun htakes => hreuse hp p htakes j hd
  refine ⟨?_, fun ho => ?_⟩
  · rcases step_connFd hs p with heq | ha | ⟨_, v', f, hpc⟩
    · rw [heq, hv]
    · exact absurd ha hnew
    · have hdi : dangling (s.worker i).pc = some p := by rw [hpc]; rfl
      exact absurd (h.freed hp j i p hd hdi) hj
  · rcases step_owns hs ho with ho | ha
    · exact howns ho
    · exact hnew (by rw [ha]; rfl)

/-- An element another worker is at work for stays in the map. -/
theorem OwnInv.lookup_other (h : OwnInv cfg s) (hs : Step cfg s i act s') (hj : j ≠ i) {fd : Fd}
    {a : Addr} {c : Nat} (hat : atWork (s.worker j).pc = some c)
    (hl : s.data.lookup fd = some ⟨a, .conn c⟩) : s'.data.lookup fd = some ⟨a, .conn c⟩ := by
  rcases h.lookup_stays hs hl with hl' | ⟨d, p, v, f, he, hat', _⟩
  · exact hl'
  · cases he
    exact absurd (h.atWork_unique hat hat') hj

/-- So does the descriptor of its connection. -/
theorem OwnInv.open_other (h : OwnInv cfg s) (hs : Step cfg s i act s') (hj : j ≠ i) {fd : Fd}
    {c : Nat} (hat : atWork (s.worker j).pc = some c) (hf : s.fdTable fd = some (.conn c)) :
    s'.fdTable fd = some (.conn c) := by
  rcases h.open_stays hs hf with hf' | ⟨d, hd, hat', _⟩
  · exact hf'
  · cases hd
    exact absurd (h.atWork_unique hat hat') hj

/-- And what is not in the map is not put there by another worker. -/
theorem OwnInv.absent_other (h : OwnInv cfg s) (hs : Step cfg s i act s') (hj : j ≠ i) {fd : Fd}
    {c : Nat} (hat : atWork (s.worker j).pc = some c) (hf : s.fdTable fd = some (.conn c))
    (hl : s.data.lookup fd = none) : s'.data.lookup fd = none := by
  cases hl' : s'.data.lookup fd with
  | none => rfl
  | some e =>
      rcases step_lookup_back hs hl' with hold | ⟨a, d, _, hpc, _⟩
      · rw [hl] at hold
        cases hold
      · have hok := h.pcs i
        rw [hpc] at hok
        rw [hok.1] at hf
        cases hf
        have hat' : atWork (s.worker i).pc = some c := by rw [hpc]; rfl
        exact absurd (h.atWork_unique hat hat') hj

/-- Nor does another worker add its descriptor to epoll. -/
theorem OwnInv.unregistered_other (h : OwnInv cfg s) (hs : Step cfg s i act s') (hj : j ≠ i)
    {fd : Fd} {c : Nat} (hat : atWork (s.worker j).pc = some c)
    (hf : s.fdTable fd = some (.conn c)) (hn : ∀ ep, s.interest ep fd = none) (ep : Ep) :
    s'.interest ep fd = none := by
  rcases step_interest_none hs (hn ep) with hn' | ⟨ptr, d, hpc, _⟩
  · exact hn'
  · have hok := h.pcs i
    rw [hpc] at hok
    obtain ⟨⟨a, _, hl⟩, _⟩ := hok
    rw [(h.tables.entry fd _ hl).1] at hf
    cases hf
    have hat' : atWork (s.worker i).pc = some c := by rw [hpc]; rfl
    exact absurd (h.atWork_unique hat hat') hj

/-- **What a statement of another worker relies on is left alone.** -/
theorem pcOk_other (h : OwnInv cfg s) (hs : Step cfg s i act s')
    (hreuse : cfg.passing = .byReference → NoReuse s (i, act)) (hj : j ≠ i) :
    PcOk cfg s' (s.worker j).pc := by
  have hok := h.pcs j
  have hdang : ∀ p v, dangling (s.worker j).pc = some p → Freed cfg s p v → Freed cfg s' p v :=
    fun p v hd hfreed => h.freed_stays hs hreuse hj hd hfreed
  cases hpc : (s.worker j).pc with
  | insert fd c =>
      have hat : atWork (s.worker j).pc = some c := by rw [hpc]; rfl
      rw [hpc] at hok
      obtain ⟨hf, hl, hn⟩ := hok
      exact ⟨h.open_other hs hj hat hf, h.absent_other hs hj hat hf hl,
        h.unregistered_other hs hj hat hf hn⟩
  | add fd ptr c =>
      have hat : atWork (s.worker j).pc = some c := by rw [hpc]; rfl
      rw [hpc] at hok
      obtain ⟨⟨a, hptr, hl⟩, hn⟩ := hok
      have hf := (h.tables.entry fd _ hl).1
      exact ⟨⟨a, hptr, h.lookup_other hs hj hat hl⟩, h.unregistered_other hs hj hat hf hn⟩
  | handle p f pc =>
      intro hpast
      obtain ⟨c, fd, rfl, hl, _, _, hat⟩ := h.handling hpc hpast
      exact ⟨c, fd, rfl, h.lookup_other hs hj hat hl⟩
  | close p v f cpc =>
      rw [hpc] at hok
      cases cpc with
      | test | remove =>
          obtain ⟨c, rfl, hl⟩ := hok
          have hat : atWork (s.worker j).pc = some c := by rw [hpc]; rfl
          exact ⟨c, rfl, h.lookup_other hs hj hat hl⟩
      | del | close =>
          obtain ⟨c, rfl, hf, hl, hfreed⟩ := hok
          have hat : atWork (s.worker j).pc = some c := by rw [hpc]; rfl
          exact ⟨c, rfl, h.open_other hs hj hat hf, h.absent_other hs hj hat hf hl,
            hdang p v (by rw [hpc]; rfl) hfreed⟩
      | store =>
          obtain ⟨c, rfl, hc, hfreed⟩ := hok
          refine ⟨c, rfl, ?_, hdang p v (by rw [hpc]; rfl) hfreed⟩
          rcases step_closes hs c with heq | ⟨_, _, _, _, hopen, _⟩
          · rw [heq, hc]
          · rw [(h.tables.conn _ _ hopen).2.2] at hc
            cases hc
  | _ => trivial

/-! ## What the worker that moved relies on -/

omit [DecidableEq ι] in
/-- An allocation leaves alone what a statement relies on, unless it takes its storage. -/
theorem pcOk_allocated {a : Addr} {contents : ConnectionData} {pc : WorkerPc}
    (hok : PcOk cfg s pc) (hd : cfg.passing = .byReference → dangling pc ≠ some a) :
    PcOk cfg (s.setMem a contents) pc := by
  have hfreed : ∀ p v, dangling pc = some p → Freed cfg s p v →
      Freed cfg (s.setMem a contents) p v := by
    intro p v hp hfreed hby
    obtain ⟨hv, howns⟩ := hfreed hby
    have hne : p ≠ a := fun heq => hd hby (by rw [hp, heq])
    refine ⟨?_, howns⟩
    rw [setMem_mem, Function.update_of_ne hne]
    exact hv
  cases pc with
  | close p v f cpc =>
      cases cpc with
      | del | close =>
          obtain ⟨c, hc, hf, hl, hold⟩ := hok
          exact ⟨c, hc, hf, hl, hfreed p v rfl hold⟩
      | store =>
          obtain ⟨c, hc, hcloses, hold⟩ := hok
          exact ⟨c, hc, hcloses, hfreed p v rfl hold⟩
      | _ => exact hok
  | _ => exact hok

/-- **What the next statement relies on is there.** -/
theorem pcOk_self (h : OwnInv cfg s) (hs : Step cfg s i act s')
    (hreuse : cfg.passing = .byReference → NoReuse s (i, act)) :
    PcOk cfg s' (s'.worker i).pc := by
  have hok := h.pcs i
  cases hs with
  | allocated => exact pcOk_allocated hok fun hby => hreuse hby _ rfl i
  | deliver hpc hreg hfile harmed =>
      simp only [setWorker_worker, Function.update_self, hpc]
      trivial
  | wake hpc | endBatch hpc _ | acceptFailed hpc | added hpc _ _ | addFailed hpc
  | closeNegative hpc _ | closeStore hpc =>
      simp only [setPc_worker, setWorker_worker, setInterest_worker, storeClosed_worker,
        Function.update_self]
      trivial
  | @take ev rest p hpc hbatch hptr =>
      have hev := h.events i ev (by rw [hbatch]; exact List.mem_cons_self)
      simp only [setWorker_worker, Function.update_self]
      exact dispatched_ok h hev hptr
  | @accepted fd hpc h0 hfresh =>
      simp only [setPc_worker, Function.update_self]
      obtain ⟨hl, hn⟩ := h.tables.closed fd hfresh
      exact ⟨Function.update_self _ _ _, hl, hn⟩
  | @inserted a fd c hpc hfree hnew =>
      rw [hpc] at hok
      simp only [setPc_worker, setMem_worker, Function.update_self]
      exact ⟨⟨a, rfl, AList.lookup_insert s.data⟩, hok.2.2⟩
  | @insertedNull a fd c hpc hfree hold =>
      rw [hpc] at hok
      exact absurd hok.2.1 hold
  | handled hpc hstep _ =>
      simp only [handled_worker, Function.update_self]
      exact handled_ok h hpc hstep rfl
  | rearmed hpc hstep _ _ =>
      simp only [setInterest_worker, handled_worker, Function.update_self]
      exact handled_ok h hpc hstep rfl
  | closeTest hpc _ =>
      rw [hpc] at hok
      simp only [setPc_worker, Function.update_self]
      exact hok
  | closeRemove hpc =>
      simp only [setPc_worker, Function.update_self]
      exact removed_ok h hpc
  | closeDel hpc =>
      rw [hpc] at hok
      simp only [setPc_worker, setInterest_worker, Function.update_self]
      exact hok
  | @closeClose p v f hpc =>
      have hv := h.connFd_eq hpc
      rw [hpc] at hok
      obtain ⟨c, rfl, hf, hl, hfreed⟩ := hok
      have hzero := (h.tables.conn v c hf).2.2
      simp only [setPc_worker, closeFd_worker, Function.update_self]
      refine ⟨c, rfl, ?_, hfreed⟩
      simp only [setPc_closes, closeFd_closes, hv, hf, Function.update_self, hzero]

/-! ## Events -/

/-- **What an event in a batch relies on stays**, whoever moves. -/
theorem events_step (h : OwnInv cfg s) (hs : Step cfg s i act s') (j : ι) (ev : Event)
    (hev : ev ∈ (s'.worker j).batch) : EventOk s' (cfg.epollFd j) ev := by
  have hstays : ∀ k, ev ∈ (s.worker k).batch → EventOk s' (cfg.epollFd k) ev := by
    intro k hk
    have hok := h.events k ev hk
    obtain ⟨a, hptr, hl⟩ := hok.entry
    refine ⟨⟨a, hptr, ?_⟩, hok.listener⟩
    rcases h.lookup_stays hs hl with hl' | ⟨c, p, v, f, he, hat, _⟩
    · exact hl'
    · exact absurd (congrArg Entry.file he) (h.no_event hat hk)
  by_cases hj : j = i
  · subst hj
    cases hs with
    | @deliver fd flags reg file hpc hreg hfile harmed =>
        simp only [setWorker_worker, Function.update_self, List.mem_append,
          List.mem_singleton] at hev
        rcases hev with hev | rfl
        · exact hstays j hev
        · obtain ⟨e, hl, hptr⟩ := h.tables.armed _ fd reg hreg harmed
          have hopen := (h.tables.entry fd e hl).1
          rw [hfile] at hopen
          cases hopen
          refine ⟨⟨e.addr, hptr, hl⟩, fun ep hep => ?_⟩
          dsimp only at hep
          rw [hep] at hfile
          exact h.tables.listenEp _ fd reg ep hreg hfile
    | take hpc hbatch hptr =>
        refine hstays j ?_
        rw [hbatch]
        simp only [setWorker_worker, Function.update_self] at hev
        exact List.mem_cons_of_mem _ hev
    | wake | endBatch | accepted | acceptFailed | inserted | insertedNull | added | addFailed
    | handled | rearmed | closeNegative | closeTest | closeRemove | closeDel | closeClose
    | closeStore | allocated =>
        refine hstays j ?_
        simpa using hev
  · rw [step_worker hs hj] at hev
    exact hstays j hev

/-! ## Who holds what -/

/-- A connection becomes armed by `EPOLL_CTL_ADD` or a re-arm of the worker holding it. -/
theorem OwnInv.armed_back (h : OwnInv cfg s) (hs : Step cfg s i act s') {c : Nat}
    (ha : Armed s' c) :
    Armed s c
      ∨ (atWork (s.worker i).pc = some c ∧ atWork (s'.worker i).pc = none
        ∧ (s'.worker i).batch = (s.worker i).batch
        ∧ ∀ p f pc, (s.worker i).pc = .handle p f pc → pc.rearm? ≠ none) := by
  obtain ⟨ep, fd, reg, hr, harmed, hf⟩ := ha
  rcases step_interest_back hs hr with hold | ⟨old, flags, _, _, rfl, hold, ho, rfl⟩ |
    ⟨ptr, d, rfl, hpc, rfl, rfl⟩ | ⟨ptr, f, pc, isRead, rfl, hpc, hrearm, rfl, rfl, _, rfl⟩
  · have hopen := h.registered_file hs (by rw [hold]; simp) hf
    exact Or.inl ⟨ep, fd, reg, hold, harmed, hopen⟩
  · have hopen := h.registered_file hs (by rw [hold]; simp) hf
    exact Or.inl ⟨_, fd, old, hold, ho, hopen⟩
  · have hok := h.pcs i
    rw [hpc] at hok
    obtain ⟨⟨a, _, hl⟩, _⟩ := hok
    have hopen := h.entry_open_stays hs hl
    rw [hf] at hopen
    cases hopen
    refine Or.inr ⟨by rw [hpc]; rfl, ?_⟩
    cases hs with
    | added => simp [atWork, hpc]
  · obtain ⟨d, fd, rfl, hl, _, hfd, hat⟩ := h.handling hpc (pastRearm_of_rearm hrearm)
    have hopen := h.entry_open_stays hs hl
    rw [hfd] at hf
    rw [hf] at hopen
    cases hopen
    refine Or.inr ⟨hat, ?_⟩
    cases hs with
    | @handled ptr' f' pc' a out hpc' hstep hmod =>
        rw [hpc] at hpc'
        cases hpc'
        rcases hmod with hnone | hne
        · rw [hrearm] at hnone
          cases hnone
        · exact absurd rfl hne
    | @rearmed ptr' f' pc' out isRead' reg hpc' hstep hrearm' hreg =>
        rw [hpc] at hpc'
        cases hpc'
        simp only [setInterest_worker, handled_worker, Function.update_self]
        refine ⟨?_, trivial, fun p g pc' hpc' => ?_⟩
        · cases hstep with
          | readFailRearm | echoedRearm | blockedRearm | writeFailRearm => rfl
        · rw [hpc] at hpc'
          cases hpc'
          rw [hrearm]
          simp

/-- What becomes of the statement a worker is at, where it takes nothing new. -/
theorem step_atWork (hs : Step cfg s i act s') (hd : ∀ fd flags, act ≠ .deliver fd flags)
    (ht : act ≠ .take) (ha : ∀ fd, act ≠ .accept4 (.ok fd)) :
    (s'.worker i).batch = (s.worker i).batch
      ∧ (atWork (s'.worker i).pc = none ∨ atWork (s'.worker i).pc = atWork (s.worker i).pc) := by
  cases hs with
  | deliver => exact absurd rfl (hd _ _)
  | allocated => exact ⟨rfl, Or.inr rfl⟩
  | endBatch | take => exact absurd rfl ht
  | accepted => exact absurd rfl (ha _)
  | inserted hpc _ _ | insertedNull hpc _ _ | closeTest hpc _ | closeRemove hpc | closeDel hpc =>
      simp [hpc, atWork]
  | handled hpc hstep _ | rearmed hpc hstep _ _ =>
      refine ⟨by simp, ?_⟩
      cases hstep <;> simp [hpc, afterHandler, atWork, pastRearm]
  | wake | acceptFailed | added | addFailed | closeNegative | closeClose | closeStore =>
      simp [atWork]

/-- Taking an event from the batch keeps the connection, or drops it. -/
theorem holds_take (hs : Step cfg s i .take s') :
    (holds (s'.worker i)).Sublist (holds (s.worker i)) := by
  cases hs with
  | endBatch hpc _ => exact holds_sublist (by simp) (Or.inl (by simp [atWork]))
  | @take ev rest p hpc hbatch hptr =>
      have hat : atWork (s.dispatched cfg i ev p) = none
          ∨ atWork (s.dispatched cfg i ev p) = ev.file.conn? := by
        unfold dispatched
        split
        · exact Or.inl rfl
        · split <;> simp [atWork, pastRearm]
      unfold holds
      simp only [setWorker_worker, Function.update_self, hpc, hbatch]
      rcases hat with hnone | heq
      · rw [hnone]
        exact (List.sublist_cons_self ev rest).filterMap _
      · rw [heq]
        cases hf : ev.file.conn? with
        | none => simp [hf, atWork]
        | some c => simp [hf, atWork]

/-- Delivering a one-shot event takes the connection. -/
theorem holds_deliver (h : OwnInv cfg s) {fd : Fd} {flags : Events}
    (hs : Step cfg s i (.deliver fd flags) s') :
    Exclusive (fun j => holds (s'.worker j)) (Armed s') := by
  have hother : ∀ j, j ≠ i → holds (s'.worker j) = holds (s.worker j) :=
    fun j hj => congrArg holds (step_worker hs hj)
  have hback : ∀ c, Armed s' c → (s.worker i).pc = .epollWait → Armed s c := by
    intro c hc hpc
    rcases h.armed_back hs hc with ha | ⟨hat, _⟩
    · exact ha
    · rw [hpc] at hat
      cases hat
  cases hs with
  | @deliver _ _ reg file hpc hreg hfile harmed =>
      cases file with
      | listener ep =>
          refine h.holds.release hother ?_ (fun c hc => Or.inl (hback c hc hpc))
          simp [holds, File.conn?]
      | conn c =>
          have hfree : Armed s c := ⟨_, fd, reg, hreg, harmed, hfile⟩
          refine h.holds.take hother ?_ (h.holds.not_held hfree) ?_ (fun d hd => hback d hd hpc)
          · have hlist : holds { s.worker i with
                batch := (s.worker i).batch ++ [⟨flags, reg.ptr, fd, .conn c⟩] }
                = holds (s.worker i) ++ [c] := by
              simp [holds, File.conn?]
            simp only [setWorker_worker, Function.update_self, hlist]
            exact List.perm_append_singleton c _
          · intro hex
            obtain ⟨ep, fd', reg', hr, ha, hf⟩ := hex
            have hfd : fd' = fd := h.tables.fd_unique _ _ _ hf hfile
            subst hfd
            have honeshot : reg.mask.epolloneshot = true := by
              rcases h.tables.mask _ _ reg c hreg hfile with hm | ⟨isRead, hm⟩ <;> rw [hm] <;> rfl
            simp only [setWorker_interest, setInterest_interest] at hr
            split at hr
            · cases hr
              simp [honeshot] at ha
            · rename_i hne
              have hep := h.tables.one ep (cfg.epollFd i) fd' (by rw [hr]; simp)
                (by rw [hreg]; simp)
              exact hne ⟨hep, trivial⟩

/-- `accept4` makes a connection nobody knew of. -/
theorem holds_accept (h : OwnInv cfg s) {fd : Fd} (hs : Step cfg s i (.accept4 (.ok fd)) s') :
    Exclusive (fun j => holds (s'.worker j)) (Armed s') := by
  have hother : ∀ j, j ≠ i → holds (s'.worker j) = holds (s.worker j) :=
    fun j hj => congrArg holds (step_worker hs hj)
  have hback : ∀ c, Armed s' c → (s.worker i).pc = .accept → Armed s c := by
    intro c hc hpc
    rcases h.armed_back hs hc with ha | ⟨hat, _⟩
    · exact ha
    · rw [hpc] at hat
      cases hat
  cases hs with
  | accepted hpc h0 hfresh =>
      refine h.holds.take (t := s.nextConn) hother ?_ (fun j hj => ?_) (fun ha => ?_)
        (fun d hd => hback d hd hpc)
      · simp [holds, hpc, atWork]
      · obtain ⟨fd', hopen⟩ := h.held_open hj
        exact absurd (h.tables.conn _ _ hopen).2.1 (Nat.lt_irrefl _)
      · obtain ⟨_, fd', _, _, _, hopen⟩ := hback _ ha hpc
        exact absurd (h.tables.conn _ _ hopen).2.1 (Nat.lt_irrefl _)

/-- **A connection has one holder, or its event can be delivered, never both.** -/
theorem holds_step (h : OwnInv cfg s) (hs : Step cfg s i act s') :
    Exclusive (fun j => holds (s'.worker j)) (Armed s') := by
  have hother : ∀ j, j ≠ i → holds (s'.worker j) = holds (s.worker j) :=
    fun j hj => congrArg holds (step_worker hs hj)
  have hrelease : (holds (s'.worker i)).Sublist (holds (s.worker i)) →
      Exclusive (fun j => holds (s'.worker j)) (Armed s') := by
    intro hsub
    refine h.holds.release hother hsub (fun c hc => ?_)
    rcases h.armed_back hs hc with ha | ⟨hat, hpc, hbatch, _⟩
    · exact Or.inl ha
    · exact Or.inr ⟨mem_holds_atWork hat, h.released hat hpc hbatch⟩
  by_cases hd : ∃ fd flags, act = .deliver fd flags
  · obtain ⟨fd, flags, rfl⟩ := hd
    exact holds_deliver h hs
  by_cases ht : act = .take
  · subst ht
    exact hrelease (holds_take hs)
  by_cases ha : ∃ fd, act = .accept4 (.ok fd)
  · obtain ⟨fd, rfl⟩ := ha
    exact holds_accept h hs
  · obtain ⟨hbatch, hpc⟩ := step_atWork hs (fun fd flags he => hd ⟨fd, flags, he⟩) ht
      (fun fd he => ha ⟨fd, he⟩)
    exact hrelease (holds_sublist hbatch hpc)

/-- A worker comes to hold a connection by its event, or by accepting it. -/
theorem holds_grows (hs : Step cfg s i act s') {c : Nat} (hc : c ∈ holds (s'.worker i)) :
    c ∈ holds (s.worker i)
      ∨ (∃ fd flags reg, act = .deliver fd flags ∧ s.interest (cfg.epollFd i) fd = some reg
          ∧ reg.armed = true ∧ s.fdTable fd = some (.conn c))
      ∨ c = s.nextConn := by
  by_cases hd : ∃ fd flags, act = .deliver fd flags
  · obtain ⟨fd, flags, rfl⟩ := hd
    cases hs with
    | @deliver _ _ reg file hpc hreg hfile harmed =>
        simp only [setWorker_worker, Function.update_self, holds, List.filterMap_append,
          ← List.append_assoc] at hc
        rcases List.mem_append.mp hc with hold | hnew
        · exact Or.inl hold
        · refine Or.inr (Or.inl ⟨fd, flags, reg, rfl, hreg, harmed, ?_⟩)
          cases file with
          | listener ep => simp [File.conn?] at hnew
          | conn d =>
              have hcd : c = d := by simpa [File.conn?] using hnew
              rw [hcd]
              exact hfile
  by_cases ht : act = .take
  · subst ht
    exact Or.inl ((holds_take hs).subset hc)
  by_cases ha : ∃ fd, act = .accept4 (.ok fd)
  · obtain ⟨fd, rfl⟩ := ha
    cases hs with
    | accepted hpc _ _ =>
        simp only [setPc_worker, Function.update_self, holds, atWork] at hc
        rcases List.mem_append.mp hc with hnew | hold
        · exact Or.inr (Or.inr (by simpa using hnew))
        · exact Or.inl (List.mem_append_right _ hold)
  · obtain ⟨hbatch, hpc⟩ := step_atWork hs (fun fd flags he => hd ⟨fd, flags, he⟩) ht
      (fun fd he => ha ⟨fd, he⟩)
    exact Or.inl ((holds_sublist hbatch hpc).subset hc)

/-- A connection nobody holds stays so, unless its event is delivered. -/
theorem OwnInv.unheld_stays (h : OwnInv cfg s) (hs : Step cfg s i act s') {fd : Fd} {c : Nat}
    (hopen : s.fdTable fd = some (.conn c)) (hun : ∀ j, c ∉ Server.holds (s.worker j))
    (hdel : ∀ flags reg, act = .deliver fd flags → s.interest (cfg.epollFd i) fd = some reg →
      reg.armed = false) (j : ι) : c ∉ Server.holds (s'.worker j) := by
  intro hc
  by_cases hj : j = i
  · subst hj
    rcases holds_grows hs hc with hold | ⟨fd', flags, reg, rfl, hreg, harmed, hf⟩ | rfl
    · exact hun j hold
    · have hfd := h.tables.fd_unique _ _ _ hf hopen
      subst hfd
      rw [hdel flags reg rfl hreg] at harmed
      cases harmed
    · exact absurd (h.tables.conn _ _ hopen).2.1 (Nat.lt_irrefl _)
  · rw [step_worker hs hj] at hc
    exact hun j hc

/-! ## All together -/

/-- Storage becomes freed-but-referred-to by removing its own element. -/
theorem freed_step (h : OwnInv cfg s) (hs : Step cfg s i act s')
    (hp : cfg.passing = .byReference) (j k : ι) (p : Addr)
    (hj : dangling (s'.worker j).pc = some p) (hk : dangling (s'.worker k).pc = some p) :
    j = k := by
  have hnot : ∀ l, dangling (s.worker l).pc = some p → ¬ Owns s.data p := by
    intro l hl
    have hok := h.pcs l
    cases hpc : (s.worker l).pc with
    | close q v f cpc =>
        rw [hpc] at hok hl
        cases cpc with
        | del | close =>
            obtain ⟨_, _, _, _, hfreed⟩ := hok
            cases hl
            exact (hfreed hp).2
        | store =>
            obtain ⟨_, _, _, hfreed⟩ := hok
            cases hl
            exact (hfreed hp).2
        | _ => cases hl
    | _ =>
        rw [hpc] at hl
        cases hl
  have hback : ∀ l, dangling (s'.worker l).pc = some p →
      dangling (s.worker l).pc = some p ∨ (l = i ∧ Owns s.data p) := by
    intro l hl
    by_cases hli : l = i
    · subst hli
      rcases step_dangling hs hl with hold | ⟨v, f, hpc⟩
      · exact Or.inl hold
      · have hok := h.pcs l
        rw [hpc] at hok
        obtain ⟨c, _, hlook⟩ := hok
        exact Or.inr ⟨rfl, v, _, hlook, rfl⟩
    · rw [step_worker hs hli] at hl
      exact Or.inl hl
  rcases hback j hj with hj' | ⟨rfl, howns⟩
  · rcases hback k hk with hk' | ⟨rfl, howns⟩
    · exact h.freed hp j k p hj' hk'
    · exact absurd howns (hnot j hj')
  · rcases hback k hk with hk' | ⟨rfl, _⟩
    · exact absurd howns (hnot k hk')
    · rfl

/-- **Preserved by every step**, as long as freed storage in use is not handed out. -/
theorem ownInv_step (h : OwnInv cfg s)
    (hreuse : cfg.passing = .byReference → NoReuse s (i, act))
    (hs : s.next cfg (i, act) = some s') : OwnInv cfg s' := by
  have hstep := next_cases hs
  refine ⟨holds_step h hstep, tables_step h hstep, events_step h hstep, fun j => ?_,
    freed_step h hstep⟩
  by_cases hj : j = i
  · subst hj
    exact pcOk_self h hstep hreuse
  · rw [step_worker hstep hj]
    exact pcOk_other h hstep hreuse hj

theorem ownInv_reachable {C : Server ι → ι × Act → Prop}
    (hC : ∀ s l, C s l → cfg.passing = .byReference → NoReuse s l)
    (h : (machine cfg).ReachableVia C s) : OwnInv cfg s := by
  refine Machine.ReachableVia.invariant ?_ ?_ h
  · intro s hinit
    subst hinit
    exact ownInv_start cfg
  · rintro s ⟨i, act⟩ s' _ hi hc hs
    exact ownInv_step hi (hC s (i, act) hc) hs

end TcpServers.Server
