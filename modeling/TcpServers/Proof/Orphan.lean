import TcpServers.Proof.OwnershipStep

/-!
# No connection is forgotten

A connection that no worker holds and whose event cannot be delivered is lost to
the server. The ways out of a worker's hands are the re-arms and the end of
`closeConnection`; every other exit loses the connection, and the code has three:
an event with `EPOLLHUP` is skipped, a `read()` that returns `0` leads past both
loops, and so does a flag that another worker's `reset()` takes down. A `close`
that hits a foreign descriptor is the fourth way to lose one.
-/

namespace TcpServers.Server

open Lib ConnectionDataManager

variable {ι : Type} {cfg : Config ι} {s s' : Server ι} {i j : ι} {act : Act}

/-- Accepted, and past the statements that register it. -/
def Registered (s : Server ι) (c : Nat) : Prop :=
  c < s.nextConn ∧ ∀ i fd ptr, (s.worker i).pc ≠ .insert fd c ∧ (s.worker i).pc ≠ .add fd ptr c

/-- In the fetched batch of a worker, in its handler, or in its `closeConnection`. -/
def InHand (w : Worker) (c : Nat) : Prop :=
  (∃ ev ∈ w.batch, ev.file = .conn c) ∨ (∃ p pc, w.pc = .handle p (.conn c) pc)
    ∨ ∃ p v pc, w.pc = .close p v (.conn c) pc

/-- Armed in epoll for `EPOLLIN` or `EPOLLOUT`. -/
def ArmedInOut (s : Server ι) (c : Nat) : Prop :=
  ∃ ep fd reg, s.interest ep fd = some reg ∧ reg.armed = true ∧ s.fdTable fd = some (.conn c)
    ∧ (reg.mask.epollin = true ∨ reg.mask.epollout = true)

/-- Closed, and out of the manager. -/
def Released (s : Server ι) (c : Nat) : Prop :=
  (∀ fd, s.fdTable fd ≠ some (.conn c)) ∧ ∀ fd e, s.data.lookup fd = some e → e.file ≠ .conn c

/-- Every `epoll_ctl` succeeds. -/
def EpollCtlSucceeds (_ : Server ι) : ι × Act → Prop
  | (_, .epollAdd (some _)) => False
  | (_, .handle (.epollCtl (some _))) => False
  | _ => True

/-- The data a worker resets after its re-arm. -/
def resettingAt : WorkerPc → Option Addr
  | .handle p _ pc => if pastRearm pc then some p else none
  | _ => none

/--
A step that takes none of the exits: no `read()` returns `0`, no event of a
connection is skipped, and none is delivered while its data are being reset.
-/
def NoneDropped (cfg : Config ι) (s : Server ι) : ι × Act → Prop
  | (_, .handle (.read (.data []))) => False
  | (i, .take) =>
      ∀ ev ∈ (s.worker i).batch.head?, ev.file.conn? = none ∨ dispatch ev.flags ≠ .skip
  | (i, .deliver fd _) =>
      ∀ j, resettingAt (s.worker j).pc = none
        ∨ resettingAt (s.worker j).pc ≠ (s.interest (cfg.epollFd i) fd).bind Registration.ptr
  | _ => True

/-- The runs in which no connection is forgotten. -/
def Careful (cfg : Config ι) (s : Server ι) (l : ι × Act) : Prop :=
  EpollCtlSucceeds s l ∧ NoReuse s l ∧ NoneDropped cfg s l

instance (s : Server ι) : (l : ι × Act) → Decidable (EpollCtlSucceeds s l)
  | (_, .epollAdd (some _)) | (_, .handle (.epollCtl (some _))) => isFalse id
  | (_, .epollAdd none) | (_, .handle (.epollCtl none)) | (_, .handle .quiet)
  | (_, .handle (.read _)) | (_, .handle (.write _)) | (_, .deliver _ _) | (_, .wake) | (_, .take)
  | (_, .accept4 _) | (_, .insert _) | (_, .allocate _ _) | (_, .closeConnection) =>
      isTrue trivial

instance {n : Nat} (cfg : Config (Fin n)) (s : Server (Fin n)) :
    (l : Fin n × Act) → Decidable (NoneDropped cfg s l)
  | (_, .handle (.read (.data []))) => isFalse id
  | (i, .take) => inferInstanceAs (Decidable (∀ ev ∈ (s.worker i).batch.head?,
      ev.file.conn? = none ∨ dispatch ev.flags ≠ .skip))
  | (i, .deliver fd _) => inferInstanceAs (Decidable (∀ j, resettingAt (s.worker j).pc = none
      ∨ resettingAt (s.worker j).pc ≠ (s.interest (cfg.epollFd i) fd).bind Registration.ptr))
  | (_, .handle (.read (.data (_ :: _)))) | (_, .handle (.read (.fail _))) | (_, .handle .quiet)
  | (_, .handle (.write _)) | (_, .handle (.epollCtl _)) | (_, .wake) | (_, .accept4 _)
  | (_, .insert _) | (_, .allocate _ _) | (_, .epollAdd _) | (_, .closeConnection) =>
      isTrue trivial

instance {n : Nat} (cfg : Config (Fin n)) (s : Server (Fin n)) (l : Fin n × Act) :
    Decidable (Careful cfg s l) :=
  inferInstanceAs (Decidable (_ ∧ _))

/-- Held, armed or released. -/
def Covered (s : Server ι) (c : Nat) : Prop :=
  (∃ i, c ∈ holds (s.worker i)) ∨ Armed s c ∨ Released s c

/-- What the careful runs keep, on top of `OwnInv`. -/
structure KeptInv (s : Server ι) : Prop where
  covered : ∀ c, c < s.nextConn → Covered s c
  /-- A worker comes to the write loop with the flag up. -/
  ready : ∀ i p f, (s.worker i).pc = .handle p f .testWrite → (s.mem p).readyForWrite = true
  /-- Data are reset while nobody holds the connection. -/
  resets : ∀ i p, resettingAt (s.worker i).pc = some p →
    ∃ c fd, s.data.lookup fd = some ⟨p, .conn c⟩ ∧ ∀ j, c ∉ holds (s.worker j)

theorem mem_holds {w : Worker} {c : Nat} :
    c ∈ holds w ↔ atWork w.pc = some c ∨ ∃ ev ∈ w.batch, ev.file = .conn c := by
  have hfile : ∀ f : File, f.conn? = some c ↔ f = .conn c := by
    intro f
    cases f with
    | listener ep => simp [File.conn?]
    | conn d => simp [File.conn?]
  simp only [holds, List.mem_append, Option.mem_toList, List.mem_filterMap, hfile]

/-- With the tables in order, a closed connection is out of the manager. -/
theorem Tables.released (h : Tables cfg s) {c : Nat} (hc : ∀ fd, s.fdTable fd ≠ some (.conn c)) :
    Released s c := by
  refine ⟨hc, fun fd e hl he => ?_⟩
  have hopen := (h.entry fd e hl).1
  rw [he] at hopen
  exact hc fd hopen

/-- What is held by a worker that is not registering it is in its hands. -/
theorem inHand_of_holds {c : Nat} (hreg : Registered s c) (hc : c ∈ holds (s.worker i)) :
    InHand (s.worker i) c := by
  rcases mem_holds.mp hc with hat | hev
  · cases hpc : (s.worker i).pc with
    | insert fd d =>
        rw [hpc] at hat
        cases hat
        exact absurd hpc (hreg.2 i fd none).1
    | add fd ptr d =>
        rw [hpc] at hat
        cases hat
        exact absurd hpc (hreg.2 i fd ptr).2
    | handle p f pc =>
        rw [hpc] at hat
        cases f with
        | listener ep => simp [atWork, File.conn?] at hat
        | conn d =>
            have hcd : d = c := by
              simp only [atWork, File.conn?] at hat
              split at hat
              · cases hat
              · exact Option.some.inj hat
            subst hcd
            exact Or.inr (Or.inl ⟨p, pc, hpc⟩)
    | close p v f pc =>
        rw [hpc] at hat
        cases f with
        | listener ep => cases pc <;> cases hat
        | conn d =>
            cases pc with
            | store => cases hat
            | _ =>
                cases hat
                exact Or.inr (Or.inr ⟨p, v, _, hpc⟩)
    | _ =>
        rw [hpc] at hat
        cases hat
  · exact Or.inl hev

theorem Tables.armedInOut (h : Tables cfg s) {c : Nat} (ha : Armed s c) : ArmedInOut s c := by
  obtain ⟨ep, fd, reg, hr, harmed, hf⟩ := ha
  refine ⟨ep, fd, reg, hr, harmed, hf, ?_⟩
  rcases h.mask ep fd reg c hr hf with hm | ⟨isRead, hm⟩
  · rw [hm]
    exact Or.inl rfl
  · rw [hm]
    cases isRead with
    | true => exact Or.inl rfl
    | false => exact Or.inr rfl

/-- Unless it is skipped, an event of a connection leads to work for that connection. -/
theorem OwnInv.atWork_dispatched (h : OwnInv cfg s) {ev : Event} {p : Addr} {c : Nat}
    (hev : ev ∈ (s.worker i).batch) (hptr : ev.ptr = some p) (hfile : ev.file = .conn c)
    (hskip : dispatch ev.flags ≠ .skip) : atWork (s.dispatched cfg i ev p) = some c := by
  obtain ⟨a, ha, hl⟩ := (h.events i ev hev).entry
  rw [hptr] at ha
  cases ha
  obtain ⟨hopen, hfd⟩ := h.tables.entry ev.fd _ hl
  have hne : (s.mem p).connFd ≠ cfg.listenFd (cfg.epollFd i) := by
    intro heq
    have hlisten := (h.tables.listening _ (cfg.epollFd_mem i)).1
    rw [← heq, hfd, hopen, hfile] at hlisten
    cases hlisten
  unfold dispatched
  rw [if_neg hne]
  cases hd : dispatch ev.flags with
  | skip => exact absurd hd hskip
  | close => simp [atWork, hfile, File.conn?]
  | handle => simp [atWork, hfile, File.conn?, pastRearm]

/-- Closing the descriptor of a connection releases it. -/
theorem closed_released (h : OwnInv cfg s) (ht : Tables cfg s') {v : Fd} {c : Nat}
    (hopen : s.fdTable v = some (.conn c))
    (hs' : s'.fdTable = (s.closeFd v).fdTable) : Released s' c := by
  refine ht.released (fun fd hf => ?_)
  rw [hs', closeFd_fdTable] at hf
  obtain ⟨hfd, hf⟩ := Table.of_remove hf
  exact hfd (h.tables.fd_unique _ _ _ hf hopen)

/-- The worker that handles an element is the one that holds its connection. -/
theorem KeptInv.handler_unique (hk : KeptInv s) (h : OwnInv cfg s) {p : Addr} {f g : File}
    {pc : HandlerPc} (hi : (s.worker i).pc = .handle p f pc)
    (hj : (s.worker j).pc = .handle p g .testWrite) : i = j := by
  obtain ⟨d, fd, _, hl, _, _, hat⟩ := h.handling hj rfl
  by_cases hpast : pastRearm pc = false
  · obtain ⟨c, fd', _, hl', _, _, hat'⟩ := h.handling hi hpast
    cases (h.tables.element_unique hl hl').2
    exact h.atWork_unique hat' hat
  · have hres : resettingAt (s.worker i).pc = some p := by
      rw [hi]
      simpa [resettingAt] using hpast
    obtain ⟨c, fd', hl', hun⟩ := hk.resets i p hres
    cases (h.tables.element_unique hl hl').2
    exact absurd (mem_holds_atWork hat) (hun j)

theorem keptInv_start (cfg : Config ι) : KeptInv (start cfg) where
  covered := fun c hc => absurd hc (Nat.not_lt_zero c)
  ready := by
    intro i p f hpc
    cases hpc
  resets := by
    intro i p hr
    cases hr

variable [DecidableEq ι]

/-! ## What is held stays covered -/

/-- The event of a connection in a batch stays there, or the worker turns to it, or skips it. -/
theorem event_kept (h : OwnInv cfg s) (hs : Step cfg s i act s') {ev : Event} {c : Nat}
    (hev : ev ∈ (s.worker i).batch) (hfile : ev.file = .conn c) :
    c ∈ holds (s'.worker i)
      ∨ (act = .take ∧ (s.worker i).batch.head? = some ev ∧ dispatch ev.flags = .skip) := by
  cases hs with
  | @take ev' rest p hpc hbatch hptr =>
      by_cases hskip : ev = ev' ∧ dispatch ev.flags = .skip
      · exact Or.inr ⟨rfl, by rw [hbatch, hskip.1]; rfl, hskip.2⟩
      · have hev' := hev
        rw [hbatch] at hev
        refine Or.inl (mem_holds.mpr ?_)
        simp only [setWorker_worker, Function.update_self]
        rcases List.mem_cons.mp hev with rfl | hrest
        · exact Or.inl (h.atWork_dispatched hev' hptr hfile (fun hd => hskip ⟨rfl, hd⟩))
        · exact Or.inr ⟨ev, hrest, hfile⟩
  | deliver hpc _ _ _ =>
      refine Or.inl (mem_holds.mpr (Or.inr ⟨ev, ?_, hfile⟩))
      simp only [setWorker_worker, Function.update_self]
      exact List.mem_append_left _ hev
  | _ => exact Or.inl (mem_holds.mpr (Or.inr ⟨ev, by simpa using hev, hfile⟩))

/-- Where no event is skipped, a connection in a batch stays held. -/
theorem event_covered (h : OwnInv cfg s) (hc : NoneDropped cfg s (i, act))
    (hs : Step cfg s i act s') {ev : Event} {c : Nat} (hev : ev ∈ (s.worker i).batch)
    (hfile : ev.file = .conn c) : c ∈ holds (s'.worker i) := by
  rcases event_kept h hs hev hfile with hheld | ⟨rfl, hhead, hskip⟩
  · exact hheld
  · rcases hc ev hhead with hnone | hne
    · rw [hfile] at hnone
      cases hnone
    · exact absurd hskip hne

/-- A statement of the handler that returns without a re-arm is one of the exits. -/
theorem handled_atWork {pc : HandlerPc} {cd : ConnectionData} {errno : Errno} {a : Answer}
    {out : HandlerOut} (hstep : HandlerStep cd errno pc a out) {p : Addr} {f : File} {c : Nat}
    (hat : atWork (.handle p f pc) = some c) (hready : pc = .testWrite → cd.readyForWrite = true)
    (hmod : pc.rearm? = none ∨ a ≠ .epollCtl none) (hctl : ∀ e, a ≠ .epollCtl (some e)) :
    atWork (afterHandler p f out.pc) = some c := by
  cases hstep with
  | resetReadIndex | resetWriteIndex | resetReady => cases hat
  | nothingToWrite hb =>
      rw [hready rfl] at hb
      cases hb
  | @readFailRearm r | @echoedRearm r | @blockedRearm r | @writeFailRearm r =>
      cases r with
      | none =>
          rcases hmod with hnone | hne
          · cases hnone
          · exact absurd rfl hne
      | some e => exact absurd rfl (hctl e)
  | _ => exact hat

/-- **What a worker is at work for stays covered.** -/
theorem atWork_covered (h : OwnInv cfg s) (hk : KeptInv s) (ht : Tables cfg s')
    (hc : EpollCtlSucceeds s (i, act)) (hs : Step cfg s i act s') {c : Nat}
    (hat : atWork (s.worker i).pc = some c) : Covered s' c := by
  have hok := h.pcs i
  have hheld : atWork (s'.worker i).pc = some c → Covered s' c :=
    fun hat' => Or.inl ⟨i, mem_holds.mpr (Or.inl hat')⟩
  cases hs with
  | deliver hpc _ _ _ | wake hpc | endBatch hpc _ | take hpc _ _ | accepted hpc _ _
  | acceptFailed hpc | closeStore hpc =>
      rw [hpc] at hat
      cases hat
  | inserted hpc _ _ | insertedNull hpc _ _ | closeTest hpc _ | closeRemove hpc | closeDel hpc =>
      refine hheld ?_
      rw [hpc] at hat
      simpa [atWork] using hat
  | addFailed hpc => exact absurd hc id
  | allocated => exact hheld hat
  | @added fd ptr d hpc hnew hopen =>
      rw [hpc] at hok hat
      cases hat
      obtain ⟨⟨a, _, hl⟩, _⟩ := hok
      refine Or.inr (Or.inl ⟨cfg.epollFd i, fd, ⟨acceptMask, ptr, true⟩, ?_, rfl,
        (h.tables.entry fd _ hl).1⟩)
      exact if_pos ⟨rfl, rfl⟩
  | @handled p f pc a out hpc hstep hmod =>
      refine hheld ?_
      rw [hpc] at hat
      simp only [handled_worker, Function.update_self]
      refine handled_atWork hstep hat (fun htw => ?_) hmod (fun e he => ?_)
      · subst htw
        exact hk.ready i p f hpc
      · subst he
        exact hc
  | @rearmed p f pc out isRead reg hpc hstep hrearm hreg =>
      obtain ⟨d, fd, rfl, hl, hopen, hfd, hat'⟩ := h.handling hpc (pastRearm_of_rearm hrearm)
      rw [hat] at hat'
      cases hat'
      refine Or.inr (Or.inl ⟨cfg.epollFd i, fd, ⟨rearmMask isRead, some p, true⟩, ?_, rfl, hopen⟩)
      rw [setInterest_interest]
      exact if_pos ⟨rfl, hfd.symm⟩
  | @closeNegative p v f hpc hneg =>
      have hv := h.connFd_eq hpc
      rw [hpc] at hok
      obtain ⟨d, rfl, hl⟩ := hok
      have h0 := (h.tables.conn v d (h.tables.entry v _ hl).1).1
      rw [hv] at hneg
      exact absurd hneg (Int.not_lt.mpr h0)
  | @closeClose p v f hpc =>
      have hv := h.connFd_eq hpc
      rw [hpc] at hok hat
      obtain ⟨d, rfl, hopen, _⟩ := hok
      cases hat
      refine Or.inr (Or.inr (closed_released h ht hopen ?_))
      rw [hv]
      rfl

/-- **An armed connection stays covered**: its event is delivered, or nothing happens to it. -/
theorem armed_covered (h : OwnInv cfg s) (hs : Step cfg s i act s') {ep : Ep} {fd : Fd}
    {reg : Registration} {c : Nat} (hr : s.interest ep fd = some reg) (ha : reg.armed = true)
    (hf : s.fdTable fd = some (.conn c)) : Covered s' c := by
  have harmed : Armed s c := ⟨ep, fd, reg, hr, ha, hf⟩
  have hnot : atWork (s.worker i).pc ≠ some c :=
    fun hat => h.holds.taken i c (mem_holds_atWork hat) harmed
  rcases step_interest hs hr ha with ⟨reg', hr', ha'⟩ | ⟨flags, rfl, rfl⟩ |
    ⟨p, v, f, cpc, hpc, hne, hv⟩
  · rcases h.open_stays hs hf with hf' | ⟨d, hd, hat, _⟩
    · exact Or.inr (Or.inl ⟨ep, fd, reg', hr', ha', hf'⟩)
    · cases hd
      exact absurd hat hnot
  · cases hs with
    | @deliver _ _ reg' file hpc hreg hfile _ =>
        rw [hf] at hfile
        cases hfile
        refine Or.inl ⟨i, mem_holds.mpr (Or.inr ⟨⟨flags, reg'.ptr, fd, .conn c⟩, ?_, rfl⟩)⟩
        simp only [setWorker_worker, Function.update_self]
        exact List.mem_append_right _ (List.mem_singleton.mpr rfl)
  · -- a worker in `closeConnection` reads its own descriptor
    have hconn : f = .conn c := by
      have hopen := h.closing_fd hpc hne
      rw [hv, hf] at hopen
      exact (Option.some.inj hopen).symm
    subst hconn
    refine absurd ?_ hnot
    rw [hpc]
    cases cpc with
    | store => exact absurd rfl hne
    | _ => rfl

/-! ## The invariant -/

/-- **Every accepted connection stays covered.** -/
theorem covered_step (h : OwnInv cfg s) (hk : KeptInv s) (ht : Tables cfg s')
    (hc : Careful cfg s (i, act)) (hs : Step cfg s i act s') (c : Nat) (hlt : c < s'.nextConn) :
    Covered s' c := by
  by_cases hnew : s.nextConn ≤ c
  · -- the connection `accept4` has just made
    cases hs with
    | @accepted fd hpc h0 hfresh =>
        have hcn : c = s.nextConn := by
          simp only [setPc_nextConn] at hlt
          omega
        subst hcn
        exact Or.inl ⟨i, mem_holds.mpr (Or.inl (by simp [atWork]))⟩
    | _ => exact absurd hlt (Nat.not_lt.mpr hnew)
  · rcases hk.covered c (Nat.lt_of_not_le hnew) with ⟨j, hj⟩ | ⟨ep, fd, reg, hr, ha, hf⟩ | hrel
    · by_cases hji : j = i
      · subst hji
        rcases mem_holds.mp hj with hat | ⟨ev, hev, hfile⟩
        · exact atWork_covered h hk ht hc.1 hs hat
        · exact Or.inl ⟨j, event_covered h hc.2.2 hs hev hfile⟩
      · exact Or.inl ⟨j, by rw [step_worker hs hji]; exact hj⟩
    · exact armed_covered h hs hr ha hf
    · refine Or.inr (Or.inr (ht.released (fun fd hf => ?_)))
      rcases step_fdTable_back hs hf with hold | ⟨_, hcn, _⟩
      · exact hrel.1 fd hold
      · cases hcn
        exact hnew (Nat.le_refl _)

/-- **The write loop is entered with the flag up.** -/
theorem ready_step (h : OwnInv cfg s) (hk : KeptInv s) (hc : Careful cfg s (i, act))
    (hs : Step cfg s i act s') (j : ι) (p : Addr) (f : File)
    (hpc : (s'.worker j).pc = .handle p f .testWrite) : (s'.mem p).readyForWrite = true := by
  by_cases hj : j = i
  · subst hj
    rcases step_to_handle hs hpc with ⟨_, _, _, _, _, htest, _⟩ |
      ⟨pc₀, a, out, _, heff, hout⟩ | ⟨q, cd, halloc⟩
    · cases htest
    · have hact := heff.act_eq
      have hstep := heff.step
      subst hact
      rw [heff.mem]
      cases hstep with
      | resume hb => exact hb
      | endOfStream => exact absurd hc.2.2 id
      | setReady => rfl
      | _ => cases hout
    · rw [halloc.worker] at hpc
      obtain ⟨c, fd, _, hl, _⟩ := h.handling hpc rfl
      rw [halloc.mem ⟨fd, _, hl, rfl⟩]
      exact hk.ready j p f hpc
  · rw [step_worker hs hj] at hpc
    have hold := hk.ready j p f hpc
    obtain ⟨c, fd, _, hl, _⟩ := h.handling hpc rfl
    rcases step_ready hs p with heq | htakes | ⟨g, pc, hpc'⟩
    · rw [heq, hold]
    · exact absurd ⟨fd, _, hl, rfl⟩ (step_takes_free hs htakes)
    · exact absurd (hk.handler_unique h hpc' hpc).symm hj

theorem resettingAt_eq {pc : WorkerPc} {p : Addr} (h : resettingAt pc = some p) :
    ∃ f hpc, pc = .handle p f hpc ∧ pastRearm hpc = true := by
  unfold resettingAt at h
  split at h
  · rename_i q f hpc
    split at h
    · rename_i hpast
      cases h
      exact ⟨f, hpc, rfl, hpast⟩
    · cases h
  · cases h

/-- A worker starts to reset data by letting go of the connection. -/
theorem resets_start (h : OwnInv cfg s) (hc : EpollCtlSucceeds s (i, act))
    (hs : Step cfg s i act s') {p : Addr} (hr : resettingAt (s'.worker i).pc = some p) :
    resettingAt (s.worker i).pc = some p
      ∨ ∃ c fd, s.data.lookup fd = some ⟨p, .conn c⟩ ∧ s'.data = s.data
          ∧ ∀ j, c ∉ holds (s'.worker j) := by
  obtain ⟨f, pc, hpc, hpast⟩ := resettingAt_eq hr
  rcases step_to_handle hs hpc with ⟨_, _, _, _, _, rfl, _⟩ |
    ⟨pc₀, a, out, hold, heff, hout⟩ | ⟨q, cd, halloc⟩
  · cases hpast
  · have hact := heff.act_eq
    have hstep := heff.step
    subst hact
    rw [hold]
    cases hstep with
    | @readFailRearm r =>
        obtain ⟨c, fd, rfl, hl, _, _, hat⟩ := h.handling hold rfl
        cases r with
        | some e => exact absurd hc id
        | none =>
            refine Or.inr ⟨c, fd, hl, heff.data, fun j hj => ?_⟩
            by_cases hji : j = i
            · subst hji
              rw [heff.worker] at hj
              refine h.released hat ?_ ?_ hj
              · rfl
              · rfl
            · rw [step_worker hs hji] at hj
              exact hji (h.holds.unique j i c hj (mem_holds_atWork hat))
    | resetReadIndex | resetWriteIndex => exact Or.inl rfl
    | resetReady | nothingToWrite | echoedRearm | blockedRearm | writeFailRearm => cases hout
    | _ =>
        cases hout
        cases hpast
  · rw [halloc.worker] at hr
    exact Or.inl hr

/-- **Data are only reset while nobody holds the connection.** -/
theorem resets_step (h : OwnInv cfg s) (hk : KeptInv s) (hc : Careful cfg s (i, act))
    (hs : Step cfg s i act s') (j : ι) (p : Addr)
    (hr : resettingAt (s'.worker j).pc = some p) :
    ∃ c fd, s'.data.lookup fd = some ⟨p, .conn c⟩ ∧ ∀ k, c ∉ holds (s'.worker k) := by
  have hold : resettingAt (s.worker j).pc = some p →
      ∃ c fd, s'.data.lookup fd = some ⟨p, .conn c⟩ ∧ ∀ k, c ∉ holds (s'.worker k) := by
    intro hres
    obtain ⟨c, fd, hl, hun⟩ := hk.resets j p hres
    have hopen := (h.tables.entry fd _ hl).1
    refine ⟨c, fd, ?_, h.unheld_stays hs hopen hun ?_⟩
    · rcases h.lookup_stays hs hl with hl' | ⟨d, _, _, _, he, hat, _⟩
      · exact hl'
      · cases he
        exact absurd (mem_holds_atWork hat) (hun i)
    · intro flags reg hact hreg
      subst hact
      by_contra harmed
      obtain ⟨e, hl', hptr⟩ := h.tables.armed _ fd reg hreg (by simpa using harmed)
      rw [hl] at hl'
      cases hl'
      rcases hc.2.2 j with hnone | hne
      · rw [hres] at hnone
        cases hnone
      · rw [hres, hreg] at hne
        exact hne hptr.symm
  by_cases hj : j = i
  · subst hj
    rcases resets_start h hc.1 hs hr with hres | ⟨c, fd, hl, hdata, hun⟩
    · exact hold hres
    · exact ⟨c, fd, by rw [hdata]; exact hl, hun⟩
  · rw [step_worker hs hj] at hr
    exact hold hr

theorem keptInv_step (h : OwnInv cfg s) (hk : KeptInv s) (hc : Careful cfg s (i, act))
    (hs : Step cfg s i act s') : KeptInv s' where
  covered := covered_step h hk (tables_step h hs) hc hs
  ready := ready_step h hk hc hs
  resets := resets_step h hk hc hs

theorem keptInv_reachable (h : (machine cfg).ReachableVia (Careful cfg) s) : KeptInv s := by
  refine Machine.ReachableVia.invariant ?_ ?_ h
  · intro s hinit
    subst hinit
    exact keptInv_start cfg
  · intro s l s' hr hk hc hs
    have hi : OwnInv cfg s := ownInv_reachable (fun _ _ hc _ => hc.2.1) hr
    exact keptInv_step hi hk hc (next_cases hs)

/--
**No orphaned connection.** In a run whose steps are careful, every registered
connection is in the hands of a worker, armed for reading or writing, or closed
and out of the manager.
-/
theorem no_orphan (h : (machine cfg).ReachableVia (Careful cfg) s) {c : Nat}
    (hc : Registered s c) : (∃ i, InHand (s.worker i) c) ∨ ArmedInOut s c ∨ Released s c := by
  have hinv : OwnInv cfg s := ownInv_reachable (fun _ _ hc _ => hc.2.1) h
  rcases (keptInv_reachable h).covered c hc.1 with ⟨i, hi⟩ | ha | hr
  · exact Or.inl ⟨i, inHand_of_holds hc hi⟩
  · exact Or.inr (Or.inl (hinv.tables.armedInOut ha))
  · exact Or.inr (Or.inr hr)

/-- One byte arrives, is echoed, and the worker goes back to wait. -/
def oneEcho : List (Fin 2 × Act) :=
  acceptOne worker0 7 1
    ++ [(worker1, .deliver 7 { epollin := true }), (worker1, .wake), (worker1, .take),
      (worker1, .handle .quiet), (worker1, .handle (.read (.data [104]))),
      (worker1, .handle .quiet), (worker1, .handle .quiet),
      (worker1, .handle (.read (.fail .eagain))), (worker1, .handle .quiet),
      (worker1, .handle .quiet), (worker1, .handle (.write (.wrote 1))), (worker1, .handle .quiet),
      (worker1, .handle .quiet), (worker1, .handle .quiet), (worker1, .handle (.epollCtl none)),
      (worker1, .take)]

theorem registered_of_waiting {n : Nat} {s : Server (Fin n)} {c : Nat} (hc : c < s.nextConn)
    (hpc : ∀ i, (s.worker i).pc = .epollWait) : Registered s c := by
  refine ⟨hc, fun i fd ptr => ?_⟩
  rw [hpc i]
  exact ⟨by simp, by simp⟩

theorem no_orphan_oneEcho :
    ∃ s : Server (Fin 2), Registered s 0
      ∧ ((∃ i, InHand (s.worker i) 0) ∨ ArmedInOut s 0 ∨ Released s 0) := by
  have hval : ((machine (shared 2 .byReference)).run (start (shared 2 .byReference)) oneEcho).map
      (fun s => (s.nextConn, decide (∀ i, (s.worker i).pc = .epollWait))) = some (1, true) := by
    decide +kernel
  obtain ⟨s, hrun, heq⟩ := Option.map_eq_some_iff.mp hval
  obtain ⟨hn, hpc⟩ := Prod.mk.inj heq
  have hr : (machine (shared 2 .byReference)).ReachableVia (Careful (shared 2 .byReference)) s :=
    .of_run (.init rfl) (by decide +kernel) hrun
  have hreg : Registered s 0 := registered_of_waiting (by omega) (of_decide_eq_true hpc)
  exact ⟨s, hreg, no_orphan hr hreg⟩

/-- A connection can be open, disarmed and held by nobody. -/
theorem orphaned :
    ¬ ∀ (ι : Type) [DecidableEq ι] (cfg : Config ι) (s : Server ι),
        (machine cfg).ReachableVia EpollCtlSucceeds s → ∀ c, Registered s c →
          (∃ i, InHand (s.worker i) c) ∨ ArmedInOut s c ∨ Released s c := by
  intro hall
  have hval : ((machine (shared 2 .byReference)).run (start (shared 2 .byReference))
      halfClosed).map (fun s => (s.nextConn, s.fdTable 7, (s.interest 0 7).map Registration.armed,
        decide (∀ i, (s.worker i).pc = .epollWait ∧ (s.worker i).batch = [])))
      = some (1, some (.conn 0), some false, true) := by decide +kernel
  obtain ⟨s, hrun, heq⟩ := Option.map_eq_some_iff.mp hval
  simp only [Prod.mk.injEq, decide_eq_true_eq] at heq
  obtain ⟨hn, hf, harm, hw⟩ := heq
  have hr : (machine (shared 2 .byReference)).ReachableVia EpollCtlSucceeds s :=
    .of_run (.init rfl) (by decide +kernel) hrun
  have hinv : OwnInv (shared 2 .byReference) s :=
    ownInv_reachable (fun _ _ hc _ => hc)
      (.of_run (C := NoReuse) (.init rfl) (by decide +kernel) hrun)
  have hreg : Registered s 0 := registered_of_waiting (by omega) (fun i => (hw i).1)
  rcases hall (Fin 2) _ s hr 0 hreg with ⟨i, ⟨ev, hev, _⟩ | ⟨p, pc, hpc⟩ | ⟨p, v, pc, hpc⟩⟩ |
    ⟨ep, fd, reg, hreg, harmed, hfd, _⟩ | hrel
  · rw [(hw i).2] at hev
    cases hev
  · rw [(hw i).1] at hpc
    cases hpc
  · rw [(hw i).1] at hpc
    cases hpc
  · have h7 := hinv.tables.fd_unique _ _ _ hfd hf
    subst h7
    obtain ⟨reg', hreg', hfalse⟩ := Option.map_eq_some_iff.mp harm
    have h0 := hinv.tables.one ep 0 7 (by rw [hreg]; simp) (by rw [hreg']; simp)
    subst h0
    rw [hreg] at hreg'
    cases hreg'
    rw [hfalse] at harmed
    cases harmed
  · exact hrel.1 7 hf

end TcpServers.Server
