import Mathlib.Data.Finset.Card
import Mathlib.Data.Finset.Dedup
import Mathlib.Data.Finset.Range
import TcpServers.Proof.Orphan

/-!
# An end of stream releases nothing

The only way to `closeConnection` is an event with `EPOLLERR` or `EPOLLRDHUP`. No
mask the server installs asks for `EPOLLRDHUP`, and a `read()` that returns `0`
ends the handler without a re-arm, after which no event of the connection can
come at all. So a connection whose end of stream the server has seen keeps its
entry, its registration and its descriptor for good.

What the manager holds is bounded by the listeners and the connections not known
to be closed exactly as long as no end of stream has been seen.
-/

namespace TcpServers.Server

open Lib ConnectionDataManager

variable {ι : Type} {cfg : Config ι} {s s' : Server ι} {i j : ι} {act : Act}

/-- An end of stream with nothing unsent was read, and its event has been handled. -/
def KnownClosed (s : Server ι) (c : Nat) : Prop :=
  s.eof c = true ∧ ∀ i, atWork (s.worker i).pc ≠ some c

/-- Out of the manager, out of epoll, and its descriptor closed exactly once. -/
def ReleasedOnce (s : Server ι) (c : Nat) : Prop :=
  Released s c ∧ (∀ ep fd, s.fdTable fd = some (.conn c) → s.interest ep fd = none)
    ∧ s.closes c = 1

open Classical in
/-- The connections not known to be closed: neither seen to end nor closed by the server. -/
noncomputable def notKnownClosed (s : Server ι) : Finset Nat :=
  (Finset.range s.nextConn).filter (fun c => ¬ KnownClosed s c ∧ s.closes c = 0)

/-- What a peer's close should lead to. -/
structure ReleasesClosed (cfg : Config ι) (s : Server ι) : Prop where
  released : ∀ c, KnownClosed s c → ReleasedOnce s c
  bounded : s.data.keys.length ≤ cfg.eps.length + (notKnownClosed s).card

/-- The statements of the read loop. -/
def reading : HandlerPc → Bool
  | .read => true
  | .addReadIndex _ => true
  | .logReceived => true
  | _ => false

/-- What an end of stream leaves behind. -/
structure EndInv (s : Server ι) : Prop where
  /-- The flag is down in the read loop. -/
  reading : ∀ i p f pc, (s.worker i).pc = .handle p f pc → reading pc = true →
    (s.mem p).readyForWrite = false
  /-- A connection at its end is on its way out of the handler, or out of reach. -/
  ended : ∀ c, s.eof c = true → ∃ fd a, s.data.lookup fd = some ⟨a, .conn c⟩ ∧ ¬ Armed s c
    ∧ ∀ i, c ∈ holds (s.worker i) →
      (s.worker i).pc = .handle a (.conn c) .testWrite ∧ (s.mem a).readyForWrite = false

theorem endInv_start (cfg : Config ι) : EndInv (start cfg) where
  reading := by
    intro i p f pc hpc
    cases hpc
  ended := by
    intro c hc
    cases hc

/-- `reset()` never raises the flag. -/
theorem pastRearm_ready {pc : HandlerPc} {cd : ConnectionData} {errno : Errno} {a : Answer}
    {out : HandlerOut} (h : HandlerStep cd errno pc a out) (hpast : pastRearm pc = true)
    (hready : cd.readyForWrite = false) : out.data.readyForWrite = false := by
  cases h with
  | resetReadIndex | resetWriteIndex => exact hready
  | resetReady => rfl
  | _ => cases hpast

/-- A worker whose connection has ended returns from the handler. -/
theorem testWrite_returns {cd : ConnectionData} {errno : Errno} {a : Answer} {out : HandlerOut}
    (h : HandlerStep cd errno .testWrite a out) (hready : cd.readyForWrite = false) :
    out.pc = none := by
  cases h with
  | startWrite hb =>
      rw [hready] at hb
      cases hb
  | nothingToWrite => rfl

/-! ## What the manager holds -/

/-- Every element is a listener's, or an open connection's. -/
theorem manager_bounded (h : Tables cfg s) (hnone : ∀ c, ¬ KnownClosed s c) :
    s.data.keys.length ≤ cfg.eps.length + (notKnownClosed s).card := by
  classical
  have hfile : ∀ fd ∈ s.data.keys.toFinset,
      s.fdTable fd ∈ (cfg.eps.map (fun ep => some (File.listener ep))).toFinset
        ∪ (notKnownClosed s).image (fun c => some (File.conn c)) := by
    intro fd hfd
    obtain ⟨e, hl⟩ := Option.isSome_iff_exists.mp
      (AList.lookup_isSome.mpr (AList.mem_keys.mpr (List.mem_toFinset.mp hfd)))
    have hopen := (h.entry fd e hl).1
    rw [hopen, Finset.mem_union, List.mem_toFinset, Finset.mem_image]
    cases hf : e.file with
    | listener ep =>
        rw [hf] at hopen
        exact Or.inl (List.mem_map.mpr ⟨ep, (h.listener fd ep hopen).1, rfl⟩)
    | conn c =>
        rw [hf] at hopen
        obtain ⟨_, hlt, hzero⟩ := h.conn fd c hopen
        refine Or.inr ⟨c, ?_, rfl⟩
        exact Finset.mem_filter.mpr ⟨Finset.mem_range.mpr hlt, hnone c, hzero⟩
  have hinj : Set.InjOn s.fdTable (s.data.keys.toFinset : Set Fd) := by
    intro fd hfd fd' _ heq
    obtain ⟨e, hl⟩ := Option.isSome_iff_exists.mp
      (AList.lookup_isSome.mpr (AList.mem_keys.mpr (List.mem_toFinset.mp hfd)))
    have hopen := (h.entry fd e hl).1
    exact h.fd_unique fd fd' _ hopen (heq ▸ hopen)
  calc s.data.keys.length = s.data.keys.toFinset.card :=
        (List.toFinset_card_of_nodup s.data.keys_nodup).symm
    _ ≤ _ := Finset.card_le_card_of_injOn s.fdTable hfile hinj
    _ ≤ _ := Finset.card_union_le _ _
    _ ≤ cfg.eps.length + (notKnownClosed s).card := by
        refine Nat.add_le_add ?_ Finset.card_image_le
        exact (List.toFinset_card_le _).trans (by rw [List.length_map])

/-! ## After an end of stream -/

variable [DecidableEq ι]

/-- The flag of an element whose connection a worker holds is not raised by the others. -/
theorem OwnInv.ready_other (h : OwnInv cfg s) (hs : Step cfg s i act s') (hj : j ≠ i) {p : Addr}
    {fd : Fd} {c : Nat} (hat : atWork (s.worker j).pc = some c)
    (hl : s.data.lookup fd = some ⟨p, .conn c⟩) (hready : (s.mem p).readyForWrite = false) :
    (s'.mem p).readyForWrite = false := by
  rcases step_ready hs p with heq | htakes | ⟨f, pc, hpc⟩
  · rw [heq, hready]
  · exact absurd ⟨fd, _, hl, rfl⟩ (step_takes_free hs htakes)
  · by_cases hpast : pastRearm pc = false
    · obtain ⟨d, fd', _, hl', _, _, hat'⟩ := h.handling hpc hpast
      cases (h.tables.element_unique hl hl').2
      exact absurd (h.atWork_unique hat hat') hj
    · have hpast' : pastRearm pc = true := by simpa using hpast
      rcases step_handle hs hpc with ⟨a, out, heff⟩ | ⟨_, _, halloc⟩
      · rw [heff.mem]
        exact pastRearm_ready heff.step hpast' hready
      · rw [halloc.mem ⟨fd, _, hl, rfl⟩]
        exact hready

theorem pastRearm_of_reading {pc : HandlerPc} (hr : reading pc = true) : pastRearm pc = false := by
  cases pc with
  | resetReadIndex | resetWriteIndex | resetReady => cases hr
  | _ => rfl

/-- **The flag stays down in the read loop.** -/
theorem reading_step (h : OwnInv cfg s) (he : EndInv s) (hs : Step cfg s i act s') (j : ι)
    (p : Addr) (f : File) (pc : HandlerPc) (hpc : (s'.worker j).pc = .handle p f pc)
    (hr : reading pc = true) : (s'.mem p).readyForWrite = false := by
  by_cases hj : j = i
  · subst hj
    rcases step_to_handle hs hpc with ⟨_, _, _, _, _, rfl, _⟩ |
      ⟨pc₀, a, out, hold, heff, hout⟩ | ⟨q, cd, halloc⟩
    · cases hr
    · have hready := he.reading j p f pc₀ hold
      have hstep := heff.step
      rw [heff.mem]
      cases hstep with
      | startRead hb => exact hb
      | chunk | addReadIndex | logReceived => exact hready rfl
      | resetReady | nothingToWrite | echoedRearm | blockedRearm | writeFailRearm => cases hout
      | _ =>
          cases hout
          cases hr
    · rw [halloc.worker] at hpc
      obtain ⟨c, fd, _, hl, _⟩ := h.handling hpc (pastRearm_of_reading hr)
      rw [halloc.mem ⟨fd, _, hl, rfl⟩]
      exact he.reading j p f pc hpc hr
  · rw [step_worker hs hj] at hpc
    have hpast := pastRearm_of_reading hr
    obtain ⟨c, fd, _, hl, _, _, hat⟩ := h.handling hpc hpast
    exact h.ready_other hs hj hat hl (he.reading j p f pc hpc hr)

/-- **A connection at its end stays there.** -/
theorem ended_stays (h : OwnInv cfg s) (he : EndInv s) (hs : Step cfg s i act s') {c : Nat}
    (hc : s.eof c = true) :
    ∃ fd a, s'.data.lookup fd = some ⟨a, .conn c⟩ ∧ ¬ Armed s' c
      ∧ ∀ k, c ∈ holds (s'.worker k) →
        (s'.worker k).pc = .handle a (.conn c) .testWrite ∧ (s'.mem a).readyForWrite = false := by
  obtain ⟨fd, a, hl, hna, hheld⟩ := he.ended c hc
  have hopen := (h.tables.entry fd _ hl).1
  -- the worker that moves, if it holds the connection, is about to return from the handler
  have hat : ∀ k, atWork (s.worker k).pc = some c →
      (s.worker k).pc = .handle a (.conn c) .testWrite :=
    fun k hk => (hheld k (mem_holds_atWork hk)).1
  refine ⟨fd, a, ?_, fun ha => ?_, fun k hk => ?_⟩
  · rcases h.lookup_stays hs hl with hl' | ⟨d, p, v, f, hd, hatd, hpc⟩
    · exact hl'
    · cases hd
      rw [hat i hatd] at hpc
      cases hpc
  · rcases h.armed_back hs ha with hold | ⟨hatc, _, _, hrearm⟩
    · exact hna hold
    · exact hrearm _ _ _ (hat i hatc) rfl
  · by_cases hki : k = i
    · subst hki
      rcases holds_grows hs hk with hold | ⟨fd', _, reg, _, hreg, harmed, hf⟩ | rfl
      · obtain ⟨hpc, hready⟩ := hheld k hold
        have hatk : atWork (s.worker k).pc = some c := by rw [hpc]; rfl
        rcases step_handle hs hpc with ⟨_, out, heff⟩ | ⟨_, _, halloc⟩
        · rw [heff.worker, testWrite_returns heff.step hready] at hk
          refine absurd hk (h.released hatk ?_ ?_)
          · rfl
          · rfl
        · rw [halloc.worker, halloc.mem ⟨fd, _, hl, rfl⟩]
          exact ⟨hpc, hready⟩
      · exact absurd ⟨_, fd', reg, hreg, harmed, hf⟩ hna
      · exact absurd (h.tables.conn _ _ hopen).2.1 (Nat.lt_irrefl _)
    · rw [step_worker hs hki] at hk ⊢
      obtain ⟨hpc, hready⟩ := hheld k hk
      have hatk : atWork (s.worker k).pc = some c := by rw [hpc]; rfl
      exact ⟨hpc, h.ready_other hs hki hatk hl hready⟩

/-- **A connection comes to its end** in the hands of a worker that is about to return. -/
theorem ended_new (h : OwnInv cfg s) (he : EndInv s) (hs : Step cfg s i act s') {p : Addr}
    {c : Nat} (hact : act = .handle (.read (.data [])))
    (hpc : (s.worker i).pc = .handle p (.conn c) .read)
    (hpc' : (s'.worker i).pc = .handle p (.conn c) .testWrite) :
    ∃ fd a, s'.data.lookup fd = some ⟨a, .conn c⟩ ∧ ¬ Armed s' c
      ∧ ∀ k, c ∈ holds (s'.worker k) →
        (s'.worker k).pc = .handle a (.conn c) .testWrite ∧ (s'.mem a).readyForWrite = false := by
  obtain ⟨d, fd, hd, hl, _, _, hat⟩ := h.handling hpc rfl
  cases hd
  have hready := he.reading i p _ _ hpc rfl
  have hheld : c ∈ holds (s.worker i) := mem_holds_atWork hat
  refine ⟨fd, p, ?_, fun ha => ?_, fun k hk => ?_⟩
  · rcases h.lookup_stays hs hl with hl' | ⟨_, _, _, _, _, _, hrem⟩
    · exact hl'
    · rw [hpc] at hrem
      cases hrem
  · rcases h.armed_back hs ha with hold | ⟨_, _, _, hrearm⟩
    · exact h.holds.taken i c hheld hold
    · exact hrearm _ _ _ hpc rfl
  · have hki : k = i := by
      by_contra hki
      rw [step_worker hs hki] at hk
      exact hki (h.holds.unique k i c hk hheld)
    subst hki
    refine ⟨hpc', ?_⟩
    rcases step_handle hs hpc with ⟨a, out, heff⟩ | ⟨_, _, halloc⟩
    case inr =>
      rw [hact] at halloc
      cases halloc.act_eq
    have hread := heff.act_eq
    have hstep := heff.step
    rw [hact] at hread
    cases hread
    rw [heff.mem]
    cases hstep with
    | endOfStream => exact hready
    | chunk => exact hready

theorem endInv_step (h : OwnInv cfg s) (he : EndInv s) (hs : Step cfg s i act s') :
    EndInv s' where
  reading := reading_step h he hs
  ended := by
    intro c hc
    rcases step_eof hs hc with hold | ⟨p, hact, hpc, hpc'⟩
    · exact ended_stays h he hs hold
    · exact ended_new h he hs hact hpc hpc'

theorem endInv_reachable (h : (machine cfg).ReachableVia NoReuse s) : EndInv s := by
  refine Machine.ReachableVia.invariant ?_ ?_ h
  · intro s hinit
    subst hinit
    exact endInv_start cfg
  · intro s l s' hr he hc hs
    have hi : OwnInv cfg s := ownInv_reachable (fun _ _ hc _ => hc) hr
    exact endInv_step hi he (next_cases hs)

/-! ## What the kernel reports -/

/-- The kernel reports `EPOLLRDHUP` only where the mask asks for it. -/
def KernelReports (cfg : Config ι) (s : Server ι) : ι × Act → Prop
  | (i, .deliver fd flags) =>
      ∀ reg ∈ s.interest (cfg.epollFd i) fd,
        flags.epollrdhup = true → reg.mask.epollrdhup = true
  | _ => True

instance (s : Server ι) : (l : ι × Act) → Decidable (KernelReports cfg s l)
  | (i, .deliver fd flags) => inferInstanceAs (Decidable (∀ reg ∈ s.interest (cfg.epollFd i) fd,
      flags.epollrdhup = true → reg.mask.epollrdhup = true))
  | (_, .wake) | (_, .take) | (_, .accept4 _) | (_, .insert _) | (_, .allocate _ _)
  | (_, .epollAdd _) | (_, .handle _) | (_, .closeConnection) => isTrue trivial

/-- **No connection is ever closed for `EPOLLRDHUP`**: no mask of one asks for it. -/
theorem no_rdhup
    (h : (machine cfg).ReachableVia (fun s l => NoReuse s l ∧ KernelReports cfg s l) s) (i : ι)
    (ev : Event) (hev : ev ∈ (s.worker i).batch) (hconn : ev.file.conn? ≠ none) :
    ev.flags.epollrdhup = false := by
  have hinv : ∀ i ev, ev ∈ (s.worker i).batch → ev.file.conn? ≠ none →
      ev.flags.epollrdhup = false := by
    refine Machine.ReachableVia.invariant (I := fun s => ∀ i ev, ev ∈ (s.worker i).batch →
      ev.file.conn? ≠ none → ev.flags.epollrdhup = false) ?_ ?_ h
    · intro s hinit i ev hev
      subst hinit
      cases hev
    · rintro s ⟨k, act⟩ s' hr hi hc hs j ev hev hconn
      have hown : OwnInv cfg s := ownInv_reachable (fun _ _ hc _ => hc.1) hr
      by_cases hjk : j = k
      · subst hjk
        cases next_cases hs with
        | @deliver fd flags reg file hpc hreg hfile harmed =>
            simp only [setWorker_worker, Function.update_self, List.mem_append,
              List.mem_singleton] at hev
            rcases hev with hev | rfl
            · exact hi j ev hev hconn
            · obtain ⟨c, hcf⟩ : ∃ c, file = .conn c := by
                cases file with
                | listener ep => exact absurd rfl hconn
                | conn c => exact ⟨c, rfl⟩
              subst hcf
              by_contra hne
              have hmask := hc.2 reg hreg (by simpa using hne)
              rcases hown.tables.mask _ _ reg c hreg hfile with hm | ⟨b, hm⟩ <;>
                rw [hm] at hmask <;> cases hmask
        | take hpc hbatch hptr =>
            simp only [setWorker_worker, Function.update_self] at hev
            exact hi j ev (by rw [hbatch]; exact List.mem_cons_of_mem _ hev) hconn
        | _ => exact hi j ev (by simpa using hev) hconn
      · rw [step_worker (next_cases hs) hjk] at hev
        exact hi j ev hev hconn
  exact hinv i ev hev hconn

/--
**A peer's close is never acted on.** In a run in which no allocation takes storage
that `closeConnection` still refers to, the connections whose end of stream was
handled have been released, and the manager is bounded by the others, exactly if
there are no such connections.
-/
theorem releases_closed_iff (h : (machine cfg).ReachableVia NoReuse s) :
    ReleasesClosed cfg s ↔ ∀ c, ¬ KnownClosed s c := by
  have hinv : OwnInv cfg s := ownInv_reachable (fun _ _ hc _ => hc) h
  have hend := endInv_reachable h
  constructor
  · intro hrel c hknown
    obtain ⟨fd, a, hl, _⟩ := hend.ended c hknown.1
    exact (hrel.released c hknown).1.2 fd _ hl rfl
  · intro hnone
    exact ⟨fun c hc => absurd hc (hnone c), manager_bounded hinv.tables hnone⟩

/-- The half-closed connection stays where it is. -/
theorem releases_closed_halfClosed :
    ∃ s : Server (Fin 2), KnownClosed s 0 ∧ ¬ ReleasesClosed (shared 2 .byReference) s := by
  have hval : ((machine (shared 2 .byReference)).run (start (shared 2 .byReference))
      halfClosed).map (fun s => (s.eof 0, decide (∀ i, atWork (s.worker i).pc ≠ some 0)))
      = some (true, true) := by decide +kernel
  obtain ⟨s, hrun, heq⟩ := Option.map_eq_some_iff.mp hval
  obtain ⟨heof, hat⟩ := Prod.mk.inj heq
  have hr : (machine (shared 2 .byReference)).ReachableVia NoReuse s :=
    .of_run (.init rfl) (by decide +kernel) hrun
  have hknown : KnownClosed s 0 := ⟨heof, of_decide_eq_true hat⟩
  exact ⟨s, hknown, fun hrel => (releases_closed_iff hr).mp hrel 0 hknown⟩

/-- A connection whose peer has half-closed is not released. -/
theorem not_released :
    ¬ ∀ (ι : Type) [DecidableEq ι] (cfg : Config ι) (s : Server ι),
        (machine cfg).ReachableVia (KernelReports cfg) s → ReleasesClosed cfg s := by
  intro hall
  have hval : ((machine (shared 2 .byReference)).run (start (shared 2 .byReference))
      halfClosed).map (fun s => (s.eof 0, decide (∀ i, atWork (s.worker i).pc ≠ some 0),
        s.fdTable 7)) = some (true, true, some (.conn 0)) := by decide +kernel
  obtain ⟨s, hrun, heq⟩ := Option.map_eq_some_iff.mp hval
  simp only [Prod.mk.injEq, decide_eq_true_eq] at heq
  obtain ⟨heof, hat, hopen⟩ := heq
  have hr : (machine (shared 2 .byReference)).ReachableVia (KernelReports (shared 2 .byReference))
      s := .of_run (.init rfl) (by decide +kernel) hrun
  exact ((hall (Fin 2) _ s hr).released 0 ⟨heof, hat⟩).1.1 7 hopen

end TcpServers.Server
