import TcpServers.Proof.EchoSound
import TcpServers.Proof.OwnershipStep

/-!
# A `ConnectionData` has one worker

The class is not thread-safe and relies on the one-shot events. That works as
long as the re-arm is the last thing a worker does to a connection. On three of
the four calls of `rearmEpoll` it is; after a failed read `reset()` follows, and
meanwhile another worker may have the next event.
-/

namespace TcpServers.Server

open Lib ConnectionDataManager

variable {ι : Type} {cfg : Config ι} {s s' : Server ι} {i j : ι} {act : Act}

/-- The `ConnectionData` of a connection that a statement still works on. -/
def worksOn : WorkerPc → Option Addr
  | .handle p _ _ => some p
  | .close p _ _ _ => some p
  | _ => none

/-- A worker has a step to perform on the data: now, or for an event in its batch. -/
def Touches (w : Worker) (p : Addr) : Prop :=
  worksOn w.pc = some p ∨ ∃ ev ∈ w.batch, ev.ptr = some p ∧ ev.file.conn? ≠ none

instance (w : Worker) (p : Addr) : Decidable (Touches w p) :=
  inferInstanceAs (Decidable (_ ∨ _))

/-- No `read()` fails with an error other than the two would-block ones. -/
def ReadsSucceed (_ : Server ι) : ι × Act → Prop
  | (_, .handle (.read (.fail e))) => e.wouldBlock = true
  | _ => True

instance (s : Server ι) : (l : ι × Act) → Decidable (ReadsSucceed s l)
  | (_, .handle (.read (.fail e))) => inferInstanceAs (Decidable (e.wouldBlock = true))
  | (_, .handle (.read (.data _))) | (_, .handle .quiet) | (_, .handle (.write _))
  | (_, .handle (.epollCtl _)) | (_, .deliver _ _) | (_, .wake) | (_, .take) | (_, .accept4 _)
  | (_, .insert _) | (_, .allocate _ _) | (_, .epollAdd _) | (_, .closeConnection) =>
      isTrue trivial

/-- The runs in which a re-arm is the last step on a connection. -/
def RearmsLast (s : Server ι) (l : ι × Act) : Prop := NoReuse s l ∧ ReadsSucceed s l

instance {n : Nat} (s : Server (Fin n)) (l : Fin n × Act) : Decidable (RearmsLast s l) :=
  inferInstanceAs (Decidable (_ ∧ _))

/-! ## The re-arm comes last -/

/-- Only a failed read leads to the statements around `reset()`. -/
theorem resetting_back {pc pc' : HandlerPc} {cd : ConnectionData} {errno : Errno} {a : Answer}
    {out : HandlerOut} (h : HandlerStep cd errno pc a out) (hout : out.pc = some pc')
    (hr : Connection.resetting pc' = true) :
    Connection.resetting pc = true ∨ ∃ e, a = .read (.fail e) ∧ e.wouldBlock = false := by
  cases h with
  | readFailed he => exact Or.inr ⟨_, rfl, he⟩
  | readFailRearm | resetReadIndex | resetWriteIndex => exact Or.inl rfl
  | resetReady | nothingToWrite | echoedRearm | blockedRearm | writeFailRearm => cases hout
  | _ =>
      cases hout
      cases hr

/-- **A re-arm outside the failed read is the last statement of the handler.** -/
theorem rearm_last {pc : HandlerPc} {cd : ConnectionData} {errno : Errno} {a : Answer}
    {out : HandlerOut} (h : HandlerStep cd errno pc a out) (hrearm : pc.rearm? ≠ none)
    (hr : Connection.resetting pc = false) : out.pc = none := by
  cases h with
  | echoedRearm | blockedRearm | writeFailRearm => rfl
  | readFailRearm => cases hr
  | _ => exact absurd rfl hrearm

/-- The statements of `reset()` are among those only a failed read leads to. -/
theorem pastRearm_of_resetting {pc : HandlerPc} (hr : Connection.resetting pc = false) :
    pastRearm pc = false := by
  cases pc with
  | resetReadIndex | resetWriteIndex | resetReady => cases hr
  | _ => rfl

/-- No worker is at a statement around `reset()`. -/
def NoResetting (s : Server ι) : Prop :=
  ∀ i p f pc, (s.worker i).pc = .handle p f pc → Connection.resetting pc = false

/-- What a worker touches is an element of a connection it holds, or storage it has freed. -/
theorem OwnInv.touches (h : OwnInv cfg s) (hn : NoResetting s) (hp : cfg.passing = .byReference)
    {p : Addr} (ht : Touches (s.worker i) p) :
    (∃ c fd, c ∈ Server.holds (s.worker i) ∧ s.data.lookup fd = some ⟨p, .conn c⟩)
      ∨ (dangling (s.worker i).pc = some p ∧ ¬ Owns s.data p) := by
  rcases ht with hw | ⟨ev, hev, hptr, hfile⟩
  · have hok := h.pcs i
    cases hpc : (s.worker i).pc with
    | handle q f pc =>
        rw [hpc] at hw
        cases hw
        obtain ⟨c, fd, _, hl, _, _, hat⟩ :=
          h.handling hpc (pastRearm_of_resetting (hn i _ _ _ hpc))
        exact Or.inl ⟨c, fd, mem_holds_atWork hat, hl⟩
    | close q v f cpc =>
        rw [hpc] at hw hok
        cases hw
        cases cpc with
        | test | remove =>
            obtain ⟨c, rfl, hl⟩ := hok
            exact Or.inl ⟨c, v, mem_holds_atWork (by rw [hpc]; rfl), hl⟩
        | del | close =>
            obtain ⟨_, _, _, _, hfreed⟩ := hok
            exact Or.inr ⟨rfl, (hfreed hp).2⟩
        | store =>
            obtain ⟨_, _, _, hfreed⟩ := hok
            exact Or.inr ⟨rfl, (hfreed hp).2⟩
    | _ =>
        rw [hpc] at hw
        cases hw
  · obtain ⟨a, ha, hl⟩ := (h.events i ev hev).entry
    rw [hptr] at ha
    cases ha
    cases hf : ev.file with
    | listener ep => rw [hf] at hfile; exact absurd rfl hfile
    | conn c =>
        rw [hf] at hl
        exact Or.inl ⟨c, ev.fd, mem_holds_event hev hf, hl⟩

variable [DecidableEq ι]

/-- Without a failed read no worker comes near `reset()`. -/
theorem noResetting_step (h : NoResetting s) (hc : ReadsSucceed s (i, act))
    (hs : Step cfg s i act s') : NoResetting s' := by
  intro j p f pc hpc
  by_cases hj : j = i
  · subst hj
    rcases step_to_handle hs hpc with ⟨ev, _, _, _, _, rfl, _⟩ |
      ⟨pc₀, a, out, hold, heff, hout⟩ | ⟨q, cd, halloc⟩
    · rfl
    · by_contra hr
      rcases resetting_back heff.step hout (by simpa using hr) with hres | ⟨e, rfl, he⟩
      · rw [h j p f pc₀ hold] at hres
        cases hres
      · have hread : e.wouldBlock = true := by
          have hact := heff.act_eq
          subst hact
          exact hc
        rw [hread] at he
        cases he
    · rw [halloc.worker] at hpc
      exact h j p f pc hpc
  · rw [step_worker hs hj] at hpc
    exact h j p f pc hpc

theorem noResetting_reachable (h : (machine cfg).ReachableVia RearmsLast s) : NoResetting s := by
  refine Machine.ReachableVia.invariant ?_ ?_ h
  · intro s hinit i p f pc hpc
    subst hinit
    cases hpc
  · intro s l s' _ hn hc hs
    exact noResetting_step hn hc.2 (next_cases hs)

/-! ## One worker at a time -/

/--
**One worker at a time.** If no read fails, and no allocation takes storage that
`closeConnection` still refers to, two workers never both have a step to perform
on one `ConnectionData`; and a worker that re-arms is done with it.
-/
theorem one_toucher (hp : cfg.passing = .byReference)
    (h : (machine cfg).ReachableVia RearmsLast s) :
    (∀ i j p, Touches (s.worker i) p → Touches (s.worker j) p → i = j)
      ∧ ∀ i p f pc a s', (s.worker i).pc = .handle p f pc → pc.rearm? ≠ none →
          s.next cfg (i, .handle a) = some s' → worksOn (s'.worker i).pc = none := by
  have hinv : OwnInv cfg s := ownInv_reachable (fun _ _ hc _ => hc.1) h
  have hn := noResetting_reachable h
  refine ⟨fun i j p hi hj => ?_, fun i p f pc a s' hpc hrearm hs => ?_⟩
  · rcases hinv.touches hn hp hi with ⟨c, fd, hc, hl⟩ | ⟨hd, hfree⟩
    · rcases hinv.touches hn hp hj with ⟨c', fd', hc', hl'⟩ | ⟨_, hfree⟩
      · cases (hinv.tables.element_unique hl hl').2
        exact hinv.holds.unique i j c hc hc'
      · exact absurd ⟨fd, _, hl, rfl⟩ hfree
    · rcases hinv.touches hn hp hj with ⟨c', fd', _, hl'⟩ | ⟨hd', _⟩
      · exact absurd ⟨fd', _, hl', rfl⟩ hfree
      · exact hinv.freed hp i j p hd hd'
  · have hr := hn i p f pc hpc
    rcases step_handle (next_cases hs) hpc with ⟨_, out, heff⟩ | ⟨_, _, halloc⟩
    · rw [heff.worker, rearm_last heff.step hrearm hr]
      rfl
    · cases halloc.act_eq

/-- A connection accepted by one worker, its first event fetched by the other. -/
def fetched : List (Fin 2 × Act) :=
  acceptOne worker0 7 1 ++ [(worker1, .deliver 7 { epollin := true })]

theorem one_toucher_fetched :
    ∃ s : Server (Fin 2), Touches (s.worker 1) 1 ∧ ¬ Touches (s.worker 0) 1 := by
  have hval : ((machine (shared 2 .byReference)).run (start (shared 2 .byReference)) fetched).map
      (fun s => decide (Touches (s.worker 1) 1)) = some true := by decide +kernel
  obtain ⟨s, hrun, htouch⟩ := Option.map_eq_some_iff.mp hval
  have hr : (machine (shared 2 .byReference)).ReachableVia RearmsLast s :=
    .of_run (.init rfl) (by decide +kernel) hrun
  have h1 : Touches (s.worker 1) 1 := of_decide_eq_true htouch
  exact ⟨s, h1, fun h0 => absurd ((one_toucher rfl hr).1 0 1 1 h0 h1) (by decide)⟩

/-- A read fails, the worker re-arms, and before its `reset()` the other worker has the event. -/
def rearmedEarly : List (Fin 2 × Act) :=
  acceptOne worker0 7 1
    ++ [(worker0, .deliver 7 { epollin := true }), (worker0, .wake), (worker0, .take),
      (worker0, .handle .quiet), (worker0, .handle (.read (.fail (.other 104)))),
      (worker0, .handle (.epollCtl none)), (worker1, .deliver 7 { epollin := true })]

/-- Two workers can have a step to perform on the same data. -/
theorem two_touchers :
    ¬ ∀ (ι : Type) [DecidableEq ι] (cfg : Config ι) (s : Server ι), cfg.passing = .byReference →
        (machine cfg).Reachable s →
          ∀ i j p, Touches (s.worker i) p → Touches (s.worker j) p → i = j := by
  intro hall
  have hval : ((machine (shared 2 .byReference)).run (start (shared 2 .byReference))
      rearmedEarly).map
      (fun s => (decide (Touches (s.worker 0) 1), decide (Touches (s.worker 1) 1)))
      = some (true, true) := by decide +kernel
  obtain ⟨s, hrun, heq⟩ := Option.map_eq_some_iff.mp hval
  obtain ⟨h0, h1⟩ := Prod.mk.inj heq
  have hr : (machine (shared 2 .byReference)).Reachable s :=
    .of_run (.init rfl) (by decide +kernel) hrun
  have hsame := hall (Fin 2) _ s rfl hr 0 1 1 (of_decide_eq_true h0) (of_decide_eq_true h1)
  exact absurd hsame (by decide)

end TcpServers.Server
