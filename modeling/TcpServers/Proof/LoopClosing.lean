import TcpServers.Proof.LoopOwnership

/-!
# The connections the loop is closing

From the moment an event with `EPOLLRDHUP` is fetched its client is on the way out: the
event stays in the batch until the loop comes to it, and then the descriptor is removed
and closed. Nothing else makes a connection close, nothing holds it up, and nothing is
read from it any more.
-/

namespace TcpServers.EpollLoop

open Lib

variable {cfg : Config} {s s' : EpollLoop} {l : Label}

/-- The descriptors of the loop: each is one connection, which is not closed yet. -/
structure TableInv (s : EpollLoop) : Prop where
  accepted : ∀ fd c, s.fdTable fd = some c → c < s.nextConn
  live : ∀ fd c, s.fdTable fd = some c → s.closed c = false
  one : ∀ fd fd' c, s.fdTable fd = some c → s.fdTable fd' = some c → fd = fd'
  past : ∀ c, s.closed c = true → c < s.nextConn

/-- The descriptor the loop is hanging up on. -/
def hangingUp : LoopPc → Option Fd
  | .del fd => some fd
  | .close fd => some fd
  | _ => none

/-- The loop is hanging up on the descriptor, or has fetched the event that makes it. -/
def HungUp (s : EpollLoop) (fd : Fd) : Prop :=
  hangingUp s.pc = some fd ∨ ∃ ev ∈ s.batch, ev.fd = fd ∧ ev.flags.epollrdhup = true

/-- The connection is closed, or is about to be. -/
def Closing (s : EpollLoop) (c : Nat) : Prop :=
  s.closed c = true ∨ ∃ fd, s.fdTable fd = some c ∧ HungUp s fd

/-- The step fetches an event that says the peer of the connection has closed. -/
def ReportsClose (s : EpollLoop) (c : Nat) : Label → Prop
  | .epollWait evs => ∃ ev ∈ evs, s.fdTable ev.fd = some c ∧ ev.flags.epollrdhup = true
  | _ => False

/-- `epoll_wait` adds its events to the batch, and spends registrations. -/
theorem fetches_frame {evs : List LoopEvent} {m : EpollLoop}
    (h : evs.foldlM (fetch cfg) s = some m) :
    m.batch = s.batch ++ evs ∧ m.fdTable = s.fdTable ∧ m.closed = s.closed
      ∧ m.nextConn = s.nextConn ∧ m.chunks = s.chunks := by
  induction evs generalizing s with
  | nil =>
      cases h
      exact ⟨(List.append_nil _).symm, rfl, rfl, rfl, rfl⟩
  | cons ev evs ih =>
      rw [List.foldlM_cons] at h
      obtain ⟨s₁, hs₁, hrest⟩ := Option.bind_eq_some_iff.mp h
      have hfirst : s₁.batch = s.batch ++ [ev] ∧ s₁.fdTable = s.fdTable ∧ s₁.closed = s.closed
          ∧ s₁.nextConn = s.nextConn ∧ s₁.chunks = s.chunks := by
        cases fetch_cases hs₁ <;> exact ⟨rfl, rfl, rfl, rfl, rfl⟩
      obtain ⟨hbatch, htable, hclosed, hnext, hchunks⟩ := ih hrest
      obtain ⟨hbatch₁, htable₁, hclosed₁, hnext₁, hchunks₁⟩ := hfirst
      refine ⟨?_, htable.trans htable₁, hclosed.trans hclosed₁, hnext.trans hnext₁,
        hchunks.trans hchunks₁⟩
      rw [hbatch, hbatch₁, List.append_assoc]
      rfl

theorem tableInv_start (cfg : Config) : TableInv (start cfg) where
  accepted := by
    intro fd c hc
    cases hc
  live := by
    intro fd c hc
    cases hc
  one := by
    intro fd fd' c hc
    cases hc
  past := by
    intro c hc
    cases hc

theorem TableInv.of_same (h : TableInv s) (htable : s'.fdTable = s.fdTable)
    (hclosed : s'.closed = s.closed) (hnext : s'.nextConn = s.nextConn) : TableInv s' where
  accepted := by
    rw [htable, hnext]
    exact h.accepted
  live := by
    rw [htable, hclosed]
    exact h.live
  one := by
    rw [htable]
    exact h.one
  past := by
    rw [hclosed, hnext]
    exact h.past

theorem tableInv_close (h : TableInv s) {fd : Fd} {c : Nat} (hopen : s.fdTable fd = some c)
    {pc : LoopPc} {interest : Fd → Option Interest} :
    TableInv
      { s with
        fdTable := Function.update s.fdTable fd none
        interest := interest
        pc := pc
        closed := Function.update s.closed c true } where
  accepted := fun f d hd => h.accepted f d (Table.of_remove hd).2
  live := by
    intro f d hd
    obtain ⟨hf, hd⟩ := Table.of_remove hd
    have hdc : d ≠ c := by
      intro heq
      rw [heq] at hd
      exact hf (h.one f fd c hd hopen)
    simp only [Function.update_of_ne hdc]
    exact h.live f d hd
  one := fun f f' d hd hd' => h.one f f' d (Table.of_remove hd).2 (Table.of_remove hd').2
  past := by
    intro d hd
    by_cases hdc : d = c
    · rw [hdc]
      exact h.accepted fd c hopen
    · simp only [Function.update_of_ne hdc] at hd
      exact h.past d hd

theorem tableInv_accepted (h : TableInv s) {fd : Fd} {pc : LoopPc} {queue : Nat} :
    TableInv
      { s with
        fdTable := Function.update s.fdTable fd (some s.nextConn)
        acceptQueue := queue
        pc := pc
        nextConn := s.nextConn + 1 } where
  accepted := by
    intro f d hd
    rcases Table.of_insert hd with ⟨_, rfl⟩ | ⟨_, hd⟩
    · exact Nat.lt_succ_self _
    · exact Nat.lt_succ_of_lt (h.accepted f d hd)
  live := by
    intro f d hd
    rcases Table.of_insert hd with ⟨_, rfl⟩ | ⟨_, hd⟩
    · refine Bool.eq_false_iff.mpr (fun hpast => ?_)
      exact absurd (h.past s.nextConn hpast) (Nat.lt_irrefl _)
    · exact h.live f d hd
  one := by
    intro f f' d hd hd'
    rcases Table.of_insert hd with ⟨hf, rfl⟩ | ⟨_, hd⟩
    · rcases Table.of_insert hd' with ⟨hf', _⟩ | ⟨_, hd'⟩
      · rw [hf, hf']
      · exact absurd (h.accepted f' _ hd') (Nat.lt_irrefl _)
    · rcases Table.of_insert hd' with ⟨_, rfl⟩ | ⟨_, hd'⟩
      · exact absurd (h.accepted f _ hd) (Nat.lt_irrefl _)
      · exact h.one f f' d hd hd'
  past := fun d hd => Nat.lt_succ_of_lt (h.past d hd)

theorem tableInv_step (hi : LoopInv cfg s) (h : TableInv s) (hs : Step cfg s l s') :
    TableInv s' := by
  cases hs with
  | epollWait hpc hfetch =>
      obtain ⟨_, htable, hclosed, hnext, _⟩ := fetches_frame hfetch
      exact h.of_same htable hclosed hnext
  | close hpc =>
      obtain ⟨c, hopen⟩ := hi.at_open (by rw [hpc]; rfl)
      simp only [hopen]
      exact tableInv_close h hopen
  | accepted => exact tableInv_accepted h
  | _ => exact h.of_same rfl rfl rfl

/-! ## The connections that are closing -/

/-- A step that leaves the descriptors, the batch and the hang-up alone. -/
theorem closing_same {c : Nat} (htable : s'.fdTable = s.fdTable) (hclosed : s'.closed = s.closed)
    (hbatch : s'.batch = s.batch) (hpc : hangingUp s'.pc = hangingUp s.pc) :
    Closing s' c ↔ Closing s c := by
  unfold Closing HungUp
  rw [htable, hclosed, hbatch, hpc]

theorem closing_epollWait {evs : List LoopEvent} {m : EpollLoop} {c : Nat}
    (hpc : s.pc = .epollWait) (hfetch : evs.foldlM (fetch cfg) s = some m) :
    Closing { m with pc := .loop } c ↔ Closing s c ∨ ReportsClose s c (.epollWait evs) := by
  obtain ⟨hbatch, htable, hclosed, _, _⟩ := fetches_frame hfetch
  unfold Closing HungUp ReportsClose
  simp only [hbatch, htable, hclosed, hpc, hangingUp, List.mem_append]
  constructor
  · rintro (hpast | ⟨fd, hfd, hno | ⟨ev, hold | hnew, rfl, hrdhup⟩⟩)
    · exact Or.inl (Or.inl hpast)
    · cases hno
    · exact Or.inl (Or.inr ⟨_, hfd, Or.inr ⟨ev, hold, rfl, hrdhup⟩⟩)
    · exact Or.inr ⟨ev, hnew, hfd, hrdhup⟩
  · rintro ((hpast | ⟨fd, hfd, hno | ⟨ev, hev, rfl, hrdhup⟩⟩) | ⟨ev, hev, hfd, hrdhup⟩)
    · exact Or.inl hpast
    · cases hno
    · exact Or.inr ⟨_, hfd, Or.inr ⟨ev, Or.inl hev, rfl, hrdhup⟩⟩
    · exact Or.inr ⟨_, hfd, Or.inr ⟨ev, Or.inr hev, rfl, hrdhup⟩⟩

/-- An event with `EPOLLRDHUP` leads to the hang-up, and no other event does. -/
theorem hangingUp_dispatch (cfg : Config) (ev : LoopEvent) (fd : Fd) :
    hangingUp (dispatch cfg ev) = some fd ↔ ev.fd = fd ∧ ev.flags.epollrdhup = true := by
  unfold dispatch
  split
  · rename_i hrdhup
    simp [hangingUp, hrdhup]
  · rename_i hrdhup
    split
    · split <;> simp [hangingUp, hrdhup]
    · simp [hangingUp, hrdhup]

theorem hungUp_take {ev : LoopEvent} {rest : List LoopEvent} (hpc : s.pc = .loop)
    (hbatch : s.batch = ev :: rest) (fd : Fd) :
    HungUp { s with pc := dispatch cfg ev, batch := rest } fd ↔ HungUp s fd := by
  have hnone : ¬ hangingUp s.pc = some fd := by
    rw [hpc]
    simp [hangingUp]
  unfold HungUp
  rw [or_iff_right hnone, hangingUp_dispatch, hbatch, List.exists_mem_cons_iff]

/-- `close`: the connection was closing before, and the others are as they were. -/
theorem closing_close {fd : Fd} {c₀ c : Nat} (hpc : s.pc = .close fd)
    (hopen : s.fdTable fd = some c₀) {interest : Fd → Option Interest} :
    Closing
      { s with
        fdTable := Function.update s.fdTable fd none
        interest := interest
        pc := .loop
        closed := Function.update s.closed c₀ true } c ↔ Closing s c := by
  have hother : ∀ f, f ≠ fd →
      (HungUp s f ↔ ∃ ev ∈ s.batch, ev.fd = f ∧ ev.flags.epollrdhup = true) := by
    intro f hf
    refine or_iff_right (fun hat => ?_)
    rw [hpc] at hat
    exact hf (Option.some.inj hat).symm
  constructor
  · rintro (hpast | ⟨f, hf, hup⟩)
    · by_cases hc : c = c₀
      · exact Or.inr ⟨fd, by rw [hc]; exact hopen, Or.inl (by rw [hpc]; rfl)⟩
      · simp only [Function.update_of_ne hc] at hpast
        exact Or.inl hpast
    · obtain ⟨hne, hf⟩ := Table.of_remove hf
      exact Or.inr ⟨f, hf, (hother f hne).mpr (hup.resolve_left (by simp [hangingUp]))⟩
  · rintro (hpast | ⟨f, hf, hup⟩)
    · refine Or.inl ?_
      by_cases hc : c = c₀
      · simp only [hc, Function.update_self]
      · simp only [Function.update_of_ne hc]
        exact hpast
    · by_cases hfd : f = fd
      · rw [hfd, hopen] at hf
        cases hf
        exact Or.inl (Function.update_self _ _ _)
      · refine Or.inr ⟨f, ?_, Or.inr ((hother f hfd).mp hup)⟩
        simp only [Function.update_of_ne hfd]
        exact hf

/-- `accept4`: no event is there for the new connection. -/
theorem closing_accepted (hi : LoopInv cfg s) {fd : Fd} {c queue : Nat} (hpc : s.pc = .accept)
    (hne : fd ≠ cfg.serverSfd) (hfresh : s.fdTable fd = none) :
    Closing
      { s with
        fdTable := Function.update s.fdTable fd (some s.nextConn)
        acceptQueue := queue
        pc := .add fd
        nextConn := s.nextConn + 1 } c ↔ Closing s c := by
  have hup : ∀ f, HungUp { s with pc := .add fd } f ↔ HungUp s f := by
    intro f
    unfold HungUp
    rw [hpc]
    rfl
  have hnone : ¬ HungUp s fd := by
    rintro (hat | ⟨ev, hev, rfl, _⟩)
    · rw [hpc] at hat
      cases hat
    · obtain ⟨d, hd⟩ := hi.held_open (mem_held.mpr (Or.inr (mem_waiting.mpr ⟨hne, ev, hev, rfl⟩)))
      rw [hfresh] at hd
      cases hd
  unfold Closing
  refine or_congr Iff.rfl (exists_congr fun f => ?_)
  constructor
  · rintro ⟨hf, hat⟩
    rcases Table.of_insert hf with ⟨rfl, _⟩ | ⟨_, hf⟩
    · exact absurd ((hup f).mp hat) hnone
    · exact ⟨hf, (hup f).mp hat⟩
  · rintro ⟨hf, hat⟩
    have hfd : f ≠ fd := by
      rintro rfl
      exact hnone hat
    exact ⟨by simp only [Function.update_of_ne hfd]; exact hf, (hup f).mpr hat⟩

/-- **When a connection is closing.** Only an event that says so makes it, and it stays so. -/
theorem closing_step (hi : LoopInv cfg s) (hs : Step cfg s l s') (c : Nat) :
    Closing s' c ↔ Closing s c ∨ ReportsClose s c l := by
  cases hs with
  | epollWait hpc hfetch => exact closing_epollWait hpc hfetch
  | take hpc hbatch =>
      refine Iff.trans ?_ (or_iff_left not_false).symm
      exact or_congr Iff.rfl (exists_congr fun fd => and_congr_right fun _ =>
        hungUp_take hpc hbatch fd)
  | close hpc =>
      obtain ⟨c₀, hopen⟩ := hi.at_open (by rw [hpc]; rfl)
      simp only [hopen]
      exact (closing_close hpc hopen).trans (or_iff_left not_false).symm
  | accepted hpc _ _ hne hfresh =>
      exact (closing_accepted hi hpc hne hfresh).trans (or_iff_left not_false).symm
  | arrive | chunk =>
      refine Iff.trans ?_ (or_iff_left not_false).symm
      exact closing_same rfl rfl rfl rfl
  | waitFailed hpc | endBatch hpc | del hpc | noMore hpc | acceptFailed hpc | added hpc
  | addFailed hpc | endOfStream hpc | drained hpc | readFailed hpc | rearmed hpc
  | rearmFailed hpc =>
      refine Iff.trans ?_ (or_iff_left not_false).symm
      exact closing_same rfl rfl rfl (congrArg hangingUp hpc).symm

/-- A client that is being drained is not closing. -/
theorem LoopInv.not_closing (hi : LoopInv cfg s) (ht : TableInv s) {fd : Fd} {c : Nat}
    (hpc : s.pc = .drain fd) (hopen : s.fdTable fd = some c) : ¬ Closing s c := by
  rintro (hpast | ⟨f, hf, hup⟩)
  · rw [ht.live fd c hopen] at hpast
    cases hpast
  · have hfd : f = fd := ht.one f fd c hf hopen
    subst hfd
    rcases hup with hat | ⟨ev, hev, hevfd, _⟩
    · rw [hpc] at hat
      cases hat
    · have hne : ev.fd ≠ cfg.serverSfd := by
        intro heq
        rw [← hevfd, heq, hi.listener] at hopen
        cases hopen
      exact hi.event_ne (by rw [hpc]; rfl) hev hne hevfd

end TcpServers.EpollLoop
