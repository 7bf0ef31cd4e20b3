import TcpServers.Proof.EchoSound

/-!
# What a re-arm waits for

Four calls of `rearmEpoll`. The one after a failed read is followed by `reset()`,
which leaves nothing pending, so waiting for input is right there; so it is after a
complete echo. The other two are told apart by `errno` alone: a write that would
block, and one of `0` bytes behind a read that would block, re-arm for output; a
write that fails re-arms for input. Neither looks at what is pending.
-/

namespace TcpServers.Connection

open Lib

/-- What `reset()` and the return leave of the data, from a statement at or behind a re-arm. -/
def onReturn (pc : HandlerPc) (cd : ConnectionData) : ConnectionData :=
  match pc with
  | .readFailRearm => { cd with readIndex := 0, writeIndex := 0, readyForWrite := false }
  | .resetReadIndex => { cd with readIndex := 0, writeIndex := 0, readyForWrite := false }
  | .resetWriteIndex => { cd with writeIndex := 0, readyForWrite := false }
  | .resetReady => { cd with readyForWrite := false }
  | _ => cd

/-- From a re-arm the handler returns, with the data that `onReturn` says. -/
theorem onReturn_step {pc : HandlerPc} {cd : ConnectionData} {errno : Errno} {a : Answer}
    {out : HandlerOut} (h : HandlerStep cd errno pc a out)
    (hpc : pc.rearm? ≠ none ∨ resetting pc = true) :
    (out.pc = none ∧ out.data = onReturn pc cd)
      ∨ ∃ pc', out.pc = some pc' ∧ resetting pc' = true
        ∧ onReturn pc' out.data = onReturn pc cd := by
  cases h with
  | readFailRearm => exact Or.inr ⟨_, rfl, rfl, rfl⟩
  | resetReadIndex => exact Or.inr ⟨_, rfl, rfl, rfl⟩
  | resetWriteIndex => exact Or.inr ⟨_, rfl, rfl, rfl⟩
  | resetReady => exact Or.inl ⟨rfl, rfl⟩
  | echoedRearm | blockedRearm | writeFailRearm => exact Or.inl ⟨rfl, rfl⟩
  | _ =>
      rcases hpc with hpc | hpc
      · exact absurd rfl hpc
      · exact absurd hpc (by simp [resetting])

/-- Between events there is no statement of the handler. -/
theorem run_idle {fd : Fd} {s t : Connection} (hp : s.phase = .idle) {as : List Answer}
    (hrun : (machine fd).run s (as.map .handler) = some t) : t = s := by
  cases as with
  | nil =>
      cases hrun
      rfl
  | cons a as =>
      rw [List.map_cons, Machine.run_cons] at hrun
      obtain ⟨s', hs, _⟩ := Option.bind_eq_some_iff.mp hrun
      simp only [machine, next, hp] at hs
      cases hs

/-- **The handler returns with what `onReturn` says**, whatever its remaining calls are answered. -/
theorem onReturn_run {fd : Fd} {s t : Connection} {pc : HandlerPc} (hp : s.phase = .handling pc)
    (hpc : pc.rearm? ≠ none ∨ resetting pc = true) {as : List Answer}
    (hrun : (machine fd).run s (as.map .handler) = some t) (hreturn : t.phase = .idle) :
    t.data = onReturn pc s.data := by
  induction as generalizing s pc with
  | nil =>
      cases hrun
      rw [hp] at hreturn
      cases hreturn
  | cons a as ih =>
      rw [List.map_cons, Machine.run_cons] at hrun
      obtain ⟨s', hs, hrun⟩ := Option.bind_eq_some_iff.mp hrun
      have hnext : next s (.handler a) = some s' := hs
      rcases next_cases hnext with ⟨_, _, _, hl, _⟩ | ⟨_, hl, _⟩ |
        ⟨a', pc', out, hl, hp', hstep, rfl⟩
      · cases hl
      · cases hl
      · cases hl
        rw [hp] at hp'
        cases hp'
        rcases onReturn_step hstep hpc with ⟨hnone, hdata⟩ | ⟨pc', hsome, hreset, hdata⟩
        · have hidle : (s.stepped pc a out).phase = .idle := by
            rw [stepped_phase, hnone]
            rfl
          rw [run_idle hidle hrun, stepped_data, hdata]
        · rw [ih (by rw [stepped_phase, hsome]; rfl) (Or.inr hreset) hrun, stepped_data, hdata]

/-- A re-arm waits for input if and only if nothing is pending on return. -/
def RearmMatches (s : Connection) : Prop :=
  ∀ pc isRead, s.phase = .handling pc → pc.rearm? = some isRead →
    (isRead = true ↔ (onReturn pc s.data).writeIndex = (onReturn pc s.data).readIndex)

/--
A write that accepts nothing leaves a would-block `errno` exactly if bytes are
pending: its own, or the one that was there before if it returns `0`.
-/
def BlocksIfPending (s : Connection) : Label → Prop
  | .handler (.write (.wrote n)) =>
      n = 0 → (s.errno.wouldBlock = true ↔ s.data.writeIndex < s.data.readIndex)
  | .handler (.write (.fail e)) => e.wouldBlock = true ↔ s.data.writeIndex < s.data.readIndex
  | _ => True

instance (s : Connection) : (l : Label) → Decidable (BlocksIfPending s l)
  | .handler (.write (.wrote n)) =>
      inferInstanceAs (Decidable
        (n = 0 → (s.errno.wouldBlock = true ↔ s.data.writeIndex < s.data.readIndex)))
  | .handler (.write (.fail e)) =>
      inferInstanceAs (Decidable (e.wouldBlock = true ↔ s.data.writeIndex < s.data.readIndex))
  | .handler .quiet | .handler (.read _) | .handler (.epollCtl _)
  | .deliver _ _ | .dispatch => isTrue trivial

/-- What `errno` and the indices are between a write and the re-arm it leads to. -/
structure DirectionInv (s : Connection) : Prop where
  index : IndexInv s
  echoed : s.phase = .handling .clearEchoed ∨ s.phase = .handling .echoedRearm
      ∨ s.phase = .handling .writeFailRearm → s.data.writeIndex = s.data.readIndex
  unwritten : s.phase = .handling .clearUnwritten →
    (s.errno.wouldBlock = true ↔ s.data.writeIndex < s.data.readIndex)
  blocked : s.phase = .handling .blockedRearm → s.data.writeIndex < s.data.readIndex

/-- On the way to a re-arm that waits for the wrong thing. -/
structure Misdirected (s : Connection) : Prop where
  index : IndexInv s
  phase : (s.phase = .handling .clearUnwritten
        ∧ ¬ (s.errno.wouldBlock = true ↔ s.data.writeIndex < s.data.readIndex))
    ∨ (s.phase = .handling .blockedRearm ∧ s.data.writeIndex = s.data.readIndex)
    ∨ (s.phase = .handling .writeFailRearm ∧ s.data.writeIndex < s.data.readIndex)

theorem directionInv_init (fd : Fd) : DirectionInv (accepted fd) where
  index := indexInv_init fd
  echoed := by intro h; simp [accepted] at h
  unwritten := by intro h; simp [accepted] at h
  blocked := by intro h; simp [accepted] at h

theorem DirectionInv.rearmMatches {s : Connection} (h : DirectionInv s) : RearmMatches s := by
  intro pc isRead hp hrearm
  cases pc with
  | readFailRearm =>
      cases hrearm
      exact ⟨fun _ => rfl, fun _ => rfl⟩
  | echoedRearm =>
      cases hrearm
      exact ⟨fun _ => h.echoed (Or.inr (Or.inl hp)), fun _ => rfl⟩
  | writeFailRearm =>
      cases hrearm
      exact ⟨fun _ => h.echoed (Or.inr (Or.inr hp)), fun _ => rfl⟩
  | blockedRearm =>
      cases hrearm
      have hlt := h.blocked hp
      refine ⟨fun hf => absurd hf (by simp), fun heq => ?_⟩
      have heq' : s.data.writeIndex = s.data.readIndex := heq
      omega
  | _ => cases hrearm

theorem directionInv_step {s s' : Connection} {l : Label} (h : DirectionInv s)
    (hc : BlocksIfPending s l) (hs : next s l = some s') : DirectionInv s' := by
  have hi' := indexInv_step h.index hs
  rcases next_cases hs with ⟨flags, e, mask, rfl, hp, _, rfl⟩ | ⟨flags, rfl, hp, hd⟩ |
    ⟨a, pc, out, rfl, hp, hstep, rfl⟩
  · exact ⟨hi', by simp, by simp, by simp⟩
  · rcases hd with ⟨_, rfl⟩ | ⟨_, rfl⟩ | ⟨_, rfl⟩
    · exact ⟨hi', by simp, by simp, by simp⟩
    · exact ⟨hi', by simp, by simp, by simp⟩
    · exact ⟨hi', by simp, by simp, by simp⟩
  · cases hstep with
    | wroteNothing => exact ⟨hi', by simp [afterStep], fun _ => hc rfl, by simp [afterStep]⟩
    | writeFailed => exact ⟨hi', by simp [afterStep], fun _ => hc, by simp [afterStep]⟩
    | echoed hge =>
        have hle := h.index.le_of_handling hp (by simp)
        refine ⟨hi', fun _ => ?_, by simp [afterStep], by simp [afterStep]⟩
        show s.data.writeIndex = s.data.readIndex
        omega
    | clearEchoed =>
        exact ⟨hi', fun _ => h.echoed (Or.inl hp), by simp [afterStep], by simp [afterStep]⟩
    | blocked he =>
        exact ⟨hi', by simp [afterStep], by simp [afterStep], fun _ => (h.unwritten hp).mp he⟩
    | failed he =>
        have hle := h.index.le_of_handling hp (by simp)
        have hiff := h.unwritten hp
        rw [he] at hiff
        refine ⟨hi', fun _ => ?_, by simp [afterStep], by simp [afterStep]⟩
        show s.data.writeIndex = s.data.readIndex
        by_contra hne
        exact absurd (hiff.mpr (by omega)) (by simp)
    | _ => exact ⟨hi', by simp [afterStep], by simp [afterStep], by simp [afterStep]⟩

/-- A write that does not meet the condition is on its way to the wrong re-arm. -/
theorem DirectionInv.misdirected {s s' : Connection} {l : Label} (h : DirectionInv s)
    (hc : ¬ BlocksIfPending s l) (hs : next s l = some s') : Misdirected s' := by
  have hi' := indexInv_step h.index hs
  rcases next_cases hs with ⟨flags, e, mask, rfl, hp, _, rfl⟩ | ⟨flags, rfl, hp, hd⟩ |
    ⟨a, pc, out, rfl, hp, hstep, rfl⟩
  · exact absurd trivial hc
  · exact absurd trivial hc
  · cases hstep with
    | wroteNothing => exact ⟨hi', Or.inl ⟨rfl, fun hiff => hc (fun _ => hiff)⟩⟩
    | writeFailed => exact ⟨hi', Or.inl ⟨rfl, hc⟩⟩
    | @wrote n hpos _ => exact absurd (fun hz => absurd hpos (by omega)) hc
    | _ => exact absurd trivial hc

/-- It is called next, as long as no call was wrong so far. -/
theorem Misdirected.step {s s' : Connection} {l : Label} (h : Misdirected s)
    (hP : RearmMatches s) (hs : next s l = some s') : Misdirected s' := by
  have hi' := indexInv_step h.index hs
  rcases h.phase with ⟨hp, hne⟩ | ⟨hp, heq⟩ | ⟨hp, hlt⟩
  · rcases next_cases hs with ⟨_, _, _, _, hp', _⟩ | ⟨_, _, hp', _⟩ |
      ⟨a, pc, out, rfl, hp', hstep, rfl⟩
    · exact absurd (hp.symm.trans hp') (by simp)
    · exact absurd (hp.symm.trans hp') (by simp)
    · have hle := h.index.le_of_handling hp (by simp)
      rw [hp] at hp'
      cases hp'
      cases hstep with
      | blocked he =>
          refine ⟨hi', Or.inr (Or.inl ⟨rfl, ?_⟩)⟩
          show s.data.writeIndex = s.data.readIndex
          by_contra hpend
          exact hne ⟨fun _ => by omega, fun _ => he⟩
      | failed he =>
          refine ⟨hi', Or.inr (Or.inr ⟨rfl, ?_⟩)⟩
          show s.data.writeIndex < s.data.readIndex
          by_contra hpend
          exact hne ⟨fun hb => absurd hb (by simp [he]), fun hlt => absurd hlt hpend⟩
  · exact absurd ((hP _ _ hp rfl).mpr heq) (by simp)
  · have heq : s.data.writeIndex = s.data.readIndex := (hP _ _ hp rfl).mp rfl
    omega

/--
**When the re-arms wait for the right thing.** While every write that accepts nothing
leaves a would-block `errno` exactly if bytes are pending, every call of `rearmEpoll`
matches what is pending on return; and in a run that ends between events that is the
only way for all of them to. What is pending on return is what `onReturn` says: with
that a handler that is at a re-arm comes back, whatever its calls are answered.
-/
theorem rearm_matches_iff {fd : Fd} {s : Connection} {ls : List Label}
    (hrun : (machine fd).run (accepted fd) ls = some s) :
    ((machine fd).Along BlocksIfPending (accepted fd) ls →
      (machine fd).Throughout RearmMatches (accepted fd) ls)
    ∧ (BetweenEvents s →
      (machine fd).Throughout RearmMatches (accepted fd) ls →
        (machine fd).Along BlocksIfPending (accepted fd) ls)
    ∧ ∀ pc as t, s.phase = .handling pc → pc.rearm? ≠ none →
        (machine fd).run s (List.map .handler as) = some t → t.phase = .idle →
          t.data = onReturn pc s.data := by
  have hspoilt : ∀ s, Misdirected s → BetweenEvents s → ¬ RearmMatches s := by
    intro s hmis hrest _
    obtain ⟨_, ⟨hp, _⟩ | ⟨hp, _⟩ | ⟨hp, _⟩⟩ := hmis
    · exact hrest _ hp
    · exact hrest _ hp
    · exact hrest _ hp
  obtain ⟨hholds, honly⟩ := Machine.throughout_iff_along (directionInv_init fd)
    (fun _ h => h.rearmMatches) (fun _ _ _ h _ hc hs => directionInv_step h hc hs)
    (fun _ _ _ h _ hc hs => h.misdirected hc hs) (fun _ _ _ h hP _ hs => h.step hP hs) hspoilt
    hrun Machine.along_true
  exact ⟨hholds, honly, fun _ _ _ hp hpc hgoes hreturn =>
    onReturn_run hp (Or.inl hpc) hgoes hreturn⟩

/-- Two bytes arrive; one is written back before the client's window is full. -/
def blockedHalfway : List Label :=
  [.deliver { epollin := true } .success, .dispatch, .handler .quiet,
    .handler (.read (.data [104, 105])), .handler .quiet, .handler .quiet,
    .handler (.read (.fail .eagain)), .handler .quiet, .handler .quiet,
    .handler (.write (.wrote 1)), .handler .quiet, .handler .quiet,
    .handler (.write (.fail .eagain)), .handler .quiet, .handler (.epollCtl none)]

theorem rearm_matches_blockedHalfway :
    (machine 7).Throughout RearmMatches (accepted 7) blockedHalfway
      ∧ (machine 7).Along BlocksIfPending (accepted 7) blockedHalfway := by
  have hval : ((machine 7).run (accepted 7) blockedHalfway).map (fun s => s.phase)
      = some .idle := by decide +kernel
  obtain ⟨s, hrun, hp⟩ := Option.map_eq_some_iff.mp hval
  have hmatch := (rearm_matches_iff hrun).1 (by decide +kernel)
  exact ⟨hmatch, (rearm_matches_iff hrun).2.1 (by simp [BetweenEvents, hp]) hmatch⟩

/-- An event without data: the read would block, and nothing is there to write. -/
def nothingToDo : List Label :=
  [.deliver { epollin := true } .success, .dispatch, .handler .quiet,
    .handler (.read (.fail .eagain)), .handler .quiet, .handler .quiet,
    .handler (.write (.wrote 0)), .handler .quiet]

/-- A hard error of `write()` with two bytes pending. -/
def writeFails : List Label :=
  [.deliver { epollin := true } .success, .dispatch, .handler .quiet,
    .handler (.read (.data [104, 105])), .handler .quiet, .handler .quiet,
    .handler (.read (.fail .eagain)), .handler .quiet, .handler .quiet,
    .handler (.write (.fail (.other 104))), .handler .quiet]

/-- It waits for output with nothing to send, and for input with bytes unsent. -/
theorem rearm_mismatched :
    (∃ s, (machine 7).Reachable s ∧ s.phase = .handling .blockedRearm
      ∧ s.data.writeIndex = s.data.readIndex ∧ ¬ RearmMatches s)
    ∧ ∃ s, (machine 7).Reachable s ∧ s.phase = .handling .writeFailRearm
      ∧ s.data.writeIndex < s.data.readIndex ∧ ¬ RearmMatches s := by
  refine ⟨?_, ?_⟩
  · have hval : ((machine 7).run (accepted 7) nothingToDo).map
        (fun s => (s.phase, s.data.writeIndex, s.data.readIndex))
        = some (.handling .blockedRearm, 0, 0) := by decide +kernel
    obtain ⟨s, hrun, heq⟩ := Option.map_eq_some_iff.mp hval
    simp only [Prod.mk.injEq] at heq
    have hsame : s.data.writeIndex = s.data.readIndex := heq.2.1.trans heq.2.2.symm
    refine ⟨s, .of_run (.init rfl) (by decide +kernel) hrun, heq.1, hsame, fun hmatch => ?_⟩
    exact absurd ((hmatch _ _ heq.1 rfl).mpr hsame) (by simp)
  · have hval : ((machine 7).run (accepted 7) writeFails).map
        (fun s => (s.phase, s.data.writeIndex, s.data.readIndex))
        = some (.handling .writeFailRearm, 0, 2) := by decide +kernel
    obtain ⟨s, hrun, heq⟩ := Option.map_eq_some_iff.mp hval
    simp only [Prod.mk.injEq] at heq
    have hlt : s.data.writeIndex < s.data.readIndex := by
      rw [heq.2.1, heq.2.2]
      decide
    refine ⟨s, .of_run (.init rfl) (by decide +kernel) hrun, heq.1, hlt, fun hmatch => ?_⟩
    have hsame : s.data.writeIndex = s.data.readIndex := (hmatch _ _ heq.1 rfl).mp rfl
    omega

end TcpServers.Connection
