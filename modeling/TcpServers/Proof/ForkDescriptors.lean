import TcpServers.Lib.Table
import TcpServers.Model.Fork

/-!
# Which process has which connection open

A child gets what its parent has open at the `fork()`. If the parent closes the descriptor
it has handed over, that is the one connection the child is for. If it does not, it is
every connection handed over so far, and each stays open until the parent, its own child
and all younger children are gone.
-/

namespace TcpServers.Fork

open Lib

variable {cfg : Config} {s s' : Fork} {l : Label}

/-- The connection an iteration of the parent is about. -/
def iteration : ParentPc → Option (Fd × Nat)
  | .fork fd c => some (fd, c)
  | .refused fd c => some (fd, c)
  | .handedOver fd c => some (fd, c)
  | _ => none

/-- `client_sfd` of the child for a connection. -/
def clientOf (s : Fork) (c : Nat) : Option Fd := (s.child c).map Child.clientSfd

/-- The child has not closed its connection. -/
def Serving (ch : Child) : Prop := ∃ pc, ch.pc = .echo pc

/-- The child for connection `d` has a descriptor of connection `c`. -/
def HasOpen (cfg : Config) (clients : Nat → Option Fd) (d : Nat) (ch : Child) (fd : Fd)
    (c : Nat) : Prop :=
  (c = d ∧ fd = ch.clientSfd ∧ Serving ch)
    ∨ (cfg.closesOnDestroy = false ∧ ch.pc ≠ .exited ∧ c < d ∧ clients c = some fd)

/-- The tables of the processes. -/
structure DescInv (cfg : Config) (s : Fork) : Prop where
  parent : ∀ fd c, s.fds fd = some (.conn c) ↔ iteration s.pc = some (fd, c)
    ∨ (cfg.closesOnDestroy = false ∧ s.pc ≠ .exited ∧ s.clientOf c = some fd)
  child : ∀ d ch, s.child d = some ch →
    ∀ fd c, ch.fds fd = some (.conn c) ↔ HasOpen cfg s.clientOf d ch fd c
  /-- An iteration is about the last connection, and before `fork()` that has no child. -/
  current : ∀ fd c, iteration s.pc = some (fd, c) → c + 1 = s.nextConn
    ∧ s.clientOf c = if s.pc = .handedOver fd c then some fd else none
  fresh : ∀ c, s.nextConn ≤ c → s.clientOf c = none
  listening : s.pc ≠ .exited → s.fds cfg.serverSfd = some .listener
  range : ∀ fd f, s.fds fd = some f → 0 ≤ fd ∧ fd < cfg.nofile
  clients : ∀ fd c, s.clientOf c = some fd → 0 ≤ fd ∧ fd < cfg.nofile ∧ fd ≠ cfg.serverSfd
  distinct : cfg.closesOnDestroy = false →
    ∀ fd c d, s.clientOf c = some fd → s.clientOf d = some fd → c = d

theorem start_fds {buffer : Store Byte} {fd : Fd} {f : OpenFile} :
    (start cfg buffer).fds fd = some f ↔ fd = cfg.serverSfd ∧ f = .listener := by
  simp only [start]
  constructor
  · intro h
    rcases Table.of_insert h with hnew | ⟨_, hold⟩
    · exact hnew
    · cases hold
  · intro h
    rw [h.1, h.2]
    exact Function.update_self _ _ _

theorem descInv_start (cfg : Config) (buffer : Store Byte) : DescInv cfg (start cfg buffer) where
  parent := by
    intro fd c
    rw [start_fds]
    constructor
    · intro h
      cases h.2
    · intro h
      rcases h with h | ⟨_, _, h⟩
      · cases h
      · cases h
  child := by
    intro d ch h
    cases h
  current := by
    intro fd c h
    cases h
  fresh := fun _ _ => rfl
  listening := fun _ => start_fds.mpr ⟨rfl, rfl⟩
  range := by
    intro fd f h
    rw [(start_fds.mp h).1]
    exact ⟨cfg.serverSfd_nonneg, cfg.serverSfd_lt⟩
  clients := by
    intro fd c h
    cases h
  distinct := by
    intro _ fd c d h
    cases h

/-! ## The children -/

/-- A statement of a child leaves `client_sfd` alone. -/
theorem childStep_client {ch ch' : Child} {a : EchoAnswer} (h : ChildStep ch a ch') :
    ch'.clientSfd = ch.clientSfd := by
  cases h <;> rfl

theorem clientOf_setChild {c : Nat} {ch ch' : Child} (hch : s.child c = some ch)
    (hsame : ch'.clientSfd = ch.clientSfd) : (s.setChild c ch').clientOf = s.clientOf := by
  funext d
  unfold clientOf
  by_cases hd : d = c
  · subst hd
    simp [hch, hsame]
  · simp [Function.update_of_ne hd]

/-- What a statement of a child leaves open of what it had. -/
theorem childStep_table {clients : Nat → Option Fd} {d : Nat} {ch ch' : Child} {a : EchoAnswer}
    (h : ∀ fd c, ch.fds fd = some (.conn c) ↔ HasOpen cfg clients d ch fd c)
    (hstep : ChildStep ch a ch') (fd : Fd) (c : Nat) :
    ch'.fds fd = some (.conn c) ↔ HasOpen cfg clients d ch' fd c := by
  cases hstep with
  | echo hpc _ _ =>
      rw [h fd c]
      simp [HasOpen, Serving, hpc]
  | @close why hpc =>
      have hown : ch.fds ch.clientSfd = some (.conn d) :=
        (h _ d).mpr (Or.inl ⟨rfl, rfl, _, hpc⟩)
      constructor
      · intro hopen
        obtain ⟨hne, hold⟩ := Table.of_remove hopen
        rcases (h fd c).mp hold with ⟨_, hfd, _⟩ | ⟨hcloses, _, hlt, hclient⟩
        · exact absurd hfd hne
        · exact Or.inr ⟨hcloses, by simp, hlt, hclient⟩
      · intro hcase
        rcases hcase with ⟨_, _, pc, hserving⟩ | ⟨hcloses, _, hlt, hclient⟩
        · cases hserving
        · have hold : ch.fds fd = some (.conn c) :=
            (h fd c).mpr (Or.inr ⟨hcloses, by simp [hpc], hlt, hclient⟩)
          refine Table.kept hold ?_
          rw [hown]
          simp only [ne_eq, Option.some.injEq, OpenFile.conn.injEq]
          omega
  | exit hpc =>
      constructor
      · intro hopen
        cases hopen
      · intro hcase
        rcases hcase with ⟨_, _, pc, hserving⟩ | ⟨_, hlive, _⟩
        · cases hserving
        · exact absurd rfl hlive

/-- No statement of a child changes what the others have open. -/
theorem descInv_child (h : DescInv cfg s) {c : Nat} {ch ch' : Child} {a : EchoAnswer}
    (hch : s.child c = some ch) (hstep : ChildStep ch a ch') :
    DescInv cfg (s.setChild c ch') := by
  have hclient := clientOf_setChild hch (childStep_client hstep)
  refine ⟨?_, ?_, ?_, ?_, h.listening, h.range, ?_, ?_⟩
  · rw [hclient]
    exact h.parent
  · intro d chd hd
    rw [hclient]
    rcases Table.of_insert hd with ⟨rfl, rfl⟩ | ⟨_, hold⟩
    · exact childStep_table (h.child d ch hch) hstep
    · exact h.child d chd hold
  · rw [hclient]
    exact h.current
  · rw [hclient]
    exact h.fresh
  · rw [hclient]
    exact h.clients
  · rw [hclient]
    exact h.distinct

/-! ## The parent -/

/-- The connection of an iteration is open in the parent. -/
theorem DescInv.open_current (h : DescInv cfg s) {fd : Fd} {c : Nat}
    (hpc : iteration s.pc = some (fd, c)) : s.fds fd = some (.conn c) :=
  (h.parent fd c).mpr (Or.inl hpc)

/-- The next connection gets a descriptor that is not in use in the parent. -/
theorem descInv_accepted (h : DescInv cfg s) {fd : Fd} (hpc : s.pc = .accept) (h0 : 0 ≤ fd)
    (hlt : fd < cfg.nofile) (hfree : s.fds fd = none) :
    DescInv cfg { s with
      fds := Function.update s.fds fd (some (.conn s.nextConn))
      pc := .fork fd s.nextConn
      nextConn := s.nextConn + 1 } where
  parent := by
    intro fd' c
    constructor
    · intro hopen
      rcases Table.of_insert hopen with ⟨rfl, hc⟩ | ⟨_, hold⟩
      · cases hc
        exact Or.inl rfl
      · rcases (h.parent fd' c).mp hold with hit | ⟨hcloses, _, hclient⟩
        · rw [hpc] at hit
          cases hit
        · exact Or.inr ⟨hcloses, by simp, hclient⟩
    · intro hcase
      rcases hcase with hit | ⟨hcloses, _, hclient⟩
      · cases hit
        exact Function.update_self _ _ _
      · have hold : s.fds fd' = some (.conn c) :=
          (h.parent fd' c).mpr (Or.inr ⟨hcloses, by simp [hpc], hclient⟩)
        exact Table.kept hold (by rw [hfree]; simp)
  child := h.child
  current := by
    intro fd' c hc
    cases hc
    exact ⟨rfl, h.fresh _ (Nat.le_refl _)⟩
  fresh := fun c hc => h.fresh c (Nat.le_of_succ_le hc)
  listening := by
    intro _
    have hlisten := h.listening (by rw [hpc]; simp)
    exact Table.kept hlisten (by rw [hfree]; simp)
  range := by
    intro fd' f hf
    rcases Table.of_insert hf with ⟨rfl, _⟩ | ⟨_, hold⟩
    · exact ⟨h0, hlt⟩
    · exact h.range fd' f hold
  clients := h.clients
  distinct := h.distinct

theorem clientOf_forked {fd : Fd} {c : Nat} {pc : ParentPc} (d : Nat) :
    ({ s.setChild c (s.forked fd) with pc := pc } : Fork).clientOf d
      = if d = c then some fd else s.clientOf d := by
  unfold clientOf
  by_cases hd : d = c
  · subst hd
    simp [forked]
  · simp [hd]

/-- `fork()` copies the table, whatever is in it. -/
theorem descInv_forked (h : DescInv cfg s) {fd : Fd} {c : Nat} (hpc : s.pc = .fork fd c) :
    DescInv cfg { s.setChild c (s.forked fd) with pc := .handedOver fd c } := by
  have hit : iteration s.pc = some (fd, c) := by rw [hpc]; rfl
  have hopen := h.open_current hit
  obtain ⟨hlast, hnone⟩ := h.current fd c hit
  rw [if_neg (by rw [hpc]; simp)] at hnone
  -- what the parent had open for a child is another connection, and an older one
  have hother : ∀ fd' d, s.clientOf d = some fd' → d < c := by
    intro fd' d hd
    have hne : d ≠ c := ne_of_apply_ne s.clientOf (by rw [hd, hnone]; simp)
    have hlt : d < s.nextConn := by
      by_contra hge
      rw [h.fresh d (Nat.le_of_not_lt hge)] at hd
      cases hd
    omega
  refine ⟨?_, ?_, ?_, ?_, ?_, h.range, ?_, ?_⟩
  · intro fd' d
    rw [clientOf_forked]
    refine (h.parent fd' d).trans ?_
    rw [hit]
    constructor
    · intro hcase
      rcases hcase with hcur | ⟨hcloses, _, hclient⟩
      · exact Or.inl hcur
      · rw [if_neg (Nat.ne_of_lt (hother fd' d hclient))]
        exact Or.inr ⟨hcloses, by simp, hclient⟩
    · intro hcase
      rcases hcase with hcur | ⟨hcloses, _, hclient⟩
      · exact Or.inl hcur
      · split at hclient
        · rename_i hd
          cases hclient
          exact Or.inl (by rw [hd])
        · exact Or.inr ⟨hcloses, by simp [hpc], hclient⟩
  · intro d chd hd fd' e
    unfold HasOpen
    rw [clientOf_forked]
    rcases Table.of_insert hd with ⟨rfl, rfl⟩ | ⟨hne, hold⟩
    · refine (h.parent fd' e).trans ?_
      rw [hit]
      constructor
      · intro hcase
        rcases hcase with hcur | ⟨hcloses, _, hclient⟩
        · cases hcur
          exact Or.inl ⟨rfl, rfl, _, rfl⟩
        · have hlt := hother fd' e hclient
          rw [if_neg (Nat.ne_of_lt hlt)]
          exact Or.inr ⟨hcloses, by simp [forked], hlt, hclient⟩
      · intro hcase
        rcases hcase with ⟨rfl, rfl, _⟩ | ⟨hcloses, _, hlt, hclient⟩
        · exact Or.inl rfl
        · rw [if_neg (Nat.ne_of_lt hlt)] at hclient
          exact Or.inr ⟨hcloses, by simp [hpc], hclient⟩
    · have hdc : d < c := hother chd.clientSfd d (by simp only [clientOf, hold, Option.map_some])
      refine (h.child d chd hold fd' e).trans ?_
      unfold HasOpen
      by_cases he : e = c
      · subst he
        have hlt : ¬ e < d := by omega
        simp [hlt]
      · rw [if_neg he]
  · intro fd' d hd
    cases hd
    exact ⟨hlast, by rw [clientOf_forked, if_pos rfl, if_pos rfl]⟩
  · intro d hd
    have hd : s.nextConn ≤ d := hd
    rw [clientOf_forked, if_neg (by omega)]
    exact h.fresh d hd
  · intro _
    exact h.listening (by rw [hpc]; simp)
  · intro fd' d hd
    rw [clientOf_forked] at hd
    split at hd
    · cases hd
      obtain ⟨h0, hlt⟩ := h.range fd _ hopen
      have hlisten := h.listening (by rw [hpc]; simp)
      exact ⟨h0, hlt, ne_of_apply_ne s.fds (by rw [hopen, hlisten]; simp)⟩
    · exact h.clients fd' d hd
  · intro hcloses fd' d e hd he
    have hsame : ∀ d, s.clientOf d = some fd → False := by
      intro d hd
      have hold := (h.parent fd d).mpr (Or.inr ⟨hcloses, by simp [hpc], hd⟩)
      rw [hopen] at hold
      cases hold
      rw [hnone] at hd
      cases hd
    rw [clientOf_forked] at hd he
    split at hd <;> split at he
    · omega
    · cases hd
      exact absurd he (hsame e)
    · cases he
      exact absurd hd (hsame d)
    · exact h.distinct hcloses fd' d e hd he

/-- At the end of an iteration the parent closes the descriptor, or keeps it for good. -/
theorem descInv_iterated (h : DescInv cfg s) {fd : Fd} {c : Nat}
    (hit : iteration s.pc = some (fd, c)) {fds : Descriptors}
    (hfds : fds = Function.update s.fds fd none
      ∨ (fds = s.fds ∧ cfg.closesOnDestroy = false ∧ s.clientOf c = some fd))
    (hkept : fds = Function.update s.fds fd none → cfg.closesOnDestroy = false →
      s.clientOf c = none) :
    DescInv cfg { s with fds := fds, pc := .accept } where
  parent := by
    intro fd' d
    have hpc : s.pc ≠ .exited := by
      intro hex
      rw [hex] at hit
      cases hit
    have hopen := h.open_current hit
    rcases hfds with rfl | ⟨rfl, hcloses, hclient⟩
    · constructor
      · intro hd
        obtain ⟨hne, hold⟩ := Table.of_remove hd
        rcases (h.parent fd' d).mp hold with hcur | ⟨hcloses, _, hclient⟩
        · rw [hit] at hcur
          cases hcur
          exact absurd rfl hne
        · exact Or.inr ⟨hcloses, by simp, hclient⟩
      · intro hcase
        rcases hcase with hcur | ⟨hcloses, _, hclient⟩
        · cases hcur
        · have hold := (h.parent fd' d).mpr (Or.inr ⟨hcloses, hpc, hclient⟩)
          refine Table.kept hold (fun heq => ?_)
          rw [hopen] at heq
          cases heq
          exact absurd ((hkept rfl hcloses).symm.trans hclient) (by simp)
    · constructor
      · intro hd
        rcases (h.parent fd' d).mp hd with hcur | ⟨_, _, hold⟩
        · rw [hit] at hcur
          cases hcur
          exact Or.inr ⟨hcloses, by simp, hclient⟩
        · exact Or.inr ⟨hcloses, by simp, hold⟩
      · intro hcase
        rcases hcase with hcur | ⟨_, _, hold⟩
        · cases hcur
        · exact (h.parent fd' d).mpr (Or.inr ⟨hcloses, hpc, hold⟩)
  child := h.child
  current := by
    intro fd' d hd
    cases hd
  fresh := h.fresh
  listening := by
    intro _
    have hpc : s.pc ≠ .exited := by
      intro hex
      rw [hex] at hit
      cases hit
    have hlisten := h.listening hpc
    rcases hfds with rfl | ⟨rfl, _⟩
    · exact Table.kept hlisten (by rw [h.open_current hit]; simp)
    · exact hlisten
  range := by
    intro fd' f hf
    rcases hfds with rfl | ⟨rfl, _⟩
    · exact h.range fd' f (Table.of_remove hf).2
    · exact h.range fd' f hf
  clients := h.clients
  distinct := h.distinct

/-- A call that fails moves the parent on and changes no table. -/
theorem descInv_failed (h : DescInv cfg s) {pc : ParentPc} (hlive : s.pc ≠ .exited)
    (hlive' : pc ≠ .exited) (hit : iteration pc = iteration s.pc)
    (hhanded : ∀ fd c, s.pc ≠ .handedOver fd c) (hhanded' : ∀ fd c, pc ≠ .handedOver fd c) :
    DescInv cfg { s with pc := pc } where
  parent := by
    intro fd c
    refine (h.parent fd c).trans ?_
    rw [← hit]
    exact or_congr_right (and_congr_right fun _ => and_congr_left fun _ =>
      ⟨fun _ => hlive', fun _ => hlive⟩)
  child := h.child
  current := by
    intro fd c hc
    obtain ⟨hlast, hnone⟩ := h.current fd c (hit ▸ hc)
    rw [if_neg (hhanded fd c)] at hnone
    exact ⟨hlast, by rw [if_neg (hhanded' fd c)]; exact hnone⟩
  fresh := h.fresh
  listening := fun _ => h.listening hlive
  range := h.range
  clients := h.clients
  distinct := h.distinct

/-- `exit()` closes what the process has, and nothing of the others. -/
theorem descInv_exited (h : DescInv cfg s) :
    DescInv cfg { s with fds := fun _ => none, pc := .exited } where
  parent := by
    intro fd c
    constructor
    · intro hopen
      cases hopen
    · intro hcase
      rcases hcase with hc | ⟨_, hlive, _⟩
      · cases hc
      · exact absurd rfl hlive
  child := h.child
  current := by
    intro fd c hc
    cases hc
  fresh := h.fresh
  listening := fun hlive => absurd rfl hlive
  range := by
    intro fd f hf
    cases hf
  clients := h.clients
  distinct := h.distinct

theorem descInv_step (h : DescInv cfg s) (hs : Step cfg s l s') : DescInv cfg s' := by
  cases hs with
  | accepted hpc h0 hlt hfree => exact descInv_accepted h hpc h0 hlt hfree
  | acceptFailed hpc =>
      exact descInv_failed h (by simp [hpc]) (by simp) (by simp [hpc, iteration]) (by simp [hpc])
        (by simp)
  | forked hpc => exact descInv_forked h hpc
  | forkFailed hpc =>
      exact descInv_failed h (by simp [hpc]) (by simp) (by simp [hpc, iteration]) (by simp [hpc])
        (by simp)
  | refused hpc =>
      refine descInv_iterated h (by rw [hpc]; rfl) (Or.inl rfl) (fun _ _ => ?_)
      have hnone := (h.current _ _ (by rw [hpc]; rfl)).2
      rwa [if_neg (by rw [hpc]; simp)] at hnone
  | @handedOver fd c hpc =>
      have hit : iteration s.pc = some (fd, c) := by rw [hpc]; rfl
      have hclient := (h.current fd c hit).2
      rw [if_pos hpc] at hclient
      cases hcloses : cfg.closesOnDestroy with
      | true =>
          refine descInv_iterated h hit (Or.inl rfl) (fun _ hno => ?_)
          exact absurd hno (by simp [hcloses])
      | false =>
          refine descInv_iterated h hit (Or.inr ⟨rfl, hcloses, hclient⟩) (fun hsame _ => ?_)
          have hopen := h.open_current hit
          have hgone := congrFun hsame fd
          rw [Function.update_self] at hgone
          exact absurd (hopen.symm.trans hgone) (by simp)
  | exit hpc => exact descInv_exited h
  | child hch hstep => exact descInv_child h hch hstep

theorem descInv_reachable {C : Fork → Label → Prop} (h : (machine cfg).ReachableVia C s) :
    DescInv cfg s := by
  refine Machine.ReachableVia.invariant ?_ ?_ h
  · rintro s ⟨buffer, rfl⟩
    exact descInv_start cfg buffer
  · intro s l s' _ hi _ hn
    exact descInv_step hi (next_cases hn)

/-! ## How long a connection stays open -/

/-- Some process has a descriptor of the connection: its client sees no end of stream. -/
def IsOpen (s : Fork) (c : Nat) : Prop :=
  (∃ fd, s.fds fd = some (.conn c)) ∨ ∃ d ch fd, s.child d = some ch ∧ ch.fds fd = some (.conn c)

theorem clientOf_some {c : Nat} {fd : Fd} :
    s.clientOf c = some fd ↔ ∃ ch, s.child c = some ch ∧ ch.clientSfd = fd :=
  Option.map_eq_some_iff

/--
**How long a connection stays open.** If the parent's descriptor is closed with the object
that holds it, a connection is open until its own child has closed it. If it is not, a
connection that was handed over is open as long as the parent, its own child up to
`close_fd()`, or any younger child is running. Besides, the parent has it open for the
iteration in which it accepted it.
-/
theorem isOpen_iff (h : (machine cfg).Reachable s) (c : Nat) :
    IsOpen s c ↔ (∃ fd, iteration s.pc = some (fd, c)) ∨ ∃ ch, s.child c = some ch
      ∧ (Serving ch ∨ cfg.closesOnDestroy = false
        ∧ (s.pc ≠ .exited ∨ ∃ d ch', c < d ∧ s.child d = some ch' ∧ ch'.pc ≠ .exited)) := by
  have hinv := descInv_reachable h
  constructor
  · intro hcase
    rcases hcase with ⟨fd, hfd⟩ | ⟨d, ch, fd, hd, hfd⟩
    · rcases (hinv.parent fd c).mp hfd with hit | ⟨hcloses, hlive, hclient⟩
      · exact Or.inl ⟨fd, hit⟩
      · obtain ⟨ch, hch, _⟩ := clientOf_some.mp hclient
        exact Or.inr ⟨ch, hch, Or.inr ⟨hcloses, Or.inl hlive⟩⟩
    · rcases (hinv.child d ch hd fd c).mp hfd with ⟨rfl, _, hserving⟩ |
        ⟨hcloses, hlive, hlt, hclient⟩
      · exact Or.inr ⟨ch, hd, Or.inl hserving⟩
      · obtain ⟨ch', hch', _⟩ := clientOf_some.mp hclient
        exact Or.inr ⟨ch', hch', Or.inr ⟨hcloses, Or.inr ⟨d, ch, hlt, hd, hlive⟩⟩⟩
  · intro hcase
    rcases hcase with ⟨fd, hit⟩ | ⟨ch, hch, hserving | ⟨hcloses, hlive | ⟨d, ch', hlt, hd, hlive⟩⟩⟩
    · exact Or.inl ⟨fd, hinv.open_current hit⟩
    · exact Or.inr ⟨c, ch, _, hch, (hinv.child c ch hch _ c).mpr (Or.inl ⟨rfl, rfl, hserving⟩)⟩
    · have hclient := clientOf_some.mpr ⟨ch, hch, rfl⟩
      exact Or.inl ⟨_, (hinv.parent _ c).mpr (Or.inr ⟨hcloses, hlive, hclient⟩)⟩
    · have hclient := clientOf_some.mpr ⟨ch, hch, rfl⟩
      exact Or.inr ⟨d, ch', _, hd,
        (hinv.child d ch' hd _ c).mpr (Or.inr ⟨hcloses, hlive, hlt, hclient⟩)⟩

/-- A listener with descriptor `3`, and room for four connections at once. -/
def demo (closesOnDestroy : Bool) : Config where
  serverSfd := 3
  nofile := 8
  closesOnDestroy := closesOnDestroy
  serverSfd_nonneg := Int.natCast_nonneg 3
  serverSfd_lt := by decide

/-- Two clients come, and the first one's child has seen the end of its stream and is gone. -/
def firstLeaves : List Label :=
  [.accept (.ok 4), .fork true, .parent, .accept (.ok 5), .fork true, .parent,
    .child 0 (.read (.data [])), .child 0 .quiet, .child 0 .quiet]

theorem isOpen_iff_firstLeaves :
    (∃ s, (machine (demo false)).Reachable s ∧ (s.child 0).map Child.pc = some .exited
      ∧ IsOpen s 0)
    ∧ ∃ s, (machine (demo true)).Reachable s ∧ (s.child 0).map Child.pc = some .exited
      ∧ ¬ IsOpen s 0 := by
  have hreached : ∀ b, ∃ s, (machine (demo b)).Reachable s ∧ s.pc = .accept
      ∧ (s.child 0).map Child.pc = some .exited := by
    intro b
    have hval : ((machine (demo b)).run (start (demo b) (fun _ => 0)) firstLeaves).map
        (fun s => (s.pc, (s.child 0).map Child.pc)) = some (.accept, some .exited) := by
      cases b <;> decide +kernel
    obtain ⟨s, hrun, heq⟩ := Option.map_eq_some_iff.mp hval
    obtain ⟨hpc, hchild⟩ := Prod.mk.inj heq
    exact ⟨s, .of_run (.init ⟨_, rfl⟩) Machine.along_true hrun, hpc, hchild⟩
  constructor
  · obtain ⟨s, hr, hpc, hchild⟩ := hreached false
    obtain ⟨ch, hch, _⟩ := Option.map_eq_some_iff.mp hchild
    exact ⟨s, hr, hchild,
      (isOpen_iff hr 0).mpr (Or.inr ⟨ch, hch, Or.inr ⟨rfl, Or.inl (by simp [hpc])⟩⟩)⟩
  · obtain ⟨s, hr, hpc, hchild⟩ := hreached true
    refine ⟨s, hr, hchild, fun hopen => ?_⟩
    rcases (isOpen_iff hr 0).mp hopen with ⟨fd, hit⟩ | ⟨ch, hch, ⟨pc, hserving⟩ | ⟨hcloses, _⟩⟩
    · rw [hpc] at hit
      cases hit
    · rw [hch] at hchild
      simp [hserving] at hchild
    · cases hcloses

end TcpServers.Fork
