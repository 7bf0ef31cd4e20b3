import TcpServers.Lib.Table
import TcpServers.Model.Select

/-!
# What `read_fd_backup_set` and `max_sfd` are

Within one pass of the scan clients are accepted, which raises `max_sfd`, and closed,
which can lower it, while the scan goes by the answer `select()` gave before. It only
looks ahead, and it closes only what it has come to: so a bit it has still to look at
belongs to a descriptor that is still open.
-/

namespace TcpServers.SelectServer

open Lib

variable {cfg : Config} {s s' : SelectServer} {l : Label}

/-- No descriptor is handed out that a `fd_set` has no bit for. -/
def BelowSetsize (_ : SelectServer) : Label → Prop
  | .accept4 (.ok fd) => fd < fdSetsize
  | _ => True

instance (s : SelectServer) : (l : Label) → Decidable (BelowSetsize s l)
  | .accept4 (.ok fd) => inferInstanceAs (Decidable (fd < fdSetsize))
  | .accept4 (.error _) | .select _ _ | .selectFailed | .scan | .read _ | .log | .write _
  | .close => isTrue trivial

/-- From which number on the scan has still to look. -/
def ahead : SelectPc → Option Int
  | .scan i => some i
  | .accept i => some (i + 1)
  | .read i => some (i + 1)
  | .logReceived i _ => some (i + 1)
  | .write i _ => some (i + 1)
  | .close i => some (i + 1)
  | .select => none
  | .thrown => none

/-- The client the server is busy with. -/
def serving : SelectPc → Option Fd
  | .read i => some i
  | .logReceived i _ => some i
  | .write i _ => some i
  | .close i => some i
  | _ => none

/-- The two sets, the maximum and the open descriptors. -/
structure SetsInv (cfg : Config) (s : SelectServer) : Prop where
  members : ∀ fd, s.readFdBackupSet fd = true ↔ fd = cfg.serverSfd ∨ ∃ c, s.fdTable fd = some c
  greatest : IsGreatest {fd : Fd | s.readFdBackupSet fd = true} s.maxSfd
  client : ∀ fd c, s.fdTable fd = some c → 0 ≤ fd ∧ fd ≠ cfg.serverSfd ∧ fd < fdSetsize
  /-- A bit that is still to be looked at is that of a member. -/
  ahead : ∀ k fd, ahead s.pc = some k → k ≤ fd → s.readFdSet fd = true →
    s.readFdBackupSet fd = true
  serving : ∀ i, serving s.pc = some i → ∃ c, s.fdTable i = some c

theorem setsInv_start (cfg : Config) (buffer : Store Byte) : SetsInv cfg (start cfg buffer) where
  members := by
    intro fd
    simp [start]
  greatest := by
    refine ⟨by simp [start], fun fd hfd => ?_⟩
    have heq : fd = cfg.serverSfd := by simpa [start] using hfd
    exact Int.le_of_eq heq
  client := by
    intro fd c hc
    cases hc
  ahead := by
    intro k fd hk
    cases hk
  serving := by
    intro i hi
    cases hi

/-- Steps between two statements need only answer for where the scan and the server are. -/
theorem SetsInv.of_same (h : SetsInv cfg s) (htable : s'.fdTable = s.fdTable)
    (hset : s'.readFdBackupSet = s.readFdBackupSet) (hmax : s'.maxSfd = s.maxSfd)
    (hahead : ∀ k fd, SelectServer.ahead s'.pc = some k → k ≤ fd → s'.readFdSet fd = true →
      s.readFdBackupSet fd = true)
    (hserving : ∀ i, SelectServer.serving s'.pc = some i → ∃ c, s.fdTable i = some c) :
    SetsInv cfg s' where
  members := by
    rw [htable, hset]
    exact h.members
  greatest := by
    rw [hset, hmax]
    exact h.greatest
  client := by
    rw [htable]
    exact h.client
  ahead := by
    rw [hset]
    exact hahead
  serving := by
    rw [htable]
    exact hserving

/-- What the scan has still to look at only gets less. -/
theorem SetsInv.ahead_of_le (h : SetsInv cfg s) {k : Int} (hk : SelectServer.ahead s.pc = some k)
    (hbits : s'.readFdSet = s.readFdSet) {k' : Int} (hle : k ≤ k') :
    ∀ j fd, some k' = some j → j ≤ fd → s'.readFdSet fd = true → s.readFdBackupSet fd = true := by
  intro j fd hj hfd hbit
  cases hj
  rw [hbits] at hbit
  exact h.ahead k fd hk (by omega) hbit

/-- `accept4`: the new descriptor joins the set and may be its maximum. -/
theorem setsInv_accepted (h : SetsInv cfg s) {i fd : Fd} (hpc : s.pc = .accept i)
    (hnonneg : 0 ≤ fd) (hne : fd ≠ cfg.serverSfd) (hbelow : fd < fdSetsize) :
    SetsInv cfg { s with
      fdTable := Function.update s.fdTable fd (some s.nextConn)
      readFdBackupSet := Function.update s.readFdBackupSet fd true
      maxSfd := max s.maxSfd fd
      nextConn := s.nextConn + 1 } := by
  have hset : {f : Fd | Function.update s.readFdBackupSet fd true f = true}
      = insert fd {f : Fd | s.readFdBackupSet f = true} := by
    ext f
    by_cases hf : f = fd
    · subst hf
      simp
    · simp [hf]
  refine ⟨fun f => ?_, ?_, fun f c hc => ?_, fun k f hk hle hbit => ?_, fun j hj => ?_⟩
  · by_cases hf : f = fd
    · subst hf
      simp
    · simp only [Function.update_of_ne hf]
      exact h.members f
  · show IsGreatest {f : Fd | Function.update s.readFdBackupSet fd true f = true} _
    rw [hset, max_comm]
    exact h.greatest.insert fd
  · rcases Table.of_insert hc with ⟨rfl, _⟩ | ⟨_, hc⟩
    · exact ⟨hnonneg, hne, hbelow⟩
    · exact h.client f c hc
  · by_cases hf : f = fd
    · subst hf
      simp
    · simp only [Function.update_of_ne hf]
      exact h.ahead k f hk hle hbit
  · simp only [hpc] at hj
    cases hj

/-- `close`: the descriptor leaves the set, and the maximum is searched for if it was that. -/
theorem setsInv_close (h : SetsInv cfg s) {i : Fd} (hpc : s.pc = .close i) :
    SetsInv cfg { s with
      fdTable := Function.update s.fdTable i none
      readFdBackupSet := Function.update s.readFdBackupSet i false
      maxSfd := if i = s.maxSfd then
          searchDown (Function.update s.readFdBackupSet i false) s.maxSfd.toNat
        else s.maxSfd
      pc := .scan (i + 1) } := by
  obtain ⟨c, hc⟩ := h.serving i (by rw [hpc]; rfl)
  have hne : i ≠ cfg.serverSfd := (h.client i c hc).2.1
  have hstays : ∀ f, Function.update s.readFdBackupSet i false f = true →
      f ≠ i ∧ s.readFdBackupSet f = true := by
    intro f hf
    by_cases hfi : f = i
    · subst hfi
      simp at hf
    · rw [Function.update_of_ne hfi] at hf
      exact ⟨hfi, hf⟩
  have hlistener : Function.update s.readFdBackupSet i false cfg.serverSfd = true := by
    rw [Function.update_of_ne (fun heq => hne heq.symm)]
    exact (h.members cfg.serverSfd).mpr (Or.inl rfl)
  refine ⟨fun f => ?_, ?_, fun f d hd => ?_, fun k f hk hle hbit => ?_, fun j hj => ?_⟩
  · by_cases hf : f = i
    · subst hf
      simp [hne]
    · simp only [Function.update_of_ne hf]
      exact h.members f
  · dsimp only
    split
    · rename_i hmax
      refine isGreatest_searchDown (k := cfg.serverSfd) (fun m hm => ?_) (fun m hm => ?_) hlistener
      · rcases (h.members m).mp (hstays m hm).2 with rfl | ⟨d, hd⟩
        · exact cfg.nonneg
        · exact (h.client m d hd).1
      · have hle : m ≤ s.maxSfd := h.greatest.2 (hstays m hm).2
        exact lt_of_le_of_ne hle (fun heq => (hstays m hm).1 (heq.trans hmax.symm))
    · rename_i hmax
      refine ⟨?_, fun m hm => h.greatest.2 (hstays m hm).2⟩
      show Function.update s.readFdBackupSet i false s.maxSfd = true
      rw [Function.update_of_ne (fun heq => hmax heq.symm)]
      exact h.greatest.1
  · exact h.client f d (Table.of_remove hd).2
  · cases hk
    have hf : f ≠ i := by omega
    simp only [Function.update_of_ne hf]
    exact h.ahead (i + 1) f (by rw [hpc]; rfl) hle hbit
  · cases hj

/-- **Preserved by every step.** -/
theorem setsInv_step (h : SetsInv cfg s) (hl : BelowSetsize s l) (hs : Step cfg s l s') :
    SetsInv cfg s' := by
  cases hs with
  | select hpc =>
      refine h.of_same rfl rfl rfl (fun k fd _ _ hbit => ?_) (by intro i hi; cases hi)
      exact (Bool.and_eq_true _ _ ▸ hbit).1
  | selectFailed | scanned | acceptFailed =>
      exact h.of_same rfl rfl rfl (by intro k fd hk; cases hk) (by intro i hi; cases hi)
  | pass hpc =>
      exact h.of_same rfl rfl rfl (h.ahead_of_le (by rw [hpc]; rfl) rfl (by omega))
        (by intro i hi; cases hi)
  | connection hpc =>
      exact h.of_same rfl rfl rfl (h.ahead_of_le (by rw [hpc]; rfl) rfl (by omega))
        (by intro i hi; cases hi)
  | @readable i hpc _ _ hbit hne =>
      refine h.of_same rfl rfl rfl (h.ahead_of_le (by rw [hpc]; rfl) rfl (by omega)) ?_
      intro j hj
      cases hj
      have hmember := h.ahead i i (by rw [hpc]; rfl) (Int.le_refl _) hbit
      exact ((h.members i).mp hmember).resolve_left hne
  | accepted hpc hnonneg hne => exact setsInv_accepted h hpc hnonneg hne hl
  | noMore hpc | drained hpc | blocked hpc =>
      exact h.of_same rfl rfl rfl (h.ahead_of_le (by rw [hpc]; rfl) rfl (Int.le_refl _))
        (by intro i hi; cases hi)
  | endOfStream hpc | chunk hpc | readFailed hpc | logged hpc | wrote hpc | writeFailed hpc =>
      exact h.of_same rfl rfl rfl (h.ahead_of_le (by rw [hpc]; rfl) rfl (Int.le_refl _))
        (by intro i hi; cases hi; exact h.serving _ (by rw [hpc]; rfl))
  | close hpc => exact setsInv_close h hpc

theorem setsInv_reachable (h : (machine cfg).ReachableVia BelowSetsize s) : SetsInv cfg s := by
  refine Machine.ReachableVia.invariant ?_ ?_ h
  · intro s hinit
    obtain ⟨buffer, rfl⟩ := hinit
    exact setsInv_start cfg buffer
  · intro s l s' _ hi hl hs
    exact setsInv_step hi hl (next_cases hs)

/--
**The sets represent the open clients.** As long as descriptors stay below
`FD_SETSIZE`, in every state: `read_fd_backup_set` is the listening socket and the
open clients, every one of them has a bit in it, and `max_sfd` is the greatest.
-/
theorem sets_represent (hbelow : cfg.serverSfd < fdSetsize)
    (h : (machine cfg).ReachableVia BelowSetsize s) :
    (∀ fd, s.readFdBackupSet fd = true ↔ fd = cfg.serverSfd ∨ ∃ c, s.fdTable fd = some c)
      ∧ (∀ fd, s.readFdBackupSet fd = true → 0 ≤ fd ∧ fd < fdSetsize)
      ∧ IsGreatest {fd : Fd | s.readFdBackupSet fd = true} s.maxSfd := by
  have hinv := setsInv_reachable h
  refine ⟨hinv.members, fun fd hfd => ?_, hinv.greatest⟩
  rcases (hinv.members fd).mp hfd with rfl | ⟨c, hc⟩
  · exact ⟨cfg.nonneg, hbelow⟩
  · exact ⟨(hinv.client fd c hc).1, (hinv.client fd c hc).2.2⟩

/-- The listening socket is descriptor `3`. -/
def listening : Config := ⟨3, by decide⟩

/--
Two clients are accepted in one pass; in the next the one with the greater number
closes, and its descriptor is handed out again.
-/
def closesHighest : List Label :=
  [.select [3] 1, .scan, .scan, .scan, .scan, .accept4 (.ok 5), .accept4 (.ok 8),
    .accept4 (.error .eagain), .scan,
    .select [3, 8] 2, .scan, .scan, .scan, .scan, .accept4 (.error .eagain), .scan, .scan, .scan,
    .scan, .scan, .read (.data []), .close, .scan,
    .select [3] 1, .scan, .scan, .scan, .scan, .accept4 (.ok 8), .accept4 (.error .eagain), .scan]

theorem sets_represent_closesHighest :
    ∃ s : SelectServer, s.maxSfd = 8 ∧ s.fdTable 8 = some 2
      ∧ IsGreatest {fd : Fd | s.readFdBackupSet fd = true} 8 := by
  have hval : ((machine listening).run (start listening (fun _ => 0)) closesHighest).map
      (fun s => (s.maxSfd, s.fdTable 8)) = some (8, some 2) := by decide +kernel
  obtain ⟨s, hrun, heq⟩ := Option.map_eq_some_iff.mp hval
  simp only [Prod.mk.injEq] at heq
  have hr : (machine listening).ReachableVia BelowSetsize s :=
    .of_run (.init ⟨_, rfl⟩) (by decide +kernel) hrun
  have hsets := sets_represent (by decide) hr
  refine ⟨s, heq.1, heq.2, ?_⟩
  rw [← heq.1]
  exact hsets.2.2

end TcpServers.SelectServer
