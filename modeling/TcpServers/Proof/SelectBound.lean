import TcpServers.Lib.Observe
import TcpServers.Proof.SelectSets

/-!
# Which bits of an `fd_set` are touched

`FD_SET`, `FD_CLR` and `FD_ISSET` index an array of `FD_SETSIZE` bits and check
nothing. The descriptors that get there come from `accept4()`, which answers any
number the process limit allows, and from the scan and the search for the new
`max_sfd`, which run up to numbers that were once accepted.
-/

namespace TcpServers.SelectServer

open Lib

variable {cfg : Config} {s s' t : SelectServer} {l : Label}

/-- The descriptors a step passes to `FD_SET`, `FD_CLR` and `FD_ISSET`. -/
def touches (s : SelectServer) : Label → List Fd
  | .scan =>
      match s.pc with
      | .scan i => if i ≤ s.maxSfd ∧ 0 < s.sfdReadyNo then [i] else []
      | _ => []
  | .accept4 (.ok fd) => [fd]
  | .close =>
      match s.pc with
      | .close i =>
          [i, i] ++ if i = s.maxSfd then
              searchDownTests (Function.update s.readFdBackupSet i false) s.maxSfd.toNat
            else []
      | _ => []
  | .accept4 (.error _) | .select _ _ | .selectFailed | .read _ | .log | .write _ => []

/-- A `fd_set` has a bit for the descriptor. -/
def HasBit (fd : Fd) : Prop := 0 ≤ fd ∧ fd < fdSetsize

/-- No bit outside an `fd_set` is touched, from the set-up on. -/
structure WithinFdSet (cfg : Config) (s : SelectServer) (ls : List Label) : Prop where
  /-- The listening socket is added before the loop. -/
  setUp : HasBit cfg.serverSfd
  macros : ∀ fd ∈ (machine cfg).observed touches s ls, HasBit fd
  maxSfd : (machine cfg).Throughout (fun s => s.maxSfd < fdSetsize) s ls

/-- The sets are right, and the scan counts from `0`. -/
structure BoundInv (cfg : Config) (s : SelectServer) : Prop where
  sets : SetsInv cfg s
  setUp : cfg.serverSfd < fdSetsize
  ahead_nonneg : ∀ k, ahead s.pc = some k → 0 ≤ k

theorem boundInv_start (buffer : Store Byte) (h : cfg.serverSfd < fdSetsize) :
    BoundInv cfg (start cfg buffer) where
  sets := setsInv_start cfg buffer
  setUp := h
  ahead_nonneg := by
    intro k hk
    cases hk

/-- The greatest member has a bit. -/
theorem BoundInv.maxSfd_lt (h : BoundInv cfg s) : s.maxSfd < fdSetsize := by
  rcases (h.sets.members s.maxSfd).mp h.sets.greatest.1 with heq | ⟨c, hc⟩
  · rw [heq]
    exact h.setUp
  · exact (h.sets.client s.maxSfd c hc).2.2

theorem boundInv_step (h : BoundInv cfg s) (hl : BelowSetsize s l) (hs : Step cfg s l s') :
    BoundInv cfg s' := by
  refine ⟨setsInv_step h.sets hl hs, h.setUp, fun k hk => ?_⟩
  have hnonneg := h.ahead_nonneg
  cases hs with
  | select => cases hk; exact Int.le_refl 0
  | selectFailed | scanned | acceptFailed => cases hk
  | pass hpc | connection hpc | readable hpc =>
      cases hk
      exact Int.le_of_lt (Int.lt_add_one_of_le (hnonneg _ (by rw [hpc]; rfl)))
  | accepted hpc => exact hnonneg k hk
  | noMore hpc | endOfStream hpc | chunk hpc | drained hpc | readFailed hpc | logged hpc
  | wrote hpc | blocked hpc | writeFailed hpc | close hpc =>
      exact hnonneg k (by rw [hpc]; exact hk)

/-- What is served has a bit. -/
theorem BoundInv.serving_hasBit (h : BoundInv cfg s) {i : Fd} (hi : serving s.pc = some i) :
    HasBit i := by
  obtain ⟨c, hc⟩ := h.sets.serving i hi
  exact ⟨(h.sets.client i c hc).1, (h.sets.client i c hc).2.2⟩

/-- **Every descriptor a step touches has a bit**, if it accepts none without. -/
theorem BoundInv.touches (h : BoundInv cfg s) (hl : BelowSetsize s l) (hs : Step cfg s l s') :
    ∀ fd ∈ SelectServer.touches s l, HasBit fd := by
  intro fd hfd
  have hmax := h.maxSfd_lt
  cases hs with
  | pass hpc | connection hpc | readable hpc | scanned hpc =>
      simp only [SelectServer.touches, hpc] at hfd
      split at hfd
      · rename_i hon
        rw [List.mem_singleton.mp hfd]
        exact ⟨h.ahead_nonneg _ (by rw [hpc]; rfl), Int.lt_of_le_of_lt hon.1 hmax⟩
      · cases hfd
  | accepted hpc hnonneg =>
      rw [List.mem_singleton.mp hfd]
      exact ⟨hnonneg, hl⟩
  | @close i hpc =>
      have hi : HasBit i := h.serving_hasBit (by rw [hpc]; rfl)
      simp only [SelectServer.touches, hpc, List.mem_append] at hfd
      rcases hfd with hfd | hfd
      · have heq : fd = i := by simpa using hfd
        rw [heq]
        exact hi
      · split at hfd
        · rename_i heq
          have hm := searchDownTests_mem hfd
          rw [Int.toNat_of_nonneg (heq ▸ hi.1)] at hm
          exact ⟨hm.1, Int.lt_trans hm.2 hmax⟩
        · cases hfd
  | select | selectFailed | noMore | acceptFailed | endOfStream | chunk | drained | readFailed
  | logged | wrote | blocked | writeFailed => cases hfd

/--
**No bit outside an `fd_set` is touched exactly where** the listening socket and
every descriptor `accept4()` returns are below `FD_SETSIZE`. In every run, with any
number of clients open at once.
-/
theorem within_fdSet_iff {buffer : Store Byte} {ls : List Label}
    (hrun : (machine cfg).run (start cfg buffer) ls = some t) :
    WithinFdSet cfg (start cfg buffer) ls ↔
      cfg.serverSfd < fdSetsize ∧ (machine cfg).Along BelowSetsize (start cfg buffer) ls := by
  constructor
  · intro h
    refine ⟨h.setUp.2, Machine.along_imp (fun s l hbits => ?_)
      ((Machine.observed_forall hrun).mp h.macros)⟩
    cases l with
    | accept4 r =>
        cases r with
        | ok fd => exact (hbits fd (List.mem_singleton_self fd)).2
        | error e => trivial
    | _ => trivial
  · rintro ⟨hlisten, hbelow⟩
    have h0 := boundInv_start buffer hlisten
    have hshown : BoundInv cfg t
        ∧ ∀ fd ∈ (machine cfg).observed SelectServer.touches (start cfg buffer) ls, HasBit fd := by
      refine Machine.observed_invariant
        (I := fun shown s => BoundInv cfg s ∧ ∀ fd ∈ shown, HasBit fd) ⟨h0, by simp⟩ ?_ hrun hbelow
      intro shown s l s' hi hl hn
      refine ⟨boundInv_step hi.1 hl (next_cases hn), fun fd hfd => ?_⟩
      rcases List.mem_append.mp hfd with hfd | hfd
      · exact hi.2 fd hfd
      · exact hi.1.touches hl (next_cases hn) fd hfd
    exact ⟨⟨cfg.nonneg, hlisten⟩, hshown.2, (Machine.throughout_of_along h0
        (fun s hi => hi.maxSfd_lt) (fun s l s' hi hl hn => boundInv_step hi hl (next_cases hn))
        hrun hbelow).1⟩

theorem within_fdSet_closesHighest :
    WithinFdSet listening (start listening (fun _ => 0)) closesHighest := by
  have hval : ((machine listening).run (start listening (fun _ => 0)) closesHighest).isSome
      = true := by decide +kernel
  obtain ⟨t, hrun⟩ := Option.isSome_iff_exists.mp hval
  exact (within_fdSet_iff hrun).mpr ⟨by decide, by decide +kernel⟩

/-- The listening socket is ready, up to the first `accept4()`. -/
def toAccept : List Label := [.select [3] 1, .scan, .scan, .scan, .scan]

/-- Clients connect and stay; each gets the lowest descriptor that is not open. -/
def fillUp (n : Nat) : List Label :=
  (List.range n).map (fun k : Nat => .accept4 (.ok (4 + (k : Int))))

theorem fillUp_succ (n : Nat) : fillUp (n + 1) = fillUp n ++ [.accept4 (.ok (4 + (n : Int)))] := by
  rw [fillUp, List.range_succ, List.map_append]
  rfl

/-- Any number of them can be accepted in one pass. -/
theorem run_fillUp (hpc : s.pc = .accept 3) (hfree : ∀ fd, s.fdTable fd = none) (n : Nat) :
    ∃ t, (machine listening).run s (fillUp n) = some t ∧ t.pc = .accept 3
      ∧ ∀ fd, 4 + (n : Int) ≤ fd → t.fdTable fd = none := by
  induction n with
  | zero => exact ⟨s, rfl, hpc, fun fd _ => hfree fd⟩
  | succ n ih =>
      obtain ⟨t, hrun, hpct, hfreet⟩ := ih
      have hok : (0 : Int) ≤ 4 + n ∧ (4 + n : Int) ≠ 3 := by omega
      have hnext : ∃ t', t.next listening (.accept4 (.ok (4 + n))) = some t' ∧ t'.pc = .accept 3
          ∧ t'.fdTable = Function.update t.fdTable (4 + n) (some t.nextConn) := by
        simp only [next, accept4, hpct]
        rw [if_pos ⟨hok.1, hok.2, hfreet _ (Int.le_refl _)⟩]
        exact ⟨_, rfl, rfl, rfl⟩
      obtain ⟨t', hn, hpct', htable⟩ := hnext
      refine ⟨t', ?_, hpct', fun fd hfd => ?_⟩
      · rw [fillUp_succ, Machine.run_append, hrun, Option.bind_some, Machine.run_cons]
        exact congrArg (fun r => r.bind fun s' => some s') hn
      · have hlt : (4 + n : Int) < fd := Int.lt_of_lt_of_le (by omega) hfd
        rw [htable, Function.update_of_ne (Int.ne_of_gt hlt)]
        exact hfreet fd (Int.le_of_lt hlt)

/-- The server with `n` clients accepted in the first pass. -/
theorem run_full (n : Nat) :
    ∃ t, (machine listening).run (start listening (fun _ => 0)) (toAccept ++ fillUp n)
      = some t := by
  have hval : ∃ s, (machine listening).run (start listening (fun _ => 0)) toAccept = some s
      ∧ s.pc = .accept 3 ∧ ∀ fd, s.fdTable fd = none := ⟨_, rfl, rfl, fun _ => rfl⟩
  obtain ⟨s, hrun, hpc, hfree⟩ := hval
  obtain ⟨t, hfill, _⟩ := run_fillUp hpc hfree n
  exact ⟨t, by rw [Machine.run_append, hrun, Option.bind_some, hfill]⟩

/-- With a thousand clients connected a bit outside the `fd_set` is touched. -/
theorem not_within_fdSet :
    ¬ ∀ (cfg : Config) (buffer : Store Byte) (ls : List Label) (t : SelectServer),
        cfg.serverSfd < fdSetsize → (machine cfg).run (start cfg buffer) ls = some t →
          WithinFdSet cfg (start cfg buffer) ls := by
  intro hall
  obtain ⟨t, hrun⟩ := run_full 1020
  obtain ⟨t', hrun'⟩ := run_full 1021
  have hbits := (Machine.observed_forall hrun').mp
    (hall listening _ _ t' (by decide) hrun').macros
  rw [fillUp_succ, ← List.append_assoc, Machine.along_snoc hrun] at hbits
  exact absurd (hbits.2 (4 + (1020 : Nat)) (List.mem_singleton_self _)).2 (by decide)

end TcpServers.SelectServer
