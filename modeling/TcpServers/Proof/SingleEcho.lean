import TcpServers.Lib.Table
import TcpServers.Model.SingleClient
import TcpServers.Proof.Service

/-!
# The single-client server is an echo service, one client after the other

Its one loop reads from and writes to the last connection it accepted. Nothing happens on
a connection once the next one is accepted, and no descriptor but that of the current
connection is open. The buffer goes from client to client, but no byte of one is written
to another: what is written is what was just read.
-/

namespace TcpServers.SingleClient

open Lib

variable {serverSfd : Fd} {s s' : SingleClient} {l : Label}

/-- The connections that are open are the current one. -/
structure Alone (s : SingleClient) : Prop where
  current : ∀ fd c pc, s.pc = .echo fd c pc → s.fds fd = some (.conn c) ∧ c + 1 = s.nextConn
  only : ∀ fd c, s.fds fd = some (.conn c) → ∃ pc, s.pc = .echo fd c pc

theorem alone_start (serverSfd : Fd) (buffer : Store Byte) : Alone (start serverSfd buffer) where
  current := by
    intro fd c pc hpc
    cases hpc
  only := by
    intro fd c hopen
    simp only [start] at hopen
    rcases Table.of_insert hopen with ⟨_, hnew⟩ | ⟨_, hold⟩
    · cases hnew
    · cases hold

/-- With no connection at hand none is open. -/
theorem Alone.none_open (h : Alone s) (hpc : ∀ fd c pc, s.pc ≠ .echo fd c pc) (fd : Fd) (c : Nat) :
    s.fds fd ≠ some (.conn c) := by
  intro hopen
  obtain ⟨pc, hecho⟩ := h.only fd c hopen
  exact hpc fd c pc hecho

theorem alone_step (h : Alone s) (hs : Step s l s') : Alone s' := by
  cases hs with
  | @accepted fd hpc hfree =>
      refine ⟨fun fd' c pc hecho => ?_, fun fd' c hopen => ?_⟩
      · cases hecho
        exact ⟨Function.update_self _ _ _, rfl⟩
      · rcases Table.of_insert hopen with ⟨rfl, hnew⟩ | ⟨_, hold⟩
        · cases hnew
          exact ⟨_, rfl⟩
        · exact absurd hold (h.none_open (by simp [hpc]) fd' c)
  | acceptFailed hpc =>
      refine ⟨fun fd c pc hecho => ?_, fun fd c hopen => ?_⟩
      · cases hecho
      · exact absurd hopen (h.none_open (by simp [hpc]) fd c)
  | @echo fd c pc pc' buffer a hpc hstep =>
      refine ⟨fun fd' c' pc'' hecho => ?_, fun fd' c' hopen => ?_⟩
      · cases hecho
        exact h.current fd c pc hpc
      · obtain ⟨pc'', hecho⟩ := h.only fd' c' hopen
        rw [hpc] at hecho
        cases hecho
        exact ⟨pc', rfl⟩
  | @close fd c why hpc =>
      have hnone : ∀ fd' c', Function.update s.fds fd none fd' ≠ some (.conn c') := by
        intro fd' c' hopen
        obtain ⟨hne, hold⟩ := Table.of_remove hopen
        obtain ⟨pc, hecho⟩ := h.only fd' c' hold
        rw [hpc] at hecho
        cases hecho
        exact hne rfl
      refine ⟨fun fd' c' pc hecho => ?_, fun fd' c' hopen => absurd hopen (hnone fd' c')⟩
      cases why <;> cases hecho
  | exit hpc =>
      refine ⟨fun fd c pc hecho => ?_, fun fd c hopen => ?_⟩
      · cases hecho
      · cases hopen

theorem alone_reachable {C : SingleClient → Label → Prop}
    (h : (machine serverSfd).ReachableVia C s) : Alone s := by
  refine Machine.ReachableVia.invariant ?_ ?_ h
  · rintro s ⟨buffer, rfl⟩
    exact alone_start serverSfd buffer
  · intro s l s' _ hi _ hn
    exact alone_step hi (next_cases hn)

/-! ## The pipes -/

/-- What was read from the current connection and not given up. -/
def pendingOf (s : SingleClient) : List Byte :=
  match s.pc with
  | .echo _ _ pc => echoPending s.buffer pc
  | _ => []

/-- The pipes: all but the last connection's are empty. -/
def pipes (s : SingleClient) (c : Nat) : Option (List Byte) :=
  if c + 1 < s.nextConn then some []
  else if c + 1 = s.nextConn then some s.pendingOf
  else none

/-- Every `write()` takes the chunk whole. -/
def WritesWhole (s : SingleClient) : Label → Prop
  | .step a => ∀ fd c pc, s.pc = .echo fd c pc → WritesAll pc a
  | .accept _ => True

theorem traffic_echo (h : Alone s) {fd : Fd} {c : Nat} {pc : EchoPc}
    (hpc : s.pc = .echo fd c pc) (a : EchoAnswer) :
    s.traffic (.step a) = (echoTraffic s.buffer pc a).map (.step c) := by
  simp only [traffic, hpc, (h.current fd c pc hpc).1]

/-- The last connection's pipe is the only one that changes. -/
theorem pipes_update {c : Nat} (hc : c + 1 = s.nextConn) (hn : s'.nextConn = s.nextConn) :
    s'.pipes = Function.update s.pipes c (some s'.pendingOf) := by
  funext d
  by_cases hd : d = c
  · subst hd
    rw [Function.update_self]
    simp [pipes, hn, hc]
  · have hne : d + 1 ≠ s.nextConn := by omega
    rw [Function.update_of_ne hd]
    simp [pipes, hn, hne]

/-- Nothing changes where the last connection keeps what it had. -/
theorem pipes_same (hn : s'.nextConn = s.nextConn) (hp : s'.pendingOf = s.pendingOf) :
    s'.pipes = s.pipes := by
  funext d
  simp only [pipes, hn, hp]

/-- A new connection gets an empty pipe, and the one before it has nothing left. -/
theorem pipes_accepted (hn : s'.nextConn = s.nextConn + 1) (hp : s.pendingOf = [])
    (hp' : s'.pendingOf = []) : s'.pipes = Function.update s.pipes s.nextConn (some []) := by
  funext d
  by_cases hd : d = s.nextConn
  · subst hd
    rw [Function.update_self]
    simp [pipes, hn, hp']
  · rw [Function.update_of_ne hd]
    by_cases hlt : d < s.nextConn
    · have hold : s.pipes d = some [] := by
        unfold pipes
        rcases Nat.lt_or_eq_of_le (Nat.succ_le_of_lt hlt) with hbefore | hlast
        · rw [if_pos hbefore]
        · rw [if_neg (by omega), if_pos hlast, hp]
      have hnew : d + 1 < s'.nextConn := by omega
      rw [hold]
      unfold pipes
      rw [if_pos hnew]
    · have h1 : ¬ d + 1 < s.nextConn := by omega
      have h2 : d + 1 ≠ s.nextConn := by omega
      have h3 : ¬ d + 1 < s'.nextConn := by omega
      have h4 : d + 1 ≠ s'.nextConn := by omega
      simp only [pipes, if_neg h1, if_neg h2, if_neg h3, if_neg h4]

/-- **The single-client server follows the echo service.** -/
theorem follows_service (serverSfd : Fd) :
    echoService.Follows (machine serverSfd) (fun _ _ => True) traffic (fun s Q => Q = s.pipes) where
  init := by
    rintro s ⟨buffer, rfl⟩
    refine ⟨_, fun c => ?_, rfl⟩
    simp [pipes, start]
  step := by
    rintro s Q l s' hr rfl _ hn
    have h := alone_reachable hr
    refine ⟨s'.pipes, ?_, rfl⟩
    have hsame : s.traffic l = [] → s'.nextConn = s.nextConn → s'.pendingOf = s.pendingOf →
        echoService.run s.pipes (s.traffic l) = some s'.pipes := by
      intro hnil hnext hpending
      rw [hnil, pipes_same hnext hpending]
      rfl
    have hmoved : ∀ c ls, c + 1 = s.nextConn → s'.nextConn = s.nextConn →
        s.traffic l = ls.map (.step c) → pipe.run s.pendingOf ls = some s'.pendingOf →
          echoService.run s.pipes (s.traffic l) = some s'.pipes := by
      intro c ls hlast hnext htraffic hrun
      rw [htraffic, pipes_update hlast hnext]
      exact Machine.family_run (by simp [pipes, hlast]) hrun
    have hjoined : ∀ fd, s.traffic l = [.spawn s.nextConn fd] → s'.nextConn = s.nextConn + 1 →
        s.pendingOf = [] → s'.pendingOf = [] →
          echoService.run s.pipes (s.traffic l) = some s'.pipes := by
      intro fd htraffic hnext hp hp'
      rw [htraffic, pipes_accepted hnext hp hp', Machine.run_cons, echoService,
        Machine.family_spawn (by simp [pipes])]
      rfl
    cases next_cases hn with
    | @accepted fd hpc hfree => exact hjoined fd rfl rfl (by simp only [pendingOf, hpc]) rfl
    | acceptFailed hpc => exact hsame rfl rfl (by simp only [pendingOf, hpc])
    | @echo fd c pc pc' buffer a hpc hstep =>
        refine hmoved c _ (h.current fd c pc hpc).2 rfl (traffic_echo h hpc a) ?_
        simp only [pendingOf, hpc]
        exact echoStep_pipe hstep
    | @close fd c why hpc =>
        refine hsame ?_ rfl ?_
        · rw [traffic_echo h hpc]
          rfl
        · cases why <;> simp only [pendingOf, hpc, afterClose, echoPending]
    | exit hpc =>
        refine hsame ?_ rfl ?_
        · simp only [traffic, hpc]
        · simp only [pendingOf, hpc]

/-! ## One client after the other -/

/-- What a step shows is about the last connection. -/
theorem traffic_key (h : Alone s) (hn : s.next l = some s') {x : FamilyAct Nat Fd (PipeAct Byte)}
    (hx : x ∈ s.traffic l) : x.key + 1 = s'.nextConn ∧ s.nextConn ≤ s'.nextConn := by
  cases next_cases hn with
  | accepted hpc hfree =>
      obtain rfl := List.mem_singleton.mp hx
      exact ⟨rfl, Nat.le_succ _⟩
  | acceptFailed hpc => cases hx
  | @echo fd c pc pc' buffer a hpc hstep =>
      rw [traffic_echo h hpc] at hx
      obtain ⟨y, _, rfl⟩ := List.mem_map.mp hx
      exact ⟨(h.current fd c pc hpc).2, Nat.le_refl _⟩
  | close hpc =>
      rw [traffic_echo h hpc] at hx
      cases hx
  | exit hpc =>
      simp only [traffic, hpc] at hx
      cases hx

theorem nextConn_le (hn : s.next l = some s') : s.nextConn ≤ s'.nextConn := by
  cases next_cases hn with
  | accepted => exact Nat.le_succ _
  | _ => exact Nat.le_refl _

/-- What is shown never goes back to an earlier connection. -/
theorem traffic_sorted {ls : List Label} (hs : (machine serverSfd).init s)
    (hrun : (machine serverSfd).run s ls = some s') :
    ((machine serverSfd).observed traffic s ls).Pairwise (fun x y => x.key ≤ y.key) := by
  have hall : (machine serverSfd).Reachable s'
      ∧ (∀ x ∈ (machine serverSfd).observed traffic s ls, x.key < s'.nextConn)
      ∧ ((machine serverSfd).observed traffic s ls).Pairwise (fun x y => x.key ≤ y.key) := by
    refine Machine.observed_invariant (C := fun _ _ => True)
      (I := fun shown t => (machine serverSfd).Reachable t
        ∧ (∀ x ∈ shown, FamilyAct.key x < t.nextConn)
        ∧ shown.Pairwise (fun x y => x.key ≤ y.key))
      ⟨.init hs, fun x hx => absurd hx List.not_mem_nil, .nil⟩ ?_ hrun Machine.along_true
    rintro shown t l t' ⟨hr, hlt, hsorted⟩ _ hn
    have h := alone_reachable hr
    have hle := nextConn_le hn
    refine ⟨.tail hr trivial hn, fun x hx => ?_, ?_⟩
    · rcases List.mem_append.mp hx with hold | hnew
      · exact Nat.lt_of_lt_of_le (hlt x hold) hle
      · have := (traffic_key h hn hnew).1
        omega
    · refine List.pairwise_append.mpr ⟨hsorted, ?_, fun x hx y hy => ?_⟩
      · refine List.pairwise_of_forall_mem_list fun x hx y hy => ?_
        have h1 := (traffic_key h hn hx).1
        have h2 := (traffic_key h hn hy).1
        omega
      · have h1 := hlt x hx
        have h2 := (traffic_key h hn hy).1
        omega
  exact hall.2.2

/-- A write that takes its chunk whole drops nothing. -/
theorem traffic_lossless (h : Alone s) (hl : WritesWhole s l) (c n : Nat)
    (hmem : FamilyAct.step c (.drop n) ∈ s.traffic l) : n = 0 := by
  cases l with
  | accept r => cases r <;> simp [traffic] at hmem
  | step a =>
      by_cases hecho : ∃ fd d pc, s.pc = .echo fd d pc
      · obtain ⟨fd, d, pc, hpc⟩ := hecho
        rw [traffic_echo h hpc] at hmem
        obtain ⟨x, hx, heq⟩ := List.mem_map.mp hmem
        cases heq
        exact echoTraffic_lossless (hl _ _ _ hpc) n hx
      · simp only [traffic] at hmem
        split at hmem
        · exact absurd ⟨_, _, _, ‹_›⟩ hecho
        · cases hmem

/--
**The clients are served one after the other, and each gets its own bytes back.** In every
run, whatever the kernel answers: what is written to a connection is a subsequence of what
was read from it, and a prefix of it where every `write()` takes its chunk whole. What is
read, written or accepted never goes back to an earlier connection, and only the current
connection is open.
-/
theorem clients_in_turn {buffer : Store Byte} {ls : List Label}
    (hrun : (machine serverSfd).run (start serverSfd buffer) ls = some s) :
    (∀ c, (writtenTo c ((machine serverSfd).observed traffic (start serverSfd buffer) ls)).Sublist
        (readFrom c ((machine serverSfd).observed traffic (start serverSfd buffer) ls)))
      ∧ ((machine serverSfd).Along WritesWhole (start serverSfd buffer) ls → ∀ c,
          writtenTo c ((machine serverSfd).observed traffic (start serverSfd buffer) ls)
              ++ (s.pipes c).getD []
            = readFrom c ((machine serverSfd).observed traffic (start serverSfd buffer) ls))
      ∧ ((machine serverSfd).observed traffic (start serverSfd buffer) ls).Pairwise
          (fun x y => x.key ≤ y.key)
      ∧ ∀ fd c, s.fds fd = some (.conn c) ↔ ∃ pc, s.pc = .echo fd c pc := by
  obtain ⟨Q₀, Q, h0, hQ, rfl⟩ :=
    (follows_service serverSfd).run ⟨buffer, rfl⟩ hrun Machine.along_true
  obtain rfl : Q₀ = fun _ => none := funext h0
  have h : Alone s := alone_reachable (.of_run (.init ⟨buffer, rfl⟩) Machine.along_true hrun)
  refine ⟨echoService_sublist hQ, fun hC c => ?_, traffic_sorted ⟨buffer, rfl⟩ hrun, ?_⟩
  · refine echoService_lossless hQ (dropsNothing_of_step ?_ (.init ⟨buffer, rfl⟩) hrun hC) c
    exact fun s l hr hl c n hmem => traffic_lossless (alone_reachable hr) hl c n hmem
  · exact fun fd c => ⟨h.only fd c, fun ⟨pc, hpc⟩ => (h.current fd c pc hpc).1⟩

/-- A client whose second chunk is written short, and the next one on the same descriptor. -/
def inTurn : List Label :=
  [.accept (.ok 4), .step (.read (.data [104])), .step .quiet, .step (.write (.wrote 1)),
    .step (.read (.data [105, 106])), .step .quiet, .step (.write (.wrote 1)),
    .step (.read (.data [])), .step .quiet, .accept (.ok 4), .step (.read (.data [107])),
    .step .quiet]

theorem clients_in_turn_inTurn :
    ∃ T : List (FamilyAct Nat Fd (PipeAct Byte)),
      (readFrom 0 T, writtenTo 0 T, readFrom 1 T, writtenTo 1 T)
          = ([104, 105, 106], [104, 105], [107], [])
        ∧ ∀ c, (writtenTo c T).Sublist (readFrom c T) := by
  have hval : ((machine 3).run (start 3 (fun _ => 0)) inTurn).isSome = true := by decide +kernel
  obtain ⟨s, hrun⟩ := Option.isSome_iff_exists.mp hval
  exact ⟨_, by decide +kernel, (clients_in_turn hrun).1⟩

end TcpServers.SingleClient
