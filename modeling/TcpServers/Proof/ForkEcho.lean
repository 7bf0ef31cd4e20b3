import TcpServers.Proof.ForkDescriptors
import TcpServers.Proof.Service

/-!
# The forking server is an echo service

A child's descriptor stands for the connection it was forked for, whatever descriptors the
parent and the other children have reused meanwhile. So each connection has one process
that reads from it and writes to it, and gets back what it sent; a short `write()` is the
one place where bytes go missing, and everything after them still comes in order.
-/

namespace TcpServers.Fork

open Lib

variable {cfg : Config} {s s' : Fork} {l : Label}

/-- What a child has read and not given up. -/
def pendingOf (ch : Child) : List Byte :=
  match ch.pc with
  | .echo pc => echoPending ch.buffer pc
  | _ => []

/-- The pipes, one for each child. -/
abbrev InService (s : Fork) (Q : Nat → Option (List Byte)) : Prop :=
  Machine.Memberwise (fun ch q => q = pendingOf ch) s.child Q

/-- Every `write()` of a child takes the chunk whole. -/
def WritesWhole (s : Fork) : Label → Prop
  | .child c a => ∀ ch ∈ s.child c, ∀ pc, ch.pc = .echo pc → WritesAll pc a
  | _ => True

/-- What the descriptor of a serving child stands for. -/
theorem DescInv.own (h : DescInv cfg s) {c : Nat} {ch : Child} (hch : s.child c = some ch)
    {pc : EchoPc} (hpc : ch.pc = .echo pc) : ch.fds ch.clientSfd = some (.conn c) :=
  (h.child c ch hch _ c).mpr (Or.inl ⟨rfl, rfl, pc, hpc⟩)

theorem traffic_echo (h : DescInv cfg s) {c : Nat} {ch : Child} (hch : s.child c = some ch)
    {pc : EchoPc} (hpc : ch.pc = .echo pc) (a : EchoAnswer) :
    s.traffic (.child c a) = (echoTraffic ch.buffer pc a).map (.step c) := by
  simp only [traffic, hch, hpc, h.own hch hpc]

theorem traffic_left {c : Nat} {ch : Child} (hch : s.child c = some ch)
    (hpc : ∀ pc, ch.pc ≠ .echo pc) (a : EchoAnswer) : s.traffic (.child c a) = [] := by
  simp only [traffic, hch]
  split
  · exact absurd ‹_› (hpc _)
  · rfl

/-- **A statement of a child** does to its own pipe what it does to the connection. -/
theorem inService_child (h : DescInv cfg s) {Q : Nat → Option (List Byte)} (hQ : InService s Q)
    {c : Nat} {ch ch' : Child} {a : EchoAnswer} (hch : s.child c = some ch)
    (hstep : ChildStep ch a ch') :
    ∃ Q', echoService.run Q (s.traffic (.child c a)) = some Q'
      ∧ InService (s.setChild c ch') Q' := by
  obtain ⟨q, hq, hpending⟩ := hQ.present c ch hch
  refine ⟨Function.update Q c (some (pendingOf ch')), ?_, hQ.update c rfl⟩
  have hsame : s.traffic (.child c a) = [] → pendingOf ch' = pendingOf ch →
      echoService.run Q (s.traffic (.child c a))
        = some (Function.update Q c (some (pendingOf ch'))) := by
    intro hnil heq
    rw [hnil, heq, ← hpending, ← hq, Function.update_eq_self]
    rfl
  cases hstep with
  | @echo pc pc' buffer _ hpc _ hecho =>
      rw [traffic_echo h hch hpc]
      refine Machine.family_run hq ?_
      rw [hpending]
      simp only [pendingOf, hpc]
      exact echoStep_pipe hecho
  | @close why hpc =>
      refine hsame ?_ ?_
      · rw [traffic_echo h hch hpc]
        rfl
      · simp only [pendingOf, hpc]
        rfl
  | @exit why hpc =>
      refine hsame (traffic_left hch (by simp [hpc]) _) ?_
      simp only [pendingOf, hpc]

/-- **The forking server follows the echo service**, whatever its processes are answered. -/
theorem follows_service (cfg : Config) :
    echoService.Follows (machine cfg) (fun _ _ => True) traffic InService where
  init := by
    rintro s ⟨buffer, rfl⟩
    exact ⟨fun _ => none, fun _ => rfl, .empty fun _ => rfl⟩
  step := by
    intro s Q l s' hr hQ _ hn
    have h := descInv_reachable hr
    cases next_cases hn with
    | @forked fd c hpc =>
        have hnone := (h.current fd c (by rw [hpc]; rfl)).2
        rw [if_neg (by rw [hpc]; simp)] at hnone
        have hQc := hQ.absent c (Option.map_eq_none_iff.mp hnone)
        refine ⟨Function.update Q c (some []), ?_, hQ.update c rfl⟩
        simp only [traffic, hpc, Machine.run_cons]
        rw [echoService, Machine.family_spawn hQc]
        rfl
    | child hch hstep => exact inService_child h hQ hch hstep
    | _ => exact ⟨Q, rfl, hQ⟩

/-- What is moved on a connection is moved by its own child. -/
theorem traffic_step (h : DescInv cfg s) {c : Nat} {x : PipeAct Byte}
    (hmem : FamilyAct.step c x ∈ s.traffic l) :
    ∃ a ch pc, l = .child c a ∧ s.child c = some ch ∧ ch.pc = .echo pc
      ∧ x ∈ echoTraffic ch.buffer pc a := by
  cases l with
  | child d a =>
      cases hch : s.child d with
      | none =>
          simp only [traffic, hch] at hmem
          cases hmem
      | some ch =>
          by_cases hecho : ∃ pc, ch.pc = .echo pc
          · obtain ⟨pc, hpc⟩ := hecho
            rw [traffic_echo h hch hpc] at hmem
            obtain ⟨y, hy, heq⟩ := List.mem_map.mp hmem
            cases heq
            exact ⟨a, ch, pc, rfl, hch, hpc, hy⟩
          · rw [traffic_left hch (fun pc hpc => hecho ⟨pc, hpc⟩)] at hmem
            cases hmem
  | fork ok =>
      cases ok with
      | false => cases hmem
      | true =>
          simp only [traffic] at hmem
          split at hmem
          · simp at hmem
          · cases hmem
  | accept r => cases hmem
  | parent => cases hmem

/--
What a step moves on a connection, the child forked for it moves, on the descriptor it was
given.
-/
def ByOwnChild (s : Fork) (l : Label) : Prop :=
  ∀ c x, FamilyAct.step c x ∈ s.traffic l → ∃ a ch pc, l = .child c a ∧ s.child c = some ch
    ∧ ch.pc = .echo pc ∧ ch.fds ch.clientSfd = some (.conn c)

theorem byOwnChild (h : DescInv cfg s) (l : Label) : ByOwnChild s l := by
  intro c x hmem
  obtain ⟨a, ch, pc, hl, hch, hpc, _⟩ := traffic_step h hmem
  exact ⟨a, ch, pc, hl, hch, hpc, h.own hch hpc⟩

/-- A write that takes its chunk whole drops nothing. -/
theorem traffic_lossless (h : DescInv cfg s) (hl : WritesWhole s l) (c n : Nat)
    (hmem : FamilyAct.step c (.drop n) ∈ s.traffic l) : n = 0 := by
  obtain ⟨a, ch, pc, rfl, hch, hpc, hdrop⟩ := traffic_step h hmem
  exact echoTraffic_lossless (hl ch hch pc hpc) n hdrop

/--
**Every client of the forking server gets its own bytes back, in order.** In every run, with
any answers of the kernel to any of the processes: what is written to a connection is a
subsequence of what was read from it, and whatever is read from it or written to it, the
child forked for it reads or writes. Where every `write()` takes its chunk whole it is a
prefix, and the rest is the chunk the child has in its buffer.
-/
theorem children_echo_in_order {buffer : Store Byte} {ls : List Label}
    (hrun : (machine cfg).run (start cfg buffer) ls = some s) :
    ∃ Q, echoService.run (fun _ => none) ((machine cfg).observed traffic (start cfg buffer) ls)
        = some Q
      ∧ (∀ c, (writtenTo c ((machine cfg).observed traffic (start cfg buffer) ls)).Sublist
          (readFrom c ((machine cfg).observed traffic (start cfg buffer) ls)))
      ∧ (machine cfg).Along ByOwnChild (start cfg buffer) ls
      ∧ ((machine cfg).Along WritesWhole (start cfg buffer) ls → ∀ c,
          writtenTo c ((machine cfg).observed traffic (start cfg buffer) ls)
              ++ ((s.child c).map pendingOf).getD []
            = readFrom c ((machine cfg).observed traffic (start cfg buffer) ls)) := by
  obtain ⟨Q₀, Q, h0, hQ, hin⟩ := (follows_service cfg).run ⟨buffer, rfl⟩ hrun Machine.along_true
  obtain rfl : Q₀ = fun _ => none := funext h0
  have hown : (machine cfg).Along ByOwnChild (start cfg buffer) ls :=
    Machine.ReachableVia.along (D := fun _ _ => True)
      (fun s l hr _ => byOwnChild (descInv_reachable hr) l) (.init ⟨buffer, rfl⟩)
      Machine.along_true
  refine ⟨Q, hQ, echoService_sublist hQ, hown, fun hC c => ?_⟩
  have hpipe : ((s.child c).map pendingOf).getD [] = (Q c).getD [] := by
    cases hch : s.child c with
    | none => rw [hin.absent c hch]; rfl
    | some ch =>
        obtain ⟨q, hq, rfl⟩ := hin.present c ch hch
        rw [hq]
        rfl
  rw [hpipe]
  refine echoService_lossless hQ (dropsNothing_of_step ?_ (.init ⟨buffer, rfl⟩) hrun hC) c
  exact fun s l hr hl c n hmem => traffic_lossless (descInv_reachable hr) hl c n hmem

/-- Two children, the second one on the descriptor of the first, and a short write. -/
def twoChildren : List Label :=
  [.accept (.ok 4), .fork true, .parent, .accept (.ok 4), .fork true, .parent,
    .child 0 (.read (.data [104])), .child 1 (.read (.data [105, 106])), .child 1 .quiet,
    .child 0 .quiet, .child 1 (.write (.wrote 1)), .child 0 (.write (.wrote 1))]

theorem children_echo_in_order_twoChildren :
    ∃ T : List (FamilyAct Nat Fd (PipeAct Byte)),
      (readFrom 0 T, readFrom 1 T, writtenTo 0 T, writtenTo 1 T)
          = ([104], [105, 106], [104], [105])
        ∧ ∀ c, (writtenTo c T).Sublist (readFrom c T) := by
  have hval : ((machine (demo true)).run (start (demo true) (fun _ => 0)) twoChildren).isSome
      = true := by decide +kernel
  obtain ⟨s, hrun⟩ := Option.isSome_iff_exists.mp hval
  obtain ⟨Q, _, hsub, _⟩ := children_echo_in_order hrun
  exact ⟨_, by decide +kernel, hsub⟩

end TcpServers.Fork
