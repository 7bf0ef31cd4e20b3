import TcpServers.Model.Service

/-!
# What it means to follow the echo service

A server whose runs are runs of `echoService` writes to each connection what it has read
from that connection, in that order, and nothing twice: parts may be missing where it
dropped them, and where it dropped nothing it is a prefix.
-/

namespace TcpServers

open Lib

variable {ls : List (FamilyAct Nat Fd (PipeAct Byte))} {Q : Nat → Option (List Byte)}

/-- The pipe of one connection sees what happens on that connection. -/
theorem echoService_pipe (hrun : echoService.run (fun _ => none) ls = some Q) (c : Nat) :
    pipe.run [] (FamilyAct.of c ls) = some ((Q c).getD []) := by
  rcases Machine.family_member (fun _ => rfl) hrun c with ⟨hnone, hnil⟩ | ⟨fd, q, hq, hmember⟩
  · rw [hnil, hnone]
    rfl
  · rw [hmember, hq]
    rfl

/-- **Only what was read comes back**, in order and once, on its own connection. -/
theorem echoService_sublist (hrun : echoService.run (fun _ => none) ls = some Q) (c : Nat) :
    (writtenTo c ls).Sublist (readFrom c ls) := by
  have hsub := pipe_sublist (echoService_pipe hrun c)
  exact (List.sublist_append_left _ _).trans hsub

/-- **Where nothing is dropped** what was not written yet is all that is missing. -/
theorem echoService_lossless (hrun : echoService.run (fun _ => none) ls = some Q)
    (hl : DropsNothing ls) (c : Nat) :
    writtenTo c ls ++ (Q c).getD [] = readFrom c ls :=
  pipe_lossless (echoService_pipe hrun c) (hl c)

/-- A run drops nothing if none of its steps does. -/
theorem dropsNothing_of_step {σ α : Type} {M : Machine σ α} {C : σ → α → Prop}
    {obs : σ → α → List (FamilyAct Nat Fd (PipeAct Byte))} {s t : σ} {as : List α}
    (hstep : ∀ s a, M.ReachableVia C s → C s a →
      ∀ c n, FamilyAct.step c (.drop n) ∈ obs s a → n = 0)
    (hs : M.ReachableVia C s) (hrun : M.run s as = some t) (hC : M.Along C s as) :
    DropsNothing (M.observed obs s as) := by
  intro c n hmem
  have hall : M.ReachableVia C t
      ∧ ∀ n, FamilyAct.step c (.drop n) ∈ M.observed obs s as → n = 0 := by
    refine Machine.observed_invariant (C := C) (I := fun shown t => M.ReachableVia C t
      ∧ ∀ n, FamilyAct.step c (PipeAct.drop n) ∈ shown → n = 0)
      ⟨hs, fun _ hnil => absurd hnil List.not_mem_nil⟩ ?_ hrun hC
    rintro shown t a t' ⟨hr, hshown⟩ hc hn
    refine ⟨.tail hr hc hn, fun m hm => ?_⟩
    rcases List.mem_append.mp hm with hold | hnew
    · exact hshown m hold
    · exact hstep t a hr hc c m hnew
  exact hall.2 n (FamilyAct.mem_of.mp hmem)

end TcpServers
