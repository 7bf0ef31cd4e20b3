import Mathlib.Data.List.Infix
import TcpServers.Lib.Machine

/-!
# Pipes

The plainest thing that passes data on: what was put in comes out, in that order, once,
unless it is dropped before.
-/

namespace Lib

universe u

variable {β : Type u}

inductive PipeAct (β : Type u) where
  | put (bs : List β)
  | get (bs : List β)
  -- the first `n` are lost
  | drop (n : Nat)
  deriving DecidableEq, Repr

namespace PipeAct

/-- What goes into a pipe. -/
def given (ls : List (PipeAct β)) : List β :=
  ls.flatMap fun
    | .put bs => bs
    | _ => []

/-- What comes out of it. -/
def taken (ls : List (PipeAct β)) : List β :=
  ls.flatMap fun
    | .get bs => bs
    | _ => []

/-- Nothing is lost. -/
def Lossless (ls : List (PipeAct β)) : Prop := ∀ n, .drop n ∈ ls → n = 0

@[simp] theorem given_append (ls ms : List (PipeAct β)) :
    given (ls ++ ms) = given ls ++ given ms := List.flatMap_append

@[simp] theorem taken_append (ls ms : List (PipeAct β)) :
    taken (ls ++ ms) = taken ls ++ taken ms := List.flatMap_append

end PipeAct

/-- A pipe, with what is in it as its state. -/
def pipe [DecidableEq β] : Machine (List β) (PipeAct β) where
  init q := q = []
  next
    | q, .put bs => some (q ++ bs)
    | q, .get bs => if bs <+: q then some (q.drop bs.length) else none
    | q, .drop n => some (q.drop n)

variable [DecidableEq β]

@[simp] theorem pipe_put (q bs : List β) : pipe.next q (.put bs) = some (q ++ bs) := rfl

theorem pipe_get (bs q : List β) : pipe.next (bs ++ q) (.get bs) = some q := by
  have hpre : bs <+: bs ++ q := List.prefix_append bs q
  simp only [pipe, if_pos hpre, List.drop_left]

@[simp] theorem pipe_drop (q : List β) (n : Nat) : pipe.next q (.drop n) = some (q.drop n) := rfl

/-- **What comes out went in before**, in that order. -/
theorem pipe_sublist {q q' : List β} {ls : List (PipeAct β)} (h : pipe.run q ls = some q') :
    (PipeAct.taken ls ++ q').Sublist (q ++ PipeAct.given ls) := by
  refine Machine.run_induction (fun ls q' =>
    (PipeAct.taken ls ++ q').Sublist (q ++ PipeAct.given ls)) ?_ ?_ h
  · simp [PipeAct.taken, PipeAct.given]
  · intro ls t l t' _ ih hn
    rw [PipeAct.given_append, PipeAct.taken_append]
    cases l with
    | put bs =>
        cases hn
        simpa [PipeAct.taken, PipeAct.given] using ih.append (List.Sublist.refl bs)
    | get bs =>
        simp only [pipe] at hn
        split at hn
        · rename_i hpre
          cases hn
          obtain ⟨r, rfl⟩ := hpre
          simpa [PipeAct.taken, PipeAct.given] using ih
        · exact absurd hn (by simp)
    | drop n =>
        cases hn
        have hdrop : (PipeAct.taken ls ++ t.drop n).Sublist (PipeAct.taken ls ++ t) :=
          (List.Sublist.refl _).append (List.drop_sublist n t)
        simpa [PipeAct.taken, PipeAct.given] using hdrop.trans ih

/-- **Without losses everything comes out**, or is still in the pipe. -/
theorem pipe_lossless {q q' : List β} {ls : List (PipeAct β)} (h : pipe.run q ls = some q')
    (hl : PipeAct.Lossless ls) : PipeAct.taken ls ++ q' = q ++ PipeAct.given ls := by
  refine Machine.run_induction (fun ls q' => PipeAct.Lossless ls →
    PipeAct.taken ls ++ q' = q ++ PipeAct.given ls) ?_ ?_ h hl
  · simp [PipeAct.taken, PipeAct.given]
  · intro ls t l t' _ ih hn hl
    have ih := ih (fun n hmem => hl n (List.mem_append_left _ hmem))
    rw [PipeAct.given_append, PipeAct.taken_append]
    cases l with
    | put bs =>
        cases hn
        simp [PipeAct.taken, PipeAct.given] at ih ⊢
        rw [← List.append_assoc, ih, List.append_assoc]
    | get bs =>
        simp only [pipe] at hn
        split at hn
        · rename_i hpre
          cases hn
          obtain ⟨r, rfl⟩ := hpre
          simpa [PipeAct.taken, PipeAct.given] using ih
        · exact absurd hn (by simp)
    | drop n =>
        cases hn
        obtain rfl := hl n (by simp)
        simpa [PipeAct.taken, PipeAct.given] using ih

end Lib
