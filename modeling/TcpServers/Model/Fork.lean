import Mathlib.Tactic.Simps.Basic
import TcpServers.Model.BlockingEcho
import TcpServers.Model.Service

/-!
# `fork_process_per_connection_server`

One process accepts, and forks a child for each connection. A child starts with a copy of
everything its parent had, the table of descriptors included, and `close()` takes a
descriptor from the table of one process only: a connection is open as long as any process
has a descriptor for it.

The parent does not call `close_fd()` on the descriptor it has handed to a child.
`closesOnDestroy` says whether the `file_descriptor` that goes out of scope there does.
-/

namespace TcpServers

open Lib

namespace Fork

structure Config where
  serverSfd : Fd
  /-- `RLIMIT_NOFILE`: one more than the greatest descriptor. -/
  nofile : Nat
  /-- The destructor of `file_descriptor` closes what it holds. -/
  closesOnDestroy : Bool
  serverSfd_nonneg : 0 ≤ serverSfd
  serverSfd_lt : serverSfd < nofile

/-- The statement of the parent that comes next. -/
inductive ParentPc where
  -- `accept(server_sfd.get_fd(), ...)`
  | accept
  -- `fork()`
  | fork (fd : Fd) (c : Nat)
  -- `client_sfd.close_fd()` after a failed `fork()`
  | refused (fd : Fd) (c : Nat)
  -- `continue`: `client_sfd` goes out of scope
  | handedOver (fd : Fd) (c : Nat)
  -- the `catch` block: `server_sfd.close_fd()` and `exit(EXIT_FAILURE)`
  | failed
  | exited
  deriving DecidableEq, Repr

/-- Where a child is. -/
inductive ChildPc where
  | echo (pc : EchoPc)
  -- `exit(EXIT_SUCCESS)`, or the `catch` block of `main`
  | leaving (why : EchoExit)
  | exited
  deriving DecidableEq, Repr

/-- A child, with the descriptor `client_sfd` it was forked with. -/
structure Child where
  fds : Descriptors
  clientSfd : Fd
  buffer : Store Byte
  pc : ChildPc

end Fork

/-- The parent, and the children by the connection they were forked for. -/
structure Fork where
  fds : Descriptors
  /-- Never written to: the children start with what the stack held. -/
  buffer : Store Byte
  pc : Fork.ParentPc
  child : Nat → Option Fork.Child
  /-- History: how many connections were accepted. -/
  nextConn : Nat

namespace Fork

variable (cfg : Config)

/-- The socket is set up, nothing is accepted. -/
def start (buffer : Store Byte) : Fork where
  fds := Function.update (fun _ => none) cfg.serverSfd (some .listener)
  buffer := buffer
  pc := .accept
  child _ := none
  nextConn := 0

inductive Label where
  | accept (r : Except Errno Fd)
  -- `true` for a child's pid and for the `0` in the child, `false` for `-1`
  | fork (ok : Bool)
  -- a statement of the parent that asks the kernel for nothing it looks at
  | parent
  | child (c : Nat) (a : EchoAnswer)

variable (s : Fork)

@[simps]
def setChild (c : Nat) (ch : Child) : Fork :=
  { s with child := Function.update s.child c (some ch) }

/-- `accept()`: a descriptor that is not open, below the limit, or an error. -/
def accept (r : Except Errno Fd) : Option Fork :=
  match s.pc, r with
  | .accept, .ok fd =>
      if 0 ≤ fd ∧ fd < cfg.nofile ∧ s.fds fd = none then
        some { s with
          fds := Function.update s.fds fd (some (.conn s.nextConn))
          pc := .fork fd s.nextConn
          nextConn := s.nextConn + 1 }
      else none
  | .accept, .error _ => some { s with pc := .failed }
  | _, _ => none

/-- What a child starts with: a copy of what its parent has. -/
def forked (fd : Fd) : Child where
  fds := s.fds
  clientSfd := fd
  buffer := s.buffer
  pc := .echo .read

/-- `fork()`. -/
def fork (ok : Bool) : Option Fork :=
  match s.pc with
  | .fork fd c =>
      some (if ok then { s.setChild c (s.forked fd) with pc := .handedOver fd c }
        else { s with pc := .refused fd c })
  | _ => none

/-- The end of an iteration of the parent, or of the parent. -/
def parent : Option Fork :=
  match s.pc with
  | .refused fd _ => some { s with fds := Function.update s.fds fd none, pc := .accept }
  | .handedOver fd _ =>
      some { s with
        fds := if cfg.closesOnDestroy then Function.update s.fds fd none else s.fds
        pc := .accept }
  | .failed => some { s with fds := fun _ => none, pc := .exited }
  | _ => none

/-- A statement of a child; what it reads and writes it must have open. -/
def childStep (ch : Child) (a : EchoAnswer) : Option Child :=
  match ch.pc, a with
  | .echo (.close why), .quiet =>
      some { ch with fds := Function.update ch.fds ch.clientSfd none, pc := .leaving why }
  | .echo pc, a =>
      if (ch.fds ch.clientSfd).isSome then
        (echoStep ch.buffer pc a).map (fun r => { ch with pc := .echo r.1, buffer := r.2 })
      else none
  | .leaving _, .quiet => some { ch with fds := fun _ => none, pc := .exited }
  | _, _ => none

def next : Label → Option Fork
  | .accept r => s.accept cfg r
  | .fork ok => s.fork ok
  | .parent => s.parent cfg
  | .child c a => (s.child c).bind (fun ch => (childStep ch a).map (s.setChild c))

def machine : Machine Fork Label where
  init s := ∃ buffer, s = start cfg buffer
  next := next cfg

/-- What a step reads from a connection or writes to it: the one behind the child's descriptor. -/
def traffic : Label → List (FamilyAct Nat Fd (PipeAct Byte))
  | .fork true =>
      match s.pc with
      | .fork fd c => [.spawn c fd]
      | _ => []
  | .child d a =>
      match s.child d with
      | some ch =>
          match ch.pc, ch.fds ch.clientSfd with
          | .echo pc, some (.conn c) => (echoTraffic ch.buffer pc a).map (.step c)
          | _, _ => []
      | none => []
  | _ => []

/-! ## The steps -/

/-- Everything a statement of a child can do. -/
inductive ChildStep (ch : Child) : EchoAnswer → Child → Prop where
  | echo {pc pc' : EchoPc} {buffer : Store Byte} {a : EchoAnswer} (hpc : ch.pc = .echo pc)
      (hopen : ch.fds ch.clientSfd ≠ none) (hstep : EchoStep ch.buffer pc a pc' buffer) :
      ChildStep ch a { ch with pc := .echo pc', buffer := buffer }
  | close {why : EchoExit} (hpc : ch.pc = .echo (.close why)) :
      ChildStep ch .quiet
        { ch with fds := Function.update ch.fds ch.clientSfd none, pc := .leaving why }
  | exit {why : EchoExit} (hpc : ch.pc = .leaving why) :
      ChildStep ch .quiet { ch with fds := fun _ => none, pc := .exited }

theorem childStep_cases {ch ch' : Child} {a : EchoAnswer} (h : childStep ch a = some ch') :
    ChildStep ch a ch' := by
  unfold childStep at h
  split at h
  · rename_i hpc; cases h; exact .close hpc
  · rename_i pc _ hpc _
    split at h
    · rename_i hopen
      obtain ⟨⟨pc', buffer⟩, hr, rfl⟩ := Option.map_eq_some_iff.mp h
      exact .echo hpc (Option.isSome_iff_ne_none.mp hopen) (echoStep_cases hr)
    · exact absurd h (by simp)
  · rename_i hpc; cases h; exact .exit hpc
  · exact absurd h (by simp)

/-- Everything a step can do. -/
inductive Step : Label → Fork → Prop where
  | accepted {fd : Fd} (hpc : s.pc = .accept) (hnonneg : 0 ≤ fd) (hlt : fd < cfg.nofile)
      (hfree : s.fds fd = none) :
      Step (.accept (.ok fd))
        { s with
          fds := Function.update s.fds fd (some (.conn s.nextConn))
          pc := .fork fd s.nextConn
          nextConn := s.nextConn + 1 }
  | acceptFailed {e : Errno} (hpc : s.pc = .accept) :
      Step (.accept (.error e)) { s with pc := .failed }
  | forked {fd : Fd} {c : Nat} (hpc : s.pc = .fork fd c) :
      Step (.fork true) { s.setChild c (s.forked fd) with pc := .handedOver fd c }
  | forkFailed {fd : Fd} {c : Nat} (hpc : s.pc = .fork fd c) :
      Step (.fork false) { s with pc := .refused fd c }
  | refused {fd : Fd} {c : Nat} (hpc : s.pc = .refused fd c) :
      Step .parent { s with fds := Function.update s.fds fd none, pc := .accept }
  | handedOver {fd : Fd} {c : Nat} (hpc : s.pc = .handedOver fd c) :
      Step .parent
        { s with
          fds := if cfg.closesOnDestroy then Function.update s.fds fd none else s.fds
          pc := .accept }
  | exit (hpc : s.pc = .failed) : Step .parent { s with fds := fun _ => none, pc := .exited }
  | child {c : Nat} {ch ch' : Child} {a : EchoAnswer} (hch : s.child c = some ch)
      (hstep : ChildStep ch a ch') : Step (.child c a) (s.setChild c ch')

variable {cfg s}

/-- **A step of the code is one of the listed ones.** -/
theorem next_cases {l : Label} {s' : Fork} (h : s.next cfg l = some s') : Step cfg s l s' := by
  cases l with
  | accept r =>
      simp only [next, accept] at h
      split at h
      · rename_i hpc
        split at h
        · rename_i hok; cases h; exact .accepted hpc hok.1 hok.2.1 hok.2.2
        · exact absurd h (by simp)
      · rename_i hpc; cases h; exact .acceptFailed hpc
      · exact absurd h (by simp)
  | fork ok =>
      simp only [next, fork] at h
      split at h
      · rename_i hpc
        cases ok <;> cases h
        · exact .forkFailed hpc
        · exact .forked hpc
      · exact absurd h (by simp)
  | parent =>
      simp only [next, parent] at h
      split at h
      · rename_i hpc; cases h; exact .refused hpc
      · rename_i hpc; cases h; exact .handedOver hpc
      · rename_i hpc; cases h; exact .exit hpc
      · exact absurd h (by simp)
  | child c a =>
      obtain ⟨ch, hch, h⟩ := Option.bind_eq_some_iff.mp h
      obtain ⟨ch', hstep, rfl⟩ := Option.map_eq_some_iff.mp h
      exact .child hch (childStep_cases hstep)

end Fork

end TcpServers
