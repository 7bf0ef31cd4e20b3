import TcpServers.Model.BlockingEcho
import TcpServers.Model.Service

/-!
# `single_client_blocking_io_server`

One process and one loop: the next connection is accepted when the stream of the last one
has ended. The buffer is the same for all of them. An error on one connection ends the
server.

The class `file_descriptor` is not part of the source. It is taken as a plain holder of a
number: `close_fd` closes that, its destructor does not.
-/

namespace TcpServers

open Lib

namespace SingleClient

/-- The statement of `main` that comes next. -/
inductive MainPc where
  -- `accept(server_sfd.get_fd(), ...)`
  | accept
  -- a statement of the inner loop for `client_sfd`
  | echo (fd : Fd) (c : Nat) (pc : EchoPc)
  -- the `catch` block: `server_sfd.close_fd()` and `exit(EXIT_FAILURE)`
  | failed
  | exited
  deriving DecidableEq, Repr

end SingleClient

structure SingleClient where
  fds : Descriptors
  buffer : Store Byte
  pc : SingleClient.MainPc
  /-- History: how many connections were accepted. -/
  nextConn : Nat

namespace SingleClient

/-- The socket is set up, nothing is accepted. -/
def start (serverSfd : Fd) (buffer : Store Byte) : SingleClient where
  fds := Function.update (fun _ => none) serverSfd (some .listener)
  buffer := buffer
  pc := .accept
  nextConn := 0

inductive Label where
  | accept (r : Except Errno Fd)
  | step (a : EchoAnswer)
  deriving DecidableEq

/-- What follows the `close_fd()` of the inner loop: its `break`, or the `catch` block. -/
def afterClose : EchoExit → MainPc
  | .closed => .accept
  | .reading => .failed
  | .writing => .failed

variable (s : SingleClient)

def next : Label → Option SingleClient
  | .accept r =>
      match s.pc, r with
      | .accept, .ok fd =>
          if 0 ≤ fd ∧ s.fds fd = none then
            some { s with
              fds := Function.update s.fds fd (some (.conn s.nextConn))
              pc := .echo fd s.nextConn .read
              nextConn := s.nextConn + 1 }
          else none
      | .accept, .error _ => some { s with pc := .failed }
      | _, _ => none
  | .step a =>
      match s.pc, a with
      | .echo fd _ (.close why), .quiet =>
          some { s with fds := Function.update s.fds fd none, pc := afterClose why }
      | .echo fd c pc, a =>
          if (s.fds fd).isSome then
            (echoStep s.buffer pc a).map (fun r => { s with pc := .echo fd c r.1, buffer := r.2 })
          else none
      | .failed, .quiet => some { s with fds := fun _ => none, pc := .exited }
      | _, _ => none

def machine (serverSfd : Fd) : Machine SingleClient Label where
  init s := ∃ buffer, s = start serverSfd buffer
  next := next

/-- What a step reads from a connection, or writes to it. -/
def traffic : Label → List (FamilyAct Nat Fd (PipeAct Byte))
  | .accept (.ok fd) => [.spawn s.nextConn fd]
  | .accept (.error _) => []
  | .step a =>
      match s.pc with
      | .echo fd _ pc =>
          match s.fds fd with
          | some (.conn c) => (echoTraffic s.buffer pc a).map (.step c)
          | _ => []
      | _ => []

/-! ## The steps -/

/-- Everything a step can do. -/
inductive Step : Label → SingleClient → Prop where
  | accepted {fd : Fd} (hpc : s.pc = .accept) (hfree : s.fds fd = none) :
      Step (.accept (.ok fd))
        { s with
          fds := Function.update s.fds fd (some (.conn s.nextConn))
          pc := .echo fd s.nextConn .read
          nextConn := s.nextConn + 1 }
  | acceptFailed {e : Errno} (hpc : s.pc = .accept) :
      Step (.accept (.error e)) { s with pc := .failed }
  | echo {fd : Fd} {c : Nat} {pc pc' : EchoPc} {buffer : Store Byte} {a : EchoAnswer}
      (hpc : s.pc = .echo fd c pc) (hstep : EchoStep s.buffer pc a pc' buffer) :
      Step (.step a) { s with pc := .echo fd c pc', buffer := buffer }
  | close {fd : Fd} {c : Nat} {why : EchoExit} (hpc : s.pc = .echo fd c (.close why)) :
      Step (.step .quiet)
        { s with fds := Function.update s.fds fd none, pc := afterClose why }
  | exit (hpc : s.pc = .failed) :
      Step (.step .quiet) { s with fds := fun _ => none, pc := .exited }

variable {s}

/-- **A step of the code is one of the listed ones.** -/
theorem next_cases {l : Label} {s' : SingleClient} (h : s.next l = some s') : Step s l s' := by
  cases l with
  | accept r =>
      simp only [next] at h
      split at h
      · rename_i hpc
        split at h
        · rename_i hok; cases h; exact .accepted hpc hok.2
        · exact absurd h (by simp)
      · rename_i hpc; cases h; exact .acceptFailed hpc
      · exact absurd h (by simp)
  | step a =>
      simp only [next] at h
      split at h
      · rename_i hpc; cases h; exact .close hpc
      · rename_i hpc _
        split at h
        · obtain ⟨⟨pc', buffer⟩, hr, rfl⟩ := Option.map_eq_some_iff.mp h
          exact .echo hpc (echoStep_cases hr)
        · exact absurd h (by simp)
      · rename_i hpc; cases h; exact .exit hpc
      · exact absurd h (by simp)

end SingleClient

end TcpServers
