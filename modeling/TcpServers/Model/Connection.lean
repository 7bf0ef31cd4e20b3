import TcpServers.Lib.Machine
import TcpServers.Model.Handler

/-!
# One connection, its events handled one at a time

What the server does to a single connection between `accept4()` and `close()`:
the kernel delivers the one-shot event of an armed registration, the worker that
fetched it looks at the flags, and `handleConnectionEvent` runs to its return
before the next event. Which worker it is does not matter here, except that its
`errno` is whatever its earlier work left there.

`received` and `sent` are history: the bytes `read()` stored since accept, and
the bytes `write()` accepted.
-/

namespace TcpServers

open Lib

/-- What `Worker::start` does with an event of a connection. -/
inductive Dispatch where
  | close
  | skip
  | handle
  deriving DecidableEq, Repr

/-- The flag tests of `Worker::start`, in their order. -/
def dispatch (flags : Events) : Dispatch :=
  if flags.epollerr then .close
  else if flags.epollrdhup then .close
  else if flags.epollhup then .skip
  else .handle

/-- Where a connection is between two steps. -/
inductive Phase where
  -- no worker has anything to do with it
  | idle
  -- its event is in a worker's batch
  | fetched (flags : Events)
  | handling (pc : HandlerPc)
  | closed
  deriving DecidableEq, Repr

/-- A connection, with the `errno` of the worker at it. -/
structure Connection where
  data : ConnectionData
  errno : Errno
  /-- The registration in epoll: its mask, or `none` once its event is delivered. -/
  armed : Option Events
  phase : Phase
  received : List Byte
  sent : List Byte

namespace Connection

/-- The handler is not running on the connection. -/
def BetweenEvents (s : Connection) : Prop := ∀ pc, s.phase ≠ .handling pc

/-- Just accepted and added to epoll. -/
def accepted (fd : Fd) : Connection where
  data := .new fd
  errno := .success
  armed := some acceptMask
  phase := .idle
  received := []
  sent := []

inductive Label where
  -- the kernel hands the event to a worker whose `errno` is the given one
  | deliver (flags : Events) (errno : Errno)
  -- that worker takes the event from its batch
  | dispatch
  | handler (a : Answer)
  deriving DecidableEq, Repr

/-- The bytes a read step stored. -/
def stored : Answer → List Byte
  | .read (.data bs) => bs
  | _ => []

/-- The bytes a write step passed on. -/
def accepts (cd : ConnectionData) : Answer → List Byte
  | .write (.wrote n) => cd.buffer.load cd.writeIndex n
  | _ => []

/-- The registration after a step: a successful `rearmEpoll` installs its mask. -/
def rearmed (armed : Option Events) (pc : HandlerPc) (a : Answer) : Option Events :=
  match pc.rearm?, a with
  | some isRead, .epollCtl none => some (rearmMask isRead)
  | _, _ => armed

theorem rearmed_of_not {armed : Option Events} {pc : HandlerPc} {a : Answer}
    (h : pc.rearm? = none ∨ a ≠ .epollCtl none) : rearmed armed pc a = armed := by
  unfold rearmed
  split
  · rename_i isRead hrearm
    rcases h with hnone | hne
    · rw [hnone] at hrearm
      cases hrearm
    · exact absurd rfl hne
  · rfl

/-- The phase a handler step leads to. -/
def afterStep : Option HandlerPc → Phase
  | some pc => .handling pc
  | none => .idle

/-- What a handler step makes of the connection. -/
def stepped (s : Connection) (pc : HandlerPc) (a : Answer) (out : HandlerOut) : Connection where
  data := out.data
  errno := out.errno
  armed := rearmed s.armed pc a
  phase := afterStep out.pc
  received := s.received ++ stored a
  sent := s.sent ++ accepts s.data a

section
variable (s : Connection) (pc : HandlerPc) (a : Answer) (out : HandlerOut)

@[simp] theorem stepped_data : (s.stepped pc a out).data = out.data := rfl
@[simp] theorem stepped_errno : (s.stepped pc a out).errno = out.errno := rfl
@[simp] theorem stepped_armed : (s.stepped pc a out).armed = rearmed s.armed pc a := rfl
@[simp] theorem stepped_phase : (s.stepped pc a out).phase = afterStep out.pc := rfl
@[simp] theorem stepped_received : (s.stepped pc a out).received = s.received ++ stored a := rfl
@[simp] theorem stepped_sent : (s.stepped pc a out).sent = s.sent ++ accepts s.data a := rfl

end

def next (s : Connection) : Label → Option Connection
  | .deliver flags errno =>
      match s.phase, s.armed with
      | .idle, some _ => some { s with armed := none, phase := .fetched flags, errno := errno }
      | _, _ => none
  | .dispatch =>
      match s.phase with
      | .fetched flags =>
          match TcpServers.dispatch flags with
          | .close => some { s with phase := .closed }
          | .skip => some { s with phase := .idle }
          | .handle => some { s with phase := .handling .testRead }
      | _ => none
  | .handler a =>
      match s.phase with
      | .handling pc => (handlerStep pc s.data s.errno a).map (stepped s pc a)
      | _ => none

/-- The life of the connection accepted as `fd`. -/
def machine (fd : Fd) : Machine Connection Label where
  init s := s = accepted fd
  next := next

/-- Everything a step can do to a connection. -/
theorem next_cases {s s' : Connection} {l : Label} (h : next s l = some s') :
    (∃ flags errno mask, l = .deliver flags errno ∧ s.phase = .idle ∧ s.armed = some mask ∧
      s' = { s with armed := none, phase := .fetched flags, errno := errno }) ∨
    (∃ flags, l = .dispatch ∧ s.phase = .fetched flags ∧
      ((TcpServers.dispatch flags = .close ∧ s' = { s with phase := .closed }) ∨
       (TcpServers.dispatch flags = .skip ∧ s' = { s with phase := .idle }) ∨
       (TcpServers.dispatch flags = .handle ∧ s' = { s with phase := .handling .testRead }))) ∨
    (∃ a pc out, l = .handler a ∧ s.phase = .handling pc ∧ HandlerStep s.data s.errno pc a out ∧
      s' = s.stepped pc a out) := by
  cases l with
  | deliver flags errno =>
      simp only [next] at h
      split at h
      · rename_i hp ha
        cases h
        exact Or.inl ⟨flags, errno, _, rfl, hp, ha, rfl⟩
      · exact absurd h (by simp)
  | dispatch =>
      simp only [next] at h
      split at h
      · rename_i flags hp
        refine Or.inr (Or.inl ⟨flags, rfl, hp, ?_⟩)
        split at h <;> cases h
        · rename_i hd; exact Or.inl ⟨hd, rfl⟩
        · rename_i hd; exact Or.inr (Or.inl ⟨hd, rfl⟩)
        · rename_i hd; exact Or.inr (Or.inr ⟨hd, rfl⟩)
      · exact absurd h (by simp)
  | handler a =>
      simp only [next] at h
      split at h
      · rename_i pc hp
        obtain ⟨out, hout, hs⟩ := Option.map_eq_some_iff.mp h
        exact Or.inr (Or.inr ⟨a, pc, out, rfl, hp, handlerStep_cases hout, hs.symm⟩)
      · exact absurd h (by simp)

/-- Only a read adds to what was received. -/
theorem next_received {s s' : Connection} {l : Label} (h : next s l = some s')
    (hl : ∀ bs, l ≠ .handler (.read (.data bs))) : s'.received = s.received := by
  rcases next_cases h with ⟨_, _, _, rfl, _, _, rfl⟩ | ⟨_, rfl, _, hd⟩ |
    ⟨a, pc, out, rfl, hp, hstep, rfl⟩
  · rfl
  · rcases hd with ⟨_, rfl⟩ | ⟨_, rfl⟩ | ⟨_, rfl⟩ <;> rfl
  · cases hstep with
    | endOfStream => exact absurd rfl (hl [])
    | chunk => exact absurd rfl (hl _)
    | _ => exact List.append_nil _

/-- A read adds what it stored. -/
theorem next_received_read {s s' : Connection} {bs : List Byte}
    (h : next s (.handler (.read (.data bs))) = some s') :
    s'.received = s.received ++ bs := by
  rcases next_cases h with ⟨_, _, _, hl, _⟩ | ⟨_, hl, _⟩ | ⟨a, pc, out, hl, hp, hstep, rfl⟩
  · cases hl
  · cases hl
  · cases hl
    rfl

end Connection

end TcpServers
