import Mathlib.Logic.Function.Basic
import TcpServers.Lib.Machine
import TcpServers.Lib.Search
import TcpServers.Lib.Store
import TcpServers.Model.Posix

/-!
# The select server

`main` of `nonblocking_io_multiplexing_select_server.cpp` behind the set-up of its
listening socket: one thread around `select()`, one buffer for all clients. A step
is a system call with what follows it up to the next one, or a test of the scan.

An `fd_set` is kept as a set of numbers; what `FD_SET` does to a number that has no
bit in it is not modelled. The two sets for writing are left out: nothing is ever
added to them, and `select()` gets a null pointer in their place.

The class `file_descriptor` is not part of the source. It is taken as a plain holder of a
number: `close_fd` closes that, its destructor does not.

The connections are numbered as they are accepted; which one a descriptor is, and
what was read and written on it, is history.
-/

namespace TcpServers

open Lib

/-- `FD_SETSIZE`. -/
def fdSetsize : Int := 1024

/-- The statement of the select server that comes next. -/
inductive SelectPc where
  -- `select(max_sfd + 1, &read_fd_set, ...)`
  | select
  -- `i <= max_sfd && sfd_ready_no > 0`, and `FD_ISSET(i, &read_fd_set)`
  | scan (i : Fd)
  -- `accept4(...)`, with `i` the listening socket
  | accept (i : Fd)
  -- `rlen = read(i, buffer, sizeof(buffer))`
  | read (i : Fd)
  -- the log of `buffer`
  | logReceived (i : Fd) (rlen : Nat)
  -- `wlen = write(client_sfd.get_fd(), buffer, rlen)`
  | write (i : Fd) (rlen : Nat)
  -- the block of `if (connection_is_closed)`
  | close (i : Fd)
  -- the `catch` block
  | thrown
  deriving DecidableEq, Repr

structure SelectServer where
  /-- The open client sockets. -/
  fdTable : Fd → Option Nat
  readFdBackupSet : Fd → Bool
  readFdSet : Fd → Bool
  maxSfd : Int
  sfdReadyNo : Int
  buffer : Store Byte
  pc : SelectPc
  /-- History: how many connections were accepted. -/
  nextConn : Nat
  /-- History: what was read from a connection. -/
  received : Nat → List Byte
  /-- History: what `write()` accepted for a connection. -/
  sent : Nat → List Byte

namespace SelectServer

/-- The listening socket, as `setup_server_tcp_socket` returns it. -/
structure Config where
  serverSfd : Fd
  nonneg : 0 ≤ serverSfd

variable (cfg : Config) (s : SelectServer)

/-- `FD_ZERO`, `FD_SET` of the listening socket, and no client yet. -/
def start (buffer : Store Byte) : SelectServer where
  fdTable _ := none
  readFdBackupSet fd := fd = cfg.serverSfd
  readFdSet _ := false
  maxSfd := cfg.serverSfd
  sfdReadyNo := 0
  buffer := buffer
  pc := .select
  nextConn := 0
  received _ := []
  sent _ := []

/-- `select()` clears the bits below `max_sfd + 1` that are not ready, and returns a number. -/
def select (ready : List Fd) (events : Nat) : Option SelectServer :=
  if s.pc = .select then
    some { s with
      readFdSet := fun fd => s.readFdBackupSet fd && (decide (s.maxSfd < fd) || ready.contains fd)
      sfdReadyNo := events
      pc := .scan 0 }
  else none

/-- One test of the scan. -/
def scan : Option SelectServer :=
  match s.pc with
  | .scan i =>
      if i ≤ s.maxSfd ∧ 0 < s.sfdReadyNo then
        if s.readFdSet i then
          some { s with
            sfdReadyNo := s.sfdReadyNo - 1
            pc := if cfg.serverSfd = i then .accept i else .read i }
        else some { s with pc := .scan (i + 1) }
      else some { s with pc := .select }
  | _ => none

/-- `accept4`, with `FD_SET` and the new maximum for a descriptor. -/
def accept4 (r : Except Errno Fd) : Option SelectServer :=
  match s.pc, r with
  | .accept _, .ok fd =>
      if 0 ≤ fd ∧ fd ≠ cfg.serverSfd ∧ s.fdTable fd = none then
        some { s with
          fdTable := Function.update s.fdTable fd (some s.nextConn)
          readFdBackupSet := Function.update s.readFdBackupSet fd true
          maxSfd := max s.maxSfd fd
          nextConn := s.nextConn + 1 }
      else none
  | .accept i, .error e => some { s with pc := if e.wouldBlock then .scan (i + 1) else .thrown }
  | _, _ => none

/-- `read()`: a chunk, the end of the stream, or an error. -/
def read (r : ReadResult) : Option SelectServer :=
  match s.pc, r with
  | .read i, .data bs =>
      if bs.length ≤ buffSize then
        (s.fdTable i).map (fun c =>
          { s with
            buffer := s.buffer.save 0 bs
            received := Function.update s.received c (s.received c ++ bs)
            pc := if bs.length = 0 then .close i else .logReceived i bs.length })
      else none
  | .read i, .fail e => some { s with pc := if e.wouldBlock then .scan (i + 1) else .close i }
  | _, _ => none

/-- The log of what was received. -/
def log : Option SelectServer :=
  match s.pc with
  | .logReceived i rlen => some { s with pc := .write i rlen }
  | _ => none

/-- `write()`: only an error is looked at, whatever was accepted the loop reads on. -/
def write (r : WriteResult) : Option SelectServer :=
  match s.pc, r with
  | .write i rlen, .wrote n =>
      if n ≤ rlen then
        (s.fdTable i).map (fun c =>
          { s with
            sent := Function.update s.sent c (s.sent c ++ s.buffer.load 0 n)
            pc := .read i })
      else none
  | .write i _, .fail e => some { s with pc := if e.wouldBlock then .scan (i + 1) else .close i }
  | _, _ => none

/-- `close_fd`, `FD_CLR`, and the search for the new maximum if `i` was it. -/
def close : Option SelectServer :=
  match s.pc with
  | .close i =>
      let set := Function.update s.readFdBackupSet i false
      some { s with
        fdTable := Function.update s.fdTable i none
        readFdBackupSet := set
        maxSfd := if i = s.maxSfd then searchDown set s.maxSfd.toNat else s.maxSfd
        pc := .scan (i + 1) }
  | _ => none

inductive Label where
  -- the descriptors that are ready, and the number returned
  | select (ready : List Fd) (events : Nat)
  | selectFailed
  | scan
  | accept4 (r : Except Errno Fd)
  | read (r : ReadResult)
  | log
  | write (r : WriteResult)
  | close

def next : Label → Option SelectServer
  | .select ready events => s.select ready events
  | .selectFailed => if s.pc = .select then some { s with pc := .thrown } else none
  | .scan => s.scan cfg
  | .accept4 r => s.accept4 cfg r
  | .read r => s.read r
  | .log => s.log
  | .write r => s.write r
  | .close => s.close

/-- The server, with any contents of the buffer to begin with. -/
def machine : Machine SelectServer Label where
  init s := ∃ buffer, s = start cfg buffer
  next := next cfg

/-- Everything a step can do. -/
inductive Step : Label → SelectServer → Prop where
  | select {ready : List Fd} {events : Nat} (hpc : s.pc = .select) :
      Step (.select ready events)
        { s with
          readFdSet := fun fd =>
            s.readFdBackupSet fd && (decide (s.maxSfd < fd) || ready.contains fd)
          sfdReadyNo := events
          pc := .scan 0 }
  | selectFailed (hpc : s.pc = .select) : Step .selectFailed { s with pc := .thrown }
  | pass {i : Fd} (hpc : s.pc = .scan i) (hlt : i ≤ s.maxSfd) (hmore : 0 < s.sfdReadyNo)
      (hbit : s.readFdSet i = false) : Step .scan { s with pc := .scan (i + 1) }
  | connection (hpc : s.pc = .scan cfg.serverSfd) (hmore : 0 < s.sfdReadyNo)
      (hbit : s.readFdSet cfg.serverSfd = true) :
      Step .scan { s with sfdReadyNo := s.sfdReadyNo - 1, pc := .accept cfg.serverSfd }
  | readable {i : Fd} (hpc : s.pc = .scan i) (hlt : i ≤ s.maxSfd) (hmore : 0 < s.sfdReadyNo)
      (hbit : s.readFdSet i = true) (hne : i ≠ cfg.serverSfd) :
      Step .scan { s with sfdReadyNo := s.sfdReadyNo - 1, pc := .read i }
  | scanned {i : Fd} (hpc : s.pc = .scan i) (hend : s.maxSfd < i ∨ s.sfdReadyNo ≤ 0) :
      Step .scan { s with pc := .select }
  | accepted {i fd : Fd} (hpc : s.pc = .accept i) (hnonneg : 0 ≤ fd) (hne : fd ≠ cfg.serverSfd)
      (hfresh : s.fdTable fd = none) :
      Step (.accept4 (.ok fd))
        { s with
          fdTable := Function.update s.fdTable fd (some s.nextConn)
          readFdBackupSet := Function.update s.readFdBackupSet fd true
          maxSfd := max s.maxSfd fd
          nextConn := s.nextConn + 1 }
  | noMore {i : Fd} {e : Errno} (hpc : s.pc = .accept i) (he : e.wouldBlock = true) :
      Step (.accept4 (.error e)) { s with pc := .scan (i + 1) }
  | acceptFailed {i : Fd} {e : Errno} (hpc : s.pc = .accept i) (he : e.wouldBlock = false) :
      Step (.accept4 (.error e)) { s with pc := .thrown }
  | endOfStream {i : Fd} {c : Nat} (hpc : s.pc = .read i) (hopen : s.fdTable i = some c) :
      Step (.read (.data []))
        { s with
          buffer := s.buffer.save 0 []
          received := Function.update s.received c (s.received c ++ [])
          pc := .close i }
  | chunk {i : Fd} {c : Nat} {bs : List Byte} (hpc : s.pc = .read i)
      (hopen : s.fdTable i = some c) (hpos : 0 < bs.length) (hle : bs.length ≤ buffSize) :
      Step (.read (.data bs))
        { s with
          buffer := s.buffer.save 0 bs
          received := Function.update s.received c (s.received c ++ bs)
          pc := .logReceived i bs.length }
  | drained {i : Fd} {e : Errno} (hpc : s.pc = .read i) (he : e.wouldBlock = true) :
      Step (.read (.fail e)) { s with pc := .scan (i + 1) }
  | readFailed {i : Fd} {e : Errno} (hpc : s.pc = .read i) (he : e.wouldBlock = false) :
      Step (.read (.fail e)) { s with pc := .close i }
  | logged {i : Fd} {rlen : Nat} (hpc : s.pc = .logReceived i rlen) :
      Step .log { s with pc := .write i rlen }
  | wrote {i : Fd} {c rlen n : Nat} (hpc : s.pc = .write i rlen) (hopen : s.fdTable i = some c)
      (hle : n ≤ rlen) :
      Step (.write (.wrote n))
        { s with
          sent := Function.update s.sent c (s.sent c ++ s.buffer.load 0 n)
          pc := .read i }
  | blocked {i : Fd} {rlen : Nat} {e : Errno} (hpc : s.pc = .write i rlen)
      (he : e.wouldBlock = true) : Step (.write (.fail e)) { s with pc := .scan (i + 1) }
  | writeFailed {i : Fd} {rlen : Nat} {e : Errno} (hpc : s.pc = .write i rlen)
      (he : e.wouldBlock = false) : Step (.write (.fail e)) { s with pc := .close i }
  | close {i : Fd} (hpc : s.pc = .close i) :
      Step .close
        { s with
          fdTable := Function.update s.fdTable i none
          readFdBackupSet := Function.update s.readFdBackupSet i false
          maxSfd := if i = s.maxSfd then
              searchDown (Function.update s.readFdBackupSet i false) s.maxSfd.toNat
            else s.maxSfd
          pc := .scan (i + 1) }

variable {cfg s}

theorem scan_cases {s' : SelectServer} (h : s.scan cfg = some s') : Step cfg s .scan s' := by
  unfold scan at h
  split at h
  · rename_i i hpc
    split at h
    · rename_i hin
      split at h
      · rename_i hbit
        cases h
        by_cases hi : cfg.serverSfd = i
        · subst hi
          rw [if_pos rfl]
          exact .connection hpc hin.2 hbit
        · rw [if_neg hi]
          exact .readable hpc hin.1 hin.2 hbit (fun heq => hi heq.symm)
      · rename_i hbit
        cases h
        exact .pass hpc hin.1 hin.2 (Bool.eq_false_iff.mpr hbit)
    · rename_i hin
      cases h
      rw [Decidable.not_and_iff_or_not] at hin
      exact .scanned hpc (hin.imp (fun hlt => Int.not_le.mp hlt) (fun hn => Int.not_lt.mp hn))
  · exact absurd h (by simp)

theorem accept4_cases {r : Except Errno Fd} {s' : SelectServer} (h : s.accept4 cfg r = some s') :
    Step cfg s (.accept4 r) s' := by
  unfold accept4 at h
  split at h
  · rename_i hpc
    split at h
    · rename_i hok
      cases h
      exact .accepted hpc hok.1 hok.2.1 hok.2.2
    · exact absurd h (by simp)
  · rename_i e hpc
    cases h
    cases he : e.wouldBlock with
    | true => exact .noMore hpc he
    | false => exact .acceptFailed hpc he
  · exact absurd h (by simp)

theorem read_cases {r : ReadResult} {s' : SelectServer} (h : s.read r = some s') :
    Step cfg s (.read r) s' := by
  unfold read at h
  split at h
  · rename_i i bs hpc
    split at h
    · rename_i hle
      obtain ⟨c, hopen, rfl⟩ := Option.map_eq_some_iff.mp h
      cases bs with
      | nil => exact .endOfStream hpc hopen
      | cons b bs => exact .chunk hpc hopen (Nat.succ_pos _) hle
    · exact absurd h (by simp)
  · rename_i i e hpc
    cases h
    cases he : e.wouldBlock with
    | true => exact .drained hpc he
    | false => exact .readFailed hpc he
  · exact absurd h (by simp)

theorem write_cases {r : WriteResult} {s' : SelectServer} (h : s.write r = some s') :
    Step cfg s (.write r) s' := by
  unfold write at h
  split at h
  · rename_i i rlen n hpc
    split at h
    · rename_i hle
      obtain ⟨c, hopen, rfl⟩ := Option.map_eq_some_iff.mp h
      exact .wrote hpc hopen hle
    · exact absurd h (by simp)
  · rename_i i rlen e hpc
    cases h
    cases he : e.wouldBlock with
    | true => exact .blocked hpc he
    | false => exact .writeFailed hpc he
  · exact absurd h (by simp)

/-- **A step of the code is one of the listed ones.** -/
theorem next_cases {l : Label} {s' : SelectServer} (h : s.next cfg l = some s') :
    Step cfg s l s' := by
  cases l with
  | select ready events =>
      simp only [next, select] at h
      split at h
      · rename_i hpc; cases h; exact .select hpc
      · exact absurd h (by simp)
  | selectFailed =>
      simp only [next] at h
      split at h
      · rename_i hpc; cases h; exact .selectFailed hpc
      · exact absurd h (by simp)
  | scan => exact scan_cases h
  | accept4 r => exact accept4_cases h
  | read r => exact read_cases h
  | log =>
      simp only [next, log] at h
      split at h
      · rename_i hpc; cases h; exact .logged hpc
      · exact absurd h (by simp)
  | write r => exact write_cases h
  | close =>
      simp only [next, close] at h
      split at h
      · rename_i hpc; cases h; exact .close hpc
      · exact absurd h (by simp)

end SelectServer

end TcpServers
