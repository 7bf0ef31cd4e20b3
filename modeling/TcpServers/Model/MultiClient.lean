import Mathlib.Logic.Function.Basic
import TcpServers.Lib.Machine
import TcpServers.Model.Posix

/-!
# `multi_client`

`main` starts its threads and joins them; each runs `send_ping_pong_message`, which makes four
connections one after the other, writes its message ten times to each and closes it. Nothing
is read. The threads share one table of descriptors, and a call that fails in any of them ends
the process.

The connections are numbered as they are made. Which thread made one, and what was written to
it, is history.
-/

namespace TcpServers

open Lib

/-- What a descriptor of the client stands for. -/
inductive ClientSocket where
  | unconnected
  | connected (c : Nat)
  deriving DecidableEq, Repr

/-- The statement of `send_ping_pong_message` that comes next, in round `i`. -/
inductive PingPongPc where
  -- `socket(AF_INET, SOCK_STREAM, 0)`
  | socket (i : Nat)
  -- `connect(sockfd, ...)`
  | connect (i : Nat) (sockfd : Fd)
  -- `write(sockfd, msg.data(), msg.length())` for the `j`-th time
  | write (i : Nat) (sockfd : Fd) (j : Nat)
  -- `close(sockfd)`
  | close (i : Nat) (sockfd : Fd)
  | returned
  deriving DecidableEq, Repr

namespace MultiClient

structure Config where
  /-- `num_threads`; one thread more is started. -/
  numThreads : Nat
  /-- `gethostbyname()` knew the host. -/
  resolved : Bool

/-- Where `main` is. -/
inductive MainPc where
  -- `threads.emplace_back(send_ping_pong_message, portno, server)`
  | spawn (i : Nat)
  -- `thread.join()` of thread `i`
  | join (i : Nat)
  -- `return 0`
  | returned
  -- a thread has called `exit`
  | exited (failed : Bool)
  deriving DecidableEq, Repr

end MultiClient

structure MultiClient where
  main : MultiClient.MainPc
  /-- The threads that were started. -/
  thread : Nat → Option PingPongPc
  fdTable : Fd → Option ClientSocket
  /-- History: how many connections were made. -/
  nextConn : Nat
  /-- History: the thread a connection was made by, and its round. -/
  madeBy : Nat → Option (Nat × Nat)
  /-- History: what `write()` accepted for a connection. -/
  said : Nat → List Byte

namespace MultiClient

/-- `msg`. -/
def msg (i : Nat) : List Byte :=
  ("ping pong " ++ toString i).toList.map fun c => UInt8.ofNat c.toNat

/-- The number of connections a thread makes, one after the other. -/
def rounds : Nat := 4

/-- The number of messages on a connection. -/
def messages : Nat := 10

variable (cfg : Config)

def start : MultiClient where
  main := .spawn 0
  thread _ := none
  fdTable _ := none
  nextConn := 0
  madeBy _ := none
  said _ := []

/-- What a thread's call gets back. -/
inductive ThreadAct where
  -- a descriptor, or `-1`
  | socket (fd : Fd)
  | connect (ok : Bool)
  | write (r : WriteResult)
  | close
  deriving DecidableEq, Repr

inductive Label where
  | spawn
  | join
  | thread (t : Nat) (a : ThreadAct)
  deriving DecidableEq, Repr

variable (s : MultiClient)

/-- A thread goes to a statement. -/
def setThread (t : Nat) (pc : PingPongPc) : MultiClient :=
  { s with thread := Function.update s.thread t (some pc) }

/-- `exit(...)`. -/
def exit (failed : Bool) : MultiClient := { s with main := .exited failed }

/-- `socket()`, and the test of `server`. -/
def socket (t i : Nat) (fd : Fd) : Option MultiClient :=
  if fd < 0 then some (s.exit true)
  else if s.fdTable fd ≠ none then none
  else
    let s := { s with fdTable := Function.update s.fdTable fd (some .unconnected) }
    some (if cfg.resolved then s.setThread t (.connect i fd) else s.exit false)

/-- `connect()`. -/
def connect (t i : Nat) (sockfd : Fd) (ok : Bool) : MultiClient :=
  if ok then
    { s with
      fdTable := Function.update s.fdTable sockfd (some (.connected s.nextConn))
      nextConn := s.nextConn + 1
      madeBy := Function.update s.madeBy s.nextConn (some (t, i)) }.setThread t
      (.write i sockfd 1)
  else s.exit true

/-- `write()`, which blocks until it can take something; a short one is not continued. -/
def write (t i : Nat) (sockfd : Fd) (j : Nat) (r : WriteResult) : Option MultiClient :=
  match r, s.fdTable sockfd with
  | .wrote n, some (.connected c) =>
      if 0 < n ∧ n ≤ (msg i).length then
        some ({ s with
          said := Function.update s.said c (s.said c ++ (msg i).take n) }.setThread t
          (if j < messages then .write i sockfd (j + 1) else .close i sockfd))
      else none
  | .fail _, _ => some (s.exit true)
  | _, _ => none

/-- `close()`, and the next round. -/
def close (t i : Nat) (sockfd : Fd) : MultiClient :=
  { s with fdTable := Function.update s.fdTable sockfd none }.setThread t
    (if i < rounds then .socket (i + 1) else .returned)

/-- A statement of a thread. -/
def threadStep (t : Nat) (a : ThreadAct) : Option MultiClient :=
  match s.thread t, a with
  | some (.socket i), .socket fd => s.socket cfg t i fd
  | some (.connect i sockfd), .connect ok => some (s.connect t i sockfd ok)
  | some (.write i sockfd j), .write r => s.write t i sockfd j r
  | some (.close i sockfd), .close => some (s.close t i sockfd)
  | _, _ => none

/-- `emplace_back`, or the end of the loop. -/
def spawn (i : Nat) : MultiClient :=
  if i ≤ cfg.numThreads then
    { s with main := .spawn (i + 1) }.setThread i (.socket 1)
  else { s with main := .join 0 }

/-- `join()` returns once the thread has; after the last one `main` does. -/
def join (i : Nat) : Option MultiClient :=
  if i ≤ cfg.numThreads then
    if s.thread i = some .returned then some { s with main := .join (i + 1) } else none
  else some { s with main := .returned }

/-- The process runs as long as `main` has not returned and nobody has called `exit`. -/
def next : Label → Option MultiClient
  | .spawn =>
      match s.main with
      | .spawn i => some (s.spawn cfg i)
      | _ => none
  | .join =>
      match s.main with
      | .join i => s.join cfg i
      | _ => none
  | .thread t a =>
      match s.main with
      | .spawn _ | .join _ => s.threadStep cfg t a
      | .returned | .exited _ => none

def machine : Machine MultiClient Label where
  init s := s = start
  next := next cfg

/-- What a step writes, and to which connection. -/
def utters : Label → List (Nat × List Byte)
  | .thread t (.write (.wrote n)) =>
      match s.thread t with
      | some (.write i sockfd _) =>
          match s.fdTable sockfd with
          | some (.connected c) => [(c, (msg i).take n)]
          | _ => []
      | _ => []
  | _ => []

/-! ## The steps -/

/-- Everything a step can do. -/
inductive Step : Label → MultiClient → Prop where
  | spawned {i : Nat} (hmain : s.main = .spawn i) (hi : i ≤ cfg.numThreads) :
      Step .spawn
        { s with
          main := .spawn (i + 1)
          thread := Function.update s.thread i (some (.socket 1)) }
  | started {i : Nat} (hmain : s.main = .spawn i) (hi : cfg.numThreads < i) :
      Step .spawn { s with main := .join 0 }
  | joined {i : Nat} (hmain : s.main = .join i) (hi : i ≤ cfg.numThreads)
      (hdone : s.thread i = some .returned) : Step .join { s with main := .join (i + 1) }
  | returned {i : Nat} (hmain : s.main = .join i) (hi : cfg.numThreads < i) :
      Step .join { s with main := .returned }
  | exited {t : Nat} {a : ThreadAct} {failed : Bool} {table : Fd → Option ClientSocket}
      (hsilent : ∀ n, a ≠ .write (.wrote n))
      (halone : table = s.fdTable ∨ ∃ fd, s.fdTable fd = none
        ∧ table = Function.update s.fdTable fd (some .unconnected)) :
      Step (.thread t a) { s with main := .exited failed, fdTable := table }
  | socket {t i : Nat} {fd : Fd} (hpc : s.thread t = some (.socket i)) (hfd : 0 ≤ fd)
      (hfresh : s.fdTable fd = none) :
      Step (.thread t (.socket fd))
        { s with
          fdTable := Function.update s.fdTable fd (some .unconnected)
          thread := Function.update s.thread t (some (.connect i fd)) }
  | connected {t i : Nat} {fd : Fd} (hpc : s.thread t = some (.connect i fd)) :
      Step (.thread t (.connect true))
        { s with
          fdTable := Function.update s.fdTable fd (some (.connected s.nextConn))
          nextConn := s.nextConn + 1
          madeBy := Function.update s.madeBy s.nextConn (some (t, i))
          thread := Function.update s.thread t (some (.write i fd 1)) }
  | wrote {t i j c n : Nat} {fd : Fd} (hpc : s.thread t = some (.write i fd j))
      (hopen : s.fdTable fd = some (.connected c)) (hpos : 0 < n) (hle : n ≤ (msg i).length) :
      Step (.thread t (.write (.wrote n)))
        { s with
          said := Function.update s.said c (s.said c ++ (msg i).take n)
          thread := Function.update s.thread t
            (some (if j < messages then .write i fd (j + 1) else .close i fd)) }
  | closed {t i : Nat} {fd : Fd} (hpc : s.thread t = some (.close i fd)) :
      Step (.thread t .close)
        { s with
          fdTable := Function.update s.fdTable fd none
          thread := Function.update s.thread t
            (some (if i < rounds then .socket (i + 1) else .returned)) }

variable {cfg s}

/-- **A statement of a thread does one of the listed things.** -/
theorem threadStep_cases {t : Nat} {a : ThreadAct} {s' : MultiClient}
    (h : s.threadStep cfg t a = some s') : Step cfg s (.thread t a) s' := by
  unfold threadStep at h
  split at h
  · rename_i i fd hpc
    unfold socket at h
    split at h
    · cases h
      exact .exited (by simp) (Or.inl rfl)
    · rename_i hneg
      split at h
      · exact absurd h (by simp)
      · rename_i hfree
        have hfresh : s.fdTable fd = none := Decidable.not_not.mp hfree
        cases h
        split
        · exact .socket hpc (Int.not_lt.mp hneg) hfresh
        · exact .exited (by simp) (Or.inr ⟨fd, hfresh, rfl⟩)
  · rename_i hpc
    cases h
    unfold connect
    split
    · rename_i hok
      subst hok
      exact .connected hpc
    · exact .exited (by simp) (Or.inl rfl)
  · rename_i hpc
    unfold write at h
    split at h
    · rename_i hopen
      split at h
      · rename_i hn
        cases h
        exact .wrote hpc hopen hn.1 hn.2
      · exact absurd h (by simp)
    · cases h
      exact .exited (by simp) (Or.inl rfl)
    · exact absurd h (by simp)
  · rename_i hpc
    cases h
    exact .closed hpc
  · exact absurd h (by simp)

/-- **A step of the process is one of the listed ones**, and it is taken while it runs. -/
theorem next_cases {l : Label} {s' : MultiClient} (h : s.next cfg l = some s') :
    Step cfg s l s' := by
  unfold next at h
  split at h
  · split at h
    · rename_i hmain
      cases h
      unfold spawn
      split
      · rename_i hi
        exact .spawned hmain hi
      · rename_i hi
        exact .started hmain (Nat.not_le.mp hi)
    · exact absurd h (by simp)
  · split at h
    · rename_i hmain
      unfold join at h
      split at h
      · rename_i hi
        split at h
        · rename_i hdone
          cases h
          exact .joined hmain hi hdone
        · exact absurd h (by simp)
      · rename_i hi
        cases h
        exact .returned hmain (Nat.not_le.mp hi)
    · exact absurd h (by simp)
  · split at h
    · exact threadStep_cases h
    · exact threadStep_cases h
    · exact absurd h (by simp)
    · exact absurd h (by simp)

end MultiClient

end TcpServers
