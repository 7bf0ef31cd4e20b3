import TcpServers.Lib.Store
import TcpServers.Model.Posix

/-!
# `ConnectionData` and `Worker::handleConnectionEvent`

The handler of the multi-worker server, cut into steps: each `read()`, `write()`,
`epoll_ctl()` and each access to a field of the connection's data is a step of
its own, so that the steps of several workers can be interleaved. `HandlerPc`
names the statement that comes next.

`handlerStep` is the code. `HandlerStep` lists, one constructor for each way
through a step, everything `handlerStep` can do; proofs split on it instead of
unfolding the function.
-/

namespace TcpServers

open Lib

/-- `struct ConnectionData`. The buffer is the memory around `buffer_.data()`. -/
structure ConnectionData where
  connFd : Fd
  buffer : Store Byte
  readIndex : Int
  writeIndex : Int
  readyForWrite : Bool

namespace ConnectionData

/-- `buffer_.size()`. -/
def bufferSize : Int := 1024

/-- The constructor. -/
def new (connFd : Fd) : ConnectionData where
  connFd := connFd
  buffer := fun _ => 0
  readIndex := 0
  writeIndex := 0
  readyForWrite := false

/-- A `ssize_t` difference as the `size_t` it is converted to, modulo `2^64`. -/
def toSize (n : Int) : Nat := (n % 18446744073709551616).toNat

/-- The count given to `read()`: `buffer_.size() - read_index_ + 1`. -/
def readCount (cd : ConnectionData) : Nat := toSize (bufferSize - cd.readIndex + 1)

/-- The count given to `write()`: `read_index_ - write_index_`. -/
def writeCount (cd : ConnectionData) : Nat := toSize (cd.readIndex - cd.writeIndex)

/-- `buffer_[0 .. n)`. -/
def bytes (cd : ConnectionData) (n : Int) : List Byte := cd.buffer.load 0 n.toNat

end ConnectionData

/-- The mask `rearmEpoll(conn_data, isRead)` installs. -/
def rearmMask (isRead : Bool) : Events :=
  { epollin := isRead, epollout := !isRead, epollet := true, epolloneshot := true }

/-- The mask `acceptConnections` registers a new connection with. -/
def acceptMask : Events := { epollin := true, epollet := true, epolloneshot := true }

/-- The statement of `handleConnectionEvent` that comes next. -/
inductive HandlerPc where
  -- `if (not conn_data->ready_for_write_)`
  | testRead
  -- `rlen = read(...)`
  | read
  -- `read_index_ += rlen`
  | addReadIndex (rlen : Nat)
  -- the log of `buffer_.data()`
  | logReceived
  -- `ready_for_write_ = true` after a would-block read
  | setReady
  -- `rearmEpoll(conn_data, true)` after a failed read
  | readFailRearm
  -- `reset()`: `read_index_ = 0`
  | resetReadIndex
  -- `reset()`: `write_index_ = 0`
  | resetWriteIndex
  -- `reset()`: `ready_for_write_ = false`
  | resetReady
  -- `if (conn_data->ready_for_write_)`
  | testWrite
  -- `wlen = write(...)`
  | write
  -- `write_index_ += wlen`
  | addWriteIndex (wlen : Nat)
  -- `if (write_index_ >= read_index_)`
  | testEchoed
  -- `ready_for_write_ = false` on a complete echo
  | clearEchoed
  -- `rearmEpoll(conn_data, true)` on a complete echo
  | echoedRearm
  -- `ready_for_write_ = false` and the test of `errno` after `wlen <= 0`
  | clearUnwritten
  -- `rearmEpoll(conn_data, false)` after a would-block write
  | blockedRearm
  -- `rearmEpoll(conn_data, true)` after a failed write
  | writeFailRearm
  deriving DecidableEq, Repr

/-- The `isRead` argument, at the four calls of `rearmEpoll`. -/
def HandlerPc.rearm? : HandlerPc → Option Bool
  | .readFailRearm => some true
  | .echoedRearm => some true
  | .blockedRearm => some false
  | .writeFailRearm => some true
  | _ => none

/-- What a step gets back from the kernel. -/
inductive Answer where
  -- the step makes no system call
  | quiet
  | read (r : ReadResult)
  | write (r : WriteResult)
  -- `none` for success
  | epollCtl (failure : Option Errno)
  deriving DecidableEq, Repr

/-- What a step leaves behind; `pc` is `none` once the handler has returned. -/
structure HandlerOut where
  pc : Option HandlerPc
  data : ConnectionData
  errno : Errno

/--
One step of `handleConnectionEvent`. `none` where the answer is not one to this
step, or the kernel would move more bytes than it was asked to.
-/
def handlerStep (pc : HandlerPc) (cd : ConnectionData) (errno : Errno) (a : Answer) :
    Option HandlerOut :=
  match pc, a with
  | .testRead, .quiet =>
      some ⟨some (if cd.readyForWrite then .testWrite else .read), cd, errno⟩
  | .read, .read (.data bs) =>
      if bs.length ≤ cd.readCount then
        -- `rlen == 0` leaves the loop with `ready_for_write_` still false
        some ⟨some (if bs.length = 0 then .testWrite else .addReadIndex bs.length),
          { cd with buffer := cd.buffer.save cd.readIndex bs }, errno⟩
      else none
  | .read, .read (.fail e) =>
      some ⟨some (if e.wouldBlock then .setReady else .readFailRearm), cd, e⟩
  | .addReadIndex rlen, .quiet =>
      some ⟨some .logReceived, { cd with readIndex := cd.readIndex + rlen }, errno⟩
  | .logReceived, .quiet => some ⟨some .read, cd, errno⟩
  | .setReady, .quiet => some ⟨some .testWrite, { cd with readyForWrite := true }, errno⟩
  | .readFailRearm, .epollCtl r => some ⟨some .resetReadIndex, cd, r.getD errno⟩
  | .resetReadIndex, .quiet => some ⟨some .resetWriteIndex, { cd with readIndex := 0 }, errno⟩
  | .resetWriteIndex, .quiet => some ⟨some .resetReady, { cd with writeIndex := 0 }, errno⟩
  | .resetReady, .quiet => some ⟨none, { cd with readyForWrite := false }, errno⟩
  | .testWrite, .quiet => some ⟨if cd.readyForWrite then some .write else none, cd, errno⟩
  | .write, .write (.wrote n) =>
      if n ≤ cd.writeCount then
        -- `wlen == 0` takes the error branch with whatever `errno` holds
        some ⟨some (if n = 0 then .clearUnwritten else .addWriteIndex n), cd, errno⟩
      else none
  | .write, .write (.fail e) => some ⟨some .clearUnwritten, cd, e⟩
  | .addWriteIndex wlen, .quiet =>
      some ⟨some .testEchoed, { cd with writeIndex := cd.writeIndex + wlen }, errno⟩
  | .testEchoed, .quiet =>
      some ⟨some (if cd.writeIndex ≥ cd.readIndex then .clearEchoed else .write), cd, errno⟩
  | .clearEchoed, .quiet => some ⟨some .echoedRearm, { cd with readyForWrite := false }, errno⟩
  | .echoedRearm, .epollCtl r => some ⟨none, cd, r.getD errno⟩
  | .clearUnwritten, .quiet =>
      some ⟨some (if errno.wouldBlock then .blockedRearm else .writeFailRearm),
        { cd with readyForWrite := false }, errno⟩
  | .blockedRearm, .epollCtl r => some ⟨none, cd, r.getD errno⟩
  | .writeFailRearm, .epollCtl r => some ⟨none, cd, r.getD errno⟩
  | _, _ => none

/-- Everything a step of the handler can do. -/
inductive HandlerStep (cd : ConnectionData) (errno : Errno) :
    HandlerPc → Answer → HandlerOut → Prop where
  | resume (h : cd.readyForWrite = true) :
      HandlerStep cd errno .testRead .quiet ⟨some .testWrite, cd, errno⟩
  | startRead (h : cd.readyForWrite = false) :
      HandlerStep cd errno .testRead .quiet ⟨some .read, cd, errno⟩
  | endOfStream :
      HandlerStep cd errno .read (.read (.data [])) ⟨some .testWrite, cd, errno⟩
  | chunk {bs : List Byte} (hpos : 0 < bs.length) (hle : bs.length ≤ cd.readCount) :
      HandlerStep cd errno .read (.read (.data bs))
        ⟨some (.addReadIndex bs.length),
          { cd with buffer := cd.buffer.save cd.readIndex bs }, errno⟩
  | drained {e : Errno} (h : e.wouldBlock = true) :
      HandlerStep cd errno .read (.read (.fail e)) ⟨some .setReady, cd, e⟩
  | readFailed {e : Errno} (h : e.wouldBlock = false) :
      HandlerStep cd errno .read (.read (.fail e)) ⟨some .readFailRearm, cd, e⟩
  | addReadIndex {rlen : Nat} :
      HandlerStep cd errno (.addReadIndex rlen) .quiet
        ⟨some .logReceived, { cd with readIndex := cd.readIndex + rlen }, errno⟩
  | logReceived : HandlerStep cd errno .logReceived .quiet ⟨some .read, cd, errno⟩
  | setReady :
      HandlerStep cd errno .setReady .quiet
        ⟨some .testWrite, { cd with readyForWrite := true }, errno⟩
  | readFailRearm {r : Option Errno} :
      HandlerStep cd errno .readFailRearm (.epollCtl r) ⟨some .resetReadIndex, cd, r.getD errno⟩
  | resetReadIndex :
      HandlerStep cd errno .resetReadIndex .quiet
        ⟨some .resetWriteIndex, { cd with readIndex := 0 }, errno⟩
  | resetWriteIndex :
      HandlerStep cd errno .resetWriteIndex .quiet
        ⟨some .resetReady, { cd with writeIndex := 0 }, errno⟩
  | resetReady :
      HandlerStep cd errno .resetReady .quiet
        ⟨none, { cd with readyForWrite := false }, errno⟩
  | startWrite (h : cd.readyForWrite = true) :
      HandlerStep cd errno .testWrite .quiet ⟨some .write, cd, errno⟩
  | nothingToWrite (h : cd.readyForWrite = false) :
      HandlerStep cd errno .testWrite .quiet ⟨none, cd, errno⟩
  | wrote {n : Nat} (hpos : 0 < n) (hle : n ≤ cd.writeCount) :
      HandlerStep cd errno .write (.write (.wrote n)) ⟨some (.addWriteIndex n), cd, errno⟩
  | wroteNothing :
      HandlerStep cd errno .write (.write (.wrote 0)) ⟨some .clearUnwritten, cd, errno⟩
  | writeFailed {e : Errno} :
      HandlerStep cd errno .write (.write (.fail e)) ⟨some .clearUnwritten, cd, e⟩
  | addWriteIndex {wlen : Nat} :
      HandlerStep cd errno (.addWriteIndex wlen) .quiet
        ⟨some .testEchoed, { cd with writeIndex := cd.writeIndex + wlen }, errno⟩
  | echoed (h : cd.readIndex ≤ cd.writeIndex) :
      HandlerStep cd errno .testEchoed .quiet ⟨some .clearEchoed, cd, errno⟩
  | notEchoed (h : cd.writeIndex < cd.readIndex) :
      HandlerStep cd errno .testEchoed .quiet ⟨some .write, cd, errno⟩
  | clearEchoed :
      HandlerStep cd errno .clearEchoed .quiet
        ⟨some .echoedRearm, { cd with readyForWrite := false }, errno⟩
  | echoedRearm {r : Option Errno} :
      HandlerStep cd errno .echoedRearm (.epollCtl r) ⟨none, cd, r.getD errno⟩
  | blocked (h : errno.wouldBlock = true) :
      HandlerStep cd errno .clearUnwritten .quiet
        ⟨some .blockedRearm, { cd with readyForWrite := false }, errno⟩
  | failed (h : errno.wouldBlock = false) :
      HandlerStep cd errno .clearUnwritten .quiet
        ⟨some .writeFailRearm, { cd with readyForWrite := false }, errno⟩
  | blockedRearm {r : Option Errno} :
      HandlerStep cd errno .blockedRearm (.epollCtl r) ⟨none, cd, r.getD errno⟩
  | writeFailRearm {r : Option Errno} :
      HandlerStep cd errno .writeFailRearm (.epollCtl r) ⟨none, cd, r.getD errno⟩

/-- **A step of the code is one of the listed ones.** -/
theorem handlerStep_cases {pc : HandlerPc} {cd : ConnectionData} {errno : Errno} {a : Answer}
    {out : HandlerOut} (h : handlerStep pc cd errno a = some out) :
    HandlerStep cd errno pc a out := by
  unfold handlerStep at h
  split at h
  · cases hr : cd.readyForWrite <;> rw [hr] at h <;> cases h
    · exact .startRead hr
    · exact .resume hr
  · rename_i bs
    split at h
    · rename_i hle
      cases bs with
      | nil => cases h; exact .endOfStream
      | cons b bs => cases h; exact .chunk (Nat.succ_pos _) hle
    · exact absurd h (by simp)
  · rename_i e
    cases he : e.wouldBlock <;> rw [he] at h <;> cases h
    · exact .readFailed he
    · exact .drained he
  · cases h; exact .addReadIndex
  · cases h; exact .logReceived
  · cases h; exact .setReady
  · cases h; exact .readFailRearm
  · cases h; exact .resetReadIndex
  · cases h; exact .resetWriteIndex
  · cases h; exact .resetReady
  · cases hr : cd.readyForWrite <;> rw [hr] at h <;> cases h
    · exact .nothingToWrite hr
    · exact .startWrite hr
  · rename_i n
    split at h
    · rename_i hle
      cases n with
      | zero => cases h; exact .wroteNothing
      | succ n => cases h; exact .wrote (Nat.succ_pos _) hle
    · exact absurd h (by simp)
  · cases h; exact .writeFailed
  · cases h; exact .addWriteIndex
  · split at h <;> cases h
    · rename_i hge; exact .echoed hge
    · rename_i hlt; exact .notEchoed (Int.lt_of_not_ge hlt)
  · cases h; exact .clearEchoed
  · cases h; exact .echoedRearm
  · cases he : errno.wouldBlock <;> rw [he] at h <;> cases h
    · exact .failed he
    · exact .blocked he
  · cases h; exact .blockedRearm
  · cases h; exact .writeFailRearm
  · exact absurd h (by simp)

/-- **And each of the listed ones is a step of the code.** -/
theorem handlerStep_of {pc : HandlerPc} {cd : ConnectionData} {errno : Errno} {a : Answer}
    {out : HandlerOut} (h : HandlerStep cd errno pc a out) :
    handlerStep pc cd errno a = some out := by
  cases h with
  | resume h | startRead h | drained h | readFailed h | startWrite h | nothingToWrite h
  | echoed h | blocked h | failed h => simp [handlerStep, h]
  | chunk hpos hle | wrote hpos hle => simp [handlerStep, hle, Nat.ne_of_gt hpos]
  | notEchoed h => simp [handlerStep, Int.not_le.mpr h]
  | endOfStream | wroteNothing => simp [handlerStep]
  | _ => rfl

end TcpServers
