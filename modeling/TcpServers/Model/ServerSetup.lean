import TcpServers.Model.Sockets

/-!
# `concurrent_servers::setup_server_tcp_socket`

The set-up of a listening socket that all servers but the multi-worker one call, one
system call at a time: the workers of the pre-forking server go through it side by side,
and what `bind()` answers one of them depends on how far the others are. The backlog and
the type of the socket are for the kernel only.

The class `file_descriptor` is not part of the source. It is taken as a plain holder of a
number: `set_fd` stores what `socket()` answered and says whether that is a descriptor,
`close_fd` closes it, and the destructor does not.
-/

namespace TcpServers

/-- The three `std::runtime_error`s. -/
inductive SetupError where
  -- the text of `gai_strerror`
  | getaddrinfo (gai : String)
  | couldNotBind
  | couldNotListen
  deriving DecidableEq, Repr

/-- What is thrown says so. -/
def SetupError.what (portNum : String) : SetupError → String
  | .getaddrinfo gai => "getaddrinfo: " ++ gai
  | .couldNotBind => "Could not bind"
  | .couldNotListen => "Could not listen to port " ++ portNum

/-- The statement that comes next. -/
inductive SetupPc where
  | getaddrinfo
  -- `socket(...)` for the first of the addresses left, or `rp == nullptr`
  | socket (left : List AddrInfo)
  -- `setsockopt(..., SO_REUSEADDR | SO_REUSEPORT, ...)`
  | setsockopt (fd : Fd) (rp : AddrInfo) (left : List AddrInfo)
  | bind (fd : Fd) (rp : AddrInfo) (left : List AddrInfo)
  -- `server_sfd.close_fd()` after a failed `bind()`
  | closeFd (fd : Fd) (left : List AddrInfo)
  | listen (fd : Fd)
  -- `server_sfd.close_fd()` after a failed `listen()`
  | closeDeaf (fd : Fd)
  | returned (fd : Fd)
  | thrown (e : SetupError)
  deriving DecidableEq, Repr

/-- What `bind()` answers; only `EADDRINUSE` depends on the other sockets. -/
inductive BindResult where
  | bound
  | addrInUse
  | failed
  deriving DecidableEq, Repr

/-- What a statement gets back. -/
inductive SetupAnswer where
  | resolved (r : Except String (List AddrInfo))
  -- a descriptor, or `-1`
  | fd (fd : Fd)
  -- whether the call succeeded
  | done (ok : Bool)
  | bind (r : BindResult)
  | quiet

/-- The descriptor of an open socket. -/
def Net.isOpen (net : Net) (fd : Fd) : Bool := net.sockets.any (fun t => t.fd = fd)

/-- A socket for an address, and where the function goes with it. -/
def withSocket (reusePort : Bool) (rp : AddrInfo) (left : List AddrInfo) (fd : Fd) : SetupPc :=
  if fd < 0 then .socket left
  else if reusePort then .setsockopt fd rp left
  else .bind fd rp left

/-- A statement of the function; `none` where the answer is not one to it. -/
def setupStep (reusePort : Bool) (net : Net) :
    SetupPc → SetupAnswer → Option (SetupPc × Net)
  | .getaddrinfo, .resolved (.error gai) => some (.thrown (.getaddrinfo gai), net.called)
  | .getaddrinfo, .resolved (.ok result) =>
      some (.socket result, { net.called with addrLists := net.addrLists + 1 })
  | .socket [], .quiet => some (.thrown .couldNotBind, net)
  | .socket (rp :: left), .fd fd =>
      if 0 ≤ fd ∧ net.isOpen fd then none
      else some (withSocket reusePort rp left fd, net.opened fd)
  | .setsockopt fd rp left, .done ok =>
      -- the result is not looked at
      some (.bind fd rp left, if ok then net.setReusePort fd else net.called)
  | .bind fd rp _, .bind .bound => some (.listen fd, (net.bindTo fd rp.addr).freeaddrinfo)
  | .bind fd _ left, .bind _ => some (.closeFd fd left, net.called)
  | .closeFd fd left, .quiet => some (.socket left, net.closeFd fd)
  | .listen fd, .done true => some (.returned fd, net.listenOn fd)
  | .listen fd, .done false => some (.closeDeaf fd, net.called)
  | .closeDeaf fd, .quiet => some (.thrown .couldNotListen, net.closeFd fd)
  | _, _ => none

/-- Everything a statement of the function can do. -/
inductive SetupStep (reusePort : Bool) (net : Net) :
    SetupPc → SetupAnswer → SetupPc → Net → Prop where
  | unresolved {gai : String} :
      SetupStep reusePort net .getaddrinfo (.resolved (.error gai)) (.thrown (.getaddrinfo gai))
        net.called
  | resolved {result : List AddrInfo} :
      SetupStep reusePort net .getaddrinfo (.resolved (.ok result)) (.socket result)
        { net.called with addrLists := net.addrLists + 1 }
  | noneLeft : SetupStep reusePort net (.socket []) .quiet (.thrown .couldNotBind) net
  | noSocket {rp : AddrInfo} {left : List AddrInfo} {fd : Fd} (hfd : fd < 0) :
      SetupStep reusePort net (.socket (rp :: left)) (.fd fd) (.socket left) net.called
  | socket {rp : AddrInfo} {left : List AddrInfo} {fd : Fd} (hfd : 0 ≤ fd)
      (hfresh : ∀ t ∈ net.sockets, t.fd ≠ fd) :
      SetupStep reusePort net (.socket (rp :: left)) (.fd fd)
        (if reusePort then .setsockopt fd rp left else .bind fd rp left)
        { net.called with sockets := ⟨fd, false, none, false⟩ :: net.sockets }
  | setsockopt {fd : Fd} {rp : AddrInfo} {left : List AddrInfo} {ok : Bool} :
      SetupStep reusePort net (.setsockopt fd rp left) (.done ok) (.bind fd rp left)
        (if ok then net.setReusePort fd else net.called)
  | bound {fd : Fd} {rp : AddrInfo} {left : List AddrInfo} :
      SetupStep reusePort net (.bind fd rp left) (.bind .bound) (.listen fd)
        (net.bindTo fd rp.addr).freeaddrinfo
  | notBound {fd : Fd} {rp : AddrInfo} {left : List AddrInfo} {r : BindResult}
      (hr : r ≠ .bound) :
      SetupStep reusePort net (.bind fd rp left) (.bind r) (.closeFd fd left) net.called
  | closeFd {fd : Fd} {left : List AddrInfo} :
      SetupStep reusePort net (.closeFd fd left) .quiet (.socket left) (net.closeFd fd)
  | listen {fd : Fd} :
      SetupStep reusePort net (.listen fd) (.done true) (.returned fd) (net.listenOn fd)
  | deaf {fd : Fd} : SetupStep reusePort net (.listen fd) (.done false) (.closeDeaf fd) net.called
  | closeDeaf {fd : Fd} :
      SetupStep reusePort net (.closeDeaf fd) .quiet (.thrown .couldNotListen) (net.closeFd fd)

/-- **A statement of the function does one of the listed things.** -/
theorem setupStep_cases {reusePort : Bool} {net net' : Net} {pc pc' : SetupPc}
    {a : SetupAnswer} (h : setupStep reusePort net pc a = some (pc', net')) :
    SetupStep reusePort net pc a pc' net' := by
  unfold setupStep at h
  split at h
  · cases h; exact .unresolved
  · cases h; exact .resolved
  · cases h; exact .noneLeft
  · rename_i rp left fd
    split at h
    · exact absurd h (by simp)
    · rename_i hopen
      cases h
      unfold withSocket Net.opened
      by_cases hfd : fd < 0
      · rw [if_pos hfd, if_pos hfd]
        exact .noSocket hfd
      · rw [if_neg hfd, if_neg hfd]
        refine .socket (Int.not_lt.mp hfd) (fun t ht heq => hopen ⟨Int.not_lt.mp hfd, ?_⟩)
        exact List.any_eq_true.mpr ⟨t, ht, decide_eq_true heq⟩
  · cases h; exact .setsockopt
  · cases h; exact .bound
  · rename_i hr
    cases h
    exact .notBound hr
  · cases h; exact .closeFd
  · cases h; exact .listen
  · cases h; exact .deaf
  · cases h; exact .closeDeaf
  · exact absurd h (by simp)

end TcpServers
