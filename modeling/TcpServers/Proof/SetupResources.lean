import TcpServers.Proof.ReusePort

/-!
# What `setupServerTcpSocket` opens, closes and releases

The function is compared with the loop its comment describes: try each address
until one binds, and where `socket()` or `bind()` fails close the socket and try
the next. Descriptors are looked at as a set, before and after.

Two things differ. `if (!server_sfd)` takes descriptor `0` for a failed
`socket()`, so a socket with that number is neither bound nor closed. And the
exception for a list none of whose addresses worked is thrown before
`freeaddrinfo`.
-/

namespace TcpServers

/-- The descriptors of the open sockets. -/
def Net.fds (net : Net) : List Fd := net.sockets.map Socket.fd

/-- What `socket()` can answer: `-1`, or a descriptor that is not open. -/
def SocketAnswers (k : Kernel) : Prop :=
  ∀ net rp isNonblock, k.socket net rp isNonblock = -1
    ∨ (0 ≤ k.socket net rp isNonblock ∧ k.socket net rp isNonblock ∉ net.fds)

/-- `bind(-1, ...)` fails with `EBADF`. -/
def BindRefuses (k : Kernel) : Prop := ∀ net a, k.bind net (-1) a = false

/-! ## The loop of the comment -/

/-- Where `bind()` is called for a socket. -/
def beforeBind (reusePort : Bool) (fd : Fd) (net : Net) : Net :=
  if reusePort then (net.opened fd).setReusePort fd else net.opened fd

/-- Where the next address is tried. -/
def gaveUp (reusePort : Bool) (fd : Fd) (net : Net) : Net :=
  (beforeBind reusePort fd net).called.closeFd fd

/-- `socket()` and `bind()` both succeed on an address. -/
def Willing (k : Kernel) (isNonblock reusePort : Bool) (rp : AddrInfo) (net : Net) : Prop :=
  0 ≤ k.socket net rp isNonblock
    ∧ k.bind (beforeBind reusePort (k.socket net rp isNonblock) net)
        (k.socket net rp isNonblock) rp.addr = true

instance (k : Kernel) (isNonblock reusePort : Bool) (rp : AddrInfo) (net : Net) :
    Decidable (Willing k isNonblock reusePort rp net) := inferInstanceAs (Decidable (_ ∧ _))

/-- The socket bound to the first address on which both calls succeed. -/
def firstWilling (k : Kernel) (isNonblock reusePort : Bool) :
    List AddrInfo → Net → Option (Fd × Net)
  | [], _ => none
  | rp :: rest, net =>
      let fd := k.socket net rp isNonblock
      if Willing k isNonblock reusePort rp net then
        some (fd, (beforeBind reusePort fd net).bindTo fd rp.addr)
      else firstWilling k isNonblock reusePort rest (gaveUp reusePort fd net)

/--
Both calls succeed on some address, and up to the first such address `socket()`
does not return `0`.
-/
def WillingWithoutZero (k : Kernel) (isNonblock reusePort : Bool) : List AddrInfo → Net → Prop
  | [], _ => False
  | rp :: rest, net =>
      k.socket net rp isNonblock ≠ 0
        ∧ (Willing k isNonblock reusePort rp net
          ∨ WillingWithoutZero k isNonblock reusePort rest
              (gaveUp reusePort (k.socket net rp isNonblock) net))

/-- The state in which the addresses are tried. -/
def resolved (net : Net) : Net := { net.called with addrLists := net.addrLists + 1 }

/-- What a call that got `result` from `getaddrinfo` owes, `r` being its outcome. -/
structure ResourceLaw (k : Kernel) (backlog : Nat) (isNonblock reusePort : Bool)
    (result : List AddrInfo) (net : Net) (r : Except String Fd × Net) : Prop where
  /-- It returns the socket of the first address that works, if that can listen. -/
  returns : ∀ fd, r.1 = .ok fd ↔
    ∃ net', firstWilling k isNonblock reusePort result (resolved net) = some (fd, net')
      ∧ k.listen net'.freeaddrinfo fd backlog = true
  /-- Every other socket it opened is closed. -/
  closes : ∀ fd ∈ r.2.fds, r.1 = .ok fd ∨ fd ∈ net.fds
  /-- The address list is released, once. -/
  frees : r.2.addrLists = net.addrLists

/-! ## What the calls do to the descriptors -/

namespace Net

variable (net : Net) (fd x : Fd)

theorem fds_called : net.called.fds = net.fds := rfl

theorem fds_freeaddrinfo : net.freeaddrinfo.fds = net.fds := rfl

theorem mem_fds_opened : x ∈ (net.opened fd).fds ↔ x ∈ net.fds ∨ (0 ≤ fd ∧ x = fd) := by
  unfold opened
  split
  · rename_i hneg
    simp [fds_called, Int.not_le.mpr hneg]
  · rename_i hneg
    simp [fds, Int.not_lt.mp hneg, or_comm]

theorem fds_change (f : Socket → Socket) (hf : ∀ t, (f t).fd = t.fd) :
    (net.change fd f).fds = net.fds := by
  simp only [fds, change, List.map_map]
  refine List.map_congr_left (fun t _ => ?_)
  simp only [Function.comp]
  split
  · exact hf t
  · rfl

theorem fds_setReusePort : (net.setReusePort fd).fds = net.fds :=
  net.fds_change fd _ (fun _ => rfl)

theorem fds_bindTo (a : SockAddr) : (net.bindTo fd a).fds = net.fds :=
  net.fds_change fd _ (fun _ => rfl)

theorem fds_listenOn : (net.listenOn fd).fds = net.fds := net.fds_change fd _ (fun _ => rfl)

theorem mem_fds_closeFd : x ∈ (net.closeFd fd).fds ↔ x ∈ net.fds ∧ (fd ≠ -1 → x ≠ fd) := by
  unfold closeFd
  split
  · rename_i hne
    simp only [close, fds, List.mem_map, List.mem_filter, decide_eq_true_eq, ne_eq, hne,
      not_false_eq_true, forall_const]
    constructor
    · rintro ⟨t, ⟨ht, htf⟩, rfl⟩
      exact ⟨⟨t, ht, rfl⟩, htf⟩
    · rintro ⟨⟨t, ht, rfl⟩, htf⟩
      exact ⟨t, ⟨ht, htf⟩, rfl⟩
  · rename_i hne
    simp [hne]

theorem addrLists_opened : (net.opened fd).addrLists = net.addrLists := by
  unfold opened
  split <;> rfl

theorem addrLists_closeFd : (net.closeFd fd).addrLists = net.addrLists := by
  unfold closeFd
  split <;> rfl

end Net

variable {k : Kernel} {isNonblock reusePort : Bool}

theorem mem_fds_beforeBind {net : Net} {fd x : Fd} :
    x ∈ (beforeBind reusePort fd net).fds ↔ x ∈ net.fds ∨ (0 ≤ fd ∧ x = fd) := by
  unfold beforeBind
  split
  · rw [Net.fds_setReusePort, Net.mem_fds_opened]
  · rw [Net.mem_fds_opened]

theorem addrLists_beforeBind (net : Net) (fd : Fd) :
    (beforeBind reusePort fd net).addrLists = net.addrLists := by
  unfold beforeBind
  split
  · exact net.addrLists_opened fd
  · exact net.addrLists_opened fd

theorem addrLists_gaveUp (net : Net) (fd : Fd) :
    (gaveUp reusePort fd net).addrLists = net.addrLists :=
  (Net.addrLists_closeFd _ _).trans (addrLists_beforeBind net fd)

/-- An address that did not work leaves the open descriptors as they were. -/
theorem mem_fds_gaveUp (hsock : SocketAnswers k) (net : Net) (rp : AddrInfo) (x : Fd) :
    x ∈ (gaveUp reusePort (k.socket net rp isNonblock) net).fds ↔ x ∈ net.fds := by
  unfold gaveUp
  rw [Net.mem_fds_closeFd, Net.fds_called, mem_fds_beforeBind]
  rcases hsock net rp isNonblock with hfail | ⟨hok, hfresh⟩
  · simp [hfail]
  · constructor
    · rintro ⟨hx | hx, hne⟩
      · exact hx
      · exact absurd hx.2 (hne (by intro heq; rw [heq] at hok; exact absurd hok (by decide)))
    · intro hx
      refine ⟨Or.inl hx, fun _ heq => hfresh (by rwa [← heq])⟩

/-- `bind()` succeeds on a socket only. -/
theorem willing_iff (hsock : SocketAnswers k) (hbind : BindRefuses k) (rp : AddrInfo) (net : Net) :
    Willing k isNonblock reusePort rp net ↔
      k.bind (beforeBind reusePort (k.socket net rp isNonblock) net)
        (k.socket net rp isNonblock) rp.addr = true := by
  refine ⟨fun hw => hw.2, fun hb => ⟨?_, hb⟩⟩
  rcases hsock net rp isNonblock with hfail | ⟨hok, _⟩
  · rw [hfail, hbind] at hb
    cases hb
  · exact hok

/-! ## The loop -/

/-- One round of the loop over the addresses. -/
theorem bindFirst_cons (rp : AddrInfo) (rest : List AddrInfo) (net : Net) :
    bindFirst k isNonblock reusePort (rp :: rest) net =
      if k.socket net rp isNonblock = 0 then
        bindFirst k isNonblock reusePort rest (net.opened 0)
      else if k.bind (beforeBind reusePort (k.socket net rp isNonblock) net)
          (k.socket net rp isNonblock) rp.addr then
        (some (k.socket net rp isNonblock),
          (beforeBind reusePort (k.socket net rp isNonblock) net).bindTo
            (k.socket net rp isNonblock) rp.addr)
      else bindFirst k isNonblock reusePort rest
        (gaveUp reusePort (k.socket net rp isNonblock) net) := by
  simp only [bindFirst]
  split
  · rename_i hzero
    rw [hzero]
  · rfl

/-- The loop does not release the address list. -/
theorem addrLists_bindFirst (l : List AddrInfo) (net : Net) :
    (bindFirst k isNonblock reusePort l net).2.addrLists = net.addrLists := by
  induction l generalizing net with
  | nil => rfl
  | cons rp rest ih =>
      rw [bindFirst_cons]
      split
      · rw [ih, Net.addrLists_opened]
      · split
        · exact addrLists_beforeBind net _
        · rw [ih, addrLists_gaveUp]

/-- A socket with descriptor `0` is not closed any more, and not returned. -/
theorem bindFirst_zero (hsock : SocketAnswers k) {l : List AddrInfo} {net : Net}
    (h : 0 ∈ net.fds) : 0 ∈ (bindFirst k isNonblock reusePort l net).2.fds
      ∧ (bindFirst k isNonblock reusePort l net).1 ≠ some 0 := by
  induction l generalizing net with
  | nil => exact ⟨h, by simp [bindFirst]⟩
  | cons rp rest ih =>
      rw [bindFirst_cons]
      split
      · exact ih ((Net.mem_fds_opened _ _ _).mpr (Or.inl h))
      · rename_i hne
        split
        · refine ⟨?_, fun heq => hne (Option.some.inj heq)⟩
          rw [Net.fds_bindTo, mem_fds_beforeBind]
          exact Or.inl h
        · exact ih ((mem_fds_gaveUp hsock net rp 0).mpr h)

/-- **Where no `0` comes before it**, the loop finds the first address that works. -/
theorem bindFirst_willing (hsock : SocketAnswers k) (hbind : BindRefuses k) {l : List AddrInfo}
    {net : Net} (h : WillingWithoutZero k isNonblock reusePort l net) :
    ∃ fd net', firstWilling k isNonblock reusePort l net = some (fd, net')
      ∧ bindFirst k isNonblock reusePort l net = (some fd, net') ∧ 0 ≤ fd
      ∧ ∀ x ∈ net'.fds, x = fd ∨ x ∈ net.fds := by
  induction l generalizing net with
  | nil => exact absurd h (by simp [WillingWithoutZero])
  | cons rp rest ih =>
      obtain ⟨hne, hnext⟩ := h
      rw [bindFirst_cons, if_neg hne]
      by_cases hw : Willing k isNonblock reusePort rp net
      · refine ⟨k.socket net rp isNonblock, _, if_pos hw, if_pos hw.2, hw.1, fun x hx => ?_⟩
        rw [Net.fds_bindTo, mem_fds_beforeBind] at hx
        rcases hx with hx | hx
        · exact Or.inr hx
        · exact Or.inl hx.2
      · have hnot := mt (willing_iff hsock hbind rp net).mpr hw
        obtain ⟨fd, net', hfirst, hloop, hfd, hfds⟩ := ih (hnext.resolve_left hw)
        refine ⟨fd, net', ?_, (if_neg hnot).trans hloop, hfd, fun x hx => ?_⟩
        · simp only [firstWilling, if_neg hw]
          exact hfirst
        · rw [← mem_fds_gaveUp hsock net rp x]
          exact hfds x hx

/-- **Otherwise** it finds none at all, or leaves a socket with descriptor `0` behind. -/
theorem bindFirst_unwilling (hsock : SocketAnswers k) (hbind : BindRefuses k) {l : List AddrInfo}
    {net : Net} (h : ¬ WillingWithoutZero k isNonblock reusePort l net) :
    (bindFirst k isNonblock reusePort l net).1 = none
      ∨ (0 ∉ net.fds ∧ 0 ∈ (bindFirst k isNonblock reusePort l net).2.fds
        ∧ (bindFirst k isNonblock reusePort l net).1 ≠ some 0) := by
  induction l generalizing net with
  | nil => exact Or.inl rfl
  | cons rp rest ih =>
      rw [bindFirst_cons]
      by_cases hzero : k.socket net rp isNonblock = 0
      · rw [if_pos hzero]
        have hfresh : 0 ∉ net.fds := by
          rcases hsock net rp isNonblock with hfail | ⟨_, hfresh⟩
          · rw [hfail] at hzero
            cases hzero
          · rwa [hzero] at hfresh
        exact Or.inr ⟨hfresh, bindFirst_zero hsock
          ((Net.mem_fds_opened _ _ _).mpr (Or.inr ⟨Int.le_refl 0, rfl⟩))⟩
      · have hw : ¬ Willing k isNonblock reusePort rp net :=
          fun hw => h ⟨hzero, Or.inl hw⟩
        rw [if_neg hzero, if_neg (mt (willing_iff hsock hbind rp net).mpr hw),
          ← mem_fds_gaveUp hsock net rp 0]
        exact ih (fun hrest => h ⟨hzero, Or.inr hrest⟩)

/-! ## The call -/

/-- What follows the loop over the addresses. -/
def afterLoop (k : Kernel) (portNum : String) (backlog : Nat) :
    Option Fd × Net → Except String Fd × Net
  | (none, net) => (.error "Could not bind", net)
  | (some serverSfd, net) =>
      if k.listen net.freeaddrinfo serverSfd backlog then
        (.ok serverSfd, net.freeaddrinfo.listenOn serverSfd)
      else
        (.error ("Could not listen to port " ++ portNum),
          net.freeaddrinfo.called.closeFd serverSfd)

theorem setup_eq {portNum : String} {backlog : Nat} {result : List AddrInfo} {net : Net}
    (hget : k.getaddrinfo net portNum = .ok result) :
    setupServerTcpSocket k portNum backlog isNonblock reusePort net =
      afterLoop k portNum backlog (bindFirst k isNonblock reusePort result (resolved net)) := by
  simp only [setupServerTcpSocket, hget]
  change _ = afterLoop k portNum backlog (bindFirst k isNonblock reusePort result
    { net.called with addrLists := net.addrLists + 1 })
  generalize bindFirst k isNonblock reusePort result
    { net.called with addrLists := net.addrLists + 1 } = p
  obtain ⟨fd, net'⟩ := p
  cases fd with
  | none => rfl
  | some fd => rfl

/-- A bound socket is returned or closed, and nothing is opened. -/
theorem of_mem_afterLoop {portNum : String} {backlog : Nat} {fd x : Fd} {net : Net}
    (hfd : 0 ≤ fd) (hx : x ∈ (afterLoop k portNum backlog (some fd, net)).2.fds) :
    x ∈ net.fds ∧ (x = fd → (afterLoop k portNum backlog (some fd, net)).1 = .ok x) := by
  have hne : fd ≠ -1 := by
    intro heq
    rw [heq] at hfd
    exact absurd hfd (by decide)
  simp only [afterLoop] at hx ⊢
  split at hx
  · rename_i hlisten
    rw [Net.fds_listenOn, Net.fds_freeaddrinfo] at hx
    exact ⟨hx, fun heq => by simp [hlisten, heq]⟩
  · rw [Net.mem_fds_closeFd, Net.fds_called, Net.fds_freeaddrinfo] at hx
    exact ⟨hx.1, fun heq => absurd heq (hx.2 hne)⟩

/-- Every other socket stays as it is. -/
theorem mem_afterLoop {portNum : String} {backlog : Nat} {fd x : Fd} {net : Net}
    (hx : x ∈ net.fds) (hne : x ≠ fd) :
    x ∈ (afterLoop k portNum backlog (some fd, net)).2.fds := by
  simp only [afterLoop]
  split
  · rwa [Net.fds_listenOn, Net.fds_freeaddrinfo]
  · rw [Net.mem_fds_closeFd, Net.fds_called, Net.fds_freeaddrinfo]
    exact ⟨hx, fun _ => hne⟩

/-- It is the only descriptor returned, and returned where it can listen. -/
theorem afterLoop_ok {portNum : String} {backlog : Nat} {fd x : Fd} {net : Net} :
    (afterLoop k portNum backlog (some fd, net)).1 = .ok x ↔
      fd = x ∧ k.listen net.freeaddrinfo fd backlog = true := by
  simp only [afterLoop]
  split
  · rename_i hlisten
    simp [hlisten]
  · rename_i hlisten
    simp [hlisten]

/-- The address list is released after a successful loop. -/
theorem afterLoop_addrLists {portNum : String} {backlog : Nat} {fd : Fd} {net : Net} :
    (afterLoop k portNum backlog (some fd, net)).2.addrLists = net.addrLists - 1 := by
  simp only [afterLoop]
  split
  · rfl
  · rw [Net.addrLists_closeFd]
    rfl

/-- With none of the addresses, the list or a socket with descriptor `0` is left. -/
theorem not_resourceLaw {portNum : String} {backlog : Nat} {result : List AddrInfo} {net : Net}
    (hsock : SocketAnswers k) (hbind : BindRefuses k)
    (hget : k.getaddrinfo net portNum = .ok result)
    (hnot : ¬ WillingWithoutZero k isNonblock reusePort result (resolved net)) :
    ¬ ResourceLaw k backlog isNonblock reusePort result net
        (setupServerTcpSocket k portNum backlog isNonblock reusePort net) := by
  intro hlaw
  rw [setup_eq hget] at hlaw
  have hlists := @addrLists_bindFirst k isNonblock reusePort result (resolved net)
  have hbad := bindFirst_unwilling hsock hbind hnot
  generalize bindFirst k isNonblock reusePort result (resolved net) = p at hlaw hlists hbad
  obtain ⟨fd, net'⟩ := p
  cases fd with
  | none =>
      -- thrown before `freeaddrinfo`
      have hfrees : net'.addrLists = net.addrLists := hlaw.frees
      rw [hlists] at hfrees
      exact absurd hfrees (Int.ne_of_gt (Int.lt_succ net.addrLists))
  | some fd =>
      obtain ⟨hfresh, hopen, hne⟩ := hbad.resolve_left (by simp)
      have hother : (0 : Fd) ≠ fd := by
        intro heq
        rw [← heq] at hne
        exact hne rfl
      rcases hlaw.closes 0 (mem_afterLoop hopen hother) with hret | hold
      · exact hother (afterLoop_ok.mp hret).1.symm
      · exact hfresh hold

/-- With one of them, everything is in order. -/
theorem resourceLaw {portNum : String} {backlog : Nat} {result : List AddrInfo} {net : Net}
    (hsock : SocketAnswers k) (hbind : BindRefuses k)
    (hget : k.getaddrinfo net portNum = .ok result)
    (hw : WillingWithoutZero k isNonblock reusePort result (resolved net)) :
    ResourceLaw k backlog isNonblock reusePort result net
        (setupServerTcpSocket k portNum backlog isNonblock reusePort net) := by
  have hlists := @addrLists_bindFirst k isNonblock reusePort result (resolved net)
  obtain ⟨fd, net', hfirst, hloop, hfd, hfds⟩ := bindFirst_willing hsock hbind hw
  rw [hloop] at hlists
  rw [setup_eq hget, hloop]
  refine ⟨fun x => ?_, fun x hx => ?_, ?_⟩
  · rw [afterLoop_ok, hfirst]
    constructor
    · rintro ⟨rfl, hlisten⟩
      exact ⟨net', rfl, hlisten⟩
    · rintro ⟨net'', heq, hlisten⟩
      cases heq
      exact ⟨rfl, hlisten⟩
  · obtain ⟨hx, hret⟩ := of_mem_afterLoop hfd hx
    rcases hfds x hx with heq | hold
    · exact Or.inl (hret heq)
    · exact Or.inr hold
  · rw [afterLoop_addrLists, hlists]
    exact Int.add_sub_cancel net.addrLists 1

/--
**`setupServerTcpSocket` keeps the resource law exactly where** both `socket()` and
`bind()` succeed on some address, and `socket()` returns `0` on none up to that one.
-/
theorem setup_resourceLaw_iff {portNum : String} {backlog : Nat} {result : List AddrInfo}
    {net : Net} (hsock : SocketAnswers k) (hbind : BindRefuses k)
    (hget : k.getaddrinfo net portNum = .ok result) :
    ResourceLaw k backlog isNonblock reusePort result net
        (setupServerTcpSocket k portNum backlog isNonblock reusePort net)
      ↔ WillingWithoutZero k isNonblock reusePort result (resolved net) := by
  constructor
  · intro hlaw
    by_contra hnot
    exact not_resourceLaw hsock hbind hget hnot hlaw
  · exact resourceLaw hsock hbind hget

/-- One address, descriptors handed out by `socket`, `bind()` answering `binds` on a socket. -/
def oneAddress (socket : Net → Fd) (binds : Bool) : Kernel where
  getaddrinfo _ _ := .ok [⟨2, 1, 6, ⟨2, 8080⟩⟩]
  socket net _ _ := socket net
  bind _ fd _ := 0 ≤ fd && binds
  listen _ _ _ := true
  epollCreate net := 1000 + net.calls
  epollAdd _ _ _ := true

/-- The lowest descriptor, in a process started with its standard input closed. -/
def lowestFd (net : Net) : Fd := if 0 ∈ net.fds then freshFd net else 0

theorem freshFd_not_mem (net : Net) : freshFd net ∉ net.fds := by
  intro hmem
  obtain ⟨t, ht, heq⟩ := List.mem_map.mp hmem
  exact Int.ne_of_lt ((freshFd_spec net).2 t ht) heq

theorem socketAnswers_freshFd (binds : Bool) : SocketAnswers (oneAddress freshFd binds) :=
  fun net _ _ => Or.inr ⟨Int.le_of_lt (freshFd_spec net).1, freshFd_not_mem net⟩

theorem socketAnswers_lowestFd (binds : Bool) : SocketAnswers (oneAddress lowestFd binds) := by
  intro net rp isNonblock
  refine Or.inr ?_
  simp only [oneAddress, lowestFd]
  split
  · exact ⟨Int.le_of_lt (freshFd_spec net).1, freshFd_not_mem net⟩
  · rename_i hfree
    exact ⟨Int.le_refl 0, hfree⟩

theorem bindRefuses_oneAddress (socket : Net → Fd) (binds : Bool) :
    BindRefuses (oneAddress socket binds) := fun _ _ => rfl

theorem setup_resourceLaw_oneAddress :
    ResourceLaw (oneAddress freshFd true) 50 true false [⟨2, 1, 6, ⟨2, 8080⟩⟩] emptyNet
      (setupServerTcpSocket (oneAddress freshFd true) "8080" 50 true false emptyNet) :=
  (setup_resourceLaw_iff (socketAnswers_freshFd true) (bindRefuses_oneAddress _ _) rfl).mpr
    ⟨by decide +kernel, Or.inl (by decide +kernel)⟩

/--
With the port in use the address list is not released; with standard input closed
the socket is neither returned nor closed.
-/
theorem setup_breaks_resourceLaw :
    (SocketAnswers (oneAddress freshFd false) ∧ BindRefuses (oneAddress freshFd false)
        ∧ ¬ ResourceLaw (oneAddress freshFd false) 50 true false [⟨2, 1, 6, ⟨2, 8080⟩⟩] emptyNet
          (setupServerTcpSocket (oneAddress freshFd false) "8080" 50 true false emptyNet))
      ∧ (SocketAnswers (oneAddress lowestFd true) ∧ BindRefuses (oneAddress lowestFd true)
        ∧ ¬ ResourceLaw (oneAddress lowestFd true) 50 true false [⟨2, 1, 6, ⟨2, 8080⟩⟩] emptyNet
          (setupServerTcpSocket (oneAddress lowestFd true) "8080" 50 true false emptyNet)) := by
  refine ⟨⟨socketAnswers_freshFd false, bindRefuses_oneAddress _ _, fun hlaw => ?_⟩,
    socketAnswers_lowestFd true, bindRefuses_oneAddress _ _, fun hlaw => ?_⟩
  · exact absurd hlaw.frees (by decide +kernel)
  · have hopen : (0 : Fd) ∈ (setupServerTcpSocket (oneAddress lowestFd true) "8080" 50 true false
        emptyNet).2.fds := by decide +kernel
    have hfails : (setupServerTcpSocket (oneAddress lowestFd true) "8080" 50 true false
        emptyNet).1.isOk = false := by decide +kernel
    rcases hlaw.closes 0 hopen with hret | hold
    · rw [hret] at hfails
      cases hfails
    · cases hold

end TcpServers
