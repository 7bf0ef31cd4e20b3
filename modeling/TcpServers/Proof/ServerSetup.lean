import TcpServers.Lib.Amortized
import TcpServers.Lib.Observe
import TcpServers.Model.ServerSetup
import TcpServers.Proof.SetupResources

/-!
# What `setup_server_tcp_socket` leaves behind

Whatever the kernel answers, the function has at most one socket open, the one for the
address it is at, and the sockets that were open before are as they were. It returns a
socket that listens, and throws with none. The address list is the exception: it is not
released where no address worked.
-/

namespace TcpServers

open Lib

/-- The function by itself, called with some sockets open. -/
def setupMachine (reusePort : Bool) (before : Net) : Machine (SetupPc × Net) SetupAnswer where
  init p := p = (.getaddrinfo, before)
  next p a := setupStep reusePort p.2 p.1 a

/-- The socket the function has open, where it has one. -/
def OwnSocket : SetupPc → List Socket → Prop
  | .getaddrinfo, own | .socket _, own | .thrown _, own => own = []
  | .setsockopt fd _ _, own => 0 ≤ fd ∧ own = [⟨fd, false, none, false⟩]
  | .bind fd _ _, own | .closeFd fd _, own => 0 ≤ fd ∧ ∃ r, own = [⟨fd, r, none, false⟩]
  | .listen fd, own | .closeDeaf fd, own => 0 ≤ fd ∧ ∃ r a, own = [⟨fd, r, some a, false⟩]
  | .returned fd, own => 0 ≤ fd ∧ ∃ r a, own = [⟨fd, r, some a, true⟩]

/-- The address lists the function holds, or has lost. -/
def addrListsOwed : SetupPc → Int
  | .socket _ | .setsockopt _ _ _ | .bind _ _ _ | .closeFd _ _ | .thrown .couldNotBind => 1
  | .getaddrinfo | .listen _ | .closeDeaf _ | .returned _ | .thrown (.getaddrinfo _)
  | .thrown .couldNotListen => 0

/-- What is open, and what is owed, next to what was before. -/
structure SetupLaw (before : Net) (pc : SetupPc) (net : Net) : Prop where
  sockets : ∃ own, net.sockets = own ++ before.sockets ∧ OwnSocket pc own
    ∧ ∀ t ∈ own, ∀ u ∈ before.sockets, u.fd ≠ t.fd
  addrLists : net.addrLists = before.addrLists + addrListsOwed pc

namespace Net

variable {net : Net} {fd : Fd} {t : Socket} {rest : List Socket}

/-- Only the socket behind the descriptor changes. -/
theorem sockets_change (hnet : net.sockets = t :: rest) (ht : t.fd = fd)
    (hrest : ∀ u ∈ rest, u.fd ≠ fd) (f : Socket → Socket) :
    (net.change fd f).sockets = f t :: rest := by
  have hsame : rest.map (fun u => if u.fd = fd then f u else u) = rest := by
    refine (List.map_congr_left (fun u hu => ?_)).trans (List.map_id rest)
    exact if_neg (hrest u hu)
  simp only [change, hnet, List.map_cons, ht, if_true, hsame]

/-- Only the socket behind the descriptor goes. -/
theorem sockets_closeFd (hnet : net.sockets = t :: rest) (ht : t.fd = fd) (hfd : 0 ≤ fd)
    (hrest : ∀ u ∈ rest, u.fd ≠ fd) : (net.closeFd fd).sockets = rest := by
  have hne : fd ≠ -1 := fun heq => absurd (heq ▸ hfd) (by decide)
  have hsame : rest.filter (fun u => u.fd ≠ fd) = rest := by
    refine List.filter_eq_self.mpr (fun u hu => ?_)
    simpa using hrest u hu
  rw [closeFd, if_pos hne]
  simp only [close, hnet, List.filter_cons, ht, ne_eq, not_true_eq_false, decide_false, hsame,
    Bool.false_eq_true, if_false]

end Net

variable {reusePort : Bool} {before net net' : Net} {pc pc' : SetupPc} {a : SetupAnswer}

/-- **Kept by every statement**, whatever it gets back. -/
theorem setupLaw_step (h : SetupLaw before pc net)
    (hs : SetupStep reusePort net pc a pc' net') : SetupLaw before pc' net' := by
  obtain ⟨⟨own, hnet, hown, hfresh⟩, hlists⟩ := h
  cases hs with
  | unresolved => exact ⟨⟨own, hnet, hown, hfresh⟩, hlists⟩
  | resolved =>
      refine ⟨⟨own, hnet, hown, hfresh⟩, ?_⟩
      simp only [addrListsOwed] at hlists ⊢
      omega
  | noneLeft => exact ⟨⟨own, hnet, hown, hfresh⟩, hlists⟩
  | noSocket => exact ⟨⟨own, hnet, hown, hfresh⟩, hlists⟩
  | @socket rp left fd hfd hnew =>
      have hnil : own = [] := hown
      subst hnil
      refine ⟨⟨[⟨fd, false, none, false⟩], ?_, ?_, ?_⟩, ?_⟩
      · show _ :: net.sockets = _
        rw [hnet]
        rfl
      · split
        · exact ⟨hfd, rfl⟩
        · exact ⟨hfd, false, rfl⟩
      · intro t ht u hu
        rw [List.mem_singleton.mp ht]
        exact hnew u (by rw [hnet]; exact hu)
      · split
        · exact hlists
        · exact hlists
  | @setsockopt fd rp left ok =>
      obtain ⟨hfd, rfl⟩ := hown
      have hrest := hfresh _ List.mem_cons_self
      cases ok with
      | false => exact ⟨⟨_, hnet, ⟨hfd, false, rfl⟩, hfresh⟩, hlists⟩
      | true =>
          refine ⟨⟨[⟨fd, true, none, false⟩], Net.sockets_change hnet rfl hrest _,
            ⟨hfd, true, rfl⟩, ?_⟩, hlists⟩
          intro t ht u hu
          rw [List.mem_singleton.mp ht]
          exact hrest u hu
  | @bound fd rp left =>
      obtain ⟨hfd, r, rfl⟩ := hown
      have hrest := hfresh _ List.mem_cons_self
      refine ⟨⟨[⟨fd, r, some rp.addr, false⟩], Net.sockets_change hnet rfl hrest _,
        ⟨hfd, r, rp.addr, rfl⟩, ?_⟩, ?_⟩
      · intro t ht u hu
        rw [List.mem_singleton.mp ht]
        exact hrest u hu
      · show net.addrLists - 1 = before.addrLists + 0
        simp only [addrListsOwed] at hlists
        omega
  | notBound => exact ⟨⟨own, hnet, hown, hfresh⟩, hlists⟩
  | @closeFd fd left =>
      obtain ⟨hfd, r, rfl⟩ := hown
      have hclosed := Net.sockets_closeFd hnet rfl hfd (hfresh _ List.mem_cons_self)
      exact ⟨⟨[], hclosed, rfl, fun t ht => absurd ht List.not_mem_nil⟩,
        (net.addrLists_closeFd fd).trans hlists⟩
  | @listen fd =>
      obtain ⟨hfd, r, b, rfl⟩ := hown
      have hrest := hfresh _ List.mem_cons_self
      refine ⟨⟨[⟨fd, r, some b, true⟩], Net.sockets_change hnet rfl hrest _,
        ⟨hfd, r, b, rfl⟩, ?_⟩, hlists⟩
      intro t ht u hu
      rw [List.mem_singleton.mp ht]
      exact hrest u hu
  | deaf => exact ⟨⟨own, hnet, hown, hfresh⟩, hlists⟩
  | @closeDeaf fd =>
      obtain ⟨hfd, r, b, rfl⟩ := hown
      have hclosed := Net.sockets_closeFd hnet rfl hfd (hfresh _ List.mem_cons_self)
      exact ⟨⟨[], hclosed, rfl, fun t ht => absurd ht List.not_mem_nil⟩,
        (net.addrLists_closeFd fd).trans hlists⟩

theorem setupLaw_start (before : Net) : SetupLaw before .getaddrinfo before where
  sockets := ⟨[], rfl, rfl, fun _ ht => absurd ht List.not_mem_nil⟩
  addrLists := (Int.add_zero _).symm

/-! ## The addresses, in their order -/

/-- What an address came to: `socket()` and `bind()` both succeeded on it, or not. -/
def attempts : SetupPc × Net → SetupAnswer → List (AddrInfo × Bool)
  | (.socket (rp :: _), _), .fd fd => if fd < 0 then [(rp, false)] else []
  | (.bind _ rp _, _), .bind r => [(rp, decide (r = .bound))]
  | _, _ => []

/-- All of them failed. -/
def allFailed (l : List AddrInfo) : List (AddrInfo × Bool) := l.map (fun rp => (rp, false))

theorem allFailed_snoc (l : List AddrInfo) (rp : AddrInfo) :
    allFailed (l ++ [rp]) = allFailed l ++ [(rp, false)] := List.map_append

/-- The socket for an address, with what was open before. -/
def SocketFor (before net : Net) (fd : Fd) (rp : AddrInfo) (listening : Bool) : Prop :=
  ∃ r, net.sockets = ⟨fd, r, some rp.addr, listening⟩ :: before.sockets

/-- How far the function has got in the list, given what the addresses came to so far. -/
def InOrder (before : Net) (result : List AddrInfo) (tried : List (AddrInfo × Bool))
    (net : Net) : SetupPc → Prop
  | .socket left | .closeFd _ left => ∃ failed, result = failed ++ left ∧ tried = allFailed failed
  | .setsockopt _ rp left | .bind _ rp left =>
      ∃ failed, result = failed ++ rp :: left ∧ tried = allFailed failed
  | .listen fd | .closeDeaf fd =>
      ∃ failed rp left, result = failed ++ rp :: left ∧ tried = allFailed failed ++ [(rp, true)]
        ∧ SocketFor before net fd rp false
  | .returned fd =>
      ∃ failed rp left, result = failed ++ rp :: left ∧ tried = allFailed failed ++ [(rp, true)]
        ∧ SocketFor before net fd rp true
  | .thrown .couldNotBind => tried = allFailed result
  | .thrown .couldNotListen => True
  | .getaddrinfo | .thrown (.getaddrinfo _) => False

variable {result : List AddrInfo} {tried : List (AddrInfo × Bool)}

/-- An address that failed is behind the ones left. -/
theorem inOrder_failed {failed left : List AddrInfo} {rp : AddrInfo}
    (hresult : result = failed ++ rp :: left) (htried : tried = allFailed failed) :
    ∃ failed, result = failed ++ left ∧ tried ++ [(rp, false)] = allFailed failed := by
  refine ⟨failed ++ [rp], ?_, ?_⟩
  · rw [hresult, List.append_assoc]
    rfl
  · rw [htried, allFailed_snoc]

/-- **The addresses are tried in their order**, each once, up to the first that works. -/
theorem inOrder_step (hlaw : SetupLaw before pc net) (h : InOrder before result tried net pc)
    (hs : SetupStep reusePort net pc a pc' net') :
    InOrder before result (tried ++ attempts (pc, net) a) net' pc' := by
  obtain ⟨⟨own, hnet, hown, hfresh⟩, _⟩ := hlaw
  cases hs with
  | unresolved => exact h
  | resolved => exact absurd h (by simp [InOrder])
  | noneLeft =>
      obtain ⟨failed, hresult, htried⟩ := h
      show tried ++ [] = allFailed result
      rw [hresult, htried, List.append_nil, List.append_nil]
  | @noSocket rp left fd hfd =>
      obtain ⟨failed, hresult, htried⟩ := h
      simp only [attempts, if_pos hfd]
      exact inOrder_failed hresult htried
  | @socket rp left fd hfd hnew =>
      obtain ⟨failed, hresult, htried⟩ := h
      simp only [attempts, if_neg (Int.not_lt.mpr hfd), List.append_nil]
      split
      · exact ⟨failed, hresult, htried⟩
      · exact ⟨failed, hresult, htried⟩
  | setsockopt =>
      obtain ⟨failed, hresult, htried⟩ := h
      refine ⟨failed, hresult, ?_⟩
      simp only [attempts, List.append_nil, htried]
  | @bound fd rp left =>
      obtain ⟨failed, hresult, htried⟩ := h
      obtain ⟨hfd, r, rfl⟩ := hown
      refine ⟨failed, rp, left, hresult, ?_, r, ?_⟩
      · rw [htried]
        rfl
      · exact Net.sockets_change hnet rfl (hfresh _ List.mem_cons_self) _
  | @notBound fd rp left r hr =>
      obtain ⟨failed, hresult, htried⟩ := h
      simp only [attempts, decide_eq_false hr]
      exact inOrder_failed hresult htried
  | closeFd =>
      obtain ⟨failed, hresult, htried⟩ := h
      refine ⟨failed, hresult, ?_⟩
      simp only [attempts, List.append_nil, htried]
  | @listen fd =>
      obtain ⟨failed, rp, left, hresult, htried, r, hsocks⟩ := h
      obtain ⟨hfd, r', b, rfl⟩ := hown
      have hrest : ∀ u ∈ before.sockets, u.fd ≠ fd := hfresh _ List.mem_cons_self
      refine ⟨failed, rp, left, hresult, ?_, r, Net.sockets_change hsocks rfl hrest _⟩
      simp only [attempts, List.append_nil, htried]
  | deaf =>
      obtain ⟨failed, rp, left, hresult, htried, hsocks⟩ := h
      refine ⟨failed, rp, left, hresult, ?_, hsocks⟩
      simp only [attempts, List.append_nil, htried]
  | closeDeaf => trivial

/-- What is left to do, in calls. -/
def callsLeft : SetupPc → Nat
  | .getaddrinfo => 3
  | .socket left => 4 * left.length + 2
  | .setsockopt _ _ left => 4 * left.length + 5
  | .bind _ _ left => 4 * left.length + 4
  | .closeFd _ left => 4 * left.length + 3
  | .listen _ => 2
  | .closeDeaf _ => 1
  | .returned _ | .thrown _ => 0

theorem callsLeft_step (hpc : pc ≠ .getaddrinfo) (hs : SetupStep reusePort net pc a pc' net') :
    callsLeft pc' + 1 ≤ callsLeft pc ∧ pc' ≠ .getaddrinfo := by
  cases hs with
  | unresolved | resolved => exact absurd rfl hpc
  | socket =>
      cases reusePort with
      | true =>
          refine ⟨?_, by simp⟩
          simp only [callsLeft, List.length_cons, if_true]
          omega
      | false =>
          refine ⟨?_, by simp⟩
          simp only [callsLeft, List.length_cons, Bool.false_eq_true, if_false]
          omega
  | noneLeft | noSocket | setsockopt | bound | notBound | closeFd | listen | deaf | closeDeaf =>
      refine ⟨?_, by simp⟩
      simp only [callsLeft, List.length_cons, List.length_nil]
      omega

/-- Before it has returned or thrown, the function has a statement to execute. -/
theorem setup_continues (hreturned : ∀ fd, pc ≠ .returned fd) (hthrown : ∀ e, pc ≠ .thrown e) :
    ∃ a, (setupStep reusePort net pc a).isSome := by
  cases pc with
  | getaddrinfo => exact ⟨.resolved (.error ""), rfl⟩
  | socket left =>
      cases left with
      | nil => exact ⟨.quiet, rfl⟩
      | cons rp left => exact ⟨.fd (-1), rfl⟩
  | setsockopt fd rp left => exact ⟨.done true, rfl⟩
  | bind fd rp left => exact ⟨.bind .bound, rfl⟩
  | closeFd fd left => exact ⟨.quiet, rfl⟩
  | listen fd => exact ⟨.done true, rfl⟩
  | closeDeaf fd => exact ⟨.quiet, rfl⟩
  | returned fd => exact absurd rfl (hreturned fd)
  | thrown e => exact absurd rfl (hthrown e)

/-! ## A whole call -/

/-- What holds after any number of calls behind `getaddrinfo`. -/
theorem setup_run {as : List SetupAnswer}
    (hrun : (setupMachine reusePort before).run (.socket result, resolved before) as
      = some (pc, net)) :
    SetupLaw before pc net
      ∧ InOrder before result ((setupMachine reusePort before).observed attempts
          (.socket result, resolved before) as) net pc
      ∧ as.length + callsLeft pc ≤ 4 * result.length + 2 ∧ pc ≠ .getaddrinfo := by
  refine Machine.run_induction (M := setupMachine reusePort before)
    (fun as p => SetupLaw before p.1 p.2
      ∧ InOrder before result ((setupMachine reusePort before).observed attempts
          (.socket result, resolved before) as) p.2 p.1
      ∧ as.length + callsLeft p.1 ≤ 4 * result.length + 2 ∧ p.1 ≠ .getaddrinfo) ?_ ?_ hrun
  · have hresolved : SetupStep reusePort before .getaddrinfo (.resolved (.ok result))
        (.socket result) (resolved before) := .resolved
    refine ⟨setupLaw_step (setupLaw_start before) hresolved, ⟨[], rfl, rfl⟩, ?_, by simp⟩
    simp only [List.length_nil, callsLeft]
    omega
  · intro as p a p' hm ⟨hlaw, horder, hlen, hpc⟩ hn
    have hstep := setupStep_cases hn
    have hcalls := callsLeft_step hpc hstep
    refine ⟨setupLaw_step hlaw hstep, ?_, ?_, hcalls.2⟩
    · rw [Machine.observed_snoc hm]
      exact inOrder_step hlaw horder hstep
    · rw [List.length_append, List.length_singleton]
      omega

/--
**What a call of `setup_server_tcp_socket` comes to.** It makes at most four calls for each
address and two more, and has one to make until it is over. If it returns, the addresses up
to the first on which `socket()` and `bind()` both succeeded were tried in their order, and
a socket that listens on that one is all that was added to the open ones. If it throws,
nothing was added; where that is because no address worked, all of them were tried, and the
address list is left behind.
-/
theorem setup_outcome {as : List SetupAnswer}
    (hrun : (setupMachine reusePort before).run (.getaddrinfo, before)
      (.resolved (.ok result) :: as) = some (pc, net)) :
    as.length ≤ 4 * result.length + 2
      ∧ (∀ fd, pc = .returned fd → net.addrLists = before.addrLists
          ∧ ∃ failed rp left, result = failed ++ rp :: left
            ∧ (setupMachine reusePort before).observed attempts (.socket result, resolved before) as
              = allFailed failed ++ [(rp, true)]
            ∧ SocketFor before net fd rp true)
      ∧ (∀ e, pc = .thrown e → net.sockets = before.sockets
          ∧ (e = .couldNotBind → net.addrLists = before.addrLists + 1
            ∧ (setupMachine reusePort before).observed attempts (.socket result, resolved before) as
              = allFailed result)
          ∧ (e ≠ .couldNotBind → net.addrLists = before.addrLists))
      ∧ ((∀ fd, pc ≠ .returned fd) → (∀ e, pc ≠ .thrown e) →
          ∃ a, (setupStep reusePort net pc a).isSome) := by
  obtain ⟨hlaw, horder, hlen, _⟩ := setup_run hrun
  refine ⟨by omega, ?_, ?_, setup_continues⟩
  · rintro fd rfl
    exact ⟨hlaw.addrLists.trans (Int.add_zero _), horder⟩
  · rintro e rfl
    obtain ⟨⟨own, hnet, hown, _⟩, hlists⟩ := hlaw
    have hnil : own = [] := hown
    subst hnil
    refine ⟨hnet, ?_, fun hne => ?_⟩
    · rintro rfl
      exact ⟨hlists, horder⟩
    · cases e with
      | getaddrinfo gai => exact hlists.trans (Int.add_zero _)
      | couldNotBind => exact absurd rfl hne
      | couldNotListen => exact hlists.trans (Int.add_zero _)

/-- IPv6 has no socket to give, and IPv4 has. -/
def secondAddress : List SetupAnswer :=
  [.fd (-1), .fd 0, .done true, .bind .bound, .done true]

theorem setup_outcome_secondAddress :
    ∃ net, (setupMachine true ⟨[], 0, 0⟩).run (.getaddrinfo, ⟨[], 0, 0⟩)
        (.resolved (.ok [⟨10, 1, 6, ⟨10, 8080⟩⟩, ⟨2, 1, 6, ⟨2, 8080⟩⟩]) :: secondAddress)
          = some (.returned 0, net)
      ∧ net.addrLists = 0 ∧ ∃ rp, SocketFor ⟨[], 0, 0⟩ net 0 rp true := by
  have hval : ((setupMachine true ⟨[], 0, 0⟩).run (.getaddrinfo, ⟨[], 0, 0⟩)
      (.resolved (.ok [⟨10, 1, 6, ⟨10, 8080⟩⟩, ⟨2, 1, 6, ⟨2, 8080⟩⟩]) :: secondAddress)).map
        Prod.fst = some (.returned 0) := by
    decide +kernel
  obtain ⟨⟨pc, net⟩, hrun, rfl⟩ := Option.map_eq_some_iff.mp hval
  obtain ⟨hlists, failed, rp, left, _, _, hsocket⟩ := (setup_outcome hrun).2.1 0 rfl
  exact ⟨net, hrun, hlists, rp, hsocket⟩

end TcpServers
