import TcpServers.Model.Sockets

/-!
# `start()` with `reuse_port_` never gets to its join loop

The workers' listeners are set up with `reuse_port` false. The first of them
binds, if at all, without `SO_REUSEPORT`, and from then on no socket can bind to
the port: not the next worker's, and not the one `start()` sets up after its
loop, which does set the option. With at least one worker there is always such a
later call, and it throws "Could not bind".
-/

namespace TcpServers

/-- What is assumed of `bind()`. -/
structure BindRule (k : Kernel) : Prop where
  /-- It fails on what is not an open socket. -/
  isOpen : ∀ net fd a, k.bind net fd a = true → ∃ u ∈ net.sockets, u.fd = fd
  /--
  Next to a socket bound to the same port it succeeds only if both had
  `SO_REUSEPORT` set before.
  -/
  conflict : ∀ net fd a, k.bind net fd a = true → ∀ t ∈ net.sockets, t.fd ≠ fd →
    ∀ b, t.bound = some b → b.port = a.port →
      t.reusePort = true ∧ ∀ u ∈ net.sockets, u.fd = fd → u.reusePort = true

/-- `socket()` does not return a descriptor that is open. -/
def SocketRule (k : Kernel) : Prop :=
  ∀ net rp nonblock, ∀ t ∈ net.sockets, t.fd ≠ k.socket net rp nonblock

/-- All addresses are wildcard addresses of one port. -/
def OnePort (k : Kernel) (portNum : String) (port : Nat) : Prop :=
  ∀ net l, k.getaddrinfo net portNum = .ok l → ∀ rp ∈ l, rp.addr.port = port

/-- A socket is listening on the port. -/
def Socket.listensOn (t : Socket) (port : Nat) : Bool :=
  t.listening && t.bound.any (fun a => a.port = port)

/--
What `start()` is to achieve: the join loop, with exactly one listening socket for
each worker, each registered in the epoll instance of exactly one.
-/
def StartsUp (workerNum port : Nat) (r : Except String Startup) : Prop :=
  ∃ st, r = .ok st
    ∧ (st.net.sockets.filter (fun t => t.listensOn port)).length = workerNum
    ∧ ∀ t ∈ st.net.sockets, t.listensOn port = true →
        ∃! i : Nat, ∃ w : Spawned, st.workers[i]? = some w ∧ w.listener = t.fd

/-- A socket bound to the port without `SO_REUSEPORT`, which lets nobody else bind. -/
def Blocked (net : Net) (port : Nat) : Prop :=
  ∃ t ∈ net.sockets, t.reusePort = false ∧ ∃ b, t.bound = some b ∧ b.port = port

/-! ## What the calls leave alone -/

theorem mem_change {net : Net} {fd : Fd} {f : Socket → Socket} {t : Socket}
    (ht : t ∈ net.sockets) (hne : t.fd ≠ fd) : t ∈ (net.change fd f).sockets :=
  List.mem_map.mpr ⟨t, ht, if_neg hne⟩

theorem mem_opened {net : Net} {fd : Fd} {t : Socket} (ht : t ∈ net.sockets) :
    t ∈ (net.opened fd).sockets := by
  unfold Net.opened
  split
  · exact ht
  · exact List.mem_cons_of_mem _ ht

theorem mem_closeFd {net : Net} {fd : Fd} {t : Socket} (ht : t ∈ net.sockets) (hne : t.fd ≠ fd) :
    t ∈ (net.closeFd fd).sockets := by
  unfold Net.closeFd
  split
  · exact List.mem_filter.mpr ⟨ht, by simpa using hne⟩
  · exact ht

/-! ## One call of `setupServerTcpSocket` -/

variable {k : Kernel} {portNum : String} {port : Nat}

/-- **Next to a socket that blocks the port nothing binds**, whatever the options. -/
theorem bindFirst_blocked (hbind : BindRule k) (hsock : SocketRule k) {isNonblock reusePort : Bool}
    {l : List AddrInfo} {net : Net} (hl : ∀ rp ∈ l, rp.addr.port = port)
    (hb : Blocked net port) : (bindFirst k isNonblock reusePort l net).1 = none := by
  induction l generalizing net with
  | nil => rfl
  | cons rp rest ih =>
      have hrest : ∀ rp ∈ rest, rp.addr.port = port := fun r hr => hl r (List.mem_cons_of_mem _ hr)
      obtain ⟨t, ht, hreuse, b, hbound, hport⟩ := hb
      have hfd : t.fd ≠ k.socket net rp isNonblock := hsock net rp isNonblock t ht
      have hopened := @mem_opened net (k.socket net rp isNonblock) t ht
      have hset : t ∈ (if reusePort then
          (net.opened (k.socket net rp isNonblock)).setReusePort (k.socket net rp isNonblock)
          else net.opened (k.socket net rp isNonblock)).sockets := by
        split
        · exact mem_change hopened hfd
        · exact hopened
      simp only [bindFirst]
      split
      · exact ih hrest ⟨t, hopened, hreuse, b, hbound, hport⟩
      · generalize (if reusePort = true then
          (net.opened (k.socket net rp isNonblock)).setReusePort (k.socket net rp isNonblock)
          else net.opened (k.socket net rp isNonblock)) = net₁ at hset ⊢
        split
        · rename_i hok
          -- the kernel's rule would want `SO_REUSEPORT` on the socket in the way
          have hrp := hl rp List.mem_cons_self
          have hrule := (hbind.conflict _ _ _ hok t hset hfd b hbound (hport.trans hrp.symm)).1
          rw [hreuse] at hrule
          cases hrule
        · exact ih hrest ⟨t, mem_closeFd hset hfd, hreuse, b, hbound, hport⟩

/-- **What binds without `SO_REUSEPORT` blocks the port.** -/
theorem bindFirst_blocks (hbind : BindRule k) (hsock : SocketRule k) {isNonblock : Bool}
    {l : List AddrInfo} {net net' : Net} {fd : Fd} (hl : ∀ rp ∈ l, rp.addr.port = port)
    (h : bindFirst k isNonblock false l net = (some fd, net')) : Blocked net' port := by
  induction l generalizing net with
  | nil => cases h
  | cons rp rest ih =>
      have hrest : ∀ rp ∈ rest, rp.addr.port = port := fun r hr => hl r (List.mem_cons_of_mem _ hr)
      simp only [bindFirst, Bool.false_eq_true, if_false] at h
      split at h
      · exact ih hrest h
      · split at h
        · rename_i hok
          obtain ⟨u, hu, hufd⟩ := hbind.isOpen _ _ _ hok
          have hnot := hsock net rp isNonblock
          generalize k.socket net rp isNonblock = sfd at *
          cases h
          unfold Net.opened at hu
          split at hu
          · exact absurd hufd (hnot u hu)
          · rename_i hneg
            refine ⟨⟨fd, false, some rp.addr, false⟩, ?_, rfl, rp.addr, rfl,
              hl rp List.mem_cons_self⟩
            refine List.mem_map.mpr ⟨⟨fd, false, none, false⟩, ?_, if_pos rfl⟩
            unfold Net.opened
            rw [if_neg hneg]
            exact List.mem_cons_self
        · exact ih hrest h

theorem Blocked.listenOn {net : Net} (h : Blocked net port) (fd : Fd) :
    Blocked (net.listenOn fd) port := by
  obtain ⟨t, ht, hreuse, b, hbound, hport⟩ := h
  by_cases hfd : t.fd = fd
  · exact ⟨{ t with listening := true }, List.mem_map.mpr ⟨t, ht, if_pos hfd⟩, hreuse, b, hbound,
      hport⟩
  · exact ⟨t, mem_change ht hfd, hreuse, b, hbound, hport⟩

/-- While the port is blocked no call of `setupServerTcpSocket` returns. -/
theorem setup_blocked (hbind : BindRule k) (hsock : SocketRule k) (hport : OnePort k portNum port)
    {backlog : Nat} {isNonblock reusePort : Bool} {net net' : Net} {fd : Fd}
    (hb : Blocked net port) :
    setupServerTcpSocket k portNum backlog isNonblock reusePort net ≠ (.ok fd, net') := by
  intro h
  unfold setupServerTcpSocket at h
  split at h
  · cases h
  · rename_i l hl
    have hb' : Blocked { net.called with addrLists := net.addrLists + 1 } port := hb
    have hnone := @bindFirst_blocked k port hbind hsock isNonblock reusePort l _
      (hport net l hl) hb'
    split at h
    · cases h
    · rename_i sfd net'' hfirst
      rw [hfirst] at hnone
      cases hnone

/-- A listener set up without `SO_REUSEPORT` blocks the port. -/
theorem setup_blocks (hbind : BindRule k) (hsock : SocketRule k) (hport : OnePort k portNum port)
    {backlog : Nat} {isNonblock : Bool} {net net' : Net} {fd : Fd}
    (h : setupServerTcpSocket k portNum backlog isNonblock false net = (.ok fd, net')) :
    Blocked net' port := by
  unfold setupServerTcpSocket at h
  split at h
  · cases h
  · rename_i l hl
    split at h
    · cases h
    · rename_i sfd net'' hfirst
      have hb := bindFirst_blocks hbind hsock (hport net l hl) hfirst
      dsimp only at h
      split at h
      · cases h
        exact Blocked.listenOn hb fd
      · cases h

/-! ## `start()` -/

variable {args : ServerArgs}

theorem setupEpoll_blocks (hbind : BindRule k) (hsock : SocketRule k)
    (hport : OnePort k args.portNum port) {st st' : Startup} {epollFd : Fd}
    (h : setupEpoll k args st = .ok (st', epollFd)) :
    ¬ Blocked st.net port ∧ Blocked st'.net port := by
  unfold setupEpoll at h
  split at h
  · cases h
  · rename_i sfd net hsetup
    refine ⟨fun hb => setup_blocked hbind hsock hport hb hsetup, ?_⟩
    have hb := setup_blocks hbind hsock hport hsetup
    dsimp only at h
    split at h
    · cases h
    · split at h
      · cases h
        exact hb
      · cases h

/-- After at least one round of the loop the port is blocked. -/
theorem startWorkers_blocks (hbind : BindRule k) (hsock : SocketRule k)
    (hport : OnePort k args.portNum port) {n : Nat} {st st' : Startup}
    (h : startWorkers k args (n + 1) st = .ok st') : Blocked st'.net port := by
  induction n generalizing st with
  | zero =>
      rw [startWorkers] at h
      split at h
      · cases h
      · rename_i st₁ epollFd hsetup
        cases h
        exact (setupEpoll_blocks hbind hsock hport hsetup).2
  | succ n ih =>
      rw [startWorkers] at h
      split at h
      · cases h
      · exact ih h

/--
**`start()` with `reuse_port_` does not start up**: for no number of workers from
one on, no kernel that keeps the rule, and no list of addresses of the port.
-/
theorem reusePort_not_startsUp (hbind : BindRule k) (hsock : SocketRule k)
    (hport : OnePort k args.portNum port) (hreuse : args.reusePort = true)
    (hworkers : 1 ≤ args.workerNum) (net : Net) :
    ¬ StartsUp args.workerNum port (start k args net) := by
  intro hex
  obtain ⟨st, hst, _⟩ := hex
  obtain ⟨n, hn⟩ : ∃ n, args.workerNum = n + 1 := ⟨args.workerNum - 1, by omega⟩
  simp only [start, hreuse, if_true] at hst
  rw [hn] at hst
  split at hst
  · cases hst
  · rename_i st₁ hloop
    have hb := startWorkers_blocks hbind hsock hport hloop
    split at hst
    · cases hst
    · rename_i sfd net' hlast
      exact setup_blocked hbind hsock hport hb hlast

/-! ## A kernel that does everything it may -/

/-- Above every open descriptor. -/
def freshFd (net : Net) : Fd := net.sockets.foldr (fun t fd => max (t.fd + 1) fd) 3

/-- Whether the rule lets the socket bind. -/
def mayBind (net : Net) (fd : Fd) (a : SockAddr) : Bool :=
  net.sockets.any (fun u => u.fd = fd)
    && net.sockets.all (fun t => t.fd = fd || !t.bound.any (fun b => b.port = a.port)
      || t.reusePort && net.sockets.all (fun u => u.fd ≠ fd || u.reusePort))

/-- Every call succeeds that the rule does not forbid; both wildcard addresses resolve. -/
def willing (port : Nat) : Kernel where
  getaddrinfo _ _ := .ok [⟨2, 1, 6, ⟨2, port⟩⟩, ⟨10, 1, 6, ⟨10, port⟩⟩]
  socket net _ _ := freshFd net
  bind := mayBind
  listen _ _ _ := true
  epollCreate net := 1000 + net.calls
  epollAdd _ _ _ := true

theorem freshFd_cons (t : Socket) (l : List Socket) (m : Int) (n : Nat) :
    freshFd ⟨t :: l, m, n⟩ = max (t.fd + 1) (freshFd ⟨l, m, n⟩) := rfl

/-- The descriptor handed out is positive, and above every open one. -/
theorem freshFd_spec (net : Net) : 0 < freshFd net ∧ ∀ t ∈ net.sockets, t.fd < freshFd net := by
  obtain ⟨l, m, n⟩ := net
  induction l with
  | nil =>
      refine ⟨?_, fun t ht => absurd ht List.not_mem_nil⟩
      show (0 : Int) < 3
      decide
  | cons u us ih =>
      rw [freshFd_cons]
      refine ⟨Int.lt_of_lt_of_le ih.1 (Int.le_max_right _ _), fun t ht => ?_⟩
      rcases List.mem_cons.mp ht with rfl | hmem
      · exact Int.lt_of_lt_of_le (Int.lt_succ t.fd) (Int.le_max_left _ _)
      · exact Int.lt_of_lt_of_le (ih.2 t hmem) (Int.le_max_right _ _)

theorem bindRule_willing (port : Nat) : BindRule (willing port) where
  isOpen := by
    intro net fd a h
    simp only [willing, mayBind, Bool.and_eq_true, List.any_eq_true, decide_eq_true_eq] at h
    exact h.1
  conflict := by
    intro net fd a h t ht hne b hbound hport
    simp only [willing, mayBind, Bool.and_eq_true, List.all_eq_true, Bool.or_eq_true,
      decide_eq_true_eq, Bool.not_eq_true'] at h
    rcases h.2 t ht with (heq | hany) | ⟨hreuse, hall⟩
    · exact absurd heq hne
    · simp [hbound, hport] at hany
    · refine ⟨hreuse, fun u hu hufd => ?_⟩
      rcases hall u hu with hufd' | hr
      · exact absurd hufd hufd'
      · exact hr

theorem socketRule_willing (port : Nat) : SocketRule (willing port) :=
  fun net _ _ t ht => Int.ne_of_lt ((freshFd_spec net).2 t ht)

theorem onePort_willing (portNum : String) (port : Nat) : OnePort (willing port) portNum port := by
  intro net l hl rp hrp
  cases hl
  rcases List.mem_cons.mp hrp with rfl | hrp
  · rfl
  · rcases List.mem_cons.mp hrp with rfl | hrp
    · rfl
    · cases hrp

/-- No socket is open yet. -/
def emptyNet : Net := ⟨[], 0, 0⟩

theorem reusePort_not_startsUp_willing :
    ¬ StartsUp 1 8080 (start (willing 8080) ⟨"8080", 50, 1, true⟩ emptyNet) :=
  reusePort_not_startsUp (bindRule_willing 8080) (socketRule_willing 8080)
    (onePort_willing "8080" 8080) rfl (Nat.le_refl 1) emptyNet

/-- What else is assumed: the port is free for whoever may bind, and nothing else fails. -/
structure Cooperative (k : Kernel) : Prop where
  socket : ∀ net rp nonblock, 0 < k.socket net rp nonblock
  bind : ∀ net fd a, (∃ u ∈ net.sockets, u.fd = fd) →
    (∀ t ∈ net.sockets, t.fd ≠ fd → ∀ b, t.bound = some b → b.port ≠ a.port) →
      k.bind net fd a = true
  listen : ∀ net fd backlog, k.listen net fd backlog = true
  epollCreate : ∀ net, 0 ≤ k.epollCreate net
  epollAdd : ∀ net ep fd, k.epollAdd net ep fd = true

/-- One worker on a free port does not start up, though nothing fails but `bind()`. -/
theorem one_worker_not_startsUp :
    ¬ ∀ (k : Kernel) (portNum : String) (port backlog workerNum : Nat), BindRule k →
        SocketRule k → OnePort k portNum port → Cooperative k → 1 ≤ workerNum →
          StartsUp workerNum port (start k ⟨portNum, backlog, workerNum, true⟩ emptyNet) := by
  intro hall
  have hcoop : Cooperative (willing 8080) := by
    refine ⟨fun net rp nonblock => ?_, fun net fd a hopen hfree => ?_, fun _ _ _ => rfl,
      fun net => ?_, fun _ _ _ => rfl⟩
    · exact (freshFd_spec net).1
    · simp only [willing, mayBind, Bool.and_eq_true, List.any_eq_true, List.all_eq_true,
        decide_eq_true_eq]
      refine ⟨hopen, fun t ht => ?_⟩
      by_cases hfd : t.fd = fd
      · simp [hfd]
      · have hnone : t.bound.any (fun b => b.port = a.port) = false := by
          cases hb : t.bound with
          | none => rfl
          | some b => simpa using hfree t ht hfd b hb
        simp [hnone]
    · exact Int.add_nonneg (by decide) (Int.natCast_nonneg _)
  obtain ⟨st, hst, _⟩ := hall (willing 8080) "8080" 8080 50 1 (bindRule_willing 8080)
    (socketRule_willing 8080) (onePort_willing "8080" 8080) hcoop (Nat.le_refl 1)
  have hfails : (start (willing 8080) ⟨"8080", 50, 1, true⟩ emptyNet).isOk = false := by
    decide +kernel
  rw [hst] at hfails
  cases hfails

end TcpServers
