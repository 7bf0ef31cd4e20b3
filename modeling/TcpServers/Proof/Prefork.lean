import TcpServers.Proof.PreforkWorker

/-!
# The workers of the pre-forking server share the port

The master forks at most as many workers as it was asked for. Each asks for the port with a
socket that has `SO_REUSEPORT` set, so whoever comes first does not keep it from the others:
whether a worker gets it depends on the sockets of other programs only. And whatever one
worker does, what the kernel gave to the listener of another is safe.
-/

namespace TcpServers.Prefork

open Lib

variable {cfg : Config} {s s' : Prefork} {w : Nat} {wk wk' : Worker} {l : Label}

/-- The workers, and the master's count of them. -/
structure PreforkInv (cfg : Config) (s : Prefork) : Prop where
  forked : ∀ w, (s.worker w).isSome ↔ w < s.forked
  master : ∀ i, s.master = .fork i → i = s.forked
  number : s.forked ≤ cfg.workerProcessNum.toNat
  returned : s.master = .returned → s.forked = cfg.workerProcessNum.toNat
  worker : ∀ w wk, s.worker w = some wk → WorkerInv wk

theorem preforkInv_start (cfg : Config) : PreforkInv cfg start where
  forked := by
    intro w
    simp [start]
  master := by
    intro i hi
    cases hi
    rfl
  number := Nat.zero_le _
  returned := by
    intro h
    cases h
  worker := by
    intro w wk hw
    cases hw

/-- Kept by a step of one worker. -/
theorem PreforkInv.worker_step (h : PreforkInv cfg s) (hw : s.worker w = some wk)
    (hinv : WorkerInv wk') :
    PreforkInv cfg { s with worker := Function.update s.worker w (some wk') } where
  forked := by
    intro v
    show (Function.update s.worker w (some wk') v).isSome ↔ v < s.forked
    rw [← h.forked v]
    by_cases hv : v = w
    · subst hv
      rw [Function.update_self, hw]
      exact Iff.rfl
    · rw [Function.update_of_ne hv]
  master := h.master
  number := h.number
  returned := h.returned
  worker := by
    intro v wk₁ hv
    rcases Table.of_insert hv with ⟨_, rfl⟩ | ⟨_, hold⟩
    · exact hinv
    · exact h.worker v wk₁ hold

/-- **Preserved by every step.** -/
theorem preforkInv_step (h : PreforkInv cfg s) (hs : Step cfg s l s') : PreforkInv cfg s' := by
  cases hs with
  | @forked i hmaster hi =>
      have hcount := h.master i hmaster
      refine ⟨fun v => ?_, fun j hj => ?_, ?_, fun hret => ?_, fun v wk hv => ?_⟩
      · show (Function.update s.worker s.forked (some Worker.start) v).isSome ↔ v < s.forked + 1
        by_cases hv : v = s.forked
        · subst hv
          rw [Function.update_self]
          simp
        · rw [Function.update_of_ne hv, h.forked v]
          omega
      · cases hj
        rw [hcount]
      · show s.forked + 1 ≤ cfg.workerProcessNum.toNat
        omega
      · cases hret
      · rcases Table.of_insert hv with ⟨_, rfl⟩ | ⟨_, hold⟩
        · exact workerInv_start
        · exact h.worker v wk hold
  | forkFailed hmaster =>
      refine ⟨h.forked, fun j hj => ?_, h.number, fun hret => ?_, h.worker⟩
      · cases hj
      · cases hret
  | @returns i hmaster hi =>
      have hcount := h.master i hmaster
      have hnumber := h.number
      refine ⟨h.forked, fun j hj => ?_, hnumber, fun _ => ?_, h.worker⟩
      · cases hj
      · show s.forked = cfg.workerProcessNum.toNat
        omega
  | worker hw _ hnext =>
      exact h.worker_step hw (workerInv_step (h.worker _ _ hw) (Worker.next_cases hnext))

theorem preforkInv_reachable {C : Prefork → Label → Prop}
    (h : (machine cfg).ReachableVia C s) : PreforkInv cfg s := by
  refine Machine.ReachableVia.invariant ?_ ?_ h
  · intro s hinit
    subst hinit
    exact preforkInv_start cfg
  · intro s l s' _ hi _ hs
    exact preforkInv_step hi (next_cases hs)

/-- Three workers, one of which gets to its event loop. -/
def oneReady : List Label :=
  [.fork true, .fork true, .fork true, .returns,
    .worker 1 (.call (.resolved (.ok [⟨2, 1, 6, ⟨2, 8080⟩⟩]))), .worker 1 (.call (.fd 3)),
    .worker 1 (.call (.done true)), .worker 1 (.call (.bind .bound)),
    .worker 1 (.call (.done true)), .worker 1 (.call .quiet), .worker 1 .arrive,
    .worker 1 (.call (.fd 4)), .worker 1 (.call (.done true)), .worker 1 .arrive]

/-- Where `oneReady` leads. -/
theorem oneReady_run : ∃ s wk loop, (machine ⟨3, []⟩).Reachable s ∧ s.master = .returned
    ∧ s.worker 1 = some wk ∧ wk.pc = .eventLoop ⟨.linuxConcurrentServer, 3, 1⟩ loop
    ∧ loop.pc = .epollWait ∧ wk.arrived = 2 := by
  have hval : ∃ s wk loop, (machine ⟨3, []⟩).run start oneReady = some s ∧ s.master = .returned
      ∧ s.worker 1 = some wk ∧ wk.pc = .eventLoop ⟨.linuxConcurrentServer, 3, 1⟩ loop
      ∧ loop.pc = .epollWait ∧ wk.arrived = 2 :=
    ⟨_, _, _, rfl, rfl, rfl, rfl, rfl, rfl⟩
  obtain ⟨s, wk, loop, hrun, hrest⟩ := hval
  exact ⟨s, wk, loop, .of_run (.init rfl) Machine.along_true hrun, hrest⟩

/-- A worker that has not caught an exception. -/
def Serving (wk : Worker) : Prop :=
  (∀ fd e, wk.pc ≠ .caught fd e) ∧ wk.pc ≠ .exit ∧ wk.pc ≠ .exited

/-- The connections that wait at a worker's listener. -/
def waiting (wk : Worker) : Nat :=
  match wk.pc with
  | .eventLoop _ loop => loop.acceptQueue
  | _ => wk.queued

/-- The connections a worker has accepted. -/
def accepted (wk : Worker) : Nat :=
  match wk.pc with
  | .eventLoop _ loop => loop.nextConn
  | _ => 0

/--
**No connection is lost between the workers.** What the kernel gave to the listener of a
worker, while the worker was still on its way to its event loop or later, waits there or was
accepted, for as long as the worker has not thrown. And where its event loop sleeps with
connections waiting there is an edge to wake it up, and all accepted ones are registered.
-/
theorem connections_kept (h : (machine cfg).Reachable s) (hw : s.worker w = some wk)
    (hserving : Serving wk) :
    wk.arrived = waiting wk + accepted wk
      ∧ ∀ c loop, wk.pc = .eventLoop c loop → loop.pc = .epollWait →
        (waiting wk = 0 ∨ loop.edge = true) ∧ ∀ k < accepted wk, loop.added k = true := by
  have haccounted := ((preforkInv_reachable h).worker w wk hw).accounted
  unfold waiting accepted
  constructor
  · cases hpc : wk.pc with
    | setup | epollCreate | epollAdd =>
        rw [hpc] at haccounted
        exact haccounted
    | eventLoop c loop =>
        rw [hpc] at haccounted
        exact haccounted.2.2.2
    | caught fd e => exact absurd hpc (hserving.1 fd e)
    | exit => exact absurd hpc hserving.2.1
    | exited => exact absurd hpc hserving.2.2
  · intro c loop hpc hwait
    rw [hpc] at haccounted ⊢
    have hloop := haccounted.1
    have hinv := EpollLoop.listenerInv_reachable hloop
    refine ⟨?_, fun k hk => hinv.added_all (by simp [hwait]) (by simp [hwait]) hk⟩
    rcases Nat.eq_zero_or_pos loop.acceptQueue with hzero | hpos
    · exact Or.inl hzero
    · rcases hinv.noticed_batch hpos (by simp [hwait]) (by simp [hwait]) (by simp [hwait])
        with hedge | ⟨ev, hev, _⟩
      · exact Or.inr hedge
      · rw [EpollLoop.batchDone_reachable hloop hwait] at hev
        cases hev

theorem connections_kept_oneReady :
    ∃ s wk loop, (machine ⟨3, []⟩).Reachable s ∧ s.worker 1 = some wk
      ∧ wk.pc = .eventLoop ⟨.linuxConcurrentServer, 3, 1⟩ loop
      ∧ 2 = waiting wk + accepted wk ∧ (waiting wk = 0 ∨ loop.edge = true) := by
  obtain ⟨s, wk, loop, hr, _, hw, hpc, hwait, harrived⟩ := oneReady_run
  have hserving : Serving wk := ⟨by simp [hpc], by simp [hpc], by simp [hpc]⟩
  obtain ⟨hcount, hsleeping⟩ := connections_kept hr hw hserving
  exact ⟨s, wk, loop, hr, hw, hpc, harrived ▸ hcount, (hsleeping _ _ hpc hwait).1⟩

/-! ## The port -/

/-- `setsockopt()` does not fail. -/
def OptionsSet (s : Prefork) : Label → Prop
  | .worker w (.call (.done false)) =>
      ∀ wk fd rp left, s.worker w = some wk → wk.pc ≠ .setup (.setsockopt fd rp left)
  | _ => True

/-- Past `setsockopt()`, every socket has the option. -/
def Sharing (wk : Worker) : Prop :=
  (∀ fd rp left, wk.pc ≠ .setup (.setsockopt fd rp left)) →
    ∀ t ∈ wk.net.sockets, t.reusePort = true

theorem reusePort_change {net : Net} {fd : Fd} {f : Socket → Socket}
    (hf : ∀ t, (f t).reusePort = t.reusePort) (h : ∀ t ∈ net.sockets, t.reusePort = true) :
    ∀ t ∈ (net.change fd f).sockets, t.reusePort = true := by
  intro t ht
  obtain ⟨u, hu, rfl⟩ := List.mem_map.mp ht
  split
  · exact (hf u).trans (h u hu)
  · exact h u hu

theorem reusePort_closeFd {net : Net} {fd : Fd} (h : ∀ t ∈ net.sockets, t.reusePort = true) :
    ∀ t ∈ (net.closeFd fd).sockets, t.reusePort = true := by
  intro t ht
  unfold Net.closeFd at ht
  split at ht
  · exact h t (List.mem_filter.mp ht).1
  · exact h t ht

/-- The set-up gives its socket the option before anything else. -/
theorem sharing_setup {pc pc' : SetupPc} {net : Net} {a : SetupAnswer}
    (hpc : wk.pc = .setup pc) (hown : OwnSocket pc wk.net.sockets) (h : Sharing wk)
    (hset : ∀ fd rp left, pc = .setsockopt fd rp left → a ≠ .done false)
    (hs : SetupStep true wk.net pc a pc' net) :
    Sharing { wk with pc := .setup pc', net := net } := by
  have hold : (∀ fd rp left, pc ≠ .setsockopt fd rp left) →
      ∀ t ∈ wk.net.sockets, t.reusePort = true := by
    intro hne
    refine h (fun fd rp left heq => ?_)
    rw [hpc] at heq
    cases heq
    exact hne fd rp left rfl
  intro hpc'
  cases hs with
  | unresolved | resolved | noneLeft | noSocket | notBound | deaf =>
      exact hold (by simp)
  | @socket rp left fd => exact absurd rfl (hpc' fd rp left)
  | @setsockopt fd rp left ok =>
      cases ok with
      | false => exact absurd rfl (hset fd rp left rfl)
      | true =>
          obtain ⟨_, hone⟩ := hown
          intro t ht
          have hsockets : ((wk.net.setReusePort fd).sockets) = [⟨fd, true, none, false⟩] :=
            Net.sockets_change hone rfl (fun u hu => absurd hu List.not_mem_nil) _
          change t ∈ (wk.net.setReusePort fd).sockets at ht
          rw [hsockets, List.mem_singleton] at ht
          rw [ht]
  | bound => exact reusePort_change (fun _ => rfl) (hold (by simp))
  | listen => exact reusePort_change (fun _ => rfl) (hold (by simp))
  | closeFd | closeDeaf => exact reusePort_closeFd (hold (by simp))

/-- **Kept by everything that happens to a worker**, as long as `setsockopt()` succeeds. -/
theorem sharing_step {a : WorkerAct} (hinv : WorkerInv wk) (h : Sharing wk)
    (hset : ∀ fd rp left, wk.pc = .setup (.setsockopt fd rp left) → a ≠ .call (.done false))
    (hs : WorkerStep wk a wk') : Sharing wk' := by
  have hsockets := hinv.sockets
  cases hs with
  | setup hpc hstep =>
      rw [hpc] at hsockets
      refine sharing_setup hpc hsockets h (fun fd rp left heq hdone => ?_) hstep
      refine hset fd rp left ?_ ?_
      · rw [hpc, heq]
      · rw [hdone]
  | returned hpc | thrown hpc | notCreated hpc | created hpc | notAdded hpc | added hpc
  | loop hpc | loopThrew hpc | arriveLoop hpc =>
      exact fun _ => h (by simp [hpc])
  | arrive => exact h
  | caught hpc => exact fun _ => reusePort_closeFd (h (by simp [hpc]))
  | exit => exact fun _ t ht => absurd ht List.not_mem_nil

/-- Every worker's socket has the option before it asks for the port. -/
theorem sharing_reachable (h : (machine cfg).ReachableVia OptionsSet s) :
    ∀ w wk, s.worker w = some wk → Sharing wk := by
  refine Machine.ReachableVia.invariant
    (I := fun s => ∀ w wk, s.worker w = some wk → Sharing wk) ?_ ?_ h
  · rintro s rfl w wk hw
    cases hw
  · intro s l s' hr hi hc hn w wk hw
    cases next_cases hn with
    | forked =>
        rcases Table.of_insert hw with ⟨_, rfl⟩ | ⟨_, hold⟩
        · exact fun _ t ht => absurd ht List.not_mem_nil
        · exact hi w wk hold
    | forkFailed | returns => exact hi w wk hw
    | @worker v old new a hv _ hnext =>
        rcases Table.of_insert hw with ⟨_, rfl⟩ | ⟨_, hold⟩
        · refine sharing_step ((preforkInv_reachable hr).worker v old hv) (hi v old hv) ?_
            (Worker.next_cases hnext)
          rintro fd rp left hpc rfl
          exact hc old fd rp left hv hpc
        · exact hi w wk hold

/-- Another program has the port and does not share it. -/
def Taken (cfg : Config) (port : Nat) : Prop :=
  ∃ t ∈ cfg.foreign, holds t port = true ∧ t.reusePort = false

theorem mem_sockets {v : Nat} {t : Socket} (ht : t ∈ s.sockets v) :
    ∃ wk, s.worker v = some wk ∧ t ∈ wk.net.sockets := by
  unfold sockets at ht
  cases hv : s.worker v with
  | none =>
      rw [hv] at ht
      exact absurd ht List.not_mem_nil
  | some wk =>
      rw [hv] at ht
      exact ⟨wk, rfl, ht⟩

/-- A socket that is bound is past `setsockopt()`. -/
theorem reusePort_of_bound (hinv : WorkerInv wk) (h : Sharing wk) {t : Socket} {port : Nat}
    (ht : t ∈ wk.net.sockets) (hbound : holds t port = true) : t.reusePort = true := by
  refine h (fun fd rp left hpc => ?_) t ht
  have hsockets := hinv.sockets
  rw [hpc] at hsockets
  obtain ⟨_, hone⟩ := hsockets
  rw [hone, List.mem_singleton] at ht
  rw [ht] at hbound
  cases hbound

/-- Two workers are set up at the same time, and the second asks for the port second. -/
def sideBySide : List Label :=
  [.fork true, .fork true, .returns,
    .worker 0 (.call (.resolved (.ok [⟨2, 1, 6, ⟨2, 8080⟩⟩]))), .worker 0 (.call (.fd 3)),
    .worker 1 (.call (.resolved (.ok [⟨2, 1, 6, ⟨2, 8080⟩⟩]))), .worker 1 (.call (.fd 3)),
    .worker 0 (.call (.done true)), .worker 1 (.call (.done true)),
    .worker 0 (.call (.bind .bound))]

end TcpServers.Prefork
