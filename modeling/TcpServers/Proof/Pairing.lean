import Mathlib.Data.List.Nodup
import TcpServers.Model.Threads

/-!
# Which listener a worker thinks is its own

A thread that begins before the main thread comes to its next assignment of
`server_sfd_` reads the listener of its own round, which is the one in its epoll
instance. A thread that begins later reads a later one, takes its own listener
for a connection, and sends its events to `handleConnectionEvent`. So the workers
of a run are paired with their listeners exactly if each of them begins in time.
-/

namespace TcpServers.Threads

open Lib

variable {workerNum : Nat} {s s' : Threads}

/-- Every worker has the listener of its own epoll instance, and knows it as such. -/
structure Paired (s : Threads) : Prop where
  own : ∀ i w, s.worker i = some w → s.added w.epollFd = some w.serverSfd
  accepts : ∀ i w l, s.worker i = some w → s.added w.epollFd = some l →
    w.dispatch l = .acceptConnections

/-- A thread begins before the main thread's next assignment of `server_sfd_`. -/
def BeginsInTime (s : Threads) : Step → Prop
  | .begins i => s.pc = .setup (i + 1)
  | .main _ => True

instance (s : Threads) : (l : Step) → Decidable (BeginsInTime s l)
  | .begins i => inferInstanceAs (Decidable (s.pc = .setup (i + 1)))
  | .main _ => isTrue trivial

/-- The rounds whose thread has been spawned. -/
def rounds (workerNum : Nat) : MainPc → Nat
  | .setup n => n
  | .create n => n
  | .add n _ => n
  | .spawn n _ => n
  | .join => workerNum

/-- The listeners set up by the time the main thread is at a statement. -/
def setups (workerNum : Nat) : MainPc → Nat
  | .setup n => n
  | .create n => n + 1
  | .add n _ => n + 1
  | .spawn n _ => n + 1
  | .join => workerNum + 1

/-- The loop of `start()` runs for the rounds below `worker_num_`. -/
def InLoop (workerNum : Nat) : MainPc → Prop
  | .setup n => n ≤ workerNum
  | .create n => n < workerNum
  | .add n _ => n < workerNum
  | .spawn n _ => n < workerNum
  | .join => True

/-- What the main thread and the threads agree on. -/
structure ThreadsInv (workerNum : Nat) (s : Threads) : Prop where
  length : s.listeners.length = setups workerNum s.pc
  nodup : s.listeners.Nodup
  inLoop : InLoop workerNum s.pc
  /-- The member holds the last listener. -/
  last : ∀ n, s.listeners.length = n + 1 → s.listeners[n]? = some s.serverSfd
  /-- The epoll instance of the round is new, and gets the listener of the round. -/
  toAdd : ∀ n ep, s.pc = .add n ep → s.added ep = none
  toSpawn : ∀ n ep, s.pc = .spawn n ep → ∃ l, s.added ep = some l ∧ s.listeners[n]? = some l
  /-- A thread has captured the epoll instance of its own round. -/
  captured : ∀ i ep, s.captured i = some ep →
    i < rounds workerNum s.pc ∧ ∃ l, s.added ep = some l ∧ s.listeners[i]? = some l
  worker : ∀ i w, s.worker i = some w → s.captured i = some w.epollFd

theorem threadsInv_init (workerNum : Nat) : ThreadsInv workerNum init where
  length := rfl
  nodup := List.nodup_nil
  inLoop := Nat.zero_le _
  last := by
    intro n hn
    cases hn
  toAdd := by
    intro n ep hpc
    cases hpc
  toSpawn := by
    intro n ep hpc
    cases hpc
  captured := by
    intro i ep hc
    cases hc
  worker := by
    intro i w hw
    cases hw

/-- Everything a step of the main thread can do. -/
theorem mainStep_cases {fd : Fd} (h : s.mainStep workerNum fd = some s') :
    (∃ n, s.pc = .setup n ∧ fd ∉ s.listeners ∧
      s' = { s with
        serverSfd := fd
        listeners := s.listeners ++ [fd]
        pc := if n < workerNum then .create n else .join }) ∨
    (∃ n, s.pc = .create n ∧ s.added fd = none ∧ s' = { s with pc := .add n fd }) ∨
    (∃ n ep, s.pc = .add n ep ∧
      s' = { s with
        added := fun e => if e = ep then some s.serverSfd else s.added e
        pc := .spawn n ep }) ∨
    (∃ n ep, s.pc = .spawn n ep ∧
      s' = { s with
        captured := fun i => if i = n then some ep else s.captured i
        pc := .setup (n + 1) }) := by
  unfold mainStep at h
  split at h
  · rename_i n hpc
    split at h
    · cases h
    · rename_i hfresh
      cases h
      exact Or.inl ⟨n, hpc, fun hmem => hfresh (Or.inl hmem), rfl⟩
  · rename_i n hpc
    split at h
    · cases h
    · rename_i hfresh
      cases h
      have hadded : s.added fd = none := by
        by_contra hne
        exact hfresh (Or.inr hne)
      exact Or.inr (Or.inl ⟨n, hpc, hadded, rfl⟩)
  · rename_i n ep hpc
    cases h
    exact Or.inr (Or.inr (Or.inl ⟨n, ep, hpc, rfl⟩))
  · rename_i n ep hpc
    cases h
    exact Or.inr (Or.inr (Or.inr ⟨n, ep, hpc, rfl⟩))
  · cases h

theorem beginStep_cases {i : Nat} (h : s.beginStep i = some s') :
    ∃ ep, s.captured i = some ep ∧ s.worker i = none ∧
      s' = { s with worker := fun j => if j = i then some ⟨s.serverSfd, ep⟩ else s.worker j } := by
  unfold beginStep at h
  split at h
  · rename_i ep hc hw
    cases h
    exact ⟨ep, hc, hw, rfl⟩
  · cases h

/-! ## The invariant -/

/-- A listener set up before stays where it is in the list. -/
theorem getElem?_snoc {l : List Fd} {n : Nat} {fd fd' : Fd} (h : l[n]? = some fd) :
    (l ++ [fd'])[n]? = some fd := by
  obtain ⟨hn, _⟩ := List.getElem?_eq_some_iff.mp h
  rw [List.getElem?_append_left hn, h]

theorem setup_step (h : ThreadsInv workerNum s) {n : Nat} {fd : Fd} (hpc : s.pc = .setup n)
    (hfresh : fd ∉ s.listeners) :
    ThreadsInv workerNum { s with
      serverSfd := fd
      listeners := s.listeners ++ [fd]
      pc := if n < workerNum then .create n else .join } := by
  have hlen : s.listeners.length = n := by rw [h.length, hpc]; rfl
  have hround : n ≤ workerNum := by
    have hin := h.inLoop
    rw [hpc] at hin
    exact hin
  refine ⟨?_, ?_, ?_, fun m hm => ?_, fun m ep hadd => ?_, fun m ep hspawn => ?_,
    fun i ep hc => ?_, h.worker⟩
  · rw [List.length_append, hlen]
    by_cases hn : n < workerNum
    · simp only [if_pos hn, setups, List.length_singleton]
    · simp only [if_neg hn, setups, List.length_singleton]
      omega
  · refine List.nodup_append.mpr ⟨h.nodup, by simp, fun a ha b hb hab => ?_⟩
    rw [List.mem_singleton] at hb
    subst hb
    subst hab
    exact hfresh ha
  · by_cases hn : n < workerNum
    · simp only [if_pos hn, InLoop]
      exact hn
    · simp only [if_neg hn, InLoop]
  · have hmn : m = s.listeners.length := by
      dsimp only at hm
      rw [List.length_append, List.length_singleton] at hm
      omega
    subst hmn
    simp
  · dsimp only at hadd
    split at hadd <;> cases hadd
  · dsimp only at hspawn
    split at hspawn <;> cases hspawn
  · obtain ⟨hi, l, hl, hget⟩ := h.captured i ep hc
    rw [hpc] at hi
    refine ⟨?_, l, hl, getElem?_snoc hget⟩
    by_cases hn : n < workerNum
    · simp only [if_pos hn, rounds]
      exact hi
    · simp only [if_neg hn, rounds]
      exact Nat.lt_of_lt_of_le hi hround

theorem create_step (h : ThreadsInv workerNum s) {n : Nat} {fd : Fd} (hpc : s.pc = .create n)
    (hnone : s.added fd = none) : ThreadsInv workerNum { s with pc := .add n fd } := by
  have hlen := h.length
  have hin := h.inLoop
  rw [hpc] at hlen hin
  refine ⟨hlen, h.nodup, hin, h.last, fun m ep hadd => ?_, fun m ep hspawn => ?_,
    fun i ep hc => ?_, h.worker⟩
  · cases hadd
    exact hnone
  · cases hspawn
  · obtain ⟨hi, hl⟩ := h.captured i ep hc
    rw [hpc] at hi
    exact ⟨hi, hl⟩

theorem add_step (h : ThreadsInv workerNum s) {n : Nat} {ep : Fd} (hpc : s.pc = .add n ep) :
    ThreadsInv workerNum { s with
      added := fun e => if e = ep then some s.serverSfd else s.added e
      pc := .spawn n ep } := by
  have hlen := h.length
  have hin := h.inLoop
  have hnone := h.toAdd n ep hpc
  rw [hpc] at hlen hin
  refine ⟨hlen, h.nodup, hin, h.last, fun m e hadd => ?_, fun m e hspawn => ?_,
    fun i e hc => ?_, h.worker⟩
  · cases hadd
  · cases hspawn
    exact ⟨s.serverSfd, if_pos rfl, h.last n hlen⟩
  · obtain ⟨hi, l, hl, hget⟩ := h.captured i e hc
    rw [hpc] at hi
    have hne : e ≠ ep := by
      intro heq
      subst heq
      rw [hnone] at hl
      cases hl
    exact ⟨hi, l, (if_neg hne).trans hl, hget⟩

theorem spawn_step (h : ThreadsInv workerNum s) {n : Nat} {ep : Fd} (hpc : s.pc = .spawn n ep) :
    ThreadsInv workerNum { s with
      captured := fun i => if i = n then some ep else s.captured i
      pc := .setup (n + 1) } := by
  have hlen := h.length
  have hin := h.inLoop
  rw [hpc] at hlen hin
  -- the thread of this round has not been spawned before
  have hnone : ∀ e, s.captured n ≠ some e := by
    intro e hc
    have hi := (h.captured n e hc).1
    rw [hpc] at hi
    exact Nat.lt_irrefl n hi
  refine ⟨hlen, h.nodup, hin, h.last, fun m e hadd => ?_, fun m e hspawn => ?_,
    fun i e hc => ?_, fun i w hw => ?_⟩
  · cases hadd
  · cases hspawn
  · by_cases hi : i = n
    · subst hi
      have he : ep = e := Option.some.inj ((if_pos rfl).symm.trans hc)
      subst he
      exact ⟨Nat.lt_succ_self i, h.toSpawn i ep hpc⟩
    · obtain ⟨hlt, hl⟩ := h.captured i e ((if_neg hi).symm.trans hc)
      rw [hpc] at hlt
      exact ⟨Nat.lt_succ_of_lt hlt, hl⟩
  · have hc := h.worker i w hw
    have hi : i ≠ n := by
      intro heq
      subst heq
      exact hnone _ hc
    exact (if_neg hi).trans hc

theorem begin_step (h : ThreadsInv workerNum s) {i : Nat} {ep : Fd} (hc : s.captured i = some ep) :
    ThreadsInv workerNum { s with
      worker := fun j => if j = i then some ⟨s.serverSfd, ep⟩ else s.worker j } := by
  refine ⟨h.length, h.nodup, h.inLoop, h.last, h.toAdd, h.toSpawn, h.captured, fun j w hw => ?_⟩
  by_cases hj : j = i
  · subst hj
    have hwe : (⟨s.serverSfd, ep⟩ : Constructed) = w := Option.some.inj ((if_pos rfl).symm.trans hw)
    rw [← hwe]
    exact hc
  · exact h.worker j w ((if_neg hj).symm.trans hw)

/-- **Preserved by every step.** -/
theorem threadsInv_step {l : Step} (h : ThreadsInv workerNum s)
    (hs : next workerNum s l = some s') : ThreadsInv workerNum s' := by
  cases l with
  | main fd =>
      rcases mainStep_cases hs with ⟨n, hpc, hfresh, rfl⟩ | ⟨n, hpc, hnone, rfl⟩ |
        ⟨n, ep, hpc, rfl⟩ | ⟨n, ep, hpc, rfl⟩
      · exact setup_step h hpc hfresh
      · exact create_step h hpc hnone
      · exact add_step h hpc
      · exact spawn_step h hpc
  | begins i =>
      obtain ⟨ep, hc, _, rfl⟩ := beginStep_cases hs
      exact begin_step h hc

/-! ## Pairing -/

/-- The listener in the epoll instance decides where its events go. -/
theorem paired_of_own (h : ∀ i w, s.worker i = some w → s.added w.epollFd = some w.serverSfd) :
    Paired s := by
  refine ⟨h, fun i w l hw hl => ?_⟩
  rw [h i w hw] at hl
  cases hl
  exact if_pos rfl

/-- A step of the main thread pairs nobody and parts nobody. -/
theorem paired_main (h : ThreadsInv workerNum s) {fd : Fd}
    (hs : s.mainStep workerNum fd = some s') : Paired s' ↔ Paired s := by
  have hsame : s'.worker = s.worker ∧
      ∀ i w, s.worker i = some w → s'.added w.epollFd = s.added w.epollFd := by
    rcases mainStep_cases hs with ⟨n, hpc, hfresh, rfl⟩ | ⟨n, hpc, hnone, rfl⟩ |
      ⟨n, ep, hpc, rfl⟩ | ⟨n, ep, hpc, rfl⟩
    · exact ⟨rfl, fun i w hw => rfl⟩
    · exact ⟨rfl, fun i w hw => rfl⟩
    · refine ⟨rfl, fun i w hw => if_neg ?_⟩
      intro heq
      subst heq
      obtain ⟨_, l, hl, _⟩ := h.captured i _ (h.worker i w hw)
      rw [h.toAdd n _ hpc] at hl
      cases hl
    · exact ⟨rfl, fun i w hw => rfl⟩
  obtain ⟨hworker, hadded⟩ := hsame
  constructor
  · intro hp
    refine paired_of_own (fun i w hw => ?_)
    rw [← hadded i w hw]
    exact hp.own i w (by rw [hworker]; exact hw)
  · intro hp
    refine paired_of_own (fun i w hw => ?_)
    rw [hworker] at hw
    rw [hadded i w hw]
    exact hp.own i w hw

/-- The member holds the listener of round `i` exactly while it is time for thread `i`. -/
theorem serverSfd_iff (h : ThreadsInv workerNum s) {i : Nat} {l : Fd}
    (hi : i < rounds workerNum s.pc) (hl : s.listeners[i]? = some l) :
    l = s.serverSfd ↔ s.pc = .setup (i + 1) := by
  have hlen := h.length
  obtain ⟨m, hm⟩ : ∃ m, s.listeners.length = m + 1 := by
    obtain ⟨hlt, _⟩ := List.getElem?_eq_some_iff.mp hl
    exact ⟨s.listeners.length - 1, by omega⟩
  have hlast := h.last m hm
  -- listeners are distinct, so this is about positions in the list
  have hpos : l = s.serverSfd ↔ i = m := by
    constructor
    · intro heq
      subst heq
      obtain ⟨hlt, hget⟩ := List.getElem?_eq_some_iff.mp hl
      obtain ⟨hlt', hget'⟩ := List.getElem?_eq_some_iff.mp hlast
      exact (List.Nodup.getElem_inj_iff h.nodup).mp (hget.trans hget'.symm)
    · intro heq
      subst heq
      rw [hl] at hlast
      exact Option.some.inj hlast
  rw [hpos]
  cases hpc : s.pc with
  | setup n =>
      rw [hpc] at hlen
      simp only [setups] at hlen
      rw [MainPc.setup.injEq]
      omega
  | create n | add n ep | spawn n ep =>
      rw [hpc] at hlen hi
      simp only [setups] at hlen
      simp only [rounds] at hi
      constructor
      · intro him
        omega
      · intro heq
        cases heq
  | join =>
      rw [hpc] at hlen hi
      simp only [setups] at hlen
      simp only [rounds] at hi
      constructor
      · intro him
        omega
      · intro heq
        cases heq

/-- **A thread that begins keeps the pairing exactly if it begins in time.** -/
theorem paired_begin (h : ThreadsInv workerNum s) {i : Nat} (hs : s.beginStep i = some s') :
    Paired s' ↔ Paired s ∧ s.pc = .setup (i + 1) := by
  obtain ⟨ep, hc, hnone, rfl⟩ := beginStep_cases hs
  obtain ⟨hi, l, hadded, hl⟩ := h.captured i ep hc
  have hiff := serverSfd_iff h hi hl
  constructor
  · intro hp
    refine ⟨paired_of_own (fun j w hw => ?_), ?_⟩
    · have hj : j ≠ i := by
        intro heq
        subst heq
        rw [hnone] at hw
        cases hw
      exact hp.own j w ((if_neg hj).trans hw)
    · have hown := hp.own i ⟨s.serverSfd, ep⟩ (if_pos rfl)
      dsimp only at hown
      rw [hadded] at hown
      exact hiff.mp (Option.some.inj hown)
  · intro hex
    obtain ⟨hp, hpc⟩ := hex
    refine paired_of_own (fun j w hw => ?_)
    by_cases hj : j = i
    · subst hj
      have hwe : (⟨s.serverSfd, ep⟩ : Constructed) = w :=
        Option.some.inj ((if_pos rfl).symm.trans hw)
      rw [← hwe]
      exact hadded.trans (congrArg some (hiff.mpr hpc))
    · exact hp.own j w ((if_neg hj).symm.trans hw)

/--
**Pairing, exactly.** The workers of a run have their own listeners if and only if
each thread began before the main thread's next assignment of `server_sfd_`.
-/
theorem paired_iff {ls : List Step} (hrun : (machine workerNum).run init ls = some s) :
    Paired s ↔ (machine workerNum).Along BeginsInTime init ls := by
  have hboth : ThreadsInv workerNum s
      ∧ (Paired s ↔ (machine workerNum).Along BeginsInTime init ls) := by
    refine Machine.run_induction (fun ls s => ThreadsInv workerNum s
      ∧ (Paired s ↔ (machine workerNum).Along BeginsInTime init ls)) ?_ ?_ hrun
    · refine ⟨threadsInv_init workerNum, iff_of_true (paired_of_own ?_) trivial⟩
      intro i w hw
      cases hw
    · intro ls t l t' hrun ih hs
      refine ⟨threadsInv_step ih.1 hs, ?_⟩
      rw [Machine.along_snoc hrun, ← ih.2]
      cases l with
      | main fd =>
          rw [paired_main ih.1 hs]
          exact (and_iff_left trivial).symm
      | begins i => exact paired_begin ih.1 hs
  exact hboth.2

/-- Two workers, each thread beginning right after it was spawned. -/
def promptThreads : List Step :=
  [.main 3, .main 4, .main 0, .main 0, .begins 0, .main 5, .main 6, .main 0, .main 0, .begins 1,
    .main 7]

theorem paired_promptThreads :
    ∃ s, s.worker 0 = some ⟨3, 4⟩ ∧ s.worker 1 = some ⟨5, 6⟩ ∧ Paired s := by
  have hval : ((machine 2).run init promptThreads).map (fun s => (s.worker 0, s.worker 1))
      = some (some ⟨3, 4⟩, some ⟨5, 6⟩) := by decide +kernel
  obtain ⟨s, hrun, heq⟩ := Option.map_eq_some_iff.mp hval
  obtain ⟨h0, h1⟩ := Prod.mk.inj heq
  exact ⟨s, h0, h1, (paired_iff hrun).mpr (by decide +kernel)⟩

/-- The first thread begins only when the second listener has been set up. -/
def lateThread : List Step :=
  [.main 3, .main 4, .main 0, .main 0, .main 5, .begins 0]

/-- A worker can take its own listener for a connection. -/
theorem not_paired :
    ¬ ∀ workerNum s, (machine workerNum).Reachable s → Paired s := by
  intro hall
  have hval : ((machine 2).run init lateThread).map (fun s => (s.worker 0, s.added 4))
      = some (some ⟨5, 4⟩, some 3) := by decide +kernel
  obtain ⟨s, hrun, heq⟩ := Option.map_eq_some_iff.mp hval
  obtain ⟨hw, hadded⟩ := Prod.mk.inj heq
  have hr : (machine 2).Reachable s := .of_run (.init rfl) (by decide +kernel) hrun
  have hown := (hall 2 s hr).own 0 _ hw
  rw [hadded] at hown
  exact absurd hown (by decide)

end TcpServers.Threads
