import TcpServers.Model.Service
import TcpServers.Proof.LoopClosing
import TcpServers.Proof.MultiClient

/-!
# `multi_client` and an event loop

The event loop writes nothing back, and `multi_client` reads nothing. What the loop has passed
on of a connection is in the pipe of that connection; so it is what one thread wrote in one of
its rounds, as far as it has come.
-/

namespace TcpServers.EpollLoop

open Lib

variable {cfg : Config} {s s' : EpollLoop} {l : Label}

/-- What a step reads, and from which connection. -/
def traffic (s : EpollLoop) : Label → List (FamilyAct Nat Fd (PipeAct Byte))
  | .accept4 (.ok fd) => [.spawn s.nextConn fd]
  | .read (.data bs) =>
      match s.pc with
      | .drain fd =>
          match s.fdTable fd with
          | some c => [.step c (.put bs)]
          | none => []
      | _ => []
  | _ => []

/-- What was passed on of each connection. -/
def pipes (s : EpollLoop) (c : Nat) : Option (List Byte) :=
  if c < s.nextConn then some (s.chunks c).flatten else none

/-- Nothing was passed on of a connection that was not accepted yet. -/
structure PassInv (s : EpollLoop) : Prop where
  table : TableInv s
  silent : ∀ c, s.nextConn ≤ c → s.chunks c = []

theorem passInv_reachable {C : EpollLoop → Label → Prop} (h : (machine cfg).ReachableVia C s) :
    PassInv s := by
  refine Machine.ReachableVia.invariant ?_ ?_ h
  · rintro s rfl
    exact ⟨tableInv_start cfg, fun _ _ => rfl⟩
  · intro s l s' hr hi _ hn
    have hs := next_cases hn
    refine ⟨tableInv_step (loopInv_reachable hr) hi.table hs, fun c hc => ?_⟩
    cases hs with
    | epollWait _ hfetch =>
        obtain ⟨_, _, _, hnext, hchunks⟩ := fetches_frame hfetch
        dsimp only at hc ⊢
        rw [hchunks]
        exact hi.silent c (hnext ▸ hc)
    | accepted => exact hi.silent c (Nat.le_of_succ_le hc)
    | @chunk fd c' bs hpc hopen =>
        have hlt := hi.table.accepted fd c' hopen
        dsimp only at hc ⊢
        rw [Function.update_of_ne (by omega)]
        exact hi.silent c hc
    | _ => exact hi.silent c hc

theorem pipes_same (hnext : s'.nextConn = s.nextConn) (hchunks : s'.chunks = s.chunks) :
    s'.pipes = s.pipes := by
  funext c
  simp only [pipes, hnext, hchunks]

/-- A connection starts with nothing passed on. -/
theorem spawn_run (hi : PassInv s) (fd : Fd) (hnext : s'.nextConn = s.nextConn + 1)
    (hchunks : s'.chunks = s.chunks) :
    echoService.run s.pipes [.spawn s.nextConn fd] = some s'.pipes := by
  have hnew : s.pipes s.nextConn = none := if_neg (Nat.lt_irrefl _)
  rw [Machine.run_cons, echoService, Machine.family_spawn hnew]
  refine congrArg some (funext fun c => ?_)
  by_cases hc : c = s.nextConn
  · rw [hc, Function.update_self, pipes, hnext, if_pos (Nat.lt_succ_self _), hchunks,
      hi.silent _ (Nat.le_refl _)]
    rfl
  · rw [Function.update_of_ne hc, pipes, pipes, hnext, hchunks]
    exact if_congr (by omega) rfl rfl

/-- What is passed on goes into the pipe. -/
theorem put_run {c : Nat} (hc : c < s.nextConn) {bs : List Byte} (hnext : s'.nextConn = s.nextConn)
    (hself : (s'.chunks c).flatten = (s.chunks c).flatten ++ bs)
    (hother : ∀ d, d ≠ c → s'.chunks d = s.chunks d) :
    echoService.run s.pipes [.step c (.put bs)] = some s'.pipes := by
  have hmember : s.pipes c = some (s.chunks c).flatten := if_pos hc
  rw [Machine.run_cons, echoService, Machine.family_step hmember (pipe_put _ _)]
  refine congrArg some (funext fun d => ?_)
  by_cases hd : d = c
  · rw [hd, Function.update_self, pipes, hnext, if_pos hc, hself]
  · rw [Function.update_of_ne hd, pipes, pipes, hnext, hother d hd]

/-- **The loop fills a pipe for each connection**, and takes nothing out. -/
theorem follows_pipes (cfg : Config) :
    echoService.Follows (machine cfg) (fun _ _ => True) traffic (fun s Q => Q = s.pipes) where
  init := by
    rintro s rfl
    exact ⟨_, fun c => rfl, rfl⟩
  step := by
    rintro s Q l s' hr rfl _ hn
    have hi := passInv_reachable hr
    have hsame : s'.pipes = s.pipes → echoService.run s.pipes [] = some s'.pipes := by
      intro heq
      rw [heq]
      rfl
    refine ⟨s'.pipes, ?_, rfl⟩
    cases next_cases hn with
    | epollWait _ hfetch =>
        obtain ⟨_, _, _, hnext, hchunks⟩ := fetches_frame hfetch
        exact hsame (pipes_same hnext hchunks)
    | accepted => exact spawn_run hi _ rfl rfl
    | endOfStream hpc hopen =>
        -- an empty chunk, of which the log gets nothing
        simp only [traffic, hpc, hopen]
        exact put_run (hi.table.accepted _ _ hopen) rfl (List.append_nil _).symm (fun _ _ => rfl)
    | @chunk fd c bs hpc hopen =>
        simp only [traffic, hpc, hopen]
        refine put_run (hi.table.accepted _ _ hopen) rfl ?_
          (fun d hd => Function.update_of_ne hd _ _)
        simp only [Function.update_self, List.flatten_append, List.flatten_singleton]
    | _ => exact hsame rfl

/-- What a step shows takes nothing out of a pipe. -/
theorem traffic_silent (s : EpollLoop) (l : Label) (c : Nat) :
    PipeAct.taken (FamilyAct.of c (s.traffic l)) = [] := by
  unfold traffic
  split
  · rfl
  · split
    · split
      · rename_i d _
        by_cases hd : d = c
        · rw [hd, FamilyAct.of_step_self]
          rfl
        · rw [FamilyAct.of_step_ne hd]
          rfl
      · rfl
    · rfl
  · rfl

/-- And drops nothing. -/
theorem traffic_keeps (s : EpollLoop) (l : Label) (c n : Nat) :
    FamilyAct.step c (PipeAct.drop n) ∉ s.traffic l := by
  unfold traffic
  split
  · simp
  · split
    · split <;> simp
    · simp
  · simp

/-- The second connection is accepted first, and its message read in part. -/
def secondFirst : List (Label ⊕ MultiClient.Label) :=
  [.inr .spawn, .inr .spawn, .inr .spawn, .inr (.thread 0 (.socket 3)),
    .inr (.thread 1 (.socket 4)), .inr (.thread 0 (.connect true)), .inr (.thread 1 (.connect true)),
    .inr (.thread 1 (.write (.wrote 11))), .inr (.thread 0 (.write (.wrote 11))), .inl .arrive,
    .inl (.epollWait [⟨{ epollin := true }, 3⟩]), .inl .take, .inl (.accept4 (.ok 5)),
    .inl (.epollAdd none), .inl (.accept4 (.ok 6)), .inl (.epollAdd none),
    .inl (.accept4 (.error .eagain)), .inl .take,
    .inl (.epollWait [⟨{ epollin := true }, 5⟩]), .inl .take,
    .inl (.read (.data ((MultiClient.msg 1).take 4)))]

end TcpServers.EpollLoop
