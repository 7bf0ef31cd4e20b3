import TcpServers.Model.BlockingEcho
import TcpServers.Proof.SelectSets
import TcpServers.Proof.Service

/-!
# The select server follows the echo service

One buffer serves all clients, and is left with the chunk of one when the scan goes on to
the next. But between the `read()` of a chunk and its one `write()` the server does nothing
else: a chunk goes back where it came from, or as much of it as is accepted, and the rest
is given up.
-/

namespace TcpServers.SelectServer

open Lib

variable {cfg : Config} {s s' : SelectServer} {l : Label}

/-- Where the server is with the client it is busy with. -/
def echoAt : SelectPc → Option (Fd × EchoPc)
  | .read i => some (i, .read)
  | .logReceived i rlen => some (i, .received rlen)
  | .write i rlen => some (i, .write rlen)
  | _ => none

/-- What a statement of the inner loop does, to the connection behind the descriptor. -/
def onClient (s : SelectServer) (a : EchoAnswer) : List (FamilyAct Nat Fd (PipeAct Byte)) :=
  match echoAt s.pc with
  | some (i, pc) =>
      match s.fdTable i with
      | some c => (echoTraffic s.buffer pc a).map (.step c)
      | none => []
  | none => []

/-- What a step reads from a connection or writes to it. -/
def traffic (s : SelectServer) : Label → List (FamilyAct Nat Fd (PipeAct Byte))
  | .accept4 (.ok fd) => [.spawn s.nextConn fd]
  | .read r => s.onClient (.read r)
  | .write r => s.onClient (.write r)
  | _ => []

/-- What was read from a connection and not given up. -/
def pendingFor (s : SelectServer) (c : Nat) : List Byte :=
  match echoAt s.pc with
  | some (i, pc) => if s.fdTable i = some c then echoPending s.buffer pc else []
  | none => []

/-- The pipes of the connections. -/
def pipes (s : SelectServer) (c : Nat) : Option (List Byte) :=
  if c < s.nextConn then some (s.pendingFor c) else none

/-- Every `write()` takes its chunk whole. -/
def WritesWhole (s : SelectServer) : Label → Prop
  | .write r => ∀ i rlen, s.pc = .write i rlen → WritesAll (.write rlen) (.write r)
  | _ => True

/-- The open connections have been accepted. -/
theorem numbered_reachable {C : SelectServer → Label → Prop}
    (h : (machine cfg).ReachableVia C s) : ∀ fd c, s.fdTable fd = some c → c < s.nextConn := by
  refine Machine.ReachableVia.invariant
    (I := fun s => ∀ fd c, s.fdTable fd = some c → c < s.nextConn) ?_ ?_ h
  · rintro s ⟨buffer, rfl⟩ fd c hc
    cases hc
  · intro s l s' _ hi _ hn fd c hc
    cases next_cases hn with
    | accepted =>
        rcases Table.of_insert hc with ⟨_, rfl⟩ | ⟨_, hold⟩
        · exact Nat.lt_succ_self _
        · exact Nat.lt_succ_of_lt (hi fd c hold)
    | close => exact hi fd c (Table.of_remove hc).2
    | _ => exact hi fd c hc

/-- Nothing is pending where the server is busy with no chunk. -/
theorem pendingFor_nil (h : ∀ i pc, echoAt s.pc = some (i, pc) → echoPending s.buffer pc = [])
    (c : Nat) : s.pendingFor c = [] := by
  unfold pendingFor
  cases hat : echoAt s.pc with
  | none => rfl
  | some w =>
      obtain ⟨i, pc⟩ := w
      simp only [h i pc hat, ite_self]

/-- The pipes stay as they are where nothing is pending before and after. -/
theorem pipes_same (hn : s'.nextConn = s.nextConn) (hp : ∀ c, s'.pendingFor c = s.pendingFor c) :
    s'.pipes = s.pipes := by
  funext c
  simp only [pipes, hn, hp]

/-- A statement of the inner loop moves one pipe, that of its connection. -/
theorem pipes_moved {i : Fd} {c : Nat} {pc : EchoPc} (hat : echoAt s.pc = some (i, pc))
    (hopen : s.fdTable i = some c) (hc : c < s.nextConn) (hn : s'.nextConn = s.nextConn)
    (hothers : ∀ d, d ≠ c → s'.pendingFor d = []) :
    s'.pipes = Function.update s.pipes c (some (s'.pendingFor c)) := by
  funext d
  by_cases hd : d = c
  · subst hd
    rw [Function.update_self]
    simp only [pipes, hn, if_pos hc]
  · rw [Function.update_of_ne hd]
    have hnot : s.fdTable i ≠ some d := by
      intro heq
      rw [hopen] at heq
      exact hd (Option.some.inj heq).symm
    have hnone : s.pendingFor d = [] := by
      simp only [pendingFor, hat, if_neg hnot]
    simp only [pipes, hn, hothers d hd, hnone]

/-- A new connection gets an empty pipe. -/
theorem pipes_accepted (hn : s'.nextConn = s.nextConn + 1) (hp : ∀ c, s.pendingFor c = [])
    (hp' : ∀ c, s'.pendingFor c = []) :
    s'.pipes = Function.update s.pipes s.nextConn (some []) := by
  funext c
  by_cases hc : c = s.nextConn
  · subst hc
    rw [Function.update_self]
    simp only [pipes, hn, hp', if_pos (Nat.lt_succ_self _)]
  · rw [Function.update_of_ne hc]
    by_cases hlt : c < s.nextConn
    · have hlt' : c < s'.nextConn := by omega
      simp only [pipes, hp, hp', if_pos hlt, if_pos hlt']
    · have hlt' : ¬ c < s'.nextConn := by omega
      simp only [pipes, if_neg hlt, if_neg hlt']

/-- Nothing is pending for a connection that was not accepted yet. -/
theorem pendingFor_unborn {C : SelectServer → Label → Prop}
    (hr : (machine cfg).ReachableVia C s) {c : Nat} (hc : ¬ c < s.nextConn) :
    s.pendingFor c = [] := by
  unfold pendingFor
  split
  · exact if_neg (fun hopen => hc (numbered_reachable hr _ c hopen))
  · rfl

/-- **A statement of the inner loop does to the pipe what it does to the chunk.** -/
theorem onClient_run {i : Fd} {c : Nat} {pc pc' : EchoPc} {a : EchoAnswer} {b : Store Byte}
    (hat : echoAt s.pc = some (i, pc)) (hopen : s.fdTable i = some c) (hc : c < s.nextConn)
    (hstep : EchoStep s.buffer pc a pc' b) (hn : s'.nextConn = s.nextConn)
    (hpending : s'.pendingFor c = echoPending b pc')
    (hothers : ∀ d, d ≠ c → s'.pendingFor d = []) :
    echoService.run s.pipes (s.onClient a) = some s'.pipes := by
  have hbefore : s.pendingFor c = echoPending s.buffer pc := by
    simp only [pendingFor, hat, if_pos hopen]
  have hmember : s.pipes c = some (echoPending s.buffer pc) := by
    simp only [pipes, if_pos hc, hbefore]
  rw [pipes_moved hat hopen hc hn hothers, hpending]
  simp only [onClient, hat, hopen]
  exact Machine.family_run hmember (echoStep_pipe hstep)

/-- After a statement that leaves the client, nothing is pending. -/
theorem pendingFor_left (h : echoAt s.pc = none) (c : Nat) : s.pendingFor c = [] := by
  simp only [pendingFor, h]

/-- After one that stays with it, only for that client. -/
theorem pendingFor_other {i : Fd} {c d : Nat} {pc : EchoPc} (hat : echoAt s.pc = some (i, pc))
    (hopen : s.fdTable i = some c) (hd : d ≠ c) : s.pendingFor d = [] := by
  have hnot : s.fdTable i ≠ some d := by
    intro heq
    rw [hopen] at heq
    exact hd (Option.some.inj heq).symm
  simp only [pendingFor, hat, if_neg hnot]

theorem pendingFor_self {i : Fd} {c : Nat} {pc : EchoPc} (hat : echoAt s.pc = some (i, pc))
    (hopen : s.fdTable i = some c) : s.pendingFor c = echoPending s.buffer pc := by
  simp only [pendingFor, hat, if_pos hopen]

/-- The client the server is busy with is an open connection. -/
theorem client_open (hr : (machine cfg).ReachableVia BelowSetsize s) {i : Fd} {pc : EchoPc}
    (hat : echoAt s.pc = some (i, pc)) : ∃ c, s.fdTable i = some c ∧ c < s.nextConn := by
  have hserving : serving s.pc = some i := by
    cases hpc : s.pc <;> rw [hpc] at hat <;> cases hat <;> rfl
  obtain ⟨c, hopen⟩ := (setsInv_reachable hr).serving i hserving
  exact ⟨c, hopen, numbered_reachable hr i c hopen⟩

theorem follows_read (hr : (machine cfg).ReachableVia BelowSetsize s) {r : ReadResult}
    (hs : Step cfg s (.read r) s') :
    echoService.run s.pipes (s.onClient (.read r)) = some s'.pipes := by
  cases hs with
  | @endOfStream i _ hpc =>
      have hat : echoAt s.pc = some (i, .read) := by rw [hpc]; rfl
      obtain ⟨c, hopen, hc⟩ := client_open hr hat
      exact onClient_run hat hopen hc .endOfStream rfl (pendingFor_left rfl c)
        (fun d _ => pendingFor_left rfl d)
  | @chunk i _ bs hpc _ hpos hle =>
      have hat : echoAt s.pc = some (i, .read) := by rw [hpc]; rfl
      obtain ⟨c, hopen, hc⟩ := client_open hr hat
      exact onClient_run hat hopen hc (.chunk hpos hle) rfl (pendingFor_self rfl hopen)
        (fun d hd => pendingFor_other rfl hopen hd)
  | @drained i e hpc | @readFailed i e hpc =>
      have hat : echoAt s.pc = some (i, .read) := by rw [hpc]; rfl
      obtain ⟨c, hopen, hc⟩ := client_open hr hat
      exact onClient_run hat hopen hc .readFailed rfl (pendingFor_left rfl c)
        (fun d _ => pendingFor_left rfl d)

theorem follows_write (hr : (machine cfg).ReachableVia BelowSetsize s) {r : WriteResult}
    (hs : Step cfg s (.write r) s') :
    echoService.run s.pipes (s.onClient (.write r)) = some s'.pipes := by
  cases hs with
  | @wrote i _ rlen n hpc _ hle =>
      have hat : echoAt s.pc = some (i, .write rlen) := by rw [hpc]; rfl
      obtain ⟨c, hopen, hc⟩ := client_open hr hat
      exact onClient_run hat hopen hc (.wrote hle) rfl (pendingFor_self rfl hopen)
        (fun d hd => pendingFor_other rfl hopen hd)
  | @blocked i rlen e hpc | @writeFailed i rlen e hpc =>
      have hat : echoAt s.pc = some (i, .write rlen) := by rw [hpc]; rfl
      obtain ⟨c, hopen, hc⟩ := client_open hr hat
      exact onClient_run hat hopen hc .writeFailed rfl (pendingFor_left rfl c)
        (fun d _ => pendingFor_left rfl d)

/-- The log leaves the chunk where it is. -/
theorem pipes_log (hs : Step cfg s .log s') : s'.pipes = s.pipes := by
  cases hs with
  | @logged i rlen hpc =>
      refine pipes_same rfl (fun c => ?_)
      simp only [pendingFor, hpc, echoAt, echoPending]

/-- Steps between two clients leave the pipes alone. -/
theorem pipes_idle (hn : s'.nextConn = s.nextConn)
    (hp : ∀ i pc, echoAt s.pc = some (i, pc) → echoPending s.buffer pc = [])
    (hp' : ∀ i pc, echoAt s'.pc = some (i, pc) → echoPending s'.buffer pc = []) :
    s'.pipes = s.pipes :=
  pipes_same hn (fun c => (pendingFor_nil hp' c).trans (pendingFor_nil hp c).symm)

/-- **The select server follows the echo service**, as long as its descriptors have bits. -/
theorem follows_service (cfg : Config) :
    echoService.Follows (machine cfg) BelowSetsize traffic (fun s Q => Q = s.pipes) where
  init := by
    rintro s ⟨buffer, rfl⟩
    exact ⟨_, fun c => rfl, rfl⟩
  step := by
    rintro s Q l s' hr rfl _ hn
    have hs := next_cases hn
    refine ⟨s'.pipes, ?_, rfl⟩
    have hsame : s'.pipes = s.pipes → echoService.run s.pipes [] = some s'.pipes := by
      intro heq
      rw [heq]
      rfl
    have hjoined : ∀ fd, s'.nextConn = s.nextConn + 1 → (∀ c, s.pendingFor c = []) →
        (∀ c, s'.pendingFor c = []) →
          echoService.run s.pipes [.spawn s.nextConn fd] = some s'.pipes := by
      intro fd hnext hp hp'
      rw [pipes_accepted hnext hp hp', Machine.run_cons, echoService,
        Machine.family_spawn (by simp [pipes])]
      rfl
    cases l with
    | read r => exact follows_read hr hs
    | write r => exact follows_write hr hs
    | log => exact hsame (pipes_log hs)
    | accept4 r =>
        cases hs with
        | accepted hpc =>
            exact hjoined _ rfl (pendingFor_left (by rw [hpc]; rfl))
              (pendingFor_left (by rw [hpc]; rfl))
        | noMore hpc | acceptFailed hpc =>
            exact hsame (pipes_idle rfl (by simp [hpc, echoAt]) (by simp [echoAt]))
    | select | selectFailed | close =>
        cases hs with
        | _ hpc => exact hsame (pipes_idle rfl (by simp [hpc, echoAt]) (by simp [echoAt]))
    | scan =>
        cases hs with
        | pass hpc | connection hpc | scanned hpc =>
            exact hsame (pipes_idle rfl (by simp [hpc, echoAt]) (by simp [echoAt]))
        | readable hpc =>
            refine hsame (pipes_idle rfl (by simp [hpc, echoAt]) ?_)
            rintro j pc hat
            cases hat
            rfl

/-- What a statement of the inner loop shows is about one connection. -/
theorem onClient_eq {a : EchoAnswer} {i : Fd} {c : Nat} {pc : EchoPc}
    (hat : echoAt s.pc = some (i, pc)) (hopen : s.fdTable i = some c) :
    s.onClient a = (echoTraffic s.buffer pc a).map (.step c) := by
  simp only [onClient, hat, hopen]

/-- A write that takes its chunk whole drops nothing. -/
theorem traffic_lossless (hl : WritesWhole s l) (c n : Nat)
    (hmem : FamilyAct.step c (.drop n) ∈ s.traffic l) : n = 0 := by
  have hclient : ∀ a, FamilyAct.step c (.drop n) ∈ s.onClient a →
      (∀ i pc, echoAt s.pc = some (i, pc) → WritesAll pc a) → n = 0 := by
    intro a ha hwhole
    unfold onClient at ha
    split at ha
    · rename_i i pc hat
      split at ha
      · obtain ⟨x, hx, heq⟩ := List.mem_map.mp ha
        cases heq
        exact echoTraffic_lossless (hwhole i pc hat) n hx
      · cases ha
    · cases ha
  cases l with
  | read r =>
      refine hclient _ hmem (fun i pc hat => ?_)
      cases pc <;> trivial
  | write r =>
      refine hclient _ hmem (fun i pc hat => ?_)
      cases hpc : s.pc <;> rw [hpc] at hat <;> cases hat
      · trivial
      · trivial
      · exact hl _ _ hpc
  | accept4 r => cases r <;> simp [traffic] at hmem
  | select | selectFailed | scan | log | close => cases hmem

/-! ## What the history says -/

/-- What a statement of the inner loop reads and writes, connection by connection. -/
theorem onClient_history {a : EchoAnswer} {i : Fd} {c : Nat} {pc : EchoPc} {r w : List Byte}
    (hat : echoAt s.pc = some (i, pc)) (hopen : s.fdTable i = some c)
    (hr : PipeAct.given (echoTraffic s.buffer pc a) = r)
    (hw : PipeAct.taken (echoTraffic s.buffer pc a) = w) (d : Nat) :
    readFrom d (s.onClient a) = (if c = d then r else [])
      ∧ writtenTo d (s.onClient a) = if c = d then w else [] := by
  rw [onClient_eq hat hopen, readFrom, writtenTo, FamilyAct.of_map_step, ← hr, ← hw]
  constructor <;> split <;> rfl

/-- Adding to one connection's history. -/
theorem update_append {f : Nat → List Byte} {c d : Nat} {bs : List Byte} :
    Function.update f c (f c ++ bs) d = f d ++ if c = d then bs else [] := by
  by_cases hd : d = c
  · subst hd
    rw [Function.update_self, if_pos rfl]
  · rw [Function.update_of_ne hd, if_neg (Ne.symm hd), List.append_nil]

/-- A statement that moves no bytes adds nothing to the history. -/
theorem history_silent (hr : (machine cfg).ReachableVia BelowSetsize s) {a : EchoAnswer} {i : Fd}
    {pc : EchoPc} (hat : echoAt s.pc = some (i, pc))
    (hg : PipeAct.given (echoTraffic s.buffer pc a) = [])
    (ht : PipeAct.taken (echoTraffic s.buffer pc a) = []) (d : Nat) :
    s.received d = s.received d ++ readFrom d (s.onClient a)
      ∧ s.sent d = s.sent d ++ writtenTo d (s.onClient a) := by
  obtain ⟨c, hopen, _⟩ := client_open hr hat
  obtain ⟨h1, h2⟩ := onClient_history hat hopen hg ht d
  rw [h1, h2, ite_self, List.append_nil, List.append_nil]
  exact ⟨rfl, rfl⟩

/-- `received` and `sent` grow by what a step shows. -/
theorem history_step (hr : (machine cfg).ReachableVia BelowSetsize s) (hs : Step cfg s l s')
    (d : Nat) : s'.received d = s.received d ++ readFrom d (s.traffic l)
      ∧ s'.sent d = s.sent d ++ writtenTo d (s.traffic l) := by
  have hread : ∀ {i c bs}, s.pc = .read i → s.fdTable i = some c →
      Function.update s.received c (s.received c ++ bs) d
          = s.received d ++ readFrom d (s.onClient (.read (.data bs)))
        ∧ s.sent d = s.sent d ++ writtenTo d (s.onClient (.read (.data bs))) := by
    intro i c bs hpc hopen
    have hat : echoAt s.pc = some (i, .read) := by rw [hpc]; rfl
    have hgiven : PipeAct.given (echoTraffic s.buffer .read (.read (.data bs))) = bs := by
      simp [PipeAct.given, echoTraffic]
    have htaken : PipeAct.taken (echoTraffic s.buffer .read (.read (.data bs))) = [] := rfl
    obtain ⟨h1, h2⟩ := onClient_history hat hopen hgiven htaken d
    rw [h1, h2, update_append, ite_self, List.append_nil]
    exact ⟨rfl, rfl⟩
  cases hs with
  | endOfStream hpc hopen => exact hread hpc hopen
  | chunk hpc hopen => exact hread hpc hopen
  | @wrote i c rlen n hpc hopen =>
      have hat : echoAt s.pc = some (i, .write rlen) := by rw [hpc]; rfl
      have hgiven : PipeAct.given (echoTraffic s.buffer (.write rlen) (.write (.wrote n))) = [] :=
        rfl
      have htaken : PipeAct.taken (echoTraffic s.buffer (.write rlen) (.write (.wrote n)))
          = s.buffer.load 0 n := by
        simp [PipeAct.taken, echoTraffic]
      obtain ⟨h1, h2⟩ := onClient_history hat hopen hgiven htaken d
      show s.received d = s.received d ++ readFrom d (s.onClient (.write (.wrote n))) ∧ _
      rw [h1, ite_self, List.append_nil]
      exact ⟨rfl, update_append.trans (congrArg _ h2.symm)⟩
  | drained hpc | readFailed hpc => exact history_silent hr (by rw [hpc]; rfl) rfl rfl d
  | blocked hpc | writeFailed hpc => exact history_silent hr (by rw [hpc]; rfl) rfl rfl d
  | accepted =>
      simp only [traffic, readFrom, writtenTo, FamilyAct.of_spawn, PipeAct.given, PipeAct.taken,
        List.flatMap_nil, List.append_nil, and_self]
  | _ => exact ⟨(List.append_nil _).symm, (List.append_nil _).symm⟩

/--
**Every client of the select server gets its own bytes back, in order.** In every run with
descriptors below `FD_SETSIZE`, any number of clients and any answers of the kernel: what was
written on a connection is a subsequence of what was read from it, though one buffer serves
all. Where every `write()` takes its chunk whole it is a prefix, and the rest is the chunk
the server has in its buffer for that client.
-/
theorem select_clients_echo {buffer : Store Byte} {ls : List Label}
    (hrun : (machine cfg).run (start cfg buffer) ls = some s)
    (hC : (machine cfg).Along BelowSetsize (start cfg buffer) ls) :
    (∀ c, (s.sent c).Sublist (s.received c))
      ∧ ((machine cfg).Along WritesWhole (start cfg buffer) ls → ∀ c,
          s.sent c ++ s.pendingFor c = s.received c)
      ∧ echoService.run (fun _ => none) ((machine cfg).observed traffic (start cfg buffer) ls)
          = some s.pipes := by
  have hinit : (machine cfg).init (start cfg buffer) := ⟨buffer, rfl⟩
  obtain ⟨Q₀, Q, h0, hQ, rfl⟩ := (follows_service cfg).run hinit hrun hC
  obtain rfl : Q₀ = fun _ => none := funext h0
  have hhistory : (machine cfg).ReachableVia BelowSetsize s
      ∧ ∀ c, s.received c = readFrom c ((machine cfg).observed traffic (start cfg buffer) ls)
        ∧ s.sent c = writtenTo c ((machine cfg).observed traffic (start cfg buffer) ls) := by
    refine Machine.observed_invariant (C := BelowSetsize)
      (I := fun shown t => (machine cfg).ReachableVia BelowSetsize t
        ∧ ∀ c, t.received c = readFrom c shown ∧ t.sent c = writtenTo c shown)
      ⟨.init hinit, fun c => ⟨rfl, rfl⟩⟩ ?_ hrun hC
    rintro shown t l t' ⟨hr, hshown⟩ hc hn
    refine ⟨.tail hr hc hn, fun c => ?_⟩
    obtain ⟨hreceived, hsent⟩ := history_step hr (next_cases hn) c
    rw [hreceived, hsent, (hshown c).1, (hshown c).2]
    simp only [readFrom, writtenTo, FamilyAct.of_append, PipeAct.given_append,
      PipeAct.taken_append, and_self]
  refine ⟨fun c => ?_, fun hwhole c => ?_, hQ⟩
  · rw [(hhistory.2 c).1, (hhistory.2 c).2]
    exact echoService_sublist hQ c
  · have hdrops := dropsNothing_of_step (C := WritesWhole)
      (fun s l _ hl c n hmem => traffic_lossless hl c n hmem) (.init hinit) hrun hwhole
    have hall := echoService_lossless hQ hdrops c
    rw [(hhistory.2 c).1, (hhistory.2 c).2, ← hall]
    congr 1
    unfold pipes
    split
    · rfl
    · rename_i hnew
      exact pendingFor_unborn hhistory.1 hnew

/-- One client's chunk is accepted in part, and another one's comes in between. -/
def twoReadable : List Label :=
  [.select [3] 1, .scan, .scan, .scan, .scan, .accept4 (.ok 4), .accept4 (.ok 5),
    .accept4 (.error .eagain), .scan, .select [4, 5] 2, .scan, .scan, .scan, .scan, .scan,
    .read (.data [97, 98]), .log, .write (.wrote 1), .read (.fail .eagain), .scan,
    .read (.data [120]), .log, .write (.wrote 1), .read (.fail .eagain), .scan,
    .select [4] 1, .scan, .scan, .scan, .scan, .scan, .read (.data [99]), .log,
    .write (.wrote 1)]

theorem select_clients_echo_twoReadable :
    ∃ s : SelectServer, s.received 0 = [97, 98, 99] ∧ s.sent 0 = [97, 99] ∧ s.sent 1 = [120]
      ∧ ∀ c, (s.sent c).Sublist (s.received c) := by
  have hval : ((machine listening).run (start listening (fun _ => 0)) twoReadable).map
      (fun s => (s.received 0, s.sent 0, s.sent 1)) = some ([97, 98, 99], [97, 99], [120]) := by
    decide +kernel
  obtain ⟨s, hrun, heq⟩ := Option.map_eq_some_iff.mp hval
  simp only [Prod.mk.injEq] at heq
  exact ⟨s, heq.1, heq.2.1, heq.2.2, (select_clients_echo hrun (by decide +kernel)).1⟩

end TcpServers.SelectServer
