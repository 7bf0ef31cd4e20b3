import Mathlib.Data.List.Nodup
import Mathlib.Data.List.Perm.Subperm
import TcpServers.Lib.Observe
import TcpServers.Proof.SelectSets

/-!
# One pass of the scan over what `select()` answered

Within a pass the scan looks at a snapshot, the answer, and stops at a count of what
is left of it or at `max_sfd`, which the pass itself moves. Neither stop comes too
early: the count is of the ready descriptors still ahead, and each of those is in
`read_fd_backup_set`, so it is at most `max_sfd`.

What is recorded of a pass are the calls it makes, each with its descriptor and the
client behind that at the moment. They come in turns. The listening socket has had its
turn when `accept4()` finds no connection, a client when nothing is left to read, when
its `write()` would block, or when it is closed.
-/

namespace TcpServers.SelectServer

open Lib

variable {cfg : Config} {s s' t t' : SelectServer} {l : Label} {i : Fd}

/-! ## Calls and turns -/

/-- A call of the loop's body; `write()` with the bytes it is given. -/
inductive Call where
  | accept4 (r : Except Errno Fd)
  | read (r : ReadResult)
  | write (bs : List Byte) (r : WriteResult)
  -- `client_sfd.close_fd()`
  | close

/-- The call of a step, the descriptor it is made on, and the client behind that. -/
def callOf (s : SelectServer) : Label → List (Fd × Option Nat × Call)
  | .accept4 r =>
      match s.pc with
      | .accept i => [(i, s.fdTable i, .accept4 r)]
      | _ => []
  | .read r =>
      match s.pc with
      | .read i => [(i, s.fdTable i, .read r)]
      | _ => []
  | .write r =>
      match s.pc with
      | .write i rlen => [(i, s.fdTable i, .write (s.buffer.load 0 rlen) r)]
      | _ => []
  | .close =>
      match s.pc with
      | .close i => [(i, s.fdTable i, .close)]
      | _ => []
  | .select _ _ | .selectFailed | .scan | .log => []

/-- The calls of a pass, one after the other. -/
def callsIn (cfg : Config) (s : SelectServer) (ls : List Label) :
    List (Fd × Option Nat × Call) :=
  (machine cfg).observed callOf s ls

/-- The turn of the listening socket: connections are accepted until there is none. -/
def AcceptsAll (calls : List Call) : Prop :=
  ∃ (fds : List Fd) (e : Errno), e.wouldBlock = true
    ∧ calls = fds.map (fun fd => .accept4 (.ok fd)) ++ [.accept4 (.error e)]

/-- Each chunk that was read was given to `write()`. -/
inductive Echoes : List Call → Prop where
  | nil : Echoes []
  | snoc {calls : List Call} {bs : List Byte} {n : Nat} (h : Echoes calls) (hbs : bs ≠ [])
      (hle : n ≤ bs.length) : Echoes (calls ++ [.read (.data bs), .write bs (.wrote n)])

/-- The client is to be closed. -/
inductive Ends : List Call → Prop where
  | endOfStream {calls : List Call} (h : Echoes calls) : Ends (calls ++ [.read (.data [])])
  | readFailed {calls : List Call} {e : Errno} (h : Echoes calls) (he : e.wouldBlock = false) :
      Ends (calls ++ [.read (.fail e)])
  | writeFailed {calls : List Call} {bs : List Byte} {e : Errno} (h : Echoes calls)
      (hbs : bs ≠ []) (he : e.wouldBlock = false) :
      Ends (calls ++ [.read (.data bs), .write bs (.fail e)])

/-- The turn of a client: it is echoed until a call would block, or until it is closed. -/
inductive Serves : List Call → Prop where
  | drained {calls : List Call} {e : Errno} (h : Echoes calls) (he : e.wouldBlock = true) :
      Serves (calls ++ [.read (.fail e)])
  | blocked {calls : List Call} {bs : List Byte} {e : Errno} (h : Echoes calls)
      (hbs : bs ≠ []) (he : e.wouldBlock = true) :
      Serves (calls ++ [.read (.data bs), .write bs (.fail e)])
  | closed {calls : List Call} (h : Ends calls) : Serves (calls ++ [.close])

/-- The calls on one descriptor, with the client behind it all the time. -/
structure Turn where
  fd : Fd
  client : Option Nat
  calls : List Call

namespace Turn

/-- The turn, call by call. -/
def record (T : Turn) : List (Fd × Option Nat × Call) :=
  T.calls.map (fun c => (T.fd, T.client, c))

/-- The turn is over. -/
def Complete (cfg : Config) (T : Turn) : Prop :=
  if T.fd = cfg.serverSfd then AcceptsAll T.calls else Serves T.calls

def key (T : Turn) : Fd × Option Nat := (T.fd, T.client)

def add (T : Turn) (c : Call) : Turn := { T with calls := T.calls ++ [c] }

theorem record_add (T : Turn) (c : Call) :
    (T.add c).record = T.record ++ [(T.fd, T.client, c)] := by
  simp [record, add]

end Turn

/-- A step of the pass: `select()` is not called. -/
def InPass : Label → Prop
  | .select _ _ | .selectFailed => False
  | .scan | .accept4 _ | .read _ | .log | .write _ | .close => True

instance : (l : Label) → Decidable (InPass l)
  | .select _ _ | .selectFailed => isFalse id
  | .scan | .accept4 _ | .read _ | .log | .write _ | .close => isTrue trivial

/-- What `select()` can answer: some descriptors of the set, and how many. -/
structure Answers (s : SelectServer) (ready : List Fd) (events : Nat) : Prop where
  nodup : ready.Nodup
  member : ∀ i ∈ ready, s.readFdBackupSet i = true
  events : events = ready.length

/-- The descriptor whose turn it is. -/
def turnOf : SelectPc → Option Fd
  | .accept i => some i
  | .read i => some i
  | .logReceived i _ => some i
  | .write i _ => some i
  | .close i => some i
  | .select | .scan _ | .thrown => none

/-- The turn that begins between two states. -/
def opened (t t' : SelectServer) : List (Fd × Option Nat) :=
  match turnOf t.pc, turnOf t'.pc with
  | none, some i => [(i, t.fdTable i)]
  | _, _ => []

theorem opened_within (h : turnOf t.pc = some i) : opened t t' = [] := by
  simp only [opened, h]

/-! ## The scan -/

/-- A pass over `ready` that has turned to `served`, the clients being those of `table`. -/
structure ScanInv (cfg : Config) (table : Fd → Option Nat) (ready : List Fd)
    (served : List (Fd × Option Nat)) (t : SelectServer) : Prop where
  sets : SetsInv cfg t
  bits : ∀ i, t.readFdSet i = true ↔ i ∈ ready
  nodup : (served.map Prod.fst).Nodup
  sub : ∀ p ∈ served, p.1 ∈ ready ∧ p.2 = table p.1
  count : t.sfdReadyNo + served.length = ready.length
  /-- What is behind the scan was turned to, and nothing else. -/
  behind : ∀ k, ahead t.pc = some k → ∀ i ∈ ready, i < k ↔ i ∈ served.map Prod.fst
  /-- What is ahead of it is as it was. -/
  same : ∀ k, ahead t.pc = some k → ∀ i ∈ ready, k ≤ i → t.fdTable i = table i
  finished : t.pc = .select → ∀ i ∈ ready, i ∈ served.map Prod.fst

/-- Right after `select()` nothing was turned to. -/
theorem scanInv_select {ready : List Fd} {events : Nat} (h : SetsInv cfg s)
    (hanswer : Answers s ready events) (hs : s.next cfg (.select ready events) = some t) :
    ScanInv cfg s.fdTable ready [] t := by
  have hstep := next_cases hs
  have hsets := setsInv_step (l := .select ready events) h trivial hstep
  cases hstep with
  | select hpc =>
      refine ⟨hsets, fun i => ?_, List.nodup_nil, by simp, ?_, fun k hk i hi => ?_,
        fun _ _ _ _ _ => rfl, fun hsel => by cases hsel⟩
      · simp only [Bool.and_eq_true, Bool.or_eq_true, decide_eq_true_eq, List.contains_iff_mem]
        constructor
        · rintro ⟨hmember, hlt | hi⟩
          · exact absurd (h.greatest.2 hmember) (Int.not_le.mpr hlt)
          · exact hi
        · intro hi
          exact ⟨hanswer.member i hi, Or.inr hi⟩
      · simp [hanswer.events]
      · cases hk
        have hi0 : 0 ≤ i := by
          rcases (h.members i).mp (hanswer.member i hi) with rfl | ⟨c, hc⟩
          · exact cfg.nonneg
          · exact (h.client i c hc).1
        simpa using hi0

variable {table : Fd → Option Nat} {ready : List Fd} {served : List (Fd × Option Nat)}

/-- A step that leaves the scan where it is. -/
theorem ScanInv.of_ahead (h : ScanInv cfg table ready served t) (hsets : SetsInv cfg t')
    (hbits : t'.readFdSet = t.readFdSet) (hno : t'.sfdReadyNo = t.sfdReadyNo)
    (hahead : ahead t'.pc = ahead t.pc) (hsel : t'.pc ≠ .select)
    (htable : ∀ k i, ahead t.pc = some k → i ∈ ready → k ≤ i → t'.fdTable i = t.fdTable i) :
    ScanInv cfg table ready served t' where
  sets := hsets
  bits := by
    rw [hbits]
    exact h.bits
  nodup := h.nodup
  sub := h.sub
  count := by
    rw [hno]
    exact h.count
  behind := by
    rw [hahead]
    exact h.behind
  same := by
    intro k hk i hi hle
    rw [hahead] at hk
    rw [htable k i hk hi hle]
    exact h.same k hk i hi hle
  finished := fun hpc => absurd hpc hsel

/-- The pass is over for the code when it has thrown. -/
theorem ScanInv.of_thrown (h : ScanInv cfg table ready served t) (hsets : SetsInv cfg t')
    (hbits : t'.readFdSet = t.readFdSet) (hno : t'.sfdReadyNo = t.sfdReadyNo)
    (hpc : t'.pc = .thrown) : ScanInv cfg table ready served t' where
  sets := hsets
  bits := by
    rw [hbits]
    exact h.bits
  nodup := h.nodup
  sub := h.sub
  count := by
    rw [hno]
    exact h.count
  behind := by
    intro k hk
    rw [hpc] at hk
    cases hk
  same := by
    intro k hk
    rw [hpc] at hk
    cases hk
  finished := by
    intro hsel
    rw [hpc] at hsel
    cases hsel

/-- The scan turns to the descriptor it is at. -/
theorem ScanInv.turn (h : ScanInv cfg table ready served t) {i : Fd} (hpc : t.pc = .scan i)
    (hbit : t.readFdSet i = true) (hsets : SetsInv cfg t') (hbits : t'.readFdSet = t.readFdSet)
    (hno : t'.sfdReadyNo = t.sfdReadyNo - 1) (hahead : ahead t'.pc = some (i + 1))
    (htable : t'.fdTable = t.fdTable) (hsel : t'.pc ≠ .select) :
    ScanInv cfg table ready (served ++ [(i, t.fdTable i)]) t' := by
  have hready := (h.bits i).mp hbit
  have hat : ahead t.pc = some i := by rw [hpc]; rfl
  have hnew : i ∉ served.map Prod.fst := by
    rw [← h.behind i hat i hready]
    exact Int.lt_irrefl i
  refine ⟨hsets, by rw [hbits]; exact h.bits, ?_, fun p hp => ?_, ?_, fun k hk j hj => ?_,
    fun k hk j hj hle => ?_, fun hpc' => absurd hpc' hsel⟩
  · rw [List.map_append, List.map_singleton, List.nodup_append]
    refine ⟨h.nodup, List.pairwise_singleton _ _, fun a ha b hb heq => hnew ?_⟩
    rw [List.mem_singleton.mp hb] at heq
    have hi : a = i := heq
    exact hi ▸ ha
  · rcases List.mem_append.mp hp with hp | hp
    · exact h.sub p hp
    · rw [List.mem_singleton.mp hp]
      exact ⟨hready, h.same i hat i hready (Int.le_refl i)⟩
  · rw [hno, List.length_append, List.length_singleton]
    have hcount := h.count
    omega
  · rw [hahead] at hk
    cases hk
    rw [List.map_append, List.mem_append, ← h.behind i hat j hj]
    rw [List.map_singleton, List.mem_singleton, Int.lt_add_one_iff, Int.le_iff_lt_or_eq]
  · rw [hahead] at hk
    cases hk
    rw [htable]
    exact h.same i hat j hj (Int.le_of_lt hle)

/-- Every ready descriptor has been turned to where the scan stops. -/
theorem ScanInv.scanned (h : ScanInv cfg table ready served t) {i : Fd}
    (hpc : t.pc = .scan i) (hend : t.maxSfd < i ∨ t.sfdReadyNo ≤ 0) :
    ∀ j ∈ ready, j ∈ served.map Prod.fst := by
  intro j hj
  have hat : ahead t.pc = some i := by rw [hpc]; rfl
  rcases hend with hmax | hno
  · by_cases hlt : j < i
    · exact (h.behind i hat j hj).mp hlt
    · -- a bit ahead of the scan is that of a member, and no member is above the maximum
      have hmember := h.sets.ahead i j hat (Int.not_lt.mp hlt) ((h.bits j).mpr hj)
      have hle : j ≤ t.maxSfd := h.sets.greatest.2 hmember
      exact absurd (Int.lt_of_le_of_lt hle hmax) hlt
  · have hsub : served.map Prod.fst ⊆ ready := by
      intro k hk
      obtain ⟨p, hp, rfl⟩ := List.mem_map.mp hk
      exact (h.sub p hp).1
    have hlen : ready.length ≤ (served.map Prod.fst).length := by
      rw [List.length_map]
      have hcount := h.count
      omega
    exact ((h.nodup.subperm hsub).perm_of_length_le hlen).mem_iff.mpr hj

theorem scanInv_step (h : ScanInv cfg table ready served t)
    (hl : BelowSetsize t l ∧ InPass l) (hs : Step cfg t l t') :
    ScanInv cfg table ready (served ++ opened t t') t' := by
  have hsets := setsInv_step h.sets hl.1 hs
  cases hs with
  | select | selectFailed => exact absurd hl.2 id
  | @pass i hpc hlt hmore hbit =>
      have hat : ahead t.pc = some i := by rw [hpc]; rfl
      have hnot : i ∉ ready := fun hi => by simp [(h.bits i).mpr hi] at hbit
      simp only [opened, hpc, turnOf, List.append_nil]
      refine ⟨hsets, h.bits, h.nodup, h.sub, h.count, fun k hk j hj => ?_,
        fun k hk j hj hle => ?_, fun hsel => by cases hsel⟩
      · cases hk
        rw [← h.behind i hat j hj]
        have hne : j ≠ i := fun heq => hnot (heq ▸ hj)
        rw [Int.lt_add_one_iff, Int.le_iff_lt_or_eq]
        exact or_iff_left hne
      · cases hk
        exact h.same i hat j hj (Int.le_of_lt hle)
  | connection hpc hmore hbit =>
      simp only [opened, hpc, turnOf]
      exact h.turn hpc hbit hsets rfl rfl rfl rfl (by simp)
  | readable hpc hle hmore hbit hne =>
      simp only [opened, hpc, turnOf]
      exact h.turn hpc hbit hsets rfl rfl rfl rfl (by simp)
  | scanned hpc hend =>
      have hall := h.scanned hpc hend
      simp only [opened, hpc, turnOf, List.append_nil]
      exact ⟨hsets, h.bits, h.nodup, h.sub, h.count, (fun k hk => by cases hk),
        (fun k hk => by cases hk), fun _ => hall⟩
  | @accepted i fd hpc hnonneg hne hfresh =>
      rw [opened_within (by rw [hpc]; rfl), List.append_nil]
      refine h.of_ahead hsets rfl rfl rfl (by simp [hpc]) (fun k j hk hj hle => ?_)
      -- a ready descriptor ahead of the scan is open, so it is not the one handed out
      have hmember := h.sets.ahead k j hk hle ((h.bits j).mpr hj)
      have hother : j ≠ fd := by
        intro heq
        rcases (h.sets.members j).mp hmember with hlisten | ⟨c, hc⟩
        · exact hne (heq.symm.trans hlisten)
        · rw [heq, hfresh] at hc
          cases hc
      exact Function.update_of_ne hother _ _
  | acceptFailed hpc =>
      rw [opened_within (by rw [hpc]; rfl), List.append_nil]
      exact h.of_thrown hsets rfl rfl rfl
  | @close i hpc =>
      rw [opened_within (by rw [hpc]; rfl), List.append_nil]
      refine h.of_ahead hsets rfl rfl (by rw [hpc]; rfl) (by simp) (fun k j hk hj hle => ?_)
      rw [hpc] at hk
      cases hk
      exact Function.update_of_ne (Int.ne_of_gt hle) _ _
  | noMore hpc | endOfStream hpc | chunk hpc | drained hpc | readFailed hpc | logged hpc
  | wrote hpc | blocked hpc | writeFailed hpc =>
      rw [opened_within (by rw [hpc]; rfl), List.append_nil]
      exact h.of_ahead hsets rfl rfl (by rw [hpc]; rfl) (by simp) (fun _ _ _ _ _ => rfl)

/-- Where all of `ready` was turned to, in some order, that is what was served. -/
theorem ScanInv.perm (h : ScanInv cfg table ready served t) (hready : ready.Nodup)
    (hpc : t.pc = .select) : served.Perm (ready.map (fun i => (i, table i))) := by
  have hnodup : (ready.map (fun i => (i, table i))).Nodup :=
    List.Nodup.map (fun i j hij => (Prod.mk.inj hij).1) hready
  refine (List.perm_ext_iff_of_nodup h.nodup.of_map hnodup).mpr (fun p => ?_)
  rw [List.mem_map]
  constructor
  · intro hp
    obtain ⟨hmem, htable⟩ := h.sub p hp
    exact ⟨p.1, hmem, by rw [← htable]⟩
  · rintro ⟨i, hi, rfl⟩
    obtain ⟨p, hp, rfl⟩ := List.mem_map.mp (h.finished hpc i hi)
    rw [← (h.sub p hp).2]
    exact hp

/-! ## The turns -/

/-- The turn that is being taken, by the calls it has made. -/
def Turn.Underway (cfg : Config) (t : SelectServer) (T : Turn) : Prop :=
  match t.pc with
  | .accept i => i = T.fd ∧ T.fd = cfg.serverSfd
      ∧ ∃ fds : List Fd, T.calls = fds.map (fun fd => .accept4 (.ok fd))
  | .read i => i = T.fd ∧ T.fd ≠ cfg.serverSfd ∧ Echoes T.calls
  | .logReceived i rlen | .write i rlen => i = T.fd ∧ T.fd ≠ cfg.serverSfd
      ∧ ∃ calls bs, Echoes calls ∧ bs ≠ [] ∧ bs.length = rlen ∧ t.buffer.load 0 rlen = bs
        ∧ T.calls = calls ++ [.read (.data bs)]
  | .close i => i = T.fd ∧ T.fd ≠ cfg.serverSfd ∧ Ends T.calls
  | .select | .scan _ | .thrown => False

/-- All turns are over, but the last one may be under way, or have ended in an exception. -/
inductive Progress (cfg : Config) (t : SelectServer) : List Turn → Prop where
  | between {turns : List Turn} (hpc : turnOf t.pc = none) (h : ∀ T ∈ turns, T.Complete cfg) :
      Progress cfg t turns
  | within {turns : List Turn} {T : Turn} (h : ∀ T ∈ turns, T.Complete cfg)
      (hclient : t.fdTable T.fd = T.client) (hT : T.Underway cfg t) :
      Progress cfg t (turns ++ [T])
  | thrown {turns : List Turn} {T : Turn} (hpc : t.pc = .thrown)
      (h : ∀ T ∈ turns, T.Complete cfg) : Progress cfg t (turns ++ [T])

theorem Turn.Underway.turnOf_eq {T : Turn} (h : T.Underway cfg t) : turnOf t.pc = some T.fd := by
  unfold Turn.Underway at h
  cases hpc : t.pc with
  | select | scan | thrown =>
      rw [hpc] at h
      exact h.elim
  | accept i | read i | logReceived i rlen | write i rlen | close i =>
      rw [hpc] at h
      exact congrArg some h.1

/-- No turn is under way in the scan. -/
theorem Progress.complete {turns : List Turn} (h : Progress cfg t turns)
    (hpc : turnOf t.pc = none) (hthrown : t.pc ≠ .thrown) : ∀ T ∈ turns, T.Complete cfg := by
  cases h with
  | between _ h => exact h
  | within _ _ hT =>
      rw [hT.turnOf_eq] at hpc
      cases hpc
  | thrown hpc' => exact absurd hpc' hthrown

/-- A turn begins with no call. -/
theorem Progress.open {turns : List Turn} (h : Progress cfg t turns) (hpc : t.pc = .scan i)
    (htable : t'.fdTable = t.fdTable) (hT : Turn.Underway cfg t' ⟨i, t.fdTable i, []⟩) :
    Progress cfg t' (turns ++ [⟨i, t.fdTable i, []⟩]) :=
  .within (h.complete (by rw [hpc]; rfl) (by rw [hpc]; simp)) (by rw [htable]) hT

/-- A call belongs to the turn that is under way. -/
theorem Progress.call {turns : List Turn} (h : Progress cfg t turns)
    (hin : turnOf t.pc = some i) {c : Call} (hcall : callOf t l = [(i, t.fdTable i, c)])
    (hnext : ∀ (done : List Turn) (T : Turn), (∀ T ∈ done, T.Complete cfg) → i = T.fd →
      t.fdTable i = T.client → T.Underway cfg t → Progress cfg t' (done ++ [T.add c])) :
    ∃ turns', Progress cfg t' turns' ∧ turns'.map Turn.key = turns.map Turn.key ++ opened t t'
      ∧ turns'.flatMap Turn.record = turns.flatMap Turn.record ++ callOf t l := by
  rw [opened_within hin, List.append_nil, hcall]
  cases h with
  | between hpc =>
      rw [hpc] at hin
      cases hin
  | thrown hpc =>
      rw [hpc] at hin
      cases hin
  | @within done T hdone hclient hT =>
      have hi : i = T.fd := Option.some.inj (hin.symm.trans hT.turnOf_eq)
      subst hi
      refine ⟨done ++ [T.add c], hnext done T hdone rfl hclient hT, ?_, ?_⟩
      · simp [Turn.key, Turn.add]
      · rw [List.flatMap_append, List.flatMap_append, List.flatMap_singleton,
          List.flatMap_singleton, Turn.record_add, hclient, List.append_assoc]

/-- The last turn is over, and the scan goes on. -/
theorem Progress.over {done : List Turn} {T : Turn} (hdone : ∀ T ∈ done, T.Complete cfg)
    (hpc : turnOf t.pc = none) (hT : T.Complete cfg) : Progress cfg t (done ++ [T]) := by
  refine .between hpc (fun U hU => ?_)
  rcases List.mem_append.mp hU with hU | hU
  · exact hdone U hU
  · rw [List.mem_singleton.mp hU]
    exact hT

theorem Turn.Complete.listener {T : Turn} (hfd : T.fd = cfg.serverSfd)
    (h : AcceptsAll T.calls) : T.Complete cfg := by
  rw [Complete, if_pos hfd]
  exact h

theorem Turn.Complete.client {T : Turn} (hfd : T.fd ≠ cfg.serverSfd) (h : Serves T.calls) :
    T.Complete cfg := by
  rw [Complete, if_neg hfd]
  exact h

/-- **A call goes to the turn that is under way**, and a turn begins where the scan stops. -/
theorem progress_step {turns : List Turn} (h : Progress cfg t turns) (hl : InPass l)
    (hs : Step cfg t l t') :
    ∃ turns', Progress cfg t' turns' ∧ turns'.map Turn.key = turns.map Turn.key ++ opened t t'
      ∧ turns'.flatMap Turn.record = turns.flatMap Turn.record ++ callOf t l := by
  cases hs with
  | select | selectFailed => exact absurd hl id
  | pass hpc _ _ _ | scanned hpc _ =>
      refine ⟨turns, .between rfl (h.complete (by rw [hpc]; rfl) (by rw [hpc]; simp)), ?_, ?_⟩
      · simp [opened, hpc, turnOf]
      · simp [callOf]
  | connection hpc _ _ =>
      refine ⟨_, h.open hpc rfl ⟨rfl, rfl, [], rfl⟩, ?_, ?_⟩
      · simp [opened, hpc, turnOf, Turn.key]
      · simp [callOf, Turn.record]
  | readable hpc _ _ _ hne =>
      refine ⟨_, h.open hpc rfl ⟨rfl, hne, .nil⟩, ?_, ?_⟩
      · simp [opened, hpc, turnOf, Turn.key]
      · simp [callOf, Turn.record]
  | @accepted i fd hpc hnonneg hne hfresh =>
      refine h.call (by rw [hpc]; rfl) (by simp only [callOf, hpc]; rfl)
        (fun done T hdone hfd hclient hT => ?_)
      simp only [Turn.Underway, hpc] at hT
      obtain ⟨_, hlisten, fds, hcalls⟩ := hT
      refine .within hdone ?_ ?_
      · show Function.update t.fdTable fd _ T.fd = T.client
        rw [hlisten, Function.update_of_ne hne.symm, ← hclient, hfd, hlisten]
      · simp only [Turn.Underway, hpc]
        exact ⟨hfd, hlisten, fds ++ [fd], by simp [Turn.add, hcalls]⟩
  | @noMore i e hpc he =>
      refine h.call (by rw [hpc]; rfl) (by simp only [callOf, hpc]; rfl)
        (fun done T hdone hfd _ hT => ?_)
      simp only [Turn.Underway, hpc] at hT
      obtain ⟨_, hlisten, fds, hcalls⟩ := hT
      exact .over hdone rfl (.listener hlisten ⟨fds, e, he, by simp [Turn.add, hcalls]⟩)
  | @acceptFailed i e hpc he =>
      exact h.call (by rw [hpc]; rfl) (by simp only [callOf, hpc]; rfl)
        (fun done T hdone _ _ _ => .thrown rfl hdone)
  | @endOfStream i c hpc hopen =>
      refine h.call (by rw [hpc]; rfl) (by simp only [callOf, hpc]; rfl)
        (fun done T hdone hfd hclient hT => ?_)
      simp only [Turn.Underway, hpc] at hT
      exact .within hdone (hfd ▸ hclient) ⟨hfd, hT.2.1, .endOfStream hT.2.2⟩
  | @chunk i c bs hpc hopen hpos hle =>
      refine h.call (by rw [hpc]; rfl) (by simp only [callOf, hpc]; rfl)
        (fun done T hdone hfd hclient hT => ?_)
      simp only [Turn.Underway, hpc] at hT
      exact .within hdone (hfd ▸ hclient) ⟨hfd, hT.2.1, T.calls, bs, hT.2.2,
        List.ne_nil_of_length_pos hpos, rfl, Store.load_save _ _ _, rfl⟩
  | @drained i e hpc he =>
      refine h.call (by rw [hpc]; rfl) (by simp only [callOf, hpc]; rfl)
        (fun done T hdone _ _ hT => ?_)
      simp only [Turn.Underway, hpc] at hT
      exact .over hdone rfl (.client hT.2.1 (.drained hT.2.2 he))
  | @readFailed i e hpc he =>
      refine h.call (by rw [hpc]; rfl) (by simp only [callOf, hpc]; rfl)
        (fun done T hdone hfd hclient hT => ?_)
      simp only [Turn.Underway, hpc] at hT
      exact .within hdone (hfd ▸ hclient) ⟨hfd, hT.2.1, .readFailed hT.2.2 he⟩
  | @logged i rlen hpc =>
      rw [opened_within (by rw [hpc]; rfl), List.append_nil]
      refine ⟨turns, ?_, rfl, by simp [callOf]⟩
      cases h with
      | between hpc' => rw [hpc] at hpc'; cases hpc'
      | thrown hpc' => rw [hpc] at hpc'; cases hpc'
      | within hdone hclient hT =>
          simp only [Turn.Underway, hpc] at hT
          exact .within hdone hclient hT
  | @wrote i c rlen n hpc hopen hle =>
      refine h.call (by rw [hpc]; rfl) (by simp only [callOf, hpc]; rfl)
        (fun done T hdone hfd hclient hT => ?_)
      simp only [Turn.Underway, hpc] at hT
      obtain ⟨_, hne, calls, bs, hechoes, hbs, hlen, hload, hcalls⟩ := hT
      refine .within hdone (hfd ▸ hclient) ⟨hfd, hne, ?_⟩
      rw [Turn.add, hcalls, hload, List.append_assoc]
      exact hechoes.snoc hbs (hlen ▸ hle)
  | @blocked i rlen e hpc he =>
      refine h.call (by rw [hpc]; rfl) (by simp only [callOf, hpc]; rfl)
        (fun done T hdone hfd hclient hT => ?_)
      simp only [Turn.Underway, hpc] at hT
      obtain ⟨_, hne, calls, bs, hechoes, hbs, hlen, hload, hcalls⟩ := hT
      refine .over hdone rfl (.client hne ?_)
      rw [Turn.add, hcalls, hload, List.append_assoc]
      exact .blocked hechoes hbs he
  | @writeFailed i rlen e hpc he =>
      refine h.call (by rw [hpc]; rfl) (by simp only [callOf, hpc]; rfl)
        (fun done T hdone hfd hclient hT => ?_)
      simp only [Turn.Underway, hpc] at hT
      obtain ⟨_, hne, calls, bs, hechoes, hbs, hlen, hload, hcalls⟩ := hT
      refine .within hdone (hfd ▸ hclient) ⟨hfd, hne, ?_⟩
      rw [Turn.add, hcalls, hload, List.append_assoc]
      exact .writeFailed hechoes hbs he
  | @close i hpc =>
      refine h.call (by rw [hpc]; rfl) (by simp only [callOf, hpc]; rfl)
        (fun done T hdone _ _ hT => ?_)
      simp only [Turn.Underway, hpc] at hT
      exact .over hdone rfl (.client hT.2.1 (.closed hT.2.2))

/-- The calls of a pass are those of its turns. -/
def PassInv (cfg : Config) (table : Fd → Option Nat) (ready : List Fd)
    (shown : List (Fd × Option Nat × Call)) (t : SelectServer) : Prop :=
  ∃ turns, turns.flatMap Turn.record = shown ∧ ScanInv cfg table ready (turns.map Turn.key) t
    ∧ Progress cfg t turns

theorem passInv_step {shown : List (Fd × Option Nat × Call)}
    (h : PassInv cfg table ready shown t) (hl : BelowSetsize t l ∧ InPass l)
    (hs : Step cfg t l t') : PassInv cfg table ready (shown ++ callOf t l) t' := by
  obtain ⟨turns, rfl, hscan, hprogress⟩ := h
  obtain ⟨turns', hprogress', hkeys, hrecord⟩ := progress_step hprogress hl.2 hs
  exact ⟨turns', hrecord, by rw [hkeys]; exact scanInv_step hscan hl hs, hprogress'⟩

/-- All turns but the last one are over. -/
theorem Progress.dropLast {turns : List Turn} (h : Progress cfg t turns) :
    ∀ T ∈ turns.dropLast, T.Complete cfg := by
  cases h with
  | between _ h => exact fun T hT => h T (List.dropLast_subset _ hT)
  | within h | thrown _ h =>
      rw [List.dropLast_concat]
      exact h

/--
**One pass serves what was ready, and nothing else.** From every reachable state and for
every answer of `select()`: the calls of the pass come in turns, one after the other. Each is
on a descriptor of the answer, no descriptor has two, and all the time it is the client's that
had it when `select()` answered. When the pass is over, without the exception for a failed
`accept4()`, every ready descriptor has had its turn to the end, and `sfd_ready_no` is `0`.
-/
theorem pass_complete {events : Nat} {ls : List Label}
    (h : (machine cfg).ReachableVia BelowSetsize s) (hanswer : Answers s ready events)
    (hs : s.next cfg (.select ready events) = some s')
    (hpass : (machine cfg).Along (fun s l => BelowSetsize s l ∧ InPass l) s' ls)
    (hrun : (machine cfg).run s' ls = some t) :
    ∃ turns : List Turn, callsIn cfg s' ls = turns.flatMap Turn.record
      ∧ (∀ T ∈ turns, T.fd ∈ ready ∧ T.client = s.fdTable T.fd)
      ∧ (turns.map Turn.fd).Nodup
      ∧ (∀ T ∈ turns.dropLast, T.Complete cfg)
      ∧ (t.pc = .select →
        (∀ T ∈ turns, T.Complete cfg) ∧ (turns.map Turn.fd).Perm ready ∧ t.sfdReadyNo = 0) := by
  have hstart : PassInv cfg s.fdTable ready [] s' := by
    refine ⟨[], rfl, scanInv_select (setsInv_reachable h) hanswer hs, .between ?_ ?_⟩
    · cases next_cases hs
      rfl
    · exact fun T hT => absurd hT List.not_mem_nil
  obtain ⟨turns, hcalls, hscan, hprogress⟩ :
      PassInv cfg s.fdTable ready (callsIn cfg s' ls) t :=
    Machine.observed_invariant hstart
      (fun _ _ _ _ hi hl hn => passInv_step hi hl (next_cases hn)) hrun hpass
  have hfds : (turns.map Turn.key).map Prod.fst = turns.map Turn.fd := by
    rw [List.map_map]
    rfl
  refine ⟨turns, hcalls.symm, fun T hT => hscan.sub T.key (List.mem_map_of_mem hT),
    hfds ▸ hscan.nodup, hprogress.dropLast, fun hpc => ⟨?_, ?_, ?_⟩⟩
  · exact hprogress.complete (by rw [hpc]; rfl) (by rw [hpc]; simp)
  · have hperm := (hscan.perm hanswer.nodup hpc).map Prod.fst
    rw [hfds, List.map_map, show Prod.fst ∘ (fun i => (i, s.fdTable i)) = id from rfl,
      List.map_id] at hperm
    exact hperm
  · have hlen := (hscan.perm hanswer.nodup hpc).length_eq
    have hcount := hscan.count
    simp only [List.length_map] at hlen hcount
    omega

/-- The client with the greatest descriptor is ready together with the listening socket. -/
def highestReady : List Label :=
  [.scan, .scan, .scan, .scan, .accept4 (.error .eagain), .scan, .scan, .scan, .scan, .scan,
    .read (.data []), .close, .scan]

theorem pass_complete_highestReady :
    ∃ (s s' : SelectServer) (turns : List Turn), s.next listening (.select [8, 3] 2) = some s'
      ∧ callsIn listening s' highestReady = turns.flatMap Turn.record
      ∧ (∀ T ∈ turns, T.Complete listening) ∧ (turns.map Turn.fd).Perm [8, 3] := by
  have hval : ((machine listening).run (start listening (fun _ => 0))
      [.select [3] 1, .scan, .scan, .scan, .scan, .accept4 (.ok 5), .accept4 (.ok 8),
        .accept4 (.error .eagain), .scan]).map
      (fun s => (s.readFdBackupSet 3, s.readFdBackupSet 8,
        (s.next listening (.select [8, 3] 2)).map (fun s' =>
          (decide ((machine listening).Along (fun s l => BelowSetsize s l ∧ InPass l) s'
            highestReady),
            ((machine listening).run s' highestReady).map (fun t => t.pc)))))
      = some (true, true, some (true, some .select)) := by decide +kernel
  obtain ⟨s, hrun, heq⟩ := Option.map_eq_some_iff.mp hval
  simp only [Prod.mk.injEq] at heq
  obtain ⟨h3, h8, hnext⟩ := heq
  obtain ⟨s', hs, heq'⟩ := Option.map_eq_some_iff.mp hnext
  simp only [Prod.mk.injEq, decide_eq_true_eq] at heq'
  obtain ⟨hpass, hend⟩ := heq'
  obtain ⟨t, hrun', hpc⟩ := Option.map_eq_some_iff.mp hend
  have hr : (machine listening).ReachableVia BelowSetsize s :=
    .of_run (.init ⟨_, rfl⟩) (by decide +kernel) hrun
  have hanswer : Answers s [8, 3] 2 := ⟨by decide, by simp [h3, h8], rfl⟩
  obtain ⟨turns, hcalls, _, _, _, hover⟩ := pass_complete hr hanswer hs hpass hrun'
  exact ⟨s, s', turns, hs, hcalls, (hover hpc).1, (hover hpc).2.1⟩

end TcpServers.SelectServer
