import Mathlib.Data.Fintype.EquivFin
import TcpServers.Lib.Amortized
import TcpServers.Proof.HandlerReturns
import TcpServers.Proof.Lives

/-!
# A worker gets back to `epoll_wait`

However the other workers run: a worker that has taken events is done with them after a
number of its own statements that depends on nothing but how many events it took and how
many connections it accepted meanwhile. No other worker can make it take longer, because
none writes the data it works on.

That holds as long as a re-arm is the last thing done to a connection. After a failed read
it is not, and the late `reset()` of one worker would give another its buffer once more.
-/

namespace TcpServers.Server

open Lib ConnectionDataManager

variable {ι : Type} {cfg : Config ι} {s s' : Server ι} {i j : ι} {act : Act}

/-- The statements an event can cost: the test of its flags and the handler. -/
def perEvent : Nat := 6 * (ConnectionData.bufferSize + 1).toNat + 9

/-- The statements that are left of the one event a worker is at. -/
def leftAt (mem : Addr → ConnectionData) : WorkerPc → Nat
  | .epollWait => 0
  | .loop => 1
  | .accept => 2
  | .insert _ _ => 4
  | .add _ _ _ => 3
  | .handle p _ pc => Connection.left (mem p) pc + 1
  | .close _ _ _ .test => 6
  | .close _ _ _ .remove => 5
  | .close _ _ _ .del => 4
  | .close _ _ _ .close => 3
  | .close _ _ _ .store => 2

/-- The statements a worker has left until it waits again, new connections apart. -/
def workLeft (s : Server ι) (i : ι) : Nat :=
  perEvent * (s.worker i).batch.length + leftAt s.mem (s.worker i).pc

/-- A worker has as much left as long as nothing is done by it, or to the data it handles. -/
theorem workLeft_kept (hw : s'.worker i = s.worker i)
    (hmem : ∀ p f pc, (s.worker i).pc = .handle p f pc → s'.mem p = s.mem p) :
    workLeft s' i = workLeft s i := by
  unfold workLeft
  rw [hw]
  cases hpc : (s.worker i).pc with
  | handle p f pc => simp only [leftAt, hmem p f pc hpc]
  | close p v f cpc => cases cpc <;> rfl
  | _ => rfl

variable [DecidableEq ι]

/-- A statement of the given worker; an allocation is none of its own. -/
def ownStep (i : ι) : ι × Act → Nat
  | (_, .allocate _ _) => 0
  | (j, _) => if j = i then 1 else 0

/-- A worker that executes a statement is not the given one, or not in `epoll_wait`. -/
def Working (i : ι) (s : Server ι) (l : ι × Act) : Prop :=
  ownStep i l ≠ 0 → (s.worker i).pc ≠ .epollWait

instance (i : ι) (s : Server ι) (l : ι × Act) : Decidable (Working i s l) :=
  inferInstanceAs (Decidable (_ → _))

theorem ownStep_le (i : ι) (l : ι × Act) : ownStep i l ≤ 1 := by
  unfold ownStep
  split
  · exact Nat.zero_le _
  · split
    · exact Nat.le_refl _
    · exact Nat.zero_le _

theorem ownStep_ne_zero (h : ownStep i (j, act) ≠ 0) :
    j = i ∧ ∀ q cd, act ≠ .allocate q cd := by
  unfold ownStep at h
  split at h
  · exact absurd rfl h
  · rename_i heq
    cases heq
    refine ⟨?_, ?_⟩
    · by_contra hne
      exact h (if_neg hne)
    · assumption

/-- The connections the given worker accepts. -/
def accepts (i : ι) : ι × Act → Nat
  | (j, .accept4 (.ok _)) => if j = i then 1 else 0
  | _ => 0

/-- The handler has as much left as that of the connection followed on its own. -/
theorem handler_left (hr : (machine cfg).ReachableVia RearmsLast s) {p : Addr} {f : File}
    {pc : HandlerPc} (hpc : (s.worker i).pc = .handle p f pc) {a : Answer} {out : HandlerOut}
    (hstep : HandlerStep (s.mem p) (s.worker i).errno pc a out) :
    leftAt (Function.update s.mem p out.data) (afterHandler p f out.pc)
      < leftAt s.mem (.handle p f pc) := by
  obtain ⟨k, hk, hdata, herrno, _, hphase⟩ := (livesInv_reachable hr).handling i p f pc hpc
  have hi := Connection.indexInv_reachable hk
  rw [← hdata, ← herrno] at hstep
  have hlt := Connection.leftIn_lt hi hphase hstep
  simp only [Connection.leftIn, hphase, Connection.stepped_phase, Connection.stepped_data,
    hdata] at hlt
  cases hout : out.pc with
  | none =>
      rw [hout] at hlt
      simp only [afterHandler, leftAt, Connection.afterStep] at hlt ⊢
      omega
  | some pc' =>
      rw [hout] at hlt
      simp only [afterHandler, leftAt, Connection.afterStep, Function.update_self] at hlt ⊢
      omega

/-- What an event is dispatched to costs no more than an event may. -/
theorem dispatched_left (hr : (machine cfg).ReachableVia RearmsLast s) {ev : Event} {p : Addr}
    (hev : ev ∈ (s.worker i).batch) (hptr : ev.ptr = some p) :
    leftAt s.mem (s.dispatched cfg i ev p) ≤ perEvent := by
  have hinv : OwnInv cfg s := ownInv_reachable (fun _ _ hc _ => hc.1) hr
  have hok := dispatched_ok hinv (hinv.events i ev hev) hptr
  rcases dispatched_cases cfg s i ev p with heq | heq | ⟨_, heq⟩ | ⟨hd, heq⟩
  · rw [heq]
    simp [leftAt, perEvent, ConnectionData.bufferSize]
  · rw [heq]
    simp [leftAt, perEvent, ConnectionData.bufferSize]
  · rw [heq]
    simp [leftAt, perEvent, ConnectionData.bufferSize]
  · rw [heq] at hok ⊢
    obtain ⟨c, _, hfile, _⟩ := hok rfl
    -- a life that has come to its event starts the handler with these data
    obtain ⟨k, hk, hdata, _, _, hphase⟩ :=
      ((livesInv_reachable hr).fetched i ev hev p c hptr hfile .success).dispatch hd
    have hle := Connection.leftIn_le (Connection.indexInv_reachable hk)
    simp only [Connection.leftIn, hphase, hdata] at hle
    simp only [leftAt, perEvent]
    omega

/-- **A statement of the worker** pays for itself, an accepted connection for three more. -/
theorem workLeft_own (hr : (machine cfg).ReachableVia RearmsLast s)
    (hw : (s.worker i).pc ≠ .epollWait) (hact : ∀ q cd, act ≠ .allocate q cd)
    (hs : Step cfg s i act s') : workLeft s' i + 1 ≤ workLeft s i + 3 * accepts i (i, act) := by
  unfold workLeft
  cases hs with
  | deliver hpc => exact absurd hpc hw
  | wake hpc => exact absurd hpc hw
  | allocated => exact absurd rfl (hact _ _)
  | endBatch hpc hbatch =>
      simp [hpc, hbatch, leftAt]
  | @take ev rest p hpc hbatch hptr =>
      have hle := dispatched_left (p := p) hr (by rw [hbatch]; exact List.mem_cons_self) hptr
      simp only [setWorker_worker, setWorker_mem, Function.update_self, hpc, hbatch,
        List.length_cons, leftAt, Nat.mul_add] at hle ⊢
      omega
  | @handled p f pc a out hpc hstep _ =>
      have hlt := handler_left hr hpc hstep
      have hmem : (s.handled i p f pc a out).mem = Function.update s.mem p out.data := rfl
      simp only [handled_worker, hmem, hpc, Function.update_self]
      omega
  | @rearmed p f pc out _ _ hpc hstep _ _ =>
      have hlt := handler_left hr hpc hstep
      have hmem : (s.handled i p f pc (.epollCtl none) out).mem
          = Function.update s.mem p out.data := rfl
      simp only [setInterest, handled_worker, hmem, hpc, Function.update_self]
      omega
  | accepted hpc _ _ =>
      simp [hpc, leftAt, accepts]
  | acceptFailed hpc => simp [hpc, leftAt]
  | inserted hpc _ _ => simp [hpc, leftAt]
  | insertedNull hpc _ _ => simp [hpc, leftAt]
  | added hpc _ _ => simp [hpc, leftAt]
  | addFailed hpc =>
      simp only [setWorker_worker, Function.update_self, hpc, leftAt]
      omega
  | closeNegative hpc _ =>
      simp only [setPc_worker, Function.update_self, hpc, leftAt]
      omega
  | closeTest hpc _ => simp [hpc, leftAt]
  | closeRemove hpc => simp [hpc, leftAt]
  | closeDel hpc => simp [hpc, leftAt]
  | closeClose hpc => simp [hpc, leftAt]
  | closeStore hpc => simp [hpc, leftAt]

/-- **A statement of another worker** leaves the worker as much to do as it had. -/
theorem workLeft_other (hr : (machine cfg).ReachableVia RearmsLast s) (hs : Step cfg s i act s')
    (hj : j ≠ i) : workLeft s' j = workLeft s j := by
  have hinv : OwnInv cfg s := ownInv_reachable (fun _ _ hc _ => hc.1) hr
  have hn := noResetting_reachable hr
  refine workLeft_kept (step_worker hs hj) (fun p f pc hpc => ?_)
  obtain ⟨c, fd, _, hl, _, _, hat⟩ := hinv.handling hpc (pastRearm_of_resetting (hn j p f pc hpc))
  exact hinv.mem_stays hn hs hl (fun hi => hj (hinv.atWork_unique hat hi))

/-- **An allocation** gets storage that no worker handles. -/
theorem workLeft_allocation (hr : (machine cfg).ReachableVia RearmsLast s) {q : Addr}
    {cd : ConnectionData} (ha : Allocation s s' act q cd) (j : ι) : workLeft s' j = workLeft s j := by
  have hinv : OwnInv cfg s := ownInv_reachable (fun _ _ hc _ => hc.1) hr
  have hn := noResetting_reachable hr
  refine workLeft_kept (by rw [ha.worker]) (fun p f pc hpc => ?_)
  obtain ⟨c, fd, _, hl, _⟩ := hinv.handling hpc (pastRearm_of_resetting (hn j p f pc hpc))
  exact ha.mem ⟨fd, _, hl, rfl⟩

/-! ## Runs -/

theorem workLeft_le (hr : (machine cfg).ReachableVia RearmsLast s) (i : ι) :
    workLeft s i ≤ perEvent * ((s.worker i).batch.length + 1) := by
  have hinv : OwnInv cfg s := ownInv_reachable (fun _ _ hc _ => hc.1) hr
  have hle : leftAt s.mem (s.worker i).pc ≤ perEvent := by
    cases hpc : (s.worker i).pc with
    | handle p f pc =>
        obtain ⟨k, hk, hdata, _, _, hphase⟩ := (livesInv_reachable hr).handling i p f pc hpc
        have hbound := Connection.leftIn_le (Connection.indexInv_reachable hk)
        simp only [Connection.leftIn, hphase, hdata] at hbound
        simp only [leftAt, perEvent]
        omega
    | close p v f cpc => cases cpc <;> simp [leftAt, perEvent, ConnectionData.bufferSize]
    | _ => simp [leftAt, perEvent, ConnectionData.bufferSize]
  unfold workLeft
  rw [Nat.mul_succ]
  omega

/-- The statements of a worker that is not back, as long as every re-arm comes last. -/
theorem own_statements (h : (machine cfg).ReachableVia RearmsLast s) (i : ι)
    {as : List (ι × Act)} (hrun : (machine cfg).run s as = some s')
    (hC : (machine cfg).Along RearmsLast s as) (hw : (machine cfg).Along (Working i) s as) :
    Machine.weight (ownStep i) as
      ≤ perEvent * ((s.worker i).batch.length + 1) + 3 * Machine.weight (accepts i) as := by
  have hpaid : workLeft s' i + Machine.weight (ownStep i) as
      ≤ workLeft s i + Machine.weight (fun l => 3 * accepts i l) as := by
    refine Machine.accounting (C := fun s l => RearmsLast s l ∧ Working i s l)
      (fun s => workLeft s i) _ _ h (fun s l s' hr hc hn => .tail hr hc.1 hn) ?_ hrun
      (Machine.along_and.mpr ⟨hC, hw⟩)
    rintro s ⟨j, act⟩ s' hr ⟨_, hwork⟩ hn
    by_cases hown : ownStep i (j, act) = 0
    · have hkept : workLeft s' i = workLeft s i := by
        by_cases hj : j = i
        · subst hj
          cases next_cases hn with
          | allocated hfree => exact workLeft_allocation hr ⟨rfl, hfree, rfl⟩ j
          | _ => simp [ownStep] at hown
        · exact workLeft_other hr (next_cases hn) (Ne.symm hj)
      rw [hkept, hown]
      omega
    · obtain ⟨rfl, hact⟩ := ownStep_ne_zero hown
      have hpay := workLeft_own hr (hwork hown) hact (next_cases hn)
      exact (Nat.add_le_add_left (ownStep_le j _) _).trans hpay
  have hle := workLeft_le h i
  rw [Machine.weight_mul] at hpaid
  omega

/-! ## No worker is stuck -/

/-- There is storage that no element of the map lives in. -/
theorem exists_unowned (data : AList (fun _ : Fd => Entry)) : ∃ a, ¬ Owns data a := by
  obtain ⟨a, ha⟩ := Infinite.exists_notMem_finset (data.entries.map (fun p => p.2.addr)).toFinset
  refine ⟨a, fun ⟨fd, e, hl, he⟩ => ha ?_⟩
  rw [List.mem_toFinset, List.mem_map]
  exact ⟨⟨fd, e⟩, AList.mem_lookup_iff.mp hl, he⟩

/-- A worker that is not in `epoll_wait` has a statement to execute. -/
theorem exists_next (hinv : OwnInv cfg s) (hw : (s.worker i).pc ≠ .epollWait) :
    ∃ act, (s.next cfg (i, act)).isSome := by
  cases hpc : (s.worker i).pc with
  | epollWait => exact absurd hpc hw
  | loop =>
      refine ⟨.take, ?_⟩
      cases hbatch : (s.worker i).batch with
      | nil => simp [next, take, hpc, hbatch]
      | cons ev rest =>
          obtain ⟨p, hp, _⟩ := (hinv.events i ev (by rw [hbatch]; exact List.mem_cons_self)).entry
          simp [next, take, hpc, hbatch, hp]
  | accept => exact ⟨.accept4 (.error .eagain), by simp [next, accept4, hpc]⟩
  | insert fd c =>
      obtain ⟨a, ha⟩ := exists_unowned s.data
      have howns : owns s.data a = false := by
        rw [← Bool.not_eq_true, owns_iff]
        exact ha
      exact ⟨.insert a, by simp [next, insert, hpc, howns]⟩
  | add fd ptr c => exact ⟨.epollAdd (some .eagain), by simp [next, epollAdd, hpc]⟩
  | handle p f pc =>
      -- a kernel that fails every call has an answer to every statement
      have hfails : ∃ a out, handlerStep pc (s.mem p) (s.worker i).errno a = some out
          ∧ a ≠ .epollCtl none := by
        cases pc with
        | read => exact ⟨.read (.fail .eagain), _, rfl, by simp⟩
        | write => exact ⟨.write (.fail .eagain), _, rfl, by simp⟩
        | readFailRearm | echoedRearm | blockedRearm | writeFailRearm =>
            exact ⟨.epollCtl (some .eagain), _, rfl, by simp⟩
        | _ => exact ⟨.quiet, _, rfl, by simp⟩
      obtain ⟨a, out, hout, ha⟩ := hfails
      refine ⟨.handle a, ?_⟩
      simp only [next, handle, hpc, hout, Option.bind_some]
      split
      · exact absurd rfl ha
      · rfl
  | close p v f cpc =>
      refine ⟨.closeConnection, ?_⟩
      cases cpc <;> simp [next, closeConnection, hpc]

/-- The other worker accepts a connection while this one handles an event. -/
def busy : List (Fin 2 × Act) :=
  [(worker0, .take), (worker1, .take), (worker0, .handle .quiet),
    (worker1, .accept4 (.ok 8)), (worker0, .handle (.read (.data [104, 105]))),
    (worker1, .insert 2), (worker0, .handle .quiet), (worker1, .epollAdd none)]

end TcpServers.Server
