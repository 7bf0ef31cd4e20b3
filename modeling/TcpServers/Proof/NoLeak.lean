import TcpServers.Proof.OwnershipStep

/-!
# No connection's descriptor is lost

An open connection is an element of the map, or some worker has its number in a local
variable and is about to put it into the map or to close it. It is one of the two, and
one worker, also where `epoll_ctl` refuses to add it. What can spoil it is a number that
was read back from storage taken meanwhile.
-/

namespace TcpServers.Server

open Lib ConnectionDataManager

variable {ι : Type} {cfg : Config ι} {s s' : Server ι} {i j : ι} {act : Act}

/-- The worker has the descriptor of a connection that is not in the map. -/
def Carries (fd : Fd) (c : Nat) : WorkerPc → Prop
  | .insert fd' c' => fd' = fd ∧ c' = c
  | .close _ fd' file .del => fd' = fd ∧ file = .conn c
  | .close _ fd' file .close => fd' = fd ∧ file = .conn c
  | _ => False

/-- An open connection is in the map, or in a worker's hand. -/
def Accounted (s : Server ι) : Prop :=
  ∀ fd c, s.fdTable fd = some (.conn c) →
    (∃ a, s.data.lookup fd = some ⟨a, .conn c⟩) ∨ ∃ i, Carries fd c (s.worker i).pc

/-- What is in a worker's hand is open and not in the map. -/
theorem OwnInv.carries (h : OwnInv cfg s) {fd : Fd} {c : Nat} (hi : Carries fd c (s.worker i).pc) :
    s.fdTable fd = some (.conn c) ∧ s.data.lookup fd = none
      ∧ atWork (s.worker i).pc = some c := by
  have hok := h.pcs i
  cases hpc : (s.worker i).pc with
  | insert fd' c' =>
      rw [hpc] at hi hok
      obtain ⟨rfl, rfl⟩ := hi
      exact ⟨hok.1, hok.2.1, rfl⟩
  | close p v f cpc =>
      rw [hpc] at hi hok
      cases cpc with
      | del | close =>
          obtain ⟨rfl, rfl⟩ := hi
          obtain ⟨c', _, hopen, hl, _⟩ := hok
          exact ⟨hopen, hl, rfl⟩
      | _ => cases hi
  | _ =>
      rw [hpc] at hi
      cases hi

/-- `remove` leaves the descriptor to the worker. -/
theorem carries_removed (h : OwnInv cfg s) {p : Addr} {v : Fd} {f : File}
    (hpc : (s.worker i).pc = .close p v f .remove)
    (hpc' : (s'.worker i).pc = .close p v f .del) {fd : Fd} {e : Entry} {c : Nat}
    (hv : s.connFd cfg p v = fd) (hl : s.data.lookup fd = some e) (he : e.file = .conn c) :
    Carries fd c (s'.worker i).pc := by
  obtain ⟨d, rfl, hat⟩ := h.removing hpc hv hl
  cases he
  rw [h.connFd_eq hpc] at hv
  have hfile : f = .conn c := by
    rw [hpc] at hat
    cases f with
    | listener ep => cases hat
    | conn d => cases hat; rfl
  rw [hpc']
  exact ⟨hv, hfile⟩

variable [DecidableEq ι]

/-- A worker keeps a descriptor in its hand, puts it into the map, or closes it. -/
theorem carries_step (h : OwnInv cfg s) (hs : Step cfg s i act s') {fd : Fd} {c : Nat}
    (hi : Carries fd c (s.worker i).pc) :
    Carries fd c (s'.worker i).pc ∨ (∃ a, s'.data.lookup fd = some ⟨a, .conn c⟩)
      ∨ s'.fdTable fd = none := by
  obtain ⟨hopen, hl, _⟩ := h.carries hi
  cases hs with
  | @inserted a fd' c' hpc _ _ =>
      rw [hpc] at hi
      obtain ⟨rfl, rfl⟩ := hi
      exact Or.inr (Or.inl ⟨a, AList.lookup_insert s.data⟩)
  | insertedNull hpc _ hold =>
      rw [hpc] at hi
      obtain ⟨rfl, rfl⟩ := hi
      exact absurd hl hold
  | @closeDel p v f hpc =>
      rw [hpc] at hi
      refine Or.inl ?_
      simp only [setPc_worker, Function.update_self]
      exact hi
  | @closeClose p v f hpc =>
      have hv := h.connFd_eq hpc
      rw [hpc] at hi
      obtain ⟨rfl, rfl⟩ := hi
      refine Or.inr (Or.inr ?_)
      simp only [setPc_fdTable, closeFd_fdTable, hv, Function.update_self]
  | allocated => exact Or.inl hi
  | deliver hpc _ _ _ | wake hpc | endBatch hpc _ | take hpc _ _ | accepted hpc _ _
  | acceptFailed hpc | added hpc _ _ | addFailed hpc | handled hpc _ _ | rearmed hpc _ _ _
  | closeNegative hpc _ | closeTest hpc _ | closeRemove hpc | closeStore hpc =>
      rw [hpc] at hi
      cases hi

theorem accounted_step (h : OwnInv cfg s) (ha : Accounted s) (hs : Step cfg s i act s') :
    Accounted s' := by
  intro fd c hopen
  rcases step_fdTable_back hs hopen with hold | ⟨rfl, hc, _, _, _⟩
  · rcases ha fd c hold with ⟨a, hl⟩ | ⟨j, hj⟩
    · rcases step_lookup hs hl with hstay | ⟨p, v, f, hpc, hv, hpc'⟩
      · exact Or.inl ⟨a, hstay⟩
      · exact Or.inr ⟨i, carries_removed h hpc hpc' hv hl rfl⟩
    · by_cases hji : j = i
      · subst hji
        rcases carries_step h hs hj with hkeep | hin | hclosed
        · exact Or.inr ⟨j, hkeep⟩
        · exact Or.inl hin
        · rw [hopen] at hclosed
          cases hclosed
      · exact Or.inr ⟨j, by rw [step_worker hs hji]; exact hj⟩
  · cases hs with
    | accepted =>
        cases hc
        exact Or.inr ⟨i, by simp [Carries]⟩

theorem accounted_reachable {C : Server ι → ι × Act → Prop}
    (hC : ∀ s l, C s l → cfg.passing = .byReference → NoReuse s l)
    (h : (machine cfg).ReachableVia C s) : Accounted s := by
  refine Machine.ReachableVia.invariant ?_ ?_ h
  · intro s hinit fd c hopen
    subst hinit
    obtain ⟨ep, _, _, hf⟩ := start_fdTable.mp hopen
    cases hf
  · rintro s ⟨i, act⟩ s' hr ha hc hn
    exact accounted_step (ownInv_reachable hC hr) ha (next_cases hn)

/--
**No descriptor of a connection is lost**, as long as no allocation takes storage that a
worker in `closeConnection` still refers to. In every state the workers can reach that way,
also where `epoll_ctl` failed, an open connection is either an element of the map and in no
worker's hand, or not in the map and in the hand of one worker, which will put it there or
close it. And what is in the map, or in a hand, is open.
-/
theorem no_descriptor_lost (h : (machine cfg).ReachableVia NoReuse s) (fd : Fd) (c : Nat) :
    (s.fdTable fd = some (.conn c) ↔
      (∃ a, s.data.lookup fd = some ⟨a, .conn c⟩) ∨ ∃ i, Carries fd c (s.worker i).pc)
      ∧ (∀ i, Carries fd c (s.worker i).pc →
          s.data.lookup fd = none ∧ ∀ j, Carries fd c (s.worker j).pc → j = i) := by
  have hinv : OwnInv cfg s := ownInv_reachable (fun _ _ hc _ => hc) h
  refine ⟨⟨accounted_reachable (fun _ _ hc _ => hc) h fd c, ?_⟩, fun i hi => ?_⟩
  · rintro (⟨a, hl⟩ | ⟨i, hi⟩)
    · exact (hinv.tables.entry fd _ hl).1
    · exact (hinv.carries hi).1
  · obtain ⟨_, hl, hat⟩ := hinv.carries hi
    exact ⟨hl, fun j hj => hinv.atWork_unique (hinv.carries hj).2.2 hat⟩

/-- `epoll_ctl` refuses to add the connection, and the worker goes on. -/
def addRefused : List (Fin 2 × Act) :=
  [(worker0, .deliver 3 { epollin := true }), (worker0, .wake), (worker0, .take),
    (worker0, .accept4 (.ok 7)), (worker0, .insert 1),
    (worker0, .epollAdd (some (.other 28))), (worker0, .take)]

theorem no_descriptor_lost_addRefused :
    ∃ s : Server (Fin 2), s.fdTable 7 = some (.conn 0) ∧ s.interest 0 7 = none
      ∧ ∃ a, s.data.lookup 7 = some ⟨a, .conn 0⟩ := by
  have hval : ((machine (shared 2 .byReference)).run (start (shared 2 .byReference))
      addRefused).map (fun s => (s.fdTable 7, s.interest 0 7, (s.worker 0).pc, (s.worker 1).pc))
      = some (some (.conn 0), none, .epollWait, .epollWait) := by decide +kernel
  obtain ⟨s, hrun, heq⟩ := Option.map_eq_some_iff.mp hval
  simp only [Prod.mk.injEq] at heq
  obtain ⟨hopen, hreg, h0, h1⟩ := heq
  have hr : (machine (shared 2 .byReference)).ReachableVia NoReuse s :=
    .of_run (.init rfl) (by decide +kernel) hrun
  refine ⟨s, hopen, hreg, ?_⟩
  rcases (no_descriptor_lost hr 7 0).1.mp hopen with hin | ⟨i, hi⟩
  · exact hin
  · have hwait : ∀ i, (s.worker i).pc = .epollWait := Fin.forall_fin_two.mpr ⟨h0, h1⟩
    rw [hwait i] at hi
    cases hi

end TcpServers.Server
