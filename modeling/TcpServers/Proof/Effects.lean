import TcpServers.Lib.Table
import TcpServers.Model.Server

/-!
# What a step can change

One lemma for each part of the state: under which statements of the worker that
moves a fact about that part can become false. Everything below about several
workers is derived from these, and none of it looks at the steps again to see
what they leave alone.
-/

namespace TcpServers.Server

open Lib

variable {ι : Type} {cfg : Config ι} {s s' : Server ι} {i : ι} {act : Act}

/-- The storage that `remove` has freed and the rest of `closeConnection` still reads. -/
def dangling : WorkerPc → Option Addr
  | .close p _ _ .del => some p
  | .close p _ _ .close => some p
  | .close p _ _ .store => some p
  | _ => none

/-- The handler leaves `conn_fd_` alone. -/
theorem handlerStep_connFd {pc : HandlerPc} {cd : ConnectionData} {errno : Errno} {a : Answer}
    {out : HandlerOut} (h : HandlerStep cd errno pc a out) : out.data.connFd = cd.connFd := by
  cases h <;> rfl

/-- Where a worker is once it has looked at an event. -/
theorem dispatched_cases (cfg : Config ι) (s : Server ι) (i : ι) (ev : Event) (p : Addr) :
    s.dispatched cfg i ev p = .accept
      ∨ s.dispatched cfg i ev p = .loop
      ∨ (dispatch ev.flags = .close
          ∧ s.dispatched cfg i ev p = .close p (s.mem p).connFd ev.file .test)
      ∨ (dispatch ev.flags = .handle ∧ s.dispatched cfg i ev p = .handle p ev.file .testRead) := by
  unfold dispatched
  split
  · exact Or.inl rfl
  · split
    · rename_i hd
      exact Or.inr (Or.inr (Or.inl ⟨hd, rfl⟩))
    · exact Or.inr (Or.inl rfl)
    · rename_i hd
      exact Or.inr (Or.inr (Or.inr ⟨hd, rfl⟩))

variable [DecidableEq ι]

theorem step_worker (h : Step cfg s i act s') {j : ι} (hj : j ≠ i) : s'.worker j = s.worker j := by
  cases h with
  | allocated => rfl
  | _ => exact Function.update_of_ne hj _ _

/-- An element leaves the map through `remove` only. -/
theorem step_lookup (h : Step cfg s i act s') {fd : Fd} {e : Entry}
    (hl : s.data.lookup fd = some e) :
    s'.data.lookup fd = some e
      ∨ ∃ p v f, (s.worker i).pc = .close p v f .remove ∧ s.connFd cfg p v = fd
        ∧ (s'.worker i).pc = .close p v f .del := by
  cases h with
  | @inserted a fd' c hpc _ hnew =>
      have hne : fd ≠ fd' := by
        intro heq
        subst heq
        rw [hnew] at hl
        cases hl
      exact Or.inl ((AList.lookup_insert_ne hne).trans hl)
  | @closeRemove p v f hpc =>
      by_cases hfd : fd = s.connFd cfg p v
      · exact Or.inr ⟨p, v, f, hpc, hfd.symm, by simp⟩
      · exact Or.inl ((AList.lookup_erase_ne hfd).trans hl)
  | _ => exact Or.inl hl

/-- An element enters the map through `insert` only. -/
theorem step_lookup_back (h : Step cfg s i act s') {fd : Fd} {e : Entry}
    (hl : s'.data.lookup fd = some e) :
    s.data.lookup fd = some e
      ∨ ∃ a c, act = .insert a ∧ (s.worker i).pc = .insert fd c ∧ e = ⟨a, .conn c⟩
        ∧ s.data.lookup fd = none ∧ ¬ ConnectionDataManager.Owns s.data a
        ∧ s'.mem = Function.update s.mem a (.new fd) := by
  cases h with
  | @inserted a fd' c hpc hfree hnew =>
      by_cases hfd : fd = fd'
      · subst hfd
        have he : some (⟨a, .conn c⟩ : Entry) = some e := (AList.lookup_insert s.data).symm.trans hl
        exact Or.inr ⟨a, c, rfl, hpc, (Option.some.inj he).symm, hnew, hfree, rfl⟩
      · exact Or.inl ((AList.lookup_insert_ne hfd).symm.trans hl)
  | @closeRemove p v f hpc =>
      by_cases hfd : fd = s.connFd cfg p v
      · subst hfd
        exact absurd ((AList.lookup_erase _ s.data).symm.trans hl) (by simp)
      · exact Or.inl ((AList.lookup_erase_ne hfd).symm.trans hl)
  | _ => exact Or.inl hl

/-- A descriptor is closed in `closeConnection` only. -/
theorem step_fdTable (h : Step cfg s i act s') {fd : Fd} {f : File}
    (hf : s.fdTable fd = some f) :
    s'.fdTable fd = some f
      ∨ ((∃ p v g, (s.worker i).pc = .close p v g .close ∧ s.connFd cfg p v = fd)
        ∧ s'.fdTable fd = none ∧ ∀ ep, s'.interest ep fd = none) := by
  cases h with
  | @accepted fd' _ _ hfresh =>
      have hne : fd ≠ fd' := by
        intro heq
        subst heq
        rw [hfresh] at hf
        cases hf
      exact Or.inl ((Function.update_of_ne hne _ _).trans hf)
  | @closeClose p v g hpc =>
      by_cases hfd : fd = s.connFd cfg p v
      · refine Or.inr ⟨⟨p, v, g, hpc, hfd.symm⟩, ?_, fun ep => ?_⟩
        · rw [hfd]
          exact Function.update_self _ _ _
        · rw [hfd]
          exact if_pos rfl
      · exact Or.inl ((Function.update_of_ne hfd _ _).trans hf)
  | _ => exact Or.inl hf

/-- A descriptor is opened by `accept4` only, for a connection with a new number. -/
theorem step_fdTable_back (h : Step cfg s i act s') {fd : Fd} {f : File}
    (hf : s'.fdTable fd = some f) :
    s.fdTable fd = some f
      ∨ (act = .accept4 (.ok fd) ∧ f = .conn s.nextConn ∧ s.fdTable fd = none ∧ 0 ≤ fd
        ∧ s'.nextConn = s.nextConn + 1) := by
  cases h with
  | @accepted fd' _ hnonneg hfresh =>
      rcases Table.of_insert hf with ⟨rfl, hnew⟩ | ⟨_, hf⟩
      · exact Or.inr ⟨rfl, hnew, hfresh, hnonneg, rfl⟩
      · exact Or.inl hf
  | closeClose => exact Or.inl (Table.of_remove hf).2
  | _ => exact Or.inl hf

/-- A descriptor enters an epoll instance through `EPOLL_CTL_ADD` only. -/
theorem step_interest_none (h : Step cfg s i act s') {ep : Ep} {fd : Fd}
    (hn : s.interest ep fd = none) :
    s'.interest ep fd = none
      ∨ (∃ ptr c, (s.worker i).pc = .add fd ptr c ∧ s.fdTable fd ≠ none ∧ ep = cfg.epollFd i) := by
  cases h with
  | @deliver fd' flags reg file hpc hreg hfile harmed =>
      refine Or.inl ?_
      by_cases heq : ep = cfg.epollFd i ∧ fd = fd'
      · obtain ⟨rfl, rfl⟩ := heq
        rw [hreg] at hn
        cases hn
      · simp only [setWorker_interest, setInterest_interest, if_neg heq]
        exact hn
  | @rearmed ptr file pc out isRead reg hpc hstep hrearm hreg =>
      refine Or.inl ?_
      by_cases heq : ep = cfg.epollFd i ∧ fd = (s.mem ptr).connFd
      · obtain ⟨rfl, rfl⟩ := heq
        rw [hreg] at hn
        cases hn
      · simp only [setInterest_interest, if_neg heq]
        exact hn
  | @added fd' ptr c hpc hnew hopen =>
      by_cases heq : ep = cfg.epollFd i ∧ fd = fd'
      · obtain ⟨rfl, rfl⟩ := heq
        exact Or.inr ⟨ptr, c, hpc, hopen, rfl⟩
      · refine Or.inl ?_
        simp only [setPc_interest, setInterest_interest, if_neg heq]
        exact hn
  | closeDel hpc =>
      refine Or.inl ?_
      simp only [setPc_interest, setInterest_interest]
      split
      · rfl
      · exact hn
  | closeClose hpc =>
      refine Or.inl ?_
      simp only [setPc_interest, closeFd_interest]
      split
      · rfl
      · exact hn
  | _ => exact Or.inl hn

/-- The ways a registration can come to be what it is. -/
theorem step_interest_back (h : Step cfg s i act s') {ep : Ep} {fd : Fd} {reg : Registration}
    (hr : s'.interest ep fd = some reg) :
    s.interest ep fd = some reg
      ∨ (∃ old flags, act = .deliver fd flags ∧ (s.worker i).pc = .epollWait
          ∧ ep = cfg.epollFd i ∧ s.interest ep fd = some old ∧ old.armed = true
          ∧ reg = { old with armed := !old.mask.epolloneshot })
      ∨ (∃ ptr c, act = .epollAdd none ∧ (s.worker i).pc = .add fd ptr c ∧ ep = cfg.epollFd i
          ∧ reg = ⟨acceptMask, ptr, true⟩)
      ∨ (∃ ptr file pc isRead, act = .handle (.epollCtl none)
          ∧ (s.worker i).pc = .handle ptr file pc ∧ pc.rearm? = some isRead
          ∧ ep = cfg.epollFd i ∧ fd = (s.mem ptr).connFd ∧ s.interest ep fd ≠ none
          ∧ reg = ⟨rearmMask isRead, some ptr, true⟩) := by
  cases h with
  | @deliver fd' flags old file hpc hreg hfile harmed =>
      simp only [setWorker_interest, setInterest_interest] at hr
      split at hr
      · rename_i heq
        obtain ⟨rfl, rfl⟩ := heq
        cases hr
        exact Or.inr (Or.inl ⟨old, flags, rfl, hpc, rfl, hreg, harmed, rfl⟩)
      · exact Or.inl hr
  | @added fd' ptr c hpc hnew hopen =>
      simp only [setPc_interest, setInterest_interest] at hr
      split at hr
      · rename_i heq
        obtain ⟨rfl, rfl⟩ := heq
        cases hr
        exact Or.inr (Or.inr (Or.inl ⟨ptr, c, rfl, hpc, rfl, rfl⟩))
      · exact Or.inl hr
  | @rearmed ptr file pc out isRead old hpc hstep hrearm hreg =>
      simp only [setInterest_interest] at hr
      split at hr
      · rename_i heq
        obtain ⟨rfl, rfl⟩ := heq
        cases hr
        exact Or.inr (Or.inr (Or.inr ⟨ptr, file, pc, isRead, rfl, hpc, hrearm, rfl, rfl,
          by rw [hreg]; simp, rfl⟩))
      · exact Or.inl hr
  | closeDel hpc =>
      simp only [setPc_interest, setInterest_interest] at hr
      split at hr
      · cases hr
      · exact Or.inl hr
  | closeClose hpc =>
      simp only [setPc_interest, closeFd_interest] at hr
      split at hr
      · cases hr
      · exact Or.inl hr
  | _ => exact Or.inl hr

/-- An armed registration stays armed until its event is delivered, or its descriptor closed. -/
theorem step_interest (h : Step cfg s i act s') {ep : Ep} {fd : Fd} {reg : Registration}
    (hr : s.interest ep fd = some reg) (ha : reg.armed = true) :
    (∃ reg', s'.interest ep fd = some reg' ∧ reg'.armed = true)
      ∨ (∃ flags, act = .deliver fd flags ∧ ep = cfg.epollFd i)
      ∨ ∃ p v f cpc, (s.worker i).pc = .close p v f cpc ∧ cpc ≠ .store
          ∧ s.connFd cfg p v = fd := by
  cases h with
  | @deliver fd' flags old file hpc hreg hfile harmed =>
      by_cases heq : ep = cfg.epollFd i ∧ fd = fd'
      · obtain ⟨rfl, rfl⟩ := heq
        exact Or.inr (Or.inl ⟨flags, rfl, rfl⟩)
      · refine Or.inl ⟨reg, ?_, ha⟩
        simp only [setWorker_interest, setInterest_interest, if_neg heq]
        exact hr
  | @added fd' ptr c hpc hnew hopen =>
      refine Or.inl ?_
      simp only [setPc_interest, setInterest_interest]
      split
      · exact ⟨_, rfl, rfl⟩
      · exact ⟨reg, hr, ha⟩
  | @rearmed ptr file pc out isRead old hpc hstep hrearm hreg =>
      refine Or.inl ?_
      simp only [setInterest_interest]
      split
      · exact ⟨_, rfl, rfl⟩
      · exact ⟨reg, hr, ha⟩
  | @closeDel p v f hpc =>
      by_cases heq : ep = cfg.epollFd i ∧ fd = s.connFd cfg p v
      · exact Or.inr (Or.inr ⟨p, v, f, _, hpc, by simp, heq.2.symm⟩)
      · refine Or.inl ⟨reg, ?_, ha⟩
        simp only [setPc_interest, setInterest_interest, if_neg heq]
        exact hr
  | @closeClose p v f hpc =>
      by_cases hfd : fd = s.connFd cfg p v
      · exact Or.inr (Or.inr ⟨p, v, f, _, hpc, by simp, hfd.symm⟩)
      · refine Or.inl ⟨reg, ?_, ha⟩
        simp only [setPc_interest, closeFd_interest, if_neg hfd]
        exact hr
  | _ => exact Or.inl ⟨reg, hr, ha⟩

/--
Data are written by what gets their storage, by the handler, and by `closeConnection`'s last
statement.
-/
theorem step_mem (h : Step cfg s i act s') (a : Addr) :
    s'.mem a = s.mem a
      ∨ act.takes = some a
      ∨ (∃ f pc an out, (s.worker i).pc = .handle a f pc
          ∧ HandlerStep (s.mem a) (s.worker i).errno pc an out ∧ s'.mem a = out.data)
      ∨ (cfg.passing = .byReference ∧ (∃ v f, (s.worker i).pc = .close a v f .store)
          ∧ s'.mem a = { s.mem a with connFd := -1 }) := by
  cases h with
  | @inserted a' fd c _ _ _ | @insertedNull a' fd c _ _ _ =>
      by_cases ha : a = a'
      · exact Or.inr (Or.inl (by rw [ha]; rfl))
      · exact Or.inl (Function.update_of_ne ha _ _)
  | @allocated a' contents _ =>
      by_cases ha : a = a'
      · exact Or.inr (Or.inl (by rw [ha]; rfl))
      · exact Or.inl (Function.update_of_ne ha _ _)
  | @handled p f pc an out hpc hstep _ | @rearmed p f pc out _ _ hpc hstep _ _ =>
      by_cases ha : a = p
      · subst ha
        exact Or.inr (Or.inr (Or.inl ⟨f, pc, _, out, hpc, hstep, Function.update_self _ _ _⟩))
      · exact Or.inl (Function.update_of_ne ha _ _)
  | @closeStore p v f hpc =>
      cases hp : cfg.passing with
      | byValue => exact Or.inl (by simp only [setPc_mem, storeClosed_mem, hp])
      | byReference =>
          by_cases ha : a = p
          · subst ha
            refine Or.inr (Or.inr (Or.inr ⟨rfl, ⟨v, f, hpc⟩, ?_⟩))
            simp only [setPc_mem, storeClosed_mem, hp, Function.update_self]
          · refine Or.inl ?_
            simp only [setPc_mem, storeClosed_mem, hp, Function.update_of_ne ha]
  | _ => exact Or.inl rfl

/-- The flag is written by what gets its storage, and by the handler. -/
theorem step_ready (h : Step cfg s i act s') (a : Addr) :
    (s'.mem a).readyForWrite = (s.mem a).readyForWrite
      ∨ act.takes = some a
      ∨ ∃ f pc, (s.worker i).pc = .handle a f pc := by
  rcases step_mem h a with heq | ha | ⟨f, pc, _, _, hpc, _⟩ | ⟨_, _, heq⟩
  · exact Or.inl (by rw [heq])
  · exact Or.inr (Or.inl ha)
  · exact Or.inr (Or.inr ⟨f, pc, hpc⟩)
  · exact Or.inl (by rw [heq])

/-- An end of stream is noted at a read of the connection, with nothing left to write. -/
theorem step_eof (h : Step cfg s i act s') {c : Nat} (he : s'.eof c = true) :
    s.eof c = true
      ∨ ∃ p, act = .handle (.read (.data [])) ∧ (s.worker i).pc = .handle p (.conn c) .read
          ∧ (s'.worker i).pc = .handle p (.conn c) .testWrite := by
  cases h with
  | @handled p f pc a out hpc hstep _ =>
      simp only [handled_eof, noteEnd] at he
      cases f with
      | listener ep => exact Or.inl he
      | conn d =>
          by_cases hsaw : sawEnd (s.mem p) pc a = true
          · simp only [hsaw, if_true] at he
            by_cases hcd : c = d
            · subst hcd
              simp only [sawEnd, decide_eq_true_eq] at hsaw
              obtain ⟨rfl, rfl, _⟩ := hsaw
              refine Or.inr ⟨p, rfl, hpc, ?_⟩
              cases hstep with
              | endOfStream => simp [afterHandler]
              | chunk hpos => exact absurd hpos (by simp)
            · rw [Function.update_of_ne hcd] at he
              exact Or.inl he
          · simp only [hsaw] at he
            exact Or.inl he
  | @rearmed p f pc out _ _ hpc hstep _ _ =>
      refine Or.inl ?_
      cases f with
      | listener ep => exact he
      | conn d => simpa [noteEnd, sawEnd] using he
  | _ => exact Or.inl he

/--
`conn_fd_` is written by what gets its storage, and through the reference by
`closeConnection`.
-/
theorem step_connFd (h : Step cfg s i act s') (a : Addr) :
    (s'.mem a).connFd = (s.mem a).connFd
      ∨ act.takes = some a
      ∨ (cfg.passing = .byReference ∧ ∃ v f, (s.worker i).pc = .close a v f .store) := by
  rcases step_mem h a with heq | ha | ⟨f, pc, an, out, _, hstep, heq⟩ | ⟨hp, hpc, _⟩
  · exact Or.inl (by rw [heq])
  · exact Or.inr (Or.inl ha)
  · exact Or.inl (by rw [heq, handlerStep_connFd hstep])
  · exact Or.inr (Or.inr ⟨hp, hpc⟩)

/-- Storage is owned by the map from `insert` on. -/
theorem step_owns (h : Step cfg s i act s') {a : Addr}
    (ho : ConnectionDataManager.Owns s'.data a) :
    ConnectionDataManager.Owns s.data a ∨ act = .insert a := by
  obtain ⟨fd, e, hl, rfl⟩ := ho
  rcases step_lookup_back h hl with hold | ⟨a, c, rfl, _, rfl, _⟩
  · exact Or.inl ⟨fd, e, hold, rfl⟩
  · exact Or.inr rfl

/-- An allocation gets storage where no element of the map lives. -/
theorem step_takes_free {a : Addr} (h : Step cfg s i act s') (ha : act.takes = some a) :
    ¬ ConnectionDataManager.Owns s.data a := by
  cases h with
  | inserted _ hfree _ | insertedNull _ hfree _ | allocated hfree =>
      cases ha
      exact hfree
  | _ => cases ha

/-- A connection's count of closes goes up when its open descriptor is closed. -/
theorem step_closes (h : Step cfg s i act s') (c : Nat) :
    s'.closes c = s.closes c
      ∨ (∃ p v g, (s.worker i).pc = .close p v g .close
          ∧ s.fdTable (s.connFd cfg p v) = some (.conn c)
          ∧ s'.fdTable (s.connFd cfg p v) = none ∧ s'.closes c = s.closes c + 1) := by
  cases h with
  | @closeClose p v g hpc =>
      cases hd : s.fdTable (s.connFd cfg p v) with
      | none => exact Or.inl (by simp only [setPc_closes, closeFd_closes, hd])
      | some f =>
          cases f with
          | listener ep => exact Or.inl (by simp only [setPc_closes, closeFd_closes, hd])
          | conn d =>
              by_cases hc : c = d
              · subst hc
                exact Or.inr ⟨p, v, g, hpc, hd, by simp, by simp [hd]⟩
              · refine Or.inl ?_
                simp only [setPc_closes, closeFd_closes, hd]
                exact Function.update_of_ne hc _ _
  | _ => exact Or.inl rfl

/-- A reference to freed storage comes from `remove`. -/
theorem step_dangling (h : Step cfg s i act s') {p : Addr}
    (hd : dangling (s'.worker i).pc = some p) :
    dangling (s.worker i).pc = some p ∨ ∃ v f, (s.worker i).pc = .close p v f .remove := by
  cases h with
  | @take ev rest q hpc hbatch hptr =>
      simp only [setWorker_worker, Function.update_self] at hd
      rcases dispatched_cases cfg s i ev q with heq | heq | ⟨_, heq⟩ | ⟨_, heq⟩ <;>
        rw [heq] at hd <;> cases hd
  | @handled ptr file pc a out _ _ _ | @rearmed ptr file pc out _ _ _ _ _ _ =>
      cases hout : out.pc <;> simp [hout, afterHandler, dangling] at hd
  | @closeRemove q v f hpc =>
      simp only [setPc_worker, Function.update_self, dangling, Option.some.injEq] at hd
      subst hd
      exact Or.inr ⟨v, f, hpc⟩
  | closeDel hpc | closeClose hpc =>
      refine Or.inl ?_
      rw [hpc]
      simpa [dangling] using hd
  | deliver hpc _ _ _ =>
      simp only [setWorker_worker, Function.update_self, hpc, dangling] at hd
      cases hd
  | allocated => exact Or.inl hd
  | _ => simp [dangling] at hd

/-- Only `accept4` uses up a number. -/
theorem step_nextConn (h : Step cfg s i act s') : s.nextConn ≤ s'.nextConn := by
  cases h with
  | accepted => exact Nat.le_succ _
  | _ => exact Nat.le_refl _

/-! ## Into the handler and on -/

/-- What a statement of the handler does to the data it works on, and to its worker. -/
structure HandlerEffect (s s' : Server ι) (i : ι) (act : Act) (p : Addr) (f : File)
    (pc : HandlerPc) (a : Answer) (out : HandlerOut) : Prop where
  act_eq : act = .handle a
  step : HandlerStep (s.mem p) (s.worker i).errno pc a out
  mem : s'.mem p = out.data
  worker : s'.worker i = { s.worker i with pc := afterHandler p f out.pc, errno := out.errno }
  data : s'.data = s.data

omit [DecidableEq ι] in
/-- The answer to a statement says what becomes of it. -/
theorem HandlerEffect.out_unique {p : Addr} {f : File} {pc : HandlerPc} {a a' : Answer}
    {out out' : HandlerOut} (h : HandlerEffect s s' i act p f pc a out)
    (h' : HandlerEffect s s' i act p f pc a' out') : out = out' := by
  cases h.act_eq.symm.trans h'.act_eq
  exact Option.some.inj ((handlerStep_of h.step).symm.trans (handlerStep_of h'.step))

/-- An allocation writes to storage that nobody has. -/
structure Allocation (s s' : Server ι) (act : Act) (q : Addr) (contents : ConnectionData) :
    Prop where
  act_eq : act = .allocate q contents
  free : ¬ ConnectionDataManager.Owns s.data q
  next : s' = s.setMem q contents

variable {q : Addr} {cd : ConnectionData}

namespace Allocation

omit [DecidableEq ι] in
theorem worker (h : Allocation s s' act q cd) : s'.worker = s.worker := by
  rw [h.next]
  rfl

omit [DecidableEq ι] in
theorem mem (h : Allocation s s' act q cd) {p : Addr}
    (hp : ConnectionDataManager.Owns s.data p) : s'.mem p = s.mem p := by
  rw [h.next]
  refine Function.update_of_ne (fun heq => ?_) cd s.mem
  subst heq
  exact h.free hp

end Allocation

/--
**From a statement of the handler** the worker goes on in the handler, unless it is no
statement of it that is executed.
-/
theorem step_handle (h : Step cfg s i act s') {p : Addr} {f : File} {pc : HandlerPc}
    (hpc : (s.worker i).pc = .handle p f pc) :
    (∃ a out, HandlerEffect s s' i act p f pc a out) ∨ ∃ q cd, Allocation s s' act q cd := by
  cases h with
  | @handled _ _ _ a out hpc' hstep _ =>
      rw [hpc] at hpc'
      cases hpc'
      refine Or.inl ⟨a, out, rfl, hstep, ?_, ?_, rfl⟩
      · exact Function.update_self _ _ _
      · exact Function.update_self _ _ _
  | @rearmed _ _ _ out _ _ hpc' hstep _ _ =>
      rw [hpc] at hpc'
      cases hpc'
      refine Or.inl ⟨_, out, rfl, hstep, ?_, ?_, rfl⟩
      · exact Function.update_self _ _ _
      · exact Function.update_self _ _ _
  | allocated hfree => exact Or.inr ⟨_, _, rfl, hfree, rfl⟩
  | take hpc' _ _ | deliver hpc' _ _ _ | wake hpc' | endBatch hpc' _ | accepted hpc' _ _
  | acceptFailed hpc' | inserted hpc' _ _ | insertedNull hpc' _ _ | added hpc' _ _
  | addFailed hpc' | closeNegative hpc' _ | closeTest hpc' _ | closeRemove hpc'
  | closeDel hpc' | closeClose hpc' | closeStore hpc' =>
      rw [hpc] at hpc'
      cases hpc'

/-- **To a statement of the handler** a worker comes from its batch, or from another one. -/
theorem step_to_handle (h : Step cfg s i act s') {p : Addr} {f : File} {pc : HandlerPc}
    (hpc : (s'.worker i).pc = .handle p f pc) :
    (∃ ev ∈ (s.worker i).batch, ev.ptr = some p ∧ ev.file = f ∧ dispatch ev.flags = .handle
        ∧ pc = .testRead ∧ s'.mem = s.mem ∧ (s'.worker i).errno = (s.worker i).errno)
      ∨ (∃ pc₀ a out, (s.worker i).pc = .handle p f pc₀
          ∧ HandlerEffect s s' i act p f pc₀ a out ∧ out.pc = some pc)
      ∨ ∃ q cd, Allocation s s' act q cd := by
  have hfrom : ∀ q g pc₀, (s.worker i).pc = .handle q g pc₀ →
      (∃ pc₀ a out, (s.worker i).pc = .handle p f pc₀
        ∧ HandlerEffect s s' i act p f pc₀ a out ∧ out.pc = some pc)
        ∨ ∃ q cd, Allocation s s' act q cd := by
    intro q g pc₀ hold
    rcases step_handle h hold with ⟨a, out, heff⟩ | halloc
    case inr => exact Or.inr halloc
    rw [heff.worker] at hpc
    cases hout : out.pc with
    | none =>
        rw [hout] at hpc
        cases hpc
    | some pc' =>
        rw [hout] at hpc
        cases hpc
        exact Or.inl ⟨pc₀, a, out, hold, heff, hout⟩
  cases h with
  | @take ev rest q _ hbatch hptr =>
      refine Or.inl ⟨ev, by rw [hbatch]; exact List.mem_cons_self, ?_⟩
      simp only [setWorker_worker, Function.update_self] at hpc
      rcases dispatched_cases cfg s i ev q with heq | heq | ⟨_, heq⟩ | ⟨hd, heq⟩
      · rw [heq] at hpc
        cases hpc
      · rw [heq] at hpc
        cases hpc
      · rw [heq] at hpc
        cases hpc
      · rw [heq] at hpc
        cases hpc
        refine ⟨hptr, rfl, hd, rfl, rfl, ?_⟩
        rw [setWorker_worker, Function.update_self]
  | handled hpc' _ _ | rearmed hpc' _ _ _ => exact Or.inr (hfrom _ _ _ hpc')
  | deliver hpc' _ _ _ =>
      rw [setWorker_worker, Function.update_self, hpc'] at hpc
      cases hpc
  | allocated hfree => exact Or.inr (Or.inr ⟨_, _, rfl, hfree, rfl⟩)
  | _ => simp at hpc

end TcpServers.Server
