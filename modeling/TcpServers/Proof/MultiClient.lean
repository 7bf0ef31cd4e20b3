import Mathlib.Data.Finset.Prod
import Mathlib.Logic.Equiv.Basic
import Mathlib.Order.Interval.Finset.Nat
import TcpServers.Lib.Ownership
import TcpServers.Lib.Table
import TcpServers.Lib.Wired
import TcpServers.Model.MultiClient

/-!
# What the threads of `multi_client` write

The threads share the table of descriptors and nothing else, and the kernel hands out a
descriptor only while nobody has it: so each thread writes to the connections it has made
itself, one after the other, and never to one of another thread.
-/

namespace TcpServers.MultiClient

open Lib

variable {cfg : Config} {s s' : MultiClient} {l : Label} {t : Nat} {pc pc' : PingPongPc}

/-- `j` messages of round `i`, each as far as its `write()` took it. -/
def Spoken (i j : Nat) (bs : List Byte) : Prop :=
  ∃ ns : List Nat, ns.length = j ∧ (∀ n ∈ ns, 0 < n ∧ n ≤ (msg i).length)
    ∧ bs = ns.flatMap (fun n => (msg i).take n)

theorem spoken_zero (i : Nat) : Spoken i 0 [] := ⟨[], rfl, by simp, rfl⟩

/-- One `write()` more. -/
theorem Spoken.more {i j n : Nat} {bs : List Byte} (h : Spoken i j bs) (hpos : 0 < n)
    (hle : n ≤ (msg i).length) : Spoken i (j + 1) (bs ++ (msg i).take n) := by
  obtain ⟨ns, hlen, hns, rfl⟩ := h
  refine ⟨ns ++ [n], by rw [List.length_append, hlen, List.length_singleton], fun m hm => ?_, ?_⟩
  · rcases List.mem_append.mp hm with hm | hm
    · exact hns m hm
    · rw [List.mem_singleton.mp hm]
      exact ⟨hpos, hle⟩
  · rw [List.flatMap_append, List.flatMap_singleton]

/-- The descriptor a thread has. -/
def sockfd : PingPongPc → Option Fd
  | .connect _ fd | .write _ fd _ | .close _ fd => some fd
  | .socket _ | .returned => none

/-- The rounds in which a thread has made its connection. -/
def reached : PingPongPc → Nat
  | .socket i | .connect i _ => i - 1
  | .write i _ _ | .close i _ => i
  | .returned => rounds

/-- The rounds a thread is done with. -/
def finished : PingPongPc → Nat
  | .socket i | .connect i _ | .write i _ _ | .close i _ => i - 1
  | .returned => rounds

/-- The descriptors a thread has. -/
def heldBy (s : MultiClient) (t : Nat) : List Fd := ((s.thread t).bind sockfd).toList

/-- A descriptor is that of a thread's connection, to which it has written `j` messages. -/
def Talks (s : MultiClient) (t i j : Nat) (fd : Fd) : Prop :=
  ∃ c, s.fdTable fd = some (.connected c) ∧ s.madeBy c = some (t, i) ∧ Spoken i j (s.said c)

/-- What is known where a thread is. -/
def AtOk (s : MultiClient) (t : Nat) : PingPongPc → Prop
  | .socket i => 1 ≤ i ∧ i ≤ rounds
  | .connect i fd => 1 ≤ i ∧ i ≤ rounds ∧ s.fdTable fd = some .unconnected
  | .write i fd j => 1 ≤ i ∧ i ≤ rounds ∧ 1 ≤ j ∧ j ≤ messages ∧ Talks s t i (j - 1) fd
  | .close i fd => 1 ≤ i ∧ i ≤ rounds ∧ Talks s t i messages fd
  | .returned => True

/-- Where a thread is, and what it has behind it. -/
structure ThreadInv (s : MultiClient) (t : Nat) (pc : PingPongPc) : Prop where
  here : AtOk s t pc
  past : ∀ i, 1 ≤ i → i ≤ finished pc → ∃ c, s.madeBy c = some (t, i) ∧ Spoken i messages (s.said c)

/-- How far `main` is with its threads. -/
def MainOk (cfg : Config) (s : MultiClient) : MainPc → Prop
  | .spawn i => i ≤ cfg.numThreads + 1 ∧ ∀ t, (s.thread t).isSome ↔ t < i
  | .join i => (∀ t, (s.thread t).isSome ↔ t ≤ cfg.numThreads)
      ∧ ∀ t < i, t ≤ cfg.numThreads → s.thread t = some .returned
  | .returned => ∀ t ≤ cfg.numThreads, s.thread t = some .returned
  | .exited _ => True

/-- The numbers of the connections. -/
structure ConnInv (s : MultiClient) : Prop where
  made : ∀ c, (s.madeBy c).isSome ↔ c < s.nextConn
  silent : ∀ c, s.nextConn ≤ c → s.said c = []
  once : ∀ c c' p, s.madeBy c = some p → s.madeBy c' = some p → c = c'

/-- The threads, their descriptors and their connections. -/
structure MultiInv (cfg : Config) (s : MultiClient) : Prop where
  threads : ∀ t pc, s.thread t = some pc → t ≤ cfg.numThreads ∧ ThreadInv s t pc
  exclusive : Exclusive (heldBy s) (fun fd => s.fdTable fd = none)
  held : (∀ b, s.main ≠ .exited b) → ∀ fd sock, s.fdTable fd = some sock → ∃ t, fd ∈ heldBy s t
  conns : ConnInv s
  maker : ∀ c t i, s.madeBy c = some (t, i) → ∃ pc, s.thread t = some pc ∧ 1 ≤ i ∧ i ≤ reached pc
  main : MainOk cfg s s.main

theorem multiInv_start (cfg : Config) : MultiInv cfg start where
  threads := by
    intro t pc hpc
    cases hpc
  exclusive := Exclusive.of_empty (fun _ => rfl)
  held := by
    intro _ fd sock hfd
    cases hfd
  conns := ⟨fun c => by simp [start], fun _ _ => rfl, fun c c' p hc => by cases hc⟩
  maker := by
    intro c t i hc
    cases hc
  main := ⟨Nat.zero_le _, fun t => by simp [start]⟩

theorem mem_heldBy {fd : Fd} :
    fd ∈ heldBy s t ↔ ∃ pc, s.thread t = some pc ∧ sockfd pc = some fd := by
  unfold heldBy
  rw [Option.mem_toList, Option.bind_eq_some_iff]

/-- A thread does not see what another does with descriptors and connections of its own. -/
theorem ThreadInv.other (h : ThreadInv s t pc)
    (htable : ∀ fd, sockfd pc = some fd → s'.fdTable fd = s.fdTable fd)
    (hmade : ∀ c i, s.madeBy c = some (t, i) → s'.madeBy c = some (t, i))
    (hsaid : ∀ c i, s.madeBy c = some (t, i) → s'.said c = s.said c) : ThreadInv s' t pc := by
  have htalks : ∀ i j fd, sockfd pc = some fd → Talks s t i j fd → Talks s' t i j fd := by
    intro i j fd hfd htalk
    obtain ⟨c, hc, hmadec, hspoken⟩ := htalk
    refine ⟨c, (htable fd hfd).trans hc, hmade c i hmadec, ?_⟩
    rw [hsaid c i hmadec]
    exact hspoken
  refine ⟨?_, fun i h1 hi => ?_⟩
  · have hhere := h.here
    cases pc with
    | socket i => exact hhere
    | connect i fd => exact ⟨hhere.1, hhere.2.1, (htable fd rfl).trans hhere.2.2⟩
    | write i fd j =>
        obtain ⟨h1, hi, hj1, hj, htalk⟩ := hhere
        exact ⟨h1, hi, hj1, hj, htalks i _ fd rfl htalk⟩
    | close i fd => exact ⟨hhere.1, hhere.2.1, htalks i _ fd rfl hhere.2.2⟩
    | returned => trivial
  · obtain ⟨c, hmadec, hspoken⟩ := h.past i h1 hi
    refine ⟨c, hmade c i hmadec, ?_⟩
    rw [hsaid c i hmadec]
    exact hspoken

/-! ## A statement of a thread -/

/-- A descriptor has one thread. -/
theorem MultiInv.held_unique (h : MultiInv cfg s) {u : Nat} {fd : Fd} (ht : fd ∈ heldBy s t)
    (hu : fd ∈ heldBy s u) : u = t :=
  h.exclusive.unique u t fd hu ht

/--
**A thread moves on.** It answers for itself, for its descriptor and its connections; what
the other threads and `main` have is as it was.
-/
theorem MultiInv.moves (h : MultiInv cfg s) (hpc : s.thread t = some pc) (hlive : pc ≠ .returned)
    (hthread : s'.thread = Function.update s.thread t (some pc')) (hmain : s'.main = s.main)
    (hown : ThreadInv s' t pc')
    (hexclusive : Exclusive (heldBy s') (fun fd => s'.fdTable fd = none))
    (htable : ∀ fd, sockfd pc ≠ some fd → s.fdTable fd ≠ none → s'.fdTable fd = s.fdTable fd)
    (hheld : ∀ fd, s'.fdTable fd ≠ none → sockfd pc' = some fd
      ∨ (sockfd pc ≠ some fd ∧ s.fdTable fd ≠ none))
    (hconns : ConnInv s') (hmade : ∀ c p, s.madeBy c = some p → s'.madeBy c = some p)
    (hsaid : ∀ c u i, u ≠ t → s.madeBy c = some (u, i) → s'.said c = s.said c)
    (hmaker : ∀ c u i, s'.madeBy c = some (u, i) →
      s.madeBy c = some (u, i) ∨ (u = t ∧ 1 ≤ i ∧ i ≤ reached pc'))
    (hreached : reached pc ≤ reached pc') : MultiInv cfg s' := by
  have hself : s'.thread t = some pc' := by rw [hthread, Function.update_self]
  have hothers : ∀ u, u ≠ t → s'.thread u = s.thread u := by
    intro u hu
    rw [hthread, Function.update_of_ne hu]
  have hsome : ∀ u, (s'.thread u).isSome ↔ (s.thread u).isSome := by
    intro u
    by_cases hu : u = t
    · subst hu
      simp [hself, hpc]
    · rw [hothers u hu]
  have hdone : ∀ u, s.thread u = some .returned → s'.thread u = some .returned := by
    intro u hu
    rw [hothers u (fun heq => hlive (by rw [heq, hpc] at hu; exact Option.some.inj hu))]
    exact hu
  refine ⟨fun u pcu hpcu => ?_, hexclusive, fun halive fd sock hfd => ?_, hconns,
    fun c u i hc => ?_, ?_⟩
  · by_cases hu : u = t
    · subst hu
      rw [hself] at hpcu
      cases hpcu
      exact ⟨(h.threads u pc hpc).1, hown⟩
    · rw [hothers u hu] at hpcu
      obtain ⟨hle, hinv⟩ := h.threads u pcu hpcu
      refine ⟨hle, hinv.other (fun fd hfd => htable fd ?_ ?_) (fun c i => hmade c _)
        (fun c i => hsaid c u i hu)⟩
      · exact fun hown => hu (h.held_unique (mem_heldBy.mpr ⟨pc, hpc, hown⟩)
          (mem_heldBy.mpr ⟨pcu, hpcu, hfd⟩))
      · exact h.exclusive.taken u fd (mem_heldBy.mpr ⟨pcu, hpcu, hfd⟩)
  · rcases hheld fd (by rw [hfd]; simp) with hnew | ⟨hnot, hold⟩
    · exact ⟨t, mem_heldBy.mpr ⟨pc', hself, hnew⟩⟩
    · obtain ⟨sock', hsock'⟩ := Option.ne_none_iff_exists'.mp hold
      obtain ⟨u, hu⟩ := h.held (by rw [← hmain]; exact halive) fd sock' hsock'
      obtain ⟨pcu, hpcu, hfdu⟩ := mem_heldBy.mp hu
      have hne : u ≠ t := by
        rintro rfl
        rw [hpc] at hpcu
        cases hpcu
        exact hnot hfdu
      exact ⟨u, mem_heldBy.mpr ⟨pcu, (hothers u hne).trans hpcu, hfdu⟩⟩
  · by_cases hu : u = t
    · subst hu
      refine ⟨pc', hself, ?_⟩
      rcases hmaker c u i hc with hold | ⟨_, h1, hi⟩
      · obtain ⟨pcu, hpcu, h1, hi⟩ := h.maker c u i hold
        rw [hpc] at hpcu
        cases hpcu
        exact ⟨h1, Nat.le_trans hi hreached⟩
      · exact ⟨h1, hi⟩
    · rw [hothers u hu]
      rcases hmaker c u i hc with hold | ⟨heq, _⟩
      · exact h.maker c u i hold
      · exact absurd heq hu
  · have hok := h.main
    rw [hmain]
    cases hm : s.main with
    | spawn i =>
        rw [hm] at hok
        exact ⟨hok.1, fun u => (hsome u).trans (hok.2 u)⟩
    | join i =>
        rw [hm] at hok
        exact ⟨fun u => (hsome u).trans (hok.1 u), fun u hu hle => hdone u (hok.2 u hu hle)⟩
    | returned =>
        rw [hm] at hok
        exact fun u hu => hdone u (hok u hu)
    | exited b => trivial

theorem heldBy_of_thread {o : Option PingPongPc} (hpc : s.thread t = o) :
    heldBy s t = (o.bind sockfd).toList := by
  unfold heldBy
  rw [hpc]

theorem heldBy_other {u : Nat} (hthread : s'.thread = Function.update s.thread t (some pc'))
    (hu : u ≠ t) : heldBy s' u = heldBy s u := by
  unfold heldBy
  rw [hthread, Function.update_of_ne hu]

theorem heldBy_self (hthread : s'.thread = Function.update s.thread t (some pc')) :
    heldBy s' t = (sockfd pc').toList := by
  unfold heldBy
  rw [hthread, Function.update_self]
  rfl

/-- `socket()`: a descriptor that nobody has. -/
theorem multiInv_socket (h : MultiInv cfg s) {i : Nat} {fd : Fd}
    (hpc : s.thread t = some (.socket i)) (hfresh : s.fdTable fd = none) :
    MultiInv cfg { s with
      fdTable := Function.update s.fdTable fd (some .unconnected)
      thread := Function.update s.thread t (some (.connect i fd)) } := by
  obtain ⟨_, hinv⟩ := h.threads t _ hpc
  refine h.moves hpc (by simp) rfl rfl ⟨?_, hinv.past⟩ ?_ (fun f _ hf => ?_) (fun f hf => ?_)
    ⟨h.conns.made, h.conns.silent, h.conns.once⟩ (fun _ _ hc => hc) (fun _ _ _ _ _ => rfl)
    (fun _ _ _ hc => Or.inl hc) (Nat.le_refl _)
  · exact ⟨hinv.here.1, hinv.here.2, Function.update_self _ _ _⟩
  · refine h.exclusive.take (i := t) (t := fd) (fun u hu => heldBy_other rfl hu) ?_
      (h.exclusive.not_held hfresh) ?_ (fun f hf => (Table.none_of_insert hf).2)
    · rw [heldBy_self rfl, heldBy_of_thread hpc]
      exact List.Perm.refl _
    · simp
  · exact Function.update_of_ne (fun heq => hf (by rw [heq, hfresh])) _ _
  · rcases Table.of_update_ne_none hf with ⟨rfl, _⟩ | ⟨_, hold⟩
    · exact Or.inl rfl
    · exact Or.inr ⟨by simp [sockfd], hold⟩

/-- `connect()`: the next number, and nothing said yet. -/
theorem multiInv_connected (h : MultiInv cfg s) {i : Nat} {fd : Fd}
    (hpc : s.thread t = some (.connect i fd)) :
    MultiInv cfg { s with
      fdTable := Function.update s.fdTable fd (some (.connected s.nextConn))
      nextConn := s.nextConn + 1
      madeBy := Function.update s.madeBy s.nextConn (some (t, i))
      thread := Function.update s.thread t (some (.write i fd 1)) } := by
  obtain ⟨_, hinv⟩ := h.threads t _ hpc
  obtain ⟨h1, hi, _⟩ := hinv.here
  have hunmade : s.madeBy s.nextConn = none := by
    have hnot := (h.conns.made s.nextConn).not.mpr (Nat.lt_irrefl _)
    rwa [Option.not_isSome_iff_eq_none] at hnot
  have hkept : ∀ c p, s.madeBy c = some p →
      Function.update s.madeBy s.nextConn (some (t, i)) c = some p := by
    intro c p hc
    exact Table.kept hc (by rw [hunmade]; simp)
  -- no connection of this thread is of this round yet
  have hnew : ∀ c, s.madeBy c ≠ some (t, i) := by
    intro c hc
    obtain ⟨pcu, hpcu, _, hreached⟩ := h.maker c t i hc
    rw [hpc] at hpcu
    cases hpcu
    simp only [reached] at hreached
    omega
  refine h.moves hpc (by simp) rfl rfl ⟨?_, fun k hk1 hk => ?_⟩ ?_ (fun f hf _ => ?_)
    (fun f hf => ?_) ⟨fun c => ?_, fun c hc => ?_, fun c c' p hc hc' => ?_⟩ hkept
    (fun _ _ _ _ _ => rfl) (fun c u k hc => ?_) (Nat.sub_le _ _)
  · refine ⟨h1, hi, Nat.le_refl _, by decide, s.nextConn, Function.update_self _ _ _,
      Function.update_self _ _ _, ?_⟩
    rw [h.conns.silent s.nextConn (Nat.le_refl _)]
    exact spoken_zero i
  · obtain ⟨c, hc, hspoken⟩ := hinv.past k hk1 hk
    exact ⟨c, hkept c _ hc, hspoken⟩
  · refine h.exclusive.release (i := t) (fun u hu => heldBy_other rfl hu) ?_
      (fun f hf => Or.inl (Table.none_of_insert hf).2)
    rw [heldBy_self rfl, heldBy_of_thread hpc]
    exact List.Sublist.refl _
  · exact Function.update_of_ne (fun heq => hf (by rw [heq]; rfl)) _ _
  · rcases Table.of_update_ne_none hf with ⟨rfl, _⟩ | ⟨hfd, hold⟩
    · exact Or.inl rfl
    · exact Or.inr ⟨fun heq => hfd (Option.some.inj heq).symm, hold⟩
  · by_cases hc : c = s.nextConn
    · simp [hc]
    · simp only [Function.update_of_ne hc, h.conns.made c]
      omega
  · exact h.conns.silent c (by dsimp only at hc; omega)
  · rcases Table.of_insert hc with ⟨hn, hp⟩ | ⟨_, hc⟩
    · rcases Table.of_insert hc' with ⟨hn', _⟩ | ⟨_, hc'⟩
      · rw [hn, hn']
      · rw [hp] at hc'
        exact absurd hc' (hnew c')
    · rcases Table.of_insert hc' with ⟨_, hp⟩ | ⟨_, hc'⟩
      · rw [hp] at hc
        exact absurd hc (hnew c)
      · exact h.conns.once c c' p hc hc'
  · rcases Table.of_insert hc with ⟨_, hp⟩ | ⟨_, hc⟩
    · obtain ⟨rfl, rfl⟩ := Prod.mk.inj hp
      exact Or.inr ⟨rfl, h1, Nat.le_refl _⟩
    · exact Or.inl hc

/-- `write()`: one message more on the thread's connection. -/
theorem multiInv_wrote (h : MultiInv cfg s) {i j c n : Nat} {fd : Fd}
    (hpc : s.thread t = some (.write i fd j)) (hopen : s.fdTable fd = some (.connected c))
    (hpos : 0 < n) (hle : n ≤ (msg i).length) :
    MultiInv cfg { s with
      said := Function.update s.said c (s.said c ++ (msg i).take n)
      thread := Function.update s.thread t
        (some (if j < messages then .write i fd (j + 1) else .close i fd)) } := by
  obtain ⟨_, hinv⟩ := h.threads t _ hpc
  obtain ⟨h1, hi, hj1, hj, c', hc', hmade, hspoken⟩ := hinv.here
  rw [hopen] at hc'
  cases hc'
  have hmore := hspoken.more hpos hle
  have hfd : sockfd (if j < messages then PingPongPc.write i fd (j + 1) else .close i fd)
      = some fd := by
    split <;> rfl
  have hother : ∀ d k, (t, i) ≠ k → s.madeBy d = some k →
      Function.update s.said c (s.said c ++ (msg i).take n) d = s.said d := by
    intro d k hne hd
    refine Function.update_of_ne (fun heq => hne ?_) _ _
    rw [heq, hmade] at hd
    exact Option.some.inj hd
  refine h.moves hpc (by simp) rfl rfl ⟨?_, fun k hk1 hk => ?_⟩ ?_ (fun _ _ _ => rfl)
    (fun f hf => ?_) ⟨h.conns.made, fun d hd => ?_, h.conns.once⟩ (fun _ _ hd => hd)
    (fun d u k hu hd => hother d _ (fun heq => hu (Prod.mk.inj heq).1.symm) hd)
    (fun _ _ _ hd => Or.inl hd) ?_
  · split
    · rename_i hlt
      refine ⟨h1, hi, Nat.le_add_left 1 j, hlt, c, hopen, hmade, ?_⟩
      dsimp only
      rw [Function.update_self, show j + 1 - 1 = j - 1 + 1 by omega]
      exact hmore
    · rename_i hlt
      refine ⟨h1, hi, c, hopen, hmade, ?_⟩
      dsimp only
      rw [Function.update_self, show messages = j - 1 + 1 by omega]
      exact hmore
  · have hk' : k ≤ i - 1 := by
      split at hk <;> exact hk
    obtain ⟨d, hd, hspokend⟩ := hinv.past k hk1 hk'
    refine ⟨d, hd, ?_⟩
    dsimp only
    rw [hother d _ (fun heq => by have := (Prod.mk.inj heq).2; omega) hd]
    exact hspokend
  · refine h.exclusive.release (i := t) (fun u hu => heldBy_other rfl hu) ?_ (fun f hf => Or.inl hf)
    rw [heldBy_self rfl, heldBy_of_thread hpc, hfd]
    exact List.Sublist.refl _
  · by_cases hf' : f = fd
    · exact Or.inl (by rw [hf', hfd])
    · exact Or.inr ⟨fun heq => hf' (Option.some.inj heq).symm, hf⟩
  · have hlt := (h.conns.made c).mp (by rw [hmade]; rfl)
    dsimp only at hd ⊢
    rw [Function.update_of_ne (by omega)]
    exact h.conns.silent d hd
  · split <;> exact Nat.le_refl _

/-- `close()`: the round is over. -/
theorem multiInv_closed (h : MultiInv cfg s) {i : Nat} {fd : Fd}
    (hpc : s.thread t = some (.close i fd)) :
    MultiInv cfg { s with
      fdTable := Function.update s.fdTable fd none
      thread := Function.update s.thread t
        (some (if i < rounds then .socket (i + 1) else .returned)) } := by
  obtain ⟨_, hinv⟩ := h.threads t _ hpc
  obtain ⟨h1, hi, c, hopen, hmade, hspoken⟩ := hinv.here
  have hnone : sockfd (if i < rounds then PingPongPc.socket (i + 1) else .returned) = none := by
    split <;> rfl
  have hfinished : finished (if i < rounds then PingPongPc.socket (i + 1) else .returned) = i := by
    split
    · rfl
    · rename_i hge
      exact Nat.le_antisymm (Nat.not_lt.mp hge) hi
  refine h.moves hpc (by simp) rfl rfl ⟨?_, fun k hk1 hk => ?_⟩ ?_ (fun f hf _ => ?_)
    (fun f hf => ?_) ⟨h.conns.made, h.conns.silent, h.conns.once⟩ (fun _ _ hd => hd)
    (fun _ _ _ _ _ => rfl) (fun _ _ _ hd => Or.inl hd) ?_
  · split
    · rename_i hlt
      exact ⟨Nat.le_add_left 1 i, hlt⟩
    · trivial
  · rw [hfinished] at hk
    by_cases hlast : k = i
    · rw [hlast]
      exact ⟨c, hmade, hspoken⟩
    · exact hinv.past k hk1 (by simp only [finished]; omega)
  · refine h.exclusive.release (i := t) (fun u hu => heldBy_other rfl hu) ?_ (fun f hf => ?_)
    · rw [heldBy_self rfl, hnone]
      exact List.nil_sublist _
    · by_cases hfd : f = fd
      · refine Or.inr ⟨?_, ?_⟩
        · rw [heldBy_of_thread hpc, hfd]
          exact List.mem_cons_self
        · rw [heldBy_self rfl, hnone]
          exact List.not_mem_nil
      · dsimp only at hf
        rw [Function.update_of_ne hfd] at hf
        exact Or.inl hf
  · exact Function.update_of_ne (fun heq => hf (by rw [heq]; rfl)) _ _
  · rcases Table.of_update_ne_none hf with ⟨_, hno⟩ | ⟨hfd, hold⟩
    · exact absurd rfl hno
    · exact Or.inr ⟨fun heq => hfd (Option.some.inj heq).symm, hold⟩
  · split
    · exact Nat.le_refl _
    · exact hi

/-! ## Runs -/

/-- `exit()`, whatever the thread had just done. -/
theorem multiInv_exited (h : MultiInv cfg s) {failed : Bool} {table : Fd → Option ClientSocket}
    (htable : table = s.fdTable ∨ ∃ fd, s.fdTable fd = none
      ∧ table = Function.update s.fdTable fd (some .unconnected)) :
    MultiInv cfg { s with main := .exited failed, fdTable := table } := by
  have hsame : ∀ f, s.fdTable f ≠ none → table f = s.fdTable f := by
    intro f hf
    rcases htable with rfl | ⟨fd, hfresh, rfl⟩
    · rfl
    · exact Function.update_of_ne (fun heq => hf (by rw [heq, hfresh])) _ _
  refine ⟨fun u pcu hpcu => ?_, ?_, fun halive => absurd rfl (halive failed),
    ⟨h.conns.made, h.conns.silent, h.conns.once⟩, h.maker, trivial⟩
  · obtain ⟨hle, hinv⟩ := h.threads u pcu hpcu
    refine ⟨hle, hinv.other (fun f hf => hsame f ?_) (fun _ _ hc => hc) (fun _ _ _ => rfl)⟩
    exact h.exclusive.taken u f (mem_heldBy.mpr ⟨pcu, hpcu, hf⟩)
  · refine h.exclusive.release (i := 0) (fun _ _ => rfl) (List.Sublist.refl _)
      (fun f hf => Or.inl (Decidable.by_contra fun hopen => ?_))
    exact hopen ((hsame f hopen).symm.trans hf)

/-- `main` starts a thread. -/
theorem multiInv_spawned (h : MultiInv cfg s) {i : Nat} (hmain : s.main = .spawn i)
    (hi : i ≤ cfg.numThreads) :
    MultiInv cfg { s with
      main := .spawn (i + 1)
      thread := Function.update s.thread i (some (.socket 1)) } := by
  have hok := h.main
  rw [hmain] at hok
  have hnew : s.thread i = none := by
    have hnot := (hok.2 i).not.mpr (Nat.lt_irrefl i)
    rwa [Option.not_isSome_iff_eq_none] at hnot
  have hheld : ∀ u, heldBy { s with
      main := .spawn (i + 1)
      thread := Function.update s.thread i (some (.socket 1)) } u = heldBy s u := by
    intro u
    by_cases hu : u = i
    · rw [hu, heldBy_self rfl, heldBy_of_thread hnew]
      rfl
    · exact heldBy_other rfl hu
  refine ⟨fun u pcu hpcu => ?_, ?_, fun _ fd sock hfd => ?_,
    ⟨h.conns.made, h.conns.silent, h.conns.once⟩, fun c u k hc => ?_, Nat.succ_le_succ hi,
    fun u => ?_⟩
  · rcases Table.of_insert hpcu with ⟨rfl, rfl⟩ | ⟨_, hpcu⟩
    · exact ⟨hi, ⟨Nat.le_refl 1, by decide⟩, fun k hk1 hk => absurd hk (by simp [finished]; omega)⟩
    · obtain ⟨hle, hinv⟩ := h.threads u pcu hpcu
      exact ⟨hle, hinv.other (fun _ _ => rfl) (fun _ _ hc => hc) (fun _ _ _ => rfl)⟩
  · refine h.exclusive.release (i := i) (fun u _ => hheld u) ?_ (fun f hf => Or.inl hf)
    rw [hheld i]
  · obtain ⟨u, hu⟩ := h.held (by rw [hmain]; simp) fd sock hfd
    exact ⟨u, by rw [hheld u]; exact hu⟩
  · obtain ⟨pcu, hpcu, hreached⟩ := h.maker c u k hc
    exact ⟨pcu, Table.kept hpcu (by rw [hnew]; simp), hreached⟩
  · by_cases hu : u = i
    · subst hu
      simp
    · simp only [Function.update_of_ne hu]
      rw [hok.2 u]
      omega

/-- `main` gets on with its loops. -/
theorem MultiInv.of_main (h : MultiInv cfg s) {pc : MainPc} (hrunning : ∀ b, s.main ≠ .exited b)
    (hok : MainOk cfg s pc) : MultiInv cfg { s with main := pc } where
  threads := by
    intro t pct hpct
    obtain ⟨hle, hinv⟩ := h.threads t pct hpct
    exact ⟨hle, hinv.other (fun _ _ => rfl) (fun _ _ hc => hc) (fun _ _ _ => rfl)⟩
  exclusive := h.exclusive
  held := fun _ => h.held hrunning
  conns := ⟨h.conns.made, h.conns.silent, h.conns.once⟩
  maker := h.maker
  main := by cases pc <;> exact hok

/-- **Kept by every step.** -/
theorem multiInv_step (h : MultiInv cfg s) (hs : Step cfg s l s') : MultiInv cfg s' := by
  have hok := h.main
  cases hs with
  | spawned hmain hi => exact multiInv_spawned h hmain hi
  | @started i hmain hi =>
      rw [hmain] at hok
      refine h.of_main (by rw [hmain]; simp) ⟨fun t => (hok.2 t).trans ?_, fun t ht => ?_⟩
      · have hle := hok.1
        omega
      · exact absurd ht (Nat.not_lt_zero t)
  | @joined i hmain hi hdone =>
      rw [hmain] at hok
      refine h.of_main (by rw [hmain]; simp) ⟨hok.1, fun t ht hle => ?_⟩
      rcases Nat.lt_succ_iff_lt_or_eq.mp ht with hlt | rfl
      · exact hok.2 t hlt hle
      · exact hdone
  | @returned i hmain hi =>
      rw [hmain] at hok
      exact h.of_main (by rw [hmain]; simp) (fun t ht => hok.2 t (by omega) ht)
  | exited _ htable => exact multiInv_exited h htable
  | socket hpc hfd hfresh => exact multiInv_socket h hpc hfresh
  | connected hpc => exact multiInv_connected h hpc
  | wrote hpc hopen hpos hle => exact multiInv_wrote h hpc hopen hpos hle
  | closed hpc => exact multiInv_closed h hpc

theorem multiInv_reachable {C : MultiClient → Label → Prop}
    (h : (machine cfg).ReachableVia C s) : MultiInv cfg s := by
  refine Machine.ReachableVia.invariant ?_ ?_ h
  · intro s hinit
    subst hinit
    exact multiInv_start cfg
  · intro s l s' _ hi _ hs
    exact multiInv_step hi (next_cases hs)

/-! ## What was written -/

/-- A connection has what its thread has written in its round. -/
theorem MultiInv.spoken (h : MultiInv cfg s) {c i : Nat} (hc : s.madeBy c = some (t, i))
    (hpc : s.thread t = some pc) :
    ∃ j, j ≤ messages ∧ Spoken i j (s.said c) ∧ (i ≤ finished pc → j = messages) := by
  obtain ⟨_, hinv⟩ := h.threads t pc hpc
  obtain ⟨pcu, hpcu, h1, hi⟩ := h.maker c t i hc
  obtain rfl : pc = pcu := Option.some.inj (hpc.symm.trans hpcu)
  by_cases hlast : i ≤ finished pc
  · obtain ⟨c', hc', hspoken⟩ := hinv.past i h1 hlast
    obtain rfl := h.conns.once c c' _ hc hc'
    exact ⟨messages, Nat.le_refl _, hspoken, fun _ => rfl⟩
  · -- the round the thread is in
    have hhere := hinv.here
    have hround : ∀ k j fd, i ≤ k → ¬ i ≤ k - 1 → Talks s t k j fd → Spoken i j (s.said c) := by
      intro k j fd hle hnot htalk
      obtain ⟨c', _, hc', hspoken⟩ := htalk
      obtain rfl : k = i := by omega
      obtain rfl := h.conns.once c c' _ hc hc'
      exact hspoken
    cases pc with
    | socket k | connect k fd | returned => exact absurd hi hlast
    | write k fd j =>
        obtain ⟨_, _, hj1, hj, htalk⟩ := hhere
        exact ⟨j - 1, by omega, hround k _ fd hi hlast htalk, fun hle => absurd hle hlast⟩
    | close k fd =>
        exact ⟨messages, Nat.le_refl _, hround k _ fd hi hlast hhere.2.2, fun _ => rfl⟩

theorem reached_le (h : ThreadInv s t pc) : reached pc ≤ rounds := by
  have hhere := h.here
  cases pc with
  | socket i => exact Nat.le_trans (Nat.sub_le _ _) hhere.2
  | connect i fd => exact Nat.le_trans (Nat.sub_le _ _) hhere.2.1
  | write i fd j => exact hhere.2.1
  | close i fd => exact hhere.2.1
  | returned => exact Nat.le_refl _

/-- Who made a connection, and what was written to it. -/
theorem MultiInv.connection (h : MultiInv cfg s) {c : Nat} (hc : c < s.nextConn) :
    ∃ t i j, s.madeBy c = some (t, i) ∧ t ≤ cfg.numThreads ∧ 1 ≤ i ∧ i ≤ rounds ∧ j ≤ messages
      ∧ Spoken i j (s.said c) ∧ (s.main = .returned → j = messages) := by
  obtain ⟨⟨t, i⟩, hmade⟩ := Option.isSome_iff_exists.mp ((h.conns.made c).mpr hc)
  obtain ⟨pc, hpc, h1, hi⟩ := h.maker c t i hmade
  obtain ⟨hle, hinv⟩ := h.threads t pc hpc
  obtain ⟨j, hj, hspoken, hdone⟩ := h.spoken hmade hpc
  have hi4 := Nat.le_trans hi (reached_le hinv)
  refine ⟨t, i, j, hmade, hle, h1, hi4, hj, hspoken, fun hret => hdone ?_⟩
  have hok := h.main
  rw [hret] at hok
  obtain rfl : pc = .returned := Option.some.inj (hpc.symm.trans (hok t hle))
  exact hi4

/-- Where `main` has returned, every thread has made all its connections. -/
theorem MultiInv.all_made (h : MultiInv cfg s) (hret : s.main = .returned) :
    s.nextConn = 4 * (cfg.numThreads + 1) := by
  have hok := h.main
  rw [hret] at hok
  have hcard : (Finset.range s.nextConn).card
      = (Finset.range (cfg.numThreads + 1) ×ˢ Finset.Icc 1 rounds).card := by
    refine Finset.card_bij (fun c _ => (s.madeBy c).getD (0, 0)) ?_ ?_ ?_
    · intro c hc
      obtain ⟨t, i, _, hmade, hle, h1, hi, _⟩ := h.connection (Finset.mem_range.mp hc)
      rw [hmade, Option.getD_some, Finset.mem_product, Finset.mem_range, Finset.mem_Icc]
      exact ⟨Nat.lt_succ_of_le hle, h1, hi⟩
    · intro c hc c' hc' heq
      obtain ⟨t, i, _, hmade, _⟩ := h.connection (Finset.mem_range.mp hc)
      obtain ⟨t', i', _, hmade', _⟩ := h.connection (Finset.mem_range.mp hc')
      rw [hmade, hmade', Option.getD_some, Option.getD_some] at heq
      rw [← heq] at hmade'
      exact h.conns.once c c' _ hmade hmade'
    · rintro ⟨t, i⟩ hmem
      rw [Finset.mem_product, Finset.mem_range, Finset.mem_Icc] at hmem
      obtain ⟨ht, h1, hi⟩ := hmem
      have hpc := hok t (Nat.le_of_lt_succ ht)
      obtain ⟨c, hmade, _⟩ := (h.threads t _ hpc).2.past i h1 hi
      refine ⟨c, Finset.mem_range.mpr ((h.conns.made c).mp (by rw [hmade]; rfl)), ?_⟩
      rw [hmade]
      rfl
  rw [Finset.card_range, Finset.card_product, Finset.card_range, Nat.card_Icc] at hcard
  unfold rounds at hcard
  omega

/--
**What `multi_client` writes.** For any number of threads, in any interleaving and whatever
the kernel answers: a connection belongs to one round of one thread, and what was written to
it is at most ten of the messages of that round, each as far as its `write()` took it. While
the process runs, an open connection is that of the thread that has its descriptor. Where
`main` has returned, each thread has made its four connections, each has all ten messages,
and no descriptor is left open.
-/
theorem threads_ping_pong (h : (machine cfg).Reachable s) :
    (∀ c < s.nextConn, ∃ t i j, s.madeBy c = some (t, i) ∧ t ≤ cfg.numThreads ∧ 1 ≤ i ∧ i ≤ 4
        ∧ j ≤ 10 ∧ Spoken i j (s.said c) ∧ (s.main = .returned → j = 10))
      ∧ (∀ c c' p, s.madeBy c = some p → s.madeBy c' = some p → c = c')
      ∧ ((∀ b, s.main ≠ .exited b) → ∀ fd c, s.fdTable fd = some (.connected c) →
          ∃ t pc i, s.thread t = some pc ∧ sockfd pc = some fd ∧ s.madeBy c = some (t, i))
      ∧ (s.main = .returned → s.nextConn = 4 * (cfg.numThreads + 1)
          ∧ ∀ fd, s.fdTable fd = none) := by
  have hinv := multiInv_reachable h
  refine ⟨fun c hc => hinv.connection hc, hinv.conns.once, fun halive fd c hopen => ?_,
    fun hret => ⟨hinv.all_made hret, fun fd => ?_⟩⟩
  · obtain ⟨t, ht⟩ := hinv.held halive fd _ hopen
    obtain ⟨pc, hpc, hfd⟩ := mem_heldBy.mp ht
    have hhere := (hinv.threads t pc hpc).2.here
    have hround : ∀ i j, Talks s t i j fd → ∃ k, s.madeBy c = some (t, k) := by
      intro i j htalk
      obtain ⟨c', hc', hmade, _⟩ := htalk
      rw [hopen] at hc'
      cases hc'
      exact ⟨i, hmade⟩
    have hmade : ∃ k, s.madeBy c = some (t, k) := by
      cases pc with
      | socket | returned => cases hfd
      | connect i f =>
          cases hfd
          have hun : s.fdTable fd = some .unconnected := hhere.2.2
          rw [hopen] at hun
          cases hun
      | write i f j =>
          cases hfd
          exact hround i _ hhere.2.2.2.2
      | close i f =>
          cases hfd
          exact hround i _ hhere.2.2
    obtain ⟨k, hk⟩ := hmade
    exact ⟨t, pc, k, hpc, hfd, hk⟩
  · cases hfd : s.fdTable fd with
    | none => rfl
    | some sock =>
        obtain ⟨t, ht⟩ := hinv.held (by rw [hret]; simp) fd sock hfd
        obtain ⟨pc, hpc, hsock⟩ := mem_heldBy.mp ht
        have hok := hinv.main
        rw [hret] at hok
        rw [hok t (hinv.threads t pc hpc).1] at hpc
        cases hpc
        cases hsock

/-- All that thread `t` does when every call succeeds and every message is taken whole. -/
def allRounds (t : Nat) (fd : Fd) : List Label :=
  (List.range rounds).flatMap fun i =>
    [.thread t (.socket fd), .thread t (.connect true)]
      ++ List.replicate messages (.thread t (.write (.wrote (msg (i + 1)).length)))
      ++ [.thread t .close]

/-- Two threads, statement by statement in turns. -/
def inTurns : List Label :=
  [.spawn, .spawn, .spawn]
    ++ (List.zipWith (fun a b => [a, b]) (allRounds 0 3) (allRounds 1 4)).flatten
    ++ [.join, .join, .join]

theorem threads_ping_pong_inTurns :
    ∃ s : MultiClient, s.main = .returned ∧ s.nextConn = 8 ∧ s.madeBy 5 = some (1, 3)
      ∧ Spoken 3 10 (s.said 5) ∧ ∀ fd, s.fdTable fd = none := by
  have hval : ((machine ⟨1, true⟩).run start inTurns).map
      (fun s => (s.main, s.madeBy 5)) = some (.returned, some (1, 3)) := by decide +kernel
  obtain ⟨s, hrun, heq⟩ := Option.map_eq_some_iff.mp hval
  obtain ⟨hret, hmade⟩ := Prod.mk.inj heq
  have hr : (machine ⟨1, true⟩).Reachable s := .of_run (.init rfl) Machine.along_true hrun
  obtain ⟨hconns, _, _, hall⟩ := threads_ping_pong hr
  obtain ⟨hcount, hclosed⟩ := hall hret
  obtain ⟨t, i, j, hmade', _, _, _, _, hspoken, hten⟩ := hconns 5 (by rw [hcount]; decide)
  rw [hmade] at hmade'
  cases hmade'
  rw [hten hret] at hspoken
  exact ⟨s, hret, hcount, hmade, hspoken, hclosed⟩

/-! ## At the ends of the wires -/

/-- What a step says; the connections are handed out by the listener in this order. -/
def talks (order : Equiv.Perm Nat) (s : MultiClient) (l : Label) : List (Talk Nat Byte) :=
  (s.utters l).map fun p => ⟨order p.1, [], p.2⟩

/-- `said` grows by what a step says. -/
theorem said_step (hs : Step cfg s l s') (order : Equiv.Perm Nat) (c : Nat) :
    s'.said c = s.said c ++ Talk.saidOn (order c) (talks order s l) := by
  cases hs with
  | @wrote t i j d n fd hpc hopen =>
      simp only [talks, utters, hpc, hopen, List.map_cons, List.map_nil, Talk.saidOn,
        List.flatMap_cons, List.flatMap_nil, List.append_nil, EmbeddingLike.apply_eq_iff_eq]
      by_cases hd : c = d
      · rw [hd, Function.update_self, if_pos rfl]
      · rw [Function.update_of_ne hd, if_neg (Ne.symm hd), List.append_nil]
  | @exited t a failed table hsilent =>
      have hnone : s.utters (.thread t a) = [] := by
        unfold utters
        split
        · rename_i n heq
          cases heq
          exact absurd rfl (hsilent n)
        · rfl
      rw [talks, hnone]
      exact (List.append_nil _).symm
  | _ => exact (List.append_nil _).symm

/-- Nothing is read from a connection. -/
theorem heard_nothing (order : Equiv.Perm Nat) (k : Nat) :
    Talk.heardOn k (talks order s l) = [] := by
  refine List.flatMap_eq_nil_iff.mpr (fun x hx => ?_)
  obtain ⟨p, _, rfl⟩ := List.mem_map.mp hx
  exact ite_self _

theorem recorded (cfg : Config) (order : Equiv.Perm Nat) :
    Recorded (machine cfg) (talks order) (fun t k => t.said (order.symm k)) (fun _ _ => []) where
  init := by
    rintro t rfl k
    exact ⟨rfl, rfl⟩
  step := by
    intro t l t' hn k
    have hsaid := said_step (next_cases hn) order (order.symm k)
    rw [Equiv.apply_symm_apply] at hsaid
    exact ⟨hsaid, by rw [heard_nothing]; rfl⟩

/-- A server and `multi_client`: either takes a step. -/
def system {σ α : Type} (M : Machine σ α)
    (traffic : σ → α → List (FamilyAct Nat Fd (PipeAct Byte))) (cfg : Config)
    (order : Equiv.Perm Nat) : Machine (σ × MultiClient × (Nat → Wire Byte)) (α ⊕ Label) :=
  wired M traffic (machine cfg) (talks order)

end TcpServers.MultiClient
