import TcpServers.Model.Select

/-!
# What the select server echoes

The loop over a readable client writes a chunk back once and reads on, however much
of it was accepted. The rest of a chunk is gone with the next read, so a later chunk
that is echoed leaves a gap. Nothing is wrong until then: a connection on which a
write fell short, and nothing is accepted any more, has been echoed a prefix.
-/

namespace TcpServers.SelectServer

open Lib

variable {cfg : Config} {s s' : SelectServer} {l : Label}

/-- The client and the length of the chunk `write()` is called with. -/
def writing : SelectPc → Option (Fd × Nat)
  | .write i rlen => some (i, rlen)
  | _ => none

/--
`write()` accepts bytes of a chunk only on a connection on which every chunk before
it was accepted in full.
-/
def NothingSkipped (s : SelectServer) : Label → Prop
  | .write (.wrote n) => ∀ w ∈ writing s.pc, ∀ c ∈ s.fdTable w.1, 0 < n →
      (s.sent c).length + w.2 = (s.received c).length
  | _ => True

instance (s : SelectServer) : (l : Label) → Decidable (NothingSkipped s l)
  | .write (.wrote n) => inferInstanceAs (Decidable (∀ w ∈ writing s.pc, ∀ c ∈ s.fdTable w.1,
      0 < n → (s.sent c).length + w.2 = (s.received c).length))
  | .write (.fail _) | .select _ _ | .selectFailed | .scan | .accept4 _ | .read _ | .log
  | .close => isTrue trivial

/-- The chunk in the buffer, and what came before it. -/
structure ChunkInv (s : SelectServer) : Prop where
  echoed : ∀ c, s.sent c <+: s.received c
  chunk : ∀ i rlen c, s.pc = .logReceived i rlen ∨ s.pc = .write i rlen →
    s.fdTable i = some c →
      ∃ pre, s.received c = pre ++ s.buffer.load 0 rlen ∧ s.sent c <+: pre

theorem chunkInv_start (cfg : Config) (buffer : Store Byte) : ChunkInv (start cfg buffer) where
  echoed := fun _ => List.nil_prefix
  chunk := by
    intro i rlen c hpc
    rcases hpc with hpc | hpc <;> cases hpc

/-- Steps that read and write nothing, and leave no chunk in the buffer. -/
theorem ChunkInv.of_same (h : ChunkInv s) (hrec : s'.received = s.received)
    (hsent : s'.sent = s.sent)
    (hpc : ∀ i rlen, s'.pc ≠ .logReceived i rlen ∧ s'.pc ≠ .write i rlen) : ChunkInv s' where
  echoed := by
    rw [hrec, hsent]
    exact h.echoed
  chunk := by
    intro i rlen c hor
    rcases hor with heq | heq
    · exact absurd heq (hpc i rlen).1
    · exact absurd heq (hpc i rlen).2

/-- `read()` puts a chunk into the buffer, behind all that was read before. -/
theorem chunkInv_chunk (h : ChunkInv s) {i : Fd} {c : Nat} {bs : List Byte}
    (hopen : s.fdTable i = some c) :
    ChunkInv { s with
      buffer := s.buffer.save 0 bs
      received := Function.update s.received c (s.received c ++ bs)
      pc := .logReceived i bs.length } := by
  refine ⟨fun d => ?_, fun j rlen d hpc hd => ?_⟩
  · by_cases hdc : d = c
    · subst hdc
      simp only [Function.update_self]
      exact (h.echoed d).trans (List.prefix_append _ _)
    · simp only [Function.update_of_ne hdc]
      exact h.echoed d
  · rcases hpc with heq | heq
    · cases heq
      have hdc : c = d := Option.some.inj (hopen.symm.trans hd)
      subst hdc
      refine ⟨s.received c, ?_, h.echoed c⟩
      simp only [Function.update_self, Store.load_save]
    · cases heq

/-- `write()` accepts the beginning of a chunk with nothing left out before it. -/
theorem chunkInv_wrote (h : ChunkInv s) {i : Fd} {c rlen n : Nat} (hpc : s.pc = .write i rlen)
    (hopen : s.fdTable i = some c) (hle : n ≤ rlen) (hl : NothingSkipped s (.write (.wrote n))) :
    ChunkInv { s with
      sent := Function.update s.sent c (s.sent c ++ s.buffer.load 0 n)
      pc := .read i } := by
  obtain ⟨pre, hrec, hpre⟩ := h.chunk i rlen c (Or.inr hpc) hopen
  have hnew : s.sent c ++ s.buffer.load 0 n <+: s.received c := by
    rcases Nat.eq_zero_or_pos n with rfl | hn
    · rw [Store.load_zero, List.append_nil]
      exact h.echoed c
    · have hlen := hl (i, rlen) (by rw [hpc]; rfl) c hopen hn
      rw [hrec, List.length_append, Store.length_load] at hlen
      have heq : s.sent c = pre := hpre.eq_of_length (by omega)
      rw [hrec, heq]
      exact (List.prefix_append_right_inj pre).mpr (Store.load_isPrefix_load _ _ hle)
  refine ⟨fun d => ?_, fun j m d hor => ?_⟩
  · by_cases hdc : d = c
    · subst hdc
      simp only [Function.update_self]
      exact hnew
    · simp only [Function.update_of_ne hdc]
      exact h.echoed d
  · rcases hor with heq | heq <;> cases heq

theorem chunkInv_step (h : ChunkInv s) (hl : NothingSkipped s l) (hs : Step cfg s l s') :
    ChunkInv s' := by
  cases hs with
  | chunk hpc hopen hpos hle => exact chunkInv_chunk h hopen
  | wrote hpc hopen hle => exact chunkInv_wrote h hpc hopen hle hl
  | @endOfStream i c hpc hopen =>
      refine h.of_same ?_ rfl (by intro i rlen; simp)
      show Function.update s.received c (s.received c ++ []) = s.received
      rw [List.append_nil, Function.update_eq_self]
  | logged hpc =>
      refine ⟨h.echoed, fun j m d hor hd => ?_⟩
      rcases hor with heq | heq
      · cases heq
      · cases heq
        exact h.chunk _ _ d (Or.inl hpc) hd
  | accepted hpc =>
      exact h.of_same rfl rfl (by intro i rlen; simp [hpc])
  | _ => exact h.of_same rfl rfl (by intro i rlen; simp)

theorem chunkInv_reachable (h : (machine cfg).ReachableVia NothingSkipped s) : ChunkInv s := by
  refine Machine.ReachableVia.invariant ?_ ?_ h
  · intro s hinit
    obtain ⟨buffer, rfl⟩ := hinit
    exact chunkInv_start cfg buffer
  · intro s l s' _ hi hl hs
    exact chunkInv_step hi hl (next_cases hs)

/--
**Echo without gaps.** With any number of clients, any chunks, and any answers of
`write()`: as long as no bytes are accepted on a connection behind a chunk that was
not accepted in full, what was written on a connection is a prefix of what was read.
-/
theorem select_echo_sound (h : (machine cfg).ReachableVia NothingSkipped s) (c : Nat) :
    s.sent c <+: s.received c :=
  (chunkInv_reachable h).echoed c

/-- The listening socket is descriptor `4`. -/
def listener : Config := ⟨4, by decide⟩

/-- A client is accepted as descriptor `5` and the server comes to read from it. -/
def reads : List Label :=
  [.select [4] 1, .scan, .scan, .scan, .scan, .scan, .accept4 (.ok 5), .accept4 (.error .eagain),
    .scan, .select [5] 1, .scan, .scan, .scan, .scan, .scan, .scan]

/-- Of the second chunk only the first byte is accepted, and nothing more comes. -/
def lastWriteShort : List Label :=
  reads ++ [.read (.data [97, 98]), .log, .write (.wrote 2), .read (.data [99, 100]), .log,
    .write (.wrote 1), .read (.fail .eagain)]

theorem select_echo_sound_lastWriteShort :
    ∃ s : SelectServer, s.received 0 = [97, 98, 99, 100] ∧ s.sent 0 = [97, 98, 99]
      ∧ s.sent 0 <+: s.received 0 := by
  have hval : ((machine listener).run (start listener (fun _ => 0)) lastWriteShort).map
      (fun s => (s.received 0, s.sent 0)) = some ([97, 98, 99, 100], [97, 98, 99]) := by
    decide +kernel
  obtain ⟨s, hrun, heq⟩ := Option.map_eq_some_iff.mp hval
  simp only [Prod.mk.injEq] at heq
  have hr : (machine listener).ReachableVia NothingSkipped s :=
    .of_run (.init ⟨_, rfl⟩) (by decide +kernel) hrun
  exact ⟨s, heq.1, heq.2, select_echo_sound hr 0⟩

/-- Of the first chunk only the first byte is accepted; the next chunk is. -/
def firstWriteShort : List Label :=
  reads ++ [.read (.data [97, 98]), .log, .write (.wrote 1), .read (.data [99]), .log,
    .write (.wrote 1), .read (.fail .eagain)]

/-- The connection is still open, and a byte is missing from its echo. -/
theorem select_echo_gap :
    ∃ s, (machine listener).Reachable s ∧ s.fdTable 5 = some 0 ∧ s.received 0 = [97, 98, 99]
      ∧ s.sent 0 = [97, 99] ∧ ¬ s.sent 0 <+: s.received 0 := by
  have hval : ((machine listener).run (start listener (fun _ => 0)) firstWriteShort).map
      (fun s => (s.fdTable 5, s.received 0, s.sent 0))
      = some (some 0, [97, 98, 99], [97, 99]) := by decide +kernel
  obtain ⟨s, hrun, heq⟩ := Option.map_eq_some_iff.mp hval
  simp only [Prod.mk.injEq] at heq
  obtain ⟨hopen, hrec, hsent⟩ := heq
  refine ⟨s, .of_run (.init ⟨_, rfl⟩) (by decide +kernel) hrun, hopen, hrec, hsent, ?_⟩
  rw [hrec, hsent]
  decide

end TcpServers.SelectServer
