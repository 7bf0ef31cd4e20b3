import TcpServers.Lib.Drive
import TcpServers.Proof.LoopOwnership

/-!
# When the drain loop ends

The drain loop of a client's event reads until an answer takes it out. An error
does, in both copies of the loop. The end of the stream does in the one of
`concurrent_servers`, which breaks there; the member of `linux_concurrent_server`
logs it and goes on, and as the kernel answers `0` to every further read it never
leaves, calling `_read_handler` with nothing each time.
-/

namespace TcpServers.EpollLoop

open Lib

variable {cfg : Config} {s t : EpollLoop} {fd : Fd} {c : Nat}

/-- What the kernel has for one drain: chunks, and what it answers after them. -/
structure ClientStream where
  chunks : List (List Byte)
  /-- The error of the read that finds nothing more, or `none` for the end of the stream. -/
  ending : Option Errno
  chunk_ne_nil : ∀ bs ∈ chunks, bs ≠ []
  chunk_le : ∀ bs ∈ chunks, bs.length ≤ buffSize

/-- The answer to the `n`-th read; at the end of the stream it is `0` from then on. -/
def ClientStream.answer (cs : ClientStream) (n : Nat) : ReadResult :=
  match cs.chunks[n]?, cs.ending with
  | some bs, _ => .data bs
  | none, some e => .fail e
  | none, none => .data []

/-- The steps of the drain loop, the kernel answering from the stream. -/
def ClientStream.choose (cs : ClientStream) (n : Nat) (_ : EpollLoop) : Label :=
  .read (cs.answer n)

/--
The drain loop is left, and `_read_handler` was called with the chunks of the stream,
each once, in order, and with nothing else.
-/
def Drains (cfg : Config) (s : EpollLoop) (fd : Fd) (cs : ClientStream) : Prop :=
  ∃ c, s.fdTable fd = some c ∧ ∃ n t, (machine cfg).drive cs.choose s n = some t
    ∧ t.pc ≠ .drain fd ∧ t.chunks = Function.update s.chunks c (s.chunks c ++ cs.chunks)

/-- Within the drain loop a chunk is passed on. -/
theorem next_chunk (hpc : t.pc = .drain fd) (hopen : t.fdTable fd = some c) {bs : List Byte}
    (hle : bs.length ≤ buffSize) (hmore : bs = [] → cfg.variant = .linuxConcurrentServer) :
    t.next cfg (.read (.data bs)) =
      some { t with chunks := Function.update t.chunks c (t.chunks c ++ [bs]) } := by
  have hnot : ¬ (bs.length = 0 ∧ cfg.variant = .concurrentServers) := by
    rintro ⟨hlen, hv⟩
    rw [hmore (List.length_eq_zero_iff.mp hlen)] at hv
    cases hv
  simp only [next, read, hpc, hopen, if_pos hle, if_neg hnot, Option.map_some]

/-- After the chunks the drain loop is left, but for an end of stream that is read over. -/
theorem next_ending (hpc : t.pc = .drain fd) (hopen : t.fdTable fd = some c) {cs : ClientStream}
    {n : Nat} (hn : cs.chunks[n]? = none)
    (hleaves : cfg.variant = .concurrentServers ∨ cs.ending ≠ none) :
    ∃ t', t.next cfg (.read (cs.answer n)) = some t' ∧ t'.pc ≠ .drain fd
      ∧ t'.chunks = t.chunks := by
  cases he : cs.ending with
  | some e =>
      simp only [ClientStream.answer, hn, he, next, read, hpc]
      refine ⟨_, rfl, ?_, rfl⟩
      dsimp only
      split <;> simp
  | none =>
      have hv := hleaves.resolve_right (fun hne => hne he)
      simp only [ClientStream.answer, hn, he, next, read, hpc, hopen, hv, List.length_nil,
        Nat.zero_le, if_true, and_self, Option.map_some]
      exact ⟨_, rfl, by simp, rfl⟩

/-- Where the drain loop stands after `n` reads: it has passed on the first `n` chunks. -/
def DrainInv (s : EpollLoop) (fd : Fd) (c : Nat) (cs : ClientStream) (n : Nat) (t : EpollLoop) :
    Prop :=
  (t.pc = .drain fd ∧ t.fdTable fd = some c ∧ n ≤ cs.chunks.length
      ∧ t.chunks = Function.update s.chunks c (s.chunks c ++ cs.chunks.take n))
    ∨ (t.pc ≠ .drain fd ∧ t.chunks = Function.update s.chunks c (s.chunks c ++ cs.chunks))

/-- One read, and one chunk more is passed on, or the loop is left. -/
theorem drainInv_step {cs : ClientStream} {n : Nat}
    (hleaves : cfg.variant = .concurrentServers ∨ cs.ending ≠ none)
    (h : DrainInv s fd c cs n t) (hpc : t.pc = .drain fd) :
    ∃ t', t.next cfg (cs.choose n t) = some t' ∧ DrainInv s fd c cs (n + 1) t'
      ∧ cs.chunks.length + 1 - (n + 1) < cs.chunks.length + 1 - n := by
  obtain ⟨_, hopen, hle, hchunks⟩ | ⟨hleft, _⟩ := h
  · cases hn : cs.chunks[n]? with
    | some bs =>
        obtain ⟨hlt, rfl⟩ := List.getElem?_eq_some_iff.mp hn
        have hmem := List.getElem_mem hlt
        have hanswer : cs.choose n t = .read (.data cs.chunks[n]) := by
          simp only [ClientStream.choose, ClientStream.answer, hn]
        rw [hanswer, next_chunk hpc hopen (cs.chunk_le _ hmem)
          (fun hnil => absurd hnil (cs.chunk_ne_nil _ hmem))]
        refine ⟨_, rfl, Or.inl ⟨hpc, hopen, hlt, ?_⟩, by omega⟩
        rw [hchunks, Function.update_self, Function.update_idem, List.append_assoc,
          List.take_succ_eq_append_getElem hlt]
    | none =>
        obtain ⟨t', ht', hout, hsame⟩ := next_ending hpc hopen hn hleaves
        refine ⟨t', ht', Or.inr ⟨hout, ?_⟩, by omega⟩
        rw [hsame, hchunks, List.take_of_length_le (List.getElem?_eq_none_iff.mp hn)]
  · exact absurd hpc hleft

/-- At an end of stream that is read over, every read leads back to the next one. -/
theorem drain_again {cs : ClientStream} (hv : cfg.variant = .linuxConcurrentServer)
    (hend : cs.ending = none) (n : Nat) (hpc : t.pc = .drain fd) (hopen : t.fdTable fd = some c) :
    ∃ t', t.next cfg (cs.choose n t) = some t' ∧ t'.pc = .drain fd ∧ t'.fdTable fd = some c := by
  have hanswer : ∃ bs, cs.answer n = .data bs ∧ bs.length ≤ buffSize := by
    unfold ClientStream.answer
    cases hn : cs.chunks[n]? with
    | some bs => exact ⟨bs, rfl, cs.chunk_le bs (List.mem_of_getElem? hn)⟩
    | none =>
        rw [hend]
        exact ⟨[], rfl, Nat.zero_le _⟩
  obtain ⟨bs, hbs, hle⟩ := hanswer
  rw [ClientStream.choose, hbs, next_chunk hpc hopen hle (fun _ => hv)]
  exact ⟨_, rfl, hpc, hopen⟩

/-- So it is never left. -/
theorem not_drains {cs : ClientStream} (hv : cfg.variant = .linuxConcurrentServer)
    (hend : cs.ending = none) (hpc : s.pc = .drain fd) (hopen : s.fdTable fd = some c) :
    ¬ Drains cfg s fd cs := by
  rintro ⟨_, _, n, t, ht, hout, _⟩
  obtain ⟨t', ht', hin, _⟩ := @Machine.drive_stays _ _ (machine cfg) cs.choose
    (fun t => t.pc = .drain fd ∧ t.fdTable fd = some c) s ⟨hpc, hopen⟩
    (fun n t hj => drain_again hv hend n hj.1 hj.2) n
  rw [ht] at ht'
  cases ht'
  exact hout hin

/--
**The drain loop ends exactly where the stream does not**, but for the copy of the
loop that breaks there. For every event of a client and every sequence of chunks.
-/
theorem drains_iff (h : (machine cfg).Reachable s) (hpc : s.pc = .drain fd) (cs : ClientStream) :
    Drains cfg s fd cs ↔ cfg.variant = .concurrentServers ∨ cs.ending ≠ none := by
  have hinv := loopInv_reachable h
  obtain ⟨c, hopen⟩ := hinv.held_open (mem_held.mpr (Or.inl (by rw [hpc]; rfl)))
  constructor
  · intro hdrains
    by_contra hnot
    rw [not_or, not_not] at hnot
    have hv : cfg.variant = .linuxConcurrentServer := by
      cases hv : cfg.variant with
      | concurrentServers => exact absurd hv hnot.1
      | linuxConcurrentServer => rfl
    exact not_drains hv hnot.2 hpc hopen hdrains
  · intro hleaves
    obtain ⟨n, t, _, ht, hdrain, hout⟩ := @Machine.drive_ends _ _ (machine cfg) cs.choose
      (DrainInv s fd c cs) (fun t => t.pc = .drain fd)
      (fun n _ => cs.chunks.length + 1 - n) s
      (Or.inl ⟨hpc, hopen, Nat.zero_le _, by rw [List.take_zero, List.append_nil,
        Function.update_eq_self]⟩)
      (fun n t hi hb => drainInv_step hleaves hi hb)
    rcases hdrain with ⟨hin, _⟩ | ⟨_, hchunks⟩
    · exact absurd hin hout
    · exact ⟨c, hopen, n, t, ht, hout, hchunks⟩

/-- A worker process, its listener on descriptor `3`. -/
def workerProcess : Config := ⟨.linuxConcurrentServer, 3, 1⟩

/-- A client is accepted as descriptor `5`, and an event of it is fetched. -/
def toDrain : List Label :=
  [.epollWait [⟨{ epollin := true }, 3⟩], .take, .accept4 (.ok 5), .epollAdd none,
    .accept4 (.error .eagain), .take, .epollWait [⟨{ epollin := true }, 5⟩], .take]

/-- It has sent two bytes; what comes after them is `ending`. -/
def sendsTwo (ending : Option Errno) : ClientStream where
  chunks := [[104, 105]]
  ending := ending
  chunk_ne_nil := by simp
  chunk_le := by simp [buffSize]

theorem drains_sendsTwo :
    ∃ s, s.pc = .drain 5 ∧ Drains workerProcess s 5 (sendsTwo (some .eagain)) := by
  have hval : ((machine workerProcess).run (start workerProcess) toDrain).map (fun s => s.pc)
      = some (.drain 5) := by decide +kernel
  obtain ⟨s, hrun, hpc⟩ := Option.map_eq_some_iff.mp hval
  have hr : (machine workerProcess).Reachable s := .of_run (.init rfl) Machine.along_true hrun
  exact ⟨s, hpc, (drains_iff hr hpc (sendsTwo (some .eagain))).mpr (Or.inr (by simp [sendsTwo]))⟩

/-- A client that closes after its event was fetched keeps the worker for itself. -/
theorem drains_not_always :
    ¬ ∀ (cfg : Config) (s : EpollLoop) (fd : Fd) (cs : ClientStream),
        cfg.variant = .linuxConcurrentServer → (machine cfg).Reachable s → s.pc = .drain fd →
          Drains cfg s fd cs := by
  intro hall
  have hval : ((machine workerProcess).run (start workerProcess) toDrain).map
      (fun s => (s.pc, s.fdTable 5)) = some (.drain 5, some 0) := by decide +kernel
  obtain ⟨s, hrun, heq⟩ := Option.map_eq_some_iff.mp hval
  obtain ⟨hpc, hopen⟩ := Prod.mk.inj heq
  have hr : (machine workerProcess).Reachable s := .of_run (.init rfl) Machine.along_true hrun
  exact not_drains rfl rfl hpc hopen (hall workerProcess s 5 (sendsTwo none) rfl hr hpc)

end TcpServers.EpollLoop
