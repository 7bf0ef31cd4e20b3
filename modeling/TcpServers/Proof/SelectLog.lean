import Mathlib.Tactic.Simps.Basic
import TcpServers.Lib.Pair
import TcpServers.Lib.Text
import TcpServers.Proof.SelectSets

/-!
# What the select server prints of a chunk

One buffer serves all clients and is never cleared, and `operator<<` prints it up to
the first NUL. So a chunk is printed alone if it has a NUL or one stands right behind
it; otherwise the text goes on with what an earlier chunk, of any client, has left
there.

Two runs are compared that take the same steps and differ in the bytes of other
clients than `a`. What the server does depends on none of the bytes, so they stay in
step, and what can differ is the text.
-/

namespace TcpServers.SelectServer

open Lib

variable {cfg : Config} {s s' : SelectServer}

/-- The connection a `read()` is on. -/
def reading (s : SelectServer) : Option Nat :=
  match s.pc with
  | .read i => s.fdTable i
  | _ => none

/-- The last `n` bytes read from a connection. -/
def lastBytes (s : SelectServer) (a n : Nat) : List Byte :=
  (s.received a).drop ((s.received a).length - n)

/-- What is printed after a chunk of `rlen` bytes from `a` is in the chunk. -/
def PrintsOwn (s : SelectServer) (a rlen : Nat) : Prop :=
  ∀ k b, s.buffer.text 0 k = some b → (s.lastBytes a rlen)[k]? = some b

/-- Whenever a chunk from `a` is printed, the two texts are the same, and of the chunk. -/
def PrintedAlike (a : Nat) (p : SelectServer × SelectServer) : Prop :=
  ∀ i rlen, p.1.pc = .logReceived i rlen → p.1.fdTable i = some a →
    p.1.buffer.text 0 = p.2.buffer.text 0 ∧ p.1.PrintsOwn a rlen ∧ p.2.PrintsOwn a rlen

deriving instance DecidableEq for Label

/-- A label without the bytes. -/
def blank : Label → Label
  | .read (.data bs) => .read (.data (List.replicate bs.length 0))
  | l => l

/-- The same step, but for the bytes of a chunk from another client than `a`. -/
def Alike (a : Nat) (p : SelectServer × SelectServer) (l : Label × Label) : Prop :=
  l.1 = l.2 ∨ (blank l.1 = blank l.2 ∧ p.1.reading ≠ some a)

instance (a : Nat) (p : SelectServer × SelectServer) (l : Label × Label) :
    Decidable (Alike a p l) := inferInstanceAs (Decidable (_ ∨ _))

/-- The bytes of a read. -/
def chunk : Label → List Byte
  | .read (.data bs) => bs
  | _ => []

/-- A chunk from `a` has a NUL, or one stands right behind it in both buffers. -/
def EndsItself (a : Nat) (p : SelectServer × SelectServer) (l : Label × Label) : Prop :=
  chunk l.1 ≠ [] → p.1.reading = some a →
    0 ∈ chunk l.1 ∨ (p.1.buffer (chunk l.1).length = 0 ∧ p.2.buffer (chunk l.1).length = 0)

instance (a : Nat) (p : SelectServer × SelectServer) (l : Label × Label) :
    Decidable (EndsItself a p l) := inferInstanceAs (Decidable (_ → _ → _))

/-! ## What the bytes do not decide -/

/-- The server without the bytes. -/
@[simps]
def control (s : SelectServer) : SelectServer :=
  { s with buffer := fun _ => 0, received := fun _ => [], sent := fun _ => [] }

theorem select_control (s : SelectServer) (ready : List Fd) (events : Nat) :
    (s.select ready events).map control = (s.control.select ready events).map control := by
  simp only [select, control_pc, control_maxSfd, control_readFdBackupSet]
  split
  · rfl
  · rfl

theorem scan_control (s : SelectServer) :
    (s.scan cfg).map control = (s.control.scan cfg).map control := by
  simp only [scan, control_pc, control_maxSfd, control_sfdReadyNo, control_readFdSet]
  cases s.pc with
  | scan i =>
      dsimp only
      split
      · split
        · rfl
        · rfl
      · rfl
  | _ => rfl

theorem accept4_control (s : SelectServer) (r : Except Errno Fd) :
    (s.accept4 cfg r).map control = (s.control.accept4 cfg r).map control := by
  simp only [accept4, control_pc, control_fdTable]
  cases s.pc with
  | accept i =>
      cases r with
      | ok fd =>
          dsimp only
          split
          · rfl
          · rfl
      | error e => rfl
  | _ => rfl

/-- A chunk decides by its length alone. -/
theorem read_control (s : SelectServer) (bs : List Byte) :
    (s.read (.data bs)).map control =
      (s.control.read (.data (List.replicate bs.length 0))).map control := by
  simp only [read, control_pc, control_fdTable]
  cases s.pc with
  | read i =>
      simp only [List.length_replicate]
      split
      · simp only [Option.map_map]
        rfl
      · rfl
  | _ => rfl

theorem read_fail_control (s : SelectServer) (e : Errno) :
    (s.read (.fail e)).map control = (s.control.read (.fail e)).map control := by
  simp only [read, control_pc]
  cases s.pc <;> rfl

theorem log_control (s : SelectServer) : s.log.map control = s.control.log.map control := by
  simp only [log, control_pc]
  cases s.pc <;> rfl

theorem write_control (s : SelectServer) (r : WriteResult) :
    (s.write r).map control = (s.control.write r).map control := by
  simp only [write, control_pc, control_fdTable]
  cases s.pc with
  | write i rlen =>
      cases r with
      | wrote n =>
          dsimp only
          split
          · simp only [Option.map_map]
            rfl
          · rfl
      | fail e => rfl
  | _ => rfl

theorem close_control (s : SelectServer) :
    s.close.map control = s.control.close.map control := by
  simp only [close, control_pc]
  cases s.pc <;> rfl

/-- **What the server does, the bytes do not decide.** -/
theorem next_control (s : SelectServer) (l : Label) :
    (s.next cfg l).map control = (s.control.next cfg (blank l)).map control := by
  cases l with
  | select ready events => exact select_control s ready events
  | selectFailed =>
      simp only [next, blank, control_pc]
      split
      · rfl
      · rfl
  | scan => exact scan_control s
  | accept4 r => exact accept4_control s r
  | read r =>
      cases r with
      | data bs => exact read_control s bs
      | fail e => exact read_fail_control s e
  | log => exact log_control s
  | write r => exact write_control s r
  | close => exact close_control s

variable {a : Nat} {p p' : SelectServer × SelectServer} {l : Label × Label}

theorem Alike.blank_eq (h : Alike a p l) : blank l.1 = blank l.2 :=
  h.elim (congrArg blank) (fun hl => hl.1)

/-- **Two runs that are alike stay in step.** -/
theorem control_step (hp : p.1.control = p.2.control) (hl : Alike a p l)
    (hn : (machine cfg).pair.next p l = some p') : p'.1.control = p'.2.control := by
  refine @Machine.pair_agree _ _ (machine cfg) _ _ control blank
    (fun s l => (s.next cfg l).map control) ?_ p p' l hp hl.blank_eq hn
  exact fun s l => next_control s l

/-- Which connection is read the bytes do not decide either. -/
theorem reading_eq (hp : p.1.control = p.2.control) : p.2.reading = p.1.reading :=
  (congrArg reading hp).symm

/-- What is read from `a` is the same in both. -/
theorem Alike.eq_of_reading (h : Alike a p l) (hread : p.1.reading = some a) : l.2 = l.1 :=
  (h.resolve_right (fun hl => hl.2 hread)).symm

/-! ## What is printed -/

theorem read_chunk_label {l : Label} (h : chunk l ≠ []) : .read (.data (chunk l)) = l := by
  unfold chunk at h ⊢
  split at h
  · rfl
  · exact absurd rfl h

/-- A chunk is read from `a`: it is at the start of the buffer, and what the log is about. -/
theorem read_chunk {bs : List Byte} (hread : s.reading = some a) (hne : bs ≠ [])
    (hn : s.next cfg (.read (.data bs)) = some s') :
    (∃ i, s'.pc = .logReceived i bs.length ∧ s'.fdTable i = some a)
      ∧ s'.buffer = s.buffer.save 0 bs ∧ s'.lastBytes a bs.length = bs := by
  cases next_cases hn with
  | endOfStream => exact absurd rfl hne
  | @chunk i c _ hpc hopen _ _ =>
      have hc : c = a := by
        rw [reading, hpc] at hread
        exact Option.some.inj (hopen.symm.trans hread)
      subst hc
      refine ⟨⟨i, rfl, hopen⟩, rfl, ?_⟩
      simp only [lastBytes, Function.update_self, List.length_append, Nat.add_sub_cancel,
        List.drop_left]

/-- The log of a chunk from `a` comes right after its read. -/
theorem read_of_log {l : Label} (hn : s.next cfg l = some s') {i : Fd} {rlen : Nat}
    (hpc : s'.pc = .logReceived i rlen) (hopen : s'.fdTable i = some a) :
    ∃ bs, l = .read (.data bs) ∧ bs ≠ [] ∧ rlen = bs.length ∧ s.reading = some a := by
  cases next_cases hn with
  | @chunk j c bs hpc' _ hpos _ =>
      cases hpc
      refine ⟨bs, rfl, List.ne_nil_of_length_pos hpos, rfl, ?_⟩
      rw [reading, hpc']
      exact hopen
  | accepted hpc' =>
      rw [hpc'] at hpc
      cases hpc
  | _ => cases hpc

/-- What is printed is in the chunk exactly where it ends with it. -/
theorem printsOwn_iff {bs : List Byte} (hbuf : s'.buffer = s.buffer.save 0 bs)
    (hlast : s'.lastBytes a bs.length = bs) :
    s'.PrintsOwn a bs.length ↔ 0 ∈ bs ∨ s.buffer bs.length = 0 := by
  rw [PrintsOwn, hbuf, hlast]
  constructor
  · intro hown
    by_contra hnot
    rw [not_or] at hnot
    have hmore := hown _ _ (Store.text_save_behind hnot.1 hnot.2)
    rw [List.getElem?_eq_none (Nat.le_refl _)] at hmore
    cases hmore
  · intro hends k b hk
    exact Store.getElem?_of_text hends hk

/-- **One step decides** whether what is printed next is the same and of the chunk. -/
theorem printedAlike_iff (hp : p.1.control = p.2.control) (hl : Alike a p l)
    (hn : (machine cfg).pair.next p l = some p') : PrintedAlike a p' ↔ EndsItself a p l := by
  have hboth : p.1.next cfg l.1 = some p'.1 ∧ p.2.next cfg l.2 = some p'.2 :=
    Machine.pair_next.mp hn
  obtain ⟨h1, h2⟩ := hboth
  constructor
  · intro halike hne hread
    rw [hl.eq_of_reading hread] at h2
    rw [← read_chunk_label hne] at h1 h2
    obtain ⟨⟨i, hpc, hopen⟩, hbuf1, hlast1⟩ := read_chunk hread hne h1
    obtain ⟨_, hbuf2, hlast2⟩ := read_chunk ((reading_eq hp).trans hread) hne h2
    obtain ⟨_, hown1, hown2⟩ := halike i _ hpc hopen
    rw [printsOwn_iff hbuf1 hlast1] at hown1
    rw [printsOwn_iff hbuf2 hlast2] at hown2
    by_cases hnul : 0 ∈ chunk l.1
    · exact Or.inl hnul
    · exact Or.inr ⟨hown1.resolve_left hnul, hown2.resolve_left hnul⟩
  · intro hends i rlen hpc hopen
    obtain ⟨bs, hl1, hne, rfl, hread⟩ := read_of_log h1 hpc hopen
    rw [hl.eq_of_reading hread] at h2
    rw [EndsItself, hl1] at hends
    rw [hl1] at h1 h2
    obtain ⟨_, hbuf1, hlast1⟩ := read_chunk hread hne h1
    obtain ⟨_, hbuf2, hlast2⟩ := read_chunk ((reading_eq hp).trans hread) hne h2
    have hends1 := (hends hne hread).imp_right (fun hz => hz.1)
    have hends2 := (hends hne hread).imp_right (fun hz => hz.2)
    refine ⟨?_, (printsOwn_iff hbuf1 hlast1).mpr hends1, (printsOwn_iff hbuf2 hlast2).mpr hends2⟩
    rw [hbuf1, hbuf2]
    funext k
    exact (Store.text_save hends1 k).trans (Store.text_save hends2 k).symm

/--
**What is printed of `a`'s chunks is the same, and of the chunk, exactly where** each of
them has a NUL in it or right behind it. In any two runs with the same steps that differ
in the bytes of other clients.
-/
theorem printed_alike_iff {buffer : Store Byte} {ls : List (Label × Label)}
    {t₁ t₂ : SelectServer}
    (hrun₁ : (machine cfg).run (start cfg buffer) (ls.map Prod.fst) = some t₁)
    (hrun₂ : (machine cfg).run (start cfg buffer) (ls.map Prod.snd) = some t₂)
    (halike : (machine cfg).pair.Along (Alike a) (start cfg buffer, start cfg buffer) ls) :
    (machine cfg).pair.Throughout (PrintedAlike a) (start cfg buffer, start cfg buffer) ls ↔
      (machine cfg).pair.Along (EndsItself a) (start cfg buffer, start cfg buffer) ls := by
  refine Machine.throughout_iff_of_step (I := fun p => p.1.control = p.2.control)
    (t := (t₁, t₂)) rfl ?_ (fun _ _ _ hp hl hn => control_step hp hl hn)
    (fun _ _ _ hp hl hn => printedAlike_iff hp hl hn) (Machine.pair_run.mpr ⟨hrun₁, hrun₂⟩) halike
  intro i rlen hpc
  cases hpc

/-- One pass accepts two clients, as descriptors `4` and `5`. -/
def acceptsTwo : List Label :=
  [.select [3] 1, .scan, .scan, .scan, .scan, .accept4 (.ok 4), .accept4 (.ok 5),
    .accept4 (.error .eagain), .scan]

/-- The second client sends `bs`, and after it the first one sends `hi`. -/
def sendsBoth (bs : List Byte) : List Label :=
  acceptsTwo ++ [.select [5] 1, .scan, .scan, .scan, .scan, .scan, .scan, .read (.data bs), .log,
    .write (.wrote bs.length), .read (.fail .eagain), .scan,
    .select [4] 1, .scan, .scan, .scan, .scan, .scan, .read (.data [104, 105])]

/-- The two runs in which the second client sends `bs` and `bs'`. -/
def twoRuns (bs bs' : List Byte) : List (Label × Label) := (sendsBoth bs).zip (sendsBoth bs')

/-- All zeros, as a buffer that nothing was read into. -/
def zeros : Store Byte := fun _ => 0

theorem printed_alike_short :
    (machine listening).pair.Throughout (PrintedAlike 0)
      (start listening zeros, start listening zeros) (twoRuns [120, 121] [122, 123]) := by
  have hval₁ : ((machine listening).run (start listening zeros)
      ((twoRuns [120, 121] [122, 123]).map Prod.fst)).isSome = true := by decide +kernel
  have hval₂ : ((machine listening).run (start listening zeros)
      ((twoRuns [120, 121] [122, 123]).map Prod.snd)).isSome = true := by decide +kernel
  obtain ⟨t₁, hrun₁⟩ := Option.isSome_iff_exists.mp hval₁
  obtain ⟨t₂, hrun₂⟩ := Option.isSome_iff_exists.mp hval₂
  exact (printed_alike_iff hrun₁ hrun₂ (by decide +kernel)).mpr (by decide +kernel)

/-- The second client has sent `secret` in one run and `public` in the other. -/
def secretOrPublic : List (Label × Label) :=
  twoRuns [115, 101, 99, 114, 101, 116] [112, 117, 98, 108, 105, 99]

/-- What it sent is printed on behind the first client's `hi`. -/
theorem printed_not_alike :
    ¬ ∀ (cfg : Config) (a : Nat) (buffer : Store Byte) (ls : List (Label × Label))
        (t₁ t₂ : SelectServer), (machine cfg).run (start cfg buffer) (ls.map Prod.fst) = some t₁ →
          (machine cfg).run (start cfg buffer) (ls.map Prod.snd) = some t₂ →
            (machine cfg).pair.Along (Alike a) (start cfg buffer, start cfg buffer) ls →
              (machine cfg).pair.Throughout (PrintedAlike a)
                (start cfg buffer, start cfg buffer) ls := by
  intro hall
  have hval₁ : ((machine listening).run (start listening zeros)
      (secretOrPublic.map Prod.fst)).map
      (fun t => (t.pc, t.fdTable 4, t.buffer.text 0 2))
      = some (.logReceived 4 2, some 0, some 99) := by decide +kernel
  have hval₂ : ((machine listening).run (start listening zeros)
      (secretOrPublic.map Prod.snd)).map
      (fun t => t.buffer.text 0 2) = some (some 98) := by decide +kernel
  obtain ⟨t₁, hrun₁, heq⟩ := Option.map_eq_some_iff.mp hval₁
  obtain ⟨t₂, hrun₂, htext₂⟩ := Option.map_eq_some_iff.mp hval₂
  simp only [Prod.mk.injEq] at heq
  obtain ⟨hpc, hopen, htext₁⟩ := heq
  have hthrough := hall listening 0 zeros _ t₁ t₂ hrun₁ hrun₂ (by decide +kernel)
  have hpair : (machine listening).pair.run (start listening zeros, start listening zeros)
      secretOrPublic = some (t₁, t₂) := Machine.pair_run.mpr ⟨hrun₁, hrun₂⟩
  have hsame := congrFun (hthrough.last hpair 4 2 hpc hopen).1 2
  rw [htext₁, htext₂] at hsame
  exact absurd hsame (by decide)

end TcpServers.SelectServer
