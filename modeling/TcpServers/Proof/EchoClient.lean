import TcpServers.Lib.Text
import TcpServers.Model.EchoClient

/-!
# The echo client in a session

What the client needs of a server is a pipe behind its connection. It never has more than
its ten messages on the way, so whatever it reads leaves room for a NUL in its vector, and
it does not wait for a byte when none is coming.
-/

namespace TcpServers.EchoClient

open Lib

variable {s s' : EchoClient} {a : Act}

theorem length_writeBuffer : writeBuffer.length = 57 := by decide +kernel

theorem writeBuffer_ne_nul : ∀ b ∈ writeBuffer, b ≠ 0 := by decide +kernel

/-- The histories are those of the connection. -/
theorem records : Client.Records echoClient EchoClient.said EchoClient.heard where
  init := by
    rintro s ⟨memory, rfl⟩
    exact ⟨rfl, rfl⟩
  step := by
    intro s a s' hn
    cases next_cases hn with
    | wrote => exact ⟨rfl, (List.append_nil _).symm⟩
    | chunk => exact ⟨(List.append_nil _).symm, rfl⟩
    | writeFailed | readFailed | again | done =>
        exact ⟨(List.append_nil _).symm, (List.append_nil _).symm⟩

/-- How many messages the client has begun. -/
def begun : EchoClientPc → Nat
  | .write i => i
  | .read i => i + 1
  | .print i _ => i + 1
  | .exited _ => rounds

/-- What the client has said, and what is in its vector. -/
structure ClientInv (s : EchoClient) : Prop where
  text : ∀ b ∈ s.said, b ≠ 0
  length : s.said.length ≤ writeBuffer.length * begun s.pc
  round : begun s.pc ≤ rounds
  /-- There is a round left to write in. -/
  more : ∀ i, s.pc = .write i → i < rounds
  chunk : ∀ i rlen, s.pc = .print i rlen →
    ∃ memory bs, s.readBuffer = (zeroed memory).save 0 bs ∧ bs.length = rlen ∧ bs <:+ s.heard

theorem clientInv_start (memory : Store Byte) : ClientInv (start memory) where
  text := fun b hb => absurd hb List.not_mem_nil
  length := Nat.zero_le _
  round := Nat.zero_le _
  more := by
    intro i hi
    cases hi
    decide
  chunk := by
    intro i rlen hpc
    cases hpc

/-- **Kept by every statement.** -/
theorem clientInv_step (h : ClientInv s) (hs : Step s a s') : ClientInv s' := by
  have hlength := h.length
  have hround := h.round
  cases hs with
  | @wrote i n hpc hpos hle =>
      rw [hpc] at hlength
      have hi := h.more i hpc
      refine ⟨fun b hb => ?_, ?_, hi, fun j hj => ?_, fun j rlen hj => ?_⟩
      · rcases List.mem_append.mp hb with hold | hnew
        · exact h.text b hold
        · exact writeBuffer_ne_nul b (List.mem_of_mem_take hnew)
      · show (s.said ++ writeBuffer.take n).length ≤ writeBuffer.length * (i + 1)
        rw [List.length_append, List.length_take, Nat.mul_add]
        simp only [begun] at hlength
        omega
      · cases hj
      · cases hj
  | @chunk i memory bs hpc hle =>
      rw [hpc] at hlength hround
      refine ⟨h.text, hlength, hround, fun j hj => ?_, fun j rlen hj => ?_⟩
      · cases hj
      · cases hj
        exact ⟨memory, bs, rfl, rfl, List.suffix_append _ _⟩
  | writeFailed hpc | readFailed hpc =>
      refine ⟨h.text, ?_, Nat.le_refl _, fun j hj => ?_, fun j rlen hj => ?_⟩
      · exact Nat.le_trans hlength (Nat.mul_le_mul_left _ hround)
      · cases hj
      · cases hj
  | @again i rlen hpc hi =>
      rw [hpc] at hlength
      refine ⟨h.text, hlength, Nat.le_of_lt hi, fun j hj => ?_, fun j rlen hj => ?_⟩
      · cases hj
        exact hi
      · cases hj
  | @done i rlen hpc hi =>
      rw [hpc] at hlength hround
      refine ⟨h.text, ?_, Nat.le_refl _, fun j hj => ?_, fun j rlen hj => ?_⟩
      · exact Nat.le_trans hlength (Nat.mul_le_mul_left _ hround)
      · cases hj
      · cases hj

theorem clientInv_reachable (h : echoClient.machine.Reachable s) : ClientInv s := by
  refine Machine.ReachableVia.invariant ?_ ?_ h
  · rintro s ⟨memory, rfl⟩
    exact clientInv_start memory
  · intro s a s' _ hi _ hn
    exact clientInv_step hi (next_cases hn)

/-- The client has said no more than its ten messages. -/
theorem ClientInv.length_le (h : ClientInv s) : s.said.length ≤ 570 := by
  have hlength := h.length
  have hround := h.round
  rw [length_writeBuffer] at hlength
  unfold rounds at hround
  omega

/-! ## In a session -/

/-- What the client prints is what it read, no more and no less, and ends within the vector. -/
def PrintsChunk (s : EchoClient) : Prop :=
  ∀ i rlen, s.pc = .print i rlen → rlen < readSize ∧ s.readBuffer.load 0 rlen <:+ s.heard
    ∧ ∀ k, s.readBuffer.text 0 k = (s.readBuffer.load 0 rlen)[k]?

variable {D : PipeAct Byte → Prop} {p : List Byte × EchoClient × Wire Byte}

/-- What was heard was said. -/
theorem heard_sublist (h : echoClient.session.ReachableVia (Client.Piping D) p) :
    p.2.1.heard.Sublist p.2.1.said :=
  (List.sublist_append_left _ _).trans (Client.session_sublist records h)

/-- **The vector has room for the NUL.** -/
theorem printsChunk (h : echoClient.session.ReachableVia (Client.Piping D) p) :
    PrintsChunk p.2.1 := by
  intro i rlen hpc
  have hinv := clientInv_reachable (Client.session_client h)
  have hsub := heard_sublist h
  obtain ⟨memory, bs, hbuffer, hlen, hheard⟩ := hinv.chunk i rlen hpc
  have hle : rlen ≤ 570 := by
    have h1 := hheard.length_le
    have h2 := hsub.length_le
    have h3 := hinv.length_le
    omega
  have hload : p.2.1.readBuffer.load 0 rlen = bs := by
    rw [hbuffer, ← hlen, Store.load_save]
  have hzero : zeroed memory bs.length = 0 := by
    unfold zeroed readSize
    exact if_pos ⟨Int.natCast_nonneg _, by omega⟩
  refine ⟨by unfold readSize; omega, by rw [hload]; exact hheard, fun k => ?_⟩
  rw [hload, hbuffer, Store.text_save (Or.inr hzero)]
  have hno : ¬ ∃ j : Nat, j ≤ k ∧ bs[j]? = some 0 := by
    rintro ⟨j, _, hj⟩
    have hmem : (0 : Byte) ∈ p.2.1.said := hsub.subset (hheard.subset (List.mem_of_getElem? hj))
    exact hinv.text 0 hmem rfl
  rw [if_neg hno]

/-- Before a `read()` the client has said more than it heard. -/
theorem heard_lt (h : echoClient.session.ReachableVia (Client.Piping D) p) (i : Nat)
    (hpc : p.2.1.pc = .read i) : p.2.1.heard.length < p.2.1.said.length := by
  have hall : ∀ i, p.2.1.pc = .read i → p.2.1.heard.length < p.2.1.said.length := by
    refine h.invariant (I := fun p => ∀ i, p.2.1.pc = .read i →
      p.2.1.heard.length < p.2.1.said.length) ?_ ?_
    · rintro ⟨q, s, line⟩ ⟨_, ⟨memory, rfl⟩, _⟩ i hpc
      cases hpc
    · rintro ⟨q, s, up, down⟩ l p' hr ih _ hn i hpc
      rcases Client.session_cases hn with ⟨bs, rest, rfl, hup, rfl⟩ | ⟨bs, rest, rfl, hq, rfl⟩
        | ⟨n, rfl, rfl⟩ | ⟨a, s', rest, rfl, hs', hdown, rfl⟩
      · exact ih i hpc
      · exact ih i hpc
      · exact ih i hpc
      · cases next_cases hs' with
        | @wrote j n _ hpos hle =>
            have hle' := (heard_sublist hr).length_le
            show s.heard.length < (s.said ++ writeBuffer.take n).length
            dsimp only at hle'
            rw [List.length_append, List.length_take]
            omega
        | writeFailed | chunk | readFailed | again | done => cases hpc
  exact hall i hpc

/-- **Where nothing is dropped the client does not wait in vain.** -/
theorem underway_ne_nil
    (h : echoClient.session.ReachableVia (Client.Piping fun a => ∀ n, a = .drop n → n = 0) p)
    (i : Nat) (hpc : p.2.1.pc = .read i) : Client.underway p ≠ [] := by
  intro hnil
  have hall := Client.session_lossless records h
  have hlt := heard_lt h i hpc
  rw [hnil, List.append_nil] at hall
  rw [hall] at hlt
  exact absurd hlt (Nat.lt_irrefl _)

end TcpServers.EchoClient
