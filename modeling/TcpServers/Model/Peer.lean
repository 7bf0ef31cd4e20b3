import TcpServers.Model.Connection

/-!
# A connection together with its client and the kernel between them

The client sends a byte string and then half-closes. The kernel moves the bytes
into the socket's receive queue in its own time and answers `read()` from there:
between one byte and the smaller of the count and what is queued, `0` at end of
stream or for a count of `0`, would-block when nothing is queued.
-/

namespace TcpServers

open Lib

/-- The client's stream: what is still to arrive, what is queued, whether the end has arrived. -/
structure Peer where
  toArrive : List Byte
  queue : List Byte
  fin : Bool
  deriving DecidableEq

namespace Peer

/-- Nothing of the byte string has arrived yet. -/
def sending (bytes : List Byte) : Peer := ⟨bytes, [], false⟩

/-- The kernel answers `read(count)`; `none` where it would not answer so. -/
def read (p : Peer) (count : Nat) : ReadResult → Option Peer
  | .data bs =>
      if bs.length = 0 then
        if count = 0 ∨ (p.queue = [] ∧ p.fin = true) then some p else none
      else if bs.length ≤ count ∧ bs.isPrefixOf p.queue = true then
        some { p with queue := p.queue.drop bs.length }
      else none
  | .fail e =>
      if e.wouldBlock then
        if 0 < count ∧ p.queue = [] ∧ p.fin = false then some p else none
      else some p

/-- Everything a `read()` can do to the stream. -/
theorem read_cases {p p' : Peer} {count : Nat} {r : ReadResult} (h : p.read count r = some p') :
    (r = .data [] ∧ p' = p ∧ (count = 0 ∨ (p.queue = [] ∧ p.fin = true))) ∨
    (∃ bs, r = .data bs ∧ 0 < bs.length ∧ bs.length ≤ count ∧ p.queue = bs ++ p'.queue
      ∧ p'.toArrive = p.toArrive ∧ p'.fin = p.fin) ∨
    (∃ e, r = .fail e ∧ p' = p
      ∧ (e.wouldBlock = true → 0 < count ∧ p.queue = [] ∧ p.fin = false)) := by
  cases r with
  | data bs =>
      simp only [read] at h
      split at h
      · rename_i hz
        have hnil : bs = [] := List.length_eq_zero_iff.mp hz
        subst hnil
        split at h
        · rename_i hc
          cases h
          exact Or.inl ⟨rfl, rfl, hc⟩
        · exact absurd h (by simp)
      · rename_i hz
        split at h
        · rename_i hc
          obtain ⟨rest, hrest⟩ := List.isPrefixOf_iff_prefix.mp hc.2
          cases h
          refine Or.inr (Or.inl ⟨bs, rfl, Nat.pos_of_ne_zero hz, hc.1, ?_, rfl, rfl⟩)
          rw [← hrest, List.drop_left]
        · exact absurd h (by simp)
  | fail e =>
      simp only [read] at h
      refine Or.inr (Or.inr ⟨e, rfl, ?_⟩)
      split at h
      · split at h
        · rename_i hc
          cases h
          exact ⟨rfl, fun _ => hc⟩
        · exact absurd h (by simp)
      · rename_i hb
        cases h
        exact ⟨rfl, fun he => absurd he hb⟩

/-- Nothing the client sent is still on its way or unread. -/
def Exhausted (p : Peer) : Prop := p.toArrive = [] ∧ p.queue = []

instance (p : Peer) : Decidable p.Exhausted := inferInstanceAs (Decidable (_ ∧ _))

end Peer

/-- A connection and its client. -/
structure Served where
  conn : Connection
  peer : Peer

namespace Served

inductive Label where
  | server (l : Connection.Label)
  -- the next bytes reach the receive queue
  | arrive (n : Nat)
  -- all bytes have arrived, and the half-close does
  | finish
  deriving DecidableEq, Repr

def next (s : Served) : Label → Option Served
  | .server (.handler (.read r)) =>
      (s.peer.read s.conn.data.readCount r).bind (fun p =>
        (s.conn.next (.handler (.read r))).map (fun c => ⟨c, p⟩))
  | .server l => (s.conn.next l).map (fun c => { s with conn := c })
  | .arrive n =>
      some { s with peer := { s.peer with
        toArrive := s.peer.toArrive.drop n, queue := s.peer.queue ++ s.peer.toArrive.take n } }
  | .finish =>
      if s.peer.toArrive = [] then some { s with peer := { s.peer with fin := true } } else none

/-- A new connection whose client is to send `bytes`. -/
def start (fd : Fd) (bytes : List Byte) : Served := ⟨.accepted fd, .sending bytes⟩

/-- The life of the connection accepted as `fd` from a client that sends `bytes`. -/
def machine (fd : Fd) (bytes : List Byte) : Machine Served Label where
  init s := s = start fd bytes
  next := next

/-- Everything a step can do: a step of the connection, or something arrives. -/
theorem next_cases {s s' : Served} {l : Label} (h : next s l = some s') :
    (∃ c c' p', l = .server c ∧ s.conn.next c = some c' ∧ s' = ⟨c', p'⟩
      ∧ ((∃ r, c = .handler (.read r) ∧ s.peer.read s.conn.data.readCount r = some p')
        ∨ ((∀ r, c ≠ .handler (.read r)) ∧ p' = s.peer))) ∨
    (∃ n, l = .arrive n ∧ s' = { s with peer := { s.peer with
      toArrive := s.peer.toArrive.drop n, queue := s.peer.queue ++ s.peer.toArrive.take n } }) ∨
    (l = .finish ∧ s.peer.toArrive = [] ∧ s' = { s with peer := { s.peer with fin := true } }) := by
  unfold next at h
  split at h
  · rename_i r
    obtain ⟨p, hp, hm⟩ := Option.bind_eq_some_iff.mp h
    obtain ⟨c, hc, rfl⟩ := Option.map_eq_some_iff.mp hm
    exact Or.inl ⟨_, c, p, rfl, hc, rfl, Or.inl ⟨r, rfl, hp⟩⟩
  · rename_i c hne
    obtain ⟨c', hc, rfl⟩ := Option.map_eq_some_iff.mp h
    exact Or.inl ⟨c, c', s.peer, rfl, hc, rfl, Or.inr ⟨hne, rfl⟩⟩
  · rename_i n
    cases h
    exact Or.inr (Or.inl ⟨n, rfl, rfl⟩)
  · split at h
    · rename_i hp
      cases h
      exact Or.inr (Or.inr ⟨rfl, hp, rfl⟩)
    · exact absurd h (by simp)

end Served

end TcpServers
