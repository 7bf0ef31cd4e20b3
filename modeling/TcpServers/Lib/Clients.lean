import TcpServers.Lib.Family
import TcpServers.Lib.Pipe

/-!
# Clients of a service of pipes

A client says something into its end of a wire and hears something from it. Whatever serves
it takes what was said from the other end, and puts there what is to be heard; of that only
what its steps show is known.

What holds of a client with a pipe behind its wire holds of every client of anything that
follows a family of pipes: a client is verified once, for all servers.
-/

namespace Lib

universe u v w x y z

/-- What is on its way to what serves a client, and back from it. -/
structure Wire (β : Type u) where
  up : List β
  down : List β
  deriving DecidableEq, Repr

namespace Wire

variable {β : Type u} [DecidableEq β]

def empty : Wire β := ⟨[], []⟩

/-- The other end: what goes into a pipe comes up the wire, and what comes out goes down. -/
def serve (c : Wire β) : PipeAct β → Option (Wire β)
  | .put bs => if bs <+: c.up then some { c with up := c.up.drop bs.length } else none
  | .get bs => some { c with down := c.down ++ bs }
  | .drop _ => some c

/-- This end: hear, and say. -/
def talk (c : Wire β) (heard said : List β) : Option (Wire β) :=
  if heard <+: c.down then some ⟨c.up ++ said, c.down.drop heard.length⟩ else none

variable {c c' : Wire β} {q q' heard said : List β} {a : PipeAct β}

/-- What is heard was the first thing on its way. -/
theorem talk_cases (h : c.talk heard said = some c') :
    ∃ down, c.down = heard ++ down ∧ c' = ⟨c.up ++ said, down⟩ := by
  unfold talk at h
  split at h
  · rename_i hpre
    obtain ⟨down, hdown⟩ := hpre
    cases h
    refine ⟨down, hdown.symm, ?_⟩
    rw [← hdown, List.drop_left]
  · cases h

/-- A pipe and the wire to it: bytes go from one to the other, or are dropped. -/
theorem serve_cases (hq : pipe.next q a = some q') (hc : c.serve a = some c') :
    (∃ bs up, a = .put bs ∧ c.up = bs ++ up ∧ q' = q ++ bs ∧ c' = ⟨up, c.down⟩)
      ∨ (∃ bs, a = .get bs ∧ q = bs ++ q' ∧ c' = ⟨c.up, c.down ++ bs⟩)
      ∨ ∃ n, a = .drop n ∧ q' = q.drop n ∧ c' = c := by
  cases a with
  | put bs =>
      simp only [serve] at hc
      split at hc
      · rename_i hpre
        obtain ⟨up, hup⟩ := hpre
        cases hq
        cases hc
        refine Or.inl ⟨bs, up, rfl, hup.symm, rfl, ?_⟩
        rw [← hup, List.drop_left]
      · cases hc
  | get bs =>
      simp only [pipe] at hq
      split at hq
      · rename_i hpre
        obtain ⟨rest, hrest⟩ := hpre
        cases hq
        cases hc
        refine Or.inr (Or.inl ⟨bs, rfl, ?_, rfl⟩)
        rw [← hrest, List.drop_left]
      · cases hq
  | drop n =>
      cases hq
      cases hc
      exact Or.inr (Or.inr ⟨n, rfl, rfl, rfl⟩)

end Wire

/-- A client: what it does, and what it says and hears in a step. -/
structure Client (π : Type u) (γ : Type v) (β : Type w) where
  machine : Machine π γ
  output : π → γ → List β
  input : π → γ → List β

namespace Client

variable {π : Type u} {γ : Type v} {β : Type w} {κ : Type x} {σ : Type y} {α : Type z}
  {ρ : Type u} [DecidableEq β] [DecidableEq κ] (P : Client π γ β)

/-- A step of the client, at its end of the wire. -/
def act (e : π × Wire β) (c : γ) : Option (π × Wire β) :=
  (P.machine.next e.1 c).bind (fun p =>
    (e.2.talk (P.input e.1 c) (P.output e.1 c)).map (fun line => (p, line)))

/-- A client with a pipe behind its wire. -/
def session : Machine (List β × π × Wire β) (PipeAct β ⊕ γ) where
  init s := s.1 = [] ∧ P.machine.init s.2.1 ∧ s.2.2 = Wire.empty
  next
    | (q, e), .inl a =>
        (pipe.next q a).bind (fun q' => (e.2.serve a).map (fun line => (q', e.1, line)))
    | (q, e), .inr c => (P.act e c).map (fun e' => (q, e'))

/-- What the other ends of the wires make of a step that was shown. -/
def served (f : κ → π × Wire β) : FamilyAct κ ρ (PipeAct β) → Option (κ → π × Wire β)
  | .spawn _ _ => some f
  | .step k a => ((f k).2.serve a).map (fun line => Function.update f k ((f k).1, line))

/-- A server with its clients: either takes a step, or one of the clients. -/
def system (M : Machine σ α) (obs : σ → α → List (FamilyAct κ ρ (PipeAct β))) :
    Machine (σ × (κ → π × Wire β)) (α ⊕ κ × γ) where
  init s := M.init s.1 ∧ ∀ k, P.machine.init (s.2 k).1 ∧ (s.2 k).2 = Wire.empty
  next
    | (s, f), .inl a =>
        (M.next s a).bind (fun s' => ((obs s a).foldlM served f).map (fun f' => (s', f')))
    | (s, f), .inr (k, c) => (P.act (f k) c).map (fun e => (s, Function.update f k e))

/-- `D`, of the step of whichever member. -/
def StepsOnly (D : PipeAct β → Prop) : FamilyAct κ ρ (PipeAct β) → Prop
  | .spawn _ _ => True
  | .step _ a => D a

instance (D : PipeAct β → Prop) [DecidablePred D] :
    (l : FamilyAct κ ρ (PipeAct β)) → Decidable (StepsOnly D l)
  | .spawn _ _ => isTrue trivial
  | .step _ a => inferInstanceAs (Decidable (D a))

/-- `C` of the steps of the server, and `D` of what they show. -/
def Serving (obs : σ → α → List (FamilyAct κ ρ (PipeAct β))) (C : σ → α → Prop)
    (D : PipeAct β → Prop) (s : σ × (κ → π × Wire β)) : α ⊕ κ × γ → Prop
  | .inl a => C s.1 a ∧ ∀ l ∈ obs s.1 a, StepsOnly D l
  | .inr _ => True

instance (obs : σ → α → List (FamilyAct κ ρ (PipeAct β))) (C : σ → α → Prop)
    (D : PipeAct β → Prop) [∀ s a, Decidable (C s a)] [DecidablePred D]
    (s : σ × (κ → π × Wire β)) : (l : α ⊕ κ × γ) → Decidable (Serving obs C D s l)
  | .inl a => inferInstanceAs (Decidable (C s.1 a ∧ ∀ l ∈ obs s.1 a, StepsOnly D l))
  | .inr _ => isTrue trivial

/-- `D` of the steps of the pipe. -/
def Piping (D : PipeAct β → Prop) (_ : List β × π × Wire β) : PipeAct β ⊕ γ → Prop
  | .inl a => D a
  | .inr _ => True

variable {P} {M : Machine σ α} {obs : σ → α → List (FamilyAct κ ρ (PipeAct β))}
  {C : σ → α → Prop} {D : PipeAct β → Prop} {R : σ → (κ → Option (List β)) → Prop}
  {Q Q' : κ → Option (List β)} {f f' : κ → π × Wire β}

/-- Every client is in a session with its pipe; a pipe that was not started yet is empty. -/
def InSession (P : Client π γ β) (D : PipeAct β → Prop) (Q : κ → Option (List β))
    (f : κ → π × Wire β) : Prop :=
  ∀ k, P.session.ReachableVia (Piping D) ((Q k).getD [], f k)

/-- What a step of the server shows is a step of one session, or of none. -/
theorem InSession.served (h : InSession P D Q f) {l : FamilyAct κ ρ (PipeAct β)}
    (hD : StepsOnly D l) (hQ : (Machine.family pipe (fun _ => [])).next Q l = some Q')
    (hf : Client.served f l = some f') : InSession P D Q' f' := by
  intro j
  rcases Machine.family_cases hQ with ⟨k, r, rfl, hk, rfl⟩ | ⟨k, a, q, q', rfl, hq, hq', rfl⟩
  · cases hf
    by_cases hj : j = k
    · subst hj
      have hold := h j
      rw [hk] at hold
      rw [Function.update_self]
      exact hold
    · rw [Function.update_of_ne hj]
      exact h j
  · obtain ⟨line, hline, rfl⟩ := Option.map_eq_some_iff.mp hf
    by_cases hj : j = k
    · subst hj
      rw [Function.update_self, Function.update_self]
      have hold := h j
      rw [hq] at hold
      refine .tail (a := .inl a) hold hD ?_
      simp only [session, Option.getD_some, hq', Option.bind_some, hline, Option.map_some]
    · rw [Function.update_of_ne hj, Function.update_of_ne hj]
      exact h j

/-- And all it shows are steps of the sessions. -/
theorem InSession.served_all (h : InSession P D Q f) {ls : List (FamilyAct κ ρ (PipeAct β))}
    (hD : ∀ l ∈ ls, StepsOnly D l)
    (hQ : (Machine.family pipe (fun _ => [])).run Q ls = some Q')
    (hf : ls.foldlM Client.served f = some f') : InSession P D Q' f' := by
  induction ls generalizing Q f with
  | nil =>
      cases hQ
      cases hf
      exact h
  | cons l ls ih =>
      rw [Machine.run_cons] at hQ
      rw [List.foldlM_cons] at hf
      obtain ⟨Q₁, hQ₁, hQ⟩ := Option.bind_eq_some_iff.mp hQ
      obtain ⟨f₁, hf₁, hf⟩ := Option.bind_eq_some_iff.mp hf
      refine ih (h.served (hD l List.mem_cons_self) hQ₁ hf₁) (fun m hm => ?_) hQ hf
      exact hD m (List.mem_cons_of_mem _ hm)

/--
**Whatever follows a family of pipes serves every client like a pipe.** In a run of a
server with its clients each client is where some run of its own, with a pipe behind its
wire, takes it.
-/
theorem system_session (hfollows : (Machine.family pipe (fun _ => [])).Follows M C obs R)
    {s : σ × (κ → π × Wire β)} (h : (P.system M obs).ReachableVia (Serving obs C D) s) :
    M.ReachableVia C s.1 ∧ ∃ Q, R s.1 Q ∧ InSession P D Q s.2 := by
  refine h.invariant (I := fun s => M.ReachableVia C s.1 ∧ ∃ Q, R s.1 Q ∧ InSession P D Q s.2)
    ?_ ?_
  · rintro ⟨s, f⟩ ⟨hs, hf⟩
    obtain ⟨Q, hempty, hR⟩ := hfollows.init s hs
    refine ⟨.init hs, Q, hR, fun k => .init ⟨?_, hf k⟩⟩
    rw [hempty k]
    rfl
  · rintro ⟨s, f⟩ l ⟨s', f'⟩ _ ⟨hr, Q, hR, hin⟩ hc hn
    cases l with
    | inl a =>
        obtain ⟨t, ht, hn⟩ := Option.bind_eq_some_iff.mp hn
        obtain ⟨g, hg, heq⟩ := Option.map_eq_some_iff.mp hn
        cases heq
        obtain ⟨Q', hQ', hR'⟩ := hfollows.step s Q a _ hr hR hc.1 ht
        exact ⟨.tail hr hc.1 ht, Q', hR', hin.served_all hc.2 hQ' hg⟩
    | inr kc =>
        obtain ⟨k, c⟩ := kc
        obtain ⟨e, he, heq⟩ := Option.map_eq_some_iff.mp hn
        cases heq
        refine ⟨hr, Q, hR, fun j => ?_⟩
        show P.session.ReachableVia (Piping D) ((Q j).getD [], Function.update f k e j)
        by_cases hj : j = k
        · subst hj
          rw [Function.update_self]
          refine .tail (a := .inr c) (hin j) trivial ?_
          simp only [session, he, Option.map_some]
        · rw [Function.update_of_ne hj]
          exact hin j

/-! ## What was said and what was heard -/

/-- A client that remembers what it has said and heard. -/
structure Records (P : Client π γ β) (said heard : π → List β) : Prop where
  init : ∀ p, P.machine.init p → said p = [] ∧ heard p = []
  step : ∀ p c p', P.machine.next p c = some p' →
    said p' = said p ++ P.output p c ∧ heard p' = heard p ++ P.input p c

/-- What is still on its way, last said last. -/
def underway (s : List β × π × Wire β) : List β := s.2.2.down ++ s.1 ++ s.2.2.up

variable {said heard : π → List β} {s s' : List β × π × Wire β}

/-- Everything a step of a session can do. -/
theorem session_cases {l : PipeAct β ⊕ γ} (h : P.session.next s l = some s') :
    (∃ bs up, l = .inl (.put bs) ∧ s.2.2.up = bs ++ up
        ∧ s' = (s.1 ++ bs, s.2.1, ⟨up, s.2.2.down⟩))
      ∨ (∃ bs q, l = .inl (.get bs) ∧ s.1 = bs ++ q
          ∧ s' = (q, s.2.1, ⟨s.2.2.up, s.2.2.down ++ bs⟩))
      ∨ (∃ n, l = .inl (.drop n) ∧ s' = (s.1.drop n, s.2))
      ∨ ∃ c p down, l = .inr c ∧ P.machine.next s.2.1 c = some p
          ∧ s.2.2.down = P.input s.2.1 c ++ down
          ∧ s' = (s.1, p, ⟨s.2.2.up ++ P.output s.2.1 c, down⟩) := by
  obtain ⟨q, p, line⟩ := s
  cases l with
  | inl a =>
      obtain ⟨q', hq', h⟩ := Option.bind_eq_some_iff.mp h
      obtain ⟨line', hline, rfl⟩ := Option.map_eq_some_iff.mp h
      rcases Wire.serve_cases hq' hline with ⟨bs, up, rfl, hup, rfl, rfl⟩ | ⟨bs, rfl, hq, rfl⟩
        | ⟨n, rfl, rfl, rfl⟩
      · exact Or.inl ⟨bs, up, rfl, hup, rfl⟩
      · exact Or.inr (Or.inl ⟨bs, q', rfl, hq, rfl⟩)
      · exact Or.inr (Or.inr (Or.inl ⟨n, rfl, rfl⟩))
  | inr c =>
      obtain ⟨e, he, rfl⟩ := Option.map_eq_some_iff.mp h
      obtain ⟨p', hp', he⟩ := Option.bind_eq_some_iff.mp he
      obtain ⟨line', hline, rfl⟩ := Option.map_eq_some_iff.mp he
      obtain ⟨down, hdown, rfl⟩ := Wire.talk_cases hline
      exact Or.inr (Or.inr (Or.inr ⟨c, p', down, rfl, hp', hdown, rfl⟩))

/-- In a session the client goes through steps of its own. -/
theorem session_client (h : P.session.ReachableVia (Piping D) s) : P.machine.Reachable s.2.1 := by
  refine h.invariant (I := fun s => P.machine.Reachable s.2.1) ?_ ?_
  · rintro ⟨q, p, line⟩ ⟨_, hp, _⟩
    exact .init hp
  · rintro ⟨q, p, up, down⟩ l s' _ ih _ hn
    rcases session_cases hn with ⟨bs, rest, rfl, hup, rfl⟩ | ⟨bs, rest, rfl, hq, rfl⟩
      | ⟨n, rfl, rfl⟩ | ⟨c, p', rest, rfl, hp', hdown, rfl⟩
    · exact ih
    · exact ih
    · exact ih
    · exact .tail ih trivial hp'

/-- **A client hears only what it said**, in that order, and nothing twice. -/
theorem session_sublist (hrec : Records P said heard)
    (h : P.session.ReachableVia (Piping D) s) :
    (heard s.2.1 ++ underway s).Sublist (said s.2.1) := by
  refine h.invariant (I := fun s => (heard s.2.1 ++ underway s).Sublist (said s.2.1)) ?_ ?_
  · rintro ⟨q, p, line⟩ ⟨hq, hp, hline⟩
    obtain ⟨hsaid, hheard⟩ := hrec.init p hp
    dsimp only at hq hline
    rw [hq, hline]
    simp only [hheard, hsaid, underway, Wire.empty, List.append_nil]
    exact List.Sublist.refl _
  · rintro ⟨q, p, up, down⟩ l s' _ ih _ hn
    rcases session_cases hn with ⟨bs, rest, rfl, hup, rfl⟩ | ⟨bs, rest, rfl, hq, rfl⟩
      | ⟨n, rfl, rfl⟩ | ⟨c, p', rest, rfl, hp', hdown, rfl⟩
    · dsimp only [underway] at hup ih ⊢
      rw [hup] at ih
      simpa only [List.append_assoc] using ih
    · dsimp only [underway] at hq ih ⊢
      rw [hq] at ih
      simpa only [List.append_assoc] using ih
    · refine List.Sublist.trans ?_ ih
      dsimp only [underway]
      exact (List.Sublist.refl _).append
        (((List.Sublist.refl _).append (List.drop_sublist n q)).append (List.Sublist.refl _))
    · obtain ⟨hsaid, hheard⟩ := hrec.step p c p' hp'
      dsimp only [underway] at hdown ih ⊢
      rw [hsaid, hheard]
      rw [hdown] at ih
      have hmore := ih.append (List.Sublist.refl (P.output p c))
      simpa only [List.append_assoc] using hmore

/-- **Where nothing is dropped** a client has heard all it said but what is underway. -/
theorem session_lossless (hrec : Records P said heard)
    (h : P.session.ReachableVia (Piping fun a => ∀ n, a = .drop n → n = 0) s) :
    heard s.2.1 ++ underway s = said s.2.1 := by
  refine h.invariant (I := fun s => heard s.2.1 ++ underway s = said s.2.1) ?_ ?_
  · rintro ⟨q, p, line⟩ ⟨hq, hp, hline⟩
    obtain ⟨hsaid, hheard⟩ := hrec.init p hp
    dsimp only at hq hline
    rw [hq, hline]
    simp only [hheard, hsaid, underway, Wire.empty, List.append_nil]
  · rintro ⟨q, p, up, down⟩ l s' _ ih hc hn
    rcases session_cases hn with ⟨bs, rest, rfl, hup, rfl⟩ | ⟨bs, rest, rfl, hq, rfl⟩
      | ⟨n, rfl, rfl⟩ | ⟨c, p', rest, rfl, hp', hdown, rfl⟩
    · dsimp only [underway] at hup ih ⊢
      rw [← ih, hup]
      simp only [List.append_assoc]
    · dsimp only [underway] at hq ih ⊢
      rw [← ih, hq]
      simp only [List.append_assoc]
    · obtain rfl : n = 0 := hc n rfl
      exact ih
    · obtain ⟨hsaid, hheard⟩ := hrec.step p c p' hp'
      dsimp only [underway] at hdown ih ⊢
      rw [hsaid, hheard, ← ih, hdown]
      simp only [List.append_assoc]

end Client

end Lib
