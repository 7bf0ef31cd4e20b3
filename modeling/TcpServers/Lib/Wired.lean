import TcpServers.Lib.Clients

/-!
# A process at the other ends of the wires

Where one process has many of the wires its connections are no clients of their own: what it
says on one may depend on all it has heard. What its steps show is with which wires it talks,
what it hears there and what it says. Whatever it is, nothing is heard on a wire that was not
said on it, as long as what serves the wires follows a family of pipes.
-/

namespace Lib

universe u v w x y z

variable {σ : Type u} {α : Type v} {τ : Type w} {γ : Type x} {κ : Type y} {ρ : Type u}
  {β : Type z} [DecidableEq κ]

/-- What a process does at one of its wires. -/
structure Talk (κ : Type y) (β : Type z) where
  wire : κ
  heard : List β
  said : List β

namespace Talk

/-- What was heard on a wire. -/
def heardOn (k : κ) (ls : List (Talk κ β)) : List β :=
  ls.flatMap fun l => if l.wire = k then l.heard else []

/-- What was said on a wire. -/
def saidOn (k : κ) (ls : List (Talk κ β)) : List β :=
  ls.flatMap fun l => if l.wire = k then l.said else []

variable [DecidableEq β]

/-- This end of the wires. -/
def act (f : κ → Wire β) (l : Talk κ β) : Option (κ → Wire β) :=
  ((f l.wire).talk l.heard l.said).map (fun line => Function.update f l.wire line)

/-- The other end of the wires. -/
def serve (f : κ → Wire β) : FamilyAct κ ρ (PipeAct β) → Option (κ → Wire β)
  | .spawn _ _ => some f
  | .step k a => ((f k).serve a).map (fun line => Function.update f k line)

variable {f f' : κ → Wire β}

theorem act_cases {l : Talk κ β} (h : act f l = some f') :
    (∃ down, (f l.wire).down = l.heard ++ down
        ∧ f' l.wire = ⟨(f l.wire).up ++ l.said, down⟩)
      ∧ ∀ k, k ≠ l.wire → f' k = f k := by
  obtain ⟨line, hline, rfl⟩ := Option.map_eq_some_iff.mp h
  obtain ⟨down, hdown, rfl⟩ := Wire.talk_cases hline
  exact ⟨⟨down, hdown, Function.update_self _ _ _⟩, fun k hk => Function.update_of_ne hk _ _⟩

/-- What is heard comes down a wire, and what is said goes up. -/
theorem acts_cases {ls : List (Talk κ β)} (h : ls.foldlM act f = some f') (k : κ) :
    heardOn k ls ++ (f' k).down = (f k).down ∧ (f' k).up = (f k).up ++ saidOn k ls := by
  induction ls generalizing f with
  | nil =>
      cases h
      exact ⟨rfl, (List.append_nil _).symm⟩
  | cons l ls ih =>
      rw [List.foldlM_cons] at h
      obtain ⟨f₁, h₁, h⟩ := Option.bind_eq_some_iff.mp h
      obtain ⟨hdown, hup⟩ := ih h
      obtain ⟨⟨down, hfirst, hline⟩, hother⟩ := act_cases h₁
      by_cases hk : l.wire = k
      · subst hk
        rw [hline] at hdown hup
        simp only [heardOn, saidOn, List.flatMap_cons, if_true, List.append_assoc] at hdown hup ⊢
        exact ⟨by rw [hdown, hfirst], hup⟩
      · rw [hother k (Ne.symm hk)] at hdown hup
        simp only [heardOn, saidOn, List.flatMap_cons, if_neg hk, List.nil_append] at hdown hup ⊢
        exact ⟨hdown, hup⟩

/-- What is on its way on a wire and back, with what is in its pipe. -/
def between (Q : κ → Option (List β)) (f : κ → Wire β) (k : κ) : List β :=
  (f k).down ++ (Q k).getD [] ++ (f k).up

variable {Q Q' : κ → Option (List β)}

/-- The other end only passes on, unless it drops something. -/
theorem serve_between {l : FamilyAct κ ρ (PipeAct β)}
    (hQ : (Machine.family pipe (fun _ => [])).next Q l = some Q') (hf : serve f l = some f')
    (k : κ) : (between Q' f' k).Sublist (between Q f k)
      ∧ ((∀ n, l = .step k (.drop n) → n = 0) → between Q' f' k = between Q f k) := by
  unfold between
  rcases Machine.family_cases hQ with ⟨j, r, rfl, hj, rfl⟩ | ⟨j, a, q, q', rfl, hq, hq', rfl⟩
  · cases hf
    have hsame : (Function.update Q j (some []) k).getD [] = (Q k).getD [] := by
      by_cases hk : k = j
      · rw [hk, Function.update_self, hj]
        rfl
      · rw [Function.update_of_ne hk]
    rw [hsame]
    exact ⟨List.Sublist.refl _, fun _ => rfl⟩
  · obtain ⟨line, hline, rfl⟩ := Option.map_eq_some_iff.mp hf
    by_cases hk : k = j
    · subst hk
      rw [Function.update_self, Function.update_self, hq, Option.getD_some, Option.getD_some]
      rcases Wire.serve_cases hq' hline with ⟨bs, up, rfl, hup, rfl, rfl⟩ | ⟨bs, rfl, rfl, rfl⟩
        | ⟨n, rfl, rfl, rfl⟩
      · have heq : (f k).down ++ (q ++ bs) ++ up = (f k).down ++ q ++ (f k).up := by
          rw [hup]
          simp only [List.append_assoc]
        rw [heq]
        exact ⟨List.Sublist.refl _, fun _ => rfl⟩
      · have heq : (f k).down ++ bs ++ q' ++ (f k).up = (f k).down ++ (bs ++ q') ++ (f k).up := by
          simp only [List.append_assoc]
        rw [heq]
        exact ⟨List.Sublist.refl _, fun _ => rfl⟩
      · refine ⟨((List.Sublist.refl _).append (List.drop_sublist n q)).append
          (List.Sublist.refl _), fun hkeeps => ?_⟩
        rw [hkeeps n rfl, List.drop_zero]
    · rw [Function.update_of_ne hk, Function.update_of_ne hk]
      exact ⟨List.Sublist.refl _, fun _ => rfl⟩

/-- All that a step of what serves the wires shows. -/
theorem serves_between {ls : List (FamilyAct κ ρ (PipeAct β))}
    (hQ : (Machine.family pipe (fun _ => [])).run Q ls = some Q')
    (hf : ls.foldlM serve f = some f') (k : κ) :
    (between Q' f' k).Sublist (between Q f k)
      ∧ ((∀ n, .step k (.drop n) ∈ ls → n = 0) → between Q' f' k = between Q f k) := by
  induction ls generalizing Q f with
  | nil =>
      cases hQ
      cases hf
      exact ⟨List.Sublist.refl _, fun _ => rfl⟩
  | cons l ls ih =>
      rw [Machine.run_cons] at hQ
      rw [List.foldlM_cons] at hf
      obtain ⟨Q₁, hQ₁, hQ⟩ := Option.bind_eq_some_iff.mp hQ
      obtain ⟨f₁, hf₁, hf⟩ := Option.bind_eq_some_iff.mp hf
      obtain ⟨hsub, hsame⟩ := ih hQ hf
      obtain ⟨hsub₁, hsame₁⟩ := serve_between hQ₁ hf₁ k
      refine ⟨hsub.trans hsub₁, fun hkeeps => ?_⟩
      rw [hsame (fun n hmem => hkeeps n (List.mem_cons_of_mem _ hmem)),
        hsame₁ (fun n hl => hkeeps n (by rw [hl]; exact List.mem_cons_self))]

/-- What comes out of the pipes goes down the wires. -/
theorem serve_down {l : FamilyAct κ ρ (PipeAct β)} (hf : serve f l = some f') (k : κ) :
    (f' k).down = (f k).down ++ PipeAct.taken (FamilyAct.of k [l]) := by
  cases l with
  | spawn j r =>
      cases hf
      exact (List.append_nil _).symm
  | step j a =>
      obtain ⟨line, hline, rfl⟩ := Option.map_eq_some_iff.mp hf
      by_cases hk : k = j
      · subst hk
        rw [Function.update_self, FamilyAct.of_step_self]
        cases a with
        | put bs =>
            simp only [Wire.serve] at hline
            split at hline
            · cases hline
              exact (List.append_nil _).symm
            · cases hline
        | get bs =>
            cases hline
            exact congrArg _ (List.append_nil bs).symm
        | drop n =>
            cases hline
            exact (List.append_nil _).symm
      · rw [Function.update_of_ne hk, FamilyAct.of_step_ne (Ne.symm hk)]
        exact (List.append_nil _).symm

theorem serves_down {ls : List (FamilyAct κ ρ (PipeAct β))} (hf : ls.foldlM serve f = some f')
    (k : κ) : (f' k).down = (f k).down ++ PipeAct.taken (FamilyAct.of k ls) := by
  induction ls generalizing f with
  | nil =>
      cases hf
      exact (List.append_nil _).symm
  | cons l ls ih =>
      rw [List.foldlM_cons] at hf
      obtain ⟨f₁, hf₁, hf⟩ := Option.bind_eq_some_iff.mp hf
      rw [ih hf, serve_down hf₁ k, List.append_assoc, ← PipeAct.taken_append,
        ← FamilyAct.of_append]
      rfl

end Talk

/-! ## The whole -/

variable [DecidableEq β]

/-- What serves the wires, and the process at their other ends: either takes a step. -/
def wired (M : Machine σ α) (obs : σ → α → List (FamilyAct κ ρ (PipeAct β))) (N : Machine τ γ)
    (talks : τ → γ → List (Talk κ β)) : Machine (σ × τ × (κ → Wire β)) (α ⊕ γ) where
  init s := M.init s.1 ∧ N.init s.2.1 ∧ ∀ k, s.2.2 k = Wire.empty
  next
    | (s, t, f), .inl a =>
        (M.next s a).bind (fun s' => ((obs s a).foldlM Talk.serve f).map (fun f' => (s', t, f')))
    | (s, t, f), .inr c =>
        (N.next t c).bind (fun t' => ((talks t c).foldlM Talk.act f).map (fun f' => (s, t', f')))

/-- `C` of the steps of the one, `E` of the steps of the other. -/
def Wiring (C : σ → α → Prop) (E : τ → γ → Prop) (s : σ × τ × (κ → Wire β)) : α ⊕ γ → Prop
  | .inl a => C s.1 a
  | .inr c => E s.2.1 c

instance (C : σ → α → Prop) (E : τ → γ → Prop) [∀ s a, Decidable (C s a)]
    [∀ t c, Decidable (E t c)] (s : σ × τ × (κ → Wire β)) : (l : α ⊕ γ) →
      Decidable (Wiring C E s l)
  | .inl a => inferInstanceAs (Decidable (C s.1 a))
  | .inr c => inferInstanceAs (Decidable (E s.2.1 c))

/-- The step drops nothing of what is in the pipe of the wire. -/
def Keeps (obs : σ → α → List (FamilyAct κ ρ (PipeAct β))) (k : κ) (s : σ) (a : α) : Prop :=
  ∀ n, .step k (.drop n) ∈ obs s a → n = 0

/-- A process that remembers what was said and heard on its wires. -/
structure Recorded (N : Machine τ γ) (talks : τ → γ → List (Talk κ β))
    (said heard : τ → κ → List β) : Prop where
  init : ∀ t, N.init t → ∀ k, said t k = [] ∧ heard t k = []
  step : ∀ t c t', N.next t c = some t' → ∀ k,
    said t' k = said t k ++ Talk.saidOn k (talks t c)
      ∧ heard t' k = heard t k ++ Talk.heardOn k (talks t c)

/--
**What is heard on a wire was said on it**, in that order and nothing twice, as long as what
serves the wires follows a family of pipes; and where no step of the run drops any of it, what
was said has been heard, or is on its way, or in the pipe.
-/
theorem wired_conserved {M : Machine σ α} {obs : σ → α → List (FamilyAct κ ρ (PipeAct β))}
    {N : Machine τ γ} {talks : τ → γ → List (Talk κ β)} {C : σ → α → Prop} {E : τ → γ → Prop}
    {R : σ → (κ → Option (List β)) → Prop} {said heard : τ → κ → List β}
    (hfollows : (Machine.family pipe (fun _ => [])).Follows M C obs R)
    (hrec : Recorded N talks said heard) {s₀ s : σ × τ × (κ → Wire β)} {ls : List (α ⊕ γ)}
    (h0 : (wired M obs N talks).init s₀) (hrun : (wired M obs N talks).run s₀ ls = some s)
    (hC : (wired M obs N talks).Along (Wiring C E) s₀ ls) :
    M.ReachableVia C s.1 ∧ N.ReachableVia E s.2.1 ∧ ∃ Q, R s.1 Q
      ∧ ∀ k, (heard s.2.1 k ++ Talk.between Q s.2.2 k).Sublist (said s.2.1 k)
        ∧ ((wired M obs N talks).Along (Wiring (Keeps obs k) fun _ _ => True) s₀ ls →
            heard s.2.1 k ++ Talk.between Q s.2.2 k = said s.2.1 k) := by
  refine Machine.run_induction (M := wired M obs N talks)
    (fun ls s => (wired M obs N talks).Along (Wiring C E) s₀ ls →
      M.ReachableVia C s.1 ∧ N.ReachableVia E s.2.1 ∧ ∃ Q, R s.1 Q
        ∧ ∀ k, (heard s.2.1 k ++ Talk.between Q s.2.2 k).Sublist (said s.2.1 k)
          ∧ ((wired M obs N talks).Along (Wiring (Keeps obs k) fun _ _ => True) s₀ ls →
              heard s.2.1 k ++ Talk.between Q s.2.2 k = said s.2.1 k)) ?_ ?_ hrun hC
  · obtain ⟨s, t, f⟩ := s₀
    obtain ⟨hs, ht, hf⟩ := h0
    obtain ⟨Q, hempty, hR⟩ := hfollows.init s hs
    refine fun _ => ⟨.init hs, .init ht, Q, hR, fun k => ?_⟩
    obtain ⟨hsaid, hheard⟩ := hrec.init t ht k
    have hnil : heard t k ++ Talk.between Q f k = said t k := by
      have hline : f k = Wire.empty := hf k
      rw [Talk.between, hsaid, hheard, hline, hempty k]
      rfl
    exact ⟨by rw [hnil], fun _ => hnil⟩
  · rintro ls ⟨s, t, f⟩ l ⟨s', t', f'⟩ hm ih hn hC
    obtain ⟨hC, hc⟩ := (Machine.along_snoc hm).mp hC
    obtain ⟨hr, hrt, Q, hR, hall⟩ := ih hC
    cases l with
    | inl a =>
        obtain ⟨m, hm', hn⟩ := Option.bind_eq_some_iff.mp hn
        obtain ⟨g, hg, heq⟩ := Option.map_eq_some_iff.mp hn
        cases heq
        obtain ⟨Q', hQ', hR'⟩ := hfollows.step s Q a _ hr hR hc hm'
        refine ⟨.tail hr hc hm', hrt, Q', hR', fun k => ?_⟩
        obtain ⟨hsub, hsame⟩ := Talk.serves_between hQ' hg k
        obtain ⟨hold, holdeq⟩ := hall k
        refine ⟨((List.Sublist.refl _).append hsub).trans hold, fun hkeeps => ?_⟩
        obtain ⟨hkeeps, hlast⟩ := (Machine.along_snoc hm).mp hkeeps
        rw [← holdeq hkeeps]
        exact congrArg _ (hsame hlast)
    | inr c =>
        obtain ⟨m, hm', hn⟩ := Option.bind_eq_some_iff.mp hn
        obtain ⟨g, hg, heq⟩ := Option.map_eq_some_iff.mp hn
        cases heq
        refine ⟨hr, .tail hrt hc hm', Q, hR, fun k => ?_⟩
        obtain ⟨hdown, hup⟩ := Talk.acts_cases hg k
        obtain ⟨hsaid, hheard⟩ := hrec.step t c _ hm' k
        obtain ⟨hold, holdeq⟩ := hall k
        have hmoved : heard t' k ++ Talk.between Q f' k
            = heard t k ++ Talk.between Q f k ++ Talk.saidOn k (talks t c) := by
          simp only [Talk.between, hheard, hup, ← hdown, List.append_assoc]
        dsimp only at hold holdeq ⊢
        rw [hmoved, hsaid]
        refine ⟨hold.append (List.Sublist.refl _), fun hkeeps => ?_⟩
        rw [holdeq ((Machine.along_snoc hm).mp hkeeps).1]

/-- What never takes anything out of a pipe lets nothing down the wires. -/
theorem wired_silent {M : Machine σ α} {obs : σ → α → List (FamilyAct κ ρ (PipeAct β))}
    {N : Machine τ γ} {talks : τ → γ → List (Talk κ β)} {C : σ → α → Prop} {E : τ → γ → Prop}
    (hsilent : ∀ s a k, PipeAct.taken (FamilyAct.of k (obs s a)) = [])
    {s : σ × τ × (κ → Wire β)} (h : (wired M obs N talks).ReachableVia (Wiring C E) s) (k : κ) :
    (s.2.2 k).down = [] := by
  refine h.invariant (I := fun s => (s.2.2 k).down = []) ?_ ?_
  · rintro ⟨s, t, f⟩ ⟨_, _, hf⟩
    exact congrArg Wire.down (hf k)
  · rintro ⟨s, t, f⟩ l ⟨s', t', f'⟩ _ hdown _ hn
    cases l with
    | inl a =>
        obtain ⟨m, _, hn⟩ := Option.bind_eq_some_iff.mp hn
        obtain ⟨g, hg, heq⟩ := Option.map_eq_some_iff.mp hn
        cases heq
        exact (Talk.serves_down hg k).trans (by rw [hsilent, List.append_nil]; exact hdown)
    | inr c =>
        obtain ⟨m, _, hn⟩ := Option.bind_eq_some_iff.mp hn
        obtain ⟨g, hg, heq⟩ := Option.map_eq_some_iff.mp hn
        cases heq
        have hheard := (Talk.acts_cases hg k).1
        exact (List.append_eq_nil_iff.mp (hheard.trans hdown)).2

end Lib
