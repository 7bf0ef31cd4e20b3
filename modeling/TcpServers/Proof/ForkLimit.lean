import Mathlib.Data.Finset.Card
import Mathlib.Order.Interval.Finset.Basic
import TcpServers.Proof.ForkDescriptors

/-!
# How many clients the forking server serves

The parent forks without closing its own descriptor of the connection. Unless the object
that holds it does, every client served takes one of the parent's descriptors away for
good, and after as many as the limit allows no `accept()` succeeds. With an object that
closes what it holds there is no such bound.
-/

namespace TcpServers.Fork

open Lib

variable {cfg : Config} {s : Fork}

theorem toNat_inj {fd fd' : Fd} (h : 0 ≤ fd) (h' : 0 ≤ fd') (heq : fd.toNat = fd'.toNat) :
    fd = fd' := by
  rw [← Int.toNat_of_nonneg h, ← Int.toNat_of_nonneg h', heq]

/-- The descriptors of the children are different ones, none of them the listener's. -/
theorem served_le (h : DescInv cfg s) (hcloses : cfg.closesOnDestroy = false) {cs : Finset Nat}
    (hcs : ∀ c ∈ cs, (s.child c).isSome) : cs.card + 1 ≤ cfg.nofile := by
  have hfd : ∀ c ∈ cs, ∃ fd, s.clientOf c = some fd := by
    intro c hc
    obtain ⟨ch, hch⟩ := Option.isSome_iff_exists.mp (hcs c hc)
    exact ⟨ch.clientSfd, clientOf_some.mpr ⟨ch, hch, rfl⟩⟩
  have hlisten : cfg.serverSfd.toNat ∈ Finset.range cfg.nofile :=
    Finset.mem_range.mpr ((Int.toNat_lt cfg.serverSfd_nonneg).mpr cfg.serverSfd_lt)
  -- every child against its descriptor
  have hmaps : ∀ c ∈ cs, ((s.clientOf c).getD 0).toNat
      ∈ (Finset.range cfg.nofile).erase cfg.serverSfd.toNat := by
    intro c hc
    obtain ⟨fd, hclient⟩ := hfd c hc
    obtain ⟨h0, hlt, hne⟩ := h.clients fd c hclient
    rw [hclient, Option.getD_some, Finset.mem_erase, Finset.mem_range]
    exact ⟨fun heq => hne (toNat_inj h0 cfg.serverSfd_nonneg heq), (Int.toNat_lt h0).mpr hlt⟩
  have hinj : Set.InjOn (fun c => ((s.clientOf c).getD 0).toNat) cs := by
    intro c hc d hd heq
    obtain ⟨fd, hclient⟩ := hfd c hc
    obtain ⟨fd', hclient'⟩ := hfd d hd
    simp only [hclient, hclient', Option.getD_some] at heq
    have hsame := toNat_inj (h.clients fd c hclient).1 (h.clients fd' d hclient').1 heq
    subst hsame
    exact h.distinct hcloses fd c d hclient hclient'
  have hcard := Finset.card_le_card_of_injOn _ hmaps hinj
  rw [← Finset.card_range cfg.nofile, ← Finset.card_erase_add_one hlisten]
  omega

/-! ## Where the parent closes -/

/-- A descriptor the parent can be given while it has the listener only. -/
def firstFree (cfg : Config) : Fd := if cfg.serverSfd = 0 then 1 else 0

theorem firstFree_ok (h2 : 2 ≤ cfg.nofile) :
    0 ≤ firstFree cfg ∧ firstFree cfg < cfg.nofile ∧ firstFree cfg ≠ cfg.serverSfd := by
  unfold firstFree
  split
  · rename_i h
    have hlt : (1 : Int) < cfg.nofile := by omega
    exact ⟨by decide, hlt, by rw [h]; decide⟩
  · rename_i h
    have hlt : (0 : Int) < cfg.nofile := by omega
    exact ⟨by decide, hlt, fun heq => h heq.symm⟩

/-- One client more: accepted, forked for, and closed in the parent. -/
theorem serve_one (hcloses : cfg.closesOnDestroy = true) (h2 : 2 ≤ cfg.nofile)
    (hr : (machine cfg).Reachable s) (hpc : s.pc = .accept)
    (hfds : ∀ fd, s.fds fd ≠ none → fd = cfg.serverSfd) :
    ∃ s', (machine cfg).Reachable s' ∧ s'.pc = .accept ∧ s'.nextConn = s.nextConn + 1
      ∧ (∀ fd, s'.fds fd ≠ none → fd = cfg.serverSfd)
      ∧ ∀ c, c = s.nextConn ∨ (s.child c).isSome → (s'.child c).isSome := by
  obtain ⟨h0, hlt, hne⟩ := firstFree_ok h2
  have hfree : s.fds (firstFree cfg) = none := by
    by_contra hopen
    exact hne (hfds _ hopen)
  have haccept : (machine cfg).next s (.accept (.ok (firstFree cfg))) = some { s with
      fds := Function.update s.fds (firstFree cfg) (some (.conn s.nextConn))
      pc := .fork (firstFree cfg) s.nextConn
      nextConn := s.nextConn + 1 } := by
    simp only [machine, next, accept, hpc, h0, hlt, hfree, and_self, if_true]
  have hr₁ := Machine.ReachableVia.tail hr trivial haccept
  have hr₂ := Machine.ReachableVia.tail (a := .fork true) hr₁ trivial rfl
  have hr₃ := Machine.ReachableVia.tail (a := .parent) hr₂ trivial rfl
  refine ⟨_, hr₃, rfl, rfl, fun fd hfd => ?_, fun c hc => ?_⟩
  · simp only [hcloses, if_true] at hfd
    by_cases hfirst : fd = firstFree cfg
    · rw [hfirst, Function.update_self] at hfd
      exact absurd rfl hfd
    · simp only [Function.update_of_ne hfirst, setChild_fds] at hfd
      exact hfds fd hfd
  · by_cases hnew : c = s.nextConn
    · subst hnew
      simp
    · simpa [Function.update_of_ne hnew] using hc.resolve_left hnew

/-- Any number of clients, one after the other. -/
theorem serve_many (hcloses : cfg.closesOnDestroy = true) (h2 : 2 ≤ cfg.nofile) (n : Nat) :
    ∃ s, (machine cfg).Reachable s ∧ s.pc = .accept ∧ s.nextConn = n
      ∧ (∀ fd, s.fds fd ≠ none → fd = cfg.serverSfd) ∧ ∀ c < n, (s.child c).isSome := by
  induction n with
  | zero =>
      refine ⟨start cfg (fun _ => 0), .init ⟨_, rfl⟩, rfl, rfl, fun fd hfd => ?_, ?_⟩
      · obtain ⟨f, hf⟩ := Option.ne_none_iff_exists'.mp hfd
        exact (start_fds.mp hf).1
      · intro c hc
        exact absurd hc (Nat.not_lt_zero c)
  | succ n ih =>
      obtain ⟨s, hr, hpc, hn, hfds, hchild⟩ := ih
      obtain ⟨s', hr', hpc', hn', hfds', hchild'⟩ := serve_one hcloses h2 hr hpc hfds
      refine ⟨s', hr', hpc', by rw [hn', hn], hfds', fun c hc => hchild' c ?_⟩
      rcases Nat.lt_succ_iff_lt_or_eq.mp hc with hlt | heq
      · exact Or.inr (hchild c hlt)
      · exact Or.inl (heq.trans hn.symm)

end TcpServers.Fork
