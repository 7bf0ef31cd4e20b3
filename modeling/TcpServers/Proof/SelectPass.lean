import TcpServers.Lib.Amortized
import TcpServers.Proof.SelectScan

/-!
# The select server gets back to `select()`

A pass of the scan ends: it costs so many statements for each number below `FD_SETSIZE`,
and besides only what the clients make it do, a statement for each connection they open
and three for each chunk they send. That is all they can hold the server with.
-/

namespace TcpServers.SelectServer

open Lib

variable {cfg : Config} {s s' : SelectServer} {l : Label}

/-- The statements for the numbers from `k` on: the test, the last `read()` and the closing. -/
def scanLeft (k : Int) : Nat := 3 * (fdSetsize - k).toNat + 1

/-- The statements a pass has left, new connections and new chunks apart. -/
def passLeft : SelectPc → Nat
  | .select | .thrown => 0
  | .scan i => scanLeft i
  | .accept i => scanLeft (i + 1) + 2
  | .read i => scanLeft (i + 1) + 2
  | .logReceived i _ => scanLeft (i + 1) + 4
  | .write i _ => scanLeft (i + 1) + 3
  | .close i => scanLeft (i + 1) + 1

/-- What the clients hold the server with. -/
def demands : Label → Nat
  | .accept4 (.ok _) => 1
  | .read (.data (_ :: _)) => 3
  | _ => 0

/-- A number the scan has to look at costs three statements. -/
theorem scanLeft_step {i : Int} (hi : i < fdSetsize) : scanLeft i = scanLeft (i + 1) + 3 := by
  unfold scanLeft
  omega

theorem one_le_scanLeft (k : Int) : 1 ≤ scanLeft k := by
  unfold scanLeft
  omega

/-- The scan goes no further than `FD_SETSIZE`. -/
theorem SetsInv.scan_lt (h : SetsInv cfg s) (hbelow : cfg.serverSfd < fdSetsize) {i : Int}
    (hi : i ≤ s.maxSfd) : i < fdSetsize := by
  have hmem : s.readFdBackupSet s.maxSfd = true := h.greatest.1
  rcases (h.members s.maxSfd).mp hmem with heq | hopen
  · exact Int.lt_of_le_of_lt (Int.le_trans hi (Int.le_of_eq heq)) hbelow
  · obtain ⟨c, hc⟩ := hopen
    exact Int.lt_of_le_of_lt hi (h.client s.maxSfd c hc).2.2

/-- **A statement of the pass** pays for itself, what the clients demand apart. -/
theorem passLeft_step (h : SetsInv cfg s) (hbelow : cfg.serverSfd < fdSetsize)
    (hl : InPass l) (hs : Step cfg s l s') :
    passLeft s'.pc + 1 ≤ passLeft s.pc + demands l := by
  cases hs with
  | select | selectFailed => exact absurd hl id
  | @pass i hpc hlt =>
      have hstep := scanLeft_step (h.scan_lt hbelow hlt)
      simp only [hpc, passLeft, demands]
      omega
  | connection hpc =>
      have hstep := scanLeft_step hbelow
      simp only [hpc, passLeft, demands]
      omega
  | @readable i hpc hlt =>
      have hstep := scanLeft_step (h.scan_lt hbelow hlt)
      simp only [hpc, passLeft, demands]
      omega
  | @scanned i hpc =>
      have hone := one_le_scanLeft i
      simp only [hpc, passLeft, demands]
      omega
  | @chunk i c bs hpc hopen hpos =>
      cases bs with
      | nil => simp at hpos
      | cons b bs =>
          simp only [hpc, passLeft, demands]
          omega
  | accepted hpc | noMore hpc | acceptFailed hpc | endOfStream hpc | drained hpc
  | readFailed hpc | logged hpc | wrote hpc | blocked hpc | writeFailed hpc | close hpc =>
      simp only [hpc, passLeft, demands]
      omega

/-! ## Passes -/

/-- From anywhere in a pass, the statements are paid for. -/
theorem scan_statements (hbelow : cfg.serverSfd < fdSetsize) (h : SetsInv cfg s)
    {ls : List Label} (hrun : (machine cfg).run s ls = some s')
    (hpass : (machine cfg).Along (fun s l => BelowSetsize s l ∧ InPass l) s ls) :
    passLeft s'.pc + ls.length ≤ passLeft s.pc + Machine.weight demands ls := by
  have hpaid := Machine.accounting (I := SetsInv cfg) (fun s => passLeft s.pc) (fun _ => 1) demands
    h (fun _ _ _ hi hl hn => setsInv_step hi hl.1 (next_cases hn))
    (fun _ _ _ hi hl hn => passLeft_step hi hbelow hl.2 (next_cases hn)) hrun hpass
  rw [Machine.weight_one] at hpaid
  exact hpaid

/-- In a pass there is a next statement. -/
theorem exists_inPass (cfg : Config) (hscan : s.pc ≠ .select) (hgoes : s.pc ≠ .thrown) :
    ∃ l, InPass l ∧ (s.next cfg l).isSome := by
  cases hpc : s.pc with
  | select => exact absurd hpc hscan
  | thrown => exact absurd hpc hgoes
  | scan i =>
      refine ⟨.scan, trivial, ?_⟩
      simp only [next, scan, hpc]
      split
      · split <;> rfl
      · rfl
  | accept i => exact ⟨.accept4 (.error .eagain), trivial, by simp [next, accept4, hpc]⟩
  | read i => exact ⟨.read (.fail .eagain), trivial, by simp [next, read, hpc]⟩
  | logReceived i rlen => exact ⟨.log, trivial, by simp [next, log, hpc]⟩
  | write i rlen => exact ⟨.write (.fail .eagain), trivial, by simp [next, write, hpc]⟩
  | close i => exact ⟨.close, trivial, by simp [next, close, hpc]⟩

/-! ## A client that goes on sending -/

/-- A chunk is read, logged, and written back. -/
def echoes (bs : List Byte) : List Label :=
  [.read (.data bs), .log, .write (.wrote bs.length)]

/-- A chunk that `read()` can return, and that is not the end of the stream. -/
def IsChunk (bs : List Byte) : Prop := bs ≠ [] ∧ bs.length ≤ buffSize

instance (bs : List Byte) : Decidable (IsChunk bs) := inferInstanceAs (Decidable (_ ∧ _))

/-- What an echoed chunk leaves of the state. -/
def echoed (s : SelectServer) (c : Nat) (bs : List Byte) : SelectServer :=
  { s with
    buffer := s.buffer.save 0 bs
    received := Function.update s.received c (s.received c ++ bs)
    sent := Function.update s.sent c (s.sent c ++ bs) }

/-- After a chunk the server reads from the same client. -/
theorem run_echoes (cfg : Config) {i : Fd} {c : Nat} (hpc : s.pc = .read i)
    (hopen : s.fdTable i = some c) {bs : List Byte} (hbs : IsChunk bs) :
    (machine cfg).run s (echoes bs) = some (s.echoed c bs) := by
  have hpos : bs.length ≠ 0 := fun hz => hbs.1 (List.length_eq_zero_iff.mp hz)
  obtain ⟨table, backup, bits, maxSfd, readyNo, buffer, pc, nextConn, received, sent⟩ := s
  dsimp only at hpc hopen
  subst hpc
  simp only [echoes, Machine.run_cons, machine, next, read, log, write, echoed, hopen, hbs.2, hpos,
    if_true, if_false, Option.map_some, Option.bind_some, Nat.le_refl, Store.load_save]
  rfl

/-- And so it goes on, for as many chunks as the client has. -/
theorem run_all_echoes (cfg : Config) {i : Fd} {c : Nat} (hpc : s.pc = .read i)
    (hopen : s.fdTable i = some c) {bss : List (List Byte)} (hbss : ∀ bs ∈ bss, IsChunk bs) :
    ∃ t, (machine cfg).run s (bss.flatMap echoes) = some t ∧ t.pc = .read i
      ∧ t.sent c = s.sent c ++ bss.flatten := by
  induction bss generalizing s with
  | nil => exact ⟨s, rfl, hpc, by simp⟩
  | cons bs bss ih =>
      have hone := run_echoes cfg hpc hopen (hbss bs List.mem_cons_self)
      obtain ⟨t, ht, hpct, hsent⟩ := ih (s := s.echoed c bs) hpc hopen
        (fun x hx => hbss x (List.mem_cons_of_mem _ hx))
      refine ⟨t, ?_, hpct, ?_⟩
      · rw [List.flatMap_cons, Machine.run_append, hone]
        exact ht
      · rw [hsent, List.flatten_cons, ← List.append_assoc]
        simp only [echoed, Function.update_self]

/-- None of this ends the pass. -/
theorem inPass_echoes {bss : List (List Byte)} {l : Label} (hl : l ∈ bss.flatMap echoes) :
    InPass l := by
  obtain ⟨bs, _, hl⟩ := List.mem_flatMap.mp hl
  simp only [echoes, List.mem_cons, List.not_mem_nil, or_false] at hl
  rcases hl with rfl | rfl | rfl <;> trivial

theorem length_echoes (bss : List (List Byte)) :
    (bss.flatMap echoes).length = 3 * bss.length := by
  induction bss with
  | nil => rfl
  | cons bs bss ih =>
      rw [List.flatMap_cons, List.length_append, ih, List.length_cons, Nat.mul_succ, Nat.add_comm]
      rfl

/--
**The select server gets back to `select()`, as late as a client likes.** From every reachable
state and for every answer of `select()`: however the pass goes on, as long as it is not over
its statements are at most 3073, and one for each connection it accepts and three for each
chunk it reads; until it is over, unless `accept4()` fails, there is a next statement. And
where it reads from a client it stays with it for any chunks that come, and echoes all.
-/
theorem pass_statements (hbelow : cfg.serverSfd < fdSetsize)
    (h : (machine cfg).ReachableVia BelowSetsize s) {ready : List Fd} {events : Nat}
    (hs : s.next cfg (.select ready events) = some s') {ls : List Label} {t : SelectServer}
    (hrun : (machine cfg).run s' ls = some t)
    (hpass : (machine cfg).Along (fun s l => BelowSetsize s l ∧ InPass l) s' ls) :
    ls.length ≤ 3073 + Machine.weight demands ls
      ∧ (t.pc ≠ .select → t.pc ≠ .thrown → ∃ l, InPass l ∧ (t.next cfg l).isSome)
      ∧ ∀ i, t.pc = .read i → ∃ c, t.fdTable i = some c ∧
          ∀ bss : List (List Byte), (∀ bs ∈ bss, IsChunk bs) →
            ∃ more u, (machine cfg).run t more = some u ∧ (∀ l ∈ more, InPass l)
              ∧ more.length = 3 * bss.length ∧ u.pc = .read i
              ∧ u.sent c = t.sent c ++ bss.flatten := by
  have hr : (machine cfg).ReachableVia BelowSetsize s' :=
    .tail (a := .select ready events) h trivial hs
  have hsets : SetsInv cfg t :=
    setsInv_reachable (hr.of_run (Machine.along_imp (fun _ _ hl => hl.1) hpass) hrun)
  refine ⟨?_, exists_inPass cfg, fun i hpc => ?_⟩
  · have hpaid := scan_statements hbelow (setsInv_reachable hr) hrun hpass
    have hfirst : passLeft s'.pc = 3073 := by
      cases next_cases hs with
      | select => rfl
    omega
  · obtain ⟨c, hopen⟩ := hsets.serving i (by rw [hpc]; rfl)
    refine ⟨c, hopen, fun bss hbss => ?_⟩
    obtain ⟨u, hu, hpcu, hsent⟩ := run_all_echoes cfg hpc hopen hbss
    exact ⟨_, u, hu, fun _ hl => inPass_echoes hl, length_echoes bss, hpcu, hsent⟩

/-- A client on descriptor `5` whose first chunk has come back. -/
def readsOn : List Label :=
  [.scan, .scan, .scan, .scan, .scan, .scan, .read (.data [104, 105]), .log, .write (.wrote 2)]

theorem pass_statements_readsOn :
    ∃ t : SelectServer, t.pc = .read 5 ∧ readsOn.length ≤ 3073 + Machine.weight demands readsOn
      ∧ ∃ more u, (machine listening).run t more = some u ∧ more.length = 6
        ∧ u.sent 0 = [104, 105] ++ [120] ++ [121, 122] := by
  have hval : ((machine listening).run (start listening (fun _ => 0))
      [.select [3] 1, .scan, .scan, .scan, .scan, .accept4 (.ok 5), .accept4 (.error .eagain),
        .scan]).bind
      (fun s => (s.next listening (.select [5] 1)).bind (fun s' =>
        ((machine listening).run s' readsOn).map (fun t => (t.pc, t.fdTable 5, t.sent 0,
          decide ((machine listening).Along (fun s l => BelowSetsize s l ∧ InPass l) s' readsOn)))))
      = some (.read 5, some 0, [104, 105], true) := by decide +kernel
  obtain ⟨s, hrun, hval⟩ := Option.bind_eq_some_iff.mp hval
  obtain ⟨s', hs, hval⟩ := Option.bind_eq_some_iff.mp hval
  obtain ⟨t, ht, heq⟩ := Option.map_eq_some_iff.mp hval
  simp only [Prod.mk.injEq, decide_eq_true_eq] at heq
  obtain ⟨hpc, hopen, hsent, hpass⟩ := heq
  have hr : (machine listening).ReachableVia BelowSetsize s :=
    .of_run (.init ⟨_, rfl⟩) (by decide +kernel) hrun
  obtain ⟨hle, _, hholds⟩ := pass_statements (by decide) hr hs ht hpass
  obtain ⟨c, hc, hall⟩ := hholds 5 hpc
  obtain rfl : c = 0 := Option.some.inj (hc.symm.trans hopen)
  obtain ⟨more, u, hu, _, hlen, _, hsentu⟩ := hall [[120], [121, 122]] (by decide)
  rw [hsent] at hsentu
  exact ⟨t, hpc, hle, more, u, hu, hlen, hsentu⟩

end TcpServers.SelectServer
