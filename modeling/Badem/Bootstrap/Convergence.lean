import Badem.Bootstrap.Exchange
import Badem.Bootstrap.Merge
import Badem.Processor.ArrivalOrder

/-!
# Convergence of a bootstrap exchange

The blocks that the server sends are exactly those the client lacks, so together with its
ledger they make up the merged lattice, in whichever order they come in.
-/

namespace Badem

open Mdb BlockLattice BlockProcessor

def Compatible (s c : BlockStore) : Prop :=
  ∀ {a i j l m}, s.accountGet a = some i → c.accountGet a = some j →
    PreviousWalk s i.head l → PreviousWalk c j.head m → l <:+ m ∨ m <:+ l

/-- The blocks that a client receives when it pulls what the frontiers of a server show. -/
def exchange (env : NodeEnv) (now : Nat) (s c : BlockStore) : Except Fault (List Block) := do
  let pulls ← frontierPulls now s c
  let (_, received) ← bulkPulls env s pulls
  pure received

/-- The exchange ends without a fault, and processing the blocks received, in any order,
leaves the client with every block of the server. -/
def Converges (env : NodeEnv) (now : Nat) (s c : BlockStore) : Prop :=
  ∃ received, exchange env now s c = .ok received ∧
    ∀ (arrivals : List Block) (n : Nat) (p : BlockProcessor), arrivals ⊆ received →
      BlockProcessor.Run env (fun _ _ => True) (.idle c) (arrivals.map .pulled) n p →
      n ≤ 3 * arrivals.length ∧
      (∀ b ∈ received, ∃ q, p.add env b = .ok q) ∧
      (p.haveBlocks = true → ∀ m, ∃ q, p.processNext env m = .ok q) ∧
      (received ⊆ arrivals → p.blocks = [] →
        ∀ h, s.blockExists h = true → p.store.blockExists h = true)

variable {env : NodeEnv} {U : Set Block} {n fuel : Nat} {s c : BlockStore} {h : BlockHash}

theorem head_zero {env : Env} (L : BlockLattice env U) : L.head 0 = none := by
  cases hx : L.head 0 with
  | none => rfl
  | some x =>
    obtain ⟨hfind, hacc, -⟩ := (L.head_eq_some_iff 0 x).mp hx
    exact absurd hacc (L.account_ne_zero hfind)

section Ledgers

variable {env : NodeEnv} {U : Set Block} {s c : BlockStore}
variable {L C : BlockLattice env.toEnv U} (H : CollisionFree env.toEnv U)
variable (hR : Refines (fun _ => 0) s L) (hC : Refines (fun _ => 0) c C)

include H hR hC in
theorem nondiverging_of_compatible (h : Compatible s c) : C.Nondiverging L := by
  intro a
  by_cases hempty : ∃ k e, C.find k = some e ∧ e.account = a
  · by_cases hempty' : ∃ k e, L.find k = some e ∧ e.account = a
    · obtain ⟨k, hk⟩ := hempty
      obtain ⟨k', hk'⟩ := hempty'
      obtain ⟨j, m, hj, hm, -⟩ := (inChain_iff hC H a k).mpr hk
      obtain ⟨i, l, hi, hl, -⟩ := (inChain_iff hR H a k').mpr hk'
      rcases h hi hj hl hm with hsuffix | hsuffix
      · refine .inr fun {k e} he hacc => ?_
        obtain ⟨i', l', hi', hl', hmem⟩ := (inChain_iff hR H a k).mpr ⟨e, he, hacc⟩
        cases hi.symm.trans hi'
        obtain rfl := hl.unique hl'
        obtain ⟨x, hx, -⟩ := (inChain_iff hC H a k).mp ⟨j, m, hj, hm, hsuffix.subset hmem⟩
        exact Option.isSome_iff_exists.mpr ⟨x, hx⟩
      · refine .inl fun {k e} he hacc => ?_
        obtain ⟨j', m', hj', hm', hmem⟩ := (inChain_iff hC H a k).mpr ⟨e, he, hacc⟩
        cases hj.symm.trans hj'
        obtain rfl := hm.unique hm'
        obtain ⟨x, hx, -⟩ := (inChain_iff hR H a k).mp ⟨i, l, hi, hl, hsuffix.subset hmem⟩
        exact Option.isSome_iff_exists.mpr ⟨x, hx⟩
    · exact .inr fun he hacc => absurd ⟨_, _, he, hacc⟩ hempty'
  · exact .inl fun he hacc => absurd ⟨_, _, he, hacc⟩ hempty

def Missing (L C : BlockLattice env.toEnv U) (a : Account) (b : Block) : Prop :=
  ∃ h y, L.find h = some y ∧ y.block = b ∧ y.account = a ∧ C.find h = none

section Pulls

variable (hN : C.Nondiverging L) {a : Account} {x : Entry} (hx : L.head a = some x) {h : BlockHash}
  {y : Entry} {pull : PullInfo}

include H hN in
theorem find_of_height_le {k : BlockHash} {e : Entry} (hy : L.find h = some y)
    (he : C.find k = some e) (hacc : y.account = e.account) (hle : y.height ≤ e.height) :
    (C.find h).isSome = true := by
  obtain ⟨z, hz, hzacc, hzheight⟩ := C.exists_of_height_le (e.height - y.height) he
    (L.height_pos hy) (by omega)
  have heq := hN.hash_eq H hz hy (hzacc.trans hacc.symm) hzheight
  rw [← heq, hz]
  rfl

include H hC hN hx in
theorem not_missing_of_pullFor_none (hpull : pullFor c a x.hash = none) (b : Block) :
    ¬ Missing L C a b := by
  rintro ⟨h, y, hy, -, hacc, hnone⟩
  have hstored : ∃ e, C.find x.hash = some e := by
    unfold pullFor at hpull
    cases hj : c.accountGet a with
    | none => simp [hj] at hpull
    | some j =>
      rw [hj] at hpull
      by_cases hsame : x.hash = j.head ∨ c.blockExists x.hash = true
      · rcases hsame with hsame | hexists
        · obtain ⟨z, hz, hdesc⟩ := hC.head_of_account hj
          obtain ⟨hfind, -, -⟩ := (C.head_eq_some_iff a z).mp hz
          rw [hsame, hdesc.head]
          exact ⟨z, hfind⟩
        · exact hC.find_of_exists hexists
      · simp [hsame] at hpull
  obtain ⟨e, he⟩ := hstored
  obtain ⟨hfind, hxacc, -⟩ := (L.head_eq_some_iff a x).mp hx
  have hex := alike H e.time he hfind rfl
  have hle := L.height_le_head H hx hy hacc
  have hfound := find_of_height_le H hN hy he
    (hacc.trans (hxacc.symm.trans hex.account.symm)) (by rw [hex.height]; exact hle)
  simp [hnone] at hfound

include H hC in
theorem missing_of_account_none (hj : c.accountGet a = none)
    (hy : L.find h = some y) (hacc : y.account = a) : C.find h = none := by
  cases he : C.find h with
  | none => rfl
  | some e =>
    have hey := alike H e.time he hy rfl
    obtain ⟨z, hz, -, -⟩ := C.exists_head_of_find H he
    simp [hey.account, hacc, (hC.account_none_iff a).mp hj] at hz

include H hN in
theorem missing_iff_height_lt {z : Entry} (hz : C.head a = some z) (hy : L.find h = some y)
    (hacc : y.account = a) : z.height < y.height ↔ C.find h = none := by
  obtain ⟨hzfind, hzacc, -⟩ := (C.head_eq_some_iff a z).mp hz
  constructor
  · intro hlt
    cases he : C.find h with
    | none => rfl
    | some e =>
      have hey := alike H e.time he hy rfl
      have hle := C.height_le_head H hz he (hey.account.trans hacc)
      have hheight := hey.height
      omega
  · intro hnone
    by_contra hle
    have hfound := find_of_height_le H hN hy hzfind (hacc.trans hzacc.symm) (Nat.not_lt.mp hle)
    simp [hnone] at hfound

include H hC hN hx in
theorem exists_end_of_pullFor (hpull : pullFor c a x.hash = some pull) :
    ∃ k endBlock, pull = ⟨a, x.hash, endBlock⟩ ∧ EndsAt L a k endBlock ∧ k < x.height ∧
      ∀ {h y}, L.find h = some y → y.account = a → (k < y.height ↔ C.find h = none) := by
  obtain ⟨hfind, hxacc, -⟩ := (L.head_eq_some_iff a x).mp hx
  unfold pullFor at hpull
  cases hj : c.accountGet a with
  | none =>
    rw [hj] at hpull
    refine ⟨0, 0, (Option.some.inj hpull).symm, .inl ⟨rfl, rfl⟩, L.height_pos hfind, ?_⟩
    intro h y hy hacc
    exact ⟨fun _ => missing_of_account_none H hC hj hy hacc, fun _ => L.height_pos hy⟩
  | some j =>
    rw [hj] at hpull
    by_cases hsame : x.hash = j.head ∨ c.blockExists x.hash = true
    · simp [hsame] at hpull
    simp only [if_neg hsame] at hpull
    have hlacks := hC.find_none_of_not_exists (not_or.mp hsame).2
    obtain ⟨z, hz, hdesc⟩ := hC.head_of_account hj
    obtain ⟨hzfind, hzacc, -⟩ := (C.head_eq_some_iff a z).mp hz
    refine ⟨z.height, j.head, (Option.some.inj hpull).symm, .inr ?_,
      (missing_iff_height_lt H hN hz hfind hxacc).mpr hlacks,
      fun hy hacc => missing_iff_height_lt H hN hz hy hacc⟩
    rcases hN a with hsub | hsub
    · obtain ⟨y, hy⟩ := Option.isSome_iff_exists.mp (hsub hzfind hzacc)
      have hzy := alike H z.time hzfind hy rfl
      rw [hdesc.head]
      exact ⟨y, hy, hzy.account.symm.trans hzacc, hzy.height.symm⟩
    · have hfound := hsub hfind hxacc
      simp [hlacks] at hfound

include H hR hC hN hx in
theorem bulkPull_missing (M : MarkerFree env.toEnv U) (hpull : pullFor c a x.hash = some pull)
    (hwork : ∀ {h e}, L.find h = some e → h ≠ env.genesisHash → env.workValidate e.block = false) :
    ∃ l, bulkPull env s pull = .ok (none, l) ∧ ∀ b, b ∈ l ↔ Missing L C a b := by
  obtain ⟨k, endBlock, rfl, hend, hk, hmissing⟩ := exists_end_of_pullFor H hC hN hx hpull
  have hpart : ∀ b, ChainPart L a k x.height b ↔ Missing L C a b := by
    intro b
    constructor
    · rintro ⟨h, y, hy, hb, hacc, hlow, -⟩
      exact ⟨h, y, hy, hb, hacc, (hmissing hy hacc).mp hlow⟩
    · rintro ⟨h, y, hy, hb, hacc, hnone⟩
      exact ⟨h, y, hy, hb, hacc, (hmissing hy hacc).mpr hnone, L.height_le_head H hx hy hacc⟩
  obtain ⟨l, hl, hmem⟩ := bulkPull_chain H hR hend M hx hk (by
    intro b hb
    obtain ⟨h, y, hy, rfl, -, hnone⟩ := (hpart b).mp hb
    refine hwork hy ?_
    rintro rfl
    rw [show C.find env.genesisHash = some env.genesisEntry from C.genesis] at hnone
    exact absurd hnone (by simp))
  exact ⟨l, hl, fun b => (hmem b).trans (hpart b)⟩

end Pulls

theorem bulkPulls_filterMap (env : NodeEnv) (s : BlockStore) {α : Type}
    {f : α → Option PullInfo} {P : α → Block → Prop} {l : List α}
    (hnone : ∀ x ∈ l, f x = none → ∀ b, ¬ P x b)
    (hsome : ∀ x ∈ l, ∀ pull, f x = some pull →
      ∃ r, bulkPull env s pull = .ok (none, r) ∧ ∀ b, b ∈ r ↔ P x b) :
    ∃ r, bulkPulls env s (l.filterMap f) = .ok ([], r) ∧ ∀ b, b ∈ r ↔ ∃ x ∈ l, P x b := by
  induction l with
  | nil => exact ⟨[], rfl, by simp⟩
  | cons x l ih =>
    obtain ⟨r, hr, hmem⟩ := ih (fun y hy => hnone y (.tail _ hy))
      (fun y hy => hsome y (.tail _ hy))
    cases hx : f x with
    | none =>
      refine ⟨r, by rw [List.filterMap_cons_none hx]; exact hr, fun b => ?_⟩
      rw [hmem, List.exists_mem_cons_iff, or_iff_right (hnone x (.head _) hx b)]
    | some pull =>
      obtain ⟨r', hr', hmem'⟩ := hsome x (.head _) pull hx
      refine ⟨r' ++ r, ?_, fun b => ?_⟩
      · simp [List.filterMap_cons_some hx, bulkPulls, hr', ok_bind, hr]
      · rw [List.mem_append, hmem', hmem, List.exists_mem_cons_iff]

include H hR hC in
theorem exchange_missing (M : MarkerFree env.toEnv U) (hN : C.Nondiverging L) (W : Walkable s)
    (W' : Walkable c) (now : Nat)
    (hwork : ∀ {h e}, L.find h = some e → h ≠ env.genesisHash → env.workValidate e.block = false) :
    ∃ pulls received, frontierPulls now s c = .ok pulls ∧
      bulkPulls env s pulls = .ok ([], received) ∧
      ∀ b, b ∈ received ↔ ∃ h y, L.find h = some y ∧ y.block = b ∧ C.find h = none := by
  have hhead : ∀ x ∈ s.accounts.entries, ∃ y, L.head x.1 = some y ∧ x.2.head = y.hash := by
    intro x hx
    obtain ⟨y, hy, hdesc⟩ := hR.head_of_account ((Table.mem_entries_iff _ _ _).mp hx)
    exact ⟨y, hy, hdesc.head⟩
  obtain ⟨received, hreceived, hmem⟩ := bulkPulls_filterMap env s
    (f := fun x => pullFor c x.1 x.2.head) (P := fun x => Missing L C x.1)
    (l := s.accounts.entries)
    (by
      intro x hx hpull
      obtain ⟨y, hy, heq⟩ := hhead x hx
      rw [heq] at hpull
      exact not_missing_of_pullFor_none H hC hN hy hpull)
    (by
      intro x hx pull hpull
      obtain ⟨y, hy, heq⟩ := hhead x hx
      rw [heq] at hpull
      exact bulkPull_missing H hR hC hN hy M hpull hwork)
  refine ⟨_, received, frontierPulls_eq W W' now, hreceived, fun b => ?_⟩
  rw [hmem]
  constructor
  · rintro ⟨x, -, h, y, hy, hb, -, hnone⟩
    exact ⟨h, y, hy, hb, hnone⟩
  · rintro ⟨h, y, hy, hb, hnone⟩
    obtain ⟨z, hz, -, -⟩ := L.exists_head_of_find H hy
    obtain ⟨i, hi, -⟩ := hR.account_of_head hz
    exact ⟨(y.account, i), (Table.mem_entries_iff _ _ _).mpr hi, h, y, hy, hb, rfl, hnone⟩

end Ledgers

/-- A client whose chains do not diverge from those of the server obtains all its blocks. -/
theorem bootstrap_converges {env : NodeEnv} {U : Set Block} {s c : BlockStore}
    (H : CollisionFree env.toEnv U) (M : MarkerFree env.toEnv U) (hs : Reachable env.toEnv U s)
    (hc : Reachable env.toEnv U c) (hlast : s.accountGet (BitVec.allOnes 256) = none)
    (hlast' : c.accountGet (BitVec.allOnes 256) = none) (hcompatible : Compatible s c)
    (hwork : ∀ h b, s.blockGet h = some b → h ≠ env.genesisHash → env.workValidate b = false)
    (now : Nat) : Converges env now s c := by
  obtain ⟨L, hR, hsigned⟩ := hs.refines_signed H M
  obtain ⟨C, hC⟩ := hc.refines H M
  have hN := nondiverging_of_compatible H hR hC hcompatible
  have hworkL : ∀ {h e}, L.find h = some e → h ≠ env.genesisHash →
      env.workValidate e.block = false := fun he hgen => hwork _ _ (hR.blockGet_of_find he) hgen
  obtain ⟨pulls, received, hpulls, hreceived, hmem⟩ := exchange_missing H hR hC M hN
    ⟨(hR.account_none_iff 0).mpr (head_zero L), hlast⟩
    ⟨(hC.account_none_iff 0).mpr (head_zero C), hlast'⟩ now hworkL
  obtain ⟨T, hT⟩ := exists_time C
  have hgenesis : ∀ {h}, C.find h = none → h ≠ env.genesisHash := by
    rintro h hnone rfl
    simp [show C.find env.genesisHash = some env.genesisEntry from C.genesis] at hnone
  have target : Target (merge H hN hT) c received := by
    refine ⟨?_, ?_, ?_⟩
    · intro b hb
      obtain ⟨h, y, hy, rfl, hnone⟩ := (hmem b).mp hb
      refine ⟨hworkL hy (hgenesis hnone), y.timed (y.time + T), ?_, rfl, ?_⟩
      · rw [L.hashed hy]
        exact find_merge_right H hN hT hnone hy
      · show env.validateMessage y.account y.hash _ = false
        rw [L.keyed hy]
        exact hsigned hy (hgenesis hnone)
    · refine ⟨Timing.own _, C, ?_, hC⟩
      rw [retime_own]
      exact sub_merge H hN hT
    · intro h e he
      rcases find_merge_cases H hN hT he with hold | ⟨hnone, y, hy, -⟩
      · refine Or.inl ?_
        rw [hC.blockExists_iff, hold]
        rfl
      · exact Or.inr ⟨y.block, (hmem _).mpr ⟨h, y, hy, rfl, hnone⟩, L.hashed hy⟩
  have hexchange : exchange env now s c = .ok received := by
    rw [exchange, hpulls]
    show (bulkPulls env s pulls >>= fun x => pure x.2) = _
    rw [hreceived]
    rfl
  refine ⟨received, hexchange, fun arrivals n p hsub hrun => ?_⟩
  obtain ⟨hle, hadd, hnext, hall⟩ := target.pulled H M hsub hrun
  refine ⟨hle, hadd, hnext, fun hcomplete hempty h hexists => ?_⟩
  obtain ⟨-, hstored, -⟩ := hall hcomplete hempty
  obtain ⟨y, hy⟩ := hR.find_of_exists hexists
  cases he : C.find h with
  | some e => exact hstored h e (sub_merge H hN hT he)
  | none => exact hstored h _ (find_merge_right H hN hT he hy)

/-! ## Ledgers with and without a complete exchange -/

def compatibleTest (n : Nat) (s c : BlockStore) : Bool :=
  s.accounts.entries.all fun x =>
    match c.accountGet x.1 with
    | none => true
    | some j =>
      match walkDown s n x.2.head, walkDown c n j.head with
      | some l, some m => decide (l <:+ m ∨ m <:+ l)
      | _, _ => false

theorem compatible_of_test (h : compatibleTest n s c = true) : Compatible s c := by
  intro a i j l m hi hj hl hm
  have hx := List.all_eq_true.mp h (a, i) ((s.accounts.mem_entries_iff a i).mpr hi)
  simp only [hj] at hx
  split at hx
  · rename_i l' m' hl' hm'
    rw [hl.unique (walk_of_walkDown n hl'), hm.unique (walk_of_walkDown n hm')]
    exact of_decide_eq_true hx
  · simp at hx

theorem bootstrap_converges_plain :
    ∃ s c, Reachable plainEnv plainSet s ∧ Reachable plainEnv plainSet c ∧
      s.blockExists 6 = true ∧ c.blockExists 6 = false ∧ Compatible s c ∧
      Converges (withWork plainEnv) 0 s c := by
  have htest : ∃ s, ledgerOf plainEnv plainBlocks = .ok s ∧
      ∃ c, ledgerOf plainEnv [plainSend] = .ok c ∧
        s.accountGet (BitVec.allOnes 256) = none ∧ c.accountGet (BitVec.allOnes 256) = none ∧
        compatibleTest 5 s c = true ∧ s.blockExists 6 = true ∧ c.blockExists 6 = false := by
    decide +kernel
  obtain ⟨s, hs, c, hc, hlast, hlast', hcompatible, hstored, hlacks⟩ := htest
  have hreach : Reachable plainEnv plainSet s := reachable_blockSet hs
  have hreach' : Reachable plainEnv plainSet c :=
    reachable_ledgerOf (by simp [plainSet, plainBlocks, blockSet]) hc
  exact ⟨s, c, hreach, hreach', hstored, hlacks, compatible_of_test hcompatible,
    @bootstrap_converges (withWork plainEnv) plainSet s c plain_collisionFree plain_markerFree
      hreach hreach' hlast hlast' (compatible_of_test hcompatible)
      (fun _ b _ _ => withWork_workValidate plainEnv b) 0⟩

def bootstrapped (env : NodeEnv) (fuel : Nat) (s c : BlockStore) : Except Fault BlockProcessor := do
  let received ← exchange env 0 s c
  (BlockProcessor.idle c).handleAll env anyMoment fuel received

theorem not_converges {p : BlockProcessor}
    (hp : bootstrapped env fuel s c = .ok p) (hlost : p.store.blockExists h = false)
    (hstored : s.blockExists h = true) : ¬ Converges env 0 s c := by
  rintro ⟨received, hreceived, hall⟩
  rw [bootstrapped, hreceived] at hp
  have hstart : BlockProcessor.Run env (fun _ _ => True) (.idle c) [] 0 (.idle c) := .start
  obtain ⟨k, hrun, hempty⟩ := run_of_handleAll fuel (fun _ _ => trivial) received hstart rfl hp
  rw [List.append_nil] at hrun
  obtain ⟨-, -, -, hconverges⟩ := hall received.reverse k p
    (fun b hb => List.mem_reverse.mp hb) hrun
  have hblocks : p.blocks = [] := by
    rw [haveBlocks, Bool.or_eq_false_iff] at hempty
    simpa using hempty.1
  simp [hconverges (fun b hb => List.mem_reverse.mpr hb) hblocks h hstored] at hlost

def BootstrapFails (env : NodeEnv) (U : Set Block) : Prop :=
  ∃ s c, Reachable env.toEnv U s ∧ Reachable env.toEnv U c ∧
    s.accountGet (BitVec.allOnes 256) = none ∧ c.accountGet (BitVec.allOnes 256) = none ∧
    Compatible s c ∧ ¬ Converges env 0 s c

theorem bootstrapFails_of_test {blocks blocks' : List Block}
    (hblocks : ∀ b ∈ blocks, b ∈ U) (hblocks' : ∀ b ∈ blocks', b ∈ U)
    (htest : ∃ s, ledgerOf env.toEnv blocks = .ok s ∧ ∃ c, ledgerOf env.toEnv blocks' = .ok c ∧
      s.accountGet (BitVec.allOnes 256) = none ∧ c.accountGet (BitVec.allOnes 256) = none ∧
      compatibleTest n s c = true ∧ s.blockExists h = true ∧
      ∃ p, bootstrapped env fuel s c = .ok p ∧ p.store.blockExists h = false) :
    BootstrapFails env U := by
  obtain ⟨s, hs, c, hc, hlast, hlast', hcompatible, hstored, p, hp, hlost⟩ := htest
  exact ⟨s, c, reachable_ledgerOf hblocks hs, reachable_ledgerOf hblocks' hc, hlast, hlast',
    compatible_of_test hcompatible, not_converges hp hlost hstored⟩

def worthless (env : Env) : NodeEnv where
  toEnv := env
  workValue := fun _ _ => 0

set_option maxRecDepth 100000 in
/-- With either marker hash, and with blocks whose work is not valid, there are exchanges that
leave the client without a block. -/
theorem bootstrap_incomplete :
    (CollisionFree hiddenEnv hiddenSet ∧ (∀ b ∈ hiddenSet, b.hash hiddenEnv ≠ 1) ∧
      (∀ b, (withWork hiddenEnv).workValidate b = false) ∧
      BootstrapFails (withWork hiddenEnv) hiddenSet) ∧
    (CollisionFree oneEnv oneSet ∧ (∀ b ∈ oneSet, b.hash oneEnv ≠ oneEnv.genesisAccount) ∧
      (∀ b, (withWork oneEnv).workValidate b = false) ∧
      BootstrapFails (withWork oneEnv) oneSet) ∧
    CollisionFree plainEnv plainSet ∧ MarkerFree plainEnv plainSet ∧
      BootstrapFails (worthless plainEnv) plainSet := by
  refine ⟨⟨collisionFree_blockSet hidden_evaluated.1, hidden_evaluated.2.1,
      withWork_workValidate hiddenEnv, ?_⟩,
    ⟨one_collisionFree, one_ne_genesisAccount, withWork_workValidate oneEnv, ?_⟩,
    plain_collisionFree, plain_markerFree, ?_⟩
  · -- The state block comes in before its source and is taken for a send.
    exact @bootstrapFails_of_test (withWork hiddenEnv) hiddenSet 9 9 6
      (hiddenBlocks ++ [hiddenSecond, hiddenReceive]) hiddenBlocks
      (fun b hb => List.mem_cons_of_mem _ hb)
      (fun b hb => List.mem_cons_of_mem _ (List.mem_append_left _ hb)) (by decide +kernel)
  · -- The server takes the last block of the client for one of the genesis account.
    exact @bootstrapFails_of_test (withWork oneEnv) oneSet 40 40 (oneSendBack.hash oneEnv)
      oneBlocks [oneSend, oneOpen]
      (fun b hb => List.mem_cons_of_mem _ (List.mem_cons_of_mem _ hb))
      (by simp [oneSet, oneBlocks, blockSet]) (by decide +kernel)
  · -- The client stops at the first block it receives.
    exact @bootstrapFails_of_test (worthless plainEnv) plainSet 9 9 2 plainBlocks []
      (fun b hb => List.mem_cons_of_mem _ hb) (by simp) (by decide +kernel)

end Badem
