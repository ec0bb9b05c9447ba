import Badem.Ledger.Replay
import Badem.Processor.Arrivals

/-!
# The order of arrival

Blocks that the ledger can accept in some order may arrive in any order and any number of
times, unless one of them has a marker hash.
-/

namespace Badem

open Mdb BlockLattice Scheduling BlockProcessor

/-- However the blocks come in, the processor stops after three iterations per block, with the
ledger `t` and none of the blocks unchecked. -/
def OrderFree (env : NodeEnv) (s : BlockStore) (B : List Block) (t : BlockStore) : Prop :=
  ∀ (arrivals : List Block) (n : Nat) (p : BlockProcessor), arrivals ⊆ B →
    BlockProcessor.Run env (fun _ _ => True) (.idle s) (arrivals.map .pulled) n p →
    n ≤ 3 * arrivals.length ∧
    (∀ b ∈ B, ∃ q, p.add env b = .ok q) ∧
    (p.haveBlocks = true → ∀ m, ∃ q, p.processNext env m = .ok q) ∧
    (B ⊆ arrivals → p.blocks = [] → SameLedger p.store t ∧ ∀ x ∈ p.unchecked, x.2 ∉ B)

variable {env : NodeEnv} {p : BlockProcessor} {n : Nat} {U : Set Block} {s : BlockStore}
  {F : BlockLattice env.toEnv U}

theorem Run.strengthen {guard guard' : BlockProcessor → Event → Prop} {p₀ : BlockProcessor}
    {es : List Event} (h : BlockProcessor.Run env guard p₀ es n p)
    (hes : ∀ e ∈ es, ∀ p, guard p e → guard' p e) : BlockProcessor.Run env guard' p₀ es n p := by
  induction h with
  | start => exact .start
  | receive tick _ he hrun ih =>
    exact .receive tick (ih fun e hmem => hes e (.tail _ hmem))
      (hes _ List.mem_cons_self _ he) hrun
  | process _ hblocks hrun ih => exact .process (ih hes) hblocks hrun

section Good

variable {env : Env} {U : Set Block} (H : CollisionFree env U) (M : MarkerFree env U)

include H M in
theorem processAll_lattice (good : List (Nat × Block)) :
    ∀ {s t : BlockStore} {L : BlockLattice env U}, Refines (fun _ => 0) s L →
      (∀ x ∈ good, x.2 ∈ U) → Ledger.processAll env s good = .ok t →
      ∃ F : BlockLattice env U, Refines (fun _ => 0) t F ∧ L.Sub F ∧
        (∀ x ∈ good, ∃ e, F.find (x.2.hash env) = some e ∧ e.block = x.2 ∧
          env.validateMessage e.account e.hash x.2.blockSignature = false) ∧
        ∀ h e, F.find h = some e → L.find h = some e ∨ ∃ x ∈ good, x.2.hash env = h := by
  induction good with
  | nil =>
    intro s t L hR _ hrun
    cases hrun
    exact ⟨L, hR, Sub.refl L, by simp, fun _ _ he => .inl he⟩
  | cons x good ih =>
    intro s t L hR hU hrun
    obtain ⟨now, b⟩ := x
    obtain ⟨r, s', hstep, hcode, hrest⟩ := processAll_cons hrun
    rcases process_step H M now hR (hU _ (.head _)) with
      ⟨r', hr', hcode'⟩ | ⟨r', s'', e, ha, hblock, hsig, hr', -, hR'⟩
    · simp_all
    · cases hr'.symm.trans hstep
      obtain ⟨F, hF, hsub, hgood, hnew⟩ :=
        ih hR' (fun y hy => hU y (.tail _ hy)) hrest
      subst hblock
      refine ⟨F, hF, Sub.trans (append_sub H ha) hsub, ?_, ?_⟩
      · intro y hy
        rcases List.mem_cons.mp hy with rfl | hy
        · refine ⟨e, hsub ?_, rfl, hsig⟩
          rw [ha.hashed]
          exact find_append_self H ha
        · exact hgood y hy
      · intro h x hx
        rcases hnew h x hx with hx | ⟨y, hy, hhash⟩
        · rw [find_append] at hx
          split_ifs at hx with hh
          · exact .inr ⟨(now, e.block), .head _, ha.hashed.trans hh.symm⟩
          · exact .inl hx
        · exact .inr ⟨y, .tail _ hy, hhash⟩

end Good

theorem HoldsPart.sameLedger {t : BlockStore} (hs : HoldsPart F s) (ht : Refines (fun _ => 0) t F)
    (hall : ∀ h e, F.find h = some e → s.blockExists h = true) : SameLedger s t := by
  obtain ⟨τ, P, hsub, hR⟩ := hs
  have hP : P = F.retime τ := by
    refine eq_of_find_eq fun k => Option.ext fun x => ⟨fun hx => hsub hx, ?_⟩
    intro hx
    rw [find_retime] at hx
    obtain ⟨e, he, rfl⟩ := Option.map_eq_some_iff.mp hx
    have hexists := hall k e he
    rw [hR.blockExists_iff] at hexists
    obtain ⟨y, hy⟩ := Option.isSome_iff_exists.mp hexists
    have hy' := hsub hy
    rw [find_retime, he] at hy'
    rw [hy]
    exact hy'.symm
  rw [hP, refines_retime_iff] at hR
  exact hR.sameLedger ht

section Target

variable {env : NodeEnv} {U : Set Block} {s t : BlockStore} (H : CollisionFree env.toEnv U)
variable (M : MarkerFree env.toEnv U) (hs : Reachable env.toEnv U s) {good : List (Nat × Block)}
variable (hU : ∀ x ∈ good, x.2 ∈ U) (hwork : ∀ x ∈ good, env.workValidate x.2 = false)
variable (ht : Ledger.processAll env.toEnv s good = .ok t)

include H M hs hU hwork ht in
theorem exists_target :
    ∃ F : BlockLattice env.toEnv U, Refines (fun _ => 0) t F ∧
      Target F s (good.map Prod.snd) := by
  obtain ⟨L, hL⟩ := hs.refines H M
  obtain ⟨F, hF, hLF, hgood, hnew⟩ := processAll_lattice H M good hL hU ht
  refine ⟨F, hF, ?_, ?_, ?_⟩
  · intro b hb
    obtain ⟨x, hx, rfl⟩ := List.mem_map.mp hb
    exact ⟨hwork x hx, hgood x hx⟩
  · refine ⟨Timing.own F, L, ?_, hL⟩
    rw [retime_own]
    exact hLF
  · intro h e he
    rcases hnew h e he with hold | ⟨x, hx, hhash⟩
    · refine .inl ?_
      rw [hL.blockExists_iff, hold]
      rfl
    · exact .inr ⟨x.2, List.mem_map_of_mem hx, hhash⟩

end Target

theorem Target.pulled {B : List Block} (T : Target F s B) (H : CollisionFree env.toEnv U)
    (M : MarkerFree env.toEnv U) {arrivals : List Block} (hsub : arrivals ⊆ B)
    (hrun : BlockProcessor.Run env (fun _ _ => True) (.idle s) (arrivals.map .pulled) n p) :
    n ≤ 3 * arrivals.length ∧
    (∀ b ∈ B, ∃ q, p.add env b = .ok q) ∧
    (p.haveBlocks = true → ∀ m, ∃ q, p.processNext env m = .ok q) ∧
    (B ⊆ arrivals → p.blocks = [] → HoldsPart F p.store ∧
      (∀ h e, F.find h = some e → p.store.blockExists h = true) ∧ p.unchecked = []) := by
  have hguarded : BlockProcessor.Run env (fun _ e => e.block ∈ B) (.idle s)
      (arrivals.map .pulled) n p := by
    refine Run.strengthen hrun ?_
    intro e he _ _
    obtain ⟨b, hb, rfl⟩ := List.mem_map.mp he
    exact hsub hb
  obtain ⟨l, hl⟩ := T.follows H M (fun _ _ he => .inr he) hguarded
  refine ⟨?_, ?_, fun hblocks m => ?_, ?_⟩
  · have hle := hl.iterations_le (Target.idle_pool s)
    rwa [List.length_map] at hle
  · intro b hb
    exact ⟨_, add_of_work env (T.genuine b hb).1 p⟩
  · obtain ⟨q, hq, -⟩ := hl.process T.genuine H M (Target.idle_pool s) hblocks m
    exact ⟨q, hq⟩
  · intro hall hempty
    obtain ⟨hstored, hunchecked⟩ := T.all_stored hl
      (fun b hb => hl.complete (.pulled b) (List.mem_map_of_mem (hall hb)) hb) hempty
    exact ⟨hl.part, fun h e he => hstored he, hunchecked⟩

/-- Arrival order does not matter. -/
theorem arrival_order_free {env : NodeEnv} {U : Set Block} {s t : BlockStore}
    (H : CollisionFree env.toEnv U) (M : MarkerFree env.toEnv U) (hs : Reachable env.toEnv U s)
    {good : List (Nat × Block)} (hU : ∀ x ∈ good, x.2 ∈ U)
    (hwork : ∀ x ∈ good, env.workValidate x.2 = false)
    (ht : Ledger.processAll env.toEnv s good = .ok t) : OrderFree env s (good.map Prod.snd) t := by
  intro arrivals n p hsub hrun
  obtain ⟨F, hF, T⟩ := exists_target H M hs hU hwork ht
  obtain ⟨hle, hadd, hnext, hall⟩ := T.pulled H M hsub hrun
  refine ⟨hle, hadd, hnext, fun hcomplete hempty => ?_⟩
  obtain ⟨hpart, hstored, hunchecked⟩ := hall hcomplete hempty
  exact ⟨hpart.sameLedger hF hstored, by simp [hunchecked]⟩

def withWork (env : Env) : NodeEnv := { env with workValue := fun _ _ => BitVec.allOnes 64 }

theorem withWork_workValidate (env : Env) (b : Block) : (withWork env).workValidate b = false := by
  show decide (BitVec.allOnes 64 < env.network.publishThreshold) = false
  cases env.network <;> decide

theorem arrival_order_free_plain :
    ∃ g t, Reachable plainEnv plainSet g ∧
      Ledger.processAll plainEnv g (plainBlocks.map (fun b => (0, b))) = .ok t ∧
      OrderFree (withWork plainEnv) g plainBlocks t := by
  obtain ⟨t, ht, -, -, -, -⟩ := plain_ledger
  obtain ⟨g, hg, hrun⟩ := ok_of_bind ht
  have hU : ∀ x ∈ plainBlocks.map (fun b => (0, b)), x.2 ∈ plainSet := by
    intro x hx
    obtain ⟨b, hb, rfl⟩ := List.mem_map.mp hx
    exact List.mem_cons_of_mem _ hb
  exact ⟨g, t, .genesis hg, hrun, @arrival_order_free (withWork plainEnv) plainSet g t
    plain_collisionFree plain_markerFree (.genesis hg) _ hU
    (fun x _ => withWork_workValidate plainEnv x.2) hrun⟩

/-! ## Handling blocks one at a time -/

def BlockProcessor.drain (env : NodeEnv) (m : Moment) :
    Nat → BlockProcessor → Except Fault BlockProcessor
  | 0, p => if p.haveBlocks = true then .error .outOfFuel else .ok p
  | fuel + 1, p =>
    if p.haveBlocks = true then do
      let p ← p.processNext env m
      drain env m fuel p
    else .ok p

def BlockProcessor.handleAll (env : NodeEnv) (m : Moment) (fuel : Nat) :
    List Block → BlockProcessor → Except Fault BlockProcessor
  | [], p => .ok p
  | b :: l, p => do
      let p ← p.add env b
      let p ← p.drain env m fuel
      handleAll env m fuel l p

section Handle

variable {env : NodeEnv} {m : Moment} {guard : BlockProcessor → Event → Prop}
variable {p₀ : BlockProcessor} {es : List Event}

theorem run_of_drain (fuel : Nat) :
    ∀ {n : Nat} {p q : BlockProcessor}, BlockProcessor.Run env guard p₀ es n p →
      p.drain env m fuel = .ok q →
      ∃ k, BlockProcessor.Run env guard p₀ es k q ∧ q.haveBlocks = false := by
  induction fuel with
  | zero =>
    intro n p q hrun h
    rw [drain] at h
    split_ifs at h with hblocks
    cases h
    exact ⟨n, hrun, by simpa using hblocks⟩
  | succ fuel ih =>
    intro n p q hrun h
    rw [drain] at h
    split_ifs at h with hblocks
    · obtain ⟨p', hp', hrest⟩ := ok_of_bind h
      exact ih (hrun.process hblocks hp') hrest
    · grind

theorem run_of_handleAll (fuel : Nat) (hguard : ∀ p e, guard p e) (l : List Block) :
    ∀ {n : Nat} {p q : BlockProcessor} {es : List Event},
      BlockProcessor.Run env guard p₀ es n p → p.haveBlocks = false →
      p.handleAll env m fuel l = .ok q →
      ∃ k, BlockProcessor.Run env guard p₀ (l.reverse.map .pulled ++ es) k q ∧
        q.haveBlocks = false := by
  induction l with
  | nil =>
    intro n p q es hrun hempty h
    cases h
    exact ⟨n, hrun, hempty⟩
  | cons b l ih =>
    intro n p q es hrun _ h
    obtain ⟨p₁, hadd, h⟩ := ok_of_bind h
    obtain ⟨p₂, hdrain, h⟩ := ok_of_bind h
    have hrun₁ : BlockProcessor.Run env guard p₀ (.pulled b :: es) n p₁ :=
      hrun.receive 0 (hguard _ _) hadd
    obtain ⟨k, hrun₂, hempty⟩ := run_of_drain fuel hrun₁ hdrain
    obtain ⟨k', hrun', hempty'⟩ := ih hrun₂ hempty h
    refine ⟨k', ?_, hempty'⟩
    rw [List.reverse_cons, List.map_append, List.append_assoc]
    exact hrun'

theorem not_orderFree {t : BlockStore} {B arrivals : List Block} {fuel : Nat} {h : BlockHash}
    (hsub : arrivals ⊆ B) (hall : B ⊆ arrivals)
    (hp : (BlockProcessor.idle s).handleAll env m fuel arrivals = .ok p)
    (hlost : p.store.blockExists h = false) (hstored : t.blockExists h = true) :
    ¬ OrderFree env s B t := by
  intro hfree
  have hstart : BlockProcessor.Run env (fun _ _ => True) (.idle s) [] 0 (.idle s) := .start
  obtain ⟨k, hrun, hempty⟩ := run_of_handleAll fuel (fun _ _ => trivial) arrivals hstart rfl hp
  rw [List.append_nil] at hrun
  obtain ⟨-, -, -, hsame⟩ := hfree arrivals.reverse k p
    (fun b hb => hsub (List.mem_reverse.mp hb)) hrun
  have hblocks : p.blocks = [] := by
    rw [haveBlocks, Bool.or_eq_false_iff] at hempty
    simpa using hempty.1
  obtain ⟨hledger, -⟩ := hsame (fun b hb => List.mem_reverse.mpr (hall hb)) hblocks
  simp [hledger.blockExists_eq, hstored] at hlost

end Handle

/-! ## A lost block with the genesis account number as a hash -/

def hiddenEnv : Env :=
  signedEnv fun
    | [_, _, .word128 balance] => if balance = genesisAmount - 10 then 2 else 8
    | [.word256 source, _, _] => if source = BademNetwork.test.genesisAccount then 3 else 4
    | [_, _] => BademNetwork.test.genesisAccount
    | _ => 6

def hiddenSend : Block := .sendBlock ⟨⟨hiddenEnv.genesisHash, 77, genesisAmount - 10⟩, 0, 0⟩

def hiddenChange : Block := .changeBlock ⟨⟨2, 5⟩, 0, 0⟩

def hiddenOpen : Block := .openBlock ⟨⟨2, 99, 77⟩, 0, 0⟩

def hiddenSecond : Block :=
  .sendBlock ⟨⟨hiddenEnv.genesisAccount, 77, genesisAmount - 15⟩, 0, 0⟩

def hiddenReceive : Block := .stateBlock ⟨⟨77, 4, 99, 15, 8⟩, 0, 0⟩

def hiddenBlocks : List Block := [hiddenSend, hiddenChange, hiddenOpen]

def hiddenSet : Set Block := blockSet hiddenEnv (hiddenBlocks ++ [hiddenSecond, hiddenReceive])

def anyMoment : Moment where
  now := 0
  tick := 0
  order := Containers.Visit.inserted

theorem hidden_evaluated :
    DistinctHashes hiddenEnv (hiddenBlocks ++ [hiddenSecond, hiddenReceive]) ∧
      (∀ b ∈ Block.openBlock hiddenEnv.genesisOpen ::
        (hiddenBlocks ++ [hiddenSecond, hiddenReceive]), b.hash hiddenEnv ≠ 1) ∧
      ∃ s, ledgerOf hiddenEnv hiddenBlocks = .ok s ∧
        (∃ t, Ledger.processAll hiddenEnv s [(0, hiddenSecond), (0, hiddenReceive)] = .ok t ∧
          t.blockExists 6 = true) ∧
        ∃ p, (BlockProcessor.idle s).handleAll (withWork hiddenEnv) anyMoment 2
          [hiddenReceive, hiddenSecond] = .ok p ∧ p.store.blockExists 6 = false := by
  decide +kernel

/-! ## A lost block with the hash 1 -/

def headChange : Block := .changeBlock ⟨⟨oneSendBack.hash oneEnv, 98⟩, 0, 0⟩

def headState : Block := .stateBlock ⟨⟨77, oneSendBack.hash oneEnv, 77, 6, 0⟩, 0, 0⟩

def headSet : Set Block := blockSet oneEnv (headChange :: headState :: oneBlocks)

def sharedHead : Except Fault BlockStore := do
  let s ← ledgerOf oneEnv oneBlocks
  let s ← Ledger.rollback oneEnv 0 s (oneReceive.hash oneEnv)
  let s ← Ledger.rollback oneEnv 0 s 1
  let s ← Ledger.rollback oneEnv 0 s (oneSendBack.hash oneEnv)
  let (_, s) ← Ledger.process oneEnv 0 s oneSendBack
  pure s

theorem reachable_sharedHead (h : sharedHead = .ok s) : Reachable oneEnv headSet s := by
  obtain ⟨s₀, hs₀, h⟩ := ok_of_bind h
  obtain ⟨s₁, hs₁, h⟩ := ok_of_bind h
  obtain ⟨s₂, hs₂, h⟩ := ok_of_bind h
  obtain ⟨s₃, hs₃, h⟩ := ok_of_bind h
  obtain ⟨⟨r, s₄⟩, hs₄, h⟩ := ok_of_bind h
  cases h
  obtain ⟨hne, hne₁, hne₂, -⟩ := one_hash_ne_genesisHash
  have hmem : ∀ b ∈ oneBlocks, b ∈ headSet := fun b hb =>
    .tail _ (.tail _ (.tail _ hb))
  have hreach := reachable_ledgerOf hmem hs₀
  have hreach₁ := hreach.rollback (blockExists_of_rollback hs₁) hne hs₁
  have hreach₂ := hreach₁.rollback (blockExists_of_rollback hs₂) hne₁ hs₂
  have hreach₃ := hreach₂.rollback (blockExists_of_rollback hs₃) hne₂ hs₃
  exact hreach₃.process (hmem _ (by simp [oneBlocks])) hs₄

set_option maxRecDepth 100000 in
theorem head_evaluated :
    DistinctHashes oneEnv (headChange :: headState :: oneBlocks) ∧
      (∀ b ∈ Block.openBlock oneEnv.genesisOpen :: headChange :: headState :: oneBlocks,
        b.hash oneEnv ≠ oneEnv.genesisAccount) ∧
      ∃ s, sharedHead = .ok s ∧
        (∃ t, Ledger.processAll oneEnv s [(0, headChange), (0, headState)] = .ok t ∧
          t.blockExists (headChange.hash oneEnv) = true) ∧
        ∃ p, (BlockProcessor.idle s).handleAll (withWork oneEnv) anyMoment 2
          [headState, headChange] = .ok p ∧
          p.store.blockExists (headChange.hash oneEnv) = false := by
  decide +kernel

/-- With either marker hash there are blocks that are lost in one order of arrival. -/
theorem arrival_order_matters :
    (CollisionFree hiddenEnv hiddenSet ∧ (∀ b ∈ hiddenSet, b.hash hiddenEnv ≠ 1) ∧
      ∃ s t, Reachable hiddenEnv hiddenSet s ∧
        Ledger.processAll hiddenEnv s [(0, hiddenSecond), (0, hiddenReceive)] = .ok t ∧
        hiddenSecond ∈ hiddenSet ∧ hiddenReceive ∈ hiddenSet ∧
        (∀ b, (withWork hiddenEnv).workValidate b = false) ∧
        ¬ OrderFree (withWork hiddenEnv) s [hiddenSecond, hiddenReceive] t) ∧
    CollisionFree oneEnv headSet ∧ (∀ b ∈ headSet, b.hash oneEnv ≠ oneEnv.genesisAccount) ∧
      ∃ s t, Reachable oneEnv headSet s ∧
        Ledger.processAll oneEnv s [(0, headChange), (0, headState)] = .ok t ∧
        headChange ∈ headSet ∧ headState ∈ headSet ∧
        (∀ b, (withWork oneEnv).workValidate b = false) ∧
        ¬ OrderFree (withWork oneEnv) s [headChange, headState] t := by
  obtain ⟨hdistinct, hne, s, hs, ⟨t, ht, hstored⟩, p, hp, hlost⟩ := hidden_evaluated
  obtain ⟨hdistinct', hne', s', hs', ⟨t', ht', hstored'⟩, p', hp', hlost'⟩ := head_evaluated
  refine ⟨⟨collisionFree_blockSet hdistinct, hne, s, t, reachable_ledgerOf ?_ hs, ht,
    by simp [hiddenSet, blockSet], by simp [hiddenSet, blockSet],
    withWork_workValidate hiddenEnv, not_orderFree (by simp) (by simp) hp hlost hstored⟩,
    collisionFree_blockSet hdistinct', hne', s', t', reachable_sharedHead hs', ht',
    by simp [headSet, blockSet], by simp [headSet, blockSet],
    withWork_workValidate oneEnv, not_orderFree (by simp) (by simp) hp' hlost' hstored'⟩
  exact fun b hb => .tail _ (List.mem_append_left _ hb)

end Badem
