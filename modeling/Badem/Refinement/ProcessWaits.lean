import Badem.Abstract.Retiming
import Badem.Refinement.Reachability

/-!
# Blocks that wait

A ledger that holds a part of a lattice accepts a block of that lattice as soon as everything it
needs is stored; until then it answers with a gap and names the hash to wait for.
-/

namespace Badem

open Mdb BlockLattice LedgerProcessor

variable {env : Env} {U : Set Block}
variable {δ : Account → Uint128} {s : BlockStore} {L P : BlockLattice env U}

section Retime

variable (τ : L.Timing)

theorem raw_retime : (L.retime τ).raw = L.raw := by
  funext h
  unfold raw successor
  rw [find_retime, child_retime]
  cases L.find h <;> cases L.child h <;> rfl

theorem frontier_retime (h : BlockHash) : (L.retime τ).frontier h = L.frontier h := by
  unfold BlockLattice.frontier
  rw [find_retime, child_retime]
  simp only [Option.map_eq_none_iff]
  cases L.find h <;> rfl

theorem pendingInfo_retime (k : PendingKey) : (L.retime τ).pendingInfo k = L.pendingInfo k := by
  unfold pendingInfo
  rw [find_retime, receiver_retime]
  simp only [Option.map_eq_none_iff]
  cases L.find k.hash <;> rfl

theorem checkpoint_retime (h : BlockHash) : (L.retime τ).checkpoint h = L.checkpoint h := by
  unfold checkpoint
  rw [find_retime]
  cases L.find h <;> rfl

theorem gain_retime (h : BlockHash) (amount : Amount) (r : Account) :
    (L.retime τ).gain h amount r = L.gain h amount r := by
  unfold gain
  rw [find_retime]
  cases L.find h <;> rfl

theorem head_info_retime (a : Account) :
    ((L.retime τ).head a).map Entry.info = (L.head a).map Entry.info := by
  rw [head_retime, Option.map_map]
  rfl

theorem refines_retime_iff : Refines δ s (L.retime τ) ↔ Refines δ s L := by
  have hsize : (L.retime τ).entries.size = L.entries.size := Table.size_mapValues _ _
  constructor
  · rintro ⟨h₁, h₂, h₃, h₄, h₅, h₆, h₇, h₈, h₉, h₁₀⟩
    simp only [raw_retime, hsize, head_info_retime, frontier_retime, pendingInfo_retime,
      gain_retime, checkpoint_retime] at h₁ h₂ h₃ h₄ h₅ h₆ h₈
    exact ⟨h₁, h₂, h₃, h₄, h₅, h₆, h₇, h₈, h₉, h₁₀⟩
  · rintro ⟨h₁, h₂, h₃, h₄, h₅, h₆, h₇, h₈, h₉, h₁₀⟩
    refine ⟨?_, ?_, ?_, ?_, ?_, ?_, h₇, ?_, h₉, h₁₀⟩
    all_goals
      simp only [raw_retime, hsize, head_info_retime, frontier_retime, pendingInfo_retime,
        gain_retime, checkpoint_retime]
      assumption

end Retime

theorem stateBlock_of_position
    (now : Nat) {b : StateBlock} (hexists : ¬ s.blockExists ((Block.stateBlock b).hash env) = true)
    (hsig : env.validateMessage b.hashables.account ((Block.stateBlock b).hash env) b.signature =
      false)
    (hzero : b.hashables.account ≠ 0) {code c : ProcessResult} {amount : Amount} {isSend : Bool}
    (hpos : statePosition s b (s.accountGet b.hashables.account) =
      (code, amount, isSend))
    (hc : (if code = .progress ∧ isSend = false then stateLink s b amount
      else code) = c)
    (hne : c ≠ .progress) :
    stateBlock env now s b = .ok (.ofAmount c amount, s) := by
  unfold stateBlock
  simp only [if_neg hexists, hpos]
  rw [if_neg (Bool.eq_false_iff.mp hsig), if_neg hzero, hc, if_neg hne]

section Waits

variable (H : CollisionFree env U) (M : MarkerFree env U) (now : Nat)
variable (hsub : P.Sub L) (hR : Refines δ s P)
variable {e : Entry} (he : L.find e.hash = some e) (hfresh : P.find e.hash = none)

include he in
theorem hash_block : e.block.hash env = e.hash := L.hashed he

include hR he hfresh in
theorem not_blockExists_of_fresh : ¬ s.blockExists (e.block.hash env) = true := by
  rw [hash_block he, hR.blockExists_iff, hfresh]
  simp

include hfresh in
theorem ne_genesisHash_of_fresh : e.hash ≠ env.genesisHash := by
  intro h
  have hgen : P.find env.genesisHash = some env.genesisEntry := P.genesis
  simp [← h, hfresh] at hgen

include hsub he hfresh in
theorem head_of_previous {p : Entry} (hne : e.previous ≠ 0) (hp : P.find e.previous = some p) :
    P.head e.account = some p ∧ e.Extends p := by
  obtain ⟨p', hp', -, hext⟩ := L.exists_previous he hne
  cases (hsub hp).symm.trans hp'
  refine ⟨(P.head_eq_some_iff _ _).mpr ⟨P.find_hash hp, hext.account.symm, ?_⟩, hext⟩
  rw [child_eq_none_iff]
  intro k c hc hprev
  rw [P.keyed hp] at hprev
  obtain rfl := L.no_fork he (hsub hc) hne hprev.symm
  simp [P.find_hash hc] at hfresh

variable (hsig : env.validateMessage e.account e.hash e.block.blockSignature = false)
  {b : StateBlock} {x : BlockHash}

include hR he hfresh hsig in
theorem process_gapPrevious (hne : e.previous ≠ 0) (hgap : P.find e.previous = none) :
    ∃ r, Ledger.process env now s e.block = .ok (r, s) ∧ r.code = .gapPrevious := by
  have hexists := not_blockExists_of_fresh hR he hfresh
  have hget := hR.blockGet_of_find_none hgap
  have hlawful := L.lawful he
  have hhash := hash_block he
  unfold Entry.previous at hne hget hgap
  cases hb : e.block with
  | openBlock b =>
    rw [hb] at hne
    exact absurd rfl hne
  | sendBlock b =>
    rw [hb] at hexists hget
    refine ⟨.ofCode .gapPrevious, ?_, rfl⟩
    show sendBlock env now s b = _
    unfold sendBlock
    simp only [if_neg hexists]
    rw [show s.blockGet b.hashables.previous = none from hget]
  | receiveBlock b =>
    rw [hb] at hexists hget
    refine ⟨.ofCode .gapPrevious, ?_, rfl⟩
    show receiveBlock env now s b = _
    unfold receiveBlock
    simp only [if_neg hexists]
    rw [show s.blockGet b.hashables.previous = none from hget]
  | changeBlock b =>
    rw [hb] at hexists hget
    refine ⟨.ofCode .gapPrevious, ?_, rfl⟩
    show changeBlock env now s b = _
    unfold changeBlock
    simp only [if_neg hexists]
    rw [show s.blockGet b.hashables.previous = none from hget]
  | stateBlock b =>
    rw [hb] at hexists hne hgap hsig hhash
    simp only [Entry.Lawful, hb] at hlawful
    obtain ⟨hacc, -⟩ := hlawful
    have hzero : b.hashables.account ≠ 0 := by
      rw [← hacc]
      exact L.account_ne_zero he
    have hmissing : s.blockExists b.hashables.previous = false := by
      rw [← Bool.not_eq_true, hR.blockExists_iff]
      simpa [Block.previous] using hgap
    have hprev : b.hashables.previous ≠ 0 := hne
    have hposition : statePosition s b (s.accountGet b.hashables.account) =
        (.gapPrevious, b.hashables.balance, false) := by
      cases s.accountGet b.hashables.account with
      | none => rw [statePosition, if_pos hprev]
      | some info => rw [statePosition, if_neg hprev, if_pos hmissing]
    rw [← hhash, hacc] at hsig
    exact ⟨_, stateBlock_of_position now hexists hsig hzero hposition rfl
      (by decide : ProcessResult.gapPrevious ≠ .progress), rfl⟩

include H M hR hfresh in
theorem blockSource_of_state (hb : e.block = .stateBlock b) (hs : e.source env = some x)
    (hprev : e.previous ≠ 0 → ∃ p, P.find e.previous = some p ∧ p.balance = e.previousBalance) :
    Ledger.blockSource env s (.stateBlock b) = .ok x := by
  have hne := ne_genesisHash_of_fresh hfresh
  rw [Entry.source_state hb hne] at hs
  split_ifs at hs with hlt hlink
  cases hs
  have hsend : Ledger.isSend env s b = .ok false := by
    unfold Ledger.isSend
    by_cases hz : b.hashables.previous = 0
    · rw [if_neg (not_not_intro hz)]
    · have hprevious : e.previous = b.hashables.previous := Entry.previous_of_block hb
      rw [hprevious] at hprev
      obtain ⟨p, hp, hbalance⟩ := hprev hz
      rw [if_pos hz, balance_eq H (hR.reads M) hp, ok_bind, hbalance, decide_eq_false hlt]
      rfl
  unfold Ledger.blockSource
  simp only
  rw [hsend]
  rfl

include hsub hR he hfresh in
theorem statePosition_of_waiting (hb : e.block = .stateBlock b)
    (hacc : e.account = b.hashables.account)
    (hhead : e.previous ≠ 0 → ∃ p, P.find e.previous = some p ∧
      P.head e.account = some p ∧ e.Extends p)
    (hlt : ¬ b.hashables.balance < e.previousBalance) (hlink : b.hashables.link ≠ 0) :
    ∃ amount, statePosition s b (s.accountGet b.hashables.account) =
      (.progress, amount, false) := by
  have hprevious : e.previous = b.hashables.previous := Entry.previous_of_block hb
  by_cases hz : b.hashables.previous = 0
  · have hnone := head_eq_none_of_opening hsub he (hprevious.trans hz) hfresh
    rw [hacc] at hnone
    rw [BlockStore.accountGet, (hR.account_none_iff _).mpr hnone]
    exact ⟨_, statePosition_unopened hz hlink⟩
  · obtain ⟨p, hp, hphead, hext⟩ := hhead (by rw [hprevious]; exact hz)
    rw [hacc] at hphead
    rw [hprevious] at hp
    obtain ⟨i, hi, hdesc⟩ := hR.account_of_head hphead
    have hstored : s.blockExists b.hashables.previous = true := by
      rw [hR.blockExists_iff, hp]
      rfl
    have hposition := statePosition_of_head hz hstored
      ((P.keyed hp).symm.trans hdesc.head.symm)
    rw [hext.previousBalance, ← hdesc.balance] at hlt
    rw [decide_eq_false hlt] at hposition
    rw [BlockStore.accountGet, hi]
    exact ⟨_, hposition⟩

include H M hsub hR he hfresh hsig in
theorem process_gapSource (hprev : e.previous ≠ 0 → (P.find e.previous).isSome = true)
    (hs : e.source env = some x) (hgap : P.find x = none) :
    ∃ r, Ledger.process env now s e.block = .ok (r, s) ∧ r.code = .gapSource ∧
      Ledger.blockSource env s e.block = .ok x := by
  have hexists := not_blockExists_of_fresh hR he hfresh
  have hne := ne_genesisHash_of_fresh hfresh
  have hlawful := L.lawful he
  have hhash := hash_block he
  have hmissing : s.blockExists x = false := by
    rw [← Bool.not_eq_true, hR.blockExists_iff, hgap]
    simp
  have hhead : e.previous ≠ 0 → ∃ p, P.find e.previous = some p ∧
      P.head e.account = some p ∧ e.Extends p := by
    intro hz
    obtain ⟨p, hp⟩ := Option.isSome_iff_exists.mp (hprev hz)
    exact ⟨p, hp, head_of_previous hsub he hfresh hz hp⟩
  cases hb : e.block with
  | receiveBlock b =>
    obtain rfl : b.hashables.source = x := by
      simpa [Entry.source, hne, hb] using hs
    have hprevious : e.previous = b.hashables.previous := Entry.previous_of_block hb
    have hz : e.previous ≠ 0 := by
      intro hz
      have htype := (L.opening he hz).type
      rw [hb] at htype
      simp [Block.type] at htype
    obtain ⟨p, hp, -, hext⟩ := hhead hz
    have hvalid : (Block.receiveBlock b).validPredecessor p.block = true :=
      Block.validPredecessor_of_isLegacy (by simp [Block.type])
        (hext.legacy (by rw [hb]; rfl))
    rw [hb] at hexists
    rw [hprevious] at hp
    refine ⟨.ofCode .gapSource, ?_, rfl, rfl⟩
    show receiveBlock env now s b = _
    unfold receiveBlock
    simp only [if_neg hexists, hR.blockGet_of_find hp, hvalid, Bool.true_eq_false, if_false]
    rw [if_pos hmissing]
  | openBlock b =>
    obtain rfl : b.hashables.source = x := by
      simpa [Entry.source, hne, hb] using hs
    rw [hb] at hexists
    refine ⟨.ofCode .gapSource, ?_, rfl, rfl⟩
    show openBlock env now s b = _
    unfold openBlock
    simp only [if_neg hexists]
    rw [if_pos hmissing]
  | stateBlock b =>
    have hlink := hs
    rw [Entry.source_state hb hne] at hlink
    split_ifs at hlink with hlt hzero
    cases hlink
    have hsource := blockSource_of_state H M hR hfresh hb hs (fun hz => by
      obtain ⟨p, hp, -, hext⟩ := hhead hz
      exact ⟨p, hp, hext.previousBalance.symm⟩)
    simp only [Entry.Lawful, hb] at hlawful
    obtain ⟨hacc, -⟩ := hlawful
    have haccount : b.hashables.account ≠ 0 := by
      rw [← hacc]
      exact L.account_ne_zero he
    rw [hb] at hexists hsig hhash
    rw [← hhash, hacc] at hsig
    obtain ⟨amount, hposition⟩ :=
      statePosition_of_waiting hsub hR he hfresh hb hacc hhead hlt hzero
    refine ⟨_, stateBlock_of_position now hexists hsig haccount hposition ?_
      (by decide : ProcessResult.gapSource ≠ .progress), rfl, hsource⟩
    rw [if_pos ⟨rfl, rfl⟩, stateLink, if_pos hzero, if_pos hmissing]
  | _ => simp [Entry.source, hne, hb] at hs

end Waits

end Badem
