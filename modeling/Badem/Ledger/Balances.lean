import Badem.Ledger.MarkerHashes
import Badem.Refinement.Agreement

/-!
# Supply and voting weight

Balances and pending amounts make up the whole supply, so that no sum wraps, and the weight of
a representative is the sum of the balances that delegate to it.
-/

namespace Badem

open Mdb BlockLattice

variable {env : Env} {U : Set Block} {s : BlockStore}

/-- Everything that accounts own and that is on its way to them. -/
def supply (s : BlockStore) : Nat :=
  s.accounts.sum (fun _ i => i.balance.toNat) + s.pending.sum (fun _ p => p.amount.toNat)

section Supply

/-- The supply is conserved, and with sums that throw on overflow every call returns the
same as with the unchecked sums. -/
theorem supply_conserved
    (H : CollisionFree env U) (M : MarkerFree env U) (hs : Reachable env U s) (now : Nat) :
    supply s = 2 ^ 128 - 1 ∧
      (∀ b ∈ U, ∃ x, Ledger.process env.checking now s b = .ok x ∧
        Ledger.process env now s b = .ok x) ∧
      ∀ h, s.blockExists h = true → h ≠ env.genesisHash →
        ∃ s', Ledger.rollback env.checking now s h = .ok s' ∧
          Ledger.rollback env now s h = .ok s' := by
  obtain ⟨L, hR⟩ := hs.refines H M
  have hcheck := hs.checking H M
  refine ⟨?_, ?_, ?_⟩
  · rw [← genesisAmount_toNat]
    exact hR.supply
  · intro b hb
    exact process_checking H M now hcheck hb
  · intro h hexists hgen
    exact rollback_checking H M now hcheck hexists hgen

theorem supply_conserved_plain :
    ∃ s, Reachable plainEnv plainSet s ∧ s.blockCount = 4 ∧ supply s = 2 ^ 128 - 1 := by
  obtain ⟨s, -, hreach, hcount, -⟩ := plain_ledger
  exact ⟨s, hreach, hcount,
    (supply_conserved plain_collisionFree plain_markerFree hreach 0).1⟩

def changeSum (env : Env) (s : BlockStore) (b : ChangeBlock) : Except Fault Nat := do
  let s ← s.blockPut env ((Block.changeBlock b).hash env) (.changeBlock b) 0
  let balance ← Ledger.balance env s b.hashables.previous
  pure ((s.representationGet b.hashables.representative).toNat + balance.toNat)

/-- With the hash 1 the supply shrinks, and additions to the weights wrap in any case. -/
theorem supply_lost :
    (CollisionFree oneEnv oneSet ∧ (∀ b ∈ oneSet, b.hash oneEnv ≠ oneEnv.genesisAccount) ∧
      ∃ s, Reachable oneEnv oneSet s ∧ supply s ≠ 2 ^ 128 - 1) ∧
    ∃ s, genesisInitialize plainEnv 0 .empty = .ok s ∧
      returns (changeSum plainEnv s
        ⟨⟨plainEnv.genesisHash, plainEnv.genesisAccount⟩, 0, 0⟩)
        (fun n => decide (2 ^ 128 ≤ n)) = true := by
  refine ⟨⟨one_collisionFree, one_ne_genesisAccount, ?_⟩, ?_⟩
  · obtain ⟨s, hreach, hdamage⟩ := one_damaged
    refine ⟨s, hreach, ?_⟩
    have hsum : supply s = 16 := hdamage.supply
    rw [hsum]
    decide
  · decide +kernel

end Supply

section Weight

/-- What an account contributes to the weight of `r`. -/
def delegated (s : BlockStore) (i : AccountInfo) (r : Account) : Nat :=
  match s.blockGet i.repBlock with
  | some b => if b.representative = r then i.balance.toNat else 0
  | none => 0

/-- The weights are the delegated balances, and every account delegates by the block that
the representative visitor finds. -/
structure WeightsDelegated (env : Env) (s : BlockStore) : Prop where
  weight : ∀ r, (s.representationGet r).toNat = s.accounts.sum (fun _ i => delegated s i r)
  stored : ∀ {a i}, s.accountGet a = some i → s.blockExists i.repBlock = true
  visited : ∀ {a i}, s.accountGet a = some i →
    Ledger.representative env s i.head = .ok i.repBlock

theorem delegated_le (s : BlockStore) (i : AccountInfo) (r : Account) :
    delegated s i r ≤ i.balance.toNat := by
  unfold delegated
  split
  · grind
  · exact Nat.zero_le _

theorem weight_eq_ofNat {L : BlockLattice env U} (hR : Refines (fun _ => 0) s L) (r : Account) :
    s.representationGet r =
      BitVec.ofNat 128 (s.accounts.sum (fun _ i => delegated s i r)) := by
  rw [hR.weights, add_zero, Table.ofNat_sum]
  refine Table.sum_congr ?_
  intro a i hi
  obtain ⟨x, hx, -⟩ := hR.repBlock_stored hi
  rw [gain_of_find _ hx, delegated, hR.blockGet_of_find hx]
  simp only
  split_ifs
  · rw [BitVec.ofNat_toNat, BitVec.setWidth_eq]
  · rfl

theorem delegated_sum_lt {L : BlockLattice env U} (hR : Refines (fun _ => 0) s L) (r : Account) :
    s.accounts.sum (fun _ i => delegated s i r) < 2 ^ 128 := by
  have hle := Table.sum_le_sum s.accounts (fun _ i => delegated_le s i r)
  have hsupply := hR.supply
  have hmax := genesisAmount_toNat
  omega

/-- Voting weight is delegated balance. -/
theorem weights_delegated (H : CollisionFree env U) (M : MarkerFree env U)
    (hs : Reachable env U s) : WeightsDelegated env s := by
  obtain ⟨L, hR⟩ := hs.refines H M
  refine ⟨?_, ?_, ?_⟩
  · intro r
    rw [weight_eq_ofNat hR, BitVec.toNat_ofNat, Nat.mod_eq_of_lt (delegated_sum_lt hR r)]
  · intro a i hi
    obtain ⟨x, hx, -⟩ := hR.repBlock_stored hi
    rw [hR.blockExists_iff, hx]
    rfl
  · intro a i hi
    obtain ⟨x, hx, hdesc⟩ := hR.head_of_account hi
    obtain ⟨hfind, -, -⟩ := (L.head_eq_some_iff a x).mp hx
    rw [hdesc.head, hdesc.repBlock]
    exact representative_eq H (hR.reads M) hfind

theorem weights_delegated_plain :
    ∃ s, Reachable plainEnv plainSet s ∧ s.blockCount = 4 ∧ WeightsDelegated plainEnv s := by
  obtain ⟨s, -, hreach, hcount, -⟩ := plain_ledger
  exact ⟨s, hreach, hcount, weights_delegated plain_collisionFree plain_markerFree hreach⟩

theorem change_weight :
    ∃ s, Reachable changeEnv changeSet s ∧
      (s.representationGet 5).toNat ≠ s.accounts.sum (fun _ i => delegated s i 5) := by
  obtain ⟨s, hs, hne⟩ : ∃ s, ledgerOf changeEnv [changeFirst] = .ok s ∧
      (s.representationGet 5).toNat ≠ s.accounts.sum (fun _ i => delegated s i 5) := by
    decide +kernel
  refine ⟨s, reachable_ledgerOf ?_ hs, hne⟩
  intro b hb
  rw [List.mem_singleton.mp hb]
  exact .tail _ (.head _)

theorem representative_of_missing {h : BlockHash} (hb : s.blockGet h = none) :
    Ledger.representative env s h = .error .assertion := by
  obtain ⟨n, hn⟩ : ∃ n, visitorFuel s = n + 1 :=
    ⟨4 * s.blockCount + 3, by unfold visitorFuel; omega⟩
  unfold Ledger.representative Ledger.representativeCalculated
  rw [hn, representativeLoop, hb]
  rfl

/-- Either marker hash separates weight and balance. -/
theorem weights_misplaced :
    (CollisionFree changeEnv changeSet ∧ (∀ b ∈ changeSet, b.hash changeEnv ≠ 1) ∧
      ∃ s, Reachable changeEnv changeSet s ∧ ¬ WeightsDelegated changeEnv s) ∧
    CollisionFree oneEnv oneSet ∧ (∀ b ∈ oneSet, b.hash oneEnv ≠ oneEnv.genesisAccount) ∧
      ∃ s, Reachable oneEnv oneSet s ∧ ¬ WeightsDelegated oneEnv s := by
  refine ⟨⟨change_collisionFree, change_ne_one, ?_⟩, one_collisionFree, one_ne_genesisAccount, ?_⟩
  · obtain ⟨s, hreach, hne⟩ := change_weight
    exact ⟨s, hreach, fun h => hne (h.weight 5)⟩
  · obtain ⟨s, hreach, hdamage⟩ := one_damaged
    refine ⟨s, hreach, ?_⟩
    intro h
    obtain ⟨i, hi, hhead⟩ := Option.map_eq_some_iff.mp hdamage.head
    have hvisited := h.visited hi
    simp [hhead, representative_of_missing hdamage.missing] at hvisited

end Weight

end Badem
