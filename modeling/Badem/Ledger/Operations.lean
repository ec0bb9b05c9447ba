import Badem.Ledger.Transfers
import Badem.Refinement.Agreement

/-!
# Calls on a reachable ledger

Processing and rolling back always return.  A block that is not accepted leaves every table as
it was, and a rollback ends with the block gone and the genesis block in place.
-/

namespace Badem

open Mdb BlockLattice

variable {env : Env} {U : Set Block} {s : BlockStore}

section Process

/-- Processing is total and all-or-nothing. -/
theorem process_total (H : CollisionFree env U) (M : MarkerFree env U) (hs : Reachable env U s)
    (now : Nat) {b : Block} (hb : b ∈ U) :
    ∃ r s', Ledger.process env now s b = .ok (r, s') ∧ (r.code ≠ .progress → s' = s) := by
  obtain ⟨L, hR⟩ := hs.refines H M
  rcases process_step H M now hR hb with ⟨r, hr, -⟩ | ⟨r, s', e, ha, -, -, hr, hcode, -⟩
  · exact ⟨r, s, hr, fun _ => rfl⟩
  · exact ⟨r, s', hr, fun hne => absurd hcode hne⟩

theorem process_total_plain :
    ∃ s, Reachable plainEnv plainSet s ∧ s.blockCount = 4 ∧ ∃ r s',
      Ledger.process plainEnv 0 s plainOpen = .ok (r, s') ∧ (r.code ≠ .progress → s' = s) := by
  obtain ⟨s, -, hreach, hcount, -⟩ := plain_ledger
  exact ⟨s, hreach, hcount, process_total plain_collisionFree plain_markerFree hreach 0
    (List.mem_cons_of_mem _ (List.mem_cons_of_mem _ List.mem_cons_self))⟩

def accountNumbers : Block → List Account
  | .sendBlock b => [b.hashables.destination]
  | .receiveBlock _ => []
  | .openBlock b => [b.hashables.representative, b.hashables.account]
  | .changeBlock b => [b.hashables.representative]
  | .stateBlock b => [b.hashables.account, b.hashables.representative, b.hashables.link]

theorem one_ne_accountNumber :
    ∀ b ∈ Block.openBlock oneEnv.genesisOpen :: oneLate :: oneBlocks,
      ∀ b' ∈ Block.openBlock oneEnv.genesisOpen :: oneLate :: oneBlocks,
        b.hash oneEnv ∉ accountNumbers b' := by
  decide

/-- With the hash 1, which is no account number, an assertion fails. -/
theorem process_fails :
    CollisionFree oneEnv oneSet ∧
      (∀ b ∈ oneSet, ∀ b' ∈ oneSet, b.hash oneEnv ∉ accountNumbers b') ∧
      ∃ s, Reachable oneEnv oneSet s ∧ oneLate ∈ oneSet ∧
        ∀ x, Ledger.process oneEnv 0 s oneLate ≠ .ok x := by
  refine ⟨one_collisionFree, one_ne_accountNumber, ?_⟩
  obtain ⟨s, hreach, hdamage⟩ := one_damaged
  refine ⟨s, hreach, List.mem_cons_of_mem _ List.mem_cons_self, ?_⟩
  exact ne_ok_of_not_returns hdamage.refuses

end Process

section Rollback

/-- What a rollback of a block does, with any sufficient bound on its iterations. -/
def RollsBack (env : Env) (now : Nat) (s : BlockStore) (h : BlockHash) : Prop :=
  ∃ s', Ledger.rollback env now s h = .ok s' ∧
    (∀ fuel, s.blockCount + 2 ≤ fuel → rollbackLoop env now fuel s h = .ok s') ∧
    s'.blockExists h = false ∧ s'.blockExists env.genesisHash = true

/-- Rolling back the head of the destination ends with the send pending, and the send itself
is still stored as a head. -/
def Waits (env : Env) (now : Nat) (s : BlockStore) (h : BlockHash) (d : Account) : Prop :=
  ∀ fuel, s.blockCount ≤ fuel →
    ∃ s', rollbackUntil (rollbackLoop env now (fuel + 2)) (fun s => (s.pendingGet ⟨d, h⟩).isSome)
        d (fuel + 1) s = .ok s' ∧
      (s'.pendingGet ⟨d, h⟩).isSome = true ∧ s'.blockGet h = s.blockGet h ∧
      s'.blockSuccessor h = 0

/-- Rollback terminates cleanly, and so does each wait for a send at the head of its chain. -/
theorem rollback_total (H : CollisionFree env U) (M : MarkerFree env U) (hs : Reachable env U s)
    (now : Nat) {h : BlockHash} (hexists : s.blockExists h = true) (hgen : h ≠ env.genesisHash) :
    RollsBack env now s h ∧
      ∀ d, SendsTo env s h d → s.blockSuccessor h = 0 → Waits env now s h d := by
  obtain ⟨L, hR⟩ := hs.refines H M
  obtain ⟨e, he⟩ := hR.find_of_exists hexists
  obtain rfl := L.keyed he
  constructor
  · obtain ⟨s', L', hrun, hR', -, hgone⟩ := rollback_spec H M now hR he hgen
    refine ⟨s', hrun, ?_, ?_, ?_⟩
    · intro fuel hfuel
      exact rollbackLoop_of_le env now s hfuel _ _ hrun
    · rw [hR'.blockExists_iff, hgone]
      rfl
    · rw [hR'.blockExists_iff, show L'.find env.genesisHash = _ from L'.genesis]
      rfl
  · intro d hsend hsucc fuel hfuel
    obtain ⟨e', he', hdest⟩ := (sendsTo_iff H M hR _ d).mp hsend
    cases he.symm.trans he'
    rw [blockSuccessor_of_find hR he, successor_eq_zero_iff H he] at hsucc
    have hnewer : L.newer (e.time + 1) ≤ fuel := by
      refine Nat.le_trans (L.newer_le_size _) ?_
      rw [← hR.count]
      exact hfuel
    obtain ⟨s', L', hrun, hR', -, hr, -⟩ := rollbackUntil_spec H
      (rollbackLoop_undoes H M now fuel) (fun _ => rfl) hdest hgen (fuel + 1) hR he hsucc
      hnewer (by omega)
    refine ⟨s', hrun, ?_, ?_, ?_⟩
    · rw [BlockStore.pendingGet, hR'.pending, pendingInfo_of_find _ hr.stored,
        if_pos ⟨hdest, hr.receiver⟩]
      rfl
    · rw [hR'.blockGet_of_find hr.stored, hR.blockGet_of_find he]
    · rw [blockSuccessor_of_find hR' hr.stored]
      exact successor_of_child_none _ hr.child

theorem rollback_total_plain :
    ∃ s, Reachable plainEnv plainSet s ∧ s.blockExists 2 = true ∧ RollsBack plainEnv 0 s 2 := by
  obtain ⟨s, -, hreach, -, hexists, -⟩ := plain_ledger
  exact ⟨s, hreach, hexists,
    (rollback_total plain_collisionFree plain_markerFree hreach 0 hexists (by decide)).1⟩

/-- Either marker hash can leave a block that is never rolled back: an assertion fails, or the
balance of the genesis block is computed forever. -/
theorem rollback_fails :
    (CollisionFree oneEnv oneSet ∧ (∀ b ∈ oneSet, b.hash oneEnv ≠ oneEnv.genesisAccount) ∧
      oneSend.hash oneEnv ≠ oneEnv.genesisHash ∧
      ∃ s, Reachable oneEnv oneSet s ∧ s.blockExists (oneSend.hash oneEnv) = true ∧
        ∀ s', Ledger.rollback oneEnv 0 s (oneSend.hash oneEnv) ≠ .ok s') ∧
    CollisionFree sendEnv sendSet ∧ (∀ b ∈ sendSet, b.hash sendEnv ≠ 1) ∧
      sendEnv.genesisAccount ≠ sendEnv.genesisHash ∧
      ∃ s, Reachable sendEnv sendSet s ∧ s.blockExists sendEnv.genesisAccount = true ∧
        (∀ s', Ledger.rollback sendEnv 0 s sendEnv.genesisAccount ≠ .ok s') ∧
        ∀ fuel, balanceLoop sendEnv s fuel ⟨sendEnv.genesisHash, 0, 0⟩ = .error .outOfFuel := by
  obtain ⟨t, hreach', hexists', hne', hstuck', hcircle⟩ := send_ledger
  refine ⟨⟨one_collisionFree, one_ne_genesisAccount, one_hash_ne_genesisHash.2.2.2, ?_⟩,
    send_collisionFree, send_ne_one, hne', t, hreach', hexists', ne_ok_of_not_returns hstuck',
    hcircle⟩
  obtain ⟨s, hreach, hdamage⟩ := one_damaged
  exact ⟨s, hreach, hdamage.stored, ne_ok_of_not_returns hdamage.stuck⟩

end Rollback

end Badem
