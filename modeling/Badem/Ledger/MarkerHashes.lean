import Badem.Refinement.Reachability

/-!
# Blocks whose hash is a marker

`ledger::account` starts its walk with the successor 1, and the visitors recognise the genesis
block by the number of the genesis account.  The ledgers here have blocks with these hashes.
-/

namespace Badem

open Mdb

section Walks

variable {env : Env} {s : BlockStore}
variable (hgen : s.blockGet env.genesisHash = some (.openBlock env.genesisOpen))
variable (hne : env.genesisHash ≠ 0)

include hgen hne in
theorem balanceLoop_of_marker
    {b : SendBlock} (hb : s.blockGet env.genesisAccount = some (.sendBlock b))
    (hprev : b.hashables.previous = env.genesisHash) (fuel : Nat) :
    balanceLoop env s fuel ⟨env.genesisHash, 0, 0⟩ = .error .outOfFuel := by
  -- four iterations of the two loops lead back to the genesis block
  induction fuel using Nat.strong_induction_on with
  | _ fuel ih =>
    have hback : ∀ n, n + 2 ≤ fuel →
        amountLoop env s n env.genesisAccount
          ⟨0, env.genesisHash, b.hashables.balance⟩ = .error .outOfFuel := by
      intro n hn
      cases n with
      | zero => rfl
      | succ n =>
        rw [amountLoop]
        simp only
        rw [if_neg (fun h => hne h.2), if_neg (not_not_intro rfl), ih n (by omega)]
        rfl
    have hamount : ∀ n, n + 1 ≤ fuel →
        amountLoop env s n env.genesisAccount ⟨env.genesisAccount, 0, 0⟩ =
          .error .outOfFuel := by
      intro n hn
      cases n with
      | zero => rfl
      | succ n =>
        rw [amountLoop_visit env s _ _ _ env.genesisAccount_ne_zero hb,
          AmountVisitor.visit, hprev]
        exact hback n hn
    cases fuel with
    | zero => rfl
    | succ n =>
      rw [balanceLoop_visit env s _ 0 hne hgen rfl]
      show balanceLoop env s n ⟨0, env.genesisAccount, 0⟩ = _
      cases n with
      | zero => rfl
      | succ n =>
        rw [balanceLoop]
        simp only
        rw [if_neg (fun h => env.genesisAccount_ne_zero h.2),
          if_pos env.genesisAccount_ne_zero, hamount n (by omega)]
        rfl

end Walks

section Ledgers

def blockSet (env : Env) (blocks : List Block) : Set Block :=
  { b | b ∈ Block.openBlock env.genesisOpen :: blocks }

/-- The genesis block and the blocks of a list have distinct nonzero hashes. -/
def DistinctHashes (env : Env) (blocks : List Block) : Prop :=
  ∀ b ∈ Block.openBlock env.genesisOpen :: blocks, b.hash env ≠ 0 ∧
    ∀ b' ∈ Block.openBlock env.genesisOpen :: blocks,
      b.hash env = b'.hash env → b.hashables = b'.hashables

instance (env : Env) (blocks : List Block) : Decidable (DistinctHashes env blocks) :=
  inferInstanceAs (Decidable (∀ b ∈ _, _))

variable {env : Env} {blocks : List Block} {s s₁ : BlockStore}

theorem collisionFree_blockSet (h : DistinctHashes env blocks) :
    CollisionFree env (blockSet env blocks) where
  genesis := .head _
  injective := fun b hb b' hb' => (h b hb).2 b' hb'
  nonzero := fun b hb => (h b hb).1

theorem markerFree_blockSet
    (h : ∀ b ∈ Block.openBlock env.genesisOpen :: blocks,
      b.hash env ≠ 1 ∧ b.hash env ≠ env.genesisAccount) :
    MarkerFree env (blockSet env blocks) :=
  ⟨fun b hb => (h b hb).1, fun b hb => (h b hb).2⟩

def ledgerOf (env : Env) (blocks : List Block) : Except Fault BlockStore := do
  let s ← genesisInitialize env 0 .empty
  Ledger.processAll env s (blocks.map (fun b => (0, b)))

theorem reachable_ledgerOf {U : Set Block}
    (hU : ∀ b ∈ blocks, b ∈ U) (h : ledgerOf env blocks = .ok s) : Reachable env U s := by
  obtain ⟨g, hg, hrun⟩ := ok_of_bind h
  refine (Reachable.genesis hg).processAll _ ?_ hrun
  intro x hx
  obtain ⟨b, hb, rfl⟩ := List.mem_map.mp hx
  exact hU b hb

theorem reachable_blockSet
    (h : ledgerOf env blocks = .ok s) : Reachable env (blockSet env blocks) s :=
  reachable_ledgerOf (fun _ hb => .tail _ hb) h

/-- The hashes met on the way from a block down the previous links. -/
def walkDown (s : BlockStore) : Nat → BlockHash → Option (List BlockHash)
  | 0, _ => none
  | n + 1, h =>
    match s.blockGet h with
    | none => none
    | some b =>
      if b.previous = 0 then some [h]
      else (walkDown s n b.previous).map (fun l => h :: l)

def remaining (env : Env) (s : BlockStore) (blocks : List Block) : List Block :=
  blocks.filter (fun b => s.blockExists (b.hash env))

/-- Surroundings of the test network in which every signature is valid. -/
def signedEnv (digest : List HashField → Uint256) : Env where
  network := .test
  digest := digest
  validateMessage := fun _ _ _ => false
  checked := false

/-! ## A ledger without marker hashes -/

def plainEnv : Env :=
  signedEnv fun
    | [_, _, .word128 _] => 2
    | [.word256 source, _, _] => if source = BademNetwork.test.genesisAccount then 3 else 4
    | [_, _] => 5
    | _ => 6

def plainSend : Block :=
  .sendBlock ⟨⟨plainEnv.genesisHash, 77, genesisAmount - 10⟩, 0, 0⟩

def plainOpen : Block := .openBlock ⟨⟨2, 99, 77⟩, 0, 0⟩

def plainState : Block := .stateBlock ⟨⟨77, 4, 99, 6, plainEnv.genesisAccount⟩, 0, 0⟩

def plainBlocks : List Block := [plainSend, plainOpen, plainState]

def plainSet : Set Block := blockSet plainEnv plainBlocks

theorem plain_evaluated :
    DistinctHashes plainEnv plainBlocks ∧
      (∀ b ∈ Block.openBlock plainEnv.genesisOpen :: plainBlocks,
        b.hash plainEnv ≠ 1 ∧ b.hash plainEnv ≠ plainEnv.genesisAccount) ∧
      ∃ s, ledgerOf plainEnv plainBlocks = .ok s ∧ s.blockCount = 4 ∧ s.blockExists 2 = true ∧
        s.pendingGet ⟨plainEnv.genesisAccount, 6⟩ = some ⟨77, 4⟩ := by
  decide +kernel

theorem plain_collisionFree : CollisionFree plainEnv plainSet :=
  collisionFree_blockSet plain_evaluated.1

theorem plain_markerFree : MarkerFree plainEnv plainSet :=
  markerFree_blockSet plain_evaluated.2.1

theorem plain_ledger :
    ∃ s, ledgerOf plainEnv plainBlocks = .ok s ∧ Reachable plainEnv plainSet s ∧
      s.blockCount = 4 ∧ s.blockExists 2 = true ∧
      s.pendingGet ⟨plainEnv.genesisAccount, 6⟩ = some ⟨77, 4⟩ := by
  obtain ⟨s, hs, hfacts⟩ := plain_evaluated.2.2
  exact ⟨s, hs, reachable_blockSet hs, hfacts⟩

/-! ## Ledgers with the genesis account number as a hash -/

/-- Change blocks have the number of the genesis account as their hash. -/
def changeEnv : Env :=
  signedEnv fun
    | [_, _, .word128 _] => 2
    | [.word256 source, _, _] => if source = BademNetwork.test.genesisAccount then 3 else 4
    | [_, _] => BademNetwork.test.genesisAccount
    | _ => 6

def changeFirst : Block := .changeBlock ⟨⟨changeEnv.genesisHash, 5⟩, 0, 0⟩

def changeSend : Block :=
  .sendBlock ⟨⟨changeEnv.genesisAccount, 77, genesisAmount - 10⟩, 0, 0⟩

def changeOpen : Block := .openBlock ⟨⟨2, 99, 77⟩, 0, 0⟩

def changeBlocks : List Block := [changeFirst, changeSend, changeOpen]

def changeSet : Set Block := blockSet changeEnv changeBlocks

def changeAmount (s : BlockStore) : Option Amount :=
  (s.pendingGet ⟨77, 2⟩).map PendingInfo.amount

theorem change_evaluated :
    DistinctHashes changeEnv changeBlocks ∧
      (∀ b ∈ Block.openBlock changeEnv.genesisOpen :: changeBlocks, b.hash changeEnv ≠ 1) ∧
      4 ≠ changeEnv.genesisHash ∧
      ∃ s, ledgerOf changeEnv changeBlocks = .ok s ∧
        ∃ s₁, Ledger.rollback changeEnv 0 s 4 = .ok s₁ ∧
          changeAmount s₁ = some (genesisAmount - 10) ∧ s₁.blockGet 2 = some changeSend ∧
          Ledger.balance changeEnv s₁ changeEnv.genesisAccount = .ok 0 ∧
          Ledger.balance changeEnv s₁ 2 = .ok (genesisAmount - 10) ∧
          ∃ t, ledgerOf changeEnv (remaining changeEnv s₁ changeBlocks) = .ok t ∧
            changeAmount t = some 10 := by
  decide +kernel

theorem change_collisionFree : CollisionFree changeEnv changeSet :=
  collisionFree_blockSet change_evaluated.1

theorem change_ne_one :
    ∀ b ∈ Block.openBlock changeEnv.genesisOpen :: changeBlocks, b.hash changeEnv ≠ 1 :=
  change_evaluated.2.1

theorem change_reachable (hs : ledgerOf changeEnv changeBlocks = .ok s)
    (hs₁ : Ledger.rollback changeEnv 0 s 4 = .ok s₁) : Reachable changeEnv changeSet s₁ :=
  (reachable_blockSet hs).rollback (blockExists_of_rollback hs₁) change_evaluated.2.2.1 hs₁

def sendEnv : Env :=
  signedEnv fun
    | [_, _, .word128 _] => BademNetwork.test.genesisAccount
    | _ => 3

def sendFirst : Block := .sendBlock ⟨⟨sendEnv.genesisHash, 77, genesisAmount - 10⟩, 0, 0⟩

def sendSet : Set Block := blockSet sendEnv [sendFirst]

theorem send_evaluated :
    DistinctHashes sendEnv [sendFirst] ∧
      (∀ b ∈ Block.openBlock sendEnv.genesisOpen :: [sendFirst], b.hash sendEnv ≠ 1) ∧
      ∃ s, ledgerOf sendEnv [sendFirst] = .ok s ∧ s.blockExists sendEnv.genesisAccount = true ∧
        sendEnv.genesisAccount ≠ sendEnv.genesisHash ∧
        returns (Ledger.rollback sendEnv 0 s sendEnv.genesisAccount) (fun _ => true) = false ∧
        s.blockGet sendEnv.genesisHash = some (.openBlock sendEnv.genesisOpen) ∧
        s.blockGet sendEnv.genesisAccount = some sendFirst := by
  decide +kernel

theorem send_collisionFree : CollisionFree sendEnv sendSet :=
  collisionFree_blockSet send_evaluated.1

theorem send_ne_one :
    ∀ b ∈ Block.openBlock sendEnv.genesisOpen :: [sendFirst], b.hash sendEnv ≠ 1 :=
  send_evaluated.2.1

theorem send_ledger :
    ∃ s, Reachable sendEnv sendSet s ∧ s.blockExists sendEnv.genesisAccount = true ∧
      sendEnv.genesisAccount ≠ sendEnv.genesisHash ∧
      returns (Ledger.rollback sendEnv 0 s sendEnv.genesisAccount) (fun _ => true) = false ∧
      ∀ fuel, balanceLoop sendEnv s fuel ⟨sendEnv.genesisHash, 0, 0⟩ = .error .outOfFuel := by
  obtain ⟨s, hs, hexists, hne, hstuck, hgen, hsend⟩ := send_evaluated.2.2
  exact ⟨s, reachable_blockSet hs, hexists, hne, hstuck,
    balanceLoop_of_marker hgen (send_collisionFree.nonzero _ (.head _)) hsend rfl⟩

/-! ## A ledger with the hash 1 at height 32 -/

/-- The change block that names the representative 32 has the hash 1. -/
def oneEnv : Env :=
  signedEnv fun
    | [_, .word256 x] => if x = 32 then 1 else 1000 + x
    | [_, .word256 destination, .word128 _] => 100000 + destination
    | [.word256 source, _, _] => 200000 + source
    | _ => 7

def oneSend : Block := .sendBlock ⟨⟨oneEnv.genesisHash, 77, genesisAmount - 10⟩, 0, 0⟩

def oneChanges : Nat → BlockHash → List Block
  | 0, _ => []
  | n + 1, previous =>
    let b := Block.changeBlock ⟨⟨previous, BitVec.ofNat 256 (32 - n)⟩, 0, 0⟩
    b :: oneChanges n (b.hash oneEnv)

def oneOpen : Block := .openBlock ⟨⟨oneSend.hash oneEnv, 77, 77⟩, 0, 0⟩

def oneSendBack : Block :=
  .sendBlock ⟨⟨oneOpen.hash oneEnv, oneEnv.genesisAccount, 6⟩, 0, 0⟩

def oneReceive : Block := .receiveBlock ⟨⟨1, oneSendBack.hash oneEnv⟩, 0, 0⟩

def oneBlocks : List Block :=
  oneSend :: oneChanges 30 (oneSend.hash oneEnv) ++ [oneOpen, oneSendBack, oneReceive]

def oneLate : Block := .changeBlock ⟨⟨1031, 99⟩, 0, 0⟩

def oneSet : Set Block := blockSet oneEnv (oneLate :: oneBlocks)

/-- After three blocks have been rolled back the account 77 has a head that is not stored and most
of the supply is gone. -/
structure OneDamage (s : BlockStore) : Prop where
  head : (s.accountGet 77).map AccountInfo.head = some (oneSendBack.hash oneEnv)
  missing : s.blockGet (oneSendBack.hash oneEnv) = none
  supply : s.accounts.sum (fun _ i => i.balance.toNat) +
    s.pending.sum (fun _ p => p.amount.toNat) = 16
  stored : s.blockExists (oneSend.hash oneEnv) = true
  stuck : returns (Ledger.rollback oneEnv 0 s (oneSend.hash oneEnv)) (fun _ => true) = false
  refuses : returns (Ledger.process oneEnv 0 s oneLate) (fun _ => true) = false

instance (s : BlockStore) : Decidable (OneDamage s) :=
  decidable_of_iff (_ ∧ _ ∧ _ ∧ _ ∧ _ ∧ _)
    ⟨fun ⟨h₁, h₂, h₃, h₄, h₅, h₆⟩ => ⟨h₁, h₂, h₃, h₄, h₅, h₆⟩,
      fun h => ⟨h.head, h.missing, h.supply, h.stored, h.stuck, h.refuses⟩⟩

def oneSource (s : BlockStore) : Option Account :=
  (s.pendingGet ⟨oneEnv.genesisAccount, oneSendBack.hash oneEnv⟩).map PendingInfo.source

set_option maxRecDepth 100000 in
theorem one_evaluated :
    DistinctHashes oneEnv (oneLate :: oneBlocks) ∧
      (∀ b ∈ Block.openBlock oneEnv.genesisOpen :: oneLate :: oneBlocks,
        b.hash oneEnv ≠ oneEnv.genesisAccount) ∧
      (oneReceive.hash oneEnv ≠ oneEnv.genesisHash ∧ (1 : BlockHash) ≠ oneEnv.genesisHash ∧
        oneSendBack.hash oneEnv ≠ oneEnv.genesisHash ∧
        oneSend.hash oneEnv ≠ oneEnv.genesisHash) ∧
      ∃ s, ledgerOf oneEnv oneBlocks = .ok s ∧
        ∃ s₁, Ledger.rollback oneEnv 0 s (oneReceive.hash oneEnv) = .ok s₁ ∧
          oneSource s₁ = some oneEnv.genesisAccount ∧
          (walkDown s₁ 40 (Ledger.latest s₁ oneEnv.genesisAccount)).map
            (fun l => l.contains (oneSendBack.hash oneEnv)) = some false ∧
          (∃ t, ledgerOf oneEnv (remaining oneEnv s₁ oneBlocks) = .ok t ∧ oneSource t = some 77) ∧
          ∃ s₂, Ledger.rollback oneEnv 0 s₁ 1 = .ok s₂ ∧
            ∃ s₃, Ledger.rollback oneEnv 0 s₂ (oneSendBack.hash oneEnv) = .ok s₃ ∧
              OneDamage s₃ := by
  decide +kernel

theorem one_collisionFree : CollisionFree oneEnv oneSet :=
  collisionFree_blockSet one_evaluated.1

theorem one_ne_genesisAccount :
    ∀ b ∈ Block.openBlock oneEnv.genesisOpen :: oneLate :: oneBlocks,
      b.hash oneEnv ≠ oneEnv.genesisAccount :=
  one_evaluated.2.1

theorem one_hash_ne_genesisHash :
    oneReceive.hash oneEnv ≠ oneEnv.genesisHash ∧ (1 : BlockHash) ≠ oneEnv.genesisHash ∧
      oneSendBack.hash oneEnv ≠ oneEnv.genesisHash ∧
      oneSend.hash oneEnv ≠ oneEnv.genesisHash :=
  one_evaluated.2.2.1

theorem one_reachable (hs : ledgerOf oneEnv oneBlocks = .ok s)
    (hs₁ : Ledger.rollback oneEnv 0 s (oneReceive.hash oneEnv) = .ok s₁) :
    Reachable oneEnv oneSet s₁ :=
  (reachable_ledgerOf (fun _ hb => .tail _ (.tail _ hb)) hs).rollback
    (blockExists_of_rollback hs₁) one_hash_ne_genesisHash.1 hs₁

theorem one_damaged : ∃ s, Reachable oneEnv oneSet s ∧ OneDamage s := by
  obtain ⟨s, hs, s₁, hs₁, -, -, -, s₂, hs₂, s₃, hs₃, hdamage⟩ := one_evaluated.2.2.2
  obtain ⟨-, hne₁, hne₂, -⟩ := one_hash_ne_genesisHash
  have hreach₂ := (one_reachable hs hs₁).rollback (blockExists_of_rollback hs₂) hne₁ hs₂
  exact ⟨s₃, hreach₂.rollback (blockExists_of_rollback hs₃) hne₂ hs₃, hdamage⟩

end Ledgers

end Badem
