import Badem.Core.Bootstrap
import Badem.Ledger.Owners

/-!
# Serving the chain of an account

The end of a request to `bulk_pull_server` doubles as the mark for the end of the answer.
Whether it lies in the chain is decided by looking up its owner.
-/

namespace Badem

open BulkPullServer

/-- The blocks, by their hashes, that a request for the chain of `start` down to `endBlock`
asks for. -/
inductive ChainAnswer (s : BlockStore) (start : Account) (endBlock : BlockHash) :
    List BlockHash → Prop
  | unknown :
      s.accountGet start = none →
      ChainAnswer s start endBlock []
  | above {info : AccountInfo} {chain : List BlockHash} :
      s.accountGet start = some info →
      PreviousWalk s info.head chain →
      endBlock ∈ chain →
      ChainAnswer s start endBlock (chain.takeWhile (fun h => h ≠ endBlock))
  | elsewhere {a : Account} :
      a ≠ start →
      InChain s a endBlock →
      ChainAnswer s start endBlock []
  | whole {info : AccountInfo} {chain : List BlockHash} :
      s.accountGet start = some info →
      PreviousWalk s info.head chain →
      s.blockExists endBlock = false →
      ChainAnswer s start endBlock chain

variable {env : Env} {U : Set Block} {s : BlockStore}

namespace BulkPullServer

theorem setCurrentEnd_unknown {start : Account} (hinfo : s.accountGet start = none)
    (endBlock : BlockHash) : ∃ h, setCurrentEnd s start endBlock = .ok ⟨h, h⟩ := by
  rw [setCurrentEnd, hinfo]
  exact ⟨_, rfl⟩

theorem sendNext_done (fuel : Nat) (h : BlockHash) : sendNext s (fuel + 1) ⟨h, h⟩ = .ok [] := by
  rw [sendNext, getNext, if_neg (not_not_intro rfl)]

theorem sendNext_walk (endBlock : BlockHash) {h : BlockHash} {l : List BlockHash}
    (hw : PreviousWalk s h l) :
    ∀ {fuel}, l.length < fuel → ∃ blocks, sendNext s fuel ⟨h, endBlock⟩ = .ok blocks ∧
      blocks.map some = (l.takeWhile (fun k => k ≠ endBlock)).map s.blockGet := by
  induction hw with
  | @first h b hb hz =>
    intro fuel hfuel
    obtain ⟨n, rfl⟩ : ∃ n, fuel = n + 2 := ⟨fuel - 2, by simp at hfuel; omega⟩
    by_cases heq : h = endBlock
    · subst heq
      exact ⟨[], sendNext_done _ _, by simp⟩
    · refine ⟨[b], ?_, by simp [heq, hb]⟩
      have hnext : getNext s ⟨h, endBlock⟩ = (some b, ⟨endBlock, endBlock⟩) := by
        rw [getNext, if_pos heq, hb]
        exact if_neg (not_not_intro hz)
      rw [sendNext, hnext]
      exact bind_eq_of_ok (sendNext_done n endBlock) rfl
  | @next h b l hb hne _ ih =>
    intro fuel hfuel
    obtain ⟨n, rfl⟩ : ∃ n, fuel = n + 1 := ⟨fuel - 1, by omega⟩
    by_cases heq : h = endBlock
    · subst heq
      exact ⟨[], sendNext_done _ _, by simp⟩
    · obtain ⟨blocks, hblocks, hmap⟩ := @ih n (by simpa using hfuel)
      refine ⟨b :: blocks, ?_, by simp [heq, hb, hmap]⟩
      have hnext : getNext s ⟨h, endBlock⟩ = (some b, ⟨b.previous, endBlock⟩) := by
        rw [getNext, if_pos heq, hb]
        exact if_pos hne
      rw [sendNext, hnext]
      exact bind_eq_of_ok hblocks rfl

end BulkPullServer

section Answers

variable {R : BlockHash → Option StoredBlock}
variable (H : CollisionFree env U) (hone : ∀ b ∈ U, b.hash env ≠ 1)
variable (hR : OwnersAgree env U s R)
include H hone hR

theorem setCurrentEnd_eq {start : Account} {info : AccountInfo}
    (hinfo : s.accountGet start = some info) (endBlock : BlockHash) :
    (InChain s start endBlock ∧
      setCurrentEnd s start endBlock = .ok ⟨info.head, endBlock⟩) ∨
    ((∃ a, a ≠ start ∧ InChain s a endBlock) ∧
      setCurrentEnd s start endBlock = .ok ⟨endBlock, endBlock⟩) ∨
    (s.blockExists endBlock = false ∧
      setCurrentEnd s start endBlock = .ok ⟨info.head, 0⟩) := by
  unfold setCurrentEnd
  rw [hinfo]
  by_cases hexists : s.blockExists endBlock = false
  · refine .inr (.inr ⟨hexists, ?_⟩)
    simp only [if_pos hexists, ne_eq, not_true_eq_false, if_false]
  · have hsome : (R endBlock).isSome = true := by
      rw [← BlockStore.blockExists_eq hR.tables]
      simpa using hexists
    obtain ⟨v, hv⟩ := Option.isSome_iff_exists.mp hsome
    obtain ⟨a, n, ho, -⟩ := hR.owner hv
    have hin : InChain s a endBlock := (hR.inChain_iff H).mpr ⟨v, n, hv, ho⟩
    simp only [if_neg hexists, if_pos (hR.hash_ne_zero H hv), hR.account_eq H hone hv ho, ok_bind]
    by_cases ha : a = start
    · subst ha
      rw [if_pos rfl]
      exact .inl ⟨hin, rfl⟩
    · rw [if_neg ha]
      exact .inr (.inl ⟨⟨a, ha, hin⟩, rfl⟩)

end Answers

/-- The server sends exactly the blocks that the request asks for, in this order. -/
theorem chain_served (H : CollisionFree env U) (hone : ∀ b ∈ U, b.hash env ≠ 1)
    (hs : Reachable env U s) (start : Account) (endBlock : BlockHash) :
    ∃ blocks hashes, BulkPullServer.run s start endBlock = .ok blocks ∧
      blocks.map some = hashes.map s.blockGet ∧
      ∀ l, ChainAnswer s start endBlock l ↔ l = hashes := by
  obtain ⟨R, hR⟩ := hs.ownersAgree H hone
  have hmissing : ∀ {a}, s.blockExists endBlock = false → ¬ InChain s a endBlock := by
    intro a hnone hin
    obtain ⟨v, -, hv, -⟩ := (hR.inChain_iff H).mp hin
    simp [BlockStore.blockExists_eq hR.tables, hv] at hnone
  cases hinfo : s.accountGet start with
  | none =>
    refine ⟨[], [], ?_, rfl, fun l => ⟨fun hl => ?_, ?_⟩⟩
    · obtain ⟨h, hset⟩ := BulkPullServer.setCurrentEnd_unknown hinfo endBlock
      exact bind_eq_of_ok hset (BulkPullServer.sendNext_done s.blockCount h)
    · cases hl with
      | above hi _ _ => exact absurd (hinfo.symm.trans hi) (by simp)
      | whole hi _ _ => exact absurd (hinfo.symm.trans hi) (by simp)
      | _ => rfl
    · rintro rfl
      exact .unknown hinfo
  | some info =>
    obtain ⟨v, hv, -, ho⟩ := hR.head hinfo
    obtain ⟨chain, hwalk, hlen, hchain, -⟩ := hR.exists_previousWalk H hv ho
    have hle := hR.height_le H hv ho
    have hsend := fun e => BulkPullServer.sendNext_walk e hwalk
      (show chain.length < s.blockCount + 1 by omega)
    rcases setCurrentEnd_eq H hone hR hinfo endBlock with
      ⟨hin, hset⟩ | ⟨⟨a, ha, hin⟩, hset⟩ | ⟨hnone, hset⟩
    · obtain ⟨blocks, hblocks, hmap⟩ := hsend endBlock
      refine ⟨blocks, _, bind_eq_of_ok hset hblocks, hmap, fun l => ⟨fun hl => ?_, ?_⟩⟩
      · cases hl with
        | unknown hi => exact absurd (hinfo.symm.trans hi) (by simp)
        | above hi hwalk' _ =>
          cases hinfo.symm.trans hi
          rw [hwalk.unique hwalk']
        | elsewhere ha hin' => exact absurd (hR.inChain_unique H hin hin') ha
        | whole _ _ hnone => exact absurd hin (hmissing hnone)
      · rintro rfl
        obtain ⟨i, l, hi, hwalk', hmem⟩ := hin
        cases hinfo.symm.trans hi
        rw [hwalk.unique hwalk']
        exact .above hinfo hwalk' hmem
    · refine ⟨[], [], bind_eq_of_ok hset (BulkPullServer.sendNext_done _ _), rfl,
        fun l => ⟨fun hl => ?_, ?_⟩⟩
      · cases hl with
        | above hi hwalk' hmem => exact absurd (hR.inChain_unique H ⟨_, _, hi, hwalk', hmem⟩ hin) ha
        | whole _ _ hnone => exact absurd hin (hmissing hnone)
        | _ => rfl
      · rintro rfl
        exact .elsewhere ha hin
    · obtain ⟨blocks, hblocks, hmap⟩ := hsend 0
      have hall : chain.takeWhile (fun k => k ≠ 0) = chain := by
        refine List.takeWhile_eq_self_iff.mpr (fun k hk => ?_)
        obtain ⟨w, -, hw, -⟩ := hchain k hk
        exact decide_eq_true (hR.hash_ne_zero H hw)
      rw [hall] at hmap
      refine ⟨blocks, chain, bind_eq_of_ok hset hblocks, hmap, fun l => ⟨fun hl => ?_, ?_⟩⟩
      · cases hl with
        | unknown hi => exact absurd (hinfo.symm.trans hi) (by simp)
        | above hi hwalk' hmem => exact absurd ⟨_, _, hi, hwalk', hmem⟩ (hmissing hnone)
        | elsewhere _ hin => exact absurd hin (hmissing hnone)
        | whole hi hwalk' _ =>
          cases hinfo.symm.trans hi
          exact hwalk'.unique hwalk
      · rintro rfl
        exact .whole hinfo hwalk hnone

section Samples

theorem chain_served_plain :
    ∃ s, Reachable plainEnv plainSet s ∧ s.blockExists 2 = true ∧
      ∃ blocks hashes, BulkPullServer.run s plainEnv.genesisAccount 2 = .ok blocks ∧
        blocks.map some = hashes.map s.blockGet ∧
        ∀ l, ChainAnswer s plainEnv.genesisAccount 2 l ↔ l = hashes := by
  obtain ⟨s, -, hreach, -, hexists, -⟩ := plain_ledger
  exact ⟨s, hreach, hexists, chain_served plain_collisionFree plain_markerFree.ne_one hreach _ _⟩

def nullEnv : Env :=
  signedEnv fun
    | [_, _, .word128 _] => 2
    | [.word256 source, _, _] => if source = BademNetwork.test.genesisAccount then 3 else 4
    | _ => 0

def nullBlocks : List Block :=
  [.sendBlock ⟨⟨nullEnv.genesisHash, 77, genesisAmount - 10⟩, 0, 0⟩,
    .openBlock ⟨⟨2, 99, 77⟩, 0, 0⟩, .changeBlock ⟨⟨2, 5⟩, 0, 0⟩]

def reusedEnv : Env :=
  signedEnv fun
    | [_, .word256 x] => if x = 99 then 5032 else 1000 + x
    | [_, .word256 destination, .word128 _] => 100000 + destination
    | [.word256 source, _, _] => 200000 + source
    | [_, _, _, .word256 representative, _, _] => 5000 + representative
    | _ => 7

def reusedBlocks : List Block :=
  oneSend :: (oneChanges 30 (oneSend.hash oneEnv)).take 29 ++
    [oneOpen, .stateBlock ⟨⟨reusedEnv.genesisAccount, 1031, 32, genesisAmount - 10, 0⟩, 0, 0⟩,
      .stateBlock ⟨⟨reusedEnv.genesisAccount, 5032, 33, genesisAmount - 10, 0⟩, 0, 0⟩]

def reusedChange : Block := .changeBlock ⟨⟨oneOpen.hash oneEnv, 99⟩, 0, 0⟩

def reusedSet : Set Block := blockSet reusedEnv (reusedChange :: reusedBlocks)

def Overlooked (s : BlockStore) (above : BlockHash) : Prop :=
  ChainAnswer s 77 (oneOpen.hash oneEnv) [above] ∧
    BulkPullServer.run s 77 (oneOpen.hash oneEnv) = .ok []

/-- An evaluation of `Overlooked`. -/
def OverlookedTest (s : BlockStore) (above : BlockHash) : Prop :=
  (s.accountGet 77).isSome = true ∧
    walkDown s 3 (Ledger.latest s 77) = some [above, oneOpen.hash oneEnv] ∧
    above ≠ oneOpen.hash oneEnv ∧
    ∃ l, BulkPullServer.run s 77 (oneOpen.hash oneEnv) = .ok l ∧ l = []

instance (above : BlockHash) : Decidable (OverlookedTest s above) :=
  inferInstanceAs (Decidable (_ ∧ _))

theorem overlooked_of_test {above : BlockHash} (h : OverlookedTest s above) :
    Overlooked s above := by
  obtain ⟨hinfo, hwalk, hne, _, hrun, rfl⟩ := h
  obtain ⟨info, hinfo⟩ := Option.isSome_iff_exists.mp hinfo
  refine ⟨?_, hrun⟩
  rw [LedgerProcessor.latest_eq_of_accountGet hinfo] at hwalk
  have hanswer : ChainAnswer s 77 (oneOpen.hash oneEnv)
      ([above, oneOpen.hash oneEnv].takeWhile (fun h => h ≠ oneOpen.hash oneEnv)) :=
    .above hinfo (walk_of_walkDown 3 hwalk) (by simp)
  simpa [hne] using hanswer

theorem null_evaluated :
    (∀ b ∈ Block.openBlock nullEnv.genesisOpen :: nullBlocks, b.hash nullEnv ≠ 1 ∧
      ∀ b' ∈ Block.openBlock nullEnv.genesisOpen :: nullBlocks,
        b.hash nullEnv = b'.hash nullEnv → b.hashables = b'.hashables) ∧
    ∃ s, ledgerOf nullEnv nullBlocks = .ok s ∧
      run s 77 2 = .error .assertion := by
  decide +kernel

set_option maxRecDepth 100000 in
theorem reused_evaluated :
    (∀ b ∈ Block.openBlock reusedEnv.genesisOpen :: reusedChange :: reusedBlocks,
      b.hash reusedEnv ≠ 0 ∧ b.hash reusedEnv ≠ 1) ∧
    (5033 ≠ reusedEnv.genesisHash ∧ 5032 ≠ reusedEnv.genesisHash) ∧
    (∃ s, ledgerOf reusedEnv reusedBlocks = .ok s ∧
      ∃ s₁, Ledger.rollback reusedEnv 0 s 5033 = .ok s₁ ∧
        ∃ s₂, Ledger.rollback reusedEnv 0 s₁ 5032 = .ok s₂ ∧
          ∃ x, Ledger.process reusedEnv 0 s₂ reusedChange = .ok x ∧ OverlookedTest x.2 5032) ∧
    ∃ s, ledgerOf oneEnv oneBlocks = .ok s ∧ OverlookedTest s (oneSendBack.hash oneEnv) := by
  decide +kernel

theorem reused_ledger_overlooks : ∃ s, Reachable reusedEnv reusedSet s ∧ Overlooked s 5032 := by
  obtain ⟨-, ⟨hne, hne₁⟩, ⟨s, hs, s₁, hs₁, s₂, hs₂, ⟨r, s₃⟩, hs₃, htest⟩, -⟩ := reused_evaluated
  have hreach : Reachable reusedEnv reusedSet s :=
    reachable_ledgerOf (fun b hb => .tail _ (.tail _ hb)) hs
  have hreach₁ := hreach.rollback (blockExists_of_rollback hs₁) hne hs₁
  have hreach₂ := hreach₁.rollback (blockExists_of_rollback hs₂) hne₁ hs₂
  exact ⟨s₃, hreach₂.process (.tail _ (.head _)) hs₃,
    overlooked_of_test htest⟩

/-- With the hash 0, with the hash 1 and with a hash that two blocks share the answer can be
wrong. -/
theorem chain_misserved :
    ((∀ b ∈ blockSet nullEnv nullBlocks, b.hash nullEnv ≠ 1 ∧
        ∀ b' ∈ blockSet nullEnv nullBlocks,
          b.hash nullEnv = b'.hash nullEnv → b.hashables = b'.hashables) ∧
      ∃ s, Reachable nullEnv (blockSet nullEnv nullBlocks) s ∧
        BulkPullServer.run s 77 2 = .error .assertion) ∧
    (CollisionFree oneEnv oneSet ∧ ∃ s, Reachable oneEnv oneSet s ∧
      ChainAnswer s 77 (oneOpen.hash oneEnv) [oneSendBack.hash oneEnv] ∧
      BulkPullServer.run s 77 (oneOpen.hash oneEnv) = .ok []) ∧
    ((∀ b ∈ reusedSet, b.hash reusedEnv ≠ 0 ∧ b.hash reusedEnv ≠ 1) ∧
      ∃ s, Reachable reusedEnv reusedSet s ∧
        ChainAnswer s 77 (oneOpen.hash oneEnv) [5032] ∧
        BulkPullServer.run s 77 (oneOpen.hash oneEnv) = .ok []) := by
  obtain ⟨hnull, s, hs, hrun⟩ := null_evaluated
  obtain ⟨hreused, -, -, s', hs', htest⟩ := reused_evaluated
  exact ⟨⟨hnull, s, reachable_blockSet hs, hrun⟩, ⟨one_collisionFree, s',
    reachable_ledgerOf (fun b hb => .tail _ (.tail _ hb)) hs', overlooked_of_test htest⟩,
    hreused, reused_ledger_overlooks⟩

end Samples

end Badem
