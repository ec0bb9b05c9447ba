import Badem.Refinement.VisitorSpecs

/-!
# Operations shared by the handlers

Result equations for the operations that the handlers are built from, each in the situation in
which the handlers call it.
-/

namespace Badem

open Mdb BlockLattice BlockStore

namespace BlockStore

variable {s : BlockStore} {h : BlockHash}

theorem representationGet_representationPut (s : BlockStore) (a r : Account) (w : Uint128) :
    (s.representationPut a w).representationGet r =
      if r = a then w else s.representationGet r := by
  unfold representationGet representationPut
  rw [Table.get_put]
  by_cases h : r = a <;> simp [h]

def addWeight (s : BlockStore) (a : Account) (amount : Uint128) : BlockStore :=
  s.representationPut a (s.representationGet a + amount)

theorem representationAdd_eq
    {source : BlockHash} {b : Block} (amount : Uint128) (hb : s.blockGet source = some b) :
    s.representationAdd source amount = .ok (s.addWeight b.representative amount) := by
  rw [representationAdd, hb]
  rfl

theorem representationGet_addWeight (s : BlockStore) (a r : Account) (amount : Uint128) :
    (s.addWeight a amount).representationGet r =
      s.representationGet r + if a = r then amount else 0 := by
  unfold addWeight
  rw [representationGet_representationPut]
  split_ifs <;> simp_all

theorem representationGet_addWeight_of_find {env : Env} {U : Set Block} (L : BlockLattice env U)
    (s : BlockStore) {e : Entry} (he : L.find h = some e) (amount : Uint128) (r : Account) :
    (s.addWeight e.block.representative amount).representationGet r =
      s.representationGet r + L.gain h amount r := by
  rw [representationGet_addWeight, L.gain_of_find he]

theorem frontierDel_eq {a : Account} (hget : s.frontiers.get h = some a) :
    s.frontierDel h = .ok { s with frontiers := s.frontiers.del h } := by
  rw [frontierDel, hget, require_of Option.isSome_some]
  rfl

theorem pendingDel_eq {k : PendingKey} {i : PendingInfo} (hget : s.pending.get k = some i) :
    s.pendingDel k = .ok { s with pending := s.pending.del k } := by
  rw [pendingDel, hget, require_of Option.isSome_some]
  rfl

theorem blockInfoDel_eq {i : BlockInfo} (hget : s.blocksInfo.get h = some i) :
    s.blockInfoDel h = .ok { s with blocksInfo := s.blocksInfo.del h } := by
  rw [blockInfoDel, hget, require_of Option.isSome_some]
  rfl

theorem pendingExists_eq (s : BlockStore) (k : PendingKey) :
    s.pendingExists k = (s.pendingGet k).isSome := by
  have hiff := s.pending.lowerBound_key_iff k
  unfold pendingExists pendingGet
  cases hl : s.pending.lowerBound k with
  | none =>
    rw [hl] at hiff
    cases hg : s.pending.get k with
    | none => rfl
    | some i =>
      rw [hg] at hiff
      simp at hiff
  | some x =>
    rw [hl] at hiff
    cases hg : s.pending.get k with
    | _ =>
      rw [hg] at hiff
      simpa using hiff

end BlockStore

namespace Ledger

variable {s : BlockStore} {c : Checksum}

theorem checksumUpdate_eq (hc : s.checksum.get 0 = some c) (hash : BlockHash) :
    checksumUpdate s hash = .ok { s with checksum := s.checksum.put 0 (c ^^^ hash) } := by
  have hget : s.checksumGet 0 0 = .ok (some c) := by
    rw [checksumGet, require_of (by decide)]
    show Except.ok (s.checksum.get 0) = _
    rw [hc]
  rw [checksumUpdate, hget]
  show s.checksumPut 0 0 (c ^^^ hash) = _
  rw [checksumPut, require_of (by decide)]
  rfl

section ChangeLatest

variable (now : Nat) {account : Account} {info : AccountInfo} {hash : BlockHash}
variable (repBlock : BlockHash) (balance : Amount) (blockCount : Nat) (isState : Bool)

def latestInfos (s : BlockStore) (account : Account) (hash : BlockHash)
    (balance : Amount) (blockCount : Nat) (isState : Bool) : Table BlockHash BlockInfo :=
  if blockCount % BlockStore.blockInfoMax = 0 ∧ isState = false then
    s.blocksInfo.put hash ⟨account, balance⟩
  else s.blocksInfo

theorem get_latestInfos (h : BlockHash) :
    (latestInfos s account hash balance blockCount isState).get h =
      if h = hash ∧ blockCount % blockInfoMax = 0 ∧ isState = false then
        some ⟨account, balance⟩
      else s.blocksInfo.get h := by
  unfold latestInfos
  by_cases hcond : blockCount % blockInfoMax = 0 ∧ isState = false <;>
    simp [hcond, Table.get_put]

theorem changeLatest_of_some (hacc : s.accounts.get account = some info)
    (hc : s.checksum.get 0 = some c) (hne : hash ≠ 0) :
    changeLatest now s account hash repBlock balance blockCount isState =
      .ok { s with
        accounts := s.accounts.put account
          { info with
            head := hash
            repBlock := repBlock
            balance := balance
            modified := now
            blockCount := blockCount }
        blocksInfo := latestInfos s account hash balance blockCount isState
        checksum := s.checksum.put 0 (c ^^^ info.head ^^^ hash) } := by
  unfold changeLatest accountGet
  rw [hacc]
  simp only [checksumUpdate_eq hc, ok_bind, pure_bind]
  rw [if_pos hne]
  unfold latestInfos
  split_ifs with hcond
  · rw [checksumUpdate_eq (c := c ^^^ info.head) (by simp [blockInfoPut,
      accountPut])]
    simp [blockInfoPut, accountPut]
  · rw [checksumUpdate_eq (c := c ^^^ info.head) (by simp [accountPut])]
    simp [accountPut]

theorem changeLatest_of_none
    {b : Block} (hacc : s.accounts.get account = none) (hc : s.checksum.get 0 = some c)
    (hb : s.blockGet hash = some b) (hprev : b.previous = 0) (hne : hash ≠ 0) :
    changeLatest now s account hash repBlock balance blockCount isState =
      .ok { s with
        accounts := s.accounts.put account
          { head := hash
            repBlock := repBlock
            openBlock := hash
            balance := balance
            modified := now
            blockCount := blockCount }
        blocksInfo := latestInfos s account hash balance blockCount isState
        checksum := s.checksum.put 0 (c ^^^ hash) } := by
  unfold changeLatest accountGet
  rw [hacc]
  simp only [hb, deref_some, ok_bind, require_of hprev, pure_bind]
  rw [if_pos hne]
  unfold latestInfos
  split_ifs with hcond
  · rw [checksumUpdate_eq (c := c) (by simpa [blockInfoPut,
      accountPut] using hc)]
    rfl
  · rw [checksumUpdate_eq (c := c) (by simpa [accountPut] using hc)]
    rfl

theorem changeLatest_delete
    (hacc : s.accounts.get account = some info) (hc : s.checksum.get 0 = some c) :
    changeLatest now s account 0 repBlock balance blockCount isState =
      .ok { s with
        accounts := s.accounts.del account
        checksum := s.checksum.put 0 (c ^^^ info.head) } := by
  unfold changeLatest accountGet
  rw [hacc]
  simp only [checksumUpdate_eq hc, ok_bind, pure_bind, ne_eq, not_true_eq_false, if_false]
  rw [accountDel, hacc, require_of Option.isSome_some]
  rfl

end ChangeLatest

end Ledger

end Badem
