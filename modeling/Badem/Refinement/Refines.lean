import Badem.Refinement.LatticeViews
import Mathlib.Tactic.LinearCombination

/-!
# Stores that hold a block lattice

`Refines δ s L` says that every table of the store `s` holds what the lattice `L` determines.  The
offset `δ` of the voting weights is zero between operations: while a state block is rolled back
its weight has already been moved when the blocks that depend on it are rolled back.
-/

namespace Badem

open Mdb BlockLattice

variable {env : Env} {U : Set Block}

/-- Every table of the store holds what the lattice determines. -/
structure Refines (δ : Account → Uint128) (s : BlockStore) (L : BlockLattice env U) :
    Prop where
  blocks : BlockTables.Represents s.blockDatabase L.raw
  count : s.blockCount = L.entries.size
  accounts : ∀ a, (s.accounts.get a).map AccountInfo.unstamped = (L.head a).map Entry.info
  frontiers : ∀ h, s.frontiers.get h = L.frontier h
  pending : ∀ k, s.pending.get k = L.pendingInfo k
  weights : ∀ r, s.representationGet r =
    s.accounts.sum (fun _ i => L.gain i.repBlock i.balance r) + δ r
  checksum : s.checksum =
    Table.empty.put 0 (s.accounts.fold (· ^^^ ·) 0 (fun _ i => i.head))
  infos : ∀ b ∈ U, b.isLegacy = true →
    s.blocksInfo.get (b.hash env) = L.checkpoint (b.hash env)
  sentinel : (∀ b ∈ U, b.hash env ≠ 1) → s.blocksInfo.get 1 = none
  supply : s.accounts.sum (fun _ i => i.balance.toNat) +
    s.pending.sum (fun _ p => p.amount.toNat) = genesisAmount.toNat

/-- The stored info of an account whose head is `e`. -/
structure AccountInfo.Describes (i : AccountInfo) (e : Entry) : Prop where
  head : i.head = e.hash
  repBlock : i.repBlock = e.repBlock
  openBlock : i.openBlock = e.openBlock
  balance : i.balance = e.balance
  blockCount : i.blockCount = e.height

theorem AccountInfo.unstamped_eq_info_iff (i : AccountInfo) (e : Entry) :
    i.unstamped = e.info ↔ i.Describes e := by
  constructor
  · intro h
    simp only [AccountInfo.unstamped, Entry.info, AccountInfo.mk.injEq] at h
    exact ⟨h.1, h.2.1, h.2.2.1, h.2.2.2.1, h.2.2.2.2.2⟩
  · rintro ⟨h₁, h₂, h₃, h₄, h₅⟩
    simp [AccountInfo.unstamped, Entry.info, h₁, h₂, h₃, h₄, h₅]

namespace Refines

variable {δ δ' : Account → Uint128} {s s' : BlockStore} {L : BlockLattice env U} {e : Entry}

section Lookup

variable (hR : Refines δ s L) {a : Account} {i : AccountInfo}
include hR

theorem account_of_head {x : Entry} (hx : L.head a = some x) :
    ∃ i, s.accounts.get a = some i ∧ i.Describes x := by
  have hacc := hR.accounts a
  rw [hx] at hacc
  obtain ⟨i, hi, hinfo⟩ := Option.map_eq_some_iff.mp hacc
  exact ⟨i, hi, (i.unstamped_eq_info_iff x).mp hinfo⟩

theorem head_of_account (hi : s.accounts.get a = some i) :
    ∃ x, L.head a = some x ∧ i.Describes x := by
  have hacc := hR.accounts a
  rw [hi] at hacc
  obtain ⟨x, hx, hinfo⟩ := Option.map_eq_some_iff.mp hacc.symm
  exact ⟨x, hx, (i.unstamped_eq_info_iff x).mp hinfo.symm⟩

theorem account_none_iff (a : Account) : s.accounts.get a = none ↔ L.head a = none := by
  have hacc := hR.accounts a
  constructor
  · intro h
    rw [h] at hacc
    simpa using hacc.symm
  · intro h
    rw [h] at hacc
    simpa using hacc

theorem repBlock_stored (hi : s.accounts.get a = some i) :
    ∃ r, L.find i.repBlock = some r ∧ r.account = a ∧ r.block.namesRepresentative = true := by
  obtain ⟨x, hx, hdesc⟩ := hR.head_of_account hi
  obtain ⟨hfind, hacc, -⟩ := (L.head_eq_some_iff a x).mp hx
  obtain ⟨r, hr, hracc, -, hnames, -⟩ := L.exists_repBlock_of_find hfind
  exact ⟨r, by rw [hdesc.repBlock]; exact hr, hracc.trans hacc, hnames⟩

theorem summandAt_gain (a r : Account) :
    s.accounts.summandAt (fun _ i => L.gain i.repBlock i.balance r) a =
      L.contribution (L.head a) r := by
  cases hx : L.head a with
  | none => exact Table.summandAt_of_get_none _ ((hR.account_none_iff a).mpr hx)
  | some x =>
    obtain ⟨i, hi, hdesc⟩ := hR.account_of_head hx
    rw [Table.summandAt_of_get _ hi, hdesc.repBlock, hdesc.balance]
    rfl

theorem summandAt_balance (a : Account) :
    s.accounts.summandAt (fun _ i => i.balance.toNat) a =
      ((L.head a).map (fun x => x.balance.toNat)).getD 0 := by
  cases hx : L.head a with
  | none => exact Table.summandAt_of_get_none _ ((hR.account_none_iff a).mpr hx)
  | some x =>
    obtain ⟨i, hi, hdesc⟩ := hR.account_of_head hx
    rw [Table.summandAt_of_get _ hi, hdesc.balance]
    rfl

theorem get_checksum :
    s.checksum.get 0 = some (s.accounts.fold (· ^^^ ·) 0 (fun _ i => i.head)) := by
  rw [hR.checksum]
  exact Table.get_put_self _ _ _

theorem get_checksum_del (a : Account) :
    s.checksum.get 0 =
      some (((L.head a).map Entry.hash).getD 0 ^^^
        (s.accounts.del a).fold (· ^^^ ·) 0 (fun _ i => i.head)) := by
  rw [hR.get_checksum]
  cases hx : L.head a with
  | none =>
    rw [Table.del_of_get_none ((hR.account_none_iff a).mpr hx)]
    simp
  | some x =>
    obtain ⟨i, hi, hdesc⟩ := hR.account_of_head hx
    rw [Table.fold_of_get (fun x y : Checksum => x ^^^ y) 0 _ hi, hdesc.head]
    rfl

end Lookup

/-- The tables after the block of `e` has been added. -/
structure Installs (H : CollisionFree env U) (s s' : BlockStore) (ha : L.Appendable e) :
    Prop where
  blocks : BlockTables.Represents s'.blockDatabase (L.append H e ha).raw
  count : s'.blockCount = s.blockCount + 1
  accounts : ∃ i : AccountInfo, i.Describes e ∧ s'.accounts = s.accounts.put e.account i
  frontiers : ∀ h, s'.frontiers.get h =
    if h = e.hash then (if e.block.isLegacy = true then some e.account else none)
    else if h = e.previous then none
    else s.frontiers.get h
  pending : s'.pending = e.settle env s.pending
  weights : ∀ r, s'.representationGet r + L.contribution (L.find e.previous) r =
    s.representationGet r + (L.append H e ha).gain e.repBlock e.balance r
  checksum : ∀ c, s.checksum.get 0 = some c →
    s'.checksum = s.checksum.put 0 (c ^^^ ((L.find e.previous).map Entry.hash).getD 0 ^^^ e.hash)
  infos : ∀ h, s'.blocksInfo.get h =
    if h = e.hash ∧ e.height % BlockStore.blockInfoMax = 0 ∧ e.block.isLegacy = true then
      some ⟨e.account, e.balance⟩
    else s.blocksInfo.get h

section Install

variable (H : CollisionFree env U)

theorem pending_settle (hR : Refines δ s L) (ha : L.Appendable e) (k : PendingKey) :
    (e.settle env s.pending).get k = (L.append H e ha).pendingInfo k := by
  rw [pendingInfo_append]
  unfold Entry.settle
  cases hd : e.destination with
  | some d =>
    have hs : e.source env = none := Entry.source_eq_none_of_destination hd
    simp only
    rw [Table.get_put, hR.pending, hs]
    by_cases hk : k.hash = e.hash
    · by_cases hacc : k.account = d
      · have hkey : k = ⟨d, e.hash⟩ := by
          rw [← hacc, ← hk]
        rw [if_pos hkey, if_pos hk, if_pos (by rw [hacc])]
      · have hkey : k ≠ ⟨d, e.hash⟩ := by
          rintro rfl
          exact hacc rfl
        rw [if_neg hkey, if_pos hk, if_neg (by simpa using fun h => hacc h.symm)]
        rw [L.pendingInfo_of_find_none (by rw [hk]; exact ha.fresh)]
    · have hkey : k ≠ ⟨d, e.hash⟩ := by
        rintro rfl
        exact hk rfl
      rw [if_neg hkey, if_neg hk]
      simp
  | none =>
    have hfresh : k.hash = e.hash → L.pendingInfo k = none := by
      intro hk
      exact L.pendingInfo_of_find_none (by rw [hk]; exact ha.fresh)
    cases hs : e.source env with
    | none =>
      simp only
      rw [hR.pending]
      grind
    | some x =>
      obtain ⟨q, hq, hdest, -, -⟩ := ha.sent hs
      simp only
      rw [Table.get_del, hR.pending]
      by_cases hk : k.hash = e.hash
      · simp [hk, hfresh hk]
      · rw [if_neg hk]
        by_cases hx : x = k.hash
        · subst hx
          by_cases hacc : k.account = e.account
          · rw [if_pos (by rw [← hacc]), if_pos rfl]
          · rw [if_neg (fun h => hacc (congrArg PendingKey.account h)), if_pos rfl]
            rw [L.pendingInfo_of_find hq, if_neg]
            rintro ⟨hdest', -⟩
            rw [hdest] at hdest'
            exact hacc (Option.some.inj hdest').symm
        · rw [if_neg (by rintro rfl; exact hx rfl), if_neg (by simpa using hx)]

theorem supply_settle (hR : Refines δ s L) (ha : L.Appendable e) :
    e.balance.toNat + (e.settle env s.pending).sum (fun _ p => p.amount.toNat) =
      e.previousBalance.toNat + s.pending.sum (fun _ p => p.amount.toNat) := by
  unfold Entry.settle
  cases hd : e.destination with
  | some d =>
    have hfresh : s.pending.get ⟨d, e.hash⟩ = none := by
      rw [hR.pending]
      exact L.pendingInfo_of_find_none ha.fresh
    have hbal := Entry.balance_add_amount ha.lawful hd
    simp only [Table.sum_put, Table.del_of_get_none hfresh]
    omega
  | none =>
    cases hs : e.source env with
    | some x =>
      obtain ⟨q, hq, hdest, hamount, hrec⟩ := ha.sent hs
      have hget : s.pending.get ⟨e.account, x⟩ = some ⟨q.account, q.amount⟩ := by
        rw [hR.pending, L.pendingInfo_of_find hq, if_pos ⟨hdest, hrec⟩]
      have hsum := Table.sum_of_get (fun _ p => p.amount.toNat) hget
      have hbal := Entry.previousBalance_add_amount ha.lawful
        (fun hp => (ha.opening hp).1.previousBalance) hs
      simp only at hsum ⊢
      rw [hamount] at hsum
      omega
    | none => rw [Entry.balance_eq_previousBalance ha.lawful ha.ne_genesis.symm hd hs]

include H in
theorem previousBalance_eq (ha : L.Appendable e) :
    ((L.head e.account).map (fun x => x.balance.toNat)).getD 0 = e.previousBalance.toNat := by
  rw [ha.head_eq H]
  by_cases hp : e.previous = 0
  · rw [hp, L.find_zero H, (ha.opening hp).1.previousBalance]
    rfl
  · obtain ⟨p, hfind, -, hext⟩ := ha.chain hp
    rw [hfind, hext.previousBalance]
    rfl

theorem install (hR : Refines δ s L) {ha : L.Appendable e} (hi : Installs H s s' ha) :
    Refines δ s' (L.append H e ha) := by
  obtain ⟨i, hdesc, hput⟩ := hi.accounts
  have hdel : s'.accounts.del e.account = s.accounts.del e.account := by
    rw [hput, Table.del_put_self]
  refine
    { blocks := hi.blocks
      count := ?_
      accounts := ?_
      frontiers := ?_
      pending := ?_
      weights := ?_
      checksum := ?_
      infos := ?_
      sentinel := ?_
      supply := ?_ }
  · rw [hi.count, hR.count, size_append]
  · intro a
    rw [hput, Table.get_put, head_append]
    by_cases hacc : a = e.account
    · simp [hacc, Option.map_some, (i.unstamped_eq_info_iff e).mpr hdesc]
    · simpa [hacc] using hR.accounts a
  · intro h
    rw [hi.frontiers, frontier_append, hR.frontiers]
  · intro k
    rw [hi.pending]
    exact hR.pending_settle H ha k
  · intro r
    have hcongr : (s.accounts.del e.account).sum
          (fun _ i => (L.append H e ha).gain i.repBlock i.balance r) =
        (s.accounts.del e.account).sum (fun _ i => L.gain i.repBlock i.balance r) := by
      refine Table.sum_congr ?_
      intro a i' hget
      rw [Table.get_del] at hget
      split_ifs at hget
      obtain ⟨x, hx, -⟩ := hR.repBlock_stored hget
      exact gain_append H ha hx _ _
    have hold := hR.weights r
    rw [Table.sum_eq_summandAt_add _ _ e.account, hR.summandAt_gain, ha.head_eq H] at hold
    have hnew := hi.weights r
    rw [hput, Table.sum_put, hcongr, hdesc.repBlock, hdesc.balance]
    linear_combination hnew + hold
  · have hold := hR.get_checksum_del e.account
    rw [ha.head_eq H] at hold
    rw [hi.checksum _ hold, hR.checksum, Table.put_put, hput,
      Table.fold_put (fun x y : Checksum => x ^^^ y), hdesc.head]
    congr 1
    rw [BitVec.xor_comm _ (Table.fold _ _ _ _), BitVec.xor_assoc _ _ (Option.getD _ _),
      BitVec.xor_self, BitVec.xor_zero, BitVec.xor_comm]
  · intro b hb hlegacy
    rw [hi.infos, checkpoint_append, hR.infos b hb hlegacy]
    by_cases hk : b.hash env = e.hash
    · have hsame := H.injective b hb _ ha.known (hk.trans ha.hashed.symm)
      have hlegacy' : e.block.isLegacy = true := by
        rw [← Block.isLegacy_eq_of_hashables_eq hsame]
        exact hlegacy
      rw [if_pos hk]
      by_cases hheight : e.height % BlockStore.blockInfoMax = 0
      · rw [if_pos ⟨hk, hheight, hlegacy'⟩, if_pos hheight]
      · simp [hheight, hk, checkpoint, ha.fresh]
    · rw [if_neg (fun h => hk h.1), if_neg hk]
  · intro hone
    rw [hi.infos]
    split_ifs with hcond
    · exact absurd (ha.hashed.trans hcond.1.symm) (hone _ ha.known)
    · exact hR.sentinel hone
  · have hold := hR.supply
    rw [Table.sum_eq_summandAt_add _ _ e.account, hR.summandAt_balance,
      previousBalance_eq H ha] at hold
    have hset := hR.supply_settle ha
    rw [hput, Table.sum_put, hi.pending, hdesc.balance]
    omega

end Install

/-- The tables after the block of `e` has been removed. -/
structure Uninstalls (δ δ' : Account → Uint128) (s s' : BlockStore) (hr : L.Removable e) :
    Prop where
  blocks : BlockTables.Represents s'.blockDatabase (L.remove e hr).raw
  count : s'.blockCount + 1 = s.blockCount
  account : (s'.accounts.get e.account).map AccountInfo.unstamped =
    (L.find e.previous).map Entry.info
  accounts : s'.accounts.del e.account = s.accounts.del e.account
  frontiers : ∀ h, s'.frontiers.get h =
    if h = e.hash then none
    else if h = e.previous then L.legacyOwner h
    else s.frontiers.get h
  pending : ∃ sender : Account,
    (∀ x q, e.source env = some x → L.find x = some q → sender = q.account) ∧
      s'.pending = e.unsettle env sender s.pending
  weights : ∀ r, s'.representationGet r + L.gain e.repBlock e.balance r + δ r =
    s.representationGet r + L.contribution (L.find e.previous) r + δ' r
  checksum : ∀ c, s.checksum.get 0 = some c →
    s'.checksum = s.checksum.put 0 (c ^^^ e.hash ^^^ ((L.find e.previous).map Entry.hash).getD 0)
  infos : ∀ h, s'.blocksInfo.get h =
    if h = e.hash ∧ e.block.isLegacy = true then none
    else if h = e.previous ∧ e.previous ≠ 0 ∧
        (e.height - 1) % BlockStore.blockInfoMax = 0 then
      some ⟨e.account, e.previousBalance⟩
    else s.blocksInfo.get h

section Uninstall

variable (H : CollisionFree env U) {hr : L.Removable e}

theorem pending_unsettle (hR : Refines δ s L) (hr : L.Removable e) {sender : Account}
    (hsender : ∀ x q, e.source env = some x → L.find x = some q → sender = q.account)
    (k : PendingKey) : (e.unsettle env sender s.pending).get k = (L.remove e hr).pendingInfo k := by
  rw [pendingInfo_remove]
  have hself : k.hash = e.hash → e.destination ≠ some k.account → L.pendingInfo k = none := by
    intro hk hne
    rw [L.pendingInfo_of_find (by rw [hk]; exact hr.stored), if_neg (fun h => hne h.1)]
  unfold Entry.unsettle
  cases hd : e.destination with
  | some d =>
    have hs : e.source env = none := Entry.source_eq_none_of_destination hd
    simp only
    rw [Table.get_del, hR.pending, hs]
    by_cases hk : k.hash = e.hash
    · rw [if_pos hk]
      by_cases hacc : k.account = d
      · rw [if_pos (by rw [← hacc, ← hk])]
      · rw [if_neg (fun h => hacc (congrArg PendingKey.account h)), hself hk]
        rw [hd]
        exact fun h => hacc (Option.some.inj h).symm
    · grind
  | none =>
    rw [hd] at hself
    cases hs : e.source env with
    | none =>
      simp only
      rw [hR.pending]
      by_cases hk : k.hash = e.hash
      · rw [if_pos hk, hself hk (by simp)]
      · simp [hk]
    | some x =>
      obtain ⟨q, hq, htime, hdest, hamount⟩ := L.exists_source hr.stored hs
      have hxe : x ≠ e.hash := by
        rintro rfl
        rw [hr.stored] at hq
        cases hq
        omega
      simp only
      rw [Table.get_put, hR.pending]
      by_cases hk : k.hash = e.hash
      · rw [if_pos hk, if_neg, hself hk (by simp)]
        rintro rfl
        exact hxe hk
      · rw [if_neg hk]
        by_cases hx : x = k.hash
        · subst hx
          rw [if_pos rfl, hq]
          by_cases hacc : k.account = e.account
          · rw [if_pos (by rw [← hacc]), hsender _ q hs hq, ← hamount]
            simp [hdest, hacc]
          · have hne : e.account ≠ k.account := fun h => hacc h.symm
            rw [if_neg (fun h => hacc (congrArg PendingKey.account h)),
              L.pendingInfo_of_find hq]
            simp [hdest, hne]
        · grind

theorem supply_unsettle (hR : Refines δ s L) (hr : L.Removable e) (sender : Account) :
    e.previousBalance.toNat +
        (e.unsettle env sender s.pending).sum (fun _ p => p.amount.toNat) =
      e.balance.toNat + s.pending.sum (fun _ p => p.amount.toNat) := by
  have hlawful := L.lawful hr.stored
  unfold Entry.unsettle
  cases hd : e.destination with
  | some d =>
    have hget : s.pending.get ⟨d, e.hash⟩ = some ⟨e.account, e.amount⟩ := by
      rw [hR.pending, L.pendingInfo_of_find hr.stored, if_pos ⟨hd, hr.receiver⟩]
    have hsum := Table.sum_of_get (fun _ p => p.amount.toNat) hget
    have hbal := Entry.balance_add_amount hlawful hd
    simp only at hsum ⊢
    omega
  | none =>
    cases hs : e.source env with
    | some x =>
      obtain ⟨q, hq, -, hdest, hamount⟩ := L.exists_source hr.stored hs
      have hget : s.pending.get ⟨e.account, x⟩ = none := by
        rw [hR.pending, L.pendingInfo_of_find hq, if_neg]
        rintro ⟨-, hrec⟩
        rw [receiver_eq_none_iff] at hrec
        exact hrec _ _ hr.stored hs
      have hbal := Entry.previousBalance_add_amount hlawful
        (fun hp => (L.opening hr.stored hp).previousBalance) hs
      simp only [Table.sum_put, Table.del_of_get_none hget]
      omega
    | none => rw [Entry.balance_eq_previousBalance hlawful hr.ne_genesis hd hs]

include H in
theorem balance_of_previous (hr : L.Removable e) :
    ((L.find e.previous).map (fun x => x.balance.toNat)).getD 0 =
      e.previousBalance.toNat := by
  by_cases hp : e.previous = 0
  · rw [hp, L.find_zero H, (L.opening hr.stored hp).previousBalance]
    rfl
  · obtain ⟨p, hfind, -, hext⟩ := L.exists_previous hr.stored hp
    rw [hfind, hext.previousBalance]
    rfl

include H in
theorem repBlock_ne_of_previous (hr : L.Removable e) {p : Entry} (hp : L.find e.previous = some p) :
    p.repBlock ≠ e.hash := by
  intro heq
  obtain ⟨r, hfind, -, htime, -⟩ := L.exists_repBlock_of_find hp
  obtain ⟨p', hp', htime', -⟩ := L.exists_previous hr.stored (L.hash_ne_zero H hp)
  cases hp.symm.trans hp'
  rw [heq, hr.stored] at hfind
  cases hfind
  omega

theorem Uninstalls.account_cases (hu : Uninstalls δ δ' s s' hr) :
    (s'.accounts.get e.account = none ∧ L.find e.previous = none) ∨
      ∃ i p, s'.accounts.get e.account = some i ∧ L.find e.previous = some p ∧
        i.Describes p := by
  have hacc := hu.account
  cases hp : L.find e.previous with
  | none =>
    rw [hp] at hacc
    exact .inl ⟨by simpa using hacc, rfl⟩
  | some p =>
    rw [hp] at hacc
    obtain ⟨i, hi, hinfo⟩ := Option.map_eq_some_iff.mp hacc
    exact .inr ⟨i, p, hi, rfl, (i.unstamped_eq_info_iff p).mp hinfo⟩

theorem Uninstalls.summandAt_eq {M : Type} [AddCommMonoid M] (hu : Uninstalls δ δ' s s' hr)
    {f : AccountInfo → M} {x : M} (hnone : L.find e.previous = none → x = 0)
    (hsome : ∀ i p, L.find e.previous = some p → i.Describes p → f i = x) :
    s'.accounts.summandAt (fun _ i => f i) e.account = x := by
  rcases hu.account_cases with ⟨hget, hp⟩ | ⟨i, p, hi, hp, hdesc⟩
  · rw [hnone hp]
    exact Table.summandAt_of_get_none _ hget
  · grind [Table.summandAt_of_get _ hi]

include H in
theorem Uninstalls.weights_eq (hR : Refines δ s L) (hu : Uninstalls δ δ' s s' hr) (r : Account) :
    s'.representationGet r =
      s'.accounts.sum (fun _ i => (L.remove e hr).gain i.repBlock i.balance r) + δ' r := by
  have hcongr : (s.accounts.del e.account).sum
        (fun _ i => (L.remove e hr).gain i.repBlock i.balance r) =
      (s.accounts.del e.account).sum (fun _ i => L.gain i.repBlock i.balance r) := by
    refine Table.sum_congr ?_
    intro a i' hget
    rw [Table.get_del] at hget
    split_ifs at hget with hacc
    obtain ⟨x, hx, hxacc, -⟩ := hR.repBlock_stored hget
    refine gain_remove hr ?_ _ _
    intro heq
    rw [heq, hr.stored] at hx
    cases hx
    exact hacc hxacc.symm
  have hsummand : s'.accounts.summandAt
        (fun _ i => (L.remove e hr).gain i.repBlock i.balance r) e.account =
      L.contribution (L.find e.previous) r := by
    refine hu.summandAt_eq (fun hp => by rw [hp]; rfl) (fun i p hp hdesc => ?_)
    rw [hp, hdesc.repBlock, hdesc.balance]
    exact gain_remove hr (repBlock_ne_of_previous H hr hp) _ _
  have hold := hR.weights r
  rw [Table.sum_eq_summandAt_add _ _ e.account, hR.summandAt_gain, hr.head_eq] at hold
  have hcontr : L.contribution (some e) r = L.gain e.repBlock e.balance r := rfl
  have hnew := hu.weights r
  rw [Table.sum_eq_summandAt_add _ _ e.account, hsummand, hu.accounts, hcongr]
  rw [hcontr] at hold
  linear_combination hnew + hold

theorem Uninstalls.checksum_eq (hR : Refines δ s L) (hu : Uninstalls δ δ' s s' hr) :
    s'.checksum = Table.empty.put 0 (s'.accounts.fold (· ^^^ ·) 0 (fun _ i => i.head)) := by
  have hold := hR.get_checksum_del e.account
  rw [hr.head_eq] at hold
  have hhead : s'.accounts.fold (fun x y : Checksum => x ^^^ y) 0 (fun _ i => i.head) =
      ((L.find e.previous).map Entry.hash).getD 0 ^^^
        (s.accounts.del e.account).fold (fun x y : Checksum => x ^^^ y) 0
          (fun _ i => i.head) := by
    rw [← hu.accounts]
    rcases hu.account_cases with ⟨hget, hp⟩ | ⟨i, p, hi, hp, hdesc⟩
    · rw [hp, Table.del_of_get_none hget]
      simp
    · rw [hp, Table.fold_of_get (fun x y : Checksum => x ^^^ y) 0 _ hi, hdesc.head]
      rfl
  rw [hu.checksum _ hold, hR.checksum, Table.put_put, hhead]
  congr 1
  rw [BitVec.xor_comm (Option.getD _ _) (Table.fold _ _ _ _), BitVec.xor_assoc _ _ e.hash]
  simp [BitVec.xor_comm]

include H in
theorem Uninstalls.infos_eq (hR : Refines δ s L)
    (hu : Uninstalls δ δ' s s' hr) {b : Block} (hb : b ∈ U) (hlegacy : b.isLegacy = true) :
    s'.blocksInfo.get (b.hash env) = (L.remove e hr).checkpoint (b.hash env) := by
  rw [hu.infos, checkpoint_remove, hR.infos b hb hlegacy]
  by_cases hk : b.hash env = e.hash
  · have hsame := H.injective b hb _ (L.known hr.stored) (hk.trans (L.hashed hr.stored).symm)
    have hlegacy' : e.block.isLegacy = true := by
      rw [← Block.isLegacy_eq_of_hashables_eq hsame]
      exact hlegacy
    rw [if_pos ⟨hk, hlegacy'⟩, if_pos hk]
  · rw [if_neg (fun h => hk h.1), if_neg hk]
    split_ifs with hcond
    · obtain ⟨p, hp, -, hext⟩ := L.exists_previous hr.stored hcond.2.1
      have hheight := hext.height
      rw [hcond.1, checkpoint, hp]
      simp only
      rw [if_pos (by rw [← hcond.2.2, hheight]; rfl), hext.account, hext.previousBalance]
    · rfl

include H in
theorem Uninstalls.supply_eq (hR : Refines δ s L) (hu : Uninstalls δ δ' s s' hr) :
    s'.accounts.sum (fun _ i => i.balance.toNat) + s'.pending.sum (fun _ p => p.amount.toNat) =
      genesisAmount.toNat := by
  obtain ⟨sender, -, hpending⟩ := hu.pending
  have hold := hR.supply
  rw [Table.sum_eq_summandAt_add _ _ e.account, hR.summandAt_balance, hr.head_eq] at hold
  have hsummand : s'.accounts.summandAt (fun _ i => i.balance.toNat) e.account =
      e.previousBalance.toNat := by
    rw [← balance_of_previous H hr]
    refine hu.summandAt_eq (fun hp => by rw [hp]; rfl) (fun i p hp hdesc => ?_)
    rw [hp, hdesc.balance]
    rfl
  have hset := hR.supply_unsettle hr sender
  rw [Table.sum_eq_summandAt_add _ _ e.account, hsummand, hu.accounts, hpending]
  simp only [Option.map_some, Option.getD_some] at hold
  omega

include H in
theorem uninstall (hR : Refines δ s L) (hu : Uninstalls δ δ' s s' hr) :
    Refines δ' s' (L.remove e hr) := by
  obtain ⟨sender, hsender, hpending⟩ := hu.pending
  have hother : ∀ a, a ≠ e.account → s'.accounts.get a = s.accounts.get a := by
    intro a ha
    have hget := congrArg (fun t => t.get a) hu.accounts
    simpa [Table.get_del, ha] using hget
  refine
    { blocks := hu.blocks
      count := ?_
      accounts := ?_
      frontiers := ?_
      pending := ?_
      weights := hu.weights_eq H hR
      checksum := hu.checksum_eq hR
      infos := fun b hb hlegacy => hu.infos_eq H hR hb hlegacy
      sentinel := ?_
      supply := hu.supply_eq H hR }
  · have hcount := hu.count
    have hcount' := hR.count
    have hsize := size_remove hr
    omega
  · intro a
    rw [head_remove H]
    by_cases hacc : a = e.account
    · simpa [hacc] using hu.account
    · rw [if_neg hacc, hother a hacc]
      exact hR.accounts a
  · intro h
    rw [hu.frontiers, frontier_remove H, hR.frontiers]
  · intro k
    rw [hpending]
    exact hR.pending_unsettle hr hsender k
  · intro hone
    rw [hu.infos]
    split_ifs with hcond hcond'
    · rfl
    · obtain ⟨p, hp, -⟩ := L.exists_previous hr.stored hcond'.2.1
      exact absurd ((L.hashed hp).trans hcond'.1.symm) (hone _ (L.known hp))
    · exact hR.sentinel hone

end Uninstall

end Refines

end Badem
