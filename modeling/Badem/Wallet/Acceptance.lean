import Badem.Wallet.Signing

/-!
# The ledger accepts what the wallet builds

A block that is to send nothing has the balance of the head, so the ledger takes its
destination for the hash of a block to receive from.
-/

namespace Badem

open Mdb WalletStore BlockLattice LedgerProcessor

def Accepted (env : Env) (now : Nat) (s : BlockStore) (b : StateBlock) : Prop :=
  ∃ r s', Ledger.process env now s (.stateBlock b) = .ok (r, s') ∧ r.code = .progress

def pendingAmount (s : BlockStore) (k : PendingKey) : Amount :=
  ((s.pendingGet k).map PendingInfo.amount).getD 0

/-- The ledger accepts a state block, and the block moves an amount to an account. -/
def Moves (env : Env) (now : Nat) (s : BlockStore) (b : StateBlock) (account : Account)
    (amount : Amount) : Prop :=
  ∃ r s', Ledger.process env now s (.stateBlock b) = .ok (r, s') ∧ r.code = .progress ∧
    pendingAmount s' ⟨account, (Block.stateBlock b).hash env⟩ = amount

variable {env : Env} {U : Set Block} {s : BlockStore} {w : WalletStore}

theorem BlockLattice.account_eq_of_state (L : BlockLattice env U)
    {h : BlockHash} {e : Entry} (he : L.find h = some e) {x : StateHashables}
    (hx : e.block.hashables = .state x) : e.account = x.account := by
  have hlawful := L.lawful he
  cases hblock : e.block with
  | stateBlock c =>
    rw [hblock] at hx
    simp only [Entry.Lawful, hblock] at hlawful
    rw [hlawful.1, (Hashables.state.inj hx : c.hashables = x)]
  | _ => rw [hblock] at hx; exact absurd hx (by simp [Block.hashables])

section State

variable {env : Env} {U : Set Block} {s : BlockStore} {L : BlockLattice env U}
variable (H : CollisionFree env U) (M : MarkerFree env U) (hR : Refines (fun _ => 0) s L)
variable {b : StateBlock} (hb : Block.stateBlock b ∈ U)

include H hb

theorem fresh_of_head {a : Account} {x : Entry} (hhead : L.head a = some x)
    (hprev : b.hashables.previous = x.hash) : L.find ((Block.stateBlock b).hash env) = none := by
  obtain ⟨-, -, hchild⟩ := (L.head_eq_some_iff a x).mp hhead
  cases he : L.find ((Block.stateBlock b).hash env) with
  | none => rfl
  | some e =>
    have hsame := H.injective _ (L.known he) _ hb (L.hashed he)
    exact absurd ((Block.previous_eq_of_hashables_eq hsame).trans hprev)
      ((L.child_eq_none_iff x.hash).mp hchild _ _ he)

theorem fresh_of_unopened (hhead : L.head b.hashables.account = none) :
    L.find ((Block.stateBlock b).hash env) = none := by
  cases he : L.find ((Block.stateBlock b).hash env) with
  | none => rfl
  | some e =>
    have hsame := H.injective _ (L.known he) _ hb (L.hashed he)
    exact absurd (L.account_eq_of_state he hsame) (account_ne_of_head_eq_none H L hhead he)

variable (hfresh : L.find ((Block.stateBlock b).hash env) = none)
variable (hsig : env.validateMessage b.hashables.account ((Block.stateBlock b).hash env)
  b.signature = false)
variable (hacc : b.hashables.account ≠ 0) {amount : Amount} {isSend : Bool}
variable (hpos : LedgerProcessor.statePosition s b (s.accountGet b.hashables.account) =
  (.progress, amount, isSend))

include M hR hfresh hsig hacc hpos

theorem state_accepts (now : Nat)
    (hlink : isSend = false → stateLink s b amount = .progress) :
    ∃ r s', Ledger.process env now s (.stateBlock b) = .ok (r, s') ∧ r.code = .progress ∧
      s'.pendingGet ⟨b.hashables.link, (Block.stateBlock b).hash env⟩ =
        if isSend = true then some ⟨b.hashables.account, amount⟩ else none := by
  obtain ⟨t, ht⟩ := exists_time L
  obtain ⟨e, hblock, -, ha, hvalid⟩ :=
    stateBlock_extendable H hR ht hb hfresh (by simp [hsig]) hacc hpos hlink
  have hlawful := ha.lawful
  simp only [Entry.Lawful, hblock] at hlawful
  obtain ⟨r, s', hrun, hcode, hR'⟩ := process_accepts H M now hR ha (by rw [hblock]; exact hvalid)
  have hposition := statePosition_eq H hR ha hblock
  rw [hlawful.1] at hposition
  obtain ⟨-, hmatch⟩ := Prod.mk.inj (hpos.symm.trans hposition)
  obtain ⟨rfl, rfl⟩ := Prod.mk.inj hmatch
  have hhash : (Block.stateBlock b).hash env = e.hash := by
    rw [← hblock]
    exact ha.hashed
  refine ⟨r, s', by rw [← hblock]; exact hrun, hcode, ?_⟩
  have hdest : e.destination =
      if e.balance < e.previousBalance then some b.hashables.link else none := by
    rw [Entry.destination, hblock, hlawful.2.1]
  rw [BlockStore.pendingGet, hR'.pending, pendingInfo_append, if_pos hhash, hdest, hlawful.1]
  by_cases hlt : e.balance < e.previousBalance <;> simp [hlt]

theorem accepted_iff (now : Nat) :
    Accepted env now s b ↔
      (isSend = false → stateLink s b amount = .progress) := by
  constructor
  · rintro ⟨r, s', hrun, hcode⟩ hsend
    by_contra hlink
    have hexists : ¬ s.blockExists ((Block.stateBlock b).hash env) = true := by
      rw [hR.blockExists_iff, hfresh]
      simp
    change stateBlock env now s b = .ok (r, s') at hrun
    unfold stateBlock at hrun
    simp only at hrun
    rw [if_neg hexists, if_neg (by simp [hsig]), if_neg hacc, hpos] at hrun
    simp only [hsend, and_self, if_true] at hrun
    rw [if_neg hlink] at hrun
    cases hrun
    exact hlink hcode
  · intro hlink
    obtain ⟨r, s', hrun, hcode, -⟩ := state_accepts H M hR hb hfresh hsig hacc hpos now hlink
    exact ⟨r, s', hrun, hcode⟩

end State

theorem not_accepted_of_burn {now : Nat} {b : StateBlock}
    (hacc : b.hashables.account = 0) : ¬ Accepted env now s b := by
  rintro ⟨r, s', hrun, hcode⟩
  change stateBlock env now s b = .ok (r, s') at hrun
  unfold stateBlock at hrun
  simp only at hrun
  rw [if_pos hacc] at hrun
  split_ifs at hrun
  all_goals
    cases hrun
    exact absurd hcode (by simp [ProcessReturn.ofCode])

/-! ## The blocks of a wallet -/

section Wallet

variable {env : WalletEnv} {U : Set Block} {s : BlockStore} {w : WalletStore}
  {source account representative : Account} {amount : Uint128} {b : StateBlock}

def SignaturesValidate (env : WalletEnv) : Prop :=
  ∀ prv message, env.validateMessage (env.publicKey prv) message
    (env.signMessage prv (env.publicKey prv) message) = false

theorem validates_sign (hsign : SignaturesValidate env) {pub : Account}
    {prv : RawKey} (hprv : w.fetch env.toCrypto pub = .ok (some prv))
    (hashables : StateHashables) (work : Uint64) :
    env.validateMessage pub
      ((Block.stateBlock (.sign env hashables prv pub work)).hash env.toEnv)
      (StateBlock.sign env hashables prv pub work).signature = false := by
  have hkey : env.publicKey prv = pub := publicKey_of_fetch hprv
  have hvalid := hsign prv ((Block.stateBlock (.sign env hashables prv pub work)).hash env.toEnv)
  rw [hkey] at hvalid
  exact hvalid

theorem sendBlock_of_created {ids ids' : Wallet.SendActionIds} {id : Option String}
    (h : Wallet.sendAction env w s ids source account amount id = .ok (.created b, ids')) :
    Wallet.sendBlock env w s source account amount = .ok (some b) := by
  by_cases hunsent : Unsent env s ids id
  · rw [sendAction_of_unsent hunsent] at h
    obtain ⟨block, hblock, h⟩ := ok_of_bind h
    rw [hblock, recordSend_created (Except.ok.inj h)]
  · obtain ⟨result, hresult, hnone⟩ := sendAction_of_not_unsent hunsent
    cases hresult.symm.trans h
    exact absurd rfl (hnone b)

theorem sendBlock_inv (h : Wallet.sendBlock env w s source account amount = .ok (some b)) :
    ∃ info repBlock prv, SendReady env w s source amount ∧ s.accountGet source = some info ∧
      w.fetch env.toCrypto source = .ok (some prv) ∧
      b = .sign env (sendHashables source account amount info repBlock) prv source
        (w.workGet source) := by
  by_cases hready : SendReady env w s source amount
  · rw [Wallet.sendBlock, if_pos hready.unlocked, if_pos hready.present] at h
    simp only at h
    rw [if_pos ⟨hready.positive, hready.enough⟩] at h
    obtain ⟨info, hinfo, h⟩ := ok_of_bind h
    obtain ⟨fetched, hfetch, h⟩ := ok_of_bind h
    obtain ⟨prv, hprv, h⟩ := ok_of_bind h
    obtain ⟨repBlock, hrep, h⟩ := ok_of_bind h
    have hinfo := eq_some_of_expect_eq_ok hinfo
    rw [eq_some_of_expect_eq_ok hprv] at hfetch
    refine ⟨info, repBlock, prv, hready, hinfo, hfetch, ?_⟩
    rw [← Option.some.inj (Except.ok.inj h), Ledger.accountBalance, hinfo]
    rfl
  · simp [sendBlock_of_not_ready hready] at h

theorem changeAction_inv (h : Wallet.changeAction env w s source representative = .ok (some b)) :
    ∃ info prv, s.accountGet source = some info ∧
      w.fetch env.toCrypto source = .ok (some prv) ∧
      b = .sign env (changeHashables source representative info) prv source
        (w.workGet source) := by
  by_cases hready : ChangeReady env w s source
  · rw [Wallet.changeAction, if_pos hready.unlocked, if_pos ⟨hready.present, hready.opened⟩] at h
    obtain ⟨info, hinfo, h⟩ := ok_of_bind h
    obtain ⟨fetched, hfetch, h⟩ := ok_of_bind h
    obtain ⟨prv, hprv, h⟩ := ok_of_bind h
    rw [eq_some_of_expect_eq_ok hprv] at hfetch
    exact ⟨info, prv, eq_some_of_expect_eq_ok hinfo, hfetch,
      (Option.some.inj (Except.ok.inj h)).symm⟩
  · simp [changeAction_of_not_ready hready] at h

theorem receiveAction_inv {send : Block} {amount : Amount}
    (h : Wallet.receiveAction env w s send representative amount = .ok (some b)) :
    ∃ account pending prv hashables, s.blockExists (send.hash env.toEnv) = true ∧
      s.pendingGet ⟨account, send.hash env.toEnv⟩ = some pending ∧
      w.fetch env.toCrypto account = .ok (some prv) ∧
      b = .sign env hashables prv account (w.workGet account) ∧
      hashables.account = account ∧ hashables.link = send.hash env.toEnv ∧
      ((∃ info, s.accountGet account = some info ∧ hashables.previous = info.head ∧
          hashables.balance = info.balance + pending.amount) ∨
        s.accountGet account = none ∧ hashables.previous = 0 ∧
          hashables.balance = pending.amount) := by
  rw [Wallet.receiveAction] at h
  simp only at h
  by_cases hminimum : env.receiveMinimum ≤ amount
  case neg =>
    rw [if_neg hminimum] at h
    exact absurd (Except.ok.inj h) (by simp)
  by_cases hexists : s.blockExists (send.hash env.toEnv) = true
  case neg =>
    rw [if_pos hminimum, if_neg hexists] at h
    exact absurd (Except.ok.inj h) (by simp)
  rw [if_pos hminimum, if_pos hexists] at h
  obtain ⟨account, -, h⟩ := ok_of_bind h
  cases hpending : s.pendingGet ⟨account, send.hash env.toEnv⟩ with
  | none =>
    rw [hpending] at h
    exact absurd (Except.ok.inj h) (by simp)
  | some pending =>
    rw [hpending] at h
    obtain ⟨fetched, hfetch, h⟩ := ok_of_bind h
    cases fetched with
    | none => exact absurd (Except.ok.inj h) (by simp)
    | some prv =>
      simp only at h
      cases hinfo : s.accountGet account with
      | none =>
        rw [hinfo] at h
        cases Except.ok.inj h
        exact ⟨account, pending, prv, _, hexists, hpending, hfetch, rfl, rfl, rfl,
          .inr ⟨hinfo, rfl, rfl⟩⟩
      | some info =>
        rw [hinfo] at h
        obtain ⟨repBlock, -, h⟩ := ok_of_bind h
        cases Except.ok.inj h
        exact ⟨account, pending, prv, _, hexists, hpending, hfetch, rfl, rfl, rfl,
          .inl ⟨info, hinfo, rfl, rfl⟩⟩

end Wallet

section Accept

variable {env : WalletEnv} {U : Set Block} {s : BlockStore} {L : BlockLattice env.toEnv U}
variable (H : CollisionFree env.toEnv U) (M : MarkerFree env.toEnv U)
variable (hR : Refines (fun _ => 0) s L) {b : StateBlock} {info : AccountInfo}

include H hR in
theorem statePosition_on_head {a : Account} (hinfo : s.accountGet a = some info)
    (hprev : b.hashables.previous = info.head) :
    statePosition s b (some info) =
      (.progress, if b.hashables.balance < info.balance then info.balance - b.hashables.balance
        else b.hashables.balance - info.balance,
        decide (b.hashables.balance < info.balance)) := by
  obtain ⟨x, hx, hdesc⟩ := hR.head_of_account hinfo
  obtain ⟨hfind, -, -⟩ := (L.head_eq_some_iff a x).mp hx
  have hne : b.hashables.previous ≠ 0 := by
    rw [hprev, hdesc.head]
    exact L.hash_ne_zero H hfind
  have hexists : s.blockExists b.hashables.previous = true := by
    rw [hprev, hdesc.head, hR.blockExists_iff, hfind]
    rfl
  exact statePosition_of_head hne hexists hprev

variable (hb : Block.stateBlock b ∈ U)

include H hR hb in
theorem fresh_on_head (hinfo : s.accountGet b.hashables.account = some info)
    (hprev : b.hashables.previous = info.head) :
    L.find ((Block.stateBlock b).hash env.toEnv) = none ∧ b.hashables.account ≠ 0 := by
  obtain ⟨x, hx, hdesc⟩ := hR.head_of_account hinfo
  obtain ⟨hfind, hacc, -⟩ := (L.head_eq_some_iff _ x).mp hx
  exact ⟨fresh_of_head H hb hx (hprev.trans hdesc.head), hacc ▸ L.account_ne_zero hfind⟩

variable (hsig : env.validateMessage b.hashables.account ((Block.stateBlock b).hash env.toEnv)
  b.signature = false)

include H M hR hb hsig

theorem accepted_on_head_iff (now : Nat) (hinfo : s.accountGet b.hashables.account = some info)
    (hprev : b.hashables.previous = info.head) (hge : info.balance ≤ b.hashables.balance) :
    Accepted env.toEnv now s b ↔
      stateLink s b (b.hashables.balance - info.balance) = .progress := by
  obtain ⟨hfresh, hne⟩ := fresh_on_head H hR hb hinfo hprev
  have hpos := statePosition_on_head H hR hinfo hprev
  have hnot : ¬ b.hashables.balance < info.balance := BitVec.not_lt.mpr hge
  rw [if_neg hnot, decide_eq_false hnot, ← hinfo] at hpos
  rw [accepted_iff H M hR hb hfresh hsig hne hpos now]
  simp

theorem moves_on_head (now : Nat) (hinfo : s.accountGet b.hashables.account = some info)
    (hprev : b.hashables.previous = info.head) (hlt : b.hashables.balance < info.balance) :
    Moves env.toEnv now s b b.hashables.link (info.balance - b.hashables.balance) := by
  obtain ⟨hfresh, hne⟩ := fresh_on_head H hR hb hinfo hprev
  have hpos := statePosition_on_head H hR hinfo hprev
  rw [if_pos hlt, decide_eq_true hlt, ← hinfo] at hpos
  obtain ⟨r, s', hrun, hcode, hpending⟩ :=
    state_accepts H M hR hb hfresh hsig hne hpos now (by simp)
  refine ⟨r, s', hrun, hcode, ?_⟩
  rw [pendingAmount, hpending]
  rfl

theorem moves_zero_iff (now : Nat) (hinfo : s.accountGet b.hashables.account = some info)
    (hprev : b.hashables.previous = info.head) (hge : info.balance ≤ b.hashables.balance) :
    Moves env.toEnv now s b b.hashables.link 0 ↔ Accepted env.toEnv now s b := by
  constructor
  · rintro ⟨r, s', hrun, hcode, -⟩
    exact ⟨r, s', hrun, hcode⟩
  · intro haccepted
    have hlink := (accepted_on_head_iff H M hR hb hsig now hinfo hprev hge).mp haccepted
    obtain ⟨hfresh, hne⟩ := fresh_on_head H hR hb hinfo hprev
    have hpos := statePosition_on_head H hR hinfo hprev
    have hnot : ¬ b.hashables.balance < info.balance := BitVec.not_lt.mpr hge
    rw [if_neg hnot, decide_eq_false hnot, ← hinfo] at hpos
    obtain ⟨r, s', hrun, hcode, hpending⟩ :=
      state_accepts H M hR hb hfresh hsig hne hpos now (fun _ => hlink)
    refine ⟨r, s', hrun, hcode, ?_⟩
    rw [pendingAmount, hpending]
    rfl

end Accept

/-- A send of an amount makes sense to the ledger: it lowers the balance, or it has no link, or
its link is a send of nothing to the source. -/
def Sendable (s : BlockStore) (source account : Account) (amount : Uint128) : Prop :=
  amount ≠ 0 ∨ account = 0 ∨
    s.blockExists account = true ∧
      ∃ pending, s.pendingGet ⟨source, account⟩ = some pending ∧ pending.amount = 0

theorem stateLink_zero_iff (s : BlockStore) (b : StateBlock) :
    stateLink s b 0 = .progress ↔
      Sendable s b.hashables.account b.hashables.link 0 := by
  rw [Sendable, stateLink]
  by_cases hlink : b.hashables.link = 0
  · simp_all
  rw [if_pos hlink]
  cases hexists : s.blockExists b.hashables.link with
  | false =>
    rw [if_pos rfl]
    refine iff_of_false (by decide) ?_
    rintro (h | h | ⟨h, -⟩)
    · exact h rfl
    · exact hlink h
    · simp at h
  | true =>
    rw [if_neg (by decide)]
    cases hpending : s.pendingGet ⟨b.hashables.account, b.hashables.link⟩ with
    | none =>
      refine iff_of_false (by simp) ?_
      rintro (h | h | ⟨-, pending, h, -⟩)
      · exact h rfl
      · exact hlink h
      · simp at h
    | some pending =>
      by_cases hamount : pending.amount = 0
      · simp_all
      · simp only [if_neg (Ne.symm hamount)]
        refine iff_of_false (by decide) ?_
        rintro (h | h | ⟨-, p, hp, h⟩)
        · exact h rfl
        · exact hlink h
        · exact hamount (Option.some.inj hp ▸ h)

section Results

variable {env : WalletEnv} {U : Set Block} {s : BlockStore} {w : WalletStore}
variable (H : CollisionFree env.toEnv U) (M : MarkerFree env.toEnv U)
variable (hsign : SignaturesValidate env) (hs : Reachable env.toEnv U s) (now : Nat)
  {source representative : Account} {b : StateBlock}

include H M hsign hs

theorem send_moves_iff {account : Account} {amount : Uint128}
    (h : Wallet.sendBlock env w s source account amount = .ok (some b))
    (hb : Block.stateBlock b ∈ U) :
    Moves env.toEnv now s b account amount ↔ Sendable s source account amount := by
  obtain ⟨L, hR⟩ := hs.refines H M
  obtain ⟨info, repBlock, prv, hready, hinfo, hprv, rfl⟩ := sendBlock_inv h
  have hsig := validates_sign hsign hprv (sendHashables source account amount info repBlock)
    (w.workGet source)
  have henough : amount ≤ info.balance := by
    have hle := hready.enough
    rwa [Ledger.accountBalance, hinfo] at hle
  by_cases hzero : amount = 0
  · subst hzero
    have hbalance : info.balance - 0 = info.balance := sub_zero _
    have hge : info.balance ≤ info.balance - 0 := hbalance.symm ▸ le_refl _
    have hmoves := moves_zero_iff H M hR hb hsig now hinfo rfl hge
    have haccepted := accepted_on_head_iff H M hR hb hsig now hinfo rfl hge
    refine hmoves.trans (haccepted.trans ?_)
    rw [show (StateBlock.sign env (sendHashables source account 0 info repBlock) prv source
      (w.workGet source)).hashables.balance - info.balance = 0 from
        sub_eq_zero.mpr hbalance]
    exact stateLink_zero_iff s _
  · have hlt : info.balance - amount < info.balance := by
      rw [BitVec.lt_def, BitVec.toNat_sub_of_le henough]
      have hpos : 0 < amount.toNat := Nat.pos_of_ne_zero fun hz =>
        hzero (BitVec.eq_of_toNat_eq (by simpa using hz))
      have hle : amount.toNat ≤ info.balance.toNat := henough
      omega
    have hmoves := moves_on_head H M hR hb hsig now hinfo rfl hlt
    have hamount : info.balance - (info.balance - amount) = amount := sub_sub_cancel _ _
    refine iff_of_true ?_ (.inl hzero)
    change Moves env.toEnv now s _ account (info.balance - (info.balance - amount)) at hmoves
    rwa [hamount] at hmoves

theorem receive_accepted_iff {send : Block} {amount : Amount}
    (h : Wallet.receiveAction env w s send representative amount = .ok (some b))
    (hb : Block.stateBlock b ∈ U) : Accepted env.toEnv now s b ↔ b.hashables.account ≠ 0 := by
  obtain ⟨L, hR⟩ := hs.refines H M
  obtain ⟨account, pending, prv, hashables, hexists, hpending, hprv, rfl, rfl, hlink, hcases⟩ :=
    receiveAction_inv h
  have hsig := validates_sign hsign hprv hashables (w.workGet hashables.account)
  obtain ⟨q, hq, -⟩ := hR.exists_of_pending hpending
  have hne : hashables.link ≠ 0 := hlink ▸ L.hash_ne_zero H hq
  have hprogress : stateLink s
      (.sign env hashables prv hashables.account (w.workGet hashables.account)) pending.amount =
        .progress := by
    rw [← hlink] at hexists hpending
    exact stateLink_of_pending hne hexists hpending
  rcases hcases with ⟨info, hinfo, hprev, hbalance⟩ | ⟨hinfo, hprev, hbalance⟩
  · have hsum := hR.balance_add_pending_lt hinfo hpending
    have hge : info.balance ≤ hashables.balance := by
      rw [hbalance, BitVec.le_def, BitVec.toNat_add_of_lt hsum]
      omega
    have hamount : hashables.balance - info.balance = pending.amount := by
      rw [hbalance]
      exact add_sub_cancel_left _ _
    have haccepted := accepted_on_head_iff H M hR hb hsig now hinfo hprev hge
    refine iff_of_true (haccepted.mpr ?_) (fresh_on_head H hR hb hinfo hprev).2
    rw [show (StateBlock.sign env hashables prv hashables.account
      (w.workGet hashables.account)).hashables.balance - info.balance = pending.amount from hamount]
    exact hprogress
  · by_cases hacc : hashables.account = 0
    · exact iff_of_false (not_accepted_of_burn hacc) (not_not.mpr hacc)
    have hnone := (hR.account_none_iff _).mp hinfo
    have hpos : statePosition s
        (.sign env hashables prv hashables.account (w.workGet hashables.account))
        (s.accountGet hashables.account) = (.progress, pending.amount, false) := by
      rw [hinfo, ← hbalance]
      exact statePosition_unopened hprev hne
    exact iff_of_true ((accepted_iff H M hR hb (fresh_of_unopened H hb hnone) hsig hacc hpos
      now).mpr fun _ => hprogress) hacc

theorem change_accepted (h : Wallet.changeAction env w s source representative = .ok (some b))
    (hb : Block.stateBlock b ∈ U) : Accepted env.toEnv now s b := by
  obtain ⟨L, hR⟩ := hs.refines H M
  obtain ⟨info, prv, hinfo, hprv, rfl⟩ := changeAction_inv h
  have hsig := validates_sign hsign hprv (changeHashables source representative info)
    (w.workGet source)
  have haccepted := accepted_on_head_iff H M hR hb hsig now hinfo rfl (BitVec.le_refl info.balance)
  refine haccepted.mpr ?_
  rw [show (StateBlock.sign env (changeHashables source representative info) prv source
    (w.workGet source)).hashables.balance - info.balance = 0 from sub_self info.balance]
  exact (stateLink_zero_iff s _).mpr (.inr (.inl rfl))

/-- Every block that a wallet builds is accepted, and a send moves its amount, unless a send of
nothing names a destination or a receive opens the burn account. -/
theorem wallet_blocks_accepted_iff :
    (∀ ids source account amount id b ids',
      Wallet.sendAction env w s ids source account amount id = .ok (.created b, ids') →
        Block.stateBlock b ∈ U →
          (Moves env.toEnv now s b account amount ↔ Sendable s source account amount)) ∧
    (∀ send representative amount b,
      Wallet.receiveAction env w s send representative amount = .ok (some b) →
        Block.stateBlock b ∈ U → (Accepted env.toEnv now s b ↔ b.hashables.account ≠ 0)) ∧
    (∀ source representative b,
      Wallet.changeAction env w s source representative = .ok (some b) →
        Block.stateBlock b ∈ U → Accepted env.toEnv now s b) := by
  refine ⟨?_, ?_, ?_⟩
  · intro ids source account amount id b ids' h hb
    exact send_moves_iff H M hsign hs now (sendBlock_of_created h) hb
  · intro send representative amount b h hb
    exact receive_accepted_iff H M hsign hs now h hb
  · intro source representative b h hb
    exact change_accepted H M hsign hs now h hb

end Results

def firstSend (amount : Uint128) : StateBlock :=
  ⟨⟨plainEnv.genesisAccount, plainEnv.genesisHash, plainEnv.genesisAccount,
    genesisAmount - amount, 77⟩, 0, 0⟩

def firstSendSet (amount : Uint128) : Set Block :=
  blockSet plainEnv [.stateBlock (firstSend amount)]

def sendsFirst (amount : Uint128) (x : BlockStore × WalletStore) : Bool :=
  returns (Wallet.sendAction sampleEnv x.2 x.1 (fun _ => none) plainEnv.genesisAccount 77 amount
    none) fun
      | (.created b, _) => decide (b = firstSend amount)
      | _ => false

theorem created_of_sendsFirst {amount : Uint128} (h : sendsFirst amount (s, w) = true) :
    ∃ ids, Wallet.sendAction sampleEnv w s (fun _ => none) plainEnv.genesisAccount 77 amount
      none = .ok (.created (firstSend amount), ids) := by
  obtain ⟨⟨result, ids⟩, hrun, htest⟩ := exists_of_returns h
  cases result with
  | created b =>
    obtain rfl : b = firstSend amount := of_decide_eq_true htest
    exact ⟨ids, hrun⟩
  | _ => exact absurd htest (by simp)

theorem genesisHeld_reachable (h : genesisHeld = .ok (s, w)) : Reachable plainEnv U s := by
  obtain ⟨s', hs, h⟩ := ok_of_bind h
  obtain ⟨w₀, -, h⟩ := ok_of_bind h
  obtain ⟨⟨pub, w'⟩, -, h⟩ := ok_of_bind h
  obtain ⟨_, -, h⟩ := ok_of_bind h
  cases h
  exact .genesis hs

theorem wallet_blocks_accepted_iff_genesis :
    ∃ s w ids, genesisHeld = .ok (s, w) ∧
      Wallet.sendAction sampleEnv w s (fun _ => none) plainEnv.genesisAccount 77 10 none =
        .ok (.created (firstSend 10), ids) ∧
      Moves plainEnv 0 s (firstSend 10) 77 10 := by
  obtain ⟨⟨s, w⟩, hrun, hsend⟩ : ∃ x, genesisHeld = .ok x ∧ sendsFirst 10 x = true := by
    decide +kernel
  obtain ⟨ids, hsend⟩ := created_of_sendsFirst hsend
  have H : CollisionFree plainEnv (firstSendSet 10) := collisionFree_blockSet (by decide +kernel)
  have M : MarkerFree plainEnv (firstSendSet 10) := markerFree_blockSet (by decide +kernel)
  obtain ⟨hmoves, -, -⟩ := @wallet_blocks_accepted_iff sampleEnv (firstSendSet 10) s w H M
    (fun _ _ => rfl) (genesisHeld_reachable hrun) 0
  have hmem : Block.stateBlock (firstSend 10) ∈ firstSendSet 10 := .tail _ (.head _)
  exact ⟨s, w, ids, hrun, hsend, (hmoves _ _ _ _ _ _ _ hsend hmem).mpr (Or.inl (by decide))⟩

def emptyRequest : RpcHandler.SendRequest where
  wallet := some 0
  source := some plainEnv.genesisAccount
  destination := some 77
  amount := some 0
  work := none
  id := none

def passesEmpty (x : BlockStore × WalletStore) : Bool :=
  returns (RpcHandler.send sampleEnv x.1 true (fun _ => some x.2) emptyRequest) fun
    | .ok (_, call) => decide (call.source = plainEnv.genesisAccount ∧ call.account = 77 ∧
        call.amount = 0)
    | .error _ => false

/-- The ledger takes the destination of a send of nothing for a missing block. -/
theorem empty_send_refused :
    ∃ s w ids, genesisHeld = .ok (s, w) ∧ Reachable plainEnv (firstSendSet 0) s ∧
      CollisionFree plainEnv (firstSendSet 0) ∧ SignaturesValidate sampleEnv ∧
      w.validPassword sampleCrypto = true ∧ KeyHeld sampleCrypto w plainEnv.genesisAccount ∧
      passesEmpty (s, w) = true ∧
      Wallet.sendAction sampleEnv w s (fun _ => none) plainEnv.genesisAccount 77 0 none =
        .ok (.created (firstSend 0), ids) ∧
      ∃ r s', Ledger.process plainEnv 0 s (.stateBlock (firstSend 0)) = .ok (r, s') ∧
        r.code = .gapSource ∧ ¬ Accepted plainEnv 0 s (firstSend 0) := by
  obtain ⟨⟨s, w⟩, hrun, hsend, hpasses, hvalid, ⟨fetched, hfetch, hsome⟩, ⟨r, s'⟩, hprocess,
      hcode⟩ :
      ∃ x, genesisHeld = .ok x ∧ sendsFirst 0 x = true ∧ passesEmpty x = true ∧
        x.2.validPassword sampleCrypto = true ∧
        (∃ r, x.2.fetch sampleCrypto plainEnv.genesisAccount = .ok r ∧ r.isSome = true) ∧
        ∃ y, Ledger.process plainEnv 0 x.1 (.stateBlock (firstSend 0)) = .ok y ∧
          y.1.code = .gapSource := by
    decide +kernel
  obtain ⟨ids, hsend⟩ := created_of_sendsFirst hsend
  obtain ⟨prv, rfl⟩ := Option.isSome_iff_exists.mp hsome
  refine ⟨s, w, ids, hrun, genesisHeld_reachable hrun,
    collisionFree_blockSet (by decide +kernel), fun _ _ => rfl, hvalid, ⟨prv, hfetch⟩, hpasses,
    hsend, r, s', hprocess, hcode, ?_⟩
  rintro ⟨r', s'', hagain, hprogress⟩
  cases hprocess.symm.trans hagain
  cases hcode.symm.trans hprogress

end Badem
