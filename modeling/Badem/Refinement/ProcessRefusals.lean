import Badem.Ledger.Chains
import Badem.Core.BlockProcessor

/-!
# Reasons for refusing a block

After `fork` the block processor looks for the competitor of the block, and after `gap_source`
for the block to wait for.  In the states in which the handlers report these codes both are
found.
-/

namespace Badem

open BlockLattice LedgerProcessor

def Codes (C : ProcessResult → BlockStore → Prop)
    (x : Except Fault (ProcessReturn × BlockStore)) : Prop :=
  ∀ r s, x = .ok (r, s) → C r.code s

variable {C : ProcessResult → BlockStore → Prop} {r : ProcessReturn} {s : BlockStore}
  {d : ProcessResult} {P : BlockStore → Prop} {b : Block}

theorem codes_ok (h : C r.code s) : Codes C (.ok (r, s)) := by
  rintro _ _ ⟨rfl, rfl⟩
  exact h

theorem codes_of_ne {c : ProcessResult} (h : c ≠ d) :
    Codes (fun x t => x = d → P t) (.ok (.ofCode c, s)) :=
  codes_ok (fun hc => absurd hc h)

theorem codes_of_progress (hr : r.code = .progress) (h : .progress ≠ d) :
    Codes (fun x t => x = d → P t) (.ok (r, s)) :=
  codes_ok (fun hc => absurd (hr.symm.trans hc) h)

theorem codes_ite {c : Prop} [Decidable c] {x y : Except Fault (ProcessReturn × BlockStore)}
    (hx : c → Codes C x) (hy : ¬ c → Codes C y) : Codes C (if c then x else y) := by
  split_ifs <;> simp_all

theorem codes_bind {α : Type} {x : Except Fault α}
    {f : α → Except Fault (ProcessReturn × BlockStore)} (h : ∀ a, Codes C (f a)) :
    Codes C (x >>= f) := by
  intro r s hx
  obtain ⟨a, -, ha⟩ := ok_of_bind hx
  exact h a r s ha

/-- A legacy block on top of a stored legacy block that is not a frontier. -/
structure Superseded (s : BlockStore) (b : Block) : Prop where
  previous : ∃ p, s.blockGet b.previous = some p ∧ p.isLegacy = true
  frontier : s.frontierGet b.previous = 0

theorem isLegacy_of_validPredecessor {p : Block} (hb : b.isLegacy = true)
    (h : ¬ b.validPredecessor p = false) : p.isLegacy = true := by
  cases b <;> cases p <;> simp_all [Block.validPredecessor, Block.type]

section Handlers

variable (env : Env) (now : Nat) (s : BlockStore)

theorem process_old {env : Env} {s : BlockStore} (now : Nat)
    (h : s.blockExists (b.hash env) = true) :
    Ledger.process env now s b = .ok (.ofCode .old, s) := by
  cases b <;> exact if_pos h

theorem sendBlock_fork (b : SendBlock) :
    Codes (fun c t => c = .fork → t = s ∧ Superseded s (.sendBlock b))
      (sendBlock env now s b) := by
  unfold sendBlock
  refine codes_ite (fun _ => codes_of_ne (by decide)) fun _ => ?_
  cases hget : s.blockGet b.hashables.previous with
  | none => exact codes_of_ne (by decide)
  | some p =>
    refine codes_ite (fun _ => codes_of_ne (by decide)) fun hvalid => ?_
    refine codes_ite (fun hfront => codes_ok fun _ => ?_) fun _ => ?_
    · exact ⟨rfl, ⟨p, hget, isLegacy_of_validPredecessor rfl hvalid⟩, hfront⟩
    refine codes_ite (fun _ => codes_of_ne (by decide)) fun _ => ?_
    refine codes_bind fun _ => codes_bind fun _ => ?_
    refine codes_ite (fun _ => codes_of_ne (by decide)) fun _ => ?_
    repeat refine codes_bind fun _ => ?_
    exact codes_of_progress rfl (by decide)

theorem changeBlock_fork (b : ChangeBlock) :
    Codes (fun c t => c = .fork → t = s ∧ Superseded s (.changeBlock b))
      (changeBlock env now s b) := by
  unfold changeBlock
  refine codes_ite (fun _ => codes_of_ne (by decide)) fun _ => ?_
  cases hget : s.blockGet b.hashables.previous with
  | none => exact codes_of_ne (by decide)
  | some p =>
    refine codes_ite (fun _ => codes_of_ne (by decide)) fun hvalid => ?_
    refine codes_ite (fun hfront => codes_ok fun _ => ?_) fun _ => ?_
    · exact ⟨rfl, ⟨p, hget, isLegacy_of_validPredecessor rfl hvalid⟩, hfront⟩
    refine codes_bind fun _ => codes_bind fun _ => ?_
    refine codes_ite (fun _ => codes_of_ne (by decide)) fun _ => ?_
    repeat refine codes_bind fun _ => ?_
    exact codes_of_progress rfl (by decide)

theorem receiveBlock_fork (b : ReceiveBlock) :
    Codes (fun c t => c = .fork → t = s ∧ Superseded s (.receiveBlock b))
      (receiveBlock env now s b) := by
  unfold receiveBlock
  refine codes_ite (fun _ => codes_of_ne (by decide)) fun _ => ?_
  cases hget : s.blockGet b.hashables.previous with
  | none => exact codes_of_ne (by decide)
  | some p =>
    refine codes_ite (fun _ => codes_of_ne (by decide)) fun hvalid => ?_
    refine codes_ite (fun _ => codes_of_ne (by decide)) fun _ => ?_
    refine codes_ite (fun hfront => codes_ok fun _ => ?_) fun _ => ?_
    · exact ⟨rfl, ⟨p, hget, isLegacy_of_validPredecessor rfl hvalid⟩, hfront⟩
    refine codes_ite (fun _ => codes_of_ne (by decide)) fun _ => ?_
    refine codes_ite (fun _ => codes_of_ne (by decide)) fun _ => ?_
    cases s.pendingGet ⟨s.frontierGet b.hashables.previous, b.hashables.source⟩ with
    | none => exact codes_of_ne (by decide)
    | some pending =>
      repeat refine codes_bind fun _ => ?_
      exact codes_of_progress rfl (by decide)

theorem openBlock_fork (b : OpenBlock) :
    Codes (fun c t => c = .fork → t = s ∧ (s.accountGet b.hashables.account).isSome = true)
      (openBlock env now s b) := by
  unfold openBlock
  refine codes_ite (fun _ => codes_of_ne (by decide)) fun _ => ?_
  refine codes_ite (fun _ => codes_of_ne (by decide)) fun _ => ?_
  refine codes_ite (fun _ => codes_of_ne (by decide)) fun _ => ?_
  cases hacc : s.accountGet b.hashables.account with
  | some info => exact codes_ok (fun _ => ⟨rfl, rfl⟩)
  | none =>
    cases s.pendingGet ⟨b.hashables.account, b.hashables.source⟩ with
    | none => exact codes_of_ne (by decide)
    | some pending =>
      refine codes_ite (fun _ => codes_of_ne (by decide)) fun _ => ?_
      repeat refine codes_bind fun _ => ?_
      exact codes_of_progress rfl (by decide)

theorem statePosition_fork {b : StateBlock} {found : Option AccountInfo} {amount : Amount}
    {isSend : Bool} (hpos : statePosition s b found = (.fork, amount, isSend)) :
    ∃ info, found = some info ∧ (b.hashables.previous = 0 ∨
      s.blockExists b.hashables.previous = true ∧ b.hashables.previous ≠ info.head) := by
  unfold statePosition at hpos
  cases found with
  | none =>
    simp only at hpos
    split_ifs at hpos <;> exact absurd (Prod.mk.inj hpos).1 (by decide)
  | some info =>
    refine ⟨info, rfl, ?_⟩
    simp only at hpos
    by_cases hz : b.hashables.previous = 0
    · exact .inl hz
    rw [if_neg hz] at hpos
    by_cases hexists : s.blockExists b.hashables.previous = false
    · simp_all
    rw [if_neg hexists] at hpos
    refine .inr ⟨Bool.of_not_eq_false hexists, fun hhead => ?_⟩
    rw [if_pos hhead] at hpos
    exact absurd (Prod.mk.inj hpos).1 (by decide)

theorem statePosition_of_missing {b : StateBlock} (hz : b.hashables.previous ≠ 0)
    (hexists : s.blockExists b.hashables.previous = false) (found : Option AccountInfo) :
    (statePosition s b found).1 = .gapPrevious := by
  cases found with
  | none => simp only [statePosition, if_pos hz]
  | some info => simp only [statePosition, if_neg hz, if_pos hexists]

theorem stateLink_ne_fork (b : StateBlock) (amount : Amount) :
    stateLink s b amount ≠ .fork := by
  unfold stateLink
  cases s.pendingGet ⟨b.hashables.account, b.hashables.link⟩ with
  | _ =>
    simp only
    split_ifs <;> decide

theorem stateBlock_fork (b : StateBlock) :
    Codes (fun c t => c = .fork → t = s ∧
        env.validateMessage b.hashables.account ((Block.stateBlock b).hash env) b.signature =
          false ∧
        ∃ info, s.accountGet b.hashables.account = some info ∧ (b.hashables.previous = 0 ∨
          s.blockExists b.hashables.previous = true ∧ b.hashables.previous ≠ info.head))
      (stateBlock env now s b) := by
  unfold stateBlock
  refine codes_ite (fun _ => codes_of_ne (by decide)) fun _ => ?_
  refine codes_ite (fun _ => codes_of_ne (by decide)) fun hsig => ?_
  refine codes_ite (fun _ => codes_of_ne (by decide)) fun _ => ?_
  simp only
  generalize hpos : statePosition s b (s.accountGet b.hashables.account) = x
  obtain ⟨code, amount, isSend⟩ := x
  refine codes_ite (fun _ => codes_bind fun _ => codes_of_progress rfl (by decide)) fun _ => ?_
  refine codes_ok fun hcode => ⟨rfl, Bool.eq_false_iff.mpr hsig, ?_⟩
  change (if code = .progress ∧ isSend = false then stateLink s b amount
    else code) = .fork at hcode
  split_ifs at hcode with hlink
  · exact absurd hcode (stateLink_ne_fork s b amount)
  · exact statePosition_fork s (hcode ▸ hpos)

theorem stateBlock_gapSource (b : StateBlock) :
    Codes (fun c _ => c = .gapSource →
        b.hashables.previous = 0 ∨ s.blockExists b.hashables.previous = true)
      (stateBlock env now s b) := by
  unfold stateBlock
  refine codes_ite (fun _ => codes_of_ne (by decide)) fun _ => ?_
  refine codes_ite (fun _ => codes_of_ne (by decide)) fun _ => ?_
  refine codes_ite (fun _ => codes_of_ne (by decide)) fun _ => ?_
  simp only
  generalize hpos : statePosition s b (s.accountGet b.hashables.account) = x
  obtain ⟨code, amount, isSend⟩ := x
  refine codes_ite (fun _ => codes_bind fun _ => codes_of_progress rfl (by decide)) fun _ => ?_
  refine codes_ok fun hcode => ?_
  by_contra hgap
  obtain ⟨hz, hexists⟩ := not_or.mp hgap
  obtain rfl : code = .gapPrevious := by
    have hcode' := statePosition_of_missing s hz (Bool.eq_false_iff.mpr hexists)
      (s.accountGet b.hashables.account)
    rwa [hpos] at hcode'
  simp [ProcessReturn.ofAmount] at hcode

end Handlers

/-- The situations in which a fork is reported. -/
inductive ForkReason (env : Env) (s : BlockStore) : Block → Prop
  | superseded {b : Block} : b.root = b.previous → Superseded s b → ForkReason env s b
  | opened {b : Block} : (s.accountGet b.root).isSome = true → ForkReason env s b
  | displaced {b : StateBlock} {info : AccountInfo} :
      env.validateMessage b.hashables.account ((Block.stateBlock b).hash env) b.signature =
        false →
      s.accountGet b.hashables.account = some info →
      b.hashables.previous ≠ 0 →
      s.blockExists b.hashables.previous = true →
      b.hashables.previous ≠ info.head →
      ForkReason env s (.stateBlock b)

theorem forkReason_of_process {env : Env} {now : Nat} {s' : BlockStore}
    (h : Ledger.process env now s b = .ok (r, s')) (hr : r.code = .fork) :
    s' = s ∧ s.blockExists (b.hash env) = false ∧ ForkReason env s b := by
  have hfresh : s.blockExists (b.hash env) = false := by
    by_contra hexists
    rw [process_old now (Bool.of_not_eq_false hexists)] at h
    obtain rfl := (Prod.mk.inj (Except.ok.inj h)).1
    cases hr
  cases b with
  | sendBlock b =>
    obtain ⟨hstore, hold⟩ := sendBlock_fork env now s b r s' h hr
    exact ⟨hstore, hfresh, .superseded rfl hold⟩
  | receiveBlock b =>
    obtain ⟨hstore, hold⟩ := receiveBlock_fork env now s b r s' h hr
    exact ⟨hstore, hfresh, .superseded rfl hold⟩
  | openBlock b =>
    obtain ⟨hstore, hopened⟩ := openBlock_fork env now s b r s' h hr
    exact ⟨hstore, hfresh, .opened hopened⟩
  | changeBlock b =>
    obtain ⟨hstore, hold⟩ := changeBlock_fork env now s b r s' h hr
    exact ⟨hstore, hfresh, .superseded rfl hold⟩
  | stateBlock b =>
    obtain ⟨hstore, hsig, info, hinfo, hprev⟩ := stateBlock_fork env now s b r s' h hr
    refine ⟨hstore, hfresh, ?_⟩
    by_cases hz : b.hashables.previous = 0
    · refine .opened ?_
      rw [Block.root, if_neg (not_not_intro hz), hinfo]
      rfl
    · obtain ⟨hexists, hne⟩ := hprev.resolve_left hz
      exact .displaced hsig hinfo hz hexists hne

section Competitors

variable {env : Env} {U : Set Block} {s : BlockStore} {L : BlockLattice env U} {b : Block}
  {p : Entry}

theorem Block.root_of_previous (hb : b.previous ≠ 0) : b.root = b.previous := by
  cases b with
  | openBlock b => exact absurd rfl hb
  | stateBlock b => exact if_pos hb
  | _ => rfl

theorem root_of_opening {h : BlockHash} {e : Entry} (he : L.find h = some e)
    (hz : e.previous = 0) : e.block.root = e.account := by
  have hlawful := L.lawful he
  have htype := (L.opening he hz).type
  unfold Entry.Lawful at hlawful
  cases hb : e.block with
  | openBlock b =>
    rw [hb] at hlawful
    exact hlawful.symm
  | stateBlock b =>
    rw [hb] at hlawful
    have hprev : b.hashables.previous = 0 := by
      rw [Entry.previous, hb] at hz
      exact hz
    rw [Block.root, if_neg (not_not_intro hprev)]
    exact hlawful.1.symm
  | _ => simp [hb, Block.type] at htype

theorem exists_opening :
    ∀ (n : Nat) {h : BlockHash} {e : Entry}, L.find h = some e → e.height = n →
      ∃ o, L.find e.openBlock = some o ∧ o.previous = 0 ∧ o.account = e.account := by
  intro n
  induction n with
  | zero =>
    intro h e he hn
    exact absurd hn (Nat.ne_of_gt (L.height_pos he))
  | succ n ih =>
    intro h e he hn
    by_cases hz : e.previous = 0
    · refine ⟨e, ?_, hz, rfl⟩
      rw [(L.opening he hz).openBlock]
      exact L.find_hash he
    · obtain ⟨p, hp, -, hext⟩ := L.exists_previous he hz
      obtain ⟨o, ho, hoz, hacc⟩ := ih hp (by have := hext.height; omega)
      rw [← hext.openBlock] at ho
      exact ⟨o, ho, hoz, hacc.trans hext.account.symm⟩

variable (hR : Refines (fun _ => 0) s L)
include hR

theorem Superseded.exists_child (h : Superseded s b) :
    ∃ p c, L.find b.previous = some p ∧ L.child b.previous = some c := by
  obtain ⟨x, hget, hlegacy⟩ := h.previous
  obtain ⟨p, hp, rfl⟩ := hR.find_of_blockGet hget
  cases hc : L.child b.previous with
  | some c => exact ⟨p, c, hp, rfl⟩
  | none =>
    have hfront := hR.frontiers b.previous
    rw [frontier_of_find _ hp, if_pos ⟨hlegacy, hc⟩] at hfront
    have hzero := h.frontier
    rw [BlockStore.frontierGet, hfront] at hzero
    exact absurd hzero (L.account_ne_zero hp)

theorem blockSource_of_gapSource (H : CollisionFree env U) (M : MarkerFree env U) {now : Nat}
    {s' : BlockStore} (h : Ledger.process env now s b = .ok (r, s')) (hr : r.code = .gapSource) :
    ∃ x, Ledger.blockSource env s b = .ok x := by
  cases b with
  | stateBlock b =>
    unfold Ledger.blockSource Ledger.isSend
    simp only
    by_cases hz : b.hashables.previous = 0
    · simp_all
    · have hexists := (stateBlock_gapSource env now s b r s' h hr).resolve_left hz
      obtain ⟨p, hp⟩ := hR.find_of_exists hexists
      rw [if_pos hz, balance_eq H (hR.reads M) hp]
      exact ⟨_, rfl⟩
  | _ => exact ⟨_, rfl⟩

variable {b : Block} (hfresh : s.blockExists (b.hash env) = false)
include hfresh

theorem forkedBlock_of_child {c : Entry} (H : CollisionFree env U) (hp : L.find b.root = some p)
    (hc : L.child b.root = some c) : Ledger.forkedBlock s env b = .ok c.block := by
  have hroot : Ledger.rootExists s b.root = true := by
    rw [Ledger.rootExists, hR.blockExists_iff, hp]
    rfl
  obtain ⟨hfind, -⟩ := (L.child_eq_some_iff (L.hash_ne_zero H hp) c).mp hc
  unfold Ledger.forkedBlock
  rw [require_of hfresh, ok_bind, require_of hroot, ok_bind, blockSuccessor_of_find hR hp,
    successor_of_child _ hc, hR.blockGet_of_find hfind]
  rfl

theorem forkedBlock_of_account {x o : Entry} (H : CollisionFree env U)
    (hnone : L.find b.root = none) (hx : L.head b.root = some x)
    (ho : L.find x.openBlock = some o) : Ledger.forkedBlock s env b = .ok o.block := by
  obtain ⟨i, hi, hdesc⟩ := hR.account_of_head hx
  have hroot : Ledger.rootExists s b.root = true := by
    rw [Ledger.rootExists, BlockStore.accountGet, hi]
    simp
  have hsuccessor : s.blockSuccessor b.root = 0 := by
    rw [BlockStore.blockSuccessor_eq hR.blocks, raw_of_find_none _ hnone]
    rfl
  unfold Ledger.forkedBlock
  rw [require_of hfresh, ok_bind, require_of hroot, ok_bind, hsuccessor,
    hR.blockGet_of_find_none (L.find_zero H), BlockStore.accountGet, hi]
  simp only [expect_some, ok_bind]
  rw [hdesc.openBlock, hR.blockGet_of_find ho]
  rfl

theorem forkedBlock_fails (H : CollisionFree env U)
    (hp : L.find b.root = some p) (hc : L.child b.root = none) (hx : L.head b.root = none) :
    Ledger.forkedBlock s env b = .error .assertion := by
  have hroot : Ledger.rootExists s b.root = true := by
    rw [Ledger.rootExists, hR.blockExists_iff, hp]
    rfl
  unfold Ledger.forkedBlock
  rw [require_of hfresh, ok_bind, require_of hroot, ok_bind, blockSuccessor_of_find hR hp,
    successor_of_child_none _ hc, hR.blockGet_of_find_none (L.find_zero H),
    BlockStore.accountGet, (hR.account_none_iff _).mpr hx]
  rfl

end Competitors

end Badem
