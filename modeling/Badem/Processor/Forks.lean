import Badem.Refinement.ProcessRefusals
import Badem.Refinement.ProcessWaits

/-!
# Reported forks

`forked_block` finds the block that has taken the place of the refused one.  The state block
handler also reports a fork for a head of another account, which nothing competes with.
-/

namespace Badem

open BlockLattice

/-- The account a block names as its own. -/
def Block.ownAccount : Block → Option Account
  | .openBlock b => some b.hashables.account
  | .stateBlock b => some b.hashables.account
  | _ => none

def AccountFree (env : Env) (U : Set Block) : Prop :=
  ∀ b ∈ U, ∀ c ∈ U, c.ownAccount ≠ some (b.hash env)

/-- If a block is refused as a fork, the block in its place is found. -/
def ForkFound (env : Env) (s : BlockStore) (b : Block) : Prop :=
  ∀ now r s', Ledger.process env now s b = .ok (r, s') → r.code = .fork →
    ∃ x, Ledger.forkedBlock s' env b = .ok x ∧ s'.blockGet (x.hash env) = some x ∧
      x ≠ b ∧ x.root = b.root

/-- A new state block of an open account, with a valid signature, on top of the chain of
another account. -/
structure ForeignHead (env : Env) (s : BlockStore) (b : StateBlock) : Prop where
  fresh : s.blockExists ((Block.stateBlock b).hash env) = false
  signature :
    env.validateMessage b.hashables.account ((Block.stateBlock b).hash env) b.signature = false
  opened : (s.accountGet b.hashables.account).isSome = true
  head : ∃ a info, a ≠ b.hashables.account ∧ s.accountGet a = some info ∧
    info.head = b.hashables.previous

section Forks

variable {env : Env} {U : Set Block} {s : BlockStore} {L : BlockLattice env U} {h : BlockHash}
  {e x : Entry} {a : Account} {b : StateBlock}

theorem AccountFree.markerFree (H : CollisionFree env U) (A : AccountFree env U)
    (hone : ∀ b ∈ U, b.hash env ≠ 1) : MarkerFree env U where
  ne_one := hone
  ne_genesisAccount := fun b hb h => A b hb _ H.genesis (congrArg some h.symm)

theorem ownAccount_of_opening (he : L.find h = some e)
    (hz : e.previous = 0) : e.block.ownAccount = some e.account := by
  have hlawful := L.lawful he
  have htype := (L.opening he hz).type
  unfold Entry.Lawful at hlawful
  cases hb : e.block with
  | openBlock b =>
    rw [hb] at hlawful
    exact congrArg some hlawful.symm
  | stateBlock b =>
    rw [hb] at hlawful
    exact congrArg some hlawful.1.symm
  | _ => simp [hb, Block.type] at htype

theorem exists_opening_of_head (hx : L.head a = some x) :
    ∃ o, L.find x.openBlock = some o ∧ o.previous = 0 ∧ o.account = a := by
  obtain ⟨hfind, rfl, -⟩ := (L.head_eq_some_iff a x).mp hx
  exact exists_opening x.height hfind rfl

theorem AccountFree.find_eq_none (A : AccountFree env U)
    (hx : L.head a = some x) : L.find a = none := by
  obtain ⟨o, ho, hz, rfl⟩ := exists_opening_of_head hx
  cases hp : L.find o.account with
  | none => rfl
  | some p =>
    refine absurd (ownAccount_of_opening ho hz) ?_
    rw [← L.hashed hp]
    exact A _ (L.known hp) _ (L.known ho)

theorem competes {b : Block} (hR : Refines (fun _ => 0) s L)
    (hfresh : s.blockExists (b.hash env) = false) (he : L.find h = some e)
    (hroot : e.block.root = b.root) :
    s.blockGet (e.block.hash env) = some e.block ∧ e.block ≠ b ∧ e.block.root = b.root := by
  refine ⟨?_, ?_, hroot⟩
  · rw [L.hashed he]
    exact hR.blockGet_of_find he
  · rintro rfl
    simp [L.hashed he, hR.blockExists_iff, he] at hfresh

variable (H : CollisionFree env U) (A : AccountFree env U) (hR : Refines (fun _ => 0) s L)
include H A hR

theorem exists_competitor {b : Block} (hfresh : s.blockExists (b.hash env) = false)
    (hreason : ForkReason env s b) (hown : ∀ c, b = .stateBlock c → ¬ ForeignHead env s c) :
    ∃ x, Ledger.forkedBlock s env b = .ok x ∧ s.blockGet (x.hash env) = some x ∧ x ≠ b ∧
      x.root = b.root := by
  have hchild : ∀ {p c : Entry}, L.find b.root = some p → L.child b.root = some c →
      ∃ x, Ledger.forkedBlock s env b = .ok x ∧ s.blockGet (x.hash env) = some x ∧ x ≠ b ∧
        x.root = b.root := by
    intro p c hp hc
    have hne := L.hash_ne_zero H hp
    obtain ⟨hfind, hprev⟩ := (L.child_eq_some_iff hne c).mp hc
    have hroot : c.block.root = b.root := by
      rw [Block.root_of_previous (fun hz => hne (hprev.symm.trans hz))]
      exact hprev
    exact ⟨c.block, forkedBlock_of_child hR hfresh H hp hc, competes hR hfresh hfind hroot⟩
  cases hreason with
  | superseded hroot hold =>
    obtain ⟨p, c, hp, hc⟩ := hold.exists_child hR
    rw [← hroot] at hp hc
    exact hchild hp hc
  | opened hacc =>
    obtain ⟨i, hi⟩ := Option.isSome_iff_exists.mp hacc
    obtain ⟨x, hx, -⟩ := hR.head_of_account hi
    obtain ⟨o, ho, hz, hoacc⟩ := exists_opening_of_head hx
    exact ⟨o.block, forkedBlock_of_account hR hfresh H (A.find_eq_none hx) hx ho,
      competes hR hfresh ho ((root_of_opening ho hz).trans hoacc)⟩
  | @displaced c info hsig hinfo hz hexists hne =>
    obtain ⟨p, hp⟩ := hR.find_of_exists hexists
    have hroot : (Block.stateBlock c).root = c.hashables.previous := if_pos hz
    cases hc : L.child c.hashables.previous with
    | some d =>
      rw [← hroot] at hp hc
      exact hchild hp hc
    | none =>
      -- the previous block is a head, of this account or of another one
      have hhead : L.head p.account = some p := by
        rw [head_eq_some_iff, L.keyed hp]
        exact ⟨hp, rfl, hc⟩
      obtain ⟨i, hi, hdesc⟩ := hR.account_of_head hhead
      refine absurd ⟨hfresh, hsig, by rw [hinfo]; rfl, p.account, i, ?_, hi, ?_⟩
        (hown c rfl)
      · rintro hacc
        rw [hacc] at hi
        cases hinfo.symm.trans hi
        exact hne ((L.keyed hp).symm.trans hdesc.head.symm)
      · exact hdesc.head.trans (L.keyed hp)

omit A in
theorem ForeignHead.process_fork (h : ForeignHead env s b) (now : Nat) :
    ∃ r, Ledger.process env now s (.stateBlock b) = .ok (r, s) ∧ r.code = .fork := by
  obtain ⟨info, hinfo⟩ := Option.isSome_iff_exists.mp h.opened
  obtain ⟨a, i, hne, hi, hhead⟩ := h.head
  obtain ⟨x, hx, hdesc⟩ := hR.head_of_account hi
  obtain ⟨hfind, hxacc, -⟩ := (L.head_eq_some_iff a x).mp hx
  obtain ⟨y, hy, hdesc'⟩ := hR.head_of_account hinfo
  obtain ⟨hfind', hyacc, -⟩ := (L.head_eq_some_iff _ y).mp hy
  have hprev : b.hashables.previous = x.hash := hhead.symm.trans hdesc.head
  have hz : ¬ b.hashables.previous = 0 := by
    rw [hprev]
    exact L.hash_ne_zero H hfind
  have hexists : ¬ s.blockExists b.hashables.previous = false := by
    rw [hprev, hR.blockExists_iff, hfind]
    simp
  have hother : ¬ b.hashables.previous = info.head := by
    rw [hprev, hdesc'.head]
    intro heq
    rw [heq] at hfind
    cases hfind.symm.trans hfind'
    exact hne (hxacc.symm.trans hyacc)
  have hzero : b.hashables.account ≠ 0 := by
    rw [← hyacc]
    exact L.account_ne_zero hfind'
  refine ⟨_, stateBlock_of_position now (Bool.eq_false_iff.mp h.fresh) h.signature hzero
    (by rw [hinfo, LedgerProcessor.statePosition, if_neg hz, if_neg hexists, if_neg hother])
    (if_neg (by rintro ⟨hc, -⟩; exact absurd hc (by decide))) (by decide), rfl⟩

theorem ForeignHead.forkedBlock_fails (h : ForeignHead env s b) :
    Ledger.forkedBlock s env (.stateBlock b) = .error .assertion := by
  obtain ⟨a, i, -, hi, hhead⟩ := h.head
  obtain ⟨x, hx, hdesc⟩ := hR.head_of_account hi
  obtain ⟨hfind, -, hchild⟩ := (L.head_eq_some_iff a x).mp hx
  have hprev : b.hashables.previous = x.hash := hhead.symm.trans hdesc.head
  have hroot : (Block.stateBlock b).root = x.hash := by
    rw [Block.root, if_pos (by rw [hprev]; exact L.hash_ne_zero H hfind), hprev]
  refine Badem.forkedBlock_fails hR h.fresh H (p := x) (by rw [hroot]; exact hfind)
    (by rw [hroot]; exact hchild) ?_
  rw [hroot]
  cases hy : L.head x.hash with
  | none => rfl
  | some y => exact absurd (A.find_eq_none hy) (by rw [hfind]; simp)

end Forks

/-- Every reported fork has a competitor, except for the state blocks on top of the chain of
another account. -/
theorem fork_found_iff {env : Env} {U : Set Block} {s : BlockStore} (H : CollisionFree env U)
    (A : AccountFree env U) (hone : ∀ b ∈ U, b.hash env ≠ 1) (hs : Reachable env U s) (b : Block) :
    ForkFound env s b ↔ ∀ c, b = .stateBlock c → ¬ ForeignHead env s c := by
  obtain ⟨L, hR⟩ := hs.refines H (A.markerFree H hone)
  constructor
  · rintro hfound c rfl hforeign
    obtain ⟨r, hr, hcode⟩ := hforeign.process_fork H hR 0
    obtain ⟨x, hx, -⟩ := hfound 0 r s hr hcode
    simp [hforeign.forkedBlock_fails H A hR] at hx
  · intro hown now r s' hprocess hcode
    obtain ⟨rfl, hfresh, hreason⟩ := forkReason_of_process hprocess hcode
    exact exists_competitor H A hR hfresh hreason hown

/-! ## A ledger with two accounts -/

def HashField.value : HashField → Uint256
  | .word256 x => x
  | .word128 x => x.setWidth 256
  | .word64 x => x.setWidth 256

def mixedEnv : Env where
  network := .test
  digest := fun fields => fields.foldl (fun h x => 1000003 * h + x.value) 7
  validateMessage := fun _ _ signature => signature ≠ 0
  checked := false

def mixedSend : Block :=
  .sendBlock ⟨⟨mixedEnv.genesisHash, 77, genesisAmount - 10⟩, 0, 0⟩

def mixedOpen : Block := .openBlock ⟨⟨mixedSend.hash mixedEnv, 99, 77⟩, 0, 0⟩

def mixedRival : Block :=
  .sendBlock ⟨⟨mixedEnv.genesisHash, 88, genesisAmount - 20⟩, 0, 0⟩

def crossState : StateBlock := ⟨⟨77, mixedSend.hash mixedEnv, 99, 10, 0⟩, 0, 0⟩

def mixedSet : Set Block :=
  blockSet mixedEnv [mixedSend, mixedOpen, mixedRival, .stateBlock crossState]

theorem mixed_evaluated :
    DistinctHashes mixedEnv [mixedSend, mixedOpen, mixedRival, .stateBlock crossState] ∧
      (∀ b ∈ [Block.openBlock mixedEnv.genesisOpen, mixedSend, mixedOpen, mixedRival,
          .stateBlock crossState], b.hash mixedEnv ≠ 1 ∧
        ∀ c ∈ [Block.openBlock mixedEnv.genesisOpen, mixedSend, mixedOpen, mixedRival,
          .stateBlock crossState], c.ownAccount ≠ some (b.hash mixedEnv)) ∧
      ∃ s, ledgerOf mixedEnv [mixedSend, mixedOpen] = .ok s ∧
        returns (Ledger.process mixedEnv 0 s mixedRival) (fun x => x.1.code = .fork) = true ∧
        (∃ x, Ledger.process mixedEnv 0 s (.stateBlock crossState) = .ok x ∧
          x.1.code = .fork) ∧
        Ledger.forkedBlock s mixedEnv (.stateBlock crossState) = .error .assertion := by
  decide +kernel

theorem mixed_collisionFree : CollisionFree mixedEnv mixedSet :=
  collisionFree_blockSet mixed_evaluated.1

theorem mixed_accountFree : AccountFree mixedEnv mixedSet :=
  fun b hb => (mixed_evaluated.2.1 b hb).2

theorem mixed_ne_one : ∀ b ∈ mixedSet, b.hash mixedEnv ≠ 1 :=
  fun b hb => (mixed_evaluated.2.1 b hb).1

theorem mixed_reachable {s : BlockStore} (h : ledgerOf mixedEnv [mixedSend, mixedOpen] = .ok s) :
    Reachable mixedEnv mixedSet s :=
  reachable_ledgerOf (by simp [mixedSet, blockSet]) h

theorem fork_found_iff_rival :
    ∃ s, Reachable mixedEnv mixedSet s ∧
      returns (Ledger.process mixedEnv 0 s mixedRival) (fun x => x.1.code = .fork) = true ∧
      ForkFound mixedEnv s mixedRival := by
  obtain ⟨-, -, s, hs, hrival, -⟩ := mixed_evaluated
  have hR := mixed_reachable hs
  refine ⟨s, hR, hrival, (fork_found_iff mixed_collisionFree mixed_accountFree mixed_ne_one hR
    mixedRival).mpr ?_⟩
  intro c hc
  exact absurd hc (by simp [mixedRival])

/-- The state block on top of the chain of another account is reported as a fork, and the
search for its competitor stops at an assertion. -/
theorem fork_without_competitor :
    CollisionFree mixedEnv mixedSet ∧ AccountFree mixedEnv mixedSet ∧
      (∀ b ∈ mixedSet, b.hash mixedEnv ≠ 1) ∧ .stateBlock crossState ∈ mixedSet ∧
      ∃ s, Reachable mixedEnv mixedSet s ∧
        Ledger.forkedBlock s mixedEnv (.stateBlock crossState) = .error .assertion ∧
        ¬ ForkFound mixedEnv s (.stateBlock crossState) := by
  obtain ⟨-, -, s, hs, -, ⟨⟨r, s'⟩, hprocess, hcode⟩, hfails⟩ := mixed_evaluated
  refine ⟨mixed_collisionFree, mixed_accountFree, mixed_ne_one, by simp [mixedSet, blockSet],
    s, mixed_reachable hs, hfails, ?_⟩
  intro hfound
  obtain ⟨rfl, -, -⟩ := forkReason_of_process hprocess hcode
  obtain ⟨x, hx, -⟩ := hfound 0 r s' hprocess hcode
  simp [hfails] at hx

end Badem
