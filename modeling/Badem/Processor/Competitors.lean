import Badem.Core.BlockProcessor
import Badem.Ledger.Owners
import Badem.Ledger.Replay

/-!
# The ledger without a competitor

When a block takes the place of another one, what the ledger then asks of it can be read off
the ledger before: from the blocks that stay and from the signature.
-/

namespace Badem

open BlockLattice

/-- The stored block `h` opened the account with the number of the root or, if there is none,
follows the stored block with that hash. -/
def StandsAt (s : BlockStore) (root : Uint256) (h : BlockHash) : Prop :=
  match s.accountGet root with
  | some info => h = info.openBlock
  | none => s.blockExists root = true ∧ ∃ c, s.blockGet h = some c ∧ c.previous = root

section Before

variable (env : Env) (s : BlockStore) (h : BlockHash)

/-- The block `k` is stored and does not go with `h`. -/
def Stays (k : BlockHash) : Prop := s.blockExists k = true ∧ ¬ Removed env s h k

/-- Of the blocks that stay, `p` is the last one of the account `a`. -/
def LastStaying (p : BlockHash) (a : Account) : Prop :=
  Stays env s h p ∧ InChain s a p ∧
    ∀ k c, Stays env s h k → s.blockGet k = some c → c.previous ≠ p

/-- All blocks of the account `a` go with `h`. -/
def NoneStaying (a : Account) : Prop := ∀ k, InChain s a k → Removed env s h k

/-- The block `x` stays, sends the amount to the account `a`, and what receives it goes. -/
def WaitsFor (x : BlockHash) (a : Account) (amount : Amount) : Prop :=
  Stays env s h x ∧ SendsTo env s x a ∧ Ledger.amount env s x = .ok amount ∧
    ∀ r, ReceivesFrom env s r x → Removed env s h r

/-- The place and the amounts of a block of the account `a` are right for the blocks that
stay. -/
def FitsStaying (a : Account) : Block → Prop
  | .sendBlock b => ∃ p balance, LastStaying env s h b.hashables.previous a ∧
      s.blockGet b.hashables.previous = some p ∧ p.type ≠ .state ∧
      Ledger.balance env s b.hashables.previous = .ok balance ∧ b.hashables.balance ≤ balance
  | .receiveBlock b => ∃ p amount, LastStaying env s h b.hashables.previous a ∧
      s.blockGet b.hashables.previous = some p ∧ p.type ≠ .state ∧
      WaitsFor env s h b.hashables.source a amount
  | .openBlock b => a = b.hashables.account ∧ NoneStaying env s h a ∧
      ∃ amount, WaitsFor env s h b.hashables.source a amount
  | .changeBlock b => ∃ p, LastStaying env s h b.hashables.previous a ∧
      s.blockGet b.hashables.previous = some p ∧ p.type ≠ .state
  | .stateBlock b => a = b.hashables.account ∧
      ((b.hashables.previous = 0 ∧ NoneStaying env s h a ∧ b.hashables.link ≠ 0 ∧
          WaitsFor env s h b.hashables.link a b.hashables.balance) ∨
        ∃ balance, LastStaying env s h b.hashables.previous a ∧
          Ledger.balance env s b.hashables.previous = .ok balance ∧
          (b.hashables.balance < balance ∨
            b.hashables.link = 0 ∧ b.hashables.balance = balance ∨
            b.hashables.link ≠ 0 ∧ balance ≤ b.hashables.balance ∧
              WaitsFor env s h b.hashables.link a (b.hashables.balance - balance)))

/-- The block has a valid signature of an account and fits the blocks that stay when `h` is
rolled back. -/
def ValidWithout (b : Block) : Prop :=
  ∃ a, a ≠ 0 ∧ env.validateMessage a (b.hash env) b.blockSignature = false ∧
    FitsStaying env s h a b

end Before

section Places

variable {env : Env} {U : Set Block} {s : BlockStore} (H : CollisionFree env U)
variable (hone : ∀ b ∈ U, b.hash env ≠ 1) (hs : Reachable env U s) {root : Uint256}
include H hone hs

theorem exists_of_standsAt {h : BlockHash} (hstands : StandsAt s root h) :
    ∃ x : Block, s.blockGet (x.hash env) = some x ∧ x.hash env = h := by
  obtain ⟨R, hR⟩ := hs.ownersAgree H hone
  have hstored : ∃ x, s.blockGet h = some x := by
    unfold StandsAt at hstands
    cases hi : s.accountGet root with
    | some info =>
      simp only [hi] at hstands
      obtain ⟨v, hv, -⟩ := hR.opened hi
      exact ⟨v.block, by rw [hstands]; exact hR.blockGet_of_some hv⟩
    | none =>
      simp only [hi] at hstands
      obtain ⟨-, c, hc, -⟩ := hstands
      exact ⟨c, hc⟩
  obtain ⟨x, hx⟩ := hstored
  obtain ⟨v, hv, rfl⟩ := hR.exists_of_blockGet hx
  obtain ⟨-, rfl⟩ := hR.known hv
  exact ⟨v.block, hx, rfl⟩

theorem successor_iff (x : Block) : Ledger.successor s root = .ok (some x) ↔
    StandsAt s root (x.hash env) ∧ s.blockGet (x.hash env) = some x := by
  obtain ⟨R, hR⟩ := hs.ownersAgree H hone
  -- a block that is found is the one under its hash
  have hfound : ∀ h, (if h = 0 then (.ok none : Except Fault (Option Block)) else do
      let b ← expect (s.blockGet h)
      pure (some b)) = .ok (some x) ↔ h = x.hash env ∧ s.blockGet (x.hash env) = some x := by
    intro h
    constructor
    · intro hrun
      by_cases hz : h = 0
      · rw [if_pos hz] at hrun
        cases hrun
      rw [if_neg hz] at hrun
      obtain ⟨b, hb, hrun⟩ := ok_of_bind hrun
      cases hrun
      have hget := eq_some_of_expect_eq_ok hb
      obtain ⟨v, hv, rfl⟩ := hR.exists_of_blockGet hget
      obtain ⟨-, rfl⟩ := hR.known hv
      exact ⟨rfl, hget⟩
    · rintro ⟨rfl, hget⟩
      obtain ⟨v, hv, -⟩ := hR.exists_of_blockGet hget
      rw [if_neg (hR.hash_ne_zero H hv), hget]
      rfl
  unfold Ledger.successor StandsAt
  cases hi : s.accountGet root with
  | some info =>
    simp only
    rw [hfound, eq_comm]
  | none =>
    simp only
    rw [hfound]
    constructor
    · rintro ⟨hsucc, hget⟩
      obtain ⟨w, hw, -⟩ := hR.exists_of_blockGet hget
      have hne := hR.hash_ne_zero H hw
      refine ⟨?_, hget⟩
      cases hv : R root with
      | none =>
        rw [BlockStore.blockSuccessor_eq hR.tables, hv] at hsucc
        exact absurd hsucc.symm hne
      | some v =>
        rw [BlockStore.blockExists_eq hR.tables, hv]
        exact ⟨rfl, (hR.blockSuccessor_eq_iff H hv _).mp ⟨hsucc, hne⟩⟩
    · rintro ⟨⟨hexists, hprevious⟩, hget⟩
      rw [BlockStore.blockExists_eq hR.tables] at hexists
      obtain ⟨v, hv⟩ := Option.isSome_iff_exists.mp hexists
      exact ⟨((hR.blockSuccessor_eq_iff H hv _).mpr hprevious).1, hget⟩

end Places

section Lattice

variable {env : Env} {U : Set Block} {s : BlockStore} {L L' : BlockLattice env U} {e : Entry}
variable (H : CollisionFree env U) (M : MarkerFree env U)
variable (hR : Refines (fun _ => 0) s L) (he : L.find e.hash = some e)
variable (hprune : Prunes e L L') (hgone : L'.find e.hash = none)
variable {a : Account} {p x : BlockHash} {amount : Amount}

include H M hR he hprune hgone

theorem stays_iff (k : BlockHash) : Stays env s e.hash k ↔ ∃ y, L'.find k = some y := by
  rw [Stays, hR.blockExists_iff, ← find_pruned_iff H M hR he hprune hgone,
    Option.isSome_iff_exists]

theorem removed_of_find_none {k : BlockHash} {y : Entry} (hy : L.find k = some y)
    (hnone : L'.find k = none) : Removed env s e.hash k := by
  by_contra hstays
  obtain ⟨z, hz⟩ := (stays_iff H M hR he hprune hgone k).mp
    ⟨by rw [hR.blockExists_iff, hy]; rfl, hstays⟩
  simp [hnone] at hz

theorem lastStaying_iff : LastStaying env s e.hash p a ↔
    ∃ y, L'.find p = some y ∧ y.account = a ∧ L'.child p = none := by
  have hstays := stays_iff H M hR he hprune hgone
  constructor
  · rintro ⟨hp, hchain, hlast⟩
    obtain ⟨y, hy⟩ := (hstays p).mp hp
    obtain ⟨z, hz, hacc⟩ := (inChain_iff hR H a p).mp hchain
    cases (hprune.sub hy).symm.trans hz
    refine ⟨y, hy, hacc, (L'.child_eq_none_iff p).mpr ?_⟩
    intro k c hc
    exact hlast k c.block ((hstays k).mpr ⟨c, hc⟩) (hR.blockGet_of_find (hprune.sub hc))
  · rintro ⟨y, hy, hacc, hchild⟩
    refine ⟨(hstays p).mpr ⟨y, hy⟩, (inChain_iff hR H a p).mpr ⟨y, hprune.sub hy, hacc⟩, ?_⟩
    intro k b hk hb
    obtain ⟨c, hc⟩ := (hstays k).mp hk
    rw [hR.blockGet_of_find (hprune.sub hc)] at hb
    cases hb
    exact (L'.child_eq_none_iff p).mp hchild k c hc

theorem noneStaying_iff : NoneStaying env s e.hash a ↔ L'.head a = none := by
  constructor
  · intro hnone
    cases hhead : L'.head a with
    | none => rfl
    | some y =>
      obtain ⟨hy, hacc, -⟩ := (L'.head_eq_some_iff a y).mp hhead
      have hgoes := hnone y.hash ((inChain_iff hR H a _).mpr ⟨y, hprune.sub hy, hacc⟩)
      exact absurd hgoes ((stays_iff H M hR he hprune hgone y.hash).mpr ⟨y, hy⟩).2
  · intro hhead k hk
    obtain ⟨y, hy, hacc⟩ := (inChain_iff hR H a k).mp hk
    refine removed_of_find_none H M hR he hprune hgone hy ?_
    cases hz : L'.find k with
    | none => rfl
    | some z =>
      cases (hprune.sub hz).symm.trans hy
      exact absurd hacc (L'.account_ne_of_head_eq_none H hhead hz)

theorem waitsFor_iff : WaitsFor env s e.hash x a amount ↔
    ∃ q, L'.find x = some q ∧ q.destination = some a ∧ q.amount = amount ∧
      L'.receiver x = none := by
  have hstays := stays_iff H M hR he hprune hgone
  constructor
  · rintro ⟨hx, hsends, hamount, hreceived⟩
    obtain ⟨q, hq⟩ := (hstays x).mp hx
    obtain ⟨z, hz, hdest⟩ := (sendsTo_iff H M hR x a).mp hsends
    cases (hprune.sub hq).symm.trans hz
    rw [amount_eq H (hR.reads M) (hprune.sub hq)] at hamount
    refine ⟨q, hq, hdest, Except.ok.inj hamount, (L'.receiver_eq_none_iff x).mpr ?_⟩
    intro k r hr hsource
    have hne : k ≠ env.genesisHash := by
      rintro rfl
      rw [Entry.source, if_pos (L'.keyed hr)] at hsource
      cases hsource
    have hreceives := (receivesFrom_iff H M hR hne x).mpr ⟨r, hprune.sub hr, hsource⟩
    exact ((hstays k).mpr ⟨r, hr⟩).2 (hreceived k hreceives)
  · rintro ⟨q, hq, hdest, rfl, hreceiver⟩
    refine ⟨(hstays x).mpr ⟨q, hq⟩, (sendsTo_iff H M hR x a).mpr ⟨q, hprune.sub hq, hdest⟩,
      amount_eq H (hR.reads M) (hprune.sub hq), ?_⟩
    intro r hr
    have hne := ne_genesisHash_of_receivesFrom M hR (hprune.sub hq) hr
    obtain ⟨y, hy, hsource⟩ := (receivesFrom_iff H M hR hne x).mp hr
    refine removed_of_find_none H M hR he hprune hgone hy ?_
    cases hz : L'.find r with
    | none => rfl
    | some z =>
      cases (hprune.sub hz).symm.trans hy
      exact absurd hsource ((L'.receiver_eq_none_iff x).mp hreceiver r _ hz)

theorem lastStaying_of_appendable {e' : Entry} (ha : L'.Appendable e') (hne : e'.previous ≠ 0) :
    LastStaying env s e.hash e'.previous e'.account ∧
      Ledger.balance env s e'.previous = .ok e'.previousBalance := by
  obtain ⟨p, hp, hchild, hext⟩ := ha.chain hne
  refine ⟨(lastStaying_iff H M hR he hprune hgone).mpr ⟨p, hp, hext.account.symm, hchild⟩, ?_⟩
  rw [balance_eq H (hR.reads M) (hprune.sub hp), hext.previousBalance]

theorem legacy_of_appendable {e' : Entry} (ha : L'.Appendable e')
    (hopening : e'.block.type ≠ .opening) (hstate : e'.block.type ≠ .state) :
    LastStaying env s e.hash e'.previous e'.account ∧
      Ledger.balance env s e'.previous = .ok e'.previousBalance ∧
      ∃ c, s.blockGet e'.previous = some c ∧ c.type ≠ .state := by
  have hne : e'.previous ≠ 0 := fun hz => (ha.opening hz).1.type.elim hopening hstate
  obtain ⟨hlast, hbalance⟩ := lastStaying_of_appendable H M hR he hprune hgone ha hne
  obtain ⟨p, hp, -, hext⟩ := ha.chain hne
  have hlegacy := hext.legacy ((Block.isLegacy_iff _).mpr hstate)
  exact ⟨hlast, hbalance, p.block, hR.blockGet_of_find (hprune.sub hp),
    (Block.isLegacy_iff _).mp hlegacy⟩

theorem waitsFor_of_appendable {e' : Entry} (ha : L'.Appendable e')
    (hsource : e'.source env = some x) : WaitsFor env s e.hash x e'.account e'.amount := by
  obtain ⟨q, hq, hdest, hamount, hreceiver⟩ := ha.sent hsource
  exact (waitsFor_iff H M hR he hprune hgone).mpr ⟨q, hq, hdest, hamount, hreceiver⟩

theorem fitsStaying_of_appendable {e' : Entry} (ha : L'.Appendable e') :
    FitsStaying env s e.hash e'.account e'.block := by
  have hlawful := ha.lawful
  have hlegacy := legacy_of_appendable H M hR he hprune hgone ha
  have hwaits := fun {x} (hx : e'.source env = some x) =>
    waitsFor_of_appendable H M hR he hprune hgone ha hx
  have hnone := fun hz => (noneStaying_iff H M hR he hprune hgone).mpr (ha.opening hz).2
  have hgen := ha.ne_genesis.symm
  cases hb : e'.block with
  | sendBlock b =>
    obtain ⟨hlast, hbalance, c, hc, htype⟩ := hlegacy (by simp [hb, Block.type])
      (by simp [hb, Block.type])
    rw [Entry.previous_of_block hb] at hlast hbalance hc
    simp only [Entry.Lawful, hb] at hlawful
    exact ⟨c, _, hlast, hc, htype, hbalance, hlawful.2⟩
  | receiveBlock b =>
    obtain ⟨hlast, -, c, hc, htype⟩ := hlegacy (by simp [hb, Block.type])
      (by simp [hb, Block.type])
    rw [Entry.previous_of_block hb] at hlast hc
    exact ⟨c, _, hlast, hc, htype, hwaits (by rw [Entry.source, if_neg hgen, hb])⟩
  | openBlock b =>
    have hprevious : e'.previous = 0 := Entry.previous_of_block hb
    simp only [Entry.Lawful, hb] at hlawful
    exact ⟨hlawful, hnone hprevious, _, hwaits (by rw [Entry.source, if_neg hgen, hb])⟩
  | changeBlock b =>
    obtain ⟨hlast, -, c, hc, htype⟩ := hlegacy (by simp [hb, Block.type])
      (by simp [hb, Block.type])
    rw [Entry.previous_of_block hb] at hlast hc
    exact ⟨c, hlast, hc, htype⟩
  | stateBlock b =>
    have hprevious : e'.previous = b.hashables.previous := Entry.previous_of_block hb
    have hstate := Entry.source_state hb hgen
    simp only [Entry.Lawful, hb] at hlawful
    obtain ⟨hacc, hbal, hkeeps⟩ := hlawful
    refine ⟨hacc, ?_⟩
    by_cases hz : e'.previous = 0
    · obtain ⟨hopens, -⟩ := ha.opening hz
      have hbefore := hopens.previousBalance
      have hsource := hopens.source.resolve_left hgen
      rw [hbefore, if_neg (by simp [BitVec.lt_def])] at hstate
      rw [hstate] at hsource
      by_cases hlink : b.hashables.link = 0
      · simp [hlink] at hsource
      rw [if_neg hlink] at hstate
      have hwait := hwaits hstate
      rw [Entry.amount_of_previousBalance_zero hbefore, hbal] at hwait
      exact .inl ⟨hprevious.symm.trans hz, hnone hz, hlink, hwait⟩
    · obtain ⟨hlast, hbalance⟩ := lastStaying_of_appendable H M hR he hprune hgone ha hz
      rw [hprevious] at hlast hbalance
      refine .inr ⟨_, hlast, hbalance, ?_⟩
      by_cases hlt : b.hashables.balance < e'.previousBalance
      · exact .inl hlt
      have hge : e'.previousBalance ≤ b.hashables.balance := BitVec.not_lt.mp hlt
      rw [if_neg hlt] at hstate
      by_cases hlink : b.hashables.link = 0
      · exact .inr (.inl ⟨hlink, by rw [← hbal]; exact hkeeps hlink (by rw [hbal]; exact hge)⟩)
      rw [if_neg hlink] at hstate
      have hwait := hwaits hstate
      rw [Entry.amount_of_ge (by rw [hbal]; exact hge), hbal] at hwait
      exact .inr (.inr ⟨hlink, hge, hwait⟩)

variable {s' : BlockStore} (hR' : Refines (fun _ => 0) s' L') {t : Nat}
variable (ht : ∀ {h y}, L'.find h = some y → y.time < t)

theorem exists_legacy_last (hlast : LastStaying env s e.hash p a) {c : Block}
    (hc : s.blockGet p = some c) (htype : c.type ≠ .state) :
    ∃ y, L'.find p = some y ∧ y.account = a ∧ L'.child p = none ∧ y.block.isLegacy = true := by
  obtain ⟨y, hy, hacc, hchild⟩ := (lastStaying_iff H M hR he hprune hgone).mp hlast
  rw [hR.blockGet_of_find (hprune.sub hy)] at hc
  cases hc
  exact ⟨y, hy, hacc, hchild, (Block.isLegacy_iff _).mpr htype⟩

include hR' ht in
theorem extendable_of_validWithout {b : Block} (hb : b ∈ U) (hfresh : L'.find (b.hash env) = none)
    (hvalid : ValidWithout env s e.hash b) : Extendable L' b t := by
  obtain ⟨a, ha, hsig, hfits⟩ := hvalid
  have hbalanceOf : ∀ {k y}, L'.find k = some y → Ledger.balance env s k = .ok y.balance :=
    fun hy => balance_eq H (hR.reads M) (hprune.sub hy)
  cases b with
  | sendBlock b =>
    obtain ⟨c, balance, hlast, hc, htype, hbalance, hle⟩ := hfits
    obtain ⟨y, hy, rfl, hchild, hlegacy⟩ :=
      exists_legacy_last H M hR he hprune hgone hlast hc htype
    cases hbalance.symm.trans (hbalanceOf hy)
    exact extendable_send H ht hb hfresh hy hchild hlegacy hle hsig
  | receiveBlock b =>
    obtain ⟨c, amount, hlast, hc, htype, hwaits⟩ := hfits
    obtain ⟨y, hy, rfl, hchild, hlegacy⟩ :=
      exists_legacy_last H M hR he hprune hgone hlast hc htype
    obtain ⟨q, hq, hdest, -, hreceiver⟩ := (waitsFor_iff H M hR he hprune hgone).mp hwaits
    exact extendable_receive H ht hR' hb hfresh hy hchild hlegacy hq hdest hreceiver hsig
  | openBlock b =>
    obtain ⟨rfl, hnone, amount, hwaits⟩ := hfits
    obtain ⟨q, hq, hdest, -, hreceiver⟩ := (waitsFor_iff H M hR he hprune hgone).mp hwaits
    exact extendable_open ht hb hfresh ha ((noneStaying_iff H M hR he hprune hgone).mp hnone) hq
      hdest hreceiver hsig
  | changeBlock b =>
    obtain ⟨c, hlast, hc, htype⟩ := hfits
    obtain ⟨y, hy, rfl, hchild, hlegacy⟩ :=
      exists_legacy_last H M hR he hprune hgone hlast hc htype
    exact extendable_change H ht hb hfresh hy hchild hlegacy hsig
  | stateBlock b =>
    obtain ⟨rfl, ⟨hz, hnone, hlink, hwaits⟩ | ⟨balance, hlast, hbalance, hmoves⟩⟩ := hfits
    · obtain ⟨q, hq, hdest, hamount, hreceiver⟩ :=
        (waitsFor_iff H M hR he hprune hgone).mp hwaits
      exact extendable_state_starting ht hb hfresh ha hz
        ((noneStaying_iff H M hR he hprune hgone).mp hnone) hlink hq hdest hamount hreceiver hsig
    · obtain ⟨y, hy, hacc, hchild⟩ := (lastStaying_iff H M hR he hprune hgone).mp hlast
      cases hbalance.symm.trans (hbalanceOf hy)
      refine extendable_state_extending H ht hb hfresh hy hchild hacc ?_ ?_ hsig
      · intro hzero hlt
        rcases hmoves with hlt' | ⟨-, hsame⟩ | ⟨hlink, -, -⟩
        · exact absurd hlt' hlt
        · exact hsame
        · exact absurd hzero hlink
      · intro hlink hlt
        rcases hmoves with hlt' | ⟨hzero, -⟩ | ⟨-, -, hwaits⟩
        · exact absurd hlt' hlt
        · exact absurd hzero hlink
        · exact (waitsFor_iff H M hR he hprune hgone).mp hwaits

theorem validWithout_of_extendable {b : Block} (hb : Extendable L' b t) :
    ValidWithout env s e.hash b := by
  obtain ⟨e', rfl, -, ha, hsig⟩ := hb
  refine ⟨e'.account, ha.account_ne_zero, ?_, fitsStaying_of_appendable H M hR he hprune hgone ha⟩
  rw [ha.hashed]
  exact hsig

end Lattice

end Badem
