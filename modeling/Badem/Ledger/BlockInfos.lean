import Badem.Ledger.Replay

/-!
# Block infos

A block info is due to a legacy block whose position is a multiple of `blockInfoMax`.  Undoing a
state block can give its previous block one that no later call deletes.
-/

namespace Badem

open Mdb BlockLattice

variable {env : Env} {U : Set Block} {s s' : BlockStore}

/-- Balance of an account right after a block, computed from the blocks alone. -/
inductive BalanceAfter (env : Env) (s : BlockStore) : BlockHash → Amount → Prop
  | genesis {b : Block} :
      s.blockGet env.genesisHash = some b →
      BalanceAfter env s env.genesisHash genesisAmount
  | send {h : BlockHash} {b : SendBlock} :
      s.blockGet h = some (.sendBlock b) →
      BalanceAfter env s h b.hashables.balance
  | receive {h : BlockHash} {b : ReceiveBlock} {q : Block} {x y z : Amount} :
      s.blockGet h = some (.receiveBlock b) →
      s.blockGet b.hashables.source = some q →
      BalanceAfter env s b.hashables.previous x →
      BalanceAfter env s q.previous y →
      BalanceAfter env s b.hashables.source z →
      BalanceAfter env s h (x + (y - z))
  | opening {h : BlockHash} {b : OpenBlock} {q : Block} {y z : Amount} :
      s.blockGet h = some (.openBlock b) →
      h ≠ env.genesisHash →
      s.blockGet b.hashables.source = some q →
      BalanceAfter env s q.previous y →
      BalanceAfter env s b.hashables.source z →
      BalanceAfter env s h (y - z)
  | change {h : BlockHash} {b : ChangeBlock} {x : Amount} :
      s.blockGet h = some (.changeBlock b) →
      BalanceAfter env s b.hashables.previous x →
      BalanceAfter env s h x
  | state {h : BlockHash} {b : StateBlock} :
      s.blockGet h = some (.stateBlock b) →
      BalanceAfter env s h b.hashables.balance

/-- The block info `i` is due to the block `h`. -/
structure InfoDue (env : Env) (s : BlockStore) (h : BlockHash) (i : BlockInfo) : Prop where
  legacy : ∃ b, s.blockGet h = some b ∧ b.isLegacy = true
  position : ∃ l, PreviousWalk s h l ∧ l.length % BlockStore.blockInfoMax = 0
  account : InChain s i.account h
  balance : BalanceAfter env s h i.balance

/-- The block infos are those that are due. -/
def InfosRight (env : Env) (s : BlockStore) : Prop :=
  ∀ h i, s.blocksInfo.get h = some i ↔ InfoDue env s h i

section Balance

variable {q : Entry} {d : Account} {h : BlockHash}

theorem Entry.amount_eq_of_destination (hlawful : q.Lawful) (hd : q.destination = some d) :
    q.amount = q.previousBalance - q.balance := by
  have hsum := Entry.balance_add_amount hlawful hd
  apply Entry.amount_of_le
  rw [BitVec.le_def]
  omega

theorem exists_previous_of_destination {L : BlockLattice env U} (hq : L.find h = some q)
    (hd : q.destination = some d) :
    ∃ p, L.find q.previous = some p ∧ p.time < q.time ∧ q.previousBalance = p.balance := by
  have hne : q.previous ≠ 0 := by
    intro hz
    have hopens := L.opening hq hz
    cases hb : q.block with
    | stateBlock b => simp [Entry.destination, hb, hopens.previousBalance] at hd
    | sendBlock b =>
      have htype := hopens.type
      simp [hb, Block.type] at htype
    | _ => simp [Entry.destination, hb] at hd
  obtain ⟨p, hp, htime, hext⟩ := L.exists_previous hq hne
  exact ⟨p, hp, htime, hext.previousBalance⟩

variable {L : BlockLattice env U}

theorem balance_eq_of_source {x : BlockHash} {e p : Entry} (he : L.find h = some e)
    (hs : e.source env = some x) (hq : L.find x = some q) (hp : L.find q.previous = some p) :
    e.balance = e.previousBalance + (p.balance - q.balance) := by
  obtain ⟨q', hq', -, hdest, hamount⟩ := L.exists_source he hs
  cases hq.symm.trans hq'
  obtain ⟨p', hp', -, hprev⟩ := exists_previous_of_destination hq hdest
  cases hp.symm.trans hp'
  have hsum := Entry.previousBalance_add_amount (L.lawful he)
    (fun hz => (L.opening he hz).previousBalance) hs
  rw [← hprev, ← Entry.amount_eq_of_destination (L.lawful hq) hdest, hamount]
  apply BitVec.eq_of_toNat_eq
  rw [BitVec.toNat_add, hsum, Nat.mod_eq_of_lt e.balance.isLt]

theorem find_of_balanceAfter (H : CollisionFree env U) (hR : Refines (fun _ => 0) s L) {x : Amount}
    (hx : BalanceAfter env s h x) : ∃ e, L.find h = some e ∧ e.balance = x := by
  induction hx with
  | genesis _ => exact ⟨env.genesisEntry, L.genesis, rfl⟩
  | @send h b hb =>
    obtain ⟨e, he, hblock⟩ := hR.find_of_blockGet hb
    have hlawful := L.lawful he
    simp only [Entry.Lawful, hblock] at hlawful
    exact ⟨e, he, hlawful.1⟩
  | @receive h b q x y z hb hq _ _ _ ihx ihy ihz =>
    obtain ⟨e, he, hblock⟩ := hR.find_of_blockGet hb
    obtain ⟨p, hp, rfl⟩ := ihx
    obtain ⟨p', hp', rfl⟩ := ihy
    obtain ⟨q', hq', rfl⟩ := ihz
    obtain ⟨q'', hq'', hqblock⟩ := hR.find_of_blockGet hq
    cases hq'.symm.trans hq''
    have hprev : e.previous = b.hashables.previous := Entry.previous_of_block hblock
    rw [← hprev] at hp
    obtain ⟨p'', hp'', -, hext⟩ := L.exists_previous he (fun hz => by
      rw [hz, L.find_zero H] at hp
      exact absurd hp (by simp))
    cases hp.symm.trans hp''
    have hgen : h ≠ env.genesisHash := by
      rintro rfl
      cases he.symm.trans L.genesis
      exact absurd hblock (by simp [Env.genesisEntry])
    have hs : e.source env = some b.hashables.source := by
      rw [Entry.source, L.keyed he, if_neg hgen, hblock]
    refine ⟨e, he, ?_⟩
    rw [balance_eq_of_source he hs hq' (by rw [Entry.previous, hqblock]; exact hp'),
      hext.previousBalance]
  | @opening h b q y z hb hgen hq _ _ ihy ihz =>
    obtain ⟨e, he, hblock⟩ := hR.find_of_blockGet hb
    obtain ⟨p', hp', rfl⟩ := ihy
    obtain ⟨q', hq', rfl⟩ := ihz
    obtain ⟨q'', hq'', hqblock⟩ := hR.find_of_blockGet hq
    cases hq'.symm.trans hq''
    have hs : e.source env = some b.hashables.source := by
      rw [Entry.source, L.keyed he, if_neg hgen, hblock]
    have hopens := L.opening he (by rw [Entry.previous, hblock]; rfl)
    refine ⟨e, he, ?_⟩
    rw [balance_eq_of_source he hs hq' (by rw [Entry.previous, hqblock]; exact hp'),
      hopens.previousBalance, zero_add]
  | @change h b x hb _ ih =>
    obtain ⟨e, he, hblock⟩ := hR.find_of_blockGet hb
    obtain ⟨p, hp, rfl⟩ := ih
    have hprev : e.previous = b.hashables.previous := Entry.previous_of_block hblock
    rw [← hprev] at hp
    obtain ⟨p', hp', -, hext⟩ := L.exists_previous he (fun hz => by
      rw [hz, L.find_zero H] at hp
      exact absurd hp (by simp))
    cases hp.symm.trans hp'
    have hlawful := L.lawful he
    simp only [Entry.Lawful, hblock] at hlawful
    exact ⟨e, he, hlawful.trans hext.previousBalance⟩
  | @state h b hb =>
    obtain ⟨e, he, hblock⟩ := hR.find_of_blockGet hb
    have hlawful := L.lawful he
    simp only [Entry.Lawful, hblock] at hlawful
    exact ⟨e, he, hlawful.2.1⟩

theorem balanceAfter_of_find (hR : Refines (fun _ => 0) s L) :
    ∀ (n : Nat) {h : BlockHash} {e : Entry}, L.find h = some e → e.time = n →
      BalanceAfter env s h e.balance := by
  intro n
  induction n using Nat.strong_induction_on with
  | _ n ih =>
    intro h e he hn
    have hget := hR.blockGet_of_find he
    have hlawful := L.lawful he
    by_cases hgen : h = env.genesisHash
    · subst hgen
      cases he.symm.trans L.genesis
      exact BalanceAfter.genesis hget
    -- the send that a block receives from, with the block before it
    have hsource : ∀ x, e.source env = some x → ∃ q p, L.find x = some q ∧
        L.find q.previous = some p ∧ BalanceAfter env s q.previous p.balance ∧
        BalanceAfter env s x q.balance := by
      intro x hs
      obtain ⟨q, hq, htime, hdest, -⟩ := L.exists_source he hs
      obtain ⟨p, hp, htime', -⟩ := exists_previous_of_destination hq hdest
      exact ⟨q, p, hq, hp, ih _ (by omega) hp rfl, ih _ (by omega) hq rfl⟩
    cases hb : e.block with
    | sendBlock b =>
      rw [hb] at hget
      simp only [Entry.Lawful, hb] at hlawful
      rw [hlawful.1]
      exact BalanceAfter.send hget
    | receiveBlock b =>
      rw [hb] at hget
      have hs : e.source env = some b.hashables.source := by
        rw [Entry.source, L.keyed he, if_neg hgen, hb]
      obtain ⟨q, p, hq, hp, hafterp, hafterq⟩ := hsource _ hs
      obtain ⟨p', hp', htime, hext⟩ := L.exists_previous he (previous_ne_zero (L.find_hash he)
        (by simp [hb, Block.type]) (by simp [hb, Block.type]))
      rw [balance_eq_of_source he hs hq hp, hext.previousBalance]
      have hprev : e.previous = b.hashables.previous := Entry.previous_of_block hb
      rw [hprev] at hp'
      exact BalanceAfter.receive hget (hR.blockGet_of_find hq) (ih _ (by omega) hp' rfl)
        hafterp hafterq
    | openBlock b =>
      rw [hb] at hget
      have hs : e.source env = some b.hashables.source := by
        rw [Entry.source, L.keyed he, if_neg hgen, hb]
      obtain ⟨q, p, hq, hp, hafterp, hafterq⟩ := hsource _ hs
      have hopens := L.opening he (by rw [Entry.previous, hb]; rfl)
      rw [balance_eq_of_source he hs hq hp, hopens.previousBalance, zero_add]
      exact BalanceAfter.opening hget hgen (hR.blockGet_of_find hq) hafterp hafterq
    | changeBlock b =>
      rw [hb] at hget
      obtain ⟨p, hp, htime, hext⟩ := L.exists_previous he (previous_ne_zero (L.find_hash he)
        (by simp [hb, Block.type]) (by simp [hb, Block.type]))
      simp only [Entry.Lawful, hb] at hlawful
      rw [hlawful, hext.previousBalance]
      have hprev : e.previous = b.hashables.previous := Entry.previous_of_block hb
      rw [hprev] at hp
      exact BalanceAfter.change hget (ih _ (by omega) hp rfl)
    | stateBlock b =>
      rw [hb] at hget
      simp only [Entry.Lawful, hb] at hlawful
      rw [hlawful.2.1]
      exact BalanceAfter.state hget

theorem balanceAfter_iff (H : CollisionFree env U) (hR : Refines (fun _ => 0) s L) (h : BlockHash)
    (x : Amount) : BalanceAfter env s h x ↔ ∃ e, L.find h = some e ∧ e.balance = x := by
  constructor
  · exact find_of_balanceAfter H hR
  · rintro ⟨e, he, rfl⟩
    exact balanceAfter_of_find hR _ he rfl

end Balance

section Due

variable {L : BlockLattice env U}

theorem walk_length_eq
    (hR : Refines (fun _ => 0) s L) {h : BlockHash} {e : Entry} {l : List BlockHash}
    (he : L.find h = some e) (hw : PreviousWalk s h l) : l.length = e.height := by
  obtain ⟨l', hw', hlen, -⟩ := exists_walk hR e.height he rfl
  rw [hw.unique hw', hlen]

theorem infoDue_iff
    (H : CollisionFree env U) (hR : Refines (fun _ => 0) s L) (h : BlockHash) (i : BlockInfo) :
    InfoDue env s h i ↔ ∃ e, L.find h = some e ∧ e.block.isLegacy = true ∧
      L.checkpoint h = some i := by
  constructor
  · rintro ⟨⟨b, hb, hlegacy⟩, ⟨l, hw, hlen⟩, hchain, hbal⟩
    obtain ⟨e, he, rfl⟩ := hR.find_of_blockGet hb
    obtain ⟨e', he', hacc⟩ := (inChain_iff hR H _ _).mp hchain
    cases he.symm.trans he'
    obtain ⟨e', he', hbal'⟩ := (balanceAfter_iff H hR _ _).mp hbal
    cases he.symm.trans he'
    rw [walk_length_eq hR he hw] at hlen
    exact ⟨e, he, hlegacy, (L.checkpoint_eq_some_iff he i).mpr ⟨hlen, hacc, hbal'⟩⟩
  · rintro ⟨e, he, hlegacy, hi⟩
    obtain ⟨hheight, hacc, hbal⟩ := (L.checkpoint_eq_some_iff he i).mp hi
    obtain ⟨l, hw, hlen, -⟩ := exists_walk hR e.height he rfl
    exact ⟨⟨e.block, hR.blockGet_of_find he, hlegacy⟩, ⟨l, hw, by rw [hlen]; exact hheight⟩,
      (inChain_iff hR H _ _).mpr ⟨e, he, hacc⟩, (balanceAfter_iff H hR _ _).mpr ⟨e, he, hbal⟩⟩

def Stray (env : Env) (U : Set Block) (s : BlockStore) : Prop :=
  ∃ h, Unlisted env U h ∧ (s.blocksInfo.get h).isSome = true

theorem infosRight_iff (H : CollisionFree env U) (hR : Refines (fun _ => 0) s L) :
    InfosRight env s ↔ ¬ Stray env U s := by
  constructor
  · rintro hright ⟨h, hunlisted, hsome⟩
    obtain ⟨i, hi⟩ := Option.isSome_iff_exists.mp hsome
    obtain ⟨e, he, hlegacy, -⟩ := (infoDue_iff H hR h i).mp ((hright h i).mp hi)
    exact hunlisted _ (L.known he) hlegacy (L.hashed he)
  · intro hstray h i
    rw [infoDue_iff H hR]
    by_cases hlisted : ∃ b ∈ U, b.isLegacy = true ∧ b.hash env = h
    · obtain ⟨b, hb, hlegacy, rfl⟩ := hlisted
      rw [hR.infos b hb hlegacy]
      constructor
      · intro hi
        cases hfind : L.find (b.hash env) with
        | none => simp [checkpoint, hfind] at hi
        | some e =>
          have hsame := H.injective b hb _ (L.known hfind) (L.hashed hfind).symm
          exact ⟨e, rfl, by rw [← Block.isLegacy_eq_of_hashables_eq hsame, hlegacy], hi⟩
      · rintro ⟨e, -, -, hi⟩
        exact hi
    · have hunlisted : Unlisted env U h :=
        fun b hb hlegacy hhash => hlisted ⟨b, hb, hlegacy, hhash⟩
      constructor
      · intro hi
        exact absurd ⟨h, hunlisted, by rw [hi]; rfl⟩ hstray
      · rintro ⟨e, he, hlegacy, -⟩
        exact absurd (L.hashed he) (hunlisted _ (L.known he) hlegacy)

end Due

/-! ## Runs -/

inductive LedgerCall
  | process (now : Nat) (b : Block)
  | rollback (now : Nat) (hash : BlockHash)

namespace LedgerCall

/-- The ledger after a call. -/
def run (env : Env) (s : BlockStore) : LedgerCall → Except Fault BlockStore
  | .process now b => do
      let (_, s) ← Ledger.process env now s b
      pure s
  | .rollback now hash => Ledger.rollback env now s hash

/-- Blocks of `U` are processed and stored blocks other than the genesis block rolled back. -/
def Permitted (env : Env) (U : Set Block) (s : BlockStore) : LedgerCall → Prop
  | .process _ b => b ∈ U
  | .rollback _ hash => s.blockExists hash = true ∧ hash ≠ env.genesisHash

end LedgerCall

/-- Runs from the genesis ledger: the calls, each with the ledger it was made on and the
latest first, and the ledger they lead to. -/
inductive LedgerRun (env : Env) (U : Set Block) :
    List (BlockStore × LedgerCall) → BlockStore → Prop
  | genesis {now : Nat} {s : BlockStore} :
      genesisInitialize env now .empty = .ok s →
      LedgerRun env U [] s
  | call {steps : List (BlockStore × LedgerCall)} {s s' : BlockStore} {c : LedgerCall} :
      LedgerRun env U steps s →
      c.Permitted env U s →
      c.run env s = .ok s' →
      LedgerRun env U ((s, c) :: steps) s'

/-- The call undoes the state block `x`, and the block before `x` is a state block at a
multiple of `blockInfoMax`. -/
inductive Strands (env : Env) (s : BlockStore) : LedgerCall → BlockHash → Prop
  | rollback {now : Nat} {hash x : BlockHash} {b q : StateBlock} {l : List BlockHash} :
      Removed env s hash x →
      s.blockGet x = some (.stateBlock b) →
      s.blockGet b.hashables.previous = some (.stateBlock q) →
      PreviousWalk s b.hashables.previous l →
      l.length % BlockStore.blockInfoMax = 0 →
      Strands env s (.rollback now hash) x

section Runs

variable (H : CollisionFree env U) (M : MarkerFree env U)
variable {L L' : BlockLattice env U}

theorem Refines.Installs.stray_iff {H : CollisionFree env U} {e : Entry} {ha : L.Appendable e}
    (hi : Refines.Installs H s s' ha) : Stray env U s' ↔ Stray env U s := by
  have hsame : ∀ h, Unlisted env U h → s'.blocksInfo.get h = s.blocksInfo.get h := by
    intro h hunlisted
    rw [hi.infos, if_neg]
    rintro ⟨rfl, -, hlegacy⟩
    exact hunlisted _ ha.known hlegacy ha.hashed
  constructor
  · rintro ⟨h, hunlisted, hsome⟩
    exact ⟨h, hunlisted, by rw [← hsame h hunlisted]; exact hsome⟩
  · rintro ⟨h, hunlisted, hsome⟩
    exact ⟨h, hunlisted, by rw [hsame h hunlisted]; exact hsome⟩

include H in
theorem unlisted_of_state {h : BlockHash} {p : Entry} {q : StateBlock} (hp : L.find h = some p)
    (hq : p.block = .stateBlock q) : Unlisted env U h := by
  intro b hb hlegacy hhash
  have hsame := H.injective b hb _ (L.known hp) (hhash.trans (L.hashed hp).symm)
  rw [Block.isLegacy_eq_of_hashables_eq hsame, hq] at hlegacy
  exact absurd hlegacy (by simp [Block.type])

theorem exists_state_of_not_legacy {b : Block} (hb : b.isLegacy ≠ true) :
    ∃ sb, b = .stateBlock sb := by
  cases b with
  | stateBlock sb => exact ⟨sb, rfl⟩
  | _ => exact absurd rfl hb

include H in
theorem leavesInfo_iff
    (hR : Refines (fun _ => 0) s L) {x : Entry} (hx : L.find x.hash = some x) (h : BlockHash) :
    (Unlisted env U h ∧ LeavesInfo x h) ↔
      ∃ b q l, x.block = .stateBlock b ∧ b.hashables.previous = h ∧
        s.blockGet h = some (.stateBlock q) ∧ PreviousWalk s h l ∧
        l.length % BlockStore.blockInfoMax = 0 := by
  constructor
  · rintro ⟨hunlisted, rfl, hne, hheight⟩
    obtain ⟨p, hp, -, hext⟩ := L.exists_previous hx hne
    have hpstate : p.block.isLegacy ≠ true :=
      fun hlegacy => hunlisted _ (L.known hp) hlegacy (L.hashed hp)
    obtain ⟨q, hq⟩ := exists_state_of_not_legacy hpstate
    obtain ⟨b, hb⟩ := exists_state_of_not_legacy (fun hlegacy => hpstate (hext.legacy hlegacy))
    obtain ⟨l, hw, hlen, -⟩ := exists_walk hR p.height hp rfl
    refine ⟨b, q, l, hb, ?_, ?_, hw, ?_⟩
    · rw [Entry.previous, hb]
      rfl
    · rw [hR.blockGet_of_find hp, hq]
    · rw [hlen]
      rwa [hext.height, Nat.add_sub_cancel] at hheight
  · rintro ⟨b, q, l, hb, hprev, hq, hw, hlen⟩
    obtain ⟨p, hp, hpblock⟩ := hR.find_of_blockGet hq
    have hxprev : x.previous = h := by
      rw [Entry.previous, hb]
      exact hprev
    have hne : h ≠ 0 := L.hash_ne_zero H hp
    obtain ⟨p', hp', -, hext⟩ := L.exists_previous hx (by rw [hxprev]; exact hne)
    rw [hxprev] at hp'
    cases hp.symm.trans hp'
    refine ⟨unlisted_of_state H hp hpblock, hxprev, hne, ?_⟩
    rw [walk_length_eq hR hp hw] at hlen
    rwa [hext.height, Nat.add_sub_cancel]

include H M in
theorem Unwinds.stray_iff
    (hR : Refines (fun _ => 0) s L) {e : Entry} (he : L.find e.hash = some e) (now : Nat)
    (hunwinds : Unwinds e s.blocksInfo s'.blocksInfo L L') (hgone : L'.find e.hash = none) :
    Stray env U s' ↔ Stray env U s ∨ ∃ x, Strands env s (.rollback now e.hash) x := by
  constructor
  · rintro ⟨h, hunlisted, hsome⟩
    rcases (hunwinds.leaves h hunlisted).mp hsome with hsome | ⟨x, hx, hnone, hleaves⟩
    · exact .inl ⟨h, hunlisted, hsome⟩
    · obtain ⟨b, q, l, hb, rfl, hq, hw, hlen⟩ := (leavesInfo_iff H hR hx h).mp ⟨hunlisted, hleaves⟩
      have hremoved := removed_of_dependent H M hR he (hunwinds.prunes.removed hx hnone)
      exact .inr ⟨x.hash, .rollback hremoved (by rw [hR.blockGet_of_find hx, hb]) hq hw hlen⟩
  · rintro (⟨h, hunlisted, hsome⟩ | ⟨x, hx⟩)
    · exact ⟨h, hunlisted, (hunwinds.leaves h hunlisted).mpr (.inl hsome)⟩
    · cases hx with
      | @rollback _ _ _ b q l hremoved hb hq hw hlen =>
        obtain ⟨y, hy, hdep⟩ := dependent_of_removed H M hR he hremoved
        obtain rfl := L.keyed hy
        rw [hR.blockGet_of_find hy] at hb
        obtain ⟨hunlisted, hleaves⟩ := (leavesInfo_iff H hR hy _).mpr
          ⟨b, q, l, Option.some.inj hb, rfl, hq, hw, hlen⟩
        exact ⟨_, hunlisted, (hunwinds.leaves _ hunlisted).mpr (.inr ⟨y, hy,
          hdep.find_eq_none H he hunwinds.prunes.sub hgone, hleaves⟩)⟩

include H M in
theorem LedgerRun.stray_iff {steps : List (BlockStore × LedgerCall)}
    (hrun : LedgerRun env U steps s) :
    ∃ L : BlockLattice env U, Refines (fun _ => 0) s L ∧
      (Stray env U s ↔ ∃ t c, (t, c) ∈ steps ∧ ∃ x, Strands env t c x) := by
  induction hrun with
  | @genesis now s hinit =>
    refine ⟨genesisLattice H, genesis_refines H hinit, ?_⟩
    obtain ⟨db, hinit', -⟩ := genesisInitialize_eq H now
    cases hinit'.symm.trans hinit
    constructor
    · rintro ⟨h, -, hsome⟩
      exact absurd hsome (by simp [genesisStore, BlockStore.empty, BlockStore.withBlocks])
    · rintro ⟨t, c, hmem, -⟩
      simp at hmem
  | @call steps s s' c _ hpermitted hcall ih =>
    obtain ⟨L, hR, hstray⟩ := ih
    suffices h : ∃ L' : BlockLattice env U, Refines (fun _ => 0) s' L' ∧
        (Stray env U s' ↔ Stray env U s ∨ ∃ x, Strands env s c x) by
      obtain ⟨L', hR', hstep⟩ := h
      refine ⟨L', hR', ?_⟩
      rw [hstep, hstray]
      constructor
      · rintro (⟨t, d, hmem, hx⟩ | hx)
        · exact ⟨t, d, .tail _ hmem, hx⟩
        · exact ⟨s, c, .head _, hx⟩
      · rintro ⟨t, d, hmem, hx⟩
        rcases List.mem_cons.mp hmem with heq | hmem
        · obtain ⟨rfl, rfl⟩ := Prod.mk.inj heq
          exact .inr hx
        · exact .inl ⟨t, d, hmem, hx⟩
    cases c with
    | process now b =>
      obtain ⟨⟨r, t⟩, hprocess, hpure⟩ := ok_of_bind hcall
      cases hpure
      have hno : ¬ ∃ x, Strands env s (.process now b) x := by
        rintro ⟨x, hx⟩
        cases hx
      rcases process_step_installs H M.ne_genesisAccount now hR hpermitted with
        ⟨r', hr', -⟩ | ⟨r', t', e, ha, -, -, hr', -, hi⟩
      · grind
      · cases hr'.symm.trans hprocess
        refine ⟨L.append H e ha, hR.install H hi, ?_⟩
        rw [hi.stray_iff, or_iff_left hno]
    | rollback now hash =>
      obtain ⟨e, he⟩ := hR.find_of_exists hpermitted.1
      obtain rfl := L.keyed he
      obtain ⟨t, L', hroll, hR', hunwinds, hgone⟩ :=
        rollback_unwinds H M now hR he hpermitted.2
      cases hroll.symm.trans hcall
      exact ⟨L', hR', hunwinds.stray_iff H M hR he now hgone⟩

end Runs

/-- The block infos are right exactly as long as no call has stranded one. -/
theorem infos_right_iff (H : CollisionFree env U) (M : MarkerFree env U)
    {steps : List (BlockStore × LedgerCall)} (hrun : LedgerRun env U steps s) :
    (InfosRight env s ↔ ∀ t c, (t, c) ∈ steps → ∀ x, ¬ Strands env t c x) ∧
      ∀ now h, s.blockExists h = true → h ≠ env.genesisHash →
        ∃ s', Ledger.rollback env now s h = .ok s' := by
  obtain ⟨L, hR, hstray⟩ := hrun.stray_iff H M
  constructor
  · rw [infosRight_iff H hR, hstray]
    constructor
    · intro hno t c hmem x hx
      exact hno ⟨t, c, hmem, x, hx⟩
    · rintro hno ⟨t, c, hmem, x, hx⟩
      exact hno t c hmem x hx
  · intro now h hexists hgen
    obtain ⟨e, he⟩ := hR.find_of_exists hexists
    obtain rfl := L.keyed he
    obtain ⟨s', -, hroll, -⟩ := rollback_spec H M now hR he hgen
    exact ⟨s', hroll⟩

theorem LedgerRun.processAll (blocks : List (Nat × Block)) :
    ∀ {steps : List (BlockStore × LedgerCall)} {s s' : BlockStore}, LedgerRun env U steps s →
      (∀ x ∈ blocks, x.2 ∈ U) → Ledger.processAll env s blocks = .ok s' →
      ∃ steps', LedgerRun env U steps' s' := by
  induction blocks with
  | nil =>
    intro steps s s' hrun _ hs'
    cases hs'
    exact ⟨steps, hrun⟩
  | cons x blocks ih =>
    intro steps s s' hrun hU hs'
    obtain ⟨r, s₁, hstep, -, hrest⟩ := processAll_cons hs'
    have hcall : (LedgerCall.process x.1 x.2).run env s = .ok s₁ := bind_eq_of_ok hstep rfl
    exact ih (hrun.call (c := .process x.1 x.2) (hU x (.head _)) hcall)
      (fun y hy => hU y (.tail _ hy)) hrest

theorem exists_run_rollback {blocks : List Block} {h : BlockHash} (hU : ∀ b ∈ blocks, b ∈ U)
    (hs : ledgerOf env blocks = .ok s) (hexists : s.blockExists h = true)
    (hgen : h ≠ env.genesisHash) (hs' : Ledger.rollback env 0 s h = .ok s') :
    ∃ steps, LedgerRun env U ((s, .rollback 0 h) :: steps) s' := by
  obtain ⟨g, hg, hrun⟩ := ok_of_bind hs
  obtain ⟨steps, hsteps⟩ := LedgerRun.processAll _ (.genesis hg) (fun x hx => by
    obtain ⟨b, hb, rfl⟩ := List.mem_map.mp hx
    exact hU b hb) hrun
  exact ⟨steps, hsteps.call ⟨hexists, hgen⟩ hs'⟩

theorem infos_right_plain :
    ∃ steps s s', LedgerRun plainEnv plainSet ((s, .rollback 0 2) :: steps) s' ∧
      (InfosRight plainEnv s' ↔
        ∀ t c, (t, c) ∈ (s, LedgerCall.rollback 0 2) :: steps → ∀ x, ¬ Strands plainEnv t c x) := by
  obtain ⟨s, hs, hreach, -, hexists, -⟩ := plain_ledger
  obtain ⟨L, hR⟩ := hreach.refines plain_collisionFree plain_markerFree
  obtain ⟨e, he⟩ := hR.find_of_exists hexists
  obtain ⟨s', -, hs', -⟩ := rollback_spec plain_collisionFree plain_markerFree 0 hR
    (L.find_hash he) (by rw [L.keyed he]; decide)
  rw [L.keyed he] at hs'
  obtain ⟨steps, hrun⟩ := exists_run_rollback (U := plainSet)
    (fun b hb => List.mem_cons_of_mem _ hb) hs hexists (by decide) hs'
  exact ⟨steps, s, s', hrun, (infos_right_iff plain_collisionFree plain_markerFree hrun).1⟩

/-! ## A chain of state blocks -/

def statesEnv : Env :=
  signedEnv fun
    | [_, _, _, .word256 representative, _, _] => 1000 + representative
    | _ => 7

def stateChanges : Nat → BlockHash → List Block
  | 0, _ => []
  | n + 1, previous =>
    let b := Block.stateBlock ⟨⟨statesEnv.genesisAccount, previous, BitVec.ofNat 256 (33 - n),
      genesisAmount, 0⟩, 0, 0⟩
    b :: stateChanges n (b.hash statesEnv)

def statesChain : List Block := stateChanges 32 statesEnv.genesisHash

def statesSet : Set Block := blockSet statesEnv statesChain

theorem states_evaluated :
    DistinctHashes statesEnv statesChain ∧
      (∀ b ∈ Block.openBlock statesEnv.genesisOpen :: statesChain,
        b.hash statesEnv ≠ 1 ∧ b.hash statesEnv ≠ statesEnv.genesisAccount) ∧
      ∃ s, ledgerOf statesEnv statesChain = .ok s ∧ s.blockExists 1033 = true ∧
        ∃ s', Ledger.rollback statesEnv 0 s 1033 = .ok s' ∧
          (s'.blocksInfo.get 1032).isSome = true ∧
          (s'.blockGet 1032).map Block.isLegacy = some false := by
  decide +kernel

/-- The state block at position 32 has a block info once the block above it is undone. -/
theorem infos_stranded :
    CollisionFree statesEnv statesSet ∧ MarkerFree statesEnv statesSet ∧
      ∃ steps s, LedgerRun statesEnv statesSet steps s ∧ ¬ InfosRight statesEnv s := by
  obtain ⟨hdistinct, hmarkers, s, hs, hexists, s', hs', hinfo, hstate⟩ := states_evaluated
  obtain ⟨steps, hrun⟩ := exists_run_rollback (U := statesSet)
    (fun b hb => .tail _ hb) hs hexists (by decide) hs'
  refine ⟨collisionFree_blockSet hdistinct, markerFree_blockSet hmarkers, _, s', hrun, ?_⟩
  intro hright
  obtain ⟨i, hi⟩ := Option.isSome_iff_exists.mp hinfo
  obtain ⟨b, hb, hlegacy⟩ := ((hright _ _).mp hi).legacy
  rw [hb, Option.map_some, hlegacy] at hstate
  cases hstate

end Badem
