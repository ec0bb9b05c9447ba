import Badem.Ledger.Chains

/-!
# Sends and receives

Every stored send is either pending or received by exactly one stored block, in both cases
with its own amount.
-/

namespace Badem

open Mdb BlockLattice

variable {env : Env} {U : Set Block} {s : BlockStore}

/-- The stored block `h` sends to the account `d`. -/
def SendsTo (env : Env) (s : BlockStore) (h : BlockHash) (d : Account) : Prop :=
  ∃ b, s.blockGet h = some b ∧
    match b with
    | .sendBlock b => d = b.hashables.destination
    | .stateBlock b => Ledger.isSend env s b = .ok true ∧ d = b.hashables.link
    | _ => False

/-- The stored block `r` names `x` as the block it receives from. -/
def ReceivesFrom (env : Env) (s : BlockStore) (r x : BlockHash) : Prop :=
  ∃ b, s.blockGet r = some b ∧
    match b with
    | .receiveBlock b => x = b.hashables.source
    | .openBlock b => x = b.hashables.source
    | .stateBlock b =>
      Ledger.isSend env s b = .ok false ∧ b.hashables.link ≠ 0 ∧ x = b.hashables.link
    | _ => False

def ChangesBalance (env : Env) (s : BlockStore) (h : BlockHash) (before after : Amount) : Prop :=
  ∃ b, s.blockGet h = some b ∧ Ledger.balance env s b.previous = .ok before ∧
    Ledger.balance env s h = .ok after

def IsPending (env : Env) (s : BlockStore) (h : BlockHash) (a d : Account) (x : Amount) : Prop :=
  (∀ d' i, s.pendingGet ⟨d', h⟩ = some i ↔ d' = d ∧ i = ⟨a, x⟩) ∧ ∀ r, ¬ ReceivesFrom env s r h

/-- Exactly one block receives the send `h` to `d` over `x`, and it is not pending. -/
def IsReceived (env : Env) (s : BlockStore) (h : BlockHash) (d : Account) (x : Amount) : Prop :=
  (∀ d', s.pendingGet ⟨d', h⟩ = none) ∧
    ∃ r before after, ReceivesFrom env s r h ∧ (∀ r', ReceivesFrom env s r' h → r' = r) ∧
      InChain s d r ∧ ChangesBalance env s r before after ∧
      before.toNat + x.toNat = after.toNat

/-- No send is lost and none is received twice. -/
structure TransfersPaired (env : Env) (s : BlockStore) : Prop where
  sent : ∀ {h d}, SendsTo env s h d →
    ∃ a x before after, InChain s a h ∧ ChangesBalance env s h before after ∧
      after.toNat + x.toNat = before.toNat ∧
      (IsPending env s h a d x ∨ IsReceived env s h d x)
  pending : ∀ {k i}, s.pendingGet k = some i → SendsTo env s k.hash k.account
  received : ∀ {r x}, r ≠ env.genesisHash → ReceivesFrom env s r x → ∃ d, SendsTo env s x d

section Entries

variable (H : CollisionFree env U) (M : MarkerFree env U)
variable {L : BlockLattice env U} (hR : Refines (fun _ => 0) s L)
variable {h : BlockHash} {e : Entry} (he : L.find h = some e) {r : BlockHash} {d : Account}

include H M hR he in
theorem changesBalance_of_find : ChangesBalance env s h e.previousBalance e.balance :=
  ⟨e.block, hR.blockGet_of_find he, balance_previous_eq H (hR.reads M) he,
    balance_eq H (hR.reads M) he⟩

include H M hR he in
theorem isSend_eq {b : StateBlock} (hb : e.block = .stateBlock b) :
    Ledger.isSend env s b = .ok (decide (b.hashables.balance < e.previousBalance)) := by
  have hprev : b.hashables.previous = e.previous := (Entry.previous_of_block hb).symm
  have hbal := balance_previous_eq H (hR.reads M) he
  unfold Ledger.isSend
  rw [hprev]
  by_cases hz : e.previous = 0
  · rw [if_neg (not_not_intro hz), (L.opening he hz).previousBalance]
    simp
  · simp_all

include H M hR in
theorem sendsTo_iff (h : BlockHash) (d : Account) :
    SendsTo env s h d ↔ ∃ e, L.find h = some e ∧ e.destination = some d := by
  constructor
  · rintro ⟨b, hb, hdest⟩
    obtain ⟨e, he, rfl⟩ := hR.find_of_blockGet hb
    refine ⟨e, he, ?_⟩
    cases hb : e.block with
    | sendBlock b =>
      rw [hb] at hdest
      rw [Entry.destination, hb, hdest]
    | stateBlock b =>
      rw [hb] at hdest
      obtain ⟨hsend, rfl⟩ := hdest
      rw [isSend_eq H M hR he hb] at hsend
      simp only [Entry.destination, hb]
      rw [if_pos (of_decide_eq_true (Except.ok.inj hsend))]
    | _ => rw [hb] at hdest; exact hdest.elim
  · rintro ⟨e, he, hdest⟩
    refine ⟨e.block, hR.blockGet_of_find he, ?_⟩
    cases hb : e.block with
    | sendBlock b =>
      rw [Entry.destination, hb] at hdest
      exact (Option.some.inj hdest).symm
    | stateBlock b =>
      simp only [Entry.destination, hb] at hdest
      split_ifs at hdest with hlt
      have hsend := isSend_eq H M hR he hb
      rw [decide_eq_true hlt] at hsend
      exact ⟨hsend, (Option.some.inj hdest).symm⟩
    | _ => rw [Entry.destination, hb] at hdest; exact absurd hdest (by simp)

include H M hR in
theorem receivesFrom_iff (hne : r ≠ env.genesisHash) (x : BlockHash) :
    ReceivesFrom env s r x ↔ ∃ e, L.find r = some e ∧ e.source env = some x := by
  constructor
  · rintro ⟨b, hb, hsource⟩
    obtain ⟨e, he, rfl⟩ := hR.find_of_blockGet hb
    refine ⟨e, he, ?_⟩
    rw [Entry.source, if_neg (by rw [L.keyed he]; exact hne)]
    cases hb : e.block with
    | receiveBlock b => rw [hb] at hsource; rw [hsource]
    | openBlock b => rw [hb] at hsource; rw [hsource]
    | stateBlock b =>
      rw [hb] at hsource
      obtain ⟨hsend, hlink, rfl⟩ := hsource
      rw [isSend_eq H M hR he hb] at hsend
      simp only
      rw [if_neg (of_decide_eq_false (Except.ok.inj hsend)), if_neg hlink]
    | _ => rw [hb] at hsource; exact hsource.elim
  · rintro ⟨e, he, hsource⟩
    refine ⟨e.block, hR.blockGet_of_find he, ?_⟩
    rw [Entry.source, if_neg (by rw [L.keyed he]; exact hne)] at hsource
    cases hb : e.block with
    | stateBlock b =>
      simp only [hb] at hsource
      split_ifs at hsource with hlt hlink
      have hsend := isSend_eq H M hR he hb
      rw [decide_eq_false hlt] at hsend
      exact ⟨hsend, hlink, (Option.some.inj hsource).symm⟩
    | sendBlock b => rw [hb] at hsource; exact absurd hsource (by simp)
    | changeBlock b => rw [hb] at hsource; exact absurd hsource (by simp)
    | _ => rw [hb] at hsource; exact (Option.some.inj hsource).symm

include M hR he in
theorem ne_genesisHash_of_receivesFrom (hr : ReceivesFrom env s r h) : r ≠ env.genesisHash := by
  rintro rfl
  obtain ⟨b, hb, hsource⟩ := hr
  rw [hR.blockGet_of_find L.genesis] at hb
  cases hb
  have hhash : h = env.genesisAccount := hsource
  exact M.ne_genesisAccount _ (L.known he) ((L.hashed he).trans hhash)

include H M hR in
theorem isReceived_of_receiver (he : L.find e.hash = some e) (hdest : e.destination = some d)
    {r : Entry} (hr : L.receiver e.hash = some r) : IsReceived env s e.hash d e.amount := by
  obtain ⟨hfind, hsource⟩ := (L.receiver_eq_some_iff _ _).mp hr
  obtain ⟨q, hq, -, hqdest, hamount⟩ := L.exists_source hfind hsource
  cases he.symm.trans hq
  cases hdest.symm.trans hqdest
  have hne : r.hash ≠ env.genesisHash := by
    intro hgen
    simp [Entry.source, hgen] at hsource
  refine ⟨?_, r.hash, r.previousBalance, r.balance, ?_, ?_,
    (inChain_iff hR H _ _).mpr ⟨r, hfind, rfl⟩, changesBalance_of_find H M hR hfind, ?_⟩
  · intro d'
    rw [BlockStore.pendingGet, hR.pending, pendingInfo_of_find _ he, hr]
    simp
  · exact (receivesFrom_iff H M hR hne _).mpr ⟨r, hfind, hsource⟩
  · intro r' hr'
    obtain ⟨x, hx, hs'⟩ := (receivesFrom_iff H M hR
      (ne_genesisHash_of_receivesFrom M hR he hr') _).mp hr'
    rw [← L.keyed hx, L.no_double_receive hx hfind hs' hsource]
  · rw [hamount]
    exact Entry.previousBalance_add_amount (L.lawful hfind)
      (fun hz => (L.opening hfind hz).previousBalance) hsource

include H M hR in
theorem isPending_of_receiver_none (he : L.find e.hash = some e) (hdest : e.destination = some d)
    (hr : L.receiver e.hash = none) : IsPending env s e.hash e.account d e.amount := by
  constructor
  · intro d' i
    rw [BlockStore.pendingGet, hR.pending, pendingInfo_of_find _ he, hr, hdest]
    simp only [Option.some.injEq, and_true]
    constructor
    · intro hget
      split_ifs at hget with hd
      exact ⟨hd.symm, (Option.some.inj hget).symm⟩
    · rintro ⟨rfl, rfl⟩
      rw [if_pos rfl]
  · intro r hrec
    obtain ⟨x, hx, hs'⟩ := (receivesFrom_iff H M hR
      (ne_genesisHash_of_receivesFrom M hR he hrec) _).mp hrec
    exact (L.receiver_eq_none_iff _).mp hr r x hx hs'

end Entries

/-- Sends and receives are paired in every reachable ledger. -/
theorem transfers_paired (H : CollisionFree env U) (M : MarkerFree env U) (hs : Reachable env U s) :
    TransfersPaired env s := by
  obtain ⟨L, hR⟩ := hs.refines H M
  refine ⟨?_, ?_, ?_⟩
  · intro h d hsend
    obtain ⟨e, he, hdest⟩ := (sendsTo_iff H M hR h d).mp hsend
    obtain rfl := L.keyed he
    refine ⟨e.account, e.amount, e.previousBalance, e.balance,
      (inChain_iff hR H _ _).mpr ⟨e, he, rfl⟩, changesBalance_of_find H M hR he,
      Entry.balance_add_amount (L.lawful he) hdest, ?_⟩
    cases hr : L.receiver e.hash with
    | none => exact Or.inl (isPending_of_receiver_none H M hR he hdest hr)
    | some r => exact Or.inr (isReceived_of_receiver H M hR he hdest hr)
  · intro k i hget
    obtain ⟨e, he, hdest, -⟩ := hR.exists_of_pending hget
    exact (sendsTo_iff H M hR _ _).mpr ⟨e, he, hdest⟩
  · intro r x hne hrec
    obtain ⟨e, he, hsource⟩ := (receivesFrom_iff H M hR hne x).mp hrec
    obtain ⟨q, hq, -, hdest, -⟩ := L.exists_source he hsource
    exact ⟨e.account, (sendsTo_iff H M hR _ _).mpr ⟨q, hq, hdest⟩⟩

theorem transfers_paired_plain :
    ∃ s, Reachable plainEnv plainSet s ∧
      s.pendingGet ⟨plainEnv.genesisAccount, 6⟩ = some ⟨77, 4⟩ ∧ TransfersPaired plainEnv s := by
  obtain ⟨s, -, hreach, -, -, hpending⟩ := plain_ledger
  exact ⟨s, hreach, hpending, transfers_paired plain_collisionFree plain_markerFree hreach⟩

theorem TransfersPaired.inChain_source (h : TransfersPaired env s) {k : PendingKey}
    {i : PendingInfo} (hi : s.pendingGet k = some i) : InChain s i.source k.hash := by
  obtain ⟨a, x, -, -, hchain, -, -, hcases⟩ := h.sent (h.pending hi)
  rcases hcases with ⟨hpending, -⟩ | ⟨hnone, -⟩
  · obtain ⟨-, rfl⟩ := (hpending k.account i).mp hi
    exact hchain
  · simp [hnone k.account] at hi

/-- Either marker hash spoils a pending entry when a receiving block is taken back: the hash 1
its source, the genesis account number its amount. -/
theorem transfers_spoiled :
    (CollisionFree oneEnv oneSet ∧ (∀ b ∈ oneSet, b.hash oneEnv ≠ oneEnv.genesisAccount) ∧
      ∃ s, Reachable oneEnv oneSet s ∧ ¬ TransfersPaired oneEnv s) ∧
    CollisionFree changeEnv changeSet ∧ (∀ b ∈ changeSet, b.hash changeEnv ≠ 1) ∧
      ∃ s t, Reachable changeEnv changeSet s ∧ ¬ TransfersPaired changeEnv s ∧
        ledgerOf changeEnv (remaining changeEnv s changeBlocks) = .ok t ∧
        changeAmount s = some (genesisAmount - 10) ∧ changeAmount t = some 10 := by
  refine ⟨⟨one_collisionFree, one_ne_genesisAccount, ?_⟩, change_collisionFree, change_ne_one, ?_⟩
  · obtain ⟨s₀, hs₀, s, hs, hsource, hwalk, -⟩ := one_evaluated.2.2.2
    refine ⟨s, one_reachable hs₀ hs, ?_⟩
    intro h
    obtain ⟨i, hi, hi'⟩ := Option.map_eq_some_iff.mp hsource
    obtain ⟨l, hl, hmem⟩ := Option.map_eq_some_iff.mp hwalk
    have hchain := h.inChain_source hi
    rw [hi'] at hchain
    exact not_inChain_of_walkDown hl (by simpa using hmem) hchain
  · obtain ⟨s₀, hs₀, s, hs, hamount, hblock, hbefore, hafter, t, ht, hamount'⟩ :=
      change_evaluated.2.2.2
    refine ⟨s, t, change_reachable hs₀ hs, ?_, ht, hamount, hamount'⟩
    intro h
    obtain ⟨-, x, before, after, -, ⟨b, hb, hbal, hbal'⟩, hsum, -⟩ :=
      h.sent (h := 2) ⟨changeSend, hblock, rfl⟩
    cases hblock.symm.trans hb
    cases hafter.symm.trans hbal'
    cases hbefore.symm.trans hbal
    have hpos : (0 : Amount).toNat < (genesisAmount - 10).toNat := by decide
    omega

end Badem
