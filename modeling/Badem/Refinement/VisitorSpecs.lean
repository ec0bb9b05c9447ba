import Badem.Core.Visitors
import Badem.Refinement.Refines

/-!
# What the visitors compute

On a store that holds a lattice the visitors recompute the annotations of its entries.  Amounts
and balances are computed from each other along ways to older blocks, with four iterations for
every block that is not newer.
-/

namespace Badem

open Mdb BlockLattice BlockStore

variable {env : Env} {U : Set Block} {s : BlockStore} {L : BlockLattice env U}

/-- The store answers the visitors' lookups as the lattice does. -/
structure Reads (s : BlockStore) (L : BlockLattice env U) : Prop where
  blocks : ∀ {h e}, L.find h = some e → s.blockGet h = some e.block
  infos : ∀ {h e i}, L.find h = some e → e.block.isLegacy = true →
    s.blocksInfo.get h = some i → i.balance = e.balance
  marker : s.blockGet env.genesisAccount = none
  size : L.entries.size ≤ s.blockCount

theorem find_genesisAccount (G : ∀ b ∈ U, b.hash env ≠ env.genesisAccount)
    (L : BlockLattice env U) : L.find env.genesisAccount = none := by
  cases hfind : L.find env.genesisAccount with
  | none => rfl
  | some e => exact absurd (L.hashed hfind) (G _ (L.known hfind))

namespace Reads

variable {s : BlockStore} {L L' : BlockLattice env U}

theorem of_represents
    (G : ∀ b ∈ U, b.hash env ≠ env.genesisAccount) (hsub : L.Sub L')
    (hblocks : BlockTables.Represents s.blockDatabase L'.raw)
    (hcount : s.blockCount = L'.entries.size)
    (hinfos : ∀ b ∈ U, b.isLegacy = true →
      s.blocksInfo.get (b.hash env) = L.checkpoint (b.hash env)) :
    Reads s L where
  blocks := by
    intro h e he
    exact blockGet_of_represents _ hblocks (hsub he)
  infos := by
    intro h e i he hlegacy hi
    have hget := hinfos _ (L.known he) hlegacy
    rw [L.hashed he, hi] at hget
    exact ((L.checkpoint_eq_some_iff he i).mp hget.symm).2.2.symm
  marker := by
    rw [blockGet_eq hblocks, raw_of_find_none _ (find_genesisAccount G L')]
    rfl
  size := by
    rw [hcount]
    exact size_le_of_sub hsub

end Reads

theorem Refines.reads {δ : Account → Uint128} (M : MarkerFree env U) (hR : Refines δ s L) :
    Reads s L :=
  Reads.of_represents M.ne_genesisAccount (Sub.refl L) hR.blocks hR.count hR.infos

section Iterations

variable (env) (s : BlockStore) (fuel : Nat) {current : BlockHash} {b : Block} {v : BalanceVisitor}

theorem amountLoop_stop (hash : BlockHash) (amount : Uint128) :
    amountLoop env s (fuel + 1) hash ⟨0, 0, amount⟩ = .ok ⟨0, 0, amount⟩ := by
  rw [amountLoop]
  simp

theorem amountLoop_visit (hash : BlockHash) (amount : Uint128) (hne : current ≠ 0)
    (hget : s.blockGet current = some b) :
    amountLoop env s (fuel + 1) hash ⟨current, 0, amount⟩ =
      amountLoop env s fuel hash (AmountVisitor.visit env ⟨current, 0, amount⟩ b) := by
  rw [amountLoop]
  simp only [hget]
  rw [if_neg (fun h => hne h.1), if_pos hne]

theorem amountLoop_genesis (amount : Uint128) (hne : env.genesisAccount ≠ 0)
    (hget : s.blockGet env.genesisAccount = none) :
    amountLoop env s (fuel + 1) env.genesisAccount ⟨env.genesisAccount, 0, amount⟩ =
      amountLoop env s fuel env.genesisAccount ⟨0, 0, genesisAmount⟩ := by
  rw [amountLoop]
  simp only [hget]
  rw [if_neg (fun h => hne h.1), if_pos hne, if_pos trivial]

theorem amountLoop_balance (hash : BlockHash) {previous : BlockHash} (amount : Uint128)
    (hne : previous ≠ 0) (hprev : balanceLoop env s fuel ⟨previous, 0, 0⟩ = .ok v) :
    amountLoop env s (fuel + 1) hash ⟨0, previous, amount⟩ =
      amountLoop env s fuel hash
        ⟨0, 0, if amount < v.balance then v.balance - amount else amount - v.balance⟩ := by
  rw [amountLoop]
  simp only
  rw [if_neg (fun h => hne h.2), if_neg (not_not_intro rfl), hprev]
  rfl

theorem balanceLoop_stop (balance : Uint128) :
    balanceLoop env s (fuel + 1) ⟨0, 0, balance⟩ = .ok ⟨0, 0, balance⟩ := by
  rw [balanceLoop]
  simp

theorem balanceLoop_visit (balance : Uint128)
    (hne : current ≠ 0) (hget : s.blockGet current = some b)
    (hvisit : BalanceVisitor.visit env s ⟨current, 0, balance⟩ b = .ok v) :
    balanceLoop env s (fuel + 1) ⟨current, 0, balance⟩ = balanceLoop env s fuel v := by
  rw [balanceLoop]
  simp only
  rw [if_neg (fun h => hne h.1), if_neg (not_not_intro rfl), hget, expect_some]
  simp only [bind, Except.bind, hvisit]

theorem balanceLoop_amount {source : BlockHash} {balance : Uint128} {v : AmountVisitor}
    (hne : source ≠ 0) (hsource : amountLoop env s fuel source ⟨source, 0, 0⟩ = .ok v)
    (hadd : balance.toNat + v.amount.toNat < 2 ^ 128) :
    balanceLoop env s (fuel + 1) ⟨current, source, balance⟩ =
      balanceLoop env s fuel ⟨current, 0, balance + v.amount⟩ := by
  rw [balanceLoop]
  simp only
  rw [if_neg (fun h => hne h.2), if_pos hne, hsource]
  simp only [bind, Except.bind, env.add_of_lt hadd]

end Iterations

def AmountIs (env : Env) (s : BlockStore) (n : Nat) (h : BlockHash) (a : Amount) : Prop :=
  ∀ fuel, n ≤ fuel → ∀ hash amount,
    amountLoop env s fuel hash ⟨h, 0, amount⟩ = .ok ⟨0, 0, a⟩

def BalanceIs (env : Env) (s : BlockStore) (n : Nat) (h : BlockHash) (a : Amount)
    (legacy : Bool) : Prop :=
  ∀ fuel, n ≤ fuel → ∀ sum : Uint128, sum.toNat + a.toNat < 2 ^ 128 →
    (legacy = true ∨ sum = 0) →
    balanceLoop env s fuel ⟨h, 0, sum⟩ = .ok ⟨0, 0, sum + a⟩

namespace Entry

variable {e : Entry}

theorem balance_eq_add (hl : e.Lawful) (hopen : e.previous = 0 → e.previousBalance = 0)
    {x : BlockHash} (hs : e.source env = some x) : e.balance = e.previousBalance + e.amount := by
  have hnat := previousBalance_add_amount hl hopen hs
  apply BitVec.eq_of_toNat_eq
  rw [BitVec.toNat_add, hnat, Nat.mod_eq_of_lt e.balance.isLt]

theorem amount_of_previousBalance_zero (h : e.previousBalance = 0) : e.amount = e.balance := by
  unfold amount
  rw [h, if_neg (by simp [BitVec.lt_def])]
  simp

theorem amount_of_balance_eq (h : e.balance = e.previousBalance) : e.amount = 0 := by
  unfold amount
  rw [h]
  simp

end Entry

section Spec

variable (H : CollisionFree env U) {s : BlockStore} {L : BlockLattice env U}
variable (hs : Reads s L) {e p q : Entry} {n m : Nat} {legacy : Bool} {x h : BlockHash} {a : Amount}
include H hs

theorem amountIs_of_previous {b : Block} (he : L.find e.hash = some e) (hb : e.block = b)
    (hvisit : ∀ v, AmountVisitor.visit env v b = ⟨0, e.previous, e.balance⟩) (hne : e.previous ≠ 0)
    (hext : e.Extends p) (hp : BalanceIs env s n e.previous p.balance legacy) :
    AmountIs env s (n + 3) e.hash e.amount := by
  intro fuel hfuel hash amount
  obtain ⟨f, rfl⟩ : ∃ f, fuel = f + 3 := ⟨fuel - 3, by omega⟩
  have hget := hs.blocks he
  rw [hb] at hget
  rw [amountLoop_visit env s _ hash amount (L.hash_ne_zero H he) hget, hvisit]
  have hbal := hp (f + 1) (by omega) 0 (by simpa using p.balance.isLt) (.inr rfl)
  rw [amountLoop_balance env s _ hash _ hne hbal, amountLoop_stop]
  simp only [zero_add]
  rw [← hext.previousBalance]
  rfl

theorem amountIs_of_source (he : L.find e.hash = some e)
    (hvisit : ∀ amount, AmountVisitor.visit env ⟨e.hash, 0, amount⟩ e.block = ⟨x, 0, amount⟩)
    (hq : AmountIs env s n x q.amount) (hamount : q.amount = e.amount) :
    AmountIs env s (n + 1) e.hash e.amount := by
  intro fuel hfuel hash amount
  obtain ⟨f, rfl⟩ : ∃ f, fuel = f + 1 := ⟨fuel - 1, by omega⟩
  rw [amountLoop_visit env s _ hash amount (L.hash_ne_zero H he) (hs.blocks he), hvisit,
    hq f (by omega), hamount]

theorem amountIs_of_stop (he : L.find e.hash = some e)
    (hvisit : ∀ amount, AmountVisitor.visit env ⟨e.hash, 0, amount⟩ e.block = ⟨0, 0, e.amount⟩) :
    AmountIs env s 2 e.hash e.amount := by
  intro fuel hfuel hash amount
  obtain ⟨f, rfl⟩ : ∃ f, fuel = f + 2 := ⟨fuel - 2, by omega⟩
  rw [amountLoop_visit env s _ hash amount (L.hash_ne_zero H he) (hs.blocks he), hvisit,
    amountLoop_stop]

theorem balanceIs_of_finish (he : L.find e.hash = some e)
    (hvisit : ∀ sum : Uint128, sum.toNat + e.balance.toNat < 2 ^ 128 →
      (legacy = true ∨ sum = 0) →
      BalanceVisitor.visit env s ⟨e.hash, 0, sum⟩ e.block = .ok ⟨0, 0, sum + e.balance⟩) :
    BalanceIs env s 2 e.hash e.balance legacy := by
  intro fuel hfuel sum hsum hlegacy
  obtain ⟨f, rfl⟩ : ∃ f, fuel = f + 2 := ⟨fuel - 2, by omega⟩
  rw [balanceLoop_visit env s _ sum (L.hash_ne_zero H he) (hs.blocks he)
    (hvisit sum hsum hlegacy), balanceLoop_stop]

theorem balanceIs_of_previous (he : L.find e.hash = some e)
    (hvisit : ∀ sum, BalanceVisitor.visit env s ⟨e.hash, 0, sum⟩ e.block = .ok ⟨e.previous, 0, sum⟩)
    (hp : BalanceIs env s n e.previous p.balance true) (hbal : e.balance = p.balance) :
    BalanceIs env s (n + 1) e.hash e.balance true := by
  intro fuel hfuel sum hsum _
  obtain ⟨f, rfl⟩ : ∃ f, fuel = f + 1 := ⟨fuel - 1, by omega⟩
  rw [balanceLoop_visit env s _ sum (L.hash_ne_zero H he) (hs.blocks he) (hvisit sum), hbal]
  exact hp f (by omega) sum (by rw [← hbal]; exact hsum) (.inl rfl)

theorem balanceIs_of_source_previous (he : L.find e.hash = some e) (hx : x ≠ 0)
    (hvisit : ∀ sum, BalanceVisitor.visit env s ⟨e.hash, 0, sum⟩ e.block = .ok ⟨e.previous, x, sum⟩)
    (hq : AmountIs env s n x q.amount) (hp : BalanceIs env s n e.previous p.balance true)
    (hbal : p.balance.toNat + q.amount.toNat = e.balance.toNat) :
    BalanceIs env s (n + 2) e.hash e.balance true := by
  intro fuel hfuel sum hsum _
  obtain ⟨f, rfl⟩ : ∃ f, fuel = f + 2 := ⟨fuel - 2, by omega⟩
  have hadd : sum.toNat + q.amount.toNat < 2 ^ 128 := by omega
  have hsum' : (sum + q.amount).toNat = sum.toNat + q.amount.toNat := by
    rw [BitVec.toNat_add, Nat.mod_eq_of_lt hadd]
  rw [balanceLoop_visit env s _ sum (L.hash_ne_zero H he) (hs.blocks he) (hvisit sum),
    balanceLoop_amount env s _ hx (hq f (by omega) _ _) hadd,
    hp f (by omega) _ (by rw [hsum']; omega) (.inl rfl)]
  congr 2
  apply BitVec.eq_of_toNat_eq
  rw [BitVec.toNat_add, hsum', BitVec.toNat_add, ← hbal]
  congr 1
  omega

theorem balanceIs_of_source (he : L.find e.hash = some e) (hn : 0 < n) (hx : x ≠ 0)
    (hvisit : ∀ sum, BalanceVisitor.visit env s ⟨e.hash, 0, sum⟩ e.block = .ok ⟨0, x, sum⟩)
    (hq : ∀ fuel, n ≤ fuel → amountLoop env s fuel x ⟨x, 0, 0⟩ = .ok ⟨0, 0, e.balance⟩) :
    BalanceIs env s (n + 2) e.hash e.balance true := by
  intro fuel hfuel sum hsum _
  obtain ⟨f, rfl⟩ : ∃ f, fuel = f + 3 := ⟨fuel - 3, by omega⟩
  rw [balanceLoop_visit env s _ sum (L.hash_ne_zero H he) (hs.blocks he) (hvisit sum),
    balanceLoop_amount env s _ hx (hq (f + 1) (by omega)) hsum, balanceLoop_stop]

omit H hs in
theorem AmountIs.mono (ha : AmountIs env s n h a) (hnm : n ≤ m) : AmountIs env s m h a :=
  fun fuel hfuel => ha fuel (by omega)

omit H hs in
theorem BalanceIs.mono
    (hb : BalanceIs env s n h a legacy) (hnm : n ≤ m) : BalanceIs env s m h a legacy :=
  fun fuel hfuel => hb fuel (by omega)

def VisitorsAgree (s : BlockStore) (L : BlockLattice env U) (e : Entry) : Prop :=
  AmountIs env s (4 * L.older e.time) e.hash e.amount ∧
    BalanceIs env s (4 * L.older e.time) e.hash e.balance e.block.isLegacy

theorem visitorsAgree_genesis : VisitorsAgree s L env.genesisEntry := by
  have he : L.find env.genesisEntry.hash = some env.genesisEntry := L.genesis
  have hpos := L.older_pos he
  refine ⟨?_, ?_⟩
  · refine (amountIs_of_stop H hs he ?_).mono (by omega)
    intro amount
    simp [AmountVisitor.visit, Env.genesisEntry, Env.genesisOpen, Entry.amount, BitVec.lt_def]
  · refine (balanceIs_of_source H hs he (n := 2) (by omega) env.genesisAccount_ne_zero
      ?_ ?_).mono (by omega)
    · intro sum
      rfl
    · intro fuel hfuel
      obtain ⟨f, rfl⟩ : ∃ f, fuel = f + 2 := ⟨fuel - 2, by omega⟩
      rw [amountLoop_genesis env s _ _ env.genesisAccount_ne_zero hs.marker, amountLoop_stop]
      rfl

omit H hs in
theorem previous_ne_zero (he : L.find e.hash = some e) (ho : e.block.type ≠ .opening)
    (hst : e.block.type ≠ .state) : e.previous ≠ 0 := by
  intro hp
  rcases (L.opening he hp).type with h | h
  · exact ho h
  · exact hst h

theorem balanceIs_of_info {i : BlockInfo} (he : L.find e.hash = some e)
    (hlegacy : e.block.isLegacy = true) (hi : s.blocksInfo.get e.hash = some i)
    (hvisit : ∀ v : BalanceVisitor, BalanceVisitor.visit env s v e.block = v.finish env i.balance) :
    BalanceIs env s 2 e.hash e.balance true := by
  refine balanceIs_of_finish H hs he ?_
  intro sum hsum _
  rw [hvisit, hs.infos he hlegacy hi, BalanceVisitor.finish, env.add_of_lt hsum]
  rfl

omit H hs in
theorem exists_previous_agree (he : L.find e.hash = some e) (hp : e.previous ≠ 0)
    (ih : ∀ x, L.find x.hash = some x → x.time < e.time → VisitorsAgree s L x) :
    ∃ p, e.Extends p ∧ 4 * L.older p.time + 4 ≤ 4 * L.older e.time ∧
      BalanceIs env s (4 * L.older p.time) e.previous p.balance p.block.isLegacy := by
  obtain ⟨p, hfind, htime, hext⟩ := L.exists_previous he hp
  have holder := L.older_lt_older he htime
  refine ⟨p, hext, by omega, ?_⟩
  have hagree := (ih p (L.find_hash hfind) htime).2
  rwa [L.keyed hfind] at hagree

theorem exists_source_agree (he : L.find e.hash = some e) (hsrc : e.source env = some x)
    (ih : ∀ x, L.find x.hash = some x → x.time < e.time → VisitorsAgree s L x) :
    ∃ q : Entry, x ≠ 0 ∧ x ≠ env.genesisAccount ∧ 0 < L.older q.time ∧
      4 * L.older q.time + 4 ≤ 4 * L.older e.time ∧ q.amount = e.amount ∧
      AmountIs env s (4 * L.older q.time) x q.amount := by
  obtain ⟨q, hfind, htime, -, hamount⟩ := L.exists_source he hsrc
  have holder := L.older_lt_older he htime
  refine ⟨q, L.hash_ne_zero H hfind, ?_, L.older_pos hfind, by omega, hamount, ?_⟩
  · rintro rfl
    have hget := hs.blocks hfind
    simp [hs.marker] at hget
  · have hagree := (ih q (L.find_hash hfind) htime).1
    rwa [L.keyed hfind] at hagree

section Cases

variable {e : Entry} (he : L.find e.hash = some e) (hg : e.hash ≠ env.genesisHash)
variable (ih : ∀ x, L.find x.hash = some x → x.time < e.time → VisitorsAgree s L x)
include he ih

theorem visitorsAgree_send {b : SendBlock} (hb : e.block = .sendBlock b) : VisitorsAgree s L e := by
  have hlawful := L.lawful he
  simp only [Entry.Lawful, hb] at hlawful
  have hp : e.previous ≠ 0 := previous_ne_zero he (by simp [hb, Block.type])
    (by simp [hb, Block.type])
  obtain ⟨p, hext, holder, hprev⟩ := exists_previous_agree he hp ih
  refine ⟨(amountIs_of_previous H hs he hb ?_ hp hext hprev).mono (by omega), ?_⟩
  · intro v
    rw [hlawful.1]
    simp [AmountVisitor.visit, Entry.previous, hb, Block.previous]
  · refine (balanceIs_of_finish H hs he ?_).mono (by omega)
    intro sum hsum _
    rw [hb, hlawful.1]
    rw [hlawful.1] at hsum
    rw [BalanceVisitor.visit, BalanceVisitor.finish, env.add_of_lt hsum]
    rfl

theorem visitorsAgree_change {b : ChangeBlock} (hb : e.block = .changeBlock b) :
    VisitorsAgree s L e := by
  have hlawful := L.lawful he
  simp only [Entry.Lawful, hb] at hlawful
  have hlegacy : e.block.isLegacy = true := by simp [hb, Block.type]
  have hp : e.previous ≠ 0 := previous_ne_zero he (by simp [hb, Block.type])
    (by simp [hb, Block.type])
  obtain ⟨p, hext, holder, hprev⟩ := exists_previous_agree he hp ih
  rw [hext.legacy hlegacy] at hprev
  refine ⟨(amountIs_of_stop H hs he ?_).mono (by omega), ?_⟩
  · intro amount
    rw [hb, Entry.amount_of_balance_eq hlawful]
    rfl
  · rw [hlegacy]
    have hhash : (Block.changeBlock b).hash env = e.hash := by
      rw [← hb]
      exact L.hashed he
    cases hi : s.blocksInfo.get e.hash with
    | some i =>
      refine (balanceIs_of_info H hs he hlegacy hi ?_).mono (by omega)
      intro v
      rw [hb, BalanceVisitor.visit, hhash, blockInfoGet, hi]
    | none =>
      refine (balanceIs_of_previous H hs he ?_ hprev ?_).mono (by omega)
      · intro sum
        rw [hb, BalanceVisitor.visit, hhash, blockInfoGet, hi]
        simp [Entry.previous, hb, Block.previous]
      · rw [hlawful, hext.previousBalance]

include hg in
theorem visitorsAgree_receive {b : ReceiveBlock} (hb : e.block = .receiveBlock b) :
    VisitorsAgree s L e := by
  have hlegacy : e.block.isLegacy = true := by simp [hb, Block.type]
  have hp : e.previous ≠ 0 := previous_ne_zero he (by simp [hb, Block.type])
    (by simp [hb, Block.type])
  have hsrc : e.source env = some b.hashables.source := by
    simp [Entry.source, hg, hb]
  have hnat := Entry.previousBalance_add_amount (L.lawful he) (fun h => absurd h hp) hsrc
  obtain ⟨p, hext, holder, hprev⟩ := exists_previous_agree he hp ih
  obtain ⟨q, hx, -, -, holder', hamount, hq⟩ := exists_source_agree H hs he hsrc ih
  rw [hext.legacy hlegacy] at hprev
  refine ⟨(amountIs_of_source H hs he ?_ hq hamount).mono (by omega), ?_⟩
  · intro amount
    rw [hb]
    rfl
  · rw [hlegacy]
    have hhash : (Block.receiveBlock b).hash env = e.hash := by
      rw [← hb]
      exact L.hashed he
    cases hi : s.blocksInfo.get e.hash with
    | some i =>
      refine (balanceIs_of_info H hs he hlegacy hi ?_).mono (by omega)
      intro v
      rw [hb, BalanceVisitor.visit, hhash, blockInfoGet, hi]
    | none =>
      refine (balanceIs_of_source_previous H hs he hx ?_
        (hq.mono (Nat.le_max_right (4 * L.older p.time) _))
        (hprev.mono (Nat.le_max_left _ _)) ?_).mono (by omega)
      · intro sum
        rw [hb, BalanceVisitor.visit, hhash, blockInfoGet, hi]
        simp [Entry.previous, hb, Block.previous]
      · rw [← hext.previousBalance, hamount]
        exact hnat

include hg in
theorem visitorsAgree_open {b : OpenBlock} (hb : e.block = .openBlock b) : VisitorsAgree s L e := by
  have hlegacy : e.block.isLegacy = true := by simp [hb, Block.type]
  have hsrc : e.source env = some b.hashables.source := by
    simp [Entry.source, hg, hb]
  have hopens := L.opening he (by simp [Entry.previous, hb, Block.previous])
  have hbal := Entry.amount_of_previousBalance_zero hopens.previousBalance
  obtain ⟨q, hx, hmark, hpos, holder, hamount, hq⟩ := exists_source_agree H hs he hsrc ih
  refine ⟨(amountIs_of_source H hs he ?_ hq hamount).mono (by omega), ?_⟩
  · intro amount
    rw [hb, AmountVisitor.visit, if_pos hmark]
  · rw [hlegacy]
    refine (balanceIs_of_source H hs he (n := 4 * L.older q.time) (by omega) hx ?_ ?_).mono
      (by omega)
    · intro sum
      rw [hb]
      rfl
    · intro fuel hfuel
      rw [hq fuel hfuel, hamount, hbal]

theorem visitorsAgree_state {b : StateBlock} (hb : e.block = .stateBlock b) :
    VisitorsAgree s L e := by
  have hlawful := L.lawful he
  simp only [Entry.Lawful, hb] at hlawful
  have hpos := L.older_pos he
  have hstate : e.block.isLegacy = false := by simp [hb, Block.type]
  refine ⟨?_, ?_⟩
  · by_cases hp : e.previous = 0
    · have hopens := L.opening he hp
      refine (amountIs_of_stop H hs he ?_).mono (by omega)
      intro amount
      have hprev : b.hashables.previous = 0 := by
        simpa [Entry.previous, hb, Block.previous] using hp
      rw [hb, Entry.amount_of_previousBalance_zero hopens.previousBalance, hlawful.2.1,
        AmountVisitor.visit, hprev]
    · obtain ⟨p, hext, holder, hprev⟩ := exists_previous_agree he hp ih
      refine (amountIs_of_previous H hs he hb ?_ hp hext hprev).mono (by omega)
      intro v
      rw [hlawful.2.1]
      simp [AmountVisitor.visit, Entry.previous, hb, Block.previous]
  · rw [hstate]
    refine (balanceIs_of_finish H hs he ?_).mono (by omega)
    intro sum _ hzero
    have hsum : sum = 0 := by simpa using hzero
    rw [hb, hlawful.2.1, hsum, zero_add]
    rfl

end Cases

theorem visitorsAgree :
    ∀ (n : Nat) {e : Entry}, L.find e.hash = some e → e.time = n → VisitorsAgree s L e := by
  intro n
  induction n using Nat.strong_induction_on with
  | _ n ih =>
    intro e he hn
    have ih' : ∀ x, L.find x.hash = some x → x.time < e.time → VisitorsAgree s L x :=
      fun x hx htime => ih x.time (by omega) hx rfl
    by_cases hg : e.hash = env.genesisHash
    · have hgen : e = env.genesisEntry := by
        rw [hg] at he
        exact Option.some.inj (he.symm.trans L.genesis)
      rw [hgen]
      exact visitorsAgree_genesis H hs
    · cases hb : e.block with
      | sendBlock b => exact visitorsAgree_send H hs he ih' hb
      | receiveBlock b => exact visitorsAgree_receive H hs he hg ih' hb
      | openBlock b => exact visitorsAgree_open H hs he hg ih' hb
      | changeBlock b => exact visitorsAgree_change H hs he ih' hb
      | stateBlock b => exact visitorsAgree_state H hs he ih' hb

omit H in
theorem visitorFuel_le (t : Nat) : 4 * L.older t ≤ visitorFuel s := by
  have hsize := hs.size
  have holder := L.older_le_size t
  unfold visitorFuel
  omega

theorem balance_eq (he : L.find h = some e) : Ledger.balance env s h = .ok e.balance := by
  have hagree := (visitorsAgree H hs e.time (L.find_hash he) rfl).2
  rw [L.keyed he] at hagree
  rw [Ledger.balance, hagree _ (visitorFuel_le hs _) 0 (by simpa using e.balance.isLt)
    (.inr rfl)]
  simp [bind, Except.bind, pure, Except.pure]

theorem amount_eq (he : L.find h = some e) : Ledger.amount env s h = .ok e.amount := by
  have hagree := (visitorsAgree H hs e.time (L.find_hash he) rfl).1
  rw [L.keyed he] at hagree
  rw [Ledger.amount, hagree _ (visitorFuel_le hs _)]
  rfl

theorem representativeLoop_eq :
    ∀ (n : Nat) {e : Entry}, L.find e.hash = some e → e.time = n →
      ∀ fuel, 4 * L.older e.time ≤ fuel →
        representativeLoop env s fuel e.hash 0 = .ok e.repBlock := by
  intro n
  induction n using Nat.strong_induction_on with
  | _ n ih =>
    intro e he hn fuel hfuel
    have hpos := L.older_pos he
    obtain ⟨f, rfl⟩ : ∃ f, fuel = f + 2 := ⟨fuel - 2, by omega⟩
    have hwalk : e.block.namesRepresentative = false → e.previous ≠ 0 →
        representativeLoop env s (f + 1) e.previous 0 = .ok e.repBlock := by
      intro hnames hp
      obtain ⟨p, hfind, htime, hext⟩ := L.exists_previous he hp
      have holder := L.older_lt_older he htime
      have hrep := hext.repBlock
      rw [if_neg (by simp [hnames])] at hrep
      have hloop := ih p.time (by omega) (L.find_hash hfind) rfl (f + 1) (by omega)
      rwa [L.keyed hfind, ← hrep] at hloop
    have hself : e.block.namesRepresentative = true → e.repBlock = e.hash := by
      intro hnames
      by_cases hp : e.previous = 0
      · exact (L.opening he hp).repBlock
      · obtain ⟨p, -, -, hext⟩ := L.exists_previous he hp
        have hrep := hext.repBlock
        rwa [if_pos hnames] at hrep
    have hdone : e.block.namesRepresentative = true →
        representativeLoop env s (f + 1) e.hash (e.block.hash env) = .ok e.repBlock := by
      intro hnames
      rw [hself hnames, L.hashed he, representativeLoop, if_pos (L.hash_ne_zero H he)]
    rw [representativeLoop, if_neg (not_not_intro rfl), hs.blocks he, expect_some]
    simp only [bind, Except.bind]
    cases hb : e.block with
    | sendBlock b =>
      have hp := previous_ne_zero he (by simp [hb, Block.type]) (by simp [hb, Block.type])
      simpa [Entry.previous, hb, Block.previous] using
        hwalk (by simp [hb, Block.namesRepresentative]) hp
    | receiveBlock b =>
      have hp := previous_ne_zero he (by simp [hb, Block.type]) (by simp [hb, Block.type])
      simpa [Entry.previous, hb, Block.previous] using
        hwalk (by simp [hb, Block.namesRepresentative]) hp
    | _ =>
      rw [hb] at hdone
      exact hdone rfl

theorem representativeCalculated_eq (he : L.find h = some e) :
    Ledger.representativeCalculated env s h = .ok e.repBlock := by
  have hloop := representativeLoop_eq H hs e.time (L.find_hash he) rfl _
    (visitorFuel_le hs _)
  rwa [L.keyed he] at hloop

theorem representative_eq (he : L.find h = some e) :
    Ledger.representative env s h = .ok e.repBlock := by
  obtain ⟨r, hr, -⟩ := L.exists_repBlock_of_find he
  have hexists := blockExists_of_blockGet (hs.blocks hr)
  rw [Ledger.representative, representativeCalculated_eq H hs he]
  simp [bind, Except.bind, hexists, pure, Except.pure]

end Spec

theorem balance_zero (env : Env) (s : BlockStore) : Ledger.balance env s 0 = .ok 0 := by
  have hfuel : visitorFuel s = (4 * s.blockCount + 3) + 1 := by
    unfold visitorFuel
    omega
  rw [Ledger.balance, hfuel, balanceLoop_stop]
  rfl

theorem balance_previous_eq (H : CollisionFree env U) (hs : Reads s L) {h : BlockHash} {e : Entry}
    (he : L.find h = some e) : Ledger.balance env s e.previous = .ok e.previousBalance := by
  by_cases hz : e.previous = 0
  · rw [hz, balance_zero, (L.opening he hz).previousBalance]
  · obtain ⟨p, hp, -, hext⟩ := L.exists_previous he hz
    rw [balance_eq H hs hp, hext.previousBalance]

section Account

variable (H : CollisionFree env U) (M : MarkerFree env U)
variable {δ : Account → Uint128} {s : BlockStore} {L : BlockLattice env U}
variable (hR : Refines δ s L)
include H M hR

theorem accountLoop_eq :
    ∀ (n : Nat) {e : Entry}, L.find e.hash = some e → L.newer e.time = n →
      ∀ fuel, L.newer e.time < fuel →
      ∀ successor, (successor = 1 ∨ successor = e.hash) →
        Ledger.accountLoop s fuel e.hash successor e.block = .ok e.account := by
  intro n
  induction n using Nat.strong_induction_on with
  | _ n ih =>
    intro e he hn fuel hfuel successor hsucc
    have hpos := L.newer_pos he
    have hne := L.hash_ne_zero H he
    have hsucc0 : successor ≠ 0 := by
      rcases hsucc with rfl | rfl
      · decide
      · exact hne
    obtain ⟨f, rfl⟩ : ∃ f, fuel = f + 2 := ⟨fuel - 2, by omega⟩
    rw [Ledger.accountLoop]
    by_cases hstate : e.block.type = .state
    · rw [if_pos (.inr hstate)]
      have hlawful := L.lawful he
      cases hb : e.block with
      | stateBlock b =>
        simp only [Entry.Lawful, hb] at hlawful
        rw [hlawful.1]
        rfl
      | _ => simp [hb, Block.type] at hstate
    · have hlegacy : e.block.isLegacy = true := (Block.isLegacy_iff _).mpr hstate
      have hresult : ∀ succ info, Ledger.accountResult s e.hash succ info e.block =
          if succ = 0 then s.frontierGet e.hash
          else (info.map BlockInfo.account).getD 0 := by
        intro succ info
        cases hb : e.block with
        | stateBlock b => simp [hb, Block.type] at hstate
        | _ => rfl
      rw [if_neg (fun h => h.elim hsucc0 hstate)]
      cases hi : s.blockInfoGet successor with
      | some i =>
        rcases hsucc with rfl | rfl
        · grind [blockInfoGet, hR.sentinel M.ne_one]
        · have hget := hR.infos _ (L.known he) hlegacy
          rw [L.hashed he] at hget
          rw [blockInfoGet, hget, checkpoint, he] at hi
          simp only at hi
          split_ifs at hi
          rw [← Option.some.inj hi]
          simp only
          rw [hresult, if_neg hne]
          rfl
      | none =>
        simp only
        have hsuccessor : s.blockSuccessor e.hash = L.successor e.hash := by
          rw [blockSuccessor_eq hR.blocks, raw_of_find _ he]
          rfl
        rw [hsuccessor]
        cases hc : L.child e.hash with
        | none =>
          rw [successor_of_child_none _ hc, if_neg (not_not_intro rfl),
            Ledger.accountLoop, if_pos (.inl rfl), hresult, if_pos rfl,
            frontierGet, hR.frontiers, frontier_of_find _ he,
            if_pos ⟨hlegacy, hc⟩]
          rfl
        | some c =>
          obtain ⟨hfind, hprev⟩ := (L.child_eq_some_iff hne c).mp hc
          obtain ⟨p, hp, htime, hext⟩ := L.exists_previous hfind (by
            rw [hprev]
            exact hne)
          rw [hprev] at hp
          cases hp.symm.trans he
          have hlt := L.newer_lt_newer he htime
          have hget : s.blockGet c.hash = some c.block :=
            blockGet_of_represents _ hR.blocks hfind
          rw [successor_of_child _ hc, if_pos (L.hash_ne_zero H hfind), hget, deref_some]
          show Ledger.accountLoop s (f + 1) c.hash c.hash c.block = _
          rw [ih _ (by omega) hfind rfl (f + 1) (by omega) _ (.inr rfl), hext.account]

theorem account_eq {h : BlockHash} {e : Entry} (he : L.find h = some e) :
    Ledger.account s h = .ok e.account := by
  have hnewer := L.newer_le_size e.time
  have hcount := hR.count
  have hloop := accountLoop_eq H M hR _ (L.find_hash he) rfl (s.blockCount + 2) (by omega) 1
    (.inl rfl)
  rw [L.keyed he] at hloop
  rw [Ledger.account, blockGet_of_represents _ hR.blocks he, deref_some]
  simp only [bind, Except.bind, hloop, require_of (L.account_ne_zero he), pure, Except.pure]

end Account

end Badem
