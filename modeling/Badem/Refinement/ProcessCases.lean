import Badem.Refinement.ProcessAccepts

/-!
# Processing is total

Whatever block arrives, its handler either passes all of its tests, and then the block extends
the lattice, or it returns another code than `progress` and leaves the store alone.
-/

namespace Badem

open Mdb BlockLattice LedgerProcessor BlockStore

variable {env : Env} {U : Set Block}
variable {δ : Account → Uint128} {s : BlockStore} {L : BlockLattice env U}

namespace Refines

section Lookup

variable (hR : Refines δ s L) {h : BlockHash} {k : PendingKey}
include hR

theorem find_of_blockGet {b : Block} (hb : s.blockGet h = some b) :
    ∃ p, L.find h = some p ∧ p.block = b := by
  cases hfind : L.find h with
  | none => simp [hR.blockGet_of_find_none hfind] at hb
  | some p =>
    rw [hR.blockGet_of_find hfind] at hb
    exact ⟨p, rfl, Option.some.inj hb⟩

theorem find_none_of_not_exists (hb : ¬ s.blockExists h = true) : L.find h = none := by
  rw [hR.blockExists_iff] at hb
  simpa using hb

theorem find_of_exists (hb : s.blockExists h = true) : ∃ p, L.find h = some p := by
  rw [hR.blockExists_iff] at hb
  exact Option.isSome_iff_exists.mp hb

theorem exists_of_frontier (hne : s.frontierGet h ≠ 0) :
    ∃ p i, L.find h = some p ∧ p.block.isLegacy = true ∧ L.child h = none ∧
      s.frontierGet h = p.account ∧ s.accounts.get p.account = some i ∧ i.Describes p := by
  unfold frontierGet at hne ⊢
  rw [hR.frontiers] at hne ⊢
  cases hfind : L.find h with
  | none =>
    rw [frontier_of_find_none _ hfind] at hne
    exact absurd rfl hne
  | some p =>
    rw [frontier_of_find _ hfind] at hne ⊢
    split_ifs at hne with hcond
    · have hhead : L.head p.account = some p := by
        rw [head_eq_some_iff]
        refine ⟨L.find_hash hfind, rfl, ?_⟩
        rw [L.keyed hfind]
        exact hcond.2
      obtain ⟨i, hi, hdesc⟩ := hR.account_of_head hhead
      exact ⟨p, i, rfl, hcond.1, hcond.2, by rw [if_pos hcond]; rfl, hi, hdesc⟩
    · exact absurd rfl hne

theorem exists_of_pending {i : PendingInfo} (hi : s.pending.get k = some i) :
    ∃ q, L.find k.hash = some q ∧ q.destination = some k.account ∧
      L.receiver k.hash = none ∧ i = ⟨q.account, q.amount⟩ := by
  rw [hR.pending] at hi
  cases hfind : L.find k.hash with
  | none => simp [pendingInfo_of_find_none _ hfind] at hi
  | some q =>
    rw [pendingInfo_of_find _ hfind] at hi
    split_ifs at hi with hcond
    exact ⟨q, rfl, hcond.1, hcond.2, (Option.some.inj hi).symm⟩

theorem balance_add_pending_lt {a : Account} {i : AccountInfo} {p : PendingInfo}
    (hi : s.accounts.get a = some i) (hp : s.pending.get k = some p) :
    i.balance.toNat + p.amount.toNat < 2 ^ 128 := by
  have hsupply := hR.supply
  have hbal := Table.le_sum_of_get (fun _ i => i.balance.toNat) hi
  have hamount := Table.le_sum_of_get (fun _ p => p.amount.toNat) hp
  rw [genesisAmount_toNat] at hsupply
  omega

end Lookup

end Refines

namespace Entry

def extending (p : Entry) (hash : BlockHash) (b : Block) (balance : Amount) (time : Nat) :
    Entry where
  hash := hash
  block := b
  account := p.account
  previousBalance := p.balance
  balance := balance
  repBlock := if b.namesRepresentative then hash else p.repBlock
  openBlock := p.openBlock
  height := p.height + 1
  time := time

def starting (account : Account) (hash : BlockHash) (b : Block) (balance : Amount)
    (time : Nat) : Entry where
  hash := hash
  block := b
  account := account
  previousBalance := 0
  balance := balance
  repBlock := hash
  openBlock := hash
  height := 1
  time := time

end Entry

section Build

variable {b : Block} (balance : Amount) {t : Nat}

theorem appendable_extending
    (H : CollisionFree env U) (hb : b ∈ U) (hfresh : L.find (b.hash env) = none)
    (ht : ∀ {h x}, L.find h = some x → x.time < t)
    {p : Entry} (hp : L.find b.previous = some p) (hchild : L.child b.previous = none)
    (hlegacy : b.isLegacy = true → p.block.isLegacy = true)
    (hlawful : (p.extending (b.hash env) b balance t).Lawful)
    (hsent : ∀ {x}, (p.extending (b.hash env) b balance t).source env = some x →
      ∃ q, L.find x = some q ∧ q.destination = some p.account ∧
        q.amount = (p.extending (b.hash env) b balance t).amount ∧ L.receiver x = none) :
    L.Appendable (p.extending (b.hash env) b balance t) where
  known := hb
  hashed := rfl
  fresh := hfresh
  account_ne_zero := (L.account_ne_zero hp : p.account ≠ 0)
  lawful := hlawful
  latest := ht
  opening := fun hz => absurd hz (L.hash_ne_zero H hp)
  chain := fun _ => ⟨p, hp, hchild, rfl, rfl, rfl, rfl, rfl, hlegacy⟩
  sent := hsent

theorem appendable_starting (hb : b ∈ U) (hfresh : L.find (b.hash env) = none)
    (ht : ∀ {h x}, L.find h = some x → x.time < t) {a : Account} (ha : a ≠ 0) (hz : b.previous = 0)
    (hhead : L.head a = none) (htype : b.type = .opening ∨ b.type = .state)
    (hlawful : (Entry.starting a (b.hash env) b balance t).Lawful) {x : BlockHash} {q : Entry}
    (hsource : (Entry.starting a (b.hash env) b balance t).source env = some x)
    (hq : L.find x = some q) (hdest : q.destination = some a) (hamount : q.amount = balance)
    (hrec : L.receiver x = none) :
    L.Appendable (Entry.starting a (b.hash env) b balance t) where
  known := hb
  hashed := rfl
  fresh := hfresh
  account_ne_zero := ha
  lawful := hlawful
  latest := ht
  opening := fun _ => ⟨⟨rfl, rfl, rfl, rfl, htype, .inr (by rw [hsource]; rfl)⟩, hhead⟩
  chain := fun hne => absurd hz hne
  sent := by
    intro y hy
    cases hsource.symm.trans hy
    refine ⟨q, hq, hdest, ?_, hrec⟩
    rw [hamount, Entry.amount_of_previousBalance_zero rfl]
    rfl

end Build

def Rejects (s : BlockStore) (x : Except Fault (ProcessReturn × BlockStore)) : Prop :=
  ∃ r, x = .ok (r, s) ∧ r.code ≠ .progress

def Extendable (L : BlockLattice env U) (b : Block) (t : Nat) : Prop :=
  ∃ e, e.block = b ∧ e.time = t ∧ L.Appendable e ∧
    env.validateMessage e.account e.hash b.blockSignature = false

theorem rejects_of_eq {x : Except Fault (ProcessReturn × BlockStore)} {c : ProcessResult}
    (hc : c ≠ .progress) (hx : x = .ok (.ofCode c, s)) : Rejects s x :=
  ⟨_, hx, hc⟩

theorem hash_ne_genesisHash {b : Block} (hfresh : L.find (b.hash env) = none) :
    b.hash env ≠ env.genesisHash := by
  intro h
  have hgen : L.find env.genesisHash = some env.genesisEntry := L.genesis
  simp [← h, hfresh] at hgen

section Extendable

variable (H : CollisionFree env U) {t : Nat} (ht : ∀ {h x}, L.find h = some x → x.time < t)
variable {p q : Entry}
include H ht

theorem extendable_send {b : SendBlock} (hb : Block.sendBlock b ∈ U)
    (hfresh : L.find ((Block.sendBlock b).hash env) = none)
    (hp : L.find b.hashables.previous = some p) (hchild : L.child b.hashables.previous = none)
    (hlegacy : p.block.isLegacy = true) (hle : b.hashables.balance ≤ p.balance)
    (hsig : env.validateMessage p.account ((Block.sendBlock b).hash env) b.signature = false) :
    Extendable L (.sendBlock b) t := by
  refine ⟨_, rfl, rfl, appendable_extending b.hashables.balance H hb hfresh ht hp hchild
    (fun _ => hlegacy) ⟨rfl, hle⟩ ?_, hsig⟩
  intro x hx
  simp [Entry.source, Entry.extending, hash_ne_genesisHash hfresh] at hx

theorem extendable_change {b : ChangeBlock} (hb : Block.changeBlock b ∈ U)
    (hfresh : L.find ((Block.changeBlock b).hash env) = none)
    (hp : L.find b.hashables.previous = some p) (hchild : L.child b.hashables.previous = none)
    (hlegacy : p.block.isLegacy = true)
    (hsig : env.validateMessage p.account ((Block.changeBlock b).hash env) b.signature = false) :
    Extendable L (.changeBlock b) t := by
  refine ⟨_, rfl, rfl, appendable_extending p.balance H hb hfresh ht hp hchild
    (fun _ => hlegacy) rfl ?_, hsig⟩
  intro x hx
  simp [Entry.source, Entry.extending, hash_ne_genesisHash hfresh] at hx

theorem extendable_receive (hR : Refines δ s L) {b : ReceiveBlock} (hb : Block.receiveBlock b ∈ U)
    (hfresh : L.find ((Block.receiveBlock b).hash env) = none)
    (hp : L.find b.hashables.previous = some p) (hchild : L.child b.hashables.previous = none)
    (hlegacy : p.block.isLegacy = true) (hq : L.find b.hashables.source = some q)
    (hdest : q.destination = some p.account) (hrec : L.receiver b.hashables.source = none)
    (hsig : env.validateMessage p.account ((Block.receiveBlock b).hash env) b.signature = false) :
    Extendable L (.receiveBlock b) t := by
  -- the balance and the pending amount are both part of the supply
  have hlt : p.balance.toNat + q.amount.toNat < 2 ^ 128 := by
    obtain ⟨i, hi, hdesc⟩ := hR.account_of_head ((L.head_eq_some_iff _ p).mpr
      ⟨L.find_hash hp, rfl, by rw [L.keyed hp]; exact hchild⟩)
    have hpending : s.pending.get ⟨p.account, b.hashables.source⟩ =
        some ⟨q.account, q.amount⟩ := by
      rw [hR.pending, pendingInfo_of_find _ hq, if_pos ⟨hdest, hrec⟩]
    rw [← hdesc.balance]
    exact hR.balance_add_pending_lt hi hpending
  have hge : p.balance ≤ p.balance + q.amount := by
    rw [BitVec.le_def, BitVec.toNat_add, Nat.mod_eq_of_lt hlt]
    exact Nat.le_add_right _ _
  refine ⟨_, rfl, rfl, appendable_extending (p.balance + q.amount) H hb hfresh ht hp hchild
    (fun _ => hlegacy) hge ?_, hsig⟩
  intro x hx
  obtain rfl : b.hashables.source = x := by
    simpa [Entry.source, Entry.extending, hash_ne_genesisHash hfresh] using hx
  refine ⟨q, hq, hdest, ?_, hrec⟩
  rw [Entry.amount_of_ge (e := p.extending _ _ (p.balance + q.amount) t) hge]
  show q.amount = p.balance + q.amount - p.balance
  ring

omit H in
theorem extendable_open {b : OpenBlock} (hb : Block.openBlock b ∈ U)
    (hfresh : L.find ((Block.openBlock b).hash env) = none) (hburn : b.hashables.account ≠ 0)
    (hhead : L.head b.hashables.account = none) (hq : L.find b.hashables.source = some q)
    (hdest : q.destination = some b.hashables.account)
    (hrec : L.receiver b.hashables.source = none)
    (hsig : env.validateMessage b.hashables.account ((Block.openBlock b).hash env)
      b.signature = false) : Extendable L (.openBlock b) t := by
  refine ⟨_, rfl, rfl, appendable_starting (a := b.hashables.account) q.amount hb hfresh ht hburn
    rfl hhead (.inl rfl) rfl ?_ hq hdest rfl hrec, hsig⟩
  simp [Entry.source, Entry.starting, hash_ne_genesisHash hfresh]

omit H in
theorem extendable_state_starting {b : StateBlock} (hb : Block.stateBlock b ∈ U)
    (hfresh : L.find ((Block.stateBlock b).hash env) = none) (hburn : b.hashables.account ≠ 0)
    (hz : b.hashables.previous = 0) (hhead : L.head b.hashables.account = none)
    (hlink : b.hashables.link ≠ 0) (hq : L.find b.hashables.link = some q)
    (hdest : q.destination = some b.hashables.account) (hamount : q.amount = b.hashables.balance)
    (hrec : L.receiver b.hashables.link = none)
    (hsig : env.validateMessage b.hashables.account ((Block.stateBlock b).hash env)
      b.signature = false) : Extendable L (.stateBlock b) t := by
  refine ⟨_, rfl, rfl, appendable_starting (a := b.hashables.account) b.hashables.balance hb
    hfresh ht hburn hz hhead (.inr rfl) ⟨rfl, rfl, fun hzero => absurd hzero hlink⟩ ?_ hq hdest
    hamount hrec, hsig⟩
  rw [Entry.source_state (b := b) rfl (hash_ne_genesisHash hfresh),
    if_neg (by simp [Entry.starting, BitVec.lt_def]), if_neg hlink]

theorem extendable_state_extending {b : StateBlock} (hb : Block.stateBlock b ∈ U)
    (hfresh : L.find ((Block.stateBlock b).hash env) = none)
    (hp : L.find b.hashables.previous = some p) (hchild : L.child b.hashables.previous = none)
    (hacc : p.account = b.hashables.account)
    (hkeeps : b.hashables.link = 0 → ¬ b.hashables.balance < p.balance →
      b.hashables.balance = p.balance)
    (hreceives : b.hashables.link ≠ 0 → ¬ b.hashables.balance < p.balance →
      ∃ q, L.find b.hashables.link = some q ∧ q.destination = some b.hashables.account ∧
        q.amount = b.hashables.balance - p.balance ∧ L.receiver b.hashables.link = none)
    (hsig : env.validateMessage b.hashables.account ((Block.stateBlock b).hash env)
      b.signature = false) : Extendable L (.stateBlock b) t := by
  refine ⟨_, rfl, rfl, appendable_extending b.hashables.balance H hb hfresh ht hp hchild
    (fun hlegacy => by simp [Block.type] at hlegacy)
    ⟨hacc, rfl, fun hzero hge => hkeeps hzero (BitVec.not_lt.mpr hge)⟩ ?_, ?_⟩
  · intro x hx
    rw [Entry.source_state (b := b) rfl (hash_ne_genesisHash hfresh)] at hx
    split_ifs at hx with hlt hzero
    cases hx
    obtain ⟨q, hq, hdest, hamount, hrec⟩ := hreceives hzero hlt
    refine ⟨q, hq, by rw [hacc]; exact hdest, hamount.trans ?_, hrec⟩
    exact (Entry.amount_of_ge (e := p.extending _ _ b.hashables.balance t)
      (BitVec.not_lt.mp hlt)).symm
  · show env.validateMessage p.account _ _ = false
    rw [hacc]
    exact hsig

end Extendable

section Handlers

variable (H : CollisionFree env U) (now : Nat) (hR : Refines δ s L)
variable {t : Nat} (ht : ∀ {h x}, L.find h = some x → x.time < t) {b : StateBlock} {amount : Amount}
  {isSend : Bool}
include H hR ht

theorem sendBlock_cases {b : SendBlock} (hb : Block.sendBlock b ∈ U) :
    Rejects s (sendBlock env now s b) ∨ Extendable L (.sendBlock b) t := by
  unfold sendBlock
  by_cases hexists : s.blockExists ((Block.sendBlock b).hash env) = true
  · exact .inl (rejects_of_eq (by decide) (if_pos hexists))
  have hfresh := hR.find_none_of_not_exists hexists
  simp only [if_neg hexists]
  cases hget : s.blockGet b.hashables.previous with
  | none => exact .inl (rejects_of_eq (c := .gapPrevious) (by decide) rfl)
  | some previous =>
    simp only
    by_cases hvalid : (Block.sendBlock b).validPredecessor previous = false
    · exact .inl (rejects_of_eq (by decide) (if_pos hvalid))
    rw [if_neg hvalid]
    by_cases hfront : s.frontierGet b.hashables.previous = 0
    · exact .inl (rejects_of_eq (by decide) (if_pos hfront))
    rw [if_neg hfront]
    obtain ⟨p, i, hp, hlegacy, hchild, hacc, hi, hdesc⟩ := hR.exists_of_frontier hfront
    rw [hacc]
    by_cases hsig : env.validateMessage p.account ((Block.sendBlock b).hash env)
        b.signature = true
    · exact .inl (rejects_of_eq (by decide) (if_pos hsig))
    rw [if_neg hsig, accountGet, hi, expect_some, ok_bind,
      require_of (by rw [hdesc.head, L.keyed hp]), ok_bind]
    by_cases hneg : i.balance < b.hashables.balance
    · exact .inl (rejects_of_eq (by decide) (if_pos hneg))
    rw [hdesc.balance] at hneg
    exact .inr (extendable_send H ht hb hfresh hp hchild hlegacy (BitVec.not_lt.mp hneg)
      (Bool.eq_false_iff.mpr hsig))

theorem changeBlock_cases {b : ChangeBlock} (hb : Block.changeBlock b ∈ U) :
    Rejects s (changeBlock env now s b) ∨ Extendable L (.changeBlock b) t := by
  unfold changeBlock
  by_cases hexists : s.blockExists ((Block.changeBlock b).hash env) = true
  · exact .inl (rejects_of_eq (by decide) (if_pos hexists))
  have hfresh := hR.find_none_of_not_exists hexists
  simp only [if_neg hexists]
  cases hget : s.blockGet b.hashables.previous with
  | none => exact .inl (rejects_of_eq (c := .gapPrevious) (by decide) rfl)
  | some previous =>
    simp only
    by_cases hvalid : (Block.changeBlock b).validPredecessor previous = false
    · exact .inl (rejects_of_eq (by decide) (if_pos hvalid))
    rw [if_neg hvalid]
    by_cases hfront : s.frontierGet b.hashables.previous = 0
    · exact .inl (rejects_of_eq (by decide) (if_pos hfront))
    rw [if_neg hfront]
    obtain ⟨p, i, hp, hlegacy, hchild, hacc, hi, hdesc⟩ := hR.exists_of_frontier hfront
    rw [hacc, accountGet, hi, expect_some, ok_bind,
      require_of (by rw [hdesc.head, L.keyed hp]), ok_bind]
    by_cases hsig : env.validateMessage p.account ((Block.changeBlock b).hash env)
        b.signature = true
    · exact .inl (rejects_of_eq (by decide) (if_pos hsig))
    exact .inr (extendable_change H ht hb hfresh hp hchild hlegacy (Bool.eq_false_iff.mpr hsig))

theorem receiveBlock_cases {b : ReceiveBlock} (hb : Block.receiveBlock b ∈ U) :
    Rejects s (receiveBlock env now s b) ∨
      Extendable L (.receiveBlock b) t := by
  unfold receiveBlock
  by_cases hexists : s.blockExists ((Block.receiveBlock b).hash env) = true
  · exact .inl (rejects_of_eq (by decide) (if_pos hexists))
  have hfresh := hR.find_none_of_not_exists hexists
  simp only [if_neg hexists]
  cases hget : s.blockGet b.hashables.previous with
  | none => exact .inl (rejects_of_eq (c := .gapPrevious) (by decide) rfl)
  | some previous =>
    simp only
    by_cases hvalid : (Block.receiveBlock b).validPredecessor previous = false
    · exact .inl (rejects_of_eq (by decide) (if_pos hvalid))
    rw [if_neg hvalid]
    by_cases hsource : s.blockExists b.hashables.source = false
    · exact .inl (rejects_of_eq (by decide) (if_pos hsource))
    rw [if_neg hsource]
    by_cases hfront : s.frontierGet b.hashables.previous = 0
    · rw [if_pos hfront]
      refine .inl (rejects_of_eq ?_ rfl)
      split_ifs <;> decide
    rw [if_neg hfront]
    obtain ⟨p, i, hp, hlegacy, hchild, hacc, hi, hdesc⟩ := hR.exists_of_frontier hfront
    rw [hacc]
    by_cases hsig : env.validateMessage p.account ((Block.receiveBlock b).hash env)
        b.signature = true
    · exact .inl (rejects_of_eq (by decide) (if_pos hsig))
    rw [if_neg hsig, accountGet, hi, Option.getD_some,
      if_neg (not_not_intro (by rw [hdesc.head, L.keyed hp])), pendingGet]
    cases hpend : s.pending.get ⟨p.account, b.hashables.source⟩ with
    | none => exact .inl (rejects_of_eq (c := .unreceivable) (by decide) rfl)
    | some pending =>
      obtain ⟨q, hq, hdest, hrec, -⟩ := hR.exists_of_pending hpend
      exact .inr (extendable_receive H ht hR hb hfresh hp hchild hlegacy hq hdest hrec
        (Bool.eq_false_iff.mpr hsig))

omit H in
theorem openBlock_cases {b : OpenBlock} (hb : Block.openBlock b ∈ U) :
    Rejects s (openBlock env now s b) ∨ Extendable L (.openBlock b) t := by
  unfold openBlock
  by_cases hexists : s.blockExists ((Block.openBlock b).hash env) = true
  · exact .inl (rejects_of_eq (by decide) (if_pos hexists))
  have hfresh := hR.find_none_of_not_exists hexists
  simp only [if_neg hexists]
  by_cases hsource : s.blockExists b.hashables.source = false
  · exact .inl (rejects_of_eq (by decide) (if_pos hsource))
  rw [if_neg hsource]
  by_cases hsig : env.validateMessage b.hashables.account ((Block.openBlock b).hash env)
      b.signature = true
  · exact .inl (rejects_of_eq (by decide) (if_pos hsig))
  rw [if_neg hsig]
  cases hacc : s.accounts.get b.hashables.account with
  | some i =>
    rw [accountGet, hacc]
    exact .inl (rejects_of_eq (c := .fork) (by decide) rfl)
  | none =>
    rw [accountGet, hacc, pendingGet]
    cases hpend : s.pending.get ⟨b.hashables.account, b.hashables.source⟩ with
    | none => exact .inl (rejects_of_eq (c := .unreceivable) (by decide) rfl)
    | some pending =>
      by_cases hburn : b.hashables.account = burnAccount
      · exact .inl (rejects_of_eq (by decide) (if_pos hburn))
      obtain ⟨q, hq, hdest, hrec, -⟩ := hR.exists_of_pending hpend
      exact .inr (extendable_open ht hb hfresh hburn ((hR.account_none_iff _).mp hacc) hq hdest
        hrec (Bool.eq_false_iff.mpr hsig))

omit H ht in
theorem exists_of_stateLink (hlink : b.hashables.link ≠ 0)
    (hcode : stateLink s b amount = .progress) :
    ∃ q, L.find b.hashables.link = some q ∧ q.destination = some b.hashables.account ∧
      q.amount = amount ∧ L.receiver b.hashables.link = none := by
  unfold stateLink at hcode
  rw [if_pos hlink] at hcode
  split_ifs at hcode with hexists
  rw [pendingGet] at hcode
  cases hpend : s.pending.get ⟨b.hashables.account, b.hashables.link⟩ with
  | none => simp [hpend] at hcode
  | some pending =>
    rw [hpend] at hcode
    simp only at hcode
    split_ifs at hcode with hamount
    obtain ⟨q, hq, hdest, hrec, hinfo⟩ := hR.exists_of_pending hpend
    refine ⟨q, hq, hdest, ?_, hrec⟩
    rw [hamount, hinfo]

omit H hR ht in
theorem amount_eq_zero_of_stateLink (hlink : b.hashables.link = 0)
    (hcode : stateLink s b amount = .progress) : amount = 0 := by
  unfold stateLink at hcode
  rw [if_neg (not_not_intro hlink)] at hcode
  split_ifs at hcode with hamount
  exact hamount

omit H hR ht in
theorem statePosition_progress {found : Option AccountInfo}
    (hpos : statePosition s b found = (.progress, amount, isSend)) :
    (∃ info, found = some info ∧ b.hashables.previous = info.head ∧
        isSend = decide (b.hashables.balance < info.balance) ∧
        amount = if isSend = true then info.balance - b.hashables.balance
          else b.hashables.balance - info.balance) ∨
      (found = none ∧ b.hashables.previous = 0 ∧ b.hashables.link ≠ 0 ∧
        isSend = false ∧ amount = b.hashables.balance) := by
  cases found with
  | some info =>
    simp only [statePosition] at hpos
    split_ifs at hpos with h₁ h₂ h₃
    all_goals
      simp only [Prod.mk.injEq, reduceCtorEq, false_and] at hpos
    all_goals
      refine .inl ⟨info, rfl, by assumption, hpos.2.2.symm, ?_⟩
      simp_all
  | none =>
    simp only [statePosition] at hpos
    split_ifs at hpos with h₁ h₂
    · simp at hpos
    · simp at hpos
    · simp_all

omit H hR ht in
theorem stateCode_progress {code : ProcessResult}
    (hcode : (if code = .progress ∧ isSend = false then stateLink s b amount
      else code) = .progress) :
    code = .progress ∧
      (isSend = false → stateLink s b amount = .progress) := by
  split_ifs at hcode with hcond
  · exact ⟨hcond.1, fun _ => hcode⟩
  · exact ⟨hcode, fun hsend => absurd ⟨hcode, hsend⟩ hcond⟩

theorem stateBlock_extendable (hb : Block.stateBlock b ∈ U)
    (hfresh : L.find ((Block.stateBlock b).hash env) = none)
    (hsig : ¬ env.validateMessage b.hashables.account ((Block.stateBlock b).hash env)
      b.signature = true)
    (hacc : b.hashables.account ≠ 0)
    (hpos : statePosition s b (s.accounts.get b.hashables.account) =
      (.progress, amount, isSend))
    (hlink : isSend = false → stateLink s b amount = .progress) :
    Extendable L (.stateBlock b) t := by
  rcases statePosition_progress hpos with
    ⟨i, hi, hprev, hsend, hamount⟩ | ⟨hi, hprev, hne, hsend, hamount⟩
  · obtain ⟨p, hhead, hdesc⟩ := hR.head_of_account hi
    obtain ⟨hfind, hpacc, hchild⟩ := (L.head_eq_some_iff _ p).mp hhead
    rw [hdesc.head] at hprev
    rw [hdesc.balance] at hsend hamount
    have hp : L.find (Block.stateBlock b).previous = some p := by
      show L.find b.hashables.previous = some p
      rw [hprev]
      exact hfind
    have hnot : ¬ b.hashables.balance < p.balance → isSend = false := by
      intro hlt
      rw [hsend]
      exact decide_eq_false hlt
    have hnone : L.child b.hashables.previous = none := by
      rw [hprev]
      exact hchild
    refine extendable_state_extending H ht hb hfresh hp hnone hpacc ?_ ?_
      (Bool.eq_false_iff.mpr hsig)
    · intro hzero hlt
      have hz := amount_eq_zero_of_stateLink hzero (hlink (hnot hlt))
      rw [hamount, hnot hlt] at hz
      exact sub_eq_zero.mp hz
    · intro hne hlt
      obtain ⟨q, hq, hdest, hqamount, hrec⟩ := exists_of_stateLink hR hne (hlink (hnot hlt))
      rw [hamount, hnot hlt] at hqamount
      exact ⟨q, hq, hdest, hqamount, hrec⟩
  · obtain ⟨q, hq, hdest, hqamount, hrec⟩ := exists_of_stateLink hR hne (hlink hsend)
    exact extendable_state_starting ht hb hfresh hacc hprev ((hR.account_none_iff _).mp hi) hne hq
      hdest (hqamount.trans hamount) hrec (Bool.eq_false_iff.mpr hsig)

theorem stateBlock_cases (hb : Block.stateBlock b ∈ U) :
    Rejects s (stateBlock env now s b) ∨ Extendable L (.stateBlock b) t := by
  unfold stateBlock
  by_cases hexists : s.blockExists ((Block.stateBlock b).hash env) = true
  · exact .inl (rejects_of_eq (by decide) (if_pos hexists))
  have hfresh := hR.find_none_of_not_exists hexists
  simp only [if_neg hexists]
  by_cases hsig : env.validateMessage b.hashables.account ((Block.stateBlock b).hash env)
      b.signature = true
  · exact .inl (rejects_of_eq (by decide) (if_pos hsig))
  rw [if_neg hsig]
  by_cases hacc : b.hashables.account = 0
  · exact .inl (rejects_of_eq (by decide) (if_pos hacc))
  rw [if_neg hacc, accountGet]
  rcases hpos : statePosition s b (s.accounts.get b.hashables.account) with
    ⟨code, amount, isSend⟩
  simp only
  by_cases hcode : (if code = .progress ∧ isSend = false then
      stateLink s b amount else code) = .progress
  · obtain ⟨rfl, hlink⟩ := stateCode_progress hcode
    exact .inr (stateBlock_extendable H hR ht hb hfresh hsig hacc hpos hlink)
  · exact .inl ⟨_, if_neg hcode, hcode⟩

theorem process_cases {b : Block} (hb : b ∈ U) :
    Rejects s (Ledger.process env now s b) ∨ Extendable L b t := by
  cases b with
  | sendBlock b => exact sendBlock_cases H now hR ht hb
  | receiveBlock b => exact receiveBlock_cases H now hR ht hb
  | openBlock b => exact openBlock_cases now hR ht hb
  | changeBlock b => exact changeBlock_cases H now hR ht hb
  | stateBlock b => exact stateBlock_cases H now hR ht hb

end Handlers

end Badem
