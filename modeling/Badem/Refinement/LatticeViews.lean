import Badem.Abstract.LatticeSteps
import Badem.Refinement.BlockTables

/-!
# What a lattice says about the tables

The contents of the store's tables as functions of a block lattice, and how adding and removing
a block changes them.
-/

namespace Badem

open Mdb

namespace Entry

variable {env : Env} {e : Entry}

theorem source_state {b : StateBlock} (hb : e.block = .stateBlock b)
    (hg : e.hash ≠ env.genesisHash) :
    e.source env =
      if b.hashables.balance < e.previousBalance then none
      else if b.hashables.link = 0 then none
      else some b.hashables.link := by
  rw [source, if_neg hg, hb]

theorem source_eq_none_of_destination {d : Account} (hd : e.destination = some d) :
    e.source env = none := by
  unfold destination at hd
  unfold source
  split_ifs
  · rfl
  · cases hb : e.block with
    | stateBlock b =>
      simp only [hb] at hd ⊢
      split_ifs <;> simp_all
    | _ => simp [hb] at hd ⊢

theorem amount_toNat_of_le (hle : e.balance ≤ e.previousBalance) :
    e.balance.toNat + e.amount.toNat = e.previousBalance.toNat := by
  rw [BitVec.le_def] at hle
  unfold amount
  grind [BitVec.toNat_sub_of_le (BitVec.le_def.mpr hle), BitVec.lt_def]

theorem amount_toNat_of_ge (hge : e.previousBalance ≤ e.balance) :
    e.previousBalance.toNat + e.amount.toNat = e.balance.toNat := by
  rw [BitVec.le_def] at hge
  unfold amount
  rw [if_neg (by rw [BitVec.lt_def]; omega), BitVec.toNat_sub_of_le (BitVec.le_def.mpr hge)]
  omega

theorem amount_of_le (hle : e.balance ≤ e.previousBalance) :
    e.amount = e.previousBalance - e.balance := by
  have hnat := amount_toNat_of_le hle
  apply BitVec.eq_of_toNat_eq
  rw [BitVec.toNat_sub_of_le hle]
  omega

theorem amount_of_ge (hge : e.previousBalance ≤ e.balance) :
    e.amount = e.balance - e.previousBalance := by
  have hnat := amount_toNat_of_ge hge
  apply BitVec.eq_of_toNat_eq
  rw [BitVec.toNat_sub_of_le hge]
  omega

theorem balance_add_amount (hl : e.Lawful) {d : Account} (hd : e.destination = some d) :
    e.balance.toNat + e.amount.toNat = e.previousBalance.toNat := by
  refine amount_toNat_of_le ?_
  unfold destination at hd
  unfold Lawful at hl
  cases hb : e.block with
  | sendBlock b =>
    simp only [hb] at hl
    rw [hl.1]
    exact hl.2
  | stateBlock b =>
    simp only [hb] at hl hd
    by_cases hlt : b.hashables.balance < e.previousBalance
    · grind
    · simp [hlt] at hd
  | _ => simp [hb] at hd

theorem previousBalance_add_amount (hl : e.Lawful) (hopen : e.previous = 0 → e.previousBalance = 0)
    {x : BlockHash} (hs : e.source env = some x) :
    e.previousBalance.toNat + e.amount.toNat = e.balance.toNat := by
  refine amount_toNat_of_ge ?_
  unfold source at hs
  unfold Lawful at hl
  by_cases hg : e.hash = env.genesisHash
  · simp [hg] at hs
  · rw [if_neg hg] at hs
    cases hb : e.block with
    | receiveBlock b =>
      simp only [hb] at hl
      exact hl
    | openBlock b =>
      rw [hopen (by simp [previous, hb, Block.previous])]
      simp [BitVec.le_def]
    | stateBlock b =>
      simp only [hb] at hl hs
      by_cases hlt : b.hashables.balance < e.previousBalance
      · simp [hlt] at hs
      · simp_all
    | _ => simp [hb] at hs

theorem balance_eq_previousBalance (hl : e.Lawful) (hg : e.hash ≠ env.genesisHash)
    (hd : e.destination = none) (hs : e.source env = none) : e.balance = e.previousBalance := by
  unfold source at hs
  unfold destination at hd
  unfold Lawful at hl
  rw [if_neg hg] at hs
  cases hb : e.block with
  | changeBlock b =>
    simp only [hb] at hl
    exact hl
  | stateBlock b =>
    simp only [hb] at hl hs hd
    by_cases hlt : b.hashables.balance < e.previousBalance
    · simp [hlt] at hd
    · rw [if_neg hlt] at hs
      by_cases hlink : b.hashables.link = 0
      · refine hl.2.2 hlink ?_
        rw [hl.2.1]
        exact BitVec.not_lt.mp hlt
      · simp_all
  | _ => simp [hb] at hd hs

def settle (env : Env) (e : Entry) (t : Table PendingKey PendingInfo) :
    Table PendingKey PendingInfo :=
  match e.destination with
  | some d => t.put ⟨d, e.hash⟩ ⟨e.account, e.amount⟩
  | none =>
    match e.source env with
    | some x => t.del ⟨e.account, x⟩
    | none => t

def unsettle (env : Env) (e : Entry) (sender : Account) (t : Table PendingKey PendingInfo) :
    Table PendingKey PendingInfo :=
  match e.destination with
  | some d => t.del ⟨d, e.hash⟩
  | none =>
    match e.source env with
    | some x => t.put ⟨e.account, x⟩ ⟨sender, e.amount⟩
    | none => t

end Entry

namespace BlockLattice

variable {env : Env} {U : Set Block}

section Views

variable (L : BlockLattice env U) {h : BlockHash} {e : Entry} {k : PendingKey}

def raw (h : BlockHash) : Option StoredBlock :=
  (L.find h).map (fun e => ⟨e.block, L.successor h⟩)

def legacyOwner (h : BlockHash) : Option Account :=
  match L.find h with
  | some e => if e.block.isLegacy = true then some e.account else none
  | none => none

/-- The account of a legacy block that is a head. -/
def frontier (h : BlockHash) : Option Account :=
  match L.find h with
  | some e => if e.block.isLegacy = true ∧ L.child h = none then some e.account else none
  | none => none

/-- The pending entry of a send that nobody has received. -/
def pendingInfo (k : PendingKey) : Option PendingInfo :=
  match L.find k.hash with
  | some e =>
    if e.destination = some k.account ∧ L.receiver k.hash = none then
      some ⟨e.account, e.amount⟩
    else none
  | none => none

/-- The block info of every block at a multiple of `blockInfoMax`. -/
def checkpoint (h : BlockHash) : Option BlockInfo :=
  match L.find h with
  | some e => if e.height % BlockStore.blockInfoMax = 0 then some ⟨e.account, e.balance⟩ else none
  | none => none

/-- Weight that an amount gives to `r` when it is delegated by the block `h`. -/
def gain (h : BlockHash) (amount : Amount) (r : Account) : Uint128 :=
  match L.find h with
  | some e => if e.block.representative = r then amount else 0
  | none => 0

def contribution (e : Option Entry) (r : Account) : Uint128 :=
  match e with
  | some x => L.gain x.repBlock x.balance r
  | none => 0

theorem raw_of_find (he : L.find h = some e) : L.raw h = some ⟨e.block, L.successor h⟩ := by
  rw [raw, he]
  rfl

theorem raw_of_find_none (he : L.find h = none) : L.raw h = none := by
  rw [raw, he]
  rfl

theorem blockGet_of_represents {s : BlockStore}
    (hrep : BlockTables.Represents s.blockDatabase L.raw) (he : L.find h = some e) :
    s.blockGet h = some e.block := by
  rw [BlockStore.blockGet_eq hrep, raw_of_find _ he]
  rfl

theorem successor_of_child {c : Entry} (hc : L.child h = some c) : L.successor h = c.hash := by
  rw [successor, hc]

theorem successor_of_child_none (hc : L.child h = none) : L.successor h = 0 := by
  rw [successor, hc]

theorem legacyOwner_of_find (he : L.find h = some e) :
    L.legacyOwner h = if e.block.isLegacy = true then some e.account else none := by
  rw [legacyOwner, he]

theorem legacyOwner_of_find_none (he : L.find h = none) : L.legacyOwner h = none := by
  rw [legacyOwner, he]

theorem frontier_of_find (he : L.find h = some e) :
    L.frontier h =
      if e.block.isLegacy = true ∧ L.child h = none then some e.account else none := by
  rw [frontier, he]

theorem frontier_of_find_none (he : L.find h = none) : L.frontier h = none := by
  rw [frontier, he]

theorem pendingInfo_of_find (he : L.find k.hash = some e) :
    L.pendingInfo k =
      if e.destination = some k.account ∧ L.receiver k.hash = none then
        some ⟨e.account, e.amount⟩
      else none := by
  rw [pendingInfo, he]

theorem pendingInfo_of_find_none (he : L.find k.hash = none) : L.pendingInfo k = none := by
  rw [pendingInfo, he]

theorem checkpoint_eq_some_iff (he : L.find h = some e) (i : BlockInfo) :
    L.checkpoint h = some i ↔
      e.height % BlockStore.blockInfoMax = 0 ∧ e.account = i.account ∧ e.balance = i.balance := by
  rw [checkpoint, he]
  simp only
  split_ifs with hheight
  · rw [Option.some.injEq]
    constructor
    · rintro rfl
      exact ⟨hheight, rfl, rfl⟩
    · rintro ⟨-, hacc, hbal⟩
      rw [hacc, hbal]
  · simp [hheight]

theorem gain_of_find (he : L.find h = some e) (amount : Amount) (r : Account) :
    L.gain h amount r = if e.block.representative = r then amount else 0 := by
  rw [gain, he]

theorem gain_add (h : BlockHash) (a b : Amount) (r : Account) :
    L.gain h (a + b) r = L.gain h a r + L.gain h b r := by
  unfold gain
  cases L.find h with
  | none => simp
  | some e => by_cases hr : e.block.representative = r <;> simp [hr]

theorem gain_zero_sub (h : BlockHash) (a : Amount) (r : Account) :
    L.gain h (0 - a) r = - L.gain h a r := by
  unfold gain
  cases L.find h with
  | none => simp
  | some e => by_cases hr : e.block.representative = r <;> simp [hr]

theorem exists_repBlock :
    ∀ (n : Nat) {h : BlockHash} {e : Entry},
      L.find h = some e → e.height = n →
      ∃ r, L.find e.repBlock = some r ∧ r.account = e.account ∧ r.time ≤ e.time ∧
        r.block.namesRepresentative = true ∧ r.height ≤ e.height := by
  intro n
  induction n with
  | zero =>
    intro h e he hn
    have hpos := L.height_pos he
    omega
  | succ n ih =>
    intro h e he hn
    have hself : e.block.namesRepresentative = true → e.repBlock = e.hash →
        ∃ r, L.find e.repBlock = some r ∧ r.account = e.account ∧ r.time ≤ e.time ∧
          r.block.namesRepresentative = true ∧ r.height ≤ e.height := by
      intro hnames hrep
      rw [hrep]
      exact ⟨e, L.find_hash he, rfl, Nat.le_refl _, hnames, Nat.le_refl _⟩
    by_cases hp : e.previous = 0
    · have hopens := L.opening he hp
      refine hself ?_ hopens.repBlock
      rcases hopens.type with ht | ht
      · cases hb : e.block <;> simp_all [Block.type, Block.namesRepresentative]
      · cases hb : e.block <;> simp_all [Block.type, Block.namesRepresentative]
    · obtain ⟨p, hfind, htime, hext⟩ := L.exists_previous he hp
      have hrep := hext.repBlock
      by_cases hnames : e.block.namesRepresentative = true
      · simp_all
      · rw [if_neg hnames] at hrep
        have hheight := hext.height
        obtain ⟨r, hr, hacc, htime', hnames', hh⟩ := ih hfind (by omega)
        refine ⟨r, by rw [hrep]; exact hr, ?_, by omega, hnames', by omega⟩
        rw [hacc, hext.account]

theorem exists_repBlock_of_find (he : L.find h = some e) :
    ∃ r, L.find e.repBlock = some r ∧ r.account = e.account ∧ r.time ≤ e.time ∧
      r.block.namesRepresentative = true ∧ r.height ≤ e.height :=
  L.exists_repBlock e.height he rfl

end Views

section AppendViews

variable (H : CollisionFree env U)
variable {L : BlockLattice env U} {e : Entry}

include H in
theorem Appendable.head_eq (ha : L.Appendable e) : L.head e.account = L.find e.previous := by
  by_cases hp : e.previous = 0
  · rw [hp, L.find_zero H]
    exact (ha.opening hp).2
  · obtain ⟨p, hfind, hchild, hext⟩ := ha.chain hp
    rw [hfind, head_eq_some_iff]
    refine ⟨L.find_hash hfind, hext.account.symm, ?_⟩
    rw [L.keyed hfind]
    exact hchild

theorem raw_append (ha : L.Appendable e) :
    (L.append H e ha).raw = BlockStore.linkRaw L.raw e.hash e.block := by
  funext k
  unfold BlockStore.linkRaw
  by_cases hk : k = e.hash
  · have hfind : (L.append H e ha).find k = some e := by
      rw [find_append, if_pos hk]
    rw [if_pos hk, raw_of_find _ hfind, hk, successor_of_child_none _ (child_append_self H ha)]
  · rw [if_neg hk]
    cases hfind : L.find k with
    | none =>
      have hfind' : (L.append H e ha).find k = none := by
        rw [find_append, if_neg hk, hfind]
      rw [raw_of_find_none _ hfind', raw_of_find_none _ hfind]
      simp
    | some x =>
      have hfind' : (L.append H e ha).find k = some x := by
        rw [find_append, if_neg hk, hfind]
      have hchild := child_append H ha (L.hash_ne_zero H hfind)
      rw [raw_of_find _ hfind', raw_of_find _ hfind]
      by_cases hp : k = e.previous
      · rw [if_pos hp.symm] at hchild
        rw [if_pos (show k = e.block.previous from hp), successor_of_child _ hchild]
        rfl
      · rw [if_neg (fun h => hp h.symm)] at hchild
        rw [if_neg (show k ≠ e.block.previous from hp), successor, successor, hchild]

theorem frontier_append (ha : L.Appendable e) (h : BlockHash) :
    (L.append H e ha).frontier h =
      if h = e.hash then (if e.block.isLegacy = true then some e.account else none)
      else if h = e.previous then none
      else L.frontier h := by
  by_cases hk : h = e.hash
  · have hfind : (L.append H e ha).find h = some e := by
      rw [find_append, if_pos hk]
    have hchild : (L.append H e ha).child h = none := by
      rw [hk]
      exact child_append_self H ha
    rw [if_pos hk, frontier_of_find _ hfind, hchild]
    simp
  · rw [if_neg hk]
    cases hfind : L.find h with
    | none =>
      have hfind' : (L.append H e ha).find h = none := by
        rw [find_append, if_neg hk, hfind]
      rw [frontier_of_find_none _ hfind', frontier_of_find_none _ hfind]
      simp
    | some x =>
      have hfind' : (L.append H e ha).find h = some x := by
        rw [find_append, if_neg hk, hfind]
      have hchild := child_append H ha (L.hash_ne_zero H hfind)
      rw [frontier_of_find _ hfind', frontier_of_find _ hfind]
      split_ifs <;> simp_all

theorem pendingInfo_append (ha : L.Appendable e) (k : PendingKey) :
    (L.append H e ha).pendingInfo k =
      if k.hash = e.hash then
        (if e.destination = some k.account then some ⟨e.account, e.amount⟩ else none)
      else if e.source env = some k.hash then none
      else L.pendingInfo k := by
  have hrec := receiver_append H ha k.hash
  by_cases hk : k.hash = e.hash
  · have hfind : (L.append H e ha).find k.hash = some e := by
      rw [find_append, if_pos hk]
    have hself : e.source env ≠ some k.hash := by
      intro hs
      obtain ⟨q, hq, -⟩ := ha.sent hs
      exact ha.ne_hash hq hk
    rw [if_neg hself, hk, ha.receiver_eq_none] at hrec
    rw [if_pos hk, pendingInfo_of_find _ hfind, hk, hrec]
    simp
  · rw [if_neg hk]
    cases hfind : L.find k.hash with
    | none =>
      have hfind' : (L.append H e ha).find k.hash = none := by
        rw [find_append, if_neg hk, hfind]
      rw [pendingInfo_of_find_none _ hfind', pendingInfo_of_find_none _ hfind]
      simp
    | some x =>
      have hfind' : (L.append H e ha).find k.hash = some x := by
        rw [find_append, if_neg hk, hfind]
      rw [pendingInfo_of_find _ hfind', pendingInfo_of_find _ hfind, hrec]
      by_cases hs : e.source env = some k.hash <;> simp [hs]

theorem checkpoint_append (ha : L.Appendable e) (h : BlockHash) :
    (L.append H e ha).checkpoint h =
      if h = e.hash then
        (if e.height % BlockStore.blockInfoMax = 0 then some ⟨e.account, e.balance⟩ else none)
      else L.checkpoint h := by
  unfold checkpoint
  rw [find_append]
  by_cases hk : h = e.hash <;> simp [hk]

theorem gain_append (ha : L.Appendable e) {h : BlockHash} {x : Entry} (hx : L.find h = some x)
    (amount : Amount) (r : Account) : (L.append H e ha).gain h amount r = L.gain h amount r := by
  unfold gain
  rw [find_append, if_neg (ha.ne_hash hx)]

end AppendViews

section RemoveViews

variable (H : CollisionFree env U)
variable {L : BlockLattice env U} {e : Entry}

theorem Removable.head_eq (hr : L.Removable e) : L.head e.account = some e :=
  (L.head_eq_some_iff e.account e).mpr ⟨hr.stored, rfl, hr.child⟩

theorem Removable.previous_ne_hash (hr : L.Removable e) : e.previous ≠ e.hash :=
  (L.child_eq_none_iff _).mp hr.child _ _ hr.stored

include H in
theorem raw_remove (hr : L.Removable e) (k : BlockHash) :
    (L.remove e hr).raw k =
      if k = e.hash then none
      else if k = e.previous then (L.raw k).map (fun v => { v with successor := 0 })
      else L.raw k := by
  by_cases hk : k = e.hash
  · have hfind : (L.remove e hr).find k = none := by
      rw [find_remove, if_pos hk]
    rw [if_pos hk, raw_of_find_none _ hfind]
  · rw [if_neg hk]
    cases hfind : L.find k with
    | none =>
      have hfind' : (L.remove e hr).find k = none := by
        rw [find_remove, if_neg hk, hfind]
      rw [raw_of_find_none _ hfind', raw_of_find_none _ hfind]
      simp
    | some x =>
      have hfind' : (L.remove e hr).find k = some x := by
        rw [find_remove, if_neg hk, hfind]
      have hchild := child_remove hr (L.hash_ne_zero H hfind)
      rw [raw_of_find _ hfind', raw_of_find _ hfind]
      by_cases hp : k = e.previous
      · rw [if_pos hp]
        rw [if_pos hp.symm] at hchild
        rw [successor_of_child_none _ hchild]
        rfl
      · rw [if_neg hp]
        rw [if_neg (fun h => hp h.symm)] at hchild
        rw [successor, successor, hchild]

include H in
theorem frontier_remove (hr : L.Removable e) (h : BlockHash) :
    (L.remove e hr).frontier h =
      if h = e.hash then none
      else if h = e.previous then L.legacyOwner h
      else L.frontier h := by
  by_cases hk : h = e.hash
  · have hfind : (L.remove e hr).find h = none := by
      rw [find_remove, if_pos hk]
    rw [if_pos hk, frontier_of_find_none _ hfind]
  · rw [if_neg hk]
    cases hfind : L.find h with
    | none =>
      have hfind' : (L.remove e hr).find h = none := by
        rw [find_remove, if_neg hk, hfind]
      rw [frontier_of_find_none _ hfind', frontier_of_find_none _ hfind,
        legacyOwner_of_find_none _ hfind]
      simp
    | some x =>
      have hfind' : (L.remove e hr).find h = some x := by
        rw [find_remove, if_neg hk, hfind]
      have hchild := child_remove hr (L.hash_ne_zero H hfind)
      rw [frontier_of_find _ hfind', frontier_of_find _ hfind]
      by_cases hp : h = e.previous
      · rw [if_pos hp.symm] at hchild
        rw [if_pos hp, hchild, legacyOwner_of_find _ hfind]
        simp
      · grind

theorem pendingInfo_remove (hr : L.Removable e) (k : PendingKey) :
    (L.remove e hr).pendingInfo k =
      if k.hash = e.hash then none
      else if e.source env = some k.hash then
        (match L.find k.hash with
        | some q => if q.destination = some k.account then some ⟨q.account, q.amount⟩ else none
        | none => none)
      else L.pendingInfo k := by
  have hrec := receiver_remove hr k.hash
  by_cases hk : k.hash = e.hash
  · have hfind : (L.remove e hr).find k.hash = none := by
      rw [find_remove, if_pos hk]
    rw [if_pos hk, pendingInfo_of_find_none _ hfind]
  · rw [if_neg hk]
    cases hfind : L.find k.hash with
    | none =>
      have hfind' : (L.remove e hr).find k.hash = none := by
        rw [find_remove, if_neg hk, hfind]
      rw [pendingInfo_of_find_none _ hfind', pendingInfo_of_find_none _ hfind]
      simp
    | some x =>
      have hfind' : (L.remove e hr).find k.hash = some x := by
        rw [find_remove, if_neg hk, hfind]
      rw [pendingInfo_of_find _ hfind', pendingInfo_of_find _ hfind, hrec]
      by_cases hs : e.source env = some k.hash <;> simp [hs]

theorem checkpoint_remove (hr : L.Removable e) (h : BlockHash) :
    (L.remove e hr).checkpoint h = if h = e.hash then none else L.checkpoint h := by
  unfold checkpoint
  rw [find_remove]
  by_cases hk : h = e.hash <;> simp [hk]

theorem gain_remove (hr : L.Removable e) {h : BlockHash} (hne : h ≠ e.hash) (amount : Amount)
    (r : Account) : (L.remove e hr).gain h amount r = L.gain h amount r := by
  unfold gain
  rw [find_remove, if_neg hne]

end RemoveViews

section SubViews

variable {L L' : BlockLattice env U}

theorem find_previous_of_sub (H : CollisionFree env U) (hsub : L'.Sub L) {h : BlockHash} {e : Entry}
    (he : L'.find h = some e) : L'.find e.previous = L.find e.previous := by
  by_cases hz : e.previous = 0
  · rw [hz, L.find_zero H, L'.find_zero H]
  · obtain ⟨p, hp, -, -⟩ := L'.exists_previous he hz
    rw [hp, hsub hp]

theorem gain_of_sub (hsub : L'.Sub L) {h : BlockHash} {x : Entry} (hx : L'.find h = some x)
    (amount : Amount) (r : Account) : L'.gain h amount r = L.gain h amount r := by
  rw [gain_of_find _ hx, gain_of_find _ (hsub hx)]

theorem contribution_of_sub (hsub : L'.Sub L) (h : BlockHash) (r : Account) :
    L'.contribution (L'.find h) r = L.contribution (L'.find h) r := by
  cases hx : L'.find h with
  | none => rfl
  | some x =>
    obtain ⟨p, hp, -⟩ := L'.exists_repBlock_of_find hx
    exact gain_of_sub hsub hp _ _

end SubViews

end BlockLattice

end Badem
