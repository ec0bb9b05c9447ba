import Badem.Core.Rollback
import Badem.Refinement.BlockTables

/-!
# What processing does to the tables

Inversion of `ledger::process`, whatever the hash function is and whatever the tables hold.  A
call that returns either changes nothing or appends the block to a chain: `Appends` lists what
happens to the tables.
-/

namespace Badem

open Mdb LedgerProcessor

def Block.namedAccount : Block → Option Account
  | .openBlock b => some b.hashables.account
  | .stateBlock b => some b.hashables.account
  | _ => none

namespace BlockStore

variable {env : Env} {s s' : BlockStore}

section Lookup

theorem blockExists_eq_isSome (s : BlockStore) (h : BlockHash) :
    s.blockExists h = (s.blockGet h).isSome := by
  unfold blockExists blockGet blockGetRaw
  grind

variable {h hash successor : BlockHash} {t : BlockType} {b : Block}

theorem blockGetRaw_of_some {v : StoredBlock}
    (hv : s.blockGetRaw h = some (t, v)) : (s.blockDatabase t).get h = some v := by
  unfold blockGetRaw at hv
  unfold blockDatabase
  grind

theorem exists_of_blockGet (hb : s.blockGet h = some b) :
    ∃ t v, (s.blockDatabase t).get h = some v ∧ v.block = b := by
  obtain ⟨⟨t, v⟩, hv, hvb⟩ := Option.map_eq_some_iff.mp hb
  exact ⟨t, v, blockGetRaw_of_some hv, hvb⟩

theorem blockGetRaw_congr (h : s'.blockDatabase = s.blockDatabase) :
    s'.blockGetRaw = s.blockGetRaw := by
  have hsend : s'.sendBlocks = s.sendBlocks := congrFun h .send
  have hreceive : s'.receiveBlocks = s.receiveBlocks := congrFun h .receive
  have hopen : s'.openBlocks = s.openBlocks := congrFun h .opening
  have hchange : s'.changeBlocks = s.changeBlocks := congrFun h .change
  have hstate : s'.stateBlocks = s.stateBlocks := congrFun h .state
  funext k
  unfold blockGetRaw
  rw [hsend, hreceive, hopen, hchange, hstate]

theorem blockGet_congr (h : s'.blockDatabase = s.blockDatabase) : s'.blockGet = s.blockGet := by
  funext k
  rw [blockGet, blockGet, blockGetRaw_congr h]

theorem blockGetRaw_blockPutRaw
    (ht : ∀ w, s.blockGetRaw h = some w → w.1 = t) (v : StoredBlock) (k : BlockHash) :
    (s.blockPutRaw t h v).blockGetRaw k = if k = h then some (t, v) else s.blockGetRaw k := by
  by_cases hk : k = h
  · subst hk
    rw [if_pos rfl]
    unfold blockGetRaw at ht ⊢
    cases t <;> simp only [blockPutRaw, setBlockDatabase, blockDatabase, Table.get_put_self] <;>
      (repeat' split) <;> simp_all
  · rw [if_neg hk]
    unfold blockGetRaw
    cases t <;> simp only [blockPutRaw, setBlockDatabase, blockDatabase, Table.get_put_ne _ _ hk]

theorem blockGet_fillValue (h : s.fillValue env b = .ok s') : s'.blockGet = s.blockGet := by
  obtain ⟨⟨t, v⟩, hv, h⟩ := ok_of_bind h
  have hraw := eq_some_of_expect_eq_ok hv
  cases h
  funext k
  unfold blockGet
  rw [blockGetRaw_blockPutRaw (by rw [hraw]; rintro w ⟨⟩; rfl)]
  by_cases hk : k = b.previous <;> simp [hk, hraw]

theorem setPredecessor_cases (h : s.setPredecessor env b = .ok s') :
    s' = s ∨ s.fillValue env b = .ok s' := by
  unfold setPredecessor at h
  split at h
  · exact .inl (Except.ok.inj h).symm
  · grind
  · exact .inr h

theorem blockGet_setPredecessor (h : s.setPredecessor env b = .ok s') :
    s'.blockGet = s.blockGet := by
  rcases setPredecessor_cases h with rfl | h
  · rfl
  · exact blockGet_fillValue h

theorem setPredecessor_of_blockPut (h : s.blockPut env hash b successor = .ok s') :
    (s.blockPutRaw b.type hash ⟨b, successor⟩).setPredecessor env b = .ok s' := by
  obtain ⟨-, -, h⟩ := ok_of_bind h
  obtain ⟨s₁, hset, h⟩ := ok_of_bind h
  obtain ⟨-, -, h⟩ := ok_of_bind h
  cases h
  exact hset

theorem blockGet_blockPut (hnew : s.blockGet hash = none)
    (h : s.blockPut env hash b successor = .ok s') (k : BlockHash) :
    s'.blockGet k = if k = hash then some b else s.blockGet k := by
  have hraw : s.blockGetRaw hash = none := by
    simpa [blockGet] using hnew
  rw [blockGet_setPredecessor (setPredecessor_of_blockPut h), blockGet,
    blockGetRaw_blockPutRaw (by simp [hraw])]
  by_cases hk : k = hash <;> simp [hk, blockGet]

end Lookup

section Operations

theorem representationAdd_inv {source : BlockHash} {amount : Uint128}
    (h : s.representationAdd source amount = .ok s') :
    ∃ weights, s' = { s with representation := weights } := by
  obtain ⟨b, -, h⟩ := ok_of_bind h
  exact ⟨_, (Except.ok.inj h).symm⟩

variable {hash : BlockHash} {a : Account} {balance : Amount} {blockCount : Nat} {isState : Bool}

theorem frontierDel_inv (h : s.frontierDel hash = .ok s') :
    s' = { s with frontiers := s.frontiers.del hash } := by
  obtain ⟨-, -, h⟩ := ok_of_bind h
  exact (Except.ok.inj h).symm

theorem pendingDel_inv {key : PendingKey} (h : s.pendingDel key = .ok s') :
    s' = { s with pending := s.pending.del key } := by
  obtain ⟨-, -, h⟩ := ok_of_bind h
  exact (Except.ok.inj h).symm

theorem blockInfoDel_inv (h : s.blockInfoDel hash = .ok s') :
    s' = { s with blocksInfo := s.blocksInfo.del hash } := by
  obtain ⟨-, -, h⟩ := ok_of_bind h
  exact (Except.ok.inj h).symm

theorem checksumPut_inv {prefixBits mask : Uint64} {sum : Checksum}
    (h : s.checksumPut prefixBits mask sum = .ok s') :
    ∃ sums, s' = { s with checksum := sums } := by
  obtain ⟨-, -, h⟩ := ok_of_bind h
  exact ⟨_, (Except.ok.inj h).symm⟩

theorem checksumUpdate_inv (h : Ledger.checksumUpdate s hash = .ok s') :
    ∃ sums, s' = { s with checksum := sums } := by
  obtain ⟨value, -, h⟩ := ok_of_bind h
  obtain ⟨value, -, h⟩ := ok_of_bind h
  exact checksumPut_inv h

theorem blockPutRaw_inv (s : BlockStore) (t : BlockType) (hash : BlockHash) (v : StoredBlock) :
    ∃ db, s.blockPutRaw t hash v = s.withBlocks db :=
  ⟨_, s.blockPutRaw_eq t hash v⟩

theorem blockPut_inv {successor : BlockHash} {b : Block}
    (h : s.blockPut env hash b successor = .ok s') : ∃ db, s' = s.withBlocks db := by
  obtain ⟨db, hdb⟩ := s.blockPutRaw_inv b.type hash ⟨b, successor⟩
  rcases setPredecessor_cases (setPredecessor_of_blockPut h) with rfl | hfill
  · exact ⟨db, hdb⟩
  · obtain ⟨⟨t, v⟩, -, hfill⟩ := ok_of_bind hfill
    cases hfill
    rw [hdb]
    obtain ⟨db', hdb'⟩ := (s.withBlocks db).blockPutRaw_inv t b.previous
      { v with successor := b.hash env }
    exact ⟨db', hdb'⟩

theorem blockSuccessorClear_inv
    (h : s.blockSuccessorClear env hash = .ok s') : ∃ db, s' = s.withBlocks db := by
  obtain ⟨b, -, h⟩ := ok_of_bind h
  exact blockPut_inv h

theorem blockDel_inv (h : s.blockDel hash = .ok s') :
    ∃ t, s' = s.setBlockDatabase t ((s.blockDatabase t).del hash) := by
  unfold blockDel at h
  split_ifs at h
  · exact ⟨.state, (Except.ok.inj h).symm⟩
  · exact ⟨.send, (Except.ok.inj h).symm⟩
  · exact ⟨.receive, (Except.ok.inj h).symm⟩
  · exact ⟨.opening, (Except.ok.inj h).symm⟩
  · obtain ⟨-, -, h⟩ := ok_of_bind h
    exact ⟨.change, (Except.ok.inj h).symm⟩

/-- What `change_latest` does to the tables. -/
structure MovesHead (s s' : BlockStore) (a : Account) (hash : BlockHash) (count : Nat) :
    Prop where
  blocks : s'.blockDatabase = s.blockDatabase
  frontiers : s'.frontiers = s.frontiers
  pending : s'.pending = s.pending
  head : hash ≠ 0 → ∃ i, s'.accounts.get a = some i ∧ i.head = hash ∧ i.blockCount = count ∧
    i.openBlock = ((s.accounts.get a).map AccountInfo.openBlock).getD hash
  gone : hash = 0 → s'.accounts.get a = none
  others : ∀ a', a' ≠ a → s'.accounts.get a' = s.accounts.get a'
  infos : ∀ {h i}, s'.blocksInfo.get h = some i →
    s.blocksInfo.get h = some i ∨ h = hash ∧ h ≠ 0 ∧ i.account = a

theorem movesHead_of_write {info : AccountInfo}
    (h : (if hash ≠ 0 then
        Ledger.checksumUpdate
          (if blockCount % blockInfoMax = 0 ∧ isState = false then
            (s.accountPut a info).blockInfoPut hash ⟨a, balance⟩
          else s.accountPut a info) hash
      else s.accountDel a) = .ok s') (hhead : info.head = hash)
    (hcount : info.blockCount = blockCount)
    (hopen : info.openBlock = ((s.accounts.get a).map AccountInfo.openBlock).getD hash) :
    MovesHead s s' a hash blockCount := by
  have hput : ∀ a', a' ≠ a → (s.accounts.put a info).get a' = s.accounts.get a' :=
    fun a' ha => Table.get_put_ne _ _ ha
  split at h
  · rename_i hne
    obtain ⟨sums, rfl⟩ := checksumUpdate_inv h
    split_ifs
    · refine ⟨rfl, rfl, rfl, fun _ => ⟨info, Table.get_put_self _ _ _, hhead, hcount, hopen⟩,
        fun hz => absurd hz hne, hput, fun {k i} hi => ?_⟩
      rw [show ((s.accountPut a info).blockInfoPut hash ⟨a, balance⟩).blocksInfo =
        s.blocksInfo.put hash ⟨a, balance⟩ from rfl, Table.get_put] at hi
      split_ifs at hi with hk
      · exact .inr ⟨hk, by rw [hk]; exact hne, by rw [← Option.some.inj hi]⟩
      · exact .inl hi
    · exact ⟨rfl, rfl, rfl, fun _ => ⟨info, Table.get_put_self _ _ _, hhead, hcount, hopen⟩,
        fun hz => absurd hz hne, hput, fun hi => .inl hi⟩
  · rename_i hz
    obtain ⟨-, -, h⟩ := ok_of_bind h
    cases h
    refine ⟨rfl, rfl, rfl, fun hne => absurd hne hz, fun _ => Table.get_del_self _ _,
      fun a' ha => ?_, fun hi => .inl hi⟩
    rw [Table.get_del, if_neg ha]

theorem MovesHead.congr_left {s₁ : BlockStore} {count : Nat}
    (h : MovesHead s₁ s' a hash count) {sums : Table Uint64 Checksum}
    (hs : s₁ = { s with checksum := sums }) : MovesHead s s' a hash count := by
  subst hs
  exact ⟨h.blocks, h.frontiers, h.pending, h.head, h.gone, h.others, h.infos⟩

theorem changeLatest_inv {now : Nat} {repBlock : BlockHash}
    (h : Ledger.changeLatest now s a hash repBlock balance blockCount isState = .ok s') :
    MovesHead s s' a hash blockCount := by
  unfold Ledger.changeLatest at h
  dsimp only at h
  split at h
  · rename_i info hinfo
    have hopen : info.openBlock = ((s.accounts.get a).map AccountInfo.openBlock).getD hash := by
      rw [show s.accounts.get a = some info from hinfo]
      rfl
    obtain ⟨s₁, hsum, h⟩ := ok_of_bind h
    obtain ⟨sums, rfl⟩ := checksumUpdate_inv hsum
    exact (movesHead_of_write h rfl rfl hopen).congr_left rfl
  · rename_i hnone
    have hopen : hash = ((s.accounts.get a).map AccountInfo.openBlock).getD hash := by
      rw [show s.accounts.get a = none from hnone]
      rfl
    obtain ⟨b, -, h⟩ := ok_of_bind h
    obtain ⟨-, -, h⟩ := ok_of_bind h
    exact movesHead_of_write h rfl rfl hopen

end Operations

/-- A block has been appended to the chain of an account. -/
structure Appends (env : Env) (s s' : BlockStore) (b : Block) (a : Account) : Prop where
  fresh : s.blockGet (b.hash env) = none
  put : ∃ s₁ s₂ : BlockStore, s₁.blockDatabase = s.blockDatabase ∧
    s₁.blockPut env (b.hash env) b 0 = .ok s₂ ∧ s'.blockDatabase = s₂.blockDatabase
  account_ne_zero : a ≠ 0
  position : (b.previous = 0 ∧ b.namedAccount = some a ∧ s.accounts.get a = none) ∨
    ((∃ p, s.blockGet b.previous = some p) ∧ Ledger.latest s a = b.previous ∧
      ∀ a', b.namedAccount = some a' → a' = a)
  head : b.hash env ≠ 0 → ∃ i, s'.accounts.get a = some i ∧ i.head = b.hash env ∧
    i.blockCount = ((s.accounts.get a).getD .zero).blockCount + 1 ∧
    i.openBlock = ((s.accounts.get a).map AccountInfo.openBlock).getD (b.hash env)
  others : ∀ a', a' ≠ a → s'.accounts.get a' = s.accounts.get a'
  frontier : b.type ≠ .state → s'.frontiers.get (b.hash env) = some a
  legacy : b.type ≠ .state → b.previous ≠ 0 → s.frontiers.get b.previous = some a
  cleared : b.previous ≠ b.hash env → ∀ a', s'.frontiers.get b.previous = some a' →
    s.frontiers.get b.previous = some a' ∧ (a' = 0 ∨ b.previous = 0)
  frontiers : ∀ h, (h = b.hash env → b.type = .state) → h ≠ b.previous →
    s'.frontiers.get h = s.frontiers.get h
  infos : ∀ {h i}, s'.blocksInfo.get h = some i →
    s.blocksInfo.get h = some i ∨ h = b.hash env ∧ h ≠ 0 ∧ i.account = a
  pending : ∀ {k p}, s'.pending.get k = some p →
    s.pending.get k = some p ∨ k.hash = b.hash env ∧ p.source = a

theorem Appends.blockGet {b : Block} {a : Account} (h : Appends env s s' b a) (k : BlockHash) :
    s'.blockGet k = if k = b.hash env then some b else s.blockGet k := by
  obtain ⟨s₁, s₂, h₁, hput, h₂⟩ := h.put
  have hget := blockGet_congr h₁
  rw [blockGet_congr h₂, blockGet_blockPut (by rw [hget]; exact h.fresh) hput, hget]

end BlockStore

namespace LedgerProcessor

open BlockStore

variable {env : Env} {now : Nat} {s s' : BlockStore} {r : ProcessReturn} {hash : BlockHash}
  {t : Table PendingKey PendingInfo} {key k : PendingKey} {p : PendingInfo} {b : StateBlock}
  {amount : Amount} {isSend : Bool}

theorem eq_of_refused {r' : ProcessReturn}
    (h : (.ok (r', s) : Except Fault (ProcessReturn × BlockStore)) = .ok (r, s')) : s' = s :=
  (Prod.mk.inj (Except.ok.inj h)).2.symm

theorem blockGet_none_of_new (hnew : ¬ s.blockExists hash = true) : s.blockGet hash = none := by
  rw [blockExists_eq_isSome] at hnew
  simpa using hnew

theorem get_frontiers_moved (t : Table BlockHash Account) {previous : BlockHash}
    (a : Account) {h : BlockHash} (hne : h ≠ hash) (hprev : h ≠ previous) :
    ((t.del previous).put hash a).get h = t.get h := by
  rw [Table.get_put_ne _ _ hne, Table.get_del, if_neg hprev]

theorem get_frontiers_previous (t : Table BlockHash Account) {previous : BlockHash}
    (a a' : Account) (hne : previous ≠ hash) :
    ((t.del previous).put hash a).get previous ≠ some a' := by
  rw [Table.get_put_ne _ _ hne, Table.get_del_self]
  exact Option.some_ne_none a' ∘ Eq.symm

theorem get_frontiers_of_ne_zero (hne : s.frontierGet hash ≠ 0) :
    s.frontiers.get hash = some (s.frontierGet hash) := by
  unfold frontierGet at hne ⊢
  cases hget : s.frontiers.get hash with
  | none => simp [hget] at hne
  | some a => rfl

theorem get_pending_put {info : PendingInfo} (h : (t.put key info).get k = some p) :
    t.get k = some p ∨ k.hash = key.hash ∧ p.source = info.source := by
  rw [Table.get_put] at h
  split_ifs at h with hk
  · exact .inr ⟨by rw [hk], by rw [← Option.some.inj h]⟩
  · exact .inl h

theorem get_of_get_del {K V : Type*} [LinearOrder K] {t : Table K V} {key k : K} {v : V}
    (h : (t.del key).get k = some v) : t.get k = some v := by
  rw [Table.get_del] at h
  split_ifs at h
  exact h

theorem latest_eq_getD (s : BlockStore) (a : Account) :
    Ledger.latest s a = ((s.accountGet a).getD .zero).head := by
  unfold Ledger.latest
  cases s.accountGet a <;> rfl

theorem latest_eq_of_accountGet {a : Account} {info : AccountInfo}
    (h : s.accountGet a = some info) : Ledger.latest s a = info.head := by
  rw [Ledger.latest, h]

theorem sendBlock_appends {b : SendBlock} (h : sendBlock env now s b = .ok (r, s')) :
    s' = s ∨ ∃ a, Appends env s s' (.sendBlock b) a := by
  unfold sendBlock at h
  dsimp only at h
  split at h
  · exact .inl (eq_of_refused h)
  rename_i hnew
  split at h
  · exact .inl (eq_of_refused h)
  rename_i previous hprevious
  split at h
  · exact .inl (eq_of_refused h)
  split at h
  · exact .inl (eq_of_refused h)
  rename_i haccount
  split at h
  · exact .inl (eq_of_refused h)
  obtain ⟨info, hinfo, h⟩ := ok_of_bind h
  obtain ⟨_, hhead, h⟩ := ok_of_bind h
  split at h
  · exact .inl (eq_of_refused h)
  obtain ⟨s₁, hrep, h⟩ := ok_of_bind h
  obtain ⟨s₂, hput, h⟩ := ok_of_bind h
  obtain ⟨s₃, hlatest, h⟩ := ok_of_bind h
  obtain ⟨s₄, hfrontier, h⟩ := ok_of_bind h
  cases h
  obtain ⟨weights, rfl⟩ := representationAdd_inv hrep
  obtain ⟨db, rfl⟩ := blockPut_inv hput
  obtain rfl := frontierDel_inv hfrontier
  have hmove := changeLatest_inv hlatest
  have hget := eq_some_of_expect_eq_ok hinfo
  have hcount : info = (s.accounts.get (s.frontierGet b.hashables.previous)).getD .zero := by
    rw [show s.accounts.get _ = some info from hget]
    rfl
  exact .inr ⟨s.frontierGet b.hashables.previous,
    { fresh := blockGet_none_of_new hnew
      put := ⟨{ s with representation := weights }, _, rfl, hput, hmove.blocks⟩
      account_ne_zero := haccount
      position := .inr ⟨⟨previous, hprevious⟩,
        (latest_eq_of_accountGet hget).trans (of_require_eq_ok hhead),
        fun a' ha => absurd ha (by simp [Block.namedAccount])⟩
      head := by
        rw [← hcount]
        exact hmove.head
      others := hmove.others
      frontier := fun _ => Table.get_put_self _ _ _
      legacy := fun _ _ => get_frontiers_of_ne_zero haccount
      cleared := fun hne a' ha =>
        absurd ha (get_frontiers_previous s₃.frontiers _ a' hne)
      frontiers := fun k hk hk' =>
        (get_frontiers_moved s₃.frontiers _ (fun heq => by cases hk heq) hk').trans
          (congrArg (fun t => t.get k) hmove.frontiers)
      infos := hmove.infos
      pending := fun hp => by
        have hcases := get_pending_put (t := s₃.pending) hp
        rw [hmove.pending] at hcases
        exact hcases }⟩

theorem receiveBlock_appends {b : ReceiveBlock} (h : receiveBlock env now s b = .ok (r, s')) :
    s' = s ∨ ∃ a, Appends env s s' (.receiveBlock b) a := by
  unfold receiveBlock at h
  dsimp only at h
  split at h
  · exact .inl (eq_of_refused h)
  rename_i hnew
  split at h
  · exact .inl (eq_of_refused h)
  rename_i previous hprevious
  iterate 2
    split at h
    · exact .inl (eq_of_refused h)
  split at h
  · exact .inl (eq_of_refused h)
  rename_i haccount
  split at h
  · exact .inl (eq_of_refused h)
  split at h
  · exact .inl (eq_of_refused h)
  rename_i hhead
  split at h
  · exact .inl (eq_of_refused h)
  obtain ⟨newBalance, -, h⟩ := ok_of_bind h
  obtain ⟨info, -, h⟩ := ok_of_bind h
  obtain ⟨s₁, hpending, h⟩ := ok_of_bind h
  obtain ⟨s₂, hput, h⟩ := ok_of_bind h
  obtain ⟨s₃, hlatest, h⟩ := ok_of_bind h
  obtain ⟨s₄, hrep, h⟩ := ok_of_bind h
  obtain ⟨s₅, hfrontier, h⟩ := ok_of_bind h
  cases h
  obtain rfl := pendingDel_inv hpending
  obtain ⟨db, rfl⟩ := blockPut_inv hput
  obtain ⟨weights, rfl⟩ := representationAdd_inv hrep
  obtain rfl := frontierDel_inv hfrontier
  have hmove := changeLatest_inv hlatest
  have hlatest : Ledger.latest s (s.frontierGet b.hashables.previous) = b.hashables.previous :=
    (latest_eq_getD s _).trans (not_not.mp hhead)
  exact .inr ⟨s.frontierGet b.hashables.previous,
    { fresh := blockGet_none_of_new hnew
      put := ⟨{ s with pending := s.pending.del _ }, _, rfl, hput, hmove.blocks⟩
      account_ne_zero := haccount
      position := .inr ⟨⟨previous, hprevious⟩, hlatest,
        fun a' ha => absurd ha (by simp [Block.namedAccount])⟩
      head := hmove.head
      others := hmove.others
      frontier := fun _ => Table.get_put_self _ _ _
      legacy := fun _ _ => get_frontiers_of_ne_zero haccount
      cleared := fun hne a' ha =>
        absurd ha (get_frontiers_previous s₃.frontiers _ a' hne)
      frontiers := fun k hk hk' =>
        (get_frontiers_moved s₃.frontiers _ (fun heq => by cases hk heq) hk').trans
          (congrArg (fun t => t.get k) hmove.frontiers)
      infos := hmove.infos
      pending := fun hp => by
        rw [show _ = _ from hmove.pending] at hp
        exact .inl (get_of_get_del hp) }⟩

theorem openBlock_appends {b : OpenBlock} (h : openBlock env now s b = .ok (r, s')) :
    s' = s ∨ ∃ a, Appends env s s' (.openBlock b) a := by
  unfold openBlock at h
  dsimp only at h
  split at h
  · exact .inl (eq_of_refused h)
  rename_i hnew
  iterate 2
    split at h
    · exact .inl (eq_of_refused h)
  split at h
  · exact .inl (eq_of_refused h)
  rename_i hunopened
  split at h
  · exact .inl (eq_of_refused h)
  split at h
  · exact .inl (eq_of_refused h)
  rename_i hburn
  obtain ⟨info, -, h⟩ := ok_of_bind h
  obtain ⟨s₁, hpending, h⟩ := ok_of_bind h
  obtain ⟨s₂, hput, h⟩ := ok_of_bind h
  obtain ⟨s₃, hlatest, h⟩ := ok_of_bind h
  obtain ⟨s₄, hrep, h⟩ := ok_of_bind h
  cases h
  obtain rfl := pendingDel_inv hpending
  obtain ⟨db, rfl⟩ := blockPut_inv hput
  obtain ⟨weights, rfl⟩ := representationAdd_inv hrep
  have hmove := changeLatest_inv hlatest
  have hcount : (s.accounts.get b.hashables.account).getD .zero = AccountInfo.zero := by
    rw [show s.accounts.get _ = none from hunopened]
    rfl
  have hfrontiers : ∀ k, k ≠ (Block.openBlock b).hash env →
      (s₃.frontiers.put ((Block.openBlock b).hash env) b.hashables.account).get k =
        s.frontiers.get k := by
    intro k hk
    rw [Table.get_put_ne _ _ hk, hmove.frontiers]
    rfl
  exact .inr ⟨b.hashables.account,
    { fresh := blockGet_none_of_new hnew
      put := ⟨{ s with pending := s.pending.del _ }, _, rfl, hput, hmove.blocks⟩
      account_ne_zero := hburn
      position := .inl ⟨rfl, rfl, hunopened⟩
      head := by
        rw [hcount]
        exact hmove.head
      others := hmove.others
      frontier := fun _ => Table.get_put_self _ _ _
      legacy := fun _ hne => absurd rfl hne
      cleared := fun hne a' ha => ⟨(hfrontiers _ hne).symm.trans ha, .inr rfl⟩
      frontiers := fun k hk _ => hfrontiers k (fun heq => by cases hk heq)
      infos := hmove.infos
      pending := fun hp => by
        rw [show _ = _ from hmove.pending] at hp
        exact .inl (get_of_get_del hp) }⟩

theorem changeBlock_appends {b : ChangeBlock} (h : changeBlock env now s b = .ok (r, s')) :
    s' = s ∨ ∃ a, Appends env s s' (.changeBlock b) a := by
  unfold changeBlock at h
  dsimp only at h
  split at h
  · exact .inl (eq_of_refused h)
  rename_i hnew
  split at h
  · exact .inl (eq_of_refused h)
  rename_i previous hprevious
  split at h
  · exact .inl (eq_of_refused h)
  split at h
  · exact .inl (eq_of_refused h)
  rename_i haccount
  obtain ⟨info, hinfo, h⟩ := ok_of_bind h
  obtain ⟨_, hhead, h⟩ := ok_of_bind h
  split at h
  · exact .inl (eq_of_refused h)
  obtain ⟨s₁, hput, h⟩ := ok_of_bind h
  obtain ⟨balance, -, h⟩ := ok_of_bind h
  obtain ⟨s₂, hadd, h⟩ := ok_of_bind h
  obtain ⟨s₃, hsub, h⟩ := ok_of_bind h
  obtain ⟨s₄, hlatest, h⟩ := ok_of_bind h
  obtain ⟨s₅, hfrontier, h⟩ := ok_of_bind h
  cases h
  obtain ⟨db, rfl⟩ := blockPut_inv hput
  obtain ⟨weights, rfl⟩ := representationAdd_inv hadd
  obtain ⟨weights', rfl⟩ := representationAdd_inv hsub
  obtain rfl := frontierDel_inv hfrontier
  have hmove := changeLatest_inv hlatest
  have hget := eq_some_of_expect_eq_ok hinfo
  have hcount : info = (s.accounts.get (s.frontierGet b.hashables.previous)).getD .zero := by
    rw [show s.accounts.get _ = some info from hget]
    rfl
  exact .inr ⟨s.frontierGet b.hashables.previous,
    { fresh := blockGet_none_of_new hnew
      put := ⟨s, _, rfl, hput, hmove.blocks⟩
      account_ne_zero := haccount
      position := .inr ⟨⟨previous, hprevious⟩,
        (latest_eq_of_accountGet hget).trans (of_require_eq_ok hhead),
        fun a' ha => absurd ha (by simp [Block.namedAccount])⟩
      head := by
        rw [← hcount]
        exact hmove.head
      others := hmove.others
      frontier := fun _ => Table.get_put_self _ _ _
      legacy := fun _ _ => get_frontiers_of_ne_zero haccount
      cleared := fun hne a' ha =>
        absurd ha (get_frontiers_previous s₄.frontiers _ a' hne)
      frontiers := fun k hk hk' =>
        (get_frontiers_moved s₄.frontiers _ (fun heq => by cases hk heq) hk').trans
          (congrArg (fun t => t.get k) hmove.frontiers)
      infos := hmove.infos
      pending := fun {k p} hp => .inl ((congrArg (fun t => t.get k) hmove.pending).symm.trans hp)
        }⟩

theorem position_of_progress {found : Option AccountInfo}
    (h : statePosition s b found = (.progress, amount, isSend)) :
    (b.hashables.previous = 0 ∧ found = none) ∨
      ∃ info, found = some info ∧ s.blockExists b.hashables.previous = true ∧
        b.hashables.previous = info.head := by
  have hcode : (statePosition s b found).1 = .progress := by rw [h]
  unfold statePosition at hcode
  cases found with
  | none =>
    refine .inl ⟨?_, rfl⟩
    by_contra hp
    dsimp only at hcode
    rw [if_pos hp] at hcode
    cases hcode
  | some info =>
    dsimp only at hcode
    by_cases hp : b.hashables.previous = 0
    · simp_all
    · rw [if_neg hp] at hcode
      by_cases hexists : s.blockExists b.hashables.previous = false
      · simp_all
      · rw [if_neg hexists] at hcode
        refine .inr ⟨info, rfl, by simpa using hexists, ?_⟩
        by_contra hhead
        rw [if_neg hhead] at hcode
        cases hcode

theorem stateApply_appends
    (hnew : ¬ s.blockExists ((Block.stateBlock b).hash env) = true)
    (haccount : b.hashables.account ≠ 0)
    (hposition : (b.hashables.previous = 0 ∧ s.accountGet b.hashables.account = none) ∨
      ∃ info, s.accountGet b.hashables.account = some info ∧
        s.blockExists b.hashables.previous = true ∧ b.hashables.previous = info.head)
    (h : stateApply env now s b ((s.accountGet b.hashables.account).getD .zero) amount isSend =
      .ok s') : Appends env s s' (.stateBlock b) b.hashables.account := by
  obtain ⟨s₁, hput, h⟩ := ok_of_bind h
  obtain ⟨s₂, hold, h⟩ := ok_of_bind h
  obtain ⟨s₃, hrep, h⟩ := ok_of_bind h
  obtain ⟨s₄, hpending, h⟩ := ok_of_bind h
  obtain ⟨s₅, hlatest, hend⟩ := ok_of_bind h
  obtain ⟨db, rfl⟩ := blockPut_inv hput
  have hhead : ((s.accountGet b.hashables.account).getD .zero).head = b.hashables.previous := by
    rcases hposition with ⟨hz, hnone⟩ | ⟨info, hinfo, -, hhead⟩
    · rw [hnone, hz]
      rfl
    · simp_all
  -- the two changes of weights
  have hweights : ∃ weights, s₃ = { s.withBlocks db with representation := weights } := by
    split at hold
    · obtain ⟨w, rfl⟩ := representationAdd_inv hold
      obtain ⟨w', rfl⟩ := representationAdd_inv hrep
      exact ⟨w', rfl⟩
    · cases hold
      exact representationAdd_inv hrep
  obtain ⟨weights, rfl⟩ := hweights
  have htransfer : ∃ pending, s₄ = { s.withBlocks db with
      representation := weights, pending := pending } ∧
      ∀ {k p}, pending.get k = some p → s.pending.get k = some p ∨
        k.hash = (Block.stateBlock b).hash env ∧ p.source = b.hashables.account := by
    split at hpending
    · cases hpending
      exact ⟨_, rfl, fun hp => get_pending_put hp⟩
    · split at hpending
      · obtain rfl := pendingDel_inv hpending
        exact ⟨_, rfl, fun hp => .inl (get_of_get_del hp)⟩
      · cases hpending
        exact ⟨_, rfl, fun hp => .inl hp⟩
  obtain ⟨pending, rfl, hcases⟩ := htransfer
  have hmove := changeLatest_inv hlatest
  have hlast : ∃ frontiers, s' = { s₅ with frontiers := frontiers } ∧
      (∀ k, k ≠ b.hashables.previous → frontiers.get k = s₅.frontiers.get k) ∧
      ∀ a, frontiers.get b.hashables.previous = some a →
        s₅.frontiers.get b.hashables.previous = some a ∧ a = 0 := by
    split at hend
    · obtain rfl := frontierDel_inv hend
      refine ⟨_, rfl, fun k hk => ?_, fun a ha => ?_⟩
      · rw [hhead, Table.get_del, if_neg hk]
      · rw [hhead, Table.get_del_self] at ha
        cases ha
    · rename_i hzero
      cases hend
      refine ⟨_, rfl, fun k _ => rfl, fun a ha => ⟨ha, ?_⟩⟩
      rw [not_not, hhead, frontierGet, ha] at hzero
      exact hzero
  obtain ⟨frontiers, rfl, hfrontiers, hcleared⟩ := hlast
  exact
    { fresh := blockGet_none_of_new hnew
      put := ⟨s, _, rfl, hput, hmove.blocks⟩
      account_ne_zero := haccount
      position := by
        rcases hposition with ⟨hz, hnone⟩ | ⟨info, hinfo, hexists, hprevious⟩
        · exact .inl ⟨hz, rfl, hnone⟩
        · rw [blockExists_eq_isSome] at hexists
          exact .inr ⟨Option.isSome_iff_exists.mp hexists,
            (latest_eq_of_accountGet hinfo).trans hprevious.symm,
            fun a' ha => (Option.some.inj ha).symm⟩
      head := hmove.head
      others := hmove.others
      frontier := fun ht => absurd rfl ht
      legacy := fun ht => absurd rfl ht
      cleared := fun _ a' ha => by
        obtain ⟨hget, hzero⟩ := hcleared a' ha
        rw [hmove.frontiers] at hget
        exact ⟨hget, .inl hzero⟩
      frontiers := fun k _ hk => (hfrontiers k hk).trans
        (congrArg (fun t => t.get k) hmove.frontiers)
      infos := hmove.infos
      pending := fun {k p} hp => hcases
        ((congrArg (fun t => t.get k) hmove.pending).symm.trans hp) }

theorem stateBlock_appends (h : stateBlock env now s b = .ok (r, s')) :
    s' = s ∨ ∃ a, Appends env s s' (.stateBlock b) a := by
  unfold stateBlock at h
  dsimp only at h
  split at h
  · exact .inl (eq_of_refused h)
  rename_i hnew
  split at h
  · exact .inl (eq_of_refused h)
  split at h
  · exact .inl (eq_of_refused h)
  rename_i haccount
  obtain ⟨⟨code, amount, isSend⟩, hposition⟩ :
      ∃ x, statePosition s b (s.accountGet b.hashables.account) = x := ⟨_, rfl⟩
  rw [hposition] at h
  dsimp only at h
  generalize hfinal : (if code = .progress ∧ isSend = false then stateLink s b amount
    else code) = final at h
  split at h
  · rename_i hprogress
    have hcode : code = .progress := by
      by_contra hne
      rw [if_neg (fun hx => hne hx.1)] at hfinal
      exact hne (hfinal.trans hprogress)
    subst hcode
    obtain ⟨s₁, happly, h⟩ := ok_of_bind h
    cases h
    exact .inr ⟨_, stateApply_appends hnew haccount (position_of_progress hposition) happly⟩
  · exact .inl (eq_of_refused h)

end LedgerProcessor

variable {env : Env} {now : Nat} {s : BlockStore}

theorem process_appends {s' : BlockStore} {b : Block} {r : ProcessReturn}
    (h : Ledger.process env now s b = .ok (r, s')) :
    s' = s ∨ ∃ a, BlockStore.Appends env s s' b a := by
  cases b with
  | sendBlock b => exact sendBlock_appends h
  | receiveBlock b => exact receiveBlock_appends h
  | openBlock b => exact openBlock_appends h
  | changeBlock b => exact changeBlock_appends h
  | stateBlock b => exact stateBlock_appends h

theorem genesis_appends (h : genesisInitialize env now .empty = .ok s) :
    BlockStore.Appends env .empty s (.openBlock env.genesisOpen) env.genesisAccount := by
  obtain ⟨-, -, h⟩ := ok_of_bind h
  obtain ⟨s₁, hput, h⟩ := ok_of_bind h
  obtain ⟨s₂, hsum, h⟩ := ok_of_bind h
  cases h
  obtain ⟨db, rfl⟩ := BlockStore.blockPut_inv hput
  obtain ⟨sums, rfl⟩ := BlockStore.checksumPut_inv hsum
  exact
    { fresh := rfl
      put := ⟨.empty, _, rfl, hput, rfl⟩
      account_ne_zero := env.genesisAccount_ne_zero
      position := .inl ⟨rfl, rfl, rfl⟩
      head := fun _ => ⟨_, Table.get_put_self _ _ _, rfl, rfl, rfl⟩
      others := fun a' ha => Table.get_put_ne _ _ ha
      frontier := fun _ => Table.get_put_self _ _ _
      legacy := fun _ hne => absurd rfl hne
      cleared := fun hne a' ha => ⟨(Table.get_put_ne _ _ hne).symm.trans ha, .inr rfl⟩
      frontiers := fun h hne _ => Table.get_put_ne _ _ (fun heq => by cases hne heq)
      infos := fun hi => .inl hi
      pending := fun hp => .inl hp }

end Badem
