import Badem.Refinement.StoreEdits

/-!
# What a rollback does to the tables

Inversion of `ledger::rollback`, whatever the hash function is and whatever the tables hold.  A
rollback that returns is a sequence of visits, each of which ends with `Removes`.
-/

namespace Badem

open Mdb

namespace BlockStore

variable {env : Env} {s s' : BlockStore}

inductive Drops (env : Env) (s s' : BlockStore) (hash previous : BlockHash) : Prop
  | opening (s₁ s₂ : BlockStore) :
      previous = 0 ∨ s.blockGet previous = none →
      s₁.blockDatabase = s.blockDatabase →
      s₁.blockDel hash = .ok s₂ →
      s'.blockDatabase = s₂.blockDatabase →
      Drops env s s' hash previous
  | delClear (s₁ s₂ s₃ s₄ : BlockStore) :
      s₁.blockDatabase = s.blockDatabase →
      s₁.blockDel hash = .ok s₂ →
      s₃.blockDatabase = s₂.blockDatabase →
      s₃.blockSuccessorClear env previous = .ok s₄ →
      s'.blockDatabase = s₄.blockDatabase →
      Drops env s s' hash previous
  | clearDel (s₁ s₂ s₃ s₄ : BlockStore) :
      s₁.blockDatabase = s.blockDatabase →
      s₁.blockSuccessorClear env previous = .ok s₂ →
      s₃.blockDatabase = s₂.blockDatabase →
      s₃.blockDel hash = .ok s₄ →
      s'.blockDatabase = s₄.blockDatabase →
      Drops env s s' hash previous

/-- A block has been removed from the end of the chain of an account. -/
structure Removes (env : Env) (s s' : BlockStore) (b : Block) (a : Account) : Prop where
  account : Ledger.account s (b.hash env) = .ok a ∨ Ledger.account s b.previous = .ok a ∨
    (∃ d p, s.pending.get ⟨d, b.hash env⟩ = some p ∧ p.source = a) ∨
    (b.type = .state ∧ b.namedAccount = some a)
  blocks : Drops env s s' (b.hash env) b.previous
  head : b.previous ≠ 0 → ∃ i, s'.accounts.get a = some i ∧ i.head = b.previous ∧
    ∀ j, s.accounts.get a = some j → i.blockCount = j.blockCount - 1 ∧ i.openBlock = j.openBlock
  gone : b.previous = 0 → s'.accounts.get a = none
  others : ∀ a', a' ≠ a → s'.accounts.get a' = s.accounts.get a'
  frontier : b.previous ≠ 0 → ∀ c, s.blockGet b.previous = some c → c.type ≠ .state →
    s'.frontiers.get b.previous = some a
  dropped : b.type ≠ .state → b.hash env ≠ b.previous → s'.frontiers.get (b.hash env) = none
  restored : ∀ a', s'.frontiers.get b.previous = some a' → s.frontiers.get b.previous = some a' ∨
    a' = a ∧ b.type ≠ .opening ∧
      (b.type = .state → ∃ c, s.blockGet b.previous = some c ∧ c.type ≠ .state)
  frontiers : ∀ h, (h = b.hash env → b.type = .state) → h ≠ b.previous →
    s'.frontiers.get h = s.frontiers.get h
  infos : ∀ {h i}, s'.blocksInfo.get h = some i →
    s.blocksInfo.get h = some i ∨ h = b.previous ∧ h ≠ 0 ∧ i.account = a
  pending : ∀ {k p}, s'.pending.get k = some p →
    s.pending.get k = some p ∨ Ledger.account s k.hash = .ok p.source

/-- A sequence of visits, each of the head block of an account. -/
inductive Unrolls (env : Env) : BlockStore → BlockStore → Prop
  | done (s : BlockStore) : Unrolls env s s
  | visit {s s₁ s₂ s' : BlockStore} {weights : Table Account Uint128} {holder a : Account}
      {i : AccountInfo} {b : Block} :
      s.accountGet holder = some i →
      s.blockGet i.head = some b →
      Unrolls env { s with representation := weights } s₁ →
      Removes env s₁ s₂ b a →
      Unrolls env s₂ s' →
      Unrolls env s s'

theorem Unrolls.trans {s₁ s₂ s₃ : BlockStore} (h : Unrolls env s₁ s₂) (h' : Unrolls env s₂ s₃) :
    Unrolls env s₁ s₃ := by
  induction h with
  | done s => exact h'
  | visit hacc hb hnested hremoves _ _ ih => exact .visit hacc hb hnested hremoves (ih h')

theorem MovesHead.back {a : Account} {hash : BlockHash} {info : AccountInfo}
    (h : MovesHead s s' a hash (info.blockCount - 1)) (hinfo : s.accounts.get a = some info)
    (hne : hash ≠ 0) : ∃ i, s'.accounts.get a = some i ∧ i.head = hash ∧
      ∀ j, s.accounts.get a = some j →
        i.blockCount = j.blockCount - 1 ∧ i.openBlock = j.openBlock := by
  obtain ⟨i, hi, hhead, hcount, hopen⟩ := h.head hne
  refine ⟨i, hi, hhead, fun j hj => ?_⟩
  cases hinfo.symm.trans hj
  rw [hinfo] at hopen
  exact ⟨hcount, hopen⟩

theorem blockDel_frame {hash : BlockHash} (h : s.blockDel hash = .ok s') :
    ∃ db, s' = s.withBlocks db := by
  obtain ⟨t, ht⟩ := blockDel_inv h
  exact ⟨_, ht.trans (s.setBlockDatabase_eq t _)⟩

end BlockStore

open BlockStore LedgerProcessor

variable {env : Env} {now : Nat} {s s' : BlockStore}
variable {rollback : BlockStore → BlockHash → Except Fault BlockStore} {fuel : Nat}
  {account : Account} {hash : BlockHash} {U : Set Block}

theorem rollbackUntil_unrolls {ready : BlockStore → Bool}
    (hrollback : ∀ {s h s'}, rollback s h = .ok s' → Unrolls env s s') :
    ∀ {fuel s s'}, rollbackUntil rollback ready account fuel s = .ok s' → Unrolls env s s' := by
  intro fuel
  induction fuel with
  | zero =>
    intro s s' h
    exact absurd h (by simp [rollbackUntil])
  | succ fuel ih =>
    intro s s' h
    unfold rollbackUntil at h
    split at h
    · rw [Except.ok.inj h]
      exact .done _
    · obtain ⟨s₁, hstep, h⟩ := ok_of_bind h
      exact (hrollback hstep).trans (ih h)

namespace RollbackVisitor

section Frontiers

variable (t : Table BlockHash Account) {previous : BlockHash} {a a' : Account}

theorem get_frontiers_restored (h : ((t.del hash).put previous a).get previous = some a') :
    a' = a := by
  rw [Table.get_put_self] at h
  exact (Option.some.inj h).symm

theorem get_frontiers_dropped (a : Account) (hne : hash ≠ previous) :
    ((t.del hash).put previous a).get hash = none := by
  rw [Table.get_put_ne _ _ hne, Table.get_del_self]

end Frontiers

theorem infoDel_inv {info : AccountInfo} (h : infoDel s info hash = .ok s') :
    ∃ infos, s' = { s with blocksInfo := infos } ∧
      ∀ {k i}, infos.get k = some i → s.blocksInfo.get k = some i := by
  unfold infoDel at h
  split at h
  · exact ⟨_, blockInfoDel_inv h, fun hi => get_of_get_del hi⟩
  · exact ⟨_, (Except.ok.inj h).symm, fun hi => hi⟩

theorem sendBlock_removes {b : SendBlock}
    (hrollback : ∀ {s h s'}, rollback s h = .ok s' → Unrolls env s s')
    (h : sendBlock env now rollback fuel s b = .ok s') :
    ∃ s₁ a, Unrolls env s s₁ ∧ Removes env s₁ s' (.sendBlock b) a := by
  obtain ⟨s₁, huntil, h⟩ := ok_of_bind h
  obtain ⟨pending, hpending, h⟩ := ok_of_bind h
  obtain ⟨info, hinfo, h⟩ := ok_of_bind h
  obtain ⟨s₂, hdelete, h⟩ := ok_of_bind h
  obtain ⟨rep, -, h⟩ := ok_of_bind h
  obtain ⟨s₃, hrep, h⟩ := ok_of_bind h
  obtain ⟨balance, -, h⟩ := ok_of_bind h
  obtain ⟨s₄, hlatest, h⟩ := ok_of_bind h
  obtain ⟨s₅, hdel, h⟩ := ok_of_bind h
  obtain ⟨s₆, hfrontier, h⟩ := ok_of_bind h
  obtain ⟨s₇, hclear, hdelInfo⟩ := ok_of_bind h
  obtain rfl := pendingDel_inv hdelete
  obtain ⟨weights, rfl⟩ := representationAdd_inv hrep
  have hmove := changeLatest_inv hlatest
  obtain ⟨db, rfl⟩ := blockDel_frame hdel
  obtain rfl := frontierDel_inv hfrontier
  obtain ⟨db', rfl⟩ := blockSuccessorClear_inv hclear
  obtain ⟨infos, rfl, hinfos⟩ := infoDel_inv hdelInfo
  exact ⟨s₁, pending.source, rollbackUntil_unrolls hrollback huntil,
    { account := .inr (.inr (.inl ⟨_, pending, eq_some_of_expect_eq_ok hpending, rfl⟩))
      blocks := .delClear s₄ _ _ _ hmove.blocks hdel (by rfl) hclear rfl
      head := hmove.back (eq_some_of_expect_eq_ok hinfo)
      gone := hmove.gone
      others := hmove.others
      frontier := fun _ _ _ _ => Table.get_put_self _ _ _
      dropped := fun _ hne => get_frontiers_dropped s₄.frontiers _ hne
      restored := fun a' ha => .inr ⟨get_frontiers_restored s₄.frontiers ha,
        fun ht => (by cases ht), fun ht => by cases ht⟩
      frontiers := fun k hk hk' =>
        (get_frontiers_moved s₄.frontiers _ hk' (fun heq => by cases hk heq)).trans
          (congrArg (fun t => t.get k) hmove.frontiers)
      infos := fun hi => hmove.infos (hinfos hi)
      pending := fun {k p} hp => .inl (get_of_get_del
        ((congrArg (fun t => t.get k) hmove.pending).symm.trans hp)) }⟩

theorem receiveBlock_removes {b : ReceiveBlock} (h : receiveBlock env now s b = .ok s') :
    ∃ a, Removes env s s' (.receiveBlock b) a := by
  obtain ⟨previousRep, -, h⟩ := ok_of_bind h
  obtain ⟨amount, -, h⟩ := ok_of_bind h
  obtain ⟨destination, hdestination, h⟩ := ok_of_bind h
  obtain ⟨source, hsource, h⟩ := ok_of_bind h
  obtain ⟨info, hinfo, h⟩ := ok_of_bind h
  obtain ⟨rep, -, h⟩ := ok_of_bind h
  obtain ⟨s₁, hrep, h⟩ := ok_of_bind h
  obtain ⟨balance, -, h⟩ := ok_of_bind h
  obtain ⟨s₂, hlatest, h⟩ := ok_of_bind h
  obtain ⟨s₃, hdel, h⟩ := ok_of_bind h
  obtain ⟨s₄, hfrontier, h⟩ := ok_of_bind h
  obtain ⟨s₅, hclear, hdelInfo⟩ := ok_of_bind h
  obtain ⟨weights, rfl⟩ := representationAdd_inv hrep
  have hmove := changeLatest_inv hlatest
  obtain ⟨db, rfl⟩ := blockDel_frame hdel
  obtain rfl := frontierDel_inv hfrontier
  obtain ⟨db', rfl⟩ := blockSuccessorClear_inv hclear
  obtain ⟨infos, rfl, hinfos⟩ := infoDel_inv hdelInfo
  exact ⟨destination,
    { account := .inl hdestination
      blocks := .delClear s₂ _ _ _ hmove.blocks hdel (by rfl) hclear rfl
      head := hmove.back (eq_some_of_expect_eq_ok hinfo)
      gone := hmove.gone
      others := hmove.others
      frontier := fun _ _ _ _ => Table.get_put_self _ _ _
      dropped := fun _ hne => get_frontiers_dropped s₂.frontiers _ hne
      restored := fun a' ha => .inr ⟨get_frontiers_restored s₂.frontiers ha,
        fun ht => (by cases ht), fun ht => by cases ht⟩
      frontiers := fun k hk hk' =>
        (get_frontiers_moved s₂.frontiers _ hk' (fun heq => by cases hk heq)).trans
          (congrArg (fun t => t.get k) hmove.frontiers)
      infos := fun hi => hmove.infos (hinfos hi)
      pending := fun {k p} hp => by
        rcases get_pending_put (t := s₂.pending) hp with hold | ⟨hhash, hnew⟩
        · exact .inl ((congrArg (fun t => t.get k) hmove.pending).symm.trans hold)
        · rw [hhash, hnew]
          exact .inr hsource }⟩

theorem openBlock_removes {b : OpenBlock} (h : openBlock env now s b = .ok s') :
    ∃ a, Removes env s s' (.openBlock b) a := by
  obtain ⟨amount, -, h⟩ := ok_of_bind h
  obtain ⟨destination, hdestination, h⟩ := ok_of_bind h
  obtain ⟨source, hsource, h⟩ := ok_of_bind h
  obtain ⟨rep, -, h⟩ := ok_of_bind h
  obtain ⟨s₁, hrep, h⟩ := ok_of_bind h
  obtain ⟨s₂, hlatest, h⟩ := ok_of_bind h
  obtain ⟨s₃, hdel, hfrontier⟩ := ok_of_bind h
  obtain ⟨weights, rfl⟩ := representationAdd_inv hrep
  have hmove := changeLatest_inv hlatest
  obtain ⟨db, rfl⟩ := blockDel_frame hdel
  obtain rfl := frontierDel_inv hfrontier
  exact ⟨destination,
    { account := .inl hdestination
      blocks := .opening s₂ _ (.inl rfl) hmove.blocks hdel rfl
      head := fun hne => absurd rfl hne
      gone := hmove.gone
      others := hmove.others
      frontier := fun hne => absurd rfl hne
      dropped := fun _ _ => Table.get_del_self _ _
      restored := fun a' ha => by
        have hget : s₂.frontiers.get _ = some a' := get_of_get_del ha
        rw [hmove.frontiers] at hget
        exact .inl hget
      frontiers := fun k hk _ => by
        refine Eq.trans ?_ (congrArg (fun t => t.get k) hmove.frontiers)
        exact (Table.get_del s₂.frontiers _ k).trans (if_neg (fun heq => by cases hk heq))
      infos := hmove.infos
      pending := fun {k p} hp => by
        rcases get_pending_put (t := s₂.pending) hp with hold | ⟨hhash, hnew⟩
        · exact .inl ((congrArg (fun t => t.get k) hmove.pending).symm.trans hold)
        · rw [hhash, hnew]
          exact .inr hsource }⟩

theorem changeBlock_removes {b : ChangeBlock} (h : changeBlock env now s b = .ok s') :
    ∃ a, Removes env s s' (.changeBlock b) a := by
  obtain ⟨previousRep, -, h⟩ := ok_of_bind h
  obtain ⟨account, haccount, h⟩ := ok_of_bind h
  obtain ⟨info, hinfo, h⟩ := ok_of_bind h
  obtain ⟨balance, -, h⟩ := ok_of_bind h
  obtain ⟨s₁, hadd, h⟩ := ok_of_bind h
  obtain ⟨s₂, hsub, h⟩ := ok_of_bind h
  obtain ⟨s₃, hdel, h⟩ := ok_of_bind h
  obtain ⟨s₄, hlatest, h⟩ := ok_of_bind h
  obtain ⟨s₅, hfrontier, h⟩ := ok_of_bind h
  obtain ⟨s₆, hclear, hdelInfo⟩ := ok_of_bind h
  obtain ⟨weights, rfl⟩ := representationAdd_inv hadd
  obtain ⟨weights', rfl⟩ := representationAdd_inv hsub
  obtain ⟨db, rfl⟩ := blockDel_frame hdel
  have hmove := changeLatest_inv hlatest
  obtain rfl := frontierDel_inv hfrontier
  obtain ⟨db', rfl⟩ := blockSuccessorClear_inv hclear
  obtain ⟨infos, rfl, hinfos⟩ := infoDel_inv hdelInfo
  exact ⟨account,
    { account := .inr (.inl haccount)
      blocks := .delClear { s with representation := weights' } _ _ _ rfl hdel
        (by exact hmove.blocks) hclear rfl
      head := hmove.back (eq_some_of_expect_eq_ok hinfo)
      gone := hmove.gone
      others := hmove.others
      frontier := fun _ _ _ _ => Table.get_put_self _ _ _
      dropped := fun _ hne => get_frontiers_dropped s₄.frontiers _ hne
      restored := fun a' ha => .inr ⟨get_frontiers_restored s₄.frontiers ha,
        fun ht => (by cases ht), fun ht => by cases ht⟩
      frontiers := fun k hk hk' =>
        (get_frontiers_moved s₄.frontiers _ hk' (fun heq => by cases hk heq)).trans
          (congrArg (fun t => t.get k) hmove.frontiers)
      infos := fun hi => hmove.infos (hinfos hi)
      pending := fun {k p} hp => Or.inl
        ((congrArg (fun t => t.get k) hmove.pending).symm.trans hp) }⟩

variable {b : StateBlock}

theorem stateTransfer_inv {previousBalance : Amount}
    (hrollback : ∀ {s h s'}, rollback s h = .ok s' → Unrolls env s s')
    (h : stateTransfer env rollback fuel s b previousBalance = .ok s') :
    ∃ s₁ pending, Unrolls env s s₁ ∧ s' = { s₁ with pending := pending } ∧
      ∀ {k p}, pending.get k = some p →
        s₁.pending.get k = some p ∨ Ledger.account s₁ k.hash = .ok p.source := by
  unfold stateTransfer at h
  split at h
  · obtain ⟨s₁, huntil, h⟩ := ok_of_bind h
    exact ⟨s₁, _, rollbackUntil_unrolls hrollback huntil, pendingDel_inv h,
      fun hp => .inl (get_of_get_del hp)⟩
  · split at h
    · obtain ⟨source, hsource, h⟩ := ok_of_bind h
      refine ⟨s, _, .done s, (Except.ok.inj h).symm, fun {k p} hp => ?_⟩
      rcases get_pending_put hp with hold | ⟨hhash, hnew⟩
      · exact .inl hold
      · simp_all
    · exact ⟨s, _, .done s, (Except.ok.inj h).symm, fun hp => .inl hp⟩

theorem stateRestore_inv (h : stateRestore env s b = .ok s') :
    (s.blockGet b.hashables.previous = none ∧ s' = s) ∨
      ∃ c s₁ frontiers, s.blockGet b.hashables.previous = some c ∧
        s.blockSuccessorClear env b.hashables.previous = .ok s₁ ∧
        s' = { s₁ with frontiers := frontiers } ∧
        (c.type ≠ .state → frontiers.get b.hashables.previous = some b.hashables.account) ∧
        (c.type = .state → frontiers = s₁.frontiers) ∧
        ∀ k, k ≠ b.hashables.previous → frontiers.get k = s₁.frontiers.get k := by
  unfold stateRestore at h
  split at h
  · rename_i c hc
    obtain ⟨s₁, hclear, h⟩ := ok_of_bind h
    refine .inr ⟨c, s₁, ?_⟩
    split at h
    · rename_i hlegacy
      have htype : c.isLegacy = true := by simpa [Block.isLegacy] using hlegacy
      exact ⟨_, hc, hclear, (Except.ok.inj h).symm, fun _ => Table.get_put_self _ _ _,
        fun hs => absurd hs ((Block.isLegacy_iff c).mp htype),
        fun k hk => Table.get_put_ne _ _ hk⟩
    · rename_i hstate
      have htype : c.isLegacy = false := by simpa [Block.isLegacy] using hstate
      exact ⟨_, hc, hclear, (Except.ok.inj h).symm,
        fun hne => absurd ((Block.isLegacy_eq_false_iff c).mp htype) hne,
        fun _ => rfl, fun k _ => rfl⟩
  · simp_all

theorem stateBlock_removes (hrollback : ∀ {s h s'}, rollback s h = .ok s' → Unrolls env s s')
    (h : stateBlock env now rollback fuel s b = .ok s') :
    ∃ weights s₁ a, Unrolls env { s with representation := weights } s₁ ∧
      Removes env s₁ s' (.stateBlock b) a := by
  obtain ⟨previousRep, -, h⟩ := ok_of_bind h
  obtain ⟨previousBalance, -, h⟩ := ok_of_bind h
  obtain ⟨s₁, hsub, h⟩ := ok_of_bind h
  obtain ⟨s₂, hadd, h⟩ := ok_of_bind h
  obtain ⟨s₃, htransfer, h⟩ := ok_of_bind h
  obtain ⟨info, hinfo, h⟩ := ok_of_bind h
  obtain ⟨s₄, hlatest, h⟩ := ok_of_bind h
  obtain ⟨s₅, hrestore, hdel⟩ := ok_of_bind h
  obtain ⟨weights, rfl⟩ := representationAdd_inv hsub
  obtain ⟨weights', rfl⟩ : ∃ weights', s₂ = { s with representation := weights' } := by
    split at hadd
    · obtain ⟨weights', h⟩ := representationAdd_inv hadd
      exact ⟨weights', h⟩
    · exact ⟨weights, (Except.ok.inj hadd).symm⟩
  obtain ⟨s₀, pending, hunrolls, rfl, hpending⟩ := stateTransfer_inv hrollback htransfer
  have hmove := changeLatest_inv hlatest
  obtain ⟨db, rfl⟩ := blockDel_frame hdel
  have hget : s₄.blockGet b.hashables.previous = s₀.blockGet b.hashables.previous :=
    congrFun (blockGet_congr (hmove.blocks.trans rfl)) _
  have hpend : ∀ {k p}, s₄.pending.get k = some p →
      s₀.pending.get k = some p ∨ Ledger.account s₀ k.hash = .ok p.source := by
    intro k p hp
    rw [hmove.pending] at hp
    exact hpending hp
  refine ⟨weights', s₀, b.hashables.account, hunrolls, ?_⟩
  rcases stateRestore_inv hrestore with
    ⟨hnone, rfl⟩ | ⟨c, s₆, frontiers, hc, hclear, rfl, hown, hsame, hkeep⟩
  · exact
      { account := .inr (.inr (.inr ⟨rfl, rfl⟩))
        blocks := .opening s₅ _ (.inr (hget.symm.trans hnone)) hmove.blocks hdel rfl
        head := hmove.back (eq_some_of_expect_eq_ok hinfo)
        gone := hmove.gone
        others := hmove.others
        frontier := fun _ c hc => absurd (hc.symm.trans (hget.symm.trans hnone)) (by simp)
        dropped := fun ht => absurd rfl ht
        restored := fun a' ha =>
          .inl ((congrArg (fun t => t.get b.hashables.previous) hmove.frontiers).symm.trans ha)
        frontiers := fun k _ _ => congrArg (fun t => t.get k) hmove.frontiers
        infos := hmove.infos
        pending := hpend }
  · obtain ⟨db', rfl⟩ := blockSuccessorClear_inv hclear
    exact
      { account := .inr (.inr (.inr ⟨rfl, rfl⟩))
        blocks := .clearDel s₄ _ _ _ hmove.blocks hclear (by rfl) hdel rfl
        head := hmove.back (eq_some_of_expect_eq_ok hinfo)
        gone := hmove.gone
        others := hmove.others
        frontier := fun _ c' hc' hlegacy => hown (by
          have hsame : c = c' := Option.some.inj (hc.symm.trans (hget.trans hc'))
          rwa [hsame])
        dropped := fun ht => absurd rfl ht
        restored := fun a' ha => by
          by_cases htype : c.type = .state
          · refine .inl (Eq.trans ?_ ha)
            rw [← hmove.frontiers]
            exact congrArg (fun t => t.get b.hashables.previous) (hsame htype).symm
          · exact .inr ⟨Option.some.inj (ha.symm.trans (hown htype)),
              fun ht => (by cases ht), fun _ => ⟨c, hget.symm.trans hc, htype⟩⟩
        frontiers := fun k _ hk => (hkeep k hk).trans
          (congrArg (fun t => t.get k) hmove.frontiers)
        infos := hmove.infos
        pending := hpend }

theorem visit_removes {b : Block} (hrollback : ∀ {s h s'}, rollback s h = .ok s' → Unrolls env s s')
    (h : visit env now rollback fuel s b = .ok s') :
    ∃ weights s₁ a, Unrolls env { s with representation := weights } s₁ ∧
      Removes env s₁ s' b a := by
  cases b with
  | sendBlock b =>
    obtain ⟨s₁, a, hunrolls, hremoves⟩ := sendBlock_removes hrollback h
    exact ⟨s.representation, s₁, a, hunrolls, hremoves⟩
  | receiveBlock b =>
    obtain ⟨a, hremoves⟩ := receiveBlock_removes h
    exact ⟨s.representation, s, a, .done s, hremoves⟩
  | openBlock b =>
    obtain ⟨a, hremoves⟩ := openBlock_removes h
    exact ⟨s.representation, s, a, .done s, hremoves⟩
  | changeBlock b =>
    obtain ⟨a, hremoves⟩ := changeBlock_removes h
    exact ⟨s.representation, s, a, .done s, hremoves⟩
  | stateBlock b => exact stateBlock_removes hrollback h

end RollbackVisitor

theorem rollbackWhile_unrolls
    {visit : BlockStore → Block → Except Fault BlockStore}
    (hvisit : ∀ {s b s'}, visit s b = .ok s' → ∃ weights s₁ a,
      Unrolls env { s with representation := weights } s₁ ∧ Removes env s₁ s' b a) :
    ∀ {fuel s s'}, rollbackWhile visit hash account fuel s = .ok s' → Unrolls env s s' := by
  intro fuel
  induction fuel with
  | zero =>
    intro s s' h
    exact absurd h (by simp [rollbackWhile])
  | succ fuel ih =>
    intro s s' h
    unfold rollbackWhile at h
    split at h
    · obtain ⟨info, hinfo, h⟩ := ok_of_bind h
      obtain ⟨b, hb, h⟩ := ok_of_bind h
      obtain ⟨s₂, hstep, hrest⟩ := ok_of_bind h
      obtain ⟨weights, s₁, a, hunrolls, hremoves⟩ := hvisit hstep
      exact .visit (eq_some_of_expect_eq_ok hinfo) (eq_some_of_deref_eq_ok hb) hunrolls
        hremoves (ih hrest)
    · rw [Except.ok.inj h]
      exact .done _

theorem rollbackLoop_unrolls :
    ∀ {fuel s hash s'}, rollbackLoop env now fuel s hash = .ok s' → Unrolls env s s' := by
  intro fuel
  induction fuel with
  | zero =>
    intro s hash s' h
    exact absurd h (by simp [rollbackLoop])
  | succ fuel ih =>
    intro s hash s' h
    obtain ⟨-, -, h⟩ := ok_of_bind h
    obtain ⟨account, -, h⟩ := ok_of_bind h
    exact rollbackWhile_unrolls (RollbackVisitor.visit_removes ih) h

theorem rollback_unrolls (h : Ledger.rollback env now s hash = .ok s') : Unrolls env s s' :=
  rollbackLoop_unrolls h

def BlockStore.Filed (env : Env) (U : Set Block) (s : BlockStore) : Prop :=
  ∀ t h v, (s.blockDatabase t).get h = some v →
    v.block ∈ U ∧ v.block.hash env = h ∧ v.block.type = t

namespace BlockStore.Filed

variable {U : Set Block} {h hash : BlockHash} {b : Block}

theorem congr (hs : s.Filed env U) (h : s'.blockDatabase = s.blockDatabase) : s'.Filed env U := by
  unfold Filed
  rw [h]
  exact hs

theorem hash_eq (hs : s.Filed env U) (hb : s.blockGet h = some b) : b ∈ U ∧ b.hash env = h := by
  obtain ⟨t, v, hv, rfl⟩ := exists_of_blockGet hb
  obtain ⟨hU, hhash, -⟩ := hs t h v hv
  exact ⟨hU, hhash⟩

theorem putRaw (hs : s.Filed env U) {v : StoredBlock} {t : BlockType}
    (hv : v.block ∈ U ∧ v.block.hash env = h ∧ v.block.type = t) :
    (s.blockPutRaw t h v).Filed env U := by
  intro t' h' v' hget
  rw [blockPutRaw_eq, blockDatabase_withBlocks] at hget
  by_cases ht : t' = t
  · subst ht
    rw [Function.update_self, Table.get_put] at hget
    split_ifs at hget with hh
    · simp_all
    · exact hs _ _ _ hget
  · rw [Function.update_of_ne ht] at hget
    exact hs _ _ _ hget

theorem put (hs : s.Filed env U) {successor : BlockHash} (hU : b ∈ U) (hhash : b.hash env = hash)
    (h : s.blockPut env hash b successor = .ok s') : s'.Filed env U := by
  have hput := hs.putRaw (v := ⟨b, successor⟩) (t := b.type) ⟨hU, hhash, rfl⟩
  rcases setPredecessor_cases (setPredecessor_of_blockPut h) with rfl | hfill
  · exact hput
  · obtain ⟨⟨t, v⟩, hv, hfill⟩ := ok_of_bind hfill
    cases hfill
    have hold := hput _ _ _ (blockGetRaw_of_some (eq_some_of_expect_eq_ok hv))
    exact hput.putRaw hold

theorem blockDel (hs : s.Filed env U) (hdel : s.blockDel h = .ok s') : s'.Filed env U := by
  obtain ⟨t, rfl⟩ := blockDel_inv hdel
  intro t' h' v' hget
  rw [setBlockDatabase_eq, blockDatabase_withBlocks] at hget
  by_cases ht : t' = t
  · subst ht
    rw [Function.update_self, Table.get_del] at hget
    split_ifs at hget
    exact hs _ _ _ hget
  · rw [Function.update_of_ne ht] at hget
    exact hs _ _ _ hget

theorem clear (hs : s.Filed env U)
    (hclear : s.blockSuccessorClear env h = .ok s') : s'.Filed env U := by
  obtain ⟨b, hb, hput⟩ := ok_of_bind hclear
  obtain ⟨hU, hhash⟩ := hs.hash_eq (eq_some_of_deref_eq_ok hb)
  exact hs.put hU hhash hput

theorem appends (hs : s.Filed env U) {a : Account} (hb : b ∈ U)
    (h : Appends env s s' b a) : s'.Filed env U := by
  obtain ⟨s₁, s₂, h₁, hput, h₂⟩ := h.put
  exact ((hs.congr h₁).put hb rfl hput).congr h₂

theorem drops (hs : s.Filed env U) {previous : BlockHash}
    (h : Drops env s s' hash previous) : s'.Filed env U := by
  cases h with
  | opening s₁ s₂ _ h₁ hdel h₂ => exact ((hs.congr h₁).blockDel hdel).congr h₂
  | delClear s₁ s₂ s₃ s₄ h₁ hdel h₂ hclear h₃ =>
    exact ((((hs.congr h₁).blockDel hdel).congr h₂).clear hclear).congr h₃
  | clearDel s₁ s₂ s₃ s₄ h₁ hclear h₂ hdel h₃ =>
    exact ((((hs.congr h₁).clear hclear).congr h₂).blockDel hdel).congr h₃

theorem unrolls (hs : s.Filed env U) (h : Unrolls env s s') : s'.Filed env U := by
  induction h with
  | done s => exact hs
  | visit _ _ _ hremoves _ ihnested ih => exact ih ((ihnested (hs.congr rfl)).drops hremoves.blocks)

end BlockStore.Filed

theorem Reachable.mono {V : Set Block} (hsub : U ⊆ V) (hs : Reachable env U s) :
    Reachable env V s := by
  induction hs with
  | genesis h => exact .genesis h
  | process _ hb h ih => exact .process ih (hsub hb) h
  | rollback _ hexists hgen h ih => exact .rollback ih hexists hgen h

theorem Reachable.filed (hgen : .openBlock env.genesisOpen ∈ U)
    (hs : Reachable env U s) : s.Filed env U := by
  induction hs with
  | genesis h =>
    have hempty : BlockStore.empty.Filed env U := by
      intro t h v hv
      cases t <;> exact absurd hv (by simp [BlockStore.empty, BlockStore.blockDatabase])
    exact hempty.appends hgen (genesis_appends h)
  | process _ hb h ih =>
    rcases process_appends h with rfl | ⟨a, happends⟩
    · exact ih
    · exact ih.appends hb happends
  | rollback _ _ _ h ih => exact ih.unrolls (rollback_unrolls h)

end Badem
