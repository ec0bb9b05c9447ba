import Badem.Core.WalletActions
import Badem.Ledger.MarkerHashes
import Badem.Wallet.Keys

/-!
# Signing

The actions assert that `fetch` has returned a key as soon as the account is in the wallet.  An
account that is only watched is in the wallet without a key.
-/

namespace Badem

open Mdb WalletStore

section Fetch

variable {crypto : Crypto} {w : WalletStore} {account : Account}

theorem exists_fetch (crypto : Crypto) (w : WalletStore) (pub : Account) :
    ∃ r, w.fetch crypto pub = .ok r := by
  rw [fetch]
  split_ifs with hvalid
  · rw [entryKey]
    split_ifs
    · cases (w.entryGetRaw pub).keyType with
      | deterministic =>
        rw [deterministicKey, require_of hvalid]
        exact ⟨_, rfl⟩
      | _ => exact ⟨_, rfl⟩
    · exact ⟨_, rfl⟩
  · exact ⟨_, rfl⟩

def KeyHeld (crypto : Crypto) (w : WalletStore) (account : Account) : Prop :=
  ∃ prv, w.fetch crypto account = .ok (some prv)

theorem fetch_of_not_keyHeld (h : ¬ KeyHeld crypto w account) :
    w.fetch crypto account = .ok none := by
  obtain ⟨r, hr⟩ := exists_fetch crypto w account
  cases r with
  | none => exact hr
  | some prv => exact absurd ⟨prv, hr⟩ h

theorem publicKey_of_fetch {prv : RawKey}
    (h : w.fetch crypto account = .ok (some prv)) : crypto.publicKey prv = account := by
  rw [fetch] at h
  split_ifs at h
  · obtain ⟨r, hr, h⟩ := ok_of_bind h
    obtain ⟨-, hfilter⟩ := Option.filter_eq_some_iff.mp (Except.ok.inj h)
    exact (of_decide_eq_true hfilter).symm
  · simp at h

theorem not_keyHeld_iff_watched {draws : Draws} {K : Set RawKey} {P : Set String} {log : WalletLog}
    (A : KeyMaterial crypto draws K P) (hrun : WalletRun crypto draws K P log w)
    (hvalid : w.validPassword crypto = true) (hspecial : specialCount ≤ account)
    (hexists : w.keyExists account = true) :
    ¬ KeyHeld crypto w account ↔ log.holdings account = .watched := by
  have F := hrun.logged A
  have hstores := F.accounts account hspecial
  cases hholding : log.holdings account with
  | absent =>
    rw [hholding] at hstores
    simp [keyExists, WalletStore.find, show w.table.get account = none from hstores] at hexists
  | watched =>
    refine iff_of_true (fun ⟨prv, hprv⟩ => ?_) rfl
    simp [F.fetch_not_held hspecial (by simp [hholding])] at hprv
  | held prv =>
    refine iff_of_false (fun hnot => hnot ⟨prv, ?_⟩) (by simp)
    exact F.fetch_held ((F.validPassword_iff A.check).mp hvalid) hholding

end Fetch

/-! ## Building a block -/

section Build

variable {env : WalletEnv} {w : WalletStore} {s : BlockStore}
  {source account representative : Account} {amount : Uint128} {info : AccountInfo} {prv : RawKey}

structure SendReady (env : WalletEnv) (w : WalletStore) (s : BlockStore) (source : Account)
    (amount : Uint128) : Prop where
  unlocked : w.validPassword env.toCrypto = true
  present : w.keyExists source = true
  positive : Ledger.accountBalance s source ≠ 0
  enough : amount ≤ Ledger.accountBalance s source

theorem sendBlock_of_not_ready (h : ¬ SendReady env w s source amount) :
    Wallet.sendBlock env w s source account amount = .ok none := by
  rw [Wallet.sendBlock]
  by_cases hunlocked : w.validPassword env.toCrypto = true
  · by_cases hpresent : w.keyExists source = true
    · rw [if_pos hunlocked, if_pos hpresent]
      simp only
      rw [if_neg fun hbalance => h ⟨hunlocked, hpresent, hbalance.1, hbalance.2⟩]
    · rw [if_pos hunlocked, if_neg hpresent]
  · rw [if_neg hunlocked]

theorem exists_account_of_balance (h : Ledger.accountBalance s source ≠ 0) :
    ∃ info, s.accountGet source = some info ∧ Ledger.accountBalance s source = info.balance := by
  rw [Ledger.accountBalance] at h ⊢
  cases hinfo : s.accountGet source with
  | none =>
    rw [hinfo] at h
    exact absurd rfl h
  | some info => exact ⟨info, rfl, rfl⟩

def sendHashables (source account : Account) (amount : Uint128) (info : AccountInfo)
    (repBlock : Block) : StateHashables where
  account := source
  previous := info.head
  representative := repBlock.representative
  balance := info.balance - amount
  link := account

theorem sendBlock_of_ready (h : SendReady env w s source amount)
    (hinfo : s.accountGet source = some info) {repBlock : Block}
    (hrep : s.blockGet info.repBlock = some repBlock)
    (hprv : w.fetch env.toCrypto source = .ok (some prv)) :
    Wallet.sendBlock env w s source account amount =
      .ok (some (.sign env (sendHashables source account amount info repBlock) prv source
        (w.workGet source))) := by
  have hbalance : Ledger.accountBalance s source = info.balance := by
    rw [Ledger.accountBalance, hinfo]
  rw [Wallet.sendBlock, if_pos h.unlocked, if_pos h.present]
  simp only
  rw [if_pos ⟨h.positive, h.enough⟩, hinfo, expect_some, ok_bind, hprv, ok_bind, expect_some,
    ok_bind, hrep, expect_some, ok_bind, hbalance]
  rfl

theorem sendBlock_of_not_keyHeld
    (h : SendReady env w s source amount) (hkey : ¬ KeyHeld env.toCrypto w source) :
    Wallet.sendBlock env w s source account amount = .error .assertion := by
  obtain ⟨info, hinfo, -⟩ := exists_account_of_balance h.positive
  rw [Wallet.sendBlock, if_pos h.unlocked, if_pos h.present]
  simp only
  rw [if_pos ⟨h.positive, h.enough⟩, hinfo, expect_some, ok_bind, fetch_of_not_keyHeld hkey]
  rfl

structure ChangeReady (env : WalletEnv) (w : WalletStore) (s : BlockStore) (source : Account) :
    Prop where
  unlocked : w.validPassword env.toCrypto = true
  present : w.keyExists source = true
  opened : Ledger.latest s source ≠ 0

theorem exists_account_of_latest (h : Ledger.latest s source ≠ 0) :
    ∃ info, s.accountGet source = some info := by
  rw [Ledger.latest] at h
  cases hinfo : s.accountGet source with
  | none =>
    rw [hinfo] at h
    exact absurd rfl h
  | some info => exact ⟨info, rfl⟩

theorem changeAction_of_not_ready (h : ¬ ChangeReady env w s source) :
    Wallet.changeAction env w s source representative = .ok none := by
  rw [Wallet.changeAction]
  by_cases hunlocked : w.validPassword env.toCrypto = true
  · rw [if_pos hunlocked, if_neg fun hopen => h ⟨hunlocked, hopen.1, hopen.2⟩]
  · rw [if_neg hunlocked]

def changeHashables (source representative : Account) (info : AccountInfo) : StateHashables where
  account := source
  previous := info.head
  representative := representative
  balance := info.balance
  link := 0

theorem changeAction_of_ready (h : ChangeReady env w s source)
    (hinfo : s.accountGet source = some info)
    (hprv : w.fetch env.toCrypto source = .ok (some prv)) :
    Wallet.changeAction env w s source representative =
      .ok (some (.sign env (changeHashables source representative info) prv source
        (w.workGet source))) := by
  rw [Wallet.changeAction, if_pos h.unlocked, if_pos ⟨h.present, h.opened⟩, hinfo, expect_some,
    ok_bind, hprv, ok_bind, expect_some, ok_bind]
  rfl

theorem changeAction_of_not_keyHeld
    (h : ChangeReady env w s source) (hkey : ¬ KeyHeld env.toCrypto w source) :
    Wallet.changeAction env w s source representative = .error .assertion := by
  obtain ⟨info, hinfo⟩ := exists_account_of_latest h.opened
  rw [Wallet.changeAction, if_pos h.unlocked, if_pos ⟨h.present, h.opened⟩, hinfo, expect_some,
    ok_bind, fetch_of_not_keyHeld hkey]
  rfl

def SignedWith (env : WalletEnv) (prv : RawKey) (account : Account) (b : StateBlock) : Prop :=
  b.signature = env.signMessage prv account ((Block.stateBlock b).hash env.toEnv)

theorem signedWith_sign (env : WalletEnv) (hashables : StateHashables) (prv : RawKey)
    (pub : Account) (work : Uint64) : SignedWith env prv pub (.sign env hashables prv pub work) :=
  rfl

end Build

/-! ## The three actions -/

section Actions

variable {env : WalletEnv} {U : Set Block} {s : BlockStore} {w : WalletStore}
  {ids : Wallet.SendActionIds} {source account : Account} {amount : Uint128} {id : Option String}

/-- `send_action` fails no assertion and signs only with the key of the source. -/
def SendSafe (env : WalletEnv) (w : WalletStore) (s : BlockStore) (ids : Wallet.SendActionIds)
    (source account : Account) (amount : Uint128) (id : Option String) : Prop :=
  ∃ result ids', Wallet.sendAction env w s ids source account amount id = .ok (result, ids') ∧
    ∀ b, result = .created b →
      ∃ prv, w.fetch env.toCrypto source = .ok (some prv) ∧ SignedWith env prv source b

def ChangeSafe (env : WalletEnv) (w : WalletStore) (s : BlockStore)
    (source representative : Account) : Prop :=
  ∃ result, Wallet.changeAction env w s source representative = .ok result ∧
    ∀ b, result = some b →
      ∃ prv, w.fetch env.toCrypto source = .ok (some prv) ∧ SignedWith env prv source b

def VotesSafe (env : WalletEnv) (s : BlockStore) (items : List WalletStore) : Prop :=
  ∃ actions, Wallets.foreachRepresentative env s items = .ok actions ∧
    ∀ x ∈ actions, ∃ w ∈ items, w.fetch env.toCrypto x.1 = .ok (some x.2)

/-- The id leads to no block of the ledger, so a block is to be built. -/
structure Unsent (env : WalletEnv) (s : BlockStore) (ids : Wallet.SendActionIds)
    (id : Option String) : Prop where
  readable : id.any env.getFails = false
  unstored : (id.bind ids).bind s.blockGet = none

theorem sendAction_of_unsent (h : Unsent env s ids id) :
    Wallet.sendAction env w s ids source account amount id =
      (do
        let block ← Wallet.sendBlock env w s source account amount
        pure (Wallet.recordSend env ids id block)) := by
  rw [Wallet.sendAction, if_neg (by simp [h.readable]), h.unstored]

theorem sendAction_of_not_unsent (h : ¬ Unsent env s ids id) :
    ∃ result, Wallet.sendAction env w s ids source account amount id = .ok (result, ids) ∧
      ∀ b, result ≠ .created b := by
  rw [Wallet.sendAction]
  split_ifs with hfails
  · exact ⟨_, rfl, fun b => by simp⟩
  · cases hblock : (id.bind ids).bind s.blockGet with
    | none => exact absurd ⟨by simpa using hfails, hblock⟩ h
    | some block => exact ⟨_, rfl, fun b => by simp⟩

theorem recordSend_created {ids' : Wallet.SendActionIds}
    {block : Option StateBlock} {b : StateBlock}
    (h : Wallet.recordSend env ids id block = (.created b, ids')) : block = some b := by
  cases block with
  | none => exact absurd (Prod.mk.inj h).1 (by simp)
  | some block =>
    cases id with
    | none =>
      simp only [Wallet.recordSend, Prod.mk.injEq, Wallet.SendResult.created.injEq] at h
      rw [h.1]
    | some id =>
      simp only [Wallet.recordSend] at h
      split_ifs at h
      · exact absurd (Prod.mk.inj h).1 (by simp)
      · simp_all

section Send

variable (H : CollisionFree env.toEnv U) (M : MarkerFree env.toEnv U)
variable (hs : Reachable env.toEnv U s)

include H M hs

theorem exists_repBlock_of_account {info : AccountInfo} (hinfo : s.accountGet source = some info) :
    ∃ repBlock, s.blockGet info.repBlock = some repBlock := by
  obtain ⟨L, hR⟩ := hs.refines H M
  obtain ⟨r, hr, -⟩ := hR.repBlock_stored hinfo
  exact ⟨r.block, hR.blockGet_of_find hr⟩

theorem sendSafe_iff (w : WalletStore) (ids : Wallet.SendActionIds) (source account : Account)
    (amount : Uint128) (id : Option String) :
    SendSafe env w s ids source account amount id ↔
      (Unsent env s ids id → SendReady env w s source amount → KeyHeld env.toCrypto w source) := by
  constructor
  · rintro ⟨result, ids', hsend, -⟩ hunsent hready
    by_contra hkey
    rw [sendAction_of_unsent hunsent, sendBlock_of_not_keyHeld hready hkey] at hsend
    exact absurd hsend (by simp [Bind.bind, Except.bind])
  · intro hkeys
    by_cases hunsent : Unsent env s ids id
    · by_cases hready : SendReady env w s source amount
      · obtain ⟨prv, hprv⟩ := hkeys hunsent hready
        obtain ⟨info, hinfo, -⟩ := exists_account_of_balance hready.positive
        obtain ⟨repBlock, hrep⟩ := exists_repBlock_of_account H M hs hinfo
        rw [SendSafe, sendAction_of_unsent hunsent, sendBlock_of_ready hready hinfo hrep hprv]
        refine ⟨_, _, rfl, fun b hb => ⟨prv, hprv, ?_⟩⟩
        obtain rfl := Option.some.inj (recordSend_created (Prod.ext hb rfl))
        exact signedWith_sign env _ _ _ _
      · rw [SendSafe, sendAction_of_unsent hunsent, sendBlock_of_not_ready hready]
        exact ⟨_, _, rfl, fun b hb => absurd hb (by simp)⟩
    · obtain ⟨result, hresult, hnone⟩ := sendAction_of_not_unsent hunsent
      exact ⟨result, ids, hresult, fun b hb => absurd hb (hnone b)⟩

end Send

theorem changeSafe_iff (w : WalletStore) (source representative : Account) :
    ChangeSafe env w s source representative ↔
      (ChangeReady env w s source → KeyHeld env.toCrypto w source) := by
  constructor
  · rintro ⟨result, hchange, -⟩ hready
    by_contra hkey
    simp [changeAction_of_not_keyHeld hready hkey] at hchange
  · intro hkeys
    by_cases hready : ChangeReady env w s source
    · obtain ⟨prv, hprv⟩ := hkeys hready
      obtain ⟨info, hinfo⟩ := exists_account_of_latest hready.opened
      refine ⟨_, changeAction_of_ready hready hinfo hprv, fun b hb => ⟨prv, hprv, ?_⟩⟩
      cases hb
      exact signedWith_sign env _ _ _ _
    · exact ⟨none, changeAction_of_not_ready hready, fun b hb => absurd hb (by simp)⟩

/-- The account votes with its key. -/
structure VoteReady (env : WalletEnv) (w : WalletStore) (s : BlockStore) (account : Account) :
    Prop where
  weight : Ledger.weight env.bootstrapWeights s account ≠ 0
  unlocked : w.validPassword env.toCrypto = true

theorem fetch_of_walletRepresentatives (accounts : List Account) :
    ∀ {actions : List (Account × RawKey)},
      Wallets.walletRepresentatives env s w accounts = .ok actions →
      ∀ x ∈ actions, w.fetch env.toCrypto x.1 = .ok (some x.2) := by
  induction accounts with
  | nil =>
    intro actions h
    cases h
    simp
  | cons a accounts ih =>
    intro actions h
    rw [Wallets.walletRepresentatives] at h
    split_ifs at h
    · obtain ⟨fetched, hfetch, h⟩ := ok_of_bind h
      obtain ⟨prv, hprv, h⟩ := ok_of_bind h
      obtain ⟨rest, hrest, h⟩ := ok_of_bind h
      cases h
      obtain rfl := eq_some_of_expect_eq_ok hprv
      rw [List.forall_mem_cons]
      exact ⟨hfetch, ih hrest⟩
    · exact ih h

theorem walletRepresentatives_iff (w : WalletStore) (accounts : List Account) :
    (∃ actions, Wallets.walletRepresentatives env s w accounts = .ok actions) ↔
      ∀ a ∈ accounts, VoteReady env w s a → KeyHeld env.toCrypto w a := by
  induction accounts with
  | nil => exact iff_of_true ⟨[], rfl⟩ (by simp)
  | cons a accounts ih =>
    rw [List.forall_mem_cons, ← ih, Wallets.walletRepresentatives]
    by_cases hready : Ledger.weight env.bootstrapWeights s a ≠ 0 ∧
        w.validPassword env.toCrypto = true
    · rw [if_pos hready]
      by_cases hkey : KeyHeld env.toCrypto w a
      · obtain ⟨prv, hprv⟩ := hkey
        rw [hprv, ok_bind, expect_some, ok_bind]
        constructor
        · rintro ⟨actions, hactions⟩
          obtain ⟨rest, hrest, -⟩ := ok_of_bind hactions
          exact ⟨fun _ => ⟨prv, hprv⟩, rest, hrest⟩
        · rintro ⟨-, rest, hrest⟩
          exact ⟨(a, prv) :: rest, bind_eq_of_ok hrest rfl⟩
      · rw [fetch_of_not_keyHeld hkey]
        refine iff_of_false ?_ (fun h => hkey (h.1 ⟨hready.1, hready.2⟩))
        rintro ⟨actions, hactions⟩
        exact absurd hactions (by simp [expect, Bind.bind, Except.bind])
    · rw [if_neg hready]
      exact (and_iff_right fun h => absurd ⟨h.weight, h.unlocked⟩ hready).symm

theorem fetch_of_foreachRepresentative (items : List WalletStore) :
    ∀ {actions : List (Account × RawKey)},
      Wallets.foreachRepresentative env s items = .ok actions →
      ∀ x ∈ actions, ∃ w ∈ items, w.fetch env.toCrypto x.1 = .ok (some x.2) := by
  induction items with
  | nil =>
    intro actions h
    cases h
    simp
  | cons w items ih =>
    intro actions h x hx
    obtain ⟨first, hfirst, h⟩ := ok_of_bind h
    obtain ⟨rest, hrest, h⟩ := ok_of_bind h
    cases h
    rcases List.mem_append.mp hx with hx | hx
    · exact ⟨w, .head _, fetch_of_walletRepresentatives _ hfirst x hx⟩
    · obtain ⟨w', hw', hfetch⟩ := ih hrest x hx
      exact ⟨w', .tail _ hw', hfetch⟩

theorem foreachRepresentative_iff (items : List WalletStore) :
    (∃ actions, Wallets.foreachRepresentative env s items = .ok actions) ↔
      ∀ w ∈ items, ∀ a ∈ w.accounts, VoteReady env w s a → KeyHeld env.toCrypto w a := by
  induction items with
  | nil => exact iff_of_true ⟨[], rfl⟩ (by simp)
  | cons w items ih =>
    rw [List.forall_mem_cons, ← walletRepresentatives_iff, ← ih]
    constructor
    · rintro ⟨actions, hactions⟩
      obtain ⟨first, hfirst, h⟩ := ok_of_bind hactions
      obtain ⟨rest, hrest, -⟩ := ok_of_bind h
      exact ⟨⟨first, hfirst⟩, rest, hrest⟩
    · rintro ⟨⟨first, hfirst⟩, rest, hrest⟩
      exact ⟨first ++ rest, bind_eq_of_ok hfirst (bind_eq_of_ok hrest rfl)⟩

end Actions

/-- The actions fail no assertion exactly when the wallet has the key of every account it signs
for. -/
theorem signs_safely_iff {env : WalletEnv} {U : Set Block} {s : BlockStore}
    (H : CollisionFree env.toEnv U) (M : MarkerFree env.toEnv U) (hs : Reachable env.toEnv U s) :
    (∀ w ids source account amount id, SendSafe env w s ids source account amount id ↔
      (Unsent env s ids id → SendReady env w s source amount →
        KeyHeld env.toCrypto w source)) ∧
    (∀ w source representative, ChangeSafe env w s source representative ↔
      (ChangeReady env w s source → KeyHeld env.toCrypto w source)) ∧
    ∀ items, VotesSafe env s items ↔
      ∀ w ∈ items, ∀ a ∈ w.accounts, VoteReady env w s a → KeyHeld env.toCrypto w a := by
  refine ⟨fun w ids source account amount id => sendSafe_iff H M hs w ids source account amount id,
    changeSafe_iff, fun items => ?_⟩
  rw [← foreachRepresentative_iff]
  constructor
  · rintro ⟨actions, hactions, -⟩
    exact ⟨actions, hactions⟩
  · rintro ⟨actions, hactions⟩
    exact ⟨actions, hactions, fetch_of_foreachRepresentative items hactions⟩

/-! ## Wallets with the genesis account -/

def sampleEnv : WalletEnv where
  toNodeEnv := { plainEnv with workValue := fun _ _ => BitVec.allOnes 64 }
  toCrypto := sampleCrypto
  receiveMinimum := 0
  bootstrapWeights := ⟨false, 0, .empty⟩
  getFails := fun _ => false
  putFails := fun _ => false

def genesisHeld : Except Fault (BlockStore × WalletStore) := do
  let s ← genesisInitialize plainEnv 0 .empty
  let w ← create sampleCrypto sampleDraws 99 .empty
  let (pub, w) ← w.insertAdhoc sampleCrypto plainEnv.genesisAccount
  require (pub = plainEnv.genesisAccount)
  pure (s, w)

/-- The account that holds the supply sends, changes its representative and votes. -/
theorem signs_safely_iff_genesis :
    ∃ s w, genesisHeld = .ok (s, w) ∧
      SendSafe sampleEnv w s (fun _ => none) plainEnv.genesisAccount 77 10 none ∧
      ChangeSafe sampleEnv w s plainEnv.genesisAccount 77 ∧ VotesSafe sampleEnv s [w] := by
  obtain ⟨⟨s, w⟩, hrun, haccounts⟩ : ∃ x, genesisHeld = .ok x ∧
      x.2.accounts = [plainEnv.genesisAccount] := by
    decide +kernel
  have h := hrun
  obtain ⟨s', hs, h⟩ := ok_of_bind h
  obtain ⟨w₀, hcreate, h⟩ := ok_of_bind h
  obtain ⟨⟨pub, w'⟩, hinsert, h⟩ := ok_of_bind h
  obtain ⟨_, hpub, h⟩ := ok_of_bind h
  obtain ⟨rfl, rfl⟩ := Prod.mk.inj (Except.ok.inj h)
  obtain rfl : pub = plainEnv.genesisAccount := of_require_eq_ok hpub
  have F := logged_create hcreate
  have hkey : KeyHeld sampleCrypto w' plainEnv.genesisAccount := by
    have F' := F.insertAdhoc sample_material.check (by decide) ?_ hinsert
    · exact ⟨plainEnv.genesisAccount, F'.fetch_held rfl (by simp)⟩
    · rw [F.walletKey_eq rfl, F.iv]
      decide
  obtain ⟨hsend, hchange, hvotes⟩ := @signs_safely_iff sampleEnv plainSet s' plain_collisionFree
    plain_markerFree (.genesis hs)
  refine ⟨s', w', hrun, (hsend _ _ _ _ _ _).mpr fun _ _ => hkey, (hchange _ _ _).mpr fun _ => hkey,
    (hvotes _).mpr ?_⟩
  intro x hx a ha _
  obtain rfl := List.mem_singleton.mp hx
  rw [show x.accounts = [plainEnv.genesisAccount] from haccounts] at ha
  obtain rfl := List.mem_singleton.mp ha
  exact hkey

def genesisWatched : Except Fault (BlockStore × WalletStore) := do
  let s ← genesisInitialize plainEnv 0 .empty
  let w ← create sampleCrypto sampleDraws 99 .empty
  pure (s, w.insertWatch plainEnv.genesisAccount)

/-- All three actions fail for an account that the wallet only watches. -/
theorem watched_account_fails :
    ∃ s w log, genesisWatched = .ok (s, w) ∧ Reachable plainEnv plainSet s ∧
      WalletRun sampleCrypto sampleDraws sampleKeys samplePasswords log w ∧
      ¬ SendSafe sampleEnv w s (fun _ => none) plainEnv.genesisAccount 77 10 none ∧
      ¬ ChangeSafe sampleEnv w s plainEnv.genesisAccount 77 ∧ ¬ VotesSafe sampleEnv s [w] := by
  obtain ⟨⟨s, w⟩, hrun, hsend, hchange, hvotes⟩ : ∃ x, genesisWatched = .ok x ∧
      returns (Wallet.sendAction sampleEnv x.2 x.1 (fun _ => none) plainEnv.genesisAccount 77 10
        none) (fun _ => true) = false ∧
      returns (Wallet.changeAction sampleEnv x.2 x.1 plainEnv.genesisAccount 77)
        (fun _ => true) = false ∧
      returns (Wallets.foreachRepresentative sampleEnv x.1 [x.2]) (fun _ => true) = false := by
    decide +kernel
  have h := hrun
  obtain ⟨s', hs, h⟩ := ok_of_bind h
  obtain ⟨w₀, hcreate, h⟩ := ok_of_bind h
  cases h
  refine ⟨_, _, _, hrun, .genesis hs, .insertWatch (.create hcreate) (by decide), ?_, ?_, ?_⟩
  · rintro ⟨result, ids, hresult, -⟩
    exact ne_ok_of_not_returns hsend _ hresult
  · rintro ⟨result, hresult, -⟩
    exact ne_ok_of_not_returns hchange _ hresult
  · rintro ⟨actions, hactions, -⟩
    exact ne_ok_of_not_returns hvotes _ hactions

end Badem
