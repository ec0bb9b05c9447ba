import Badem.Wallet.Entries
import Mathlib.Data.Set.Function
import Mathlib.Logic.Function.Basic

/-!
# Keys and passwords of a wallet

A wallet is followed through any sequence of operations together with a log of its passwords and
of what it holds for each account.
-/

namespace Badem

open Mdb Function

open WalletStore

/-! ## Runs -/

inductive Holding
  | absent
  | watched
  | held (prv : RawKey)
deriving DecidableEq

structure WalletLog where
  /-- The password by which the wallet key is encrypted; a new wallet has none. -/
  current : Option String
  /-- The password entered last, none since the wallet was opened. -/
  entered : Option String
  holdings : Account → Holding

def derivedKey (crypto : Crypto) (salt : Uint256) : Option String → RawKey
  | none => 0
  | some password => crypto.phs password salt

/-- The wallets that start from a new one, with the private keys `K` and the passwords `P`, and
their logs. -/
inductive WalletRun (crypto : Crypto) (draws : Draws) (K : Set RawKey) (P : Set String) :
    WalletLog → WalletStore → Prop
  | create {representative w} :
      create crypto draws representative .empty = .ok w →
      WalletRun crypto draws K P ⟨none, none, fun _ => .absent⟩ w
  | reopen {log w w'} (draws' : Draws) (representative : Account) :
      WalletRun crypto draws K P log w →
      WalletStore.create crypto draws' representative w.table = .ok w' →
      WalletRun crypto draws K P { log with entered := none } w'
  | attemptPassword {log w password failed w'} (seed : RawKey) :
      WalletRun crypto draws K P log w → password ∈ P →
      w.attemptPassword crypto seed password = .ok (failed, w') →
      WalletRun crypto draws K P { log with entered := some password } w'
  | rekey {log w password} :
      WalletRun crypto draws K P log w → password ∈ P →
      (w.rekey crypto password).1 = false →
      WalletRun crypto draws K P
        { log with entered := some password, current := some password } (w.rekey crypto password).2
  | rekeyFailed {log w password} :
      WalletRun crypto draws K P log w → (w.rekey crypto password).1 = true →
      WalletRun crypto draws K P log (w.rekey crypto password).2
  | insertAdhoc {log w prv pub w'} :
      WalletRun crypto draws K P log w → prv ∈ K →
      2 ^ 64 ≤ (crypto.encrypt prv (w.walletKey crypto) w.iv).toNat →
      w.insertAdhoc crypto prv = .ok (pub, w') →
      WalletRun crypto draws K P
        { log with holdings := update log.holdings pub (.held prv) } w'
  | deterministicInsert {log w prv pub w'} :
      WalletRun crypto draws K P log w → w.deterministicInsert crypto = .ok (pub, w') →
      prv ∈ K → crypto.publicKey prv = pub →
      WalletRun crypto draws K P
        { log with holdings := update log.holdings pub (.held prv) } w'
  | insertWatch {log w pub} :
      WalletRun crypto draws K P log w → specialCount ≤ pub →
      WalletRun crypto draws K P
        { log with holdings := update log.holdings pub .watched } (w.insertWatch pub)
  | erase {log w pub w'} :
      WalletRun crypto draws K P log w → specialCount ≤ pub → w.erase pub = .ok w' →
      WalletRun crypto draws K P
        { log with holdings := update log.holdings pub .absent } w'
  | workPut {log w pub w'} (work : Uint64) :
      WalletRun crypto draws K P log w → w.workPut pub work = .ok w' →
      WalletRun crypto draws K P log w'

/-- What the results assume of the cryptographic functions, for the private keys and the
passwords in use. -/
structure KeyMaterial (crypto : Crypto) (draws : Draws) (K : Set RawKey) (P : Set String) :
    Prop where
  /-- The encryption of zero determines the key. -/
  check : ∀ iv, Injective (fun key => crypto.encrypt 0 key iv)
  /-- Different passwords give different keys. -/
  derive : Set.InjOn (fun password => crypto.phs password draws.salt) P
  publicKey : Set.InjOn crypto.publicKey K
  special : ∀ prv ∈ K, specialCount ≤ crypto.publicKey prv
  deterministic : ∀ index, crypto.deterministicKey draws.seed index ∈ K

/-! ## The invariant -/

section Invariant

variable (crypto : Crypto) (draws : Draws)

def Opens (v : WalletValue) (prv : RawKey) : Prop :=
  (2 ^ 64 ≤ v.key.toNat ∧ v.key = crypto.encrypt prv draws.walletKey (firstOword draws.salt)) ∨
    ∃ index, v.key = marker index ∧ prv = crypto.deterministicKey draws.seed index

/-- The entry of an account agrees with what the wallet holds for it. -/
def Stores (pub : Account) (entry : Option WalletValue) : Holding → Prop
  | .absent => entry = none
  | .watched => ∃ v, entry = some v ∧ v.key = 0
  | .held prv => crypto.publicKey prv = pub ∧ ∃ v, entry = some v ∧ Opens crypto draws v prv

/-- The tables and the fans of a wallet agree with its log. -/
structure Logged (log : WalletLog) (w : WalletStore) : Prop where
  opened : (w.table.get versionSpecial).isSome = true
  version : w.version = versionCurrent
  salt : w.salt = draws.salt
  check : w.check = crypto.encrypt 0 draws.walletKey (firstOword draws.salt)
  walletKey : (w.entryGetRaw walletKeySpecial).key = crypto.encrypt draws.walletKey
    (derivedKey crypto draws.salt log.current) (firstOword draws.salt)
  seed : (w.entryGetRaw seedSpecial).key =
    crypto.encrypt draws.seed draws.walletKey (firstOword draws.salt)
  memory : w.walletKeyMem.value = (w.entryGetRaw walletKeySpecial).key
  password : w.password.value = derivedKey crypto draws.salt log.entered
  accounts : ∀ pub, specialCount ≤ pub →
    Stores crypto draws pub (w.table.get pub) (log.holdings pub)
  special : ∀ pub, pub < specialCount → log.holdings pub = .absent

end Invariant

section Reading

variable {crypto : Crypto} {draws : Draws} {log : WalletLog} {w : WalletStore}
variable (F : Logged crypto draws log w) {prv : RawKey} {pub : Account}

include F

theorem Logged.iv : w.iv = firstOword draws.salt := by
  rw [WalletStore.iv, F.salt]

theorem Logged.walletKey_eq
    (h : derivedKey crypto draws.salt log.entered = derivedKey crypto draws.salt log.current) :
    w.walletKey crypto = draws.walletKey := by
  rw [WalletStore.walletKey, F.memory, F.walletKey, F.password, F.iv, h, Crypto.decrypt_encrypt]

theorem Logged.validPassword
    (h : derivedKey crypto draws.salt log.entered = derivedKey crypto draws.salt log.current) :
    w.validPassword crypto = true := by
  rw [WalletStore.validPassword, decide_eq_true_eq, F.check, F.iv, F.walletKey_eq h]

theorem Logged.validPassword_iff (hcheck : ∀ iv, Injective (fun key => crypto.encrypt 0 key iv)) :
    w.validPassword crypto = true ↔
      derivedKey crypto draws.salt log.entered = derivedKey crypto draws.salt log.current := by
  refine ⟨fun h => ?_, F.validPassword⟩
  rw [WalletStore.validPassword, decide_eq_true_eq, F.check, F.iv] at h
  have hkey : draws.walletKey = w.walletKey crypto := hcheck _ h
  rw [WalletStore.walletKey, F.memory, F.walletKey, F.password, F.iv, Crypto.decrypt,
    Crypto.encrypt, BitVec.xor_assoc] at hkey
  -- The two keystreams cancel, so they are those of one key.
  have hstream : crypto.keystream (derivedKey crypto draws.salt log.current)
        (firstOword draws.salt) =
      crypto.keystream (derivedKey crypto draws.salt log.entered) (firstOword draws.salt) := by
    refine BitVec.xor_eq_zero_iff.mp ((BitVec.xor_right_inj draws.walletKey).mp ?_)
    rw [← hkey, BitVec.xor_zero]
  refine (hcheck (firstOword draws.salt) ?_).symm
  simp only [Crypto.encrypt, hstream]

theorem Logged.seed_eq
    (h : derivedKey crypto draws.salt log.entered = derivedKey crypto draws.salt log.current) :
    w.seed crypto = draws.seed := by
  rw [WalletStore.seed, F.seed, F.walletKey_eq h, F.iv, Crypto.decrypt_encrypt]

theorem Logged.entryKey_eq
    (h : derivedKey crypto draws.salt log.entered = derivedKey crypto draws.salt log.current)
    {v : WalletValue} (hopens : Opens crypto draws v prv) :
    w.entryKey crypto v = .ok (some prv) := by
  rcases hopens with ⟨hlarge, hkey⟩ | ⟨index, hkey, rfl⟩
  · have hne : v.key ≠ 0 := fun hz => by
      rw [hz] at hlarge
      simp at hlarge
    have htype : v.keyType = .adhoc := by
      rw [WalletValue.keyType, if_pos (by omega)]
    rw [entryKey, if_pos hne, htype]
    simp only
    rw [F.walletKey_eq h, F.iv, hkey, Crypto.decrypt_encrypt]
  · obtain ⟨key, work⟩ := v
    obtain rfl : key = marker index := hkey
    rw [entryKey, if_pos (marker_ne_zero index), keyType_marker]
    simp only
    rw [deterministicKey, require_of (F.validPassword h), F.seed_eq h,
      setWidth_marker]
    rfl

theorem Logged.fetch_held
    (h : derivedKey crypto draws.salt log.entered = derivedKey crypto draws.salt log.current)
    (hheld : log.holdings pub = .held prv) : w.fetch crypto pub = .ok (some prv) := by
  have hpub : specialCount ≤ pub := by
    by_contra hlt
    simp [F.special pub (not_le.mp hlt)] at hheld
  have hstores := F.accounts pub hpub
  rw [hheld] at hstores
  obtain ⟨hkey, v, hv, hopens⟩ := hstores
  rw [fetch, if_pos (F.validPassword h), entryGetRaw_of_get hv, F.entryKey_eq h hopens]
  show Except.ok (Option.filter _ (some prv)) = _
  rw [Option.filter_some, if_pos (decide_eq_true hkey.symm)]

theorem Logged.fetch_not_held (hpub : specialCount ≤ pub)
    (hheld : ∀ prv, log.holdings pub ≠ .held prv) : w.fetch crypto pub = .ok none := by
  have hzero : (w.entryGetRaw pub).key = 0 := by
    have hstores := F.accounts pub hpub
    cases hholding : log.holdings pub with
    | absent =>
      rw [hholding] at hstores
      rw [entryGetRaw, show w.table.get pub = none from hstores]
      rfl
    | watched =>
      rw [hholding] at hstores
      obtain ⟨v, hv, hz⟩ := hstores
      rw [entryGetRaw_of_get hv, hz]
    | held prv => exact absurd hholding (hheld prv)
  rw [fetch, entryKey, if_neg (not_not.mpr hzero)]
  split_ifs <;> rfl

theorem Logged.locked (hcheck : ∀ iv, Injective (fun key => crypto.encrypt 0 key iv))
    (h : derivedKey crypto draws.salt log.entered ≠ derivedKey crypto draws.salt log.current) :
    (∀ pub, w.fetch crypto pub = .ok none) ∧ ∀ password, w.rekey crypto password = (true, w) := by
  have hlocked : ¬ w.validPassword crypto = true := fun hv => h ((F.validPassword_iff hcheck).mp hv)
  exact ⟨fun pub => by rw [fetch, if_neg hlocked], fun password => by rw [rekey, if_neg hlocked]⟩

end Reading

/-! ## Steps -/

section Steps

variable {crypto : Crypto} {draws : Draws} {log : WalletLog} {w : WalletStore}
  {representative pub : Account} {v : WalletValue} {holding : Holding} {w' : WalletStore}
  {password : String}

theorem logged_create (h : create crypto draws representative .empty = .ok w) :
    Logged crypto draws ⟨none, none, fun _ => .absent⟩ w := by
  obtain ⟨w', hw', hpassword, hmem, hget⟩ := create_spec crypto draws representative
  cases h.symm.trans hw'
  refine ⟨?_, ?_, ?_, ?_, ?_, ?_, ?_, hpassword, ?_, fun _ _ => rfl⟩
  · rw [hget]
    rfl
  · rw [version, entryGetRaw_of_get (hget versionSpecial)]
    rfl
  · rw [salt, entryGetRaw_of_get (hget saltSpecial)]
  · rw [check, entryGetRaw_of_get (hget checkSpecial)]
  · rw [entryGetRaw_of_get (hget walletKeySpecial)]
    rfl
  · rw [entryGetRaw_of_get (hget seedSpecial)]
  · rw [hmem, entryGetRaw_of_get (hget walletKeySpecial)]
  · intro pub hpub
    exact (hget pub).trans (newEntry_eq_none crypto draws representative hpub)

theorem Stores.of_key_eq {v' : WalletValue} (hkey : v'.key = v.key)
    (h : Stores crypto draws pub (some v) holding) : Stores crypto draws pub (some v') holding := by
  cases holding with
  | absent => exact absurd h (by simp [Stores])
  | watched =>
    obtain ⟨x, hx, hz⟩ := h
    cases hx
    exact ⟨v', rfl, hkey.trans hz⟩
  | held prv =>
    obtain ⟨hpub, x, hx, hopens⟩ := h
    cases hx
    refine ⟨hpub, v', rfl, ?_⟩
    rw [Opens, hkey]
    exact hopens

variable (F : Logged crypto draws log w)

include F

theorem Logged.congr (w' : WalletStore)
    (hspecial : ∀ k, k < specialCount → k ≠ deterministicIndexSpecial →
      (w'.entryGetRaw k).key = (w.entryGetRaw k).key)
    (hopened : (w'.table.get versionSpecial).isSome = true)
    (hpassword : w'.password = w.password) (hmem : w'.walletKeyMem = w.walletKeyMem)
    {holdings : Account → Holding}
    (haccounts : ∀ pub, specialCount ≤ pub →
      Stores crypto draws pub (w'.table.get pub) (holdings pub))
    (hholdings : ∀ pub, pub < specialCount → holdings pub = .absent) :
    Logged crypto draws { log with holdings := holdings } w' where
  opened := hopened
  version := by
    rw [WalletStore.version, hspecial _ (by decide) (by decide)]
    exact F.version
  salt := by
    rw [WalletStore.salt, hspecial _ (by decide) (by decide)]
    exact F.salt
  check := by
    rw [WalletStore.check, hspecial _ (by decide) (by decide)]
    exact F.check
  walletKey := by
    rw [hspecial _ (by decide) (by decide)]
    exact F.walletKey
  seed := by
    rw [hspecial _ (by decide) (by decide)]
    exact F.seed
  memory := by
    rw [hmem, hspecial _ (by decide) (by decide)]
    exact F.memory
  password := by
    rw [hpassword]
    exact F.password
  accounts := haccounts
  special := hholdings

theorem Logged.put (hpub : specialCount ≤ pub)
    (hstores : Stores crypto draws pub (some v) holding) :
    Logged crypto draws { log with holdings := update log.holdings pub holding }
      (w.entryPutRaw pub v) := by
  refine F.congr (w.entryPutRaw pub v) ?_ ?_ rfl rfl ?_ ?_
  · intro k hk _
    rw [entryGetRaw_entryPutRaw_ne w v (ne_of_special hk hpub)]
  · rw [find_entryPutRaw, if_neg (ne_of_special (by decide) hpub)]
    exact F.opened
  · intro k hk
    rw [find_entryPutRaw]
    by_cases heq : k = pub
    · simpa [heq, update_self] using hstores
    · rw [if_neg heq, update_of_ne heq]
      exact F.accounts k hk
  · intro k hk
    rw [update_of_ne (ne_of_special hk hpub)]
    exact F.special k hk

theorem Logged.erase (hpub : specialCount ≤ pub) (h : w.erase pub = .ok w') :
    Logged crypto draws { log with holdings := update log.holdings pub .absent } w' := by
  obtain ⟨_, _, h⟩ := ok_of_bind h
  cases h
  have hget : ∀ k, (w.table.del pub).get k = if k = pub then none else w.table.get k :=
    fun k => w.table.get_del pub k
  refine F.congr { w with table := w.table.del pub } ?_ ?_ rfl rfl ?_ ?_
  · intro k hk _
    simp only [entryGetRaw, hget, if_neg (ne_of_special hk hpub)]
  · rw [hget, if_neg (ne_of_special (by decide) hpub)]
    exact F.opened
  · intro k hk
    rw [hget]
    by_cases heq : k = pub
    · rw [if_pos heq, heq, update_self]
      rfl
    · rw [if_neg heq, update_of_ne heq]
      exact F.accounts k hk
  · intro k hk
    rw [update_of_ne (ne_of_special hk hpub)]
    exact F.special k hk

theorem Logged.deterministicIndexSet (index : Uint32) :
    Logged crypto draws log (w.deterministicIndexSet index) := by
  refine F.congr (w.deterministicIndexSet index) ?_ ?_ rfl rfl ?_ F.special
  · intro k _ hne
    rw [WalletStore.deterministicIndexSet, entryGetRaw_entryPutRaw_ne w _ hne]
  · rw [WalletStore.deterministicIndexSet, find_entryPutRaw, if_neg (by decide)]
    exact F.opened
  · intro k hk
    rw [WalletStore.deterministicIndexSet, find_entryPutRaw,
      if_neg (ne_of_special (by decide) hk).symm]
    exact F.accounts k hk

theorem Logged.workPut {work : Uint64}
    (h : w.workPut pub work = .ok w') : Logged crypto draws log w' := by
  obtain ⟨_, hkey, h⟩ := ok_of_bind h
  have hne := of_require_eq_ok hkey
  cases h
  have hsome : w.table.get pub = some (w.entryGetRaw pub) := by
    cases hv : w.table.get pub with
    | none =>
      rw [entryGetRaw, hv] at hne
      exact absurd rfl hne
    | some v => rw [entryGetRaw_of_get hv]
  refine F.congr (w.entryPutRaw pub _) ?_ ?_ rfl rfl ?_ F.special
  · intro k _ _
    by_cases heq : k = pub
    · rw [heq, entryGetRaw_entryPutRaw_self]
    · rw [entryGetRaw_entryPutRaw_ne w _ heq]
  · rw [find_entryPutRaw]
    split_ifs
    · rfl
    · exact F.opened
  · intro k hk
    rw [find_entryPutRaw]
    by_cases heq : k = pub
    · have hstores := F.accounts k hk
      rw [heq, hsome] at hstores
      rw [if_pos heq, heq]
      exact Stores.of_key_eq (show _ = (w.entryGetRaw pub).key from rfl) hstores
    · rw [if_neg heq]
      exact F.accounts k hk

theorem Logged.enter {entered : Option String} {f : Fan}
    (hf : f.value = derivedKey crypto draws.salt entered) :
    Logged crypto draws { log with entered := entered } { w with password := f } :=
  { F with password := hf }

theorem Logged.attemptPassword {seed : RawKey} {failed : Bool}
    (h : w.attemptPassword crypto seed password = .ok (failed, w')) :
    Logged crypto draws { log with entered := some password } w' := by
  have hvalue : (w.password.valueSet (w.deriveKey crypto password)).value =
      derivedKey crypto draws.salt (some password) := by
    rw [Fan.value_valueSet, deriveKey, F.salt]
    rfl
  have F' := F.enter hvalue
  rw [attemptPassword_of_version F.version] at h
  obtain rfl := (Prod.mk.inj (Except.ok.inj h)).2
  exact F'

theorem Logged.rekey
    (h : derivedKey crypto draws.salt log.entered = derivedKey crypto draws.salt log.current) :
    Logged crypto draws { log with entered := some password, current := some password }
      (w.rekey crypto password).2 := by
  obtain ⟨hpassword, hmem, hget⟩ := rekey_spec password (F.validPassword h)
  have hderive : w.deriveKey crypto password = derivedKey crypto draws.salt (some password) := by
    rw [deriveKey, F.salt]
    rfl
  rw [hderive, F.walletKey_eq h, F.iv] at hmem hget
  have hne : ∀ k, k ≠ walletKeySpecial →
      (w.rekey crypto password).2.table.get k = w.table.get k := fun k hk => by
    rw [hget, if_neg hk]
  have hentry : ∀ k, k ≠ walletKeySpecial →
      (w.rekey crypto password).2.entryGetRaw k = w.entryGetRaw k := fun k hk => by
    rw [entryGetRaw, hne k hk, entryGetRaw]
  have hkey := entryGetRaw_of_get ((hget walletKeySpecial).trans (if_pos rfl))
  refine ⟨?_, ?_, ?_, ?_, ?_, ?_, ?_, hpassword.trans hderive, ?_, F.special⟩
  · rw [hne _ (by decide)]
    exact F.opened
  · rw [WalletStore.version, hentry _ (by decide)]
    exact F.version
  · rw [WalletStore.salt, hentry _ (by decide)]
    exact F.salt
  · rw [WalletStore.check, hentry _ (by decide)]
    exact F.check
  · rw [hkey]
  · rw [hentry _ (by decide)]
    exact F.seed
  · rw [hkey, hmem]
  · intro pub hpub
    rw [hne _ (ne_of_special (by decide) hpub).symm]
    exact F.accounts pub hpub

theorem Logged.reopen {draws' : Draws} (h : create crypto draws' representative w.table = .ok w') :
    Logged crypto draws { log with entered := none } w' := by
  have hsome : ¬ (w.table.get versionSpecial).isNone = true := by
    have hopened := F.opened
    cases hv : w.table.get versionSpecial with
    | none => simp [hv] at hopened
    | some v => simp
  rw [WalletStore.create] at h
  simp only at h
  rw [if_neg hsome, ok_bind] at h
  cases h
  exact { F with
    memory := Fan.value_valueSet _ _
    password := Fan.value_create _ _ }

theorem Logged.insertAdhoc (hcheck : ∀ iv, Injective (fun key => crypto.encrypt 0 key iv))
    {prv : RawKey} (hspecial : specialCount ≤ crypto.publicKey prv)
    (hlarge : 2 ^ 64 ≤ (crypto.encrypt prv (w.walletKey crypto) w.iv).toNat)
    (h : w.insertAdhoc crypto prv = .ok (pub, w')) :
    Logged crypto draws { log with holdings := update log.holdings pub (.held prv) } w' := by
  obtain ⟨_, hvalid, h⟩ := ok_of_bind h
  have hkey := F.walletKey_eq ((F.validPassword_iff hcheck).mp (of_require_eq_ok hvalid))
  cases h
  refine F.put hspecial ⟨rfl, _, rfl, .inl ⟨hlarge, ?_⟩⟩
  rw [hkey, F.iv]

end Steps

section Deterministic

variable {crypto : Crypto} {w : WalletStore}

theorem Logged.deterministicInsert {draws : Draws} {log : WalletLog} {K : Set RawKey}
    {P : Set String} (A : KeyMaterial crypto draws K P) (F : Logged crypto draws log w)
    {prv : RawKey} (hprv : prv ∈ K) {pub : Account} (hpub : crypto.publicKey prv = pub)
    {w' : WalletStore} (h : w.deterministicInsert crypto = .ok (pub, w')) :
    Logged crypto draws { log with holdings := update log.holdings pub (.held prv) } w' := by
  obtain ⟨⟨index, pub'⟩, hsearch, h⟩ := ok_of_bind h
  obtain ⟨rfl, rfl⟩ := Prod.mk.inj (Except.ok.inj h)
  obtain ⟨hvalid, hkey⟩ := deterministicSearch_spec _ hsearch
  rw [F.seed_eq ((F.validPassword_iff A.check).mp hvalid)] at hkey
  obtain rfl : crypto.deterministicKey draws.seed index = prv :=
    A.publicKey (A.deterministic index) hprv (hkey.trans hpub.symm)
  have hstores : Stores crypto draws pub' (some ⟨marker index, 0⟩)
      (.held (crypto.deterministicKey draws.seed index)) :=
    ⟨hpub, _, rfl, .inr ⟨index, rfl, rfl⟩⟩
  exact (F.put (hpub ▸ A.special _ hprv) hstores).deterministicIndexSet _

end Deterministic

/-! ## Every run -/

section Runs

variable {crypto : Crypto} {draws : Draws} {K : Set RawKey} {P : Set String}
variable {log : WalletLog} {w : WalletStore}

theorem WalletRun.logged (A : KeyMaterial crypto draws K P)
    (h : WalletRun crypto draws K P log w) : Logged crypto draws log w := by
  induction h with
  | create hcreate => exact logged_create hcreate
  | reopen _ _ _ hopen ih => exact ih.reopen hopen
  | attemptPassword _ _ _ hattempt ih => exact ih.attemptPassword hattempt
  | rekey _ _ hrekey ih =>
    exact ih.rekey ((ih.validPassword_iff A.check).mp ((rekey_fst_eq_false_iff _ _ _).mp hrekey))
  | rekeyFailed _ hrekey ih =>
    rw [rekey_eq_of_fst hrekey]
    exact ih
  | insertAdhoc _ hprv hlarge hinsert ih =>
    exact ih.insertAdhoc A.check (A.special _ hprv) hlarge hinsert
  | deterministicInsert _ hinsert hprv hpub ih => exact ih.deterministicInsert A hprv hpub hinsert
  | insertWatch _ hpub ih =>
    exact ih.put hpub (show Stores crypto draws _ (some _) .watched from ⟨_, rfl, rfl⟩)
  | erase _ hpub herase ih => exact ih.erase hpub herase
  | workPut _ _ hput ih => exact ih.workPut hput

theorem WalletRun.passwords (h : WalletRun crypto draws K P log w) :
    (∀ p, log.current = some p → p ∈ P) ∧ ∀ p, log.entered = some p → p ∈ P := by
  induction h with
  | create _ => exact ⟨fun p hp => absurd hp (by simp), fun p hp => absurd hp (by simp)⟩
  | reopen _ _ _ _ ih => exact ⟨ih.1, fun p hp => absurd hp (by simp)⟩
  | attemptPassword _ _ hpassword _ ih => exact ⟨ih.1, fun p hp => Option.some.inj hp ▸ hpassword⟩
  | rekey _ hpassword _ _ =>
    exact ⟨fun p hp => Option.some.inj hp ▸ hpassword, fun p hp => Option.some.inj hp ▸ hpassword⟩
  | rekeyFailed _ _ ih => exact ih
  | insertAdhoc _ _ _ _ ih => exact ih
  | deterministicInsert _ _ _ _ ih => exact ih
  | insertWatch _ _ ih => exact ih
  | erase _ _ _ ih => exact ih
  | workPut _ _ _ ih => exact ih

/-- With the current password entered every key that is held comes back; with another one no key
does, and the password cannot be changed. -/
theorem keys_survive (A : KeyMaterial crypto draws K P) (h : WalletRun crypto draws K P log w) :
    (log.entered = log.current → ∀ pub prv, log.holdings pub = .held prv →
      w.fetch crypto pub = .ok (some prv)) ∧
    (log.entered ≠ log.current →
      (log.entered = none ∨ log.current = none →
        derivedKey crypto draws.salt log.entered ≠ derivedKey crypto draws.salt log.current) →
      (∀ pub, w.fetch crypto pub = .ok none) ∧
        ∀ password, w.rekey crypto password = (true, w)) := by
  have F := h.logged A
  obtain ⟨hcurrent, hentered⟩ := h.passwords
  refine ⟨fun heq pub prv hheld => F.fetch_held (by rw [heq]) hheld, fun hne hzero => ?_⟩
  refine F.locked A.check fun hderived => ?_
  cases hp : log.entered with
  | none => exact hzero (Or.inl hp) hderived
  | some p =>
    cases hq : log.current with
    | none => exact hzero (Or.inr hq) hderived
    | some q =>
      rw [hp, hq] at hderived hne
      have hpq : p = q := A.derive (hentered p hp) (hcurrent q hq) hderived
      exact hne (by rw [hpq])

end Runs

/-! ## A wallet with two passwords -/

def sampleCrypto : Crypto where
  keystream := fun key _ => key
  phs := fun password _ => if password = "first" then 11 else 12
  publicKey := fun prv => prv
  deterministicKey := fun _ _ => 8
  signMessage := fun _ _ _ => 0

def sampleDraws : Draws where
  passwordFan := [1, 2]
  walletKeyFan := [3]
  salt := 4
  walletKey := 1 <<< 200
  seed := 5

def sampleKeys : Set RawKey := { prv | specialCount ≤ prv }

def samplePasswords : Set String := {"first", "second"}

theorem sample_material :
    KeyMaterial sampleCrypto sampleDraws sampleKeys samplePasswords where
  check := fun iv key key' h => by simpa [Crypto.encrypt, sampleCrypto] using h
  derive := by
    rintro p (rfl | rfl) q (rfl | rfl) h
    · rfl
    · cases h
    · cases h
    · rfl
  publicKey := fun _ _ _ _ h => h
  special := fun _ h => h
  deterministic := fun _ => show specialCount ≤ (8 : RawKey) by decide

def sampleRun : Except Fault (WalletStore × WalletStore) := do
  let w ← create sampleCrypto sampleDraws 99 .empty
  let (pub, w) ← w.insertAdhoc sampleCrypto 9
  require (pub = 9)
  let (pub, w) ← w.deterministicInsert sampleCrypto
  require (pub = 8)
  require ((w.rekey sampleCrypto "first").1 = false)
  let (_, w₁) ← (w.rekey sampleCrypto "first").2.attemptPassword sampleCrypto 0 "second"
  let (_, w₂) ← w₁.attemptPassword sampleCrypto 0 "first"
  pure (w₁, w₂)

def sampleHoldings : Account → Holding :=
  update (update (fun _ => .absent) 9 (.held 9)) 8 (.held 8)

theorem sample_runs :
    ∃ w₁ w₂, sampleRun = .ok (w₁, w₂) ∧
      WalletRun sampleCrypto sampleDraws sampleKeys samplePasswords
        ⟨some "first", some "second", sampleHoldings⟩ w₁ ∧
      WalletRun sampleCrypto sampleDraws sampleKeys samplePasswords
        ⟨some "first", some "first", sampleHoldings⟩ w₂ := by
  obtain ⟨⟨w₁, w₂⟩, hrun, -⟩ : ∃ x, sampleRun = .ok x ∧ x.2.accounts = [8, 9] := by
    decide
  have h := hrun
  obtain ⟨w, hcreate, h⟩ := ok_of_bind h
  obtain ⟨⟨pub, v⟩, hadhoc, h⟩ := ok_of_bind h
  obtain ⟨_, hpub, h⟩ := ok_of_bind h
  obtain ⟨⟨pub', v'⟩, hdeterministic, h⟩ := ok_of_bind h
  obtain ⟨_, hpub', h⟩ := ok_of_bind h
  obtain ⟨_, hrekey, h⟩ := ok_of_bind h
  obtain ⟨⟨_, w₁'⟩, hwrong, h⟩ := ok_of_bind h
  obtain ⟨⟨_, w₂'⟩, hright, h⟩ := ok_of_bind h
  obtain ⟨rfl, rfl⟩ := Prod.mk.inj (Except.ok.inj h)
  obtain rfl : pub = 9 := of_require_eq_ok hpub
  obtain rfl : pub' = 8 := of_require_eq_ok hpub'
  have hnew : WalletRun sampleCrypto sampleDraws sampleKeys samplePasswords _ w := .create hcreate
  have hlarge : 2 ^ 64 ≤ (sampleCrypto.encrypt 9 (w.walletKey sampleCrypto) w.iv).toNat := by
    have F := hnew.logged sample_material
    rw [F.walletKey_eq rfl, F.iv]
    decide
  have hkeys := (hnew.insertAdhoc (show specialCount ≤ (9 : RawKey) by decide) hlarge hadhoc)
    |>.deterministicInsert hdeterministic (show specialCount ≤ (8 : RawKey) by decide) rfl
  have hset := hkeys.rekey (show "first" ∈ samplePasswords by simp [samplePasswords])
    (of_require_eq_ok hrekey)
  have hlocked := hset.attemptPassword 0
    (show "second" ∈ samplePasswords by simp [samplePasswords]) hwrong
  exact ⟨w₁', w₂', hrun, hlocked, hlocked.attemptPassword 0
    (show "first" ∈ samplePasswords by simp [samplePasswords]) hright⟩

theorem keys_survive_sample :
    ∃ w₁ w₂, sampleRun = .ok (w₁, w₂) ∧ (∀ pub, w₁.fetch sampleCrypto pub = .ok none) ∧
      (∀ password, w₁.rekey sampleCrypto password = (true, w₁)) ∧
      w₂.fetch sampleCrypto 8 = .ok (some 8) ∧ w₂.fetch sampleCrypto 9 = .ok (some 9) := by
  obtain ⟨w₁, w₂, hrun, hwrong, hright⟩ := sample_runs
  obtain ⟨hfetch, hrekey⟩ := (keys_survive sample_material hwrong).2 (by decide) (by simp)
  have hback := (keys_survive sample_material hright).1 rfl
  exact ⟨w₁, w₂, hrun, hfetch, hrekey, hback 8 8 rfl, hback 9 9 rfl⟩

end Badem
