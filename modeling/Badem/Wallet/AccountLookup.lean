import Badem.Wallet.Backups
import Badem.Wallet.Upgrades

/-!
# Looking up an account

`find` looks into the whole table of a wallet, `accounts` leaves out the seven special entries,
and `account_remove` erases whatever `find` returns.
-/

namespace Badem

open Mdb WalletStore RpcHandler

/-! ## Runs -/

/-- The wallets that are reached from a new one, with the password and the numbers that have been
erased and not written since. -/
inductive LookupRun (crypto : Crypto) : Option String → List Account → WalletStore → Prop
  | create {draws representative w} :
      create crypto draws representative .empty = .ok w → LookupRun crypto none [] w
  | insertAdhoc {current erased w prv pub w'} :
      LookupRun crypto current erased w → w.insertAdhoc crypto prv = .ok (pub, w') →
      LookupRun crypto current (erased.filter (· ≠ pub)) w'
  | deterministicInsert {current erased w pub w'} :
      LookupRun crypto current erased w → w.deterministicInsert crypto = .ok (pub, w') →
      LookupRun crypto current
        ((erased.filter (· ≠ pub)).filter (· ≠ deterministicIndexSpecial)) w'
  | insertWatch {current erased w pub} :
      LookupRun crypto current erased w → specialCount ≤ pub →
      LookupRun crypto current (erased.filter (· ≠ pub)) (w.insertWatch pub)
  | erase {current erased w pub w'} :
      LookupRun crypto current erased w → w.erase pub = .ok w' →
      LookupRun crypto current (pub :: erased) w'
  -- a change of the password that fails changes nothing
  | rekey {current erased w} (password : String) :
      LookupRun crypto current erased w → (w.rekey crypto password).1 = false →
      LookupRun crypto (some password) (erased.filter (· ≠ walletKeySpecial))
        (w.rekey crypto password).2

/-- The special entries that are not in the table are those that have been erased. -/
def ErasedOnly (erased : List Account) (w : WalletStore) : Prop :=
  ∀ k, k < specialCount → (w.table.get k = none ↔ k ∈ erased)

section Runs

variable {crypto : Crypto} {current : Option String} {erased : List Account} {w : WalletStore}

theorem ErasedOnly.put (h : ErasedOnly erased w) (pub : Account) (v : WalletValue) :
    ErasedOnly (erased.filter (· ≠ pub)) (w.entryPutRaw pub v) := by
  intro k hk
  rw [find_entryPutRaw, List.mem_filter, ← h k hk]
  by_cases heq : k = pub <;> simp [heq]

theorem LookupRun.erasedOnly (h : LookupRun crypto current erased w) : ErasedOnly erased w := by
  induction h with
  | @create draws representative w hcreate =>
    obtain ⟨w', hw', -, -, hget⟩ := create_spec crypto draws representative
    cases hcreate.symm.trans hw'
    intro k hk
    have hsome := isSome_newEntry crypto draws representative hk
    rw [← hget] at hsome
    exact iff_of_false (Option.isSome_iff_ne_none.mp hsome) List.not_mem_nil
  | insertAdhoc _ hinsert ih =>
    obtain ⟨_, _, hinsert⟩ := ok_of_bind hinsert
    cases hinsert
    exact ih.put _ _
  | deterministicInsert _ hinsert ih =>
    obtain ⟨⟨index, pub'⟩, -, hinsert⟩ := ok_of_bind hinsert
    obtain ⟨rfl, rfl⟩ := Prod.mk.inj (Except.ok.inj hinsert)
    exact (ih.put _ _).put _ _
  | insertWatch _ _ ih => exact ih.put _ _
  | @erase _ _ w pub _ _ herase ih =>
    obtain ⟨_, _, herase⟩ := ok_of_bind herase
    cases herase
    intro k hk
    rw [show (w.table.del pub).get k = _ from w.table.get_del pub k, List.mem_cons, ← ih k hk]
    by_cases heq : k = pub <;> simp [heq]
  | @rekey _ _ w password _ hrekey ih =>
    obtain ⟨-, -, hget⟩ :=
      rekey_spec password ((rekey_fst_eq_false_iff crypto w password).mp hrekey)
    intro k hk
    rw [hget, List.mem_filter, ← ih k hk]
    by_cases heq : k = walletKeySpecial <;> simp [heq]

end Runs

/-! ## Removals -/

/-- The removal of an account leaves the keys of the others, and the password unlocks the wallet. -/
structure RemoveKeeps (crypto : Crypto) (current : Option String) (w : WalletStore)
    (account : Account) (w' : WalletStore) : Prop where
  erased : w.validPassword crypto = true →
    ∀ k, w'.table.get k = if k = account then none else w.table.get k
  keys : ∀ pub, pub ≠ account → w'.fetch crypto pub = w.fetch crypto pub
  unlocks : ∀ password, current = some password → ∀ entered seed, ∃ w'',
    attemptPassword crypto { w' with password := entered } seed password = .ok (false, w'')

/-- A wallet finds a number exactly when it lists it, and the removal of one that it finds
loses nothing else. -/
structure LookupSound (crypto : Crypto) (current : Option String) (w : WalletStore)
    (account : Account) : Prop where
  listed : w.keyExists account = true ↔ account ∈ w.accounts
  removed : w.keyExists account = true → ∀ (check : Account → BitVec 40) (items : WalletItems)
    (wallet : Uint256), items wallet = some w →
    ∃ response w', RpcHandler.accountRemove true crypto check items (Uint256.encodeHex wallet)
        (toAccount check account) = .ok (response, Function.update items wallet (some w')) ∧
      RemoveKeeps crypto current w account w'

section Lookup

variable {crypto : Crypto} {current : Option String} {w : WalletStore} {account : Account}

theorem keyExists_iff_mem_accounts :
    (w.keyExists account = true ↔ account ∈ w.accounts) ↔
      specialCount ≤ account ∨ w.table.get account = none := by
  rw [keyExists, find, mem_accounts_iff]
  cases w.table.get account <;> simp

theorem attemptPassword_iff {password : String} :
    (∀ entered seed, ∃ w', attemptPassword crypto { w with password := entered } seed password =
      .ok (false, w')) ↔ w.Unlocks crypto w.walletKeyMem.value password := by
  have hvalid : ∀ entered, (withPassword crypto { w with password := entered }
      password).validPassword crypto = true ↔ w.Unlocks crypto w.walletKeyMem.value password :=
    fun entered => validPassword_withPassword
  constructor
  · intro h
    by_contra hlocked
    obtain ⟨w', hw'⟩ := h w.password 0
    rw [attemptPassword_refused (fun hv => hlocked ((hvalid w.password).mp hv))] at hw'
    cases hw'
  · intro h entered seed
    obtain ⟨w', hw', -⟩ := attemptPassword_accepted ((hvalid entered).mpr h) seed
    exact ⟨w', hw'⟩

theorem unlocks_del (hspecial : specialCount ≤ account) {ciphertext : Uint256} {password : String} :
    Unlocks crypto { w with table := w.table.del account } ciphertext password ↔
      w.Unlocks crypto ciphertext password := by
  have hentry : ∀ k, k < specialCount →
      entryGetRaw { w with table := w.table.del account } k = w.entryGetRaw k := fun k hk => by
    rw [entryGetRaw, Table.get_del, if_neg (ne_of_special hk hspecial), entryGetRaw]
  rw [Unlocks, Unlocks, check, deriveKey, iv, salt, hentry _ (by decide), hentry _ (by decide)]
  rfl

theorem Backed.unlocks {password : String} (h : Backed crypto (some password) w) :
    w.Unlocks crypto w.walletKeyMem.value password := by
  have hcheck : w.check = crypto.encrypt 0 (w.walletKey crypto) w.iv := of_decide_eq_true h.valid
  rwa [walletKey, h.password] at hcheck

theorem removeKeeps_del (hspecial : specialCount ≤ account) :
    RemoveKeeps crypto current w account { w with table := w.table.del account } ↔
      ∀ password, current = some password → w.Unlocks crypto w.walletKeyMem.value password := by
  constructor
  · intro h password hcurrent
    exact (unlocks_del hspecial).mp (attemptPassword_iff.mp (h.unlocks password hcurrent))
  · intro h
    refine ⟨fun _ k => w.table.get_del account k, fun pub hne => ?_, fun password hcurrent => ?_⟩
    · exact (fetch_del (notMem_secretSpecials hspecial) pub).trans (if_neg hne)
    · exact attemptPassword_iff.mpr ((unlocks_del hspecial).mpr (h password hcurrent))

theorem removeKeeps_self (hlocked : ¬ w.validPassword crypto = true) :
    RemoveKeeps crypto current w account w ↔
      ∀ password, current = some password → w.Unlocks crypto w.walletKeyMem.value password := by
  constructor
  · intro h password hcurrent
    exact attemptPassword_iff.mp (h.unlocks password hcurrent)
  · intro h
    exact ⟨fun hvalid => absurd hvalid hlocked, fun _ _ => rfl,
      fun password hcurrent => attemptPassword_iff.mpr (h password hcurrent)⟩

theorem accountRemove_address (check : Account → BitVec 40) {items : WalletItems}
    {wallet : Uint256} (hitem : items wallet = some w) (hvalid : w.validPassword crypto = true)
    (hexists : w.keyExists account = true) :
    accountRemove true crypto check items (Uint256.encodeHex wallet)
        (toAccount check account) =
      .ok (["1"], Function.update items wallet
        (some { w with table := w.table.del account })) := by
  have hdecode := decodeAccount_address check (startsBdm_toAccount check account)
    (drop_toAccount check account)
  obtain ⟨v, hv⟩ := Option.isSome_iff_exists.mp hexists
  have herase : w.erase account = .ok { w with table := w.table.del account } := by
    rw [erase, require_of (show (w.table.get account).isSome = true from hexists)]
    rfl
  simp only [accountRemove, Uint256.decodeHex_encodeHex, hitem, hvalid, if_true]
  refine bind_eq_of_ok hdecode ?_
  simp only [hv]
  exact bind_eq_of_ok herase rfl

theorem accountRemove_locked (check : Account → BitVec 40) {items : WalletItems}
    {wallet : Uint256} (hitem : items wallet = some w)
    (hlocked : ¬ w.validPassword crypto = true) :
    accountRemove true crypto check items (Uint256.encodeHex wallet)
        (toAccount check account) =
      .ok (["Wallet locked"], Function.update items wallet (some w)) := by
  rw [← hitem, Function.update_eq_self]
  simp only [accountRemove, Uint256.decodeHex_encodeHex, hitem, hlocked, if_true]
  rfl

theorem exists_removed_iff (hspecial : specialCount ≤ account)
    (hexists : w.keyExists account = true) (check : Account → BitVec 40) (items : WalletItems)
    (wallet : Uint256) (hitem : items wallet = some w) :
    (∃ response w', accountRemove true crypto check items (Uint256.encodeHex wallet)
        (toAccount check account) = .ok (response, Function.update items wallet (some w')) ∧
      RemoveKeeps crypto current w account w') ↔
      ∀ password, current = some password → w.Unlocks crypto w.walletKeyMem.value password := by
  -- the items after the call determine the wallet
  have hunique : ∀ {response : List String} {w₁ : WalletStore},
      accountRemove true crypto check items (Uint256.encodeHex wallet)
          (toAccount check account) = .ok (response, Function.update items wallet (some w₁)) →
      ((∃ response w', accountRemove true crypto check items (Uint256.encodeHex wallet)
          (toAccount check account) = .ok (response, Function.update items wallet (some w')) ∧
        RemoveKeeps crypto current w account w') ↔ RemoveKeeps crypto current w account w₁) := by
    intro response w₁ hrun
    constructor
    · rintro ⟨response', w', hrun', hkeeps⟩
      have hitems := congrFun (Prod.mk.inj (Except.ok.inj (hrun.symm.trans hrun'))).2 wallet
      rw [Function.update_self, Function.update_self] at hitems
      rwa [Option.some.inj hitems]
    · exact fun hkeeps => ⟨response, w₁, hrun, hkeeps⟩
  by_cases hvalid : w.validPassword crypto = true
  · rw [hunique (accountRemove_address check hitem hvalid hexists), removeKeeps_del hspecial]
  · rw [hunique (accountRemove_locked check hitem hvalid), removeKeeps_self hvalid]

end Lookup

/-- Lookup and removal are sound for the numbers from 7 on and those of erased special entries, as
long as the check value of a wallet with the account is the one of its password. -/
theorem lookup_sees_accounts_iff {crypto : Crypto} {current : Option String}
    {erased : List Account} {w : WalletStore} (hrun : LookupRun crypto current erased w)
    (account : Account) :
    LookupSound crypto current w account ↔
      (specialCount ≤ account ∨ account ∈ erased) ∧
      (account ∈ w.accounts → ∀ password, current = some password →
        w.Unlocks crypto w.walletKeyMem.value password) := by
  have hmissing : specialCount ≤ account ∨ w.table.get account = none ↔
      specialCount ≤ account ∨ account ∈ erased := by
    by_cases hspecial : specialCount ≤ account
    · simp [hspecial]
    · rw [hrun.erasedOnly account (not_le.mp hspecial)]
  rw [← hmissing, ← keyExists_iff_mem_accounts]
  constructor
  · rintro ⟨hlisted, hremoved⟩
    refine ⟨hlisted, fun hmem => ?_⟩
    exact (exists_removed_iff (w.mem_accounts_iff.mp hmem).2 (hlisted.mpr hmem) (fun _ => 0)
      (fun _ => some w) 0 rfl).mp (hremoved (hlisted.mpr hmem) (fun _ => 0) (fun _ => some w) 0 rfl)
  · rintro ⟨hlisted, hunlocks⟩
    refine ⟨hlisted, fun hexists check items wallet hitem => ?_⟩
    have hmem := hlisted.mp hexists
    exact (exists_removed_iff (w.mem_accounts_iff.mp hmem).2 hexists check items wallet hitem).mpr
      (hunlocks hmem)

theorem backupSample_lookups :
    ∃ w, backupSample = .ok w ∧ w.keyExists 9 = true ∧ w.keyExists 3 = true ∧
      w.fetch sampleCrypto 9 = .ok (some 9) ∧
      fetch sampleCrypto { w with table := w.table.del 3 } 9 = .ok none ∧
      ∃ r, attemptPassword sampleCrypto { w with table := w.table.del 3 } 0 "first" = .ok r ∧
        r.1 = true := by
  decide +kernel

theorem lookupRun_sample {w : WalletStore} (h : backupSample = .ok w) :
    LookupRun sampleCrypto (some "first") [] w := by
  obtain ⟨w₀, hcreate, h⟩ := ok_of_bind h
  obtain ⟨⟨pub, w₁⟩, hinsert, h⟩ := ok_of_bind h
  cases h
  have hrekey := (rekey_fst_eq_false_iff sampleCrypto w₀ "first").mpr (backed_create hcreate).valid
  exact .insertAdhoc (.rekey "first" (.create hcreate) hrekey) hinsert

/-- The account with a key is removed, and the password still unlocks the wallet. -/
theorem lookup_removes_nine :
    ∃ w response w' w'', backupSample = .ok w ∧ w.keyExists 9 = true ∧
      RpcHandler.accountRemove true sampleCrypto (fun _ => 0) (fun _ => some w)
          (Uint256.encodeHex 0) (toAccount (fun _ => 0) 9) =
        .ok (response, Function.update (fun _ => some w) 0 (some w')) ∧
      w'.table.get 9 = none ∧ w'.attemptPassword sampleCrypto 0 "first" = .ok (false, w'') := by
  obtain ⟨w, hw, hexists, -⟩ := backupSample_lookups
  have hbacked := (backupRun_sample hw).backed
  have hsound := (lookup_sees_accounts_iff (lookupRun_sample hw) 9).mpr
    ⟨.inl (by decide), fun _ password hcurrent => by
      cases hcurrent
      exact hbacked.unlocks⟩
  obtain ⟨response, w', hremove, hkeeps⟩ := hsound.removed hexists (fun _ => 0) (fun _ => some w) 0
    rfl
  obtain ⟨w'', hattempt⟩ := hkeeps.unlocks "first" rfl w'.password 0
  exact ⟨w, response, w', w'', hw, hexists, hremove, hkeeps.erased hbacked.valid 9, hattempt⟩

/-- The removal of the account number 3 erases the value that passwords are checked against. -/
theorem lookup_removes_check :
    ∃ w w' w'', backupSample = .ok w ∧ w.keyExists 3 = true ∧ 3 ∉ w.accounts ∧
      RpcHandler.accountRemove true sampleCrypto (fun _ => 0) (fun _ => some w)
          (Uint256.encodeHex 0) (toAccount (fun _ => 0) 3) =
        .ok (["1"], Function.update (fun _ => some w) 0 (some w')) ∧
      w.fetch sampleCrypto 9 = .ok (some 9) ∧ w'.fetch sampleCrypto 9 = .ok none ∧
      w'.attemptPassword sampleCrypto 0 "first" = .ok (true, w'') := by
  obtain ⟨w, hw, -, hexists, hheld, hlost, ⟨failed, w''⟩, hattempt, rfl⟩ := backupSample_lookups
  refine ⟨w, { w with table := w.table.del 3 }, w'', hw, hexists, fun hmem => ?_,
    accountRemove_address _ rfl (backupRun_sample hw).backed.valid hexists, hheld, hlost, hattempt⟩
  exact absurd (w.mem_accounts_iff.mp hmem).2 (by decide)

end Badem
