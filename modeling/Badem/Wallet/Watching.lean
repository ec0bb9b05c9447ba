import Badem.Core.RpcHandler
import Badem.Wallet.Signing

/-!
# Watching an account

`wallet_add_watch` writes an empty entry under every number it is given, which may be that of
one of the wallet's own records or of an account whose key it holds.
-/

namespace Badem

open WalletStore

/-- The keys are still returned, the password is still accepted, and the account is listed. -/
structure WatchKeeps (crypto : Crypto) (w : WalletStore) (account : Account) : Prop where
  keys : ∀ pub prv, w.fetch crypto pub = .ok (some prv) →
    (w.insertWatch account).fetch crypto pub = .ok (some prv)
  password : (w.insertWatch account).validPassword crypto = true
  listed : account ∈ (w.insertWatch account).accounts

section Watch

variable {crypto : Crypto} {w : WalletStore} {account : Account}

theorem mem_accounts_insertWatch_iff :
    account ∈ (w.insertWatch account).accounts ↔ specialCount ≤ account := by
  rw [mem_accounts_iff, insertWatch, find_entryPutRaw, if_pos rfl]
  exact and_iff_right rfl

theorem fetch_insertWatch_ne (h : specialCount ≤ account) {pub : Account} (hne : pub ≠ account) :
    (w.insertWatch account).fetch crypto pub = w.fetch crypto pub :=
  (SameSecrets.entryPutRaw h ⟨0, 0⟩).fetch_eq
    (congrArg WalletValue.key (entryGetRaw_entryPutRaw_ne w _ hne))

theorem fetch_insertWatch_self : (w.insertWatch account).fetch crypto account = .ok none := by
  rw [fetch, insertWatch, entryGetRaw_entryPutRaw_self]
  split_ifs <;> rfl

theorem watchKeeps_iff (hvalid : w.validPassword crypto = true) :
    WatchKeeps crypto w account ↔ specialCount ≤ account ∧ ¬ KeyHeld crypto w account := by
  constructor
  · rintro ⟨hkeys, -, hlisted⟩
    have hspecial := mem_accounts_insertWatch_iff.mp hlisted
    refine ⟨hspecial, ?_⟩
    rintro ⟨prv, hprv⟩
    have hafter := hkeys account prv hprv
    simp [fetch_insertWatch_self] at hafter
  · rintro ⟨hspecial, hheld⟩
    refine ⟨fun pub prv hprv => ?_, ?_, mem_accounts_insertWatch_iff.mpr hspecial⟩
    · have hne : pub ≠ account := by
        rintro rfl
        exact hheld ⟨prv, hprv⟩
      rw [fetch_insertWatch_ne hspecial hne]
      exact hprv
    · exact (SameSecrets.entryPutRaw hspecial ⟨0, 0⟩).validPassword.trans hvalid

end Watch

theorem walletAddWatch_address {crypto : Crypto} {w : WalletStore} (check : Account → BitVec 40)
    (items : WalletItems) (wallet : Uint256) (hitem : items wallet = some w)
    (hvalid : w.validPassword crypto = true) (account : Account) :
    RpcHandler.walletAddWatch true crypto check items (Uint256.encodeHex wallet)
        [toAccount check account] =
      .ok (["success"], Function.update items wallet (some (w.insertWatch account))) := by
  have hdecode := decodeAccount_address check (startsBdm_toAccount check account)
    (drop_toAccount check account)
  have hloop : RpcHandler.addWatch check [toAccount check account] w =
      .ok ([], w.insertWatch account) := by
    rw [RpcHandler.addWatch, hdecode]
    rfl
  simp only [RpcHandler.walletAddWatch, Uint256.decodeHex_encodeHex, hitem, hvalid, if_true]
  exact bind_eq_of_ok hloop rfl

/-- Nothing is lost exactly when the number is not that of a special entry and the wallet holds no
key of the account. -/
theorem watching_keeps_iff {crypto : Crypto} {w : WalletStore} (check : Account → BitVec 40)
    (items : WalletItems) (wallet : Uint256) (hitem : items wallet = some w)
    (hvalid : w.validPassword crypto = true) (account : Account) :
    RpcHandler.walletAddWatch true crypto check items (Uint256.encodeHex wallet)
        [toAccount check account] =
      .ok (["success"], Function.update items wallet (some (w.insertWatch account))) ∧
    (WatchKeeps crypto w account ↔ specialCount ≤ account ∧ ¬ KeyHeld crypto w account) :=
  ⟨walletAddWatch_address check items wallet hitem hvalid account, watchKeeps_iff hvalid⟩

def watchedRun : Except Fault WalletStore := do
  let w ← create sampleCrypto sampleDraws 99 .empty
  let (_, w) ← w.insertAdhoc sampleCrypto 9
  pure w

theorem watching_keeps_ten : ∃ w, watchedRun = .ok w ∧ WatchKeeps sampleCrypto w 10 := by
  obtain ⟨w, hw, hvalid, hfetch⟩ : ∃ w, watchedRun = .ok w ∧
      w.validPassword sampleCrypto = true ∧ w.fetch sampleCrypto 10 = .ok none := by
    decide +kernel
  have h := watching_keeps_iff (fun _ => 0) (fun _ => some w) 0 rfl hvalid 10
  refine ⟨w, hw, h.2.mpr ⟨by decide, ?_⟩⟩
  rintro ⟨prv, hprv⟩
  cases hfetch.symm.trans hprv

/-- Watching an account loses its key, and the number three overwrites the check value. -/
theorem watching_loses_key :
    ∃ w, watchedRun = .ok w ∧ w.validPassword sampleCrypto = true ∧
      w.fetch sampleCrypto 9 = .ok (some 9) ∧
      (w.insertWatch 9).fetch sampleCrypto 9 = .ok none ∧
      (w.insertWatch 3).validPassword sampleCrypto = false := by
  decide +kernel

end Badem
