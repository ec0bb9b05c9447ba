import Badem.Wallet.Moves

/-!
# Upgrades of a wallet

A wallet of version 1 may have keys that were encrypted by one of two wrong keys.  The first
upgrade encrypts them anew, and the second one sets a seed.
-/

namespace Badem

open Mdb WalletStore

namespace WalletStore

/-! ## The first upgrade -/

section First

variable (crypto : Crypto) (w : WalletStore)

def zeroPassword : RawKey := crypto.decrypt (w.entryGetRaw walletKeySpecial).key 0 w.iv

def emptyPassword : RawKey :=
  crypto.decrypt (w.entryGetRaw walletKeySpecial).key (w.deriveKey crypto "") w.iv

def Unseals (key : RawKey) (x : Account × WalletValue) : Prop :=
  crypto.publicKey (crypto.decrypt x.2.key key w.iv) = x.1

instance Unseals.decidable (key : RawKey) (x : Account × WalletValue) :
    Decidable (Unseals crypto w key x) :=
  inferInstanceAs (Decidable (_ = _))

def reencrypted (key : RawKey) (v : WalletValue) : WalletValue :=
  ⟨crypto.encrypt (crypto.decrypt v.key key w.iv) (w.walletKey crypto) w.iv, 0⟩

def upgradedValue (pub : Account) (v : WalletValue) : WalletValue :=
  if w.holds crypto pub = true then v
  else if Unseals crypto w (w.zeroPassword crypto) (pub, v) then
    w.reencrypted crypto (w.zeroPassword crypto) v
  else if Unseals crypto w (w.emptyPassword crypto) (pub, v) then
    w.reencrypted crypto (w.emptyPassword crypto) v
  else v

variable {crypto : Crypto} {w} {w' : WalletStore} {pub : Account} {v : WalletValue}

theorem insertAdhoc_of_unseals (hvalid : w.validPassword crypto = true)
    (hsecrets : SameSecrets crypto w w') {key : RawKey} (hunseals : Unseals crypto w key (pub, v)) :
    w'.insertAdhoc crypto (crypto.decrypt v.key key w.iv) =
      .ok (pub, w'.entryPutRaw pub (w.reencrypted crypto key v)) := by
  rw [insertAdhoc, require_of (hsecrets.validPassword.trans hvalid), ok_bind, hsecrets.walletKey,
    hsecrets.iv, show crypto.publicKey _ = pub from hunseals]
  rfl

theorem upgradeEntry_eq (hvalid : w.validPassword crypto = true)
    (hsecrets : SameSecrets crypto w w')
    (hget : w.table.get pub = some v) (hget' : w'.table.get pub = some v) :
    upgradeEntry crypto (w.zeroPassword crypto) (w.emptyPassword crypto) w' pub =
      .ok w' ∧ w.upgradedValue crypto pub v = v ∨
    upgradeEntry crypto (w.zeroPassword crypto) (w.emptyPassword crypto) w' pub =
      .ok (w'.entryPutRaw pub (w.upgradedValue crypto pub v)) := by
  have hentry : w'.entryGetRaw pub = v := entryGetRaw_of_get hget'
  have hfetch : w'.fetch crypto pub = w.fetch crypto pub :=
    hsecrets.fetch_eq (by rw [hentry, entryGetRaw_of_get hget])
  rw [upgradeEntry, hfetch, upgradedValue]
  by_cases hheld : w.holds crypto pub = true
  · obtain ⟨prv, hprv⟩ := holds_iff.mp hheld
    rw [hprv, ok_bind, if_pos hheld]
    exact .inl ⟨rfl, rfl⟩
  · rw [fetch_of_not_holds hheld, ok_bind, if_neg hheld, if_neg (by simp)]
    simp only [hentry, hsecrets.iv]
    by_cases hzero : Unseals crypto w (w.zeroPassword crypto) (pub, v)
    · rw [if_pos (show crypto.publicKey _ = pub from hzero), if_pos hzero,
        insertAdhoc_of_unseals hvalid hsecrets hzero]
      exact .inr rfl
    · rw [if_neg (show ¬ crypto.publicKey _ = pub from hzero), if_neg hzero]
      by_cases hempty : Unseals crypto w (w.emptyPassword crypto) (pub, v)
      · rw [if_pos (show crypto.publicKey _ = pub from hempty), if_pos hempty,
          insertAdhoc_of_unseals hvalid hsecrets hempty]
        exact .inr rfl
      · rw [if_neg (show ¬ crypto.publicKey _ = pub from hempty), if_neg hempty]
        exact .inl ⟨rfl, rfl⟩

theorem upgradeV1V2_spec (hversion : w.version = 1) (hvalid : w.validPassword crypto = true) :
    ∃ w', w.upgradeV1V2 crypto = .ok w' ∧ SameSecrets crypto w w' ∧ w'.version = 2 ∧
      ∀ k, specialCount ≤ k →
        w'.table.get k = (w.table.get k).map (w.upgradedValue crypto k) := by
  -- the accounts that have been visited are upgraded
  let Q : List Account → WalletStore → Prop := fun pre w' =>
    SameSecrets crypto w w' ∧
      ∀ k, w'.table.get k =
        if k ∈ pre then (w.table.get k).map (w.upgradedValue crypto k) else w.table.get k
  have hstep : ∀ pre pub post w', w.accounts = pre ++ pub :: post → Q pre w' →
      ∃ w'', upgradeEntry crypto (w.zeroPassword crypto) (w.emptyPassword crypto) w' pub =
        .ok w'' ∧ Q (pre ++ [pub]) w'' := by
    rintro pre pub post w' hl ⟨hsecrets, hget⟩
    have hmem : pub ∈ w.accounts := by
      rw [hl]
      exact List.mem_append_right _ (.head _)
    obtain ⟨hsome, hspecial⟩ := w.mem_accounts_iff.mp hmem
    obtain ⟨v, hv⟩ := Option.isSome_iff_exists.mp hsome
    have hfresh : pub ∉ pre := by
      have hsorted := w.sorted_accounts
      rw [hl] at hsorted
      intro hpre
      exact lt_irrefl _ ((List.pairwise_append.mp hsorted).2.2 _ hpre _ (.head _))
    have hv' : w'.table.get pub = some v := by rw [hget, if_neg hfresh, hv]
    have hother : ∀ k, k ≠ pub → (k ∈ pre ++ [pub] ↔ k ∈ pre) := by
      intro k hne
      simp [hne]
    rcases upgradeEntry_eq hvalid hsecrets hv hv' with ⟨hrun, hsame⟩ | hrun
    · refine ⟨w', hrun, hsecrets, fun k => ?_⟩
      by_cases hk : k = pub
      · rw [hk, hv', if_pos (by simp), hv, Option.map_some, hsame]
      · rw [hget]
        simp only [hother k hk]
    · refine ⟨_, hrun, hsecrets.trans (.entryPutRaw hspecial _), fun k => ?_⟩
      rw [find_entryPutRaw]
      by_cases hk : k = pub
      · rw [if_pos hk, hk, if_pos (by simp), hv, Option.map_some]
      · rw [if_neg hk, hget]
        simp only [hother k hk]
  obtain ⟨w', hrun, hsecrets, hget⟩ := exists_foldlM Q hstep (s := w) ⟨.refl w, fun k => by simp⟩
  refine ⟨w'.versionPut 2, ?_, hsecrets.trans (.put (by decide) _ _), ?_, fun k hk => ?_⟩
  · rw [upgradeV1V2, require_of hversion, ok_bind]
    exact bind_eq_of_ok hrun rfl
  · rw [version, versionPut, entryGetRaw_entryPutRaw_self]
    rfl
  · rw [versionPut, find_entryPutRaw, if_neg (ne_of_special (by decide) hk).symm, hget]
    by_cases hmem : k ∈ w.accounts
    · rw [if_pos hmem]
    · have hnone : w.table.get k = none := by
        rw [w.mem_accounts_iff, not_and] at hmem
        by_contra hne
        exact hmem (Option.isSome_iff_ne_none.mpr hne) hk
      rw [if_neg hmem, hnone]
      rfl

end First

/-! ## The second upgrade -/

theorem upgradeV2V3_spec (crypto : Crypto) {w : WalletStore} (hversion : w.version = 2)
    (seed : RawKey) :
    ∃ w', w.upgradeV2V3 crypto seed = .ok w' ∧ w'.version = 3 ∧ w'.iv = w.iv ∧
      w'.walletKey crypto = w.walletKey crypto ∧
      w'.validPassword crypto = w.validPassword crypto ∧
      ∀ k, specialCount ≤ k →
        w'.table.get k =
          (w.table.get k).filter (fun v => !decide (v.keyType = .deterministic)) := by
  obtain ⟨w₁, hset, hpassword, hmem, hget⟩ := w.seedSet_spec crypto seed
  let w₂ := (w₁.entryPutRaw deterministicIndexSpecial ⟨0, 0⟩).versionPut 3
  have hget₂ : ∀ k, k ≠ versionSpecial → k ≠ deterministicIndexSpecial → k ≠ seedSpecial →
      w₂.table.get k = w.clearedEntry k := by
    intro k hv hi hs
    show ((w₁.entryPutRaw deterministicIndexSpecial _).entryPutRaw versionSpecial _).table.get k = _
    rw [find_entryPutRaw, if_neg hv, find_entryPutRaw, if_neg hi, hget, if_neg hs]
  have hentry : ∀ k, k = saltSpecial ∨ k = checkSpecial →
      w₂.entryGetRaw k = w.entryGetRaw k := by
    rintro k (rfl | rfl)
    · rw [entryGetRaw, hget₂ _ (by decide) (by decide) (by decide),
        w.clearedEntry_of_special (by decide) (by decide), entryGetRaw]
    · rw [entryGetRaw, hget₂ _ (by decide) (by decide) (by decide),
        w.clearedEntry_of_special (by decide) (by decide), entryGetRaw]
  have hiv : w₂.iv = w.iv := by
    rw [iv, iv, salt, salt, hentry _ (.inl rfl)]
  have hkey : w₂.walletKey crypto = w.walletKey crypto := by
    rw [walletKey, walletKey, hiv, show w₂.password = w.password from hpassword,
      show w₂.walletKeyMem = w.walletKeyMem from hmem]
  refine ⟨w₂, ?_, ?_, hiv, hkey, ?_, fun k hk => ?_⟩
  · rw [upgradeV2V3, require_of hversion, ok_bind]
    exact bind_eq_of_ok hset rfl
  · show (WalletStore.entryGetRaw (WalletStore.entryPutRaw _ _ _) _).key.toNat % 256 = 3
    rw [entryGetRaw_entryPutRaw_self]
    rfl
  · rw [validPassword, validPassword, check, check, hentry _ (.inr rfl), hkey, hiv]
  · have hne : ∀ j, j < specialCount → k ≠ j := fun j hj => (ne_of_special hj hk).symm
    rw [hget₂ k (hne _ (by decide)) (hne _ (by decide)) (hne _ (by decide)), clearedEntry,
      if_neg (hne _ (by decide))]
    simp only [hk, true_and]

/-! ## Keys through both upgrades -/

def upgradeKeys (crypto : Crypto) (w : WalletStore) : List RawKey :=
  [w.walletKey crypto, w.zeroPassword crypto, w.emptyPassword crypto]

def openedEntry (crypto : Crypto) (w : WalletStore) (k : Account) : Option WalletValue :=
  if w.version = 1 then (w.table.get k).map (w.upgradedValue crypto k)
  else if w.version = 2 then
    (w.table.get k).filter (fun v => !decide (v.keyType = .deterministic))
  else w.table.get k

section Attempt

variable {crypto : Crypto} {w : WalletStore} {password : String}

theorem attemptPassword_refused
    (hvalid : ¬ (w.withPassword crypto password).validPassword crypto = true) (seed : RawKey) :
    w.attemptPassword crypto seed password = .ok (true, w.withPassword crypto password) :=
  if_neg hvalid

theorem attemptPassword_accepted
    (hvalid : (w.withPassword crypto password).validPassword crypto = true) (seed : RawKey) :
    ∃ w', w.attemptPassword crypto seed password = .ok (false, w') ∧
      w'.validPassword crypto = true ∧
      w'.walletKey crypto = (w.withPassword crypto password).walletKey crypto ∧
      w'.iv = w.iv ∧
      (w.version ≠ 2 → w'.seed crypto = (w.withPassword crypto password).seed crypto) ∧
      ∀ k, specialCount ≤ k →
        w'.table.get k = (w.withPassword crypto password).openedEntry crypto k := by
  let w₁ := w.withPassword crypto password
  have hattempt : w.attemptPassword crypto seed password = (do
      let upgraded ← if w₁.version = 1 then w₁.upgradeV1V2 crypto else .ok w₁
      let upgraded ← if w₁.version = 2 then upgraded.upgradeV2V3 crypto seed else .ok upgraded
      pure (false, upgraded)) := if_pos hvalid
  by_cases hone : w₁.version = 1
  · obtain ⟨w', hrun, hsecrets, -, hget⟩ := upgradeV1V2_spec hone hvalid
    have htwo : w₁.version ≠ 2 := by omega
    refine ⟨w', ?_, hsecrets.validPassword.trans hvalid, hsecrets.walletKey, hsecrets.iv,
      fun _ => hsecrets.seed, fun k hk => ?_⟩
    · rw [hattempt, if_pos hone]
      refine bind_eq_of_ok hrun ?_
      simp only
      rw [if_neg htwo]
      rfl
    · rw [hget k hk, openedEntry, if_pos hone]
  · rw [if_neg hone, ok_bind] at hattempt
    simp only at hattempt
    by_cases htwo : w₁.version = 2
    · obtain ⟨w', hrun, -, hiv, hkey, hvalid', hget⟩ := upgradeV2V3_spec crypto htwo seed
      refine ⟨w', ?_, hvalid'.trans hvalid, hkey, hiv, fun h => absurd htwo h, fun k hk => ?_⟩
      · rw [hattempt, if_pos htwo]
        exact bind_eq_of_ok hrun rfl
      · rw [hget k hk, openedEntry, if_neg hone, if_pos htwo]
    · refine ⟨w₁, ?_, hvalid, rfl, rfl, fun _ => rfl, fun k _ => ?_⟩
      · rw [hattempt, if_neg htwo]
        rfl
      · rw [openedEntry, if_neg hone, if_neg htwo]

end Attempt

section Keys

variable {crypto : Crypto} {w : WalletStore} {x : Account × WalletValue}

theorem upgradedValue_of_closed (h : ∀ key ∈ w.upgradeKeys crypto, ¬ Unseals crypto w key x) :
    w.upgradedValue crypto x.1 x.2 = x.2 := by
  rw [upgradedValue, if_neg (h _ (by simp [upgradeKeys])), if_neg (h _ (by simp [upgradeKeys]))]
  exact ite_self _

theorem decrypt_upgradedValue (hvalid : w.validPassword crypto = true)
    (hinj : Function.Injective crypto.publicKey) (hx : x ∈ w.accountEntries) {key : RawKey}
    (hkey : key ∈ w.upgradeKeys crypto) (hunseals : Unseals crypto w key x)
    (hlarge : 2 ^ 64 ≤ x.2.key.toNat)
    (hlarge' : 2 ^ 64 ≤ (w.reencrypted crypto key x.2).key.toNat) :
    crypto.decrypt (w.upgradedValue crypto x.1 x.2).key (w.walletKey crypto) w.iv =
        crypto.decrypt x.2.key key w.iv ∧
      2 ^ 64 ≤ (w.upgradedValue crypto x.1 x.2).key.toNat := by
  have hget := (w.mem_accountEntries_iff.mp hx).1
  -- Keys that decrypt the entry to keys of one account decrypt it to one key.
  have hsame : ∀ key', Unseals crypto w key' x →
      crypto.decrypt x.2.key key' w.iv = crypto.decrypt x.2.key key w.iv := by
    intro key' hunseals'
    exact hinj ((show crypto.publicKey _ = x.1 from hunseals').trans hunseals.symm)
  have hrewritten : ∀ key', Unseals crypto w key' x →
      crypto.decrypt (w.reencrypted crypto key' x.2).key (w.walletKey crypto) w.iv =
        crypto.decrypt x.2.key key w.iv ∧
      2 ^ 64 ≤ (w.reencrypted crypto key' x.2).key.toNat := by
    intro key' hunseals'
    rw [reencrypted, hsame key' hunseals', Crypto.decrypt_encrypt]
    exact ⟨rfl, hlarge'⟩
  rw [upgradedValue]
  split_ifs with hheld hzero hempty
  · obtain ⟨prv, hprv⟩ := holds_iff.mp hheld
    have hpub := publicKey_of_fetch hprv
    rw [fetch_adhoc hvalid hget hlarge] at hprv
    obtain ⟨hdecrypt, -⟩ := Option.filter_eq_some_iff.mp (Except.ok.inj hprv)
    refine ⟨hsame _ ?_, hlarge⟩
    rw [Unseals, Option.some.inj hdecrypt, hpub]
  · exact hrewritten _ hzero
  · exact hrewritten _ hempty
  · -- Only the wallet key is left, and then the wallet would return the key.
    have hwallet : key = w.walletKey crypto := by
      simp only [upgradeKeys, List.mem_cons, List.not_mem_nil, or_false] at hkey
      rcases hkey with rfl | rfl | rfl
      · rfl
      · exact absurd hunseals hzero
      · exact absurd hunseals hempty
    subst hwallet
    exact absurd (holds_iff.mpr ⟨_, fetch_of_adhoc hvalid hget hlarge rfl hunseals⟩) hheld

end Keys

end WalletStore

/-- Every key that one of the three keys decrypts becomes readable and stays so; the second upgrade
erases the entries that are marked as deterministic keys. -/
theorem upgrade_keeps_keys {crypto : Crypto} {w : WalletStore} {password : String}
    (hversion : w.version = 1)
    (hvalid : (w.withPassword crypto password).validPassword crypto = true)
    (hinj : Function.Injective crypto.publicKey)
    (hlarge : ∀ x ∈ w.accountEntries, ∀ key ∈ (w.withPassword crypto password).upgradeKeys crypto,
      Unseals crypto w key x → 2 ^ 64 ≤ x.2.key.toNat ∧
        2 ^ 64 ≤ ((w.withPassword crypto password).reencrypted crypto key x.2).key.toNat)
    (seed seed' : RawKey) :
    ∃ w₂ w₃, w.attemptPassword crypto seed password = .ok (false, w₂) ∧
      w₂.upgradeV2V3 crypto seed' = .ok w₃ ∧
      (∀ x ∈ w.accountEntries, ∀ key ∈ (w.withPassword crypto password).upgradeKeys crypto,
        Unseals crypto w key x →
        w₂.fetch crypto x.1 = .ok (some (crypto.decrypt x.2.key key w.iv)) ∧
        w₃.fetch crypto x.1 = .ok (some (crypto.decrypt x.2.key key w.iv))) ∧
      ∀ k, specialCount ≤ k →
        (∀ v, w.table.get k = some v →
          ∀ key ∈ (w.withPassword crypto password).upgradeKeys crypto,
            ¬ Unseals crypto w key (k, v)) →
        w₂.table.get k = w.table.get k ∧
        w₃.table.get k =
          (w.table.get k).filter (fun v => !decide (v.keyType = .deterministic)) := by
  let w₁ := w.withPassword crypto password
  obtain ⟨w₂, hfirst, hsecrets, hversion₂, hget₂⟩ :=
    upgradeV1V2_spec (w := w₁) hversion hvalid
  obtain ⟨w₃, hsecond, -, hiv, hkey₃, hvalid₃, hget₃⟩ := upgradeV2V3_spec crypto hversion₂ seed'
  have hvalid₂ : w₂.validPassword crypto = true := hsecrets.validPassword.trans hvalid
  refine ⟨w₂, w₃, ?_, hsecond, fun x hx key hkey hunseals => ?_, fun k hk hclosed => ?_⟩
  · have hversion₁ : ∀ entered, version { w with password := entered } = 1 := fun _ => hversion
    rw [withPassword] at hvalid
    rw [attemptPassword]
    simp only
    rw [if_pos hvalid, if_pos (hversion₁ _)]
    refine bind_eq_of_ok hfirst ?_
    rw [if_neg (by rw [hversion₁]; decide)]
    rfl
  · obtain ⟨hstored, hrewritten⟩ := hlarge x hx key hkey hunseals
    obtain ⟨hget, hspecial⟩ := w.mem_accountEntries_iff.mp hx
    obtain ⟨hdecrypt, hupgraded⟩ := decrypt_upgradedValue (w := w₁) hvalid hinj hx hkey hunseals
      hstored hrewritten
    have hentry₂ : w₂.table.get x.1 = some (w₁.upgradedValue crypto x.1 x.2) := by
      rw [hget₂ x.1 hspecial, show w₁.table.get x.1 = some x.2 from hget, Option.map_some]
    have hentry₃ : w₃.table.get x.1 = some (w₁.upgradedValue crypto x.1 x.2) := by
      rw [hget₃ x.1 hspecial, hentry₂, Option.filter_some,
        if_pos (by simp [keyType_of_large hupgraded])]
    rw [← hsecrets.walletKey, ← hsecrets.iv] at hdecrypt
    refine ⟨fetch_of_adhoc hvalid₂ hentry₂ hupgraded ?_ hunseals,
      fetch_of_adhoc (hvalid₃.trans hvalid₂) hentry₃ hupgraded ?_ hunseals⟩
    · rw [hdecrypt, hsecrets.iv]
      rfl
    · rw [hkey₃, hiv, hdecrypt, hsecrets.iv]
      rfl
  · have hsame : w₂.table.get k = w.table.get k := by
      rw [hget₂ k hk, show w₁.table.get k = w.table.get k from rfl]
      cases hget : w.table.get k with
      | none => rfl
      | some v => rw [Option.map_some, @upgradedValue_of_closed crypto w₁ (k, v) (hclosed v hget)]
    exact ⟨hsame, by rw [hget₃ k hk, hsame]⟩

def upgradeSample : Except Fault WalletStore := do
  let w ← create sampleCrypto sampleDraws 99 .empty
  let (_, w) ← (w.rekey sampleCrypto "first").2.deterministicInsert sampleCrypto
  let ciphertext := sampleCrypto.encrypt 9 (w.zeroPassword sampleCrypto) w.iv
  pure ((w.entryPutRaw 9 ⟨ciphertext, 0⟩).versionPut 1)

theorem upgradeSample_evaluated :
    ∃ w, upgradeSample = .ok w ∧ w.version = 1 ∧
      (w.withPassword sampleCrypto "first").validPassword sampleCrypto = true ∧
      (∃ v ∈ w.table.get 9, Unseals sampleCrypto w (w.zeroPassword sampleCrypto) (9, v)) ∧
      w.accountEntries.all (fun x =>
        ((w.withPassword sampleCrypto "first").upgradeKeys sampleCrypto).all (fun key =>
          decide (Unseals sampleCrypto w key x → x.1 ≠ 8 ∧ 2 ^ 64 ≤ x.2.key.toNat ∧ 2 ^ 64 ≤
            ((w.withPassword sampleCrypto "first").reencrypted sampleCrypto key
              x.2).key.toNat))) = true ∧
      w.table.get 8 = some ⟨marker 0, 0⟩ ∧
      ∃ r, w.attemptPassword sampleCrypto 0 "first" = .ok r ∧ r.1 = false ∧
        r.2.table.get 8 = some ⟨marker 0, 0⟩ ∧
        ∃ w', r.2.upgradeV2V3 sampleCrypto 77 = .ok w' ∧ w'.table.get 8 = none := by
  decide +kernel

theorem upgrade_keeps_nine :
    ∃ w w₂ w₃, upgradeSample = .ok w ∧
      w.attemptPassword sampleCrypto 0 "first" = .ok (false, w₂) ∧
      w₂.upgradeV2V3 sampleCrypto 77 = .ok w₃ ∧
      w₂.fetch sampleCrypto 9 = .ok (some 9) ∧ w₃.fetch sampleCrypto 9 = .ok (some 9) := by
  obtain ⟨w, hw, hversion, hvalid, ⟨v, hv, hunseals⟩, hlarge, -⟩ := upgradeSample_evaluated
  simp only [List.all_eq_true, decide_eq_true_eq] at hlarge
  obtain ⟨w₂, w₃, hfirst, hsecond, hkeys, -⟩ := upgrade_keeps_keys hversion hvalid
    (fun _ _ h => h) (fun x hx key hkey h => (hlarge x hx key hkey h).2) 0 77
  have hprv : sampleCrypto.decrypt v.key (w.zeroPassword sampleCrypto) w.iv = 9 := hunseals
  have hfetch := hkeys (9, v) (w.mem_accountEntries_iff.mpr ⟨hv, show specialCount ≤ 9 by decide⟩)
    (w.zeroPassword sampleCrypto) (.tail _ (.head _)) hunseals
  rw [hprv] at hfetch
  exact ⟨w, w₂, w₃, hw, hfirst, hsecond, hfetch⟩

/-- None of the keys decrypts the entry of the account 8, which is marked as a deterministic
key; the second upgrade erases it. -/
theorem upgrade_erases_marked :
    ∃ w w₂ w₃, upgradeSample = .ok w ∧ w.version = 1 ∧
      w.attemptPassword sampleCrypto 0 "first" = .ok (false, w₂) ∧
      w₂.upgradeV2V3 sampleCrypto 77 = .ok w₃ ∧
      (∀ key ∈ (w.withPassword sampleCrypto "first").upgradeKeys sampleCrypto,
        ¬ Unseals sampleCrypto w key (8, ⟨marker 0, 0⟩)) ∧
      w.table.get 8 = some ⟨marker 0, 0⟩ ∧ w₂.table.get 8 = some ⟨marker 0, 0⟩ ∧
      w₃.table.get 8 = none := by
  obtain ⟨w, hw, hversion, -, -, hlarge, hmarked, ⟨failed, w₂⟩, hfirst, rfl, hmarked₂, w₃, hsecond,
    herased⟩ := upgradeSample_evaluated
  simp only [List.all_eq_true, decide_eq_true_eq] at hlarge
  refine ⟨w, w₂, w₃, hw, hversion, hfirst, hsecond, fun key hkey h => ?_, hmarked, hmarked₂,
    herased⟩
  exact (hlarge (8, ⟨marker 0, 0⟩) (w.mem_accountEntries_iff.mpr ⟨hmarked, by decide⟩) key hkey
    h).1 rfl

end Badem
