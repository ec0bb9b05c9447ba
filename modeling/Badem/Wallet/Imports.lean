import Badem.Wallet.Backups
import Badem.Wallet.Upgrades

/-!
# Importing a backup

An import does not move anything after the first account without a key, so an account that is
only watched keeps back the keys of all accounts above it.
-/

namespace Badem

open Mdb WalletStore

/-! ## Keys in order -/

section Moved

variable {held held' : Account → Bool} {key : Account}

theorem movedKeys_congr : ∀ (keys : List Account) {held held' : Account → Bool},
    (∀ a ∈ keys, held a = held' a) → movedKeys held keys = movedKeys held' keys
  | [], _, _, _ => rfl
  | k :: keys, held, held', h => by
    have hrest : ∀ a ∈ keys, (held a && !decide (a = k)) = (held' a && !decide (a = k)) :=
      fun a ha => by rw [h a (.tail _ ha)]
    rw [movedKeys, movedKeys, h k (.head _), movedKeys_congr keys hrest]

theorem mem_movedKeys_iff {keys : List Account} (hkeys : keys.Pairwise (· < ·)) :
    key ∈ movedKeys held keys ↔ key ∈ keys ∧ ∀ a ∈ keys, a ≤ key → held a = true := by
  induction keys with
  | nil => simp [movedKeys]
  | cons k keys ih =>
    obtain ⟨hk, hkeys⟩ := List.pairwise_cons.mp hkeys
    have hrest : movedKeys (fun a => held a && !decide (a = k)) keys = movedKeys held keys :=
      movedKeys_congr keys fun a ha => by simp [(hk a ha).ne']
    rw [movedKeys, hrest]
    by_cases hheld : held k = true
    · rw [if_pos hheld, List.mem_cons, ih hkeys]
      constructor
      · rintro (rfl | ⟨hmem, hall⟩)
        · refine ⟨.head _, fun a ha hle => ?_⟩
          rcases List.mem_cons.mp ha with rfl | ha
          · exact hheld
          · exact absurd hle (not_le.mpr (hk a ha))
        · refine ⟨.tail _ hmem, fun a ha hle => ?_⟩
          rcases List.mem_cons.mp ha with rfl | ha
          · exact hheld
          · exact hall a ha hle
      · rintro ⟨hmem, hall⟩
        rcases List.mem_cons.mp hmem with rfl | hmem
        · exact .inl rfl
        · exact .inr ⟨hmem, fun a ha => hall a (.tail _ ha)⟩
    · rw [if_neg hheld]
      refine iff_of_false List.not_mem_nil ?_
      rintro ⟨hmem, hall⟩
      refine hheld (hall k (.head _) ?_)
      rcases List.mem_cons.mp hmem with rfl | hmem
      · exact le_rfl
      · exact (hk key hmem).le

end Moved

/-! ## The copy -/

/-- The copy of a wallet is unlocked by a password: it has the entries that it needs, and the
password decrypts the wallet key that it has. -/
def WalletStore.Opens (crypto : Crypto) (w : WalletStore) (password : String) : Prop :=
  (∀ k ∈ requiredSpecials, (w.table.get k).isSome = true) ∧
    w.Unlocks crypto (w.entryGetRaw walletKeySpecial).key password

/-- An account is in the copy once this is unlocked: the upgrade of a wallet of version 2
erases the deterministic ones. -/
def WalletStore.Copies (w : WalletStore) (account : Account) : Prop :=
  account ∈ w.accounts ∧ (w.version = 2 → (w.entryGetRaw account).keyType ≠ .deterministic)

/-- The copy returns the key of an account once it is unlocked: the upgrade of a wallet of
version 1 makes further keys readable. -/
def WalletStore.CopyReads (crypto : Crypto) (w : WalletStore) (account : Account) : Prop :=
  w.holds crypto account = true ∨ w.version = 1 ∧
    (Unseals crypto w (w.zeroPassword crypto) (account, w.entryGetRaw account) ∨
      Unseals crypto w (w.emptyPassword crypto) (account, w.entryGetRaw account))

theorem copies_iff {w : WalletStore} {a : Account} :
    w.Copies a ↔ specialCount ≤ a ∧ ∃ v, w.table.get a = some v ∧
      (w.version = 2 → v.keyType ≠ .deterministic) := by
  rw [Copies, mem_accounts_iff, Option.isSome_iff_exists]
  constructor
  · rintro ⟨⟨⟨v, hv⟩, hspecial⟩, hkind⟩
    rw [entryGetRaw_of_get hv] at hkind
    exact ⟨hspecial, v, hv, hkind⟩
  · rintro ⟨hspecial, v, hv, hkind⟩
    rw [entryGetRaw_of_get hv]
    exact ⟨⟨⟨v, hv⟩, hspecial⟩, hkind⟩

namespace EnteredCopy

variable {crypto : Crypto} {password : String} {w c : WalletStore}
variable (h : EnteredCopy crypto password w c)
include h

theorem version : c.version = w.version := by
  rw [WalletStore.version, h.key, WalletStore.version]

theorem zeroPassword : c.zeroPassword crypto = w.zeroPassword crypto := by
  rw [WalletStore.zeroPassword, h.key, h.iv, WalletStore.zeroPassword]

theorem emptyPassword : c.emptyPassword crypto = w.emptyPassword crypto := by
  rw [WalletStore.emptyPassword, h.key, h.iv, deriveKey, salt, h.key]
  rfl

theorem unseals {key : RawKey} {a : Account} {v : WalletValue} :
    Unseals crypto c key (a, withoutWork v) ↔ Unseals crypto w key (a, v) := by
  rw [Unseals, h.iv]
  rfl

theorem openedEntry (a : Account) :
    c.openedEntry crypto a = (w.table.get a).bind fun v =>
      if w.version = 2 ∧ v.keyType = .deterministic then none
      else some (if w.version = 1 then c.upgradedValue crypto a (withoutWork v)
        else withoutWork v) := by
  rw [WalletStore.openedEntry, h.version, h.get]
  cases w.table.get a with
  | none => simp
  | some v =>
    have hkind : (withoutWork v).keyType = v.keyType := rfl
    by_cases hone : w.version = 1
    · simp [hone]
    · by_cases htwo : w.version = 2 <;> by_cases hv : v.keyType = .deterministic <;>
        simp [hone, htwo, hv, hkind]

theorem isSome_openedEntry (a : Account) : (c.openedEntry crypto a).isSome = true ↔
    ∃ v, w.table.get a = some v ∧ (w.version = 2 → v.keyType ≠ .deterministic) := by
  rw [h.openedEntry]
  cases w.table.get a with
  | none => simp
  | some v => by_cases hv : w.version = 2 ∧ v.keyType = .deterministic <;> simp_all

variable (hvalid : w.validPassword crypto = true) (hcopy : c.validPassword crypto = true)
include hvalid hcopy

theorem decrypt (x : Uint256) :
    crypto.decrypt x (c.walletKey crypto) c.iv = crypto.decrypt x (w.walletKey crypto) w.iv := by
  have hcheck : w.check = crypto.encrypt 0 (w.walletKey crypto) w.iv := of_decide_eq_true hvalid
  have hcheck' : c.check = crypto.encrypt 0 (c.walletKey crypto) c.iv := of_decide_eq_true hcopy
  have hxor : ∀ y : Uint256, 0 ^^^ y = y := fun y => BitVec.zero_xor
  rw [check, h.key, ← check, hcheck, Crypto.encrypt, Crypto.encrypt, hxor, hxor] at hcheck'
  exact congrArg (x ^^^ ·) hcheck'.symm

theorem holds (a : Account) : c.holds crypto a = w.holds crypto a := by
  have hdecrypt := h.decrypt hvalid hcopy
  have hfetch : c.fetch crypto a = w.fetch crypto a := by
    refine fetch_congr (hcopy.trans hvalid.symm) hdecrypt (h.key a) fun _ => ?_
    rw [seed, h.key, hdecrypt, seed]
  rw [WalletStore.holds, hfetch, WalletStore.holds]

theorem reencrypted (key : RawKey) (v : WalletValue) :
    c.reencrypted crypto key (withoutWork v) = w.reencrypted crypto key v := by
  rw [WalletStore.reencrypted, WalletStore.reencrypted, ← h.iv]
  refine congrArg (WalletValue.mk · 0) ((h.decrypt hvalid hcopy _).trans ?_)
  rw [h.iv]
  rfl

theorem openedEntry_cases {a : Account} {v : WalletValue} (hv : w.table.get a = some v)
    (hkind : w.version = 2 → v.keyType ≠ .deterministic) :
    c.openedEntry crypto a = some (withoutWork v) ∧
        (w.CopyReads crypto a ↔ w.holds crypto a = true) ∨
      ∃ key, c.openedEntry crypto a = some (w.reencrypted crypto key v) ∧
        Unseals crypto w key (a, v) ∧ w.CopyReads crypto a ∧ ¬ w.holds crypto a = true := by
  rw [h.openedEntry, hv, Option.bind_some, if_neg fun hcase => hkind hcase.1 hcase.2, CopyReads,
    entryGetRaw_of_get hv]
  by_cases hone : w.version = 1
  · rw [if_pos hone, WalletStore.upgradedValue, h.holds hvalid hcopy, h.zeroPassword,
      h.emptyPassword, h.reencrypted hvalid hcopy, h.reencrypted hvalid hcopy]
    simp only [h.unseals]
    split_ifs with hheld hzero hempty
    · exact .inl ⟨rfl, by simp [hheld]⟩
    · exact .inr ⟨_, rfl, hzero, .inr ⟨hone, .inl hzero⟩, hheld⟩
    · exact .inr ⟨_, rfl, hempty, .inr ⟨hone, .inr hempty⟩, hheld⟩
    · exact .inl ⟨rfl, by simp [hzero, hempty]⟩
  · exact .inl ⟨by rw [if_neg hone], by simp [hone]⟩

end EnteredCopy

theorem unlocked_copy {crypto : Crypto} {password : String} {w : WalletStore}
    (hvalid : w.validPassword crypto = true)
    (hunlocks : w.Unlocks crypto (w.entryGetRaw walletKeySpecial).key password)
    (hlarge : ∀ prv, crypto.publicKey prv ∈ w.accounts →
      2 ^ 64 ≤ (crypto.encrypt prv (w.walletKey crypto) w.iv).toNat)
    (passwordFan walletKeyFan : List Uint256) (seed : RawKey) :
    ∃ c, (w.readCopy passwordFan walletKeyFan).attemptPassword crypto seed password =
        .ok (false, c) ∧
      c.validPassword crypto = true ∧ (∀ a, a ∈ c.accounts ↔ w.Copies a) ∧
      ∀ a, w.Copies a → (c.holds crypto a = true ↔ w.CopyReads crypto a) ∧
        (w.holds crypto a = true → c.fetch crypto a = w.fetch crypto a) := by
  have h := enteredCopy crypto password w passwordFan walletKeyFan
  have hcopy := h.validPassword.mpr hunlocks
  obtain ⟨c, hattempt, hc, hkey, hiv, hseed, hget⟩ := attemptPassword_accepted hcopy seed
  have hdecrypt : ∀ x, crypto.decrypt x (c.walletKey crypto) c.iv =
      crypto.decrypt x (w.walletKey crypto) w.iv := by
    intro x
    rw [hkey, hiv]
    exact h.decrypt hvalid hcopy x
  refine ⟨c, hattempt, hc, fun a => ?_, fun a ha => ?_⟩
  · rw [mem_accounts_iff, copies_iff, and_comm]
    refine and_congr_right fun hspecial => ?_
    rw [hget a hspecial, h.isSome_openedEntry]
  · obtain ⟨hspecial, v, hv, hkind⟩ := copies_iff.mp ha
    have hentry := hget a hspecial
    rcases h.openedEntry_cases hvalid hcopy hv hkind with
      ⟨hsame, hreads⟩ | ⟨key, hrewritten, hunseals, hreads, hheld⟩
    · rw [hsame] at hentry
      have hfetch : c.fetch crypto a = w.fetch crypto a := by
        refine fetch_congr (hc.trans hvalid.symm) hdecrypt ?_ fun hdet => ?_
        · rw [entryGetRaw_of_get hentry, entryGetRaw_of_get hv]
          rfl
        · rw [entryGetRaw_of_get hv] at hdet
          rw [hseed fun htwo => hkind (h.version.symm.trans htwo) hdet, WalletStore.seed, h.key,
            h.decrypt hvalid hcopy, WalletStore.seed]
      refine ⟨?_, fun _ => hfetch⟩
      rw [hreads, holds, hfetch, holds]
    · rw [hrewritten] at hentry
      have hpub : crypto.publicKey (crypto.decrypt v.key key w.iv) = a := hunseals
      refine ⟨iff_of_true (holds_iff.mpr ⟨_, fetch_of_adhoc hc hentry
        (hlarge _ (hpub.symm ▸ ha.1)) ?_ hpub⟩) hreads, fun h => absurd h hheld⟩
      rw [hdecrypt, reencrypted, Crypto.decrypt_encrypt]

/-! ## The import -/

/-- The copy of the wallet is unlocked and no account below one with a key is without one,
unless the other wallet has the key already. -/
def ImportsAll (crypto : Crypto) (password : String) (w v : WalletStore) : Prop :=
  ∀ k prv, w.fetch crypto k = .ok (some prv) →
    (w.Opens crypto password ∧ w.Copies k ∧ ∀ a, w.Copies a → a < k → w.CopyReads crypto a) ∨
      v.fetch crypto k = .ok (some prv)

section Import

variable {crypto : Crypto} {lib : TreeLibrary} {password : String} {w v : WalletStore}

theorem importWallet_eq {passwordFan walletKeyFan : List Uint256} {seed : RawKey} {json : Text}
    {c c' : WalletStore} {error : Bool} {stores : Bool → WalletStore}
    (hcreate : createFromJson lib passwordFan walletKeyFan json = (false, c))
    (hattempt : c.attemptPassword crypto seed password = .ok (false, c'))
    (himport : importStore crypto true false (fun b => if b then v else c') = .ok (error, stores)) :
    importWallet crypto lib passwordFan walletKeyFan seed v json password =
      .ok (error, stores true) := by
  simp only [importWallet, hcreate, if_true]
  exact bind_eq_of_ok hattempt (bind_eq_of_ok himport rfl)

theorem importWallet_refused (hopens : ¬ w.Opens crypto password)
    (hlib : lib.readJson (w.serializeJson lib) = some w.jsonTree)
    (passwordFan walletKeyFan : List Uint256) (seed : RawKey) (v : WalletStore) :
    importWallet crypto lib passwordFan walletKeyFan seed v (w.serializeJson lib) password =
      .ok (true, v) := by
  by_cases hrequired : ∀ k ∈ requiredSpecials, (w.table.get k).isSome = true
  · have hlocked : ¬ ((w.readCopy passwordFan walletKeyFan).withPassword crypto
        password).validPassword crypto = true :=
      fun h => hopens ⟨hrequired, (enteredCopy crypto password w _ _).validPassword.mp h⟩
    simp only [importWallet, createFromJson_serializeJson hrequired hlib, if_true]
    exact bind_eq_of_ok (attemptPassword_refused hlocked seed) rfl
  · obtain ⟨⟨error, c⟩, hcreate⟩ :
        ∃ x, createFromJson lib passwordFan walletKeyFan (w.serializeJson lib) = x := ⟨_, rfl⟩
    have herror : error = true := by
      push Not at hrequired
      obtain ⟨k, hk, hnone⟩ := hrequired
      have hfirst : (createFromJson lib passwordFan walletKeyFan (w.serializeJson lib)).1 = true :=
        (createFromJson_error_iff hlib).mpr
          (.inr (incomplete_jsonTree_iff.mpr ⟨k, hk, by simpa using hnone⟩))
      rwa [hcreate] at hfirst
    subst herror
    simp only [importWallet, hcreate]
    rfl

theorem mem_movedKeys_copy {c : WalletStore} (haccounts : ∀ a, a ∈ c.accounts ↔ w.Copies a)
    (hreads : ∀ a, w.Copies a → (c.holds crypto a = true ↔ w.CopyReads crypto a)) {k : Account}
    (hheld : w.holds crypto k = true) :
    k ∈ movedKeys (c.holds crypto) c.accounts ↔
      w.Copies k ∧ ∀ a, w.Copies a → a < k → w.CopyReads crypto a := by
  rw [mem_movedKeys_iff (sorted_accounts c), haccounts]
  refine and_congr_right fun hk => ⟨fun hall a ha hlt => ?_, fun hall a ha hle => ?_⟩
  · exact (hreads a ha).mp (hall a ((haccounts a).mpr ha) hlt.le)
  · have hcopies := (haccounts a).mp ha
    rcases eq_or_lt_of_le hle with rfl | hlt
    · exact (hreads a hcopies).mpr (.inl hheld)
    · exact (hreads a hcopies).mpr (hall a hcopies hlt)

end Import

/-- An import is complete exactly when the copy is unlocked and no account below one with a key is
without one, or the wallet has the keys already. -/
theorem import_complete_iff {crypto : Crypto} {lib : TreeLibrary} {password : String}
    {w v : WalletStore} (hunlocked : w.validPassword crypto = true)
    (hvalid : v.validPassword crypto = true)
    (hlib : lib.readJson (w.serializeJson lib) = some w.jsonTree)
    (hlarge : ∀ prv, crypto.publicKey prv ∈ w.accounts →
      2 ^ 64 ≤ (crypto.encrypt prv (w.walletKey crypto) w.iv).toNat ∧
      2 ^ 64 ≤ (crypto.encrypt prv (v.walletKey crypto) v.iv).toNat)
    (passwordFan walletKeyFan : List Uint256) (seed : RawKey) :
    ∃ error v', importWallet crypto lib passwordFan walletKeyFan seed v (w.serializeJson lib)
        password = .ok (error, v') ∧
      ((∀ k prv, w.fetch crypto k = .ok (some prv) → v'.fetch crypto k = .ok (some prv)) ↔
        ImportsAll crypto password w v) := by
  by_cases hopens : w.Opens crypto password
  · obtain ⟨c, hattempt, hc, haccounts, hcopied⟩ := unlocked_copy hunlocked hopens.2
      (fun prv hprv => (hlarge prv hprv).1) passwordFan walletKeyFan seed
    obtain ⟨error, stores, hrun, hmoved, -⟩ := @foldlM_moveKey Bool _ crypto true false c.accounts
      (fun b => if b then v else c) hvalid
      (fun k hk => notMem_secretSpecials
        (c.mem_accounts_iff.mp ((movedKeys_initial _ _).subset hk)).2)
      (fun k hk prv hprv => (hlarge prv (publicKey_of_fetch hprv ▸ ((haccounts k).mp hk).1)).2)
    have himport : importStore crypto true false (fun b => if b then v else c) =
        .ok (error, stores) := (move_eq hvalid hc c.accounts).trans hrun
    refine ⟨error, stores true,
      importWallet_eq (createFromJson_serializeJson hopens.1 hlib) hattempt himport,
      forall_congr' fun k => forall_congr' fun prv => imp_congr_right fun hprv => ?_⟩
    have hheld : w.holds crypto k = true := holds_iff.mpr ⟨prv, hprv⟩
    have hinserted : (stores true).fetch crypto k =
        if k ∈ movedKeys (c.holds crypto) c.accounts then c.fetch crypto k
        else v.fetch crypto k := hmoved.inserted (by decide) k
    have hmoves := mem_movedKeys_copy haccounts (fun a ha => (hcopied a ha).1) hheld
    rw [hinserted, and_iff_right hopens, ← hmoves]
    by_cases hmem : k ∈ movedKeys (c.holds crypto) c.accounts
    · rw [if_pos hmem, (hcopied k (hmoves.mp hmem).1).2 hheld]
      exact iff_of_true hprv (.inl hmem)
    · simp [hmem]
  · refine ⟨true, v, importWallet_refused hopens hlib passwordFan walletKeyFan seed v, ?_⟩
    simp [ImportsAll, hopens]

/-- The wallet of a backup, which also watches the account 10, and a new wallet. -/
def importSample : Except Fault (WalletStore × WalletStore) := do
  let w ← backupSample
  let v ← create sampleCrypto sampleDraws 99 .empty
  pure (w.insertWatch 10, v)

theorem importSample_evaluated :
    ∃ x, importSample = .ok x ∧ x.2.validPassword sampleCrypto = true ∧
      x.1.accounts = [9, 10] ∧ x.1.version = 3 ∧ x.1.fetch sampleCrypto 9 = .ok (some 9) ∧
      x.1.fetch sampleCrypto 10 = .ok none ∧
      (∀ k < 7, x.1.fetch sampleCrypto (BitVec.ofNat 256 k) = .ok none) ∧
      x.1.Unlocks sampleCrypto (x.1.entryGetRaw walletKeySpecial).key "first" ∧
      ([(9 : RawKey), 10].all fun prv =>
        decide (2 ^ 64 ≤ (sampleCrypto.encrypt prv (x.1.walletKey sampleCrypto) x.1.iv).toNat ∧
          2 ^ 64 ≤ (sampleCrypto.encrypt prv (x.2.walletKey sampleCrypto) x.2.iv).toNat)) = true ∧
      (x.1.insertWatch 8).fetch sampleCrypto 9 = .ok (some 9) ∧
      ∃ r, ((x.1.insertWatch 8).readCopy [] []).attemptPassword sampleCrypto 0 "first" = .ok r ∧
        r.1 = false ∧
        ∃ r', importStore sampleCrypto true false (fun b => if b then x.2 else r.2) = .ok r' ∧
          r'.1 = true ∧ (r'.2 true).fetch sampleCrypto 9 = .ok none := by
  decide +kernel

theorem eq_of_fetch {w : WalletStore} {prv : RawKey} (haccounts : w.accounts = [9, 10])
    (hten : w.fetch sampleCrypto 10 = .ok none)
    (hspecial : ∀ k < 7, w.fetch sampleCrypto (BitVec.ofNat 256 k) = .ok none)
    {k : Account} (h : w.fetch sampleCrypto k = .ok (some prv)) : k = 9 := by
  have hk : specialCount ≤ k := by
    by_contra hlt
    have hnat : k.toNat < 7 := not_le.mp hlt
    have hnone := hspecial k.toNat hnat
    rw [BitVec.ofNat_toNat, BitVec.setWidth_eq, h] at hnone
    cases hnone
  have hmem := (mem_accounts_iff _).mpr ⟨isSome_of_fetch h, hk⟩
  rw [haccounts, List.mem_cons, List.mem_singleton] at hmem
  rcases hmem with rfl | rfl
  · rfl
  · cases hten.symm.trans h

theorem backupRun_importSample {x : WalletStore × WalletStore} (h : importSample = .ok x) :
    BackupRun sampleCrypto (some "first") x.1 := by
  obtain ⟨w, hw, h⟩ := ok_of_bind h
  obtain ⟨v, -, h⟩ := ok_of_bind h
  cases h
  exact (backupRun_sample hw).insertWatch (by decide)

theorem import_complete_sample :
    ∃ x error v', importSample = .ok x ∧
      importWallet sampleCrypto (constantLibrary x.1.jsonTree) [] [] 0 x.2 [] "first" =
        .ok (error, v') ∧
      ∀ k prv, x.1.fetch sampleCrypto k = .ok (some prv) →
        v'.fetch sampleCrypto k = .ok (some prv) := by
  obtain ⟨x, hx, hvalid, haccounts, hversion, -, hten, hspecial, hunlocks, hlarge, -⟩ :=
    importSample_evaluated
  have hbacked := (backupRun_importSample hx).backed
  obtain ⟨error, v', himport, hcomplete⟩ := @import_complete_iff sampleCrypto
    (constantLibrary x.1.jsonTree) "first" x.1 x.2 hbacked.valid hvalid rfl
    (fun prv hprv => of_decide_eq_true (List.all_eq_true.mp hlarge prv (haccounts ▸ hprv))) [] [] 0
  refine ⟨x, error, v', hx, himport, hcomplete.mpr fun k prv h => Or.inl ?_⟩
  obtain rfl := eq_of_fetch haccounts hten hspecial h
  refine ⟨⟨hbacked.required, hunlocks⟩, ⟨by simp [haccounts], fun h => by omega⟩,
    fun a ha hlt => ?_⟩
  have hmem := ha.1
  rw [haccounts, List.mem_cons, List.mem_singleton] at hmem
  rcases hmem with rfl | rfl <;> exact absurd hlt (by decide)

/-- The account 8, which is only watched, keeps back the key of the account 9. -/
theorem import_stops_at_watched :
    ∃ x v', importSample = .ok x ∧
      BackupRun sampleCrypto (some "first") (x.1.insertWatch 8) ∧
      x.2.validPassword sampleCrypto = true ∧
      (x.1.insertWatch 8).fetch sampleCrypto 9 = .ok (some 9) ∧
      importWallet sampleCrypto (constantLibrary (x.1.insertWatch 8).jsonTree) [] [] 0 x.2 []
        "first" = .ok (true, v') ∧
      v'.fetch sampleCrypto 9 = .ok none := by
  obtain ⟨x, hx, hvalid, -, -, -, -, -, -, -, hheld, ⟨locked, c⟩, hattempt, rfl, ⟨failed, stores⟩,
    himport, rfl, hlost⟩ := importSample_evaluated
  have hrun : BackupRun sampleCrypto (some "first") (x.1.insertWatch 8) :=
    (backupRun_importSample hx).insertWatch (by decide)
  exact ⟨x, stores true, hx, hrun, hvalid, hheld,
    importWallet_eq (createFromJson_serializeJson hrun.backed.required rfl) hattempt himport, hlost⟩

end Badem
