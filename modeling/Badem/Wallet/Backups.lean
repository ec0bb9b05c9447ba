import Badem.Wallet.BackupTexts
import Badem.Wallet.Keys

/-!
# Backups

A wallet that is written as a text and read again has the same entries, without the works.  To
be unlocked by the password, the memory of the wallet has to agree with its table.
-/

namespace Badem

open Mdb WalletStore

/-! ## Runs -/

/-- The wallets that are reached from a new one, each with its password. -/
inductive BackupRun (crypto : Crypto) : Option String → WalletStore → Prop
  | create {draws representative w} :
      create crypto draws representative .empty = .ok w →
      BackupRun crypto none w
  | insertAdhoc {current w prv pub w'} :
      BackupRun crypto current w → specialCount ≤ crypto.publicKey prv →
      w.insertAdhoc crypto prv = .ok (pub, w') →
      BackupRun crypto current w'
  | deterministicInsert {current w pub w'} :
      BackupRun crypto current w → w.deterministicInsert crypto = .ok (pub, w') →
      BackupRun crypto current w'
  | insertWatch {current w pub} :
      BackupRun crypto current w → specialCount ≤ pub →
      BackupRun crypto current (w.insertWatch pub)
  | erase {current w pub w'} :
      BackupRun crypto current w → specialCount ≤ pub → w.erase pub = .ok w' →
      BackupRun crypto current w'
  | rekey {current w} (password : String) :
      BackupRun crypto current w →
      BackupRun crypto (some password) (w.rekey crypto password).2
  | representativeSet {current w} (representative : Account) :
      BackupRun crypto current w →
      BackupRun crypto current (w.representativeSet representative)
  | seedSet {current w prv w'} :
      BackupRun crypto current w → w.seedSet crypto prv = .ok w' →
      BackupRun crypto current w'

/-- A wallet is unlocked by its password, and its memory agrees with its table. -/
structure Backed (crypto : Crypto) (current : Option String) (w : WalletStore) : Prop where
  specials : ∀ k, k < specialCount → (w.table.get k).isSome = true
  version : w.version = versionCurrent
  memory : w.walletKeyMem.value = (w.entryGetRaw walletKeySpecial).key
  password : w.password.value = derivedKey crypto w.salt current
  valid : w.validPassword crypto = true

section Steps

variable {crypto : Crypto} {current : Option String} {w w' : WalletStore} {pub : Account}

theorem Backed.congr (h : Backed crypto current w) (hpassword : w'.password = w.password)
    (hmem : w'.walletKeyMem = w.walletKeyMem)
    (hentry : ∀ k, k < representativeSpecial → w'.entryGetRaw k = w.entryGetRaw k)
    (hspecials : ∀ k, k < specialCount → (w'.table.get k).isSome = true) :
    Backed crypto current w' := by
  have hsalt : w'.salt = w.salt := by rw [salt, salt, hentry _ (by decide)]
  have hkey : w'.walletKey crypto = w.walletKey crypto := by
    rw [walletKey, walletKey, iv, iv, hsalt, hpassword, hmem]
  refine ⟨hspecials, ?_, ?_, ?_, ?_⟩
  · rw [WalletStore.version, hentry _ (by decide)]
    exact h.version
  · rw [hmem, hentry _ (by decide)]
    exact h.memory
  · rw [hpassword, hsalt]
    exact h.password
  · rw [validPassword, check, hentry _ (by decide), hkey, iv, hsalt]
    exact h.valid

theorem Backed.put (h : Backed crypto current w) (hpub : representativeSpecial ≤ pub)
    (v : WalletValue) : Backed crypto current (w.entryPutRaw pub v) := by
  refine h.congr rfl rfl (fun k hk => ?_) (fun k hk => ?_)
  · exact entryGetRaw_entryPutRaw_ne w v (hk.trans_le hpub).ne
  · rw [find_entryPutRaw]
    split_ifs
    · rfl
    · exact h.specials k hk

theorem Backed.del (h : Backed crypto current w) (hpub : specialCount ≤ pub) :
    Backed crypto current { w with table := w.table.del pub } := by
  have hget : ∀ k, k < specialCount → (w.table.del pub).get k = w.table.get k := fun k hk => by
    rw [Table.get_del, if_neg (ne_of_special hk hpub)]
  refine h.congr rfl rfl (fun k hk => ?_) (fun k hk => ?_)
  · rw [entryGetRaw, hget k (hk.trans (by decide)), entryGetRaw]
  · rw [hget k hk]
    exact h.specials k hk

theorem Backed.seedSet (h : Backed crypto current w) {prv : RawKey}
    (hset : w.seedSet crypto prv = .ok w') : Backed crypto current w' := by
  obtain ⟨w'', hrun, hpassword, hmem, hget⟩ := w.seedSet_spec crypto prv
  cases hset.symm.trans hrun
  refine h.congr hpassword hmem (fun k hk => ?_) (fun k hk => ?_)
  · rw [entryGetRaw, hget, if_neg (hk.trans (by decide)).ne,
      clearedEntry_of_special _ (hk.trans (by decide)) (hk.trans (by decide)).ne, entryGetRaw]
  · rw [hget]
    split_ifs
    · rfl
    · exact w.isSome_clearedEntry hk (h.specials k hk)

theorem Backed.deterministicInsert (h : Backed crypto current w)
    (hinsert : w.deterministicInsert crypto = .ok (pub, w')) : Backed crypto current w' := by
  obtain ⟨⟨index, pub'⟩, hsearch, hinsert⟩ := ok_of_bind hinsert
  obtain ⟨rfl, rfl⟩ := Prod.mk.inj (Except.ok.inj hinsert)
  obtain ⟨hfree, -⟩ := deterministicSearch_first _ hsearch
  have hpub : specialCount ≤ pub' := by
    by_contra hlt
    simp [keyExists, find, h.specials pub' (not_le.mp hlt)] at hfree
  exact (h.put (le_trans (by decide) hpub) _).put (by decide) _

theorem Backed.rekey (h : Backed crypto current w) (password : String) :
    Backed crypto (some password) (w.rekey crypto password).2 := by
  obtain ⟨hpassword, hmem, hget⟩ := rekey_spec password h.valid
  have hentry : ∀ k, k ≠ walletKeySpecial →
      (w.rekey crypto password).2.entryGetRaw k = w.entryGetRaw k := fun k hk => by
    rw [entryGetRaw, hget, if_neg hk, entryGetRaw]
  have hsalt : (w.rekey crypto password).2.salt = w.salt := by
    rw [salt, salt, hentry _ (by decide)]
  have hiv : (w.rekey crypto password).2.iv = w.iv := by
    rw [iv, hsalt, iv]
  have hkey : (w.rekey crypto password).2.walletKey crypto = w.walletKey crypto := by
    rw [walletKey, hmem, hpassword, hiv, Crypto.decrypt_encrypt]
  refine ⟨fun k hk => ?_, ?_, ?_, ?_, ?_⟩
  · rw [hget]
    split_ifs
    · rfl
    · exact h.specials k hk
  · rw [WalletStore.version, hentry _ (by decide)]
    exact h.version
  · rw [hmem, entryGetRaw_of_get ((hget walletKeySpecial).trans (if_pos rfl))]
  · rw [hpassword, hsalt]
    rfl
  · rw [validPassword, check, hentry _ (by decide), hkey, hiv]
    exact h.valid

theorem backed_create {draws : Draws} {representative : Account}
    (h : create crypto draws representative .empty = .ok w) : Backed crypto none w := by
  have hlogged := logged_create h
  obtain ⟨w', hw', -, -, hget⟩ := create_spec crypto draws representative
  cases h.symm.trans hw'
  refine ⟨fun k hk => ?_, hlogged.version, hlogged.memory, ?_, hlogged.validPassword rfl⟩
  · rw [hget]
    exact isSome_newEntry crypto draws representative hk
  · rw [hlogged.password, hlogged.salt]

end Steps

theorem BackupRun.backed {crypto : Crypto} {current : Option String} {w : WalletStore}
    (h : BackupRun crypto current w) : Backed crypto current w := by
  induction h with
  | create hcreate => exact backed_create hcreate
  | insertAdhoc _ hspecial hinsert ih =>
    obtain ⟨_, _, hinsert⟩ := ok_of_bind hinsert
    cases hinsert
    exact ih.put (le_trans (by decide) hspecial) _
  | deterministicInsert _ hinsert ih => exact ih.deterministicInsert hinsert
  | insertWatch _ hpub ih => exact ih.put (le_trans (by decide) hpub) _
  | erase _ hpub herase ih =>
    obtain ⟨_, _, herase⟩ := ok_of_bind herase
    cases herase
    exact ih.del hpub
  | rekey password _ ih => exact ih.rekey password
  | representativeSet representative _ ih => exact ih.put le_rfl _
  | seedSet _ hset ih => exact ih.seedSet hset

/-! ## The copy -/

/-- An entry as a text keeps it. -/
def withoutWork (v : WalletValue) : WalletValue := ⟨v.key, 0⟩

/-- A copy of a wallet that is read from its text, before a password is entered. -/
def WalletStore.readCopy (w : WalletStore) (passwordFan walletKeyFan : List Uint256) :
    WalletStore where
  password := (Fan.create 0 passwordFan).valueSet 0
  walletKeyMem := (Fan.create 0 walletKeyFan).valueSet
    (((w.table.mapValues withoutWork).get walletKeySpecial).getD ⟨0, 0⟩).key
  table := w.table.mapValues withoutWork

section Copy

variable {crypto : Crypto} {lib : TreeLibrary} {passwordFan walletKeyFan : List Uint256}
variable {w : WalletStore} {c : WalletStore}

theorem readPair_encodeHex (x : Uint256 × WalletValue) :
    readPair (Uint256.encodeHex x.1, Uint256.encodeHex x.2.key) = some (x.1, withoutWork x.2) := by
  simp only [readPair, Uint256.decodeHex_encodeHex]
  rfl

theorem filterMap_jsonTree :
    w.jsonTree.entries.filterMap readPair = (w.table.mapValues withoutWork).entries := by
  rw [jsonTree, List.filterMap_map, Table.mapValues]
  have hread : readPair ∘ (fun x : Uint256 × WalletValue =>
      (Uint256.encodeHex x.1, Uint256.encodeHex x.2.key)) =
      fun x => some (x.1, withoutWork x.2) := funext readPair_encodeHex
  rw [hread, List.filterMap_eq_map']

theorem entryGetRaw_mapValues (k : Account) (hc : c.table = w.table.mapValues withoutWork) :
    (c.entryGetRaw k).key = (w.entryGetRaw k).key := by
  rw [entryGetRaw, entryGetRaw, hc, Table.get_mapValues]
  cases w.table.get k <;> rfl

theorem accounts_mapValues (hc : c.table = w.table.mapValues withoutWork) :
    c.accounts = w.accounts := by
  rw [accounts, accounts, accountEntries, accountEntries, hc, Table.mapValues, List.filter_map,
    List.map_map]
  rfl

theorem lt_of_mem_required {k : Account} (hk : k ∈ requiredSpecials) : k < specialCount := by
  simp only [requiredSpecials, List.mem_cons, List.not_mem_nil, or_false] at hk
  rcases hk with rfl | rfl | rfl | rfl | rfl <;> decide

theorem Backed.required {current : Option String} (h : Backed crypto current w) :
    ∀ k ∈ requiredSpecials, (w.table.get k).isSome = true :=
  fun k hk => h.specials k (lt_of_mem_required hk)

theorem not_endsUnreadable_jsonTree : ¬ EndsUnreadable w.jsonTree := by
  rintro ⟨x, hx, hunreadable⟩
  obtain ⟨y, -, rfl⟩ := List.mem_map.mp (List.mem_of_getLast? hx)
  rw [← readPair_isNone_iff, readPair_encodeHex] at hunreadable
  cases hunreadable

theorem incomplete_jsonTree_iff :
    Incomplete w.jsonTree ↔ ∃ k ∈ requiredSpecials, w.table.get k = none := by
  refine exists_congr fun k => and_congr_right fun _ => ?_
  rw [← notMem_filterMap_iff, filterMap_jsonTree]
  have hmem : ∀ v, (k, v) ∈ (w.table.mapValues withoutWork).entries ↔
      (w.table.get k).map withoutWork = some v := fun v => by
    rw [Table.mem_entries_iff, Table.get_mapValues]
  constructor
  · intro h
    by_contra hne
    obtain ⟨v, hv⟩ := Option.ne_none_iff_exists'.mp hne
    exact h (List.mem_map.mpr ⟨(k, withoutWork v), (hmem _).mpr (by rw [hv]; rfl), rfl⟩)
  · intro hnone h
    obtain ⟨⟨_, v⟩, hx, rfl⟩ := List.mem_map.mp h
    have hget := (hmem v).mp hx
    rw [hnone] at hget
    cases hget

theorem createFromJson_serializeJson
    (hspecials : ∀ k ∈ requiredSpecials, (w.table.get k).isSome = true)
    (hlib : lib.readJson (w.serializeJson lib) = some w.jsonTree) :
    createFromJson lib passwordFan walletKeyFan (w.serializeJson lib) =
      (false, w.readCopy passwordFan walletKeyFan) := by
  have herror : (createFromJson lib passwordFan walletKeyFan (w.serializeJson lib)).1 = false := by
    rw [Bool.eq_false_iff, ne_eq, createFromJson_error_iff hlib, incomplete_jsonTree_iff]
    rintro (hends | ⟨k, hk, hnone⟩)
    · exact not_endsUnreadable_jsonTree hends
    · simpa [hnone] using hspecials k hk
  refine Prod.ext herror ?_
  rw [createFromJson_some hlib, filterMap_jsonTree, Table.foldl_put_entries]
  rfl

end Copy

/-- A copy of a wallet into which a password has been entered. -/
structure EnteredCopy (crypto : Crypto) (password : String) (w c : WalletStore) : Prop where
  get : ∀ k, c.table.get k = (w.table.get k).map withoutWork
  walletKey : c.walletKey crypto =
    crypto.decrypt (w.entryGetRaw walletKeySpecial).key (w.deriveKey crypto password) w.iv

theorem enteredCopy (crypto : Crypto) (password : String) (w : WalletStore)
    (passwordFan walletKeyFan : List Uint256) :
    EnteredCopy crypto password w
      ((w.readCopy passwordFan walletKeyFan).withPassword crypto password) where
  get := w.table.get_mapValues withoutWork
  walletKey := by
    let c := w.readCopy passwordFan walletKeyFan
    have hkey : ∀ k, (c.entryGetRaw k).key = (w.entryGetRaw k).key :=
      fun k => entryGetRaw_mapValues k rfl
    have hmem : c.walletKeyMem.value = (w.entryGetRaw walletKeySpecial).key :=
      (Fan.value_valueSet _ _).trans (hkey _)
    have hsalt : c.salt = w.salt := hkey saltSpecial
    rw [walletKey_withPassword, hmem, deriveKey, iv, hsalt]
    rfl

namespace EnteredCopy

variable {crypto : Crypto} {password : String} {w c : WalletStore}

theorem key (h : EnteredCopy crypto password w c) (k : Account) :
    (c.entryGetRaw k).key = (w.entryGetRaw k).key := by
  rw [entryGetRaw, h.get, entryGetRaw]
  cases w.table.get k <;> rfl

theorem iv (h : EnteredCopy crypto password w c) : c.iv = w.iv :=
  congrArg firstOword (h.key saltSpecial)

theorem validPassword (h : EnteredCopy crypto password w c) :
    c.validPassword crypto = true ↔
      w.Unlocks crypto (w.entryGetRaw walletKeySpecial).key password := by
  rw [WalletStore.validPassword, decide_eq_true_iff, check, h.key, h.walletKey, h.iv]
  rfl

theorem sameSecrets (h : EnteredCopy crypto password w c)
    (hbacked : Backed crypto (some password) w) : SameSecrets crypto w c := by
  have hkey : c.walletKey crypto = w.walletKey crypto := by
    rw [h.walletKey, ← hbacked.memory, WalletStore.walletKey, hbacked.password]
    rfl
  refine ⟨hkey, h.iv, ?_, ?_⟩
  · rw [seed, seed, h.key, hkey, h.iv]
  · rw [WalletStore.validPassword, WalletStore.validPassword, check, check, h.key, hkey, h.iv]

end EnteredCopy

/-- The copy has the same accounts and records, and with the password the same keys and seed. -/
theorem backup_round_trip {crypto : Crypto} {lib : TreeLibrary} {current : Option String}
    {w : WalletStore} (hrun : BackupRun crypto current w)
    (hlib : lib.readJson (w.serializeJson lib) = some w.jsonTree)
    (passwordFan walletKeyFan : List Uint256) :
    ∃ c, createFromJson lib passwordFan walletKeyFan (w.serializeJson lib) = (false, c) ∧
      c.accounts = w.accounts ∧ c.representative = w.representative ∧ c.salt = w.salt ∧
      c.check = w.check ∧ c.deterministicIndexGet = w.deterministicIndexGet ∧
      ∀ password, current = some password → ∀ seed,
        ∃ c', c.attemptPassword crypto seed password = .ok (false, c') ∧
          (∀ pub, c'.fetch crypto pub = w.fetch crypto pub) ∧ c'.seed crypto = w.seed crypto := by
  have hkey : ∀ k, ((w.readCopy passwordFan walletKeyFan).entryGetRaw k).key =
      (w.entryGetRaw k).key := fun k => entryGetRaw_mapValues k rfl
  have hbacked := hrun.backed
  refine ⟨_, createFromJson_serializeJson hbacked.required hlib, accounts_mapValues rfl, hkey _,
    hkey _, hkey _, ?_, ?_⟩
  · rw [deterministicIndexGet, hkey, deterministicIndexGet]
  · rintro password rfl seed
    have hcopy := enteredCopy crypto password w passwordFan walletKeyFan
    have hsecrets := hcopy.sameSecrets hbacked
    have hversion : (w.readCopy passwordFan walletKeyFan).version = versionCurrent := by
      rw [version, hkey]
      exact hbacked.version
    refine ⟨_, ?_, fun pub => hsecrets.fetch_eq (hcopy.key pub), hsecrets.seed⟩
    rw [attemptPassword_of_version hversion, hsecrets.validPassword, hbacked.valid]
    rfl

/-- A wallet with a password and a key added by hand. -/
def backupSample : Except Fault WalletStore := do
  let w ← create sampleCrypto { sampleDraws with seed := 20 } 99 .empty
  let (_, w) ← (w.rekey sampleCrypto "first").2.insertAdhoc sampleCrypto 9
  pure w

/-- A library that reads every text as one map. -/
def constantLibrary (m : StringMap) : TreeLibrary := ⟨fun _ => [], fun _ => some m⟩

theorem backupSample_evaluated :
    ∃ w, backupSample = .ok w ∧ (w.insertWatch 2).validPassword sampleCrypto = true ∧
      (w.insertWatch 2).fetch sampleCrypto 9 = .ok (some 9) ∧
      ∃ r, ((w.insertWatch 2).readCopy [] []).attemptPassword sampleCrypto 0 "first" = .ok r ∧
        r.1 = true ∧ r.2.fetch sampleCrypto 9 = .ok none := by
  decide +kernel

theorem backupRun_sample {w : WalletStore} (h : backupSample = .ok w) :
    BackupRun sampleCrypto (some "first") w := by
  obtain ⟨w₀, hcreate, h⟩ := ok_of_bind h
  obtain ⟨⟨pub, w₁⟩, hinsert, h⟩ := ok_of_bind h
  cases h
  exact .insertAdhoc (.rekey "first" (.create hcreate)) (by decide) hinsert

theorem backup_round_trip_sample :
    ∃ w c c', backupSample = .ok w ∧
      createFromJson (constantLibrary w.jsonTree) [] [] [] = (false, c) ∧
      c.attemptPassword sampleCrypto 0 "first" = .ok (false, c') ∧
      ∀ pub, c'.fetch sampleCrypto pub = w.fetch sampleCrypto pub := by
  obtain ⟨w, hw, -⟩ := backupSample_evaluated
  obtain ⟨c, hc, -, -, -, -, -, hunlock⟩ :=
    @backup_round_trip sampleCrypto (constantLibrary w.jsonTree) (some "first") w
      (backupRun_sample hw) rfl [] []
  obtain ⟨c', hattempt, hfetch, -⟩ := hunlock "first" rfl 0
  exact ⟨w, c, c', hw, hc, hattempt, hfetch⟩

/-- Watching the account number 2 overwrites the encrypted wallet key of the copy. -/
theorem backup_of_overwritten_key :
    ∃ w c c', backupSample = .ok w ∧ (w.insertWatch 2).validPassword sampleCrypto = true ∧
      (w.insertWatch 2).fetch sampleCrypto 9 = .ok (some 9) ∧
      createFromJson (constantLibrary (w.insertWatch 2).jsonTree) [] [] [] = (false, c) ∧
      c.attemptPassword sampleCrypto 0 "first" = .ok (true, c') ∧
      c'.fetch sampleCrypto 9 = .ok none := by
  obtain ⟨w, hw, hvalid, hheld, ⟨failed, c'⟩, hattempt, rfl, hlost⟩ := backupSample_evaluated
  have hrequired : ∀ k ∈ requiredSpecials, ((w.insertWatch 2).table.get k).isSome = true := by
    intro k hk
    rw [insertWatch, find_entryPutRaw]
    split_ifs
    · rfl
    · exact (backupRun_sample hw).backed.required k hk
  exact ⟨w, _, c', hw, hvalid, hheld, createFromJson_serializeJson hrequired rfl, hattempt, hlost⟩

end Badem
