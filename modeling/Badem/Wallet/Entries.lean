import Badem.Core.WalletStore
import Badem.Mdb.Cursor

/-!
# Entries of a wallet

Reading and writing single entries, the table of a new wallet and the search for the next
deterministic key.
-/

namespace Badem

open Mdb

namespace WalletStore

/-! ## Entries -/

section Entries

variable (w : WalletStore) {pub k : Account}

theorem find_entryPutRaw (pub k : Account) (v : WalletValue) :
    (w.entryPutRaw pub v).table.get k = if k = pub then some v else w.table.get k :=
  w.table.get_put pub k v

@[simp] theorem entryGetRaw_entryPutRaw_self (pub : Account) (v : WalletValue) :
    (w.entryPutRaw pub v).entryGetRaw pub = v := by
  rw [entryGetRaw, find_entryPutRaw, if_pos rfl]
  rfl

theorem entryGetRaw_entryPutRaw_ne (v : WalletValue) (h : k ≠ pub) :
    (w.entryPutRaw pub v).entryGetRaw k = w.entryGetRaw k := by
  rw [entryGetRaw, find_entryPutRaw, if_neg h]
  rfl

theorem entryGetRaw_of_get {w : WalletStore} {v : WalletValue}
    (h : w.table.get pub = some v) : w.entryGetRaw pub = v := by
  rw [entryGetRaw, h]
  rfl

theorem ne_of_special (hk : k < specialCount) (h : specialCount ≤ pub) : k ≠ pub :=
  fun heq => absurd (heq ▸ hk) (not_lt.mpr h)

theorem accountEntries_eq_nil (h : ∀ pub, specialCount ≤ pub → w.table.get pub = none) :
    w.accountEntries = [] := by
  rw [accountEntries, List.filter_eq_nil_iff]
  rintro ⟨pub, v⟩ hmem hpub
  have hget := (w.table.mem_entries_iff pub v).mp hmem
  simp [h pub (of_decide_eq_true hpub)] at hget

theorem deterministicClear_eq (h : w.accountEntries = []) :
    w.deterministicClear = .ok (w.deterministicIndexSet 0) := by
  rw [deterministicClear, h]
  rfl

def clearedEntry (k : Account) : Option WalletValue :=
  if k = deterministicIndexSpecial then some ⟨0, 0⟩
  else (w.table.get k).filter (fun v => !decide (specialCount ≤ k ∧ v.keyType = .deterministic))

theorem mem_accountEntries_iff {x : Account × WalletValue} :
    x ∈ w.accountEntries ↔ w.table.get x.1 = some x.2 ∧ specialCount ≤ x.1 := by
  rw [accountEntries, List.mem_filter, decide_eq_true_eq, ← w.table.mem_entries_iff]

theorem sorted_accounts : w.accounts.Pairwise (· < ·) :=
  List.pairwise_map.mpr (w.table.sorted.filter _)

theorem mem_accounts_iff : k ∈ w.accounts ↔ (w.table.get k).isSome = true ∧ specialCount ≤ k := by
  rw [accounts, List.mem_map]
  constructor
  · rintro ⟨x, hx, rfl⟩
    obtain ⟨hget, hspecial⟩ := w.mem_accountEntries_iff.mp hx
    rw [hget]
    exact ⟨rfl, hspecial⟩
  · rintro ⟨hsome, hspecial⟩
    obtain ⟨v, hv⟩ := Option.isSome_iff_exists.mp hsome
    exact ⟨(k, v), w.mem_accountEntries_iff.mpr ⟨hv, hspecial⟩, rfl⟩

theorem deterministicClear_spec :
    ∃ w', w.deterministicClear = .ok w' ∧ w'.password = w.password ∧
      w'.walletKeyMem = w.walletKeyMem ∧ ∀ k, w'.table.get k = w.clearedEntry k := by
  -- the deterministic keys that have been visited are erased
  let Q : List (Account × WalletValue) → WalletStore → Prop := fun pre w' =>
    w'.password = w.password ∧ w'.walletKeyMem = w.walletKeyMem ∧
      ∀ k, w'.table.get k =
        (w.table.get k).filter (fun v => !decide ((k, v) ∈ pre ∧ v.keyType = .deterministic))
  have hstep : ∀ pre x post w', w.accountEntries = pre ++ x :: post → Q pre w' →
      ∃ w'', clearEntry w' x = .ok w'' ∧ Q (pre ++ [x]) w'' := by
    rintro pre ⟨a, v⟩ post w' hl ⟨hpassword, hmem, hget⟩
    have hmem' : (a, v) ∈ w.accountEntries := by
      rw [hl]
      exact List.mem_append_right _ (.head _)
    have hentry : w.table.get a = some v := (w.mem_accountEntries_iff.mp hmem').1
    have hother : ∀ k v', k ≠ a → ((k, v') ∈ pre ++ [(a, v)] ↔ (k, v') ∈ pre) := by
      intro k v' hne
      simp [hne]
    by_cases htype : v.keyType = .deterministic
    · have hfresh : (a, v) ∉ pre := by
        have hsorted := w.table.sorted.filter (fun x => decide (specialCount ≤ x.1))
        rw [show w.table.entries.filter _ = w.accountEntries from rfl, hl] at hsorted
        intro hpre
        exact lt_irrefl _ ((List.pairwise_append.mp hsorted).2.2 _ hpre _ (.head _))
      have hsome : (w'.table.get a).isSome = true := by
        rw [hget, hentry, Option.filter_some, if_pos (by simp [hfresh])]
        rfl
      refine ⟨{ w' with table := w'.table.del a }, ?_, hpassword, hmem, fun k => ?_⟩
      · simp [clearEntry, htype, erase, require_of hsome]
      · rw [Table.get_del, hget]
        grind
    · refine ⟨w', by rw [clearEntry, if_neg htype], hpassword, hmem, fun k => ?_⟩
      rw [hget]
      grind
  obtain ⟨w', hrun, hpassword, hmem, hget⟩ :=
    exists_foldlM Q hstep (s := w) ⟨rfl, rfl, fun k => by cases w.table.get k <;> rfl⟩
  refine ⟨w'.deterministicIndexSet 0, ?_, hpassword, hmem, fun k => ?_⟩
  · rw [deterministicClear, hrun]
    rfl
  · rw [deterministicIndexSet, find_entryPutRaw, clearedEntry]
    by_cases hindex : k = deterministicIndexSpecial
    · simp [hindex]
    · rw [if_neg hindex, if_neg hindex, hget]
      cases hk : w.table.get k with
      | none => rfl
      | some v => simp only [Option.filter_some, mem_accountEntries_iff, hk, true_and]

theorem clearedEntry_of_special (hk : k < specialCount)
    (hne : k ≠ deterministicIndexSpecial) : w.clearedEntry k = w.table.get k := by
  rw [clearedEntry, if_neg hne]
  cases w.table.get k with
  | none => rfl
  | some v => rw [Option.filter_some, if_pos (by simp [not_le.mpr hk])]

theorem isSome_clearedEntry (hk : k < specialCount)
    (h : (w.table.get k).isSome = true) : (w.clearedEntry k).isSome = true := by
  by_cases hindex : k = deterministicIndexSpecial
  · simp [clearedEntry, hindex]
  · rw [w.clearedEntry_of_special hk hindex, h]

theorem seedSet_spec (crypto : Crypto) (prv : RawKey) :
    ∃ w', w.seedSet crypto prv = .ok w' ∧ w'.password = w.password ∧
      w'.walletKeyMem = w.walletKeyMem ∧
      ∀ k, w'.table.get k =
        if k = seedSpecial then some ⟨crypto.encrypt prv (w.walletKey crypto) w.iv, 0⟩
        else w.clearedEntry k := by
  obtain ⟨w', hclear, hpassword, hmem, hget⟩ := deterministicClear_spec
    (w.entryPutRaw seedSpecial ⟨crypto.encrypt prv (w.walletKey crypto) w.iv, 0⟩)
  refine ⟨w', hclear, hpassword, hmem, fun k => (hget k).trans ?_⟩
  split_ifs with hk
  · rw [hk, clearedEntry_of_special _ (by decide) (by decide), find_entryPutRaw, if_pos rfl]
  · rw [clearedEntry, find_entryPutRaw, if_neg hk, clearedEntry]

theorem toNat_marker (index : Uint32) : (marker index).toNat = 2 ^ 32 + index.toNat := by
  have hlt := index.isLt
  have hor : (2 ^ 32 ||| index.toNat : Nat) = 2 ^ 32 + index.toNat := by
    have h := Nat.two_pow_add_eq_or_of_lt hlt 1
    simpa using h.symm
  rw [marker, BitVec.toNat_setWidth, BitVec.toNat_or, BitVec.toNat_setWidth,
    Nat.mod_eq_of_lt (show index.toNat < 2 ^ 64 by omega),
    show (1#64 <<< 32).toNat = 2 ^ 32 from rfl, hor, Nat.mod_eq_of_lt (by omega)]

theorem keyType_marker (index : Uint32) (work : Uint64) :
    WalletValue.keyType ⟨marker index, work⟩ = .deterministic := by
  have hlt := index.isLt
  rw [WalletValue.keyType, toNat_marker, if_neg (by omega), if_pos]
  rw [Nat.shiftRight_eq_div_pow]
  omega

theorem marker_ne_zero (index : Uint32) : marker index ≠ 0 := by
  intro h
  have hnat := toNat_marker index
  rw [h] at hnat
  simp at hnat
  omega

@[simp] theorem setWidth_marker (index : Uint32) : (marker index).setWidth 32 = index := by
  apply BitVec.eq_of_toNat_eq
  have hlt := index.isLt
  rw [BitVec.toNat_setWidth, toNat_marker]
  omega

end Entries

/-! ## Secrets -/

def secretSpecials : List Account := [saltSpecial, checkSpecial, seedSpecial]

theorem notMem_secretSpecials {k : Account} (h : specialCount ≤ k) : k ∉ secretSpecials := by
  intro hmem
  simp only [secretSpecials, List.mem_cons, List.not_mem_nil, or_false] at hmem
  rcases hmem with rfl | rfl | rfl <;> exact absurd h (by decide)

theorem fetch_congr {crypto : Crypto} {w w' : WalletStore} {pub : Account}
    (hvalid : w'.validPassword crypto = w.validPassword crypto)
    (hdecrypt : ∀ x, crypto.decrypt x (w'.walletKey crypto) w'.iv =
      crypto.decrypt x (w.walletKey crypto) w.iv)
    (hentry : (w'.entryGetRaw pub).key = (w.entryGetRaw pub).key)
    (hseed : (w.entryGetRaw pub).keyType = .deterministic → w'.seed crypto = w.seed crypto) :
    w'.fetch crypto pub = w.fetch crypto pub := by
  have htype : (w'.entryGetRaw pub).keyType = (w.entryGetRaw pub).keyType := by
    rw [WalletValue.keyType, WalletValue.keyType, hentry]
  have hkey : w'.entryKey crypto (w'.entryGetRaw pub) = w.entryKey crypto (w.entryGetRaw pub) := by
    rw [entryKey, entryKey, htype, hentry, hdecrypt]
    cases hkind : (w.entryGetRaw pub).keyType with
    | deterministic => simp only [deterministicKey, hvalid, hseed hkind]
    | _ => rfl
  rw [fetch, fetch, hvalid, hkey]

/-- Two wallets have what is needed to read their entries in common. -/
structure SameSecrets (crypto : Crypto) (w w' : WalletStore) : Prop where
  walletKey : w'.walletKey crypto = w.walletKey crypto
  iv : w'.iv = w.iv
  seed : w'.seed crypto = w.seed crypto
  validPassword : w'.validPassword crypto = w.validPassword crypto

namespace SameSecrets

variable {crypto : Crypto} {w w' w'' : WalletStore} {pub : Account}

theorem refl (w : WalletStore) : SameSecrets crypto w w := ⟨rfl, rfl, rfl, rfl⟩

theorem trans (h : SameSecrets crypto w w') (h' : SameSecrets crypto w' w'') :
    SameSecrets crypto w w'' :=
  ⟨h'.walletKey.trans h.walletKey, h'.iv.trans h.iv, h'.seed.trans h.seed,
    h'.validPassword.trans h.validPassword⟩

theorem of_special (hpassword : w'.password.value = w.password.value)
    (hmem : w'.walletKeyMem.value = w.walletKeyMem.value)
    (hspecial : ∀ k ∈ secretSpecials, (w'.entryGetRaw k).key = (w.entryGetRaw k).key) :
    SameSecrets crypto w w' := by
  have hiv : w'.iv = w.iv := by
    rw [WalletStore.iv, WalletStore.iv, salt, salt, hspecial _ (by decide)]
  have hkey : w'.walletKey crypto = w.walletKey crypto := by
    rw [WalletStore.walletKey, WalletStore.walletKey, hiv, hpassword, hmem]
  refine ⟨hkey, hiv, ?_, ?_⟩
  · rw [WalletStore.seed, WalletStore.seed, hspecial _ (by decide), hkey, hiv]
  · rw [WalletStore.validPassword, WalletStore.validPassword, check, check,
      hspecial _ (by decide), hkey, hiv]

theorem put (h : pub ∉ secretSpecials) (w : WalletStore) (v : WalletValue) :
    SameSecrets crypto w (w.entryPutRaw pub v) := by
  refine of_special rfl rfl fun k hk => ?_
  rw [entryGetRaw_entryPutRaw_ne]
  rintro rfl
  exact h hk

theorem entryPutRaw (h : specialCount ≤ pub) (v : WalletValue) :
    SameSecrets crypto w (w.entryPutRaw pub v) :=
  put (notMem_secretSpecials h) w v

theorem del (h : pub ∉ secretSpecials) :
    SameSecrets crypto w { w with table := w.table.del pub } := by
  refine of_special rfl rfl fun k hk => ?_
  have hne : k ≠ pub := by
    rintro rfl
    exact h hk
  rw [entryGetRaw, Table.get_del, if_neg hne]
  rfl

theorem deterministicIndexSet (w : WalletStore) (index : Uint32) :
    SameSecrets crypto w (w.deterministicIndexSet index) :=
  put (by decide) w _

theorem fetch_eq (h : SameSecrets crypto w w')
    (hentry : (w'.entryGetRaw pub).key = (w.entryGetRaw pub).key) :
    w'.fetch crypto pub = w.fetch crypto pub :=
  fetch_congr h.validPassword (fun x => by rw [h.walletKey, h.iv]) hentry fun _ => h.seed

end SameSecrets

variable {v : WalletValue} {crypto : Crypto} {w : WalletStore} {pub : Account}

theorem keyType_of_large (h : 2 ^ 64 ≤ v.key.toNat) : v.keyType = .adhoc := by
  rw [WalletValue.keyType, if_pos (by omega)]

theorem fetch_adhoc (hvalid : w.validPassword crypto = true) (hget : w.table.get pub = some v)
    (hlarge : 2 ^ 64 ≤ v.key.toNat) :
    w.fetch crypto pub = .ok ((some (crypto.decrypt v.key (w.walletKey crypto) w.iv)).filter
      fun prv => decide (pub = crypto.publicKey prv)) := by
  have hne : v.key ≠ 0 := by
    intro hz
    rw [hz] at hlarge
    simp at hlarge
  rw [fetch, if_pos hvalid, entryGetRaw_of_get hget, entryKey, if_pos hne, keyType_of_large hlarge]
  rfl

theorem fetch_of_adhoc (hvalid : w.validPassword crypto = true) (hget : w.table.get pub = some v)
    (hlarge : 2 ^ 64 ≤ v.key.toNat) {prv : RawKey}
    (hprv : crypto.decrypt v.key (w.walletKey crypto) w.iv = prv)
    (hpub : crypto.publicKey prv = pub) : w.fetch crypto pub = .ok (some prv) := by
  rw [fetch_adhoc hvalid hget hlarge, hprv, Option.filter_some, if_pos (decide_eq_true hpub.symm)]

/-! ## New wallets -/

section Create

variable (crypto : Crypto) (draws : Draws) (representative : Account)

/-- The entry of a new wallet under a key. -/
def newEntry (k : Account) : Option WalletValue :=
  let iv := firstOword draws.salt
  if k = deterministicIndexSpecial then some ⟨0, 0⟩
  else if k = seedSpecial then some ⟨crypto.encrypt draws.seed draws.walletKey iv, 0⟩
  else if k = representativeSpecial then some ⟨representative, 0⟩
  else if k = checkSpecial then some ⟨crypto.encrypt 0 draws.walletKey iv, 0⟩
  else if k = walletKeySpecial then some ⟨crypto.encrypt draws.walletKey 0 iv, 0⟩
  else if k = saltSpecial then some ⟨draws.salt, 0⟩
  else if k = versionSpecial then some ⟨BitVec.ofNat 256 versionCurrent, 0⟩
  else none

theorem newEntry_eq_none {k : Account} (h : specialCount ≤ k) :
    newEntry crypto draws representative k = none := by
  have hne : ∀ j, j < specialCount → k ≠ j := fun j hj => (ne_of_special hj h).symm
  rw [newEntry, if_neg (hne _ (by decide)), if_neg (hne _ (by decide)), if_neg (hne _ (by decide)),
    if_neg (hne _ (by decide)), if_neg (hne _ (by decide)), if_neg (hne _ (by decide)),
    if_neg (hne _ (by decide))]

theorem isSome_newEntry {k : Account} (h : k < specialCount) :
    (newEntry crypto draws representative k).isSome = true := by
  simp only [newEntry]
  split_ifs with h₆ h₅ h₄ h₃ h₂ h₁ h₀
  on_goal 8 =>
    simp only [deterministicIndexSpecial, seedSpecial, representativeSpecial, checkSpecial,
      walletKeySpecial, saltSpecial, versionSpecial, specialCount] at h h₆ h₅ h₄ h₃ h₂ h₁ h₀
    bv_omega
  all_goals rfl

theorem create_spec :
    ∃ w, create crypto draws representative .empty = .ok w ∧ w.password.value = 0 ∧
      w.walletKeyMem.value = crypto.encrypt draws.walletKey 0 (firstOword draws.salt) ∧
      ∀ k, w.table.get k = newEntry crypto draws representative k := by
  let w₀ : WalletStore :=
    { password := .create 0 draws.passwordFan
      walletKeyMem := .create 0 draws.walletKeyFan
      table := .empty }
  let w₁ := initialEntries crypto draws representative w₀
  have hiv : w₁.iv = firstOword draws.salt := rfl
  have hpassword : w₁.password.value = 0 := Fan.value_valueSet _ _
  have hmem : w₁.walletKeyMem.value = crypto.encrypt draws.walletKey 0 (firstOword draws.salt) :=
    Fan.value_valueSet _ _
  have hkey : w₁.walletKey crypto = draws.walletKey := by
    rw [walletKey, hpassword, hmem, hiv, Crypto.decrypt_encrypt]
  let seedValue : WalletValue :=
    ⟨crypto.encrypt draws.seed draws.walletKey (firstOword draws.salt), 0⟩
  have hget : ∀ k, ((w₁.entryPutRaw seedSpecial seedValue).entryPutRaw
      deterministicIndexSpecial ⟨0, 0⟩).table.get k = newEntry crypto draws representative k := by
    intro k
    simp only [w₁, initialEntries, versionPut, find_entryPutRaw, newEntry, w₀, Table.get_empty,
      seedValue]
  have hnone : ∀ pub, specialCount ≤ pub →
      (w₁.entryPutRaw seedSpecial seedValue).table.get pub = none := by
    intro pub hpub
    have hnew := (hget pub).trans (newEntry_eq_none crypto draws representative hpub)
    rwa [find_entryPutRaw, if_neg (ne_of_special (by decide) hpub).symm] at hnew
  have hseed : w₁.seedSet crypto draws.seed =
      .ok ((w₁.entryPutRaw seedSpecial seedValue).deterministicIndexSet 0) := by
    rw [seedSet, hkey, hiv]
    exact deterministicClear_eq _ (accountEntries_eq_nil _ hnone)
  let w₂ := ((w₁.entryPutRaw seedSpecial seedValue).deterministicIndexSet 0).entryPutRaw
    deterministicIndexSpecial ⟨0, 0⟩
  have hget₂ : ∀ k, w₂.table.get k = newEntry crypto draws representative k := by
    intro k
    rw [← hget k]
    simp only [w₂, deterministicIndexSet, find_entryPutRaw]
    split_ifs <;> rfl
  have hcreate : create crypto draws representative .empty =
      .ok { w₂ with
        walletKeyMem := w₂.walletKeyMem.valueSet (w₂.entryGetRaw walletKeySpecial).key } := by
    show (populate crypto draws representative w₀ >>= fun w => pure _) = _
    rw [populate, hseed]
    rfl
  refine ⟨_, hcreate, hpassword, ?_, hget₂⟩
  show (Fan.valueSet _ _).value = _
  rw [Fan.value_valueSet, entryGetRaw_of_get (hget₂ walletKeySpecial)]

end Create

/-! ## Change of the password -/

theorem rekey_fst_eq_false_iff (crypto : Crypto) (w : WalletStore) (password : String) :
    (w.rekey crypto password).1 = false ↔ w.validPassword crypto = true := by
  rw [WalletStore.rekey]
  split_ifs with hvalid
  · simp [hvalid]
  · simp [hvalid]

theorem rekey_eq_of_fst {password : String}
    (h : (w.rekey crypto password).1 = true) : (w.rekey crypto password).2 = w := by
  have hinvalid : ¬ w.validPassword crypto = true := fun hvalid => by
    simp [(rekey_fst_eq_false_iff crypto w password).mpr hvalid] at h
  rw [WalletStore.rekey, if_neg hinvalid]

theorem rekey_spec (password : String) (hvalid : w.validPassword crypto = true) :
    (w.rekey crypto password).2.password.value = w.deriveKey crypto password ∧
      (w.rekey crypto password).2.walletKeyMem.value =
        crypto.encrypt (w.walletKey crypto) (w.deriveKey crypto password) w.iv ∧
      ∀ k, (w.rekey crypto password).2.table.get k =
        if k = walletKeySpecial then
          some ⟨crypto.encrypt (w.walletKey crypto) (w.deriveKey crypto password) w.iv, 0⟩
        else w.table.get k := by
  rw [rekey, if_pos hvalid]
  exact ⟨Fan.value_valueSet _ _, Fan.value_valueSet _ _, fun k => find_entryPutRaw _ _ k _⟩

def withPassword (crypto : Crypto) (w : WalletStore) (password : String) : WalletStore :=
  { w with password := w.password.valueSet (w.deriveKey crypto password) }

/-- What a password makes of an encrypted wallet key agrees with the check value. -/
def Unlocks (crypto : Crypto) (w : WalletStore) (ciphertext : Uint256) (password : String) :
    Prop :=
  w.check =
    crypto.encrypt 0 (crypto.decrypt ciphertext (w.deriveKey crypto password) w.iv) w.iv

instance Unlocks.decidable (crypto : Crypto) (w : WalletStore) (ciphertext : Uint256)
    (password : String) : Decidable (w.Unlocks crypto ciphertext password) :=
  inferInstanceAs (Decidable (_ = _))

theorem walletKey_withPassword (crypto : Crypto) (w : WalletStore) (password : String) :
    (w.withPassword crypto password).walletKey crypto =
      crypto.decrypt w.walletKeyMem.value (w.deriveKey crypto password) w.iv :=
  congrArg (crypto.decrypt w.walletKeyMem.value · w.iv) (Fan.value_valueSet _ _)

theorem validPassword_withPassword {password : String} :
    (w.withPassword crypto password).validPassword crypto = true ↔
      w.Unlocks crypto w.walletKeyMem.value password := by
  rw [validPassword, decide_eq_true_iff, walletKey_withPassword]
  rfl

theorem attemptPassword_of_version (hversion : w.version = versionCurrent)
    (crypto : Crypto) (seed : RawKey) (password : String) :
    w.attemptPassword crypto seed password =
      .ok (!(w.withPassword crypto password).validPassword crypto,
        w.withPassword crypto password) := by
  let w' := { w with password := w.password.valueSet (w.deriveKey crypto password) }
  have hversion' : w'.version = 3 := hversion
  rw [attemptPassword, withPassword]
  simp only
  rw [if_neg (show ¬ w'.version = 1 by omega), ok_bind,
    if_neg (show ¬ w'.version = 2 by omega), ok_bind]
  split_ifs with hvalid
  · rw [hvalid]
    rfl
  · simp_all

/-! ## Deterministic keys -/

section Deterministic

variable {crypto : Crypto} {w : WalletStore}

theorem deterministicSearch_spec (fuel : Nat) :
    ∀ {start index : Uint32} {pub : Account},
      w.deterministicSearch crypto fuel start = .ok (index, pub) →
      w.validPassword crypto = true ∧
        crypto.publicKey (crypto.deterministicKey (w.seed crypto) index) = pub := by
  induction fuel with
  | zero =>
    intro start index pub h
    exact absurd h (by simp [deterministicSearch])
  | succ fuel ih =>
    intro start index pub h
    obtain ⟨prv, hprv, h⟩ := ok_of_bind h
    obtain ⟨_, hvalid, hprv⟩ := ok_of_bind hprv
    cases hprv
    simp only at h
    split_ifs at h
    · exact ih h
    · cases h
      exact ⟨of_require_eq_ok hvalid, rfl⟩

theorem deterministicSearch_first (fuel : Nat) :
    ∀ {start index : Uint32} {pub : Account},
      w.deterministicSearch crypto fuel start = .ok (index, pub) →
      w.keyExists pub = false ∧ ∃ n < fuel, index = start + BitVec.ofNat 32 n ∧
        ∀ j < n, w.keyExists (crypto.publicKey (crypto.deterministicKey (w.seed crypto)
          (start + BitVec.ofNat 32 j))) = true := by
  induction fuel with
  | zero =>
    intro start index pub h
    exact absurd h (by simp [deterministicSearch])
  | succ fuel ih =>
    intro start index pub h
    obtain ⟨prv, hprv, h⟩ := ok_of_bind h
    obtain ⟨_, hvalid, hprv⟩ := ok_of_bind hprv
    cases hprv
    simp only at h
    split_ifs at h with hexists
    · obtain ⟨hfree, n, hn, rfl, hpassed⟩ := ih h
      refine ⟨hfree, n + 1, by omega, ?_, fun j hj => ?_⟩
      · grind [Nat.add_comm, BitVec.ofNat_add, BitVec.add_assoc]
      · cases j with
        | zero => simpa using hexists
        | succ j =>
          have hj' := hpassed j (by omega)
          rw [BitVec.add_assoc] at hj'
          rw [Nat.add_comm, BitVec.ofNat_add]
          exact hj'
    · cases h
      exact ⟨Bool.eq_false_iff.mpr hexists, 0, by omega, by simp, fun j hj => by omega⟩

theorem deterministicSearch_returns (hvalid : w.validPassword crypto = true) {index : Uint32}
    (hfree : w.keyExists (crypto.publicKey (crypto.deterministicKey (w.seed crypto) index)) = false)
    (fuel : Nat) :
    ∀ {start : Uint32}, (index - start).toNat < fuel →
      ∃ x, w.deterministicSearch crypto fuel start = .ok x := by
  induction fuel with
  | zero =>
    intro start h
    omega
  | succ fuel ih =>
    intro start h
    have hkey : w.deterministicKey crypto start =
        .ok (crypto.deterministicKey (w.seed crypto) start) := by
      rw [deterministicKey, require_of hvalid]
      rfl
    rw [deterministicSearch, hkey, ok_bind]
    simp only
    split_ifs with hexists
    · have hne : index ≠ start := by
        rintro rfl
        simp [hfree] at hexists
      refine ih ?_
      bv_omega
    · exact ⟨_, rfl⟩

theorem deterministicInsert_returns (hvalid : w.validPassword crypto = true) {index : Uint32}
    (hfree : w.keyExists (crypto.publicKey (crypto.deterministicKey (w.seed crypto) index)) =
      false) :
    ∃ x, w.deterministicInsert crypto = .ok x := by
  obtain ⟨x, hx⟩ := deterministicSearch_returns hvalid hfree (2 ^ 32)
    (BitVec.isLt (index - w.deterministicIndexGet))
  rw [deterministicInsert, hx]
  exact ⟨_, rfl⟩

end Deterministic

end WalletStore

end Badem
