import Badem.Wallet.Keys

/-!
# Confidentiality of stored wallets

All secrets of a wallet are encrypted with one key and one initialisation vector, and the check
value is the encryption of zero.  So the check value is the keystream itself.  An attacker is a
function of what is shown of the table.
-/

namespace Badem

open Mdb WalletStore

/-- A wallet that is created and given a password. -/
structure WalletSetup where
  crypto : Crypto
  draws : Draws
  representative : Account
  password : String

namespace WalletSetup

def stored (x : WalletSetup) : Except Fault WalletStore := do
  let w ← create x.crypto x.draws x.representative .empty
  pure (w.rekey x.crypto x.password).2

def storedKey (x : WalletSetup) (prv : RawKey) : Except Fault (Account × WalletStore) := do
  let w ← x.stored
  w.insertAdhoc x.crypto prv

def iv (x : WalletSetup) : Uint128 := firstOword x.draws.salt

/-- The entry of the stored wallet under a key. -/
def entry (x : WalletSetup) (k : Account) : Option WalletValue :=
  if k = walletKeySpecial then
    some ⟨x.crypto.encrypt x.draws.walletKey (x.crypto.phs x.password x.draws.salt) x.iv, 0⟩
  else newEntry x.crypto x.draws x.representative k

theorem stored_spec (x : WalletSetup) :
    ∃ w, x.stored = .ok w ∧ (∀ k, w.table.get k = x.entry k) ∧
      w.validPassword x.crypto = true ∧ w.walletKey x.crypto = x.draws.walletKey ∧
      w.iv = x.iv := by
  obtain ⟨w, hw, -, -, hget⟩ := create_spec x.crypto x.draws x.representative
  have F := logged_create hw
  have F' : Logged x.crypto x.draws _ (w.rekey x.crypto x.password).2 := F.rekey rfl
  obtain ⟨-, -, htable⟩ := rekey_spec x.password (F.validPassword rfl)
  refine ⟨(w.rekey x.crypto x.password).2, ?_, fun k => ?_, F'.validPassword rfl,
    F'.walletKey_eq rfl, F'.iv⟩
  · rw [stored, hw]
    rfl
  · rw [htable, F.walletKey_eq rfl, F.iv, deriveKey, F.salt, hget]
    rfl

def keyEntry (x : WalletSetup) (prv : RawKey) (k : Account) : Option WalletValue :=
  if k = x.crypto.publicKey prv then some ⟨x.crypto.encrypt prv x.draws.walletKey x.iv, 0⟩
  else x.entry k

theorem storedKey_spec (x : WalletSetup) (prv : RawKey) :
    ∃ w, x.storedKey prv = .ok (x.crypto.publicKey prv, w) ∧
      ∀ k, w.table.get k = x.keyEntry prv k := by
  obtain ⟨w, hw, hget, hvalid, hkey, hiv⟩ := x.stored_spec
  refine ⟨w.entryPutRaw (x.crypto.publicKey prv)
    ⟨x.crypto.encrypt prv x.draws.walletKey x.iv, 0⟩, ?_, fun k => ?_⟩
  · rw [storedKey, hw, ok_bind, insertAdhoc, require_of hvalid, hkey, hiv]
    rfl
  · rw [find_entryPutRaw, hget, keyEntry]

end WalletSetup

/-! ## Attackers -/

section Attackers

variable (hidden : Set Account)

open Classical in
noncomputable def WalletStore.shown (w : WalletStore) : Account → Option WalletValue :=
  fun k => if k ∈ hidden then none else w.table.get k

def RecoversSeed (f : (Account → Option WalletValue) → RawKey) : Prop :=
  ∀ (x : WalletSetup) (w : WalletStore), x.stored = .ok w → f (w.shown hidden) = x.draws.seed

/-- The attacker obtains every key added by hand from its public key, which is not the
number of a special entry. -/
def RecoversKey (f : (Account → Option WalletValue) → Account → RawKey) : Prop :=
  ∀ (x : WalletSetup) (prv : RawKey) (pub : Account) (w : WalletStore),
    (∀ k, specialCount ≤ x.crypto.publicKey k) → x.storedKey prv = .ok (pub, w) →
    f (w.shown hidden) pub = prv

def sumWithCheck (entries : Account → Option WalletValue) (k : Account) : RawKey :=
  ((entries k).getD ⟨0, 0⟩).key ^^^ ((entries checkSpecial).getD ⟨0, 0⟩).key

theorem Crypto.encrypt_xor_check (crypto : Crypto) (x key : RawKey) (iv : Uint128) :
    crypto.encrypt x key iv ^^^ crypto.encrypt 0 key iv = x := by
  rw [encrypt, encrypt, BitVec.xor_assoc]
  simp

theorem sumWithCheck_stored {x : WalletSetup} {w : WalletStore} (h : x.stored = .ok w) :
    sumWithCheck w.table.get seedSpecial = x.draws.seed := by
  obtain ⟨w', hw', hget, -⟩ := x.stored_spec
  cases h.symm.trans hw'
  rw [sumWithCheck, hget, hget]
  exact x.crypto.encrypt_xor_check _ _ _

theorem sumWithCheck_storedKey {x : WalletSetup} {prv : RawKey} {pub : Account}
    {w : WalletStore} (hspecial : specialCount ≤ x.crypto.publicKey prv)
    (h : x.storedKey prv = .ok (pub, w)) : sumWithCheck w.table.get pub = prv := by
  obtain ⟨w', hw', hget⟩ := x.storedKey_spec prv
  cases h.symm.trans hw'
  rw [sumWithCheck, hget, hget, WalletSetup.keyEntry, if_pos rfl, WalletSetup.keyEntry,
    if_neg (ne_of_special (by decide) hspecial)]
  exact x.crypto.encrypt_xor_check _ _ _

theorem shown_of_not_mem {w : WalletStore} {k : Account} (h : k ∉ hidden) :
    w.shown hidden k = w.table.get k :=
  if_neg h

theorem sumWithCheck_shown {w : WalletStore} {k : Account} (hcheck : checkSpecial ∉ hidden)
    (hk : k ∉ hidden) : sumWithCheck (w.shown hidden) k = sumWithCheck w.table.get k := by
  rw [sumWithCheck, shown_of_not_mem hidden hcheck, shown_of_not_mem hidden hk, sumWithCheck]

/-! ## Wallets that look alike -/

def twin (pub : Account) (stream seed : RawKey) : WalletSetup where
  crypto :=
    { keystream := fun key _ => if key = 1 then stream else 0
      phs := fun _ _ => 2
      publicKey := fun _ => pub
      deterministicKey := fun _ _ => 0
      signMessage := fun _ _ _ => 0 }
  draws :=
    { passwordFan := []
      walletKeyFan := []
      salt := 0
      walletKey := 1
      seed := seed }
  representative := 0
  password := ""

theorem twin_entry {k : Account} (hcheck : k ≠ checkSpecial) (hseed : k ≠ seedSpecial)
    (pub : Account) (stream seed stream' seed' : RawKey) :
    (twin pub stream seed).entry k = (twin pub stream' seed').entry k := by
  simp only [WalletSetup.entry, newEntry, if_neg hcheck, if_neg hseed]
  rfl

theorem twin_entry_seed (pub : Account) (stream seed : RawKey) :
    (twin pub stream seed).entry seedSpecial = some ⟨seed ^^^ stream, 0⟩ :=
  rfl

theorem twin_entry_check (pub : Account) (stream seed : RawKey) :
    (twin pub stream seed).entry checkSpecial = some ⟨0 ^^^ stream, 0⟩ :=
  rfl

theorem twin_keyEntry (pub : Account) (stream seed prv : RawKey) (k : Account) :
    (twin pub stream seed).keyEntry prv k =
      if k = pub then some ⟨prv ^^^ stream, 0⟩ else (twin pub stream seed).entry k :=
  rfl

theorem twin_entry_of_sum {k : Account} (hcheck : k ≠ checkSpecial) (pub : Account) :
    (twin pub 0 0).entry k = (twin pub 1 1).entry k := by
  by_cases heq : k = seedSpecial
  · simp [heq, twin_entry_seed]
  · exact twin_entry hcheck heq pub 0 0 1 1

theorem twin_entry_of_stream {k : Account} (hseed : k ≠ seedSpecial) (pub : Account)
    (stream seed seed' : RawKey) :
    (twin pub stream seed).entry k = (twin pub stream seed').entry k := by
  by_cases heq : k = checkSpecial
  · rw [heq, twin_entry_check, twin_entry_check]
  · exact twin_entry heq hseed pub stream seed stream seed'

variable {hidden}

theorem shown_eq {w w' : WalletStore} (h : ∀ k ∉ hidden, w.table.get k = w'.table.get k) :
    w.shown hidden = w'.shown hidden := by
  funext k
  by_cases hk : k ∈ hidden
  · rw [shown, if_pos hk, shown, if_pos hk]
  · rw [shown_of_not_mem hidden hk, shown_of_not_mem hidden hk, h k hk]

theorem not_recoversSeed {x y : WalletSetup} (hne : x.draws.seed ≠ y.draws.seed)
    (hsame : ∀ k ∉ hidden, x.entry k = y.entry k)
    (f : (Account → Option WalletValue) → RawKey) : ¬ RecoversSeed hidden f := by
  intro hf
  obtain ⟨w, hw, hget, -⟩ := x.stored_spec
  obtain ⟨w', hw', hget', -⟩ := y.stored_spec
  have hshown : w.shown hidden = w'.shown hidden :=
    shown_eq fun k hk => by rw [hget, hget', hsame k hk]
  exact hne ((hf x w hw).symm.trans ((congrArg f hshown).trans (hf y w' hw')))

theorem not_recoversKey {pub : Account} (hpub : specialCount ≤ pub)
    {stream seed prv stream' seed' prv' : RawKey} (hne : prv ≠ prv')
    (hsame : ∀ k ∉ hidden, (twin pub stream seed).keyEntry prv k =
      (twin pub stream' seed').keyEntry prv' k)
    (f : (Account → Option WalletValue) → Account → RawKey) : ¬ RecoversKey hidden f := by
  intro hf
  obtain ⟨w, hw, hget⟩ := (twin pub stream seed).storedKey_spec prv
  obtain ⟨w', hw', hget'⟩ := (twin pub stream' seed').storedKey_spec prv'
  have hshown : w.shown hidden = w'.shown hidden :=
    shown_eq fun k hk => by rw [hget, hget', hsame k hk]
  have hkey : f (w.shown hidden) pub = prv := hf _ prv _ w (fun _ => hpub) hw
  have hkey' : f (w'.shown hidden) pub = prv' := hf _ prv' _ w' (fun _ => hpub) hw'
  exact hne (by rw [← hkey, hshown, hkey'])

end Attackers

/-- The seed and the keys are hidden exactly when the check value, or the entries in question, are
not shown. -/
theorem confidential_iff (hidden : Set Account) :
    ((∀ f, ¬ RecoversSeed hidden f) ↔ checkSpecial ∈ hidden ∨ seedSpecial ∈ hidden) ∧
    ((∀ f, ¬ RecoversKey hidden f) ↔
      checkSpecial ∈ hidden ∨ ∃ pub ∈ hidden, specialCount ≤ pub) := by
  constructor
  · constructor
    · intro h
      by_contra hshown
      obtain ⟨hcheck, hseed⟩ := not_or.mp hshown
      refine h (fun entries => sumWithCheck entries seedSpecial) fun x w hw => ?_
      exact (sumWithCheck_shown hidden hcheck hseed).trans (sumWithCheck_stored hw)
    · rintro (hcheck | hseed) f
      · refine @not_recoversSeed hidden (twin 7 0 0) (twin 7 1 1) (by decide) (fun k hk => ?_) f
        exact twin_entry_of_sum (ne_of_mem_of_not_mem hcheck hk).symm 7
      · refine @not_recoversSeed hidden (twin 7 0 0) (twin 7 0 1) (by decide) (fun k hk => ?_) f
        exact twin_entry_of_stream (ne_of_mem_of_not_mem hseed hk).symm 7 0 0 1
  · constructor
    · intro h
      by_contra hshown
      obtain ⟨hcheck, haccounts⟩ := not_or.mp hshown
      refine h sumWithCheck fun x prv pub w hspecial hw => ?_
      obtain ⟨w', hw', -⟩ := x.storedKey_spec prv
      cases hw.symm.trans hw'
      have hpub : x.crypto.publicKey prv ∉ hidden := fun hmem =>
        haccounts ⟨_, hmem, hspecial prv⟩
      exact (sumWithCheck_shown hidden hcheck hpub).trans
        (sumWithCheck_storedKey (hspecial prv) hw)
    · rintro (hcheck | ⟨pub, hmem, hpub⟩) f
      · refine @not_recoversKey hidden 7 (by decide) 0 0 0 1 1 1 (by decide) (fun k hk => ?_) f
        rw [twin_keyEntry, twin_keyEntry,
          twin_entry_of_sum (ne_of_mem_of_not_mem hcheck hk).symm 7]
        rfl
      · refine @not_recoversKey hidden pub hpub 0 0 0 0 0 1 (by decide) (fun k hk => ?_) f
        have hne := (ne_of_mem_of_not_mem hmem hk).symm
        rw [twin_keyEntry, if_neg hne, twin_keyEntry, if_neg hne]

/-- Two functions of the table and a public key that give away the seed and the keys. -/
theorem wallet_leaks :
    (∃ f : Table Uint256 WalletValue → RawKey, ∀ x : WalletSetup,
      ∃ w, x.stored = .ok w ∧ f w.table = x.draws.seed) ∧
    ∃ f : Table Uint256 WalletValue → Account → RawKey, ∀ (x : WalletSetup) (prv : RawKey),
      specialCount ≤ x.crypto.publicKey prv →
      ∃ w, x.storedKey prv = .ok (x.crypto.publicKey prv, w) ∧
        f w.table (x.crypto.publicKey prv) = prv := by
  refine ⟨⟨fun t => sumWithCheck t.get seedSpecial, fun x => ?_⟩,
    fun t pub => sumWithCheck t.get pub, fun x prv hspecial => ?_⟩
  · obtain ⟨w, hw, -⟩ := x.stored_spec
    exact ⟨w, hw, sumWithCheck_stored hw⟩
  · obtain ⟨w, hw, -⟩ := x.storedKey_spec prv
    exact ⟨w, hw, sumWithCheck_storedKey hspecial hw⟩

end Badem
