import Badem.Core.RpcHandler
import Badem.Wallet.Signing

/-!
# Moving keys

`move` inserts each key into the destination and then erases it from the source.  When the two
are one wallet, the key that was inserted is the one that is erased.
-/

namespace Badem

open Mdb WalletStore Function

/-- Whether a wallet returns the key of an account. -/
def WalletStore.holds (crypto : Crypto) (w : WalletStore) (account : Account) : Bool :=
  match w.fetch crypto account with
  | .ok (some _) => true
  | _ => false

/-- The keys of a list that are moved: up to the first one that is not held or has been moved
before. -/
def movedKeys (held : Account → Bool) : List Account → List Account
  | [] => []
  | key :: keys =>
    if held key = true then key :: movedKeys (fun a => held a && !decide (a = key)) keys else []

section Moved

variable {held : Account → Bool} {keys : List Account} {key : Account}

theorem movedKeys_initial : ∀ (keys : List Account) (held : Account → Bool),
    movedKeys held keys <+: keys
  | [], _ => List.prefix_rfl
  | key :: keys, held => by
    rw [movedKeys]
    split_ifs
    · exact (List.cons_prefix_cons).mpr ⟨rfl, movedKeys_initial keys _⟩
    · exact List.nil_prefix

theorem held_of_mem_movedKeys :
    ∀ (keys : List Account) {held : Account → Bool}, key ∈ movedKeys held keys → held key = true
  | [], _, h => absurd h List.not_mem_nil
  | k :: keys, held, h => by
    rw [movedKeys] at h
    split_ifs at h with hk
    · rcases List.mem_cons.mp h with rfl | h
      · exact hk
      · exact (Bool.and_eq_true_iff.mp (held_of_mem_movedKeys keys h)).1
    · exact absurd h List.not_mem_nil

end Moved

section Fetch

variable {crypto : Crypto} {w : WalletStore} {account : Account} {prv : RawKey}

theorem holds_iff : w.holds crypto account = true ↔ KeyHeld crypto w account := by
  obtain ⟨r, hr⟩ := exists_fetch crypto w account
  rw [holds, hr, KeyHeld, hr]
  cases r <;> simp

theorem fetch_of_not_holds (h : ¬ w.holds crypto account = true) :
    w.fetch crypto account = .ok none :=
  fetch_of_not_keyHeld fun hheld => h (holds_iff.mpr hheld)

theorem fetch_entryPutRaw_adhoc (hvalid : w.validPassword crypto = true)
    (hpub : crypto.publicKey prv = account) (hsecret : account ∉ secretSpecials)
    (hlarge : 2 ^ 64 ≤ (crypto.encrypt prv (w.walletKey crypto) w.iv).toNat) :
    (w.entryPutRaw account ⟨crypto.encrypt prv (w.walletKey crypto) w.iv, 0⟩).fetch crypto account =
      .ok (some prv) := by
  have hsame : SameSecrets crypto w
      (w.entryPutRaw account ⟨crypto.encrypt prv (w.walletKey crypto) w.iv, 0⟩) :=
    .put hsecret w _
  refine fetch_of_adhoc (hsame.validPassword.trans hvalid)
    ((find_entryPutRaw w account account _).trans (if_pos rfl)) hlarge ?_ hpub
  rw [hsame.walletKey, hsame.iv, Crypto.decrypt_encrypt]

theorem fetch_entryPutRaw_ne (hsecret : account ∉ secretSpecials) (v : WalletValue) {pub : Account}
    (hne : pub ≠ account) : (w.entryPutRaw account v).fetch crypto pub = w.fetch crypto pub :=
  (SameSecrets.put hsecret w v).fetch_eq
    (congrArg WalletValue.key (entryGetRaw_entryPutRaw_ne w v hne))

theorem fetch_del (hsecret : account ∉ secretSpecials) (pub : Account) :
    fetch crypto { w with table := w.table.del account } pub =
      if pub = account then .ok none else w.fetch crypto pub := by
  by_cases heq : pub = account
  · have hzero : (entryGetRaw { w with table := w.table.del account } pub).key = 0 := by
      rw [entryGetRaw, Table.get_del, if_pos heq]
      rfl
    rw [if_pos heq, fetch, entryKey, if_neg (not_not.mpr hzero)]
    split_ifs <;> rfl
  · rw [if_neg heq]
    refine (SameSecrets.del hsecret).fetch_eq ?_
    rw [entryGetRaw, Table.get_del, if_neg heq]
    rfl

theorem isSome_of_fetch (h : w.fetch crypto account = .ok (some prv)) :
    (w.table.get account).isSome = true := by
  cases hget : w.table.get account with
  | some v => rfl
  | none =>
    have hzero : (w.entryGetRaw account).key = 0 := by
      rw [entryGetRaw, hget]
      rfl
    rw [fetch, entryKey, if_neg (not_not.mpr hzero)] at h
    split_ifs at h
    · exact absurd (Except.ok.inj h) (by simp)
    · exact absurd (Except.ok.inj h) (by simp)

end Fetch

/-! ## Keys that have been moved -/

section Moved

variable {ι : Type} {crypto : Crypto} {dst src : ι} {stores : ι → WalletStore} {key : Account}

/-- The keys of a list have been moved. -/
structure KeysMoved (crypto : Crypto) (dst src : ι) (moved : List Account)
    (stores stores' : ι → WalletStore) : Prop where
  target : SameSecrets crypto (stores dst) (stores' dst)
  source : SameSecrets crypto (stores src) (stores' src)
  erased : ∀ a, (stores' src).fetch crypto a =
    if a ∈ moved then .ok none else (stores src).fetch crypto a
  inserted : dst ≠ src → ∀ a, (stores' dst).fetch crypto a =
    if a ∈ moved then (stores src).fetch crypto a else (stores dst).fetch crypto a

theorem KeysMoved.nil : KeysMoved crypto dst src [] stores stores :=
  ⟨.refl _, .refl _, fun _ => rfl, fun _ _ => rfl⟩

theorem KeysMoved.cons {moved : List Account} {stores₁ stores₂ : ι → WalletStore}
    (h : KeysMoved crypto dst src [key] stores stores₁)
    (h' : KeysMoved crypto dst src moved stores₁ stores₂) (hkey : key ∉ moved) :
    KeysMoved crypto dst src (key :: moved) stores stores₂ where
  target := h.target.trans h'.target
  source := h.source.trans h'.source
  erased := by
    intro a
    rw [h'.erased, h.erased]
    by_cases hmem : a ∈ moved <;> simp [hmem]
  inserted := by
    intro hne a
    rw [h'.inserted hne, h.inserted hne, h.erased]
    by_cases hmem : a ∈ moved
    · have ha : a ∉ [key] := fun h => hkey (List.mem_singleton.mp h ▸ hmem)
      rw [if_pos hmem, if_pos (List.mem_cons_of_mem _ hmem), if_neg ha]
    · simp only [List.mem_cons, List.not_mem_nil, or_false, hmem, if_false]

theorem KeysMoved.holds_eq {stores' : ι → WalletStore}
    (h : KeysMoved crypto dst src [key] stores stores') :
    (stores' src).holds crypto =
      fun a => (stores src).holds crypto a && !decide (a = key) := by
  funext a
  unfold holds
  rw [h.erased]
  by_cases heq : a = key <;> simp [heq]

end Moved

/-! ## The loop -/

section Steps

variable {ι : Type} [DecidableEq ι] {crypto : Crypto} {dst src : ι}
variable {stores : ι → WalletStore} {key : Account} {prv : RawKey}

theorem moveKey_failed : moveKey crypto dst src (true, stores) key = .ok (true, stores) := by
  obtain ⟨r, hr⟩ := exists_fetch crypto (stores src) key
  rw [moveKey]
  simp only
  rw [hr]
  rfl

theorem moveKey_missing (h : (stores src).fetch crypto key = .ok none) :
    moveKey crypto dst src (false, stores) key = .ok (true, stores) := by
  rw [moveKey]
  simp only
  rw [h]
  rfl

theorem source_of_inserted (hkey : key ∉ secretSpecials)
    (hsome : ((stores src).table.get key).isSome = true) (v : WalletValue) :
    ((update stores dst ((stores dst).entryPutRaw key v) src).table.get key).isSome = true ∧
      SameSecrets crypto (stores src) (update stores dst ((stores dst).entryPutRaw key v) src) ∧
      ∀ a, a ≠ key → (update stores dst ((stores dst).entryPutRaw key v) src).fetch crypto a =
        (stores src).fetch crypto a := by
  by_cases hsame : src = dst
  · rw [hsame, update_self]
    refine ⟨?_, .put hkey _ v, fun a ha => fetch_entryPutRaw_ne hkey v ha⟩
    rw [find_entryPutRaw, if_pos rfl]
    rfl
  · rw [update_of_ne hsame]
    exact ⟨hsome, .refl _, fun a _ => rfl⟩

theorem moveKey_held (hdst : (stores dst).validPassword crypto = true) (hkey : key ∉ secretSpecials)
    (hfetch : (stores src).fetch crypto key = .ok (some prv))
    (hlarge : 2 ^ 64 ≤ (crypto.encrypt prv ((stores dst).walletKey crypto) (stores dst).iv).toNat) :
    ∃ stores', moveKey crypto dst src (false, stores) key = .ok (false, stores') ∧
      KeysMoved crypto dst src [key] stores stores' := by
  let v : WalletValue := ⟨crypto.encrypt prv ((stores dst).walletKey crypto) (stores dst).iv, 0⟩
  let stores₁ := update stores dst ((stores dst).entryPutRaw key v)
  have hpub := publicKey_of_fetch hfetch
  have hinsert : (stores dst).insertAdhoc crypto prv =
      .ok (key, (stores dst).entryPutRaw key v) := by
    rw [insertAdhoc, require_of hdst, ← hpub]
    rfl
  obtain ⟨hsome, hsecrets, hothers⟩ :=
    @source_of_inserted ι _ crypto dst src stores key hkey (isSome_of_fetch hfetch) v
  have hrun : moveKey crypto dst src (false, stores) key = .ok (false, update stores₁ src
      { stores₁ src with table := (stores₁ src).table.del key }) := by
    rw [moveKey]
    simp only
    rw [hfetch, ok_bind]
    simp only
    rw [hinsert, ok_bind]
    simp only
    rw [erase, require_of hsome]
    rfl
  refine ⟨_, hrun, ?_, ?_, ?_, ?_⟩
  · by_cases hsame : dst = src
    · rw [hsame, update_self]
      exact hsecrets.trans (.del hkey)
    · rw [update_of_ne hsame]
      simp only [stores₁, update_self]
      exact .put hkey _ v
  · rw [update_self]
    exact hsecrets.trans (.del hkey)
  · intro a
    rw [update_self, fetch_del hkey]
    grind
  · intro hne a
    rw [update_of_ne hne]
    simp only [stores₁, update_self]
    by_cases heq : a = key
    · rw [if_pos (List.mem_singleton.mpr heq), heq, hfetch]
      exact fetch_entryPutRaw_adhoc hdst hpub hkey hlarge
    · rw [if_neg (fun h => heq (List.mem_singleton.mp h))]
      exact fetch_entryPutRaw_ne hkey v heq

theorem foldlM_moveKey_failed (keys : List Account) :
    keys.foldlM (moveKey crypto dst src) (true, stores) = .ok (true, stores) := by
  induction keys with
  | nil => rfl
  | cons key keys ih =>
    rw [List.foldlM_cons, moveKey_failed, ok_bind]
    exact ih

theorem move_eq (hdst : (stores dst).validPassword crypto = true)
    (hsrc : (stores src).validPassword crypto = true) (keys : List Account) :
    move crypto dst src keys stores = keys.foldlM (moveKey crypto dst src) (false, stores) := by
  rw [move, require_of hdst, require_of hsrc]
  rfl

theorem foldlM_moveKey :
    ∀ (keys : List Account) {stores : ι → WalletStore},
      (stores dst).validPassword crypto = true →
      (∀ k ∈ movedKeys ((stores src).holds crypto) keys, k ∉ secretSpecials) →
      (∀ k ∈ keys, ∀ prv, (stores src).fetch crypto k = .ok (some prv) → 2 ^ 64 ≤
        (crypto.encrypt prv ((stores dst).walletKey crypto) (stores dst).iv).toNat) →
      ∃ error stores', keys.foldlM (moveKey crypto dst src) (false, stores) =
          .ok (error, stores') ∧
        KeysMoved crypto dst src (movedKeys ((stores src).holds crypto) keys) stores stores' ∧
        (error = false ↔ movedKeys ((stores src).holds crypto) keys = keys) := by
  intro keys
  induction keys with
  | nil =>
    intro stores _ _ _
    exact ⟨false, stores, rfl, .nil, by simp [movedKeys]⟩
  | cons key keys ih =>
    intro stores hdst hkeys hlarge
    by_cases hheld : (stores src).holds crypto key = true
    · rw [movedKeys, if_pos hheld] at hkeys
      obtain ⟨prv, hfetch⟩ := holds_iff.mp hheld
      obtain ⟨stores₁, hrun, hmoved⟩ := moveKey_held hdst (hkeys key (.head _)) hfetch
        (hlarge key (.head _) prv hfetch)
      obtain ⟨error, stores₂, hrun₂, hmoved₂, herror⟩ := @ih stores₁
        (hmoved.target.validPassword.trans hdst)
        (fun k hk => hkeys k (.tail _ (hmoved.holds_eq ▸ hk))) (fun k hk prv' hprv' => by
          rw [hmoved.erased] at hprv'
          split_ifs at hprv'
          · exact absurd (Except.ok.inj hprv') (by simp)
          · rw [hmoved.target.walletKey, hmoved.target.iv]
            exact hlarge k (.tail _ hk) prv' hprv')
      rw [movedKeys, if_pos hheld, ← hmoved.holds_eq]
      refine ⟨error, stores₂, ?_, hmoved.cons hmoved₂ ?_, ?_⟩
      · rw [List.foldlM_cons, hrun]
        exact hrun₂
      · intro hmem
        have hagain := held_of_mem_movedKeys keys hmem
        rw [hmoved.holds_eq] at hagain
        simp at hagain
      · rw [herror, List.cons.injEq]
        exact ⟨fun h => ⟨rfl, h⟩, And.right⟩
    · rw [movedKeys, if_neg hheld, List.foldlM_cons,
        moveKey_missing (fetch_of_not_holds hheld), ok_bind, foldlM_moveKey_failed]
      exact ⟨true, stores, rfl, .nil, by simp⟩

end Steps

/-! ## What is kept -/

/-- No private key is lost, and without an error the destination has every key of the list. -/
structure MoveKeeps {ι : Type} (crypto : Crypto) (dst src : ι) (keys : List Account)
    (stores : ι → WalletStore) (error : Bool) (stores' : ι → WalletStore) : Prop where
  kept : ∀ pub prv,
    (stores dst).fetch crypto pub = .ok (some prv) ∨
      (stores src).fetch crypto pub = .ok (some prv) →
    (stores' dst).fetch crypto pub = .ok (some prv) ∨
      (stores' src).fetch crypto pub = .ok (some prv)
  listed : error = false → ∀ k ∈ keys, ∃ prv, (stores' dst).fetch crypto k = .ok (some prv)

/-- Nothing is moved, or the wallets are different and agree on the keys that both have. -/
def MovesSafely {ι : Type} (crypto : Crypto) (dst src : ι) (keys : List Account)
    (stores : ι → WalletStore) : Prop :=
  movedKeys ((stores src).holds crypto) keys = [] ∨
    dst ≠ src ∧ ∀ k ∈ movedKeys ((stores src).holds crypto) keys, ∀ prv prv',
      (stores dst).fetch crypto k = .ok (some prv) →
      (stores src).fetch crypto k = .ok (some prv') → prv = prv'

section Kept

variable {ι : Type} {crypto : Crypto} {dst src : ι} {keys : List Account}
variable {stores stores' : ι → WalletStore} {error : Bool} {moved : List Account}

theorem moveKeeps_of_nil (h : KeysMoved crypto dst src moved stores stores') (hnone : moved = [])
    (herror : error = false ↔ moved = keys) :
    MoveKeeps crypto dst src keys stores error stores' := by
  subst hnone
  have hsrc : ∀ a, (stores' src).fetch crypto a = (stores src).fetch crypto a := h.erased
  have hdst : ∀ a, (stores' dst).fetch crypto a = (stores dst).fetch crypto a := by
    by_cases hsame : dst = src
    · simp_all
    · exact h.inserted hsame
  refine ⟨fun pub prv hheld => ?_, fun hfalse k hk => ?_⟩
  · simp_all
  · simp_all

theorem moveKeeps_of_ne
    (h : KeysMoved crypto dst src moved stores stores') (hne : dst ≠ src)
    (hheld : ∀ k ∈ moved, ∃ prv, (stores src).fetch crypto k = .ok (some prv))
    (hagree : ∀ k ∈ moved, ∀ prv prv', (stores dst).fetch crypto k = .ok (some prv) →
      (stores src).fetch crypto k = .ok (some prv') → prv = prv')
    (herror : error = false ↔ moved = keys) :
    MoveKeeps crypto dst src keys stores error stores' := by
  refine ⟨fun pub prv hfetch => ?_, fun hfalse k hk => ?_⟩
  · rw [h.erased, h.inserted hne]
    by_cases hmem : pub ∈ moved
    · rw [if_pos hmem, if_pos hmem]
      obtain ⟨prv', hprv'⟩ := hheld pub hmem
      rcases hfetch with hdst | hsrc
      · grind
      · exact .inl hsrc
    · simpa [hmem] using hfetch
  · rw [← herror.mp hfalse] at hk
    rw [h.inserted hne, if_pos hk]
    exact hheld k hk

theorem moveKeeps_iff
    (h : KeysMoved crypto dst src (movedKeys ((stores src).holds crypto) keys) stores stores')
    (herror : error = false ↔ movedKeys ((stores src).holds crypto) keys = keys) :
    MoveKeeps crypto dst src keys stores error stores' ↔
      MovesSafely crypto dst src keys stores := by
  have hheld : ∀ k ∈ movedKeys ((stores src).holds crypto) keys,
      ∃ prv, (stores src).fetch crypto k = .ok (some prv) :=
    fun k hk => holds_iff.mp (held_of_mem_movedKeys keys hk)
  constructor
  · intro hkeeps
    by_cases hnone : movedKeys ((stores src).holds crypto) keys = []
    · exact .inl hnone
    · have hne : dst ≠ src := by
        -- in one wallet the first key that is moved is erased
        rintro rfl
        obtain ⟨k, hk⟩ := List.exists_mem_of_ne_nil _ hnone
        obtain ⟨prv, hprv⟩ := hheld k hk
        have hafter := hkeeps.kept k prv (.inl hprv)
        rw [or_self, h.erased, if_pos hk] at hafter
        exact absurd (Except.ok.inj hafter) (by simp)
      refine .inr ⟨hne, fun k hk prv prv' hdst hsrc => ?_⟩
      have hafter := hkeeps.kept k prv (.inl hdst)
      rw [h.erased, h.inserted hne, if_pos hk, if_pos hk, hsrc] at hafter
      rcases hafter with hafter | hafter
      · exact (Option.some.inj (Except.ok.inj hafter)).symm
      · exact absurd (Except.ok.inj hafter) (by simp)
  · rintro (hnone | ⟨hne, hagree⟩)
    · exact moveKeeps_of_nil h hnone herror
    · exact moveKeeps_of_ne h hne hheld hagree herror

end Kept

/-- Nothing is lost exactly when no key is moved or two wallets agree on the keys that both have. -/
theorem move_keeps_iff {ι : Type} [DecidableEq ι] {crypto : Crypto} {dst src : ι}
    {keys : List Account} {stores : ι → WalletStore}
    (hdst : (stores dst).validPassword crypto = true)
    (hsrc : (stores src).validPassword crypto = true)
    (hkeys : ∀ k ∈ movedKeys ((stores src).holds crypto) keys, k ∉ secretSpecials)
    (hlarge : ∀ k ∈ keys, ∀ prv, (stores src).fetch crypto k = .ok (some prv) → 2 ^ 64 ≤
      (crypto.encrypt prv ((stores dst).walletKey crypto) (stores dst).iv).toNat) :
    ∃ error stores', move crypto dst src keys stores = .ok (error, stores') ∧
      (MoveKeeps crypto dst src keys stores error stores' ↔
        MovesSafely crypto dst src keys stores) := by
  obtain ⟨error, stores', hrun, hmoved, herror⟩ := foldlM_moveKey keys hdst hkeys hlarge
  exact ⟨error, stores', (move_eq hdst hsrc keys).trans hrun, moveKeeps_iff hmoved herror⟩

/-- A new wallet, and one to which the keys of the accounts 9 and 10 have been added. -/
def movingRun : Except Fault (WalletStore × WalletStore) := do
  let w ← create sampleCrypto sampleDraws 99 .empty
  let (_, w₁) ← w.insertAdhoc sampleCrypto 9
  let (_, w₂) ← w₁.insertAdhoc sampleCrypto 10
  pure (w, w₂)

theorem moving_evaluated :
    ∃ x, movingRun = .ok x ∧
      x.1.validPassword sampleCrypto = true ∧ x.2.validPassword sampleCrypto = true ∧
      (x.1.fetch sampleCrypto 9 = .ok none ∧ x.2.fetch sampleCrypto 9 = .ok (some 9) ∧
        2 ^ 64 ≤ (sampleCrypto.encrypt 9 (x.1.walletKey sampleCrypto) x.1.iv).toNat) ∧
      (x.1.fetch sampleCrypto 10 = .ok none ∧ x.2.fetch sampleCrypto 10 = .ok (some 10) ∧
        2 ^ 64 ≤ (sampleCrypto.encrypt 10 (x.1.walletKey sampleCrypto) x.1.iv).toNat) ∧
      ∃ r, RpcHandler.accountMove true sampleCrypto (fun _ => 0) (fun _ => some x.2)
        (ascii "1") (ascii "1") [ascii "9"] = .ok r ∧ r.1 = ["1"] ∧
        ∃ w ∈ r.2 1, w.fetch sampleCrypto 9 = .ok none := by
  decide +kernel

theorem move_keeps_between :
    ∃ x error stores', movingRun = .ok x ∧
      move sampleCrypto true false [9, 10] (fun b => if b then x.1 else x.2) =
        .ok (error, stores') ∧
      MoveKeeps sampleCrypto true false [9, 10] (fun b => if b then x.1 else x.2) error
        stores' := by
  obtain ⟨x, hx, hdst, hsrc, hnine, hten, -⟩ := moving_evaluated
  have hkeys : ∀ k ∈ [(9 : Account), 10], x.1.fetch sampleCrypto k = .ok none ∧
      x.2.fetch sampleCrypto k = .ok (some k) ∧
      2 ^ 64 ≤ (sampleCrypto.encrypt k (x.1.walletKey sampleCrypto) x.1.iv).toNat := by
    simp only [List.forall_mem_cons, List.not_mem_nil, false_imp_iff, implies_true, and_true]
    exact ⟨hnine, hten⟩
  have hlisted : ∀ k ∈ movedKeys (x.2.holds sampleCrypto) [9, 10], k ∈ [(9 : Account), 10] :=
    fun k hk => (movedKeys_initial [9, 10] _).subset hk
  obtain ⟨error, stores', hrun, hkeeps⟩ := @move_keeps_iff Bool _ sampleCrypto true false [9, 10]
    (fun b => if b then x.1 else x.2) hdst hsrc
    (fun k hk => by
      have hmem := hlisted k hk
      simp only [List.mem_cons, List.not_mem_nil, or_false] at hmem
      rcases hmem with rfl | rfl <;> decide)
    (fun k hk prv hprv => by
      cases Except.ok.inj ((hkeys k hk).2.1.symm.trans hprv)
      exact (hkeys k hk).2.2)
  refine ⟨x, error, stores', hx, hrun, hkeeps.mpr (Or.inr ⟨by decide, fun k hk prv _ hdst _ => ?_⟩)⟩
  exact absurd (Except.ok.inj ((hkeys k (hlisted k hk)).1.symm.trans hdst)) (by simp)

/-- Moving an account to the wallet that it is in answers that it has been moved, and loses its
key. -/
theorem move_within_wallet_loses_key :
    ∃ x items', movingRun = .ok x ∧ x.2.validPassword sampleCrypto = true ∧
      x.2.fetch sampleCrypto 9 = .ok (some 9) ∧
      RpcHandler.accountMove true sampleCrypto (fun _ => 0) (fun _ => some x.2) (ascii "1")
        (ascii "1") [ascii "9"] = .ok (["1"], items') ∧
      ∃ w, items' 1 = some w ∧ w.fetch sampleCrypto 9 = .ok none := by
  obtain ⟨x, hx, -, hvalid, hnine, -, ⟨response, items'⟩, hmove, rfl, hlost⟩ := moving_evaluated
  exact ⟨x, items', hx, hvalid, hnine.2.1, hmove, hlost⟩

end Badem
