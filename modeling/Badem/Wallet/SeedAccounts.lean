import Badem.Wallet.Seeds

/-!
# The account of a change of the seed

`change_seed` returns the account that it inserted last, which is the first account of the seed
only when the scan finds none of the indices 1 to 63 used.
-/

namespace Badem

open Mdb WalletStore

/-! ## What the scan counts -/

section Scan

variable {crypto : Crypto} {s : BlockStore} {w : WalletStore} {prv : RawKey}
variable (hvalid : w.validPassword crypto = true) (hseed : w.seed crypto = prv)
include hvalid hseed

theorem scanSeed_pos (fuel : Nat) :
    ∀ {i n count last : Uint32}, 0 < i → 0 < count →
      Wallet.scanSeed crypto s w fuel i n count = .ok last → 0 < last := by
  induction fuel with
  | zero =>
    intro i n count last _ _ h
    exact absurd h (by simp [Wallet.scanSeed])
  | succ fuel ih =>
    intro i n count last hi hcount h
    rw [scanSeed_succ hvalid hseed] at h
    split_ifs at h with hlt hused
    · exact ih (hi.trans (lt_add_one_of_lt hlt)) hi h
    · exact ih (hi.trans (lt_add_one_of_lt hlt)) hcount h
    · exact Except.ok.inj h ▸ hcount

theorem scanSeed_below {i : Nat} (hi : i < 64) (fuel : Nat) :
    Wallet.scanSeed crypto s w (fuel + 1) (.ofNat 32 i) 64 0 =
      if Wallet.accountUsed s (seedAccount crypto prv i) = true then
        Wallet.scanSeed crypto s w fuel (.ofNat 32 (i + 1)) (.ofNat 32 i + 64 + .ofNat 32 i / 64)
          (.ofNat 32 i)
      else
        Wallet.scanSeed crypto s w fuel (.ofNat 32 (i + 1)) 64 0 := by
  have hlt : (BitVec.ofNat 32 i : Uint32) < 64 := by
    rw [BitVec.lt_def, BitVec.toNat_ofNat, show (64 : Uint32).toNat = 64 from rfl]
    omega
  have hnext : (BitVec.ofNat 32 i : Uint32) + 1 = BitVec.ofNat 32 (i + 1) := by
    rw [BitVec.ofNat_add]
    rfl
  rw [scanSeed_succ hvalid hseed, if_pos hlt, hnext, seedAccount]

theorem scanSeed_unused (fuel : Nat) :
    ∀ {i : Nat}, i ≤ 64 → 64 < fuel + i →
      (∀ j, i ≤ j → j < 64 → Wallet.accountUsed s (seedAccount crypto prv j) = false) →
      Wallet.scanSeed crypto s w fuel (.ofNat 32 i) 64 0 = .ok 0 := by
  induction fuel with
  | zero =>
    intro i hi hfuel _
    omega
  | succ fuel ih =>
    intro i hi hfuel hunused
    rcases Nat.lt_or_eq_of_le hi with hlt | rfl
    · grind [scanSeed_below hvalid hseed hlt, hunused i le_rfl hlt]
    · rw [scanSeed_succ hvalid hseed, if_neg (by decide)]

theorem unused_of_scanSeed (fuel : Nat) :
    ∀ {i : Nat}, 0 < i → Wallet.scanSeed crypto s w fuel (.ofNat 32 i) 64 0 = .ok 0 →
      ∀ j, i ≤ j → j < 64 → Wallet.accountUsed s (seedAccount crypto prv j) = false := by
  induction fuel with
  | zero =>
    intro i _ h
    exact absurd h (by simp [Wallet.scanSeed])
  | succ fuel ih =>
    intro i hi h j hij hj
    rw [scanSeed_below hvalid hseed (by omega)] at h
    have hpos : ∀ k : Nat, 0 < k → k ≤ 64 → (0 : Uint32) < .ofNat 32 k := by
      intro k hk hk'
      rw [BitVec.lt_def, BitVec.toNat_ofNat, show (0 : Uint32).toNat = 0 from rfl]
      omega
    split_ifs at h with hused
    · exact absurd (scanSeed_pos hvalid hseed fuel (hpos (i + 1) (by omega) (by omega))
        (hpos i hi (by omega)) h) (lt_irrefl 0)
    · rcases Nat.lt_or_eq_of_le hij with hlt | rfl
      · exact ih (by omega) h j hlt hj
      · exact Bool.eq_false_iff.mpr hused

end Scan

/-! ## Which account is returned -/

section Change

variable {crypto : Crypto} {s : BlockStore} {w : WalletStore} {prv : RawKey}

theorem Seeded.insertSeed_ne (count : Nat) :
    ∀ {w w' : WalletStore} {x a pub : Account}, Seeded crypto prv w → w.keyExists a = true →
      0 < count → Wallet.insertSeed crypto count (x, w) = .ok (pub, w') → pub ≠ a := by
  induction count with
  | zero =>
    intro w w' x a pub _ _ hcount
    exact absurd hcount (lt_irrefl 0)
  | succ count ih =>
    intro w w' x a pub h ha _ hrun
    obtain ⟨⟨next, w₁⟩, hinsert, hrun⟩ := ok_of_bind hrun
    obtain ⟨h₁, hnew, -, hexists⟩ := h.keyExists_insert hinsert
    cases count with
    | zero =>
      cases hrun
      rintro rfl
      exact absurd (ha.symm.trans hnew) (by simp)
    | succ count =>
      refine ih h₁ ?_ (Nat.succ_pos count) hrun
      rw [hexists, ha, Bool.or_true]

theorem Seeded.insert_first (h : Seeded crypto prv w) (hindex : w.deterministicIndexGet = 0)
    {q : Nat} (hfree : w.keyExists (seedAccount crypto prv q) = false)
    (hleast : ∀ i < q, w.keyExists (seedAccount crypto prv i) = true) :
    ∃ w', Wallet.deterministicInsert crypto w = .ok (seedAccount crypto prv q, w') ∧
      Seeded crypto prv w' ∧ w'.keyExists (seedAccount crypto prv q) = true := by
  obtain ⟨⟨pub, w'⟩, hinsert⟩ := h.insert_returns hfree
  obtain ⟨h', -, -, hexists⟩ := h.keyExists_insert hinsert
  obtain ⟨-, q', -, hpub, hnew, hpassed, -⟩ := h.insert (p := 0) hindex hinsert
  obtain rfl : q' = q := by
    rcases Nat.lt_trichotomy q' q with hlt | heq | hgt
    · simp [hpub, hleast q' hlt] at hnew
    · exact heq
    · simp [hpassed q (Nat.zero_le q) hgt] at hfree
  subst hpub
  exact ⟨w', hinsert, h', by rw [hexists]; simp⟩

/-- The first account that the wallet lacks is returned exactly when no index from 1 to 63 is found
used. -/
theorem seed_change_first_iff (hspecials : ∀ k, k < specialCount → (w.table.get k).isSome = true)
    (hvalid : w.validPassword crypto = true) {q : Nat} (hspare : Spare crypto w prv q)
    (hleast : ∀ i < q, ¬ Spare crypto w prv i) :
    (∃ w', Wallet.changeSeed crypto s w prv = .ok (seedAccount crypto prv q, w')) ↔
      ∀ i, 1 ≤ i → i < 64 → Wallet.accountUsed s (seedAccount crypto prv i) = false := by
  obtain ⟨w₀, hset, h₀, hget⟩ := exists_seedSet hspecials hvalid prv
  have hiff := spare_iff hspecials h₀.toSeeded hget
  obtain ⟨w₁, hfirst, h₁, hexists⟩ := h₀.toSeeded.insert_first h₀.index ((hiff q).mp hspare)
    fun i hi => (Bool.not_eq_false _).mp fun hfree => hleast i hi ((hiff i).mpr hfree)
  constructor
  · rintro ⟨w', hchange⟩
    obtain ⟨_, hset', hchange⟩ := ok_of_bind hchange
    cases hset.symm.trans hset'
    obtain ⟨_, hfirst', hchange⟩ := ok_of_bind hchange
    cases hfirst.symm.trans hfirst'
    obtain ⟨count, hscan, hchange⟩ := ok_of_bind hchange
    have hzero : count = 0 := by
      by_contra hne
      have hpos : 0 < count.toNat := Nat.pos_of_ne_zero fun hz =>
        hne (BitVec.eq_of_toNat_eq hz)
      exact h₁.insertSeed_ne _ hexists hpos hchange rfl
    rw [hzero] at hscan
    exact unused_of_scanSeed h₁.valid h₁.seed _ Nat.one_pos hscan
  · intro hunused
    have hscan : Wallet.scanSeed crypto s w₁ (2 ^ 32) 1 64 0 = .ok 0 :=
      scanSeed_unused h₁.valid h₁.seed _ (by omega : 1 ≤ 64) (by omega) hunused
    exact ⟨w₁, bind_eq_of_ok hset (bind_eq_of_ok hfirst (bind_eq_of_ok hscan rfl))⟩

end Change

/-- When only the account with the index 2 has been used, it is the one that is returned. -/
theorem seed_change_returns_last :
    ∃ w w', create seedCrypto sampleDraws 99 .empty = .ok w ∧
      w.validPassword seedCrypto = true ∧ Spare seedCrypto w 77 0 ∧
      Wallet.changeSeed seedCrypto seedStore w 77 = .ok (seedAccount seedCrypto 77 2, w') ∧
      seedAccount seedCrypto 77 2 ≠ seedAccount seedCrypto 77 0 := by
  obtain ⟨w, hcreate, ⟨account, w'⟩, hchange, rfl⟩ :
      ∃ w, create seedCrypto sampleDraws 99 .empty = .ok w ∧
        ∃ x, Wallet.changeSeed seedCrypto seedStore w 77 = .ok x ∧
          x.1 = seedAccount seedCrypto 77 2 := by
    decide +kernel
  exact ⟨w, w', hcreate, (backed_create hcreate).valid, spare_of_create hcreate 77 0, hchange,
    by decide⟩

theorem seed_change_first_new_wallet :
    ∃ w w₁ w', create seedCrypto sampleDraws 99 .empty = .ok w ∧
      w.insertAdhoc seedCrypto 1000 = .ok (seedAccount seedCrypto 77 0, w₁) ∧
      ¬ Spare seedCrypto w₁ 77 0 ∧
      Wallet.changeSeed seedCrypto .empty w₁ 77 = .ok (seedAccount seedCrypto 77 1, w') := by
  obtain ⟨w, hcreate, ⟨pub, w₁⟩, hinsert, rfl, hvalid, hspare, htaken⟩ :
      ∃ w, create seedCrypto sampleDraws 99 .empty = .ok w ∧
        ∃ x, w.insertAdhoc seedCrypto 1000 = .ok x ∧ x.1 = seedAccount seedCrypto 77 0 ∧
          x.2.validPassword seedCrypto = true ∧ Spare seedCrypto x.2 77 1 ∧
          ¬ Spare seedCrypto x.2 77 0 := by
    decide +kernel
  have hspecials : ∀ k, k < specialCount → (w₁.table.get k).isSome = true := by
    obtain ⟨-, -, hinsert⟩ := ok_of_bind hinsert
    cases hinsert
    intro k hk
    rw [show (w.entryPutRaw _ _).table = w.table.put _ _ from rfl, Table.get_put_ne]
    · exact (backed_create hcreate).specials k hk
    · exact ne_of_special hk (by decide)
  obtain ⟨w', hchange⟩ := (@seed_change_first_iff seedCrypto .empty w₁ 77 hspecials hvalid 1 hspare
    (fun i hi => by rw [Nat.lt_one_iff.mp hi]; exact htaken)).mpr fun i _ _ => rfl
  exact ⟨w, w₁, w', hcreate, hinsert, htaken, hchange⟩

end Badem
