import Badem.Core.NumberText
import Mathlib.Tactic.IntervalCases

/-!
# Account addresses

An address is `bdm_` followed by sixty digits of base 32.  The decoder reads more than addresses:
`account_decode` returns 78 for a character outside of the alphabet, and the loop compares this
with `'~'`, which is 126.
-/

namespace Badem

open Codec

/-! ## The alphabet -/

def accountSymbol (d : Nat) : Uint8 := accountEncode (BitVec.ofNat 5 d)

def Readable (c : Uint8) : Prop := 0x30 ≤ c ∧ c ≤ 0x7e

variable {c : Uint8} {ds : List Nat} {cs source : Text} {check : Account → BitVec 40}

theorem Readable.inRange (hc : Readable c) : ¬ (c < 0x30 ∨ 0x80 ≤ c) := by
  rw [Readable] at hc
  bv_omega

theorem accountDecode_symbol {d : Nat} (hd : d < 32) :
    accountDecode (accountSymbol d) = .ok (BitVec.ofNat 8 d) := by
  have hall : ∀ d : Fin 32, accountDecode (accountSymbol d) = .ok (BitVec.ofNat 8 d) := by
    decide +kernel
  exact hall ⟨d, hd⟩

theorem readable_symbol (d : Nat) : Readable (accountSymbol d) := by
  have hall : ∀ v : BitVec 5, 0x30 ≤ accountEncode v ∧ accountEncode v ≤ 0x7e := by
    decide
  exact hall _

theorem accountSymbol_mem (d : Nat) : accountSymbol d ∈ accountLookup := by
  have hall : ∀ v : BitVec 5, accountEncode v ∈ accountLookup := by
    decide
  exact hall _

theorem length_accountLookup : accountLookup.length = 32 := by decide

theorem accountSymbol_eq_get (i : Fin accountLookup.length) :
    accountSymbol i = accountLookup.get i := by
  have hi : i.val < 32 := length_accountLookup ▸ i.isLt
  have hvalue : (BitVec.ofNat 5 i.val).toNat = i.val := by
    rw [BitVec.toNat_ofNat]
    exact Nat.mod_eq_of_lt hi
  rw [accountSymbol, accountEncode, hvalue]
  simp

theorem exists_of_mem_accountLookup (hc : c ∈ accountLookup) : ∃ d < 32, accountSymbol d = c := by
  obtain ⟨i, hi⟩ := List.mem_iff_get.mp hc
  exact ⟨i, length_accountLookup ▸ i.isLt, (accountSymbol_eq_get i).trans hi⟩

theorem accountSymbol_increasing : Increasing 32 accountSymbol := by
  have hsorted : accountLookup.Pairwise (· < ·) := by decide
  intro d e hde he
  rw [accountSymbol_eq_get ⟨d, by rw [length_accountLookup]; omega⟩,
    accountSymbol_eq_get ⟨e, by rw [length_accountLookup]; omega⟩]
  exact List.pairwise_iff_get.mp hsorted _ _ hde

theorem accountSymbol_injOn : Set.InjOn accountSymbol {d | d < 32} := by
  intro d hd e he heq
  rcases Nat.lt_trichotomy d e with hlt | rfl | hlt
  · exact absurd (accountSymbol_increasing d e hlt he) (by simp [heq])
  · rfl
  · exact absurd (accountSymbol_increasing e d hlt hd) (by simp [heq])

theorem accountDecode_readable (hc : Readable c) :
    ∃ byte, accountDecode c = .ok byte ∧ byte ≠ 0x7e := by
  have hall : ∀ c : Uint8, 0x30 ≤ c ∧ c ≤ 0x7e →
      accountReverse.getD (c - 0x30).toNat 0 - 0x30 ≠ 0x7e := by
    decide +kernel
  refine ⟨_, ?_, hall c hc⟩
  rw [accountDecode, require_of hc.1, require_of hc.2]
  rfl

/-! ## The digits of an address -/

theorem encodeDigits_eq (w : Nat) (number : Uint512) :
    encodeDigits w number = (lowDigits 32 w number.toNat).map accountSymbol := by
  induction w generalizing number with
  | zero => rfl
  | succ w ih =>
    have hdigit : accountEncode (number.setWidth 5) = accountSymbol (number.toNat % 32) := by
      rw [accountSymbol]
      congr 1
      apply BitVec.eq_of_toNat_eq
      simp
    have hrest : (number >>> 5).toNat = number.toNat / 32 := by
      rw [BitVec.toNat_ushiftRight, Nat.shiftRight_eq_div_pow]
    rw [encodeDigits, lowDigits, List.map_cons, hdigit, ih, hrest]

section Check

variable (check : Account → BitVec 40)

def addressNumber (account : Account) : Nat := account.toNat * 2 ^ 40 + (check account).toNat

theorem addressNumber_lt (account : Account) : addressNumber check account < 2 ^ 296 := by
  have ha := account.isLt
  have hc := (check account).isLt
  rw [addressNumber]
  omega

theorem toNat_checkedNumber (account : Account) :
    (checkedNumber check account).toNat = addressNumber check account := by
  have ha := account.isLt
  have hc := (check account).isLt
  have hlow : (check account).toNat < 2 ^ 512 := by omega
  have hwide : account.toNat < 2 ^ 512 := by omega
  have hhigh : account.toNat * 2 ^ 40 < 2 ^ 512 := by omega
  rw [checkedNumber, BitVec.toNat_or, BitVec.toNat_shiftLeft, BitVec.toNat_setWidth,
    BitVec.toNat_setWidth, Nat.mod_eq_of_lt hlow, Nat.mod_eq_of_lt hwide, Nat.shiftLeft_eq,
    Nat.mod_eq_of_lt hhigh, Nat.mul_comm, ← Nat.two_pow_add_eq_or_of_lt hc, addressNumber,
    Nat.mul_comm]

def addressBody (account : Account) : Text :=
  (lowDigits 32 60 (addressNumber check account)).reverse.map accountSymbol

theorem toAccount_eq (account : Account) :
    toAccount check account = ascii "bdm_" ++ addressBody check account := by
  rw [toAccount, encodeDigits_eq, toNat_checkedNumber, List.reverse_append, addressBody,
    List.map_reverse]
  rfl

theorem length_addressBody (account : Account) : (addressBody check account).length = 60 := by
  simp [addressBody]

theorem eq_address_iff (source : Text) (account : Account) :
    source = toAccount check account ∨ source = (toAccount check account).set 3 0x2d ↔
      startsBdm source = true ∧ source.drop 4 = addressBody check account := by
  rw [toAccount_eq, startsBdm, decide_eq_true_iff]
  have hset : (ascii "bdm_" ++ addressBody check account).set 3 0x2d =
      ascii "bdm-" ++ addressBody check account := rfl
  rw [hset]
  constructor
  · rintro (rfl | rfl)
    · exact ⟨.inl rfl, rfl⟩
    · exact ⟨.inr rfl, rfl⟩
  · rintro ⟨hstart, hbody⟩
    rw [← hbody]
    rcases hstart with h | h
    · exact .inl (by rw [← h, List.take_append_drop])
    · exact .inr (by rw [← h, List.take_append_drop])

theorem map_symbol_eq_addressBody_iff (hlen : ds.length = 60) (hds : ∀ d ∈ ds, d < 32)
    (account : Account) :
    ds.map accountSymbol = addressBody check account ↔
      horner 32 0 ds = addressNumber check account := by
  have hlt : addressNumber check account < 32 ^ 60 :=
    lt_of_lt_of_le (addressNumber_lt check account) (by decide)
  rw [addressBody, horner_zero]
  constructor
  · intro h
    have hlow : ∀ d ∈ (lowDigits 32 60 (addressNumber check account)).reverse, d < 32 :=
      fun d hd => lt_of_mem_lowDigits (by omega) (List.mem_reverse.mp hd)
    have heq : ds = (lowDigits 32 60 (addressNumber check account)).reverse :=
      eq_of_map_eq_map accountSymbol_injOn hds hlow h
    rw [heq, List.reverse_reverse, ofDigits_lowDigits, Nat.mod_eq_of_lt hlt]
  · intro h
    have hrev : ∀ d ∈ ds.reverse, d < 32 := fun d hd => hds d (List.mem_reverse.mp hd)
    have hinv := lowDigits_ofDigits hrev
    rw [List.length_reverse, hlen, h] at hinv
    rw [hinv, List.reverse_reverse]

theorem accountOfNumber_eq_some_iff {v : Nat} (hv : v < 2 ^ 296) (account : Account) :
    accountOfNumber check (BitVec.ofNat 512 v) = some account ↔
      v = addressNumber check account := by
  have hwide : v < 2 ^ 512 := by omega
  have hhigh : ((BitVec.ofNat 512 v >>> 40).setWidth 256).toNat = v / 2 ^ 40 := by
    rw [BitVec.toNat_setWidth, BitVec.toNat_ushiftRight, BitVec.toNat_ofNat,
      Nat.shiftRight_eq_div_pow, Nat.mod_eq_of_lt hwide]
    exact Nat.mod_eq_of_lt (by omega)
  have hlow : ((BitVec.ofNat 512 v).setWidth 40).toNat = v % 2 ^ 40 := by
    rw [BitVec.toNat_setWidth, BitVec.toNat_ofNat, Nat.mod_eq_of_lt hwide]
  have hc := (check account).isLt
  rw [accountOfNumber, addressNumber]
  constructor
  · intro h
    split_ifs at h with hcheck
    obtain rfl := Option.some.inj h
    rw [← hcheck, hhigh, hlow]
    omega
  · intro h
    have haccount : (BitVec.ofNat 512 v >>> 40).setWidth 256 = account := by
      apply BitVec.eq_of_toNat_eq
      rw [hhigh]
      omega
    have hcheck : (BitVec.ofNat 512 v).setWidth 40 = check account := by
      apply BitVec.eq_of_toNat_eq
      rw [hlow]
      omega
    rw [haccount, hcheck, if_pos rfl]

end Check

/-! ## The loop of the decoder -/

theorem decodeDigits_symbols_append (hds : ∀ d ∈ ds, d < 32) (rest : Text) (n : Nat) :
    decodeDigits (ds.map accountSymbol ++ rest) (BitVec.ofNat 512 n) =
      decodeDigits rest (BitVec.ofNat 512 (horner 32 n ds)) := by
  induction ds generalizing n with
  | nil => rfl
  | cons d ds ih =>
    have hd : d < 32 := hds d (.head _)
    have hbyte : BitVec.ofNat 8 d ≠ 0x7e := by bv_omega
    have hnext : BitVec.ofNat 512 n <<< 5 + (BitVec.ofNat 8 d).setWidth 512 =
        BitVec.ofNat 512 (32 * n + d) := by
      apply BitVec.eq_of_toNat_eq
      have hwidth : d % 2 ^ 8 % 2 ^ 512 = d := by omega
      rw [BitVec.toNat_add, BitVec.toNat_shiftLeft, BitVec.toNat_setWidth, BitVec.toNat_ofNat,
        BitVec.toNat_ofNat, BitVec.toNat_ofNat, hwidth, Nat.shiftLeft_eq, Nat.mod_add_mod]
      omega
    rw [List.map_cons, List.cons_append, decodeDigits, if_neg (readable_symbol d).inRange,
      accountDecode_symbol hd, ok_bind, if_neg hbyte, hnext,
      ih (fun x hx => hds x (.tail _ hx)), horner]

theorem decodeDigits_symbols (hds : ∀ d ∈ ds, d < 32) (n : Nat) :
    decodeDigits (ds.map accountSymbol) (BitVec.ofNat 512 n) =
      .ok (some (BitVec.ofNat 512 (horner 32 n ds))) := by
  have h := decodeDigits_symbols_append hds [] n
  rwa [List.append_nil] at h

theorem decodeDigits_readable (hcs : ∀ c ∈ cs, Readable c) (number : Uint512) :
    ∃ result, decodeDigits cs number = .ok (some result) := by
  induction cs generalizing number with
  | nil => exact ⟨number, rfl⟩
  | cons c cs ih =>
    have hc : Readable c := hcs c (.head _)
    obtain ⟨byte, hbyte, hne⟩ := accountDecode_readable hc
    rw [decodeDigits, if_neg hc.inRange, hbyte, ok_bind, if_neg hne]
    exact ih (fun x hx => hcs x (.tail _ hx)) _

theorem decodeDigits_append (hcs : ∀ c ∈ cs, Readable c) {rest : Text}
    {outcome : Except Fault (Option Uint512)} (hrest : ∀ number, decodeDigits rest number = outcome)
    (number : Uint512) : decodeDigits (cs ++ rest) number = outcome := by
  induction cs generalizing number with
  | nil => exact hrest number
  | cons c cs ih =>
    have hc : Readable c := hcs c (.head _)
    obtain ⟨byte, hbyte, hne⟩ := accountDecode_readable hc
    rw [List.cons_append, decodeDigits, if_neg hc.inRange, hbyte, ok_bind, if_neg hne]
    exact ih (fun x hx => hcs x (.tail _ hx)) _

theorem decodeDigits_out_of_range (hc : c < 0x30 ∨ 0x80 ≤ c) (rest : Text)
    (number : Uint512) : decodeDigits (c :: rest) number = .ok none := by
  rw [decodeDigits, if_pos hc]

theorem decodeDigits_delete (rest : Text) (number : Uint512) :
    decodeDigits (0x7f :: rest) number = .error .assertion := by
  rfl

theorem not_readable_iff (c : Uint8) : ¬ Readable c ↔ (c < 0x30 ∨ 0x80 ≤ c) ∨ c = 0x7f := by
  rw [Readable]
  constructor <;> intro h <;> bv_omega

theorem readable_or_split (cs : Text) :
    (∀ c ∈ cs, Readable c) ∨
      ∃ pre c post, cs = pre ++ c :: post ∧ (∀ x ∈ pre, Readable x) ∧ ¬ Readable c := by
  induction cs with
  | nil => simp
  | cons c cs ih =>
    by_cases hc : Readable c
    · rcases ih with hall | ⟨pre, d, post, rfl, hpre, hd⟩
      · exact .inl (List.forall_mem_cons.mpr ⟨hc, hall⟩)
      · exact .inr ⟨c :: pre, d, post, rfl, List.forall_mem_cons.mpr ⟨hc, hpre⟩, hd⟩
    · exact .inr ⟨[], c, cs, rfl, by simp, hc⟩

/-! ## Texts that reach the loop -/

/-- A text with the start and the length of an address, and a digit below two in front. -/
structure Framed (source : Text) : Prop where
  start : startsBdm source = true
  length : source.length = 64
  first : (source.drop 4).head? = some 0x31 ∨ (source.drop 4).head? = some 0x33

theorem decodeAccount_framed (check : Account → BitVec 40) (h : Framed source) :
    decodeAccount check source =
      (do
        let number ← decodeDigits (source.drop 4) 0
        pure (number.bind (accountOfNumber check))) := by
  have hlen := h.length
  rw [decodeAccount, if_neg (by omega), if_neg (by simp [hlen]), if_pos h.start]
  exact if_pos h.first

theorem decodeAccount_not_framed (check : Account → BitVec 40) (h : ¬ Framed source) :
    decodeAccount check source = .ok none := by
  rw [decodeAccount]
  by_cases hshort : source.length < 5
  · rw [if_pos hshort]
  by_cases hstart : startsBdm source = true
  · by_cases hlen : source.length = 64
    · rw [if_neg hshort, if_neg (by simp [hlen]), if_pos hstart]
      exact if_neg (fun hfirst => h ⟨hstart, hlen, hfirst⟩)
    · rw [if_neg hshort, if_pos ⟨hstart, hlen⟩]
  · rw [if_neg hshort, if_neg (fun hand => hstart hand.1), if_neg hstart]

section Check

variable (check : Account → BitVec 40) {source : Text} {ds : List Nat} {account : Account}

theorem horner_lt_of_framed (hframed : Framed source) (hds : ∀ d ∈ ds, d < 32)
    (hbody : source.drop 4 = ds.map accountSymbol) : ds.length = 60 ∧ horner 32 0 ds < 2 ^ 296 := by
  have hlen : ds.length = 60 := by
    have h := congrArg List.length hbody
    rw [List.length_drop, List.length_map, hframed.length] at h
    exact h.symm
  refine ⟨hlen, ?_⟩
  cases ds with
  | nil => simp at hlen
  | cons d ds =>
    have hd : d < 2 := by
      have hfirst := hframed.first
      have hlt := hds d (.head _)
      rw [hbody] at hfirst
      rcases hfirst with hone | hthree
      · have h0 : d = 0 :=
          accountSymbol_injOn hlt (by simp : (0 : Nat) < 32) (Option.some.inj hone)
        omega
      · have h1 : d = 1 :=
          accountSymbol_injOn hlt (by simp : (1 : Nat) < 32) (Option.some.inj hthree)
        omega
    have hrest := ofDigits_reverse_lt (by omega : 1 < 32)
      (fun x hx => hds x (.tail _ hx))
    have hcount : ds.length = 59 := by simpa using hlen
    rw [horner, horner_eq, hcount]
    rw [hcount] at hrest
    omega

theorem framed_of_address (hstart : startsBdm source = true)
    (hbody : source.drop 4 = addressBody check account) : Framed source := by
  have hlen : source.length = 64 := by
    have h := congrArg List.length hbody
    rw [List.length_drop, length_addressBody] at h
    omega
  refine ⟨hstart, hlen, ?_⟩
  have hlt := addressNumber_lt check account
  have hfirst : (addressBody check account).head? =
      some (accountSymbol (addressNumber check account / 32 ^ 59 % 32)) := by
    rw [addressBody, lowDigits_succ]
    simp
  have hdigit : addressNumber check account / 32 ^ 59 % 32 < 2 := by omega
  rw [hbody, hfirst]
  interval_cases addressNumber check account / 32 ^ 59 % 32
  · exact .inl rfl
  · exact .inr rfl

theorem decodeAccount_symbols (hframed : Framed source) (hds : ∀ d ∈ ds, d < 32)
    (hbody : source.drop 4 = ds.map accountSymbol) :
    ∃ result, decodeAccount check source = .ok result ∧
      ∀ account, result = some account ↔ source.drop 4 = addressBody check account := by
  obtain ⟨hlen, hlt⟩ := horner_lt_of_framed hframed hds hbody
  refine ⟨accountOfNumber check (BitVec.ofNat 512 (horner 32 0 ds)), ?_, fun account => ?_⟩
  · rw [decodeAccount_framed check hframed, hbody]
    exact bind_eq_of_ok (decodeDigits_symbols hds 0) rfl
  · rw [accountOfNumber_eq_some_iff check hlt, hbody,
      map_symbol_eq_addressBody_iff check hlen hds]

theorem exists_digits (hcs : ∀ c ∈ cs, c ∈ accountLookup) :
    ∃ ds : List Nat, (∀ d ∈ ds, d < 32) ∧ cs = ds.map accountSymbol := by
  induction cs with
  | nil => exact ⟨[], by simp, rfl⟩
  | cons c cs ih =>
    obtain ⟨hc, hrest⟩ := List.forall_mem_cons.mp hcs
    obtain ⟨d, hd, rfl⟩ := exists_of_mem_accountLookup hc
    obtain ⟨ds, hds, rfl⟩ := ih hrest
    exact ⟨d :: ds, List.forall_mem_cons.mpr ⟨hd, hds⟩, rfl⟩

theorem addressBody_symbols (account : Account) :
    ∃ ds : List Nat, (∀ d ∈ ds, d < 32) ∧ addressBody check account = ds.map accountSymbol :=
  ⟨_, fun _ hd => lt_of_mem_lowDigits (by omega) (List.mem_reverse.mp hd), rfl⟩

theorem decodeAccount_address (hstart : startsBdm source = true)
    (hbody : source.drop 4 = addressBody check account) :
    decodeAccount check source = .ok (some account) := by
  obtain ⟨ds, hds, hsymbols⟩ := addressBody_symbols check account
  obtain ⟨result, hresult, hiff⟩ := decodeAccount_symbols check
    (framed_of_address check hstart hbody) hds (hbody.trans hsymbols)
  rw [hresult, (hiff account).mpr hbody]

theorem startsBdm_toAccount (account : Account) : startsBdm (toAccount check account) = true := by
  rw [toAccount_eq]
  rfl

theorem drop_toAccount (account : Account) :
    (toAccount check account).drop 4 = addressBody check account := by
  rw [toAccount_eq]
  rfl

theorem toAccount_lt_toAccount {a b : Account} (hab : a < b) :
    toAccount check a < toAccount check b := by
  have hdigit : ∀ n, ∀ d ∈ (lowDigits 32 60 n).reverse, d < 32 :=
    fun n d hd => lt_of_mem_lowDigits (by omega) (List.mem_reverse.mp hd)
  have hvalue : ∀ c : Account, Nat.ofDigits 32 (lowDigits 32 60 (addressNumber check c)) =
      addressNumber check c := by
    intro c
    have hlt := addressNumber_lt check c
    rw [ofDigits_lowDigits]
    exact Nat.mod_eq_of_lt (by omega)
  have hnumber : addressNumber check a < addressNumber check b := by
    have hlt : a.toNat < b.toNat := hab
    have hcheck := (check a).isLt
    rw [addressNumber, addressNumber]
    omega
  have hbody : addressBody check a < addressBody check b := by
    refine map_lt_map_of_ofDigits_lt (by omega) accountSymbol_increasing (by simp) (hdigit _)
      (hdigit _) ?_
    rw [List.reverse_reverse, List.reverse_reverse, hvalue, hvalue]
    exact hnumber
  rw [toAccount_eq, toAccount_eq]
  exact .cons (.cons (.cons (.cons hbody)))

end Check

/-- Addresses decode to their accounts and are ordered like them. -/
theorem account_text_identity_order (check : Account → BitVec 40) :
    (∀ a, decodeAccount check (toAccount check a) = .ok (some a)) ∧
      ∀ a b, toAccount check a < toAccount check b ↔ a < b := by
  refine ⟨fun a => ?_, fun a b => ⟨fun h => ?_, toAccount_lt_toAccount check⟩⟩
  · exact decodeAccount_address check (startsBdm_toAccount check a) (drop_toAccount check a)
  · by_contra hle
    rcases lt_or_eq_of_le (not_lt.mp hle) with hlt | rfl
    · exact lt_asymm h (toAccount_lt_toAccount check hlt)
    · exact lt_irrefl _ h

/-! ## Texts that are not addresses -/

/-- `decode_account` fails no assertion and accepts the text for exactly those accounts
whose address it is, written with either separator. -/
def Canonical (check : Account → BitVec 40) (source : Text) : Prop :=
  ∃ result, decodeAccount check source = .ok result ∧
    ∀ account, result = some account ↔
      source = toAccount check account ∨ source = (toAccount check account).set 3 0x2d

/-- A framed text in which the loop reaches the byte `0x7f`, or which it reads to the end
though some character is not in the alphabet. -/
def Misread (source : Text) : Prop :=
  Framed source ∧
    ((∃ pre post, source.drop 4 = pre ++ 0x7f :: post ∧ ∀ c ∈ pre, Readable c) ∨
      ((∀ c ∈ source.drop 4, Readable c) ∧ ∃ c ∈ source.drop 4, c ∉ accountLookup))

theorem mem_accountLookup_of_address {account : Account}
    (hbody : source.drop 4 = addressBody check account) :
    ∀ c ∈ source.drop 4, c ∈ accountLookup := by
  intro c hc
  rw [hbody, addressBody] at hc
  obtain ⟨d, -, rfl⟩ := List.mem_map.mp hc
  exact accountSymbol_mem d

theorem readable_of_mem_accountLookup (hc : c ∈ accountLookup) : Readable c := by
  obtain ⟨d, -, rfl⟩ := exists_of_mem_accountLookup hc
  exact readable_symbol d

theorem canonical_of_refused (h : decodeAccount check source = .ok none)
    (hno : ∀ account, ¬ (startsBdm source = true ∧ source.drop 4 = addressBody check account)) :
    Canonical check source := by
  refine ⟨none, h, fun account => ?_⟩
  rw [eq_address_iff]
  constructor
  · intro heq
    exact absurd heq (by simp)
  · intro haddress
    exact absurd haddress (hno account)

theorem canonical_of_not_misread (check : Account → BitVec 40) (h : ¬ Misread source) :
    Canonical check source := by
  by_cases hframed : Framed source
  · rcases readable_or_split (source.drop 4) with hall | ⟨pre, c, post, hsplit, hpre, hc⟩
    · -- a text that is read to its end has no character outside of the alphabet
      have hlookup : ∀ c ∈ source.drop 4, c ∈ accountLookup := by
        intro c hc
        by_contra hstray
        exact h ⟨hframed, .inr ⟨hall, c, hc, hstray⟩⟩
      obtain ⟨ds, hds, hbody⟩ := exists_digits hlookup
      obtain ⟨result, hresult, hiff⟩ := decodeAccount_symbols check hframed hds hbody
      refine ⟨result, hresult, fun account => ?_⟩
      rw [hiff, eq_address_iff]
      exact ⟨fun hb => ⟨hframed.start, hb⟩, And.right⟩
    · rcases (not_readable_iff c).mp hc with hrange | rfl
      · have hnone := decodeDigits_append hpre (decodeDigits_out_of_range hrange post) 0
        refine canonical_of_refused ?_ ?_
        · rw [decodeAccount_framed check hframed, hsplit]
          exact bind_eq_of_ok hnone rfl
        · rintro account ⟨-, hbody⟩
          have hmem : c ∈ source.drop 4 := by simp [hsplit]
          exact hc (readable_of_mem_accountLookup (mem_accountLookup_of_address hbody c hmem))
      · exact absurd ⟨hframed, .inl ⟨pre, post, hsplit, hpre⟩⟩ h
  · refine canonical_of_refused (decodeAccount_not_framed check hframed) ?_
    rintro account ⟨hstart, hbody⟩
    exact hframed (framed_of_address check hstart hbody)

theorem exists_not_canonical_of_misread (h : Misread source) :
    ∃ check, ¬ Canonical check source := by
  obtain ⟨hframed, ⟨pre, post, hsplit, hpre⟩ | ⟨hall, c, hc, hstray⟩⟩ := h
  · refine ⟨fun _ => 0, ?_⟩
    rintro ⟨result, hresult, -⟩
    have hfault := decodeDigits_append hpre (decodeDigits_delete post) 0
    rw [decodeAccount_framed _ hframed, hsplit, hfault] at hresult
    exact absurd hresult (by simp [Bind.bind, Except.bind])
  · -- the checksum that the text ends in makes the decoder accept it
    obtain ⟨number, hnumber⟩ := decodeDigits_readable hall 0
    refine ⟨fun _ => number.setWidth 40, ?_⟩
    rintro ⟨result, hresult, hiff⟩
    rw [decodeAccount_framed _ hframed, hnumber, ok_bind] at hresult
    have haccept := (hiff ((number >>> 40).setWidth 256)).mp (by
      rw [← Except.ok.inj hresult]
      exact if_pos rfl)
    obtain ⟨-, hbody⟩ := (eq_address_iff _ _ _).mp haccept
    exact hstray (mem_accountLookup_of_address hbody c hc)

/-- For which texts `decode_account` accepts nothing but addresses, whatever the checksum
function is. -/
theorem account_text_canonical_iff (source : Text) :
    (∀ check, Canonical check source) ↔ ¬ Misread source := by
  constructor
  · intro h hmisread
    obtain ⟨check, hcheck⟩ := exists_not_canonical_of_misread hmisread
    exact hcheck (h check)
  · intro h check
    exact canonical_of_not_misread check h

theorem decodeDigits_stray (rest : Text) :
    decodeDigits (0x32 :: rest) 0 = decodeDigits rest (BitVec.ofNat 512 78) := by
  have hdecode : accountDecode 0x32 = .ok 78 := by decide
  have hnumber : (0 : Uint512) <<< 5 + (78 : Uint8).setWidth 512 = BitVec.ofNat 512 78 := by
    decide +kernel
  rw [decodeDigits, if_neg (by decide), hdecode, ok_bind, if_neg (by decide), hnumber]

def checkDigits (c : BitVec 40) : List Nat := (lowDigits 32 8 c.toNat).reverse

def strayAddress (check : Account → BitVec 40) : Text :=
  ascii "bdm_" ++ ((List.replicate 51 0).map accountSymbol ++
    (0x32 :: (checkDigits (check 78)).map accountSymbol))

/-- A text outside of the alphabet is accepted for the account 78, and the byte `0x7f` fails an
assertion. -/
theorem stray_address_accepted :
    (∀ check, decodeAccount check (strayAddress check) = .ok (some 78) ∧
      ¬ Canonical check (strayAddress check)) ∧
      ∀ check, decodeAccount check (ascii "bdm_1" ++ List.replicate 59 0x7f) =
        .error .assertion := by
  refine ⟨fun check => ?_, fun check => rfl⟩
  have hdrop : (strayAddress check).drop 4 = (List.replicate 51 0).map accountSymbol ++
      (0x32 :: (checkDigits (check 78)).map accountSymbol) := rfl
  have hframed : Framed (strayAddress check) :=
    ⟨rfl, by simp [strayAddress, ascii, checkDigits], Or.inl rfl⟩
  have hcheck : ∀ d ∈ checkDigits (check 78), d < 32 :=
    fun d hd => lt_of_mem_lowDigits (by omega) (List.mem_reverse.mp hd)
  have hnumber : horner 32 78 (checkDigits (check 78)) = addressNumber check 78 := by
    have hc := (check 78).isLt
    rw [horner_eq, checkDigits, List.reverse_reverse, List.length_reverse, length_lowDigits,
      ofDigits_lowDigits, Nat.mod_eq_of_lt (by omega), addressNumber]
    rfl
  have hdigits : decodeDigits ((strayAddress check).drop 4) 0 =
      .ok (some (BitVec.ofNat 512 (addressNumber check 78))) := by
    have hzero : ∀ d ∈ List.replicate 51 0, d < 32 := by decide
    have hskip : horner 32 0 (List.replicate 51 0) = 0 := by decide
    rw [hdrop, ← hnumber, ← decodeDigits_symbols hcheck 78, ← decodeDigits_stray]
    exact (decodeDigits_symbols_append hzero _ 0).trans (by rw [hskip]; rfl)
  have haccept : decodeAccount check (strayAddress check) = .ok (some 78) := by
    rw [decodeAccount_framed check hframed]
    refine bind_eq_of_ok hdigits ?_
    exact congrArg Except.ok
      ((accountOfNumber_eq_some_iff check (addressNumber_lt check 78) 78).mpr rfl)
  refine ⟨haccept, ?_⟩
  rintro ⟨result, hresult, hiff⟩
  have haddress := (hiff 78).mp (Except.ok.inj (hresult.symm.trans haccept))
  obtain ⟨-, hbody⟩ := (eq_address_iff _ _ _).mp haddress
  exact absurd (mem_accountLookup_of_address hbody 0x32 (by simp [hdrop])) (by decide)

end Badem
