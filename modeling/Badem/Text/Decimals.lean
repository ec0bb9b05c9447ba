import Badem.Core.AmountText
import Badem.Core.RpcHandler

/-!
# Decimal amounts

What becomes of a decimal amount: through `decode_dec` of the two widths, the C interface and
the conversions of units of the RPC.
-/

namespace Badem

open Codec

/-! ## Reading -/

/-- A text of decimal digits, without a superfluous zero in front, and its value. -/
structure DecimalText (text : Text) (n : Nat) : Prop where
  value : parseDigits 10 0 text = some n
  ne_nil : text ≠ []
  no_zero : text.length > 1 → text.head? ≠ some 0x30

variable {c : Uint8} {text : Text} {m n : Nat} {x : Uint128}

theorem eq_digitText {d : Nat} (h : digitValue c = some d) (hd : d < 10) : c = digitText d := by
  rw [digitText, if_pos hd]
  rw [digitValue] at h
  split_ifs at h with h₁ h₂ h₃ <;> simp only [Option.some.injEq] at h <;> bv_omega

theorem exists_digits_of_parseDigits (h : parseDigits 10 m text = some n) :
    ∃ ds : List Nat, text = ds.map digitText ∧ (∀ d ∈ ds, d < 10) ∧ n = horner 10 m ds := by
  induction text generalizing m with
  | nil => exact ⟨[], rfl, nofun, (Option.some.inj h).symm⟩
  | cons c cs ih =>
    rw [parseDigits] at h
    split at h
    · next d hc =>
        split_ifs at h with hd
        obtain ⟨ds, rfl, hds, rfl⟩ := ih h
        exact ⟨d :: ds, by rw [eq_digitText hc hd, List.map_cons],
          List.forall_mem_cons.mpr ⟨hd, hds⟩, rfl⟩
    · cases h

theorem DecimalText.eq (h : DecimalText text n) : text = formatNumber 10 0 n := by
  obtain ⟨ds, rfl, hds, rfl⟩ := exists_digits_of_parseDigits h.value
  cases ds with
  | nil => exact absurd rfl h.ne_nil
  | cons d ds =>
    have hzero : d = 0 → ds = [] := by
      rintro rfl
      by_contra hne
      exact h.no_zero (by simpa [List.length_pos_iff] using hne) rfl
    rw [formatNumber_zero, numeral_horner (by omega) hds hzero]

theorem decimalText_formatNumber (n : Nat) : DecimalText (formatNumber 10 0 n) n := by
  obtain ⟨d, es, hcons, hds, -⟩ := decimal_cons n
  have hvalue : horner 10 0 (d :: es) = n := hcons ▸ horner_numeral 10 n
  rw [formatNumber_zero, hcons]
  refine ⟨?_, by simp, ?_⟩
  · rw [parseDigits_map (by omega) hds, hvalue]
  · intro hlong
    have hn : n ≠ 0 := by
      rintro rfl
      have hes : es = [] := (List.cons.inj hcons).2.symm
      simp [hes] at hlong
    rw [List.map_cons, List.head?_cons]
    exact fun h => digitText_head_ne_zero hn hcons (Option.some.inj h)

theorem formatNumber_injective (h : formatNumber 10 0 m = formatNumber 10 0 n) : m = n := by
  have hm := (decimalText_formatNumber m).value
  rw [h, (decimalText_formatNumber n).value] at hm
  exact (Option.some.inj hm).symm

def DecodesExactly {w : Nat} (decodeDec : Text → Option (BitVec w)) (text : Text) (n : Nat) :
    Prop :=
  decodeDec text = if n < 2 ^ w then some (BitVec.ofNat w n) else none

/-- The decimal texts are read exactly in 128 bits.  In 256 bits those from `2 ^ 256` up to 78
digits are read modulo `2 ^ 256`. -/
theorem decode_dec_exact_iff {text : Text} {n : Nat} (h : DecimalText text n) :
    (DecodesExactly Uint128.decodeDec text n ∧ DecodesExactly Uint256.decodeDec text n) ↔
      ¬ (2 ^ 256 ≤ n ∧ n < 10 ^ 78) := by
  have hlimit : (2 : Nat) ^ 256 < 10 ^ 78 := by norm_num
  rw [h.eq, DecodesExactly, DecodesExactly, Uint256.decodeDec_formatNumber]
  constructor
  · rintro ⟨-, h256⟩ ⟨hlow, hhigh⟩
    rw [if_pos hhigh, if_neg (by omega)] at h256
    cases h256
  · intro hrange
    refine ⟨Uint128.decodeDec_formatNumber n, ?_⟩
    by_cases hn : n < 2 ^ 256
    · rw [if_pos hn, if_pos (by omega)]
    · rw [if_neg hn, if_neg (by omega)]

theorem decode_dec_exact_of_ten :
    DecimalText (ascii "10") 10 ∧
      DecodesExactly Uint128.decodeDec (ascii "10") 10 ∧
      DecodesExactly Uint256.decodeDec (ascii "10") 10 := by
  have h : DecimalText (ascii "10") 10 := ⟨by decide, by decide, by decide⟩
  exact ⟨h, (decode_dec_exact_iff h).mpr (by norm_num)⟩

/-- The text of `2 ^ 256` is read as zero. -/
theorem decode_dec_wraps :
    DecimalText (formatNumber 10 0 (2 ^ 256)) (2 ^ 256) ∧
      Uint256.decodeDec (formatNumber 10 0 (2 ^ 256)) = some 0 := by
  refine ⟨decimalText_formatNumber _, ?_⟩
  rw [Uint256.decodeDec_formatNumber, if_pos (by norm_num)]
  rfl

/-! ## The C interface -/

theorem take_formatNumber {w : Nat} (hw : 0 < w) (hn : n ≠ 0) :
    ∃ m < 10 ^ w, (formatNumber 10 0 n).take w = formatNumber 10 0 m := by
  obtain ⟨d, es, hcons, hds, -⟩ := decimal_cons n
  have htake : (numeral 10 n).take w = d :: es.take (w - 1) := by
    rw [hcons, List.take_cons hw]
  have hfirst : ∀ x ∈ d :: es.take (w - 1), x < 10 := by
    rw [← htake, hcons]
    exact fun x hx => hds x (List.mem_of_mem_take hx)
  have hd : d ≠ 0 := head_numeral_ne_zero hn hcons
  refine ⟨horner 10 0 (d :: es.take (w - 1)), ?_, ?_⟩
  · have hlt := ofDigits_reverse_lt (by omega) hfirst
    rw [← horner_zero, ← htake] at hlt
    rw [← htake]
    exact hlt.trans_le (Nat.pow_le_pow_right (by omega) (List.length_take_le w _))
  · rw [formatNumber_zero, formatNumber_zero, ← List.map_take, htake,
      numeral_horner (by omega) hfirst (fun h => absurd h hd)]

theorem formatNumber_ne_nul (hc : c ∈ formatNumber 10 0 n) : c ≠ 0 := by
  rw [formatNumber_zero] at hc
  obtain ⟨d, hd, rfl⟩ := List.mem_map.mp hc
  have hlt : d < 10 := lt_of_mem_numeral (by omega) hd
  rw [digitText, if_pos hlt]
  bv_omega

theorem cString_strncpy (htext : ∀ c ∈ text, c ≠ 0) (count size : Nat) :
    cString (strncpy (List.replicate size 0) text count) = text.take count := by
  have hnul : ∀ n, (List.replicate n (0 : Uint8)).takeWhile (fun c => decide (c ≠ 0)) = [] := by
    intro n
    cases n <;> rfl
  rw [cString, strncpy, List.rightpad, List.drop_replicate, List.append_assoc,
    List.replicate_append_replicate, List.takeWhile_append_of_pos, hnul, List.append_nil]
  exact fun c hc => decide_eq_true (htext c (List.mem_of_mem_take hc))

/-- An amount survives the C interface if it has at most 32 digits. -/
theorem dec_interface_iff (x : Uint128) (extra : Nat) :
    bdmUint128FromDec (bdmUint128ToDec x (List.replicate (40 + extra) 0)) = some x ↔
      x.toNat < 10 ^ 32 := by
  rw [bdmUint128FromDec, bdmUint128ToDec, Uint128.toStringDec,
    cString_strncpy (fun c hc => formatNumber_ne_nul hc)]
  constructor
  · intro hread
    by_contra hx
    obtain ⟨m, hm, htake⟩ := take_formatNumber (by omega : 0 < 32) (by omega : x.toNat ≠ 0)
    rw [htake, Uint128.decodeDec_formatNumber, if_pos (by omega)] at hread
    have hx' : x.toNat = m := by
      rw [← Option.some.inj hread, BitVec.toNat_ofNat, Nat.mod_eq_of_lt (by omega)]
    omega
  · intro hx
    have hlength := (length_numeral_le_iff (by omega : 1 < 10) (by omega) _).mpr hx
    rw [List.take_of_length_le (by rwa [formatNumber_zero, List.length_map])]
    exact Uint128.decodeDec_toStringDec x

/-- The last seven digits of the largest amount are lost. -/
theorem dec_interface_truncates :
    bdmUint128FromDec (bdmUint128ToDec (BitVec.ofNat 128 (2 ^ 128 - 1)) (List.replicate 40 0)) =
      some (BitVec.ofNat 128 34028236692093846346337460743176) := by
  decide +kernel

/-! ## Units -/

open RpcHandler

theorem toRaw_eq (ratio : Uint128) (h : Uint128.decodeDec text = some x) :
    toRaw ratio text =
      if x.toNat < x.toNat * ratio.toNat % 2 ^ 128 then
        .ok (formatNumber 10 0 (x.toNat * ratio.toNat % 2 ^ 128))
      else .error "Amount too big" := by
  simp only [toRaw, h, gt_iff_lt, BitVec.lt_def, BitVec.toNat_mul, Uint128.toStringDec]

theorem fromRaw_formatNumber (ratio : Uint128) (hn : n < 2 ^ 128) :
    fromRaw ratio (formatNumber 10 0 n) = .ok (formatNumber 10 0 (n / ratio.toNat)) := by
  simp only [fromRaw, Uint128.decodeDec_formatNumber, if_pos hn, Uint128.toStringDec,
    BitVec.toNat_udiv, BitVec.toNat_ofNat, Nat.mod_eq_of_lt hn]

def ToRawExact (text : Text) (x : Uint128) : Prop :=
  (100 * x.toNat < 2 ^ 128 → bdmToRaw text = .ok (formatNumber 10 0 (100 * x.toNat))) ∧
    (2 ^ 128 ≤ 100 * x.toNat → ∃ error, bdmToRaw text = .error error)

def FromRawExact (text : Text) (x : Uint128) : Prop :=
  ∀ answer, bdmToRaw text = .ok answer → bdmFromRaw answer = .ok (formatNumber 10 0 x.toNat)

theorem bdmToRaw_eq (h : Uint128.decodeDec text = some x) :
    bdmToRaw text =
      if x.toNat < 100 * x.toNat % 2 ^ 128 then
        .ok (formatNumber 10 0 (100 * x.toNat % 2 ^ 128))
      else .error "Amount too big" := by
  rw [bdmToRaw, toRaw_eq bdmRatio h, Nat.mul_comm x.toNat]
  rfl

/-- A product that is too large is noticed only if the wrapped one is not above the amount. -/
theorem unit_conversion_iff {text : Text} {x : Uint128} (h : Uint128.decodeDec text = some x) :
    (ToRawExact text x ↔
        x ≠ 0 ∧ (2 ^ 128 ≤ 100 * x.toNat → 100 * x.toNat % 2 ^ 128 ≤ x.toNat)) ∧
      (FromRawExact text x ↔
        (2 ^ 128 ≤ 100 * x.toNat → 100 * x.toNat % 2 ^ 128 ≤ x.toNat)) ∧
      rawToRaw text = .error "Amount too big" := by
  have hx := x.isLt
  have hzero : x ≠ 0 ↔ x.toNat ≠ 0 := by
    rw [ne_eq, ne_eq, BitVec.toNat_eq]
    rfl
  refine ⟨?_, ?_, ?_⟩
  · rw [ToRawExact, bdmToRaw_eq h, hzero]
    constructor
    · rintro ⟨hfits, hbig⟩
      refine ⟨fun h0 => ?_, fun hover => ?_⟩
      · have := hfits (by omega)
        rw [if_neg (by omega)] at this
        cases this
      · obtain ⟨error, herror⟩ := hbig hover
        by_contra hle
        rw [if_pos (by omega)] at herror
        cases herror
    · rintro ⟨h0, hbig⟩
      refine ⟨fun hfits => ?_, fun hover => ⟨_, if_neg (by have := hbig hover; omega)⟩⟩
      rw [Nat.mod_eq_of_lt hfits, if_pos (by omega)]
  · rw [FromRawExact, bdmToRaw_eq h]
    have hback : ∀ n < 2 ^ 128, bdmFromRaw (formatNumber 10 0 n) =
        .ok (formatNumber 10 0 (n / 100)) := fun n hn => fromRaw_formatNumber bdmRatio hn
    constructor
    · intro hanswer hover
      by_contra hle
      have := hanswer _ (if_pos (by omega))
      rw [hback _ (Nat.mod_lt _ (by omega))] at this
      have hvalue := formatNumber_injective (Except.ok.inj this)
      omega
    · intro hbig answer hanswer
      split_ifs at hanswer with hlt
      cases hanswer
      have hfits : 100 * x.toNat < 2 ^ 128 := by
        by_contra hover
        have := hbig (by omega)
        omega
      rw [Nat.mod_eq_of_lt hfits, hback _ hfits, Nat.mul_div_cancel_left _ (by omega)]
  · rw [rawToRaw, toRaw_eq rawRatio h]
    exact if_neg (by simp [rawRatio, Nat.mod_eq_of_lt hx])

theorem unit_conversion_of_seven :
    Uint128.decodeDec (ascii "7") = some 7 ∧ ToRawExact (ascii "7") 7 ∧
      FromRawExact (ascii "7") 7 := by
  have h : Uint128.decodeDec (ascii "7") = some 7 := by decide +kernel
  obtain ⟨hto, hfrom, -⟩ := unit_conversion_iff h
  exact ⟨h, hto.mpr (by decide), hfrom.mpr (by decide)⟩

/-- Zero is refused, `2 ^ 122` is converted to `36 * 2 ^ 122`, and one raw is not one raw. -/
theorem unit_conversion_wrong :
    bdmToRaw (formatNumber 10 0 0) = .error "Amount too big" ∧
      bdmToRaw (formatNumber 10 0 (2 ^ 122)) = .ok (formatNumber 10 0 (36 * 2 ^ 122)) ∧
      rawToRaw (formatNumber 10 0 1) = .error "Amount too big" := by
  have hread : ∀ n < 2 ^ 128, Uint128.decodeDec (formatNumber 10 0 n) =
      some (BitVec.ofNat 128 n) := fun n hn => by
    rw [Uint128.decodeDec_formatNumber, if_pos hn]
  refine ⟨?_, ?_, ?_⟩
  · rw [bdmToRaw_eq (hread 0 (by norm_num))]
    rfl
  · rw [bdmToRaw_eq (hread _ (by norm_num))]
    rfl
  · rw [rawToRaw, toRaw_eq rawRatio (hread 1 (by norm_num))]
    rfl

end Badem
