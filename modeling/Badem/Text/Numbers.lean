import Badem.Text.AccountText

/-!
# Numbers read back from their text

What the encoders write is read back by the decoders.  A text that starts like an address is
not a hexadecimal number.
-/

namespace Badem

open Codec

/-! ## Digits -/

/-- What the readers test a digit for. -/
structure DigitText (d : Nat) (c : Uint8) : Prop where
  value : digitValue c = some d
  space : isSpace c = false
  sign : isSign c = false
  radix : c ≠ 0x78 ∧ c ≠ 0x58
  permitted : c ∈ ascii "+-xXabcdefABCDEF0123456789"

variable {d base width n : Nat} {ds : List Nat} {c : Uint8} {text : Text}

theorem digitText_spec (hd : d < 16) : DigitText d (digitText d) := by
  have hall : ∀ d : Fin 16, digitValue (digitText d) = some d.val ∧
      isSpace (digitText d) = false ∧ isSign (digitText d) = false ∧
      (digitText d ≠ 0x78 ∧ digitText d ≠ 0x58) ∧
      digitText d ∈ ascii "+-xXabcdefABCDEF0123456789" := by
    decide
  obtain ⟨h₁, h₂, h₃, h₄, h₅⟩ := hall ⟨d, hd⟩
  exact ⟨h₁, h₂, h₃, h₄, h₅⟩

theorem digitText_permitted (hd : d < 10) : digitText d ∈ ascii "+-0123456789" := by
  have hall : ∀ d : Fin 10, digitText d ∈ ascii "+-0123456789" := by
    decide
  exact hall ⟨d, hd⟩

theorem parseDigits_map {radix : Nat} (hradix : radix ≤ 16) (hds : ∀ d ∈ ds, d < radix) (n : Nat) :
    parseDigits radix n (ds.map digitText) = some (horner radix n ds) := by
  induction ds generalizing n with
  | nil => rfl
  | cons d ds ih =>
    obtain ⟨hd, hrest⟩ := List.forall_mem_cons.mp hds
    rw [List.map_cons, parseDigits, (digitText_spec (by omega)).value, horner]
    exact (if_pos hd).trans (ih hrest _)

theorem exists_cons_of_digits (hne : ds ≠ []) (hds : ∀ d ∈ ds, d < 16) :
    ∃ d es, ds = d :: es ∧ DigitText d (digitText d) := by
  obtain ⟨d, es, rfl⟩ := List.exists_cons_of_ne_nil hne
  exact ⟨d, es, rfl, digitText_spec (hds d (.head _))⟩

theorem dropWhile_isSpace_digits (hds : ∀ d ∈ ds, d < 16) :
    (ds.map digitText).dropWhile isSpace = ds.map digitText := by
  cases ds with
  | nil => rfl
  | cons d ds =>
    rw [List.map_cons, List.dropWhile_cons_of_neg]
    simp [(digitText_spec (hds d (.head _))).space]

theorem readWhile_digits {permitted : Text} (hds : ∀ d ∈ ds, d < 16)
    (hpermitted : ∀ d ∈ ds, digitText d ∈ permitted) :
    readWhile permitted (ds.map digitText) = some (ds.map digitText) := by
  rw [readWhile, dropWhile_isSpace_digits hds]
  refine if_pos ?_
  rw [List.all_eq_true]
  intro c hc
  obtain ⟨d, hd, rfl⟩ := List.mem_map.mp hc
  exact decide_eq_true (hpermitted d hd)

theorem take_two_digits_ne (hds : ∀ d ∈ ds, d < 16) :
    (ds.map digitText).take 2 ≠ ascii "0x" ∧ (ds.map digitText).take 2 ≠ ascii "0X" := by
  have hx : ascii "0x" = [0x30, 0x78] := rfl
  have hX : ascii "0X" = [0x30, 0x58] := rfl
  rw [hx, hX]
  match ds with
  | [] => simp
  | [d] => simp
  | d :: e :: es =>
    have hradix := (digitText_spec (hds e (by simp))).radix
    exact ⟨fun h => hradix.1 (List.cons.inj (List.cons.inj h).2).1,
      fun h => hradix.2 (List.cons.inj (List.cons.inj h).2).1⟩

theorem splitSign_of_not_sign (hc : isSign c = false) (cs : Text) :
    splitSign (c :: cs) = (false, c :: cs) := by
  have hne : c ≠ 0x2d := by
    rintro rfl
    cases hc
  exact if_neg hne

/-! ## Hexadecimal numbers -/

theorem insertRadix_digits (hne : ds ≠ []) (hds : ∀ d ∈ ds, d < 16) :
    insertRadix (ds.map digitText) = some (ascii "0x" ++ ds.map digitText) := by
  obtain ⟨d, es, rfl, hd⟩ := exists_cons_of_digits hne hds
  have hsign : isSign (digitText d) = false := hd.sign
  have hdrop : ((d :: es).map digitText).dropWhile isSign = (d :: es).map digitText := by
    rw [List.map_cons, List.dropWhile_cons_of_neg (by simp [hsign])]
  have htake : ((d :: es).map digitText).takeWhile isSign = [] := by
    rw [List.map_cons, List.takeWhile_cons_of_neg (by simp [hsign])]
  rw [insertRadix, if_neg (take_two_digits_ne hds).1, hdrop, htake, if_neg (by simp)]
  rfl

theorem assignText_hex (hds : ∀ d ∈ ds, d < 16) :
    assignText (ascii "0x" ++ ds.map digitText) = some (false, horner 16 0 ds) := by
  have hsplit : assignText (ascii "0x" ++ ds.map digitText) =
      (parseDigits 16 0 (ds.map digitText)).map (fun n => (false, n)) := rfl
  rw [hsplit, parseDigits_map le_rfl hds]
  rfl

theorem extractHex_digits (w : Nat) (hne : ds ≠ []) (hds : ∀ d ∈ ds, d < 16) :
    extractHex w (ds.map digitText) = some (BitVec.ofNat w (horner 16 0 ds)) := by
  have hread := readWhile_digits hds (fun d hd => (digitText_spec (hds d hd)).permitted)
  have hfull : (ds.map digitText).isEmpty = false := by simpa using hne
  rw [extractHex, hread, Option.bind_eq_bind, Option.bind_some, hfull,
    insertRadix_digits hne hds]
  simp [assignText_hex hds]

/-! ## Numbers filled up to a width -/

def paddedDigits (base width n : Nat) : List Nat := (numeral base n).leftpad width 0

theorem formatNumber_eq (base width n : Nat) :
    formatNumber base width n = (paddedDigits base width n).map digitText := rfl

theorem lt_of_mem_paddedDigits (hbase : 1 < base) (hd : d ∈ paddedDigits base width n) :
    d < base := by
  rw [paddedDigits, List.leftpad, List.mem_append] at hd
  rcases hd with hpad | hnum
  · grind
  · exact lt_of_mem_numeral hbase hnum

theorem horner_paddedDigits (base width n : Nat) :
    horner base 0 (paddedDigits base width n) = n := by
  rw [paddedDigits, List.leftpad, horner_replicate_zero_append, horner_numeral]

theorem numeral_ne_nil : numeral base n ≠ [] := by
  rw [numeral]
  split_ifs with hn
  · simp
  · simpa [Nat.digits_eq_nil_iff_eq_zero] using hn

theorem paddedDigits_ne_nil : paddedDigits base width n ≠ [] := by
  rw [paddedDigits, List.leftpad]
  simp [numeral_ne_nil]

theorem length_paddedDigits (hbase : 1 < base) (hwidth : 0 < width) (hn : n < base ^ width) :
    (paddedDigits base width n).length = width := by
  have hle := (length_numeral_le_iff hbase hwidth n).mpr hn
  rw [paddedDigits, List.length_leftpad]
  omega

theorem extractHex_formatNumber (w width : Nat) (x : BitVec w) :
    extractHex w (formatNumber 16 width x.toNat) = some x := by
  rw [formatNumber_eq, extractHex_digits w paddedDigits_ne_nil
    (fun d hd => lt_of_mem_paddedDigits (by omega) hd), horner_paddedDigits,
    BitVec.ofNat_toNat, BitVec.setWidth_eq]

theorem length_formatNumber (hbase : 1 < base) (hwidth : 0 < width) (hn : n < base ^ width) :
    (formatNumber base width n).length = width := by
  rw [formatNumber_eq, List.length_map, length_paddedDigits hbase hwidth hn]

theorem toNat_lt_sixteen_pow (k : Nat) (x : BitVec (4 * k)) : x.toNat < 16 ^ k := by
  have h := x.isLt
  rwa [pow_mul] at h

theorem Uint256.decodeHex_encodeHex (x : Uint256) :
    Uint256.decodeHex (Uint256.encodeHex x) = some x := by
  have hlen : (Uint256.encodeHex x).length = 64 :=
    length_formatNumber (by omega) (by omega) (toNat_lt_sixteen_pow 64 x)
  rw [Uint256.decodeHex, if_pos (by omega)]
  exact extractHex_formatNumber 256 64 x

theorem Uint256.encodeHex_injective : Function.Injective Uint256.encodeHex := by
  intro x y h
  have hdecode := congrArg Uint256.decodeHex h
  rw [Uint256.decodeHex_encodeHex, Uint256.decodeHex_encodeHex] at hdecode
  exact Option.some.inj hdecode

theorem Uint128.decodeHex_encodeHex (x : Uint128) :
    Uint128.decodeHex (Uint128.encodeHex x) = some x := by
  have hlen : (Uint128.encodeHex x).length = 32 :=
    length_formatNumber (by omega) (by omega) (toNat_lt_sixteen_pow 32 x)
  rw [Uint128.decodeHex, if_neg (by omega)]
  exact extractHex_formatNumber 128 32 x

theorem Uint512.decodeHex_encodeHex (x : Uint512) :
    Uint512.decodeHex (Uint512.encodeHex x) = some x := by
  have hlen : (Uint512.encodeHex x).length = 128 :=
    length_formatNumber (by omega) (by omega) (toNat_lt_sixteen_pow 128 x)
  rw [Uint512.decodeHex, if_neg (by omega)]
  exact extractHex_formatNumber 512 128 x

theorem head_ne_minus (hc : isSign c = false) : c ≠ 0x2d := by
  rintro rfl
  cases hc

theorem extractWord_digits (junk : Uint64) (hne : ds ≠ []) (hds : ∀ d ∈ ds, d < 16) :
    extractWord junk (ds.map digitText) = some (BitVec.ofNat 64 (horner 16 0 ds)) := by
  obtain ⟨hx, hX⟩ := take_two_digits_ne hds
  have hparse := parseDigits_map le_rfl hds 0
  have hspace := dropWhile_isSpace_digits hds
  obtain ⟨d, es, rfl, hd⟩ := exists_cons_of_digits hne hds
  have hminus : digitText d ≠ 0x2d := head_ne_minus hd.sign
  have hfirst : Option.any isSign (some (digitText d)) = false := hd.sign
  simp only [List.map_cons] at hx hX hparse hspace ⊢
  simp only [extractWord, hspace, List.isEmpty_cons, hfirst, hx, hX, or_self, hparse,
    Bool.false_eq_true, if_false, Option.map_some, List.head?_cons, Option.some.injEq, hminus]

theorem fromStringHex_toStringHex (junk value : Uint64) :
    fromStringHex junk (toStringHex value) = some value := by
  have hlen : (toStringHex value).length = 16 :=
    length_formatNumber (by omega) (by omega) (toNat_lt_sixteen_pow 16 value)
  have hfull : (toStringHex value).isEmpty = false := by
    rw [List.isEmpty_eq_false_iff, ← List.length_pos_iff]
    omega
  rw [fromStringHex, hfull, if_neg (by simp), if_neg (by omega), toStringHex, formatNumber_eq,
    extractWord_digits junk paddedDigits_ne_nil
      (fun d hd => lt_of_mem_paddedDigits (by omega) hd), horner_paddedDigits]
  simp

/-! ## Decimal numbers -/

theorem formatNumber_zero (base n : Nat) :
    formatNumber base 0 n = (numeral base n).map digitText := by
  rw [formatNumber, List.leftpad]
  simp

theorem digitText_head_ne_zero {es : List Nat} (hn : n ≠ 0) (hcons : numeral 10 n = d :: es) :
    digitText d ≠ 0x30 := by
  have hd : d < 10 := lt_of_mem_numeral (by omega) (hcons ▸ List.mem_cons_self)
  have hne : d ≠ 0 := head_numeral_ne_zero hn hcons
  rw [digitText, if_pos hd]
  bv_omega

theorem assignText_numeral (n : Nat) :
    assignText ((numeral 10 n).map digitText) = some (false, n) := by
  have hds : ∀ d ∈ numeral 10 n, d < 10 := fun d hd => lt_of_mem_numeral (by omega) hd
  have hparse := parseDigits_map (by omega) hds 0
  rw [horner_numeral] at hparse
  by_cases hn : n = 0
  · subst hn
    rfl
  · obtain ⟨d, es, hcons⟩ := List.exists_cons_of_ne_nil (numeral_ne_nil : numeral 10 n ≠ [])
    have hd : d < 10 := hds d (by simp [hcons])
    have hzero := digitText_head_ne_zero hn hcons
    have hradix : splitRadix (digitText d :: es.map digitText) =
        (10, digitText d :: es.map digitText) := by
      cases es <;> exact if_neg hzero
    rw [hcons, List.map_cons] at hparse ⊢
    rw [assignText, splitSign_of_not_sign (digitText_spec (by omega)).sign]
    simp only [hradix, hparse, Option.map_some]

theorem decimal_cons (n : Nat) :
    ∃ d es, numeral 10 n = d :: es ∧ (∀ x ∈ d :: es, x < 10) ∧ DigitText d (digitText d) := by
  obtain ⟨d, es, hcons⟩ := List.exists_cons_of_ne_nil (numeral_ne_nil : numeral 10 n ≠ [])
  have hds : ∀ x ∈ d :: es, x < 10 := fun x hx => lt_of_mem_numeral (by omega) (hcons ▸ hx)
  have hd := hds d (.head _)
  exact ⟨d, es, hcons, hds, digitText_spec (by omega)⟩

theorem decodeDec_refuses_iff {limit : Nat} (hlimit : 0 < limit) (n : Nat) :
    ((formatNumber 10 0 n).length > limit ∨
        ((formatNumber 10 0 n).length > 1 ∧ (formatNumber 10 0 n).head? = some 0x30) ∨
        ((formatNumber 10 0 n).length > 0 ∧ (formatNumber 10 0 n).head? = some 0x2d)) ↔
      10 ^ limit ≤ n := by
  obtain ⟨d, es, hcons, -, hd⟩ := decimal_cons n
  have hzero : ¬ ((formatNumber 10 0 n).length > 1 ∧
      (formatNumber 10 0 n).head? = some 0x30) := by
    rintro ⟨hlong, hhead⟩
    by_cases hn : n = 0
    · subst hn
      exact absurd hlong (by decide)
    · rw [formatNumber_zero, hcons, List.map_cons, List.head?_cons] at hhead
      exact digitText_head_ne_zero hn hcons (Option.some.inj hhead)
  have hminus : (formatNumber 10 0 n).head? ≠ some 0x2d := by
    rw [formatNumber_zero, hcons, List.map_cons, List.head?_cons]
    exact fun h => head_ne_minus hd.sign (Option.some.inj h)
  have hlength := length_numeral_le_iff (by omega : 1 < 10) hlimit n
  rw [← List.length_map digitText, ← formatNumber_zero] at hlength
  constructor
  · rintro (hlong | hoctal | hneg)
    · omega
    · exact absurd hoctal hzero
    · exact absurd hneg.2 hminus
  · intro hn
    left
    omega

theorem readWhile_decimal (n : Nat) :
    readWhile (ascii "+-0123456789") (formatNumber 10 0 n) = some (formatNumber 10 0 n) := by
  have hds : ∀ d ∈ numeral 10 n, d < 10 := fun d hd => lt_of_mem_numeral (by omega) hd
  rw [formatNumber_zero]
  exact readWhile_digits (fun d hd => (hds d hd).trans (by omega))
    (fun d hd => digitText_permitted (hds d hd))

theorem Uint128.decodeDec_formatNumber (n : Nat) :
    Uint128.decodeDec (formatNumber 10 0 n) =
      if n < 2 ^ 128 then some (BitVec.ofNat 128 n) else none := by
  have hlimit : (2 : Nat) ^ 128 < 10 ^ 39 := by norm_num
  rw [Uint128.decodeDec]
  by_cases hn : 10 ^ 39 ≤ n
  · rw [if_pos ((decodeDec_refuses_iff (by omega) n).mpr hn), if_neg (by omega)]
  · rw [if_neg (fun h => hn ((decodeDec_refuses_iff (by omega) n).mp h)), extractDec,
      readWhile_decimal]
    simp [formatNumber_zero, assignText_numeral, numeral_ne_nil]

theorem Uint256.decodeDec_formatNumber (n : Nat) :
    Uint256.decodeDec (formatNumber 10 0 n) =
      if n < 10 ^ 78 then some (BitVec.ofNat 256 n) else none := by
  rw [Uint256.decodeDec]
  by_cases hn : 10 ^ 78 ≤ n
  · rw [if_pos ((decodeDec_refuses_iff (by omega) n).mpr hn), if_neg (by omega)]
  · rw [if_neg (fun h => hn ((decodeDec_refuses_iff (by omega) n).mp h)), extractDecUnchecked,
      readWhile_decimal, if_pos (by omega)]
    simp [formatNumber_zero, assignText_numeral, numeral_ne_nil]

theorem Uint128.decodeDec_toStringDec (x : Uint128) :
    Uint128.decodeDec (Uint128.toStringDec x) = some x := by
  rw [Uint128.toStringDec, Uint128.decodeDec_formatNumber, if_pos x.isLt, BitVec.ofNat_toNat,
    BitVec.setWidth_eq]

/-! ## Addresses are not hexadecimal numbers -/

theorem startsBdm_of_decodeAccount {check : Account → BitVec 40} {account : Account}
    (h : decodeAccount check text = .ok (some account)) : startsBdm text = true := by
  by_contra hstart
  have hframed : ¬ Framed text := fun hf => hstart hf.start
  simp [decodeAccount_not_framed check hframed] at h

theorem decodeHex_of_startsBdm (h : startsBdm text = true) : Uint256.decodeHex text = none := by
  have htake : ∃ c, text = 0x62 :: 0x64 :: 0x6d :: c :: text.drop 4 := by
    rw [startsBdm, decide_eq_true_iff] at h
    rcases h with h | h
    · exact ⟨0x5f, (List.take_append_drop 4 text).symm.trans (by rw [h]; rfl)⟩
    · exact ⟨0x2d, (List.take_append_drop 4 text).symm.trans (by rw [h]; rfl)⟩
  obtain ⟨c, hc⟩ := htake
  have hread : readWhile (ascii "+-xXabcdefABCDEF0123456789") text = none := by
    have hmissing : (0x6d : Uint8) ∉ ascii "+-xXabcdefABCDEF0123456789" := by decide
    have hspace : text.dropWhile isSpace = text := by
      rw [hc]
      rfl
    rw [readWhile, hspace]
    refine if_neg ?_
    rw [List.all_eq_true]
    intro hall
    exact hmissing (of_decide_eq_true (hall 0x6d (by rw [hc]; simp)))
  rw [Uint256.decodeHex, extractHex, hread]
  split_ifs
  · rfl
  · rfl

end Badem
