import Badem.Core.AmountText
import Badem.Text.Numbers
import Mathlib

/-!
# Balances as text

What `format_balance` returns for a scale that is a power of ten.
-/

namespace Badem

open Codec

/-! ## Digits -/

theorem formatNumber_digit {d : Nat} (hd : d < 10) : formatNumber 10 0 d = [digitText d] := by
  have h := numeral_horner (by omega : 1 < 10) (List.forall_mem_singleton.mpr hd) (fun _ => rfl)
  rw [horner, horner, Nat.mul_zero, Nat.zero_add] at h
  rw [formatNumber_zero, h, List.map_singleton]

theorem horner_cons (b d : Nat) (ds : List Nat) :
    horner b 0 (d :: ds) = d * b ^ ds.length + horner b 0 ds := by
  rw [horner, horner_eq, horner_zero]
  ring

theorem sub_div_mul (rem reduce : Nat) : rem - rem / reduce * reduce = rem % reduce := by
  rw [Nat.mod_def, Nat.mul_comm]

variable {rem e value k : Nat} {groupSep sep : Uint8} {on : Bool} {ds : List Nat}

theorem div_pow_lt_ten (h : rem < 10 ^ (e + 1)) : rem / 10 ^ e < 10 :=
  Nat.div_lt_of_lt_mul (by rwa [← pow_succ])

/-! ## The integer part -/

/-- Digits with a separator before each third one from the right. -/
def grouped (on : Bool) (sep : Uint8) : List Nat → Text
  | [] => []
  | d :: ds =>
    digitText d ::
      (if on = true ∧ ds ≠ [] ∧ ds.length % 3 = 0 then sep :: grouped on sep ds
      else grouped on sep ds)

theorem largestPow10_eq (value e : Nat) (h : 0 < 10 ^ e) (he : e = 0 ∨ 10 ^ e ≤ value) :
    ∃ f, largestPow10 value (10 ^ e) h (e + 1) = (10 ^ f, f + 1) ∧ value < 10 ^ (f + 1) ∧
      (f = 0 ∨ 10 ^ f ≤ value) := by
  rw [largestPow10]
  split_ifs with hlast
  · exact ⟨e, rfl, by rwa [pow_succ], he⟩
  · have hnext : 10 ^ (e + 1) ≤ value := by
      rw [pow_succ]
      omega
    simp only [← pow_succ]
    exact largestPow10_eq value (e + 1) (Nat.pow_pos (by omega)) (.inr hnext)
termination_by value + 1 - 10 ^ e
decreasing_by
  rw [pow_succ]
  omega

theorem emitGroups_three (left count i : Nat) (hcount : count ≤ 3) (hi : i < left) :
    (emitGroups [3] left 0 count).getD i false = decide (0 < count + i ∧ (count + i) % 3 = 0) := by
  induction left generalizing count i with
  | zero => exact absurd hi (Nat.not_lt_zero i)
  | succ left ih =>
    have hthree : (([3] : Text).getD 0 0).toInt = 3 := rfl
    rw [emitGroups, hthree]
    by_cases hfull : count = 3
    · subst hfull
      rw [if_pos (by omega)]
      cases i with
      | zero => rfl
      | succ i =>
        have hi' : i < left := by omega
        exact (ih 1 i (by omega) hi').trans (decide_eq_decide.mpr (by omega))
    · rw [if_neg (by omega)]
      cases i with
      | zero =>
        rw [List.getD_cons_zero]
        exact (decide_eq_false (by omega)).symm
      | succ i =>
        rw [List.getD_cons_succ, ih (count + 1) i (by omega) (by omega)]
        exact decide_eq_decide.mpr (by omega)

theorem formatDigits_eq {emit : List Bool}
    (hrem : rem < 10 ^ (e + 1)) (hsame : on = true → groupSep = sep)
    (hemit : ∀ i, 0 < i → i ≤ e →
      (groupSep ≠ 0 ∧ emit.getD i false = true ↔ on = true ∧ i % 3 = 0)) :
    ∃ ds, formatDigits groupSep emit rem (10 ^ e) (e + 1) = grouped on sep ds ∧ ds.length = e + 1 ∧
      (∀ d ∈ ds, d < 10) ∧ horner 10 0 ds = rem := by
  induction e generalizing rem with
  | zero =>
    have hstop : formatDigits groupSep emit (rem - rem / 10 ^ 0 * 10 ^ 0) (10 ^ 0 / 10) 0 = [] := by
      rw [formatDigits]
      rfl
    refine ⟨[rem], ?_, rfl, by simpa using hrem, by simp [horner]⟩
    rw [formatDigits, if_pos (by omega), if_neg (by simp)]
    simp only [Nat.zero_add, Nat.sub_self, hstop]
    rw [formatNumber_digit (div_pow_lt_ten hrem)]
    simp [grouped]
  | succ e ih =>
    have hpow : 10 ^ (e + 1) / 10 = 10 ^ e := by
      rw [pow_succ, Nat.mul_div_cancel _ (by omega)]
    have hmod : rem % 10 ^ (e + 1) < 10 ^ (e + 1) := Nat.mod_lt _ (Nat.pow_pos (by omega))
    have hlarge : 10 ^ (e + 1) > 1 := Nat.one_lt_pow (by omega) (by omega)
    obtain ⟨ds, htext, hlen, hds, hvalue⟩ := ih hmod (fun i hpos hle => hemit i hpos (by omega))
    have hne : ds ≠ [] := List.ne_nil_of_length_eq_add_one hlen
    refine ⟨rem / 10 ^ (e + 1) :: ds, ?_, by simp [hlen],
      List.forall_mem_cons.mpr ⟨div_pow_lt_ten hrem, hds⟩, ?_⟩
    · rw [formatDigits, if_pos (by omega)]
      simp only [sub_div_mul, hpow, Nat.add_sub_cancel, htext]
      rw [formatNumber_digit (div_pow_lt_ten hrem), grouped, hlen]
      by_cases hsep : on = true ∧ (e + 1) % 3 = 0
      · obtain ⟨hs, hm⟩ := (hemit (e + 1) (by omega) le_rfl).mpr hsep
        rw [if_pos ⟨hs, hm, hlarge⟩, if_pos ⟨hsep.1, hne, hsep.2⟩, hsame hsep.1]
        rfl
      · have hnot := fun h => hsep ((hemit (e + 1) (by omega) le_rfl).mp h)
        rw [if_neg (fun h => hnot ⟨h.1, h.2.1⟩), if_neg (fun h => hsep ⟨h.1, h.2.2⟩)]
        rfl
    · rw [horner_cons, hvalue, hlen, Nat.mul_comm, Nat.div_add_mod]

theorem numeral_of_horner (hlen : ds.length = e + 1) (hds : ∀ d ∈ ds, d < 10)
    (hvalue : horner 10 0 ds = value) (hlow : e = 0 ∨ 10 ^ e ≤ value) : numeral 10 value = ds := by
  cases ds with
  | nil => exact absurd hlen (by simp)
  | cons d ds =>
    have hlen' : ds.length = e := Nat.succ.inj hlen
    rw [← hvalue]
    refine numeral_horner (by omega) hds ?_
    rintro rfl
    rcases hlow with rfl | hlow
    · exact List.length_eq_zero_iff.mp hlen'
    · have hlt := ofDigits_reverse_lt (by omega) (List.forall_mem_cons.mp hds).2
      rw [← horner_zero, hlen'] at hlt
      rw [horner_cons] at hvalue
      omega

theorem formatDec_eq (hvalue : value < 2 ^ 128)
    (hsame : on = true → groupSep = sep) (hon : groupSep ≠ 0 ↔ on = true) :
    formatDec value groupSep [3] = grouped on sep (numeral 10 value) := by
  obtain ⟨e, hlargest, hlt, hlow⟩ := largestPow10_eq value 0 (by omega) (.inl rfl)
  have he : e < 39 := by
    rcases hlow with rfl | hlow
    · omega
    · exact (Nat.pow_lt_pow_iff_right (by omega : 1 < 10)).mp (by omega)
  rw [formatDec]
  simp only [pow_zero, Nat.zero_add] at hlargest
  rw [hlargest]
  simp only [if_neg (by omega : ¬ e + 1 > 39)]
  obtain ⟨ds, htext, hlen, hds, hhorner⟩ := formatDigits_eq hlt hsame (by
    intro i hpos hle
    rw [emitGroups_three (e + 1) 0 i (by omega) (by omega), hon]
    simp [hpos])
  rw [htext, numeral_of_horner hlen hds hhorner hlow]

/-! ## The fraction -/

/-- The digits after the point, at most `p` of a remainder below `10 ^ k`. -/
structure FractionDigits (rem k p : Nat) (ds : List Nat) : Prop where
  length_le : ds.length ≤ p
  digits : ∀ d ∈ ds, d < 10
  value : horner 10 0 ds * 10 ^ (p - ds.length) = rem * 10 ^ p / 10 ^ k
  ne_nil : 0 < p → 0 < rem → ds ≠ []

theorem formatFrac_eq (p : Nat) (hrem : rem < 10 ^ k) :
    ∃ ds, formatFrac rem (10 ^ k) p = some (ds.map digitText) ∧ FractionDigits rem k p ds := by
  induction p generalizing rem k with
  | zero =>
    refine ⟨[], by rw [formatFrac]; rfl, le_rfl, nofun, ?_, fun h => absurd h (by omega)⟩
    simp [horner, Nat.div_eq_of_lt hrem]
  | succ p ih =>
    rw [formatFrac]
    by_cases hzero : rem = 0
    · subst hzero
      refine ⟨[], if_neg (by omega), by simp, nofun, by simp [horner], fun _ h => absurd h ?_⟩
      omega
    · cases k with
      | zero => exact absurd hrem (by simpa using hzero)
      | succ k =>
        have hlarge : 10 ^ (k + 1) > 1 := Nat.one_lt_pow (by omega) (by omega)
        have hpos : 0 < 10 ^ k := Nat.pow_pos (by omega)
        have hpow : 10 ^ (k + 1) / 10 = 10 ^ k := by
          rw [pow_succ, Nat.mul_div_cancel _ (by omega)]
        obtain ⟨ds, htext, hds⟩ := ih (Nat.mod_lt rem hpos)
        have hle := hds.length_le
        refine ⟨rem / 10 ^ k :: ds, ?_, by simpa using hle,
          List.forall_mem_cons.mpr ⟨div_pow_lt_ten hrem, hds.digits⟩, ?_, by simp⟩
        · rw [if_pos ⟨hlarge, by omega⟩]
          simp only [hpow, divide, if_neg hpos.ne', Option.bind_eq_bind, Option.bind_some,
            sub_div_mul, htext, formatNumber_digit (div_pow_lt_ten hrem)]
          rfl
        · have hrest : rem * 10 ^ (p + 1) / 10 ^ (k + 1) =
              rem / 10 ^ k * 10 ^ p + rem % 10 ^ k * 10 ^ p / 10 ^ k := by
            rw [pow_succ, pow_succ, ← Nat.mul_assoc, Nat.mul_div_mul_right _ _ (by omega)]
            nth_rewrite 1 [← Nat.div_add_mod rem (10 ^ k)]
            rw [Nat.add_mul, Nat.mul_assoc, Nat.mul_add_div hpos]
          rw [horner_cons, List.length_cons, Nat.add_sub_add_right, Nat.add_mul, Nat.mul_assoc,
            ← pow_add, Nat.add_sub_cancel' hle, hds.value, hrest]

def fractionText (point : Uint8) (ds : List Nat) : Text :=
  if ds = [] then [] else point :: ds.map digitText

theorem appendFrac_eq (integer : Text) (p : Nat) (hrem : rem < 10 ^ k) (point : Uint8) :
    ∃ ds, appendFrac integer rem (10 ^ k) p point = some (integer ++ fractionText point ds) ∧
      FractionDigits rem k p ds := by
  rw [appendFrac]
  split_ifs with hfrac
  · obtain ⟨ds, htext, hds⟩ := formatFrac_eq p hrem
    refine ⟨ds, ?_, hds⟩
    rw [htext, fractionText, if_neg (hds.ne_nil hfrac.1 hfrac.2)]
    simp
  · refine ⟨[], by simp [fractionText], by simp, nofun, ?_, fun hp hpos => absurd ⟨hp, hpos⟩ hfrac⟩
    have hzero : rem * 10 ^ p / 10 ^ k = 0 := by
      rcases Nat.eq_zero_or_pos p with rfl | hp
      · simpa using Nat.div_eq_of_lt hrem
      · simp [Nat.eq_zero_of_not_pos (fun hpos => hfrac ⟨hp, hpos⟩)]
    simp [horner, hzero]

/-! ## Balances -/

theorem iterate_div_ten (n p : Nat) : (fun n => n / 10)^[p] n = n / 10 ^ p := by
  induction p with
  | zero => simp
  | succ p ih => rw [Function.iterate_succ_apply', ih, Nat.div_div_eq_div_mul, pow_succ]

theorem testBelow_eq (b k p : Nat) :
    testBelow (b / 10 ^ k) (b % 10 ^ k) (10 ^ k / 10 ^ p) =
      if 0 < b ∧ b < 10 ^ k ∧ k < p then none
      else some (decide (0 < b ∧ b < 10 ^ k / 10 ^ p)) := by
  have hpos : 0 < 10 ^ k := Nat.pow_pos (by omega)
  by_cases hpart : 0 < b ∧ b < 10 ^ k
  · rw [testBelow, Nat.div_eq_of_lt hpart.2, Nat.mod_eq_of_lt hpart.2, if_pos ⟨rfl, hpart.1⟩,
      divide]
    by_cases hp : k < p
    · have hprec : 10 ^ k / 10 ^ p = 0 := Nat.div_eq_of_lt (Nat.pow_lt_pow_right (by omega) hp)
      rw [if_pos hprec, if_pos ⟨hpart.1, hpart.2, hp⟩]
      rfl
    · have hprec : 0 < 10 ^ k / 10 ^ p :=
        Nat.div_pos (Nat.pow_le_pow_right (by omega) (by omega)) (Nat.pow_pos (by omega))
      rw [if_neg hprec.ne', if_neg (fun h => hp h.2.2), Option.map_some]
      simp [Nat.div_eq_zero_iff_lt hprec, hpart.1]
  · have hint : ¬ (b / 10 ^ k = 0 ∧ b % 10 ^ k > 0) := by
      rintro ⟨hzero, hfrac⟩
      rw [Nat.div_eq_zero_iff_lt hpos] at hzero
      rw [Nat.mod_eq_of_lt hzero] at hfrac
      exact hpart ⟨hfrac, hzero⟩
    have hle : 10 ^ k / 10 ^ p ≤ 10 ^ k := Nat.div_le_self _ _
    rw [testBelow, if_neg hint, if_neg (fun h => hpart ⟨h.1, h.2.1⟩), decide_eq_false]
    exact fun h => hpart ⟨h.1, by omega⟩

section FormatBalance

variable {k : Nat} (balance : Uint128) (p : Nat) (groupDigits : Bool) (sep point : Uint8)

theorem formatBalance_eq (hk : k ≤ 38) (grouping : Text) :
    formatBalance balance (BitVec.ofNat 128 (10 ^ k)) p groupDigits sep point grouping =
      if 0 < balance.toNat ∧ balance.toNat < 10 ^ k ∧ k < p then none
      else if 0 < balance.toNat ∧ balance.toNat < 10 ^ k / 10 ^ p then
        some (belowPrecision point p)
      else
        appendFrac (formatDec (balance.toNat / 10 ^ k)
          (if groupDigits = true ∧ grouping.length > 0 then sep else 0) grouping)
          (balance.toNat % 10 ^ k) (10 ^ k) p point := by
  have hscale : (BitVec.ofNat 128 (10 ^ k)).toNat = 10 ^ k := by
    have hle : 10 ^ k ≤ 10 ^ 38 := Nat.pow_le_pow_right (by omega) hk
    rw [BitVec.toNat_ofNat, Nat.mod_eq_of_lt (by omega)]
  have hdivide : divide balance.toNat (10 ^ k) = some (balance.toNat / 10 ^ k) :=
    if_neg (Nat.pow_pos (by omega)).ne'
  rw [formatBalance]
  simp only [hscale, hdivide, Option.bind_eq_bind, Option.bind_some, iterate_div_ten,
    testBelow_eq]
  by_cases hzero : 0 < balance.toNat ∧ balance.toNat < 10 ^ k ∧ k < p <;>
    simp [hzero, Option.bind_none, Option.bind_some, decide_eq_true_eq]

/-- A balance is formatted unless it is below the scale and the precision above the exponent of
the scale, when the divisor has become zero. -/
theorem format_balance_returns_iff (hk : k ≤ 38) (grouping : Text) :
    (∃ text, formatBalance balance (BitVec.ofNat 128 (10 ^ k)) p groupDigits sep point grouping =
        some text) ↔
      ¬ (0 < balance.toNat ∧ balance.toNat < 10 ^ k ∧ k < p) := by
  rw [formatBalance_eq balance p groupDigits sep point hk]
  by_cases hzero : 0 < balance.toNat ∧ balance.toNat < 10 ^ k ∧ k < p
  · simp [hzero]
  · rw [if_neg hzero]
    refine iff_of_true ?_ hzero
    by_cases hbelow : 0 < balance.toNat ∧ balance.toNat < 10 ^ k / 10 ^ p
    · exact ⟨_, if_pos hbelow⟩
    · rw [if_neg hbelow]
      obtain ⟨ds, htext, -⟩ := appendFrac_eq _ p
        (Nat.mod_lt balance.toNat (Nat.pow_pos (by omega : 0 < 10))) point
      exact ⟨_, htext⟩

theorem format_balance_returns_cent :
    2 ≤ 38 ∧ ∃ text, formatBalance 1 (BitVec.ofNat 128 (10 ^ 2)) 2 true 0x2c 0x2e [3] = some text :=
  ⟨by omega, (format_balance_returns_iff 1 2 true 0x2c 0x2e (by omega) [3]).mpr (by omega)⟩

/-- Less than one unit, with the precision that the tests use. -/
theorem format_balance_divides_by_zero : formatBalance 99 100 64 true 0x2c 0x2e [3] = none := by
  decide +kernel

end FormatBalance

/-! ## The value of the text -/

/-- Digits before and after the point that write a number. -/
structure DecimalDigits (p : Nat) (value : ℚ) (integer fraction : List Nat) : Prop where
  digits : ∀ d ∈ integer ++ fraction, d < 10
  ne_nil : integer ≠ []
  no_zero : integer.length > 1 → integer.head? ≠ some 0
  length_le : fraction.length ≤ p
  value : (horner 10 0 integer : ℚ) + horner 10 0 fraction / 10 ^ fraction.length = value

def Shows (on : Bool) (sep point : Uint8) (p : Nat) (value : ℚ) (text : Text) : Prop :=
  ∃ integer fraction, DecimalDigits p value integer fraction ∧
    text = grouped on sep integer ++ fractionText point fraction

theorem shows_belowPrecision (sep point : Uint8) (p : Nat) :
    Shows false sep point p (1 / 10 ^ p) ((belowPrecision point p).drop 2) := by
  cases p with
  | zero => exact ⟨[1], [], ⟨by decide, by simp, by simp, le_rfl, by simp [horner]⟩, rfl⟩
  | succ p =>
    have hvalue : horner 10 0 (List.replicate p 0 ++ [1]) = 1 := by
      rw [horner_replicate_zero_append]
      rfl
    refine ⟨[0], List.replicate p 0 ++ [1], ⟨?_, by simp, by simp, by simp, ?_⟩, ?_⟩
    · simp +contextual [or_imp]
    · rw [hvalue]
      simp [horner]
    · simp [fractionText, belowPrecision, grouped, digitText, ascii]

theorem shows_quotient {b p : Nat} (hds : FractionDigits (b % 10 ^ k) k p ds) (on : Bool)
    (sep point : Uint8) :
    Shows on sep point p ((b * 10 ^ p / 10 ^ k : ℕ) / 10 ^ p)
      (grouped on sep (numeral 10 (b / 10 ^ k)) ++ fractionText point ds) := by
  have hpos : 0 < 10 ^ k := Nat.pow_pos (by omega)
  have hfloor : b * 10 ^ p / 10 ^ k =
      b / 10 ^ k * 10 ^ p + horner 10 0 ds * 10 ^ (p - ds.length) := by
    rw [hds.value]
    nth_rewrite 1 [← Nat.div_add_mod b (10 ^ k)]
    rw [Nat.add_mul, Nat.mul_assoc, Nat.mul_add_div hpos]
  have hpow : (10 : ℚ) ^ p = 10 ^ ds.length * 10 ^ (p - ds.length) := by
    rw [← pow_add, Nat.add_sub_cancel' hds.length_le]
  refine ⟨_, ds, ⟨?_, numeral_ne_nil, ?_, hds.length_le, ?_⟩, rfl⟩
  · intro d hd
    rcases List.mem_append.mp hd with hd | hd
    · exact lt_of_mem_numeral (by omega) hd
    · exact hds.digits d hd
  · exact head?_numeral_ne_zero
  · rw [hfloor, horner_numeral]
    push_cast
    rw [hpow]
    field_simp

theorem take_two_grouped_ne (on : Bool) (sep : Uint8) (n : Nat) (rest : Text) :
    (grouped on sep (numeral 10 n) ++ rest).take 2 ≠ ascii "< " := by
  obtain ⟨d, es, hcons, hds, -⟩ := decimal_cons n
  have hd : digitText d ≠ 0x3c := by
    rw [digitText, if_pos (hds d (.head _))]
    have := hds d (.head _)
    bv_omega
  rw [hcons, grouped, List.cons_append, List.take_succ_cons]
  exact fun h => hd (List.cons.inj h).1

/-- A balance below the precision is shown as such, every other one is rounded down to it. -/
theorem format_balance_text {k p : Nat} (hk : k ≤ 38) (hp : p ≤ k) (balance : Uint128)
    (groupDigits : Bool) (sep point : Uint8) :
    ∃ text,
      formatBalance balance (BitVec.ofNat 128 (10 ^ k)) p groupDigits sep point [3] =
        some text ∧
      (text.take 2 = ascii "< " ↔ 0 < balance.toNat ∧ balance.toNat < 10 ^ k / 10 ^ p) ∧
      (text.take 2 = ascii "< " → Shows false sep point p (1 / 10 ^ p) (text.drop 2)) ∧
      (text.take 2 ≠ ascii "< " →
        Shows (groupDigits && decide (sep ≠ 0)) sep point p
          ((balance.toNat * 10 ^ p / 10 ^ k : ℕ) / 10 ^ p) text) := by
  rw [formatBalance_eq balance p groupDigits sep point hk, if_neg (by omega)]
  by_cases hbelow : 0 < balance.toNat ∧ balance.toNat < 10 ^ k / 10 ^ p
  · have hstart : (belowPrecision point p).take 2 = ascii "< " := rfl
    exact ⟨_, if_pos hbelow, iff_of_true hstart hbelow,
      fun _ => shows_belowPrecision sep point p, fun h => absurd hstart h⟩
  · have hinteger : formatDec (balance.toNat / 10 ^ k)
        (if groupDigits = true ∧ ([3] : Text).length > 0 then sep else 0) [3] =
        grouped (groupDigits && decide (sep ≠ 0)) sep (numeral 10 (balance.toNat / 10 ^ k)) :=
      formatDec_eq ((Nat.div_le_self _ _).trans_lt balance.isLt)
        (by cases groupDigits <;> simp) (by cases groupDigits <;> simp)
    have hrem : balance.toNat % 10 ^ k < 10 ^ k := Nat.mod_lt _ (Nat.pow_pos (by omega))
    rw [if_neg hbelow, hinteger]
    obtain ⟨ds, htext, hds⟩ := appendFrac_eq
      (grouped (groupDigits && decide (sep ≠ 0)) sep (numeral 10 (balance.toNat / 10 ^ k))) p hrem
      point
    have hstart := take_two_grouped_ne (groupDigits && decide (sep ≠ 0)) sep
      (balance.toNat / 10 ^ k) (fractionText point ds)
    exact ⟨_, htext, iff_of_false hstart hbelow, fun h => absurd h hstart,
      fun _ => shows_quotient hds _ sep point⟩

theorem format_balance_text_of_cents :
    2 ≤ 38 ∧ 1 ≤ 2 ∧ ∃ text,
      formatBalance 1234567 (BitVec.ofNat 128 (10 ^ 2)) 1 true 0x2c 0x2e [3] = some text ∧
        Shows true 0x2c 0x2e 1 (123456 / 10) text := by
  obtain ⟨text, htext, hbelow, -, hshows⟩ :=
    format_balance_text (by omega : 2 ≤ 38) (by omega : 1 ≤ 2) 1234567 true 0x2c 0x2e
  have h := hshows (fun h => absurd (hbelow.mp h).2 (by decide))
  exact ⟨by omega, by omega, text, htext, by simpa using h⟩

end Badem
