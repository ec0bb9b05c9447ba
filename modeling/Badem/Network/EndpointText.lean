import Badem.Core.PeerContainer
import Badem.Text.Decimals

/-!
# Endpoints read from text

Which texts `parse_address_port` accepts, for any parser of addresses.
-/

namespace Badem

/-! ## Ports -/

/-- What is read as a number: blanks, at most one sign and digits. -/
structure NumberText (text blanks sign digits : Text) (value : Nat) : Prop where
  eq : text = blanks ++ (sign ++ digits)
  blanks : ∀ c ∈ blanks, isSpace c = true
  sign : sign = [] ∨ sign = ascii "+" ∨ sign = ascii "-"
  value : parseDigits 10 0 digits = some value
  ne_nil : digits ≠ []

/-- The port of a number with its sign. -/
def portOf (sign : Text) (value : Nat) : BitVec 16 :=
  if sign = ascii "-" then -BitVec.ofNat 16 value else BitVec.ofNat 16 value

theorem range_of_mem {digits : Text} {value : Nat} (h : parseDigits 10 0 digits = some value)
    {c : Uint8} (hc : c ∈ digits) : 0x30 ≤ c ∧ c ≤ 0x39 := by
  obtain ⟨ds, rfl, hds, -⟩ := exists_digits_of_parseDigits h
  obtain ⟨d, hd, rfl⟩ := List.mem_map.mp hc
  rw [digitText, if_pos (hds d hd)]
  have hlt := hds d hd
  bv_omega

theorem digit_facts {c : Uint8} (h : 0x30 ≤ c ∧ c ≤ 0x39) :
    isSpace c = false ∧ isSign c = false ∧ c ≠ 0x3a := by
  revert c
  decide +kernel

namespace NumberText

variable {text blanks sign digits : Text} {value : Nat}

theorem split (h : NumberText text blanks sign digits value) :
    text.dropWhile isSpace = sign ++ digits ∧
      (if (sign ++ digits).head?.any isSign then (sign ++ digits).tail else sign ++ digits) =
        digits ∧
      ((sign ++ digits).head? = some 0x2d ↔ sign = ascii "-") := by
  obtain ⟨c, cs, hcons⟩ := List.exists_cons_of_ne_nil h.ne_nil
  obtain ⟨hspace, hsign, -⟩ := digit_facts (range_of_mem h.value (hcons ▸ List.mem_cons_self))
  have hminus : c ≠ 0x2d := head_ne_minus hsign
  rw [h.eq, List.dropWhile_append_of_pos h.blanks, hcons]
  rcases h.sign with rfl | rfl | rfl
  · refine ⟨List.dropWhile_cons_of_neg (by simp [hspace]), if_neg (by simp [hsign]), ?_⟩
    exact iff_of_false (fun hhead => hminus (Option.some.inj hhead)) (by decide)
  · exact ⟨rfl, rfl, iff_of_false (fun hhead => by cases hhead) (by decide)⟩
  · exact ⟨rfl, rfl, iff_of_true rfl rfl⟩

theorem plain (h : NumberText text blanks sign digits value) {value' : Nat}
    (h' : parseDigits 10 0 text = some value') : blanks = [] ∧ sign = [] ∧ value = value' := by
  have hblanks : blanks = [] := by
    refine List.eq_nil_iff_forall_not_mem.mpr fun c hc => ?_
    have hfacts := digit_facts (range_of_mem h' (h.eq ▸ List.mem_append_left _ hc))
    simp [h.blanks c hc] at hfacts
  have hsign : sign = [] := by
    refine List.eq_nil_iff_forall_not_mem.mpr fun c hc => ?_
    have hmem : c ∈ text := h.eq ▸ List.mem_append_right _ (List.mem_append_left _ hc)
    have hc' : isSign c = true := by
      rcases h.sign with rfl | rfl | rfl
      · cases hc
      · rw [List.mem_singleton.mp hc]
        rfl
      · rw [List.mem_singleton.mp hc]
        rfl
    have hfacts := digit_facts (range_of_mem h' hmem)
    simp [hc'] at hfacts
  subst hblanks hsign
  have hvalue := h.value
  rw [← List.nil_append digits, ← List.nil_append ([] ++ digits), ← h.eq, h'] at hvalue
  exact ⟨rfl, rfl, (Option.some.inj hvalue).symm⟩

theorem colon_notMem (h : NumberText text blanks sign digits value) : 0x3a ∉ text := by
  rw [h.eq, List.mem_append, List.mem_append]
  rintro (hc | hc | hc)
  · exact absurd (h.blanks _ hc) (by decide)
  · rcases h.sign with rfl | rfl | rfl
    · cases hc
    · exact absurd hc (by decide)
    · exact absurd hc (by decide)
  · exact (digit_facts (range_of_mem h.value hc)).2.2 rfl

end NumberText

theorem exists_sign (signed : Text) :
    ∃ sign, (sign = [] ∨ sign = ascii "+" ∨ sign = ascii "-") ∧
      signed = sign ++ (if signed.head?.any isSign then signed.tail else signed) ∧
      (signed.head? = some 0x2d ↔ sign = ascii "-") := by
  match signed with
  | [] => exact ⟨[], by decide⟩
  | c :: cs =>
    by_cases hc : isSign c = true
    · have hcases : c = 0x2b ∨ c = 0x2d := of_decide_eq_true hc
      rcases hcases with rfl | rfl
      · exact ⟨ascii "+", .inr (.inl rfl), rfl, iff_of_false (fun h => by cases h) (by decide)⟩
      · exact ⟨ascii "-", .inr (.inr rfl), rfl, iff_of_true rfl rfl⟩
    · refine ⟨[], .inl rfl, (if_neg hc).symm, iff_of_false (fun h => ?_) (by decide)⟩
      obtain rfl := Option.some.inj h
      exact hc rfl

theorem parsePort_eq_some_iff (text : Text) (port : BitVec 16) :
    parsePort text = some port ↔
      ∃ blanks sign digits value, NumberText text blanks sign digits value ∧ value < 2 ^ 64 ∧
        text.length ≤ 65535 ∧ port = portOf sign value := by
  have hport : ∀ (sign : Text) (value : Nat),
      (if sign = ascii "-" then -BitVec.ofNat 64 value else BitVec.ofNat 64 value).setWidth 16 =
        portOf sign value := by
    intro sign value
    rw [portOf]
    split_ifs <;> bv_omega
  rw [parsePort, stoul]
  constructor
  · intro h
    obtain ⟨sign, hsign, hsigned, hminus⟩ := exists_sign (text.dropWhile isSpace)
    obtain ⟨⟨value, converted⟩, hread, haccepted⟩ := Option.bind_eq_some_iff.mp h
    obtain ⟨n, hn, hsome⟩ := Option.bind_eq_some_iff.mp hread
    generalize hunsigned : (if (text.dropWhile isSpace).head?.any isSign then
      (text.dropWhile isSpace).tail else text.dropWhile isSpace) = unsigned at hsigned hn hsome
    have htext : text = text.takeWhile isSpace ++ (sign ++ unsigned) := by
      rw [← hsigned, List.takeWhile_append_dropWhile]
    obtain ⟨hfits, hsome⟩ := Option.ite_none_right_eq_some.mp hsome
    cases hsome
    dsimp only at haccepted
    obtain ⟨hrefused, hvalue⟩ := Option.ite_none_left_eq_some.mp haccepted
    obtain ⟨hwhole, hshort⟩ := not_or.mp hrefused
    have hlength : unsigned.length ≤ text.length := by
      have hall := congrArg List.length htext
      simp only [List.length_append] at hall
      omega
    have hdigits := (List.takeWhile_prefix _).eq_of_length
      (show (unsigned.takeWhile (fun c => decide (0x30 ≤ c ∧ c ≤ 0x39))).length =
        unsigned.length by omega)
    rw [hdigits] at hn hfits
    refine ⟨_, sign, unsigned, n, ⟨htext, fun c hc => List.all_eq_true.mp List.all_takeWhile c hc,
      hsign, hn, hfits.1⟩, hfits.2, by omega, ?_⟩
    rw [← hport, ← Option.some.inj hvalue]
    simp only [hminus]
  · rintro ⟨blanks, sign, digits, value, h, hlt, hle, rfl⟩
    obtain ⟨hdrop, hunsigned, hminus⟩ := h.split
    have hdigits : digits.takeWhile (fun c => decide (0x30 ≤ c ∧ c ≤ 0x39)) = digits :=
      List.takeWhile_eq_self_iff.mpr fun c hc => decide_eq_true (range_of_mem h.value hc)
    have hlength : text.length - digits.length + digits.length = text.length := by
      have hall := congrArg List.length h.eq
      simp only [List.length_append] at hall
      omega
    simp only [hdrop, hunsigned, hdigits, h.value, Option.bind_some, Option.bind_eq_bind,
      if_pos (And.intro h.ne_nil hlt), hlength, hminus]
    rw [if_neg (by omega), ← hport]
    rfl

/-! ## Endpoints -/

theorem rfind_append {c : Uint8} (front : Text) {back : Text} (hc : c ∉ back) :
    rfind c (front ++ c :: back) = some front.length := by
  rw [rfind, if_pos (by simp), List.reverse_append, List.reverse_cons, List.append_assoc,
    List.idxOf_append_of_notMem (by simpa using hc)]
  simp

theorem rfind_cases (c : Uint8) (text : Text) :
    rfind c text = none ∧ c ∉ text ∨
      ∃ front back, text = front ++ c :: back ∧ c ∉ back ∧
        rfind c text = some front.length := by
  by_cases hc : c ∈ text
  · obtain ⟨back, front, hsplit, hback⟩ := List.eq_append_cons_of_mem (List.mem_reverse.mpr hc)
    have htext : text = front.reverse ++ c :: back.reverse := by
      rw [← List.reverse_reverse text, hsplit]
      simp
    have hback' : c ∉ back.reverse := by simpa using hback
    refine .inr ⟨front.reverse, back.reverse, htext, hback', ?_⟩
    rw [htext, rfind_append _ hback']
  · exact .inl ⟨if_neg (by simpa using hc), hc⟩

section EndpointText

variable {α : Type} (fromString : Text → Option α)

/-- An address, a colon and a decimal number. -/
structure EndpointText (text front back : Text) (address : α) (value : Nat) : Prop where
  eq : text = front ++ 0x3a :: back
  address : fromString front = some address
  value : parseDigits 10 0 back = some value
  ne_nil : back ≠ []

/-- An address, a colon and what is read as a number. -/
structure SpelledEndpoint (text front back blanks sign digits : Text) (address : α)
    (value : Nat) : Prop where
  eq : text = front ++ 0x3a :: back
  address : fromString front = some address
  number : NumberText back blanks sign digits value

variable {fromString} {text front back blanks sign digits : Text} {address : α} {value : Nat}

theorem EndpointText.spelled (h : EndpointText fromString text front back address value) :
    SpelledEndpoint fromString text front back [] [] back address value :=
  ⟨h.eq, h.address, rfl, by simp, .inl rfl, h.value, h.ne_nil⟩

theorem SpelledEndpoint.plain
    (h : SpelledEndpoint fromString text front back [] [] digits address value) :
    EndpointText fromString text front back address value := by
  obtain rfl : back = digits := h.number.eq
  exact ⟨h.eq, h.address, h.number.value, h.number.ne_nil⟩

theorem SpelledEndpoint.unique {front' back' : Text} {address' : α} {value' : Nat}
    (h : SpelledEndpoint fromString text front back blanks sign digits address value)
    (h' : EndpointText fromString text front' back' address' value') :
    front = front' ∧ back = back' ∧ blanks = [] ∧ sign = [] ∧ value = value' := by
  have hfind := rfind_append front h.number.colon_notMem
  rw [← h.eq, h'.eq, rfind_append front' h'.spelled.number.colon_notMem] at hfind
  obtain ⟨hfront, hback⟩ := List.append_inj (h.eq.symm.trans h'.eq) (Option.some.inj hfind).symm
  obtain rfl := (List.cons.inj hback).2
  exact ⟨hfront, rfl, h.number.plain h'.value⟩

theorem parseAddressPort_eq_some_iff (r : α × BitVec 16) :
    parseAddressPort fromString text = some r ↔
      ∃ front back blanks sign digits value,
        SpelledEndpoint fromString text front back blanks sign digits r.1 value ∧ front ≠ [] ∧
        value < 2 ^ 64 ∧ back.length ≤ 65535 ∧ r.2 = portOf sign value := by
  rw [parseAddressPort]
  constructor
  · intro h
    obtain ⟨position, hfind, h⟩ := Option.bind_eq_some_iff.mp h
    split_ifs at h with hpos
    obtain ⟨port, hport, h⟩ := Option.bind_eq_some_iff.mp h
    obtain ⟨address, haddress, h⟩ := Option.bind_eq_some_iff.mp h
    cases h
    obtain ⟨hnone, -⟩ | ⟨front, back, rfl, -, hfront⟩ := rfind_cases 0x3a text
    · cases hnone.symm.trans hfind
    · cases hfront.symm.trans hfind
      have hback : (front ++ 0x3a :: back).drop (front.length + 1) = back := by simp
      rw [hback] at hport
      rw [List.take_left] at haddress
      obtain ⟨blanks, sign, digits, value, hnumber, hlt, hle, rfl⟩ :=
        (parsePort_eq_some_iff _ _).mp hport
      exact ⟨front, back, blanks, sign, digits, value, ⟨rfl, haddress, hnumber⟩,
        List.length_pos_iff.mp hpos, hlt, hle, rfl⟩
  · rintro ⟨front, back, blanks, sign, digits, value, h, hfront, hlt, hle, hport⟩
    have hread := (parsePort_eq_some_iff back r.2).mpr ⟨_, _, _, value, h.number, hlt, hle, hport⟩
    rw [h.eq, rfind_append front h.number.colon_notMem]
    simp [List.length_pos_iff.mpr hfront, hread, h.address]

/-- The texts of endpoints that are refused, and the texts that are accepted although they have
blanks or a sign or a number that is no port. -/
def Misparsed (fromString : Text → Option α) (text : Text) : Prop :=
  (∃ front back address value, EndpointText fromString text front back address value ∧
    value ≤ 65535 ∧ (front = [] ∨ 65535 < back.length)) ∨
  ∃ front back blanks sign digits address value,
    SpelledEndpoint fromString text front back blanks sign digits address value ∧
    (blanks ≠ [] ∨ sign ≠ [] ∨ 65535 < value) ∧ value < 2 ^ 64 ∧ front ≠ [] ∧ back.length ≤ 65535

/-- Endpoints are read faithfully exactly if they are not misparsed. -/
theorem parse_address_port_iff :
    (∀ r, parseAddressPort fromString text = some r ↔
        ∃ front back value, EndpointText fromString text front back r.1 value ∧
          value ≤ 65535 ∧ r.2 = BitVec.ofNat 16 value) ↔
      ¬ Misparsed fromString text := by
  constructor
  · rintro hclaim (⟨front, back, address, value, h, hport, hcase⟩ |
      ⟨front, back, blanks, sign, digits, address, value, h, hcase, hlt, hfront, hle⟩)
    · have hparse := (hclaim (address, BitVec.ofNat 16 value)).mpr ⟨_, _, _, h, hport, rfl⟩
      obtain ⟨front', back', _, _, _, _, h', hfront, -, hle, -⟩ :=
        (parseAddressPort_eq_some_iff _).mp hparse
      obtain ⟨rfl, rfl, -⟩ := h'.unique h
      rcases hcase with hnil | hlong
      · exact hfront hnil
      · omega
    · have hparse := (parseAddressPort_eq_some_iff (address, portOf sign value)).mpr
        ⟨_, _, _, _, _, _, h, hfront, hlt, hle, rfl⟩
      obtain ⟨front', back', value', h', hport', -⟩ := (hclaim _).mp hparse
      obtain ⟨-, -, rfl, rfl, rfl⟩ := h.unique h'
      simp only [ne_eq, not_true_eq_false, false_or] at hcase
      omega
  · intro hright r
    rw [parseAddressPort_eq_some_iff]
    constructor
    · rintro ⟨front, back, blanks, sign, digits, value, h, hfront, hlt, hle, hport⟩
      have hcase : ¬ (blanks ≠ [] ∨ sign ≠ [] ∨ 65535 < value) := fun hcase =>
        hright (.inr ⟨front, back, blanks, sign, digits, r.1, value, h, hcase, hlt, hfront, hle⟩)
      obtain ⟨hblanks, hsign, hvalue⟩ := not_or.mp hcase |>.imp not_not.mp fun hrest =>
        (not_or.mp hrest).imp not_not.mp not_lt.mp
      subst hblanks hsign
      exact ⟨front, back, value, h.plain, hvalue, hport⟩
    · rintro ⟨front, back, value, h, hvalue, hport⟩
      refine ⟨front, back, [], [], back, value, h.spelled, fun hnil => ?_, by omega, ?_, hport⟩
      · exact hright (.inl ⟨front, back, r.1, value, h, hvalue, Or.inl hnil⟩)
      · by_contra hlong
        exact hright (.inl ⟨front, back, r.1, value, h, hvalue, Or.inr (by omega)⟩)

/-- An address parser that only knows the local address. -/
def localAddress (address : Text) : Option Nat := if address = ascii "::1" then some 1 else none

/-- The port 65616 is read as port 80, and the port -80 as 65456. -/
theorem parse_address_port_wraps :
    parseAddressPort localAddress (ascii "::1:65616") = some (1, 80) ∧
      parseAddressPort localAddress (ascii "::1: +80") = some (1, 80) ∧
      parseAddressPort localAddress (ascii "::1:-80") = some (1, 65456) := by
  decide +kernel

end EndpointText

end Badem
