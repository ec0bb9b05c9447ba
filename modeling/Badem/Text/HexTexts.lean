import Badem.Text.Numbers

/-!
# Texts that are read as hexadecimal numbers

`decode_hex` reads more than the digits of a number: blanks in front, one minus sign or `0x`,
and a text of blanks only, which stands for zero.
-/

namespace Badem

open Codec

/-! ## The grammar -/

/-- A text of hexadecimal digits. -/
def HexDigits (text : Text) : Prop := ∀ c ∈ text, (digitValue c).isSome = true

/-- The number that is written by hexadecimal digits. -/
def hexValue (text : Text) : Nat := horner 16 0 (text.map fun c => (digitValue c).getD 0)

/-- A number of 256 bits, written by hexadecimal digits. -/
structure HexNumber (text : Text) (x : Uint256) : Prop where
  nonempty : text ≠ []
  length_le : text.length ≤ 64
  digits : HexDigits text
  value : x = BitVec.ofNat 256 (hexValue text)

/-- What is read as a number after the blanks: nothing at all, and digits, which may follow
`0x` or a minus sign. -/
inductive ReadsHex : Text → Uint256 → Prop
  | blank : ReadsHex [] 0
  | digits {text} : text ≠ [] → HexDigits text → ReadsHex text (BitVec.ofNat 256 (hexValue text))
  | radix {text} : HexDigits text →
      ReadsHex (ascii "0x" ++ text) (BitVec.ofNat 256 (hexValue text))
  | minus {text} : text ≠ [] → HexDigits text →
      ReadsHex (ascii "-" ++ text) (-BitVec.ofNat 256 (hexValue text))

/-- A text of 1 to 64 characters that is read as a number. -/
structure ReadsNumber (text : Text) (x : Uint256) : Prop where
  nonempty : text ≠ []
  length_le : text.length ≤ 64
  reads : ∃ blanks rest, text = blanks ++ rest ∧ (∀ c ∈ blanks, isSpace c = true) ∧ ReadsHex rest x

theorem HexNumber.readsNumber {text : Text} {x : Uint256} (h : HexNumber text x) :
    ReadsNumber text x :=
  ⟨h.nonempty, h.length_le, [], text, rfl, by simp, h.value ▸ .digits h.nonempty h.digits⟩

theorem digitValue_facts {c : Uint8} (h : (digitValue c).isSome = true) :
    (digitValue c).getD 0 < 16 ∧ isSpace c = false ∧ isSign c = false ∧
      c ∈ ascii "+-xXabcdefABCDEF0123456789" ∧ c ≠ 0x78 := by
  revert c
  decide +kernel

theorem parseDigits_eq_some_iff {text : Text} {n v : Nat} :
    parseDigits 16 n text = some v ↔
      HexDigits text ∧ v = horner 16 n (text.map fun c => (digitValue c).getD 0) := by
  induction text generalizing n with
  | nil =>
    simp only [parseDigits, HexDigits, List.map_nil, horner, Option.some.injEq, List.not_mem_nil,
      false_imp_iff, implies_true, true_and]
    exact eq_comm
  | cons c cs ih =>
    rw [parseDigits]
    cases hc : digitValue c with
    | none => simp [HexDigits, hc]
    | some d =>
      have hd : d < 16 := by
        have h := (digitValue_facts (c := c) (by simp [hc])).1
        rwa [hc] at h
      simp only [hd, if_true]
      rw [ih]
      simp [HexDigits, hc, horner]

theorem parse_sign {c : Uint8} (hc : isSign c = true) (cs : Text) :
    splitRadix (c :: cs) = (10, c :: cs) ∧ parseDigits 10 0 (c :: cs) = none := by
  have hvalue : c ≠ 0x30 ∧ digitValue c = none := by
    revert c
    decide +kernel
  refine ⟨?_, by simp [parseDigits, hvalue.2]⟩
  cases cs <;> exact if_neg hvalue.1

theorem assignText_signs {signs : Text} (hsigns : ∀ c ∈ signs, isSign c = true) (rest : Text) :
    assignText (signs ++ ascii "0x" ++ rest) =
      if signs = [] then (parseDigits 16 0 rest).map (fun n => (false, n))
      else if signs = ascii "-" then (parseDigits 16 0 rest).map (fun n => (true, n))
      else none := by
  match signs with
  | [] => rfl
  | c :: cs =>
    rw [if_neg (by simp), assignText]
    by_cases hminus : c = 0x2d
    · have hsplit : splitSign (c :: cs ++ ascii "0x" ++ rest) = (true, cs ++ ascii "0x" ++ rest) :=
        if_pos hminus
      rw [hsplit]
      cases cs with
      | nil =>
        rw [if_pos (by rw [hminus]; rfl)]
        rfl
      | cons d ds =>
        obtain ⟨hradix, hparse⟩ := parse_sign (hsigns d (by simp)) (ds ++ ascii "0x" ++ rest)
        rw [if_neg fun h => by cases (List.cons.inj h).2]
        simp only [List.cons_append, hradix, hparse, Option.map_none]
    · obtain ⟨hradix, hparse⟩ := parse_sign (hsigns c (.head _)) (cs ++ ascii "0x" ++ rest)
      have hsplit : splitSign (c :: cs ++ ascii "0x" ++ rest) =
          (false, c :: (cs ++ ascii "0x" ++ rest)) := if_neg hminus
      have hne : c :: cs ≠ ascii "-" := fun h => hminus (List.cons.inj h).1
      rw [if_neg hne, hsplit]
      simp only [hradix, hparse, Option.map_none]

theorem insertRadix_of_radix (text : Text) :
    insertRadix (ascii "0x" ++ text) = some (ascii "0x" ++ text) :=
  if_pos rfl

theorem insertRadix_of_signs {signs rest : Text} (hsigns : ∀ c ∈ signs, isSign c = true)
    (hrest : ∃ c cs, rest = c :: cs ∧ isSign c = false)
    (hradix : (signs ++ rest).take 2 ≠ ascii "0x") :
    insertRadix (signs ++ rest) = some (signs ++ ascii "0x" ++ rest) := by
  obtain ⟨c, cs, rfl, hc⟩ := hrest
  have htake : (signs ++ c :: cs).takeWhile isSign = signs := by
    rw [List.takeWhile_append_of_pos hsigns, List.takeWhile_cons_of_neg (by simp [hc]),
      List.append_nil]
  have hdrop : (signs ++ c :: cs).dropWhile isSign = c :: cs := by
    rw [List.dropWhile_append_of_pos hsigns, List.dropWhile_cons_of_neg (by simp [hc])]
  rw [insertRadix, if_neg hradix, htake, hdrop]
  rfl

theorem HexDigits.exists_cons {text : Text} (h : HexDigits text) (hne : text ≠ []) :
    ∃ c cs, text = c :: cs ∧ isSpace c = false ∧ isSign c = false := by
  obtain ⟨c, cs, rfl⟩ := List.exists_cons_of_ne_nil hne
  obtain ⟨-, hspace, hsign, -⟩ := digitValue_facts (h c (.head _))
  exact ⟨c, cs, rfl, hspace, hsign⟩

theorem HexDigits.take_two_ne {text : Text} (h : HexDigits text) : text.take 2 ≠ ascii "0x" := by
  intro htake
  have hmem : (0x78 : Uint8) ∈ text.take 2 := by
    rw [htake]
    decide
  replace hmem := List.mem_of_mem_take hmem
  exact (digitValue_facts (h _ hmem)).2.2.2.2 rfl

theorem HexDigits.permitted {text : Text} (h : HexDigits text) :
    ∀ c ∈ text, c ∈ ascii "+-xXabcdefABCDEF0123456789" :=
  fun c hc => (digitValue_facts (h c hc)).2.2.2.1

theorem ReadsHex.permitted {text : Text} {x : Uint256} (h : ReadsHex text x) :
    ∀ c ∈ text, c ∈ ascii "+-xXabcdefABCDEF0123456789" := by
  have hradix : ∀ c ∈ ascii "0x", c ∈ ascii "+-xXabcdefABCDEF0123456789" := by decide
  have hminus : ∀ c ∈ ascii "-", c ∈ ascii "+-xXabcdefABCDEF0123456789" := by decide
  cases h with
  | blank => simp
  | digits _ hdigits => exact hdigits.permitted
  | radix hdigits => exact fun c hc => (List.mem_append.mp hc).elim (hradix c) (hdigits.permitted c)
  | minus _ hdigits =>
    exact fun c hc => (List.mem_append.mp hc).elim (hminus c) (hdigits.permitted c)

theorem ReadsHex.dropWhile_eq {text : Text} {x : Uint256} (h : ReadsHex text x) :
    text.dropWhile isSpace = text := by
  cases h with
  | blank => rfl
  | digits hne hdigits =>
    obtain ⟨c, cs, rfl, hspace, -⟩ := hdigits.exists_cons hne
    exact List.dropWhile_cons_of_neg (by simp [hspace])
  | radix => rfl
  | minus => rfl

theorem parseDigits_of_digits {text : Text} (h : HexDigits text) :
    parseDigits 16 0 text = some (hexValue text) :=
  parseDigits_eq_some_iff.mpr ⟨h, rfl⟩

/-- The assignment of the characters that a stream has taken. -/
def assignHex (s : Text) : Option Uint256 :=
  if s.isEmpty then some 0
  else do
    let (negative, n) ← assignText (← insertRadix s)
    pure (if negative then -BitVec.ofNat 256 n else BitVec.ofNat 256 n)

theorem extractHex_eq (text : Text) :
    extractHex 256 text =
      (readWhile (ascii "+-xXabcdefABCDEF0123456789") text).bind assignHex :=
  rfl

theorem assignHex_radix (text : Text) :
    assignHex (ascii "0x" ++ text) = (parseDigits 16 0 text).map (BitVec.ofNat 256) := by
  have hassign := @assignText_signs [] (by simp) text
  rw [if_pos rfl, List.nil_append] at hassign
  rw [assignHex, if_neg (by simp [ascii]), insertRadix_of_radix]
  simp only [Option.bind_eq_bind, Option.bind_some, hassign]
  cases parseDigits 16 0 text <;> rfl

theorem assignHex_signs {signs rest : Text} (hsigns : ∀ c ∈ signs, isSign c = true)
    (hrest : ∃ c cs, rest = c :: cs ∧ isSign c = false)
    (hradix : (signs ++ rest).take 2 ≠ ascii "0x") :
    assignHex (signs ++ rest) =
      if signs = [] then (parseDigits 16 0 rest).map (BitVec.ofNat 256)
      else if signs = ascii "-" then (parseDigits 16 0 rest).map fun n => -BitVec.ofNat 256 n
      else none := by
  have hne : ¬ (signs ++ rest).isEmpty = true := by
    obtain ⟨c, cs, rfl, -⟩ := hrest
    simp
  rw [assignHex, if_neg hne, insertRadix_of_signs hsigns hrest hradix]
  simp only [Option.bind_eq_bind, Option.bind_some, assignText_signs hsigns]
  split_ifs
  · cases parseDigits 16 0 rest <;> rfl
  · cases parseDigits 16 0 rest <;> rfl
  · rfl

theorem assignHex_eq_some_iff {s : Text} {x : Uint256} : assignHex s = some x ↔ ReadsHex s x := by
  have hparse : ∀ (f : Nat → Uint256) {text : Text},
      (parseDigits 16 0 text).map f = some x ↔ HexDigits text ∧ f (hexValue text) = x := by
    intro f text
    rw [Option.map_eq_some_iff]
    simp only [parseDigits_eq_some_iff]
    constructor
    · rintro ⟨n, ⟨hdigits, rfl⟩, hx⟩
      exact ⟨hdigits, hx⟩
    · rintro ⟨hdigits, hx⟩
      exact ⟨_, ⟨hdigits, rfl⟩, hx⟩
  constructor
  · intro h
    by_cases hempty : s = []
    · subst hempty
      cases h
      exact .blank
    by_cases hradix : s.take 2 = ascii "0x"
    · rw [← List.take_append_drop 2 s, hradix] at h ⊢
      rw [assignHex_radix, hparse] at h
      obtain ⟨hdigits, rfl⟩ := h
      exact .radix hdigits
    · have hsplit : s.takeWhile isSign ++ s.dropWhile isSign = s := List.takeWhile_append_dropWhile
      have hsigns : ∀ c ∈ s.takeWhile isSign, isSign c = true :=
        fun c hc => List.all_eq_true.mp List.all_takeWhile c hc
      cases hrest : s.dropWhile isSign with
      | nil =>
        rw [assignHex, if_neg (by simpa using hempty), insertRadix, if_neg hradix, hrest] at h
        cases h
      | cons c cs =>
        have hc : isSign c = false := by
          have hhead := List.head?_dropWhile_not isSign s
          rw [hrest] at hhead
          simpa using hhead
        rw [← hsplit] at h hradix ⊢
        rw [assignHex_signs hsigns ⟨c, cs, hrest, hc⟩ hradix] at h
        have hne : s.dropWhile isSign ≠ [] := by simp [hrest]
        split_ifs at h with hnone hminus
        · obtain ⟨hdigits, rfl⟩ := (hparse _).mp h
          rw [hnone, List.nil_append]
          exact .digits hne hdigits
        · obtain ⟨hdigits, rfl⟩ := (hparse _).mp h
          rw [hminus]
          exact .minus hne hdigits
  · intro h
    cases h with
    | blank => rfl
    | digits hne hdigits =>
      obtain ⟨c, cs, hcons, -, hsign⟩ := hdigits.exists_cons hne
      have hassign := @assignHex_signs [] s (by simp) ⟨c, cs, hcons, hsign⟩ hdigits.take_two_ne
      rw [if_pos rfl] at hassign
      exact hassign.trans ((hparse _).mpr ⟨hdigits, rfl⟩)
    | radix hdigits =>
      rw [assignHex_radix]
      exact (hparse _).mpr ⟨hdigits, rfl⟩
    | @minus text hne hdigits =>
      obtain ⟨c, cs, hcons, -, hsign⟩ := hdigits.exists_cons hne
      have hassign := @assignHex_signs (ascii "-") text (by decide) ⟨c, cs, hcons, hsign⟩
        (by rw [hcons]; exact fun h => absurd (List.cons.inj h).1 (by decide))
      rw [if_neg (by decide), if_pos rfl] at hassign
      exact hassign.trans ((hparse _).mpr ⟨hdigits, rfl⟩)

theorem Uint256.decodeHex_eq_some_iff {text : Text} {x : Uint256} :
    Uint256.decodeHex text = some x ↔ ReadsNumber text x := by
  have hreads : extractHex 256 text = some x ↔ ∃ blanks rest, text = blanks ++ rest ∧
      (∀ c ∈ blanks, isSpace c = true) ∧ ReadsHex rest x := by
    rw [extractHex_eq, Option.bind_eq_some_iff]
    simp only [assignHex_eq_some_iff]
    constructor
    · rintro ⟨s, hs, hx⟩
      rw [readWhile] at hs
      split_ifs at hs
      cases hs
      exact ⟨text.takeWhile isSpace, _, List.takeWhile_append_dropWhile.symm,
        fun c hc => List.all_eq_true.mp List.all_takeWhile c hc, hx⟩
    · rintro ⟨blanks, rest, rfl, hblanks, hx⟩
      refine ⟨rest, ?_, hx⟩
      rw [readWhile, List.dropWhile_append_of_pos hblanks, hx.dropWhile_eq]
      exact if_pos (List.all_eq_true.mpr fun c hc => decide_eq_true (hx.permitted c hc))
  rw [Uint256.decodeHex]
  constructor
  · intro h
    split_ifs at h with hlen
    exact ⟨List.length_pos_iff.mp (Nat.pos_of_ne_zero hlen.1), hlen.2, hreads.mp h⟩
  · rintro ⟨hne, hle, h⟩
    rw [if_pos ⟨(List.length_pos_iff.mpr hne).ne', hle⟩]
    exact hreads.mpr h

end Badem
