import Mathlib.Data.Nat.Digits.Lemmas
import Mathlib.Tactic.Ring

/-!
# Numerals of fixed width

Digits of a number in an arbitrary base, as the usual loops produce and read them, tied to
`Nat.ofDigits`.  Numerals of equal width are ordered like the numbers they write.
-/

namespace Codec

def lowDigits (b : Nat) : Nat → Nat → List Nat
  | 0, _ => []
  | w + 1, n => n % b :: lowDigits b w (n / b)

theorem lowDigits_succ (b w n : Nat) :
    lowDigits b (w + 1) n = lowDigits b w n ++ [n / b ^ w % b] := by
  induction w generalizing n with
  | zero => simp [lowDigits]
  | succ w ih => rw [lowDigits, ih, lowDigits, List.cons_append, Nat.div_div_eq_div_mul, pow_succ']

def horner (b : Nat) : Nat → List Nat → Nat
  | n, [] => n
  | n, d :: ds => horner b (b * n + d) ds

@[simp] theorem length_lowDigits (b w n : Nat) : (lowDigits b w n).length = w := by
  induction w generalizing n with
  | zero => rfl
  | succ w ih => simp [lowDigits, ih]

variable {b w n d : Nat} {ds es : List Nat} {σ : Type} {symbol : Nat → σ}

theorem lt_of_mem_lowDigits (hb : 0 < b) (hd : d ∈ lowDigits b w n) : d < b := by
  induction w generalizing n with
  | zero => simp [lowDigits] at hd
  | succ w ih =>
    rcases List.mem_cons.mp hd with rfl | hrest
    · exact Nat.mod_lt _ hb
    · exact ih hrest

theorem ofDigits_lowDigits (b w n : Nat) : Nat.ofDigits b (lowDigits b w n) = n % b ^ w := by
  induction w generalizing n with
  | zero => simp [lowDigits, Nat.mod_one]
  | succ w ih => rw [lowDigits, Nat.ofDigits_cons, ih, pow_succ', Nat.mod_mul]

theorem lowDigits_ofDigits {l : List Nat} (hl : ∀ d ∈ l, d < b) :
    lowDigits b l.length (Nat.ofDigits b l) = l := by
  induction l with
  | nil => rfl
  | cons d l ih =>
    have hd : d < b := hl d (.head _)
    have hb : 0 < b := by omega
    have hrest := ih (fun x hx => hl x (.tail _ hx))
    rw [List.length_cons, lowDigits, Nat.ofDigits_cons, Nat.add_mul_mod_self_left,
      Nat.mod_eq_of_lt hd, Nat.add_mul_div_left _ _ hb, Nat.div_eq_of_lt hd, Nat.zero_add,
      hrest]

theorem horner_eq (b n : Nat) (ds : List Nat) :
    horner b n ds = b ^ ds.length * n + Nat.ofDigits b ds.reverse := by
  induction ds generalizing n with
  | nil => simp [horner]
  | cons d ds ih =>
    rw [horner, ih, List.reverse_cons, Nat.ofDigits_append, Nat.ofDigits_singleton,
      List.length_cons, List.length_reverse]
    ring

theorem horner_zero (b : Nat) (ds : List Nat) : horner b 0 ds = Nat.ofDigits b ds.reverse := by
  simp [horner_eq]

theorem ofDigits_reverse_lt (hb : 1 < b) (hds : ∀ d ∈ ds, d < b) :
    Nat.ofDigits b ds.reverse < b ^ ds.length := by
  have h := Nat.ofDigits_lt_base_pow_length hb
    (fun d hd => hds d (List.mem_reverse.mp hd) : ∀ d ∈ ds.reverse, d < b)
  rwa [List.length_reverse] at h

def Increasing {σ : Type} [LT σ] (b : Nat) (symbol : Nat → σ) : Prop :=
  ∀ d e, d < e → e < b → symbol d < symbol e

theorem map_lt_map_of_ofDigits_lt [LT σ] (hb : 1 < b) (hsymbol : Increasing b symbol)
    (hlen : ds.length = es.length) (hds : ∀ d ∈ ds, d < b) (hes : ∀ e ∈ es, e < b)
    (h : Nat.ofDigits b ds.reverse < Nat.ofDigits b es.reverse) :
    ds.map symbol < es.map symbol := by
  -- the highest digits decide unless they are equal
  induction ds generalizing es with
  | nil =>
    obtain rfl : es = [] := List.length_eq_zero_iff.mp hlen.symm
    exact absurd h (Nat.lt_irrefl _)
  | cons d ds ih =>
    cases es with
    | nil => simp at hlen
    | cons e es =>
      have hlen' : ds.length = es.length := by simpa using hlen
      have hds' : ∀ x ∈ ds, x < b := fun x hx => hds x (.tail _ hx)
      have hes' : ∀ x ∈ es, x < b := fun x hx => hes x (.tail _ hx)
      rw [List.reverse_cons, List.reverse_cons, Nat.ofDigits_append, Nat.ofDigits_append,
        Nat.ofDigits_singleton, Nat.ofDigits_singleton, List.length_reverse,
        List.length_reverse, hlen'] at h
      have hlow : Nat.ofDigits b es.reverse < b ^ es.length := ofDigits_reverse_lt hb hes'
      have hde : d ≤ e := by
        by_contra hed
        have hle : b ^ es.length * (e + 1) ≤ b ^ es.length * d :=
          Nat.mul_le_mul_left _ (by omega)
        rw [Nat.mul_succ] at hle
        omega
      rcases Nat.lt_or_eq_of_le hde with hlt | rfl
      · exact List.Lex.rel (hsymbol d e hlt (hes e (.head _)))
      · exact List.Lex.cons (ih hlen' hds' hes' (by omega))

theorem eq_of_map_eq_map (hsymbol : Set.InjOn symbol {d | d < b}) (hds : ∀ d ∈ ds, d < b)
    (hes : ∀ e ∈ es, e < b) (h : ds.map symbol = es.map symbol) : ds = es := by
  induction ds generalizing es with
  | nil => exact (List.map_eq_nil_iff.mp h.symm).symm
  | cons d ds ih =>
    cases es with
    | nil => simp at h
    | cons e es =>
      obtain ⟨hhead, htail⟩ := List.cons.inj h
      have hde : d = e :=
        hsymbol (hds d (.head _)) (hes e (.head _)) hhead
      rw [hde, ih (fun x hx => hds x (.tail _ hx))
        (fun x hx => hes x (.tail _ hx)) htail]

/-! ## Numerals without leading zeros -/

def numeral (b n : Nat) : List Nat :=
  if n = 0 then [0] else (Nat.digits b n).reverse

theorem lt_of_mem_numeral (hb : 1 < b) (hd : d ∈ numeral b n) : d < b := by
  rw [numeral] at hd
  split_ifs at hd with hn
  · grind
  · exact Nat.digits_lt_base hb (List.mem_reverse.mp hd)

theorem horner_numeral (b n : Nat) : horner b 0 (numeral b n) = n := by
  rw [horner_zero, numeral]
  split_ifs with hn
  · simp [hn]
  · rw [List.reverse_reverse, Nat.ofDigits_digits]

theorem length_numeral_le_iff (hb : 1 < b) (hw : 0 < w) (n : Nat) :
    (numeral b n).length ≤ w ↔ n < b ^ w := by
  rw [numeral]
  split_ifs with hn
  · simp [hn, Nat.pow_pos (by omega : 0 < b), Nat.succ_le_of_lt hw]
  · rw [List.length_reverse, Nat.digits_length_le_iff hb n]

theorem numeral_horner (hb : 1 < b) (hds : ∀ x ∈ d :: ds, x < b) (hzero : d = 0 → ds = []) :
    numeral b (horner b 0 (d :: ds)) = d :: ds := by
  by_cases hd : d = 0
  · rw [hzero hd, hd]
    rfl
  · have hdigits : Nat.digits b (horner b 0 (d :: ds)) = (d :: ds).reverse := by
      rw [horner_zero]
      refine Nat.digits_ofDigits b hb _ (fun x hx => hds x (List.mem_reverse.mp hx)) ?_
      intro hne
      rwa [List.getLast_reverse, List.head_cons]
    have hpos : horner b 0 (d :: ds) ≠ 0 := by
      intro h
      rw [h] at hdigits
      simp at hdigits
    rw [numeral, if_neg hpos, hdigits, List.reverse_reverse]

theorem head_numeral_ne_zero (hn : n ≠ 0) (h : numeral b n = d :: ds) : d ≠ 0 := by
  rw [numeral, if_neg hn] at h
  have hne : Nat.digits b n ≠ [] := Nat.digits_ne_nil_iff_ne_zero.mpr hn
  have hlast := Nat.getLast_digit_ne_zero b hn
  have hhead : (Nat.digits b n).getLast hne = d := by
    have hrev : Nat.digits b n = (d :: ds).reverse := by
      rw [← h, List.reverse_reverse]
    simp only [hrev, List.getLast_reverse, List.head_cons]
  rwa [hhead] at hlast

theorem head?_numeral_ne_zero (hlong : (numeral b n).length > 1) :
    (numeral b n).head? ≠ some 0 := by
  have hn : n ≠ 0 := by
    rintro rfl
    simp [numeral] at hlong
  intro hhead
  obtain ⟨ds, hcons⟩ := List.head?_eq_some_iff.mp hhead
  exact head_numeral_ne_zero hn hcons rfl

theorem horner_replicate_zero_append (b k : Nat) (ds : List Nat) :
    horner b 0 (List.replicate k 0 ++ ds) = horner b 0 ds := by
  induction k with
  | zero => rfl
  | succ k ih =>
    rw [List.replicate_succ, List.cons_append, horner, Nat.mul_zero, Nat.zero_add]
    exact ih

end Codec
