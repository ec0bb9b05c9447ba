import Badem.Codec.Numerals
import Mathlib.Data.Vector.Basic

/-!
# Readers and writers of streams

A reader takes a value off the front of a list of symbols, or fails.  `Codes` says that it
accepts exactly what a writer writes; `Codes.bind_iff` reduces a sequence of fields to an
equation for the input.
-/

namespace Codec

variable {σ α β : Type}

/-- A reader takes a value off the front of its input. -/
abbrev Reader (σ : Type) := StateT (List σ) Option

def Codes (read : Reader σ α) (write : α → List σ) : Prop :=
  ∀ l a rest, read l = some (a, rest) ↔ l = write a ++ rest

theorem pure_iff {a b : α} {l rest : List σ} :
    (pure a : Reader σ α) l = some (b, rest) ↔ a = b ∧ l = rest := by
  have hpure : (pure a : Reader σ α) l = some (a, l) := rfl
  rw [hpure, Option.some.injEq, Prod.mk.injEq]

theorem bind_iff {read : Reader σ α} {f : α → Reader σ β} {l rest : List σ} {b : β} :
    (read >>= f) l = some (b, rest) ↔
      ∃ a mid, read l = some (a, mid) ∧ f a mid = some (b, rest) := by
  have hbind : (read >>= f) l = (read l).bind (fun p => f p.1 p.2) := rfl
  rw [hbind, Option.bind_eq_some_iff]
  constructor
  · rintro ⟨⟨a, mid⟩, hread, hf⟩
    exact ⟨a, mid, hread, hf⟩
  · rintro ⟨a, mid, hread, hf⟩
    exact ⟨(a, mid), hread, hf⟩

theorem map_iff {read : Reader σ α} {f : α → β} {l rest : List σ} {b : β} :
    (f <$> read) l = some (b, rest) ↔ ∃ a, read l = some (a, rest) ∧ f a = b := by
  have hmap : (f <$> read) l = (read >>= fun a => pure (f a)) l := rfl
  rw [hmap, bind_iff]
  simp only [pure_iff]
  constructor
  · rintro ⟨a, mid, hread, rfl, rfl⟩
    exact ⟨a, hread, rfl⟩
  · rintro ⟨a, hread, rfl⟩
    exact ⟨a, rest, hread, rfl, rfl⟩

theorem Codes.bind_iff {read : Reader σ α} {write : α → List σ} (h : Codes read write)
    {f : α → Reader σ β} {l rest : List σ} {b : β} :
    (read >>= f) l = some (b, rest) ↔
      ∃ a mid, l = write a ++ mid ∧ f a mid = some (b, rest) := by
  rw [Codec.bind_iff]
  simp only [h _ _ _]

/-! ## A given number of symbols -/

def take (n : Nat) : Reader σ (List σ) := fun l =>
  if l.length < n then none else some (l.take n, l.drop n)

theorem take_iff {n : Nat} {l a rest : List σ} :
    take n l = some (a, rest) ↔ a.length = n ∧ l = a ++ rest := by
  rw [take]
  constructor
  · intro h
    split_ifs at h with hlen
    cases h
    exact ⟨List.length_take_of_le (by omega), (List.take_append_drop n l).symm⟩
  · rintro ⟨rfl, rfl⟩
    rw [if_neg (by simp), List.take_left, List.drop_left]

theorem codes_of_take {n : Nat} {write : α → List σ} {convert : List σ → α}
    (hlength : ∀ a, (write a).length = n) (hconvert : ∀ a, convert (write a) = a)
    (hwrite : ∀ l : List σ, l.length = n → write (convert l) = l) :
    Codes (do let s ← take n; pure (convert s)) write := by
  intro l a rest
  simp only [bind_iff, take_iff, pure_iff]
  constructor
  · rintro ⟨s, mid, ⟨hlen, rfl⟩, rfl, rfl⟩
    rw [hwrite s hlen]
  · rintro rfl
    exact ⟨write a, rest, ⟨hlength a, rfl⟩, hconvert a, rfl⟩

def replicate (read : Reader σ α) : (n : Nat) → Reader σ (List.Vector α n)
  | 0 => pure .nil
  | n + 1 => do
      let a ← read
      let as ← replicate read n
      pure (.cons a as)

theorem replicate_iff {read : Reader σ α} {write : α → Option (List σ)} {P : α → Prop}
    (h : ∀ l a rest, read l = some (a, rest) ↔ P a ∧ ∃ s, write a = some s ∧ l = s ++ rest)
    {n : Nat} {l rest : List σ} {as : List.Vector α n} :
    replicate read n l = some (as, rest) ↔
      (∀ a ∈ as.toList, P a) ∧
        ∃ ss, as.toList.mapM write = some ss ∧ l = ss.flatten ++ rest := by
  induction n generalizing l rest with
  | zero =>
    rw [replicate, pure_iff, List.Vector.eq_nil as]
    simp
  | succ n ih =>
    obtain ⟨a, as, rfl⟩ := as.exists_eq_cons
    rw [replicate]
    simp only [bind_iff, h, ih, pure_iff, List.Vector.toList_cons, List.forall_mem_cons,
      List.mapM_cons, Option.bind_eq_bind, Option.bind_eq_some_iff, Option.pure_def,
      Option.some.injEq]
    constructor
    · rintro ⟨b, mid, ⟨hb, s, hs, rfl⟩, bs, rest', ⟨hbs, ss, hss, rfl⟩, heq, rfl⟩
      obtain ⟨rfl, rfl⟩ := (List.Vector.eq_cons_iff _ _ _).mp heq
      exact ⟨⟨hb, hbs⟩, s :: ss, ⟨s, hs, ss, hss, rfl⟩, by simp⟩
    · rintro ⟨⟨ha, has⟩, _, ⟨s, hs, ss, hss, rfl⟩, rfl⟩
      exact ⟨a, ss.flatten ++ rest, ⟨ha, s, hs, by simp⟩, as, rest, ⟨has, ss, hss, rfl⟩, rfl, rfl⟩

/-! ## Numbers as bytes -/

def bigEndian {w : Nat} (x : BitVec w) : List (BitVec 8) :=
  (lowDigits 256 (w / 8) x.toNat).reverse.map (BitVec.ofNat 8)

def ofBigEndian (w : Nat) (bytes : List (BitVec 8)) : BitVec w :=
  BitVec.ofNat w (horner 256 0 (bytes.map BitVec.toNat))

def littleEndian {w : Nat} (x : BitVec w) : List (BitVec 8) := (bigEndian x).reverse

def ofLittleEndian (w : Nat) (bytes : List (BitVec 8)) : BitVec w := ofBigEndian w bytes.reverse

@[simp] theorem length_bigEndian {w : Nat} (x : BitVec w) : (bigEndian x).length = w / 8 := by
  simp [bigEndian]

theorem map_toNat_ofNat {ds : List Nat} (hds : ∀ d ∈ ds, d < 256) :
    (ds.map (BitVec.ofNat 8)).map BitVec.toNat = ds := by
  rw [List.map_map]
  refine (List.map_congr_left fun d hd => ?_).trans (List.map_id ds)
  rw [Function.comp_apply, BitVec.toNat_ofNat]
  exact Nat.mod_eq_of_lt (hds d hd)

theorem pow_bytes {w : Nat} (hw : 8 ∣ w) : 256 ^ (w / 8) = 2 ^ w := by
  rw [show (256 : Nat) = 2 ^ 8 from rfl, ← pow_mul, Nat.mul_div_cancel' hw]

theorem ofBigEndian_bigEndian {w : Nat} (hw : 8 ∣ w) (x : BitVec w) :
    ofBigEndian w (bigEndian x) = x := by
  have hds : ∀ d ∈ (lowDigits 256 (w / 8) x.toNat).reverse, d < 256 :=
    fun d hd => lt_of_mem_lowDigits (by omega) (List.mem_reverse.mp hd)
  rw [ofBigEndian, bigEndian, map_toNat_ofNat hds, horner_zero, List.reverse_reverse,
    ofDigits_lowDigits, pow_bytes hw, Nat.mod_eq_of_lt x.isLt, BitVec.ofNat_toNat,
    BitVec.setWidth_eq]

theorem bigEndian_ofBigEndian {w : Nat} (hw : 8 ∣ w) {bytes : List (BitVec 8)}
    (hlen : bytes.length = w / 8) : bigEndian (ofBigEndian w bytes) = bytes := by
  have hds : ∀ d ∈ bytes.map BitVec.toNat, d < 256 := by
    intro d hd
    obtain ⟨b, -, rfl⟩ := List.mem_map.mp hd
    exact b.isLt
  have hlt := ofDigits_reverse_lt (by omega) hds
  rw [List.length_map, hlen, pow_bytes hw] at hlt
  have hinv := lowDigits_ofDigits (fun d hd => hds d (List.mem_reverse.mp hd))
  rw [List.length_reverse, List.length_map, hlen] at hinv
  rw [bigEndian, ofBigEndian, BitVec.toNat_ofNat, horner_zero, Nat.mod_eq_of_lt hlt, hinv,
    List.reverse_reverse, List.map_map]
  refine (List.map_congr_left fun b _ => ?_).trans (List.map_id bytes)
  rw [Function.comp_apply, BitVec.ofNat_toNat, BitVec.setWidth_eq, id]

def readBig (w : Nat) : Reader (BitVec 8) (BitVec w) := do
  let bytes ← take (w / 8)
  pure (ofBigEndian w bytes)

def readLittle (w : Nat) : Reader (BitVec 8) (BitVec w) := do
  let bytes ← take (w / 8)
  pure (ofLittleEndian w bytes)

theorem codes_bigEndian {w : Nat} (hw : 8 ∣ w) : Codes (readBig w) bigEndian :=
  codes_of_take length_bigEndian (ofBigEndian_bigEndian hw)
    (fun _ hlen => bigEndian_ofBigEndian hw hlen)

theorem codes_littleEndian {w : Nat} (hw : 8 ∣ w) : Codes (readLittle w) littleEndian := by
  refine codes_of_take (fun x => by simp [littleEndian]) (fun x => ?_) (fun l hlen => ?_)
  · rw [ofLittleEndian, littleEndian, List.reverse_reverse, ofBigEndian_bigEndian hw]
  · rw [ofLittleEndian, littleEndian, bigEndian_ofBigEndian hw (by simpa using hlen),
      List.reverse_reverse]

end Codec
