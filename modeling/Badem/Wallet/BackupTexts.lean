import Badem.Core.WalletBackups
import Badem.Text.HexTexts
import Badem.Wallet.Entries

/-!
# Wallets read from texts

The error that the constructor reports is the one of the last entry, and whether an entry that
every wallet needs is missing.
-/

namespace Badem

open Mdb WalletStore

/-! ## Maps of strings -/

theorem StringMap.get_of_mem (m : StringMap) {x : Text × Text} (h : x ∈ m.entries) :
    m.get x.1 = some x.2 := by
  obtain ⟨l, hl⟩ := m
  simp only [StringMap.get] at h ⊢
  induction l with
  | nil => exact absurd h List.not_mem_nil
  | cons y l ih =>
    rw [List.map_cons, List.nodup_cons] at hl
    rw [List.find?_cons]
    by_cases heq : y.1 = x.1
    · have hxy : x = y := by
        rcases List.mem_cons.mp h with hxy | hmem
        · exact hxy
        · exact absurd (heq ▸ List.mem_map_of_mem hmem) hl.1
      rw [decide_eq_true heq, hxy]
      rfl
    · rw [decide_eq_false heq]
      refine ih hl.2 ?_
      rcases List.mem_cons.mp h with rfl | hmem
      · exact absurd rfl heq
      · exact hmem

/-- The entry that a name and a text stand for. -/
def readPair (x : Text × Text) : Option (Uint256 × WalletValue) := do
  let key ← Uint256.decodeHex x.1
  let value ← Uint256.decodeHex x.2
  pure (key, ⟨value, 0⟩)

theorem readPair_eq_some_iff {x : Text × Text} {y : Uint256 × WalletValue} :
    readPair x = some y ↔ ReadsNumber x.1 y.1 ∧ ReadsNumber x.2 y.2.key ∧ y.2.work = 0 := by
  obtain ⟨k, ⟨value, work⟩⟩ := y
  rw [← Uint256.decodeHex_eq_some_iff, ← Uint256.decodeHex_eq_some_iff, readPair]
  cases Uint256.decodeHex x.1 with
  | none => simp
  | some key =>
    cases Uint256.decodeHex x.2 with
    | none => simp
    | some value' =>
      simp only [Option.bind_eq_bind, Option.bind_some, Option.pure_def, Option.some.injEq,
        Prod.mk.injEq, WalletValue.mk.injEq]
      rw [eq_comm (a := work)]

theorem readPair_eq_none_iff {x : Text × Text} :
    readPair x = none ↔ Uint256.decodeHex x.1 = none ∨ Uint256.decodeHex x.2 = none := by
  unfold readPair
  cases Uint256.decodeHex x.1 <;> cases Uint256.decodeHex x.2 <;> simp

/-! ## The loop of the constructor -/

section Reading

variable {m : StringMap} {state : Bool × WalletStore} {x : Text × Text}

theorem readEntry_none (hx : x ∈ m.entries)
    (h : readPair x = none) : readEntry m state x = (true, state.2) := by
  unfold readEntry
  rw [m.get_of_mem hx]
  rcases readPair_eq_none_iff.mp h with hname | hvalue
  · rw [hname]
  · grind

theorem readEntry_some (hx : x ∈ m.entries) {y : Uint256 × WalletValue} (h : readPair x = some y) :
    readEntry m state x = (false, state.2.entryPutRaw y.1 y.2) := by
  obtain ⟨key, hkey, h⟩ := Option.bind_eq_some_iff.mp h
  obtain ⟨value, hvalue, h⟩ := Option.bind_eq_some_iff.mp h
  cases h
  unfold readEntry
  rw [m.get_of_mem hx]
  simp only [hkey, Option.bind_some, hvalue]

theorem foldl_readEntry :
    ∀ (l : List (Text × Text)) (state : Bool × WalletStore), l ⊆ m.entries →
      l.foldl (readEntry m) state =
        ((l.getLast?.map (fun x => (readPair x).isNone)).getD state.1,
          { state.2 with
            table := (l.filterMap readPair).foldl (fun t y => t.put y.1 y.2) state.2.table }) := by
  intro l
  induction l with
  | nil =>
    intro state _
    rfl
  | cons x l ih =>
    intro state hl
    have hx := hl (.head _)
    have hrest : l ⊆ m.entries := fun y hy => hl (.tail _ hy)
    have hlast : ∀ b, (l.getLast?.map (fun x => (readPair x).isNone)).getD
        ((readPair x).isNone) =
        (((x :: l).getLast?).map (fun x => (readPair x).isNone)).getD b := by
      intro b
      rw [List.getLast?_cons]
      cases l.getLast? <;> rfl
    rw [List.foldl_cons, ← hlast]
    cases hpair : readPair x with
    | none =>
      rw [readEntry_none hx hpair, ih _ hrest, List.filterMap_cons_none hpair]
      rfl
    | some y =>
      rw [readEntry_some hx hpair, ih _ hrest, List.filterMap_cons_some hpair]
      rfl

end Reading

/-! ## Errors -/

/-- The name and the value of an entry are numbers. -/
def HexEntry (x : Text × Text) : Prop := (∃ k, HexNumber x.1 k) ∧ ∃ v, HexNumber x.2 v

/-- The name and the value of an entry are read as numbers. -/
def ReadableEntry (x : Text × Text) : Prop := (∃ k, ReadsNumber x.1 k) ∧ ∃ v, ReadsNumber x.2 v

/-- No entry is read as the one of a number that every wallet needs. -/
def Incomplete (m : StringMap) : Prop :=
  ∃ k ∈ requiredSpecials, ∀ x ∈ m.entries, ReadsNumber x.1 k → ¬ ReadableEntry x

/-- The last entry is not read. -/
def EndsUnreadable (m : StringMap) : Prop :=
  ∃ x, m.entries.getLast? = some x ∧ ¬ ReadableEntry x

theorem HexEntry.readable {x : Text × Text} (h : HexEntry x) : ReadableEntry x := by
  obtain ⟨⟨k, hk⟩, v, hv⟩ := h
  exact ⟨⟨k, hk.readsNumber⟩, v, hv.readsNumber⟩

theorem ReadsNumber.unique {text : Text} {x y : Uint256} (h : ReadsNumber text x)
    (h' : ReadsNumber text y) : x = y :=
  Option.some.inj
    ((Uint256.decodeHex_eq_some_iff.mpr h).symm.trans (Uint256.decodeHex_eq_some_iff.mpr h'))

theorem readPair_isNone_iff {x : Text × Text} :
    (readPair x).isNone = true ↔ ¬ ReadableEntry x := by
  rw [Option.isNone_iff_eq_none, Option.eq_none_iff_forall_ne_some]
  constructor
  · rintro h ⟨⟨k, hk⟩, v, hv⟩
    exact h (k, ⟨v, 0⟩) (readPair_eq_some_iff.mpr ⟨hk, hv, rfl⟩)
  · rintro h ⟨k, v⟩ hy
    obtain ⟨hk, hv, -⟩ := readPair_eq_some_iff.mp hy
    exact h ⟨⟨k, hk⟩, v.key, hv⟩

theorem notMem_filterMap_iff {l : List (Text × Text)} {k : Uint256} :
    k ∉ (l.filterMap readPair).map Prod.fst ↔ ∀ x ∈ l, ReadsNumber x.1 k → ¬ ReadableEntry x := by
  constructor
  · rintro h x hx hk ⟨-, v, hv⟩
    refine h (List.mem_map.mpr ⟨(k, ⟨v, 0⟩), List.mem_filterMap.mpr ⟨x, hx, ?_⟩, rfl⟩)
    exact readPair_eq_some_iff.mpr ⟨hk, hv, rfl⟩
  · intro h hmem
    obtain ⟨⟨k', v⟩, hy, rfl⟩ := List.mem_map.mp hmem
    obtain ⟨x, hx, hread⟩ := List.mem_filterMap.mp hy
    obtain ⟨hk, hv, -⟩ := readPair_eq_some_iff.mp hread
    exact h x hx hk ⟨⟨_, hk⟩, _, hv⟩

section Errors

variable {lib : TreeLibrary} {passwordFan walletKeyFan : List Uint256} {json : Text}

theorem createFromJson_some {m : StringMap} (h : lib.readJson json = some m) :
    createFromJson lib passwordFan walletKeyFan json =
      let table := (m.entries.filterMap readPair).foldl (fun t y => t.put y.1 y.2) .empty
      ((m.entries.getLast?.map (fun x => (readPair x).isNone)).getD false ||
          requiredSpecials.any (fun key => (table.get key).isNone),
        { password := (Fan.create 0 passwordFan).valueSet 0
          walletKeyMem := (Fan.create 0 walletKeyFan).valueSet
            ((table.get walletKeySpecial).getD ⟨0, 0⟩).key
          table := table }) := by
  simp only [createFromJson, h, foldl_readEntry m.entries _ (List.Subset.refl _)]
  rfl

theorem createFromJson_error_iff {m : StringMap} (h : lib.readJson json = some m) :
    (createFromJson lib passwordFan walletKeyFan json).1 = true ↔
      EndsUnreadable m ∨ Incomplete m := by
  rw [createFromJson_some h, Bool.or_eq_true, List.any_eq_true]
  refine or_congr ?_ ?_
  · cases hlast : m.entries.getLast? <;> simp [EndsUnreadable, hlast, ← readPair_isNone_iff]
  · refine exists_congr fun k => and_congr_right fun _ => ?_
    rw [← notMem_filterMap_iff]
    have hkeys := Table.isSome_get_foldl_put (m.entries.filterMap readPair)
      (.empty : Table Uint256 WalletValue) k
    rw [Table.get_empty, Option.isSome_none, or_iff_left Bool.false_ne_true] at hkeys
    rw [← hkeys, Option.isNone_iff_eq_none, Option.not_isSome_iff_eq_none]

end Errors

end Badem
