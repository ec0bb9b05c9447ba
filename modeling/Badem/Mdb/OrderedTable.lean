import Mathlib.Order.Defs.LinearOrder
import Mathlib.Data.BitVec
import Mathlib.Data.List.Perm.Basic
import Mathlib.Tactic

/-!
# Ordered key/value tables

A table of an ordered database is a list of pairs with strictly ascending keys.  The order is a
field of the structure, so two tables with the same lookups are equal.  `fold_put` and
`fold_of_get` express the fold of a table through the table without one key.
-/

namespace Badem
namespace Mdb

universe u v w

structure Table (K : Type u) (V : Type v) [LinearOrder K] where
  entries : List (K × V)
  sorted : entries.Pairwise (fun x y => x.1 < y.1)

namespace Table

section Lists

variable {K : Type u} {V : Type v} [LinearOrder K] {k : K} {x : K × V} {l : List (K × V)}

def lookup (k : K) : List (K × V) → Option V
  | [] => none
  | (k', v) :: l => if k = k' then some v else lookup k l

/-- Insert a pair before the first larger key, replacing an equal key. -/
def insertEntry (k : K) (v : V) : List (K × V) → List (K × V)
  | [] => [(k, v)]
  | (k', v') :: l =>
    if k < k' then (k, v) :: (k', v') :: l
    else if k = k' then (k, v) :: l
    else (k', v') :: insertEntry k v l

def removeEntry (k : K) : List (K × V) → List (K × V)
  | [] => []
  | (k', v') :: l => if k = k' then l else (k', v') :: removeEntry k l

theorem mem_insertEntry {v : V} (h : x ∈ insertEntry k v l) : x = (k, v) ∨ x ∈ l := by
  induction l with
  | nil =>
    simp [insertEntry] at h
    exact .inl h
  | cons y l ih =>
    rw [insertEntry] at h
    split_ifs at h
    · simpa using h
    · rcases List.mem_cons.mp h with h | h
      · exact .inl h
      · exact .inr (.tail _ h)
    · rcases List.mem_cons.mp h with h | h
      · exact .inr (by simp [h])
      · rcases ih h with h | h
        · exact .inl h
        · exact .inr (.tail _ h)

theorem mem_removeEntry (h : x ∈ removeEntry k l) : x ∈ l := by
  induction l with
  | nil => simp [removeEntry] at h
  | cons y l ih =>
    rw [removeEntry] at h
    split_ifs at h
    · exact .tail _ h
    · rcases List.mem_cons.mp h with h | h
      · simp [h]
      · exact .tail _ (ih h)

theorem insertEntry_sorted (k : K) (v : V) (hl : l.Pairwise (fun x y => x.1 < y.1)) :
    (insertEntry k v l).Pairwise (fun x y => x.1 < y.1) := by
  induction l with
  | nil => simp [insertEntry]
  | cons y l ih =>
    obtain ⟨hy, hl'⟩ := List.pairwise_cons.mp hl
    rw [insertEntry]
    split_ifs with hlt heq
    · refine List.pairwise_cons.mpr ⟨?_, hl⟩
      intro z hz
      rcases List.mem_cons.mp hz with rfl | hz
      · exact hlt
      · exact lt_trans hlt (hy z hz)
    · subst heq
      exact List.pairwise_cons.mpr ⟨hy, hl'⟩
    · refine List.pairwise_cons.mpr ⟨?_, ih hl'⟩
      intro z hz
      rcases mem_insertEntry hz with rfl | hz
      · exact lt_of_le_of_ne (not_lt.mp hlt) (Ne.symm heq)
      · exact hy z hz

theorem removeEntry_sorted (k : K) (hl : l.Pairwise (fun x y => x.1 < y.1)) :
    (removeEntry k l).Pairwise (fun x y => x.1 < y.1) := by
  induction l with
  | nil => simp [removeEntry]
  | cons y l ih =>
    obtain ⟨hy, hl'⟩ := List.pairwise_cons.mp hl
    rw [removeEntry]
    split_ifs
    · exact hl'
    · exact List.pairwise_cons.mpr
        ⟨fun z hz => hy z (mem_removeEntry hz), ih hl'⟩

theorem removeEntry_eq_filter (k : K) (hl : l.Pairwise (fun x y => x.1 < y.1)) :
    removeEntry k l = l.filter (fun x => !decide (x.1 = k)) := by
  induction l with
  | nil => rfl
  | cons y l ih =>
    obtain ⟨hlt, hrest⟩ := List.pairwise_cons.mp hl
    rw [removeEntry]
    by_cases hy : y.1 = k
    · have hkeep : l.filter (fun x => !decide (x.1 = k)) = l := by
        refine List.filter_eq_self.mpr fun x hx => ?_
        simpa using ne_of_gt (hy ▸ hlt x hx)
      rw [if_pos hy.symm, List.filter_cons_of_neg (by simpa using hy), hkeep]
    · rw [if_neg (Ne.symm hy), List.filter_cons_of_pos (by simpa using hy), ih hrest]

theorem lookup_insertEntry (k k' : K) (v : V) (l : List (K × V)) :
    lookup k' (insertEntry k v l) =
      if k' = k then some v else lookup k' l := by
  induction l with
  | nil => simp [insertEntry, lookup]
  | cons y l ih =>
    rw [insertEntry]
    by_cases hlt : k < y.1
    · simp [lookup, hlt]
    · by_cases heq : k = y.1
      · subst heq
        by_cases hk : k' = y.1 <;> simp [lookup, hk]
      · by_cases hk : k' = k
        · subst hk
          simp [lookup, hlt, heq, ih]
        · simp [lookup, hlt, heq, ih, hk]

theorem lookup_eq_none_of_lt (h : ∀ x ∈ l, k < x.1) : lookup k l = none := by
  induction l with
  | nil => rfl
  | cons y l ih =>
    have hy : k ≠ y.1 := ne_of_lt (h y (by simp))
    simp [lookup, hy]
    exact ih (fun x hx => h x (.tail _ hx))

theorem lookup_removeEntry (k k' : K) (hl : l.Pairwise (fun x y => x.1 < y.1)) :
    lookup k' (removeEntry k l) =
      if k' = k then none else lookup k' l := by
  induction l with
  | nil => simp [removeEntry, lookup]
  | cons y l ih =>
    obtain ⟨hy, hl'⟩ := List.pairwise_cons.mp hl
    rw [removeEntry]
    by_cases heq : k = y.1
    · subst heq
      by_cases hk : k' = y.1
      · subst hk
        simpa using lookup_eq_none_of_lt hy
      · simp [lookup, hk]
    · by_cases hk : k' = k
      · subst hk
        simp [lookup, heq, ih hl']
      · simp [lookup, heq, ih hl', hk]

theorem mem_iff_lookup (hl : l.Pairwise (fun x y => x.1 < y.1)) (k : K) (v : V) :
    (k, v) ∈ l ↔ lookup k l = some v := by
  induction l with
  | nil => simp [lookup]
  | cons y l ih =>
    obtain ⟨hy, hl'⟩ := List.pairwise_cons.mp hl
    by_cases hk : k = y.1
    · subst hk
      have hnot : (y.1, v) ∉ l := by
        intro hmem
        exact lt_irrefl _ (hy (y.1, v) hmem)
      simp only [lookup, List.mem_cons, hnot, or_false, if_true,
        Option.some.injEq]
      constructor
      · intro h
        exact (congrArg Prod.snd h).symm
      · intro h
        exact Prod.ext rfl h.symm
    · have hne : (k, v) ≠ y := fun h => hk (congrArg Prod.fst h)
      simp [lookup, hk, hne, ih hl']

theorem eq_of_lookup {l' : List (K × V)} (hl : l.Pairwise (fun x y => x.1 < y.1))
    (hl' : l'.Pairwise (fun x y => x.1 < y.1)) (h : ∀ k, lookup k l = lookup k l') : l = l' := by
  have hnodup : ∀ {m : List (K × V)},
      m.Pairwise (fun x y => x.1 < y.1) → m.Nodup := by
    intro m hm
    exact hm.imp (fun hxy heq => by simp [heq] at hxy)
  have hperm : l.Perm l' := by
    refine (List.perm_ext_iff_of_nodup (hnodup hl) (hnodup hl')).mpr ?_
    rintro ⟨k, v⟩
    rw [mem_iff_lookup hl, mem_iff_lookup hl', h]
  exact hperm.eq_of_pairwise
    (fun _ _ _ _ hab hba => absurd hba (lt_asymm hab)) hl hl'

theorem insertEntry_perm (k : K) (v : V) (l : List (K × V)) :
    (insertEntry k v l).Pairwise (fun x y => x.1 < y.1) →
    (insertEntry k v l).Perm ((k, v) :: removeEntry k l) := by
  induction l with
  | nil =>
    intro _
    simp [insertEntry, removeEntry]
  | cons y l ih =>
    intro hs
    rw [insertEntry] at hs ⊢
    rw [removeEntry]
    split_ifs at hs ⊢ with hlt heq
    · exact absurd (by assumption) (ne_of_lt hlt)
    · have hk : removeEntry k l = l := by
        have hl : ∀ x ∈ l, k < x.1 := by
          intro x hx
          exact (List.pairwise_cons.mp hs).1 x (.tail _ hx)
        clear hs ih
        induction l with
        | nil => rfl
        | cons z l ih =>
          have hz : k ≠ z.1 := ne_of_lt (hl z (by simp))
          simp only [removeEntry, hz, if_false]
          rw [ih (fun x hx => hl x (.tail _ hx))]
      rw [hk]
    · exact List.Perm.refl _
    · exact ((ih (List.pairwise_cons.mp hs).2).cons y).trans
        (List.Perm.swap _ _ _)

end Lists

variable {K : Type u} {V : Type v} [LinearOrder K] {t t' : Table K V} {k : K} {v : V}
  {p q : V → Bool} {M : Type w} {op : M → M → M}

def empty : Table K V := ⟨[], List.Pairwise.nil⟩

def get (t : Table K V) (k : K) : Option V := lookup k t.entries

def put (t : Table K V) (k : K) (v : V) : Table K V :=
  ⟨insertEntry k v t.entries, insertEntry_sorted k v t.sorted⟩

def del (t : Table K V) (k : K) : Table K V :=
  ⟨removeEntry k t.entries, removeEntry_sorted k t.sorted⟩

def size (t : Table K V) : Nat := t.entries.length

def lowerBound (t : Table K V) (k : K) : Option (K × V) :=
  t.entries.find? (fun x => decide (k ≤ x.1))

def find? (t : Table K V) (p : V → Bool) : Option V :=
  (t.entries.find? (fun x => p x.2)).map Prod.snd

def fold {M : Type w} (op : M → M → M) (unit : M) (f : K → V → M)
    (t : Table K V) : M :=
  t.entries.foldr (fun x acc => op (f x.1 x.2) acc) unit

@[simp] theorem get_empty (k : K) : (empty : Table K V).get k = none := rfl

@[ext] theorem ext (h : ∀ k, t.get k = t'.get k) : t = t' := by
  obtain ⟨l, hl⟩ := t
  obtain ⟨l', hl'⟩ := t'
  obtain rfl : l = l' := eq_of_lookup hl hl' h
  rfl

theorem get_put (t : Table K V) (k k' : K) (v : V) :
    (t.put k v).get k' = if k' = k then some v else t.get k' :=
  lookup_insertEntry k k' v t.entries

@[simp] theorem get_put_self (t : Table K V) (k : K) (v : V) : (t.put k v).get k = some v := by
  simp [get_put]

theorem get_put_ne (t : Table K V) {k' : K} (v : V) (h : k' ≠ k) :
    (t.put k v).get k' = t.get k' := by
  simp [get_put, h]

theorem get_del (t : Table K V) (k k' : K) : (t.del k).get k' = if k' = k then none else t.get k' :=
  lookup_removeEntry k k' t.sorted

@[simp] theorem get_del_self (t : Table K V) (k : K) : (t.del k).get k = none := by
  simp [get_del]

theorem mem_entries_iff (t : Table K V) (k : K) (v : V) : (k, v) ∈ t.entries ↔ t.get k = some v :=
  mem_iff_lookup t.sorted k v

@[simp] theorem put_put (t : Table K V) (k : K) (v v' : V) : (t.put k v).put k v' = t.put k v' := by
  ext k' w
  simp only [get_put]
  by_cases h : k' = k <;> simp [h]

theorem put_del_self (h : t.get k = some v) : (t.del k).put k v = t := by
  ext1 k'
  rw [get_put, get_del]
  by_cases hk : k' = k
  · simp [hk, h]
  · simp [hk]

theorem del_of_get_none (h : t.get k = none) : t.del k = t := by
  ext1 k'
  rw [get_del]
  by_cases hk : k' = k
  · simp [hk, h]
  · simp [hk]

theorem del_put_self (t : Table K V) (k : K) (v : V) : (t.put k v).del k = t.del k := by
  ext1 k'
  rw [get_del, get_del, get_put]
  by_cases hk : k' = k <;> simp [hk]

theorem entries_del (t : Table K V) (k : K) :
    (t.del k).entries = t.entries.filter (fun x => !decide (x.1 = k)) :=
  removeEntry_eq_filter k t.sorted

theorem put_perm (t : Table K V) (k : K) (v : V) :
    (t.put k v).entries.Perm ((k, v) :: (t.del k).entries) :=
  insertEntry_perm k v t.entries (t.put k v).sorted

theorem size_put_of_get_none (v : V) (h : t.get k = none) : (t.put k v).size = t.size + 1 := by
  have hlen := (t.put_perm k v).length_eq
  rw [del_of_get_none h] at hlen
  simpa [size] using hlen

theorem size_del_of_get (h : t.get k = some v) : (t.del k).size + 1 = t.size := by
  have hsize := size_put_of_get_none (t := t.del k) (k := k) v (by simp)
  rw [put_del_self h] at hsize
  exact hsize.symm

theorem size_put_of_get (v' : V) (h : t.get k = some v) : (t.put k v').size = t.size := by
  have hlen := (t.put_perm k v').length_eq
  have hdel := size_del_of_get h
  simp only [size, List.length_cons] at hlen hdel ⊢
  omega

theorem lowerBound_key_iff (t : Table K V) (k : K) :
    (∃ x, t.lowerBound k = some x ∧ x.1 = k) ↔ ∃ v, t.get k = some v := by
  constructor
  · rintro ⟨x, hx, rfl⟩
    exact ⟨x.2, (t.mem_entries_iff x.1 x.2).mp (List.mem_of_find?_eq_some hx)⟩
  · rintro ⟨v, hv⟩
    have hmem := (t.mem_entries_iff k v).mpr hv
    obtain ⟨x, hx⟩ : ∃ x, t.lowerBound k = some x := by
      refine Option.isSome_iff_exists.mp ?_
      rw [lowerBound, List.find?_isSome]
      exact ⟨(k, v), hmem, by simp⟩
    refine ⟨x, hx, ?_⟩
    have hle : k ≤ x.1 := by
      simpa using List.find?_some hx
    obtain ⟨-, pre, post, hsplit, hpre⟩ := List.find?_eq_some_iff_append.mp hx
    have hnot : (k, v) ∉ pre := fun hp => by
      simpa using hpre (k, v) hp
    rw [hsplit, List.mem_append, List.mem_cons] at hmem
    rcases hmem with hmem | hmem | hmem
    · exact absurd hmem hnot
    · exact (congrArg Prod.fst hmem).symm
    · have hs := t.sorted
      rw [hsplit, List.pairwise_append] at hs
      exact absurd ((List.pairwise_cons.mp hs.2.1).1 _ hmem) (not_lt.mpr hle)

theorem lowerBound_of_append {below rest : List (K × V)} (h : t.entries = below ++ rest)
    (hbelow : ∀ x ∈ below, x.1 < k) (hrest : ∀ x ∈ rest, k ≤ x.1) :
    t.lowerBound k = rest.head? := by
  have hnone : below.find? (fun x => decide (k ≤ x.1)) = none := by
    rw [List.find?_eq_none]
    intro x hx
    simpa using hbelow x hx
  unfold lowerBound
  rw [h, List.find?_append, hnone, Option.none_or]
  cases rest with
  | nil => rfl
  | cons x l =>
    rw [List.find?_cons_of_pos (by simpa using hrest x (.head _))]
    rfl

theorem find?_eq_none_iff (t : Table K V) (p : V → Bool) :
    t.find? p = none ↔ ∀ k v, t.get k = some v → p v = false := by
  unfold find?
  rw [Option.map_eq_none_iff, List.find?_eq_none]
  constructor
  · intro h k v hv
    simpa using h (k, v) ((t.mem_entries_iff k v).mpr hv)
  · intro h x hx
    simpa using h x.1 x.2 ((t.mem_entries_iff x.1 x.2).mp hx)

theorem exists_of_find?_eq_some (h : t.find? p = some v) : ∃ k, t.get k = some v ∧ p v = true := by
  unfold find? at h
  obtain ⟨x, hx, rfl⟩ := Option.map_eq_some_iff.mp h
  have hp : p x.2 = true := by
    simpa using List.find?_some hx
  exact ⟨x.1, (t.mem_entries_iff x.1 x.2).mp (List.mem_of_find?_eq_some hx), hp⟩

theorem find?_eq_some_iff
    (huniq : ∀ k v k' v', t.get k = some v → t.get k' = some v' → p v = true → p v' = true → v = v')
    (v : V) : t.find? p = some v ↔ ∃ k, t.get k = some v ∧ p v = true := by
  constructor
  · exact exists_of_find?_eq_some
  · rintro ⟨k, hk, hp⟩
    cases hfind : t.find? p with
    | none =>
      rw [find?_eq_none_iff] at hfind
      simp [hfind k v hk] at hp
    | some v' =>
      obtain ⟨k', hk', hp'⟩ := exists_of_find?_eq_some hfind
      rw [huniq k v k' v' hk hk' hp hp']

section Fold

variable {M : Type w} (op : M → M → M) [Std.Commutative op] [Std.Associative op]

omit [LinearOrder K] in
theorem foldr_perm {l l' : List (K × V)} (unit : M) (f : K → V → M) (h : l.Perm l') :
    l.foldr (fun x acc => op (f x.1 x.2) acc) unit =
      l'.foldr (fun x acc => op (f x.1 x.2) acc) unit := by
  have hassoc : ∀ a b c, op (op a b) c = op a (op b c) := Std.Associative.assoc
  have hcomm : ∀ a b, op a b = op b a := Std.Commutative.comm
  induction h with
  | nil => rfl
  | cons x _ ih => simp [ih]
  | swap x y l =>
    simp only [List.foldr_cons]
    rw [← hassoc, ← hassoc, hcomm (f y.1 y.2)]
  | trans _ _ ih₁ ih₂ => exact ih₁.trans ih₂

theorem fold_put (t : Table K V) (unit : M) (f : K → V → M) (k : K) (v : V) :
    (t.put k v).fold op unit f = op (f k v) ((t.del k).fold op unit f) :=
  foldr_perm op unit f (t.put_perm k v)

theorem fold_of_get (unit : M) (f : K → V → M) (h : t.get k = some v) :
    t.fold op unit f = op (f k v) ((t.del k).fold op unit f) := by
  have hput := fold_put op (t.del k) unit f k v
  rw [put_del_self h, del_of_get_none (by simp)] at hput
  exact hput

end Fold

theorem fold_congr {unit : M} {f g : K → V → M} (h : ∀ k v, t.get k = some v → f k v = g k v) :
    t.fold op unit f = t.fold op unit g := by
  have hmem : ∀ x ∈ t.entries, f x.1 x.2 = g x.1 x.2 :=
    fun x hx => h x.1 x.2 ((t.mem_entries_iff x.1 x.2).mp hx)
  unfold fold
  generalize t.entries = l at hmem
  induction l with
  | nil => rfl
  | cons x l ih =>
    simp only [List.foldr_cons]
    rw [hmem x (by simp), ih (fun y hy => hmem y (.tail _ hy))]

theorem fold_hom {N : Type*} {op' : N → N → N} (φ : M → N)
    (hφ : ∀ a b, φ (op a b) = op' (φ a) (φ b)) (unit : M) (f : K → V → M) (t : Table K V) :
    φ (t.fold op unit f) = t.fold op' (φ unit) (fun k v => φ (f k v)) := by
  unfold fold
  induction t.entries with
  | nil => rfl
  | cons x l ih => simp only [List.foldr_cons, hφ, ih]

section Sum

variable {M : Type w} [AddCommMonoid M] {t : Table K V} {k : K} {v : V}

def sum (t : Table K V) (f : K → V → M) : M := t.fold (· + ·) 0 f

theorem sum_put (t : Table K V) (f : K → V → M) (k : K) (v : V) :
    (t.put k v).sum f = f k v + (t.del k).sum f :=
  fold_put (fun a b : M => a + b) t 0 f k v

theorem sum_of_get (f : K → V → M) (h : t.get k = some v) : t.sum f = f k v + (t.del k).sum f :=
  fold_of_get (fun a b : M => a + b) 0 f h

def summandAt (t : Table K V) (f : K → V → M) (k : K) : M :=
  match t.get k with
  | some v => f k v
  | none => 0

theorem summandAt_of_get (f : K → V → M) (h : t.get k = some v) : t.summandAt f k = f k v := by
  rw [summandAt, h]

theorem summandAt_of_get_none (f : K → V → M) (h : t.get k = none) : t.summandAt f k = 0 := by
  rw [summandAt, h]

theorem sum_eq_summandAt_add (t : Table K V) (f : K → V → M) (k : K) :
    t.sum f = t.summandAt f k + (t.del k).sum f := by
  cases h : t.get k with
  | none => rw [summandAt_of_get_none f h, del_of_get_none h, zero_add]
  | some v =>
    rw [summandAt_of_get f h]
    exact sum_of_get f h

theorem sum_congr {f g : K → V → M} (h : ∀ k v, t.get k = some v → f k v = g k v) :
    t.sum f = t.sum g :=
  fold_congr h

theorem sum_hom {N : Type*} [AddCommMonoid N] (φ : M →+ N) (f : K → V → M) (t : Table K V) :
    φ (t.sum f) = t.sum (fun k v => φ (f k v)) := by
  unfold sum
  rw [fold_hom φ φ.map_add, φ.map_zero]

end Sum

theorem le_sum_of_get (f : K → V → Nat) (h : t.get k = some v) : f k v ≤ t.sum f := by
  rw [sum_of_get f h]
  exact Nat.le_add_right _ _

theorem sum_le_sum {f g : K → V → Nat} (t : Table K V) (h : ∀ k v, f k v ≤ g k v) :
    t.sum f ≤ t.sum g := by
  unfold sum fold
  induction t.entries with
  | nil => exact Nat.le_refl _
  | cons x l ih =>
    simp only [List.foldr_cons]
    exact Nat.add_le_add (h x.1 x.2) ih

def count (t : Table K V) (p : V → Bool) : Nat :=
  t.entries.countP (fun x => p x.2)

theorem count_le_size (t : Table K V) (p : V → Bool) : t.count p ≤ t.size :=
  List.countP_le_length

theorem count_of_get (hv : t.get k = some v) :
    t.count p = (t.del k).count p + (if p v then 1 else 0) := by
  have hperm := (t.del k).put_perm k v
  rw [put_del_self hv, del_of_get_none (by simp)] at hperm
  unfold count
  rw [hperm.countP_eq, List.countP_cons]

theorem count_le_count (t : Table K V) (hpq : ∀ v, p v = true → q v = true) :
    t.count p ≤ t.count q :=
  List.countP_mono_left (fun x _ => hpq x.2)

theorem count_lt_count (hpq : ∀ v, p v = true → q v = true) (hv : t.get k = some v)
    (hp : p v = false) (hq : q v = true) : t.count p < t.count q := by
  rw [count_of_get hv, count_of_get (p := q) hv]
  have hrest := count_le_count (t.del k) hpq
  simp only [hp, hq, if_true, Bool.false_eq_true, if_false]
  omega

theorem subperm_of_sub (h : ∀ k v, t'.get k = some v → t.get k = some v) :
    t'.entries.Subperm t.entries := by
  have hsub : t'.entries ⊆ t.entries := by
    rintro ⟨k, v⟩ hmem
    rw [mem_entries_iff] at hmem ⊢
    exact h k v hmem
  have hnodup : t'.entries.Nodup :=
    t'.sorted.imp (fun hxy heq => by simp [heq] at hxy)
  exact List.subperm_of_subset hnodup hsub

theorem count_le_of_sub (p : V → Bool) (h : ∀ k v, t'.get k = some v → t.get k = some v) :
    t'.count p ≤ t.count p :=
  (subperm_of_sub h).countP_le _

theorem count_lt_of_sub (h : ∀ k v, t'.get k = some v → t.get k = some v) (hv : t.get k = some v)
    (hgone : t'.get k = none) (hp : p v = true) : t'.count p < t.count p := by
  have hrest : ∀ k' v', t'.get k' = some v' → (t.del k).get k' = some v' := by
    intro k' v' hget
    rw [get_del, if_neg]
    · exact h k' v' hget
    · rintro rfl
      simp [hgone] at hget
  have hle := count_le_of_sub p hrest
  rw [count_of_get hv, if_pos hp]
  omega

theorem size_le_of_sub (h : ∀ k v, t'.get k = some v → t.get k = some v) : t'.size ≤ t.size :=
  (subperm_of_sub h).length_le

def overlay (t t' : Table K V) : Table K V := t.entries.foldr (fun x u => u.put x.1 x.2) t'

theorem get_overlay (t t' : Table K V) (k : K) :
    (t.overlay t').get k = (t.get k).or (t'.get k) := by
  show (t.entries.foldr (fun x u => u.put x.1 x.2) t').get k = (lookup k t.entries).or (t'.get k)
  induction t.entries with
  | nil => rfl
  | cons x l ih =>
    rw [List.foldr_cons, get_put, lookup, ih]
    split_ifs <;> rfl

/-! ## Tables built from lists -/

theorem isSome_get_foldl_put (l : List (K × V)) (t : Table K V) (k : K) :
    ((l.foldl (fun t x => t.put x.1 x.2) t).get k).isSome = true ↔
      k ∈ l.map Prod.fst ∨ (t.get k).isSome = true := by
  induction l generalizing t with
  | nil => simp
  | cons x l ih =>
    rw [List.foldl_cons, ih, get_put, List.map_cons, List.mem_cons]
    by_cases hk : k = x.1 <;> simp [hk]

theorem foldl_put_entries (t : Table K V) :
    t.entries.foldl (fun t x => t.put x.1 x.2) empty = t := by
  have hget : ∀ (l : List (K × V)) (t₀ : Table K V), l.Pairwise (fun x y => x.1 < y.1) →
      ∀ k, (l.foldl (fun t x => t.put x.1 x.2) t₀).get k = (lookup k l).or (t₀.get k) := by
    intro l
    induction l with
    | nil =>
      intro t₀ _ k
      rfl
    | cons x l ih =>
      intro t₀ hl k
      obtain ⟨hx, hl'⟩ := List.pairwise_cons.mp hl
      rw [List.foldl_cons, ih _ hl', get_put, lookup]
      by_cases hk : k = x.1
      · have hnone : lookup k l = none := by
          rw [hk]
          exact lookup_eq_none_of_lt hx
        rw [if_pos hk, if_pos hk, hnone]
        rfl
      · rw [if_neg hk, if_neg hk]
  ext1 k
  rw [hget _ _ t.sorted]
  exact Option.or_none

section MapValues

variable {W : Type w}

def mapValues (g : V → W) (t : Table K V) : Table K W :=
  ⟨t.entries.map (fun x => (x.1, g x.2)), List.pairwise_map.mpr t.sorted⟩

theorem get_mapValues (g : V → W) (t : Table K V) (k : K) :
    (t.mapValues g).get k = (t.get k).map g := by
  show lookup k (t.entries.map (fun x => (x.1, g x.2))) = (lookup k t.entries).map g
  induction t.entries with
  | nil => rfl
  | cons x l ih =>
    simp only [List.map_cons, lookup]
    split_ifs
    · rfl
    · exact ih

theorem find?_mapValues (g : V → W) (p : W → Bool) (t : Table K V) :
    (t.mapValues g).find? p = (t.find? (fun v => p (g v))).map g := by
  unfold find? mapValues
  rw [List.find?_map, Option.map_map, Option.map_map]
  rfl

@[simp] theorem size_mapValues (g : V → W) (t : Table K V) : (t.mapValues g).size = t.size :=
  List.length_map _

theorem fold_mapValues {M : Type*} (op : M → M → M) (unit : M) (f : K → W → M) (g : V → W)
    (t : Table K V) : (t.mapValues g).fold op unit f = t.fold op unit (fun k v => f k (g v)) := by
  unfold fold mapValues
  rw [List.foldr_map]

theorem fold_eq_of_map_get_eq {M : Type*} (op : M → M → M) (unit : M) (f : K → W → M)
    (g : V → W) (h : ∀ k, (t.get k).map g = (t'.get k).map g) :
    t.fold op unit (fun k v => f k (g v)) = t'.fold op unit (fun k v => f k (g v)) := by
  have heq : t.mapValues g = t'.mapValues g := by
    ext1 k
    rw [get_mapValues, get_mapValues, h]
  rw [← fold_mapValues op unit f g t, heq, fold_mapValues]

end MapValues

section Heads

variable {t : Table K V} {k : K} {v : V} {l : List (K × V)}

theorem get_of_entries_cons (h : t.entries = (k, v) :: l) :
    t.get k = some v ∧ ∀ {k' v'}, t.get k' = some v' → k ≤ k' := by
  have hmem := t.mem_entries_iff
  have hsorted := t.sorted
  rw [h] at hmem hsorted
  refine ⟨(hmem k v).mp (.head _), ?_⟩
  intro k' v' hget
  rcases List.mem_cons.mp ((hmem k' v').mpr hget) with heq | htail
  · exact le_of_eq (congrArg Prod.fst heq).symm
  · exact le_of_lt (List.rel_of_pairwise_cons hsorted htail)

theorem get_of_entries_cons_cons {k₂ : K} {v₂ : V} (h : t.entries = (k, v) :: (k₂, v₂) :: l) :
    k < k₂ ∧ t.get k₂ = some v₂ ∧ ∀ {k' v'}, t.get k' = some v' → k' ≠ k → k₂ ≤ k' := by
  have hmem := t.mem_entries_iff
  have hsorted := t.sorted
  rw [h] at hmem hsorted
  refine ⟨List.rel_of_pairwise_cons hsorted (.head _),
    (hmem k₂ v₂).mp (.tail _ (.head _)), ?_⟩
  intro k' v' hget hne
  rcases List.mem_cons.mp ((hmem k' v').mpr hget) with heq | htail
  · exact absurd (congrArg Prod.fst heq) hne
  · rcases List.mem_cons.mp htail with heq | htail
    · exact le_of_eq (congrArg Prod.fst heq).symm
    · exact le_of_lt (List.rel_of_pairwise_cons (List.pairwise_cons.mp hsorted).2 htail)

theorem eq_of_entries_singleton (h : t.entries = [(k, v)]) {k' : K} {v' : V}
    (hget : t.get k' = some v') : k' = k := by
  have hmem := (t.mem_entries_iff k' v').mpr hget
  rw [h, List.mem_singleton] at hmem
  exact congrArg Prod.fst hmem

theorem sum_eq_map_sum [AddCommMonoid M] (f : K → V → M) :
    t.sum f = (t.entries.map (fun x => f x.1 x.2)).sum := by
  rw [sum, fold, List.sum, List.foldr_map]

end Heads

end Table

section WordKeys

variable {w : Nat}

/-- Machine words are ordered as numbers, which is the order of their big-endian bytes. -/
instance instLinearOrderBitVec : LinearOrder (BitVec w) where
  le_refl := BitVec.le_refl
  le_trans _ _ _ := BitVec.le_trans
  le_antisymm _ _ := BitVec.le_antisymm
  le_total := BitVec.le_total
  lt_iff_le_not_ge a b := by
    simp only [BitVec.lt_def, BitVec.le_def]
    omega
  toDecidableLE := inferInstance
  toDecidableEq := inferInstance
  toDecidableLT := inferInstance

theorem Table.ofNat_sum {K : Type u} {V : Type v} [LinearOrder K] (t : Table K V)
    (f : K → V → Nat) : BitVec.ofNat w (t.sum f) = t.sum (fun k v => BitVec.ofNat w (f k v)) :=
  Table.sum_hom (Nat.castAddMonoidHom (BitVec w)) f t

end WordKeys

end Mdb
end Badem
