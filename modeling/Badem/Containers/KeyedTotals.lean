import Badem.Mdb.OrderedTable

/-!
# Totals by key and their ranking

Contributions are added up in an unordered map, which may be visited in any order, and the
totals are entered into a map ordered by total, in which keys with equal totals share one
place.
-/

namespace Badem
namespace Containers

open Mdb OrderDual

universe u v w

/-- An order in which the entries of an unordered map are visited. -/
structure Visit (α : Type u) where
  order : List α → List α
  perm : ∀ l, (order l).Perm l

namespace Visit

variable {α : Type u}

def inserted : Visit α := ⟨id, List.Perm.refl⟩

@[simp] theorem mem_order (o : Visit α) {l : List α} {x : α} : x ∈ o.order l ↔ x ∈ l :=
  (o.perm l).mem_iff

end Visit

section Totals

variable {β : Type u} {κ : Type v} {M : Type w} [DecidableEq κ] [AddCommMonoid M]
variable (key : β → κ) {l : List (β × M)} {y : β × M}

def addTotal (b : β) (x : M) : List (β × M) → List (β × M)
  | [] => [(b, 0 + x)]
  | (c, t) :: l => if key c = key b then (c, t + x) :: l else (c, t) :: addTotal b x l

def totals (l : List (β × M)) : List (β × M) :=
  l.foldl (fun acc y => addTotal key y.1 y.2 acc) []

theorem totals_append_singleton (l : List (β × M)) (y : β × M) :
    totals key (l ++ [y]) = addTotal key y.1 y.2 (totals key l) := by
  rw [totals, List.foldl_append]
  rfl

def totalOf (k : κ) (l : List (β × M)) : M :=
  (l.map (fun y => if key y.1 = k then y.2 else 0)).sum

@[simp] theorem totalOf_nil (k : κ) : totalOf key k ([] : List (β × M)) = 0 := rfl

@[simp] theorem totalOf_cons (k : κ) (y : β × M) (l : List (β × M)) :
    totalOf key k (y :: l) = (if key y.1 = k then y.2 else 0) + totalOf key k l := rfl

theorem totalOf_perm (k : κ) {l' : List (β × M)} (h : l.Perm l') :
    totalOf key k l = totalOf key k l' :=
  (h.map _).sum_eq

section Mapped

variable {α : Type w} (f : α → β × M) {l : List α} {x : α}

theorem totalOf_map_append (k : κ) :
    totalOf key k ((l ++ [x]).map f) =
      (if key (f x).1 = k then (f x).2 else 0) + totalOf key k (l.map f) := by
  rw [totalOf_perm key k ((List.perm_append_singleton x l).map f), List.map_cons, totalOf_cons]

theorem totalOf_map_eraseIdx (k : κ) {i : Nat} (h : l[i]? = some x) :
    totalOf key k (l.map f) =
      (if key (f x).1 = k then (f x).2 else 0) + totalOf key k ((l.eraseIdx i).map f) := by
  obtain ⟨hi, rfl⟩ := List.getElem?_eq_some_iff.mp h
  rw [← totalOf_perm key k ((List.getElem_cons_eraseIdx_perm hi).map f), List.map_cons,
    totalOf_cons]

end Mapped

theorem totalOf_addTotal (k : κ) (b : β) (x : M) (l : List (β × M)) :
    totalOf key k (addTotal key b x l) =
      totalOf key k l + if key b = k then x else 0 := by
  induction l with
  | nil => simp [addTotal]
  | cons y l ih =>
    rw [addTotal]
    by_cases hkey : key y.1 = key b
    · rw [if_pos hkey, totalOf_cons, totalOf_cons, hkey]
      split_ifs
      · rw [add_right_comm]
      · simp
    · rw [if_neg hkey, totalOf_cons, totalOf_cons, ih, add_assoc]

theorem totalOf_totals (k : κ) (l : List (β × M)) :
    totalOf key k (totals key l) = totalOf key k l := by
  suffices h : ∀ acc : List (β × M),
      totalOf key k (l.foldl (fun acc y => addTotal key y.1 y.2 acc) acc) =
        totalOf key k acc + totalOf key k l by
    rw [totals, h, totalOf_nil, zero_add]
  induction l with
  | nil => simp
  | cons y l ih =>
    intro acc
    rw [List.foldl_cons, ih, totalOf_addTotal, totalOf_cons, add_assoc]

theorem mem_keys_addTotal (k : κ) (b : β) (x : M) (l : List (β × M)) :
    k ∈ (addTotal key b x l).map (fun y => key y.1) ↔
      k = key b ∨ k ∈ l.map (fun y => key y.1) := by
  induction l with
  | nil => simp [addTotal]
  | cons y l ih =>
    rw [addTotal]
    grind

theorem nodup_keys_addTotal (b : β) (x : M) (h : (l.map (fun y => key y.1)).Nodup) :
    ((addTotal key b x l).map (fun y => key y.1)).Nodup := by
  induction l with
  | nil => simp [addTotal]
  | cons y l ih =>
    rw [List.map_cons, List.nodup_cons] at h
    rw [addTotal]
    by_cases hkey : key y.1 = key b
    · grind
    · rw [if_neg hkey, List.map_cons, List.nodup_cons, mem_keys_addTotal]
      exact ⟨not_or.mpr ⟨hkey, h.1⟩, ih h.2⟩

theorem contributed_of_mem_addTotal {b : β} {x : M} (hy : y ∈ addTotal key b x l) :
    y.1 = b ∨ ∃ z ∈ l, z.1 = y.1 := by
  induction l with
  | nil =>
    rw [addTotal, List.mem_singleton] at hy
    exact .inl (by rw [hy])
  | cons z l ih =>
    rw [addTotal] at hy
    split_ifs at hy with hkey
    · rcases List.mem_cons.mp hy with rfl | hmem
      · exact .inr ⟨z, .head _, rfl⟩
      · exact .inr ⟨y, .tail _ hmem, rfl⟩
    · rcases List.mem_cons.mp hy with rfl | hmem
      · exact .inr ⟨_, .head _, rfl⟩
      · rcases ih hmem with hb | ⟨c, hc, hcy⟩
        · exact .inl hb
        · exact .inr ⟨c, .tail _ hc, hcy⟩

/-- What a list of contributions makes of a map of totals. -/
structure IsTotals (l acc : List (β × M)) : Prop where
  nodup : (acc.map (fun y => key y.1)).Nodup
  keys : ∀ k, k ∈ acc.map (fun y => key y.1) ↔ k ∈ l.map (fun y => key y.1)
  contributed : ∀ {y}, y ∈ acc → ∃ z ∈ l, z.1 = y.1

theorem isTotals_totals (l : List (β × M)) : IsTotals key l (totals key l) := by
  induction l using List.reverseRecOn with
  | nil => exact ⟨by simp [totals], fun k => by simp [totals], fun hy => by simp [totals] at hy⟩
  | append_singleton l y ih =>
    rw [totals_append_singleton]
    refine ⟨nodup_keys_addTotal key _ _ ih.nodup, ?_, ?_⟩
    · intro k
      rw [mem_keys_addTotal, ih.keys, List.map_append, List.mem_append, List.map_singleton,
        List.mem_singleton, or_comm]
    · intro z hz
      rcases contributed_of_mem_addTotal key hz with hb | hold
      · exact ⟨y, List.mem_append_right _ (.head _), hb.symm⟩
      · obtain ⟨c, hc, hcz⟩ := hold
        obtain ⟨d, hd, hdc⟩ := ih.contributed hc
        exact ⟨d, List.mem_append_left _ hd, hdc.trans hcz⟩

theorem totalOf_of_mem (h : (l.map (fun y => key y.1)).Nodup) (hy : y ∈ l) :
    totalOf key (key y.1) l = y.2 := by
  induction l with
  | nil => simp at hy
  | cons z l ih =>
    rw [List.map_cons, List.nodup_cons] at h
    rw [totalOf_cons]
    rcases List.mem_cons.mp hy with rfl | hmem
    · have hrest : totalOf key (key y.1) l = 0 := by
        refine List.sum_eq_zero ?_
        intro x hx
        obtain ⟨c, hc, rfl⟩ := List.mem_map.mp hx
        refine if_neg fun hkey => h.1 ?_
        rw [← hkey]
        exact List.mem_map_of_mem hc
      rw [if_pos rfl, hrest, add_zero]
    · have hne : key z.1 ≠ key y.1 := by
        intro hkey
        refine h.1 ?_
        rw [hkey]
        exact List.mem_map_of_mem hmem
      rw [if_neg hne, zero_add, ih h.2 hmem]

theorem snd_of_mem_totals (hy : y ∈ totals key l) : y.2 = totalOf key (key y.1) l := by
  rw [← totalOf_totals, totalOf_of_mem key (isTotals_totals key l).nodup hy]

theorem exists_mem_totals {z : β × M} (hz : z ∈ l) : ∃ y ∈ totals key l, key y.1 = key z.1 := by
  have hkey := ((isTotals_totals key l).keys (key z.1)).mpr (List.mem_map_of_mem hz)
  obtain ⟨y, hy, hyz⟩ := List.mem_map.mp hkey
  exact ⟨y, hy, hyz⟩

theorem sum_addTotal (b : β) (x : M) (l : List (β × M)) :
    ((addTotal key b x l).map Prod.snd).sum = (l.map Prod.snd).sum + x := by
  induction l with
  | nil => simp [addTotal]
  | cons y l ih =>
    rw [addTotal]
    grind

theorem sum_totals (l : List (β × M)) :
    ((totals key l).map Prod.snd).sum = (l.map Prod.snd).sum := by
  induction l using List.reverseRecOn with
  | nil => rfl
  | append_singleton l y ih =>
    rw [totals_append_singleton, sum_addTotal, ih, List.map_append, List.sum_append,
      List.map_singleton, List.sum_singleton]

end Totals

section Ranking

variable {β : Type u} {M : Type w} [LinearOrder M] {l : List (β × M)}

def ranking (l : List (β × M)) : Table Mᵒᵈ β :=
  l.foldl (fun t y => t.put (toDual y.2) y.1) Table.empty

theorem ranking_append_singleton (l : List (β × M)) (y : β × M) :
    ranking (l ++ [y]) = (ranking l).put (toDual y.2) y.1 := by
  rw [ranking, List.foldl_append]
  rfl

theorem mem_of_get_ranking {m : Mᵒᵈ} {b : β} (h : (ranking l).get m = some b) :
    (b, ofDual m) ∈ l := by
  induction l using List.reverseRecOn with
  | nil => exact absurd h (by simp [ranking])
  | append_singleton l y ih =>
    rw [ranking_append_singleton, Table.get_put] at h
    by_cases hm : m = toDual y.2
    · rw [if_pos hm] at h
      cases h
      rw [hm]
      exact List.mem_append_right _ (.head _)
    · simp_all

theorem exists_get_ranking {y : β × M} (hy : y ∈ l) :
    ∃ b, (ranking l).get (toDual y.2) = some b := by
  induction l using List.reverseRecOn with
  | nil => simp at hy
  | append_singleton l z ih =>
    rw [ranking_append_singleton, Table.get_put]
    by_cases hm : toDual y.2 = toDual z.2
    · exact ⟨z.1, if_pos hm⟩
    · rw [if_neg hm]
      rcases List.mem_append.mp hy with hmem | hmem
      · exact ih hmem
      · simp_all

theorem ranking_perm (h : (l.map Prod.snd).Nodup) :
    (ranking l).entries.Perm (l.map (fun y => (toDual y.2, y.1))) := by
  induction l using List.reverseRecOn with
  | nil => exact List.Perm.refl _
  | append_singleton l y ih =>
    rw [List.map_append, List.map_singleton, List.nodup_append] at h
    have hfree : (ranking l).get (toDual y.2) = none := by
      cases hget : (ranking l).get (toDual y.2) with
      | none => rfl
      | some b =>
        have hmem := List.mem_map_of_mem (f := Prod.snd) (mem_of_get_ranking hget)
        exact absurd rfl (h.2.2 _ hmem _ (.head _))
    have hput := (ranking l).put_perm (toDual y.2) y.1
    rw [Table.del_of_get_none hfree] at hput
    rw [ranking_append_singleton, List.map_append]
    exact hput.trans (((ih h.1).cons _).trans (List.perm_append_singleton _ _).symm)

end Ranking

end Containers
end Badem
