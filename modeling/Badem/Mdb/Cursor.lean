import Badem.Mdb.OrderedTable
import Mathlib.Data.List.TakeWhile

/-!
# Passes over a table

Loops that visit the keys of an ordered table one after the other and may write to the table
under the key they stand at.
-/

universe u v w

namespace Badem
namespace Mdb

section Folds

variable {ε : Type u} {σ : Type v} {α : Type w} {f : σ → α → Except ε σ}

theorem exists_foldlM
    {l : List α} (Q : List α → σ → Prop)
    (hstep : ∀ pre x post s, l = pre ++ x :: post → Q pre s →
      ∃ s', f s x = .ok s' ∧ Q (pre ++ [x]) s')
    {s : σ} (hs : Q [] s) :
    ∃ s', l.foldlM f s = .ok s' ∧ Q l s' := by
  -- the induction is on the part that is left, for every part that has been visited
  suffices hrun : ∀ post pre s, l = pre ++ post → Q pre s →
      ∃ s', post.foldlM f s = .ok s' ∧ Q l s' from hrun l [] s rfl hs
  intro post
  induction post with
  | nil =>
    intro pre s hl hq
    rw [List.append_nil] at hl
    exact ⟨s, rfl, by rw [hl]; exact hq⟩
  | cons x post ih =>
    intro pre s hl hq
    obtain ⟨s₁, hx, hq₁⟩ := hstep pre x post s hl hq
    obtain ⟨s', hrun, hq'⟩ := ih (pre ++ [x]) s₁ (by rw [hl, List.append_assoc]; rfl) hq₁
    refine ⟨s', ?_, hq'⟩
    rw [List.foldlM_cons, hx]
    exact hrun

theorem mapM_eq_map {β : Type u} {ε : Type v} {g : α → Except ε β} {k : α → β} {l : List α}
    (h : ∀ x ∈ l, g x = .ok (k x)) : l.mapM g = .ok (l.map k) := by
  induction l with
  | nil => rfl
  | cons x l ih =>
    rw [List.mapM_cons, h x (.head _),
      ih (fun y hy => h y (.tail _ hy))]
    rfl

end Folds

section Prefixes

variable {α : Type u} {β : Type v} {p : α → Bool}

theorem dropWhile_eq_filter_iff (l : List α) :
    l.dropWhile (fun x => !p x) = l.filter p ↔ l.Pairwise (fun x y => p x = true → p y = true) := by
  induction l with
  | nil => simp
  | cons x l ih =>
    rw [List.pairwise_cons]
    by_cases hx : p x = true
    · have hdrop : (x :: l).dropWhile (fun x => !p x) = x :: l := by simp [hx]
      rw [hdrop, List.filter_cons_of_pos hx, List.cons.injEq, eq_comm (a := l),
        List.filter_eq_self]
      constructor
      · rintro ⟨-, hall⟩
        exact ⟨fun y hy _ => hall y hy,
          List.pairwise_of_forall_mem_list fun _ _ y hy _ => hall y hy⟩
      · rintro ⟨hall, -⟩
        exact ⟨rfl, fun y hy => hall y hy hx⟩
    · have hdrop : (x :: l).dropWhile (fun x => !p x) = l.dropWhile (fun x => !p x) := by
        simp [hx]
      rw [hdrop, List.filter_cons_of_neg hx, ih]
      exact ⟨fun h => ⟨fun y _ hpx => absurd hpx hx, h⟩, fun h => h.2⟩

end Prefixes

section SortedLists

variable {K : Type u} [LinearOrder K] {p : K → Bool} {visited wanted : List K}

theorem take_takeWhile_eq_iff (hvisited : visited.Pairwise (· < ·))
    (hwanted : wanted.Pairwise (· < ·)) (hsound : ∀ k ∈ visited, p k = true → k ∈ wanted)
    (hp : ∀ k ∈ wanted, p k = true) (n : Nat) :
    (visited.takeWhile p).take n = wanted.take n ↔
      ∀ k ∈ wanted.take n, k ∈ visited ∧ ∀ k' ∈ visited, k' < k → p k' = true := by
  constructor
  · intro heq k hk
    have hmem : k ∈ visited.takeWhile p := by
      rw [← heq] at hk
      exact List.mem_of_mem_take hk
    refine ⟨(List.takeWhile_sublist p).subset hmem, fun k' hk' hlt => ?_⟩
    rw [← List.takeWhile_append_dropWhile (p := p) (l := visited)] at hk' hvisited
    rcases List.mem_append.mp hk' with hfront | hback
    · exact List.mem_takeWhile_imp hfront
    · exact absurd hlt (not_lt.mpr ((List.pairwise_append.mp hvisited).2.2 k hmem k' hback).le)
  · -- by induction on the wanted keys, each of which is the next one of the list
    intro hall
    induction wanted generalizing visited n with
    | nil =>
      have hnone : visited.takeWhile p = [] := by
        refine List.eq_nil_iff_forall_not_mem.mpr (fun k hk => ?_)
        have hin := hsound k ((List.takeWhile_sublist p).subset hk) (List.mem_takeWhile_imp hk)
        simp at hin
      rw [hnone]
    | cons x wanted ih =>
      cases n with
      | zero => rw [List.take_zero, List.take_zero]
      | succ n =>
        rw [List.pairwise_cons] at hwanted
        obtain ⟨hx, hbefore⟩ := hall x (by simp)
        cases visited with
        | nil => simp at hx
        | cons y visited =>
          rw [List.pairwise_cons] at hvisited
          have hyx : y = x := by
            rcases List.mem_cons.mp hx with rfl | hx
            · rfl
            · have hlt := hvisited.1 x hx
              have hy := hsound y (by simp) (hbefore y (by simp) hlt)
              rcases List.mem_cons.mp hy with rfl | hy
              · rfl
              · exact absurd (hlt.trans (hwanted.1 y hy)) (lt_irrefl _)
          subst hyx
          rw [List.takeWhile_cons_of_pos (hp y (by simp)), List.take_succ_cons,
            List.take_succ_cons]
          refine congrArg (List.cons y) (ih hvisited.2 hwanted.2 ?_ ?_ n ?_)
          · intro k hk hpk
            rcases List.mem_cons.mp (hsound k (.tail _ hk) hpk) with rfl | hin
            · exact absurd (hvisited.1 k hk) (lt_irrefl _)
            · exact hin
          · intro k hk
            exact hp k (.tail _ hk)
          · intro k hk
            obtain ⟨hin, hlow⟩ := hall k (by
              rw [List.take_succ_cons]
              exact .tail _ hk)
            have hlt := hwanted.1 k (List.mem_of_mem_take hk)
            rcases List.mem_cons.mp hin with rfl | hin
            · exact absurd hlt (lt_irrefl _)
            · exact ⟨hin, fun k' hk' => hlow k' (.tail _ hk')⟩

end SortedLists

namespace Table

variable {K : Type u} {V : Type v} [LinearOrder K]

def keys (t : Table K V) : List K := t.entries.map Prod.fst

variable {t : Table K V} {k : K} {W : Type w} {l : List (K × V)}

theorem mem_keys_iff : k ∈ t.keys ↔ ∃ v, t.get k = some v := by
  constructor
  · intro h
    obtain ⟨⟨k', v⟩, hx, rfl⟩ := List.mem_map.mp h
    exact ⟨v, (t.mem_entries_iff k' v).mp hx⟩
  · rintro ⟨v, hv⟩
    exact List.mem_map.mpr ⟨(k, v), (t.mem_entries_iff k v).mpr hv, rfl⟩

theorem keys_sorted (t : Table K V) : t.keys.Pairwise (· < ·) :=
  List.pairwise_map.mpr t.sorted

@[simp] theorem length_keys (t : Table K V) : t.keys.length = t.size :=
  List.length_map _

@[simp] theorem keys_mapValues (g : V → W) (t : Table K V) : (t.mapValues g).keys = t.keys :=
  List.map_map

theorem keys_congr {t' : Table K W}
    (h : ∀ k, (t.get k).map (fun _ => ()) = (t'.get k).map (fun _ => ())) : t.keys = t'.keys := by
  have heq : t.mapValues (fun _ => ()) = t'.mapValues (fun _ => ()) := by
    ext1 k
    rw [get_mapValues, get_mapValues, h]
  rw [← keys_mapValues (fun _ => ()) t, heq, keys_mapValues]

theorem lowerBound_of_keys {a : K} {below rest : List K}
    (h : t.keys = below ++ a :: rest) (hbelow : ∀ x ∈ below, x < k) (ha : k ≤ a) :
    ∃ v, t.get a = some v ∧ t.lowerBound k = some (a, v) := by
  have hsorted := t.keys_sorted
  rw [h, List.pairwise_append] at hsorted
  obtain ⟨pre, post, hl, hpre, hpost⟩ := List.map_eq_append_iff.mp h
  obtain ⟨⟨a', v⟩, post', rfl, rfl, hpost'⟩ := List.map_eq_cons_iff.mp hpost
  refine ⟨v, ?_, lowerBound_of_append hl ?_ ?_⟩
  · rw [← t.mem_entries_iff, hl]
    simp
  · intro x hx
    exact hbelow x.1 (by rw [← hpre]; exact List.mem_map_of_mem hx)
  · intro x hx
    rcases List.mem_cons.mp hx with rfl | hx
    · exact ha
    · refine le_of_lt (lt_of_le_of_lt ha ((List.pairwise_cons.mp hsorted.2.1).1 x.1 ?_))
      rw [← hpost']
      exact List.mem_map_of_mem hx

theorem lowerBound_eq_none (h : ∀ x ∈ t.keys, x < k) : t.lowerBound k = none := by
  refine lowerBound_of_append (List.append_nil _).symm ?_ (by simp)
  intro x hx
  exact h x.1 (List.mem_map_of_mem hx)

theorem get_foldl_put (F : K → V) (h : ∀ x ∈ l, x.2 = F x.1) (k : K) :
    (l.foldl (fun t x => t.put x.1 x.2) t).get k =
      if k ∈ l.map Prod.fst then some (F k) else t.get k := by
  induction l generalizing t with
  | nil => rfl
  | cons x l ih =>
    rw [List.foldl_cons, ih (fun y hy => h y (.tail _ hy)), get_put,
      h x (.head _), List.map_cons]
    by_cases hl : k ∈ l.map Prod.fst
    · rw [if_pos hl, if_pos (.tail _ hl)]
    · rw [if_neg hl]
      by_cases hk : k = x.1
      · rw [if_pos hk, hk, if_pos List.mem_cons_self]
      · rw [if_neg hk, if_neg]
        intro hmem
        rcases List.mem_cons.mp hmem with heq | hmem
        · exact hk heq
        · exact hl hmem

theorem get_foldl_put_iff (h : (l.map Prod.fst).Nodup) (k : K) (v : V) :
    (l.foldl (fun t x => t.put x.1 x.2) t).get k = some v ↔
      (k, v) ∈ l ∨ k ∉ l.map Prod.fst ∧ t.get k = some v := by
  induction l generalizing t with
  | nil => simp
  | cons x l ih =>
    obtain ⟨hx, hl⟩ := List.nodup_cons.mp h
    rw [List.foldl_cons, ih hl, get_put]
    by_cases hk : k = x.1
    · subst hk
      have hnot : (x.1, v) ∉ l := fun hmem => hx (List.mem_map.mpr ⟨_, hmem, rfl⟩)
      rw [if_pos rfl]
      constructor
      · rintro (hmem | ⟨-, hv⟩)
        · exact absurd hmem hnot
        · grind
      · rintro (hmem | ⟨hmem, -⟩)
        · rcases List.mem_cons.mp hmem with heq | hmem
          · exact .inr ⟨hx, by rw [← heq]⟩
          · exact absurd hmem hnot
        · exact absurd (.head _) hmem
    · have hne : (k, v) ≠ x := fun heq => hk (by rw [← heq])
      rw [if_neg hk, List.mem_cons, List.map_cons, List.mem_cons]
      simp only [hne, hk, false_or]

theorem sum_eq_sum_keys {M : Type w} [AddCommMonoid M] (f : K → V → M) (g : K → M)
    (h : ∀ k v, t.get k = some v → f k v = g k) : t.sum f = (t.keys.map g).sum := by
  rw [sum_eq_map_sum, keys, List.map_map]
  congr 1
  refine List.map_congr_left (fun x hx => ?_)
  exact h x.1 x.2 ((t.mem_entries_iff x.1 x.2).mp hx)

section Positions

def position (t : Table K V) (k : K) : Nat := t.entries.findIdx (fun x => decide (k ≤ x.1))

theorem exists_position (t : Table K V) (k : K) :
    ∃ below rest, t.entries = below ++ rest ∧ t.position k = below.length ∧
      (∀ x ∈ below, x.1 < k) ∧ ∀ x ∈ rest, k ≤ x.1 := by
  unfold position
  obtain ⟨entries, hsorted⟩ := t
  induction entries with
  | nil => exact ⟨[], [], rfl, rfl, by simp, by simp⟩
  | cons x l ih =>
    obtain ⟨hfirst, hl⟩ := List.pairwise_cons.mp hsorted
    by_cases hx : k ≤ x.1
    · refine ⟨[], x :: l, rfl, ?_, by simp, ?_⟩
      · simp only [List.findIdx_cons, hx, decide_true, cond_true, List.length_nil]
      · intro y hy
        rcases List.mem_cons.mp hy with rfl | hy
        · exact hx
        · exact hx.trans (hfirst y hy).le
    · obtain ⟨below, rest, hl, hpos, hbelow, hrest⟩ := ih hl
      refine ⟨x :: below, rest, congrArg (List.cons x) hl, ?_, ?_, hrest⟩
      · grind
      · intro y hy
        rcases List.mem_cons.mp hy with rfl | hy
        · exact not_le.mp hx
        · exact hbelow y hy

variable {k lo hi : K} {below rest : List (K × V)}

theorem mem_keys_of_append {a : K} (h : t.entries = below ++ rest) (hbelow : ∀ x ∈ below, x.1 < k)
    (hrest : ∀ x ∈ rest, k ≤ x.1) : a ∈ rest.map Prod.fst ↔ (t.get a).isSome = true ∧ k ≤ a := by
  rw [Option.isSome_iff_exists]
  constructor
  · intro ha
    obtain ⟨x, hx, rfl⟩ := List.mem_map.mp ha
    refine ⟨⟨x.2, (t.mem_entries_iff x.1 x.2).mp ?_⟩, hrest x hx⟩
    rw [h]
    exact List.mem_append_right _ hx
  · rintro ⟨⟨v, hv⟩, hle⟩
    have hmem := (t.mem_entries_iff a v).mpr hv
    rw [h] at hmem
    rcases List.mem_append.mp hmem with hx | hx
    · exact absurd (hbelow _ hx) (not_lt.mpr hle)
    · exact List.mem_map_of_mem hx

theorem exists_range (t : Table K V) (hle : lo ≤ hi) :
    ∃ below mid above, t.entries = below ++ (mid ++ above) ∧ t.position lo = below.length ∧
      t.position hi = below.length + mid.length ∧ (∀ x ∈ below, x.1 < lo) ∧
      (∀ x ∈ mid, lo ≤ x.1 ∧ x.1 < hi) ∧ ∀ x ∈ above, hi ≤ x.1 := by
  obtain ⟨below, rest, hlo, hposlo, hbelow, hrest⟩ := t.exists_position lo
  obtain ⟨front, above, hhi, hposhi, hfront, habove⟩ := t.exists_position hi
  rcases List.append_eq_append_iff.mp (hlo.symm.trans hhi) with
    ⟨mid, rfl, rfl⟩ | ⟨mid, rfl, rfl⟩
  · refine ⟨below, mid, above, hlo, hposlo, by rw [hposhi, List.length_append], hbelow, ?_,
      habove⟩
    intro x hx
    exact ⟨hrest x (List.mem_append_left _ hx), hfront x (List.mem_append_right _ hx)⟩
  · -- what is below `lo` and not below `hi` is nothing
    have hmid : mid = [] := by
      refine List.eq_nil_iff_forall_not_mem.mpr (fun x hx => ?_)
      have hlt := (hbelow x (List.mem_append_right _ hx)).trans_le hle
      exact absurd (habove x (List.mem_append_left _ hx)) (not_le.mpr hlt)
    subst hmid
    refine ⟨front, [], rest, by simpa using hlo, by simpa using hposlo, by simpa using hposhi,
      by simpa using hbelow, by simp, ?_⟩
    simpa using habove

theorem position_of_append (h : t.entries = below ++ rest) (hbelow : ∀ x ∈ below, x.1 < k)
    (hrest : ∀ x ∈ rest, k ≤ x.1) : t.position k = below.length := by
  obtain ⟨below', rest', h', hpos, hbelow', hrest'⟩ := t.exists_position k
  have hfilter : ∀ {l l' : List (K × V)}, (∀ x ∈ l, x.1 < k) → (∀ x ∈ l', k ≤ x.1) →
      (l ++ l').filter (fun x => decide (x.1 < k)) = l := by
    intro l l' hl hl'
    rw [List.filter_append, List.filter_eq_self.mpr fun x hx => decide_eq_true (hl x hx),
      List.filter_eq_nil_iff.mpr fun x hx => by simpa using hl' x hx, List.append_nil]
  rw [hpos, ← hfilter hbelow' hrest', ← h', h, hfilter hbelow hrest]

theorem position_ne_iff (t : Table K V) (hle : lo ≤ hi) :
    t.position lo ≠ t.position hi ↔ ∃ k v, t.get k = some v ∧ lo ≤ k ∧ k < hi := by
  obtain ⟨below, mid, above, h, hlo, hhi, hbelow, hmid, habove⟩ := t.exists_range hle
  have hentries : ∀ x, x ∈ t.entries ↔ x ∈ below ∨ x ∈ mid ∨ x ∈ above := by
    intro x
    rw [h, List.mem_append, List.mem_append]
  have hmem : (∃ k v, t.get k = some v ∧ lo ≤ k ∧ k < hi) ↔ ∃ x, x ∈ mid := by
    constructor
    · rintro ⟨k, v, hget, hk, hk'⟩
      rcases (hentries _).mp ((t.mem_entries_iff k v).mpr hget) with hx | hx | hx
      · exact absurd (hbelow _ hx) (not_lt.mpr hk)
      · exact ⟨_, hx⟩
      · exact absurd hk' (not_lt.mpr (habove _ hx))
    · rintro ⟨⟨k, v⟩, hx⟩
      exact ⟨k, v, (t.mem_entries_iff k v).mp ((hentries _).mpr (.inr (.inl hx))), hmid _ hx⟩
  rw [hmem, hlo, hhi]
  cases mid with
  | nil => simp
  | cons x mid => exact iff_of_true (by simp) ⟨x, .head _⟩

theorem entries_del_of_append {x : K × V}
    (h : t.entries = below ++ x :: rest) : (t.del x.1).entries = below ++ rest := by
  have hsorted := t.sorted
  rw [h] at hsorted
  obtain ⟨-, hafter, hbefore⟩ := List.pairwise_append.mp hsorted
  have hbelow : ∀ y ∈ below, (!decide (y.1 = x.1)) = true :=
    fun y hy => by simp [(hbefore y hy x (.head _)).ne]
  have hrest : ∀ y ∈ rest, (!decide (y.1 = x.1)) = true :=
    fun y hy => by simp [((List.pairwise_cons.mp hafter).1 y hy).ne']
  rw [entries_del, h, List.filter_append, List.filter_cons_of_neg (by simp),
    List.filter_eq_self.mpr hbelow, List.filter_eq_self.mpr hrest]

end Positions

end Table

section WordKeys

variable {w : Nat} {a b : BitVec w}

theorem toNat_add_one (h : a.toNat + 1 < 2 ^ w) : (a + 1).toNat = a.toNat + 1 := by
  have hone : (1 : BitVec w).toNat = 1 := by
    show (BitVec.ofNat w 1).toNat = 1
    rw [BitVec.toNat_ofNat, Nat.mod_eq_of_lt (by omega)]
  rw [BitVec.toNat_add, hone, Nat.mod_eq_of_lt h]

theorem add_one_le_of_lt (h : a < b) : a + 1 ≤ b := by
  have hb := b.isLt
  rw [BitVec.lt_def] at h
  rw [BitVec.le_def, toNat_add_one (by omega)]
  exact h

theorem add_one_ne_zero_of_lt (h : a < b) : a + 1 ≠ 0 := by
  intro hz
  have hb := b.isLt
  have hnat := congrArg BitVec.toNat hz
  rw [BitVec.lt_def] at h
  rw [toNat_add_one (by omega)] at hnat
  cases hnat

theorem lt_add_one_of_ne_allOnes (h : a ≠ BitVec.allOnes w) : a < a + 1 := by
  have hne : a.toNat ≠ 2 ^ w - 1 := fun hn =>
    h (BitVec.eq_of_toNat_eq (by rw [BitVec.toNat_allOnes]; exact hn))
  have hlt := a.isLt
  rw [BitVec.lt_def, toNat_add_one (by omega)]
  omega

theorem lt_add_one_of_lt (h : a < b) : a < a + 1 := by
  refine lt_add_one_of_ne_allOnes ?_
  rintro rfl
  have hb := b.isLt
  rw [BitVec.lt_def, BitVec.toNat_allOnes] at h
  omega

theorem lt_add_one_of_ne_zero (h : a + 1 ≠ 0) : a < a + 1 := by
  refine lt_add_one_of_ne_allOnes ?_
  rintro rfl
  rw [← BitVec.neg_one_eq_allOnes] at h
  exact h (BitVec.add_left_neg _)

end WordKeys

end Mdb
end Badem
