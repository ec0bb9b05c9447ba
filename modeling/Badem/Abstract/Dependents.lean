import Badem.Abstract.LatticeSteps

/-!
# Blocks that depend on a block

What rests on a block: the next block of its chain and the block that receives it, repeatedly.
`Prunes e L L'` says that `L'` comes from `L` by taking away nothing but dependents of `e`.
-/

namespace Badem

namespace BlockLattice

variable {env : Env} {U : Set Block} {L L' : BlockLattice env U} {t : Nat}

/-- Blocks that cannot stay when `e` is removed. -/
inductive Dependent (L : BlockLattice env U) (e : Entry) : Entry → Prop
  | self : Dependent L e e
  | next {x y : Entry} :
      Dependent L e x →
      L.find y.hash = some y →
      y.previous = x.hash →
      Dependent L e y
  | receives {x y : Entry} :
      Dependent L e x →
      L.find y.hash = some y →
      y.source env = some x.hash →
      Dependent L e y

namespace Dependent

variable {L L' : BlockLattice env U} {e x y : Entry}

theorem stored (he : L.find e.hash = some e) (h : Dependent L e x) : L.find x.hash = some x := by
  cases h with
  | self => exact he
  | next _ hy _ => exact hy
  | receives _ hy _ => exact hy

theorem time_le (H : CollisionFree env U) (he : L.find e.hash = some e) (h : Dependent L e x) :
    e.time ≤ x.time := by
  induction h with
  | self => exact Nat.le_refl _
  | @next x y hx hy hprev ih =>
    have hxs := hx.stored he
    obtain ⟨p, hp, htime, -⟩ :=
      L.exists_previous hy (by rw [hprev]; exact L.hash_ne_zero H hxs)
    rw [hprev, hxs] at hp
    cases hp
    omega
  | @receives x y hx hy hs ih =>
    obtain ⟨q, hq, htime, -⟩ := L.exists_source hy hs
    rw [hx.stored he] at hq
    cases hq
    omega

theorem trans (h : Dependent L e x) (h' : Dependent L x y) : Dependent L e y := by
  induction h' with
  | self => exact h
  | next _ hy hprev ih => exact ih.next hy hprev
  | receives _ hy hs ih => exact ih.receives hy hs

theorem mono (hsub : L'.Sub L) (h : Dependent L' e x) : Dependent L e x := by
  induction h with
  | self => exact self
  | next _ hy hprev ih => exact ih.next (hsub hy) hprev
  | receives _ hy hs ih => exact ih.receives (hsub hy) hs

theorem find_eq_none (H : CollisionFree env U) (he : L.find e.hash = some e) (hsub : L'.Sub L)
    (hgone : L'.find e.hash = none) (h : Dependent L e x) : L'.find x.hash = none := by
  induction h with
  | self => exact hgone
  | @next x y hx hy hprev ih =>
    cases hy' : L'.find y.hash with
    | none => rfl
    | some z =>
      cases (hsub hy').symm.trans hy
      obtain ⟨p, hp, -⟩ := L'.exists_previous hy'
        (by rw [hprev]; exact L.hash_ne_zero H (hx.stored he))
      simp [hprev, ih] at hp
  | @receives x y hx hy hs ih =>
    cases hy' : L'.find y.hash with
    | none => rfl
    | some z =>
      cases (hsub hy').symm.trans hy
      obtain ⟨q, hq, -⟩ := L'.exists_source hy' hs
      simp [ih] at hq

theorem of_height_le {h h' : BlockHash} (he : L.find h = some e) :
    ∀ (n : Nat) {x : Entry}, L.find h' = some x → x.account = e.account →
      x.height = e.height + n → Dependent L e x := by
  intro n
  induction n generalizing h' with
  | zero =>
    intro x hx hacc hheight
    obtain rfl := L.eq_of_height_eq e.height hx he hacc hheight rfl
    exact self
  | succ n ih =>
    intro x hx hacc hheight
    have hne : x.previous ≠ 0 := by
      intro hz
      have hone := (L.opening hx hz).height
      have hpos := L.height_pos he
      omega
    obtain ⟨p, hp, -, hext⟩ := L.exists_previous hx hne
    have hstep := hext.height
    refine (ih hp (by rw [← hext.account, hacc]) (by omega)).next (L.find_hash hx) ?_
    exact (L.keyed hp).symm

end Dependent

/-- `L'` is `L` without some blocks that depend on `e`. -/
structure Prunes (e : Entry) (L L' : BlockLattice env U) : Prop where
  sub : L'.Sub L
  removed : ∀ {x : Entry}, L.find x.hash = some x → L'.find x.hash = none → Dependent L e x

namespace Prunes

variable {L L' L'' : BlockLattice env U} {e x : Entry}

theorem refl (e : Entry) (L : BlockLattice env U) : Prunes e L L where
  sub := Sub.refl L
  removed := by
    intro x hx hnone
    simp [hx] at hnone

theorem of_dependent (h : Prunes x L L') (hx : Dependent L e x) : Prunes e L L' where
  sub := h.sub
  removed := by
    intro y hy hnone
    exact hx.trans (h.removed hy hnone)

theorem trans (h : Prunes e L L') (h' : Prunes e L' L'') : Prunes e L L'' where
  sub := Sub.trans h'.sub h.sub
  removed := by
    intro y hy hnone
    cases hy' : L'.find y.hash with
    | none => exact h.removed hy hy'
    | some z =>
      cases (h.sub hy').symm.trans hy
      exact (h'.removed hy' hnone).mono h.sub

theorem remove (hr : L.Removable e) : Prunes e L (L.remove e hr) where
  sub := remove_sub hr
  removed := by
    intro y hy hnone
    rw [find_remove] at hnone
    by_cases hk : y.hash = e.hash
    · rw [hk, hr.stored] at hy
      cases hy
      exact Dependent.self
    · simp [if_neg hk, hy] at hnone

theorem find_of_time_lt (H : CollisionFree env U) (h : Prunes e L L') (he : L.find e.hash = some e)
    (hx : L.find x.hash = some x) (htime : x.time < e.time) : L'.find x.hash = some x := by
  cases hx' : L'.find x.hash with
  | none =>
    have hle := (h.removed hx hx').time_le H he
    omega
  | some z => rw [← hx, h.sub hx']

end Prunes

theorem newer_lt_of_sub {x : Entry} (h : L'.Sub L) (hx : L.find x.hash = some x)
    (hgone : L'.find x.hash = none) (ht : t ≤ x.time) : L'.newer t < L.newer t :=
  Mdb.Table.count_lt_of_sub (fun _ _ hy => h hy) hx hgone (by simpa using ht)

theorem newer_anti (L : BlockLattice env U) {t' : Nat} (h : t ≤ t') : L.newer t' ≤ L.newer t := by
  refine Mdb.Table.count_le_count _ ?_
  intro v hv
  simp only [decide_eq_true_eq] at hv ⊢
  omega

theorem child_eq_none_of_sub (hsub : L'.Sub L) {h : BlockHash} (hc : L.child h = none) :
    L'.child h = none := by
  rw [child_eq_none_iff] at hc ⊢
  intro k x hx
  exact hc k x (hsub hx)

theorem eq_of_find_eq (h : ∀ k, L.find k = L'.find k) : L = L' := by
  have hentries : L.entries = L'.entries := Mdb.Table.ext h
  cases L
  cases L'
  cases hentries
  rfl

def Restricts (keep : BlockHash → Bool) (L M : BlockLattice env U) : Prop :=
  ∀ h x, M.find h = some x ↔ L.find h = some x ∧ keep h = true

def Closed (keep : BlockHash → Bool) (L : BlockLattice env U) : Prop :=
  ∀ {h x}, L.find h = some x → keep h = true →
    (x.previous ≠ 0 → keep x.previous = true) ∧
      ∀ y, x.source env = some y → keep y = true

section Restrict

variable {keep : BlockHash → Bool} {L M : BlockLattice env U} {e : Entry} {L' : BlockLattice env U}

theorem Restricts.sub (h : Restricts keep L M) : M.Sub L :=
  fun hx => ((h _ _).mp hx).1

theorem Closed.of_sub (hsub : L'.Sub L) (hc : Closed keep L) : Closed keep L' :=
  fun hx hk => hc (hsub hx) hk

theorem closed_of_sub (hsub : L'.Sub L) : Closed (fun k => (L'.find k).isSome) L := by
  intro h x hx hk
  obtain ⟨x', hx'⟩ := Option.isSome_iff_exists.mp hk
  cases hx.symm.trans (hsub hx')
  constructor
  · intro hne
    obtain ⟨p, hp, -⟩ := L'.exists_previous hx' hne
    exact Option.isSome_iff_exists.mpr ⟨p, hp⟩
  · intro y hy
    obtain ⟨q, hq, -⟩ := L'.exists_source hx' hy
    exact Option.isSome_iff_exists.mpr ⟨q, hq⟩

theorem head_eq_none_of_sub (H : CollisionFree env U) (hsub : M.Sub L) {a : Account}
    (ha : L.head a = none) : M.head a = none := by
  cases hx : M.head a with
  | none => rfl
  | some x =>
    obtain ⟨hfind, hacc, -⟩ := (M.head_eq_some_iff a x).mp hx
    obtain ⟨y, hy, -⟩ := L.exists_head_of_find H (hsub hfind)
    simp [hacc, ha] at hy

theorem Appendable.restrict
    (H : CollisionFree env U) (ha : L.Appendable e) (hM : Restricts keep L M)
    (hc : Closed keep (L.append H e ha)) (hk : keep e.hash = true) : M.Appendable e where
  known := ha.known
  hashed := ha.hashed
  fresh := by
    cases hx : M.find e.hash with
    | none => rfl
    | some x => exact absurd (ha.fresh.symm.trans (hM.sub hx)) (by simp)
  account_ne_zero := ha.account_ne_zero
  lawful := ha.lawful
  latest := fun hx => ha.latest (hM.sub hx)
  opening := fun hz =>
    ⟨(ha.opening hz).1, head_eq_none_of_sub H hM.sub (ha.opening hz).2⟩
  chain := by
    intro hne
    obtain ⟨p, hp, hchild, hext⟩ := ha.chain hne
    have hkeep := (hc (find_append_self H ha) hk).1 hne
    exact ⟨p, (hM _ _).mpr ⟨hp, hkeep⟩, child_eq_none_of_sub hM.sub hchild, hext⟩
  sent := by
    intro x hs
    obtain ⟨q, hq, hdest, hamount, hrec⟩ := ha.sent hs
    have hkeep := (hc (find_append_self H ha) hk).2 x hs
    refine ⟨q, (hM _ _).mpr ⟨hq, hkeep⟩, hdest, hamount, ?_⟩
    rw [receiver_eq_none_iff] at hrec ⊢
    intro k r hr
    exact hrec k r (hM.sub hr)

theorem Restricts.append (H : CollisionFree env U) (hM : Restricts keep L M) (ha : L.Appendable e)
    (ha' : M.Appendable e) (hk : keep e.hash = true) :
    Restricts keep (L.append H e ha) (M.append H e ha') := by
  intro h x
  rw [find_append, find_append]
  by_cases hh : h = e.hash
  · simp_all
  · simpa [hh] using hM h x

theorem Restricts.skip (H : CollisionFree env U) (hM : Restricts keep L M) (ha : L.Appendable e)
    (hk : keep e.hash ≠ true) : Restricts keep (L.append H e ha) M := by
  intro h x
  rw [find_append]
  by_cases hh : h = e.hash
  · rw [if_pos hh, hh]
    constructor
    · intro hx
      exact absurd ((hM _ _).mp hx).2 hk
    · intro hx
      exact absurd hx.2 hk
  · rw [if_neg hh]
    exact hM h x

end Restrict

end BlockLattice

end Badem
