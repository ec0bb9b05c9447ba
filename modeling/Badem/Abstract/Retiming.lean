import Badem.Abstract.Dependents

/-!
# Lattices up to their times

The times of a lattice only have to grow along dependencies, so a part of a lattice can be
made older than the rest.
-/

namespace Badem

open Mdb

namespace Entry

def timed (e : Entry) (t : Nat) : Entry := { e with time := t }

def needs (env : Env) (e : Entry) : List BlockHash :=
  (if e.previous ≠ 0 then [e.previous] else []) ++ (e.source env).toList

theorem mem_needs_iff {env : Env} {e : Entry} {k : BlockHash} :
    k ∈ e.needs env ↔ (e.previous ≠ 0 ∧ e.previous = k) ∨ e.source env = some k := by
  unfold needs
  rw [List.mem_append, Option.mem_toList]
  refine or_congr ?_ Iff.rfl
  split_ifs with hp
  · exact ⟨fun h => ⟨hp, (List.mem_singleton.mp h).symm⟩, fun h => List.mem_singleton.mpr h.2.symm⟩
  · exact ⟨fun h => absurd h (by simp), fun h => absurd h.1 hp⟩

theorem length_needs_le (env : Env) (e : Entry) : (e.needs env).length ≤ 2 := by
  unfold needs
  cases e.source env <;> split_ifs <;> simp

end Entry

namespace BlockLattice

variable {env : Env} {U : Set Block} {L M : BlockLattice env U} {e : Entry} {h : BlockHash}

theorem exists_of_mem_needs {k : BlockHash} (he : L.find h = some e) (hk : k ∈ e.needs env) :
    ∃ x, L.find k = some x ∧ x.time < e.time := by
  rcases Entry.mem_needs_iff.mp hk with ⟨hne, rfl⟩ | hs
  · obtain ⟨p, hp, htime, -⟩ := L.exists_previous he hne
    exact ⟨p, hp, htime⟩
  · obtain ⟨q, hq, htime, -⟩ := L.exists_source he hs
    exact ⟨q, hq, htime⟩

/-- Times that grow along dependencies and start at the genesis block. -/
structure Timing (L : BlockLattice env U) where
  time : Entry → Nat
  genesis : time env.genesisEntry = 0
  grows : ∀ {h e k x}, L.find h = some e → k ∈ e.needs env → L.find k = some x →
    time x < time e

theorem exists_of_get_timed {time : Entry → Nat}
    (he : (L.entries.mapValues (fun x => x.timed (time x))).get h = some e) :
    ∃ x, L.entries.get h = some x ∧ x.timed (time x) = e := by
  rw [Table.get_mapValues] at he
  exact Option.map_eq_some_iff.mp he

def retime (L : BlockLattice env U) (τ : L.Timing) : BlockLattice env U where
  entries := L.entries.mapValues (fun e => e.timed (τ.time e))
  keyed := by
    intro h e he
    obtain ⟨x, hx, rfl⟩ := exists_of_get_timed he
    exact (L.keyed hx : x.hash = h)
  hashed := by
    intro h e he
    obtain ⟨x, hx, rfl⟩ := exists_of_get_timed he
    exact (L.hashed hx : x.block.hash env = h)
  known := by
    intro h e he
    obtain ⟨x, hx, rfl⟩ := exists_of_get_timed he
    exact (L.known hx : x.block ∈ U)
  genesis := by
    rw [Table.get_mapValues, L.genesis, Option.map_some, τ.genesis]
    rfl
  account_ne_zero := by
    intro h e he
    obtain ⟨x, hx, rfl⟩ := exists_of_get_timed he
    exact (L.account_ne_zero hx : x.account ≠ 0)
  lawful := by
    intro h e he
    obtain ⟨x, hx, rfl⟩ := exists_of_get_timed he
    exact (L.lawful hx : x.Lawful)
  opening := by
    intro h e he hz
    obtain ⟨x, hx, rfl⟩ := exists_of_get_timed he
    obtain ⟨h₁, h₂, h₃, h₄, h₅, h₆⟩ := L.opening hx hz
    exact ⟨h₁, h₂, h₃, h₄, h₅, h₆⟩
  chain := by
    intro h e he hne
    obtain ⟨x, hx, rfl⟩ := exists_of_get_timed he
    obtain ⟨p, hp, -, h₁, h₂, h₃, h₄, h₅, h₆⟩ := L.chain hx hne
    refine ⟨p.timed (τ.time p), ?_, ?_, h₁, h₂, h₃, h₄, h₅, h₆⟩
    · rw [Table.get_mapValues]
      exact congrArg (Option.map _) hp
    · exact τ.grows hx (Entry.mem_needs_iff.mpr (.inl ⟨hne, rfl⟩)) hp
  sent := by
    intro h e y he hs
    obtain ⟨x, hx, rfl⟩ := exists_of_get_timed he
    obtain ⟨q, hq, -, hdest, hamount⟩ := L.sent hx hs
    refine ⟨q.timed (τ.time q), ?_, ?_, hdest, hamount⟩
    · rw [Table.get_mapValues, hq]
      rfl
    · exact τ.grows hx (Entry.mem_needs_iff.mpr (.inr hs)) hq
  open_unique := by
    intro h e h' e' he he' hz hz' hacc
    obtain ⟨x, hx, rfl⟩ := exists_of_get_timed he
    obtain ⟨x', hx', rfl⟩ := exists_of_get_timed he'
    rw [L.open_unique hx hx' hz hz' hacc]
  no_fork := by
    intro h e h' e' he he' hne hprev
    obtain ⟨x, hx, rfl⟩ := exists_of_get_timed he
    obtain ⟨x', hx', rfl⟩ := exists_of_get_timed he'
    rw [L.no_fork hx hx' hne hprev]
  no_double_receive := by
    intro h e h' e' y he he' hs hs'
    obtain ⟨x, hx, rfl⟩ := exists_of_get_timed he
    obtain ⟨x', hx', rfl⟩ := exists_of_get_timed he'
    rw [L.no_double_receive hx hx' hs hs']

section Retime

variable (τ : L.Timing)

theorem find_retime (h : BlockHash) :
    (L.retime τ).find h = (L.find h).map (fun e => e.timed (τ.time e)) :=
  Table.get_mapValues _ _ _

theorem child_retime (h : BlockHash) :
    (L.retime τ).child h = (L.child h).map (fun e => e.timed (τ.time e)) := by
  unfold child
  exact Table.find?_mapValues _ (fun x : Entry => decide (x.previous = h)) L.entries

theorem receiver_retime (h : BlockHash) :
    (L.retime τ).receiver h = (L.receiver h).map (fun e => e.timed (τ.time e)) := by
  unfold receiver
  exact Table.find?_mapValues _ (fun x : Entry => decide (x.source env = some h)) L.entries

theorem head_retime (a : Account) :
    (L.retime τ).head a = (L.head a).map (fun e => e.timed (τ.time e)) := by
  unfold head
  simp only [child_retime, Option.isNone_map]
  exact Table.find?_mapValues _
    (fun x : Entry => decide (x.account = a) && (L.child x.hash).isNone) L.entries

def Timing.trans (σ : (L.retime τ).Timing) : L.Timing where
  time := fun e => σ.time (e.timed (τ.time e))
  genesis := by
    rw [τ.genesis]
    exact σ.genesis
  grows := by
    intro h e k x he hk hx
    refine σ.grows (h := h) (k := k) ?_ hk ?_
    · rw [find_retime, he]
      rfl
    · rw [find_retime, hx]
      rfl

theorem retime_retime (σ : (L.retime τ).Timing) : (L.retime τ).retime σ = L.retime (τ.trans σ) := by
  refine eq_of_find_eq fun h => ?_
  rw [find_retime, find_retime, find_retime, Option.map_map]
  rfl

def Timing.own (L : BlockLattice env U) : L.Timing where
  time := Entry.time
  genesis := rfl
  grows := by
    intro h e k x he hk hx
    obtain ⟨x', hx', htime⟩ := exists_of_mem_needs he hk
    cases hx.symm.trans hx'
    exact htime

theorem retime_own : L.retime (Timing.own L) = L := by
  refine eq_of_find_eq fun h => ?_
  rw [find_retime]
  cases L.find h <;> rfl

end Retime

theorem exists_of_height_le (L : BlockLattice env U) :
    ∀ (d : Nat) {h : BlockHash} {x : Entry} {n : Nat},
      L.find h = some x → 0 < n → x.height = n + d →
      ∃ y, L.find y.hash = some y ∧ y.account = x.account ∧ y.height = n := by
  intro d
  induction d with
  | zero =>
    intro h x n hx _ hn
    exact ⟨x, L.find_hash hx, rfl, hn⟩
  | succ d ih =>
    intro h x n hx hpos hn
    have hne : x.previous ≠ 0 := by
      intro hz
      have hone := (L.opening hx hz).height
      omega
    obtain ⟨p, hp, -, hext⟩ := L.exists_previous hx hne
    have hheight := hext.height
    obtain ⟨y, hy, hacc, hyn⟩ := ih hp hpos (by omega)
    exact ⟨y, hy, hacc.trans hext.account.symm, hyn⟩

theorem head_eq_none_of_opening (hsub : M.Sub L) (he : L.find h = some e) (hz : e.previous = 0)
    (hfresh : M.find e.hash = none) : M.head e.account = none := by
  cases hx : M.head e.account with
  | none => rfl
  | some x =>
    obtain ⟨hfind, hacc, -⟩ := (M.head_eq_some_iff _ x).mp hx
    have hpos := M.height_pos hfind
    obtain ⟨y, hy, hyacc, hone⟩ :=
      M.exists_of_height_le (x.height - 1) hfind Nat.one_pos (by omega)
    have hye : y = e := L.eq_of_height_eq 1 (hsub hy) he (hyacc.trans hacc) hone
      (L.opening he hz).height
    simp [hye, hfresh] at hy

theorem appendable_of_sub (hsub : M.Sub L) (he : L.find e.hash = some e)
    (hfresh : M.find e.hash = none) (hneeds : ∀ k ∈ e.needs env, (M.find k).isSome = true)
    (htime : ∀ {h x}, M.find h = some x → x.time < e.time) : M.Appendable e where
  known := L.known he
  hashed := L.hashed he
  fresh := hfresh
  account_ne_zero := L.account_ne_zero he
  lawful := L.lawful he
  latest := htime
  opening := fun hz => ⟨L.opening he hz, head_eq_none_of_opening hsub he hz hfresh⟩
  chain := by
    intro hne
    obtain ⟨p, hp⟩ := Option.isSome_iff_exists.mp
      (hneeds e.previous (Entry.mem_needs_iff.mpr (.inl ⟨hne, rfl⟩)))
    obtain ⟨p', hp', -, hext⟩ := L.exists_previous he hne
    cases (hsub hp).symm.trans hp'
    refine ⟨p, hp, (M.child_eq_none_iff _).mpr ?_, hext⟩
    intro k c hc hprev
    have hce : c = e := (L.no_fork he (hsub hc) hne hprev.symm).symm
    rw [hce] at hc
    simp [M.find_hash hc] at hfresh
  sent := by
    intro x hs
    obtain ⟨q, hq⟩ := Option.isSome_iff_exists.mp
      (hneeds x (Entry.mem_needs_iff.mpr (.inr hs)))
    obtain ⟨q', hq', -, hdest, hamount⟩ := L.exists_source he hs
    cases (hsub hq).symm.trans hq'
    refine ⟨q, hq, hdest, hamount, (M.receiver_eq_none_iff _).mpr ?_⟩
    intro k r hr hsource
    have hre : r = e := (L.no_double_receive he (hsub hr) hs hsource).symm
    rw [hre] at hr
    simp [M.find_hash hr] at hfresh

section Delay

variable (hsub : M.Sub L) {T : Nat} (hT : ∀ {h x}, M.find h = some x → x.time < T)

def delay (hsub : M.Sub L) {T : Nat} (hT : ∀ {h x}, M.find h = some x → x.time < T) :
    L.Timing where
  time := fun e => if (M.find e.hash).isSome = true then e.time else e.time + T
  genesis := by
    have hgen : (M.find env.genesisEntry.hash).isSome = true :=
      Option.isSome_iff_exists.mpr ⟨_, M.genesis⟩
    rw [if_pos hgen]
    rfl
  grows := by
    intro h e k x he hk hx
    obtain ⟨x', hx', htime⟩ := exists_of_mem_needs he hk
    cases hx.symm.trans hx'
    rw [L.keyed he, L.keyed hx]
    by_cases hM : (M.find h).isSome = true
    · obtain ⟨e', he'⟩ := Option.isSome_iff_exists.mp hM
      cases he.symm.trans (hsub he')
      obtain ⟨y, hy, -⟩ := exists_of_mem_needs he' hk
      rw [if_pos hM, if_pos (Option.isSome_iff_exists.mpr ⟨y, hy⟩)]
      exact htime
    · rw [if_neg hM]
      by_cases hN : (M.find k).isSome = true
      · obtain ⟨y, hy⟩ := Option.isSome_iff_exists.mp hN
        cases hx.symm.trans (hsub hy)
        have hlt := hT hy
        rw [if_pos hN]
        omega
      · rw [if_neg hN]
        omega

theorem sub_delay : M.Sub (L.retime (delay hsub hT)) := by
  intro h x hx
  rw [find_retime, hsub hx]
  show some (x.timed (if (M.find x.hash).isSome = true then x.time else x.time + T)) = some x
  rw [M.find_hash hx]
  rfl

theorem exists_delayed {τ : L.Timing} {N : BlockLattice env U} (hN : N.Sub (L.retime τ))
    (hT : ∀ {h x}, N.find h = some x → x.time < T) (he : L.find h = some e) :
    ∃ t, ((L.retime τ).retime (delay hN hT)).find h = some (e.timed t) :=
  ⟨(delay hN hT).time (e.timed (τ.time e)), by
    rw [find_retime, find_retime, he]
    rfl⟩

theorem lt_time_of_delay (he : (L.retime (delay hsub hT)).find h = some e)
    (hfresh : M.find h = none) : T ≤ e.time := by
  rw [find_retime] at he
  obtain ⟨x, hx, rfl⟩ := Option.map_eq_some_iff.mp he
  show T ≤ if (M.find x.hash).isSome = true then x.time else x.time + T
  rw [L.keyed hx, hfresh]
  simp

end Delay

end BlockLattice

end Badem
