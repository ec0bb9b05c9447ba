import Badem.Abstract.Dependents
import Mathlib.Logic.Relation

/-!
# Ancestors in a chain

A block names the block before it by its hash, so its ancestors are the same in every lattice
that has it.
-/

namespace Badem

open Mdb

def Precedes (env : Env) (U : Set Block) (h h' : BlockHash) : Prop :=
  h ≠ 0 ∧ ∃ b ∈ U, b.hash env = h' ∧ b.previous = h

/-- The blocks between the two hashes follow one another. -/
def Ancestor (env : Env) (U : Set Block) : BlockHash → BlockHash → Prop :=
  Relation.ReflTransGen (Precedes env U)

section Ancestry

variable {env : Env} {U : Set Block} {h : BlockHash} {b : Block}

theorem Precedes.eq_previous (H : CollisionFree env U) (hb : b ∈ U)
    (hprec : Precedes env U h (b.hash env)) : h = b.previous := by
  obtain ⟨-, c, hc, hhash, hprev⟩ := hprec
  rw [← hprev]
  exact Block.previous_eq_of_hashables_eq (H.injective c hc b hb hhash)

theorem Ancestor.previous (H : CollisionFree env U) (hb : b ∈ U)
    (hanc : Ancestor env U h (b.hash env)) (hne : h ≠ b.hash env) :
    Ancestor env U h b.previous := by
  rcases Relation.ReflTransGen.cases_tail hanc with heq | ⟨h', hinit, hlast⟩
  · exact absurd heq.symm hne
  · exact hlast.eq_previous H hb ▸ hinit

namespace BlockLattice

variable (L : BlockLattice env U) {h h' : BlockHash} {e : Entry}

theorem find_of_ancestor (H : CollisionFree env U) (hanc : Ancestor env U h h')
    (he : L.find h' = some e) : ∃ x, L.find h = some x := by
  induction hanc generalizing e with
  | refl => exact ⟨e, he⟩
  | tail _ hlast ih =>
    have hprec := hlast
    rw [← L.hashed he] at hprec
    have hprev : _ = e.previous := hprec.eq_previous H (L.known he)
    have hne := hlast.1
    rw [hprev] at hne ih
    obtain ⟨p, hp, -, -⟩ := L.exists_previous he hne
    exact ih hp

theorem precedes_of_previous (H : CollisionFree env U) {p : Entry} (he : L.find h = some e)
    (hp : L.find e.previous = some p) : Precedes env U p.hash e.hash := by
  rw [L.keyed hp, L.keyed he]
  exact ⟨L.hash_ne_zero H hp, e.block, L.known he, L.hashed he, rfl⟩

theorem ancestor_of_height_le (H : CollisionFree env U) (n : Nat) :
    ∀ {h h' : BlockHash} {e e' : Entry}, L.find h = some e → L.find h' = some e' →
      e.account = e'.account → e.height + n = e'.height → Ancestor env U e.hash e'.hash := by
  induction n with
  | zero =>
    intro h h' e e' he he' hacc hn
    rw [L.eq_of_height_eq _ he he' hacc rfl hn.symm]
    exact Relation.ReflTransGen.refl
  | succ n ih =>
    intro h h' e e' he he' hacc hn
    have hpos := L.height_pos he
    have hne : e'.previous ≠ 0 := by
      intro hzero
      have hone := (L.opening he' hzero).height
      omega
    obtain ⟨p, hp, -, hext⟩ := L.exists_previous he' hne
    have hheight := hext.height
    have hinit := ih he hp (hacc.trans hext.account) (by omega)
    exact hinit.tail (L.precedes_of_previous H he' hp)

theorem ancestor_total (H : CollisionFree env U) {e' : Entry}
    (he : L.find h = some e) (he' : L.find h' = some e') (hacc : e.account = e'.account) :
    Ancestor env U e.hash e'.hash ∨ Ancestor env U e'.hash e.hash := by
  rcases Nat.le_total e.height e'.height with hle | hle
  · exact .inl (L.ancestor_of_height_le H _ he he' hacc (Nat.add_sub_of_le hle))
  · exact .inr (L.ancestor_of_height_le H _ he' he hacc.symm (Nat.add_sub_of_le hle))

end BlockLattice

end Ancestry

end Badem
