import Mathlib.Tactic

/-!
# Contests

A choice leads by a margin if its support exceeds every other support by more than the margin.
Comparing the greatest support with the next smaller one, modulo `B`, is a test for a leader;
`test_sound_iff` says when it goes wrong.
-/

namespace Badem

universe u

structure Contest (κ : Type u) where
  voted : κ → Prop
  support : κ → Nat

namespace Contest

variable {κ : Type u} (c : Contest κ)

def IsTop (k : κ) : Prop := ∀ {x}, c.voted x → c.support x ≤ c.support k

def Leads (margin : Nat) (k : κ) : Prop :=
  ∀ x, c.voted x → x ≠ k → c.support x + margin < c.support k

/-- `S` is the greatest support below that of `k`, or zero. -/
structure RunnerUp (k : κ) (S : Nat) : Prop where
  attained : S = 0 ∨ ∃ x, c.voted x ∧ c.support x = S ∧ S < c.support k
  greatest : ∀ {x}, c.voted x → c.support x < c.support k → c.support x ≤ S

/-- No support below that of `k` overflows with the margin, and `k` has no rival or one below the
margin. -/
def Decided (B margin : Nat) (k : κ) : Prop :=
  (∀ x, c.voted x → c.support x < c.support k → c.support x + margin < B) ∧
    ((∀ x, c.voted x → c.support x = c.support k → x = k) ∨ c.support k ≤ margin ∨
      ∃ x, c.voted x ∧ c.support x < c.support k ∧ c.support k ≤ c.support x + margin)

variable {c} {B margin S : Nat} {k : κ}

theorem runnerUp_add_lt (hS : c.RunnerUp k S) (hmargin : margin < B)
    (h : ∀ x, c.voted x → c.support x < c.support k → c.support x + margin < B) :
    S + margin < B := by
  rcases hS.attained with rfl | ⟨x, hx, rfl, hlt⟩
  · rwa [Nat.zero_add]
  · exact h x hx hlt

theorem leads_of_decided (hS : c.RunnerUp k S) (htop : c.IsTop k) (hmargin : margin < B)
    (hdecided : c.Decided B margin k) (htest : (S + margin) % B < c.support k) :
    c.Leads margin k := by
  obtain ⟨hbound, hcases⟩ := hdecided
  rw [Nat.mod_eq_of_lt (runnerUp_add_lt hS hmargin hbound)] at htest
  have hunique : ∀ x, c.voted x → c.support x = c.support k → x = k := by
    rcases hcases with hunique | hreach | ⟨x, hx, hlt, hreach⟩
    · exact hunique
    · omega
    · have hle := hS.greatest hx hlt
      omega
  intro x hx hne
  have hlt : c.support x < c.support k :=
    lt_of_le_of_ne (htop hx) (fun heq => hne (hunique x hx heq))
  have hle := hS.greatest hx hlt
  omega

theorem test_of_overflow (hS : c.RunnerUp k S) (hmargin : margin < B) (htop : c.support k < B)
    (hover : B ≤ S + margin) : (S + margin) % B < c.support k := by
  rcases hS.attained with rfl | ⟨x, -, -, hlt⟩
  · omega
  · have hmod : (S + margin) % B = S + margin - B := by
      rw [Nat.mod_eq_sub_mod hover, Nat.mod_eq_of_lt (by omega)]
    omega

theorem decided_of_sound (hS : c.RunnerUp k S) (hmargin : margin < B) (hB : c.support k < B)
    (hsound : (S + margin) % B < c.support k → c.Leads margin k) : c.Decided B margin k := by
  constructor
  · intro x hx hlt
    by_contra hover
    have hle := hS.greatest hx hlt
    have hleads := hsound (test_of_overflow hS hmargin hB (by omega))
    have hmargin := hleads x hx (fun heq => by rw [heq] at hlt; omega)
    omega
  · by_contra hcases
    push Not at hcases
    obtain ⟨⟨x, hx, heq, hne⟩, hpos, hsmall⟩ := hcases
    have hsum : S + margin < c.support k := by
      rcases hS.attained with rfl | ⟨y, hy, rfl, hlt⟩
      · omega
      · exact hsmall y hy hlt
    have hleads := hsound (by rw [Nat.mod_eq_of_lt (by omega)]; exact hsum)
    have hmargin := hleads x hx hne
    omega

theorem test_sound_iff
    (hS : c.RunnerUp k S) (htop : c.IsTop k) (hmargin : margin < B) (hB : c.support k < B) :
    ((S + margin) % B < c.support k → c.Leads margin k) ↔ c.Decided B margin k :=
  ⟨decided_of_sound hS hmargin hB, leads_of_decided hS htop hmargin⟩

end Contest

end Badem
