import Mathlib.Algebra.Order.BigOperators.Group.List
import Mathlib.Algebra.GroupWithZero.Nat
import Mathlib.Algebra.Order.Group.Nat
import Mathlib.Data.List.Count

/-!
# Waiting lists

Items are taken from a queue and accepted once everything they need has been accepted.  An item
that needs more waits under the first key that is missing and is queued again when that key is
accepted.  The orders of the queue and of the releases are left open.
-/

namespace Scheduling

universe u v

/-- The key of every item, and the keys it needs in the order they are looked for. -/
structure Items (κ : Type u) (α : Type v) where
  key : α → κ
  needs : α → List κ

/-- Accepted keys, items waiting under a missing key, and items to be handled. -/
structure Pool (κ : Type u) (α : Type v) where
  accepted : κ → Bool
  waiting : List (κ × α)
  queue : List α

variable {κ : Type u} {α : Type v}

namespace Items

variable (I : Items κ α) {accepted accepted' : κ → Bool} {a : α} {k : κ}

def missing (accepted : κ → Bool) (a : α) : Option κ :=
  (I.needs a).find? (fun k => !accepted k)

def lack (accepted : κ → Bool) (a : α) : Nat :=
  (I.needs a).countP (fun k => !accepted k)

theorem of_missing (h : I.missing accepted a = some k) : k ∈ I.needs a ∧ accepted k = false := by
  refine ⟨List.mem_of_find?_eq_some h, ?_⟩
  simpa using List.find?_some h

theorem lack_le_length (accepted : κ → Bool) (a : α) : I.lack accepted a ≤ (I.needs a).length :=
  List.countP_le_length

theorem lack_anti (h : ∀ k, accepted k = true → accepted' k = true) (a : α) :
    I.lack accepted' a ≤ I.lack accepted a := by
  refine List.countP_mono_left ?_
  intro k _ hk
  cases hacc : accepted k with
  | false => rfl
  | true => simp [h k hacc] at hk

theorem lack_lt (h : ∀ k, accepted k = true → accepted' k = true) (hk : k ∈ I.needs a)
    (hold : accepted k = false) (hnew : accepted' k = true) :
    I.lack accepted' a + 1 ≤ I.lack accepted a := by
  have himp : ∀ x, (!accepted' x) = true → (!accepted x) = true := by
    intro x hx
    cases hacc : accepted x with
    | false => rfl
    | true => simp [h x hacc] at hx
  unfold lack
  generalize I.needs a = l at hk
  induction l with
  | nil => simp at hk
  | cons x l ih =>
    rw [List.countP_cons, List.countP_cons]
    rcases List.mem_cons.mp hk with rfl | hmem
    · have hle := List.countP_mono_left (l := l) (fun y _ => himp y)
      simp only [hold, hnew]
      simpa using hle
    · have htail := ih hmem
      grind

end Items

namespace Pool

variable (I : Items κ α) (p : Pool κ α)

section Handling

variable [DecidableEq κ]

def under (k : κ) : List α := (p.waiting.filter (fun x => decide (x.1 = k))).map Prod.snd

def wait (k : κ) (a : α) : Pool κ α :=
  if (p.under k).any (fun b => decide (I.key b = I.key a)) = true then p
  else { p with waiting := p.waiting ++ [(k, a)] }

def accept (k : κ) (released rest : List α) : Pool κ α where
  accepted := fun x => decide (x = k) || p.accepted x
  waiting := p.waiting.filter (fun x => !decide (x.1 = k))
  queue := released ++ rest

theorem mem_under {k : κ} {a : α} : a ∈ p.under k ↔ (k, a) ∈ p.waiting := by
  unfold under
  simp

/-- Handling the first item of the queue. -/
inductive Step : Pool κ α → Pool κ α → Prop
  | accept {p : Pool κ α} {a : α} {rest released : List α} :
      p.queue = a :: rest →
      (p.accepted (I.key a) = true ∨ I.missing p.accepted a = none) →
      released.Perm (p.under (I.key a)) →
      Step p (p.accept (I.key a) released rest)
  | wait {p : Pool κ α} {a : α} {rest : List α} {k : κ} :
      p.queue = a :: rest →
      p.accepted (I.key a) = false →
      I.missing p.accepted a = some k →
      Step p (Pool.wait I { p with queue := rest } k a)

/-- Runs with the items that have arrived and the number of items handled. -/
inductive Run (p₀ : Pool κ α) : List α → Nat → Pool κ α → Prop
  | start : Run p₀ [] 0 p₀
  | arrive {l : List α} {n : Nat} {p : Pool κ α} (a : α) :
      Run p₀ l n p →
      Run p₀ (a :: l) n { p with queue := a :: p.queue }
  | handle {l : List α} {n : Nat} {p q : Pool κ α} :
      Run p₀ l n p →
      Step I p q →
      Run p₀ l (n + 1) q

end Handling

/-- What holds in every pool of a run: nothing is lost, and whatever waits has reason to. -/
structure Sound (p₀ : Pool κ α) (l : List α) (p : Pool κ α) : Prop where
  queued : ∀ a ∈ p.queue, a ∈ l
  waits : ∀ k a, (k, a) ∈ p.waiting → a ∈ l ∧ k ∈ I.needs a ∧ p.accepted k = false
  kept : ∀ a ∈ l, p.accepted (I.key a) = true ∨
    ∃ b, I.key b = I.key a ∧ (b ∈ p.queue ∨ ∃ k, (k, b) ∈ p.waiting)
  mono : ∀ k, p₀.accepted k = true → p.accepted k = true
  arrived : ∀ k, p.accepted k = true → p₀.accepted k = true ∨ ∃ a ∈ l, I.key a = k

/-- A pool in which nothing waits and nothing is queued. -/
structure Idle (p : Pool κ α) : Prop where
  waiting : p.waiting = []
  queue : p.queue = []

variable {I p} {p₀ q : Pool κ α} {l : List α} {n : Nat}

theorem Sound.start (h : p₀.Idle) : Sound I p₀ [] p₀ where
  queued := by simp [h.queue]
  waits := by simp [h.waiting]
  kept := by simp
  mono := fun _ hk => hk
  arrived := fun _ hk => .inl hk

theorem Sound.arrive (h : Sound I p₀ l p) (a : α) :
    Sound I p₀ (a :: l) { p with queue := a :: p.queue } where
  queued := by
    intro b hb
    rcases List.mem_cons.mp hb with rfl | hb
    · exact .head _
    · exact .tail _ (h.queued b hb)
  waits := by
    intro k b hb
    obtain ⟨hmem, hneed, hacc⟩ := h.waits k b hb
    exact ⟨.tail _ hmem, hneed, hacc⟩
  kept := by
    intro b hb
    rcases List.mem_cons.mp hb with rfl | hb
    · exact .inr ⟨b, rfl, .inl (.head _)⟩
    · rcases h.kept b hb with hacc | ⟨c, hkey, hc | hc⟩
      · exact .inl hacc
      · exact .inr ⟨c, hkey, .inl (.tail _ hc)⟩
      · exact .inr ⟨c, hkey, .inr hc⟩
  mono := h.mono
  arrived := by
    intro k hk
    rcases h.arrived k hk with hstart | ⟨b, hb, hkey⟩
    · exact .inl hstart
    · exact .inr ⟨b, .tail _ hb, hkey⟩

section Steps

variable [DecidableEq κ]

theorem mem_waiting_wait {k k' : κ} {a b : α} (h : (k', b) ∈ (p.wait I k a).waiting) :
    (k', b) ∈ p.waiting ∨ (k' = k ∧ b = a) := by
  unfold wait at h
  split_ifs at h
  · exact .inl h
  · simpa using h

theorem waiting_subset_wait (k : κ) (a : α) {x : κ × α} (h : x ∈ p.waiting) :
    x ∈ (p.wait I k a).waiting := by
  unfold wait
  split_ifs
  · exact h
  · exact List.mem_append_left _ h

theorem exists_mem_wait (k : κ) (a : α) :
    ∃ b, I.key b = I.key a ∧ (k, b) ∈ (p.wait I k a).waiting := by
  unfold wait
  split_ifs with hany
  · obtain ⟨b, hb, hkey⟩ := List.any_eq_true.mp hany
    exact ⟨b, of_decide_eq_true hkey, p.mem_under.mp hb⟩
  · exact ⟨a, rfl, by simp⟩

@[simp] theorem wait_queue (k : κ) (a : α) : (p.wait I k a).queue = p.queue := by
  unfold wait
  split_ifs <;> rfl

@[simp] theorem wait_accepted (k : κ) (a : α) : (p.wait I k a).accepted = p.accepted := by
  unfold wait
  split_ifs <;> rfl

theorem Sound.step (h : Sound I p₀ l p) (hstep : Step I p q) : Sound I p₀ l q := by
  cases hstep with
  | @accept a rest released hqueue _ hperm =>
    have ha : a ∈ l := h.queued a (by rw [hqueue]; exact .head _)
    have hrel : ∀ b, b ∈ released ↔ (I.key a, b) ∈ p.waiting := by
      intro b
      rw [hperm.mem_iff, mem_under]
    refine
      { queued := ?_
        waits := ?_
        kept := ?_
        mono := ?_
        arrived := ?_ }
    · intro b hb
      rcases List.mem_append.mp hb with hb | hb
      · exact (h.waits _ b ((hrel b).mp hb)).1
      · exact h.queued b (by rw [hqueue]; exact .tail _ hb)
    · intro k b hb
      obtain ⟨hmem, hk⟩ := List.mem_filter.mp hb
      obtain ⟨hl, hneed, hacc⟩ := h.waits k b hmem
      refine ⟨hl, hneed, ?_⟩
      show (decide (k = I.key a) || p.accepted k) = false
      simpa [hacc] using hk
    · intro b hb
      rcases h.kept b hb with hacc | ⟨c, hkey, hc | ⟨k, hc⟩⟩
      · exact .inl (by simp [accept, hacc])
      · rw [hqueue] at hc
        rcases List.mem_cons.mp hc with rfl | hc
        · exact .inl (by simp [accept, hkey])
        · exact .inr ⟨c, hkey, .inl (List.mem_append_right _ hc)⟩
      · by_cases hk : k = I.key a
        · subst hk
          exact .inr ⟨c, hkey, .inl (List.mem_append_left _ ((hrel c).mpr hc))⟩
        · exact .inr ⟨c, hkey, .inr ⟨k, List.mem_filter.mpr ⟨hc, by simpa using hk⟩⟩⟩
    · intro k hk
      simp [accept, h.mono k hk]
    · intro k hk
      rcases Bool.or_eq_true _ _ ▸ hk with hk | hk
      · exact .inr ⟨a, ha, (of_decide_eq_true hk).symm⟩
      · exact h.arrived k hk
  | @wait a rest k hqueue hacc hmiss =>
    have ha : a ∈ l := h.queued a (by rw [hqueue]; exact .head _)
    obtain ⟨hneed, hfalse⟩ := I.of_missing hmiss
    refine
      { queued := ?_
        waits := ?_
        kept := ?_
        mono := ?_
        arrived := ?_ }
    · intro b hb
      rw [wait_queue] at hb
      exact h.queued b (by rw [hqueue]; exact .tail _ hb)
    · intro k' b hb
      rw [wait_accepted]
      rcases mem_waiting_wait hb with hb | ⟨rfl, rfl⟩
      · exact h.waits k' b hb
      · exact ⟨ha, hneed, hfalse⟩
    · intro b hb
      rw [wait_accepted, wait_queue]
      rcases h.kept b hb with hacc | ⟨c, hkey, hc | ⟨k', hc⟩⟩
      · exact .inl hacc
      · rw [hqueue] at hc
        rcases List.mem_cons.mp hc with rfl | hc
        · obtain ⟨d, hd, hmem⟩ := exists_mem_wait (p := { p with queue := rest }) (I := I) k c
          exact .inr ⟨d, hd.trans hkey, .inr ⟨k, hmem⟩⟩
        · exact .inr ⟨c, hkey, .inl hc⟩
      · exact .inr ⟨c, hkey, .inr ⟨k', waiting_subset_wait k a hc⟩⟩
    · intro k' hk'
      rw [wait_accepted]
      exact h.mono k' hk'
    · intro k' hk'
      rw [wait_accepted] at hk'
      exact h.arrived k' hk'

theorem Run.sound (h₀ : p₀.Idle) (h : Run I p₀ l n p) : Sound I p₀ l p := by
  induction h with
  | start => exact Sound.start h₀
  | arrive a _ ih => exact ih.arrive a
  | handle _ hstep ih => exact ih.step hstep

end Steps

theorem Sound.complete (h : Sound I p₀ l p) (hempty : p.queue = []) (rank : κ → Nat)
    (hrank : ∀ a ∈ l, ∀ k ∈ I.needs a, rank k < rank (I.key a))
    (hinj : ∀ a ∈ l, ∀ b ∈ l, I.key a = I.key b → a = b)
    (hclosed : ∀ a ∈ l, ∀ k ∈ I.needs a, p₀.accepted k = true ∨ ∃ b ∈ l, I.key b = k) :
    (∀ a ∈ l, p.accepted (I.key a) = true) ∧ p.waiting = [] := by
  have hneeds : ∀ a ∈ l, (∀ b ∈ l, rank (I.key b) < rank (I.key a) →
      p.accepted (I.key b) = true) → ∀ k ∈ I.needs a, p.accepted k = true := by
    intro a ha hbelow k hk
    rcases hclosed a ha k hk with hstart | ⟨b, hb, rfl⟩
    · exact h.mono k hstart
    · exact hbelow b hb (hrank a ha _ hk)
  have hall : ∀ m, ∀ a ∈ l, rank (I.key a) = m → p.accepted (I.key a) = true := by
    intro m
    induction m using Nat.strong_induction_on with
    | _ m ih =>
      intro a ha hm
      have hready := hneeds a ha (fun b hb hlt => ih _ (hm ▸ hlt) b hb rfl)
      rcases h.kept a ha with hacc | ⟨b, hkey, hb | ⟨k, hb⟩⟩
      · exact hacc
      · simp [hempty] at hb
      · obtain ⟨hmem, hneed, hfalse⟩ := h.waits k b hb
        obtain rfl := hinj b hmem a ha hkey
        simp [hready k hneed] at hfalse
  refine ⟨fun a ha => hall _ a ha rfl, ?_⟩
  rw [List.eq_nil_iff_forall_not_mem]
  rintro ⟨k, a⟩ hmem
  obtain ⟨ha, hneed, hfalse⟩ := h.waits k a hmem
  simp [hneeds a ha (fun b hb _ => hall _ b hb rfl) k hneed] at hfalse

/-! ## The length of a run -/

def credit (I : Items κ α) (p : Pool κ α) : Nat :=
  (p.queue.map (fun a => I.lack p.accepted a + 1)).sum +
    (p.waiting.map (fun x => I.lack p.accepted x.2)).sum

variable [DecidableEq κ]

theorem sum_map_filter_add (f : κ × α → Nat) (k : κ) (w : List (κ × α)) :
    ((w.filter (fun x => decide (x.1 = k))).map f).sum +
      ((w.filter (fun x => !decide (x.1 = k))).map f).sum = (w.map f).sum := by
  induction w with
  | nil => rfl
  | cons x w ih => by_cases hx : x.1 = k <;> simp [hx] <;> omega

theorem Sound.credit_step (h : Sound I p₀ l p) (hstep : Step I p q) :
    credit I q + 1 ≤ credit I p := by
  cases hstep with
  | @accept a rest released hqueue _ hperm =>
    have hmono : ∀ k, p.accepted k = true →
        (p.accept (I.key a) released rest).accepted k = true := by
      intro k hk
      simp [accept, hk]
    have hrest : (rest.map (fun b =>
          I.lack (p.accept (I.key a) released rest).accepted b + 1)).sum ≤
        (rest.map (fun b => I.lack p.accepted b + 1)).sum :=
      List.sum_le_sum fun b _ => Nat.succ_le_succ (I.lack_anti hmono b)
    have hkept : ((p.waiting.filter (fun x => !decide (x.1 = I.key a))).map (fun x =>
          I.lack (p.accept (I.key a) released rest).accepted x.2)).sum ≤
        ((p.waiting.filter (fun x => !decide (x.1 = I.key a))).map (fun x =>
          I.lack p.accepted x.2)).sum :=
      List.sum_le_sum fun x _ => I.lack_anti hmono x.2
    have hreleased : (released.map (fun b =>
          I.lack (p.accept (I.key a) released rest).accepted b + 1)).sum ≤
        ((p.waiting.filter (fun x => decide (x.1 = I.key a))).map (fun x =>
          I.lack p.accepted x.2)).sum := by
      rw [(hperm.map _).sum_eq, under, List.map_map]
      refine List.sum_le_sum ?_
      rintro ⟨k, b⟩ hb
      obtain ⟨hmem, hk⟩ := List.mem_filter.mp hb
      obtain rfl : k = I.key a := of_decide_eq_true hk
      obtain ⟨-, hneed, hfalse⟩ := h.waits _ b hmem
      exact I.lack_lt hmono hneed hfalse (by simp [accept])
    have hsplit := sum_map_filter_add (fun x => I.lack p.accepted x.2) (I.key a) p.waiting
    simp only [credit, hqueue, List.map_cons, List.sum_cons]
    simp only [accept] at hrest hkept hreleased ⊢
    rw [List.map_append, List.sum_append]
    omega
  | @wait a rest k hqueue hacc hmiss =>
    simp only [credit, wait_queue, wait_accepted, hqueue, List.map_cons, List.sum_cons]
    unfold wait
    split_ifs
    · grind
    · grind

theorem Run.length_le (h₀ : p₀.Idle) (h : Run I p₀ l n p) :
    n + credit I p ≤ (l.map (fun a => (I.needs a).length + 1)).sum := by
  induction h with
  | start => simp [credit, h₀.waiting, h₀.queue]
  | @arrive l n p a _ ih =>
    have hlack := I.lack_le_length p.accepted a
    simp only [credit, List.map_cons, List.sum_cons] at ih ⊢
    omega
  | handle hrun hstep ih =>
    have hcredit := (hrun.sound h₀).credit_step hstep
    omega

end Pool

end Scheduling
