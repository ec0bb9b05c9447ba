import Badem.Refinement.Reachability

/-!
# Sums that throw and larger bounds

`Env.withChecked` lets sums of balances throw when they overflow.  What a computation returns
with checked sums it also returns with unchecked ones, so no sum of a reachable ledger wraps.
-/

namespace Badem

open LedgerProcessor

def Env.withChecked (env : Env) (checked : Bool) : Env := { env with checked := checked }

def Env.checking (env : Env) : Env := env.withChecked true

def Agrees {ε α : Type} (x y : Except ε α) : Prop := ∀ a, x = .ok a → y = .ok a

namespace Agrees

variable {ε α β : Type}

theorem refl (x : Except ε α) : Agrees x x := fun _ h => h

theorem bind {x y : Except ε α} {f g : α → Except ε β} (h : Agrees x y)
    (hf : ∀ a, Agrees (f a) (g a)) : Agrees (x >>= f) (y >>= g) := by
  intro b hb
  cases hx : x with
  | error e =>
    rw [hx] at hb
    exact absurd hb (by simp [Bind.bind, Except.bind])
  | ok a =>
    rw [hx] at hb
    rw [h a hx]
    exact hf a b hb

theorem ite {c : Prop} [Decidable c] {x y x' y' : Except ε α} (h : Agrees x y) (h' : Agrees x' y') :
    Agrees (if c then x else x') (if c then y else y') := by
  split_ifs <;> simp_all

end Agrees

section Visitors

variable (env : Env) (s : BlockStore) {c d : Bool} (hc : d = true → c = true)

@[simp] theorem hash_withChecked (b : Block) (c : Bool) :
    b.hash (env.withChecked c) = b.hash env := rfl

include hc in
theorem add_agrees (a b : Uint128) :
    Agrees ((env.withChecked c).add a b) ((env.withChecked d).add a b) := by
  intro x hx
  by_cases hlt : a.toNat + b.toNat < 2 ^ 128
  · simpa [Env.add_of_lt _ hlt] using hx
  · by_cases hthrow : c = true
    · rw [Env.add, if_pos ⟨hthrow, by omega⟩] at hx
      cases hx
    · rw [Env.add, if_neg (fun h => hthrow h.1)] at hx
      rw [Env.add, if_neg (fun h => hthrow (hc h.1))]
      exact hx

include hc in
theorem finish_agrees (v : BalanceVisitor) (x : Uint128) :
    Agrees (v.finish (env.withChecked c) x) (v.finish (env.withChecked d) x) :=
  (add_agrees env hc _ _).bind (fun _ => Agrees.refl _)

include hc in
theorem balanceVisit_agrees (v : BalanceVisitor) (b : Block) :
    Agrees (BalanceVisitor.visit (env.withChecked c) s v b)
      (BalanceVisitor.visit (env.withChecked d) s v b) := by
  cases b with
  | sendBlock b => exact finish_agrees env hc v _
  | receiveBlock b =>
    simp only [BalanceVisitor.visit, hash_withChecked]
    cases s.blockInfoGet ((Block.receiveBlock b).hash env) with
    | none => exact Agrees.refl _
    | some info => exact finish_agrees env hc v _
  | changeBlock b =>
    simp only [BalanceVisitor.visit, hash_withChecked]
    cases s.blockInfoGet ((Block.changeBlock b).hash env) with
    | none => exact Agrees.refl _
    | some info => exact finish_agrees env hc v _
  | _ => exact Agrees.refl _

include hc in
theorem visitorLoops_agree (fuel : Nat) :
    (∀ hash v, Agrees (amountLoop (env.withChecked c) s fuel hash v)
        (amountLoop (env.withChecked d) s fuel hash v)) ∧
      ∀ v, Agrees (balanceLoop (env.withChecked c) s fuel v)
        (balanceLoop (env.withChecked d) s fuel v) := by
  induction fuel with
  | zero => exact ⟨fun _ _ => Agrees.refl _, fun _ => Agrees.refl _⟩
  | succ fuel ih =>
    obtain ⟨iha, ihb⟩ := ih
    constructor
    · intro hash v
      rw [amountLoop, amountLoop]
      refine Agrees.ite (Agrees.refl _) (Agrees.ite ?_ ?_)
      · cases s.blockGet v.currentAmount with
        | none => exact Agrees.ite (iha _ _) (Agrees.refl _)
        | some b => exact iha _ _
      · exact (ihb _).bind (fun _ => iha _ _)
    · intro v
      rw [balanceLoop, balanceLoop]
      refine Agrees.ite (Agrees.refl _) (Agrees.ite ?_ ?_)
      · exact (iha _ _).bind (fun _ => (add_agrees env hc _ _).bind (fun _ => ihb _))
      · exact (Agrees.refl _).bind
          (fun b => (balanceVisit_agrees env s hc _ b).bind (fun _ => ihb _))

include hc in
theorem balance_agrees (h : BlockHash) :
    Agrees (Ledger.balance (env.withChecked c) s h) (Ledger.balance (env.withChecked d) s h) :=
  ((visitorLoops_agree env s hc _).2 _).bind (fun _ => Agrees.refl _)

include hc in
theorem amount_agrees (h : BlockHash) :
    Agrees (Ledger.amount (env.withChecked c) s h) (Ledger.amount (env.withChecked d) s h) :=
  ((visitorLoops_agree env s hc _).1 _ _).bind (fun _ => Agrees.refl _)

theorem representativeLoop_withChecked (c : Bool) (fuel : Nat) :
    ∀ current result, representativeLoop (env.withChecked c) s fuel current result =
      representativeLoop env s fuel current result := by
  induction fuel with
  | zero =>
    intro current result
    rfl
  | succ fuel ih =>
    intro current result
    unfold representativeLoop
    simp only [ih]
    rfl

theorem representative_agrees (h : BlockHash) :
    Agrees (Ledger.representative (env.withChecked c) s h)
      (Ledger.representative (env.withChecked d) s h) := by
  unfold Ledger.representative Ledger.representativeCalculated
  rw [representativeLoop_withChecked, representativeLoop_withChecked]
  exact Agrees.refl _

end Visitors

section Operations

variable (env : Env) (now : Nat) (s : BlockStore) {c d : Bool} (hc : d = true → c = true)

include hc in
theorem receiveBlock_agrees (b : ReceiveBlock) :
    Agrees (receiveBlock (env.withChecked c) now s b)
      (receiveBlock (env.withChecked d) now s b) := by
  simp only [receiveBlock, hash_withChecked]
  refine Agrees.ite (Agrees.refl _) ?_
  cases s.blockGet b.hashables.previous with
  | none => exact Agrees.refl _
  | some previous =>
    refine Agrees.ite (Agrees.refl _) (Agrees.ite (Agrees.refl _) (Agrees.ite (Agrees.refl _)
      (Agrees.ite (Agrees.refl _) (Agrees.ite (Agrees.refl _) ?_))))
    cases s.pendingGet ⟨s.frontierGet b.hashables.previous, b.hashables.source⟩ with
    | none => exact Agrees.refl _
    | some pending => exact (add_agrees env hc _ _).bind (fun _ => Agrees.refl _)

include hc in
theorem changeBlock_agrees (b : ChangeBlock) :
    Agrees (changeBlock (env.withChecked c) now s b)
      (changeBlock (env.withChecked d) now s b) := by
  simp only [changeBlock, hash_withChecked]
  refine Agrees.ite (Agrees.refl _) ?_
  cases s.blockGet b.hashables.previous with
  | none => exact Agrees.refl _
  | some previous =>
    refine Agrees.ite (Agrees.refl _) (Agrees.ite (Agrees.refl _) ?_)
    refine (Agrees.refl _).bind (fun _ => (Agrees.refl _).bind (fun _ =>
      Agrees.ite (Agrees.refl _) ((Agrees.refl _).bind (fun s => ?_))))
    exact (balance_agrees env s hc _).bind (fun _ => Agrees.refl _)

include hc in
theorem process_agrees (b : Block) :
    Agrees (Ledger.process (env.withChecked c) now s b)
      (Ledger.process (env.withChecked d) now s b) := by
  cases b with
  | receiveBlock b => exact receiveBlock_agrees env now s hc b
  | changeBlock b => exact changeBlock_agrees env now s hc b
  | _ => exact Agrees.refl _

section Rollback

variable {rollback rollback' : BlockStore → BlockHash → Except Fault BlockStore}
variable (hroll : ∀ s h, Agrees (rollback s h) (rollback' s h))

include hroll in
theorem rollbackUntil_agrees (ready : BlockStore → Bool) (a : Account) (fuel : Nat) :
    ∀ {fuel'}, fuel ≤ fuel' → ∀ s, Agrees (rollbackUntil rollback ready a fuel s)
      (rollbackUntil rollback' ready a fuel' s) := by
  induction fuel with
  | zero =>
    intro fuel' _ s x hx
    exact absurd hx (by simp [rollbackUntil])
  | succ fuel ih =>
    intro fuel' hle s
    obtain ⟨n, rfl⟩ : ∃ n, fuel' = n + 1 := ⟨fuel' - 1, by omega⟩
    rw [rollbackUntil, rollbackUntil]
    exact Agrees.ite (Agrees.refl _) ((hroll _ _).bind (fun s => ih (by omega) s))

include hc hroll in
theorem visit_agrees {fuel fuel' : Nat} (hle : fuel ≤ fuel') (b : Block) :
    Agrees (RollbackVisitor.visit (env.withChecked c) now rollback fuel s b)
      (RollbackVisitor.visit (env.withChecked d) now rollback' fuel' s b) := by
  cases b with
  | sendBlock b =>
    refine (rollbackUntil_agrees hroll _ _ fuel hle s).bind (fun s => ?_)
    refine (Agrees.refl _).bind (fun pending => (Agrees.refl _).bind (fun info =>
      (Agrees.refl _).bind (fun s => ?_)))
    refine (representative_agrees env s _).bind (fun rep => (Agrees.refl _).bind (fun s => ?_))
    exact (balance_agrees env s hc _).bind (fun _ => Agrees.refl _)
  | receiveBlock b =>
    refine (representative_agrees env s _).bind (fun rep => ?_)
    refine (amount_agrees env s hc _).bind (fun amount => ?_)
    refine (Agrees.refl _).bind (fun _ => (Agrees.refl _).bind (fun _ =>
      (Agrees.refl _).bind (fun _ => ?_)))
    refine (representative_agrees env s _).bind (fun rep => (Agrees.refl _).bind (fun s => ?_))
    exact (balance_agrees env s hc _).bind (fun _ => Agrees.refl _)
  | openBlock b =>
    refine (amount_agrees env s hc _).bind (fun amount => ?_)
    refine (Agrees.refl _).bind (fun _ => (Agrees.refl _).bind (fun _ => ?_))
    exact (representative_agrees env s _).bind (fun rep => Agrees.refl _)
  | changeBlock b =>
    refine (representative_agrees env s _).bind (fun rep => ?_)
    refine (Agrees.refl _).bind (fun _ => (Agrees.refl _).bind (fun _ => ?_))
    exact (balance_agrees env s hc _).bind (fun _ => Agrees.refl _)
  | stateBlock b =>
    refine (Agrees.ite (representative_agrees env s _) (Agrees.refl _)).bind (fun rep => ?_)
    refine (balance_agrees env s hc _).bind (fun _ => (Agrees.refl _).bind (fun s =>
      (Agrees.refl _).bind (fun s => Agrees.bind ?_ (fun _ => Agrees.refl _))))
    refine Agrees.ite ?_ (Agrees.refl _)
    exact (rollbackUntil_agrees hroll _ _ fuel hle s).bind (fun _ => Agrees.refl _)

end Rollback

theorem rollbackWhile_agrees {visit visit' : BlockStore → Block → Except Fault BlockStore}
    (hvisit : ∀ s b, Agrees (visit s b) (visit' s b)) (hash : BlockHash) (a : Account)
    (fuel : Nat) :
    ∀ {fuel'}, fuel ≤ fuel' → ∀ s, Agrees (rollbackWhile visit hash a fuel s)
      (rollbackWhile visit' hash a fuel' s) := by
  induction fuel with
  | zero =>
    intro fuel' _ s x hx
    exact absurd hx (by simp [rollbackWhile])
  | succ fuel ih =>
    intro fuel' hle s
    obtain ⟨n, rfl⟩ : ∃ n, fuel' = n + 1 := ⟨fuel' - 1, by omega⟩
    rw [rollbackWhile, rollbackWhile]
    refine Agrees.ite ?_ (Agrees.refl _)
    exact (Agrees.refl _).bind (fun _ => (Agrees.refl _).bind (fun b =>
      (hvisit s b).bind (fun s => ih (by omega) s)))

include hc in
theorem rollbackLoop_agrees (fuel : Nat) :
    ∀ {fuel'}, fuel ≤ fuel' → ∀ s h, Agrees (rollbackLoop (env.withChecked c) now fuel s h)
      (rollbackLoop (env.withChecked d) now fuel' s h) := by
  induction fuel with
  | zero =>
    intro fuel' _ s h x hx
    exact absurd hx (by simp [rollbackLoop])
  | succ fuel ih =>
    intro fuel' hle s h
    obtain ⟨n, rfl⟩ : ∃ n, fuel' = n + 1 := ⟨fuel' - 1, by omega⟩
    have hle' : fuel ≤ n := by omega
    rw [rollbackLoop, rollbackLoop]
    refine (Agrees.refl _).bind (fun _ => (Agrees.refl _).bind (fun a => ?_))
    exact rollbackWhile_agrees
      (fun s b => visit_agrees env now s hc (fun s h => ih hle' s h) hle' b) h a fuel hle' s

theorem rollbackLoop_of_le {fuel fuel' : Nat} (hle : fuel ≤ fuel') (h : BlockHash) :
    Agrees (rollbackLoop env now fuel s h) (rollbackLoop env now fuel' s h) :=
  rollbackLoop_agrees env now (c := env.checked) id fuel hle s h

end Operations

section Reachable

variable {env : Env} {U : Set Block} (H : CollisionFree env U) (M : MarkerFree env U)
  {s : BlockStore}

theorem CollisionFree.checking (H : CollisionFree env U) : CollisionFree env.checking U :=
  ⟨H.genesis, H.injective, H.nonzero⟩

theorem MarkerFree.checking (M : MarkerFree env U) : MarkerFree env.checking U :=
  ⟨M.ne_one, M.ne_genesisAccount⟩

include H M in
theorem process_checking (now : Nat) (hs : Reachable env.checking U s) {b : Block} (hb : b ∈ U) :
    ∃ x, Ledger.process env.checking now s b = .ok x ∧ Ledger.process env now s b = .ok x := by
  obtain ⟨L, hR⟩ := hs.refines H.checking M.checking
  rcases process_step H.checking M.checking now hR hb with
    ⟨r, hr, -⟩ | ⟨r, s', e, ha, -, -, hr, -, -⟩
  · exact ⟨_, hr, process_agrees env now s (d := env.checked) (fun _ => rfl) b _ hr⟩
  · exact ⟨_, hr, process_agrees env now s (d := env.checked) (fun _ => rfl) b _ hr⟩

include H M in
theorem rollback_checking (now : Nat) (hs : Reachable env.checking U s) {h : BlockHash}
    (hexists : s.blockExists h = true) (hgen : h ≠ env.genesisHash) :
    ∃ s', Ledger.rollback env.checking now s h = .ok s' ∧
      Ledger.rollback env now s h = .ok s' := by
  obtain ⟨L, hR⟩ := hs.refines H.checking M.checking
  obtain ⟨e, he⟩ := hR.find_of_exists hexists
  obtain rfl := L.keyed he
  obtain ⟨s', -, hs', -, -, -⟩ := rollback_spec H.checking M.checking now hR he hgen
  exact ⟨s', hs',
    rollbackLoop_agrees env now (d := env.checked) (fun _ => rfl) _ (Nat.le_refl _) s _ _ hs'⟩

include H M in
theorem Reachable.checking (hs : Reachable env U s) : Reachable env.checking U s := by
  induction hs with
  | genesis hinit => exact Reachable.genesis hinit
  | process _ hb hrun ih =>
    obtain ⟨x, hx, hx'⟩ := process_checking H M _ ih hb
    cases hx'.symm.trans hrun
    exact ih.process hb hx
  | rollback _ hexists hgen hrun ih =>
    obtain ⟨s', hs', hs''⟩ := rollback_checking H M _ ih hexists hgen
    cases hs''.symm.trans hrun
    exact ih.rollback hexists hgen hs'

end Reachable

end Badem
