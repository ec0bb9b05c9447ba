import Badem.Core.OnlineReps
import Badem.Mdb.Cursor

/-!
# The stake of the online representatives

`Accounts` says that the total is the sum of the weights in the container, `Follows` which
votes the container remembers.  Both hold along every sequence of calls.
-/

namespace Badem
namespace OnlineReps

open Mdb

/-! ## Arithmetic of the total -/

theorem toNat_subStake {total weight : Uint128} (h : weight.toNat ≤ total.toNat) :
    (subStake total weight).toNat = total.toNat - weight.toNat := by
  have hsub : (total - weight).toNat = total.toNat - weight.toNat :=
    BitVec.toNat_sub_of_le (BitVec.le_def.mpr h)
  have hle : ¬ total - weight > total := by
    rw [gt_iff_lt, BitVec.lt_def, hsub]
    omega
  rw [subStake, if_neg hle, hsub]

theorem toNat_addStake {total weight : Uint128} (h : total.toNat + weight.toNat < 2 ^ 128) :
    (addStake total weight).toNat = total.toNat + weight.toNat := by
  have hadd : (total + weight).toNat = total.toNat + weight.toNat :=
    BitVec.toNat_add_of_lt h
  have hle : ¬ total + weight < total := by
    rw [BitVec.lt_def, hadd]
    omega
  rw [addStake, if_neg hle, hadd]

/-! ## The container -/

section Container

variable {info x : RepLastHeardInfo} {reps : List RepLastHeardInfo} {rep : Account}
  {l : List RepLastHeardInfo}

/-- The entries are ordered by time, and no representative has two. -/
structure Indexed (reps : List RepLastHeardInfo) : Prop where
  sorted : reps.Pairwise (fun x y => x.lastHeard ≤ y.lastHeard)
  nodup : (reps.map (·.representative)).Nodup

def others (rep : Account) (reps : List RepLastHeardInfo) : List RepLastHeardInfo :=
  reps.filter (fun x => !decide (x.representative = rep))

theorem mem_others : x ∈ others rep reps ↔ x ∈ reps ∧ x.representative ≠ rep := by
  simp [others]

theorem others_eq_self (h : ∀ x ∈ reps, x.representative ≠ rep) : others rep reps = reps := by
  refine List.filter_eq_self.mpr fun x hx => ?_
  rw [Bool.not_eq_true', decide_eq_false_iff_not]
  exact h x hx

theorem Indexed.sublist (h : Indexed reps) (hl : l.Sublist reps) : Indexed l :=
  ⟨h.sorted.sublist hl, h.nodup.sublist (hl.map _)⟩

theorem insertInfo_perm (info : RepLastHeardInfo) (reps : List RepLastHeardInfo) :
    (insertInfo info reps).Perm (info :: reps) :=
  List.perm_orderedInsert _ info reps

theorem insertInfo_sorted (h : reps.Pairwise (fun x y => x.lastHeard ≤ y.lastHeard)) :
    (insertInfo info reps).Pairwise (fun x y => x.lastHeard ≤ y.lastHeard) := by
  induction reps with
  | nil => exact List.pairwise_singleton _ _
  | cons y reps ih =>
    obtain ⟨hy, hreps⟩ := List.pairwise_cons.mp h
    rw [insertInfo, List.orderedInsert_cons]
    split_ifs with hlt
    · refine List.pairwise_cons.mpr ⟨fun z hz => ?_, h⟩
      obtain rfl | hz := List.mem_cons.mp hz
      · exact hlt.le
      · exact hlt.le.trans (hy z hz)
    · refine List.pairwise_cons.mpr ⟨fun z hz => ?_, ih hreps⟩
      obtain rfl | hz := List.mem_cons.mp ((insertInfo_perm info reps).mem_iff.mp hz)
      · exact not_lt.mp hlt
      · exact hy z hz

theorem perm_others (hnodup : (reps.map (·.representative)).Nodup) (hx : x ∈ reps) :
    reps.Perm (x :: others x.representative reps) := by
  induction reps with
  | nil => exact absurd hx List.not_mem_nil
  | cons y reps ih =>
    obtain ⟨hy, hreps⟩ := List.nodup_cons.mp hnodup
    obtain rfl | hx := List.mem_cons.mp hx
    · have hkeep : others x.representative reps = reps :=
        others_eq_self fun z hz heq => hy (List.mem_map.mpr ⟨z, hz, heq⟩)
      rw [others, List.filter_cons_of_neg (by simp)]
      exact (List.Perm.of_eq hkeep.symm).cons x
    · have hne : y.representative ≠ x.representative :=
        fun heq => hy (List.mem_map.mpr ⟨x, hx, heq.symm⟩)
      rw [others, List.filter_cons_of_pos (by simpa using hne)]
      exact ((ih hreps hx).cons y).trans (.swap _ _ _)

theorem map_replace_perm (hnodup : (reps.map (·.representative)).Nodup) (hx : x ∈ reps)
    (hrep : x.representative = info.representative) :
    (reps.map (fun x => if x.representative = info.representative then info else x)).Perm
      (info :: others info.representative reps) := by
  refine ((perm_others hnodup hx).map _).trans (.of_eq ?_)
  rw [List.map_cons, if_pos hrep, hrep]
  congr 1
  refine (List.map_congr_left fun y hy => ?_).trans (List.map_id _)
  exact if_neg (mem_others.mp hy).2

theorem replaceInfo_perm (hnodup : (reps.map (·.representative)).Nodup) (hx : x ∈ reps)
    (hrep : x.representative = info.representative) :
    (replaceInfo info reps).Perm (info :: others info.representative reps) := by
  rw [replaceInfo]
  split_ifs
  · exact map_replace_perm hnodup hx hrep
  · exact insertInfo_perm _ _

theorem replaceInfo_sorted (h : reps.Pairwise (fun x y => x.lastHeard ≤ y.lastHeard)) :
    (replaceInfo info reps).Pairwise (fun x y => x.lastHeard ≤ y.lastHeard) := by
  rw [replaceInfo]
  split_ifs with hplace
  · exact hplace
  · exact insertInfo_sorted (h.filter _)

theorem Indexed.of_perm (h : Indexed reps)
    (hsorted : l.Pairwise (fun x y => x.lastHeard ≤ y.lastHeard))
    (hperm : l.Perm (info :: others info.representative reps)) : Indexed l := by
  refine ⟨hsorted, (hperm.map _).nodup_iff.mpr (List.nodup_cons.mpr ⟨?_, ?_⟩)⟩
  · intro hmem
    obtain ⟨x, hx, heq⟩ := List.mem_map.mp hmem
    exact (mem_others.mp hx).2 heq
  · exact h.nodup.sublist (List.filter_sublist.map _)

end Container

/-! ## One call -/

section Calls

variable {weight : Account → Uint128} {o : OnlineReps} {reps : List RepLastHeardInfo}
  {x info : RepLastHeardInfo}

def stake (weight : Account → Uint128) (reps : List RepLastHeardInfo) : Nat :=
  (reps.map (fun x => (weight x.representative).toNat)).sum

theorem stake_cons (x : RepLastHeardInfo) (reps : List RepLastHeardInfo) :
    stake weight (x :: reps) = (weight x.representative).toNat + stake weight reps := rfl

theorem stake_perm {l : List RepLastHeardInfo} (h : reps.Perm l) :
    stake weight reps = stake weight l :=
  (h.map _).sum_eq

/-- The container is in order, and the total is the sum of the weights. -/
structure Accounts (weight : Account → Uint128) (o : OnlineReps) : Prop extends
    Indexed o.reps where
  total : o.onlineStakeTotal.toNat = stake weight o.reps

def Bounded (weight : Account → Uint128) : Prop :=
  ∀ S : Finset Account, ∑ a ∈ S, (weight a).toNat ≤ 2 ^ 128 - 1

theorem Bounded.stake_lt (hweight : Bounded weight) (h : Indexed reps) :
    stake weight reps < 2 ^ 128 := by
  have hle := hweight (reps.map (·.representative)).toFinset
  rw [List.sum_toFinset _ h.nodup, List.map_map] at hle
  have hstake : stake weight reps ≤ 2 ^ 128 - 1 := hle
  omega

def recent (now : Nat) (x : RepLastHeardInfo) : Bool := decide (now ≤ x.lastHeard + cutoff)

theorem expire_eq (now : Nat) (reps : List RepLastHeardInfo) :
    ∀ total : Uint128, total.toNat = stake weight reps →
      (expire weight now reps total).reps = reps.dropWhile (fun x => !recent now x) ∧
      (expire weight now reps total).onlineStakeTotal.toNat =
        stake weight (reps.dropWhile (fun x => !recent now x)) := by
  induction reps with
  | nil =>
    intro total htotal
    exact ⟨rfl, htotal⟩
  | cons x reps ih =>
    intro total htotal
    rw [stake_cons] at htotal
    rw [expire, List.dropWhile_cons, recent]
    split_ifs with hold hrecent hrecent
    · refine ih _ ?_
      rw [toNat_subStake (by omega), htotal, Nat.add_sub_cancel_left]
    · simp_all
    · simp_all
    · exact ⟨rfl, htotal⟩

theorem Accounts.expire (h : Accounts weight o) (now : Nat) :
    Accounts weight (expire weight now o.reps o.onlineStakeTotal) ∧
      (OnlineReps.expire weight now o.reps o.onlineStakeTotal).reps =
        o.reps.filter (recent now) := by
  obtain ⟨hreps, htotal⟩ := expire_eq now o.reps _ h.total
  refine ⟨⟨?_, ?_⟩, ?_⟩
  · rw [hreps]
    exact h.sublist (List.dropWhile_sublist _)
  · simp_all
  · rw [hreps, dropWhile_eq_filter_iff]
    refine h.sorted.imp fun {x y} hle hx => ?_
    have hx := of_decide_eq_true hx
    exact decide_eq_true (hx.trans (Nat.add_le_add_right hle _))

theorem Accounts.replace (h : Accounts weight o) (hx : x ∈ o.reps)
    (hrep : x.representative = info.representative) :
    Accounts weight { o with reps := replaceInfo info o.reps } := by
  have hperm := replaceInfo_perm h.nodup hx hrep
  refine ⟨h.of_perm (replaceInfo_sorted h.sorted) hperm, ?_⟩
  show o.onlineStakeTotal.toNat = stake weight (replaceInfo info o.reps)
  rw [h.total, stake_perm hperm, stake_perm (perm_others h.nodup hx), stake_cons, stake_cons, hrep]

theorem Accounts.insert (hweight : Bounded weight)
    (h : Accounts weight o) (hnew : ∀ x ∈ o.reps, x.representative ≠ info.representative) :
    Accounts weight ⟨insertInfo info o.reps,
      addStake o.onlineStakeTotal (weight info.representative)⟩ := by
  have hperm := insertInfo_perm info o.reps
  have hothers : (insertInfo info o.reps).Perm (info :: others info.representative o.reps) := by
    rw [others_eq_self hnew]
    exact hperm
  have hindexed := h.of_perm (insertInfo_sorted h.sorted) hothers
  have hlt := hweight.stake_lt hindexed
  rw [stake_perm hperm, stake_cons, Nat.add_comm, ← h.total] at hlt
  refine ⟨hindexed, ?_⟩
  show (addStake o.onlineStakeTotal (weight info.representative)).toNat = _
  rw [toNat_addStake hlt, stake_perm hperm, stake_cons, h.total, Nat.add_comm]

theorem Accounts.vote (hweight : Bounded weight) (h : Accounts weight o) (now : Nat)
    (rep : Account) :
    Accounts weight (o.vote weight now rep) ∧
      (o.vote weight now rep).reps.Perm
        (⟨now, rep⟩ :: others rep (o.reps.filter (recent now))) := by
  obtain ⟨hacc, hreps⟩ := h.expire now
  rw [← hreps, OnlineReps.vote]
  split_ifs with hfound
  · obtain ⟨x, hx, heq⟩ := List.any_eq_true.mp hfound
    exact ⟨hacc.replace hx (of_decide_eq_true heq),
      replaceInfo_perm hacc.nodup hx (of_decide_eq_true heq)⟩
  · have hnew : ∀ x ∈ (OnlineReps.expire weight now o.reps o.onlineStakeTotal).reps,
        x.representative ≠ rep :=
      fun x hx heq => hfound (List.any_eq_true.mpr ⟨x, hx, decide_eq_true heq⟩)
    refine ⟨hacc.insert hweight hnew, ?_⟩
    rw [others_eq_self hnew]
    exact insertInfo_perm _ _

theorem mem_vote_reps (hweight : Bounded weight) (h : Accounts weight o) {now : Nat}
    {rep : Account} :
    x ∈ (o.vote weight now rep).reps ↔
      x = ⟨now, rep⟩ ∨ x ∈ o.reps ∧ now ≤ x.lastHeard + cutoff ∧ x.representative ≠ rep := by
  rw [(h.vote hweight now rep).2.mem_iff, List.mem_cons, mem_others, List.mem_filter, recent,
    decide_eq_true_eq, and_assoc]

theorem toNat_foldl_add (reps : List RepLastHeardInfo) :
    ∀ total : Uint128,
      (reps.foldl (fun total x => total + weight x.representative) total).toNat =
        (total.toNat + stake weight reps) % 2 ^ 128 := by
  induction reps with
  | nil =>
    intro total
    exact (Nat.mod_eq_of_lt total.isLt).symm
  | cons x reps ih =>
    intro total
    rw [List.foldl_cons, ih, BitVec.toNat_add, stake_cons, Nat.mod_add_mod, Nat.add_assoc]

theorem Accounts.recalculateStake (hweight : Bounded weight) (h : Accounts weight o) :
    Accounts weight (o.recalculateStake weight) := by
  refine ⟨h.toIndexed, (toNat_foldl_add o.reps 0).trans ?_⟩
  show (0 + stake weight o.reps) % 2 ^ 128 = stake weight o.reps
  rw [Nat.zero_add, Nat.mod_eq_of_lt (hweight.stake_lt h.toIndexed)]

end Calls

/-! ## Sequences of calls -/

section Runs

variable {weight : Account → Uint128} {calls : List (Nat × Call)}

/-- The entries are votes of the run, and a vote that the container has no later trace of was
out of date at some call. -/
structure Follows (calls : List (Nat × Call)) (reps : List RepLastHeardInfo) : Prop where
  heard : ∀ x ∈ reps, (x.lastHeard, .vote x.representative) ∈ calls
  forgotten : ∀ t r, (t, .vote r) ∈ calls →
    (∃ x ∈ reps, x.representative = r ∧ t ≤ x.lastHeard) ∨ ∃ c ∈ calls, t + cutoff < c.1

theorem Follows.vote {o : OnlineReps} {now : Nat} (hweight : Bounded weight) (h : Accounts weight o)
    (hf : Follows calls o.reps) (hnow : ∀ c ∈ calls, c.1 ≤ now) (rep : Account) :
    Follows (calls ++ [(now, .vote rep)]) (o.vote weight now rep).reps where
  heard x hx := by
    obtain rfl | ⟨hx, -, -⟩ := (mem_vote_reps hweight h).mp hx
    · exact List.mem_append_right _ (List.mem_singleton_self _)
    · exact List.mem_append_left _ (hf.heard x hx)
  forgotten t r hcall := by
    have hself : ⟨now, rep⟩ ∈ (o.vote weight now rep).reps :=
      (mem_vote_reps hweight h).mpr (.inl rfl)
    by_cases hr : r = rep
    · refine .inl ⟨_, hself, hr.symm, ?_⟩
      obtain hcall | hcall := List.mem_append.mp hcall
      · exact hnow _ hcall
      · exact (congrArg Prod.fst (List.mem_singleton.mp hcall)).le
    · have hcall : (t, Call.vote r) ∈ calls := by
        obtain hcall | hcall := List.mem_append.mp hcall
        · exact hcall
        · exact absurd (Call.vote.inj (congrArg Prod.snd (List.mem_singleton.mp hcall))) hr
      obtain ⟨x, hx, hxr, hle⟩ | ⟨c, hc, hlt⟩ := hf.forgotten t r hcall
      · by_cases hkeep : now ≤ x.lastHeard + cutoff
        · exact .inl ⟨x, (mem_vote_reps hweight h).mpr (.inr ⟨hx, hkeep, hxr ▸ hr⟩), hxr, hle⟩
        · refine .inr ⟨_, List.mem_append_right _ (List.mem_singleton_self _), ?_⟩
          exact (Nat.add_le_add_right hle _).trans_lt (not_le.mp hkeep)
      · exact .inr ⟨c, List.mem_append_left _ hc, hlt⟩

theorem Follows.recalculateStake {reps : List RepLastHeardInfo} (hf : Follows calls reps)
    (now : Nat) : Follows (calls ++ [(now, .recalculateStake)]) reps where
  heard x hx := List.mem_append_left _ (hf.heard x hx)
  forgotten t r hcall := by
    have hcall : (t, Call.vote r) ∈ calls := by simpa using hcall
    obtain hx | ⟨c, hc, hlt⟩ := hf.forgotten t r hcall
    · exact .inl hx
    · exact .inr ⟨c, List.mem_append_left _ hc, hlt⟩

theorem run_append_singleton (c : Nat × Call) :
    run weight (calls ++ [c]) = call weight (run weight calls) c := by
  rw [run, List.foldl_append]
  rfl

theorem accounts_run (hweight : Bounded weight) (hclock : (calls.map Prod.fst).Pairwise (· ≤ ·)) :
    Accounts weight (run weight calls) ∧ Follows calls (run weight calls).reps := by
  induction calls using List.reverseRecOn with
  | nil => exact ⟨⟨⟨.nil, .nil⟩, rfl⟩, ⟨by simp [run, start], by simp⟩⟩
  | append_singleton calls c ih =>
    rw [List.map_append, List.pairwise_append] at hclock
    obtain ⟨hcalls, -, hlast⟩ := hclock
    obtain ⟨hacc, hf⟩ := ih hcalls
    have hnow : ∀ c' ∈ calls, c'.1 ≤ c.1 :=
      fun c' hc' => hlast _ (List.mem_map_of_mem hc') _ (List.mem_singleton_self _)
    rw [run_append_singleton]
    obtain ⟨now, action⟩ := c
    cases action with
    | vote rep => exact ⟨(hacc.vote hweight now rep).1, hf.vote hweight hacc hnow rep⟩
    | recalculateStake => exact ⟨hacc.recalculateStake hweight, hf.recalculateStake now⟩

theorem mem_representatives_vote {now : Nat} (hweight : Bounded weight)
    (hclock : (calls.map Prod.fst).Pairwise (· ≤ ·)) (hnow : ∀ c ∈ calls, c.1 ≤ now)
    (rep r : Account) :
    r ∈ ((run weight calls).vote weight now rep).reps.map (·.representative) ↔
      r = rep ∨ ∃ t, (t, .vote r) ∈ calls ∧ now ≤ t + cutoff := by
  obtain ⟨hacc, hf⟩ := accounts_run hweight hclock
  constructor
  · intro hr
    obtain ⟨x, hx, rfl⟩ := List.mem_map.mp hr
    obtain rfl | ⟨hx, hrecent, -⟩ := (mem_vote_reps hweight hacc).mp hx
    · exact .inl rfl
    · exact .inr ⟨x.lastHeard, hf.heard x hx, hrecent⟩
  · intro hr
    by_cases hrep : r = rep
    · exact List.mem_map.mpr ⟨⟨now, rep⟩, (mem_vote_reps hweight hacc).mpr (.inl rfl), hrep.symm⟩
    · obtain ⟨t, hcall, hrecent⟩ := hr.resolve_left hrep
      obtain ⟨x, hx, rfl, hle⟩ | ⟨c, hc, hlt⟩ := hf.forgotten t r hcall
      · refine List.mem_map.mpr ⟨x, (mem_vote_reps hweight hacc).mpr (.inr ⟨hx, ?_, hrep⟩), rfl⟩
        exact hrecent.trans (Nat.add_le_add_right hle _)
      · exact absurd (hlt.trans_le (hnow c hc)) (not_lt.mpr hrecent)

end Runs

end OnlineReps

open OnlineReps

/-- With fixed weights the total is at all times the sum of the weights in the container, and after
a vote these are the voter and those that have voted within the cutoff. -/
theorem online_stake_run (weight : Account → Uint128) (hweight : Bounded weight)
    (calls : List (Nat × Call)) (hclock : (calls.map Prod.fst).Pairwise (· ≤ ·)) :
    ((run weight calls).reps.map (·.representative)).Nodup ∧
      (run weight calls).onlineStakeTotal.toNat =
        (((run weight calls).reps.map (·.representative)).map
          (fun r => (weight r).toNat)).sum ∧
      ∀ now, (∀ c ∈ calls, c.1 ≤ now) → ∀ rep r,
        r ∈ ((run weight calls).vote weight now rep).reps.map (·.representative) ↔
          r = rep ∨ ∃ t, (t, .vote r) ∈ calls ∧ now ≤ t + cutoff := by
  obtain ⟨hacc, -⟩ := accounts_run hweight hclock
  refine ⟨hacc.nodup, ?_, ?_⟩
  · rw [hacc.total, stake, List.map_map]
    rfl
  · intro now hnow rep r
    exact mem_representatives_vote hweight hclock hnow rep r

def twoWeights (a : Account) : Uint128 := if a = 1 then 10 else if a = 2 then 20 else 0

theorem twoWeights_bounded : Bounded twoWeights := by
  intro S
  have hle : ∀ a ∈ S, (twoWeights a).toNat ≤
      (if a = 1 then 10 else 0) + if a = 2 then 20 else 0 := by
    intro a _
    rw [twoWeights]
    split_ifs <;> decide
  refine (Finset.sum_le_sum hle).trans ?_
  rw [Finset.sum_add_distrib, Finset.sum_ite_eq', Finset.sum_ite_eq']
  split_ifs <;> norm_num

theorem online_stake_of_two :
    (run twoWeights [(0, .vote 1), (10, .vote 2)]).onlineStakeTotal.toNat = 30 ∧
      1 ∉ ((run twoWeights [(0, .vote 1), (10, .vote 2)]).vote twoWeights (cutoff + 1) 2).reps.map
        (·.representative) := by
  obtain ⟨-, htotal, hvote⟩ := online_stake_run twoWeights twoWeights_bounded
    [(0, .vote 1), (10, .vote 2)] (by decide)
  refine ⟨htotal.trans (by decide), ?_⟩
  rw [hvote (cutoff + 1) (by decide) 2 1]
  rintro (heq | ⟨t, hcall, hrecent⟩)
  · simp at heq
  · have ht : t = 0 := by simpa using hcall
    omega

end Badem
