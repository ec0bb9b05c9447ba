import Badem.Core.Stat
import Mathlib

/-!
# What the statistics count

The counters after a run of calls, against what the calls are documented to count.
-/

namespace Badem
namespace Stat

/-! ## Keys -/

theorem keyOf_parts (type : StatType) (detail : StatDetail) (dir : StatDir) :
    (keyOf type detail dir >>> 16).toNat = type.ctorIdx ∧
      (keyOf type detail dir >>> 8 &&& 0xff).toNat = detail.ctorIdx ∧
      (keyOf type detail dir &&& 0xff).toNat = dir.ctorIdx ∧
      keyOf type detail dir &&& noDetailMask = keyOf type .all dir := by
  cases dir <;> cases type <;> cases detail <;> exact ⟨rfl, rfl, rfl, rfl⟩

theorem keyOf_inj {type type' : StatType} {detail detail' : StatDetail} {dir dir' : StatDir} :
    keyOf type detail dir = keyOf type' detail' dir' ↔
      type = type' ∧ detail = detail' ∧ dir = dir' := by
  constructor
  · intro h
    obtain ⟨htype, hdetail, hdir, -⟩ := keyOf_parts type detail dir
    obtain ⟨htype', hdetail', hdir', -⟩ := keyOf_parts type' detail' dir'
    rw [h] at htype hdetail hdir
    refine ⟨?_, ?_, ?_⟩
    · rw [← StatType.ofNat_ctorIdx type, ← htype, htype', StatType.ofNat_ctorIdx]
    · rw [← StatDetail.ofNat_ctorIdx detail, ← hdetail, hdetail', StatDetail.ofNat_ctorIdx]
    · rw [← StatDir.ofNat_ctorIdx dir, ← hdir, hdir', StatDir.ofNat_ctorIdx]
  · rintro ⟨rfl, rfl, rfl⟩
    rfl

/-! ## Calls -/

namespace Call

def type : Call → StatType
  | inc type _ | incDetailOnly type _ _ | incDetail type _ _ | add type _ _
  | addDetail type _ _ _ _ => type

def detail : Call → StatDetail
  | inc _ _ | add _ _ _ => .all
  | incDetailOnly _ detail _ | incDetail _ detail _ | addDetail _ detail _ _ _ => detail

def dir : Call → StatDir
  | inc _ dir | incDetailOnly _ _ dir | incDetail _ _ dir | add _ dir _ | addDetail _ _ dir _ _ =>
    dir

def value : Call → Uint64
  | inc _ _ | incDetailOnly _ _ _ | incDetail _ _ _ => 1
  | add _ _ value | addDetail _ _ _ value _ => value

/-- The calls that are not to count for the type. -/
def detailOnly : Call → Bool
  | incDetailOnly _ _ _ => true
  | addDetail _ _ _ _ detailOnly => detailOnly
  | inc _ _ | incDetail _ _ _ | add _ _ _ => false

/-- Those of them that do: `inc_detail_only`, and any of them without a detail. -/
def miscounted : Call → Bool
  | incDetailOnly _ _ _ => true
  | addDetail _ detail _ _ detailOnly => detailOnly && decide (detail = .all)
  | inc _ _ | incDetail _ _ _ | add _ _ _ => false

def reaches (type : StatType) (detail : StatDetail) (dir : StatDir) (c : Call) : Bool :=
  c.type = type ∧ c.dir = dir ∧
    (c.detail = detail ∨ detail = .all ∧ (c.detailOnly = false ∨ c.miscounted = true))

end Call

def total (p : Call → Bool) (calls : List Call) : Uint64 := ((calls.filter p).map Call.value).sum

theorem update_apply (s : Stat) (key key' : BitVec 32) (value : Uint64) :
    s.update key value key' = if key' = key then s key' + value else s key' := by
  rw [update, Function.update_apply]
  split_ifs with h
  · rw [h]
  · rfl

theorem count_addDetail (s : Stat) (type type' : StatType) (detail detail' : StatDetail)
    (dir dir' : StatDir) (value : Uint64) (detailOnly : Bool) :
    (s.addDetail type detail dir value detailOnly).count type' detail' dir' =
      if type = type' ∧ dir = dir' ∧
          (detail = detail' ∨ detail' = .all ∧ detailOnly = false) then
        s.count type' detail' dir' + value
      else s.count type' detail' dir' := by
  have hmask := (keyOf_parts type detail dir).2.2.2
  simp only [count, addDetail, hmask, ne_eq, keyOf_inj]
  split_ifs with htype hreach hreach <;> simp only [update_apply, keyOf_inj] <;> grind

theorem count_call (s : Stat) (c : Call) (type : StatType) (detail : StatDetail) (dir : StatDir) :
    (s.call c).count type detail dir =
      s.count type detail dir + if c.reaches type detail dir then c.value else 0 := by
  cases c <;> simp only [call, inc, incDetailOnly, incDetail, add, count_addDetail] <;>
    simp only [Call.reaches, Call.type, Call.detail, Call.dir, Call.value, Call.detailOnly,
      Call.miscounted] <;> grind

theorem total_cons (p : Call → Bool) (c : Call) (calls : List Call) :
    total p (c :: calls) = (if p c then c.value else 0) + total p calls := by
  rw [total, List.filter_cons]
  split_ifs with h
  · simp [total]
  · simp [total]

theorem count_run (calls : List Call) (type : StatType) (detail : StatDetail) (dir : StatDir) :
    (run calls).count type detail dir = total (Call.reaches type detail dir) calls := by
  have hstart : ∀ s : Stat, (calls.foldl call s).count type detail dir =
      s.count type detail dir + total (Call.reaches type detail dir) calls := by
    induction calls with
    | nil => exact fun s => (add_zero _).symm
    | cons c calls ih =>
      intro s
      rw [List.foldl_cons, ih, count_call, total_cons, add_assoc]
  exact (hstart _).trans (zero_add _)

theorem total_reaches_all (calls : List Call) (type : StatType) (dir : StatDir) :
    total (Call.reaches type .all dir) calls =
      total (fun c => c.type = type ∧ c.dir = dir ∧ c.detailOnly = false) calls +
        total (fun c => c.type = type ∧ c.dir = dir ∧ c.miscounted = true) calls := by
  induction calls with
  | nil => rfl
  | cons c calls ih =>
    have hcase : c.miscounted = true → c.detailOnly = true := by
      cases c <;> simp +contextual [Call.miscounted, Call.detailOnly]
    have hall : c.detail = .all → c.detailOnly = true → c.miscounted = true := by
      cases c <;> simp +contextual [Call.miscounted, Call.detailOnly, Call.detail]
    have hsplit : (if c.reaches type .all dir then c.value else 0) =
        (if decide (c.type = type ∧ c.dir = dir ∧ c.detailOnly = false) then c.value else 0) +
          if decide (c.type = type ∧ c.dir = dir ∧ c.miscounted = true) then c.value else 0 := by
      simp only [Call.reaches, decide_eq_true_eq]
      grind
    rw [total_cons, total_cons, total_cons, ih, hsplit, add_add_add_comm]

/-- The counters of the details are right.  Those of the types are right if what is counted for
them by mistake adds up to zero. -/
theorem stat_counts_iff (calls : List Call) :
    ((∀ type detail dir, detail ≠ .all → (run calls).count type detail dir =
        total (fun c => c.type = type ∧ c.detail = detail ∧ c.dir = dir) calls) ∧
      ∀ type dir, (run calls).count type .all dir =
        total (fun c => c.type = type ∧ c.dir = dir ∧ c.detailOnly = false) calls) ↔
      ∀ type dir, total (fun c => c.type = type ∧ c.dir = dir ∧ c.miscounted = true) calls = 0 := by
  have hdetail : ∀ type detail dir, detail ≠ .all → (run calls).count type detail dir =
      total (fun c => c.type = type ∧ c.detail = detail ∧ c.dir = dir) calls := by
    intro type detail dir hne
    rw [count_run]
    congr 1
    funext c
    simp [Call.reaches, hne, and_comm]
  refine ⟨fun h type dir => ?_, fun h => ⟨hdetail, fun type dir => ?_⟩⟩
  · have htype := h.2 type dir
    rwa [count_run, total_reaches_all, add_eq_left] at htype
  · rw [count_run, total_reaches_all, h type dir, add_zero]

/-- A detail that is not to count for its type does. -/
theorem stat_counts_detail_only :
    (run [.incDetailOnly .vote .voteValid .in]).count .vote .all .in = 1 ∧
      total (fun c => c.type = .vote ∧ c.dir = .in ∧ c.detailOnly = false)
        [.incDetailOnly .vote .voteValid .in] = 0 := by
  decide

end Stat
end Badem
