import Badem.Core.Elections
import Mathlib

/-!
# Online representatives

The container of `online_reps` with the representatives that have voted lately and the total
of their weights.
-/

namespace Badem

structure RepLastHeardInfo where
  lastHeard : Nat
  representative : Account
deriving DecidableEq

structure OnlineReps where
  /-- The entries as the ordered index has them. -/
  reps : List RepLastHeardInfo
  onlineStakeTotal : Uint128

namespace OnlineReps

def cutoff : Nat := 300 * 10 ^ 9

def start : OnlineReps := ⟨[], 0⟩

/-- Entries of equal times follow each other in the order of insertion. -/
def insertInfo (info : RepLastHeardInfo) (reps : List RepLastHeardInfo) : List RepLastHeardInfo :=
  reps.orderedInsert (fun x y => x.lastHeard < y.lastHeard) info

/-- The entry of the representative takes the new value where it stands if that keeps the order,
and else is moved to where it would be inserted. -/
def replaceInfo (info : RepLastHeardInfo) (reps : List RepLastHeardInfo) : List RepLastHeardInfo :=
  let inPlace := reps.map (fun x => if x.representative = info.representative then info else x)
  if inPlace.Pairwise (fun x y => x.lastHeard ≤ y.lastHeard) then inPlace
  else insertInfo info (reps.filter (fun x => !decide (x.representative = info.representative)))

def subStake (total weight : Uint128) : Uint128 :=
  if total - weight > total then 0 else total - weight

def addStake (total weight : Uint128) : Uint128 :=
  if total + weight < total then BitVec.allOnes 128 else total + weight

section Calls

variable (weight : Account → Uint128)

/-- The loop of `vote` that erases the representatives that have not been heard of for long. -/
def expire (now : Nat) : List RepLastHeardInfo → Uint128 → OnlineReps
  | [], total => ⟨[], total⟩
  | x :: reps, total =>
    if x.lastHeard + cutoff < now then
      expire now reps (subStake total (weight x.representative))
    else
      ⟨x :: reps, total⟩

def vote (o : OnlineReps) (now : Nat) (rep : Account) : OnlineReps :=
  let o := expire weight now o.reps o.onlineStakeTotal
  if o.reps.any (fun x => decide (x.representative = rep)) = true then
    { o with reps := replaceInfo ⟨now, rep⟩ o.reps }
  else
    ⟨insertInfo ⟨now, rep⟩ o.reps, addStake o.onlineStakeTotal (weight rep)⟩

def recalculateStake (o : OnlineReps) : OnlineReps :=
  { o with
    onlineStakeTotal := o.reps.foldl (fun total x => total + weight x.representative) 0 }

end Calls

/-! ## Runs -/

inductive Call
  | vote (rep : Account)
  | recalculateStake
deriving DecidableEq

def call (weight : Account → Uint128) (o : OnlineReps) (c : Nat × Call) : OnlineReps :=
  match c.2 with
  | .vote rep => o.vote weight c.1 rep
  | .recalculateStake => o.recalculateStake weight

def run (weight : Account → Uint128) (calls : List (Nat × Call)) : OnlineReps :=
  calls.foldl (call weight) start

end OnlineReps

end Badem
