import Badem.Network.PeerAddresses

/-!
# Samples of the peers

The draws of `random_set` may repeat and end at a cutoff; the peers by their last contact make
up what is missing.
-/

namespace Badem
namespace PeerContainer

open Containers

variable {p : PeerContainer} {count : Nat} {l : List Endpoint} {x : PeerInformation}

/-- Some of the peers, as many as were asked for at most. -/
structure Sample (p : PeerContainer) (count : Nat) (l : List Endpoint) : Prop where
  nodup : l.Nodup
  subset : l ⊆ p.endpoints
  length_le : l.length ≤ count

/-- As many of them as there can be. -/
structure FullSample (p : PeerContainer) (count : Nat) (l : List Endpoint) : Prop where
  nodup : l.Nodup
  subset : l ⊆ p.endpoints
  length_eq : l.length = min count p.peers.length

theorem Sample.insert (h : Sample p count l)
    (hx : x ∈ p.peers) (hlt : l.length < count) : Sample p count (l.insert x.endpoint) := by
  refine ⟨h.nodup.insert, ?_, ?_⟩
  · intro e he
    obtain rfl | he := List.mem_insert_iff.mp he
    · exact List.mem_map_of_mem hx
    · exact h.subset he
  · grind

theorem Sample.drawPeers (h : Sample p count l) (random : Nat → Nat)
    (left i : Nat) : Sample p count (p.drawPeers count random left i l) := by
  induction left generalizing i l with
  | zero => exact h
  | succ left ih =>
    rw [PeerContainer.drawPeers]
    split_ifs with hlt
    · cases hx : p.peers[random i % p.peers.length]? with
      | none => exact ih h (i + 1)
      | some x => exact ih (h.insert (List.mem_of_getElem? hx) hlt) (i + 1)
    · exact h

theorem Sample.fillPeers (h : Sample p count l) (rest : List PeerInformation)
    (hrest : rest ⊆ p.peers) :
    Sample p count (fillPeers count rest l) ∧ l ⊆ fillPeers count rest l ∧
      ((fillPeers count rest l).length = count ∨
        ∀ x ∈ rest, x.endpoint ∈ fillPeers count rest l) := by
  induction rest generalizing l with
  | nil => exact ⟨h, fun _ he => he, .inr nofun⟩
  | cons x rest ih =>
    obtain ⟨hx, hrest⟩ := List.cons_subset.mp hrest
    rw [PeerContainer.fillPeers]
    split_ifs with hlt
    · obtain ⟨hsample, hkept, hfull⟩ := ih (h.insert hx hlt) hrest
      refine ⟨hsample, fun e he => hkept (List.mem_insert_of_mem he), hfull.imp_right ?_⟩
      exact fun hall => List.forall_mem_cons.mpr ⟨hkept List.mem_insert_self, hall⟩
    · exact ⟨h, fun _ he => he, .inl (le_antisymm h.length_le (not_lt.mp hlt))⟩

theorem mem_byTime {order : Visit PeerInformation} {time : PeerInformation → Nat} :
    x ∈ p.byTime order time ↔ x ∈ p.peers := by
  rw [byTime, (List.mergeSort_perm _ _).mem_iff, Visit.mem_order]

theorem fullSample_randomSet (hnodup : p.endpoints.Nodup) (order : Visit PeerInformation)
    (random : Nat → Nat) (count : Nat) : FullSample p count (p.randomSet order random count) := by
  have hempty : Sample p count [] := ⟨List.nodup_nil, nofun, Nat.zero_le _⟩
  have hdrawn : Sample p count (if p.peers.isEmpty then []
      else p.drawPeers count random (count * 2 % 2 ^ 64) 0 []) := by
    split_ifs
    · exact hempty
    · exact hempty.drawPeers random _ 0
  obtain ⟨hsample, -, hfull⟩ := hdrawn.fillPeers (p.byTime order (·.lastContact))
    (fun x hx => mem_byTime.mp hx)
  have hle : (p.randomSet order random count).length ≤ p.peers.length :=
    (hsample.nodup.subperm hsample.subset).length_le.trans_eq (List.length_map _)
  refine ⟨hsample.nodup, hsample.subset, le_antisymm (le_min hsample.length_le hle) ?_⟩
  obtain hfull | hall := hfull
  · exact min_le_of_left_le hfull.ge
  · have hge : p.endpoints.length ≤ (p.randomSet order random count).length := by
      refine (hnodup.subperm fun e he => ?_).length_le
      obtain ⟨x, hx, rfl⟩ := List.mem_map.mp he
      exact hall x (mem_byTime.mpr hx)
    rw [endpoints, List.length_map] at hge
    exact min_le_of_right_le hge

theorem fillTarget_eq (hl : ∀ e ∈ l, e.address.isV6 = true)
    (front : List Endpoint) {rest : List Endpoint} (hle : l.length ≤ rest.length) :
    fillTarget l front.length (front ++ rest) = .ok (front ++ l ++ rest.drop l.length) := by
  induction l generalizing front rest with
  | nil => simp [fillTarget]
  | cons x l ih =>
    obtain ⟨hx, hl⟩ := List.forall_mem_cons.mp hl
    cases rest with
    | nil => simp at hle
    | cons y rest =>
      have hset : (front ++ y :: rest).set front.length x = front ++ [x] ++ rest := by simp
      have hnext := ih hl (front ++ [x]) (Nat.le_of_succ_le_succ hle)
      rw [List.length_append, List.length_singleton] at hnext
      rw [fillTarget, require_of hx, require_of (by simp), ok_bind, ok_bind, hset, hnext]
      simp

theorem isV6_of_mem_run {network : BademNetwork} {self e : Endpoint} {calls : List (Nat × Call)}
    (he : e ∈ (run network self calls).endpoints) : e.address.isV6 = true := by
  have hpeer := notAPeer_of_mem_run he
  rw [notAPeer] at hpeer
  split at hpeer
  · cases hpeer
  · next haddress =>
      rw [haddress]
      rfl

end PeerContainer

open PeerContainer Containers

/-- A sample has as many different peers as there can be, and the array starts with such a
sample and ends with the unspecified endpoint. -/
theorem random_peers_run (network : BademNetwork) (self : Endpoint) (calls : List (Nat × Call))
    (order : Visit PeerInformation) (visit : Visit Endpoint) (random : Nat → Nat) (count : Nat) :
    FullSample (run network self calls) count
        ((run network self calls).randomSet order random count) ∧
      ∃ chosen, FullSample (run network self calls) 8 chosen ∧
        (run network self calls).randomFill order visit random =
          .ok (chosen ++ List.replicate (8 - chosen.length) ⟨.v6 0 0, 0⟩) := by
  have hnodup := nodup_run network self calls
  obtain ⟨hset, hsub, hlen⟩ := fullSample_randomSet hnodup order random 8
  have hperm := visit.perm ((run network self calls).randomSet order random 8)
  have hle : (visit.order ((run network self calls).randomSet order random 8)).length ≤ 8 := by
    rw [hperm.length_eq, hlen]
    exact min_le_left _ _
  have hv6 : ∀ e ∈ visit.order ((run network self calls).randomSet order random 8),
      e.address.isV6 = true := fun e he => isV6_of_mem_run (hsub (hperm.subset he))
  have hfill := fillTarget_eq hv6 [] (hle.trans_eq (List.length_replicate (a := ⟨.v6 0 0, 0⟩)).symm)
  refine ⟨fullSample_randomSet hnodup order random count, _,
    ⟨hperm.nodup_iff.mpr hset, fun e he => hsub (hperm.subset he), hperm.length_eq.trans hlen⟩, ?_⟩
  rw [randomFill, require_of (hperm.length_eq ▸ hle), ok_bind]
  rw [List.nil_append, List.drop_replicate] at hfill
  exact hfill

end Badem
