import Badem.Core.UncheckedStore
import Badem.Mdb.Cursor
import Badem.Network.VoteDecoding

/-!
# Unchecked blocks in the cache and on disk

The block processor sees the unchecked blocks as one list, the store has them in a cache and in
a table of bytes.  `Represents` relates the two views.
-/

namespace Badem

open Codec Mdb

theorem exists_map_of_perm {α β : Type} {f : α → β} {s : List α} :
    ∀ {l : List β}, l.Perm (s.map f) → ∃ s' : List α, l = s'.map f ∧ s'.Perm s := by
  induction s with
  | nil =>
    intro l h
    exact ⟨[], h.eq_nil, .refl _⟩
  | cons a s ih =>
    intro l h
    obtain ⟨l₁, l₂, rfl⟩ := List.append_of_mem (h.mem_iff.mpr (.head _))
    obtain ⟨s', hs', hperm⟩ := ih (List.perm_middle.symm.trans h).cons_inv
    obtain ⟨s₁, s₂, rfl, rfl, rfl⟩ := List.map_eq_append_iff.mp hs'.symm
    exact ⟨s₁ ++ a :: s₂, by simp, List.perm_middle.trans (hperm.cons a)⟩

namespace UncheckedStore

/-! ## Blocks as bytes -/

def encode (x : BlockHash × Block) : UncheckedEntry × Unit := (⟨x.1, serializeBlock x.2⟩, ())

theorem deserialize_serializeBlock (asserts : Bool) (b : Block) :
    deserializeTypedBlock asserts (serializeBlock b) = .ok (some (b, [])) :=
  deserializeTypedBlock_iff.mpr (List.append_nil _).symm

theorem serializeBlock_injective : Function.Injective serializeBlock := by
  intro b c h
  have hb := deserialize_serializeBlock false b
  rw [h, deserialize_serializeBlock] at hb
  exact ((Prod.mk.inj (Option.some.inj (Except.ok.inj hb))).1).symm

theorem entry_eq_iff {x : BlockHash × Block} {k : BlockHash} {b : Block} :
    (encode x).1 = ⟨k, serializeBlock b⟩ ↔ x.1 = k ∧ x.2 = b := by
  rw [encode, UncheckedEntry.mk.injEq, serializeBlock_injective.eq_iff]

/-! ## The view of the block processor -/

def Represents (u : UncheckedStore) (l : List (BlockHash × Block)) : Prop :=
  ∃ stored : List (BlockHash × Block),
    u.disk.entries = stored.map encode ∧ (u.cache ++ stored).Perm l

def Distinct (env : Env) (l : List (BlockHash × Block)) : Prop :=
  l.Pairwise (fun x y => x.1 = y.1 → x.2.hash env ≠ y.2.hash env)

def Contains (asserts : Bool) (u : UncheckedStore) (k : BlockHash) (b : Block) : Prop :=
  ∃ blocks, u.uncheckedGet asserts k = .ok blocks ∧ some b ∈ blocks

def viewed (env : NodeEnv) (p : BlockProcessor) : Operation → BlockProcessor
  | .put k b => p.uncheckedPut env k b
  | .del k b => p.uncheckedDel k b
  | .flush => p

section Views

variable {env : NodeEnv} {asserts : Bool} {u : UncheckedStore} {p : BlockProcessor}
  {l : List (BlockHash × Block)} {k : BlockHash} {b : Block}

theorem Distinct.nodup {env : Env} (h : Distinct env l) : l.Nodup :=
  h.imp fun hne heq => hne (congrArg Prod.fst heq) (by rw [heq])

theorem mem_uncheckedGet : b ∈ p.uncheckedGet k ↔ (k, b) ∈ p.unchecked := by
  constructor
  · intro hb
    obtain ⟨⟨k', b'⟩, hx, rfl⟩ := List.mem_map.mp hb
    obtain ⟨hmem, hkey⟩ := List.mem_filter.mp hx
    obtain rfl : k' = k := of_decide_eq_true hkey
    exact hmem
  · intro hmem
    exact List.mem_map.mpr ⟨(k, b), List.mem_filter.mpr ⟨hmem, decide_eq_true rfl⟩, rfl⟩

theorem Distinct.uncheckedGet (h : Distinct env.toEnv p.unchecked) (k : BlockHash) :
    ((p.uncheckedGet k).map (·.hash env.toEnv)).Nodup := by
  rw [BlockProcessor.uncheckedGet, List.map_map]
  refine List.pairwise_map.mpr ((List.Pairwise.filter _ h).imp_of_mem ?_)
  intro x y hx hy hne
  have hxkey := of_decide_eq_true (List.mem_filter.mp hx).2
  have hykey := of_decide_eq_true (List.mem_filter.mp hy).2
  exact hne (hxkey.trans hykey.symm)

theorem Represents.get (h : Represents u p.unchecked) (asserts : Bool) (k : BlockHash) :
    ∃ blocks : List Block, u.uncheckedGet asserts k = .ok (blocks.map some) ∧
      blocks.Perm (p.uncheckedGet k) := by
  obtain ⟨stored, hdisk, hperm⟩ := h
  have hvalues : u.values k =
      (stored.filter (fun x => decide (x.1 = k))).map (fun x => serializeBlock x.2) := by
    rw [values, hdisk, List.filter_map, List.map_map]
    rfl
  have hread : (u.values k).mapM (deserializeTypedBlock asserts) =
      .ok ((stored.filter (fun x => decide (x.1 = k))).map (fun x => some (x.2, []))) := by
    rw [hvalues, List.mapM_map]
    exact mapM_eq_map fun x _ => deserialize_serializeBlock asserts x.2
  refine ⟨((u.cache ++ stored).filter (fun x => decide (x.1 = k))).map Prod.snd, ?_,
    (hperm.filter _).map _⟩
  rw [UncheckedStore.uncheckedGet, hread, ok_bind, cached, List.filter_append, List.map_append,
    List.map_append, List.map_map, List.map_map, List.map_map]
  rfl

theorem Represents.contains_iff (h : Represents u p.unchecked) :
    Contains asserts u k b ↔ (k, b) ∈ p.unchecked := by
  obtain ⟨blocks, hget, hperm⟩ := h.get asserts k
  rw [← mem_uncheckedGet, ← hperm.mem_iff]
  constructor
  · rintro ⟨blocks', hget', hb⟩
    cases hget.symm.trans hget'
    simpa using hb
  · intro hb
    exact ⟨_, hget, List.mem_map_of_mem hb⟩

/-! ## One operation -/

theorem hashExists_map_some (env : Env) (hash : BlockHash) (blocks : List Block) :
    hashExists env hash (blocks.map some) =
      .ok (blocks.any (fun c => decide (c.hash env = hash))) := by
  induction blocks with
  | nil => rfl
  | cons b blocks ih =>
    rw [List.map_cons, hashExists, deref_some, ok_bind, List.any_cons]
    by_cases hb : b.hash env = hash
    · rw [if_pos hb, decide_eq_true hb, Bool.true_or]
      rfl
    · rw [if_neg hb, decide_eq_false hb, Bool.false_or, ih]

theorem Represents.put (env : NodeEnv) (asserts : Bool) (h : Represents u p.unchecked)
    (k : BlockHash) (b : Block) :
    ∃ u', u.uncheckedPut env.toEnv asserts k b = .ok u' ∧
      Represents u' (p.uncheckedPut env k b).unchecked := by
  obtain ⟨blocks, hget, hperm⟩ := h.get asserts k
  rw [UncheckedStore.uncheckedPut, hget, ok_bind, hashExists_map_some, ok_bind, hperm.any_eq,
    BlockProcessor.uncheckedPut]
  split_ifs with hfound
  · exact ⟨u, rfl, h⟩
  · obtain ⟨stored, hdisk, hcache⟩ := h
    refine ⟨_, rfl, stored, hdisk, ?_⟩
    show (u.cache ++ [(k, b)] ++ stored).Perm (p.unchecked ++ [(k, b)])
    rw [List.append_assoc]
    exact (List.perm_append_comm.append_left _).trans
      (by rw [← List.append_assoc]; exact hcache.append_right _)

theorem Represents.del (h : Represents u p.unchecked) (k : BlockHash) (b : Block) :
    Represents (u.uncheckedDel k b) (p.uncheckedDel k b).unchecked := by
  obtain ⟨stored, hdisk, hcache⟩ := h
  refine ⟨stored.filter (fun x => !decide (x.1 = k ∧ x.2 = b)), ?_, ?_⟩
  · show (u.disk.del ⟨k, serializeBlock b⟩).entries = _
    rw [Table.entries_del, hdisk, List.filter_map]
    congr 1
    refine List.filter_congr fun x _ => ?_
    rw [Function.comp_apply, decide_eq_decide.mpr entry_eq_iff]
  · show (u.cache.filter _ ++ stored.filter _).Perm (p.unchecked.filter _)
    rw [← List.filter_append]
    exact hcache.filter _

theorem foldl_put_encode (cache : List (BlockHash × Block)) :
    ∀ {disk : Table UncheckedEntry Unit} {stored : List (BlockHash × Block)},
      disk.entries = stored.map encode → (cache ++ stored).Nodup →
      ∃ stored' : List (BlockHash × Block),
        (cache.foldl (fun disk x => disk.put ⟨x.1, serializeBlock x.2⟩ ()) disk).entries =
          stored'.map encode ∧ stored'.Perm (cache ++ stored) := by
  induction cache with
  | nil =>
    intro disk stored hdisk _
    exact ⟨stored, hdisk, .refl _⟩
  | cons x cache ih =>
    intro disk stored hdisk hnodup
    obtain ⟨hx, hrest⟩ := List.nodup_cons.mp hnodup
    have hnone : disk.get ⟨x.1, serializeBlock x.2⟩ = none := by
      refine Option.eq_none_iff_forall_ne_some.mpr fun v hv => hx ?_
      have hmem := (disk.mem_entries_iff _ _).mpr hv
      rw [hdisk] at hmem
      obtain ⟨y, hy, heq⟩ := List.mem_map.mp hmem
      obtain rfl : y = x := Prod.ext_iff.mpr (entry_eq_iff.mp (congrArg Prod.fst heq))
      exact List.mem_append_right _ hy
    have hput : (disk.put ⟨x.1, serializeBlock x.2⟩ ()).entries.Perm
        ((x :: stored).map encode) := by
      have hput := disk.put_perm ⟨x.1, serializeBlock x.2⟩ ()
      rw [Table.del_of_get_none hnone, hdisk] at hput
      exact hput
    obtain ⟨s, hs, hsperm⟩ := exists_map_of_perm hput
    have hmiddle : (cache ++ s).Perm (x :: (cache ++ stored)) :=
      (hsperm.append_left cache).trans List.perm_middle
    obtain ⟨stored', hentries, hperm⟩ := ih hs (hmiddle.nodup_iff.mpr hnodup)
    exact ⟨stored', hentries, hperm.trans hmiddle⟩

theorem Represents.flush (h : Represents u l) (hl : l.Nodup) : Represents u.flush l := by
  obtain ⟨stored, hdisk, hcache⟩ := h
  obtain ⟨stored', hentries, hperm⟩ := foldl_put_encode u.cache hdisk (hcache.nodup_iff.mpr hl)
  exact ⟨stored', hentries, hperm.trans hcache⟩

theorem Distinct.put (h : Distinct env.toEnv p.unchecked) (k : BlockHash) (b : Block) :
    Distinct env.toEnv (p.uncheckedPut env k b).unchecked := by
  rw [BlockProcessor.uncheckedPut]
  split_ifs with hfound
  · exact h
  · refine List.pairwise_append.mpr ⟨h, List.pairwise_singleton _ _, ?_⟩
    rintro ⟨k', c⟩ hc y hy rfl heq
    obtain rfl := List.mem_singleton.mp hy
    exact hfound (List.any_eq_true.mpr ⟨c, mem_uncheckedGet.mpr hc, decide_eq_true heq⟩)

theorem Distinct.viewed (h : Distinct env.toEnv p.unchecked) :
    ∀ op, Distinct env.toEnv (viewed env p op).unchecked
  | .put k b => h.put k b
  | .del _ _ => List.Pairwise.filter _ h
  | .flush => h

theorem Represents.step (asserts : Bool) (h : Represents u p.unchecked)
    (hp : Distinct env.toEnv p.unchecked) :
    ∀ op, ∃ u', step env.toEnv asserts u op = .ok u' ∧ Represents u' (viewed env p op).unchecked
  | .put k b => h.put env asserts k b
  | .del k b => ⟨_, rfl, h.del k b⟩
  | .flush => ⟨_, rfl, h.flush hp.nodup⟩

/-! ## Runs -/

theorem Represents.run (env : NodeEnv) (asserts : Bool) (ops : List Operation) :
    ∀ {u : UncheckedStore} {p : BlockProcessor}, Represents u p.unchecked →
      Distinct env.toEnv p.unchecked →
      ∃ u', run env.toEnv asserts ops u = .ok u' ∧
        Represents u' (ops.foldl (viewed env) p).unchecked ∧
        Distinct env.toEnv (ops.foldl (viewed env) p).unchecked := by
  induction ops with
  | nil =>
    intro u p h hp
    exact ⟨u, rfl, h, hp⟩
  | cons op ops ih =>
    intro u p h hp
    obtain ⟨u₁, hstep, h₁⟩ := h.step asserts hp op
    obtain ⟨u', hrun, h'⟩ := ih h₁ (hp.viewed op)
    refine ⟨u', ?_, h'⟩
    rw [UncheckedStore.run, List.foldlM_cons, hstep]
    exact hrun

theorem mem_foldl_viewed {ops : List Operation} (hdel : Operation.del k b ∉ ops) :
    ∀ {p : BlockProcessor}, (k, b) ∈ p.unchecked →
      (k, b) ∈ (ops.foldl (viewed env) p).unchecked := by
  induction ops with
  | nil =>
    intro p hmem
    exact hmem
  | cons op ops ih =>
    intro p hmem
    obtain ⟨hop, hops⟩ := not_or.mp (mt List.mem_cons.mpr hdel)
    refine ih hops ?_
    cases op with
    | put k' b' =>
      show _ ∈ (p.uncheckedPut env k' b').unchecked
      rw [BlockProcessor.uncheckedPut]
      split_ifs
      · exact hmem
      · exact List.mem_append_left _ hmem
    | del k' b' =>
      refine List.mem_filter.mpr ⟨hmem, ?_⟩
      rw [Bool.not_eq_true', decide_eq_false_iff_not]
      rintro ⟨rfl, rfl⟩
      exact hop rfl
    | flush => exact hmem

theorem exists_mem_uncheckedPut (env : NodeEnv) (p : BlockProcessor) (k : BlockHash) (b : Block) :
    ∃ c, c.hash env.toEnv = b.hash env.toEnv ∧ (k, c) ∈ (p.uncheckedPut env k b).unchecked := by
  rw [BlockProcessor.uncheckedPut]
  split_ifs with hfound
  · obtain ⟨c, hc, hhash⟩ := List.any_eq_true.mp hfound
    exact ⟨c, of_decide_eq_true hhash, mem_uncheckedGet.mp hc⟩
  · exact ⟨b, rfl, List.mem_append_right _ (List.mem_singleton_self _)⟩

end Views

end UncheckedStore

open UncheckedStore

/-- Every run of the store succeeds, flushing keeps what `unchecked_get` returns, deleting takes
away one block, and what is there after a put stays until it is deleted. -/
theorem unchecked_store_run (env : NodeEnv) (asserts : Bool) (ops : List Operation) :
    ∃ u, run env.toEnv asserts ops .empty = .ok u ∧
      (∀ k, ∃ blocks : List Block, u.uncheckedGet asserts k = .ok (blocks.map some) ∧
        (blocks.map (·.hash env.toEnv)).Nodup) ∧
      (∀ k c, Contains asserts u.flush k c ↔ Contains asserts u k c) ∧
      (∀ k b k' c, Contains asserts (u.uncheckedDel k b) k' c ↔
        Contains asserts u k' c ∧ ¬ (k' = k ∧ c = b)) ∧
      ∀ k b, ∃ u' c, u.uncheckedPut env.toEnv asserts k b = .ok u' ∧
        c.hash env.toEnv = b.hash env.toEnv ∧ Contains asserts u' k c ∧
        ∀ post, .del k c ∉ post →
          ∃ u'', run env.toEnv asserts post u' = .ok u'' ∧ Contains asserts u'' k c := by
  have hempty : Represents .empty (BlockProcessor.idle BlockStore.empty).unchecked :=
    ⟨[], rfl, .refl _⟩
  obtain ⟨u, hrun, hu, hp⟩ := Represents.run env asserts ops hempty .nil
  refine ⟨u, hrun, ?_, ?_, ?_, ?_⟩
  · intro k
    obtain ⟨blocks, hget, hperm⟩ := hu.get asserts k
    exact ⟨blocks, hget, (hperm.map _).nodup_iff.mpr (hp.uncheckedGet k)⟩
  · intro k c
    rw [(hu.flush hp.nodup).contains_iff, hu.contains_iff]
  · intro k b k' c
    rw [(hu.del k b).contains_iff, hu.contains_iff]
    show _ ∈ List.filter _ _ ↔ _
    rw [List.mem_filter, Bool.not_eq_true', decide_eq_false_iff_not]
  · intro k b
    obtain ⟨u', hput, hu'⟩ := hu.put env asserts k b
    obtain ⟨c, hhash, hc⟩ := exists_mem_uncheckedPut env _ k b
    refine ⟨u', c, hput, hhash, hu'.contains_iff.mpr hc, ?_⟩
    intro post hpost
    obtain ⟨u'', hrun', hu'', -⟩ := Represents.run env asserts post hu' (hp.put k b)
    exact ⟨u'', hrun', hu''.contains_iff.mpr (mem_foldl_viewed hpost hc)⟩

end Badem
