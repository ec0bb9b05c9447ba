import Badem.Network.Datagrams

/-!
# Two ways of decoding a vote

The constructors accept exactly the bytes of a vote.  `vote::deserialize` asks for a block of
the type zero, which is none of the five.
-/

namespace Badem

open Codec

/-- Two decoders succeed on the same inputs, with the same results. -/
def SameSuccess {α : Type} (x y : Except Fault (Option (α × Stream))) : Prop :=
  ∀ r, x = .ok (some r) ↔ y = .ok (some r)

/-! ## The constructors -/

section Constructors

variable {asserts : Bool} {code : Nat} {stream rest : Stream} {b : Block} {v : Vote}

theorem deserializeBlock_some_iff :
    deserializeBlock asserts code stream = .ok (some (b, rest)) ↔
      code = b.type.code ∧ stream = b.serialize ++ rest := by
  rw [← deserializeBlock_iff, deserializeBlock, deserializeBlock]
  cases BlockType.ofCode code with
  | some type => rfl
  | none => cases asserts <;> simp [assertIf, require]

theorem code_lt (type : BlockType) : type.code < 2 ^ 8 := by
  cases type <;> decide

theorem code_ne_zero (type : BlockType) : type.code ≠ 0 := by
  cases type <;> decide

theorem deserializeTypedBlock_iff :
    deserializeTypedBlock asserts stream = .ok (some (b, rest)) ↔
      stream = serializeBlock b ++ rest := by
  rw [deserializeTypedBlock, serializeBlock, List.append_assoc]
  cases hread : readBig 8 stream with
  | none =>
    refine iff_of_false (by simp) fun hstream => ?_
    simp [(codes8 _ _ _).mpr hstream] at hread
  | some x =>
    obtain ⟨tag, mid⟩ := x
    have hstream := (codes8 _ _ _).mp hread
    simp only [deserializeBlock_some_iff]
    constructor
    · rintro ⟨htag, rfl⟩
      rw [hstream, ← htag, BitVec.ofNat_toNat, BitVec.setWidth_eq]
    · intro hb
      obtain ⟨rfl, rfl⟩ := Prod.mk.inj (Option.some.inj
        (hread.symm.trans ((codes8 _ _ _).mpr hb)))
      rw [BitVec.toNat_ofNat, Nat.mod_eq_of_lt (code_lt _)]
      exact ⟨rfl, rfl⟩

theorem vote_ofStream_some_iff :
    Vote.ofStream asserts code stream = .ok (some (v, rest)) ↔
      code = v.block.type.code ∧ stream = v.serialize ++ rest := by
  rw [Vote.serialize, List.append_assoc]
  exact vote_readWith_iff fun _ _ _ => deserializeBlock_some_iff

theorem vote_ofTypedStream_iff :
    Vote.ofTypedStream asserts stream = .ok (some (v, rest)) ↔
      stream = v.serializeTyped ++ rest := by
  have hblock : ∀ l b rest, deserializeTypedBlock asserts l = .ok (some (b, rest)) ↔
      True ∧ l = serializeBlock b ++ rest := fun l b rest => by
    rw [deserializeTypedBlock_iff, true_and]
  rw [Vote.ofTypedStream, vote_readWith_iff hblock, true_and, Vote.serializeTyped,
    List.append_assoc]

theorem confirmAck_ofStream_iff {header : MessageHeader} {m : ConfirmAck} :
    ConfirmAck.ofStream asserts header stream = .ok (some (m, rest)) ↔
      m.header = header ∧ header.blockType = m.vote.block.type.code ∧
        stream = m.vote.serialize ++ rest := by
  rw [ConfirmAck.ofStream]
  constructor
  · intro h
    obtain ⟨vote, hvote, h⟩ := ok_of_bind h
    obtain ⟨⟨v, rest'⟩, rfl, heq⟩ := Option.map_eq_some_iff.mp (Except.ok.inj h)
    obtain ⟨rfl, rfl⟩ := Prod.mk.inj heq
    exact ⟨rfl, vote_ofStream_some_iff.mp hvote⟩
  · rintro ⟨rfl, h⟩
    exact bind_eq_of_ok (vote_ofStream_some_iff.mpr h) rfl

end Constructors

/-! ## The member functions -/

section Deserialize

variable (asserts : Bool) (header : MessageHeader) (stream : Stream)

theorem vote_deserialize_ne (r : Vote × Stream) :
    Vote.deserialize asserts stream ≠ .ok (some r) := by
  intro h
  have hzero := (vote_readWith_iff fun _ _ _ => deserializeBlock_some_iff).mp h
  exact code_ne_zero _ hzero.1.symm

theorem confirmAck_deserialize_ne (r : ConfirmAck × Stream) :
    ConfirmAck.deserialize asserts header stream ≠ .ok (some r) := by
  intro h
  obtain ⟨_, -, h⟩ := ok_of_bind h
  obtain ⟨vote, hvote, h⟩ := ok_of_bind h
  obtain ⟨v, rfl, -⟩ := Option.map_eq_some_iff.mp (Except.ok.inj h)
  exact vote_deserialize_ne asserts stream v hvote

theorem sameSuccess_of_ne {α : Type} {x y : Except Fault (Option (α × Stream))}
    (h : ∀ r, x ≠ .ok (some r)) : SameSuccess x y ↔ ∀ r, y ≠ .ok (some r) :=
  forall_congr' fun r => by simp [h r]

end Deserialize

/-- The decoders agree on exactly the streams that do not start with the bytes of a vote. -/
theorem vote_decoders_agree_iff (asserts : Bool) (header : MessageHeader) (stream : Stream) :
    (SameSuccess (Vote.deserialize asserts stream) (Vote.ofTypedStream asserts stream) ↔
      ∀ v rest, stream ≠ Vote.serializeTyped v ++ rest) ∧
    (SameSuccess (ConfirmAck.deserialize asserts header stream)
        (ConfirmAck.ofStream asserts header stream) ↔
      ∀ v rest, header.blockType = v.block.type.code → stream ≠ Vote.serialize v ++ rest) ∧
    ∀ v rest, Vote.deserialize asserts (Vote.serializeTyped v ++ rest) ≠ .ok (some (v, rest)) ∧
      Vote.deserialize asserts (Vote.serialize v ++ rest) ≠ .ok (some (v, rest)) := by
  refine ⟨?_, ?_, fun v rest => ⟨vote_deserialize_ne _ _ _, vote_deserialize_ne _ _ _⟩⟩
  · rw [sameSuccess_of_ne (vote_deserialize_ne asserts stream), Prod.forall]
    simp only [ne_eq, vote_ofTypedStream_iff]
  · rw [sameSuccess_of_ne (confirmAck_deserialize_ne asserts header stream), Prod.forall]
    simp only [ne_eq, confirmAck_ofStream_iff, not_and]
    constructor
    · intro h v rest hcode
      exact h ⟨header, v⟩ rest rfl hcode
    · intro h m rest _ hcode
      exact h m.vote rest hcode

def sendVote : Vote := ⟨7, .sendBlock ⟨⟨1, 2, 3⟩, 4, 5⟩, 6, 8⟩

def sendVoteHeader : MessageHeader := ⟨7, 7, 1, MessageType.confirmAck.code, 0x0200⟩

/-- The constructors read the vote, and the member functions report an error, or abort when
assertions are compiled in. -/
theorem vote_decoders_differ :
    Vote.ofTypedStream false sendVote.serializeTyped = .ok (some (sendVote, [])) ∧
      Vote.deserialize false sendVote.serializeTyped = .ok none ∧
      ConfirmAck.ofStream false sendVoteHeader sendVote.serialize =
        .ok (some (⟨sendVoteHeader, sendVote⟩, [])) ∧
      ConfirmAck.deserialize false sendVoteHeader sendVote.serialize = .ok none ∧
      Vote.deserialize true sendVote.serializeTyped = .error .assertion := by
  have hpart : ∀ rest, VotePart.ofStream (sendVote.part.serialize ++ rest) =
      some (sendVote.part, rest) := fun rest => (codes_votePart _ _ _).mpr rfl
  have hnone : ∀ rest, Vote.deserialize false (sendVote.part.serialize ++ rest) = .ok none := by
    intro rest
    rw [Vote.deserialize, Vote.readWith, hpart]
    rfl
  refine ⟨vote_ofTypedStream_iff.mpr (List.append_nil _).symm, hnone _,
    confirmAck_ofStream_iff.mpr ⟨rfl, rfl, (List.append_nil _).symm⟩, ?_, ?_⟩
  · rw [ConfirmAck.deserialize, Vote.serialize, hnone]
    rfl
  · rw [Vote.deserialize, Vote.readWith, Vote.serializeTyped, hpart]
    rfl

end Badem
