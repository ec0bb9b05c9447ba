import Badem.Core.Messages

/-!
# Datagrams that the parser accepts

The parser calls its visitor with a message exactly when the buffer is what that message is
written to and the work of its block is sufficient.  The scope of an IPv6 address is not
written, and the type of a block is four bits that the sender chooses.
-/

namespace Badem

open Codec

/-! ## Fields -/

theorem codes8 : Codes (readBig 8) bigEndian := codes_bigEndian (by norm_num)

theorem codes64 : Codes (readBig 64) bigEndian := codes_bigEndian (by norm_num)

theorem codes128 : Codes (readBig 128) bigEndian := codes_bigEndian (by norm_num)

theorem codes256 : Codes (readBig 256) bigEndian := codes_bigEndian (by norm_num)

theorem codes512 : Codes (readBig 512) bigEndian := codes_bigEndian (by norm_num)

theorem codesPort : Codes (readLittle 16) littleEndian := codes_littleEndian (by norm_num)

theorem codesWord : Codes (readLittle 64) littleEndian := codes_littleEndian (by norm_num)

/-! ## Blocks -/

theorem codes_sendBlock : Codes SendBlock.ofStream SendBlock.serialize := by
  rintro l ⟨⟨previous, destination, balance⟩, signature, work⟩ rest
  simp [SendBlock.ofStream, SendBlock.serialize, codes128.bind_iff, codes256.bind_iff,
    codes512.bind_iff, codesWord.bind_iff, pure_iff, -bind_pure_comp]

theorem codes_receiveBlock : Codes ReceiveBlock.ofStream ReceiveBlock.serialize := by
  rintro l ⟨⟨previous, source⟩, signature, work⟩ rest
  simp [ReceiveBlock.ofStream, ReceiveBlock.serialize, codes256.bind_iff, codes512.bind_iff,
    codesWord.bind_iff, pure_iff, -bind_pure_comp]

theorem codes_openBlock : Codes OpenBlock.ofStream OpenBlock.serialize := by
  rintro l ⟨⟨source, representative, account⟩, signature, work⟩ rest
  simp [OpenBlock.ofStream, OpenBlock.serialize, codes256.bind_iff, codes512.bind_iff,
    codesWord.bind_iff, pure_iff, -bind_pure_comp]

theorem codes_changeBlock : Codes ChangeBlock.ofStream ChangeBlock.serialize := by
  rintro l ⟨⟨previous, representative⟩, signature, work⟩ rest
  simp [ChangeBlock.ofStream, ChangeBlock.serialize, codes256.bind_iff, codes512.bind_iff,
    codesWord.bind_iff, pure_iff, -bind_pure_comp]

theorem codes_stateBlock : Codes StateBlock.ofStream StateBlock.serialize := by
  rintro l ⟨⟨account, previous, representative, balance, link⟩, signature, work⟩ rest
  simp [StateBlock.ofStream, StateBlock.serialize, codes64.bind_iff, codes128.bind_iff,
    codes256.bind_iff, codes512.bind_iff, pure_iff, -bind_pure_comp]

variable {type : BlockType} {b : Block} {l rest stream : Stream} {code w : Nat} {v : Vote}

theorem block_ofStream_iff :
    Block.ofStream type l = some (b, rest) ↔ b.type = type ∧ l = b.serialize ++ rest := by
  cases type <;> cases b <;>
    simp [Block.ofStream, map_iff, Block.type, Block.serialize, codes_sendBlock _ _ _,
      codes_receiveBlock _ _ _, codes_openBlock _ _ _, codes_changeBlock _ _ _,
      codes_stateBlock _ _ _]

theorem BlockType.ofCode_eq_some_iff : BlockType.ofCode code = some type ↔ code = type.code := by
  constructor
  · intro h
    unfold BlockType.ofCode at h
    split at h <;> first | (obtain rfl := Option.some.inj h; rfl) | cases h
  · rintro rfl
    cases type <;> rfl

theorem deserializeBlock_iff :
    deserializeBlock false code stream = .ok (some (b, rest)) ↔
      code = b.type.code ∧ stream = b.serialize ++ rest := by
  rw [deserializeBlock]
  cases hcode : BlockType.ofCode code with
  | none =>
    have hne : code ≠ b.type.code := fun h => by
      simp [BlockType.ofCode_eq_some_iff.mpr h] at hcode
    simp [assertIf, hne]
  | some type =>
    obtain rfl := BlockType.ofCode_eq_some_iff.mp hcode
    simp only [Except.ok.injEq, block_ofStream_iff]
    have hinj : b.type = type ↔ type.code = b.type.code := by
      cases type <;> cases b.type <;> decide
    rw [hinj]

theorem exists_deserializeBlock (code : Nat) (stream : Stream) :
    ∃ result, deserializeBlock false code stream = .ok result := by
  rw [deserializeBlock]
  cases BlockType.ofCode code with
  | none => exact ⟨none, rfl⟩
  | some type => exact ⟨_, rfl⟩

/-! ## Votes -/

theorem codes_votePart : Codes VotePart.ofStream VotePart.serialize := by
  rintro l ⟨account, signature, sequence⟩ rest
  simp [VotePart.ofStream, VotePart.serialize, codes256.bind_iff, codes512.bind_iff,
    codesWord.bind_iff, pure_iff, -bind_pure_comp]

theorem vote_readWith_iff {readBlock : Stream → Except Fault (Option (Block × Stream))}
    {accepts : Block → Prop} {write : Block → Stream}
    (hblock : ∀ l b rest, readBlock l = .ok (some (b, rest)) ↔ accepts b ∧ l = write b ++ rest) :
    Vote.readWith readBlock stream = .ok (some (v, rest)) ↔
      accepts v.block ∧ stream = v.part.serialize ++ (write v.block ++ rest) := by
  rw [Vote.readWith]
  cases hpart : VotePart.ofStream stream with
  | none =>
    refine iff_of_false (by simp) fun h => ?_
    simp [(codes_votePart _ _ _).mpr h.2] at hpart
  | some p =>
    obtain ⟨part, mid⟩ := p
    have hstream := (codes_votePart stream part mid).mp hpart
    constructor
    · intro h
      obtain ⟨result, hresult, h⟩ := ok_of_bind h
      obtain ⟨⟨b, rest'⟩, rfl, heq⟩ := Option.map_eq_some_iff.mp (Except.ok.inj h)
      obtain ⟨rfl, rfl⟩ := Prod.mk.inj heq
      obtain ⟨haccepts, rfl⟩ := (hblock _ _ _).mp hresult
      exact ⟨haccepts, hstream⟩
    · rintro ⟨haccepts, hv⟩
      -- the fields before the block are determined by the bytes
      obtain ⟨rfl, rfl⟩ := Prod.mk.inj (Option.some.inj
        (hpart.symm.trans ((codes_votePart _ _ _).mpr hv)))
      exact bind_eq_of_ok ((hblock _ _ _).mpr ⟨haccepts, rfl⟩) rfl

theorem vote_ofStream_iff :
    Vote.ofStream false code stream = .ok (some (v, rest)) ↔
      code = v.block.type.code ∧ stream = v.serialize ++ rest := by
  rw [Vote.serialize, List.append_assoc]
  exact vote_readWith_iff fun _ _ _ => deserializeBlock_iff

/-! ## Headers -/

theorem header_ofStream_iff {h : MessageHeader} :
    MessageHeader.ofStream l = some (h, rest) ↔
      l = bigEndian h.versionMax ++ (bigEndian h.versionUsing ++ (bigEndian h.versionMin ++
        (bigEndian h.type ++ (littleEndian h.extensions ++ rest)))) := by
  obtain ⟨versionMax, versionUsing, versionMin, type, extensions⟩ := h
  simp [MessageHeader.ofStream, codes8.bind_iff, codesPort.bind_iff, pure_iff, -bind_pure_comp]

theorem length_magicNumber (network : BademNetwork) : network.magicNumber.length = 2 := by
  cases network <;> rfl

theorem codes_header (env : Env) :
    Codes (MessageHeader.deserialize env) (MessageHeader.serialize env) := by
  intro l h rest
  rw [MessageHeader.deserialize, bind_iff]
  simp only [take_iff]
  constructor
  · rintro ⟨magic, mid, ⟨-, rfl⟩, hmid⟩
    by_cases hmagic : magic = env.network.magicNumber
    · rw [if_neg (not_not.mpr hmagic), header_ofStream_iff] at hmid
      rw [hmid, hmagic]
      simp only [MessageHeader.serialize, List.append_assoc]
    · rw [if_pos hmagic] at hmid
      cases hmid
  · rintro rfl
    simp only [MessageHeader.serialize, List.append_assoc]
    refine ⟨env.network.magicNumber, _, ⟨length_magicNumber _, rfl⟩, ?_⟩
    rw [if_neg (by simp)]
    exact header_ofStream_iff.mpr rfl

/-! ## Peers -/

def Endpoint.Scopeless (e : Endpoint) : Prop := ∀ address scopeId, e.address = .v6 address scopeId →
  scopeId = 0

theorem endpoint_ofStream_iff (l : Stream) (e : Endpoint) (rest : Stream) :
    Endpoint.ofStream l = some (e, rest) ↔
      e.Scopeless ∧ ∃ s, e.serialize = some s ∧ l = s ++ rest := by
  obtain ⟨address, port⟩ := e
  simp only [Endpoint.ofStream, codes128.bind_iff, codesPort.bind_iff, pure_iff, Endpoint.mk.injEq]
  constructor
  · rintro ⟨a, _, rfl, p, _, rfl, ⟨rfl, rfl⟩, rfl⟩
    refine ⟨fun a' s h => (IpAddress.v6.inj h).2.symm, _, rfl, ?_⟩
    rw [List.append_assoc]
  · rintro ⟨hscope, s, hs, rfl⟩
    cases address with
    | v4 a => exact absurd hs (by simp [Endpoint.serialize])
    | v6 a scopeId =>
      obtain rfl : scopeId = 0 := hscope a scopeId rfl
      cases hs
      exact ⟨a, _, by rw [List.append_assoc], port, _, rfl, ⟨rfl, rfl⟩, rfl⟩

/-! ## Messages -/

namespace Message

def header : Message → MessageHeader
  | keepalive m => m.header
  | publish m => m.header
  | confirmReq m => m.header
  | confirmAck m => m.header

def kind : Message → MessageType
  | keepalive _ => .keepalive
  | publish _ => .publish
  | confirmReq _ => .confirmReq
  | confirmAck _ => .confirmAck

/-- The block of a message, if it has one. -/
def block : Message → Option Block
  | keepalive _ => none
  | publish m => some m.block
  | confirmReq m => some m.block
  | confirmAck m => some m.vote.block

/-- The header is one that the constructors of the message give it: it has the type of the
message and the type of its block. -/
structure Coherent (m : Message) : Prop where
  type : m.header.type = m.kind.code
  blockType : ∀ b ∈ m.block, m.header.blockType = b.type.code

def Worked (env : NodeEnv) (m : Message) : Prop := ∀ b ∈ m.block, env.workValidate b = false

def Scopeless : Message → Prop
  | keepalive m => ∀ e ∈ m.peers.toList, e.Scopeless
  | _ => True

/-- The bytes of a message after its header. -/
def body : Message → Option Stream
  | keepalive m => (m.peers.toList.mapM Endpoint.serialize).map List.flatten
  | publish m => some m.block.serialize
  | confirmReq m => some m.block.serialize
  | confirmAck m => some m.vote.serialize

theorem serialize_eq (env : Env) (m : Message) :
    m.serialize env = m.body.map (fun s => m.header.serialize env ++ s) := by
  cases m with
  | keepalive m =>
    rw [serialize, Keepalive.serialize, body]
    cases m.peers.toList.mapM Endpoint.serialize with
    | none => rfl
    | some peers => rfl
  | _ => rfl

end Message

def ParserResult.Settled (r : ParserResult) : Prop :=
  (r.status = .success ∧ ∃ m, r.visited = [m]) ∨ (r.status ≠ .success ∧ r.visited = [])

section Parser

open MessageParser

variable (env : NodeEnv)

theorem atEnd_iff (stream : Stream) : atEnd stream = true ↔ stream = [] := by
  rw [atEnd, Option.isNone_iff_eq_none]
  cases stream <;> simp [take]

def Visitable (header : MessageHeader) (stream : Stream) (m : Message) : Prop :=
  m.header = header ∧ m.Coherent ∧ m.Scopeless ∧ m.body = some stream ∧ m.Worked env

def Parses (header : MessageHeader) (stream : Stream) (parsed : Except Fault ParserResult) :
    Prop :=
  ∃ r, parsed = .ok r ∧ r.Settled ∧ ∀ m, r.visited = [m] ↔ Visitable env header stream m

variable {env} {header : MessageHeader} {stream : Stream} {type : MessageType}
  {invalid : ParseStatus}

theorem parses_refused {status : ParseStatus} (hstatus : status ≠ .success)
    (h : ∀ m, ¬ Visitable env header stream m) : Parses env header stream (.ok ⟨status, []⟩) := by
  refine ⟨_, rfl, .inr ⟨hstatus, rfl⟩, fun m => ?_⟩
  simp [h m]

theorem parses_visited {message : Message} (h : ∀ m, Visitable env header stream m ↔ m = message) :
    Parses env header stream (.ok ⟨.success, [message]⟩) := by
  refine ⟨_, rfl, .inl ⟨rfl, message, rfl⟩, fun m => ?_⟩
  rw [h]
  simp [eq_comm]

theorem MessageType.code_injective : Function.Injective MessageType.code := by
  intro t t' h
  cases t <;> cases t' <;> first | rfl | exact absurd h (by decide)

theorem Message.Coherent.kind_eq {m : Message} (hm : m.Coherent)
    (h : m.header.type = type.code) : m.kind = type :=
  MessageType.code_injective (hm.type.symm.trans h)

theorem visitable_keepalive_iff (htype : header.type = MessageType.keepalive.code) (m : Message) :
    Visitable env header stream m ↔ ∃ peers,
      replicate Endpoint.ofStream 8 stream = some (peers, []) ∧ m = .keepalive ⟨header, peers⟩ := by
  simp only [replicate_iff endpoint_ofStream_iff, List.append_nil]
  constructor
  · rintro ⟨rfl, hm, hscope, hbody, -⟩
    have hkind := hm.kind_eq htype
    cases m with
    | keepalive k =>
      obtain ⟨ss, hss, rfl⟩ := Option.map_eq_some_iff.mp hbody
      exact ⟨k.peers, ⟨hscope, ss, hss, rfl⟩, rfl⟩
    | _ => simp [Message.kind] at hkind
  · rintro ⟨peers, ⟨hscope, ss, hss, rfl⟩, rfl⟩
    refine ⟨rfl, ⟨htype, by simp [Message.block]⟩, hscope, ?_,
      by simp [Message.Worked, Message.block]⟩
    rw [Message.body, hss]
    rfl

theorem parses_keepalive (htype : header.type = MessageType.keepalive.code) :
    Parses env header stream (deserializeKeepalive false stream header) := by
  have hiff : ∀ m, Visitable env header stream m ↔ _ := visitable_keepalive_iff htype
  unfold deserializeKeepalive
  rcases hpeers : replicate Endpoint.ofStream 8 stream with _ | ⟨peers, rest⟩
  · exact parses_refused (by decide) fun m hm => by simp [hiff, hpeers] at hm
  · by_cases hrest : rest = []
    · subst hrest
      exact parses_visited fun m => by simp [hiff, hpeers]
    · have hend := (atEnd_iff rest).not.mpr hrest
      simp only [if_neg hend]
      exact parses_refused (by decide) fun m hm => by simp [hiff, hpeers, hrest] at hm

theorem parses_conclude
    {α : Type} {result : Option (α × Stream)} {build : α → Message} {block : α → Block}
    (hinvalid : invalid ≠ .success)
    (hblock : ∀ a, (build a).block = some (block a))
    (hiff : ∀ m, (m.header = header ∧ m.Coherent ∧ m.Scopeless ∧ m.body = some stream) ↔
      ∃ a, result = some (a, []) ∧ m = build a) :
    Parses env header stream (.ok (conclude env block build invalid result)) := by
  have hbuild : ∀ m, Visitable env header stream m ↔
      (∃ a, result = some (a, []) ∧ m = build a) ∧ m.Worked env := by
    intro m
    rw [← hiff]
    exact ⟨fun ⟨h₁, h₂, h₃, h₄, h₅⟩ => ⟨⟨h₁, h₂, h₃, h₄⟩, h₅⟩,
      fun ⟨⟨h₁, h₂, h₃, h₄⟩, h₅⟩ => ⟨h₁, h₂, h₃, h₄, h₅⟩⟩
  have hworked : ∀ a, (build a).Worked env ↔ env.workValidate (block a) = false := by
    intro a
    simp [Message.Worked, hblock]
  rcases result with _ | ⟨a, rest⟩
  · exact parses_refused hinvalid (fun m hm => by simp [hbuild] at hm)
  · rw [conclude]
    by_cases hrest : rest = []
    · subst hrest
      rw [if_pos ((atEnd_iff []).mpr rfl)]
      by_cases hwork : env.workValidate (block a) = false
      · rw [if_pos hwork]
        refine parses_visited fun m => ?_
        rw [hbuild]
        constructor
        · rintro ⟨⟨a', ha', rfl⟩, -⟩
          rw [(Prod.mk.inj (Option.some.inj ha')).1]
        · rintro rfl
          exact ⟨⟨a, rfl, rfl⟩, (hworked a).mpr hwork⟩
      · rw [if_neg hwork]
        refine parses_refused (by decide) fun m hm => hwork ?_
        obtain ⟨⟨a', ha', rfl⟩, hm⟩ := (hbuild m).mp hm
        rw [(Prod.mk.inj (Option.some.inj ha')).1]
        exact (hworked a').mp hm
    · rw [if_neg ((atEnd_iff rest).not.mpr hrest)]
      refine parses_refused hinvalid fun m hm => ?_
      obtain ⟨⟨a', ha', -⟩, -⟩ := (hbuild m).mp hm
      exact hrest (Prod.mk.inj (Option.some.inj ha')).2

theorem parses_blockMessage {message : BlockMessage → Message} (hinvalid : invalid ≠ .success)
    (hkind : ∀ m, m.kind = type ↔ ∃ k, m = message k) (hheader : ∀ k, (message k).header = k.header)
    (hblock : ∀ k, (message k).block = some k.block)
    (hbody : ∀ k, (message k).body = some k.block.serialize) (hscope : ∀ k, (message k).Scopeless)
    (htype : header.type = type.code) :
    Parses env header stream
      (deserializeBlockMessage env false type message invalid stream header) := by
  obtain ⟨result, hresult⟩ := exists_deserializeBlock header.blockType stream
  have hparse : deserializeBlockMessage env false type message invalid stream header =
      .ok (conclude env id (fun b => message ⟨header, b⟩) invalid result) :=
    bind_eq_of_ok rfl (bind_eq_of_ok hresult rfl)
  rw [hparse]
  refine parses_conclude hinvalid (fun b => hblock _) fun m => ?_
  have hread : ∀ b, result = some (b, []) ↔
      header.blockType = b.type.code ∧ stream = b.serialize := by
    intro b
    rw [← List.append_nil b.serialize, ← deserializeBlock_iff, hresult, Except.ok.injEq]
  simp only [hread]
  constructor
  · rintro ⟨rfl, hm, -, hm'⟩
    obtain ⟨k, rfl⟩ := (hkind m).mp (hm.kind_eq htype)
    refine ⟨k.block, ⟨hm.blockType _ (hblock k), ?_⟩, ?_⟩
    · exact (Option.some.inj ((hbody k).symm.trans hm')).symm
    · rw [hheader]
  · rintro ⟨b, ⟨hcode, rfl⟩, rfl⟩
    refine ⟨hheader _, ⟨?_, fun b' hb' => ?_⟩, hscope _, hbody _⟩
    · grind
    · simp_all

theorem parses_publish (htype : header.type = MessageType.publish.code) :
    Parses env header stream (deserializePublish env false stream header) :=
  parses_blockMessage (by decide) (fun m => by cases m <;> simp [Message.kind]) (fun _ => rfl)
    (fun _ => rfl) (fun _ => rfl) (fun _ => trivial) htype

theorem parses_confirmReq (htype : header.type = MessageType.confirmReq.code) :
    Parses env header stream (deserializeConfirmReq env false stream header) :=
  parses_blockMessage (by decide) (fun m => by cases m <;> simp [Message.kind]) (fun _ => rfl)
    (fun _ => rfl) (fun _ => rfl) (fun _ => trivial) htype

theorem exists_vote_ofStream (code : Nat) (stream : Stream) :
    ∃ result, Vote.ofStream false code stream = .ok result := by
  rw [Vote.ofStream, Vote.readWith]
  rcases VotePart.ofStream stream with _ | ⟨part, rest⟩
  · exact ⟨none, rfl⟩
  · obtain ⟨result, hresult⟩ := exists_deserializeBlock code rest
    exact ⟨_, bind_eq_of_ok hresult rfl⟩

theorem parses_confirmAck (htype : header.type = MessageType.confirmAck.code) :
    Parses env header stream (deserializeConfirmAck env false stream header) := by
  obtain ⟨result, hresult⟩ := exists_vote_ofStream header.blockType stream
  have hparse : deserializeConfirmAck env false stream header =
      .ok (conclude env Vote.block (fun v => .confirmAck ⟨header, v⟩)
        .invalidConfirmAckMessage result) := bind_eq_of_ok hresult rfl
  rw [hparse]
  refine parses_conclude (by decide) (fun v => rfl) fun m => ?_
  have hread : ∀ v, result = some (v, []) ↔
      header.blockType = v.block.type.code ∧ stream = v.serialize := by
    intro v
    rw [← List.append_nil v.serialize, ← vote_ofStream_iff, hresult, Except.ok.injEq]
  simp only [hread]
  constructor
  · rintro ⟨rfl, hm, -, hbody⟩
    have hkind := hm.kind_eq htype
    cases m with
    | confirmAck k => exact ⟨k.vote, ⟨hm.blockType _ rfl, (Option.some.inj hbody).symm⟩, rfl⟩
    | _ => simp [Message.kind] at hkind
  · rintro ⟨v, ⟨hcode, rfl⟩, rfl⟩
    refine ⟨rfl, ⟨htype, fun b' hb' => ?_⟩, trivial, rfl⟩
    rw [← Option.some.inj hb']
    exact hcode

theorem parses_unknown (hunknown : ∀ type : MessageType, header.type ≠ type.code) :
    Parses env header stream (.ok ⟨.invalidMessageType, []⟩) := by
  refine parses_refused (by decide) fun m hm => hunknown m.kind ?_
  rw [← hm.1]
  exact hm.2.1.type

variable (env)

theorem parses_stream (header : MessageHeader) (stream : Stream) :
    Parses env header stream (
      if header.type = MessageType.keepalive.code then deserializeKeepalive false stream header
      else if header.type = MessageType.publish.code then
        deserializePublish env false stream header
      else if header.type = MessageType.confirmReq.code then
        deserializeConfirmReq env false stream header
      else if header.type = MessageType.confirmAck.code then
        deserializeConfirmAck env false stream header
      else .ok ⟨.invalidMessageType, []⟩) := by
  split_ifs with h₁ h₂ h₃ h₄
  · exact parses_keepalive h₁
  · exact parses_publish h₂
  · exact parses_confirmReq h₃
  · exact parses_confirmAck h₄
  · refine parses_unknown fun type => ?_
    cases type <;> assumption

theorem deserializeBuffer_settled (buffer : Stream) :
    ∃ r, deserializeBuffer env false buffer = .ok r ∧ r.Settled ∧
      ∀ m : Message, r.visited = [m] ↔
        m.Coherent ∧ m.Scopeless ∧ m.serialize env.toEnv = some buffer ∧ m.Worked env := by
  have hserialize : ∀ m : Message, m.serialize env.toEnv = some buffer ↔
      ∃ stream, MessageHeader.deserialize env.toEnv buffer = some (m.header, stream) ∧
        m.body = some stream := by
    intro m
    simp only [codes_header env.toEnv _ _ _, Message.serialize_eq, Option.map_eq_some_iff]
    exact exists_congr fun stream => by rw [and_comm, eq_comm]
  rw [deserializeBuffer]
  cases hheader : MessageHeader.deserialize env.toEnv buffer with
  | none =>
    refine ⟨_, rfl, .inr ⟨by decide, rfl⟩, fun m => ?_⟩
    simp [hserialize, hheader]
  | some p =>
    obtain ⟨header, stream⟩ := p
    obtain ⟨r, hr, hsettled, hvisited⟩ := parses_stream env header stream
    refine ⟨r, hr, hsettled, fun m => ?_⟩
    rw [hvisited, hserialize, hheader, Visitable]
    constructor
    · rintro ⟨rfl, hm, hscope, hbody, hwork⟩
      exact ⟨hm, hscope, ⟨stream, rfl, hbody⟩, hwork⟩
    · rintro ⟨hm, hscope, ⟨stream', heq, hbody⟩, hwork⟩
      cases heq
      exact ⟨rfl, hm, hscope, hbody, hwork⟩

end Parser

/-- The visitor is called with a message exactly when the buffer is what it is written to and the
work suffices. -/
theorem datagram_codec (env : NodeEnv) (buffer : Stream) :
    ∃ r, MessageParser.deserializeBuffer env false buffer = .ok r ∧
      (∀ m : Message, r.visited = [m] ↔
        m.Coherent ∧ m.Scopeless ∧ m.serialize env.toEnv = some buffer ∧ m.Worked env) ∧
      ((∃ m, r.visited = [m]) ∨ (r.visited = [] ∧ r.status ≠ .success)) := by
  obtain ⟨r, hr, hsettled, hvisited⟩ := deserializeBuffer_settled env buffer
  refine ⟨r, hr, hvisited, ?_⟩
  rcases hsettled with ⟨-, hone⟩ | ⟨hstatus, hempty⟩
  · exact Or.inl hone
  · exact Or.inr ⟨hempty, hstatus⟩

def datagramEnv : NodeEnv where
  network := .test
  digest := fun _ => 0
  validateMessage := fun _ _ _ => false
  checked := false
  workValue := fun _ _ => 0xffffffffffffffff

def scopedKeepalive (scopeId : Nat) : Message :=
  .keepalive ⟨⟨0x0a, 0x0a, 0x07, 0x02, 0⟩, List.Vector.replicate 8 ⟨.v6 1 scopeId, 7075⟩⟩

/-- A message whose peers have a scope is written like the one without scopes, and the
latter is read back. -/
theorem scoped_peer_lost :
    (scopedKeepalive 1).Coherent ∧ (scopedKeepalive 1).Worked datagramEnv ∧
      ∃ buffer r, (scopedKeepalive 1).serialize datagramEnv.toEnv = some buffer ∧
        MessageParser.deserializeBuffer datagramEnv false buffer = .ok r ∧
        r.visited = [scopedKeepalive 0] ∧ r.visited ≠ [scopedKeepalive 1] := by
  have hcoherent : ∀ n, (scopedKeepalive n).Coherent :=
    fun n => ⟨rfl, by simp [scopedKeepalive, Message.block]⟩
  have hworked : ∀ n, (scopedKeepalive n).Worked datagramEnv :=
    fun n => by simp [scopedKeepalive, Message.Worked, Message.block]
  refine ⟨hcoherent 1, hworked 1, ?_⟩
  obtain ⟨buffer, hbuffer⟩ : ∃ buffer,
      (scopedKeepalive 1).serialize datagramEnv.toEnv = some buffer := ⟨_, rfl⟩
  obtain ⟨r, hr, -, hvisited⟩ := deserializeBuffer_settled datagramEnv buffer
  have hsame : (scopedKeepalive 0).serialize datagramEnv.toEnv = some buffer :=
    hbuffer.symm ▸ rfl
  have hscope : (scopedKeepalive 0).Scopeless := by
    intro e he address scopeId haddress
    rw [List.eq_of_mem_replicate he] at haddress
    exact (IpAddress.v6.inj haddress).2.symm
  have hzero := (hvisited (scopedKeepalive 0)).mpr ⟨hcoherent 0, hscope, hsame, hworked 0⟩
  refine ⟨buffer, r, hbuffer, hr, hzero, ?_⟩
  rw [hzero]
  decide

/-! ## Assertions -/

theorem deserializeBlock_asserts_iff (code : Nat) (stream : Stream) :
    (∃ result, deserializeBlock true code stream = .ok result) ↔
      ∃ type, BlockType.ofCode code = some type := by
  rw [deserializeBlock]
  cases BlockType.ofCode code with
  | none => simp [assertIf, require, Bind.bind, Except.bind]
  | some type => simp

theorem exists_readBig (stream : Stream) (h : w / 8 ≤ stream.length) :
    ∃ x, readBig w stream = some (x, stream.drop (w / 8)) :=
  ⟨_, bind_iff.mpr ⟨_, _, take_iff.mpr ⟨List.length_take_of_le h,
    (List.take_append_drop _ stream).symm⟩, rfl⟩⟩

theorem exists_readLittle (stream : Stream) (h : w / 8 ≤ stream.length) :
    ∃ x, readLittle w stream = some (x, stream.drop (w / 8)) :=
  ⟨_, bind_iff.mpr ⟨_, _, take_iff.mpr ⟨List.length_take_of_le h,
    (List.take_append_drop _ stream).symm⟩, rfl⟩⟩

theorem exists_votePart_iff (stream : Stream) :
    (∃ part rest, VotePart.ofStream stream = some (part, rest)) ↔ 104 ≤ stream.length := by
  constructor
  · rintro ⟨part, rest, h⟩
    rw [(codes_votePart _ _ _).mp h]
    simp only [VotePart.serialize, littleEndian, List.length_append, List.length_reverse,
      length_bigEndian]
    omega
  · intro h
    obtain ⟨account, h₁⟩ := exists_readBig (w := 256) stream (by omega)
    obtain ⟨signature, h₂⟩ := exists_readBig (w := 512) (stream.drop 32)
      (by rw [List.length_drop]; omega)
    obtain ⟨sequence, h₃⟩ := exists_readLittle (w := 64) ((stream.drop 32).drop 64)
      (by rw [List.length_drop, List.length_drop]; omega)
    exact ⟨_, _, bind_iff.mpr ⟨_, _, h₁, bind_iff.mpr ⟨_, _, h₂, bind_iff.mpr ⟨_, _, h₃, rfl⟩⟩⟩⟩

/-- The buffer has a readable header whose block type is none of the five, and the decoder
of its kind of message gets as far as the block. -/
def TripsAssertion (env : Env) (buffer : Stream) : Prop :=
  ∃ header stream, MessageHeader.deserialize env buffer = some (header, stream) ∧
    (∀ type : BlockType, header.blockType ≠ type.code) ∧
    (header.type = MessageType.publish.code ∨ header.type = MessageType.confirmReq.code ∨
      (header.type = MessageType.confirmAck.code ∧ 104 ≤ stream.length))

section Asserts

open MessageParser

variable {env : NodeEnv} {header : MessageHeader} {stream : Stream}

theorem exists_bind_pure_iff {α β : Type} {x : Except Fault α} {f : α → β} :
    (∃ r, (do let a ← x; pure (f a)) = .ok r) ↔ ∃ a, x = .ok a := by
  cases x <;> simp [Bind.bind, Except.bind, pure, Except.pure]

theorem exists_ofCode_iff (code : Nat) :
    (∃ type, BlockType.ofCode code = some type) ↔ ∃ type : BlockType, code = type.code := by
  simp only [BlockType.ofCode_eq_some_iff]

theorem blockMessage_asserts_iff {type : MessageType} {message : BlockMessage → Message}
    {invalid : ParseStatus} (htype : header.type = type.code) :
    (∃ r, deserializeBlockMessage env true type message invalid stream header = .ok r) ↔
      ∃ type : BlockType, header.blockType = type.code := by
  rw [← exists_ofCode_iff, ← deserializeBlock_asserts_iff header.blockType stream,
    deserializeBlockMessage]
  have hassert : assertIf true (header.type = type.code) = .ok () := by
    simp [assertIf, htype]
  rw [hassert, ok_bind, exists_bind_pure_iff]

theorem confirmAck_asserts_iff :
    (∃ r, deserializeConfirmAck env true stream header = .ok r) ↔
      104 ≤ stream.length → ∃ type : BlockType, header.blockType = type.code := by
  rw [deserializeConfirmAck, exists_bind_pure_iff, ← exists_votePart_iff, Vote.ofStream,
    Vote.readWith]
  cases hpart : VotePart.ofStream stream with
  | none => simp
  | some p =>
    rw [← exists_ofCode_iff, ← deserializeBlock_asserts_iff header.blockType p.2,
      exists_bind_pure_iff]
    exact ⟨fun h _ => h, fun h => h ⟨p.1, p.2, rfl⟩⟩

theorem keepalive_asserts (htype : header.type = MessageType.keepalive.code) :
    ∃ r, deserializeKeepalive true stream header = .ok r := by
  have hassert : assertIf true (header.type = MessageType.keepalive.code) = .ok () := by
    simp [assertIf, htype]
  rw [deserializeKeepalive, hassert, ok_bind]
  rcases replicate Endpoint.ofStream 8 stream with _ | ⟨peers, rest⟩
  · exact ⟨_, rfl⟩
  · by_cases hrest : atEnd rest = true
    · exact ⟨_, if_pos hrest⟩
    · exact ⟨_, if_neg hrest⟩

end Asserts

theorem trips_iff {env : Env} {buffer : Stream} {header : MessageHeader}
    (h : MessageHeader.deserialize env buffer = some (header, stream)) :
    ¬ TripsAssertion env buffer ↔
      (header.type = MessageType.publish.code ∨ header.type = MessageType.confirmReq.code ∨
        (header.type = MessageType.confirmAck.code ∧ 104 ≤ stream.length)) →
      ∃ type : BlockType, header.blockType = type.code := by
  constructor
  · intro hnot hkind
    by_contra hcode
    exact hnot ⟨header, stream, h, fun type ht => hcode ⟨type, ht⟩, hkind⟩
  · rintro hcode ⟨header', stream', h', hno, hkind⟩
    cases h.symm.trans h'
    obtain ⟨type, ht⟩ := hcode hkind
    exact hno type ht

/-- Which buffers fail an assertion. -/
theorem datagram_asserts_iff (env : NodeEnv) (buffer : Stream) :
    (∃ r, MessageParser.deserializeBuffer env true buffer = .ok r) ↔
      ¬ TripsAssertion env.toEnv buffer := by
  rw [MessageParser.deserializeBuffer]
  cases hheader : MessageHeader.deserialize env.toEnv buffer with
  | none => simp [TripsAssertion, hheader]
  | some p =>
    obtain ⟨header, stream⟩ := p
    rw [trips_iff hheader]
    dsimp only
    split_ifs with h₁ h₂ h₃ h₄
    · refine iff_of_true (keepalive_asserts h₁) fun hkind => ?_
      rw [h₁] at hkind
      exact absurd hkind (by simp [MessageType.code])
    · exact (blockMessage_asserts_iff h₂).trans (by simp [h₂])
    · exact (blockMessage_asserts_iff h₃).trans (by simp [h₃])
    · rw [confirmAck_asserts_iff]
      simp [h₄, MessageType.code]
    · refine iff_of_true ⟨_, rfl⟩ fun hkind => ?_
      rcases hkind with h | h | h
      · exact absurd h h₂
      · exact absurd h h₃
      · exact absurd h.1 h₄

/-- Eight bytes that fail an assertion: the header of a publish message with the block type
zero. -/
theorem untyped_publish_asserts :
    MessageParser.deserializeBuffer datagramEnv true
      (ascii "BZ" ++ [0x0a, 0x0a, 0x07, 0x03, 0x00, 0x00]) = .error .assertion := by
  rfl

end Badem
