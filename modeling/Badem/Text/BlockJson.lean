import Badem.Core.BlockJson
import Badem.Core.BlockProcessor
import Badem.Text.Numbers

/-!
# JSON texts of blocks

What the constructors and the members read from a tree, with the conversion of the account
fields as a parameter: the constructors read addresses, the members hexadecimal numbers.  No
text is both.
-/

namespace Badem

/-! ## Results of decoders -/

@[simp] theorem bind_eq_ok_iff {ε α β : Type} {x : Except ε α} {f : α → Except ε β} {b : β} :
    (x >>= f) = .ok b ↔ ∃ a, x = .ok a ∧ f a = .ok b := by
  constructor
  · exact ok_of_bind
  · rintro ⟨a, hx, hf⟩
    exact bind_eq_of_ok hx hf

@[simp] theorem map_eq_ok_iff {ε α β : Type} {x : Except ε α} {f : α → β} {b : β} :
    f <$> x = .ok b ↔ ∃ a, x = .ok a ∧ f a = b := by
  cases x <;> simp [Functor.map, Except.map]

@[simp] theorem pure_eq_ok_iff {ε α : Type} {a b : α} : (pure a : Except ε α) = .ok b ↔ a = b := by
  constructor
  · exact Except.ok.inj
  · rintro rfl
    rfl

@[simp] theorem decoded_eq_ok_iff {α : Type} {x : Option α} {a : α} :
    decoded x = .ok a ↔ x = some a := by
  cases x <;> simp [decoded]

@[simp] theorem get_eq_ok_iff {tree : JsonTree} {key : String} {text : Text} :
    tree.get key = .ok text ↔ tree key = some text :=
  decoded_eq_ok_iff

@[simp] theorem assertJson_eq_ok_iff {asserts : Bool} {tree : JsonTree} {type : Text} {u : Unit} :
    assertJson asserts tree type = .ok u ↔ (asserts = true → tree "type" = some type) := by
  cases asserts with
  | false => exact iff_of_true rfl (by simp)
  | true =>
    simp only [assertJson, if_true, forall_const, bind_eq_ok_iff, get_eq_ok_iff]
    constructor
    · rintro ⟨text, htext, h⟩
      split_ifs at h with heq
      rw [htext, heq]
    · intro h
      exact ⟨type, h, if_pos rfl⟩

section Addresses

variable {asserts : Bool} {check : Account → BitVec 40} {text : Text} {account : Account}

theorem decodeDigitsRelease_eq {number : Uint512} {r : Option Uint512}
    (h : decodeDigits text number = .ok r) : decodeDigitsRelease text number = r := by
  induction text generalizing number with
  | nil => exact Except.ok.inj h
  | cons character rest ih =>
    rw [decodeDigits] at h
    rw [decodeDigitsRelease]
    split_ifs at h ⊢ with hrange
    · exact Except.ok.inj h
    · obtain ⟨byte, hbyte, h⟩ := ok_of_bind h
      obtain ⟨_, _, hbyte⟩ := ok_of_bind hbyte
      obtain ⟨_, _, hbyte⟩ := ok_of_bind hbyte
      cases hbyte
      simp only
      split_ifs at h ⊢
      · exact Except.ok.inj h
      · exact ih h

theorem decodeAccountIn_eq (asserts : Bool) {r : Option Account}
    (h : decodeAccount check text = .ok r) : decodeAccountIn asserts check text = .ok r := by
  rw [decodeAccountIn]
  split_ifs
  · exact h
  · refine congrArg Except.ok ?_
    rw [decodeAccount] at h
    rw [decodeAccountRelease]
    simp only at h ⊢
    split_ifs at h ⊢
    · exact Except.ok.inj h
    · exact Except.ok.inj h
    · obtain ⟨number, hnumber, h⟩ := ok_of_bind h
      rw [decodeDigitsRelease_eq hnumber]
      exact Except.ok.inj h
    · exact Except.ok.inj h
    · exact Except.ok.inj h

theorem startsBdm_of_decodeAccountIn
    (h : decodeAccountIn asserts check text = .ok (some account)) : startsBdm text = true := by
  rw [decodeAccountIn] at h
  split_ifs at h
  · exact startsBdm_of_decodeAccount h
  · have hsome := Except.ok.inj h
    rw [decodeAccountRelease] at hsome
    split_ifs at hsome with _ _ hstart
    exact hstart

/-- The account that `decode_account` sets. -/
def addressOf (asserts : Bool) (check : Account → BitVec 40) (text : Text) : Option Account :=
  match decodeAccountIn asserts check text with
  | .ok account => account
  | .error _ => none

theorem addressOf_eq_some_iff :
    addressOf asserts check text = some account ↔
      decodeAccountIn asserts check text = .ok (some account) := by
  rw [addressOf]
  cases decodeAccountIn asserts check text <;> simp

@[simp] theorem decodedAccount_eq_ok_iff :
    decodedAccount (decodeAccountIn asserts check text) = .ok account ↔
      addressOf asserts check text = some account := by
  rw [addressOf]
  rcases decodeAccountIn asserts check text with e | _ | a <;> simp [decodedAccount]

/-- The link that a state block is read with. -/
def linkOf (asserts : Bool) (check : Account → BitVec 40) (text : Text) : Option Uint256 :=
  (decodeLink asserts check text).toOption

@[simp] theorem decodeLink_eq_ok_iff {link : Uint256} :
    decodeLink asserts check text = .ok link ↔ linkOf asserts check text = some link := by
  rw [linkOf]
  cases decodeLink asserts check text <;> simp [Except.toOption]

end Addresses

/-! ## Fields -/

/-- A field of a tree holds the text of a value. -/
def HasField {α : Type} (tree : JsonTree) (key : String) (convert : Text → Option α)
    (value : α) : Prop :=
  ∃ text, tree key = some text ∧ convert text = some value

section InTree

variable (asserts : Bool) (check : Account → BitVec 40) (convert : Text → Option Account)
variable (junk : Uint64) (tree : JsonTree)

@[mk_iff] structure SendBlock.InTree (b : SendBlock) : Prop where
  previous : HasField tree "previous" Uint256.decodeHex b.hashables.previous
  destination : HasField tree "destination" (addressOf asserts check) b.hashables.destination
  balance : HasField tree "balance" Uint128.decodeHex b.hashables.balance
  work : HasField tree "work" (fromStringHex junk) b.work
  signature : HasField tree "signature" Uint512.decodeHex b.signature

@[mk_iff] structure ReceiveBlock.InTree (b : ReceiveBlock) : Prop where
  previous : HasField tree "previous" Uint256.decodeHex b.hashables.previous
  source : HasField tree "source" Uint256.decodeHex b.hashables.source
  work : HasField tree "work" (fromStringHex junk) b.work
  signature : HasField tree "signature" Uint512.decodeHex b.signature

@[mk_iff] structure OpenBlock.InTree (b : OpenBlock) : Prop where
  source : HasField tree "source" Uint256.decodeHex b.hashables.source
  representative : HasField tree "representative" convert b.hashables.representative
  account : HasField tree "account" convert b.hashables.account
  work : HasField tree "work" (fromStringHex junk) b.work
  signature : HasField tree "signature" Uint512.decodeHex b.signature

@[mk_iff] structure ChangeBlock.InTree (b : ChangeBlock) : Prop where
  previous : HasField tree "previous" Uint256.decodeHex b.hashables.previous
  representative : HasField tree "representative" convert b.hashables.representative
  work : HasField tree "work" (fromStringHex junk) b.work
  signature : HasField tree "signature" Uint512.decodeHex b.signature

@[mk_iff] structure StateBlock.InTree (b : StateBlock) : Prop where
  account : HasField tree "account" (addressOf asserts check) b.hashables.account
  previous : HasField tree "previous" Uint256.decodeHex b.hashables.previous
  representative : HasField tree "representative" (addressOf asserts check)
    b.hashables.representative
  balance : HasField tree "balance" Uint128.decodeDec b.hashables.balance
  link : HasField tree "link" (linkOf asserts check) b.hashables.link
  work : HasField tree "work" (fromStringHex junk) b.work
  signature : HasField tree "signature" Uint512.decodeHex b.signature

/-- The tree holds the fields of a block; `convert` reads the account fields of open and
change blocks. -/
def Block.InTree : Block → Prop
  | .sendBlock b => b.InTree asserts check junk tree
  | .receiveBlock b => b.InTree junk tree
  | .openBlock b => b.InTree convert junk tree
  | .changeBlock b => b.InTree convert junk tree
  | .stateBlock b => b.InTree asserts check junk tree

end InTree

/-! ## What the decoders accept -/

section Decoders

variable {asserts : Bool} {check : Account → BitVec 40} {junk : Uint64} {tree : JsonTree}

theorem SendBlock.ofJson_eq_ok_iff {b : SendBlock} :
    SendBlock.ofJson asserts check junk tree = .ok b ↔ b.InTree asserts check junk tree := by
  obtain ⟨⟨previous, destination, balance⟩, signature, work⟩ := b
  simp [SendBlock.ofJson, SendHashables.ofJson, SendBlock.inTree_iff, HasField]
  aesop

theorem SendBlock.deserializeJson_eq_ok_iff {b : SendBlock} :
    SendBlock.deserializeJson asserts check junk tree = .ok b ↔
      (asserts = true → tree "type" = some (ascii "send")) ∧ b.InTree asserts check junk tree := by
  obtain ⟨⟨previous, destination, balance⟩, signature, work⟩ := b
  simp [SendBlock.deserializeJson, SendBlock.inTree_iff, HasField]
  aesop

theorem ReceiveBlock.ofJson_eq_ok_iff {b : ReceiveBlock} :
    ReceiveBlock.ofJson junk tree = .ok b ↔ b.InTree junk tree := by
  obtain ⟨⟨previous, source⟩, signature, work⟩ := b
  simp [ReceiveBlock.ofJson, ReceiveHashables.ofJson, ReceiveBlock.inTree_iff, HasField]
  aesop

theorem ReceiveBlock.deserializeJson_eq_ok_iff {b : ReceiveBlock} :
    ReceiveBlock.deserializeJson asserts junk tree = .ok b ↔
      (asserts = true → tree "type" = some (ascii "receive")) ∧ b.InTree junk tree := by
  obtain ⟨⟨previous, source⟩, signature, work⟩ := b
  simp [ReceiveBlock.deserializeJson, ReceiveBlock.inTree_iff, HasField]
  aesop

theorem OpenBlock.ofJson_eq_ok_iff {b : OpenBlock} :
    OpenBlock.ofJson asserts check junk tree = .ok b ↔
      b.InTree (addressOf asserts check) junk tree := by
  obtain ⟨⟨source, representative, account⟩, signature, work⟩ := b
  simp [OpenBlock.ofJson, OpenHashables.ofJson, OpenBlock.inTree_iff, HasField]
  aesop

theorem OpenBlock.deserializeJson_eq_ok_iff {b : OpenBlock} :
    OpenBlock.deserializeJson asserts junk tree = .ok b ↔
      (asserts = true → tree "type" = some (ascii "open")) ∧
        b.InTree Uint256.decodeHex junk tree := by
  obtain ⟨⟨source, representative, account⟩, signature, work⟩ := b
  simp [OpenBlock.deserializeJson, OpenBlock.inTree_iff, HasField]
  aesop

theorem ChangeBlock.ofJson_eq_ok_iff {b : ChangeBlock} :
    ChangeBlock.ofJson asserts check junk tree = .ok b ↔
      b.InTree (addressOf asserts check) junk tree := by
  obtain ⟨⟨previous, representative⟩, signature, work⟩ := b
  simp [ChangeBlock.ofJson, ChangeHashables.ofJson, ChangeBlock.inTree_iff, HasField]
  aesop

theorem ChangeBlock.deserializeJson_eq_ok_iff {b : ChangeBlock} :
    ChangeBlock.deserializeJson asserts junk tree = .ok b ↔
      (asserts = true → tree "type" = some (ascii "change")) ∧
        b.InTree Uint256.decodeHex junk tree := by
  obtain ⟨⟨previous, representative⟩, signature, work⟩ := b
  simp [ChangeBlock.deserializeJson, ChangeBlock.inTree_iff, HasField]
  aesop

@[simp] theorem isState_eq_some_iff {text : Text} {u : Unit} :
    (if text ≠ ascii "state" then none else some ()) = some u ↔ text = ascii "state" := by
  by_cases h : text = ascii "state" <;> simp [h]

theorem StateBlock.ofJson_eq_ok_iff {b : StateBlock} :
    StateBlock.ofJson asserts check junk tree = .ok b ↔
      tree "type" = some (ascii "state") ∧ b.InTree asserts check junk tree := by
  obtain ⟨⟨account, previous, representative, balance, link⟩, signature, work⟩ := b
  simp [StateBlock.ofJson, StateHashables.ofJson, StateBlock.inTree_iff, HasField]
  aesop

theorem StateBlock.deserializeJson_eq_ok_iff {b : StateBlock} :
    StateBlock.deserializeJson asserts check junk tree = .ok b ↔
      (asserts = true → tree "type" = some (ascii "state")) ∧ b.InTree asserts check junk tree := by
  obtain ⟨⟨account, previous, representative, balance, link⟩, signature, work⟩ := b
  simp [StateBlock.deserializeJson, StateBlock.inTree_iff, HasField]
  aesop

/-- The text of the type in the tree of a block. -/
def BlockType.text : BlockType → Text
  | .send => ascii "send"
  | .receive => ascii "receive"
  | .opening => ascii "open"
  | .change => ascii "change"
  | .state => ascii "state"

theorem wrap_eq_ok_iff {α : Type} {x : Decoded α} {wrap : α → Block} {type : BlockType}
    {P : Block → Prop} (hwrap : ∀ b, b.type = type ↔ ∃ a, wrap a = b)
    (hx : ∀ a, x = .ok a ↔ P (wrap a)) (b : Block) : wrap <$> x = .ok b ↔ b.type = type ∧ P b := by
  rw [map_eq_ok_iff, hwrap]
  constructor
  · rintro ⟨a, ha, rfl⟩
    exact ⟨⟨a, rfl⟩, (hx a).mp ha⟩
  · rintro ⟨⟨a, rfl⟩, hP⟩
    exact ⟨a, (hx a).mpr hP, rfl⟩

theorem type_eq_send_iff (b : Block) : b.type = .send ↔ ∃ a, Block.sendBlock a = b := by
  cases b <;> simp [Block.type]

theorem type_eq_receive_iff (b : Block) : b.type = .receive ↔ ∃ a, Block.receiveBlock a = b := by
  cases b <;> simp [Block.type]

theorem type_eq_opening_iff (b : Block) : b.type = .opening ↔ ∃ a, Block.openBlock a = b := by
  cases b <;> simp [Block.type]

theorem type_eq_change_iff (b : Block) : b.type = .change ↔ ∃ a, Block.changeBlock a = b := by
  cases b <;> simp [Block.type]

theorem type_eq_state_iff (b : Block) : b.type = .state ↔ ∃ a, Block.stateBlock a = b := by
  cases b <;> simp [Block.type]

/-- What the member of a block of the given type reads. -/
def Block.MemberReads (asserts : Bool) (check : Account → BitVec 40) (junk : Uint64)
    (type : BlockType) (tree : JsonTree) (b : Block) : Prop :=
  (asserts = true → tree "type" = some type.text) ∧
    b.InTree asserts check Uint256.decodeHex junk tree

theorem Block.deserializeJson_eq_ok_iff {type : BlockType} {b : Block} :
    Block.deserializeJson asserts check junk type tree = .ok b ↔
      b.type = type ∧ b.MemberReads asserts check junk type tree := by
  cases type with
  | send => exact wrap_eq_ok_iff type_eq_send_iff (fun a => SendBlock.deserializeJson_eq_ok_iff) b
  | receive =>
    exact wrap_eq_ok_iff type_eq_receive_iff (fun a => ReceiveBlock.deserializeJson_eq_ok_iff) b
  | opening =>
    exact wrap_eq_ok_iff type_eq_opening_iff (fun a => OpenBlock.deserializeJson_eq_ok_iff) b
  | change =>
    exact wrap_eq_ok_iff type_eq_change_iff (fun a => ChangeBlock.deserializeJson_eq_ok_iff) b
  | state =>
    exact wrap_eq_ok_iff type_eq_state_iff (fun a => StateBlock.deserializeJson_eq_ok_iff) b

theorem deserializeBlockJson_of_type {type : BlockType} (ht : tree "type" = some type.text)
    (b : Block) : deserializeBlockJson asserts check junk tree = .ok b ↔
      b.type = type ∧ b.InTree asserts check (addressOf asserts check) junk tree := by
  have hget : tree.get "type" = .ok type.text := get_eq_ok_iff.mpr ht
  rw [deserializeBlockJson, hget, ok_bind]
  cases type with
  | send => exact wrap_eq_ok_iff type_eq_send_iff (fun a => SendBlock.ofJson_eq_ok_iff) b
  | receive => exact wrap_eq_ok_iff type_eq_receive_iff (fun a => ReceiveBlock.ofJson_eq_ok_iff) b
  | opening => exact wrap_eq_ok_iff type_eq_opening_iff (fun a => OpenBlock.ofJson_eq_ok_iff) b
  | change => exact wrap_eq_ok_iff type_eq_change_iff (fun a => ChangeBlock.ofJson_eq_ok_iff) b
  | state =>
    have hstate : ∀ a, StateBlock.ofJson asserts check junk tree = .ok a ↔
        (Block.stateBlock a).InTree asserts check (addressOf asserts check) junk tree := fun a =>
      StateBlock.ofJson_eq_ok_iff.trans ⟨And.right, fun h => ⟨ht, h⟩⟩
    exact wrap_eq_ok_iff type_eq_state_iff hstate b

theorem exists_type_of_deserializeBlockJson {b : Block}
    (h : deserializeBlockJson asserts check junk tree = .ok b) :
    ∃ type : BlockType, tree "type" = some type.text := by
  obtain ⟨text, htext, h⟩ := ok_of_bind h
  rw [get_eq_ok_iff.mp htext]
  split_ifs at h with h₁ h₂ h₃ h₄ h₅
  · exact ⟨.receive, congrArg some h₁⟩
  · exact ⟨.send, congrArg some h₂⟩
  · exact ⟨.opening, congrArg some h₃⟩
  · exact ⟨.change, congrArg some h₄⟩
  · exact ⟨.state, congrArg some h₅⟩

theorem deserializeBlockJson_eq_ok_iff {b : Block} :
    deserializeBlockJson asserts check junk tree = .ok b ↔
      tree "type" = some b.type.text ∧
        b.InTree asserts check (addressOf asserts check) junk tree := by
  constructor
  · intro h
    obtain ⟨type, ht⟩ := exists_type_of_deserializeBlockJson h
    obtain ⟨rfl, hin⟩ := (deserializeBlockJson_of_type ht b).mp h
    exact ⟨ht, hin⟩
  · rintro ⟨ht, hin⟩
    exact (deserializeBlockJson_of_type ht b).mpr ⟨rfl, hin⟩

end Decoders

/-! ## Trees written by the encoder -/

section RoundTrip

variable (asserts : Bool) (check : Account → BitVec 40)

theorem addressOf_toAccount (account : Account) :
    addressOf asserts check (toAccount check account) = some account :=
  addressOf_eq_some_iff.mpr (decodeAccountIn_eq asserts
    (decodeAccount_address check (startsBdm_toAccount check account)
      (drop_toAccount check account)))

theorem not_startsBdm_encodeHex (x : Uint256) : startsBdm (Uint256.encodeHex x) = false := by
  by_contra hstart
  have hnone := decodeHex_of_startsBdm (Bool.not_eq_false _ ▸ hstart)
  simp [Uint256.decodeHex_encodeHex] at hnone

theorem linkOf_encodeHex (x : Uint256) : linkOf asserts check (Uint256.encodeHex x) = some x := by
  have hframed : ¬ Framed (Uint256.encodeHex x) := fun hf =>
    absurd hf.start (by simp [not_startsBdm_encodeHex x])
  rw [← decodeLink_eq_ok_iff, decodeLink,
    decodeAccountIn_eq asserts (decodeAccount_not_framed check hframed),
    Uint256.decodeHex_encodeHex]
  rfl

theorem type_serializeJson (b : Block) : b.serializeJson check "type" = some b.type.text := by
  cases b <;> rfl

theorem inTree_serializeJson (junk : Uint64) (b : Block) :
    b.InTree asserts check (addressOf asserts check) junk (b.serializeJson check) := by
  have h256 := Uint256.decodeHex_encodeHex
  have h512 := Uint512.decodeHex_encodeHex
  have hwork := fromStringHex_toStringHex junk
  have haddress := addressOf_toAccount asserts check
  cases b with
  | sendBlock b =>
    exact ⟨⟨_, rfl, h256 _⟩, ⟨_, rfl, haddress _⟩, ⟨_, rfl, Uint128.decodeHex_encodeHex _⟩,
      ⟨_, rfl, hwork _⟩, ⟨_, rfl, h512 _⟩⟩
  | receiveBlock b =>
    exact ⟨⟨_, rfl, h256 _⟩, ⟨_, rfl, h256 _⟩, ⟨_, rfl, hwork _⟩, ⟨_, rfl, h512 _⟩⟩
  | openBlock b =>
    exact ⟨⟨_, rfl, h256 _⟩, ⟨_, rfl, haddress _⟩, ⟨_, rfl, haddress _⟩, ⟨_, rfl, hwork _⟩,
      ⟨_, rfl, h512 _⟩⟩
  | changeBlock b =>
    exact ⟨⟨_, rfl, h256 _⟩, ⟨_, rfl, haddress _⟩, ⟨_, rfl, hwork _⟩, ⟨_, rfl, h512 _⟩⟩
  | stateBlock b =>
    exact ⟨⟨_, rfl, haddress _⟩, ⟨_, rfl, h256 _⟩, ⟨_, rfl, haddress _⟩,
      ⟨_, rfl, Uint128.decodeDec_toStringDec _⟩, ⟨_, rfl, linkOf_encodeHex asserts check _⟩,
      ⟨_, rfl, hwork _⟩, ⟨_, rfl, h512 _⟩⟩

end RoundTrip

/-! ## The two decoders -/

section Paths

variable {asserts : Bool} {check : Account → BitVec 40} {convert convert' : Text → Option Account}
variable {junk junk' : Uint64} {tree : JsonTree} {type : BlockType} {b b' : Block}

/-- The types whose account fields the two decoders read differently. -/
def BlockType.mixed (type : BlockType) : Prop := type = .opening ∨ type = .change

theorem Block.InTree.work (h : b.InTree asserts check convert junk tree) :
    HasField tree "work" (fromStringHex junk) b.blockWork := by
  cases b with
  | sendBlock b => exact SendBlock.InTree.work h
  | receiveBlock b => exact ReceiveBlock.InTree.work h
  | openBlock b => exact OpenBlock.InTree.work h
  | changeBlock b => exact ChangeBlock.InTree.work h
  | stateBlock b => exact StateBlock.InTree.work h

theorem Block.InTree.representative (h : b.InTree asserts check convert junk tree)
    (hb : b.type.mixed) : HasField tree "representative" convert b.representative := by
  cases b with
  | openBlock b => exact OpenBlock.InTree.representative h
  | changeBlock b => exact ChangeBlock.InTree.representative h
  | _ => simp [Block.type, BlockType.mixed] at hb

theorem Block.inTree_congr (hb : ¬ b.type.mixed) :
    b.InTree asserts check convert junk tree ↔ b.InTree asserts check convert' junk tree := by
  cases b with
  | openBlock b => exact absurd (.inl rfl) hb
  | changeBlock b => exact absurd (.inr rfl) hb
  | _ => exact Iff.rfl

theorem not_hexField_of_addressField {key : String} {v w : Account}
    (hv : HasField tree key (addressOf asserts check) v) :
    ¬ HasField tree key Uint256.decodeHex w := by
  rintro ⟨u, hu, hw⟩
  obtain ⟨t, ht, hv⟩ := hv
  cases ht.symm.trans hu
  simp [decodeHex_of_startsBdm (startsBdm_of_decodeAccountIn (addressOf_eq_some_iff.mp hv))] at hw

theorem not_both_inTree (htype : type.mixed) (hb : b.type = type) (hb' : b'.type = type)
    (h : b.InTree asserts check Uint256.decodeHex junk tree) :
    ¬ b'.InTree asserts check (addressOf asserts check) junk' tree := by
  subst hb
  intro h'
  exact not_hexField_of_addressField (h'.representative (hb'.symm ▸ htype)) (h.representative htype)

/-- The work text consists of blanks, so that reading it leaves a variable uninitialised. -/
def BlankWork (tree : JsonTree) : Prop :=
  ∃ text, tree "work" = some text ∧ text.dropWhile isSpace = []

theorem Block.InTree.blockWork_eq (h : b.InTree asserts check convert junk tree)
    (hblank : BlankWork tree) : b.blockWork = junk := by
  obtain ⟨text, ht, hblank⟩ := hblank
  obtain ⟨u, hu, hw⟩ := h.work
  cases ht.symm.trans hu
  rw [fromStringHex] at hw
  split_ifs at hw
  rw [extractWord, hblank] at hw
  exact (Option.some.inj hw).symm

theorem Block.InTree.of_junk (h : b.InTree asserts check convert junk tree)
    (hwork : ¬ BlankWork tree) (junk' : Uint64) : b.InTree asserts check convert junk' tree := by
  have hfield : HasField tree "work" (fromStringHex junk') b.blockWork := by
    obtain ⟨text, ht, hw⟩ := h.work
    have hfull : (text.dropWhile isSpace).isEmpty = false := by
      simpa using fun hblank => hwork ⟨text, ht, hblank⟩
    refine ⟨text, ht, ?_⟩
    rw [fromStringHex, extractWord, hfull] at hw ⊢
    exact hw
  cases b with
  | sendBlock b => exact { (h : b.InTree _ _ _ _) with work := hfield }
  | receiveBlock b => exact { (h : b.InTree _ _) with work := hfield }
  | openBlock b => exact { (h : b.InTree _ _ _) with work := hfield }
  | changeBlock b => exact { (h : b.InTree _ _ _) with work := hfield }
  | stateBlock b => exact { (h : b.InTree _ _ _ _) with work := hfield }

/-- The tree has every field of a block of the given type, with a text that is read. -/
def FieldsRead (asserts : Bool) (check : Account → BitVec 40) (convert : Text → Option Account)
    (type : BlockType) (tree : JsonTree) : Prop :=
  ∃ junk, ∃ b : Block, b.type = type ∧ b.InTree asserts check convert junk tree

/-- The member and `deserialize_block_json` accept the same blocks of the type, whatever
uninitialised variables hold. -/
def PathsAgree (asserts : Bool) (check : Account → BitVec 40) (type : BlockType)
    (tree : JsonTree) : Prop :=
  ∀ junk junk' b, Block.deserializeJson asserts check junk type tree = .ok b ↔
    deserializeBlockJson asserts check junk' tree = .ok b ∧ b.type = type

/-- For an open or change block, neither decoder finds all fields and the type it looks for.  For
the other ones, a tree with all fields names the type and has a work text that is not blank, or an
assertion stops the member. -/
def AgreedFields (asserts : Bool) (check : Account → BitVec 40) (type : BlockType)
    (tree : JsonTree) : Prop :=
  (type.mixed →
    (FieldsRead asserts check Uint256.decodeHex type tree →
      asserts = true ∧ tree "type" ≠ some type.text) ∧
    (FieldsRead asserts check (addressOf asserts check) type tree →
      tree "type" ≠ some type.text)) ∧
  (¬ type.mixed → FieldsRead asserts check Uint256.decodeHex type tree →
    if tree "type" = some type.text then ¬ BlankWork tree else asserts = true)

theorem agreedFields_of_pathsAgree (h : PathsAgree asserts check type tree) :
    AgreedFields asserts check type tree := by
  simp only [PathsAgree, Block.deserializeJson_eq_ok_iff, deserializeBlockJson_eq_ok_iff,
    Block.MemberReads] at h
  refine ⟨fun htype => ⟨?_, ?_⟩, ?_⟩
  · rintro ⟨junk, b, hb, hin⟩
    by_contra hcase
    have hnamed : asserts = true → tree "type" = some type.text := fun ha =>
      not_not.mp fun hne => hcase ⟨ha, hne⟩
    have hctor := (h junk 0 b).mp ⟨hb, hnamed, hin⟩
    exact not_both_inTree htype hb hb hin hctor.1.2
  · rintro ⟨junk, b, hb, hin⟩ hnamed
    have hmember := (h 0 junk b).mpr ⟨⟨hb.symm ▸ hnamed, hin⟩, hb⟩
    exact not_both_inTree htype hb hb hmember.2.2 hin
  · rintro htype ⟨junk, b, hb, hin⟩
    split_ifs with hnamed
    · -- the constructor could be called with another value in the variable
      intro hblank
      have hctor := (h junk (junk + 1) b).mp ⟨hb, fun _ => hnamed, hin⟩
      have hother := hctor.1.2.blockWork_eq hblank
      rw [hin.blockWork_eq hblank] at hother
      simp at hother
    · by_contra hasserts
      have hctor := (h junk 0 b).mp ⟨hb, fun ha => absurd ha hasserts, hin⟩
      exact hnamed (hb ▸ hctor.1.1)

theorem pathsAgree_of_agreedFields (h : AgreedFields asserts check type tree) :
    PathsAgree asserts check type tree := by
  intro junk junk' b
  rw [Block.deserializeJson_eq_ok_iff, deserializeBlockJson_eq_ok_iff, Block.MemberReads]
  by_cases htype : type.mixed
  · obtain ⟨hhex, haddress⟩ := h.1 htype
    constructor
    · rintro ⟨hb, hnamed, hin⟩
      obtain ⟨hasserts, hne⟩ := hhex ⟨junk, b, hb, hin⟩
      exact absurd (hnamed hasserts) hne
    · rintro ⟨⟨hnamed, hin⟩, hb⟩
      exact absurd (hb ▸ hnamed) (haddress ⟨junk', b, hb, hin⟩)
  · constructor
    · rintro ⟨rfl, hnamed, hin⟩
      have hcase := h.2 htype ⟨junk, b, rfl, hin⟩
      split_ifs at hcase with hname
      · exact ⟨⟨hname, (Block.inTree_congr htype).mp (hin.of_junk hcase junk')⟩, rfl⟩
      · exact absurd (hnamed hcase) hname
    · rintro ⟨⟨hname, hin⟩, rfl⟩
      have hin' : b.InTree asserts check Uint256.decodeHex junk' tree :=
        (Block.inTree_congr htype).mp hin
      have hcase := h.2 htype ⟨junk', b, rfl, hin'⟩
      rw [if_pos hname] at hcase
      exact ⟨rfl, fun _ => hname, hin'.of_junk hcase junk⟩

theorem member_roundTrip_iff (junk : Uint64) (b : Block) :
    Block.deserializeJson asserts check junk b.type (b.serializeJson check) = .ok b ↔
      ¬ b.type.mixed := by
  rw [Block.deserializeJson_eq_ok_iff]
  have hin := inTree_serializeJson asserts check junk b
  constructor
  · rintro ⟨-, -, hhex⟩ htype
    exact not_both_inTree htype rfl rfl hhex hin
  · intro htype
    exact ⟨rfl, fun _ => type_serializeJson check b, (Block.inTree_congr htype).mp hin⟩

end Paths

/-- `deserialize_block_json` restores every block, the member all but open and change blocks, and
the two agree on exactly the trees with agreed fields. -/
theorem block_json_roundtrip_iff (asserts : Bool) (check : Account → BitVec 40) :
    (∀ b : Block,
      (∀ junk, deserializeBlockJson asserts check junk (b.serializeJson check) = .ok b) ∧
      ((∀ junk, Block.deserializeJson asserts check junk b.type (b.serializeJson check) = .ok b) ↔
        ¬ b.type.mixed)) ∧
      ∀ type tree, PathsAgree asserts check type tree ↔ AgreedFields asserts check type tree := by
  refine ⟨fun b => ⟨fun junk => ?_, ?_⟩,
    fun type tree => ⟨agreedFields_of_pathsAgree, pathsAgree_of_agreedFields⟩⟩
  · exact deserializeBlockJson_eq_ok_iff.mpr
      ⟨type_serializeJson check b, inTree_serializeJson asserts check junk b⟩
  · constructor
    · intro h
      exact (member_roundTrip_iff 0 b).mp (h 0)
    · intro h junk
      exact (member_roundTrip_iff junk b).mpr h

/-- The members of open and change blocks refuse their own texts, and without assertions the member
of a send block accepts a tree of another type. -/
theorem open_json_refused :
    (∀ asserts junk b, Block.deserializeJson asserts (fun _ => 0) junk .opening
      ((Block.openBlock ⟨⟨1, 2, 3⟩, 4, 5⟩).serializeJson (fun _ => 0)) ≠ .ok b) ∧
    (∀ asserts junk b, Block.deserializeJson asserts (fun _ => 0) junk .change
      ((Block.changeBlock ⟨⟨1, 2⟩, 4, 5⟩).serializeJson (fun _ => 0)) ≠ .ok b) ∧
    (∀ junk, Block.deserializeJson false (fun _ => 0) junk .send
      (((Block.sendBlock ⟨⟨1, 2, 3⟩, 4, 5⟩).serializeJson (fun _ => 0)).put "type" (ascii "foo")) =
        .ok (.sendBlock ⟨⟨1, 2, 3⟩, 4, 5⟩)) ∧
    ∀ junk b, deserializeBlockJson false (fun _ => 0) junk
      (((Block.sendBlock ⟨⟨1, 2, 3⟩, 4, 5⟩).serializeJson (fun _ => 0)).put "type" (ascii "foo")) ≠
        .ok b := by
  refine ⟨fun asserts junk b h => ?_, fun asserts junk b h => ?_, fun junk => ?_,
    fun junk b h => ?_⟩
  · obtain ⟨hb, -, hhex⟩ := Block.deserializeJson_eq_ok_iff.mp h
    exact not_both_inTree (.inl rfl) hb rfl hhex
      (inTree_serializeJson asserts _ junk (.openBlock ⟨⟨1, 2, 3⟩, 4, 5⟩))
  · obtain ⟨hb, -, hhex⟩ := Block.deserializeJson_eq_ok_iff.mp h
    exact not_both_inTree (.inr rfl) hb rfl hhex
      (inTree_serializeJson asserts _ junk (.changeBlock ⟨⟨1, 2⟩, 4, 5⟩))
  · rw [Block.deserializeJson_eq_ok_iff]
    exact ⟨rfl, fun ha => absurd ha (by simp), ⟨_, rfl, Uint256.decodeHex_encodeHex _⟩,
      ⟨_, rfl, addressOf_toAccount false _ _⟩, ⟨_, rfl, Uint128.decodeHex_encodeHex _⟩,
      ⟨_, rfl, fromStringHex_toStringHex junk _⟩, ⟨_, rfl, Uint512.decodeHex_encodeHex _⟩⟩
  · obtain ⟨type, htype⟩ := exists_type_of_deserializeBlockJson h
    cases type <;> exact absurd htype (by decide)

end Badem
