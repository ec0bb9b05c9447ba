import Badem.Wallet.SendIds

/-!
# Repeated requests to send

The RPC handler compares the balance with the amount before it comes to the wallet, so a
repeated request may be refused because of the very block that it asks for.
-/

namespace Badem

open Mdb WalletStore RpcHandler

/-- What can happen between two requests: a step of the ledger, or a call of `send_action` by
any wallet. -/
inductive SendStep (env : WalletEnv) (U : Set Block) :
    BlockStore × Wallet.SendActionIds → BlockStore × Wallet.SendActionIds → Prop
  | process {now : Nat} {s s' : BlockStore} {ids : Wallet.SendActionIds} {b : Block}
      {r : ProcessReturn} :
      b ∈ U → Ledger.process env.toEnv now s b = .ok (r, s') → SendStep env U (s, ids) (s', ids)
  | rollback {now : Nat} {s s' : BlockStore} {ids : Wallet.SendActionIds} {hash : BlockHash} :
      s.blockExists hash = true → hash ≠ env.genesisHash →
      Ledger.rollback env.toEnv now s hash = .ok s' → SendStep env U (s, ids) (s', ids)
  | call {s : BlockStore} {ids ids' : Wallet.SendActionIds} {w : WalletStore}
      {source account : Account} {amount : Uint128} {id : Option String}
      {result : Wallet.SendResult} :
      Wallet.sendAction env w s ids source account amount id = .ok (result, ids') →
      SendStep env U (s, ids) (s, ids')

/-- Steps during which a block stays stored. -/
inductive KeptRun (env : WalletEnv) (U : Set Block) (hash : BlockHash) :
    BlockStore × Wallet.SendActionIds → BlockStore × Wallet.SendActionIds → Prop
  | refl {x : BlockStore × Wallet.SendActionIds} : KeptRun env U hash x x
  | step {x y z : BlockStore × Wallet.SendActionIds} :
      KeptRun env U hash x y → SendStep env U y z → z.1.blockExists hash = true →
      KeptRun env U hash x z

/-- The ledger has the block that is recorded for an id. -/
structure Recorded (env : WalletEnv) (U : Set Block) (id : String) (hash : BlockHash)
    (x : BlockStore × Wallet.SendActionIds) : Prop where
  reachable : Reachable env.toEnv U x.1
  stored : x.1.blockExists hash = true
  recorded : x.2 id = some hash

section Runs

variable {env : WalletEnv} {U : Set Block} {id : String} {hash : BlockHash}
variable {x y : BlockStore × Wallet.SendActionIds}

theorem sendAction_ids_ne {w : WalletStore} {s : BlockStore} {ids ids' : Wallet.SendActionIds}
    {source account : Account} {amount : Uint128} {id' : Option String}
    {result : Wallet.SendResult} (hne : id' ≠ some id)
    (h : Wallet.sendAction env w s ids source account amount id' = .ok (result, ids')) :
    ids' id = ids id := by
  cases id' with
  | none =>
    rw [Wallet.sendAction, if_neg (by simp)] at h
    obtain ⟨built, -, h⟩ := ok_of_bind h
    obtain ⟨-, rfl⟩ := Prod.mk.inj (Except.ok.inj h)
    cases built <;> rfl
  | some id' =>
    rcases sendAction_cases h with ⟨-, rfl⟩ | ⟨_, _, -, -, -, rfl⟩ | ⟨b, -, -, -, rfl⟩
    · rfl
    · rfl
    · exact Function.update_of_ne (fun heq => hne (congrArg some heq.symm)) _ _

variable (H : CollisionFree env.toEnv U) (M : MarkerFree env.toEnv U)
variable (hfails : env.getFails id = false)

include H M hfails

theorem Recorded.step (h : Recorded env U id hash x) (hstep : SendStep env U x y)
    (hstored : y.1.blockExists hash = true) : Recorded env U id hash y := by
  cases hstep with
  | process hb hprocess => exact ⟨h.reachable.process hb hprocess, hstored, h.recorded⟩
  | rollback hexists hne hrollback =>
    exact ⟨h.reachable.rollback hexists hne hrollback, hstored, h.recorded⟩
  | @call s ids ids' w source account amount id' result hcall =>
    refine ⟨h.reachable, hstored, ?_⟩
    by_cases hid : id' = some id
    · obtain ⟨block, hget, -⟩ := h.reachable.exists_blockGet H M h.stored
      have hcached := sendAction_of_recorded hfails h.recorded hget w source account amount
      rw [hid, hcached] at hcall
      cases hcall
      exact h.recorded
    · exact (sendAction_ids_ne hid hcall).trans h.recorded

theorem Recorded.run (h : Recorded env U id hash x) (hrun : KeptRun env U hash x y) :
    Recorded env U id hash y := by
  induction hrun with
  | refl => exact h
  | step _ hstep hstored ih => exact ih.step H M hfails hstep hstored

end Runs

/-! ## Requests -/

section Requests

variable {env : WalletEnv} {s s' : BlockStore} {wallets : Uint256 → Option WalletStore}
variable {r : RpcHandler.SendRequest} {ids ids' : Wallet.SendActionIds} {w later : WalletStore}
  {call : RpcHandler.SendCall} {enableControl : Bool}

/-- The fields of a request without a work value that come to the wallet. -/
structure SendDecoded (r : RpcHandler.SendRequest) (wallet : Uint256) (call : RpcHandler.SendCall) :
    Prop where
  wallet : r.wallet = some wallet
  source : r.source = some call.source
  account : r.destination = some call.account
  amount : r.amount = some call.amount
  work : r.work = none
  id : r.id = call.id

def Affords (s : BlockStore) (call : RpcHandler.SendCall) : Prop :=
  ∃ info, s.accountGet call.source = some info ∧ call.amount ≤ info.balance

theorem checkSend_of_affords (h : Affords s call) :
    checkSend env s w call 0 = .ok (.ok (w, call)) := by
  obtain ⟨info, hinfo, hle⟩ := h
  rw [checkSend, hinfo]
  simp only [applyWork, if_true, ok_bind, if_pos hle]
  rfl

theorem checkSend_insufficient {info : AccountInfo}
    (hinfo : s.accountGet call.source = some info) (hlt : ¬ call.amount ≤ info.balance) :
    checkSend env s w call 0 = .ok (.error "Insufficient balance") := by
  rw [checkSend, hinfo]
  simp only [applyWork, if_true, ok_bind, if_neg hlt]
  rfl

theorem checkSend_of_not_affords (h : ¬ Affords s call) :
    ∃ text, checkSend env s w call 0 = .ok (.error text) := by
  cases hinfo : s.accountGet call.source with
  | none => exact ⟨"Account not found", by rw [checkSend, hinfo]⟩
  | some info => exact ⟨_, checkSend_insufficient hinfo fun hle => h ⟨info, hinfo, hle⟩⟩

theorem call_of_checkSend {call' : RpcHandler.SendCall} {existing : WalletStore}
    (h : checkSend env s existing call 0 = .ok (.ok (w, call'))) : call = call' := by
  by_cases hafford : Affords s call
  · grind [checkSend_of_affords hafford]
  · obtain ⟨text, herror⟩ := @checkSend_of_not_affords env s existing call hafford
    exact absurd (Except.ok.inj (herror.symm.trans h)) (by simp)

theorem exists_decoded (hwork : r.work = none)
    (h : send env s enableControl wallets r = .ok (.ok (w, call))) :
    ∃ wallet, SendDecoded r wallet call := by
  obtain ⟨walletField, source, destination, amount, work, id⟩ := r
  obtain rfl : work = none := hwork
  rw [send] at h
  split_ifs at h
  · exact absurd (Except.ok.inj h) (by simp)
  cases walletField with
  | none => exact absurd (Except.ok.inj h) (by simp)
  | some wallet =>
    simp only at h
    cases hopen : wallets wallet with
    | none => simp [hopen] at h
    | some existing =>
      rw [hopen] at h
      cases source with
      | none => exact absurd (Except.ok.inj h) (by simp)
      | some source =>
        cases destination with
        | none => exact absurd (Except.ok.inj h) (by simp)
        | some destination =>
          cases amount with
          | none => exact absurd (Except.ok.inj h) (by simp)
          | some amount =>
            obtain rfl := call_of_checkSend h
            exact ⟨wallet, rfl, rfl, rfl, rfl, rfl, rfl⟩

theorem send_of_decoded {wallet : Uint256}
    (h : SendDecoded r wallet call) (hopen : wallets wallet = some w) :
    send env s true wallets r = checkSend env s w call 0 := by
  obtain ⟨walletField, source, destination, amount, work, id⟩ := r
  obtain ⟨rfl, rfl, rfl, rfl, rfl, rfl⟩ := h
  simp only [send, hopen, Bool.true_eq_false, if_false]

theorem recorded_of_answer {U : Set Block} (H : CollisionFree env.toEnv U)
    (M : MarkerFree env.toEnv U) (hs' : Reachable env.toEnv U s') {id : String}
    (hid : r.id = some id) (hwork : r.work = none) {hash : BlockHash}
    (h : answerSend env s enableControl wallets r later s' ids = .ok (.ok hash, ids')) :
    env.getFails id = false ∧ ids' id = some hash ∧ ∃ wallet call, SendDecoded r wallet call := by
  obtain ⟨accepted, haccepted, h⟩ := ok_of_bind h
  cases accepted with
  | error text => exact absurd (Except.ok.inj h) (by simp)
  | ok x =>
    obtain ⟨w, call⟩ := x
    obtain ⟨wallet, hdecoded⟩ := exists_decoded hwork haccepted
    obtain ⟨⟨result, ids₁⟩, hcall, h⟩ := ok_of_bind h
    obtain ⟨hresponse, rfl⟩ := Prod.mk.inj (Except.ok.inj h)
    rw [← hdecoded.id, hid] at hcall
    rcases sendAction_cases hcall with ⟨rfl, -⟩ | ⟨hash', block, hids, hget, rfl, rfl⟩ |
      ⟨b, rfl, -, hfails, rfl⟩
    · exact absurd hresponse (by simp [sendResponse])
    · have hhash := (hs'.blockGet_hash H M hget).1
      refine ⟨getFails_of_cached hcall, ?_, wallet, call, hdecoded⟩
      rw [hids, ← hhash, Except.ok.inj hresponse]
    · refine ⟨hfails, ?_, wallet, call, hdecoded⟩
      rw [Function.update_self, Except.ok.inj hresponse]

end Requests

/-- A request is answered with the same block again exactly when the account can pay once more. -/
theorem send_retry_iff {env : WalletEnv} {U : Set Block} (H : CollisionFree env.toEnv U)
    (M : MarkerFree env.toEnv U) {r : RpcHandler.SendRequest} {id : String} {hash : BlockHash}
    (hid : r.id = some id) (hwork : r.work = none)
    {enableControl : Bool} {wallets₀ : Uint256 → Option WalletStore} {later₀ : WalletStore}
    {s₀ s₀' : BlockStore} {ids₀ ids₁ : Wallet.SendActionIds} (hs₀' : Reachable env.toEnv U s₀')
    (hfirst : RpcHandler.answerSend env s₀ enableControl wallets₀ r later₀ s₀' ids₀ =
      .ok (.ok hash, ids₁))
    {s₁ s₂ s₃ : BlockStore} {ids₂ ids₃ : Wallet.SendActionIds} (hs₁ : Reachable env.toEnv U s₁)
    (hstored : s₁.blockExists hash = true)
    (hrun : KeptRun env U hash (s₁, ids₁) (s₂, ids₂))
    (hqueued : KeptRun env U hash (s₂, ids₂) (s₃, ids₃))
    {wallets : Uint256 → Option WalletStore} {wallet : Uint256} {w : WalletStore}
    (hwallet : r.wallet = some wallet) (hopen : wallets wallet = some w) (later : WalletStore) :
    ∃ call, SendDecoded r wallet call ∧
      (RpcHandler.answerSend env s₂ true wallets r later s₃ ids₃ = .ok (.ok hash, ids₃) ↔
        Affords s₂ call) := by
  obtain ⟨hfails, hids, wallet', call, hdecoded⟩ :=
    recorded_of_answer H M hs₀' hid hwork hfirst
  obtain rfl : wallet' = wallet := Option.some.inj (hdecoded.wallet.symm.trans hwallet)
  have h₁ : Recorded env U id hash (s₁, ids₁) := ⟨hs₁, hstored, hids⟩
  have h₃ := (h₁.run H M hfails hrun).run H M hfails hqueued
  obtain ⟨block, hget, hhash⟩ := h₃.reachable.exists_blockGet H M h₃.stored
  have hcall := sendAction_of_recorded hfails h₃.recorded hget later call.source call.account
    call.amount
  refine ⟨call, hdecoded, ?_⟩
  rw [RpcHandler.answerSend, send_of_decoded hdecoded hopen]
  by_cases hafford : Affords s₂ call
  · refine iff_of_true ?_ hafford
    rw [← hid, hdecoded.id] at hcall
    refine bind_eq_of_ok (checkSend_of_affords hafford) (bind_eq_of_ok hcall ?_)
    rw [← hhash]
    rfl
  · obtain ⟨text, herror⟩ := @checkSend_of_not_affords env s₂ w call hafford
    rw [herror]
    exact iff_of_false (fun h => absurd (Except.ok.inj h) (by simp)) hafford

/-! ## Two requests -/

def genesisRequest (amount : Amount) : RpcHandler.SendRequest where
  wallet := some 0
  source := some mixedEnv.genesisAccount
  destination := some 77
  amount := some amount
  work := none
  id := some "id"

def requestRun (amount : Amount) (b : StateBlock) :
    Except Fault (BlockStore × WalletStore × Wallet.SendActionIds × BlockStore) := do
  let g ← genesisInitialize mixedEnv 0 .empty
  let w ← create sampleCrypto sampleDraws 99 .empty
  let (_, w) ← w.insertAdhoc sampleCrypto mixedEnv.genesisAccount
  let (response, ids) ← RpcHandler.answerSend mixedWallets g true (fun _ => some w)
    (genesisRequest amount) w g (fun _ => none)
  require (returns response (fun hash =>
    decide (hash = (Block.stateBlock b).hash mixedEnv)) = true)
  let (_, s) ← Ledger.process mixedEnv 0 g (.stateBlock b)
  pure (g, w, ids, s)

theorem requestRun_spec {amount : Amount} {b : StateBlock} {g s : BlockStore} {w : WalletStore}
    {ids : Wallet.SendActionIds} (h : requestRun amount b = .ok (g, w, ids, s)) :
    genesisInitialize mixedEnv 0 .empty = .ok g ∧
      answerSend mixedWallets g true (fun _ => some w) (genesisRequest amount) w g
        (fun _ => none) = .ok (.ok ((Block.stateBlock b).hash mixedEnv), ids) ∧
      ∃ result, Ledger.process mixedEnv 0 g (.stateBlock b) = .ok (result, s) := by
  obtain ⟨g', hg, h⟩ := ok_of_bind h
  obtain ⟨w₀, -, h⟩ := ok_of_bind h
  obtain ⟨⟨pub, w₁⟩, -, h⟩ := ok_of_bind h
  obtain ⟨⟨response, ids'⟩, hanswer, h⟩ := ok_of_bind h
  obtain ⟨_, hresponse, h⟩ := ok_of_bind h
  obtain ⟨⟨result, s'⟩, hprocess, h⟩ := ok_of_bind h
  obtain ⟨rfl, hrest⟩ := Prod.mk.inj (Except.ok.inj h)
  obtain ⟨rfl, hlast⟩ := Prod.mk.inj hrest
  obtain ⟨rfl, rfl⟩ := Prod.mk.inj hlast
  obtain ⟨hash, rfl, hhash⟩ := exists_of_returns (of_require_eq_ok hresponse)
  rw [← of_decide_eq_true hhash]
  exact ⟨hg, hanswer, result, hprocess⟩

theorem send_retry_of_ten :
    ∃ g w ids s, requestRun 10 lostSend = .ok (g, w, ids, s) ∧
      RpcHandler.answerSend mixedWallets s true (fun _ => some w) (genesisRequest 10) w s ids =
        .ok (.ok ((Block.stateBlock lostSend).hash mixedEnv), ids) := by
  obtain ⟨⟨g, w, ids, s⟩, hrun, hstored, info, hinfo, hle⟩ : ∃ x, requestRun 10 lostSend = .ok x ∧
      x.2.2.2.blockExists ((Block.stateBlock lostSend).hash mixedEnv) = true ∧
      ∃ info ∈ x.2.2.2.accountGet mixedEnv.genesisAccount, 10 ≤ info.balance := by
    decide +kernel
  obtain ⟨hg, hanswer, result, hprocess⟩ := requestRun_spec hrun
  have hg' : Reachable mixedWallets.toEnv sendsSet g := .genesis hg
  let items : Uint256 → Option WalletStore := fun _ => some w
  have hopen : items 0 = some w := rfl
  obtain ⟨call, hdecoded, hiff⟩ := send_retry_iff sends_collisionFree
    (markerFree_blockSet sends_evaluated.2.1) rfl rfl hg' hanswer
    (hg'.process (.tail _ (.head _)) hprocess) hstored .refl .refl
    (show (genesisRequest 10).wallet = some 0 from rfl)
    hopen w
  refine ⟨g, w, ids, s, hrun, hiff.mpr ⟨info, ?_, ?_⟩⟩
  · rw [← Option.some.inj hdecoded.source]
    exact hinfo
  · rw [← Option.some.inj hdecoded.amount]
    exact hle

def almostAll : StateBlock := sendOn mixedEnv.genesisHash 10

/-- A request for all but ten is answered with a block, and the same request is refused
although the ledger has the block. -/
theorem send_retry_refused :
    ∃ g w ids s, requestRun (genesisAmount - 10) almostAll = .ok (g, w, ids, s) ∧
      RpcHandler.answerSend mixedWallets g true (fun _ => some w)
        (genesisRequest (genesisAmount - 10)) w g (fun _ => none) =
          .ok (.ok ((Block.stateBlock almostAll).hash mixedEnv), ids) ∧
      s.blockExists ((Block.stateBlock almostAll).hash mixedEnv) = true ∧
      RpcHandler.answerSend mixedWallets s true (fun _ => some w)
        (genesisRequest (genesisAmount - 10)) w s ids =
          .ok (.error "Insufficient balance", ids) := by
  obtain ⟨⟨g, w, ids, s⟩, hrun, hstored, info, hinfo, hlt⟩ :
      ∃ x, requestRun (genesisAmount - 10) almostAll = .ok x ∧
        x.2.2.2.blockExists ((Block.stateBlock almostAll).hash mixedEnv) = true ∧
        ∃ info ∈ x.2.2.2.accountGet mixedEnv.genesisAccount, info.balance < genesisAmount - 10 := by
    decide +kernel
  obtain ⟨-, hanswer, -⟩ := requestRun_spec hrun
  refine ⟨g, w, ids, s, hrun, hanswer, hstored, ?_⟩
  have hrefused : RpcHandler.checkSend mixedWallets s w
      ⟨mixedEnv.genesisAccount, 77, genesisAmount - 10, some "id"⟩ 0 =
        .ok (.error "Insufficient balance") :=
    checkSend_insufficient hinfo (not_le.mpr hlt)
  exact bind_eq_of_ok hrefused rfl

end Badem
