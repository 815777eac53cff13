import NarwhalGeth.Lib.Erc721
import NarwhalGeth.Lib.Fallible
import NarwhalGeth.Lib.Machine

/-!
# The art token and its marketplace

The contracts of `ArtToken.sol` and `ArtMarketplace.sol` on one chain. An account that is handed a
token runs `onERC721Received` before the call goes on, and can make any calls there. So a call that
waits stays on a stack of frames, with the world before it, which is restored if the call fails.
-/

namespace Dapp

/-- `ArtToken.Item`. -/
structure Item (A : Type) where
  id : ℕ
  creator : A
  uri : String

structure ItemForSale (A : Type) where
  id : ℕ
  tokenId : ℕ
  seller : A
  price : ℕ
  isSold : Bool
deriving DecidableEq

inductive Event (A : Type) where
  | itemAddedForSale (id tokenId price : ℕ)
  | itemSold (id : ℕ) (buyer : A) (price : ℕ)
deriving DecidableEq

/-- The calls of accounts. `buyItem` comes with the `msg.value`. -/
inductive Call (A : Type) where
  | mint (uri : String)
  | setMarketplace (market : A)
  | transferFrom (source target : A) (tokenId : ℕ)
  | safeTransferFrom (source target : A) (tokenId : ℕ)
  | approve (target : A) (tokenId : ℕ)
  | setApprovalForAll (operator : A) (approved : Bool)
  | putItemForSale (tokenId price : ℕ)
  | buyItem (id value : ℕ)
deriving DecidableEq

/-- The storage of both contracts, the balances, the events, and the calls that succeeded with their
senders. -/
structure World (T A : Type) where
  token : T
  tokenIds : ℕ
  marketplace : A
  items : ℕ → Item A
  itemsForSale : List (ItemForSale A)
  activeItems : ℕ → Bool
  balance : A → ℕ
  events : List (Event A)
  calls : List (A × Call A)

/-- The call reverts with the message unless the condition holds. -/
def require (condition : Prop) [Decidable condition] (message : String) : Except String Unit :=
  if condition then .ok () else .error message

theorem require_bind_eq_ok {β : Type} {condition : Prop} [Decidable condition] {message : String}
    {k : Unit → Except String β} {b : β} :
    (require condition message >>= k) = .ok b ↔ condition ∧ k () = .ok b := by
  by_cases h : condition
  · rw [require, if_pos h]
    exact ⟨fun hk => ⟨h, hk⟩, And.right⟩
  · rw [require, if_neg h]
    constructor
    · intro hk
      cases hk
    · intro hk
      exact absurd hk.1 h

/-- The balances after a payment. -/
def pay {A : Type} [DecidableEq A] (balance : A → ℕ) (source target : A) (value : ℕ) : A → ℕ :=
  let balance := Function.update balance source (balance source - value)
  Function.update balance target (balance target + value)

section Contracts

variable {T A : Type} [Zero A] [DecidableEq A] (erc721 : Erc721 T A) (market : A) {w w' : World T A}
  {sender : A} {id : ℕ}

namespace World

/-- Both contracts are deployed. -/
def deployed (balance : A → ℕ) : World T A where
  token := erc721.deployed
  tokenIds := 0
  marketplace := 0
  items _ := ⟨0, 0, ""⟩
  itemsForSale := []
  activeItems _ := false
  balance := balance
  events := []
  calls := []

end World

/-! ## `ArtToken` -/

namespace ArtToken

/-- `mint` up to `_safeMint`, which lets the sender answer. -/
def mint (w : World T A) (sender : A) : Except String (ℕ × World T A) := do
  let newItemId := w.tokenIds + 1
  let token ← erc721.mint w.token sender newItemId
  .ok (newItemId, { w with token, tokenIds := newItemId })

/-- `mint` after `_safeMint`. -/
def minted (w : World T A) (sender : A) (newItemId : ℕ) (uri : String) :
    Except String (World T A) := do
  let token ← erc721.approve w.token sender w.marketplace newItemId
  .ok { w with token, items := Function.update w.items newItemId ⟨newItemId, sender, uri⟩ }

def setMarketplace (w : World T A) (market : A) : World T A := { w with marketplace := market }

end ArtToken

/-! ## `ArtMarketplace` -/

namespace ArtMarketplace

def putItemForSale (w : World T A) (sender : A) (tokenId price : ℕ) :
    Except String (ℕ × World T A) := do
  -- OnlyItemOwner
  let owner ← erc721.ownerOf w.token tokenId
  require (owner = sender) "Sender does not own the item"
  -- HasTransferApproval
  let approved ← erc721.getApproved w.token tokenId
  require (approved = market) "Market is not approved"
  require (w.activeItems tokenId = false) "Item is already up for sale"
  let newItemId := w.itemsForSale.length
  let itemsForSale := w.itemsForSale ++ [⟨newItemId, tokenId, sender, price, false⟩]
  require (itemsForSale[newItemId]?.map ItemForSale.id = some newItemId) "Panic(0x01)"
  .ok (newItemId, { w with
    itemsForSale
    activeItems := Function.update w.activeItems tokenId true
    events := w.events ++ [.itemAddedForSale newItemId tokenId price] })

/-- `buyItem` up to `safeTransferFrom`, which lets the sender answer. The value comes with the
call. -/
def buyItem (w : World T A) (sender : A) (id value : ℕ) : Except String (World T A) := do
  require (value ≤ w.balance sender) "insufficient funds for transfer"
  let w := { w with balance := pay w.balance sender market value }
  match w.itemsForSale[id]? with
  | none => .error "Could not find item"
  | some item =>
    require (item.id = id) "Could not find item"
    require (item.isSold = false) "Item is already sold"
    let approved ← erc721.getApproved w.token item.tokenId
    require (approved = market) "Market is not approved"
    require (item.price ≤ value) "Not enough funds sent"
    require (sender ≠ item.seller) ""
    let w := { w with
      itemsForSale := w.itemsForSale.set id { item with isSold := true }
      activeItems := Function.update w.activeItems item.tokenId false }
    let token ← erc721.transferFrom w.token market item.seller sender item.tokenId
    .ok { w with token }

/-- `buyItem` after `safeTransferFrom`. The seller accepts the payment or not. -/
def bought (w : World T A) (sender : A) (id value : ℕ) (accepts : Bool) :
    Except String (World T A) :=
  match w.itemsForSale[id]? with
  | none => .error "Panic(0x32)"
  | some item => do
    require (value ≤ w.balance market) ""
    require (accepts = true) ""
    .ok { w with
      balance := pay w.balance market item.seller value
      events := w.events ++ [.itemSold id sender item.price] }

variable {erc721 market}

theorem putItemForSale_eq_ok {tokenId price : ℕ} :
    putItemForSale erc721 market w sender tokenId price = .ok (id, w') ↔
      erc721.ownerOf w.token tokenId = .ok sender ∧
        erc721.getApproved w.token tokenId = .ok market ∧ w.activeItems tokenId = false ∧
        id = w.itemsForSale.length ∧ w' = { w with
          itemsForSale := w.itemsForSale ++
            [⟨w.itemsForSale.length, tokenId, sender, price, false⟩]
          activeItems := Function.update w.activeItems tokenId true
          events := w.events ++
            [.itemAddedForSale w.itemsForSale.length tokenId price] } := by
  constructor
  · intro h
    obtain ⟨owner, howner, h⟩ := Except.eq_ok_of_bind h
    obtain ⟨hsender, h⟩ := require_bind_eq_ok.mp h
    obtain ⟨approved, happroved, h⟩ := Except.eq_ok_of_bind h
    obtain ⟨hmarket, h⟩ := require_bind_eq_ok.mp h
    obtain ⟨hactive, h⟩ := require_bind_eq_ok.mp h
    obtain ⟨-, h⟩ := require_bind_eq_ok.mp h
    cases h
    exact ⟨hsender ▸ howner, hmarket ▸ happroved, hactive, rfl, rfl⟩
  · rintro ⟨howner, happroved, hactive, rfl, rfl⟩
    simp only [putItemForSale, howner, happroved]
    refine require_bind_eq_ok.mpr ⟨rfl, require_bind_eq_ok.mpr ⟨rfl,
      require_bind_eq_ok.mpr ⟨hactive, require_bind_eq_ok.mpr ⟨?_, rfl⟩⟩⟩⟩
    rw [List.getElem?_concat_length]
    rfl

theorem buyItem_ok {value : ℕ} (h : buyItem erc721 market w sender id value = .ok w') :
    value ≤ w.balance sender ∧ ∃ item token, w.itemsForSale[id]? = some item ∧
      item.isSold = false ∧ item.price ≤ value ∧ sender ≠ item.seller ∧
      erc721.transferFrom w.token market item.seller sender item.tokenId = .ok token ∧
      w' = { w with
        token
        itemsForSale := w.itemsForSale.set id { item with isSold := true }
        activeItems := Function.update w.activeItems item.tokenId false
        balance := pay w.balance sender market value } := by
  obtain ⟨hvalue, h⟩ := require_bind_eq_ok.mp h
  refine ⟨hvalue, ?_⟩
  dsimp only at h
  split at h
  · cases h
  next item hitem =>
    obtain ⟨-, h⟩ := require_bind_eq_ok.mp h
    obtain ⟨hsold, h⟩ := require_bind_eq_ok.mp h
    obtain ⟨approved, -, h⟩ := Except.eq_ok_of_bind h
    obtain ⟨-, h⟩ := require_bind_eq_ok.mp h
    obtain ⟨hprice, h⟩ := require_bind_eq_ok.mp h
    obtain ⟨hseller, h⟩ := require_bind_eq_ok.mp h
    obtain ⟨token, htoken, h⟩ := Except.eq_ok_of_bind h
    cases h
    exact ⟨item, token, hitem, hsold, hprice, hseller, htoken, rfl⟩

omit [Zero A] in
theorem bought_ok {value : ℕ} {accepts : Bool}
    (h : bought market w sender id value accepts = .ok w') :
    ∃ item, w.itemsForSale[id]? = some item ∧ value ≤ w.balance market ∧
      w' = { w with
        balance := pay w.balance market item.seller value
        events := w.events ++ [.itemSold id sender item.price] } := by
  unfold bought at h
  split at h
  · cases h
  next item hitem =>
    obtain ⟨hvalue, h⟩ := require_bind_eq_ok.mp h
    obtain ⟨-, h⟩ := require_bind_eq_ok.mp h
    cases h
    exact ⟨item, hitem, hvalue, rfl⟩

end ArtMarketplace

/-! ## The chain -/

/-- A call that waits for `onERC721Received`. -/
inductive Frame (A : Type) where
  | mint (sender : A) (newItemId : ℕ) (uri : String)
  | safeTransferFrom (sender source target : A) (tokenId : ℕ)
  | buyItem (sender : A) (id value : ℕ)

namespace Frame

def call : Frame A → A × Call A
  | mint sender _ uri => (sender, .mint uri)
  | safeTransferFrom sender source target tokenId =>
    (sender, .safeTransferFrom source target tokenId)
  | buyItem sender id value => (sender, .buyItem id value)

/-- What the call pays to the marketplace. -/
def value : Frame A → ℕ
  | buyItem _ _ value => value
  | _ => 0

end Frame

structure Chain (T A : Type) where
  world : World T A
  frames : List (Frame A × World T A)

/-- An account makes a call, at the top or inside a call that waits, or the last call that waits is
answered, with the selector or not. -/
inductive Act (A : Type) where
  | call (sender : A) (call : Call A)
  | received (selector accepts : Bool)

/-- A call up to its end, or to the frame in which it waits. -/
def Call.begin (w : World T A) (sender : A) : Call A → Except String (World T A × Option (Frame A))
  | .mint uri => do
    let (newItemId, w) ← ArtToken.mint erc721 w sender
    .ok (w, some (.mint sender newItemId uri))
  | .setMarketplace market => .ok (ArtToken.setMarketplace w market, none)
  | .transferFrom source target tokenId => do
    let token ← erc721.transferFrom w.token sender source target tokenId
    .ok ({ w with token }, none)
  | .safeTransferFrom source target tokenId => do
    let token ← erc721.transferFrom w.token sender source target tokenId
    .ok ({ w with token }, some (.safeTransferFrom sender source target tokenId))
  | .approve target tokenId => do
    let token ← erc721.approve w.token sender target tokenId
    .ok ({ w with token }, none)
  | .setApprovalForAll operator approved => do
    let token ← erc721.setApprovalForAll w.token sender operator approved
    .ok ({ w with token }, none)
  | .putItemForSale tokenId price => do
    let (_, w) ← ArtMarketplace.putItemForSale erc721 market w sender tokenId price
    .ok (w, none)
  | .buyItem id value => do
    let w ← ArtMarketplace.buyItem erc721 market w sender id value
    .ok (w, some (.buyItem sender id value))

/-- The rest of a call that waited. -/
def Frame.resume (w : World T A) (accepts : Bool) : Frame A → Except String (World T A)
  | .mint sender newItemId uri => ArtToken.minted erc721 w sender newItemId uri
  | .safeTransferFrom .. => .ok w
  | .buyItem sender id value => ArtMarketplace.bought market w sender id value accepts

/-- The world with a call that succeeded. -/
def World.succeed (w : World T A) (call : A × Call A) : World T A :=
  { w with calls := w.calls ++ [call] }

namespace Chain

/-- A step of the chain. The marketplace only calls in `buyItem`, nobody sends from the address `0`,
and a call that fails changes nothing. -/
def step (chain : Chain T A) : Act A → Option (Chain T A)
  | .call sender call =>
    if sender = market ∨ sender = 0 then none
    else match call.begin erc721 market chain.world sender with
    | .error _ => some chain
    | .ok (world, none) => some { chain with world := world.succeed (sender, call) }
    | .ok (world, some frame) => some ⟨world, (frame, chain.world) :: chain.frames⟩
  | .received selector accepts =>
    match chain.frames with
    | [] => none
    | (frame, before) :: frames =>
      if selector = true then
        match frame.resume erc721 market chain.world accepts with
        | .error _ => some ⟨before, frames⟩
        | .ok world => some ⟨world.succeed frame.call, frames⟩
      else some ⟨before, frames⟩

def machine (balance : A → ℕ) : Machine (Chain T A) (Act A) where
  start := ⟨.deployed erc721 balance, []⟩
  next := step erc721 market

/-- The last call that waits has failed: the world is the one before it. -/
def Reverts (chain chain' : Chain T A) : Prop :=
  ∃ frame, chain.frames = (frame, chain'.world) :: chain'.frames

variable {erc721 market}

/-- What a step does: a call fails, ends or waits, or the last call that waits fails or ends. -/
theorem step_cases {chain chain' : Chain T A} {act : Act A}
    (h : chain.step erc721 market act = some chain') :
    (∃ sender call, act = .call sender call ∧ chain' = chain) ∨
      (∃ sender call world, act = .call sender call ∧ sender ≠ market ∧ sender ≠ 0 ∧
        call.begin erc721 market chain.world sender = .ok (world, none) ∧
        chain' = { chain with world := world.succeed (sender, call) }) ∨
      (∃ sender call world frame, act = .call sender call ∧ sender ≠ market ∧ sender ≠ 0 ∧
        call.begin erc721 market chain.world sender = .ok (world, some frame) ∧
        chain' = ⟨world, (frame, chain.world) :: chain.frames⟩) ∨
      (∃ selector accepts, act = .received selector accepts ∧ chain.Reverts chain') ∨
      ∃ accepts frame before world, act = .received true accepts ∧
        chain.frames = (frame, before) :: chain'.frames ∧
        frame.resume erc721 market chain.world accepts = .ok world ∧
        chain'.world = world.succeed frame.call := by
  cases act with
  | call sender call =>
    simp only [step] at h
    split_ifs at h with hsender
    obtain ⟨hmarket, hzero⟩ := not_or.mp hsender
    split at h
    · exact .inl ⟨sender, call, rfl, (Option.some.inj h).symm⟩
    next world hbegin =>
      exact .inr (.inl ⟨sender, call, world, rfl, hmarket, hzero, hbegin,
        (Option.some.inj h).symm⟩)
    next world frame hbegin =>
      exact .inr (.inr (.inl ⟨sender, call, world, frame, rfl, hmarket, hzero, hbegin,
        (Option.some.inj h).symm⟩))
  | received selector accepts =>
    simp only [step] at h
    split at h
    · cases h
    next frame before frames hframes =>
      split_ifs at h with hselector
      · split at h
        · cases h
          exact .inr (.inr (.inr (.inl ⟨selector, accepts, rfl, frame, hframes⟩)))
        next world hresume =>
          cases h
          exact .inr (.inr (.inr (.inr ⟨accepts, frame, before, world, hselector ▸ rfl, hframes,
            hresume, rfl⟩)))
      · cases h
        exact .inr (.inr (.inr (.inl ⟨selector, accepts, rfl, frame, hframes⟩)))

end Chain

end Contracts

end Dapp
