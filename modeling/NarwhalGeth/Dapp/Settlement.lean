import Mathlib.Algebra.Order.Ring.Nat
import NarwhalGeth.Dapp.Contracts

/-!
# Bookkeeping and settlement of the marketplace

At every call boundary, also inside `onERC721Received`, the items are numbered, each active token
has one unsold item, and no item is bought twice. A purchase that waits has put its value into the
marketplace and marked its item as sold. When it ends, the seller is paid out of that value.
-/

namespace Dapp

variable {T A : Type} [Zero A] [DecidableEq A] {erc721 : Erc721 T A}
  {market sender source target : A} {frames : List (Frame A × World T A)} {w w' before : World T A}
  {frame : Frame A} {call : A × Call A} {accepts : Bool} {balance : A → ℕ} {act : Act A}
  {id value : ℕ}

/-- The unsold items of a token. -/
def World.unsold (w : World T A) (tokenId : ℕ) : ℕ :=
  w.itemsForSale.countP fun item => item.tokenId = tokenId ∧ item.isSold = false

def World.IsSold (w : World T A) (id : ℕ) : Prop :=
  ∃ item, w.itemsForSale[id]? = some item ∧ item.isSold = true

def Call.buys (id : ℕ) : Call A → Bool
  | .buyItem id' _ => id' = id
  | _ => false

/-- The purchases of an item that succeeded. -/
def World.buys (w : World T A) (id : ℕ) : ℕ := w.calls.countP fun call => call.2.buys id

/-- The books of the marketplace. -/
structure World.Booked (market : A) (w : World T A) : Prop where
  numbered : ∀ (i : ℕ) (item : ItemForSale A), w.itemsForSale[i]? = some item → item.id = i
  seller : ∀ item ∈ w.itemsForSale, item.seller ≠ market
  unsold : ∀ tokenId, w.unsold tokenId = if w.activeItems tokenId then 1 else 0
  once : ∀ i, w.buys i ≤ 1
  unbought : ∀ i, ¬ w.IsSold i → w.buys i = 0

/-- What stays: an item keeps its data, a sold one stays sold, and it is not bought again. -/
structure World.Later (w w' : World T A) : Prop where
  items : ∀ (i : ℕ) (item : ItemForSale A), w.itemsForSale[i]? = some item →
    ∃ isSold, w'.itemsForSale[i]? = some { item with isSold } ∧
      (item.isSold = true → isSold = true)
  buys : ∀ i, w.IsSold i → w'.buys i = w.buys i

namespace World

variable {w w' w'' : World T A}

omit [Zero A] [DecidableEq A]

theorem Later.isSold (h : w.Later w') {i : ℕ} (hsold : w.IsSold i) : w'.IsSold i := by
  obtain ⟨item, hitem, hsold⟩ := hsold
  obtain ⟨isSold, hitem', himp⟩ := h.items i item hitem
  exact ⟨_, hitem', himp hsold⟩

theorem Later.trans (h : w.Later w') (h' : w'.Later w'') : w.Later w'' where
  items i item hitem := by
    obtain ⟨isSold, hitem', himp⟩ := h.items i item hitem
    obtain ⟨isSold', hitem'', himp'⟩ := h'.items i _ hitem'
    exact ⟨isSold', hitem'', fun hsold => himp' (himp hsold)⟩
  buys i hsold := (h'.buys i (h.isSold hsold)).trans (h.buys i hsold)

/-- The marketplace, the balances and the calls are as before. -/
structure SameMarket (w w' : World T A) : Prop where
  itemsForSale : w'.itemsForSale = w.itemsForSale
  activeItems : w'.activeItems = w.activeItems
  balance : w'.balance = w.balance
  calls : w'.calls = w.calls

theorem SameMarket.booked (h : w.SameMarket w') (hbooked : w.Booked market) : w'.Booked market := by
  obtain ⟨hid, hseller, hunsold, honce, hunbought⟩ := hbooked
  refine ⟨?_, ?_, fun t => ?_, fun i => ?_, fun i hi => ?_⟩
  · rw [h.itemsForSale]
    exact hid
  · rw [h.itemsForSale]
    exact hseller
  · rw [World.unsold, h.itemsForSale, h.activeItems]
    exact hunsold t
  · rw [World.buys, h.calls]
    exact honce i
  · rw [World.buys, h.calls]
    refine hunbought i fun hsold => hi ?_
    rwa [World.IsSold, h.itemsForSale]

theorem SameMarket.later (h : w.SameMarket w') : w.Later w' where
  items i item hitem := ⟨item.isSold, by rw [h.itemsForSale, hitem], id⟩
  buys i _ := by rw [World.buys, World.buys, h.calls]

theorem buys_succeed (w : World T A) (call : A × Call A) (i : ℕ) :
    (w.succeed call).buys i = w.buys i + if call.2.buys i then 1 else 0 := by
  rw [World.buys, World.succeed, List.countP_append, List.countP_singleton]
  rfl

theorem Booked.succeed (h : w.Booked market) (hcall : ∀ i, call.2.buys i = false) :
    (w.succeed call).Booked market := by
  have hbuys : ∀ i, (w.succeed call).buys i = w.buys i := by
    intro i
    rw [buys_succeed, hcall]
    rfl
  refine ⟨h.numbered, h.seller, h.unsold, fun i => ?_, fun i hi => ?_⟩
  · rw [hbuys]
    exact h.once i
  · rw [hbuys]
    exact h.unbought i hi

theorem Later.succeed (h : w.Later w') (hcall : ∀ i, call.2.buys i = false) :
    w.Later (w'.succeed call) where
  items := h.items
  buys i hsold := by
    rw [buys_succeed, hcall, h.buys i hsold]
    rfl

/-! ## Listing and selling an item -/

section Items

variable {item : ItemForSale A} {id : ℕ}

/-- A token has no unsold item exactly if it is not active. -/
theorem Booked.activeItems_eq_false_iff (h : w.Booked market) (tokenId : ℕ) :
    w.activeItems tokenId = false ↔
      ∀ item ∈ w.itemsForSale, item.tokenId = tokenId → item.isSold = true := by
  have hcount : w.activeItems tokenId = false ↔ w.unsold tokenId = 0 := by
    rw [h.unsold]
    cases w.activeItems tokenId <;> simp
  rw [hcount, World.unsold, List.countP_eq_zero]
  simp

theorem later_list (hitems : w'.itemsForSale = w.itemsForSale ++ [item])
    (hcalls : w'.calls = w.calls) : w.Later w' where
  items i item' hitem := by
    obtain ⟨hi, -⟩ := List.getElem?_eq_some_iff.mp hitem
    exact ⟨item'.isSold, by rw [hitems, List.getElem?_append_left hi, hitem], fun h => h⟩
  buys i _ := by rw [World.buys, World.buys, hcalls]

theorem Booked.list (h : w.Booked market) (hactive : w.activeItems item.tokenId = false)
    (hid : item.id = w.itemsForSale.length) (hseller : item.seller ≠ market)
    (hsold : item.isSold = false) (hitems : w'.itemsForSale = w.itemsForSale ++ [item])
    (hactive' : w'.activeItems = Function.update w.activeItems item.tokenId true)
    (hcalls : w'.calls = w.calls) : w'.Booked market where
  numbered i item' hitem := by
    rw [hitems, List.getElem?_append] at hitem
    split_ifs at hitem with hi
    · exact h.numbered i item' hitem
    · obtain ⟨hlt, rfl⟩ := List.getElem?_eq_some_iff.mp hitem
      rw [List.length_singleton] at hlt
      rw [List.getElem_singleton, hid]
      omega
  seller item' hitem := by
    rw [hitems] at hitem
    rcases List.mem_append.mp hitem with hitem | hitem
    · exact h.seller item' hitem
    · rw [List.mem_singleton.mp hitem]
      exact hseller
  unsold t := by
    have hbefore := h.unsold t
    rw [World.unsold] at hbefore
    rw [World.unsold, hitems, List.countP_append, List.countP_singleton, hbefore, hactive']
    by_cases ht : t = item.tokenId
    · subst ht
      simp [hactive, hsold]
    · have ht' : item.tokenId ≠ t := fun heq => ht heq.symm
      simp [ht, ht']
  once i := by
    rw [World.buys, hcalls]
    exact h.once i
  unbought i hi := by
    rw [World.buys, hcalls]
    exact h.unbought i fun hsold => hi ((later_list hitems hcalls).isSold hsold)

theorem later_sell (hitem : w.itemsForSale[id]? = some item)
    (hitems : w'.itemsForSale = w.itemsForSale.set id { item with isSold := true })
    (hcalls : w'.calls = w.calls) : w.Later w' where
  items i item' hitem' := by
    rw [hitems, List.getElem?_set]
    split_ifs with hi hlt
    · subst hi
      obtain rfl : item = item' := Option.some.inj (hitem.symm.trans hitem')
      exact ⟨true, rfl, fun _ => rfl⟩
    · subst hi
      rw [List.getElem?_eq_none (Nat.le_of_not_lt hlt)] at hitem'
      cases hitem'
    · exact ⟨item'.isSold, hitem', fun h => h⟩
  buys i _ := by rw [World.buys, World.buys, hcalls]

theorem Booked.sell (h : w.Booked market) (hitem : w.itemsForSale[id]? = some item)
    (hsold : item.isSold = false)
    (hitems : w'.itemsForSale = w.itemsForSale.set id { item with isSold := true })
    (hactive : w'.activeItems = Function.update w.activeItems item.tokenId false)
    (hcalls : w'.calls = w.calls) : w'.Booked market where
  numbered i item' hitem' := by
    rw [hitems, List.getElem?_set] at hitem'
    split_ifs at hitem' with hi hlt
    · subst hi
      rw [← Option.some.inj hitem']
      exact h.numbered id item hitem
    · exact h.numbered i item' hitem'
  seller item' hitem' := by
    rw [hitems] at hitem'
    rcases List.mem_or_eq_of_mem_set hitem' with hitem' | rfl
    · exact h.seller item' hitem'
    · exact h.seller item (List.mem_of_getElem? hitem)
  unsold t := by
    obtain ⟨hlt, hget⟩ := List.getElem?_eq_some_iff.mp hitem
    have hbefore := h.unsold t
    rw [World.unsold] at hbefore
    rw [World.unsold, hitems, List.countP_set hlt, hget, hbefore, hactive]
    by_cases ht : t = item.tokenId
    · subst ht
      simp only [Function.update_self]
      cases hactive : w.activeItems item.tokenId <;> simp [hsold]
    · have ht' : item.tokenId ≠ t := fun heq => ht heq.symm
      simp [ht, ht']
  once i := by
    rw [World.buys, hcalls]
    exact h.once i
  unbought i hi := by
    rw [World.buys, hcalls]
    exact h.unbought i fun hsold => hi ((later_sell hitem hitems hcalls).isSold hsold)

end Items

end World

/-! ## Calls that wait -/

/-- A purchase in the world before it: the seller of an unsold item owns its token, and the token is
given to the sender. -/
structure Purchase (erc721 : Erc721 T A) (before : World T A) (token : T) (sender : A)
    (id value : ℕ) (item : ItemForSale A) : Prop where
  listed : before.itemsForSale[id]? = some item
  unsold : item.isSold = false
  price : item.price ≤ value
  owner : erc721.ownerOf before.token item.tokenId = .ok item.seller
  given : erc721.Given before.token token sender item.tokenId

/-- A call that waits, in a world after the one before it. -/
structure Frame.Since (erc721 : Erc721 T A) (market : A) (frame : Frame A) (before w : World T A) :
    Prop where
  later : before.Later w
  balance : w.balance market = before.balance market + frame.value
  bought : ∀ sender id value, frame = .buyItem sender id value → w.IsSold id ∧ w.buys id = 0 ∧
    ∃ token item, Purchase erc721 before token sender id value item

/-- What a call that ends does to the marketplace. -/
structure World.Ends (market : A) (w w' : World T A) : Prop where
  later : w.Later w'
  balance : w'.balance market = w.balance market

omit [DecidableEq A] in
theorem Frame.Since.ends (h : frame.Since erc721 market before w) (hends : w.Ends market w') :
    frame.Since erc721 market before w' where
  later := h.later.trans hends.later
  balance := hends.balance.trans h.balance
  bought sender id value hframe := by
    obtain ⟨hsold, hbuys, hpurchase⟩ := h.bought sender id value hframe
    exact ⟨hends.later.isSold hsold, (hends.later.buys id hsold).trans hbuys, hpurchase⟩

/-- The calls that wait, each in the world before the next. -/
def Chain.Stacked (erc721 : Erc721 T A) (market : A) (w : World T A) :
    List (Frame A × World T A) → Prop
  | [] => w.Booked market
  | (frame, before) :: frames =>
    w.Booked market ∧ frame.Since erc721 market before w ∧ Stacked erc721 market before frames

namespace Chain

omit [DecidableEq A] in
theorem Stacked.booked (h : Stacked erc721 market w frames) : w.Booked market := by
  cases frames with
  | nil => exact h
  | cons frame frames => exact h.1

omit [DecidableEq A] in
theorem Stacked.ends (h : Stacked erc721 market w frames) (hbooked : w'.Booked market)
    (hends : w.Ends market w') :
    Stacked erc721 market w' frames := by
  cases frames with
  | nil => exact hbooked
  | cons frame frames => exact ⟨hbooked, h.2.1.ends hends, h.2.2⟩

end Chain

omit [Zero A] in
theorem pay_source (hne : source ≠ target) (value : ℕ) :
    pay balance source target value source = balance source - value := by
  rw [pay, Function.update_of_ne hne, Function.update_self]

omit [Zero A] in
theorem pay_target (hne : source ≠ target) (value : ℕ) :
    pay balance source target value target = balance target + value := by
  rw [pay, Function.update_self, Function.update_of_ne hne.symm]

theorem Call.begin_none {call : Call A} (hsender : sender ≠ market) (hbooked : w.Booked market)
    (h : call.begin erc721 market w sender = .ok (w', none)) :
    (w'.succeed (sender, call)).Booked market ∧
      w.Ends market (w'.succeed (sender, call)) := by
  have hsame : w.SameMarket w' → (∀ i, call.buys i = false) →
      (w'.succeed (sender, call)).Booked market ∧ w.Ends market (w'.succeed (sender, call)) :=
    fun hsame hcall => ⟨(hsame.booked hbooked).succeed hcall, hsame.later.succeed hcall,
      congrFun hsame.balance market⟩
  cases call with
  | mint uri =>
    obtain ⟨_, -, h⟩ := Except.eq_ok_of_bind h
    cases h
  | setMarketplace market' =>
    cases h
    exact hsame ⟨rfl, rfl, rfl, rfl⟩ fun _ => rfl
  | transferFrom source target tokenId =>
    obtain ⟨token, -, h⟩ := Except.eq_ok_of_bind h
    cases h
    exact hsame ⟨rfl, rfl, rfl, rfl⟩ fun _ => rfl
  | safeTransferFrom source target tokenId =>
    obtain ⟨_, -, h⟩ := Except.eq_ok_of_bind h
    cases h
  | approve target tokenId =>
    obtain ⟨token, -, h⟩ := Except.eq_ok_of_bind h
    cases h
    exact hsame ⟨rfl, rfl, rfl, rfl⟩ fun _ => rfl
  | setApprovalForAll operator approved =>
    obtain ⟨token, -, h⟩ := Except.eq_ok_of_bind h
    cases h
    exact hsame ⟨rfl, rfl, rfl, rfl⟩ fun _ => rfl
  | putItemForSale tokenId price =>
    obtain ⟨⟨id, listed⟩, hput, h⟩ := Except.eq_ok_of_bind h
    cases h
    obtain ⟨-, -, hactive, -, rfl⟩ := ArtMarketplace.putItemForSale_eq_ok.mp hput
    refine ⟨World.Booked.succeed ?_ fun _ => rfl, World.Later.succeed ?_ fun _ => rfl, rfl⟩
    · exact hbooked.list hactive rfl hsender rfl rfl rfl rfl
    · exact World.later_list rfl rfl
  | buyItem id value =>
    obtain ⟨_, -, h⟩ := Except.eq_ok_of_bind h
    cases h

theorem Call.begin_some {call : Call A} (hsender : sender ≠ market) (hbooked : w.Booked market)
    (h : call.begin erc721 market w sender = .ok (w', some frame)) :
    w'.Booked market ∧ frame.Since erc721 market w w' := by
  have hsame : w.SameMarket w' → frame.value = 0 →
      (∀ sender id value, frame ≠ .buyItem sender id value) →
      w'.Booked market ∧ frame.Since erc721 market w w' := by
    intro hsame hvalue hframe
    refine ⟨hsame.booked hbooked, hsame.later, ?_, fun _ _ _ heq => absurd heq (hframe _ _ _)⟩
    rw [hvalue, hsame.balance, Nat.add_zero]
  cases call with
  | mint uri =>
    obtain ⟨⟨newItemId, minted⟩, hmint, h⟩ := Except.eq_ok_of_bind h
    obtain ⟨token, -, hmint⟩ := Except.eq_ok_of_bind hmint
    cases hmint
    cases h
    exact hsame ⟨rfl, rfl, rfl, rfl⟩ rfl fun _ _ _ heq => by cases heq
  | setMarketplace market' => cases h
  | transferFrom source target tokenId =>
    obtain ⟨_, -, h⟩ := Except.eq_ok_of_bind h
    cases h
  | safeTransferFrom source target tokenId =>
    obtain ⟨token, -, h⟩ := Except.eq_ok_of_bind h
    cases h
    exact hsame ⟨rfl, rfl, rfl, rfl⟩ rfl fun _ _ _ heq => by cases heq
  | approve target tokenId =>
    obtain ⟨_, -, h⟩ := Except.eq_ok_of_bind h
    cases h
  | setApprovalForAll operator approved =>
    obtain ⟨_, -, h⟩ := Except.eq_ok_of_bind h
    cases h
  | putItemForSale tokenId price =>
    obtain ⟨_, -, h⟩ := Except.eq_ok_of_bind h
    cases h
  | buyItem id value =>
    obtain ⟨sold, hbuy, h⟩ := Except.eq_ok_of_bind h
    cases h
    obtain ⟨-, item, token, hitem, hsold, hprice, -, htoken, rfl⟩ := ArtMarketplace.buyItem_ok hbuy
    obtain ⟨howner, -, hgiven⟩ := erc721.transferFrom_ok htoken
    refine ⟨hbooked.sell hitem hsold rfl rfl rfl, World.later_sell hitem rfl rfl,
      pay_target hsender value, ?_⟩
    intro sender' id' value' heq
    cases heq
    obtain ⟨hlt, -⟩ := List.getElem?_eq_some_iff.mp hitem
    refine ⟨⟨{ item with isSold := true }, List.getElem?_set_self hlt, rfl⟩,
      hbooked.unbought id ?_, token, item, hitem, hsold, hprice, howner, hgiven⟩
    rintro ⟨item', hitem', hsold'⟩
    obtain rfl : item = item' := Option.some.inj (hitem.symm.trans hitem')
    rw [hsold] at hsold'
    cases hsold'

/-- A purchase ends: it is the first of its item, and the seller is paid with its value. -/
theorem Frame.Since.bought_ends (h : (Frame.buyItem sender id value).Since erc721 market before w)
    (hbooked : w.Booked market)
    (hbought : ArtMarketplace.bought market w sender id value accepts = .ok w') :
    (w'.succeed (sender, .buyItem id value)).Booked market ∧
      before.Ends market (w'.succeed (sender, .buyItem id value)) := by
  obtain ⟨hsold, hbuys, _, item, hpurchase⟩ := h.bought sender id value rfl
  obtain ⟨item', hitem', hvalue, rfl⟩ := ArtMarketplace.bought_ok hbought
  have hseller : market ≠ item'.seller :=
    (hbooked.seller item' (List.mem_of_getElem? hitem')).symm
  have hother : ∀ i, i ≠ id → (Call.buyItem id value : Call A).buys i = false :=
    fun i hi => decide_eq_false fun heq => hi heq.symm
  refine ⟨⟨hbooked.numbered, hbooked.seller, hbooked.unsold, fun i => ?_, fun i hi => ?_⟩,
    ⟨h.later.items, fun i hi => ?_⟩, ?_⟩
  · rw [World.buys_succeed]
    by_cases heq : i = id
    · subst heq
      show w.buys i + _ ≤ 1
      rw [hbuys]
      split <;> omega
    · rw [hother i heq]
      exact hbooked.once i
  · have hne : i ≠ id := by
      rintro rfl
      exact hi hsold
    rw [World.buys_succeed, hother i hne]
    exact hbooked.unbought i hi
  · have hne : i ≠ id := by
      rintro rfl
      obtain ⟨item'', hitem'', hsold''⟩ := hi
      obtain rfl : item = item'' := Option.some.inj (hpurchase.listed.symm.trans hitem'')
      rw [hpurchase.unsold] at hsold''
      cases hsold''
    rw [World.buys_succeed, hother i hne]
    exact h.later.buys i hi
  · have hbalance := h.balance
    show pay w.balance market item'.seller value market = before.balance market
    rw [pay_source hseller, hbalance]
    exact Nat.add_sub_cancel ..

theorem Frame.Since.resume (h : frame.Since erc721 market before w) (hbooked : w.Booked market)
    (hresume : frame.resume erc721 market w accepts = .ok w') :
    (w'.succeed frame.call).Booked market ∧ before.Ends market (w'.succeed frame.call) := by
  have hsame : w.SameMarket w' → frame.value = 0 → (∀ i, frame.call.2.buys i = false) →
      (w'.succeed frame.call).Booked market ∧ before.Ends market (w'.succeed frame.call) := by
    intro hsame hvalue hcall
    refine ⟨(hsame.booked hbooked).succeed hcall, (h.later.trans hsame.later).succeed hcall, ?_⟩
    have hbalance := h.balance
    rw [hvalue] at hbalance
    exact (congrFun hsame.balance market).trans hbalance
  cases frame with
  | mint sender newItemId uri =>
    obtain ⟨token, -, hresume⟩ := Except.eq_ok_of_bind hresume
    cases hresume
    exact hsame ⟨rfl, rfl, rfl, rfl⟩ rfl fun _ => rfl
  | safeTransferFrom sender source target tokenId =>
    cases hresume
    exact hsame ⟨rfl, rfl, rfl, rfl⟩ rfl fun _ => rfl
  | buyItem sender id value => exact h.bought_ends hbooked hresume

theorem Frame.itemsForSale_resume (frame : Frame A)
    (h : frame.resume erc721 market w accepts = .ok w') : w'.itemsForSale = w.itemsForSale := by
  cases frame with
  | mint sender newItemId uri =>
    obtain ⟨token, -, h⟩ := Except.eq_ok_of_bind h
    cases h
    rfl
  | safeTransferFrom sender source target tokenId =>
    cases h
    rfl
  | buyItem sender id value =>
    obtain ⟨item, -, -, rfl⟩ := ArtMarketplace.bought_ok h
    rfl

namespace Chain

variable {chain chain' : Chain T A}

theorem Stacked.step (h : Stacked erc721 market chain.world chain.frames)
    (hstep : chain.step erc721 market act = some chain') :
    Stacked erc721 market chain'.world chain'.frames := by
  obtain ⟨sender, call, rfl, rfl⟩ | ⟨sender, call, world, rfl, hsender, -, hbegin, rfl⟩ |
    ⟨sender, call, world, frame, rfl, hsender, -, hbegin, rfl⟩ |
    ⟨selector, accepts, rfl, frame, hframes⟩ |
    ⟨accepts, frame, before, world, rfl, hframes, hresume, hworld⟩ := step_cases hstep
  · exact h
  · obtain ⟨hbooked, hends⟩ := Call.begin_none hsender h.booked hbegin
    exact h.ends hbooked hends
  · obtain ⟨hbooked, hsince⟩ := Call.begin_some hsender h.booked hbegin
    exact ⟨hbooked, hsince, h⟩
  · rw [hframes] at h
    exact h.2.2
  · rw [hframes] at h
    obtain ⟨hbooked, hends⟩ := h.2.1.resume h.1 hresume
    rw [hworld]
    exact h.2.2.ends hbooked hends

omit [DecidableEq A] in
theorem Stacked.deployed (balance : A → ℕ) :
    Stacked erc721 market (.deployed erc721 balance) [] where
  numbered _ _ h := by cases h
  seller _ h := absurd h List.not_mem_nil
  unsold _ := rfl
  once _ := Nat.zero_le 1
  unbought _ _ := rfl

theorem isSold_of_step (h : Stacked erc721 market chain.world chain.frames)
    (hstep : chain.step erc721 market act = some chain') :
    chain.Reverts chain' ∨ ∀ i, chain.world.IsSold i → chain'.world.IsSold i := by
  obtain ⟨sender, call, rfl, rfl⟩ | ⟨sender, call, world, rfl, hsender, -, hbegin, rfl⟩ |
    ⟨sender, call, world, frame, rfl, hsender, -, hbegin, rfl⟩ |
    ⟨selector, accepts, rfl, hreverts⟩ | ⟨accepts, frame, before, world, rfl, hframes, hresume,
      hworld⟩ := step_cases hstep
  · exact .inr fun _ hi => hi
  · exact .inr fun _ => (Call.begin_none hsender h.booked hbegin).2.later.isSold
  · exact .inr fun _ => (Call.begin_some hsender h.booked hbegin).2.later.isSold
  · exact .inl hreverts
  · refine .inr fun i hi => ?_
    rw [hworld, World.IsSold]
    exact (frame.itemsForSale_resume hresume).symm ▸ hi

/-- A call of `buyItem` that waits has given the token of the item from its seller to the sender,
and has taken the value from the sender. -/
theorem bought_of_call
    (hstep : chain.step erc721 market (.call sender (.buyItem id value)) = some chain') :
    chain' = chain ∨
      chain'.frames = (.buyItem sender id value, chain.world) :: chain.frames ∧
        chain'.world.balance sender + value = chain.world.balance sender ∧
        ∃ item, Purchase erc721 chain.world chain'.world.token sender id value item := by
  obtain ⟨_, _, -, rfl⟩ | ⟨_, _, world, heq, -, -, hbegin, rfl⟩ |
    ⟨_, _, world, frame, heq, hsender, -, hbegin, rfl⟩ | ⟨_, _, heq, -⟩ |
    ⟨_, _, _, _, heq, -⟩ := step_cases hstep
  · exact .inl rfl
  · cases heq
    obtain ⟨_, -, hbegin⟩ := Except.eq_ok_of_bind hbegin
    cases hbegin
  · cases heq
    obtain ⟨sold, hbuy, hbegin⟩ := Except.eq_ok_of_bind hbegin
    cases hbegin
    obtain ⟨hvalue, item, token, hitem, hsold, hprice, -, htoken, rfl⟩ :=
      ArtMarketplace.buyItem_ok hbuy
    obtain ⟨howner, -, hgiven⟩ := erc721.transferFrom_ok htoken
    refine .inr ⟨rfl, ?_, item, hitem, hsold, hprice, howner, hgiven⟩
    show pay chain.world.balance sender market value sender + value = _
    rw [pay_source hsender, Nat.sub_add_cancel hvalue]
  · cases heq
  · cases heq

theorem settled_of_received (h : Stacked erc721 market chain.world chain.frames)
    (hframes : chain.frames = (.buyItem sender id value, before) :: frames) {selector : Bool}
    (hstep : chain.step erc721 market (.received selector accepts) = some chain') :
    chain.Reverts chain' ∨ ∃ token item,
      Purchase erc721 before token sender id value item ∧ chain'.world.IsSold id ∧
        chain'.world.balance item.seller = chain.world.balance item.seller + value ∧
        chain'.world.balance market = before.balance market := by
  obtain ⟨_, _, heq, -⟩ | ⟨_, _, _, heq, -⟩ | ⟨_, _, _, _, heq, -⟩ | ⟨_, _, -, hreverts⟩ |
    ⟨accepts', frame, before', world, -, hframes', hresume, hworld⟩ := step_cases hstep
  · cases heq
  · cases heq
  · cases heq
  · exact .inl hreverts
  · rw [hframes] at h hframes'
    cases hframes'
    obtain ⟨hbooked, hsince, -⟩ := h
    obtain ⟨hsold, -, token, item, hpurchase⟩ := hsince.bought sender id value rfl
    obtain ⟨-, hends⟩ := hsince.resume hbooked hresume
    obtain ⟨item', hitem', -, hbought⟩ := ArtMarketplace.bought_ok hresume
    obtain ⟨isSold, hitem'', -⟩ := hsince.later.items id item hpurchase.listed
    obtain rfl : { item with isSold } = item' := Option.some.inj (hitem''.symm.trans hitem')
    have hseller : market ≠ item.seller :=
      (hbooked.seller _ (List.mem_of_getElem? hitem')).symm
    refine .inr ⟨token, item, hpurchase, ?_, ?_, ?_⟩
    · rw [hworld, hbought]
      exact hsold
    · rw [hworld, hbought]
      exact pay_target hseller value
    · rw [hworld]
      exact hends.balance

theorem reached_stacked {guard : Chain T A → Act A → Prop}
    (h : (machine erc721 market balance).Reached guard chain) :
    Stacked erc721 market chain.world chain.frames :=
  h.invariant (I := fun chain => Stacked erc721 market chain.world chain.frames)
    (Stacked.deployed balance) fun _ _ _ hstacked _ hstep => hstacked.step hstep

/-- At every call boundary the items are numbered, an active token has one unsold item, any other
none, and no item is bought twice. A sold item stays sold unless the call that sold it reverts. A
purchase takes the token from the seller, who owns it, to the caller, and at its end the seller has
the value and the marketplace its old balance. -/
theorem marketplace_settles {balance : A → ℕ}
    (h : (machine erc721 market balance).Reached (fun _ _ => True) chain) :
    chain.world.Booked market ∧
      (∀ act chain', chain.step erc721 market act = some chain' →
        chain.Reverts chain' ∨ ∀ i, chain.world.IsSold i → chain'.world.IsSold i) ∧
      (∀ sender id value chain',
        chain.step erc721 market (.call sender (.buyItem id value)) = some chain' →
          chain' = chain ∨
            chain'.frames = (.buyItem sender id value, chain.world) :: chain.frames ∧
              chain'.world.balance sender + value = chain.world.balance sender ∧
              ∃ item, Purchase erc721 chain.world chain'.world.token sender id value item) ∧
      ∀ sender id value before frames,
        chain.frames = (.buyItem sender id value, before) :: frames →
          ∀ selector accepts chain',
            chain.step erc721 market (.received selector accepts) = some chain' →
              chain.Reverts chain' ∨ ∃ token item,
                Purchase erc721 before token sender id value item ∧ chain'.world.IsSold id ∧
                  chain'.world.balance item.seller = chain.world.balance item.seller + value ∧
                  chain'.world.balance market = before.balance market := by
  have hstacked := reached_stacked h
  exact ⟨hstacked.booked, fun _ _ hstep => isSold_of_step hstacked hstep,
    fun _ _ _ _ hstep => bought_of_call hstep,
    fun _ _ _ _ _ hframes _ _ _ hstep => settled_of_received hstacked hframes hstep⟩

end Chain

/-! ## A sale -/

namespace Sample

def tokens : Erc721 (TokenTables ℕ) ℕ := TokenTables.erc721 ℕ

/-- The marketplace has the address 9, and every account has 10. -/
abbrev machine : Machine (Chain (TokenTables ℕ) ℕ) (Act ℕ) :=
  Chain.machine tokens 9 fun _ => 10

/-- The account 1 mints and lists a token, and the account 2 starts to buy it. In `onERC721Received`
it tries to buy the item again, and lists the token itself. -/
def sale : List (Act ℕ) :=
  [.call 7 (.setMarketplace 9), .call 1 (.mint "art"), .received true true,
    .call 1 (.putItemForSale 1 5), .call 2 (.buyItem 0 6), .call 2 (.buyItem 0 6),
    .call 2 (.approve 9 1), .call 2 (.putItemForSale 1 8)]

theorem reached_sale : machine.Reached (fun _ _ => True) (machine.after machine.start sale) :=
  Machine.Reached.start.after (by decide +kernel)

end Sample

/-- Inside `onERC721Received` the books are right and the marketplace holds the value of 6. When the
purchase ends, the account 1 has it. -/
theorem Chain.marketplace_settles_sale :
    let chain := Sample.machine.after Sample.machine.start Sample.sale
    chain.world.Booked 9 ∧ chain.world.unsold 1 = 1 ∧ chain.world.balance 9 = 16 ∧
      ∃ chain', chain.step Sample.tokens 9 (.received true true) = some chain' ∧
        chain'.world.balance 1 = 16 ∧ chain'.world.balance 9 = 10 :=
  ⟨(Chain.marketplace_settles Sample.reached_sale).1, by decide +kernel, by decide +kernel, _, rfl,
    by decide +kernel, by decide +kernel⟩

/-! ## Listing a token -/

/-- An owner that has approved the marketplace for a token, and has no unsold item of it, can list
the token exactly if no other account has an unsold item of it. -/
theorem Chain.lists_iff {balance : A → ℕ} {chain : Chain T A}
    (h : (machine erc721 market balance).Reached (fun _ _ => True) chain) {owner : A}
    {tokenId : ℕ} (howner : erc721.ownerOf chain.world.token tokenId = .ok owner)
    (happroved : erc721.getApproved chain.world.token tokenId = .ok market)
    (hown : ∀ item ∈ chain.world.itemsForSale, item.tokenId = tokenId → item.seller = owner →
      item.isSold = true) (price : ℕ) :
    (∃ result, ArtMarketplace.putItemForSale erc721 market chain.world owner tokenId price =
        .ok result) ↔
      ∀ item ∈ chain.world.itemsForSale, item.tokenId = tokenId → item.seller ≠ owner →
        item.isSold = true := by
  have hactive := (reached_stacked h).booked.activeItems_eq_false_iff tokenId
  constructor
  · rintro ⟨⟨id, listed⟩, hput⟩ item hitem htoken -
    obtain ⟨-, -, hinactive, -⟩ := ArtMarketplace.putItemForSale_eq_ok.mp hput
    exact hactive.mp hinactive item hitem htoken
  · intro hothers
    have hinactive : chain.world.activeItems tokenId = false := by
      refine hactive.mpr fun item hitem htoken => ?_
      by_cases hseller : item.seller = owner
      · exact hown item hitem htoken hseller
      · exact hothers item hitem htoken hseller
    exact ⟨_, ArtMarketplace.putItemForSale_eq_ok.mpr ⟨howner, happroved, hinactive, rfl, rfl⟩⟩

/-- The account 2 can list the token that it has bought. -/
theorem Chain.lists_iff_sale :
    ∃ result, ArtMarketplace.putItemForSale Sample.tokens 9
      (Sample.machine.after Sample.machine.start (Sample.sale.take 7)).world 2 1 8 =
        .ok result := by
  have hreached : Sample.machine.Reached (fun _ _ => True)
      (Sample.machine.after Sample.machine.start (Sample.sale.take 7)) :=
    Machine.Reached.start.after (by decide +kernel)
  exact (Chain.lists_iff hreached rfl rfl (by decide +kernel) 8).mpr (by decide +kernel)

/-- The account 1 lists a token and transfers it to the account 2, which has approved the
marketplace, but cannot list it. -/
theorem Chain.listing_of_previous_owner_blocks :
    let acts : List (Act ℕ) := Sample.sale.take 4 ++
      [.call 1 (.transferFrom 1 2 1), .call 2 (.approve 9 1)]
    let chain := Sample.machine.after Sample.machine.start acts
    Sample.machine.Reached (fun _ _ => True) chain ∧
      Sample.tokens.ownerOf chain.world.token 1 = .ok 2 ∧
      Sample.tokens.getApproved chain.world.token 1 = .ok 9 ∧
      (∀ item ∈ chain.world.itemsForSale, item.seller ≠ 2) ∧
      ArtMarketplace.putItemForSale Sample.tokens 9 chain.world 2 1 8 =
        .error "Item is already up for sale" := by
  intro acts chain
  exact ⟨Machine.Reached.start.after (by decide +kernel), rfl, rfl, by decide +kernel, rfl⟩

end Dapp
