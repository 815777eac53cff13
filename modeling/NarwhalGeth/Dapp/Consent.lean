import NarwhalGeth.Dapp.Settlement

/-!
# Who lets a token go

`mint` approves whatever account `marketplace` names, and anybody can change that name. As long as
each `mint` ends while it names the marketplace or nobody, a token leaves its owner only by a
transfer of the owner, by an approval the owner gave, or by the sale of an item the owner listed.
-/

namespace Dapp

variable {T A : Type} [Zero A] {erc721 : Erc721 T A} {market sender owner target : A}
  {w w' : World T A} {call : Call A} {frame : Frame A} {accepts : Bool} {tokenId : ℕ}

namespace World

/-- The owner approved the account for the token, or one of its operators did. -/
def Allowed (w : World T A) (owner account : A) (tokenId : ℕ) : Prop :=
  (owner, .approve account tokenId) ∈ w.calls ∨
    ∃ operator, (owner, .setApprovalForAll operator true) ∈ w.calls ∧
      (operator, .approve account tokenId) ∈ w.calls

/-- The approvals go back to calls of the owner, and the items to calls of their seller. -/
structure Granted (erc721 : Erc721 T A) (market : A) (w : World T A) : Prop where
  approved : ∀ tokenId owner account, erc721.ownerOf w.token tokenId = .ok owner →
    erc721.getApproved w.token tokenId = .ok account →
      account = 0 ∨ account = market ∨ w.Allowed owner account tokenId
  operators : ∀ owner operator, erc721.isApprovedForAll w.token owner operator = true →
    (owner, .setApprovalForAll operator true) ∈ w.calls
  listed : ∀ item ∈ w.itemsForSale,
    (item.seller, .putItemForSale item.tokenId item.price) ∈ w.calls

/-- The call moves the token with the consent of its owner. -/
def Consents (w : World T A) (owner : A) (tokenId : ℕ) (sender : A) : Call A → Prop
  | .transferFrom _ _ tokenId' | .safeTransferFrom _ _ tokenId' => tokenId' = tokenId ∧
    (sender = owner ∨ (owner, .setApprovalForAll sender true) ∈ w.calls ∨
      w.Allowed owner sender tokenId)
  | .buyItem id _ => ∃ item, w.itemsForSale[id]? = some item ∧ item.tokenId = tokenId ∧
    item.seller = owner ∧ (owner, .putItemForSale tokenId item.price) ∈ w.calls
  | _ => False

variable {w w' : World T A}

omit [Zero A] in
theorem Allowed.mono {account : A} (h : w.Allowed owner account tokenId)
    (hcalls : w.calls ⊆ w'.calls) : w'.Allowed owner account tokenId := by
  rcases h with h | ⟨operator, hoperator, h⟩
  · exact .inl (hcalls h)
  · exact .inr ⟨operator, hcalls hoperator, hcalls h⟩

section

variable (h : w.Granted erc721 market)

section

variable (hcalls : w.calls ⊆ w'.calls)
    (hlisted : ∀ item ∈ w'.itemsForSale,
      (item.seller, .putItemForSale item.tokenId item.price) ∈ w'.calls)

include h hcalls hlisted

theorem Granted.of_sameBut (hsame : erc721.SameBut w.token w'.token tokenId)
    (htoken : ∀ owner account, erc721.ownerOf w'.token tokenId = .ok owner →
      erc721.getApproved w'.token tokenId = .ok account →
        account = 0 ∨ account = market ∨ w'.Allowed owner account tokenId) :
    w'.Granted erc721 market where
  approved x owner account howner happroved := by
    by_cases hx : x = tokenId
    · subst hx
      exact htoken owner account howner happroved
    · rw [hsame.ownerOf x hx] at howner
      rw [hsame.getApproved x hx] at happroved
      exact (h.approved x owner account howner happroved).imp_right
        (Or.imp_right fun hallowed => hallowed.mono hcalls)
  operators owner operator hoperator := by
    rw [hsame.isApprovedForAll] at hoperator
    exact hcalls (h.operators owner operator hoperator)
  listed := hlisted

theorem Granted.given (hgiven : erc721.Given w.token w'.token target tokenId) :
    w'.Granted erc721 market := by
  refine h.of_sameBut hcalls hlisted hgiven.toSameBut fun owner account _ happroved => ?_
  exact .inl (Except.ok.inj (happroved.symm.trans hgiven.approved))

theorem Granted.same (htoken : w'.token = w.token) : w'.Granted erc721 market where
  approved x owner account howner happroved := by
    rw [htoken] at howner happroved
    exact (h.approved x owner account howner happroved).imp_right
      (Or.imp_right fun hallowed => hallowed.mono hcalls)
  operators owner operator hoperator := by
    rw [htoken] at hoperator
    exact hcalls (h.operators owner operator hoperator)
  listed := hlisted

end

include h

theorem Granted.listed_succeed (call : A × Call A) :
    ∀ item ∈ w.itemsForSale,
      (item.seller, .putItemForSale item.tokenId item.price) ∈ w.calls ++ [call] :=
  fun item hitem => List.mem_append_left _ (h.listed item hitem)

/-- An account approves another for a token, which it can do as the owner or as an operator. -/
theorem Granted.allowed_of_approve (hoperates : erc721.Operates w.token owner sender) :
    (w.succeed (sender, .approve target tokenId)).Allowed owner target tokenId := by
  have hmem : (sender, .approve target tokenId) ∈
      (w.succeed (sender, .approve target tokenId)).calls := List.mem_append_right _ (by simp)
  rcases hoperates with rfl | hoperator
  · exact .inl hmem
  · exact .inr ⟨sender, List.mem_append_left _ (h.operators owner sender hoperator), hmem⟩

end

end World

variable [DecidableEq A]

theorem Call.granted_none (h : w.Granted erc721 market)
    (hbegin : call.begin erc721 market w sender = .ok (w', none)) :
    (w'.succeed (sender, call)).Granted erc721 market := by
  have hcalls : w.calls ⊆ w.calls ++ [(sender, call)] := List.subset_append_left ..
  have hlisted := h.listed_succeed (sender, call)
  cases call with
  | mint uri =>
    obtain ⟨_, -, hbegin⟩ := Except.eq_ok_of_bind hbegin
    cases hbegin
  | setMarketplace market' =>
    cases hbegin
    exact h.same hcalls hlisted rfl
  | transferFrom source target tokenId =>
    obtain ⟨token, htoken, hbegin⟩ := Except.eq_ok_of_bind hbegin
    cases hbegin
    exact h.given hcalls hlisted (erc721.transferFrom_ok htoken).2.2
  | safeTransferFrom source target tokenId =>
    obtain ⟨_, -, hbegin⟩ := Except.eq_ok_of_bind hbegin
    cases hbegin
  | approve target tokenId =>
    obtain ⟨token, htoken, hbegin⟩ := Except.eq_ok_of_bind hbegin
    cases hbegin
    obtain ⟨⟨owner, howner, hoperates⟩, hsame, howner', happroved⟩ := erc721.approve_ok htoken
    refine h.of_sameBut hcalls hlisted hsame fun owner' account howner'' happroved' => ?_
    obtain rfl : owner = owner' :=
      Except.ok.inj (howner.symm.trans (howner'.symm.trans howner''))
    obtain rfl : target = account := Except.ok.inj (happroved.symm.trans happroved')
    exact .inr (.inr (h.allowed_of_approve hoperates))
  | setApprovalForAll operator approved =>
    obtain ⟨token, htoken, hbegin⟩ := Except.eq_ok_of_bind hbegin
    cases hbegin
    obtain ⟨howner, happroved, hoperators⟩ := erc721.setApprovalForAll_ok htoken
    refine ⟨fun tokenId owner account howner' happroved' => ?_, fun owner x hx => ?_, hlisted⟩
    · refine (h.approved tokenId owner account ?_ ?_).imp_right
        (Or.imp_right fun hallowed => hallowed.mono hcalls)
      · rw [← howner]
        exact howner'
      · rw [← happroved]
        exact happroved'
    · rcases hoperators owner x hx with hx | ⟨rfl, rfl, rfl⟩
      · exact hcalls (h.operators owner x hx)
      · exact List.mem_append_right _ (List.mem_singleton_self _)
  | putItemForSale tokenId price =>
    obtain ⟨⟨id, listed⟩, hput, hbegin⟩ := Except.eq_ok_of_bind hbegin
    cases hbegin
    obtain ⟨-, -, -, -, rfl⟩ := ArtMarketplace.putItemForSale_eq_ok.mp hput
    refine h.same hcalls (fun item hitem => ?_) rfl
    rcases List.mem_append.mp hitem with hitem | hitem
    · exact hlisted item hitem
    · rw [List.mem_singleton.mp hitem]
      exact List.mem_append_right _ (List.mem_singleton_self _)
  | buyItem id value =>
    obtain ⟨_, -, hbegin⟩ := Except.eq_ok_of_bind hbegin
    cases hbegin

theorem Call.granted_some (h : w.Granted erc721 market)
    (hbegin : call.begin erc721 market w sender = .ok (w', some frame)) :
    w'.Granted erc721 market := by
  cases call with
  | mint uri =>
    obtain ⟨⟨newItemId, minted⟩, hmint, hbegin⟩ := Except.eq_ok_of_bind hbegin
    obtain ⟨token, htoken, hmint⟩ := Except.eq_ok_of_bind hmint
    cases hmint
    cases hbegin
    exact h.given (List.Subset.refl _) h.listed (erc721.mint_ok htoken).2
  | setMarketplace market' => cases hbegin
  | transferFrom source target tokenId =>
    obtain ⟨_, -, hbegin⟩ := Except.eq_ok_of_bind hbegin
    cases hbegin
  | safeTransferFrom source target tokenId =>
    obtain ⟨token, htoken, hbegin⟩ := Except.eq_ok_of_bind hbegin
    cases hbegin
    exact h.given (List.Subset.refl _) h.listed (erc721.transferFrom_ok htoken).2.2
  | approve target tokenId =>
    obtain ⟨_, -, hbegin⟩ := Except.eq_ok_of_bind hbegin
    cases hbegin
  | setApprovalForAll operator approved =>
    obtain ⟨_, -, hbegin⟩ := Except.eq_ok_of_bind hbegin
    cases hbegin
  | putItemForSale tokenId price =>
    obtain ⟨_, -, hbegin⟩ := Except.eq_ok_of_bind hbegin
    cases hbegin
  | buyItem id value =>
    obtain ⟨sold, hbuy, hbegin⟩ := Except.eq_ok_of_bind hbegin
    cases hbegin
    obtain ⟨-, item, token, hitem, -, -, -, htoken, rfl⟩ := ArtMarketplace.buyItem_ok hbuy
    refine h.given (List.Subset.refl _) (fun item' hitem' => ?_) (erc721.transferFrom_ok htoken).2.2
    rcases List.mem_or_eq_of_mem_set hitem' with hitem' | rfl
    · exact h.listed item' hitem'
    · exact h.listed item (List.mem_of_getElem? hitem)

theorem Frame.granted_resume (h : w.Granted erc721 market)
    (hmint : ∀ sender newItemId uri, frame = .mint sender newItemId uri →
      w.marketplace = market ∨ w.marketplace = 0)
    (hresume : frame.resume erc721 market w accepts = .ok w') :
    (w'.succeed frame.call).Granted erc721 market := by
  have hcalls : w.calls ⊆ w.calls ++ [frame.call] := List.subset_append_left ..
  have hlisted := h.listed_succeed frame.call
  cases frame with
  | mint sender newItemId uri =>
    obtain ⟨token, htoken, hresume⟩ := Except.eq_ok_of_bind hresume
    cases hresume
    obtain ⟨-, hsame, -, happroved⟩ := erc721.approve_ok htoken
    refine h.of_sameBut hcalls hlisted hsame fun owner account _ happroved' => ?_
    obtain rfl : w.marketplace = account := Except.ok.inj (happroved.symm.trans happroved')
    rcases hmint sender newItemId uri rfl with hmarket | hzero
    · exact .inr (.inl hmarket)
    · exact .inl hzero
  | safeTransferFrom sender source target tokenId =>
    cases hresume
    exact h.same hcalls hlisted rfl
  | buyItem sender id value =>
    obtain ⟨item, -, -, rfl⟩ := ArtMarketplace.bought_ok hresume
    exact h.same hcalls hlisted rfl

theorem Frame.ownerOf_resume (frame : Frame A) (h : frame.resume erc721 market w accepts = .ok w')
    (tokenId : ℕ) :
    erc721.ownerOf w'.token tokenId = erc721.ownerOf w.token tokenId := by
  cases frame with
  | mint sender newItemId uri =>
    obtain ⟨token, htoken, h⟩ := Except.eq_ok_of_bind h
    cases h
    obtain ⟨-, hsame, hsame', -⟩ := erc721.approve_ok htoken
    by_cases heq : tokenId = newItemId
    · subst heq
      exact hsame'
    · exact hsame.ownerOf tokenId heq
  | safeTransferFrom sender source target tokenId =>
    cases h
    rfl
  | buyItem sender id value =>
    obtain ⟨item, -, -, rfl⟩ := ArtMarketplace.bought_ok h
    rfl

def Frame.isMint : Frame A → Bool
  | .mint _ _ _ => true
  | _ => false

namespace Chain

variable {chain chain' : Chain T A}

/-- A `mint` ends only while `marketplace` names the marketplace or nobody. -/
def Approves (market : A) (chain : Chain T A) : Act A → Prop
  | .call _ _ => True
  | .received _ _ => (chain.frames.head?.any fun frame => frame.1.isMint) = true →
    chain.world.marketplace = market ∨ chain.world.marketplace = 0

instance decidableApproves (market : A) (chain : Chain T A) :
    ∀ act, Decidable (chain.Approves market act)
  | .call _ _ => .isTrue trivial
  | .received _ _ => inferInstanceAs (Decidable (_ → _ ∨ _))

/-- Everything is granted, also in the worlds to which a call that waits can revert. -/
def AllGranted (erc721 : Erc721 T A) (market : A) (chain : Chain T A) : Prop :=
  chain.world.Granted erc721 market ∧ ∀ frame ∈ chain.frames, frame.2.Granted erc721 market

omit [DecidableEq A] in
theorem AllGranted.deployed (balance : A → ℕ) :
    AllGranted erc721 market ⟨.deployed erc721 balance, []⟩ where
  left :=
    { approved := fun tokenId owner _ howner _ =>
        absurd howner (erc721.deployed_ownerOf tokenId owner)
      operators := fun owner operator hoperator => by
        rw [World.deployed, erc721.deployed_isApprovedForAll] at hoperator
        cases hoperator
      listed := fun _ hitem => absurd hitem List.not_mem_nil }
  right _ hframe := absurd hframe List.not_mem_nil

theorem AllGranted.step {act : Act A} (h : AllGranted erc721 market chain)
    (happroves : chain.Approves market act)
    (hstep : chain.step erc721 market act = some chain') : AllGranted erc721 market chain' := by
  obtain ⟨hworld, hframes⟩ := h
  obtain ⟨sender, call, rfl, rfl⟩ | ⟨sender, call, world, rfl, -, -, hbegin, rfl⟩ |
    ⟨sender, call, world, frame, rfl, -, -, hbegin, rfl⟩ |
    ⟨selector, accepts, rfl, frame, heq⟩ | ⟨accepts, frame, before, world, rfl, heq, hresume,
      hworld'⟩ := step_cases hstep
  · exact ⟨hworld, hframes⟩
  · exact ⟨Call.granted_none hworld hbegin, hframes⟩
  · refine ⟨Call.granted_some hworld hbegin, fun frame' hframe' => ?_⟩
    rcases List.mem_cons.mp hframe' with rfl | hframe'
    · exact hworld
    · exact hframes frame' hframe'
  · rw [heq] at hframes
    exact ⟨hframes _ List.mem_cons_self, fun frame' hframe' =>
      hframes frame' (List.mem_cons_of_mem _ hframe')⟩
  · rw [heq] at hframes
    refine ⟨?_, fun frame' hframe' => hframes frame' (List.mem_cons_of_mem _ hframe')⟩
    rw [hworld']
    refine Frame.granted_resume hworld (fun sender newItemId uri hmint => ?_) hresume
    subst hmint
    rw [Approves, heq] at happroves
    exact happroves rfl

theorem consents_of_begin {frame : Option (Frame A)} (h : w.Granted erc721 market)
    (hmarket : sender ≠ market) (hzero : sender ≠ 0)
    (hbegin : call.begin erc721 market w sender = .ok (w', frame))
    (howner : erc721.ownerOf w.token tokenId = .ok owner)
    (hleft : erc721.ownerOf w'.token tokenId ≠ .ok owner) :
    w.Consents owner tokenId sender call := by
  -- Each token but the one that is given has its owner.
  have hgiven : ∀ {target : A} {tokenId' : ℕ},
      erc721.Given w.token w'.token target tokenId' → tokenId' = tokenId := by
    intro target tokenId' hgiven
    by_contra hne
    exact hleft ((hgiven.ownerOf tokenId fun heq => hne heq.symm).trans howner)
  have hmoves : ∀ {source target : A} {tokenId' : ℕ},
      erc721.transferFrom w.token sender source target tokenId' = .ok w'.token →
        tokenId' = tokenId ∧ (sender = owner ∨
          (owner, .setApprovalForAll sender true) ∈ w.calls ∨ w.Allowed owner sender tokenId) := by
    intro source target tokenId' htoken
    obtain ⟨hsource, hsender, hgive⟩ := erc721.transferFrom_ok htoken
    obtain rfl := hgiven hgive
    obtain rfl : source = owner := Except.ok.inj (hsource.symm.trans howner)
    refine ⟨rfl, ?_⟩
    rcases hsender with (hsender | hsender) | hsender
    · exact .inl hsender
    · exact .inr (.inl (h.operators source sender hsender))
    · exact .inr (.inr (((h.approved _ _ _ howner hsender).resolve_left hzero).resolve_left
        hmarket))
  cases call with
  | mint uri =>
    obtain ⟨⟨newItemId, minted⟩, hmint, hbegin⟩ := Except.eq_ok_of_bind hbegin
    obtain ⟨token, htoken, hmint⟩ := Except.eq_ok_of_bind hmint
    cases hmint
    cases hbegin
    obtain ⟨hnew, hgive⟩ := erc721.mint_ok htoken
    obtain rfl := hgiven hgive
    exact absurd howner (hnew owner)
  | setMarketplace market' =>
    cases hbegin
    exact absurd howner hleft
  | transferFrom source target tokenId' =>
    obtain ⟨token, htoken, hbegin⟩ := Except.eq_ok_of_bind hbegin
    cases hbegin
    exact hmoves htoken
  | safeTransferFrom source target tokenId' =>
    obtain ⟨token, htoken, hbegin⟩ := Except.eq_ok_of_bind hbegin
    cases hbegin
    exact hmoves htoken
  | approve target tokenId' =>
    obtain ⟨token, htoken, hbegin⟩ := Except.eq_ok_of_bind hbegin
    cases hbegin
    obtain ⟨-, hsame, hsame', -⟩ := erc721.approve_ok htoken
    by_cases heq : tokenId = tokenId'
    · subst heq
      exact absurd (hsame'.trans howner) hleft
    · exact absurd ((hsame.ownerOf tokenId heq).trans howner) hleft
  | setApprovalForAll operator approved =>
    obtain ⟨token, htoken, hbegin⟩ := Except.eq_ok_of_bind hbegin
    cases hbegin
    rw [← (erc721.setApprovalForAll_ok htoken).1] at howner
    exact absurd howner hleft
  | putItemForSale tokenId' price =>
    obtain ⟨⟨id, listed⟩, hput, hbegin⟩ := Except.eq_ok_of_bind hbegin
    cases hbegin
    obtain ⟨-, -, -, -, rfl⟩ := ArtMarketplace.putItemForSale_eq_ok.mp hput
    exact absurd howner hleft
  | buyItem id value =>
    obtain ⟨sold, hbuy, hbegin⟩ := Except.eq_ok_of_bind hbegin
    cases hbegin
    obtain ⟨-, item, token, hitem, -, -, -, htoken, rfl⟩ := ArtMarketplace.buyItem_ok hbuy
    obtain ⟨hseller, -, hgive⟩ := erc721.transferFrom_ok htoken
    obtain rfl := hgiven hgive
    obtain rfl : item.seller = owner := Except.ok.inj (hseller.symm.trans howner)
    exact ⟨item, hitem, rfl, rfl, h.listed item (List.mem_of_getElem? hitem)⟩

/-- If each `mint` ends while `marketplace` names the marketplace or nobody, a token leaves its
owner only in a call with the owner's consent: the owner sends it, has approved it or listed the
item that is bought. A step that reverts a call restores the world before it. -/
theorem leaves_by_consent {balance : A → ℕ}
    (h : (machine erc721 market balance).Reached (Approves market) chain) {act : Act A}
    (hstep : chain.step erc721 market act = some chain') {tokenId : ℕ} {owner : A}
    (howner : erc721.ownerOf chain.world.token tokenId = .ok owner)
    (hleft : erc721.ownerOf chain'.world.token tokenId ≠ .ok owner) :
    chain.Reverts chain' ∨ (∃ sender call, act = .call sender call ∧
      chain.world.Consents owner tokenId sender call) := by
  have hgranted : AllGranted erc721 market chain :=
    h.invariant (AllGranted.deployed balance)
      fun _ _ _ hgranted happroves hstep => hgranted.step happroves hstep
  obtain ⟨sender, call, rfl, rfl⟩ | ⟨sender, call, world, rfl, hmarket, hzero, hbegin, rfl⟩ |
    ⟨sender, call, world, frame, rfl, hmarket, hzero, hbegin, rfl⟩ |
    ⟨selector, accepts, rfl, hreverts⟩ | ⟨accepts, frame, before, world, rfl, heq, hresume,
      hworld⟩ := step_cases hstep
  · exact absurd howner hleft
  · exact .inr ⟨sender, call, rfl,
      consents_of_begin hgranted.1 hmarket hzero hbegin howner hleft⟩
  · exact .inr ⟨sender, call, rfl,
      consents_of_begin hgranted.1 hmarket hzero hbegin howner hleft⟩
  · exact .inl hreverts
  · rw [hworld] at hleft
    exact absurd ((frame.ownerOf_resume hresume tokenId).trans howner) hleft

end Chain

/-! ## A sale and a theft -/

/-- The token of the account 1 is listed. -/
def Sample.listed : Chain (TokenTables ℕ) ℕ :=
  Sample.machine.after Sample.machine.start (Sample.sale.take 4)

theorem Sample.reached_listed : Sample.machine.Reached (Chain.Approves 9) Sample.listed :=
  Machine.Reached.start.after (by decide +kernel)

/-- The account 2 has the token, and still has to answer. -/
def Sample.given : Chain (TokenTables ℕ) ℕ :=
  Sample.machine.after Sample.machine.start (Sample.sale.take 5)

/-- The account 1 has listed the token when the account 2 buys it. -/
theorem Chain.leaves_by_consent_sale :
    Sample.listed.step Sample.tokens 9 (.call 2 (.buyItem 0 6)) = some Sample.given ∧
      Sample.tokens.ownerOf Sample.listed.world.token 1 = .ok 1 ∧
      Sample.tokens.ownerOf Sample.given.world.token 1 = .ok 2 ∧
      Sample.listed.world.Consents 1 1 2 (.buyItem 0 6) := by
  have hstep : Sample.listed.step Sample.tokens 9 (.call 2 (.buyItem 0 6)) =
      some Sample.given := rfl
  have howner : Sample.tokens.ownerOf Sample.listed.world.token 1 = .ok 1 := rfl
  have hgiven : Sample.tokens.ownerOf Sample.given.world.token 1 = .ok 2 := rfl
  refine ⟨hstep, howner, hgiven, ?_⟩
  obtain ⟨frame, hframes⟩ | ⟨sender, call, hact, hconsents⟩ :=
    Chain.leaves_by_consent Sample.reached_listed hstep howner
      fun heq => absurd (Except.ok.inj (hgiven.symm.trans heq)) (by decide)
  · cases hframes
  · cases hact
    exact hconsents

/-- The account 3 makes itself the `marketplace`, and takes the token that the account 1 has minted.
-/
theorem Chain.minted_token_taken :
    let acts : List (Act ℕ) := [.call 3 (.setMarketplace 3), .call 1 (.mint "art"),
      .received true true]
    let chain := Sample.machine.after Sample.machine.start acts
    Sample.machine.Reached (fun _ _ => True) chain ∧
      Sample.tokens.ownerOf chain.world.token 1 = .ok 1 ∧
      chain.world.calls = [(3, .setMarketplace 3), (1, .mint "art")] ∧
      ∃ chain', chain.step Sample.tokens 9 (.call 3 (.transferFrom 1 3 1)) = some chain' ∧
        Sample.tokens.ownerOf chain'.world.token 1 = .ok 3 := by
  intro acts chain
  exact ⟨Machine.Reached.start.after (by decide +kernel), rfl, by decide +kernel, _, rfl, rfl⟩

end Dapp
