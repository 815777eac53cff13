import Mathlib.Data.Nat.Notation
import Mathlib.Logic.Function.Basic
import Mathlib.Tactic.SplitIfs

/-!
# Contracts of the ERC-721 standard

What the standard documents of a token contract: each token has one owner and at most one approved
account, an owner has operators, and only these can move a token. A transfer clears the approval.
The address `0` stands for no account. A call that reverts gives an error.
-/

/-- The calls of a token contract with state `T`. The sender of a call comes first. -/
structure Erc721Calls (T A : Type) where
  deployed : T
  ownerOf : T → ℕ → Except String A
  getApproved : T → ℕ → Except String A
  isApprovedForAll : T → A → A → Bool
  transferFrom : T → A → A → A → ℕ → Except String T
  approve : T → A → A → ℕ → Except String T
  setApprovalForAll : T → A → A → Bool → Except String T
  mint : T → A → ℕ → Except String T

namespace Erc721Calls

variable {T A : Type} [Zero A] (calls : Erc721Calls T A)

/-- Nothing has changed but what concerns one token. -/
structure SameBut (t t' : T) (tokenId : ℕ) : Prop where
  ownerOf : ∀ x, x ≠ tokenId → calls.ownerOf t' x = calls.ownerOf t x
  getApproved : ∀ x, x ≠ tokenId → calls.getApproved t' x = calls.getApproved t x
  isApprovedForAll : calls.isApprovedForAll t' = calls.isApprovedForAll t

/-- The token has a new owner, and nobody is approved for it. -/
structure Given (t t' : T) (target : A) (tokenId : ℕ) : Prop
    extends SameBut calls t t' tokenId where
  owner : calls.ownerOf t' tokenId = .ok target
  approved : calls.getApproved t' tokenId = .ok 0

/-- An account that may move the tokens of an owner. -/
def Operates (t : T) (owner sender : A) : Prop :=
  sender = owner ∨ calls.isApprovedForAll t owner sender = true

end Erc721Calls

/-- A token contract that behaves as the standard documents. -/
structure Erc721 (T A : Type) [Zero A] extends Erc721Calls T A where
  deployed_ownerOf : ∀ tokenId owner, ownerOf deployed tokenId ≠ .ok owner
  deployed_isApprovedForAll : ∀ owner operator, isApprovedForAll deployed owner operator = false
  transferFrom_ok : ∀ {t t' : T} {sender source target : A} {tokenId : ℕ},
    transferFrom t sender source target tokenId = .ok t' →
      ownerOf t tokenId = .ok source ∧
        (toErc721Calls.Operates t source sender ∨ getApproved t tokenId = .ok sender) ∧
        toErc721Calls.Given t t' target tokenId
  approve_ok : ∀ {t t' : T} {sender target : A} {tokenId : ℕ},
    approve t sender target tokenId = .ok t' →
      (∃ owner, ownerOf t tokenId = .ok owner ∧ toErc721Calls.Operates t owner sender) ∧
        toErc721Calls.SameBut t t' tokenId ∧ ownerOf t' tokenId = ownerOf t tokenId ∧
        getApproved t' tokenId = .ok target
  setApprovalForAll_ok : ∀ {t t' : T} {sender operator : A} {approved : Bool},
    setApprovalForAll t sender operator approved = .ok t' →
      ownerOf t' = ownerOf t ∧ getApproved t' = getApproved t ∧
        ∀ owner x, isApprovedForAll t' owner x = true →
          isApprovedForAll t owner x = true ∨ owner = sender ∧ x = operator ∧ approved = true
  mint_ok : ∀ {t t' : T} {target : A} {tokenId : ℕ}, mint t target tokenId = .ok t' →
    (∀ owner, ownerOf t tokenId ≠ .ok owner) ∧ toErc721Calls.Given t t' target tokenId

/-! ## An implementation -/

/-- The owners, the approvals and the operators as mappings. -/
structure TokenTables (A : Type) where
  owners : ℕ → A
  tokenApprovals : ℕ → A
  operatorApprovals : A → A → Bool

namespace TokenTables

variable {A : Type} [Zero A] [DecidableEq A] {t : TokenTables A} {tokenId : ℕ}

def ownerOf (t : TokenTables A) (tokenId : ℕ) : Except String A :=
  if t.owners tokenId = 0 then .error "ERC721: invalid token ID" else .ok (t.owners tokenId)

def getApproved (t : TokenTables A) (tokenId : ℕ) : Except String A :=
  if t.owners tokenId = 0 then .error "ERC721: invalid token ID"
  else .ok (t.tokenApprovals tokenId)

def give (t : TokenTables A) (target : A) (tokenId : ℕ) : TokenTables A :=
  { t with
    owners := Function.update t.owners tokenId target
    tokenApprovals := Function.update t.tokenApprovals tokenId 0 }

def transferFrom (t : TokenTables A) (sender source target : A) (tokenId : ℕ) :
    Except String (TokenTables A) :=
  if t.owners tokenId = 0 then .error "ERC721: invalid token ID"
  else if ¬ (sender = t.owners tokenId ∨ t.operatorApprovals (t.owners tokenId) sender = true ∨
      t.tokenApprovals tokenId = sender) then
    .error "ERC721: caller is not token owner or approved"
  else if t.owners tokenId ≠ source then .error "ERC721: transfer from incorrect owner"
  else if target = 0 then .error "ERC721: transfer to the zero address"
  else .ok (t.give target tokenId)

def approve (t : TokenTables A) (sender target : A) (tokenId : ℕ) :
    Except String (TokenTables A) :=
  if t.owners tokenId = 0 then .error "ERC721: invalid token ID"
  else if target = t.owners tokenId then .error "ERC721: approval to current owner"
  else if ¬ (sender = t.owners tokenId ∨ t.operatorApprovals (t.owners tokenId) sender = true) then
    .error "ERC721: approve caller is not token owner or approved for all"
  else .ok { t with tokenApprovals := Function.update t.tokenApprovals tokenId target }

def setApprovalForAll (t : TokenTables A) (sender operator : A) (approved : Bool) :
    Except String (TokenTables A) :=
  if sender = operator then .error "ERC721: approve to caller"
  else .ok { t with
    operatorApprovals := Function.update t.operatorApprovals sender
      (Function.update (t.operatorApprovals sender) operator approved) }

def mint (t : TokenTables A) (target : A) (tokenId : ℕ) : Except String (TokenTables A) :=
  if target = 0 then .error "ERC721: mint to the zero address"
  else if t.owners tokenId ≠ 0 then .error "ERC721: token already minted"
  else .ok (t.give target tokenId)

def calls (A : Type) [Zero A] [DecidableEq A] : Erc721Calls (TokenTables A) A where
  deployed := ⟨fun _ => 0, fun _ => 0, fun _ _ => false⟩
  ownerOf := ownerOf
  getApproved := getApproved
  isApprovedForAll := operatorApprovals
  transferFrom := transferFrom
  approve := approve
  setApprovalForAll := setApprovalForAll
  mint := mint

theorem ownerOf_eq_ok (h : t.owners tokenId ≠ 0) :
    t.ownerOf tokenId = .ok (t.owners tokenId) :=
  if_neg h

theorem getApproved_eq_ok (h : t.owners tokenId ≠ 0) :
    t.getApproved tokenId = .ok (t.tokenApprovals tokenId) :=
  if_neg h

theorem given_give {target : A} (htarget : target ≠ 0) (tokenId : ℕ) :
    (calls A).Given t (t.give target tokenId) target tokenId where
  ownerOf x hx := by simp [calls, ownerOf, give, hx]
  getApproved x hx := by simp [calls, getApproved, give, hx]
  isApprovedForAll := rfl
  owner := by simp [calls, ownerOf, give, htarget]
  approved := by simp [calls, getApproved, give, htarget]

/-- The mappings behave as the standard documents. -/
def erc721 (A : Type) [Zero A] [DecidableEq A] : Erc721 (TokenTables A) A where
  toErc721Calls := calls A
  deployed_ownerOf tokenId owner := by simp [calls, ownerOf]
  deployed_isApprovedForAll _ _ := rfl
  transferFrom_ok := by
    intro t t' sender source target tokenId h
    simp only [calls, transferFrom] at h
    split_ifs at h with hexists hsender hsource htarget
    cases h
    have howner : t.owners tokenId = source := not_not.mp hsource
    refine ⟨howner ▸ ownerOf_eq_ok hexists, ?_, given_give htarget tokenId⟩
    rcases hsender with hsender | hsender | hsender
    · exact .inl (.inl (hsender.trans howner))
    · exact .inl (.inr (howner ▸ hsender))
    · exact .inr (hsender ▸ getApproved_eq_ok hexists)
  approve_ok := by
    intro t t' sender target tokenId h
    simp only [calls, approve] at h
    split_ifs at h with hexists htarget hsender
    cases h
    refine ⟨⟨_, ownerOf_eq_ok hexists, hsender⟩, ⟨fun _ _ => rfl, fun x hx => ?_, rfl⟩,
      rfl, ?_⟩
    · simp [calls, getApproved, hx]
    · simp [calls, getApproved, hexists]
  setApprovalForAll_ok := by
    intro t t' sender operator approved h
    simp only [calls, setApprovalForAll] at h
    split_ifs at h
    cases h
    refine ⟨rfl, rfl, fun owner x hx => ?_⟩
    by_cases howner : owner = sender
    · subst howner
      by_cases hoperator : x = operator
      · simp only [calls, hoperator, Function.update_self] at hx
        exact .inr ⟨rfl, hoperator, hx⟩
      · simp only [calls, Function.update_self, Function.update_of_ne hoperator] at hx
        exact .inl hx
    · simp only [calls, Function.update_of_ne howner] at hx
      exact .inl hx
  mint_ok := by
    intro t t' target tokenId h
    simp only [calls, mint] at h
    split_ifs at h with htarget hexists
    cases h
    refine ⟨fun owner => ?_, given_give htarget tokenId⟩
    simp [calls, ownerOf, not_not.mp hexists]

end TokenTables
