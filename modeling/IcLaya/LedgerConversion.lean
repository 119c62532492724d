import IcLaya.CanonicalPreimages

/-!
# The wire format of a transfer

The argument of `icrc1_transfer` and its replies, and the two conversions between it and a
frozen transfer (`canister-common`). A candid `Nat` has no bound; an amount is read back
only when it fits.
-/
namespace IcLaya
open CheckedWords Fallible

structure IcrcAccount where
  owner : Principal
  subaccount : Option (List UInt8)
  deriving DecidableEq

structure TransferArg where
  fromSubaccount : Option (List UInt8)
  toAccount : IcrcAccount
  amount : ℕ
  fee : Option ℕ
  memo : Option (List UInt8)
  createdAtTime : Option UInt64
  deriving DecidableEq

inductive TransferError
  | badFee (expectedFee : ℕ)
  | badBurn (minBurnAmount : ℕ)
  | insufficientFunds (balance : ℕ)
  | tooOld
  | createdInFuture (ledgerTime : UInt64)
  | temporarilyUnavailable
  | duplicate (duplicateOf : ℕ)
  | genericError (errorCode : ℕ) (message : String)
  deriving DecidableEq

abbrev TransferResult := Except TransferError ℕ

structure Lookup (Digest : Type) where
  frozenHash : Digest
  blockIndex : String
  deriving DecidableEq

variable {Digest : Type} [Hashing Digest]

def toIcrc (f : FrozenTransfer Digest) : TransferArg :=
  { fromSubaccount := some f.proposal.fromSubaccount.toList
    toAccount := ⟨f.proposal.toAccount.owner, some f.proposal.toAccount.subaccount.toList⟩
    amount := f.proposal.amount.toNat
    fee := some f.proposal.fee.toNat
    memo := some (Hashing.toBytes f.memo)
    createdAtTime := some f.createdAtTimeNs }

def natU128 (n : ℕ) : Result U128 :=
  if n < 2 ^ 128 then pure (BitVec.ofNat 128 n) else throw (.invalid "Nat out of u128 range")

/-- `sub`: an absent subaccount is the zero one. -/
def subaccountOf : Option (List UInt8) → Result Subaccount
  | none => pure (Vector.replicate 32 0)
  | some x => okOr (toBytes32 x) (.invalid "subaccount length")

def fromIcrc (a : TransferArg) (ledger : Principal) : Result (FrozenTransfer Digest) := do
  let fromSubaccount ← subaccountOf a.fromSubaccount
  let subaccount ← subaccountOf a.toAccount.subaccount
  let amount ← natU128 a.amount
  let fee ← okOr a.fee (.invalid "explicit fee required")
  let fee ← natU128 fee
  let proposal : TransferProposal :=
    ⟨ledger, fromSubaccount, ⟨a.toAccount.owner, subaccount⟩, amount, fee⟩
  proposal.validate
  let memo ← okOr a.memo (.invalid "memo required")
  let memo ← okOr (Hashing.ofBytes memo) (.invalid "memo length")
  let createdAtTimeNs ← okOr a.createdAtTime (.invalid "timestamp required")
  pure ⟨proposal, memo, createdAtTimeNs⟩

theorem natU128_toNat (n : U128) : natU128 n.toNat = .ok n := by
  rw [natU128, if_pos n.isLt, BitVec.ofNat_toNat, BitVec.setWidth_eq]
  rfl

theorem subaccountOf_toList (v : Subaccount) : subaccountOf (some v.toList) = .ok v := by
  rw [subaccountOf, toBytes32_toList]
  rfl

/-- The ledger reads back the transfer that was sent to it. -/
theorem fromIcrc_toIcrc {f : FrozenTransfer Digest} (h : f.proposal.validate = .ok ()) :
    fromIcrc (toIcrc f) f.proposal.ledger = .ok f := by
  simp only [fromIcrc, toIcrc, bind_eq_ok, okOr_eq_ok, pure_eq_ok, subaccountOf_toList,
    natU128_toNat]
  exact ⟨_, rfl, _, rfl, _, rfl, _, rfl, _, natU128_toNat _, (), h, _, rfl, _,
    Hashing.ofBytes_toBytes _, _, rfl, rfl⟩

/-- Nothing else is read back in its place. -/
theorem fromIcrc_toIcrc_unique {f f' : FrozenTransfer Digest}
    (h : fromIcrc (toIcrc f) f.proposal.ledger = .ok f') : f' = f := by
  have hv : f.proposal.validate = .ok () := by
    simp only [fromIcrc, toIcrc, bind_eq_ok, okOr_eq_ok, subaccountOf_toList, natU128_toNat,
      Except.ok.injEq, Option.some.injEq, exists_eq_left'] at h
    obtain ⟨_, hv, _⟩ := h
    exact hv
  rw [fromIcrc_toIcrc hv] at h
  cases h
  rfl

/-- The pre-image of a frozen transfer determines every field. -/
theorem FrozenTransfer.digest_inj (hcf : CollisionFree Digest) {f g : FrozenTransfer Digest}
    (h : f.digest = g.digest) : f = g := by
  obtain ⟨hp, hm, ht⟩ := canonical_inj (hcf h)
  obtain ⟨fp, fm, ft⟩ := f
  obtain ⟨gp, gm, gt⟩ := g
  cases TransferProposal.digest_inj hcf hp
  cases hm
  cases ht
  rfl

end IcLaya
