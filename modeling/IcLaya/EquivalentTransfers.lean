import IcLaya.LedgerConversion

/-!
# Which arguments are one transfer

With the code's digests of 32 bytes: what `from_icrc` accepts and what it reads off an argument. Two
accepted arguments are one transfer exactly when they agree once an absent subaccount is written
out as zeros.
-/
namespace IcLaya
open CheckedWords Fallible

/-- An absent subaccount written out. -/
def explicitSubaccount (x : Option (List UInt8)) : List UInt8 := x.getD (List.replicate 32 0)

/-- An argument with both subaccounts written out. -/
def TransferArg.explicit (a : TransferArg) : TransferArg :=
  { a with
    fromSubaccount := some (explicitSubaccount a.fromSubaccount)
    toAccount := ⟨a.toAccount.owner, some (explicitSubaccount a.toAccount.subaccount)⟩ }

/-- The fields an accepted argument has, and the sizes that are looked at. -/
structure TransferArg.WellFormed (a : TransferArg) : Prop where
  fee : ∃ fee, a.fee = some fee ∧ fee < 2 ^ 128
  amount : a.amount < 2 ^ 128
  memo : ∃ memo, a.memo = some memo ∧ memo.length = 32
  createdAtTime : ∃ t, a.createdAtTime = some t
  fromSubaccount : ∀ x, a.fromSubaccount = some x → x.length = 32
  toSubaccount : ∀ x, a.toAccount.subaccount = some x → x.length = 32

theorem toBytes32_eq_some {bs : List UInt8} {v : Vector UInt8 32} :
    toBytes32 bs = some v ↔ v.toList = bs := by
  constructor
  · intro h
    unfold toBytes32 at h
    split at h
    · cases h
      rfl
    · cases h
  · rintro rfl
    exact toBytes32_toList v

theorem natU128_eq_ok {n : ℕ} {x : U128} : natU128 n = .ok x ↔ x.toNat = n := by
  constructor
  · intro h
    unfold natU128 at h
    split at h
    · next hn =>
      rw [pure_eq_ok] at h
      rw [← h, BitVec.toNat_ofNat, Nat.mod_eq_of_lt hn]
    · cases h
  · rintro rfl
    exact natU128_toNat x

theorem subaccountOf_eq_ok {x : Option (List UInt8)} {v : Subaccount} :
    subaccountOf x = .ok v ↔ v.toList = explicitSubaccount x := by
  cases x with
  | none =>
    rw [subaccountOf, pure_eq_ok, ← Vector.toList_inj, eq_comm]
    exact Iff.of_eq (congrArg (v.toList = ·) (Vector.toList_replicate ..))
  | some x =>
    rw [subaccountOf, okOr_eq_ok, toBytes32_eq_some]
    rfl

section Reading
variable (sha256 : List UInt8 → Vector UInt8 32) {a b : TransferArg} {ledger : Principal}
  {f g : FrozenTransfer (Vector UInt8 32)}

/-- `from_icrc` over the code's digests. -/
abbrev fromIcrc32 (a : TransferArg) (ledger : Principal) :
    Result (FrozenTransfer (Vector UInt8 32)) :=
  @fromIcrc (Vector UInt8 32) (Hashing.ofSha256 sha256) a ledger

/-- `to_icrc` over the code's digests. -/
abbrev toIcrc32 (f : FrozenTransfer (Vector UInt8 32)) : TransferArg :=
  @toIcrc (Vector UInt8 32) (Hashing.ofSha256 sha256) f

/-- What is accepted is what `to_icrc` writes of the transfer, up to absent subaccounts. -/
theorem fromIcrc32_eq_ok : fromIcrc32 sha256 a ledger = .ok f ↔
    f.proposal.validate = .ok () ∧ f.proposal.ledger = ledger ∧ a.explicit = toIcrc32 sha256 f := by
  simp only [fromIcrc32, fromIcrc, toIcrc32, toIcrc, TransferArg.explicit, bind_eq_ok, okOr_eq_ok,
    pure_eq_ok, subaccountOf_eq_ok, natU128_eq_ok]
  constructor
  · rintro ⟨x, hx, y, hy, amount, hamount, fee, hfee, feeWord, hword, _, hv, memo, hmemo, m, hm, t, ht,
      rfl⟩
    have hbytes : m.toList = memo := toBytes32_eq_some.mp hm
    refine ⟨hv, rfl, ?_⟩
    show TransferArg.mk _ _ _ _ _ _ = TransferArg.mk _ _ _ _ _ _
    rw [← hx, ← hy, ← hamount, hfee, ← hword, hmemo, ← hbytes, ht]
    rfl
  · rintro ⟨hv, rfl, ha⟩
    obtain ⟨hx, hto, hamount, hfee, hmemo, ht⟩ := TransferArg.mk.inj ha
    obtain ⟨howner, hy⟩ := IcrcAccount.mk.inj hto
    refine ⟨f.proposal.fromSubaccount, (Option.some.inj hx).symm, f.proposal.toAccount.subaccount,
      (Option.some.inj hy).symm, f.proposal.amount, hamount.symm, _, hfee, f.proposal.fee, rfl, (), ?_,
      _, hmemo, f.memo, toBytes32_toList f.memo, _, ht, ?_⟩
    · rw [howner]
      exact hv
    · rw [howner]

/-- An argument that lacks a field, or has one of another size, is refused. -/
theorem wellFormed_of_fromIcrc (h : fromIcrc32 sha256 a ledger = .ok f) : a.WellFormed := by
  obtain ⟨-, -, ha⟩ := (fromIcrc32_eq_ok sha256).mp h
  obtain ⟨hx, hto, hamount, hfee, hmemo, ht⟩ := TransferArg.mk.inj ha
  obtain ⟨-, hy⟩ := IcrcAccount.mk.inj hto
  have hlength : ∀ v : Vector UInt8 32, v.toList.length = 32 := fun v => by simp
  refine ⟨⟨_, hfee, f.proposal.fee.isLt⟩, ?_, ⟨_, hmemo, hlength f.memo⟩, ⟨_, ht⟩, ?_, ?_⟩
  · rw [hamount]
    exact f.proposal.amount.isLt
  · intro x hax
    rw [hax, explicitSubaccount, Option.getD_some] at hx
    rw [Option.some.inj hx]
    exact hlength f.proposal.fromSubaccount
  · intro x hax
    rw [hax, explicitSubaccount, Option.getD_some] at hy
    rw [Option.some.inj hy]
    exact hlength f.proposal.toAccount.subaccount

/-- The conversion between a frozen transfer and the argument that is sent: it is read back, with
its digest; what is accepted is valid; accepted arguments are one transfer exactly when they agree;
everything else is refused. -/
theorem icrc_conversion :
    (∀ f : FrozenTransfer (Vector UInt8 32), f.proposal.validate = .ok () →
      fromIcrc32 sha256 (toIcrc32 sha256 f) f.proposal.ledger = .ok f ∧
      ∀ g, fromIcrc32 sha256 (toIcrc32 sha256 f) f.proposal.ledger = .ok g →
        @FrozenTransfer.digest _ (Hashing.ofSha256 sha256) g =
          @FrozenTransfer.digest _ (Hashing.ofSha256 sha256) f) ∧
    (∀ (a : TransferArg) (ledger : Principal) (f : FrozenTransfer (Vector UInt8 32)),
      fromIcrc32 sha256 a ledger = .ok f → f.proposal.validate = .ok () ∧
        ∃ c, f.proposal.charge = .ok c ∧ c.toNat = f.proposal.amount.toNat + f.proposal.fee.toNat) ∧
    (∀ (a b : TransferArg) (ledger : Principal) (f g : FrozenTransfer (Vector UInt8 32)),
      fromIcrc32 sha256 a ledger = .ok f → fromIcrc32 sha256 b ledger = .ok g →
        (f = g ↔ a.explicit = b.explicit)) ∧
    ∀ (a : TransferArg) (ledger : Principal), ¬a.WellFormed →
      ∃ e, fromIcrc32 sha256 a ledger = .error e := by
  refine ⟨fun f hv => ?_, fun a ledger f hf => ?_, fun a b ledger f g hf hg => ?_,
    fun a ledger ha => ?_⟩
  · have hback := @fromIcrc_toIcrc _ (Hashing.ofSha256 sha256) f hv
    refine ⟨hback, fun g hg => ?_⟩
    rw [Except.ok.inj (hback.symm.trans hg)]
  · obtain ⟨hv, -, -⟩ := (fromIcrc32_eq_ok sha256).mp hf
    obtain ⟨c, hc⟩ := TransferProposal.charge_of_validate hv
    exact ⟨hv, c, hc, TransferProposal.charge_eq_ok.mp hc⟩
  · obtain ⟨hvf, hlf, ha⟩ := (fromIcrc32_eq_ok sha256).mp hf
    obtain ⟨-, -, hb⟩ := (fromIcrc32_eq_ok sha256).mp hg
    constructor
    · rintro rfl
      rw [ha, hb]
    · intro hab
      have hfb : fromIcrc32 sha256 b ledger = .ok f :=
        (fromIcrc32_eq_ok sha256).mpr ⟨hvf, hlf, hab ▸ ha⟩
      exact Except.ok.inj (hfb.symm.trans hg)
  · cases hf : fromIcrc32 sha256 a ledger with
    | ok f => exact absurd (wellFormed_of_fromIcrc sha256 hf) ha
    | error e => exact ⟨e, rfl⟩

end Reading

end IcLaya
