import IcLaya.LedgerConversion

/-!
# The mock ledger

The transfer test double, with its injected faults. A reply of `none` is a trap: the caller
learns nothing, but a transfer that was committed before the trap stays committed.
-/
namespace IcLaya
open CheckedWords Fallible OrderedMaps
open Std (ExtTreeMap)

inductive Fault | none | badFee | tooOld | commitThenCallbackTrap deriving DecidableEq

structure MockLedger (Digest : Type) [Ord Digest] where
  owner : Principal
  fault : Fault
  next : UInt64
  records : ExtTreeMap (Principal × Digest) (Lookup Digest)
  balances : ExtTreeMap Principal U128

/-- `str::parse::<u64>`. -/
def parseU64 (s : String) : Option UInt64 :=
  let digits := match s.toList with | '+' :: ds => ds | ds => ds
  if digits ≠ [] ∧ digits.all Char.isDigit ∧ Nat.ofDigitChars 10 digits 0 < 2 ^ 64 then
    some (UInt64.ofNat (Nat.ofDigitChars 10 digits 0))
  else none

private theorem utf8ByteSize_of_digits {cs : List Char} (h : ∀ c ∈ cs, c.isDigit = true) :
    (String.ofList cs).utf8ByteSize = cs.length := by
  rw [← String.size_toByteArray, String.toByteArray_ofList]
  induction cs with
  | nil => rfl
  | cons c cs ih =>
    have hc : c.utf8Size = 1 := by
      have hd := h c (by simp)
      simp only [Char.isDigit, Bool.and_eq_true, decide_eq_true_eq] at hd
      exact Char.utf8Size_eq_one_iff.mpr (UInt32.le_trans hd.2 (by decide))
    rw [List.utf8Encode_cons, ByteArray.size_append, List.utf8Encode_singleton,
      ih fun d hd => h d (by simp [hd])]
    simp only [List.length_cons, List.size_toByteArray, String.length_utf8EncodeChar, hc]
    omega

/-- The executor accepts every block number of a ledger. -/
theorem validBlockIndex_toString {n : ℕ} (hn : n < 2 ^ 64) :
    validBlockIndex (toString n) = true := by
  have hd : ∀ c ∈ Nat.toDigits 10 n, c.isDigit = true := fun c hc =>
    Nat.isDigit_of_mem_toDigits (by decide) (by decide) hc
  have hl : (Nat.toDigits 10 n).length ≤ 20 :=
    (Nat.length_toDigits_le_iff (by decide) (by decide)).mpr (hn.trans (by decide))
  have hs : toString n = String.ofList (Nat.toDigits 10 n) := Nat.repr_eq_ofList_toDigits
  have hne : (toString n).isEmpty = false := by
    rw [Bool.eq_false_iff, ne_eq, String.isEmpty_iff]
    exact Nat.repr_ne_empty
  simp only [validBlockIndex, hne, Bool.not_false, Bool.true_and, Bool.and_eq_true,
    decide_eq_true_eq, List.all_eq_true]
  rw [hs, utf8ByteSize_of_digits hd, String.toList_ofList]
  exact ⟨by omega, hd⟩

variable {Digest : Type} [Hashing Digest]

namespace MockLedger

/-- `init`, past its check of the owner. -/
def new (owner : Principal) : MockLedger Digest := ⟨owner, .none, 0, ∅, ∅⟩

def setFault (l : MockLedger Digest) (caller : Principal) (fault : Fault) :
    Result (MockLedger Digest) := do
  rejectIf (caller ≠ l.owner) .unauthorized
  pure { l with fault := fault }

/-- `ic_laya_lookup` on the ledger canister `self`. -/
def lookup (l : MockLedger Digest) (self caller : Principal) (arg : TransferArg) :
    Option (Lookup Digest) :=
  match (fromIcrc arg self : Result (FrozenTransfer Digest)) with
  | .error _ => none
  | .ok f => l.records[(caller, f.digest)]?

/-- The checks of `icrc1_transfer` before it commits, and the balance that is left. -/
def balanceAfter (l : MockLedger Digest) (caller : Principal) (f : FrozenTransfer Digest)
    (now : UInt64) : Except TransferError U128 := do
  rejectIf (l.fault = .badFee) (.badFee 10)
  rejectIf (l.fault = .tooOld ∨ mockDedupWindowNs < saturatingSub64 now f.createdAtTimeNs) .tooOld
  rejectIf (saturatingAdd64 now 1000000000 < f.createdAtTimeNs) (.createdInFuture now)
  rejectIf (f.proposal.fee ≠ 10) (.badFee 10)
  rejectIf (2048 ≤ l.records.size ∨ (¬l.balances.contains caller ∧ 64 ≤ l.balances.size))
    .temporarilyUnavailable
  let balance := l.balances[caller]?.getD 1000000000000
  match f.proposal.charge with
  | .error _ => throw (.insufficientFunds balance.toNat)
  | .ok charge => do
    rejectIf (balance < charge) (.insufficientFunds balance.toNat)
    pure (balance - charge)

/-- The commit of a transfer under the next block index. -/
def commit (l : MockLedger Digest) (caller : Principal) (fingerprint : Digest) (left : U128) :
    MockLedger Digest :=
  { l with
    next := l.next + 1
    balances := l.balances.insert caller left
    records := l.records.insert (caller, fingerprint) ⟨fingerprint, toString l.next.toNat⟩ }

/-- The body of `icrc1_transfer` for a transfer that was read back. -/
def transferFrozen (l : MockLedger Digest) (caller : Principal) (f : FrozenTransfer Digest)
    (now : UInt64) : MockLedger Digest × Option TransferResult :=
  match l.records[(caller, f.digest)]? with
  | some old => (l, (parseU64 old.blockIndex).map fun n => .error (.duplicate n.toNat))
  | none =>
    match l.balanceAfter caller f now with
    | .error e => (l, some (.error e))
    | .ok left =>
      (l.commit caller f.digest left,
        -- the trap comes after the commit and does not undo it
        if l.fault = .commitThenCallbackTrap then none else some (.ok l.next.toNat))

/-- `icrc1_transfer` on the ledger canister `self`. -/
def icrc1Transfer (l : MockLedger Digest) (self caller : Principal) (arg : TransferArg)
    (now : UInt64) : MockLedger Digest × Option TransferResult :=
  if caller = .anonymous then (l, some (.error (.genericError 1 "anonymous"))) else
    match fromIcrc arg self with
    | .error e => (l, some (.error (.genericError 2 e.display)))
    | .ok f => l.transferFrozen caller f now

end MockLedger

def TransferError.isDuplicate : TransferError → Bool | .duplicate _ => true | _ => false

namespace MockLedger

/-- What a transfer with this fingerprint does to the ledger, and what it replies. -/
inductive Transferred (l : MockLedger Digest) (caller : Principal) (h : Digest) :
    MockLedger Digest → Option TransferResult → Prop
  | refused (e : TransferError) (hd : e.isDuplicate = false) :
      Transferred l caller h l (some (.error e))
  | repeated (old : Lookup Digest) (hold : l.records[(caller, h)]? = some old) :
      Transferred l caller h l ((parseU64 old.blockIndex).map fun n => .error (.duplicate n.toNat))
  | committed (left : U128) (reply : Option TransferResult)
      (hnew : l.records[(caller, h)]? = none)
      (hreply : reply = none ∨ reply = some (.ok l.next.toNat)) :
      Transferred l caller h (l.commit caller h left) reply

/-- Each record carries the fingerprint it is stored under and the number of a block. -/
def Indexed (l : MockLedger Digest) : Prop :=
  ∀ (key : Principal × Digest) v, l.records[key]? = some v →
    v.frozenHash = key.2 ∧ ∃ n : UInt64, v.blockIndex = toString n.toNat

variable {l l' : MockLedger Digest} {self caller : Principal} {f : FrozenTransfer Digest}
  {arg : TransferArg} {now : UInt64} {h : Digest} {reply : Option TransferResult}

theorem balanceAfter_not_duplicate {e : TransferError}
    (he : l.balanceAfter caller f now = .error e) :
    e.isDuplicate = false := by
  simp only [balanceAfter, bind_eq_error, rejectIf_eq_error] at he
  rcases he with ⟨_, rfl⟩ | ⟨_, _, ⟨_, rfl⟩ | ⟨_, _, ⟨_, rfl⟩ | ⟨_, _, ⟨_, rfl⟩ |
    ⟨_, _, ⟨_, rfl⟩ | ⟨_, _, he⟩⟩⟩⟩⟩
  any_goals rfl
  split at he
  · cases he; rfl
  · rw [bind_eq_error] at he
    rcases he with he | ⟨_, _, he⟩
    · obtain ⟨_, rfl⟩ := rejectIf_eq_error.mp he; rfl
    · cases he

theorem transferFrozen_spec (l : MockLedger Digest) (caller : Principal)
    (f : FrozenTransfer Digest) (now : UInt64) :
    Transferred l caller f.digest (l.transferFrozen caller f now).1
      (l.transferFrozen caller f now).2 := by
  unfold transferFrozen
  split
  · next old hold => exact .repeated old hold
  · next hnew =>
    split
    · next e he => exact .refused e (balanceAfter_not_duplicate he)
    · next left _ =>
      refine .committed left _ hnew ?_
      split
      · exact .inl rfl
      · exact .inr rfl

/-- Whatever the argument is, a call has one of the three effects for some fingerprint. -/
theorem icrc1Transfer_spec (l : MockLedger Digest) (self caller : Principal) (arg : TransferArg)
    (now : UInt64) : ∃ h, Transferred l caller h (l.icrc1Transfer self caller arg now).1
      (l.icrc1Transfer self caller arg now).2 := by
  unfold icrc1Transfer
  split
  · exact ⟨Hashing.zero, .refused _ rfl⟩
  · split
    · exact ⟨Hashing.zero, .refused _ rfl⟩
    · next f _ => exact ⟨f.digest, transferFrozen_spec l caller f now⟩

/-- A frozen transfer is executed under its own fingerprint. -/
theorem icrc1Transfer_toIcrc (hf : f.proposal.validate = .ok ()) (l : MockLedger Digest)
    (caller : Principal) (now : UInt64) :
    Transferred l caller f.digest
      (l.icrc1Transfer f.proposal.ledger caller (toIcrc f) now).1
      (l.icrc1Transfer f.proposal.ledger caller (toIcrc f) now).2 := by
  unfold icrc1Transfer
  split
  · exact .refused _ rfl
  · rw [fromIcrc_toIcrc hf]
    exact transferFrozen_spec l caller f now

/-- A lookup of a frozen transfer finds the record under its fingerprint, if any. -/
theorem lookup_toIcrc_some {l : MockLedger Digest} {caller : Principal} {v : Lookup Digest}
    (hv : l.lookup f.proposal.ledger caller (toIcrc f) = some v) :
    l.records[(caller, f.digest)]? = some v := by
  unfold lookup at hv
  split at hv
  · cases hv
  · next f' hf => rw [← fromIcrc_toIcrc_unique hf, hv]

/-- A record is never removed or replaced. -/
theorem Transferred.records_stay (ht : Transferred l caller h l' reply)
    {key : Principal × Digest} {v : Lookup Digest} (hv : l.records[key]? = some v) :
    l'.records[key]? = some v := by
  cases ht with
  | refused => exact hv
  | repeated => exact hv
  | committed left reply hnew =>
    show (l.records.insert (caller, h) _)[key]? = some v
    rw [get_insert_ne _ (by rintro rfl; rw [hnew] at hv; cases hv), hv]

/-- A record that is new is the one of this call, and the call did not reply with an error. -/
theorem Transferred.record_born (ht : Transferred l caller h l' reply)
    {key : Principal × Digest} {v : Lookup Digest} (hn : l.records[key]? = none)
    (hv : l'.records[key]? = some v) :
    key = (caller, h) ∧ (reply = none ∨ ∃ n, reply = some (.ok n)) := by
  cases ht with
  | refused => rw [hn] at hv; cases hv
  | repeated => rw [hn] at hv; cases hv
  | committed left reply _ hreply =>
    have hv : (l.records.insert (caller, h) _)[key]? = some v := hv
    rw [get_insert] at hv
    split at hv
    · next he => exact ⟨he, hreply.imp id fun hr => ⟨_, hr⟩⟩
    · rw [hn] at hv; cases hv

/-- A call that reports a block, old or new, leaves a record behind. -/
theorem Transferred.reported (ht : Transferred l caller h l' reply) {res : TransferResult}
    (hr : reply = some res) (hres : ∀ e, res = .error e → e.isDuplicate = true) :
    ∃ v, l'.records[(caller, h)]? = some v := by
  cases ht with
  | refused e hd =>
    cases hr
    rw [hres e rfl] at hd
    cases hd
  | repeated old hold => exact ⟨old, hold⟩
  | committed => exact ⟨_, get_insert_self ..⟩

/-- The blocks a call reports are numbered by 64-bit words. -/
theorem Transferred.numbered (ht : Transferred l caller h l' reply) {n : ℕ}
    (hr : reply = some (.ok n) ∨ reply = some (.error (.duplicate n))) : n < 2 ^ 64 := by
  cases ht with
  | refused e hd =>
    rcases hr with hr | hr <;> cases hr
    cases hd
  | repeated old =>
    simp only [Option.map_eq_some_iff] at hr
    rcases hr with ⟨_, _, hr⟩ | ⟨u, _, hr⟩ <;> cases hr
    exact u.toNat_lt
  | committed left reply _ hreply =>
    rcases hreply with rfl | rfl <;> rcases hr with hr | hr <;> cases hr
    exact l.next.toNat_lt

theorem indexed_new (owner : Principal) : (new owner : MockLedger Digest).Indexed := by
  intro key v hv
  simp [new] at hv

theorem Transferred.indexed (ht : Transferred l caller h l' reply) (hi : l.Indexed) :
    l'.Indexed := by
  cases ht with
  | refused => exact hi
  | repeated => exact hi
  | committed => exact forall_insert hi ⟨rfl, l.next, rfl⟩

end MockLedger

end IcLaya
