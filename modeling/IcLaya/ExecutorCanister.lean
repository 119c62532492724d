import IcLaya.InvariantChecks
import IcLaya.SlotEvaluations
import IcLaya.SnapshotLayout

/-!
# The executor canister (`executor/src/lib.rs`)

The state and its snapshot in stable memory. A call commits the state it leaves where the invariants
hold and the snapshot can be written, and traps otherwise. An upgrade carries over what the snapshot
holds; it is refused as long as a transfer is open. The serializer is a parameter.
-/
namespace IcLaya
open BinaryCodecs ByteFrames CanisterCommon Fallible OrderedMaps PagedMemory PanickingCode Storage
open Std (ExtTreeMap)
open TransitionSystems

variable {Digest : Type}

section State
variable [Hashing Digest] (s : ExecutorState Digest)

/-- A transfer whose outcome is open. -/
def ExecutorState.unresolved : Bool := (values s.requests).any fun r => r.status.outstanding

theorem ExecutorState.unresolved_iff : s.unresolved = true ↔
    ∃ (k : Digest) (r : RequestRecord Digest), s.requests[k]? = some r ∧
      r.status.outstanding = true := by
  simp only [unresolved, List.any_eq_true, mem_values]
  constructor
  · rintro ⟨r, ⟨k, hr⟩, hout⟩
    exact ⟨k, r, hr, hout⟩
  · rintro ⟨k, r, hr, hout⟩
    exact ⟨r, ⟨k, hr⟩, hout⟩

/-- Where nothing is open, no record is. -/
theorem ExecutorState.resolved {s : ExecutorState Digest} (h : s.unresolved = false) {k : Digest}
    {r : RequestRecord Digest} (hr : s.requests[k]? = some r) : r.status.outstanding = false := by
  rw [← Bool.not_eq_true, unresolved_iff] at h
  exact Bool.eq_false_iff.mpr fun hout => h ⟨k, r, hr, hout⟩

/-- A record that is evaluated waits for an evaluation. -/
def ExecutorState.Asking : Prop :=
  ∀ (k : Digest) r, s.requests[k]? = some r → r.status = .evaluating → r.pending.isSome = true

end State

variable [ByteDigest Digest]

theorem values_map {κ ν μ : Type} [Ord κ] [Std.TransOrd κ] [Std.LawfulEqOrd κ]
    (m : ExtTreeMap κ ν) (f : ν → μ) : values (m.map fun _ v => f v) = (values m).map f := by
  simp only [values, ExtTreeMap.toList_map, List.map_map, Function.comp_def]

namespace RequestRecord
omit [ByteDigest Digest]
variable (r : RequestRecord Digest)

@[simp] theorem recover_outstanding : r.recover.status.outstanding = r.status.outstanding := by
  unfold recover
  split
  · next h => rw [h]; rfl
  · next h => rw [h]; rfl
  · rfl

@[simp] theorem recover_isSucceeded : r.recover.status.isSucceeded = r.status.isSucceeded := by
  unfold recover
  split
  · next h => rw [h]; rfl
  · next h => rw [h]; rfl
  · rfl

@[simp] theorem recover_reservation : r.recover.reservation = r.reservation := by
  unfold recover
  split <;> rfl

end RequestRecord

namespace ExecutorState
variable {s s' : ExecutorState Digest} {r : RequestRecord Digest}

theorem Asking.insert {k : Digest} (h : s.Asking) (hs : s'.requests = s.requests.insert k r)
    (hr : r.status = .evaluating → r.pending.isSome = true) : s'.Asking := by
  unfold Asking
  rw [hs]
  exact forall_insert h hr

theorem asking_new (self owner engine : Principal) :
    (new self owner engine : ExecutorState Digest).Asking := by
  intro k r hr
  simp [new] at hr

theorem Asking.step (h : s.Asking) (op : Op Digest) : (s.step op).Asking := by
  have hok : ∀ {α : Type} (f : α → ExecutorState Digest) (x : Result α),
      (∀ a, x = .ok a → (f a).Asking) → (s.commit f x).Asking := by
    intro α f x hx
    cases x with
    | error e => exact h
    | ok a => exact hx a rfl
  cases op with
  | setMode caller mode =>
    refine hok _ _ fun s' hs => ?_
    obtain ⟨_, rfl⟩ := setMode_eq_ok hs
    exact h
  | setPaused caller pause =>
    refine hok _ _ fun s' hs => ?_
    rw [setPaused_eq_ok hs]
    exact h
  | addMockLedger caller ledger =>
    refine hok _ _ fun s' hs => ?_
    obtain ⟨ledgers, rfl⟩ := addMockLedger_eq_ok hs
    exact h
  | installPlan caller p =>
    refine hok _ _ fun s' hs => ?_
    obtain ⟨_, rfl | ⟨_, rfl⟩⟩ := installPlan_eq_ok hs <;> exact h
  | installOperation caller o =>
    refine hok _ _ fun s' hs => ?_
    obtain ⟨_, _, _, _, rfl⟩ := installOperation_eq_ok hs
    exact h
  | reviseOperation caller k evidence =>
    refine hok _ _ fun s' hs => ?_
    obtain ⟨_, _, _, _, _, _, rfl⟩ := reviseOperation_eq_ok hs
    exact h
  | installGrant caller g =>
    refine hok _ _ fun s' hs => ?_
    obtain ⟨_, _, _, _, _, _, rfl⟩ := installGrant_eq_ok hs
    exact h
  | revoke caller k =>
    refine hok _ _ fun s' hs => ?_
    obtain ⟨_, _, _, _, rfl⟩ := revoke_eq_ok hs
    exact h
  | submit caller nonce operation grant now =>
    refine hok _ _ fun ⟨s', id⟩ hs => ?_
    obtain ⟨_, ⟨rfl, _⟩ | ⟨o, g, p, expires, next, _, _, _, _, _, _, _, rfl⟩⟩ := submit_eq_ok hs
    · exact h
    · exact h.insert rfl nofun
  | beginEvaluation caller k now =>
    refine hok _ _ fun ⟨s', res⟩ hs => ?_
    obtain ⟨r, -, -, ⟨_, -, -, rfl⟩ | ⟨-, ⟨q, -, -, -, -, rfl⟩ |
      ⟨p, required, o, -, -, -, -, -, rfl⟩⟩⟩ := beginEvaluation_eq_ok hs
    · exact h.insert rfl nofun
    · exact h.insert rfl fun _ => rfl
    · exact h.insert rfl fun _ => rfl
  | engineTransportFailed k evalId =>
    refine hok _ _ fun s' hs => ?_
    obtain ⟨r, q, -, -, -, -, rfl⟩ := engineTransportFailed_eq_ok hs
    refine h.insert rfl ?_
    unfold afterTransportFailure
    split
    · exact nofun
    · exact fun _ => rfl
  | finishEvaluation k evalId result now =>
    refine hok _ _ fun ⟨s', res⟩ hs => ?_
    obtain ⟨r, -, ⟨rfl, -⟩ | ⟨-, -, q, -, -, ⟨_, -, -, rfl⟩ | ⟨p, required, -, -, -, rfl, -⟩⟩⟩ :=
      finishEvaluation_eq_ok hs
    · exact h
    · exact h.insert rfl nofun
    · refine h.insert rfl fun he => ?_
      obtain ⟨_, hst⟩ | hst | hst := afterOutcome_status r p.signals.length
        (judge q.request required result) <;> rw [hst] at he <;> cases he
  | prepareDispatch a now =>
    refine hok _ _ fun ⟨s', res⟩ hs => ?_
    obtain ⟨r, -, -, -, ⟨_, _, rfl⟩ | ⟨_, _, _, _, _, _, _, _, _, _, _, rfl⟩⟩ :=
      prepareDispatch_eq_ok.mp hs
    · exact h.insert rfl nofun
    · exact h.insert rfl nofun
  | finishLedger cmd outcome =>
    refine hok _ _ fun ⟨s', status⟩ hs => ?_
    obtain ⟨r, -, -, -, -, ⟨-, rfl, -⟩ | ⟨-, -, ha⟩⟩ := finishLedger_eq_ok.mp hs
    · exact h
    obtain ⟨success, text, -, -, hrec⟩ | ⟨-, hrec⟩ := applyOutcome_eq_ok.mp ha
    · obtain ⟨_, _, _, _, _, _, _, _, _, _, rfl⟩ := settleRecord_eq_ok.mp hrec
      refine h.insert rfl ?_
      cases success <;> exact nofun
    · obtain ⟨rfl, rfl⟩ := Prod.mk.inj hrec
      exact h.insert rfl nofun
  | retryUnknown caller k now =>
    refine hok _ _ fun ⟨s', cmd⟩ hs => ?_
    obtain ⟨r, f, -, -, -, -, -, -, -, rfl⟩ := retryUnknown_eq_ok hs
    exact h.insert rfl nofun
  | cancel caller k =>
    refine hok _ _ fun s' hs => ?_
    obtain ⟨r, -, -, -, rfl⟩ := cancel_eq_ok hs
    exact h.insert rfl nofun
  | recoverAfterUpgrade =>
    intro k r' hr'
    have hr'' : (s.requests.map fun _ r => r.recover)[k]? = some r' := hr'
    rw [get_map, Option.map_eq_some_iff] at hr''
    obtain ⟨r, hr, rfl⟩ := hr''
    unfold RequestRecord.recover
    split
    · exact nofun
    · exact nofun
    · exact h k r hr

variable (s : ExecutorState Digest)

theorem recover_reservationsOf (g : Digest) :
    s.recoverAfterUpgrade.reservationsOf g = s.reservationsOf g := by
  have hgrant : ∀ r : RequestRecord Digest, r.recover.grant = r.grant := fun r => by
    rw [recover_sameTicket r]
  simp only [reservationsOf, recoverAfterUpgrade, values_map, List.filter_map, List.filterMap_map,
    Function.comp_def, hgrant, RequestRecord.recover_reservation]

theorem recover_checkRequest (r : RequestRecord Digest) :
    s.recoverAfterUpgrade.checkRequest r.recover = s.checkRequest r := by
  have hsame : r.recover.operation = r.operation ∧ r.recover.id = r.id ∧
      r.recover.caller = r.caller ∧ r.recover.nonce = r.nonce := by
    rw [recover_sameTicket r]
    exact ⟨rfl, rfl, rfl, rfl⟩
  obtain ⟨hop, hid, hcaller, hnonce⟩ := hsame
  simp only [checkRequest, recoverAfterUpgrade, hop, hid, hcaller, hnonce,
    RequestRecord.recover_reservation, RequestRecord.recover_outstanding,
    RequestRecord.recover_isSucceeded]

/-- The recovery keeps the invariants. -/
theorem recover_checkInvariants : s.recoverAfterUpgrade.checkInvariants = s.checkInvariants := by
  have hgrants : s.recoverAfterUpgrade.checkGrant = s.checkGrant := by
    funext g
    have hwindow : s.recoverAfterUpgrade.checkWindow g = s.checkWindow g := by
      funext e
      simp only [checkWindow, recover_reservationsOf]
    simp only [checkGrant, recover_reservationsOf, hwindow]
  have hrequests : ∀ rs : List (RequestRecord Digest),
      (rs.map RequestRecord.recover).forM s.recoverAfterUpgrade.checkRequest =
        rs.forM s.checkRequest := by
    intro rs
    induction rs with
    | nil => rfl
    | cons r rs ih => rw [List.map_cons, List.forM, List.forM, recover_checkRequest, ih]
  have hvalues : values s.recoverAfterUpgrade.requests =
      (values s.requests).map RequestRecord.recover := values_map s.requests RequestRecord.recover
  rw [checkInvariants, hgrants, hvalues, hrequests]
  rfl

section Snapshot
open Codec SnapshotLayout

theorem fits_recover {r : RequestRecord Digest} (h : requestRecord.fits r = true) :
    requestRecord.fits r.recover = true := by
  unfold RequestRecord.recover
  split
  · have htext : status.fits (.needsReview "upgrade interrupted inference") = true := by decide
    simp only [requestRecord, fits_record, fits_pair, fits_none, htext, Bool.true_and] at h ⊢
    simp_all only [Bool.and_eq_true, and_self]
  · have htext : status.fits (.outcomeUnknown "upgrade interrupted callback") = true := by decide
    have heverUnknown : Codec.bool.fits true = true := rfl
    simp only [requestRecord, fits_record, fits_pair, htext, heverUnknown, Bool.true_and] at h ⊢
    simp_all only [Bool.and_eq_true, and_self]
  · exact h

/-- The recovery of a record without an open transfer makes its snapshot shorter. -/
theorem size_recover_record {r : RequestRecord Digest}
    (ha : r.status = .evaluating → r.pending.isSome = true) (ho : r.status.outstanding = false) :
    requestRecord.size r.recover ≤ requestRecord.size r := by
  unfold RequestRecord.recover
  split
  · next hs =>
    obtain ⟨q, hq⟩ := Option.isSome_iff_exists.mp (ha hs)
    have hreview : status.size (.needsReview "upgrade interrupted inference") = 41 := by decide
    have hevaluating : status.size .evaluating = 4 := rfl
    have hpending : 37 ≤ pendingEvaluation.size q := by
      simp only [pendingEvaluation, decisionRequest, digest, size_record, size_pair, size_fixed,
        size_u64, size_text]
      omega
    simp only [requestRecord, size_record, size_pair, hs, hq, size_none, size_some, hreview,
      hevaluating]
    omega
  · next hs =>
    rw [hs] at ho
    cases ho
  · exact Nat.le_refl _

theorem Asking.size_recover (h : s.Asking) (ho : s.unresolved = false) :
    executorState.size s.recoverAfterUpgrade ≤ executorState.size s := by
  have hrequests := size_map_le digest requestRecord fun k r hr =>
    size_recover_record (h k r hr) (resolved ho hr)
  simp only [executorState, size_record, size_pair, recoverAfterUpgrade, size_bool]
  omega

theorem fits_recoverAfterUpgrade (h : executorState.fits s = true) :
    executorState.fits s.recoverAfterUpgrade = true := by
  simp only [executorState, fits_record, fits_pair, recoverAfterUpgrade, Bool.and_eq_true] at h ⊢
  obtain ⟨hinstance, howner, hengine, hmode, -, hplans, hoperations, hgrants, hrequests, hrest⟩ := h
  exact ⟨hinstance, howner, hengine, hmode, rfl, hplans, hoperations, hgrants,
    fits_map digest requestRecord (fun _ => fits_recover) hrequests, hrest⟩

/-- What `bincode` promises with integers of fixed width: it reads back what it has written, and a
value whose lengths can be written down takes as many bytes as its parts do. -/
structure FixedWidth (bincode : Bincode (ExecutorState Digest)) : Prop where
  inverts : bincode.Inverts
  lengths : ∀ s, (bincode.serialize s).map List.length =
    if executorState.fits s = true then some (executorState.size s) else none

theorem FixedWidth.length {bincode : Bincode (ExecutorState Digest)} (hb : FixedWidth bincode)
    {s : ExecutorState Digest} {body : List UInt8} (h : bincode.serialize s = some body) :
    executorState.fits s = true ∧ body.length = executorState.size s := by
  have hlengths := hb.lengths s
  rw [h, Option.map_some] at hlengths
  split at hlengths
  · next hfits => exact ⟨hfits, Option.some.inj hlengths⟩
  · cases hlengths

theorem FixedWidth.writes {bincode : Bincode (ExecutorState Digest)} (hb : FixedWidth bincode)
    {s : ExecutorState Digest} (h : executorState.fits s = true) :
    ∃ body, bincode.serialize s = some body ∧ body.length = executorState.size s := by
  have hlengths := hb.lengths s
  rw [if_pos h] at hlengths
  exact Option.map_eq_some_iff.mp hlengths

theorem fixedWidth :
    FixedWidth (SnapshotLayout.bincode executorState : Bincode (ExecutorState Digest)) := by
  refine ⟨bincode_inverts _, fun s => ?_⟩
  simp only [SnapshotLayout.bincode, apply_ite (Option.map List.length), Option.map_some,
    Option.map_none]
  rfl

/-- The snapshot after the recovery is not longer than the one before it. -/
theorem Asking.encode_recover {bincode : Bincode (ExecutorState Digest)} (hb : FixedWidth bincode)
    (h : s.Asking) (ho : s.unresolved = false) {bytes : List UInt8}
    (he : encode (D := Digest) bincode s = .ok bytes) :
    ∃ bytes', encode (D := Digest) bincode s.recoverAfterUpgrade = .ok bytes' ∧
      bytes'.length ≤ bytes.length := by
  obtain ⟨body, hserialize, hlen, rfl⟩ := encode_eq_ok.mp he
  obtain ⟨hfits, hbody⟩ := hb.length hserialize
  obtain ⟨body', hserialize', hbody'⟩ := hb.writes (fits_recoverAfterUpgrade s hfits)
  have hle : body'.length ≤ body.length := by
    rw [hbody', hbody]
    exact h.size_recover s ho
  refine ⟨_, encode_eq_ok.mpr ⟨body', hserialize', hle.trans hlen, rfl⟩, ?_⟩
  simp only [List.length_append, length_beBytes, ByteDigest.length_toBytes]
  omega

end Snapshot

end ExecutorState

structure ExecutorCanister (Digest : Type) [Hashing Digest] where
  state : ExecutorState Digest
  memory : Memory

/-- A message, or an upgrade, and the pages that the system grants meanwhile. -/
inductive ExecutorMessage (Digest : Type) [Ord Digest]
  | call (op : Op Digest) (grants : ℕ → Bool)
  | upgrade (grants : ℕ → Bool)

namespace ExecutorCanister
variable (bincode : Bincode (ExecutorState Digest)) (t : Target) (grants : ℕ → Bool)
  (c : ExecutorCanister Digest)

/-- `persist_or_trap`, behind the check of the invariants. -/
def commit (s : ExecutorState Digest) (m : Memory) : Option (ExecutorCanister Digest) :=
  match s.checkInvariants, save (D := Digest) bincode grants s m with
  | .ok _, .ok m => some ⟨s, m⟩
  | _, _ => none

def init (self owner engine : Principal) : Option (ExecutorCanister Digest) :=
  if owner = .anonymous ∨ owner = .managementCanister ∨ engine = .anonymous ∨
      engine = .managementCanister then none
  else
    let s : ExecutorState Digest := .new self owner engine
    match save (D := Digest) bincode grants s .empty with
    | .ok m => some ⟨s, m⟩
    | .error _ => none

def mutate (op : Op Digest) : Option (ExecutorCanister Digest) :=
  commit bincode grants (c.state.step op) c.memory

def preUpgrade : Option Memory :=
  if c.state.unresolved then none
  else
    match save (D := Digest) bincode grants c.state c.memory with
    | .ok m => some m
    | .error _ => none

def postUpgrade (m : Memory) : Option (ExecutorCanister Digest) :=
  match restore (D := Digest) bincode t m with
  | .ok s => commit bincode grants s.recoverAfterUpgrade m
  | .error _ => none

def upgrade : Option (ExecutorCanister Digest) :=
  (c.preUpgrade bincode grants).bind (postUpgrade bincode t grants)

/-- The canister after a message; one that traps changes nothing, and the recovery is no message. -/
def step : ExecutorMessage Digest → ExecutorCanister Digest
  | .call .recoverAfterUpgrade _ => c
  | .call op grants => (c.mutate bincode grants op).getD c
  | .upgrade grants => (c.upgrade bincode t grants).getD c

/-- The state passes its checks, and its snapshot lies in memory. -/
structure Durable : Prop where
  checked : c.state.checkInvariants = .ok ()
  asking : c.state.Asking
  saved : ∃ bytes, encode (D := Digest) bincode c.state = .ok bytes ∧ Stored c.memory bytes

variable {bincode t grants c} {c' : ExecutorCanister Digest} {s : ExecutorState Digest} {m : Memory}

theorem Durable.of_save {m' : Memory} (hc : s.checkInvariants = .ok ()) (ha : s.Asking)
    (h : save (D := Digest) bincode grants s m = .ok m') : Durable bincode ⟨s, m'⟩ := by
  obtain ⟨bytes, hencode, hstored, -⟩ := save_eq_ok h
  exact ⟨hc, ha, bytes, hencode, hstored⟩

theorem Durable.restore (hb : bincode.Inverts) (h : Durable bincode c) (t : Target) :
    CanisterCommon.restore (D := Digest) bincode t c.memory = .ok c.state := by
  obtain ⟨bytes, hencode, hstored⟩ := h.saved
  exact restore_of_stored hb t hencode hstored

theorem commit_eq_some : commit bincode grants s m = some c' ↔ s.checkInvariants = .ok () ∧
    ∃ m', save (D := Digest) bincode grants s m = .ok m' ∧ c' = ⟨s, m'⟩ := by
  unfold commit
  split
  · next m' hc hs => simp [hc, hs, eq_comm]
  · next hn =>
    simp only [reduceCtorEq, false_iff, not_and, not_exists]
    exact fun hc m' hs _ => hn () m' hc hs

theorem durable_of_commit (ha : s.Asking) (h : commit bincode grants s m = some c') :
    Durable bincode c' ∧ c'.state = s := by
  obtain ⟨hc, m', hsave, rfl⟩ := commit_eq_some.mp h
  exact ⟨.of_save hc ha hsave, rfl⟩

theorem durable_init {self owner engine : Principal}
    (h : init bincode grants self owner engine = some c) : Durable bincode c := by
  unfold init at h
  split at h
  · cases h
  · dsimp only at h
    split at h
    · next m hsave =>
      cases h
      exact .of_save (ExecutorState.valid_new self owner engine).checkInvariants
        (ExecutorState.asking_new self owner engine) hsave
    · cases h

/-- An open transfer keeps the canister from being upgraded. -/
theorem upgrade_unresolved (ho : c.state.unresolved = true) :
    c.upgrade bincode t grants = none := by
  rw [upgrade, preUpgrade, if_pos ho]
  rfl

/-- Without one it is, and no page is asked for. -/
theorem Durable.upgrade (hb : ExecutorState.FixedWidth bincode) (h : Durable bincode c) (t : Target)
    (grants : ℕ → Bool) (ho : c.state.unresolved = false) :
    ∃ c', c.upgrade bincode t grants = some c' ∧ Durable bincode c' ∧
      c'.state = c.state.recoverAfterUpgrade := by
  obtain ⟨bytes, hencode, hstored⟩ := h.saved
  obtain ⟨m, hpre⟩ : ∃ m, save (D := Digest) bincode grants c.state c.memory = .ok m :=
    save_of_fits hencode hstored.grown
  have hbefore : Durable bincode ⟨c.state, m⟩ := .of_save h.checked h.asking hpre
  obtain ⟨bytes', hencode', hstored'⟩ := hbefore.saved
  obtain ⟨after, hafter, hle⟩ := h.asking.encode_recover c.state hb ho hencode'
  obtain ⟨m', hpost⟩ : ∃ m', save (D := Digest) bincode grants c.state.recoverAfterUpgrade m =
      .ok m' := save_of_fits hafter ((Nat.add_le_add_left hle 8).trans hstored'.grown)
  have hcommit : commit bincode grants c.state.recoverAfterUpgrade m =
      some ⟨c.state.recoverAfterUpgrade, m'⟩ := commit_eq_some.mpr
    ⟨(ExecutorState.recover_checkInvariants c.state).trans h.checked, m', hpost, rfl⟩
  obtain ⟨hdurable, -⟩ := durable_of_commit (h.asking.step .recoverAfterUpgrade) hcommit
  refine ⟨_, ?_, hdurable, rfl⟩
  rw [ExecutorCanister.upgrade, preUpgrade, if_neg (Bool.not_eq_true _ ▸ ho), hpre]
  show postUpgrade bincode t grants m = _
  rw [postUpgrade, hbefore.restore hb.inverts t]
  exact hcommit

theorem Durable.step (hb : ExecutorState.FixedWidth bincode) (h : Durable bincode c)
    (e : ExecutorMessage Digest) : Durable bincode (c.step bincode t e) := by
  have hget : ∀ x : Option (ExecutorCanister Digest), (∀ c', x = some c' → Durable bincode c') →
      Durable bincode (x.getD c) := by
    intro x hx
    cases x with
    | none => exact h
    | some c' => exact hx c' rfl
  cases e with
  | call op grants =>
    have hmutate := hget _ fun c' (hc' : c.mutate bincode grants op = some c') =>
      (durable_of_commit (h.asking.step op) hc').1
    cases op <;> first | exact h | exact hmutate
  | upgrade grants =>
    refine hget _ fun c' hc' => ?_
    cases ho : c.state.unresolved with
    | true => cases (upgrade_unresolved ho).symm.trans hc'
    | false =>
      obtain ⟨c₁, hup, hdurable, -⟩ := h.upgrade hb t grants ho
      cases hup.symm.trans hc'
      exact hdurable

/-- A canister that some messages and upgrades reach from its installation. -/
def Reachable (bincode : Bincode (ExecutorState Digest)) (t : Target)
    (c : ExecutorCanister Digest) : Prop :=
  ∃ grants self owner engine c₀ es, init bincode grants self owner engine = some c₀ ∧
    c = run (step bincode t) c₀ es

theorem durable_of_reachable (hb : ExecutorState.FixedWidth bincode) (h : Reachable bincode t c) :
    Durable bincode c := by
  obtain ⟨grants, self, owner, engine, c₀, es, hinit, rfl⟩ := h
  exact run_invariant (Durable bincode) (fun c e hc => hc.step hb e) (durable_init hinit) es

/-- In every reachable state the checks pass and the snapshot is the state. An upgrade is refused
exactly where a transfer is open; otherwise it completes whatever pages the system grants, and keeps
every record but those whose evaluation it interrupts. -/
theorem upgrade_keeps_records (hb : ExecutorState.FixedWidth bincode) (h : Reachable bincode t c)
    (grants : ℕ → Bool) :
    c.state.checkInvariants = .ok () ∧
    CanisterCommon.restore (D := Digest) bincode t c.memory = .ok c.state ∧
    (c.upgrade bincode t grants = none ↔ ∃ (k : Digest) (r : RequestRecord Digest),
      c.state.requests[k]? = some r ∧ r.status.outstanding = true) ∧
    ∀ c', c.upgrade bincode t grants = some c' → c'.state = c.state.recoverAfterUpgrade ∧
      CanisterCommon.restore (D := Digest) bincode t c'.memory = .ok c'.state ∧
      ∀ (k : Digest) r, c.state.requests[k]? = some r → r.status ≠ .evaluating →
        c'.state.requests[k]? = some r := by
  have hc := durable_of_reachable hb h
  refine ⟨hc.checked, hc.restore hb.inverts t, ⟨fun hnone => ?_, fun hout =>
    upgrade_unresolved ((ExecutorState.unresolved_iff _).mpr hout)⟩, fun c' hc' => ?_⟩
  · rw [← ExecutorState.unresolved_iff, ← Bool.not_eq_false]
    intro ho
    obtain ⟨c₁, hup, -⟩ := hc.upgrade hb t grants ho
    cases hup.symm.trans hnone
  · have ho : c.state.unresolved = false := Bool.eq_false_iff.mpr fun hout => by
      cases (upgrade_unresolved hout).symm.trans hc'
    obtain ⟨c₁, hup, hdurable, hstate⟩ := hc.upgrade hb t grants ho
    cases hup.symm.trans hc'
    refine ⟨hstate, hdurable.restore hb.inverts t, fun k r hr he => ?_⟩
    have hkept : r.recover = r := by
      unfold RequestRecord.recover
      split
      · next hs => exact absurd hs he
      · next hs =>
        have hout := ExecutorState.resolved ho hr
        rw [hs] at hout
        cases hout
      · rfl
    rw [hstate]
    exact (get_map c.state.requests RequestRecord.recover k).trans (by rw [hr, Option.map_some, hkept])

/-! The deployment of the sample, upgraded while its engine is asked. -/
namespace Sample
open EvaluationSystem.Sample (vetting invoice allowance payment installing)
open IcLaya.Sample (owner engine self delegate)
open Sha256 (Checksum)

def linked : Bincode (ExecutorState Checksum) := SnapshotLayout.bincode SnapshotLayout.executorState

def operations : List (Op Checksum) :=
  installing ++ [.submit delegate 0 invoice.id allowance.id 5000,
    .beginEvaluation delegate payment 6000]

def messages : List (ExecutorMessage Checksum) := operations.map fun op => .call op fun _ => true

/-- The messages leave a record whose evaluation is open, and no open transfer. -/
theorem asks : ∃ (c : ExecutorCanister Checksum) (r : RequestRecord Checksum),
    init linked (fun _ => true) self owner engine = some c ∧
    (run (step linked .bits32) c messages).state.requests[payment]? = some r ∧
    r.status = .evaluating ∧ (run (step linked .bits32) c messages).state.unresolved = false := by
  have h : ((init linked (fun _ => true) self owner engine).bind fun c =>
      let c := run (step linked .bits32) c messages
      (c.state.requests[payment]?).filter fun r =>
        decide (r.status = .evaluating) && !c.state.unresolved).isSome = true := by
    decide +kernel
  obtain ⟨r, hr⟩ := Option.isSome_iff_exists.mp h
  obtain ⟨c, hinit, hr⟩ := Option.bind_eq_some_iff.mp hr
  simp only [Option.filter_eq_some_iff, Bool.and_eq_true, decide_eq_true_eq,
    Bool.not_eq_true'] at hr
  obtain ⟨hr, hstatus, ho⟩ := hr
  exact ⟨c, r, hinit, hr, hstatus, ho⟩

end Sample

open ExecutorCanister.Sample in
/-- The upgrade completes without a page, and the request is asked for again. -/
theorem upgrade_keeps_records_interrupted : ∃ (c c' : ExecutorCanister Sha256.Checksum)
    (r : RequestRecord Sha256.Checksum),
    init linked (fun _ => true) IcLaya.Sample.self IcLaya.Sample.owner IcLaya.Sample.engine = some c ∧
    (run (step linked .bits32) c messages).upgrade linked .bits32 (fun _ => false) = some c' ∧
    c'.state.requests[EvaluationSystem.Sample.payment]? = some r ∧
    r.status = .needsReview "upgrade interrupted inference" ∧
    CanisterCommon.restore (D := Sha256.Checksum) linked .bits32 c'.memory = .ok c'.state := by
  obtain ⟨c, r, hinit, hr, hstatus, ho⟩ := asks
  have hreach : Reachable linked .bits32 (run (step linked .bits32) c messages) :=
    ⟨_, _, _, _, c, messages, hinit, rfl⟩
  have hlinked : ExecutorState.FixedWidth linked := ExecutorState.fixedWidth
  obtain ⟨-, -, hrefused, hkeeps⟩ := upgrade_keeps_records hlinked hreach fun _ => false
  cases hup : (run (step linked .bits32) c messages).upgrade linked .bits32 (fun _ => false) with
  | none =>
    obtain ⟨k, r', hr', hout⟩ := hrefused.mp hup
    cases ho.symm.trans ((ExecutorState.unresolved_iff _).mpr ⟨k, r', hr', hout⟩)
  | some c' =>
    obtain ⟨hstate, hrestore, -⟩ := hkeeps c' hup
    have hrecover : c'.state.requests[EvaluationSystem.Sample.payment]? = some r.recover := by
      rw [hstate]
      exact (get_map _ RequestRecord.recover _).trans (by rw [hr, Option.map_some])
    refine ⟨c, c', r.recover, hinit, hup, hrecover, ?_, hrestore⟩
    rw [RequestRecord.recover, hstatus]

end ExecutorCanister

end IcLaya
