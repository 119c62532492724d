import IcLaya.RevocationFinality

/-!
# The owner's revocation

A revocation counts the revision of its grant up before it marks it as revoked, and an installed
grant brings any revision but zero. The revision at the end of a run is bounded by the one that was
installed and the revocations in between, and the owner is refused at the largest revision only.
-/
namespace IcLaya
open CheckedWords Fallible OrderedMaps TransitionSystems

variable {Digest : Type} [Hashing Digest]

/-- How often a run calls for the revocation of a grant. -/
def Op.revocations (k : Digest) (ops : List (Op Digest)) : ℕ :=
  ops.countP fun | .revoke _ id => decide (id = k) | _ => false

namespace ExecutorState

/-- The owner's call revokes the grant and counts its revision up. -/
def OwnerRevokes (s : ExecutorState Digest) (k : Digest) (g : Grant Digest) : Prop :=
  ∃ s' g', s.revoke s.owner k = .ok s' ∧ s'.grants[k]? = some g' ∧ g'.revoked = true ∧
    g.revision < g'.revision

/-- The grants and the owner after one call. -/
structure GrantStep (s : ExecutorState Digest) (op : Op Digest) (s' : ExecutorState Digest) :
    Prop where
  owner : s'.owner = s.owner
  grant : ∀ k g', s'.grants[k]? = some g' → g'.id = k ∧
    ((∃ caller, op = .installGrant caller g' ∧ s.owner ≠ .anonymous) ∨
      ∃ g, s.grants[k]? = some g ∧ (g'.revision = g.revision ∨
        (∃ caller, op = .revoke caller k) ∧ g'.revision.toNat = g.revision.toNat + 1))

/-- Every grant is filed under its own id. -/
def GrantsFiled (s : ExecutorState Digest) : Prop :=
  ∀ (k : Digest) (g : Grant Digest), s.grants[k]? = some g → g.id = k

section Steps
variable {s s' : ExecutorState Digest} {op : Op Digest}

theorem GrantStep.same (h : s.GrantsFiled) (ho : s'.owner = s.owner) (hg : s'.grants = s.grants) :
    GrantStep s op s' := by
  refine ⟨ho, fun k g hk => ?_⟩
  rw [hg] at hk
  exact ⟨h k g hk, .inr ⟨g, hk, .inl rfl⟩⟩

/-- A grant is replaced by one of the same revision. -/
theorem GrantStep.replace (h : s.GrantsFiled) {k : Digest} {g g' : Grant Digest}
    (hg : s.grants[k]? = some g) (hid : g'.id = g.id) (hrev : g'.revision = g.revision)
    (ho : s'.owner = s.owner) (hs : s'.grants = s.grants.insert g'.id g') : GrantStep s op s' := by
  refine ⟨ho, fun i v hv => ?_⟩
  have hkey : g'.id = k := hid.trans (h k g hg)
  rw [hs, hkey, get_insert] at hv
  by_cases hi : i = k
  · rw [if_pos hi] at hv
    cases hv
    subst hi
    exact ⟨hkey, .inr ⟨g, hg, .inl hrev⟩⟩
  · rw [if_neg hi] at hv
    exact ⟨h i v hv, .inr ⟨v, hv, .inl rfl⟩⟩

theorem grantStep_installGrant (h : s.GrantsFiled) {caller : Principal} {g : Grant Digest}
    (hs : s.installGrant caller g = .ok s') : GrantStep s (.installGrant caller g) s' := by
  have howner : s.owner ≠ .anonymous := by
    obtain ⟨_, ha, _⟩ := bind_eq_ok.mp hs
    obtain ⟨rfl, hne⟩ := assertOwner_eq_ok.mp ha
    exact hne
  obtain ⟨_, _, _, _, _, _, rfl⟩ := installGrant_eq_ok hs
  refine ⟨rfl, fun k v hv => ?_⟩
  rw [get_insert] at hv
  by_cases hk : k = g.id
  · rw [if_pos hk] at hv
    cases hv
    exact ⟨hk.symm, .inl ⟨caller, rfl, howner⟩⟩
  · rw [if_neg hk] at hv
    exact ⟨h k v hv, .inr ⟨v, hv, .inl rfl⟩⟩

theorem grantStep_revoke (h : s.GrantsFiled) {caller : Principal} {k : Digest}
    (hs : s.revoke caller k = .ok s') : GrantStep s (.revoke caller k) s' := by
  obtain ⟨g, rev, hg, hrev, rfl⟩ := revoke_eq_ok hs
  refine ⟨rfl, fun i v hv => ?_⟩
  rw [get_insert] at hv
  by_cases hi : i = k
  · rw [if_pos hi] at hv
    cases hv
    subst hi
    exact ⟨h i g hg, .inr ⟨g, hg, .inr ⟨⟨caller, rfl⟩, hrev⟩⟩⟩
  · rw [if_neg hi] at hv
    exact ⟨h i v hv, .inr ⟨v, hv, .inl rfl⟩⟩

theorem grantStep_prepareDispatch (h : s.GrantsFiled) {a : AuthorizedTransfer Digest}
    {now : UInt64} {res : Result (DispatchCommand Digest)}
    (hs : s.prepareDispatch a now = .ok (s', res)) : GrantStep s (.prepareDispatch a now) s' := by
  obtain ⟨r, _, _, _, ⟨_, _, rfl⟩ | ⟨_, o, g, g', c, _, _, hg, _, hv, _, rfl⟩⟩ :=
    prepareDispatch_eq_ok.mp hs
  · exact .same h rfl rfl
  · have hsame : g'.id = g.id ∧ g'.revision = g.revision := by
      obtain ⟨_, _, _, _, _, _, _, rfl⟩ := Grant.reserve_eq_ok.mp hv
      exact ⟨rfl, rfl⟩
    exact .replace h hg hsame.1 hsame.2 rfl rfl

theorem grantStep_finishLedger (h : s.GrantsFiled) {cmd : DispatchCommand Digest}
    {outcome : LedgerOutcome} {status : Status} (hs : s.finishLedger cmd outcome = .ok (s', status)) :
    GrantStep s (.finishLedger cmd outcome) s' := by
  obtain ⟨r, _, _, _, _, ⟨_, rfl, _⟩ | ⟨_, _, ha⟩⟩ := finishLedger_eq_ok.mp hs
  · exact .same h rfl rfl
  obtain ⟨success, text, _, _, hrec⟩ | ⟨_, hrec⟩ := applyOutcome_eq_ok.mp ha
  · obtain ⟨v, g, o, g', _, hg, _, _, hse, _, rfl⟩ := settleRecord_eq_ok.mp hrec
    have hsame : g'.id = g.id ∧ g'.revision = g.revision := by
      obtain ⟨_, _, _, _, _, _, _, _, _, _, rfl⟩ := Grant.settle_eq_ok.mp hse
      exact ⟨rfl, rfl⟩
    exact .replace h hg hsame.1 hsame.2 rfl rfl
  · obtain ⟨rfl, rfl⟩ := Prod.mk.inj hrec
    exact .same h rfl rfl

/-- A grant is the one that was there, or is installed by an owner who is not anonymous; only a
revocation changes its revision. -/
theorem grantStep_of_step (h : s.GrantsFiled) (op : Op Digest) : GrantStep s op (s.step op) := by
  have hok : ∀ {α : Type} (f : α → ExecutorState Digest) (x : Result α),
      (∀ a, x = .ok a → GrantStep s op (f a)) → GrantStep s op (s.commit f x) := by
    intro α f x hx
    cases x with
    | error e => exact .same h rfl rfl
    | ok a => exact hx a rfl
  cases op with
  | setMode caller mode =>
    refine hok _ _ fun s' hs => ?_
    obtain ⟨_, rfl⟩ := setMode_eq_ok hs
    exact .same h rfl rfl
  | setPaused caller pause =>
    refine hok _ _ fun s' hs => ?_
    rw [setPaused_eq_ok hs]
    exact .same h rfl rfl
  | addMockLedger caller ledger =>
    refine hok _ _ fun s' hs => ?_
    obtain ⟨_, rfl⟩ := addMockLedger_eq_ok hs
    exact .same h rfl rfl
  | installPlan caller p =>
    refine hok _ _ fun s' hs => ?_
    obtain ⟨_, rfl | ⟨_, rfl⟩⟩ := installPlan_eq_ok hs
    · exact .same h rfl rfl
    · exact .same h rfl rfl
  | installOperation caller o =>
    refine hok _ _ fun s' hs => ?_
    obtain ⟨_, _, _, _, rfl⟩ := installOperation_eq_ok hs
    exact .same h rfl rfl
  | reviseOperation caller k evidence =>
    refine hok _ _ fun s' hs => ?_
    obtain ⟨_, _, _, _, _, _, rfl⟩ := reviseOperation_eq_ok hs
    exact .same h rfl rfl
  | installGrant caller g => exact hok _ _ fun s' hs => grantStep_installGrant h hs
  | revoke caller k => exact hok _ _ fun s' hs => grantStep_revoke h hs
  | submit caller nonce operation grant now =>
    refine hok _ _ fun ⟨s', id⟩ hs => ?_
    obtain ⟨_, ⟨rfl, _⟩ | ⟨_, _, _, _, _, _, _, _, _, _, _, _, rfl⟩⟩ := submit_eq_ok hs
    · exact .same h rfl rfl
    · exact .same h rfl rfl
  | beginEvaluation caller k now =>
    refine hok _ _ fun ⟨s', res⟩ hs => ?_
    obtain ⟨_, _, _, ⟨_, _, _, rfl⟩ | ⟨_, ⟨_, _, _, _, _, rfl⟩ | ⟨_, _, _, _, _, _, _, _, rfl⟩⟩⟩ :=
      beginEvaluation_eq_ok hs
    · exact .same h rfl rfl
    · exact .same h rfl rfl
    · exact .same h rfl rfl
  | engineTransportFailed k evalId =>
    refine hok _ _ fun s' hs => ?_
    obtain ⟨_, _, _, _, _, _, rfl⟩ := engineTransportFailed_eq_ok hs
    exact .same h rfl rfl
  | finishEvaluation k evalId result now =>
    refine hok _ _ fun ⟨s', res⟩ hs => ?_
    obtain ⟨_, _, ⟨rfl, _⟩ | ⟨_, _, _, _, _, ⟨_, _, _, rfl⟩ | ⟨_, _, _, _, _, rfl, _⟩⟩⟩ :=
      finishEvaluation_eq_ok hs
    · exact .same h rfl rfl
    · exact .same h rfl rfl
    · exact .same h rfl rfl
  | prepareDispatch a now => exact hok _ _ fun ⟨s', res⟩ hs => grantStep_prepareDispatch h hs
  | finishLedger cmd outcome => exact hok _ _ fun ⟨s', status⟩ hs => grantStep_finishLedger h hs
  | retryUnknown caller k now =>
    refine hok _ _ fun ⟨s', cmd⟩ hs => ?_
    obtain ⟨_, _, _, _, _, _, _, _, _, rfl⟩ := retryUnknown_eq_ok hs
    exact .same h rfl rfl
  | cancel caller k =>
    refine hok _ _ fun s' hs => ?_
    obtain ⟨_, _, _, _, rfl⟩ := cancel_eq_ok hs
    exact .same h rfl rfl
  | recoverAfterUpgrade => exact .same h rfl rfl

/-- The owner is refused at the largest revision only. -/
theorem ownerRevokes_iff {k : Digest} {g : Grant Digest} (ho : s.owner ≠ .anonymous)
    (hg : s.grants[k]? = some g) : s.OwnerRevokes k g ↔ g.revision.toNat < 2 ^ 64 - 1 := by
  constructor
  · rintro ⟨s', g', hs, hg', -, hlt⟩
    obtain ⟨v, rev, hv, hrev, rfl⟩ := revoke_eq_ok hs
    obtain rfl : g = v := Option.some.inj (hg.symm.trans hv)
    have hmax := rev.toNat_lt
    omega
  · intro hlt
    have hfits : g.revision.toNat + (1 : UInt64).toNat < 2 ^ 64 := by
      rw [UInt64.toNat_one]
      omega
    obtain ⟨rev, hrev⟩ : ∃ rev, checkedAdd64 g.revision 1 = some rev := ⟨_, if_pos hfits⟩
    have hn : rev.toNat = g.revision.toNat + 1 := checkedAdd64_eq_some.mp hrev
    refine ⟨{ s with grants := s.grants.insert k { g with revoked := true, revision := rev } },
      { g with revoked := true, revision := rev }, ?_, get_insert_self .., rfl, ?_⟩
    · simp only [revoke, bind_eq_ok, okOr_eq_ok, pure_eq_ok]
      exact ⟨(), assertOwner_eq_ok.mpr ⟨rfl, ho⟩, g, hg, rev, hrev, rfl⟩
    · show g.revision.toNat < rev.toNat
      omega

theorem revoke_capacity {k : Digest} {g : Grant Digest} (ho : s.owner ≠ .anonymous)
    (hg : s.grants[k]? = some g) (hmax : g.revision.toNat = 2 ^ 64 - 1) :
    s.revoke s.owner k = .error .capacity := by
  have hnone : checkedAdd64 g.revision 1 = none := by
    refine if_neg ?_
    rw [UInt64.toNat_one]
    omega
  have howner : s.assertOwner s.owner = .ok () := assertOwner_eq_ok.mpr ⟨rfl, ho⟩
  rw [revoke, howner, ok_bind, hg]
  show (okOr (checkedAdd64 g.revision 1) _ >>= _) = _
  rw [hnone]
  rfl

end Steps

/-- Where a grant of a run comes from. -/
structure Installed (s : ExecutorState Digest) (ops : List (Op Digest)) (k : Digest)
    (g : Grant Digest) : Prop where
  filed : g.id = k
  owner : s.owner ≠ .anonymous
  bounded : ∃ caller g₀, .installGrant caller g₀ ∈ ops ∧ g₀.id = k ∧
    g.revision.toNat ≤ g₀.revision.toNat + Op.revocations k ops

theorem installed_of_run (self owner engine : Principal) (ops : List (Op Digest)) :
    ∀ k g, (run step (new self owner engine) ops).grants[k]? = some g →
      (run step (new self owner engine) ops).Installed ops k g := by
  induction ops using List.reverseRecOn with
  | nil =>
    intro k g hg
    exact absurd hg (by simp [run, new])
  | append_singleton ops op ih =>
    intro k g' hg'
    rw [run_concat] at hg' ⊢
    generalize run step (new self owner engine) ops = s at hg' ih ⊢
    obtain ⟨howner, hgrants⟩ := grantStep_of_step (fun k g hg => (ih k g hg).filed) op
    have hcount : Op.revocations k (ops ++ [op]) = Op.revocations k ops +
        Op.revocations k [op] := List.countP_append
    obtain ⟨hid, ⟨caller, hop, hne⟩ | ⟨g, hg, hrev⟩⟩ := hgrants k g' hg'
    · refine ⟨hid, howner ▸ hne, caller, g', ?_, hid, Nat.le_add_right _ _⟩
      rw [hop]
      exact List.mem_append_right _ List.mem_cons_self
    · obtain ⟨_, hne, caller, g₀, hmem, hid₀, hle⟩ := ih k g hg
      refine ⟨hid, howner ▸ hne, caller, g₀, List.mem_append_left _ hmem, hid₀, ?_⟩
      rw [hcount]
      obtain hrev | ⟨⟨c, rfl⟩, hrev⟩ := hrev
      · rw [hrev]
        omega
      · have hone : Op.revocations k [Op.revoke c k] = 1 := by
          simp [Op.revocations]
        omega

/-- In every state that calls reach, the owner's revocation of an installed grant succeeds exactly
when its revision is not the largest; and it does so after every run that installs no grant whose
revision, with the revocations of the run, gets there. -/
theorem owner_revocation (self owner engine : Principal) (ops : List (Op Digest)) :
    (∀ k g, (run step (new self owner engine) ops).grants[k]? = some g →
      ((run step (new self owner engine) ops).OwnerRevokes k g ↔
        g.revision.toNat < 2 ^ 64 - 1)) ∧
    ((∀ caller g, .installGrant caller g ∈ ops →
        g.revision.toNat + Op.revocations g.id ops < 2 ^ 64 - 1) →
      ∀ k g, (run step (new self owner engine) ops).grants[k]? = some g →
        (run step (new self owner engine) ops).OwnerRevokes k g) := by
  have hiff : ∀ k g, (run step (new self owner engine) ops).grants[k]? = some g →
      ((run step (new self owner engine) ops).OwnerRevokes k g ↔
        g.revision.toNat < 2 ^ 64 - 1) :=
    fun k g hg => ownerRevokes_iff (installed_of_run self owner engine ops k g hg).owner hg
  refine ⟨hiff, fun hops k g hg => (hiff k g hg).mpr ?_⟩
  obtain ⟨caller, g₀, hmem, hid, hle⟩ := (installed_of_run self owner engine ops k g hg).bounded
  have hbound := hops caller g₀ hmem
  rw [hid] at hbound
  exact Nat.lt_of_le_of_lt hle hbound

/-- A grant that was revoked once is revoked again. -/
theorem owner_revocation_again : ∃ g : Grant SymbolicDigest,
    (run step Sample.start (Sample.setup ++ [.revoke Sample.owner Sample.grant.id])).OwnerRevokes
      Sample.grant.id g := by
  have hgrant : ((run step Sample.start (Sample.setup ++
      [.revoke Sample.owner Sample.grant.id])).grants[Sample.grant.id]?).map
        (fun g => g.revision) = some 2 := by
    decide +kernel
  obtain ⟨g, hg, hrev⟩ := Option.map_eq_some_iff.mp hgrant
  refine ⟨g, ((owner_revocation Sample.self Sample.owner Sample.engine _).1 _ g hg).mpr ?_⟩
  rw [hrev]
  decide

/-- A grant that cannot be revoked. -/
def Sample.lastRevision : Grant SymbolicDigest :=
  { Sample.grant with revision := 0xffffffffffffffff }

/-- The owner installs it and is refused. -/
theorem owner_refused : ∃ g : Grant SymbolicDigest,
    (run step Sample.start [.installPlan Sample.owner Sample.plan,
        .installGrant Sample.owner Sample.lastRevision]).grants[Sample.lastRevision.id]? = some g ∧
    g.revoked = false ∧
    (run step Sample.start [.installPlan Sample.owner Sample.plan,
        .installGrant Sample.owner Sample.lastRevision]).revoke Sample.owner
      Sample.lastRevision.id = .error .capacity := by
  have hgrant : ((run step Sample.start [.installPlan Sample.owner Sample.plan,
      .installGrant Sample.owner Sample.lastRevision]).grants[Sample.lastRevision.id]?).map
        (fun g => (g.revoked, g.revision)) = some (false, 0xffffffffffffffff) := by
    decide +kernel
  have howner : (run step Sample.start [.installPlan Sample.owner Sample.plan,
      .installGrant Sample.owner Sample.lastRevision]).owner = Sample.owner := by
    decide +kernel
  generalize run step Sample.start [.installPlan Sample.owner Sample.plan,
    .installGrant Sample.owner Sample.lastRevision] = s at hgrant howner ⊢
  obtain ⟨g, hg, hv⟩ := Option.map_eq_some_iff.mp hgrant
  obtain ⟨hrevoked, hrev⟩ := Prod.mk.inj hv
  rw [← howner]
  exact ⟨g, hg, hrevoked, revoke_capacity (by rw [howner]; decide) hg (by rw [hrev]; rfl)⟩

end ExecutorState

end IcLaya
