import IcLaya.InvariantChecks
import IcLaya.ReceiptInvariant

/-!
# Authorization at dispatch is sound and complete

A dispatch command is produced exactly when the policy admits it now. Every signal then has
a stored receipt for the evidence the operation has now, and the operation and the grant are
those of the submission: a snapshot determines what it hashes.
-/
namespace IcLaya
open CheckedWords Fallible OrderedMaps TransitionSystems

variable {Digest : Type} [Hashing Digest]

section Snapshots
variable {o o' : Operation Digest} {g g' : Grant Digest} {p p' : Plan Digest}

theorem snapshot_inj (hcf : CollisionFree Digest) (ho : o.evidence.utf8ByteSize < 2 ^ 64)
    (ho' : o'.evidence.utf8ByteSize < 2 ^ 64) (h : snapshot o g p = snapshot o' g' p') :
    o.revision = o'.revision ∧ o.evidence = o'.evidence ∧ o.proposal = o'.proposal ∧
      g.revision = g'.revision := by
  have hf := snapshotCanonical_inj ho ho' (hcf h)
  simp only [snapshotFields, SnapshotFields.mk.injEq] at hf
  obtain ⟨-, hrevision, hevidence, hproposal, -, hgrant, -⟩ := hf
  exact ⟨hrevision, hevidence, TransferProposal.digest_inj hcf hproposal, hgrant⟩

end Snapshots

namespace ExecutorState

/-- What the policy asks for a dispatch of `r` at time `now`. -/
structure Admits (s : ExecutorState Digest) (r : RequestRecord Digest) (o : Operation Digest)
    (g : Grant Digest) (now : UInt64) : Prop where
  operation : s.operations[r.operation]? = some o
  grant : s.grants[r.grant]? = some g
  mode : s.mode = .mock
  registered : o.proposal.ledger ∈ s.mockLedgers
  unpaused : s.paused = false
  judged : r.status = .readyToDispatch
  unexpired : now < r.expiresAtNs
  grantUnexpired : now < g.expiresAtNs
  unrevoked : g.revoked = false
  grantRevision : g.revision = r.grantRevision
  delegate : g.delegate = r.caller
  ledger : g.ledger = o.proposal.ledger
  subaccount : g.fromSubaccount = o.proposal.fromSubaccount
  recipient : o.proposal.toAccount ∈ g.recipients
  amount : o.proposal.amount ≤ g.maxAmount
  fee : o.proposal.fee ≤ g.maxFee
  operationRevision : o.revision = r.operationRevision
  available : o.status = .available
  windowSlot : g.windows.contains (now / g.windowNs) = false → g.windows.size < 64
  totalRoom : g.total.spent.toNat + g.total.reserved.toNat + o.proposal.amount.toNat +
    o.proposal.fee.toNat ≤ g.totalCap.toNat
  windowRoom : (window g (now / g.windowNs)).spent.toNat +
    (window g (now / g.windowNs)).reserved.toNat + o.proposal.amount.toNat +
    o.proposal.fee.toNat ≤ g.windowCap.toNat

/-- The receipt was given for slot `i` of the record, for this evidence, and passes. -/
structure Supports (r : RequestRecord Digest) (o : Operation Digest) (p : Plan Digest) (i : ℕ)
    (signal : RequiredSignal Digest) (v : Receipt Digest) : Prop where
  binding : v.stamp.binding = some ⟨r.id, UInt8.ofNat i, 0, r.snapshot⟩
  model : v.stamp.model = p.model
  schemaHash : v.stamp.schemaHash = signal.schema.schemaHash
  tokenizerHash : v.stamp.tokenizerHash = signal.schema.tokenizerHash
  calibration : v.stamp.calibration = some signal.calibration
  stateHash : v.stamp.stateHash = hash (asBytes o.evidence)
  passes : Passes signal v

section States
variable {s s' : ExecutorState Digest} {k : Digest} {o : Operation Digest} {g : Grant Digest}
  {p : Plan Digest} {r : RequestRecord Digest} {now : UInt64}

theorem evidenced_run (hcf : CollisionFree Digest) (self owner engine : Principal)
    (ops : List (Op Digest)) : (run step (new self owner engine) ops).Evidenced := by
  refine run_stable Valid Evidenced (fun s op hs => valid_step hcf hs op) ?_
    (valid_new self owner engine) (evidenced_new self owner engine) ops
  intro s op hv he
  exact he.change hv.coherent hv.lifecycle (change_of_step hcf hv.coherent op)

/-- The submission behind a record, and what was registered at that moment. -/
theorem submitted_earlier (hcf : CollisionFree Digest) (self owner engine : Principal)
    (ops : List (Op Digest))
    (hr : (run step (new self owner engine) ops).requests[k]? = some r) :
    ∃ pre post now₀ o₀ g₀ p₀, ops = pre ++ .submit r.caller r.nonce r.operation r.grant now₀ :: post ∧
      (run step (new self owner engine) pre).requests[k]? = none ∧
      (∃ r₀, ((run step (new self owner engine) pre).step
        (.submit r.caller r.nonce r.operation r.grant now₀)).requests[k]? = some r₀) ∧
      (run step (new self owner engine) pre).operations[r.operation]? = some o₀ ∧
      (run step (new self owner engine) pre).grants[r.grant]? = some g₀ ∧
      r.snapshot = snapshot o₀ g₀ p₀ := by
  induction ops using List.reverseRecOn generalizing r with
  | nil => simp [new] at hr
  | append_singleton ops op ih =>
    have hv := valid_run hcf (valid_new self owner engine) ops
    have hch := change_of_step hcf hv.coherent op
    rw [run_concat] at hr
    cases hk : (run step (new self owner engine) ops).requests[k]? with
    | some r₀ =>
      obtain ⟨r₁, hr₁, ht⟩ := hch.extends.requests k r₀ hk
      cases hr.symm.trans hr₁
      obtain ⟨pre, post, now₀, o₀, g₀, p₀, he, hn, hborn, ho, hg, hs⟩ := ih hk
      refine ⟨pre, post ++ [op], now₀, o₀, g₀, p₀, ?_⟩
      rw [ht]
      exact ⟨by rw [he]; simp, hn, hborn, ho, hg, hs⟩
    | none =>
      obtain ⟨caller, nonce, operation, grant, now₀, o, g, p, expires, rfl, ho, hg, _, _, _, rfl, _⟩ :=
        hch.born hk hr
      exact ⟨ops, [], now₀, o, g, p, rfl, hk, ⟨_, hr⟩, ho, hg, rfl⟩

theorem admits_of_prepareDispatch (hv : s.Valid) {a : AuthorizedTransfer Digest}
    {cmd : DispatchCommand Digest} (h : s.prepareDispatch a now = .ok (s', .ok cmd)) :
    ∃ r o g p, s.requests[a.request]? = some r ∧ s.Admits r o g now ∧ s.plans[r.plan]? = some p ∧
      snapshot o g p = r.snapshot ∧ cmd = ⟨r.id, 1, ⟨o.proposal, r.id, now⟩⟩ := by
  obtain ⟨r, hr, ⟨b, hb⟩, _, ⟨_, hbad, _⟩ | ⟨hm, o, g, g', c, ho, hl, hg, hc, hres, hcmd, _⟩⟩ :=
    prepareDispatch_eq_ok.mp h
  · cases hbad
  have hr₀ := hr
  rw [← (hv.coherent.request _ r hr).id_eq] at hr
  obtain ⟨r₁, p, o₁, hr₁, _, hcur, hst, _, hp, _, _, ho₁, hav, _⟩ := authorize_eq_ok.mp hb
  cases hr.symm.trans hr₁
  cases ho.symm.trans ho₁
  obtain ⟨hpaused, hexp, o₂, g₂, p₂, ho₂, hg₂, hp₂, hel, hor, hgr, hsnap⟩ := current_eq_ok.mp hcur
  cases ho.symm.trans ho₂
  cases hg.symm.trans hg₂
  cases hp.symm.trans hp₂
  obtain ⟨⟨hd, hrev, hgexp⟩, ⟨hled, hsub, hrec, ham, hfee⟩, _⟩ := Grant.eligible_eq_ok.mp hel
  obtain ⟨hslot, tr, wr, htr, hwr, hcap, hwcap, _⟩ := Grant.reserve_eq_ok.mp hres
  rw [TransferProposal.charge_eq_ok] at hc
  have hT : g.total.spent.toNat + g.total.reserved.toNat + o.proposal.amount.toNat +
      o.proposal.fee.toNat ≤ g.totalCap.toNat := by omega
  have hW : (window g (now / g.windowNs)).spent.toNat +
      (window g (now / g.windowNs)).reserved.toNat + o.proposal.amount.toNat +
      o.proposal.fee.toNat ≤ g.windowCap.toNat := by
    unfold window
    omega
  exact ⟨r, o, g, p, hr₀, ⟨ho, hg, hm, hl, hpaused, hst, hexp, hgexp, hrev, hgr, hd.symm, hled, hsub,
    hrec, ham, hfee, hor, hav, hslot, hT, hW⟩, hp, hsnap, Except.ok.inj hcmd⟩

/-- A judged record passes the check of `authorize` in every slot. -/
theorem checkReceipt_of_assessed (ha : Assessed r p) (hst : r.status = .readyToDispatch)
    (e : (RequiredSignal Digest × Receipt Digest) × ℕ)
    (he : e ∈ (p.signals.zip r.receipts).zipIdx) : checkReceipt r.id r p e = .ok () := by
  obtain ⟨⟨signal, v⟩, i⟩ := e
  have hz := List.mem_zipIdx_iff_getElem?.mp he
  rw [List.getElem?_zip_eq_some] at hz
  obtain ⟨hsig, hrec⟩ := hz
  obtain ⟨signal', hsig', hfit⟩ := ha.receipts i v hrec
  cases hsig.symm.trans hsig'
  exact checkReceipt_eq_ok.mpr ⟨hfit.binding, hfit.model, hfit.schemaHash, hfit.calibration,
    checkRule_eq_true.mpr (ha.passing (.inr (.inr hst)) i v signal hrec hsig)⟩

theorem prepareDispatch_of_admits (hv : s.Valid) (he : s.Evidenced) (hr : s.requests[k]? = some r)
    (h : s.Admits r o g now) {caller : Principal} (hcaller : caller = r.caller ∨ caller = s.owner) :
    s.authorize caller k now = .ok ⟨k, r.snapshot⟩ ∧
      ∃ s' cmd, s.prepareDispatch ⟨k, r.snapshot⟩ now = .ok (s', .ok cmd) := by
  have hid := (hv.coherent.request k r hr).id_eq
  obtain ⟨o₁, g₁, p, ho₁, hg₁, hp, hass, hfresh⟩ := he k r hr
  cases h.operation.symm.trans ho₁
  cases h.grant.symm.trans hg₁
  obtain ⟨_, _, _, _, hok⟩ := hv.lifecycle.record k r hr
  have hpn := hok.pending_none (by rw [h.judged]; simp)
  obtain ⟨_, hprop, _⟩ := hv.coherent.operation _ o h.operation
  obtain ⟨c, hc⟩ := TransferProposal.charge_of_validate hprop
  have hcn := TransferProposal.charge_eq_ok.mp hc
  have hcur : s.current r now = .ok () := current_eq_ok.mpr ⟨h.unpaused, h.unexpired, o, g, p,
    h.operation, h.grant, hp, Grant.eligible_eq_ok.mpr ⟨⟨h.delegate.symm, h.unrevoked,
      h.grantUnexpired⟩, ⟨h.ledger, h.subaccount, h.recipient, h.amount, h.fee⟩, hprop⟩,
    h.operationRevision, h.grantRevision, hfresh.snapshot h.operationRevision h.grantRevision⟩
  have hauth : ∀ caller, caller = r.caller ∨ caller = s.owner →
      s.authorize caller k now = .ok ⟨k, r.snapshot⟩ := by
    intro caller hcaller
    refine authorize_eq_ok.mpr ⟨r, p, o, hr, hcaller, hcur, h.judged, hpn, hp,
      hass.complete h.judged, ?_, h.operation, h.available, rfl⟩
    rw [← hid]
    exact checkReceipt_of_assessed hass h.judged
  refine ⟨hauth caller hcaller, ?_⟩
  have hT := g.totalCap.isLt
  have hW := g.windowCap.isLt
  have htot := h.totalRoom
  have hwin := h.windowRoom
  unfold window at hwin
  obtain ⟨tr, htr⟩ := exists_checkedAdd (a := g.total.reserved) (b := c) (by omega)
  obtain ⟨wr, hwr⟩ := exists_checkedAdd
    (a := (g.windows[now / g.windowNs]?.getD default).reserved) (b := c) (by omega)
  rw [checkedAdd_eq_some] at htr hwr
  have hres := Grant.reserve_eq_ok.mpr ⟨h.windowSlot, tr, wr, htr, hwr, by omega, by omega, rfl⟩
  refine ⟨_, _, prepareDispatch_eq_ok.mpr ⟨r, hr, ⟨⟨k, r.snapshot⟩, ?_⟩, rfl, .inr ⟨h.mode, o, g,
    _, c, h.operation, h.registered, h.grant, hc, hres, rfl, rfl⟩⟩⟩
  rw [hid]
  exact hauth r.caller (.inl rfl)

theorem supports_of_assessed (hcf : CollisionFree Digest) (hc : s.Coherent)
    (ha : Assessed r p) (h : s.Admits r o g now) (hsnap : snapshot o g p = r.snapshot) {i : ℕ}
    {signal : RequiredSignal Digest} (hsig : p.signals[i]? = some signal) :
    ∃ v, r.receipts[i]? = some v ∧ Supports r o p i signal v := by
  have hlt : i < r.receipts.length := by
    rw [ha.complete h.judged]
    exact (List.getElem?_eq_some_iff.mp hsig).1
  have hrec := List.getElem?_eq_getElem hlt
  obtain ⟨signal', hsig', hfit⟩ := ha.receipts i _ hrec
  cases hsig.symm.trans hsig'
  refine ⟨_, hrec, hfit.binding, hfit.model, hfit.schemaHash, hfit.tokenizerHash, hfit.calibration,
    ?_, ha.passing (.inr (.inr h.judged)) i _ signal hrec hsig⟩
  obtain ⟨o', g', hs', hl', hstate⟩ := hfit.evidence
  have hl := (hc.operation _ o h.operation).2.2
  have hsmall : maxStateBytes < 2 ^ 64 := by decide
  rw [hstate, (snapshot_inj hcf (hl.trans_lt hsmall) (hl'.trans_lt hsmall)
    (hsnap.trans hs'.symm)).2.1]

end States

/-- In every state that calls reach: a dispatch command is produced only when the policy admits
it, on receipts for the current evidence, with the operation and the grant as they were at the
submission; and it is produced whenever the policy admits it. -/
theorem dispatch_sound_and_complete (hcf : CollisionFree Digest) (self owner engine : Principal)
    (ops : List (Op Digest)) (now : UInt64) :
    (∀ a s' cmd, (run step (new self owner engine) ops).prepareDispatch a now = .ok (s', .ok cmd) →
      ∃ r o g p, (run step (new self owner engine) ops).requests[a.request]? = some r ∧
        (run step (new self owner engine) ops).Admits r o g now ∧
        (run step (new self owner engine) ops).plans[r.plan]? = some p ∧
        (∀ (i : ℕ) signal, p.signals[i]? = some signal →
          ∃ v, r.receipts[i]? = some v ∧ Supports r o p i signal v) ∧
        cmd = ⟨r.id, 1, ⟨o.proposal, r.id, now⟩⟩ ∧
        ∃ pre post now₀ o₀ g₀,
          ops = pre ++ .submit r.caller r.nonce r.operation r.grant now₀ :: post ∧
          (run step (new self owner engine) pre).requests[a.request]? = none ∧
          (∃ r₀, ((run step (new self owner engine) pre).step
            (.submit r.caller r.nonce r.operation r.grant now₀)).requests[a.request]? = some r₀) ∧
          (run step (new self owner engine) pre).operations[r.operation]? = some o₀ ∧
          (run step (new self owner engine) pre).grants[r.grant]? = some g₀ ∧
          o.revision = o₀.revision ∧ o.evidence = o₀.evidence ∧ o.proposal = o₀.proposal ∧
          g.revision = g₀.revision) ∧
    ∀ (k : Digest) r o g caller,
      (run step (new self owner engine) ops).requests[k]? = some r →
      (run step (new self owner engine) ops).Admits r o g now →
      caller = r.caller ∨ caller = (run step (new self owner engine) ops).owner →
      (run step (new self owner engine) ops).authorize caller k now = .ok ⟨k, r.snapshot⟩ ∧
      ∃ s' cmd, (run step (new self owner engine) ops).prepareDispatch ⟨k, r.snapshot⟩ now =
        .ok (s', .ok cmd) := by
  have hv := valid_run hcf (valid_new self owner engine) ops
  have he := evidenced_run hcf self owner engine ops
  refine ⟨fun a s' cmd h => ?_, fun k r o g caller hr hadm hcaller =>
    prepareDispatch_of_admits hv he hr hadm hcaller⟩
  obtain ⟨r, o, g, p, hr, hadm, hp, hsnap, hcmd⟩ := admits_of_prepareDispatch hv h
  obtain ⟨_, _, p', _, _, hp', hass, _⟩ := he _ r hr
  cases hp.symm.trans hp'
  refine ⟨r, o, g, p, hr, hadm, hp, fun i signal hsig =>
    supports_of_assessed hcf hv.coherent hass hadm hsnap hsig, hcmd, ?_⟩
  obtain ⟨pre, post, now₀, o₀, g₀, p₀, hops, hn₀, hborn, ho₀, hg₀, hs₀⟩ :=
    submitted_earlier hcf self owner engine ops hr
  have hv₀ := valid_run hcf (valid_new self owner engine) pre
  have hsmall : maxStateBytes < 2 ^ 64 := by decide
  have hl := (hv.coherent.operation _ o hadm.operation).2.2
  have hl₀ := (hv₀.coherent.operation _ o₀ ho₀).2.2
  obtain ⟨h1, h2, h3, h4⟩ := snapshot_inj hcf (hl.trans_lt hsmall) (hl₀.trans_lt hsmall)
    (hsnap.trans hs₀)
  exact ⟨pre, post, now₀, o₀, g₀, hops, hn₀, hborn, ho₀, hg₀, h1, h2, h3, h4⟩

/-- The judged invoice is admitted when its dispatch is prepared. -/
theorem dispatch_sound_and_complete_judged :
    ∃ r o g, (run step Sample.start Sample.judged).requests[Sample.request]? = some r ∧
      (run step Sample.start Sample.judged).Admits r o g 8000 := by
  have hcmd : (run step Sample.start Sample.judged).command (.prepareDispatch Sample.token 8000) =
      some ⟨Sample.request, 1, Sample.frozen⟩ := by decide +kernel
  obtain ⟨s', h⟩ := command_prepareDispatch.mp hcmd
  obtain ⟨r, o, g, _, hr, hadm, _⟩ := (dispatch_sound_and_complete SymbolicDigest.collisionFree
    Sample.self Sample.owner Sample.engine Sample.judged 8000).1 Sample.token s' _ h
  exact ⟨r, o, g, hr, hadm⟩

end ExecutorState

end IcLaya
