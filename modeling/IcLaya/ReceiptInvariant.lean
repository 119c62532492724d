import IcLaya.LifecycleInvariant

/-!
# Stored receipts and the freshness of their evidence

A receipt enters a record only through `finish_evaluation`, which compares its whole stamp
with the request that was sent and applies the rule of its signal. `Assessed` records what
that leaves behind, and `Fresh` that equal revisions mean an equal snapshot.
-/
namespace IcLaya
open CheckedWords Fallible OrderedMaps TransitionSystems

variable {Digest : Type} [Hashing Digest]

/-- What a registered rule asks of a distribution. -/
def Rule.Holds (rule : Rule) (s : Schema) (d : Distribution) : Prop :=
  match rule with
  | .noulTrue m => m ≤ d.mass.getD 1 0 ∧ d.diagnostics.tied = false
  | .choiceIs optionId m =>
    s.options[d.argmax]?.map OptionDef.id = some optionId ∧ m ≤ d.mass.getD d.argmax 0 ∧
      d.diagnostics.tied = false
  | .scoreTailAtMost first m =>
    first.toNat < d.mass.length ∧ ((d.mass.drop first.toNat).map UInt32.toNat).sum ≤ m.toNat

/-- A receipt that passes: its value and its diagnostics are those recomputed from its masses,
and the rule of the signal holds of them. -/
def Passes (signal : RequiredSignal Digest) (v : Receipt Digest) : Prop :=
  ∃ x d, v.outcome = .assessed x ∧ x.masses = d.mass ∧ value signal.schema.schema d = .ok x ∧
    v.diagnostics = some d.diagnostics ∧ signal.rule.Holds signal.schema.schema d

section Rules
omit [Hashing Digest]

theorem toNat_foldl_add (a : UInt32) (xs : List UInt32)
    (h : a.toNat + (xs.map UInt32.toNat).sum < 2 ^ 32) :
    (xs.foldl (· + ·) a).toNat = a.toNat + (xs.map UInt32.toNat).sum := by
  induction xs generalizing a with
  | nil => rfl
  | cons x xs ih =>
    simp only [List.map_cons, List.sum_cons] at h
    have ha : (a + x).toNat = a.toNat + x.toNat := by
      rw [UInt32.toNat_add, Nat.mod_eq_of_lt (by omega)]
    simp only [List.foldl_cons, List.map_cons, List.sum_cons]
    rw [ih (a + x) (by omega), ha, Nat.add_assoc]

/-- No tail of a distribution weighs more than the whole. -/
theorem Distribution.tail_sum_le (d : Distribution) (n : ℕ) :
    ((d.mass.drop n).map UInt32.toNat).sum ≤ 1000000 := by
  have h := d.valid.2.2.2
  rw [← List.take_append_drop n d.mass, List.map_append, List.sum_append] at h
  have : ppm.toNat = 1000000 := rfl
  omega

theorem Rule.check_eq_true {rule : Rule} {s : Schema} {d : Distribution} :
    rule.check s d = .ok true ↔ rule.Holds s d := by
  cases rule with
  | noulTrue m => simp [check, Holds]
  | choiceIs optionId m => simp only [check, Holds, pure_eq_ok, Bool.and_eq_true, beq_iff_eq,
      decide_eq_true_eq, Bool.not_eq_true', and_assoc]
  | scoreTailAtMost first m =>
    have hsum := d.tail_sum_le first.toNat
    have h0 : (0 : UInt32).toNat = 0 := rfl
    have htail := toNat_foldl_add 0 (d.mass.drop first.toNat) (by omega)
    rw [h0, Nat.zero_add] at htail
    simp only [check, Holds, Distribution.tail, bind_eq_ok, rejectIf_eq_ok, pure_eq_ok, not_le]
    constructor
    · rintro ⟨_, ⟨_, hlt, rfl⟩, ht⟩
      rw [decide_eq_true_iff, UInt32.le_iff_toNat_le, htail] at ht
      exact ⟨hlt, ht⟩
    · rintro ⟨hlt, ht⟩
      refine ⟨_, ⟨(), hlt, rfl⟩, ?_⟩
      rw [decide_eq_true_iff, UInt32.le_iff_toNat_le, htail]
      exact ht

theorem checkRule_eq_true {signal : RequiredSignal Digest} {v : Receipt Digest} :
    checkRule signal v = .ok true ↔ Passes signal v := by
  unfold checkRule Passes
  cases v.outcome with
  | abstained why => simp
  | error e => simp
  | assessed x =>
    simp only [bind_eq_ok, rejectIf_eq_ok, not_not, Rule.check_eq_true,
      EvaluationOutcome.assessed.injEq]
    constructor
    · rintro ⟨d, hd, _, hdiag, h⟩
      obtain ⟨hm, hv⟩ := validateValue_eq_ok hd
      exact ⟨x, d, rfl, hm, hv, hdiag, h⟩
    · rintro ⟨_, d, rfl, hm, hv, hdiag, h⟩
      refine ⟨d, ?_, (), hdiag, h⟩
      simp only [validateValue, bind_eq_ok, Distribution.new_eq_ok, rejectIf_eq_ok, pure_eq_ok]
      exact ⟨d, hm, x, hv, (), by simp, rfl⟩

end Rules

namespace ExecutorState

/-- The receipt answers the request for slot `i` of a record: its stamp is complete. -/
structure ReceiptFits (r : RequestRecord Digest) (p : Plan Digest) (i : ℕ)
    (signal : RequiredSignal Digest) (v : Receipt Digest) : Prop where
  evaluationId : v.stamp.evaluationId = (slotCanonical r.id i r.snapshot).finish
  binding : v.stamp.binding = some ⟨r.id, UInt8.ofNat i, 0, r.snapshot⟩
  model : v.stamp.model = p.model
  schemaHash : v.stamp.schemaHash = signal.schema.schemaHash
  tokenizerHash : v.stamp.tokenizerHash = signal.schema.tokenizerHash
  calibration : v.stamp.calibration = some signal.calibration
  evidence : ∃ o g, snapshot o g p = r.snapshot ∧ o.evidence.utf8ByteSize ≤ maxStateBytes ∧
    v.stamp.stateHash = hash (asBytes o.evidence)

/-- What the receipts and the outstanding evaluation of a record are. -/
structure Assessed (r : RequestRecord Digest) (p : Plan Digest) : Prop where
  receipts : ∀ (i : ℕ) v, r.receipts[i]? = some v →
    ∃ signal, p.signals[i]? = some signal ∧ ReceiptFits r p i signal v
  pending : ∀ q, r.pending = some q → ∃ o g signal, snapshot o g p = r.snapshot ∧
    o.evidence.utf8ByteSize ≤ maxStateBytes ∧ p.signals[r.receipts.length]? = some signal ∧
    q.request = slotRequest r.id r p o r.receipts.length signal
  passing : r.status = .received ∨ r.status = .evaluating ∨ r.status = .readyToDispatch →
    ∀ (i : ℕ) v signal, r.receipts[i]? = some v → p.signals[i]? = some signal → Passes signal v
  complete : r.status = .readyToDispatch → r.receipts.length = p.signals.length

/-- The registered values are at least as new as the record; at its own revisions they are the
ones it was submitted under. -/
structure Fresh (r : RequestRecord Digest) (o : Operation Digest) (g : Grant Digest)
    (p : Plan Digest) : Prop where
  operation : r.operationRevision ≤ o.revision
  grant : r.grantRevision ≤ g.revision
  snapshot : o.revision = r.operationRevision → g.revision = r.grantRevision →
    snapshot o g p = r.snapshot

section Records
variable {s : ExecutorState Digest} {r r' : RequestRecord Digest} {p : Plan Digest}
  {signal : RequiredSignal Digest} {i : ℕ} {v : Receipt Digest}

theorem ReceiptFits.ticket (h : ReceiptFits r p i signal v) (ht : SameTicket r r') :
    ReceiptFits r' p i signal v := by
  have hid : r'.id = r.id := by rw [ht]
  have hsnap : r'.snapshot = r.snapshot := by rw [ht]
  obtain ⟨h1, h2, h3, h4, h5, h6, h7⟩ := h
  exact ⟨by rw [hid, hsnap]; exact h1, by rw [hid, hsnap]; exact h2, h3, h4, h5, h6,
    by rw [hsnap]; exact h7⟩

theorem Assessed.receipts_ticket (h : Assessed r p) (ht : SameTicket r r')
    (hrec : r'.receipts = r.receipts) : ∀ (i : ℕ) v, r'.receipts[i]? = some v →
      ∃ signal, p.signals[i]? = some signal ∧ ReceiptFits r' p i signal v := by
  rw [hrec]
  intro i v hv
  obtain ⟨signal, hsig, hfit⟩ := h.receipts i v hv
  exact ⟨signal, hsig, hfit.ticket ht⟩

/-- A record that keeps its receipts and at most drops its outstanding evaluation. -/
theorem Assessed.quiet (h : Assessed r p) (ht : SameTicket r r')
    (hrec : r'.receipts = r.receipts) (hpend : r'.pending = none)
    (hst : r'.status ≠ .received ∧ r'.status ≠ .evaluating ∧ r'.status ≠ .readyToDispatch) :
    Assessed r' p := by
  refine ⟨h.receipts_ticket ht hrec, ?_, ?_, fun hs => absurd hs hst.2.2⟩
  · rw [hpend]
    intro q hq
    cases hq
  · rintro (hs | hs | hs)
    · exact absurd hs hst.1
    · exact absurd hs hst.2.1
    · exact absurd hs hst.2.2

/-- A receipt that passed the stamp comparison fits the slot it was asked for. -/
theorem judge_fits {q : PendingEvaluation Digest} {o : Operation Digest} {g : Grant Digest}
    {result : Result (Receipt Digest)} {pass : Bool} (hs : snapshot o g p = r.snapshot)
    (hl : o.evidence.utf8ByteSize ≤ maxStateBytes)
    (hq : q.request = slotRequest r.id r p o i signal)
    (h : judge q.request signal result = .ok (v, pass)) :
    ReceiptFits r p i signal v ∧ (pass = true → Passes signal v) := by
  simp only [judge, bind_eq_ok, rejectIf_eq_ok, pure_eq_ok, not_or, not_not, Prod.mk.injEq] at h
  obtain ⟨v', _, _, ⟨hstamp, _⟩, pass', hrule, rfl, rfl⟩ := h
  rw [hq] at hstamp
  refine ⟨⟨?_, ?_, ?_, ?_, ?_, ?_, o, g, hs, hl, ?_⟩, ?_⟩
  all_goals first
    | (rw [hstamp]; rfl)
    | (rintro rfl; exact checkRule_eq_true.mp hrule)

/-- A receipt that was judged enters the record as the next one. -/
theorem Assessed.judged (h : Assessed r p) {q : PendingEvaluation Digest}
    {result : Result (Receipt Digest)} (hs : r.status = .evaluating) (hq : r.pending = some q)
    (hsig : p.signals[r.receipts.length]? = some signal) :
    Assessed (afterOutcome r p.signals.length (judge q.request signal result)) p := by
  obtain ⟨o, g, signal', hsnap, hl, hsig', hreq⟩ := h.pending q hq
  cases hsig.symm.trans hsig'
  cases hj : judge q.request signal result with
  | error e => exact h.quiet rfl rfl rfl (by simp [afterOutcome])
  | ok x =>
    obtain ⟨v, pass⟩ := x
    obtain ⟨hfit, hpass⟩ := judge_fits hsnap hl hreq hj
    have hat : ∀ (i : ℕ) w, (r.receipts ++ [v])[i]? = some w →
        r.receipts[i]? = some w ∨ i = r.receipts.length ∧ w = v := by
      intro i w hw
      rcases Nat.lt_trichotomy i r.receipts.length with hi | hi | hi
      · rw [List.getElem?_append_left hi] at hw
        exact .inl hw
      · subst hi
        simp only [List.getElem?_append_right (Nat.le_refl _), Nat.sub_self,
          List.getElem?_cons_zero, Option.some.injEq] at hw
        exact .inr ⟨rfl, hw.symm⟩
      · rw [List.getElem?_eq_none (by simp; omega)] at hw
        cases hw
    refine ⟨?_, fun q hq => (by cases hq), ?_, ?_⟩
    · intro i w hw
      rcases hat i w hw with hw | ⟨rfl, rfl⟩
      · obtain ⟨sig, hsig, hf⟩ := h.receipts i w hw
        exact ⟨sig, hsig, hf.ticket rfl⟩
      · exact ⟨signal, hsig, hfit.ticket rfl⟩
    · intro hst i w sig hw hsig₁
      have hp : pass = true := by
        cases pass with
        | true => rfl
        | false => simp [afterOutcome] at hst
      rcases hat i w hw with hw | ⟨rfl, rfl⟩
      · exact h.passing (.inr (.inl hs)) i w sig hw hsig₁
      · cases hsig.symm.trans hsig₁
        exact hpass hp
    · intro hst
      simp only [afterOutcome] at hst ⊢
      split at hst
      · cases hst
      · split at hst
        · next hn => simpa using hn
        · cases hst

theorem RecordStep.assessed (h : RecordStep s r.id r r') (hc : s.Coherent)
    (hp : s.plans[r.plan]? = some p) (ha : Assessed r p) (hn : r.pending = none ∨ r.status = .evaluating) :
    Assessed r' p := by
  cases h with
  | start now p' required o hs hpn hcur hp' hq ho =>
    cases hp.symm.trans hp'
    obtain ⟨_, _, o', g, p'', ho', hg, hp'', _, _, _, hsnap⟩ := current_eq_ok.mp hcur
    cases ho.symm.trans ho'
    cases hp.symm.trans hp''
    refine ⟨ha.receipts_ticket rfl rfl, ?_, fun _ => ha.passing ?_, fun h => by cases h⟩
    · intro q hq'
      cases hq'
      exact ⟨o, g, required, hsnap, (hc.operation _ o ho).2.2, hq, rfl⟩
    · exact hs.imp id Or.inl
  | resend q hs hpn h2 =>
    refine ⟨ha.receipts_ticket rfl rfl, ?_, fun _ => ha.passing (hs.imp id Or.inl), ?_⟩
    · intro q' hq'
      cases hq'
      exact ha.pending q hpn
    · exact fun h => ha.complete h
  | outdated hs => exact ha.quiet rfl rfl rfl (by simp)
  | transport q hs hpn =>
    unfold afterTransportFailure
    split
    · exact ha.quiet rfl rfl rfl (by simp)
    · refine ⟨ha.receipts_ticket rfl rfl, ?_, ha.passing, ha.complete⟩
      intro q' hq'
      cases hq'
      exact ha.pending q hpn
  | judged q p' required result hs hpn hp' hq =>
    cases hp.symm.trans hp'
    exact ha.judged hs hpn hq
  | report hs =>
    have hpn : r.pending = none := hn.resolve_right (by simp [hs])
    exact ha.quiet rfl rfl hpn (by simp)
  | unknown why hs =>
    have hpn : r.pending = none := hn.resolve_right (fun he => by simp [he, Status.outstanding] at hs)
    exact ha.quiet rfl rfl hpn (by simp)
  | retry f hs =>
    have hpn : r.pending = none := hn.resolve_right (fun he => by simp [he, Status.isOutcomeUnknown] at hs)
    exact ha.quiet rfl rfl hpn (by simp)
  | cancel hf hv => exact ha.quiet rfl rfl rfl (by simp)

end Records

/-- Every record is assessed under its plan and fresh. -/
def Evidenced (s : ExecutorState Digest) : Prop :=
  ∀ (k : Digest) r, s.requests[k]? = some r → ∃ o g p, s.operations[r.operation]? = some o ∧
    s.grants[r.grant]? = some g ∧ s.plans[r.plan]? = some p ∧ Assessed r p ∧ Fresh r o g p

/-- A later version of an operation has a later revision or the same content. -/
def Revised (o o' : Operation Digest) : Prop :=
  o.revision ≤ o'.revision ∧ (o'.revision = o.revision →
    o'.id = o.id ∧ o'.evidence = o.evidence ∧ o'.proposal = o.proposal)

section States
variable {s s' : ExecutorState Digest} {k : Digest} {r r' : RequestRecord Digest} {op : Op Digest}

omit [Hashing Digest] in
theorem Revised.refl (o : Operation Digest) : Revised o o :=
  ⟨UInt64.le_refl _, fun _ => ⟨rfl, rfl, rfl⟩⟩

private theorem succ_revision {a b : UInt64} (h : b.toNat = a.toNat + 1) : a ≤ b ∧ b ≠ a := by
  refine ⟨by rw [UInt64.le_iff_toNat_le]; omega, fun he => ?_⟩
  rw [he] at h
  omega

theorem Change.revised (h : Change s op s') :
    Grows Revised s.operations s'.operations ∧
      Grows (fun g g' => g.revision ≤ g'.revision) s.grants s'.grants := by
  have hop := Grows.refl Revised.refl s.operations
  have hgr : Grows (fun g g' => g.revision ≤ g'.revision) s.grants s.grants :=
    .refl (fun g => UInt64.le_refl g.revision) _
  cases h with
  | operation o _ _ _ hn => exact ⟨.new Revised.refl hn o, hgr⟩
  | revise o k evidence rev ho _ _ hrev =>
    obtain ⟨hle, hne⟩ := succ_revision hrev
    exact ⟨.replace Revised.refl ho ⟨hle, fun he => absurd he hne⟩, hgr⟩
  | grant g _ _ _ hn => exact ⟨hop, .new (fun g => UInt64.le_refl g.revision) hn g⟩
  | revoke g k rev hg hrev =>
    exact ⟨hop, .replace (fun g => UInt64.le_refl g.revision) hg (succ_revision hrev).1⟩
  | dispatch a b now r o g g' c _ _ _ _ _ ho _ hg _ hv =>
    refine ⟨.replace Revised.refl ho ⟨UInt64.le_refl _, fun _ => ⟨rfl, rfl, rfl⟩⟩,
      .replace (fun g => UInt64.le_refl g.revision) hg ?_⟩
    obtain ⟨_, _, _, _, _, _, _, rfl⟩ := Grant.reserve_eq_ok.mp hv
    exact UInt64.le_refl _
  | settle cmd outcome r v o g g' success text _ _ _ _ _ _ _ ho _ hg hse =>
    refine ⟨.replace Revised.refl ho ⟨UInt64.le_refl _, fun _ => ⟨rfl, rfl, rfl⟩⟩,
      .replace (fun g => UInt64.le_refl g.revision) hg ?_⟩
    obtain ⟨_, _, _, _, _, _, _, _, _, _, rfl⟩ := Grant.settle_eq_ok.mp hse
    exact UInt64.le_refl _
  | _ => exact ⟨hop, hgr⟩

/-- Later versions of the registered values keep a record fresh. -/
theorem Fresh.mono {o o' : Operation Digest} {g g' : Grant Digest} {p : Plan Digest}
    (h : Fresh r o g p) (ho : Revised o o') (hg : SameTerms g g')
    (hrev : g.revision ≤ g'.revision) : Fresh r o' g' p := by
  refine ⟨UInt64.le_trans h.operation ho.1, UInt64.le_trans h.grant hrev, fun heo heg => ?_⟩
  have hoe : o.revision = r.operationRevision :=
    UInt64.le_antisymm (heo ▸ ho.1) h.operation
  have hge : g.revision = r.grantRevision := UInt64.le_antisymm (heg ▸ hrev) h.grant
  obtain ⟨hid, hev, hpr⟩ := ho.2 (heo.trans hoe.symm)
  have hgid : g'.id = g.id := by rw [hg]
  rw [← h.snapshot hoe hge]
  simp only [IcLaya.snapshot, snapshotCanonical, hid, hev, hpr, hgid, heo, heg, hoe, hge]

omit [Hashing Digest] in
theorem Fresh.ticket {o : Operation Digest} {g : Grant Digest} {p : Plan Digest} [Hashing Digest]
    (h : Fresh r o g p) (ht : SameTicket r r') : Fresh r' o g p := by
  rw [ht]
  exact ⟨h.operation, h.grant, h.snapshot⟩

theorem evidenced_new (self owner engine : Principal) :
    (new self owner engine : ExecutorState Digest).Evidenced := by
  intro k r h
  simp [new] at h

theorem Evidenced.change (h : s.Evidenced) (hc : s.Coherent) (hl : s.Lifecycle)
    (hs : Change s op s') : s'.Evidenced := by
  have hext := hs.extends
  obtain ⟨hops, hgrs⟩ := hs.revised
  -- whatever the record becomes, its registered values only got newer
  have hkeep : ∀ (k : Digest) r r', s.requests[k]? = some r → SameTicket r r' →
      (∀ p, s.plans[r.plan]? = some p → Assessed r p → Assessed r' p) →
      ∃ o g p, s'.operations[r'.operation]? = some o ∧ s'.grants[r'.grant]? = some g ∧
        s'.plans[r'.plan]? = some p ∧ Assessed r' p ∧ Fresh r' o g p := by
    intro k r r' hr ht hass
    obtain ⟨o, g, p, ho, hg, hp, ha, hf⟩ := h k r hr
    obtain ⟨o', ho', hrev⟩ := hops _ o ho
    obtain ⟨g', hg', hterms⟩ := hext.grants _ g hg
    obtain ⟨g₁, hg₁, hgrev⟩ := hgrs _ g hg
    cases hg'.symm.trans hg₁
    obtain ⟨p', hp', rfl⟩ := hext.plans _ p hp
    refine ⟨o', g', p, ?_, ?_, ?_, hass p hp ha, (hf.mono hrev hterms hgrev).ticket ht⟩ <;>
      rw [ht] <;> assumption
  intro k r' hr'
  cases hr : s.requests[k]? with
  | some r =>
    obtain ⟨r₁, hr₁, hch⟩ := hs.record_at hc hr
    cases hr'.symm.trans hr₁
    obtain ⟨o, g, _, _, hok⟩ := hl.record k r hr
    have hid := (hc.request k r hr).id_eq
    have hpn : r.pending = none ∨ r.status = .evaluating := by
      by_cases he : r.status = .evaluating
      · exact .inr he
      · exact .inl (hok.pending_none he)
    cases hch with
    | same => exact hkeep _ _ _ hr rfl fun _ _ ha => ha
    | step hstep =>
      exact hkeep k r _ hr hstep.sameTicket fun p hp ha => hstep.assessed hc hp ha hpn
    | dispatch a b now v f _ hb =>
      obtain ⟨_, _, _, _, _, _, _, hn, _⟩ := authorize_eq_ok.mp hb
      refine hkeep k r _ hr rfl fun p hp ha => ha.quiet rfl rfl ?_ (by simp [dispatched])
      obtain ⟨o₁, _, ho₁, _, hok₁⟩ := hl.record k r hr
      rw [← hid] at hr
      exact hok₁.pending_none (by rw [(ready_of_authorize hr hb ho₁).1]; simp)
    | settle cmd outcome success text hout =>
      refine hkeep k r _ hr rfl fun p hp ha => ha.quiet rfl rfl ?_ ?_
      · exact hok.pending_none fun he => by simp [he, Status.outstanding] at hout
      · cases success <;> simp [settled]
    | recover =>
      refine hkeep k r _ hr (recover_sameTicket r) fun p hp ha => ?_
      unfold RequestRecord.recover
      split
      · exact ha.quiet rfl rfl rfl (by simp)
      · next hst =>
        exact ha.quiet rfl rfl (hok.pending_none (by rw [hst]; simp)) (by simp)
      · exact ha
  | none =>
    obtain ⟨caller, nonce, operation, grant, now, o, g, p, expires, rfl, ho, hg, hp, _, _, rfl,
      hops', hgrs', hplans'⟩ := hs.born hr hr'
    refine ⟨o, g, p, hops' ▸ ho, hgrs' ▸ hg, hplans' ▸ hp, ⟨?_, ?_, ?_, ?_⟩, UInt64.le_refl _, UInt64.le_refl _,
      fun _ _ => rfl⟩
    · intro i v hv; simp [newRecord] at hv
    · intro q hq; cases hq
    · intro _ i v signal hv; simp [newRecord] at hv
    · intro hst; cases hst

end States

end ExecutorState

end IcLaya
