import IcLaya.DispatchAuthorization

/-!
# What was dispatched had passed

A dispatch needs a passing receipt for every signal, and a record that was dispatched gets no other
receipts. So whenever a command is produced, also by a retry, the record behind it is complete.
-/
namespace IcLaya
open CheckedWords Fallible OrderedMaps TransitionSystems

variable {Digest : Type} [Hashing Digest]

/-- A passing receipt for every signal of the plan. -/
def RequestRecord.Complete (r : RequestRecord Digest) (p : Plan Digest) : Prop :=
  r.receipts.length = p.signals.length ∧
    ∀ (i : ℕ) v signal, r.receipts[i]? = some v → p.signals[i]? = some signal → Passes signal v

omit [Hashing Digest] in
theorem RequestRecord.Complete.receipt {r : RequestRecord Digest} {p : Plan Digest}
    (h : r.Complete p) {i : ℕ} {signal : RequiredSignal Digest} (hs : p.signals[i]? = some signal) :
    ∃ v, r.receipts[i]? = some v ∧ Passes signal v := by
  have hi : i < r.receipts.length := h.1 ▸ (List.getElem?_eq_some_iff.mp hs).1
  exact ⟨_, List.getElem?_eq_getElem hi, h.2 i _ signal (List.getElem?_eq_getElem hi) hs⟩

namespace ExecutorState
variable {s s' : ExecutorState Digest} {k : Digest} {r r' : RequestRecord Digest} {op : Op Digest}

/-- Every record that was dispatched is complete. -/
def Vetted (s : ExecutorState Digest) : Prop :=
  ∀ (k : Digest) r, s.requests[k]? = some r → r.frozen.isSome = true →
    ∃ p, s.plans[r.plan]? = some p ∧ r.Complete p

theorem vetted_new (self owner engine : Principal) :
    (new self owner engine : ExecutorState Digest).Vetted := by
  intro k r hr
  simp [new] at hr

/-- A record that was dispatched keeps its receipts. -/
theorem RecordStep.settled_receipts (h : RecordStep s k r r') (hu : r.status.dispatched = false →
    r.frozen = none) (hf : r'.frozen.isSome = true) :
    r.frozen.isSome = true ∧ r'.receipts = r.receipts := by
  cases h with
  | judged q p required result hs =>
    have hnone : (afterOutcome r p.signals.length (judge q.request required result)).frozen =
        r.frozen := by
      unfold afterOutcome
      split <;> rfl
    rw [hnone, hu (by rw [hs]; rfl)] at hf
    cases hf
  | transport q hs hn =>
    have hsame : (afterTransportFailure r q).frozen = r.frozen ∧
        (afterTransportFailure r q).receipts = r.receipts := by
      unfold afterTransportFailure
      split <;> exact ⟨rfl, rfl⟩
    exact ⟨hsame.1 ▸ hf, hsame.2⟩
  | _ => exact ⟨hf, rfl⟩

theorem Vetted.change (h : s.Vetted) (hv : s.Valid) (he : s.Evidenced) (hch : Change s op s') :
    s'.Vetted := by
  intro k r' hr' hf
  cases hr : s.requests[k]? with
  | none =>
    obtain ⟨_, _, _, _, _, _, _, _, _, _, _, _, _, _, _, rfl, _⟩ := hch.born hr hr'
    cases hf
  | some r =>
    obtain ⟨r₁, hr₁, hrec⟩ := hch.record_at hv.coherent hr
    cases hr'.symm.trans hr₁
    obtain ⟨o, g, ho, -, hok⟩ := hv.lifecycle.record k r hr
    obtain ⟨_, _, p, -, -, hp, hass, -⟩ := he k r hr
    obtain ⟨p', hp', rfl⟩ := hch.extends.plans _ p hp
    have hkeep : r.frozen.isSome = true → r'.receipts = r.receipts → r'.plan = r.plan →
        ∃ p, s'.plans[r'.plan]? = some p ∧ r'.Complete p := by
      intro hf hrec hplan
      obtain ⟨p₁, hp₁, hcomp⟩ := h k r hr hf
      cases hp.symm.trans hp₁
      refine ⟨p, by rw [hplan]; exact hp', ?_⟩
      unfold RequestRecord.Complete
      rw [hrec]
      exact hcomp
    cases hrec with
    | same => exact hkeep hf rfl rfl
    | step hstep =>
      have hplan : r'.plan = r.plan := by rw [hstep.sameTicket]
      obtain ⟨hf, hsame⟩ := hstep.settled_receipts (fun hd => (hok.undispatched hd).frozen) hf
      exact hkeep hf hsame hplan
    | dispatch a b now v f _ hb =>
      have hid := (hv.coherent.request k r hr).id_eq
      obtain ⟨hst, -⟩ := ready_of_authorize (hid.symm ▸ hr) hb ho
      exact ⟨p, hp', hass.complete hst, hass.passing (.inr (.inr hst))⟩
    | settle cmd outcome success text hout _ hfz => exact hkeep (hfz ▸ rfl) rfl rfl
    | recover =>
      have hsame : r.recover.frozen = r.frozen ∧ r.recover.receipts = r.receipts ∧
          r.recover.plan = r.plan := by
        unfold RequestRecord.recover
        split <;> exact ⟨rfl, rfl, rfl⟩
      exact hkeep (hsame.1 ▸ hf) hsame.2.1 hsame.2.2

/-- A command is produced for a complete record, and at the revision of its submission. -/
theorem complete_of_command (hv : s.Valid) (he : s.Evidenced) (h : s.Vetted)
    {cmd : DispatchCommand Digest} (hc : s.command op = some cmd) :
    ∃ r o p, s.requests[cmd.request]? = some r ∧ s.operations[r.operation]? = some o ∧
      s.plans[r.plan]? = some p ∧ o.revision = r.operationRevision ∧
      cmd.transfer.proposal = o.proposal ∧ cmd.transfer.memo = cmd.request ∧ r.Complete p := by
  cases op with
  | prepareDispatch a now =>
    obtain ⟨s', hp⟩ := command_prepareDispatch.mp hc
    obtain ⟨r, o, g, p, hr, hadm, hplan, -, rfl⟩ := admits_of_prepareDispatch hv hp
    have hid := (hv.coherent.request _ r hr).id_eq
    obtain ⟨_, _, p', -, -, hp', hass, -⟩ := he _ r hr
    cases hplan.symm.trans hp'
    exact ⟨r, o, p, hid ▸ hr, hadm.operation, hplan, hadm.operationRevision, rfl, rfl,
      hass.complete hadm.judged, hass.passing (.inr (.inr hadm.judged))⟩
  | retryUnknown caller id now =>
    obtain ⟨s', hp⟩ := command_retryUnknown.mp hc
    obtain ⟨r, f, hr, hcur, -, hu, -, hf, rfl, -⟩ := retryUnknown_eq_ok hp
    obtain ⟨-, -, o, g, p, ho, -, hplan, -, hrev, -, -⟩ := current_eq_ok.mp hcur
    obtain ⟨p', hp', hcomp⟩ := h _ r hr (hf ▸ rfl)
    cases hplan.symm.trans hp'
    obtain ⟨o', g', ho', -, hok⟩ := hv.lifecycle.record _ r hr
    cases ho.symm.trans ho'
    have hout : r.status.outstanding = true := by
      generalize r.status = status at hu
      cases status <;> first | rfl | cases hu
    obtain ⟨⟨_, _, hbooked, -⟩, -⟩ := hok.outstanding hout
    cases hf.symm.trans hbooked
    exact ⟨r, o, p, hr, ho, hplan, hrev, rfl, (hv.coherent.request _ r hr).id_eq, hcomp⟩
  | _ => cases hc

end ExecutorState
end IcLaya
