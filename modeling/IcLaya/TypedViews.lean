import IcLaya.DecisionValues
import IcLaya.EngineState

/-!
# Typed views of receipts (`sdk.rs`)

A view is made of a receipt that names the schema its caller was written for and the stamp its caller
expects. It is no capability: all that can be read of it is what the receipt says.
-/
namespace IcLaya
open Fallible PanickingCode

/-- The constants of a `DecisionSchema`. -/
structure DecisionSchema where
  id : String
  version : UInt64
  primitive : Primitive
  options : List String

structure ChoiceSchema (V : Type) extends DecisionSchema where
  decodeOption : String → Option V

/-- A `Choice`, a `Noul` or a `Score`, by its kind. -/
structure View (T : DecisionSchema) (kind : Primitive) (Digest : Type) where
  distribution : Distribution
  stamp : Stamp Digest

variable {Digest V F : Type} [Hashing Digest] [Doubles F]

/-- The value of an outcome that has one. -/
def EvaluationOutcome.assessedValue : EvaluationOutcome → Result DecisionValue
  | .assessed v => .ok v
  | .abstained _ => .error .uncalibrated
  | .error e => .error e

theorem EvaluationOutcome.assessedValue_eq_ok {o : EvaluationOutcome} {v : DecisionValue} :
    o.assessedValue = .ok v ↔ o = .assessed v := by
  cases o <;> simp [assessedValue]

namespace DecisionSchema
variable (T : DecisionSchema) (schema : CompiledSchema Digest) (r : Receipt Digest)
  (expected : Stamp Digest) (kind : Primitive)

def checked : Result Distribution := do
  rejectIf (schema.schema.id ≠ T.id ∨ schema.schema.version ≠ T.version ∨ T.primitive ≠ kind ∨
    schema.schema.primitive ≠ kind ∨ schema.schema.options.map OptionDef.id ≠ T.options ∨
    r.stamp ≠ expected ∨ r.stamp.schemaHash ≠ schema.schemaHash ∨
    r.stamp.tokenizerHash ≠ schema.tokenizerHash ∨ r.stamp.profile ≠ profile) .bindingMismatch
  let v ← r.outcome.assessedValue
  let d ← validateValue schema.schema v
  rejectIf (r.diagnostics ≠ some d.diagnostics) .bindingMismatch
  pure d

def tryFromReceipt : Result (View T kind Digest) := do
  let d ← T.checked schema r expected kind
  pure ⟨d, r.stamp⟩

/-- The constants are those of the schema. -/
structure Describes : Prop where
  sameId : schema.schema.id = T.id
  sameVersion : schema.schema.version = T.version
  typed : T.primitive = kind
  asked : schema.schema.primitive = kind
  sameOptions : schema.schema.options.map OptionDef.id = T.options

end DecisionSchema

namespace View
variable {T : DecisionSchema}

def selected {T : ChoiceSchema V} (x : View T.toDecisionSchema .choice Digest) : Code Error V := do
  let id ← unwrap T.options[x.distribution.argmax]?
  okOr (T.decodeOption id) (.raise .bindingMismatch)

def pTruePpm (x : View T .noul Digest) : Code Error UInt32 := unwrap x.distribution.mass[1]?

def meanPpm (x : View T .score Digest) : Code Error UInt32 := Trapping.meanPpm x.distribution

def expectedLevelMicrounits (x : View T .score Digest) : Code Error UInt64 :=
  Trapping.expectedLevelMicrounits x.distribution

def tailPpm (x : View T .score Digest) (fromBin : ℕ) : Code Error UInt32 :=
  Trapping.tail x.distribution fromBin

def cdfPpm (x : View T .score Digest) (throughBin : ℕ) : Code Error UInt32 :=
  Trapping.cdf x.distribution throughBin

omit [Hashing Digest] in
/-- The mass from a bin on, and up to a bin, is added exactly; a bin that is not there is refused. -/
theorem bins_eq (x : View T .score Digest) (n : ℕ) :
    if n < x.distribution.mass.length then
      (∃ v, x.tailPpm n = .ok v ∧ v.toNat = ((x.distribution.mass.drop n).map UInt32.toNat).sum) ∧
      ∃ v, x.cdfPpm n = .ok v ∧
        v.toNat = ((x.distribution.mass.take (n + 1)).map UInt32.toNat).sum
    else x.tailPpm n = .error (.raise (.invalid "tail bin")) ∧
      x.cdfPpm n = .error (.raise (.invalid "cdf bin")) := by
  rw [tailPpm, cdfPpm, Trapping.tail_eq, Trapping.cdf_eq, Distribution.tail, Distribution.cdf]
  split
  · next h =>
    rw [rejectIf_bind (Nat.not_le.mpr h), rejectIf_bind (Nat.not_le.mpr h)]
    refine ⟨⟨x.distribution.tailFrom n, rfl, ?_⟩, x.distribution.cdfThrough n, rfl, ?_⟩
    · rw [List.map_drop]
      exact x.distribution.toNat_tailFrom n
    · rw [List.map_take]
      exact x.distribution.toNat_cdfThrough n
  · next h =>
    rw [rejectIf_stop (Nat.not_lt.mp h), rejectIf_stop (Nat.not_lt.mp h)]
    exact ⟨rfl, rfl⟩

end View

section Accepted
variable {T : DecisionSchema} {schema : CompiledSchema Digest} {r : Receipt Digest}
  {expected : Stamp Digest} {kind : Primitive}

/-- The receipt is about the schema and has the stamp, and its value and its diagnostics are those of
a distribution. -/
structure Receipt.Shows (r : Receipt Digest) (schema : CompiledSchema Digest)
    (expected : Stamp Digest) (d : Distribution) (v : DecisionValue) : Prop where
  stamp : r.stamp = expected
  schemaHash : r.stamp.schemaHash = schema.schemaHash
  tokenizerHash : r.stamp.tokenizerHash = schema.tokenizerHash
  profile : r.stamp.profile = IcLaya.profile
  outcome : r.outcome = .assessed v
  value : value schema.schema d = .ok v
  diagnostics : r.diagnostics = some d.diagnostics

theorem checked_eq_ok {d : Distribution} : T.checked schema r expected kind = .ok d ↔
    T.Describes schema kind ∧ ∃ v, r.Shows schema expected d v := by
  simp only [DecisionSchema.checked, bind_eq_ok, rejectIf_eq_ok, pure_eq_ok, not_or, not_not,
    validateValue_iff, EvaluationOutcome.assessedValue_eq_ok]
  constructor
  · rintro ⟨-, ⟨hid, hversion, htyped, hasked, hoptions, hstamp, hschema, htokenizer, hprofile⟩, v,
      hout, d', ⟨-, hvalue⟩, -, hdiagnostics, rfl⟩
    exact ⟨⟨hid, hversion, htyped, hasked, hoptions⟩, v, hstamp, hschema, htokenizer, hprofile, hout,
      hvalue, hdiagnostics⟩
  · rintro ⟨⟨hid, hversion, htyped, hasked, hoptions⟩, v, h⟩
    exact ⟨(), ⟨hid, hversion, htyped, hasked, hoptions, h.stamp, h.schemaHash, h.tokenizerHash,
      h.profile⟩, v, h.outcome, d, ⟨(masses_of_value h.value).2, h.value⟩, (), h.diagnostics, rfl⟩

theorem tryFromReceipt_eq_ok {x : View T kind Digest} :
    T.tryFromReceipt schema r expected kind = .ok x ↔
      T.Describes schema kind ∧ x.stamp = expected ∧ ∃ v, r.Shows schema expected x.distribution v := by
  simp only [DecisionSchema.tryFromReceipt, bind_eq_ok, checked_eq_ok, pure_eq_ok]
  constructor
  · rintro ⟨d, ⟨hdescribes, v, hshows⟩, rfl⟩
    exact ⟨hdescribes, hshows.stamp, v, hshows⟩
  · rintro ⟨hdescribes, hstamp, v, hshows⟩
    exact ⟨x.distribution, ⟨hdescribes, v, hshows⟩, by rw [hshows.stamp, ← hstamp]⟩

/-- The value of a distribution, by the question. -/
theorem value_cases {s : Schema} {d : Distribution} {v : DecisionValue} (h : value s d = .ok v) :
    match s.primitive with
    | .choice => v = .choice (s.options.map OptionDef.id) d.mass
        ((s.options.map OptionDef.id).getD d.argmax "")
    | .noul => v = .noul (d.mass.getD 0 0) (d.mass.getD 1 0)
    | .score => v = .score (s.options.map OptionDef.id) d.mass d.expectedLevelMicrounits d.meanPpm := by
  simp only [value, bind_eq_ok] at h
  obtain ⟨-, -, h⟩ := h
  cases hs : s.primitive <;> rw [hs] at h <;> exact (pure_eq_ok.mp h).symm

end Accepted

/-- A view is made exactly of a receipt about its schema, with the expected stamp, whose redundant
fields are those of one distribution; what it reads is what the receipt says, and no reader traps.
Every receipt of the engine is accepted with its own stamp. -/
theorem views_read_receipts (T : ChoiceSchema V) (schema : CompiledSchema Digest)
    (r : Receipt Digest) (expected : Stamp Digest) :
    (∀ kind (x : View T.toDecisionSchema kind Digest),
      T.tryFromReceipt schema r expected kind = .ok x ↔ T.Describes schema kind ∧
        x.stamp = expected ∧ ∃ v, r.Shows schema expected x.distribution v) ∧
    (∀ x, T.tryFromReceipt schema r expected .noul = .ok x →
      ∃ f t, r.outcome = .assessed (.noul f t) ∧ x.pTruePpm = .ok t) ∧
    (∀ x : View T.toDecisionSchema .choice Digest,
      T.tryFromReceipt schema r expected .choice = .ok x →
        ∃ ids mass selected, r.outcome = .assessed (.choice ids mass selected) ∧
          x.selected = okOr (T.decodeOption selected) (.raise .bindingMismatch)) ∧
    (∀ x, T.tryFromReceipt schema r expected .score = .ok x →
      ∃ ids mass level mean, r.outcome = .assessed (.score ids mass level mean) ∧
        x.expectedLevelMicrounits = .ok level ∧ x.meanPpm = .ok mean ∧
        ∀ n, if n < mass.length then
          (∃ v, x.tailPpm n = .ok v ∧ v.toNat = ((mass.drop n).map UInt32.toNat).sum) ∧
          ∃ v, x.cdfPpm n = .ok v ∧ v.toNat = ((mass.take (n + 1)).map UInt32.toNat).sum
        else x.tailPpm n = .error (.raise (.invalid "tail bin")) ∧
          x.cdfPpm n = .error (.raise (.invalid "cdf bin"))) ∧
    ∀ (req : DecisionRequest Digest) (temp : F) input backend kind n,
      EngineState.assess req schema temp input backend = .ok r → schema.schemaHash = req.schemaHash →
      T.Describes schema kind → ∃ x,
        T.tryFromReceipt schema { r with measuredInstructions := n } r.stamp kind = .ok x := by
  refine ⟨fun kind x => tryFromReceipt_eq_ok, fun x h => ?_, fun x h => ?_, fun x h => ?_,
    fun req temp input backend kind n h hhash hdescribes => ?_⟩
  · obtain ⟨hdescribes, -, v, hshows⟩ := tryFromReceipt_eq_ok.mp h
    have hv := value_cases hshows.value
    rw [hdescribes.asked] at hv
    refine ⟨_, _, hshows.outcome.trans (congrArg _ hv), ?_⟩
    have htwo : 1 < x.distribution.mass.length := x.distribution.valid.1
    rw [View.pTruePpm, List.getElem?_eq_getElem htwo, List.getD_eq_getElem?_getD,
      List.getElem?_eq_getElem htwo]
    rfl
  · obtain ⟨hdescribes, -, v, hshows⟩ := tryFromReceipt_eq_ok.mp h
    have hv := value_cases hshows.value
    rw [hdescribes.asked, hdescribes.sameOptions] at hv
    refine ⟨_, _, _, hshows.outcome.trans (congrArg _ hv), ?_⟩
    have hlength : x.distribution.argmax < T.options.length := by
      rw [← hdescribes.sameOptions, List.length_map, ← (masses_of_value hshows.value).2]
      exact x.distribution.argmax_lt
    rw [View.selected, List.getElem?_eq_getElem hlength, List.getD_eq_getElem?_getD,
      List.getElem?_eq_getElem hlength]
    rfl
  · obtain ⟨hdescribes, -, v, hshows⟩ := tryFromReceipt_eq_ok.mp h
    have hv := value_cases hshows.value
    rw [hdescribes.asked] at hv
    exact ⟨_, _, _, _, hshows.outcome.trans (congrArg _ hv), Trapping.expectedLevelMicrounits_eq _,
      Trapping.meanPpm_eq _, x.bins_eq⟩
  · simp only [EngineState.assess, bind_eq_ok, rejectIf_eq_ok, pure_eq_ok] at h
    obtain ⟨logits, -, -, -, d, -, v, hvalue, rfl⟩ := h
    exact ⟨⟨d, _⟩, tryFromReceipt_eq_ok.mpr ⟨hdescribes, rfl, v, rfl, hhash.symm, rfl, rfl, rfl, hvalue,
      rfl⟩⟩

/-- The constants of the schema of the sample. -/
def Sample.risk : ChoiceSchema Bool :=
  ⟨⟨"risk", 1, .noul, ["false", "true"]⟩,
    fun id => if id = "true" then some true else if id = "false" then some false else none⟩

theorem views_read_receipts_sample : ∃ x, Sample.risk.tryFromReceipt Sample.compiled Sample.receipt
    Sample.receipt.stamp .noul = .ok x ∧ x.pTruePpm = .ok 900000 := by
  have hok : (Sample.risk.tryFromReceipt Sample.compiled Sample.receipt Sample.receipt.stamp
      .noul).isOk = true := by decide +kernel
  cases h : Sample.risk.tryFromReceipt Sample.compiled Sample.receipt Sample.receipt.stamp .noul with
  | error e =>
    rw [h] at hok
    cases hok
  | ok x =>
    obtain ⟨f, t, hout, ht⟩ := (views_read_receipts (F := ℚ) Sample.risk Sample.compiled
      Sample.receipt Sample.receipt.stamp).2.1 x h
    cases hout
    exact ⟨x, rfl, ht⟩

end IcLaya
