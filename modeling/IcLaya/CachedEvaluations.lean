import IcLaya.CellCoherence
import IcLaya.EngineRuns

/-!
# The engine canister's cache

Whatever calls the canister gets, upgrades and new uploads among them, what is cached stays as it
is, and the backend is asked only for a caller's evaluation that is not cached. The reply of a
successful evaluation is what the cache holds of it, with the instructions that were measured.
-/
namespace IcLaya
open Std (ExtTreeMap)
open Fallible OrderedMaps PanickingCode PagedMemory CanisterCommon TransitionSystems

variable {F Digest : Type} [Doubles F] {α β : Type}

namespace EngineState
variable [Hashing Digest] {s s' : EngineState F Digest}

omit [Doubles F] in
theorem Quotas.congr (h : s.Quotas) (hc : s'.callers = s.callers) : s'.Quotas :=
  fun p q hp => h p q (hc ▸ hp)

theorem Quotas.allowed (h : s.Quotas) {p : Principal} {n : UInt32}
    (ha : s.allowCaller p n = .ok s') : s'.Quotas := by
  have hq := h.after (.allowCaller p n)
  simp only [EngineState.after, ha] at hq
  exact hq

/-- An evaluation that is not cached and does not reach the backend fails. -/
theorem evaluate_error {caller : Principal} {req : DecisionRequest Digest} {now : UInt64}
    {tokenizer : TextTokenizer Digest} {backend : InferenceBackend Digest}
    (hcache : s.cache[(caller, req.evaluationId)]? = none)
    (hnone : (s.evaluate caller req now tokenizer backend).invoked = none) :
    ∃ e, (s.evaluate caller req now tokenizer backend).result = .error e := by
  unfold evaluate at hnone ⊢
  cases hcheck : s.precheck caller req now backend with
  | error e => exact ⟨e, rfl⟩
  | ok x =>
    obtain ⟨schema, temp⟩ := x
    simp only [hcheck, hcache] at hnone ⊢
    cases hprepare : s.prepare caller req schema tokenizer with
    | error e => exact ⟨e, rfl⟩
    | ok x =>
      obtain ⟨input, quota⟩ := x
      simp only [hprepare] at hnone ⊢
      split at hnone
      · next hfull => exact ⟨.capacity, by rw [if_pos hfull]⟩
      · cases hnone

end EngineState

namespace Canister
variable [ByteDigest Digest] {l : Linked F Digest} {msg : CallContext} {c c' : Canister F Digest}

/-- The evaluation for which a call asks the backend. -/
def asked (l : Linked F Digest) (msg : CallContext) (c : Canister F Digest) :
    UpdateCall F Digest → Option (Principal × Digest)
  | .evaluate req =>
    match c.admitted l msg req with
    | .ok _ => (c.engineEvaluation msg req).invoked.map fun _ => (msg.caller, req.evaluationId)
    | .error _ => none
  | _ => none

/-- A call that leaves the cache as it is and the quotas within their bounds. -/
structure SameCache (c c' : Canister F Digest) : Prop where
  cache : c'.persistent.engine.cache = c.persistent.engine.cache
  quotas : c.persistent.engine.Quotas → c'.persistent.engine.Quotas

theorem SameCache.refl (c : Canister F Digest) : SameCache c c := ⟨rfl, id⟩

theorem SameCache.of_engine (h : c'.persistent.engine.cache = c.persistent.engine.cache)
    (hc : c'.persistent.engine.callers = c.persistent.engine.callers) : SameCache c c' :=
  ⟨h, fun hq => hq.congr hc⟩

theorem mutate_sameCache
    {f : Persistent F Digest → Memory → Code Error α × Persistent F Digest × Memory} {r : Result α}
    (hf : (f c.persistent c.memory).2.1.engine.cache = c.persistent.engine.cache ∧
      (c.persistent.engine.Quotas → (f c.persistent c.memory).2.1.engine.Quotas))
    (h : c.mutate l msg f = some (r, c')) : SameCache c c' := by
  obtain ⟨p, m, m', heq, -, rfl⟩ := mutate_eq_some h
  rw [heq] at hf
  exact ⟨hf.1, hf.2⟩

theorem attempt_sameCache {x : Code Error α} {f : α → Answer F Digest β} {r : Result β}
    (hf : ∀ a r c', x = .ok a → f a = some (r, c') → SameCache c c')
    (h : c.attempt x f = some (r, c')) : SameCache c c' := by
  rcases attempt_eq_some.mp h with ⟨a, ha, hsome⟩ | ⟨e, -, heq⟩
  · exact hf a r c' ha hsome
  · cases heq
    exact SameCache.refl c

/-- The backend is asked for the caller. -/
theorem asked_caller {call : UpdateCall F Digest} {k : Principal × Digest}
    (h : k ∈ c.asked l msg call) : k.1 = msg.caller ∧ ∃ req, call = .evaluate req ∧
      k.2 = req.evaluationId := by
  cases call with
  | evaluate req =>
    simp only [asked] at h
    split at h
    · obtain ⟨_, _, rfl⟩ := Option.map_eq_some_iff.mp h
      exact ⟨rfl, req, rfl, rfl⟩
    · cases h
  | _ => cases h

/-- A call that only replaces cells. -/
theorem cells_sameCache {x : Code Error α} {f : α → Result β × Canister F Digest} {r : Result β}
    (hf : ∀ a, (f a).2.persistent = c.persistent)
    (h : c.attempt x (fun a => some (f a)) = some (r, c')) : SameCache c c' := by
  refine attempt_sameCache (fun a r c' _ hsome => ?_) h
  have hp := hf a
  rw [Option.some.inj hsome] at hp
  dsimp only at hp
  exact .of_engine (by rw [hp]) (by rw [hp])

/-- Every call but an evaluation leaves the cache alone. -/
theorem perform_sameCache (hb : l.bincode.Inverts) {call : UpdateCall F Digest} {r : Result Unit}
    (hcall : ∀ req, call ≠ .evaluate req) (h : c.perform l msg call = some (r, c')) :
    SameCache c c' := by
  cases call with
  | upgrade =>
    obtain ⟨c'', hup, heq⟩ := Option.map_eq_some_iff.mp h
    cases heq
    unfold upgrade at hup
    split at hup
    · next m hsave =>
      obtain ⟨bytes, hencode, hstored, -, -⟩ := save_eq_ok hsave
      rw [restore_of_stored hb l.target hencode hstored] at hup
      cases hup
      exact .of_engine rfl rfl
    · cases hup
  | allowCaller caller perMinute =>
    refine attempt_sameCache (fun _ r c' _ hsome => mutate_sameCache ?_ hsome) h
    split
    · next engine hengine =>
      obtain ⟨-, rfl⟩ := EngineState.allowCaller_eq_ok hengine
      exact ⟨rfl, fun hq => hq.allowed hengine⟩
    · exact ⟨rfl, id⟩
  | enableSyntheticFixture =>
    obtain ⟨r', h', -⟩ := settle_eq_some h
    refine attempt_sameCache (fun _ r c' _ hsome => mutate_sameCache ?_ hsome) h'
    split
    · exact ⟨rfl, id⟩
    · exact ⟨rfl, fun hq => hq.congr rfl⟩
  | registerSchema schema qtypeId =>
    obtain ⟨r', h', -⟩ := settle_eq_some h
    refine attempt_sameCache (fun _ r c' _ hsome => mutate_sameCache ?_ hsome) h'
    split
    · next engine hengine =>
      obtain ⟨-, hcallers, hcache⟩ := EngineState.register_eq_ok hengine
      exact ⟨hcache, fun hq => hq.congr hcallers⟩
    · exact ⟨rfl, id⟩
  | registerCalibration calibration =>
    refine attempt_sameCache (fun _ r c' _ hsome => mutate_sameCache ?_ hsome) h
    split
    · next engine hengine =>
      obtain ⟨-, -, hcallers, hcache⟩ := EngineState.registerCalibration_eq_ok hengine
      exact ⟨hcache, fun hq => hq.congr hcallers⟩
    · exact ⟨rfl, id⟩
  | evaluate req => exact absurd rfl (hcall req)
  | beginUpload manifest tokenizerLength special =>
    obtain ⟨r', h', -⟩ := settle_eq_some h
    refine attempt_sameCache (fun _ r c' _ hsome => ?_) h'
    have hs := mutate_sameCache (c := { c with
      inference := none, model := none, builder := none, tokenizer := none }) ⟨rfl, id⟩ hsome
    exact ⟨hs.cache, hs.quotas⟩
  | uploadChunk offset bytes =>
    obtain ⟨r', h', -⟩ := settle_eq_some h
    refine attempt_sameCache (fun _ r c' _ hsome => mutate_sameCache ?_ hsome) h'
    split <;> exact ⟨rfl, id⟩
  | startWarmup =>
    obtain ⟨r', h', -⟩ := settle_eq_some h
    exact cells_sameCache (fun _ => rfl) h'
  | warmupNext =>
    obtain ⟨r', h', -⟩ := settle_eq_some h
    refine attempt_sameCache (fun b r c' _ hsome => ?_) h'
    split at hsome
    · have hs := attempt_sameCache (c := { c with builder := none }) (fun m r c' _ hsome => by
        have hs := mutate_sameCache (c := { c with builder := none, model := some m })
          ⟨rfl, fun hq => hq.congr rfl⟩ hsome
        exact ⟨hs.cache, hs.quotas⟩) hsome
      exact ⟨hs.cache, hs.quotas⟩
    · cases Option.some.inj hsome
      exact .of_engine rfl rfl
  | startTokenInference input id =>
    obtain ⟨r', h', -⟩ := settle_eq_some h
    exact cells_sameCache (fun _ => rfl) h'
  | startTokenInferenceBatch input requestId id fingerprint maxSteps begun =>
    obtain ⟨r', h', -⟩ := settle_eq_some h
    exact cells_sameCache (fun _ => rfl) h'
  | advanceTokenJob job expectedStep maxSteps =>
    obtain ⟨r', h', -⟩ := settle_eq_some h
    exact cells_sameCache (fun _ => rfl) h'

section Evaluations
variable {req : DecisionRequest Digest} {r : Result (Receipt Digest)}

/-- The engine's part of an evaluation runs on some tokenizer and backend, or on none. -/
theorem engineEvaluation_cases (c : Canister F Digest) (msg : CallContext)
    (req : DecisionRequest Digest) :
    (∃ t b, c.engineEvaluation msg req =
      c.persistent.engine.evaluate msg.caller req msg.time t b) ∨
      ∃ e, c.engineEvaluation msg req = ⟨.error e, c.persistent.engine, none⟩ := by
  unfold engineEvaluation
  dsimp only
  split
  · exact .inl ⟨_, _, rfl⟩
  · split
    · exact .inl ⟨_, _, rfl⟩
    · exact .inr ⟨_, rfl⟩

/-- What an evaluation by the engine does to the canister's state, once it was measured. -/
structure Measured (c : Canister F Digest) (msg : CallContext) (req : DecisionRequest Digest)
    (r : Result (Receipt Digest)) (engine : EngineState F Digest) : Prop where
  quotas : engine.Quotas
  cases : (c.engineEvaluation msg req).invoked = none ∧
      engine.cache = c.persistent.engine.cache ∧
      (∀ v, r = .ok v →
        engine.cache[(msg.caller, req.evaluationId)]? = some ⟨req.digest, .ok v⟩) ∨
    (c.engineEvaluation msg req).invoked.isSome = true ∧
      c.persistent.engine.cache[(msg.caller, req.evaluationId)]? = none ∧
      engine.cache = c.persistent.engine.cache.insert (msg.caller, req.evaluationId) ⟨req.digest, r⟩

/-- An evaluation that left the engine as it was leaves the canister's state as it was. -/
theorem measured_quiet (c : Canister F Digest) (msg : CallContext) (req : DecisionRequest Digest)
    (ev : Evaluation F Digest) (hs : ev.state = c.persistent.engine) :
    (c.measured msg req ev).2 = c.persistent.engine ∧
      (∀ e, ev.result = .error e → (c.measured msg req ev).1 = .error e) ∧
      (c.persistent.engine.cache.contains (msg.caller, req.evaluationId) = true →
        (c.measured msg req ev).1 = ev.result) := by
  unfold measured
  dsimp only
  split
  · exact ⟨hs, fun e he => he, fun _ => rfl⟩
  · next hn =>
    rw [hs, (contains_false_iff_get _ _).mp (Bool.not_eq_true _ ▸ hn)]
    refine ⟨rfl, fun e he => ?_, fun hc => absurd hc hn⟩
    dsimp only
    rw [he]
    rfl

theorem measured_spec (hq : c.persistent.engine.Quotas) (msg : CallContext)
    (req : DecisionRequest Digest) : Measured c msg req
      (c.measured msg req (c.engineEvaluation msg req)).1
      (c.measured msg req (c.engineEvaluation msg req)).2 := by
  obtain ⟨t, b, he⟩ | ⟨e, he⟩ := engineEvaluation_cases c msg req
  · have hafter := hq.after (.evaluate msg.caller req msg.time t b)
    have hcases := @EngineState.evaluate_cases F Digest _ _ c.persistent.engine msg.caller req msg.time
      t b fun q h => (hq msg.caller q h).1
    obtain ⟨schema, temp, input, quota, hr⟩ | ⟨hnone, hsame, hcached⟩ := hcases
    · rw [he, EngineState.evaluate_reached hr]
      have hquotas : (c.persistent.engine.record msg.caller req
          (EngineState.spend quota msg.time) (EngineState.assess req schema temp input b)).Quotas := by
        simp only [EngineState.after, EngineState.evaluate_reached hr] at hafter
        exact hafter
      have hfresh : ¬c.persistent.engine.cache.contains (msg.caller, req.evaluationId) = true := by
        rw [Bool.not_eq_true, contains_false_iff_get]
        exact hr.uncached
      unfold measured
      dsimp only
      rw [if_neg hfresh]
      simp only [EngineState.record, get_insert_self, insert_insert]
      refine ⟨hquotas.congr rfl, .inr ⟨?_, hr.uncached, rfl⟩⟩
      rw [he, EngineState.evaluate_reached hr]
      rfl
    · rw [he]
      obtain ⟨hstate, herror, hresult⟩ := c.measured_quiet msg req _ hsame
      rw [hstate]
      refine ⟨hq, .inl ⟨he ▸ hnone, rfl, fun v hv => ?_⟩⟩
      cases hget : c.persistent.engine.cache[(msg.caller, req.evaluationId)]? with
      | none =>
        obtain ⟨e, hfail⟩ := EngineState.evaluate_error hget hnone
        rw [herror e hfail] at hv
        cases hv
      | some entry =>
        rw [hresult ((contains_iff_get _ _).mpr ⟨entry, hget⟩)] at hv
        obtain ⟨e, _, hfail⟩ | ⟨_, hreplay⟩ := hcached entry hget
        · rw [hfail] at hv
          cases hv
        · rw [hreplay] at hv
          split at hv
          · next hsame => rw [← hv, ← hsame]
          · cases hv
  · rw [he]
    obtain ⟨hstate, herror, -⟩ := c.measured_quiet msg req ⟨.error e, c.persistent.engine, none⟩ rfl
    rw [hstate, herror e rfl]
    exact ⟨hq, .inl ⟨by rw [he], rfl, fun v hv => by cases hv⟩⟩

/-- An evaluation that is answered. -/
theorem evaluate_eq_some (hq : c.persistent.engine.Quotas)
    (h : c.evaluate l msg req = some (r, c')) : c'.persistent.engine.Quotas ∧
      (c.asked l msg (.evaluate req) = none ∧
          c'.persistent.engine.cache = c.persistent.engine.cache ∧
          (∀ v, r = .ok v → c'.persistent.engine.cache[(msg.caller, req.evaluationId)]? =
            some ⟨req.digest, .ok v⟩) ∨
        c.asked l msg (.evaluate req) = some (msg.caller, req.evaluationId) ∧
          c.persistent.engine.cache[(msg.caller, req.evaluationId)]? = none ∧
          c'.persistent.engine.cache =
            c.persistent.engine.cache.insert (msg.caller, req.evaluationId) ⟨req.digest, r⟩) := by
  rcases attempt_eq_some.mp h with ⟨_, hadmit, hsome⟩ | ⟨e, hadmit, heq⟩
  · obtain ⟨p, m, m', hf, -, rfl⟩ := mutate_eq_some hsome
    obtain ⟨hquotas, hcases⟩ := measured_spec hq msg req
    simp only [Prod.mk.injEq] at hf
    obtain ⟨hr, rfl, rfl⟩ := hf
    have hreply : (c.measured msg req (c.engineEvaluation msg req)).1 = r := by
      cases r with
      | ok v => exact call_eq_ok.mp hr
      | error e => exact call_eq_raise.mp hr
    rw [hreply] at hcases
    refine ⟨hquotas, ?_⟩
    obtain ⟨hnone, hcache, hstored⟩ | ⟨hsome, hfresh, hcache⟩ := hcases
    · exact .inl ⟨by simp only [asked, hadmit, hnone, Option.map_none], hcache, hstored⟩
    · obtain ⟨input, hinput⟩ := Option.isSome_iff_exists.mp hsome
      exact .inr ⟨by simp only [asked, hadmit, hinput, Option.map_some], hfresh, hcache⟩
  · cases heq
    exact ⟨hq, .inl ⟨by simp only [asked, hadmit], rfl, fun v hv => by cases hv⟩⟩

/-- What is cached stays cached with its result, and what is new was asked for. -/
structure Keeps (c c' : Canister F Digest) (asked : Option (Principal × Digest)) : Prop where
  quotas : c'.persistent.engine.Quotas
  kept : ∀ (k : Principal × Digest) v, c.persistent.engine.cache[k]? = some v →
    c'.persistent.engine.cache[k]? = some v
  fresh : ∀ k ∈ asked, c.persistent.engine.cache.contains k = false
  origin : ∀ k, c'.persistent.engine.cache.contains k = true ↔
    c.persistent.engine.cache.contains k = true ∨ k ∈ asked

theorem Keeps.of_cache (hq : c'.persistent.engine.Quotas)
    (h : c'.persistent.engine.cache = c.persistent.engine.cache) : Keeps c c' none := by
  refine ⟨hq, fun k v hk => h ▸ hk, fun k hk => absurd hk (Option.not_mem_none k), fun k => ?_⟩
  rw [h]
  exact (or_iff_left (Option.not_mem_none k)).symm

theorem Keeps.of_insert {k : Principal × Digest} {v : Cached Digest}
    (hq : c'.persistent.engine.Quotas) (hk : c.persistent.engine.cache[k]? = none)
    (h : c'.persistent.engine.cache = c.persistent.engine.cache.insert k v) :
    Keeps c c' (some k) := by
  refine ⟨hq, fun a x ha => ?_, fun a ha => ?_, fun a => ?_⟩
  · rw [h, get_insert_ne]
    · exact ha
    · rintro rfl
      rw [hk] at ha
      cases ha
  · cases ha
    exact (contains_false_iff_get _ _).mpr hk
  · rw [h, Option.mem_some_iff, contains_iff_get, contains_iff_get, get_insert]
    split
    · next he => exact ⟨fun _ => .inr he.symm, fun _ => ⟨v, rfl⟩⟩
    · next he => exact ⟨.inl, fun h => h.resolve_right fun heq => he heq.symm⟩

theorem evaluate_keeps (hq : c.persistent.engine.Quotas)
    (h : c.evaluate l msg req = some (r, c')) : Keeps c c' (c.asked l msg (.evaluate req)) := by
  obtain ⟨hquotas, ⟨hnone, hcache, -⟩ | ⟨hsome, hfresh, hcache⟩⟩ := evaluate_eq_some hq h
  · rw [hnone]
    exact .of_cache hquotas hcache
  · rw [hsome]
    exact .of_insert hquotas hfresh hcache

theorem perform_keeps (hb : l.bincode.Inverts) (hq : c.persistent.engine.Quotas)
    {call : UpdateCall F Digest} {r : Result Unit} (h : c.perform l msg call = some (r, c')) :
    Keeps c c' (c.asked l msg call) := by
  by_cases hcall : ∀ req, call ≠ .evaluate req
  · obtain ⟨hcache, hquotas⟩ := perform_sameCache hb hcall h
    have hnone : c.asked l msg call = none := by
      cases call with
      | evaluate req => exact absurd rfl (hcall req)
      | _ => rfl
    rw [hnone]
    exact .of_cache (hquotas hq) hcache
  · rw [not_forall] at hcall
    obtain ⟨req, hcall⟩ := hcall
    rw [not_not] at hcall
    subst hcall
    obtain ⟨r', h', -⟩ := settle_eq_some h
    exact evaluate_keeps hq h'

/-- A successful evaluation is answered with what the cache holds of it. -/
theorem evaluate_cached (hq : c.persistent.engine.Quotas) {v : Receipt Digest}
    (h : c.evaluate l msg req = some (.ok v, c')) :
    c'.persistent.engine.cache[(msg.caller, req.evaluationId)]? = some ⟨req.digest, .ok v⟩ := by
  obtain ⟨-, ⟨-, -, hstored⟩ | ⟨-, -, hcache⟩⟩ := evaluate_eq_some hq h
  · exact hstored v rfl
  · rw [hcache, get_insert_self]

end Evaluations

end Canister
end IcLaya
