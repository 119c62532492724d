import IcLaya.Fixtures

/-!
# Runs of the decision engine

Over any sequence of calls, with any tokenizer and backend at each: one inference for a caller
and an evaluation id, its result replayed ever after, nothing changed by a call that infers
nothing, and no more inferences in a minute than the caller's quota.
-/
namespace IcLaya
open Std (ExtTreeMap)
open Fallible OrderedMaps TransitionSystems

variable {F Digest : Type} [Doubles F] [Hashing Digest]

inductive EngineCall (F Digest : Type)
  | allowCaller (p : Principal) (perMinute : UInt32)
  | register (schema : CompiledSchema Digest)
  | registerCalibration (calibration : Calibration F Digest) (now : UInt64)
  | evaluate (caller : Principal) (req : DecisionRequest Digest) (now : UInt64)
      (tokenizer : TextTokenizer Digest) (backend : InferenceBackend Digest)

/-- The time at which a call reads the clock. -/
def EngineCall.time : EngineCall F Digest → Option UInt64
  | .registerCalibration _ now => some now
  | .evaluate _ _ now _ _ => some now
  | _ => none

/-- One inference of the backend. -/
structure Invocation (Digest : Type) where
  caller : Principal
  evaluationId : Digest
  now : UInt64

def Invocation.key (i : Invocation Digest) : Principal × Digest := (i.caller, i.evaluationId)

namespace EngineState

/-- The state a call leaves. -/
def after (s : EngineState F Digest) (c : EngineCall F Digest) : EngineState F Digest :=
  let orSame (x : Result (EngineState F Digest)) := match x with | .ok s' => s' | .error _ => s
  match c with
  | .allowCaller p perMinute => orSame (s.allowCaller p perMinute)
  | .register schema => orSame (s.register schema)
  | .registerCalibration calibration now => orSame (s.registerCalibration calibration now)
  | .evaluate caller req now tokenizer backend =>
    (s.evaluate caller req now tokenizer backend).state

def invocation (s : EngineState F Digest) : EngineCall F Digest → Option (Invocation Digest)
  | .evaluate caller req now tokenizer backend =>
    (s.evaluate caller req now tokenizer backend).invoked.map fun _ =>
      ⟨caller, req.evaluationId, now⟩
  | _ => none

/-- The inferences of a run, in order. -/
def invocations (s : EngineState F Digest) : List (EngineCall F Digest) → List (Invocation Digest)
  | [] => []
  | c :: cs => (s.invocation c).toList ++ (s.after c).invocations cs

section Steps
variable {s s' : EngineState F Digest}

omit [Doubles F] in
theorem allowCaller_eq_ok {p : Principal} {n : UInt32} (h : s.allowCaller p n = .ok s') :
    0 < n ∧ s' = { s with callers := s.callers.insert p ⟨0, 0, n⟩ } := by
  simp only [allowCaller, bind_eq_ok, rejectIf_eq_ok, pure_eq_ok, not_or] at h
  obtain ⟨-, ⟨-, -, hn, -⟩, -, -, rfl⟩ := h
  exact ⟨UInt32.pos_iff_ne_zero.mpr hn, rfl⟩

omit [Doubles F] in
theorem register_eq_ok {c : CompiledSchema Digest} (h : s.register c = .ok s') :
    s'.activeModel = s.activeModel ∧ s'.callers = s.callers ∧ s'.cache = s.cache := by
  simp only [register, bind_eq_ok] at h
  obtain ⟨-, -, h⟩ := h
  split at h
  · simp only [bind_eq_ok, rejectIf_eq_ok, pure_eq_ok] at h
    obtain ⟨-, -, rfl⟩ := h
    exact ⟨rfl, rfl, rfl⟩
  · simp only [bind_eq_ok, rejectIf_eq_ok, pure_eq_ok] at h
    obtain ⟨-, -, rfl⟩ := h
    exact ⟨rfl, rfl, rfl⟩

theorem registerCalibration_eq_ok {c : Calibration F Digest} {now : UInt64}
    (h : s.registerCalibration c now = .ok s') :
    s'.activeModel = s.activeModel ∧ s'.schemas = s.schemas ∧ s'.callers = s.callers ∧
      s'.cache = s.cache := by
  simp only [registerCalibration, bind_eq_ok] at h
  obtain ⟨-, -, -, -, -, -, h⟩ := h
  split at h
  · simp only [bind_eq_ok, rejectIf_eq_ok, pure_eq_ok] at h
    obtain ⟨-, -, rfl⟩ := h
    exact ⟨rfl, rfl, rfl, rfl⟩
  · simp only [bind_eq_ok, rejectIf_eq_ok, pure_eq_ok] at h
    obtain ⟨-, -, rfl⟩ := h
    exact ⟨rfl, rfl, rfl, rfl⟩

/-- What a call can do to the quotas and to the cache. -/
inductive EngineStep (s : EngineState F Digest) (s' : EngineState F Digest) :
    EngineCall F Digest → Prop
  | allowed (p : Principal) (n : UInt32) (hn : 0 < n)
      (hcallers : s'.callers = s.callers.insert p ⟨0, 0, n⟩) (hcache : s'.cache = s.cache) :
      EngineStep s s' (.allowCaller p n)
  | quiet (c : EngineCall F Digest) (hcallers : s'.callers = s.callers)
      (hcache : s'.cache = s.cache) (hnone : s.invocation c = none) : EngineStep s s' c
  | reached (caller : Principal) (req : DecisionRequest Digest) (now : UInt64)
      (tokenizer : TextTokenizer Digest) (backend : InferenceBackend Digest)
      (schema : CompiledSchema Digest) (temp : F) (input : TokenInput) (quota : CallerQuota)
      (h : s.Reaches caller req now tokenizer backend schema temp input quota)
      (hs : s' = s.record caller req (spend quota now) (assess req schema temp input backend))
      (hsome : s.invocation (.evaluate caller req now tokenizer backend) =
        some ⟨caller, req.evaluationId, now⟩) :
      EngineStep s s' (.evaluate caller req now tokenizer backend)

/-- Quotas that a caller was given, within their bounds. -/
def Quotas (s : EngineState F Digest) : Prop :=
  ∀ (p : Principal) (q : CallerQuota), s.callers[p]? = some q →
    0 < q.maxPerMinute ∧ q.used ≤ q.maxPerMinute

theorem step_after (hq : s.Quotas) (c : EngineCall F Digest) : EngineStep s (s.after c) c := by
  cases c with
  | allowCaller p n =>
    cases h : s.allowCaller p n with
    | error e => exact .quiet _ (by simp [after, h]) (by simp [after, h]) rfl
    | ok s' =>
      obtain ⟨hn, rfl⟩ := allowCaller_eq_ok h
      exact .allowed p n hn (by simp [after, h]) (by simp [after, h])
  | register schema =>
    cases h : s.register schema with
    | error e => exact .quiet _ (by simp [after, h]) (by simp [after, h]) rfl
    | ok s' =>
      obtain ⟨-, hcallers, hcache⟩ := register_eq_ok h
      exact .quiet _ (by simp [after, h, hcallers]) (by simp [after, h, hcache]) rfl
  | registerCalibration calibration now =>
    cases h : s.registerCalibration calibration now with
    | error e => exact .quiet _ (by simp [after, h]) (by simp [after, h]) rfl
    | ok s' =>
      obtain ⟨-, -, hcallers, hcache⟩ := registerCalibration_eq_ok h
      exact .quiet _ (by simp [after, h, hcallers]) (by simp [after, h, hcache]) rfl
  | evaluate caller req now tokenizer backend =>
    rcases evaluate_cases (fun q h => (hq caller q h).1) with ⟨schema, temp, input, quota, h⟩ | h
    · exact .reached _ _ _ _ _ schema temp input quota h (by rw [after, evaluate_reached h])
        (by rw [invocation, evaluate_reached h]; rfl)
    · obtain ⟨hnone, hsame, -⟩ := h
      exact .quiet _ (by rw [after, hsame]) (by rw [after, hsame]) (by rw [invocation, hnone]; rfl)

omit [Doubles F] in
theorem quotas_new (model : Digest) : (new model : EngineState F Digest).Quotas :=
  fun _ q h => nomatch (show (none : Option CallerQuota) = some q from h)

theorem spend_maxPerMinute (quota : CallerQuota) (now : UInt64) :
    (spend quota now).maxPerMinute = quota.maxPerMinute := renew_maxPerMinute

theorem spend_epoch (quota : CallerQuota) (now : UInt64) :
    (spend quota now).epoch = epochOf now := renew_epoch

theorem spend_used {quota : CallerQuota} {now : UInt64}
    (h : (renew quota now).used < (renew quota now).maxPerMinute) :
    (spend quota now).used.toNat = (renew quota now).used.toNat + 1 := by
  have hlt := UInt32.lt_iff_toNat_lt.mp h
  have hmax := (renew quota now).maxPerMinute.toNat_lt
  rw [spend, UInt32.toNat_add]
  exact Nat.mod_eq_of_lt (by simp; omega)

theorem Quotas.after (hq : s.Quotas) (c : EngineCall F Digest) : (s.after c).Quotas := by
  intro p q hp
  cases step_after hq c with
  | quiet _ hcallers => exact hq p q (hcallers ▸ hp)
  | allowed p' n hn hcallers =>
    rw [hcallers, get_insert] at hp
    split at hp
    · cases Option.some.inj hp
      exact ⟨hn, UInt32.zero_le⟩
    · exact hq p q hp
  | reached caller req now tokenizer backend schema temp input quota h hs =>
    rw [hs, record, get_insert] at hp
    split at hp
    · cases Option.some.inj hp
      refine ⟨spend_maxPerMinute quota now ▸ (hq _ _ (prepare_eq_ok h.prepared).2).1, ?_⟩
      rw [UInt32.le_iff_toNat_le, spend_used h.free, spend_maxPerMinute]
      have hmax : (renew quota now).maxPerMinute = quota.maxPerMinute := renew_maxPerMinute
      exact hmax ▸ UInt32.lt_iff_toNat_lt.mp h.free
    · exact hq p q hp

theorem quotas_run (hq : s.Quotas) (cs : List (EngineCall F Digest)) : (run after s cs).Quotas :=
  run_invariant Quotas (fun _ c h => h.after c) hq cs

/-- A cached evaluation stays cached. -/
theorem cached_after (hq : s.Quotas) (c : EngineCall F Digest) {k : Principal × Digest}
    {v : Cached Digest} (hk : s.cache[k]? = some v) : (s.after c).cache[k]? = some v := by
  cases step_after hq c with
  | quiet _ _ hcache => exact hcache ▸ hk
  | allowed p n hn hcallers hcache => exact hcache ▸ hk
  | reached caller req now tokenizer backend schema temp input quota h hs =>
    rw [hs, record, get_insert_ne _ fun he => ?_]
    · exact hk
    · rw [he, h.uncached] at hk
      cases hk

theorem cached_run (hq : s.Quotas) {k : Principal × Digest} {v : Cached Digest}
    (hk : s.cache[k]? = some v) (cs : List (EngineCall F Digest)) :
    (run after s cs).cache[k]? = some v :=
  run_stable Quotas (fun s => s.cache[k]? = some v) (fun _ c h => h.after c)
    (fun _ c h hs => cached_after h c hs) hq hk cs

/-- An inference is made for a key that is not cached, and leaves it cached. -/
theorem invocation_eq_some (hq : s.Quotas) {c : EngineCall F Digest} {i : Invocation Digest}
    (h : s.invocation c = some i) :
    s.cache[i.key]? = none ∧ ∃ v, (s.after c).cache[i.key]? = some v := by
  cases step_after hq c with
  | quiet _ _ _ hnone => cases hnone.symm.trans h
  | allowed => cases h
  | reached caller req now tokenizer backend schema temp input quota hr hs hsome =>
    cases Option.some.inj (hsome.symm.trans h)
    refine ⟨hr.uncached, ⟨req.digest, assess req schema temp input backend⟩, ?_⟩
    rw [hs]
    exact get_insert_self _ _ _

theorem not_invoked_of_cached (hq : s.Quotas) {k : Principal × Digest} {v : Cached Digest}
    (hk : s.cache[k]? = some v) (cs : List (EngineCall F Digest)) :
    ∀ i ∈ s.invocations cs, i.key ≠ k := by
  induction cs generalizing s with
  | nil => exact fun i hi => nomatch hi
  | cons c cs ih =>
    intro i hi he
    rcases List.mem_append.mp hi with hi | hi
    · have hnone := (invocation_eq_some hq (Option.mem_toList.mp hi)).1
      rw [he, hk] at hnone
      cases hnone
    · exact ih (hq.after c) (cached_after hq c hk) i hi he

/-- No caller's evaluation id is inferred twice. -/
theorem invocations_nodup (hq : s.Quotas) (cs : List (EngineCall F Digest)) :
    ((s.invocations cs).map Invocation.key).Nodup := by
  induction cs generalizing s with
  | nil => exact List.nodup_nil
  | cons c cs ih =>
    rw [invocations]
    cases hc : s.invocation c with
    | none => exact ih (hq.after c)
    | some i =>
      obtain ⟨-, v, hv⟩ := invocation_eq_some hq hc
      refine List.nodup_cons.mpr ⟨fun hmem => ?_, ih (hq.after c)⟩
      obtain ⟨j, hj, hkey⟩ := List.mem_map.mp hmem
      exact not_invoked_of_cached (hq.after c) hv cs j hj hkey

/-- The inferences of a run that a caller causes in one epoch. -/
def inferred (p : Principal) (e : UInt64) (is : List (Invocation Digest)) : ℕ :=
  is.countP fun i => decide (i.caller = p ∧ epochOf i.now = e)

/-- What a call that does not set a caller's quota does to it. -/
theorem quota_after (hq : s.Quotas) {p : Principal} {c : EngineCall F Digest}
    (hc : ∀ n, c ≠ .allowCaller p n) :
    ((s.after c).callers[p]? = s.callers[p]? ∧ ∀ i, s.invocation c = some i → i.caller ≠ p) ∨
    ∃ quota id now, s.callers[p]? = some quota ∧ s.invocation c = some ⟨p, id, now⟩ ∧
      c.time = some now ∧ (renew quota now).used < (renew quota now).maxPerMinute ∧
      (s.after c).callers[p]? = some (spend quota now) := by
  cases step_after hq c with
  | quiet _ hcallers _ hnone =>
    exact .inl ⟨by rw [hcallers], fun i hi => nomatch hnone.symm.trans hi⟩
  | allowed p' n hn hcallers =>
    refine .inl ⟨?_, fun i hi => nomatch hi⟩
    rw [hcallers, get_insert_ne]
    exact fun he => hc n (he ▸ rfl)
  | reached caller req now tokenizer backend schema temp input quota h hs hsome =>
    by_cases hp : p = caller
    · subst hp
      refine .inr ⟨quota, req.evaluationId, now, (prepare_eq_ok h.prepared).2, hsome, rfl, h.free,
        ?_⟩
      rw [hs]
      exact get_insert_self _ _ _
    · refine .inl ⟨?_, fun i hi => ?_⟩
      · rw [hs]
        exact get_insert_ne _ hp _
      · cases Option.some.inj (hsome.symm.trans hi)
        exact Ne.symm hp

/-- An inference happens at the time of its call. -/
theorem time_of_invocation {c : EngineCall F Digest} {i : Invocation Digest}
    (h : s.invocation c = some i) : c.time = some i.now := by
  cases c with
  | evaluate caller req now tokenizer backend =>
    obtain ⟨-, -, rfl⟩ := Option.map_eq_some_iff.mp h
    rfl
  | allowCaller => cases h
  | register => cases h
  | registerCalibration => cases h

theorem time_of_mem {cs : List (EngineCall F Digest)} {i : Invocation Digest}
    (h : i ∈ s.invocations cs) : i.now ∈ cs.filterMap EngineCall.time := by
  induction cs generalizing s with
  | nil => cases h
  | cons c cs ih =>
    rcases List.mem_append.mp h with hi | hi
    · exact List.mem_filterMap.mpr ⟨c, List.mem_cons_self, time_of_invocation (Option.mem_toList.mp hi)⟩
    · obtain ⟨c', hc', ht⟩ := List.mem_filterMap.mp (ih hi)
      exact List.mem_filterMap.mpr ⟨c', List.mem_cons_of_mem c hc', ht⟩

theorem epochOf_mono {a b : UInt64} (h : a ≤ b) : epochOf a ≤ epochOf b := by
  rw [UInt64.le_iff_toNat_le] at h ⊢
  rw [epochOf, epochOf, UInt64.toNat_div, UInt64.toNat_div]
  exact Nat.div_le_div_right h

section Minutes
variable {p : Principal} {e : UInt64} {c : EngineCall F Digest} {cs : List (EngineCall F Digest)}

theorem inferred_cons_none (h : ∀ i, s.invocation c = some i → i.caller ≠ p) :
    inferred p e (s.invocations (c :: cs)) = inferred p e ((s.after c).invocations cs) := by
  rw [invocations]
  cases hc : s.invocation c with
  | none => rfl
  | some i => exact List.countP_cons_of_neg (by simp [h i hc])

theorem inferred_cons_some {id : Digest} {now : UInt64} (h : s.invocation c = some ⟨p, id, now⟩) :
    inferred p e (s.invocations (c :: cs)) =
      inferred p e ((s.after c).invocations cs) + if epochOf now = e then 1 else 0 := by
  rw [invocations, h]
  show List.countP _ (_ :: _) = _
  rw [List.countP_cons]
  simp [inferred]

/-- No inference falls in an epoch that is over. -/
theorem inferred_of_later (h : ∀ t ∈ cs.filterMap EngineCall.time, e < epochOf t) :
    inferred p e (s.invocations cs) = 0 := by
  refine List.countP_eq_zero.mpr fun i hi => ?_
  have hlt := h i.now (time_of_mem hi)
  simp only [decide_eq_true_eq, not_and]
  exact fun _ he => UInt64.lt_irrefl e (he ▸ hlt)

omit [Doubles F] [Hashing Digest] in
theorem times_cons (h : ((c :: cs).filterMap EngineCall.time).Pairwise (· ≤ ·)) :
    (cs.filterMap EngineCall.time).Pairwise (· ≤ ·) ∧
      ∀ now, c.time = some now → ∀ t ∈ cs.filterMap EngineCall.time, now ≤ t := by
  cases hc : c.time with
  | none =>
    rw [List.filterMap_cons_none hc] at h
    exact ⟨h, fun now hn => nomatch hn⟩
  | some t =>
    rw [List.filterMap_cons_some hc, List.pairwise_cons] at h
    exact ⟨h.2, fun now hn => Option.some.inj hn ▸ h.1⟩

/-- In the epoch that a quota counts, what it counted and what is still to come stay within it. -/
theorem inferred_within (hq : s.Quotas) {quota : CallerQuota} (hp : s.callers[p]? = some quota)
    (hcs : ∀ n, .allowCaller p n ∉ cs) (ht : (cs.filterMap EngineCall.time).Pairwise (· ≤ ·))
    (he : quota.epoch = e) (hlate : ∀ t ∈ cs.filterMap EngineCall.time, e ≤ epochOf t) :
    inferred p e (s.invocations cs) + quota.used.toNat ≤ quota.maxPerMinute.toNat := by
  induction cs generalizing s quota with
  | nil =>
    rw [show inferred p e (s.invocations []) = 0 from rfl, Nat.zero_add]
    exact UInt32.le_iff_toNat_le.mp (hq p quota hp).2
  | cons c cs ih =>
    have hrest : ∀ n, .allowCaller p n ∉ cs := fun n hn => hcs n (List.mem_cons_of_mem c hn)
    have hlate' : ∀ t ∈ cs.filterMap EngineCall.time, e ≤ epochOf t := fun t hmem => by
      obtain ⟨c', hc', hct⟩ := List.mem_filterMap.mp hmem
      exact hlate t (List.mem_filterMap.mpr ⟨c', List.mem_cons_of_mem c hc', hct⟩)
    obtain ⟨ht', hfirst⟩ := times_cons ht
    rcases quota_after hq (fun n hn => hcs n (hn ▸ List.mem_cons_self)) with
      ⟨hsame, hnone⟩ | ⟨q, id, now, hquota, hsome, htime, hfree, hspent⟩
    · rw [inferred_cons_none hnone]
      exact ih (hq.after c) (hsame.trans hp) hrest ht' he hlate'
    · cases Option.some.inj (hp.symm.trans hquota)
      have hnow : e ≤ epochOf now :=
        hlate now (List.mem_filterMap.mpr ⟨c, List.mem_cons_self, htime⟩)
      rw [inferred_cons_some hsome]
      by_cases hin : epochOf now = e
      · have hrenew : renew quota now = quota := if_neg (not_not.mpr (he.trans hin.symm))
        have hspend := spend_used hfree
        have hcount := ih (hq.after c) hspent hrest ht' ((spend_epoch quota now).trans hin) hlate'
        rw [spend_maxPerMinute, hspend, hrenew] at hcount
        rw [if_pos hin]
        omega
      · have hover : ∀ t ∈ cs.filterMap EngineCall.time, e < epochOf t := fun t hmem =>
          UInt64.lt_of_lt_of_le (UInt64.lt_of_le_of_ne hnow (Ne.symm hin))
            (epochOf_mono (hfirst now htime t hmem))
        rw [inferred_of_later hover, if_neg hin]
        have hused := UInt32.le_iff_toNat_le.mp (hq p quota hp).2
        omega

/-- Calls that never go back in time infer no more in one epoch than the caller's quota. -/
theorem inferred_le_quota (hq : s.Quotas) (hcs : ∀ n, .allowCaller p n ∉ cs)
    (ht : (cs.filterMap EngineCall.time).Pairwise (· ≤ ·)) :
    inferred p e (s.invocations cs) ≤ (s.callers[p]?).elim 0 (·.maxPerMinute.toNat) := by
  induction cs generalizing s with
  | nil => exact Nat.zero_le _
  | cons c cs ih =>
    have hrest : ∀ n, .allowCaller p n ∉ cs := fun n hn => hcs n (List.mem_cons_of_mem c hn)
    obtain ⟨ht', hfirst⟩ := times_cons ht
    rcases quota_after hq (fun n hn => hcs n (hn ▸ List.mem_cons_self)) with
      ⟨hsame, hnone⟩ | ⟨quota, id, now, hquota, hsome, htime, hfree, hspent⟩
    · rw [inferred_cons_none hnone, ← hsame]
      exact ih (hq.after c) hrest ht'
    · rw [inferred_cons_some hsome, hquota, Option.elim_some]
      by_cases hin : epochOf now = e
      · have hlate : ∀ t ∈ cs.filterMap EngineCall.time, e ≤ epochOf t := fun t hmem =>
          hin ▸ epochOf_mono (hfirst now htime t hmem)
        have hcount := inferred_within (hq.after c) hspent hrest ht'
          ((spend_epoch quota now).trans hin) hlate
        rw [spend_maxPerMinute, spend_used hfree] at hcount
        rw [if_pos hin]
        omega
      · have hcount := ih (hq.after c) hrest ht'
        rw [hspent, Option.elim_some, spend_maxPerMinute] at hcount
        rw [if_neg hin]
        exact hcount

end Minutes

section Replay
variable {caller : Principal} {req req' : DecisionRequest Digest} {now now' : UInt64}
  {tokenizer tokenizer' : TextTokenizer Digest} {backend backend' : InferenceBackend Digest}

theorem small_of_precheck {x : CompiledSchema Digest × F}
    (h : s.precheck caller req now backend = .ok x) : req.state.utf8ByteSize < 2 ^ 64 := by
  have hsize := (precheck_eq_ok h).2.1
  unfold maxStateBytes at hsize
  omega

/-- After its inference, an evaluation id answers an equal request as it did then, or with an error
of the checks before the cache, and any other request with an error. -/
theorem replayed (hcf : CollisionFree Digest) (hq : s.Quotas)
    (h : (s.evaluate caller req now tokenizer backend).invoked ≠ none)
    (cs : List (EngineCall F Digest)) (hid : req'.evaluationId = req.evaluationId)
    (hs : run after s (.evaluate caller req now tokenizer backend :: cs) = s') :
    (s'.evaluate caller req' now' tokenizer' backend').invoked = none ∧
      ((∃ e, s'.precheck caller req' now' backend' = .error e ∧
        (s'.evaluate caller req' now' tokenizer' backend').result = .error e) ∨
      (s'.evaluate caller req' now' tokenizer' backend').result =
        if req' = req then (s.evaluate caller req now tokenizer backend).result
        else .error .idConflict) := by
  rcases evaluate_cases (fun q h => (hq caller q h).1) with
    ⟨schema, temp, input, quota, hreach⟩ | ⟨hnone, -⟩
  · have hcached : (s.after (.evaluate caller req now tokenizer backend)).cache[
        (caller, req'.evaluationId)]? =
        some ⟨req.digest, (s.evaluate caller req now tokenizer backend).result⟩ := by
      rw [after, evaluate_reached hreach, hid]
      exact get_insert_self _ _ _
    rw [run_cons] at hs
    have hlater := cached_run (hq.after (.evaluate caller req now tokenizer backend)) hcached cs
    have hq' := quotas_run (hq.after (.evaluate caller req now tokenizer backend)) cs
    rw [hs] at hlater hq'
    rcases evaluate_cases (fun q h => (hq' caller q h).1) with ⟨_, _, _, _, hreach'⟩ | h'
    · cases hreach'.uncached.symm.trans hlater
    · obtain ⟨hnone, -, hanswer⟩ := h'
      refine ⟨hnone, ?_⟩
      rcases hanswer _ hlater with herror | ⟨⟨x, hx⟩, hresult⟩
      · exact .inl herror
      · refine .inr (hresult.trans ?_)
        by_cases he : req' = req
        · rw [if_pos he, if_pos (he ▸ rfl)]
        · rw [if_neg he, if_neg fun hd => he ?_]
          exact (DecisionRequest.digest_inj hcf (small_of_precheck hreach.checked)
            (small_of_precheck hx) hd).symm
  · exact absurd hnone h

end Replay
end Steps
end EngineState

open EngineState in
theorem engine_evaluates_once (hcf : CollisionFree Digest) (model : Digest)
    {calls : List (EngineCall F Digest)} {s : EngineState F Digest}
    (hs : run after (new model) calls = s) :
    (((new model : EngineState F Digest).invocations calls).map Invocation.key).Nodup ∧
      (∀ caller req now tokenizer backend,
        (s.evaluate caller req now tokenizer backend).invoked ≠ none →
        ∀ cs req' now' tokenizer' backend', req'.evaluationId = req.evaluationId →
          let s' := run after s (.evaluate caller req now tokenizer backend :: cs)
          (s'.evaluate caller req' now' tokenizer' backend').invoked = none ∧
            ((∃ e, s'.precheck caller req' now' backend' = .error e ∧
              (s'.evaluate caller req' now' tokenizer' backend').result = .error e) ∨
            (s'.evaluate caller req' now' tokenizer' backend').result =
              if req' = req then (s.evaluate caller req now tokenizer backend).result
              else .error .idConflict)) ∧
      (∀ caller req now tokenizer backend,
        (s.evaluate caller req now tokenizer backend).invoked = none →
          (s.evaluate caller req now tokenizer backend).state = s) ∧
      ∀ p e cs, (∀ n, .allowCaller p n ∉ cs) →
        (cs.filterMap EngineCall.time).Pairwise (· ≤ ·) →
        inferred p e (s.invocations cs) ≤ (s.callers[p]?).elim 0 (·.maxPerMinute.toNat) := by
  have hq : s.Quotas := hs ▸ quotas_run (quotas_new model) calls
  refine ⟨invocations_nodup (quotas_new model) calls, fun caller req now tokenizer backend h cs req'
    now' tokenizer' backend' hid => replayed hcf hq h cs hid rfl,
    fun caller req now tokenizer backend h => ?_, fun p e cs hcs ht => inferred_le_quota hq hcs ht⟩
  rcases evaluate_cases (fun q h => (hq caller q h).1) with ⟨_, _, _, _, hreach⟩ | ⟨-, hsame, -⟩
  · rw [evaluate_reached hreach] at h
    cases h
  · exact hsame

/-! A caller that may ask once a minute, and the demonstration schema. -/
namespace EngineState.Sample
open Demo

def caller : Principal := ⟨[1, 5], by decide⟩

def request : DecisionRequest SymbolicDigest where
  evaluationId := ⟨[1]⟩
  schemaHash := refundRequested.digest (fixtureTokenizer : TextTokenizer SymbolicDigest).fingerprint
  model := fixtureBundle
  calibration := none
  binding := none
  state := "The customer asks for a refund"
  expiresAtNs := 1000

def calls : List (EngineCall ℚ SymbolicDigest) := .allowCaller caller 1 ::
  ((compile refundRequested fixtureTokenizer 1).toOption.toList.map .register)

def state : EngineState ℚ SymbolicDigest := run after (new fixtureBundle) calls

def evaluation (now : UInt64) : EngineCall ℚ SymbolicDigest :=
  .evaluate caller request now fixtureTokenizer fixtureBackend

end EngineState.Sample

open EngineState Demo in
theorem engine_evaluates_once_sample :
    ((run after Sample.state [Sample.evaluation 5]).evaluate Sample.caller Sample.request 6
        fixtureTokenizer fixtureBackend).invoked = none ∧
      inferred Sample.caller 0 (Sample.state.invocations [Sample.evaluation 5]) ≤ 1 := by
  have h := engine_evaluates_once SymbolicDigest.collisionFree fixtureBundle
    (rfl : _ = Sample.state)
  exact ⟨(h.2.1 Sample.caller Sample.request 5 fixtureTokenizer fixtureBackend (by decide +kernel)
    [] Sample.request 6 fixtureTokenizer fixtureBackend rfl).1,
    (h.2.2.2 Sample.caller 0 [Sample.evaluation 5] (by simp [Sample.evaluation])
      (List.pairwise_singleton _ _)).trans (by decide +kernel)⟩

end IcLaya
