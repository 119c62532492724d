import IcLaya.QuantizedEngine
import IcLaya.QueryService
import IcLaya.SessionFailures

/-!
# The progress of a session

Every attempt of a call carries the same input or the same state, with widths that only halve. With
an honest canister a session always holds a state after the phases it counts, so a reply is accepted
and a call adds exactly its last width, or what was left.
-/
namespace IcLaya
open Fallible PanickingCode RaisingMethods StagedRuns WordStreams

namespace QuerySession
variable {Logit : Type} {x : Texts Logit} {z : Zlib} {icp : ℕ → Request → Attempt}
  {s s' s₁ : QuerySession Logit} {method : QueryMethod} {bytes : List UInt8} {w w' : ℤ}

/-- The next width of a call: the same, or the half of one above one. -/
def Shrinks (w w' : ℤ) : Prop := w' = w ∨ 1 < w ∧ w' = w / 2

/-- The attempts of a call, by their widths. -/
structure Attempts (method : QueryMethod) (s s' : QuerySession Logit) (ws : List ℤ) : Prop where
  sent : ∃ requests, s'.sent = s.sent ++ requests ∧ List.Forall₂
    (fun w request => request.method = method ∧ s.payload w = .ok request.payload) ws requests
  shrinks : ws.IsChain Shrinks
  first : ws.head? = some s.steps
  last : ws.getLast? = some s'.steps
  widths : ∀ w ∈ ws, 1 ≤ w ∧ w ≤ s.steps

/-- The last attempt replied, or raised what the call raises. -/
def Ended (icp : ℕ → Request → Attempt) (method : QueryMethod) (s' : QuerySession Logit)
    (r : Except Failure (List UInt8 × String)) : Prop :=
  ∃ n request, s'.sent.length = n + 1 ∧ s'.sent.getLast? = some request ∧ request.method = method ∧
    match r with
    | .ok (bytes, text) => s'.payload s'.steps = .ok bytes ∧ request.payload = bytes ∧
      icp n request = .reply text
    | .error e => icp n request = .escapes e ∨ ∃ timeout, icp n request = .raises timeout e

theorem payload_of_ok (h : s.payload w = .ok bytes) (hw' : 1 ≤ w' ∧ w' ≤ 16) :
    ∃ bytes', s.payload w' = .ok bytes' := by
  have hpass : ¬¬(1 ≤ w' ∧ w' ≤ 16) := not_not.mpr hw'
  unfold payload at h ⊢
  cases hp : s.progress with
  | some p => exact ⟨_, rejectIf_bind hpass _ _⟩
  | none =>
    rw [hp] at h
    dsimp only at h ⊢
    cases hfused : s.fusedBegin with
    | false =>
      rw [hfused] at h
      exact ⟨bytes, h⟩
    | true =>
      rw [hfused] at h
      simp only [encodeInput, if_true, bind_eq_ok, rejectIf_eq_ok] at h ⊢
      obtain ⟨_, hbounds, _, hwords, -⟩ := h
      exact ⟨_, (), hbounds, (), hwords, (), hpass, rfl⟩

/-- The only attempt of a call. -/
theorem Attempts.single (hbytes : s.payload s.steps = .ok bytes) (hpos : 1 ≤ s.steps)
    (hsent : s'.sent = s.sent ++ [⟨method, bytes⟩]) (hsteps : s'.steps = s.steps) :
    Attempts method s s' [s.steps] where
  sent := ⟨_, hsent, .cons ⟨rfl, hbytes⟩ .nil⟩
  shrinks := .singleton _
  first := rfl
  last := by rw [hsteps]; rfl
  widths := fun w hw => by rw [List.mem_singleton.mp hw]; exact ⟨hpos, le_refl _⟩

/-- An attempt before others. -/
theorem Attempts.cons {ws : List ℤ} (h : Attempts method s₁ s' ws)
    (hbytes : s.payload s.steps = .ok bytes) (hpos : 1 ≤ s.steps)
    (hsent : s₁.sent = s.sent ++ [⟨method, bytes⟩]) (hpayload : s₁.payload = s.payload)
    (hshrinks : Shrinks s.steps s₁.steps) (hle : s₁.steps ≤ s.steps) :
    Attempts method s s' (s.steps :: ws) where
  sent := by
    obtain ⟨requests, hs', hall⟩ := h.sent
    rw [hpayload] at hall
    refine ⟨⟨method, bytes⟩ :: requests, ?_, .cons ⟨rfl, hbytes⟩ hall⟩
    rw [hs', hsent, List.append_assoc, List.singleton_append]
  shrinks := by
    cases ws with
    | nil => exact absurd h.first (by simp)
    | cons w ws =>
      have hw : w = s₁.steps := Option.some.inj h.first
      exact List.isChain_cons_cons.mpr ⟨hw ▸ hshrinks, h.shrinks⟩
  first := rfl
  last := by
    cases ws with
    | nil => exact absurd h.first (by simp)
    | cons w ws => rw [List.getLast?_cons_cons]; exact h.last
  widths := by
    intro w hw
    rcases List.mem_cons.mp hw with rfl | hw
    · exact ⟨hpos, le_refl _⟩
    · exact ⟨(h.widths w hw).1, (h.widths w hw).2.trans hle⟩

theorem getLast_send (s : QuerySession Logit) (request : Request) :
    (s.send request).sent.length = s.sent.length + 1 ∧
      (s.send request).sent.getLast? = some request := by
  simp [send]

variable (x icp method) in
/-- Each attempt either uses up a retry or halves the width. -/
theorem attempted (hpos : 1 ≤ s.steps ∧ s.steps ≤ 16) (hbytes : s.payload s.steps = .ok bytes)
    (attempts : ℕ) {k : ℕ} (hk : s.steps < 2 ^ (k + 1)) :
    ∃ ws, Attempts method s (attemptLoop x icp method s bytes attempts).2 ws ∧
      ws.length ≤ 1 + (s.retries - attempts) + k ∧
      Ended icp method (attemptLoop x icp method s bytes attempts).2
        (attemptLoop x icp method s bytes attempts).1 := by
  fun_induction attemptLoop x icp method s bytes attempts generalizing k with
  | case1 s bytes attempts request text hicp =>
    obtain ⟨hlength, hlast⟩ := getLast_send s request
    exact ⟨_, Attempts.single hbytes hpos.1 rfl rfl, by simp only [List.length_singleton]; omega,
      _, request, hlength, hlast, rfl, hbytes, rfl, hicp⟩
  | case2 s bytes attempts request error hicp =>
    obtain ⟨hlength, hlast⟩ := getLast_send s request
    exact ⟨_, Attempts.single hbytes hpos.1 rfl rfl, by simp only [List.length_singleton]; omega,
      _, request, hlength, hlast, rfl, .inl hicp⟩
  | case3 s bytes attempts request timeout error hicp s' hlimit e hpayload =>
    have hhalf : 1 ≤ s'.halved.steps ∧ s'.halved.steps ≤ 16 := by
      show 1 ≤ max 1 (s.steps / 2) ∧ max 1 (s.steps / 2) ≤ 16
      omega
    obtain ⟨bytes', hbytes'⟩ := payload_of_ok hbytes hhalf
    rw [hbytes'] at hpayload
    cases hpayload
  | case4 s bytes attempts request timeout error hicp s' hlimit bytes' hpayload ih =>
    have hwide := hlimit.2.2
    have hsteps : s'.halved.steps = s.steps / 2 := by
      show max 1 (s.steps / 2) = s.steps / 2
      omega
    have hk' : ∃ j, k = j + 1 := by
      cases k with
      | zero => omega
      | succ j => exact ⟨j, rfl⟩
    obtain ⟨j, rfl⟩ := hk'
    have hpow : (2 : ℤ) ^ (j + 1 + 1) = 2 ^ (j + 1) * 2 := pow_succ 2 (j + 1)
    obtain ⟨ws, hattempts, hlength, hended⟩ := ih (by omega) hpayload (k := j) (by omega)
    refine ⟨s.steps :: ws, hattempts.cons hbytes hpos.1 rfl rfl (.inr ⟨hwide, hsteps⟩) (by omega), ?_,
      hended⟩
    rw [List.length_cons]
    have hretries : s'.halved.retries = s.retries := rfl
    omega
  | case5 s bytes attempts request timeout error hicp s' hlimit hretry =>
    obtain ⟨hlength, hlast⟩ := getLast_send s request
    exact ⟨_, Attempts.single hbytes hpos.1 rfl rfl, by simp only [List.length_singleton]; omega,
      _, request, hlength, hlast, rfl, .inr ⟨timeout, hicp⟩⟩
  | case6 s bytes attempts request timeout error hicp s' hlimit hretry ih =>
    have hleft : attempts < s.retries := by
      by_contra hge
      exact hretry (.inr (by omega))
    obtain ⟨ws, hattempts, hlength, hended⟩ := ih hpos hbytes hk
    refine ⟨s.steps :: ws, hattempts.cons hbytes hpos.1 rfl rfl (.inl rfl) (le_refl _), ?_, hended⟩
    rw [List.length_cons]
    have hretries : s'.retries = s.retries := rfl
    omega

variable (x icp method) in
theorem attemptLoop_cap (hcap : 1 ≤ s.autoCap ∧ s.autoCap ≤ 16) (bytes : List UInt8)
    (attempts : ℕ) : 1 ≤ (attemptLoop x icp method s bytes attempts).2.autoCap ∧
      (attemptLoop x icp method s bytes attempts).2.autoCap ≤ 16 := by
  have hhalved : ∀ {s : QuerySession Logit}, 1 ≤ s.autoCap ∧ s.autoCap ≤ 16 →
      1 ≤ s.halved.autoCap ∧ s.halved.autoCap ≤ 16 := by
    intro s hcap
    unfold halved
    dsimp only
    split <;> omega
  fun_induction attemptLoop x icp method s bytes attempts with
  | case1 => exact hcap
  | case2 => exact hcap
  | case3 s bytes attempts request timeout error hicp s' => exact hhalved (s := s') hcap
  | case4 s bytes attempts request timeout error hicp s' hlimit bytes' hpayload ih =>
    exact ih (hhalved (s := s') hcap)
  | case5 => exact hcap
  | case6 s bytes attempts request timeout error hicp s' hlimit hretry ih => exact ih hcap

/-- The tiers of `auto_width` keep to the cap and to the phases that are left. -/
theorem autoWidth_bounds (tokens : ℕ) (mode : ActivationFormat) {completed cap : ℤ}
    (hcompleted : 0 ≤ completed ∧ completed < 32) (hcap : 1 ≤ cap ∧ cap ≤ 16) :
    1 ≤ autoWidth tokens mode completed cap ∧ autoWidth tokens mode completed cap ≤ 16 := by
  have htier : ∀ tier : ℤ, 1 ≤ tier ∧ tier ≤ 16 →
      1 ≤ (if max 0 (28 - completed) = 0 ∨ max 0 (28 - completed) = 1 ∨
        max 0 (28 - completed) + 2 ≤ min tier cap then min 16 (min cap (32 - completed))
        else min (min tier cap) (32 - completed)) ∧
      (if max 0 (28 - completed) = 0 ∨ max 0 (28 - completed) = 1 ∨
        max 0 (28 - completed) + 2 ≤ min tier cap then min 16 (min cap (32 - completed))
        else min (min tier cap) (32 - completed)) ≤ 16 := by
    intro tier htier
    split <;> omega
  refine htier _ ?_
  repeat' split
  all_goals omega

section Service
variable {F : Type} [Doubles F] (t : Target) (m : LayaModel F Digest32) (z : Zlib) (c : CandidArgs)
  (value : UInt32 → Logit) (inp : QueryInput) (fmt : ActivationFormat) (auto : Bool)

/-- The phases that an answer reports. -/
def answered (a : QueryAnswer) : ℕ := match a with | .progress p => p.completed | .tokens .. => m.inferenceSteps

/-- An accepted call: a request the session sent, whose handler started after `n` phases, from the
input or from a state, and reported `n'` of them. -/
structure Ran (sent : List Request) (n n' : ℕ) (call : QueryCall) : Prop where
  le : n ≤ n'
  completed : call.completed = n'
  served : ∃ request ∈ sent, request.method = call.method ∧
    (∃ counter a, queryAnswer t m z c request counter = .ok a ∧ answered m a = n') ∧
    (n = 0 ∧ (∃ width, encodeInput inp width = .ok request.payload) ∨
      ∃ state width, c.continueArgs request.payload = some (state, width) ∧
        InEngine t m (fmt = .int8) fun e => e.Carries z inp.tokenInput n state)

/-- Accepted calls, each taking on where the one before it ended. -/
inductive AcceptedCalls (sent : List Request) : ℕ → ℕ → List QueryCall → Prop
  | nil (n : ℕ) : AcceptedCalls sent n n []
  | cons {n n₁ n' : ℕ} {call : QueryCall} {calls : List QueryCall}
      (h : Ran t m z c inp fmt sent n n₁ call) (hs : AcceptedCalls sent n₁ n' calls) :
      AcceptedCalls sent n n' (call :: calls)

/-- The phases that each call ran, one call after the other. -/
def callPhases : ℕ → List QueryCall → List ℕ
  | _, [] => []
  | n, call :: calls =>
    List.range' n (call.completed.toNat - n) ++ callPhases call.completed.toNat calls

/-- A session that holds what it counts. -/
structure Consistent (s : QuerySession Logit) : Prop where
  inp_eq : s.inp = inp
  format_eq : s.activationFormat = fmt
  auto_eq : s.auto = auto
  direct_eq : s.direct = (auto && decide (fmt = .f32) && decide (inp.inputIds.length ≤ 16))
  fused_eq : s.fusedBegin = (auto && !s.direct)
  steps : 1 ≤ s.steps ∧ s.steps ≤ 16
  cap : 1 ≤ s.autoCap ∧ s.autoCap ≤ 16
  fresh : s.progress = none → s.bundle = none
  sound : ∀ p ∈ s.progress, p.Sound t m z value (fmt = .int8) inp.tokenInput
  pinned : ∀ p ∈ s.progress, ¬p.isDone → ¬s.direct ∧ s.bundle = some m.bundle.toList
  accepted : AcceptedCalls t m z c inp fmt s.sent 0 (s.progress.elim 0 Progress.completed) s.calls

variable {t m z c value inp fmt auto} {sent sent' : List Request} {n n' n₁ : ℕ} {call : QueryCall}
  {calls : List QueryCall}

theorem AcceptedCalls.snoc (h : AcceptedCalls t m z c inp fmt sent n n₁ calls)
    (hrun : Ran t m z c inp fmt sent n₁ n' call) :
    AcceptedCalls t m z c inp fmt sent n n' (calls ++ [call]) := by
  induction h with
  | nil n => exact .cons hrun (.nil n')
  | cons h hs ih => exact .cons h (ih hrun)

theorem AcceptedCalls.mono (h : AcceptedCalls t m z c inp fmt sent n n' calls) (hsent : sent ⊆ sent') :
    AcceptedCalls t m z c inp fmt sent' n n' calls := by
  induction h with
  | nil n => exact .nil n
  | cons h hs ih =>
    obtain ⟨request, hmem, hserved⟩ := h.served
    exact .cons ⟨h.le, h.completed, request, hsent hmem, hserved⟩ ih

/-- Each phase is run by exactly one of the calls. -/
theorem AcceptedCalls.phases (h : AcceptedCalls t m z c inp fmt sent n n' calls) :
    n ≤ n' ∧ callPhases n calls = List.range' n (n' - n) := by
  induction h with
  | nil n => exact ⟨le_refl n, by rw [Nat.sub_self]; rfl⟩
  | @cons n n₁ n' call calls h hs ih =>
    obtain ⟨hle, hphases⟩ := ih
    have hcompleted : call.completed.toNat = n₁ := by rw [h.completed]; rfl
    have hfirst := h.le
    refine ⟨hfirst.trans hle, ?_⟩
    have hsplit : n' - n = (n₁ - n) + (n' - n₁) := by omega
    have hstart : n₁ = n + 1 * (n₁ - n) := by omega
    rw [callPhases, hcompleted, hphases, hsplit, ← List.range'_append, ← hstart]

theorem Consistent.trying (h : Consistent t m z c value inp fmt auto s) (ht : Trying s s')
    (hsteps : 1 ≤ s'.steps ∧ s'.steps ≤ 16) (hcap : 1 ≤ s'.autoCap ∧ s'.autoCap ≤ 16)
    (hsent : s.sent ⊆ s'.sent) : Consistent t m z c value inp fmt auto s' := by
  unfold Trying at ht
  generalize s'.steps = steps at *
  generalize s'.autoCap = cap at *
  generalize s'.failedAttempts = failed at *
  generalize s'.sent = sent at *
  subst ht
  exact ⟨h.inp_eq, h.format_eq, h.auto_eq, h.direct_eq, h.fused_eq, hsteps, hcap, h.fresh, h.sound,
    h.pinned, h.accepted.mono hsent⟩

theorem Consistent.widened (h : Consistent t m z c value inp fmt auto s)
    (hcal : auto → m.inferenceSteps = 32) (hdone : ¬∃ p ∈ s.progress, p.isDone) :
    Consistent t m z c value inp fmt auto s.widened := by
  refine h.trying (widened_trying s) ?_ ?_ ?_
  · unfold QuerySession.widened
    dsimp only
    split
    case isFalse => exact h.steps
    case isTrue hauto =>
      refine autoWidth_bounds _ _ ?_ h.cap
      cases hp : s.progress with
      | none => exact ⟨le_refl _, by norm_num⟩
      | some p =>
        have htotal := hcal (h.auto_eq ▸ hauto.1)
        have hsound := h.sound p hp
        cases p with
        | done logits completed total instructions => exact absurd ⟨_, hp, rfl⟩ hdone
        | «continue» state size bundle format completed total instructions =>
          have hlt : completed < m.inferenceSteps := hsound.2.1
          rw [htotal] at hlt
          exact ⟨Int.natCast_nonneg completed, Int.ofNat_lt.mpr hlt⟩
  · unfold QuerySession.widened
    dsimp only
    split <;> exact h.cap
  · unfold QuerySession.widened
    dsimp only
    split <;> exact List.Subset.refl _

/-- A reply of a handler that yields a right answer is decoded to it, or it is an error and raised. -/
theorem decoded_yields {k : Int8Kernels} (hk : m.q8 = k.phases) (hz : z.Inverse) {int8 : Bool}
    {input : TokenInput} {call : Code Error QueryInferenceProgress} {text : String}
    (hy : InEngine t m int8 fun e =>
      e.Yields (e.Carries z input) m.inferenceSteps input n call)
    (hreply : x.Renders value text (.progress <$> call)) :
    decodeProgress x z text = .error text ∧ ¬x.okVariant text ∨
      ∃ q p, call = .ok q ∧ q.completed = n ∧ decodeProgress x z text = .ok p ∧ p.completed = n ∧
        p.Sound t m z value int8 input := by
  cases hcall : call with
  | error fault =>
    rw [hcall] at hreply
    cases fault with
    | panic => exact hreply.elim
    | raise e =>
      have hno : ¬x.okVariant text := hreply
      exact .inl ⟨rejectIf_stop hno _ _, hno⟩
  | ok q =>
    rw [hcall] at hreply
    have hr : InEngine t m int8 fun e => e.Reports (e.Carries z input) m.inferenceSteps input n q :=
      hy.imp hk fun _ hy => hy.2 q hcall
    obtain ⟨p, hp, hcompleted, hsound⟩ := decodeProgress_honest hk hz hr hreply
    exact .inr ⟨q, p, rfl, InEngine.const (hr.imp hk fun _ hr => hr.2.1), hp, hcompleted, hsound⟩

/-- Width of the first call. -/
def beginWidth (s : QuerySession Logit) : Option ℕ := if s.fusedBegin then some s.steps.toNat else none

/-- What the canister is asked to run by a call that is not direct. -/
def asked (t : Target) (m : LayaModel F Digest32) (z : Zlib) (inp : QueryInput)
    (fmt : ActivationFormat) (s : QuerySession Logit) (counter : Counter) :
    Code Error QueryInferenceProgress :=
  match s.progress with
  | none => beginCall t m z (fmt = .int8) s.compression inp.tokenInput s.beginWidth counter
  | some p =>
    continueCall t m z (fmt = .int8) s.compression p.stateBytes s.steps.toNat counter

/-- The phases that are done once such a call is answered. -/
def afterCall (m : LayaModel F Digest32) (s : QuerySession Logit) : ℕ :=
  match s.progress with
  | none => min (s.beginWidth.getD 0) m.inferenceSteps
  | some p => p.completed + min s.steps.toNat (m.inferenceSteps - p.completed)

/-- The canister decodes what a session sends. -/
theorem answer_asked (hc : c.Decodes inp) (h : Consistent t m z c value inp fmt auto s)
    {k : Int8Kernels} (hk : m.q8 = k.phases) (hz : z.Inverse) (hdone : ¬∃ p ∈ s.progress, p.isDone)
    (hdirect : ¬s.direct) (hbytes : s.payload s.steps = .ok bytes) (counter : Counter) :
    queryAnswer t m z c ⟨s.method, bytes⟩ counter = .progress <$> asked t m z inp fmt s counter := by
  have hmethod : s.method = .token s.beginning (s.activationFormat = .int8)
      (s.beginning && s.fusedBegin) s.compression := if_neg hdirect
  rw [hmethod, h.format_eq]
  unfold payload at hbytes
  unfold asked beginWidth beginning
  cases hp : s.progress with
  | none =>
    rw [hp] at hbytes
    dsimp only at hbytes ⊢
    rw [h.inp_eq] at hbytes
    cases hfused : s.fusedBegin with
    | false =>
      rw [hfused] at hbytes
      have hargs := hc.beginArgs hbytes
      simp only [queryAnswer, Option.isNone_none, Bool.and_false, hargs]
      rfl
    | true =>
      rw [hfused] at hbytes
      have hargs := hc.batchArgs hbytes
      simp only [queryAnswer, Option.isNone_none, Bool.and_true, hargs]
      rfl
  | some p =>
    rw [hp] at hbytes
    dsimp only at hbytes ⊢
    have hsound := h.sound p hp
    cases p with
    | done logits completed total instructions => exact absurd ⟨_, hp, rfl⟩ hdone
    | «continue» state size bundle format completed total instructions =>
      have hargs := hc.continueArgs (carried_length hk hz hsound.2.2.2.2) hbytes
      simp only [queryAnswer, Option.isNone_some, Bool.false_and, hargs]
      rfl

theorem asked_yields (h : Consistent t m z c value inp fmt auto s) {k : Int8Kernels}
    (hk : m.q8 = k.phases) (hz : z.Inverse) (hdone : ¬∃ p ∈ s.progress, p.isDone)
    (counter : Counter) : InEngine t m (fmt = .int8) fun e =>
      e.Yields (e.Carries z inp.tokenInput) m.inferenceSteps inp.tokenInput (s.afterCall m)
        (asked t m z inp fmt s counter) := by
  unfold asked afterCall
  cases hp : s.progress with
  | none => exact begin_yields hk hz _
  | some p =>
    have hsound := h.sound p hp
    cases p with
    | done logits completed total instructions => exact absurd ⟨_, hp, rfl⟩ hdone
    | «continue» state size bundle format completed total instructions =>
      exact continue_yields hk hz hsound.2.2.2.2 (.inl rfl)

/-- What the client expects is what the canister does. -/
theorem expected_afterCall (h : Consistent t m z c value inp fmt auto s) (hdirect : ¬s.direct)
    {p : Progress Logit} (hp : p.total = m.inferenceSteps) :
    s.expected p = (s.afterCall m : ℕ) := by
  have hsteps := h.steps
  unfold expected afterCall beginWidth
  rw [if_neg hdirect, hp]
  cases hprogress : s.progress with
  | none =>
    dsimp only
    cases s.fusedBegin with
    | false => simp
    | true => simp; omega
  | some p' =>
    have htotal := (h.sound p' hprogress).1
    have hle : p'.completed ≤ m.inferenceSteps := by
      have hsound := (h.sound p' hprogress).2
      cases p' with
      | done logits completed total instructions => exact Nat.le_of_eq hsound.1
      | «continue» state size bundle format completed total instructions => exact hsound.1.le
    dsimp only
    rw [htotal]
    omega

theorem Consistent.begins_direct (h : Consistent t m z c value inp fmt auto s)
    (hdone : ¬∃ p ∈ s.progress, p.isDone) (hdirect : s.direct) :
    s.progress = none ∧ s.fusedBegin = false ∧ auto ∧ fmt = .f32 := by
  have hkind := h.direct_eq
  rw [hdirect] at hkind
  simp only [Bool.true_eq, Bool.and_eq_true, decide_eq_true_eq] at hkind
  refine ⟨?_, ?_, hkind.1.1, hkind.1.2⟩
  · cases hp : s.progress with
    | none => rfl
    | some p =>
      by_cases hd : p.isDone
      · exact absurd ⟨p, hp, hd⟩ hdone
      · exact absurd hdirect (h.pinned p hp hd).1
  · rw [h.fused_eq, hdirect]
    exact Bool.and_false _

/-- The reply of a direct call. -/
theorem decoded_direct (hc : c.Decodes inp) (h : Consistent t m z c value inp fmt auto s)
    (hdone : ¬∃ p ∈ s.progress, p.isDone) (hdirect : s.direct)
    (hbytes : s.payload s.steps = .ok bytes) {text : String} {counter : Counter}
    (hreply : x.Renders value text (queryAnswer t m z c ⟨s.method, bytes⟩ counter)) :
    encodeInput inp none = .ok bytes ∧ (decodeDirect x text = .error text ∧ ¬x.okVariant text ∨
      ∃ v instructions, queryAnswer t m z c ⟨s.method, bytes⟩ counter = .ok (.tokens v instructions) ∧
        decodeDirect x text = .ok (.done (v.map value) 32 32 instructions.toNat) ∧
        m.infer inp.tokenInput = .ok v) := by
  obtain ⟨hprogress, hfused, -, -⟩ := h.begins_direct hdone hdirect
  rw [payload, hprogress] at hbytes
  dsimp only at hbytes
  rw [h.inp_eq, hfused] at hbytes
  have hanswer : queryAnswer t m z c ⟨s.method, bytes⟩ counter =
      inferTokensQuery m inp.tokenInput counter := by
    have hmethod : s.method = .inferTokens := if_pos hdirect
    rw [hmethod]
    simp only [queryAnswer, hc.beginArgs hbytes]
    rfl
  refine ⟨hbytes, ?_⟩
  rw [hanswer] at hreply ⊢
  cases hresult : inferTokensQuery m inp.tokenInput counter with
  | error fault =>
    rw [hresult] at hreply
    cases fault with
    | panic => exact hreply.elim
    | raise e =>
      have hno : ¬x.okVariant text := hreply
      exact .inl ⟨rejectIf_stop hno _ _, hno⟩
  | ok a =>
    simp only [inferTokensQuery, bind_eq_ok, call_eq_ok, pure_eq_ok] at hresult
    obtain ⟨_, hshort, _, hbundle, v, hv, rfl⟩ := hresult
    rw [inferTokensQuery, hshort, ok_bind, hbundle, ok_bind, hv] at hreply
    obtain ⟨hok, hfield, hlogits⟩ := hreply
    refine .inr ⟨v, _, rfl, ?_, hv⟩
    rw [decodeDirect, rejectIf_bind (not_not.mpr hok), hfield]
    show (do
      let logits ← x.logits text
      let instructions ← Except.ok counter.elapsed.toNat
      pure (.done logits 32 32 instructions) : Except Failure (Progress Logit)) = _
    rw [hlogits]
    rfl

/-- The counts and logits of a right reply pass the checks. -/
theorem checkProgress_sound (h : Consistent t m z c value inp fmt auto s)
    (hone : ∀ v, (InEngine t m (fmt = .int8) fun e =>
      e.Logits inp.tokenInput m.inferenceSteps v) → v.length = inp.markers.length)
    (hcal : auto → m.inferenceSteps = 32) {p : Progress Logit}
    (hp : p.Sound t m z value (fmt = .int8) inp.tokenInput)
    (hexpected : s.expected p = (p.completed : ℕ)) : s.checkProgress p = .ok () := by
  have htotal := hp.1
  have hle : p.completed ≤ p.total ∧ (p.isDone ↔ (p.completed : ℤ) = p.total) := by
    rw [htotal]
    cases p with
    | done logits completed total instructions =>
      have hend : completed = m.inferenceSteps := hp.2.1
      exact ⟨hend.le, fun _ => congrArg Nat.cast hend, fun _ => rfl⟩
    | «continue» state size bundle format completed total instructions =>
      have hlt : completed < m.inferenceSteps := hp.2.1
      refine ⟨hlt.le, fun hd => (nomatch hd), fun he => ?_⟩
      exact absurd (Int.ofNat.inj he) hlt.ne
  have hcounts : ¬((p.completed : ℤ) ≠ s.expected p ∨
      ¬(0 ≤ s.expected p ∧ s.expected p ≤ p.total)) := by
    rw [hexpected]
    have := hle.1
    omega
  have hsame : ¬∃ p' ∈ s.progress, p.total ≠ p'.total := by
    rintro ⟨p', hp', hne⟩
    exact hne (htotal.trans (h.sound p' hp').1.symm)
  have hcompletion : ¬¬(p.isDone ↔ s.expected p = p.total) := by
    rw [hexpected]
    exact not_not.mpr hle.2
  have hauto : ¬(s.auto ∧ p.total ≠ 32) := by
    rintro ⟨hauto, hne⟩
    exact hne (htotal.trans (hcal (h.auto_eq ▸ hauto)))
  unfold checkProgress
  refine (rejectIf_bind hcounts _ _).trans ((rejectIf_bind hsame _ _).trans
    ((rejectIf_bind hcompletion _ _).trans ?_))
  cases p with
  | done logits completed total instructions =>
    obtain ⟨-, -, v, rfl, hv⟩ := hp
    have hmarkers : ¬(v.map value).length ≠ s.inp.markers.length := by
      rw [List.length_map, hone v hv, h.inp_eq]
      exact not_not.mpr rfl
    exact (rejectIf_bind hmarkers _ _).trans (if_neg hauto)
  | «continue» state size bundle format completed total instructions => exact if_neg hauto

theorem receive_ok {p : Progress Logit} {text : String} (hdecoded : decoded x z s text = .ok p)
    (hcheck : s.checkProgress p = .ok ()) (hcontinue : checkContinuation p s.pinned = (.ok (), s')) :
    receive x z bytes text s = (.ok p, s'.recorded bytes p) := by
  rw [receive_eq, hdecoded]
  dsimp only
  rw [hcheck]
  dsimp only
  rw [hcontinue]

theorem Consistent.recorded (h : Consistent t m z c value inp fmt auto s) {p : Progress Logit}
    (hp : p.Sound t m z value (fmt = .int8) inp.tokenInput)
    (hexpected : s.expected p = (p.completed : ℕ)) {bundle : Option (List UInt8)}
    (hbundle : ¬p.isDone → ¬s.direct ∧ bundle = some m.bundle.toList)
    (hrun : ∀ call : QueryCall, call.method = s.method → call.completed = p.completed →
      Ran t m z c inp fmt s.sent (s.progress.elim 0 Progress.completed) p.completed call) :
    Consistent t m z c value inp fmt auto ({ s with bundle := bundle }.recorded bytes p) where
  inp_eq := h.inp_eq
  format_eq := h.format_eq
  auto_eq := h.auto_eq
  direct_eq := h.direct_eq
  fused_eq := h.fused_eq
  steps := h.steps
  cap := h.cap
  fresh := fun hn => nomatch hn
  sound := by
    intro q hq
    obtain rfl := Option.some.inj hq
    exact hp
  pinned := by
    intro q hq hnot
    obtain rfl := Option.some.inj hq
    exact hbundle hnot
  accepted := h.accepted.snoc (hrun _ rfl hexpected)

/-- The session once a right reply is taken over. -/
theorem Consistent.received (h : Consistent t m z c value inp fmt auto s)
    (hcal : auto → m.bundle.toList = autoBundle ∧ m.inferenceSteps = 32)
    (hone : ∀ v, (InEngine t m (fmt = .int8) fun e =>
      e.Logits inp.tokenInput m.inferenceSteps v) → v.length = inp.markers.length)
    {p : Progress Logit} {text : String} (hdecoded : decoded x z s text = .ok p)
    (hp : p.Sound t m z value (fmt = .int8) inp.tokenInput)
    (hexpected : s.expected p = (p.completed : ℕ)) (hdirect : s.direct → p.isDone)
    (hdone : ¬∃ p ∈ s.progress, p.isDone)
    (hrun : ∀ call : QueryCall, call.method = s.method → call.completed = p.completed →
      Ran t m z c inp fmt s.sent (s.progress.elim 0 Progress.completed) p.completed call) :
    ∃ s', receive x z bytes text s = (.ok p, s') ∧ Consistent t m z c value inp fmt auto s' ∧
      s'.progress = some p ∧ s'.sent = s.sent ∧ s'.steps = s.steps := by
  have hcheck := checkProgress_sound h hone (fun hauto => (hcal hauto).2) hp hexpected
  have hcontinue : ∃ bundle, checkContinuation p s.pinned = (.ok (), { s with bundle := bundle }) ∧
      (¬p.isDone → ¬s.direct ∧ bundle = some m.bundle.toList) := by
    cases p with
    | done logits completed total instructions =>
      unfold QuerySession.pinned
      by_cases hd : s.direct
      · rw [if_pos hd]
        exact ⟨_, rfl, fun hnot => absurd rfl hnot⟩
      · rw [if_neg hd]
        exact ⟨s.bundle, rfl, fun hnot => absurd rfl hnot⟩
    | «continue» state size bundle format completed total instructions =>
      have hd : ¬s.direct := fun hd => nomatch hdirect hd
      obtain ⟨rfl, -, rfl, rfl, -⟩ := hp
      have hformat : ¬(if decide (fmt = .int8) then ActivationFormat.int8 else .f32) ≠
          s.activationFormat := by
        rw [h.format_eq]
        cases fmt <;> exact not_not.mpr rfl
      have hmodel : ¬∃ b ∈ s.bundle, b ≠ m.bundle.toList := by
        rintro ⟨b, hb, hne⟩
        cases hprogress : s.progress with
        | none =>
          rw [h.fresh hprogress] at hb
          cases hb
        | some p =>
          have hpin := (h.pinned p hprogress fun hd => hdone ⟨p, hprogress, hd⟩).2
          rw [hpin] at hb
          exact hne (Option.some.inj hb).symm
      have hpack : ¬(s.auto ∧ (m.bundle.toList ≠ autoBundle ∨ m.inferenceSteps ≠ 32)) := by
        rintro ⟨hauto, hother⟩
        obtain ⟨hbundle, htotal⟩ := hcal (h.auto_eq ▸ hauto)
        rcases hother with hne | hne
        · exact hne hbundle
        · exact hne htotal
      refine ⟨_, ?_, fun _ => ⟨hd, rfl⟩⟩
      rw [QuerySession.pinned, if_neg hd, checkContinuation_eq, if_neg hformat, if_neg hmodel,
        if_neg hpack]
  obtain ⟨bundle, hcontinue, hbundle⟩ := hcontinue
  exact ⟨_, receive_ok hdecoded hcheck hcontinue, h.recorded hp hexpected hbundle hrun, rfl, rfl, rfl⟩

theorem receive_refused {text : String} (h : decoded x z s text = .error text) :
    receive x z bytes text s = (.error text, s) := by
  rw [receive_eq, h]

/-- An honest reply is taken over, or is an error and raised as it is. -/
theorem Consistent.replied (h : Consistent t m z c value inp fmt auto s) {k : Int8Kernels}
    (hk : m.q8 = k.phases) (hz : z.Inverse) (hc : c.Decodes inp)
    (hcal : auto → m.bundle.toList = autoBundle ∧ m.inferenceSteps = 32)
    (hone : ∀ v, (InEngine t m (fmt = .int8) fun e =>
      e.Logits inp.tokenInput m.inferenceSteps v) → v.length = inp.markers.length)
    (hdone : ¬∃ p ∈ s.progress, p.isDone) (hbytes : s.payload s.steps = .ok bytes)
    (hsent : (⟨s.method, bytes⟩ : Request) ∈ s.sent) {text : String} {counter : Counter}
    (hreply : x.Renders value text (queryAnswer t m z c ⟨s.method, bytes⟩ counter)) :
    receive x z bytes text s = (.error text, s) ∧ ¬x.okVariant text ∨
      ∃ p s', receive x z bytes text s = (.ok p, s') ∧
        Consistent t m z c value inp fmt auto s' ∧ s'.progress = some p ∧ s'.sent = s.sent ∧
        s'.steps = s.steps ∧ p.total = m.inferenceSteps ∧ s.expected p = (p.completed : ℕ) := by
  by_cases hdirect : s.direct
  · obtain ⟨hinput, ⟨hrefused, hno⟩ | ⟨v, instructions, hanswer, hdecoded, hv⟩⟩ :=
      decoded_direct hc h hdone hdirect hbytes hreply
    · have hdecoded : decoded x z s text = .error text := (if_pos hdirect).trans hrefused
      exact .inl ⟨receive_refused hdecoded, hno⟩
    · obtain ⟨hprogress, -, hauto, rfl⟩ := h.begins_direct hdone hdirect
      have htotal := (hcal hauto).2
      have hdecoded' : decoded x z s text = .ok (.done (v.map value) 32 32 instructions.toNat) :=
        (if_pos hdirect).trans hdecoded
      have hsound : (Progress.done (v.map value) 32 32 instructions.toNat).Sound t m z value
          (decide (ActivationFormat.f32 = .int8)) inp.tokenInput :=
        ⟨htotal.symm, htotal.symm, v, rfl, LayaModel.logits_of_infer hv⟩
      have hexpected : s.expected (.done (v.map value) 32 32 instructions.toNat) = (32 : ℕ) :=
        if_pos hdirect
      have hrun : ∀ call : QueryCall, call.method = s.method → call.completed = (32 : ℕ) →
          Ran t m z c inp .f32 s.sent (s.progress.elim 0 Progress.completed) 32 call := by
        intro call hmethod hcompleted
        rw [hprogress]
        exact ⟨Nat.zero_le _, hcompleted, _, hsent, hmethod.symm, ⟨counter, _, hanswer, htotal⟩,
          .inl ⟨rfl, none, hinput⟩⟩
      obtain ⟨s', hreceive, hs', hp', hsent', hsteps'⟩ :=
        h.received hcal hone hdecoded' hsound hexpected (fun _ => rfl) hdone hrun
      exact .inr ⟨_, s', hreceive, hs', hp', hsent', hsteps', htotal.symm, hexpected⟩
  · have hanswer := answer_asked hc h hk hz hdone hdirect hbytes counter
    have hyields := asked_yields h hk hz hdone counter
    rw [hanswer] at hreply
    obtain ⟨hrefused, hno⟩ | ⟨q, p, hq, hqcompleted, hdecoded, hcompleted, hsound⟩ :=
      decoded_yields hk hz hyields hreply
    · have hdecoded : decoded x z s text = .error text := (if_neg hdirect).trans hrefused
      exact .inl ⟨receive_refused hdecoded, hno⟩
    · have hdecoded' : decoded x z s text = .ok p := (if_neg hdirect).trans hdecoded
      have hexpected : s.expected p = (p.completed : ℕ) := by
        rw [expected_afterCall h hdirect hsound.1, hcompleted]
      have hserved : queryAnswer t m z c ⟨s.method, bytes⟩ counter = .ok (.progress q) := by
        rw [hanswer, hq]
        rfl
      have hrun : ∀ call : QueryCall, call.method = s.method → call.completed = p.completed →
          Ran t m z c inp fmt s.sent (s.progress.elim 0 Progress.completed) p.completed call := by
        intro call hmethod hcall
        refine ⟨?_, hcall, _, hsent, hmethod.symm,
          ⟨counter, _, hserved, hqcompleted.trans hcompleted.symm⟩, ?_⟩
        · rw [hcompleted]
          unfold afterCall
          cases s.progress with
          | none => exact Nat.zero_le _
          | some p => exact Nat.le_add_right _ _
        · unfold payload at hbytes
          cases hp : s.progress with
          | none =>
            rw [hp] at hbytes
            dsimp only at hbytes
            rw [h.inp_eq] at hbytes
            exact .inl ⟨rfl, _, hbytes⟩
          | some p' =>
            rw [hp] at hbytes
            have hheld := h.sound p' hp
            cases p' with
            | done logits completed total instructions => exact absurd ⟨_, hp, rfl⟩ hdone
            | «continue» state size bundle format completed total instructions =>
              have hargs := hc.continueArgs (carried_length hk hz hheld.2.2.2.2) hbytes
              exact .inr ⟨state, _, hargs, hheld.2.2.2.2⟩
      obtain ⟨s', hreceive, hs', hp', hsent', hsteps'⟩ :=
        h.received hcal hone hdecoded' hsound hexpected (fun hd => absurd hd hdirect) hdone hrun
      exact .inr ⟨p, s', hreceive, hs', hp', hsent', hsteps', hsound.1, hexpected⟩

/-- The phases a session counts. -/
def count (s : QuerySession Logit) : ℕ := s.progress.elim 0 Progress.completed

/-- What a call that returns adds to the count, by the width of its last payload. -/
def grownBy (s : QuerySession Logit) (w total : ℤ) : ℤ :=
  if s.direct then 32
  else match s.progress with
    | none => if s.fusedBegin then min w total else 0
    | some p => min w (total - p.completed)

/-- The attempts of a call from `s` to `s'`; there may be none. -/
def Call (s s' : QuerySession Logit) (ws : List ℤ) : Prop :=
  ws.length ≤ 1 + s.retries + 4 ∧ (ws = [] ∧ s'.sent = s.sent ∨ Attempts s.method s.widened s' ws)

/-- What a call that raises says: the session was done, the input cannot be encoded, the last attempt
raised it, or the canister replied with it as an error. -/
def Reason (x : Texts Logit) (icp : ℕ → Request → Attempt) (s s' : QuerySession Logit)
    (e : Failure) : Prop :=
  (∃ p ∈ s.progress, p.isDone) ∨
    (s.progress = none ∧ s'.sent = s.sent ∧ ∃ width, encodeInput s.inp width = .error e) ∨
    Ended icp s.method s' (.error e) ∨
    (∃ bytes, Ended icp s.method s' (.ok (bytes, e))) ∧ ¬x.okVariant e

/-- The attempts of a call that is made. -/
theorem Consistent.requested (h : Consistent t m z c value inp fmt auto s)
    (hcal : auto → m.inferenceSteps = 32) (hdone : ¬∃ p ∈ s.progress, p.isDone)
    {r : Except Failure (List UInt8 × String)} (hrequest : request x icp s = (r, s')) :
    Consistent t m z c value inp fmt auto s' ∧ (∃ ws, Call s s' ws) ∧
      ((∀ e, r = .error e → Reason x icp s s' e) ∧
        ∀ bytes text, r = .ok (bytes, text) → Ended icp s.method s' (.ok (bytes, text))) := by
  have hwide := h.widened hcal hdone
  have htrying := widened_trying s
  have hsame : s.widened.sent = s.sent ∧ s.widened.retries = s.retries := by
    unfold QuerySession.widened
    dsimp only
    split <;> exact ⟨rfl, rfl⟩
  rw [request_eq hdone] at hrequest
  cases hbytes : s.widened.payload s.widened.steps with
  | error e =>
    rw [hbytes] at hrequest
    cases hrequest
    refine ⟨hwide, ⟨[], Nat.zero_le _, .inl ⟨rfl, hsame.1⟩⟩, ?_, fun _ _ he => (nomatch he)⟩
    intro e' he'
    cases he'
    rw [htrying.payload, payload] at hbytes
    cases hp : s.progress with
    | none =>
      rw [hp] at hbytes
      exact .inr (.inl ⟨hp, hsame.1, _, hbytes⟩)
    | some p =>
      have hpass : ¬¬(1 ≤ s.widened.steps ∧ s.widened.steps ≤ 16) := not_not.mpr hwide.steps
      have hok : encodeContinue p.stateBytes s.widened.steps = .ok _ := rejectIf_bind hpass _ _
      rw [hp] at hbytes
      dsimp only at hbytes
      rw [hok] at hbytes
      cases hbytes
  | ok bytes =>
    rw [hbytes] at hrequest
    dsimp only at hrequest
    have hsixteen : s.widened.steps < 2 ^ (4 + 1) := by
      have := hwide.steps
      norm_num
      omega
    have hloop := attempted x icp s.widened.method hwide.steps hbytes 0 hsixteen
    have hcap := attemptLoop_cap x icp s.widened.method hwide.cap bytes 0
    have htry := attemptLoop_trying x icp s.widened.method s.widened bytes 0
    rw [hrequest] at hloop hcap htry
    obtain ⟨ws, hattempts, hlength, hended⟩ := hloop
    rw [htrying.method] at hattempts hended
    have hmem := hattempts.widths _ (List.mem_of_getLast? hattempts.last)
    have hsent : s.widened.sent ⊆ s'.sent := by
      obtain ⟨requests, hs', -⟩ := hattempts.sent
      rw [hs']
      exact List.subset_append_left _ _
    refine ⟨hwide.trying htry ⟨hmem.1, hmem.2.trans hwide.steps.2⟩ hcap hsent,
      ⟨ws, ?_, .inr hattempts⟩, ?_, ?_⟩
    · rw [hsame.2] at hlength
      exact hlength
    · rintro e rfl
      exact .inr (.inr (.inl hended))
    · rintro bytes' text rfl
      exact hended

theorem Call.congr {s₂ : QuerySession Logit} {ws : List ℤ} (h : Call s s₁ ws)
    (hsent : s₂.sent = s₁.sent) (hsteps : s₂.steps = s₁.steps) : Call s s₂ ws := by
  obtain ⟨hlength, ⟨hnone, hsame⟩ | hattempts⟩ := h
  · exact ⟨hlength, .inl ⟨hnone, hsent.trans hsame⟩⟩
  · exact ⟨hlength, .inr ⟨hsent ▸ hattempts.sent, hattempts.shrinks, hattempts.first,
      hsteps ▸ hattempts.last, hattempts.widths⟩⟩

/-- What is expected of a call, from where it was made. -/
theorem Consistent.expected_eq (h : Consistent t m z c value inp fmt auto s₁)
    (hdone : ¬∃ p ∈ s₁.progress, p.isDone) (htrying : Trying s s₁) {p : Progress Logit}
    (hp : p.total = m.inferenceSteps) : s₁.expected p = s.count + s.grownBy s₁.steps p.total := by
  have hprogress := htrying.kept.1
  have hflags : s₁.direct = s.direct ∧ s₁.fusedBegin = s.fusedBegin := by
    unfold Trying at htrying
    constructor <;> rw [htrying]
  unfold expected grownBy count
  by_cases hdirect : s₁.direct
  · have hnone := (h.begins_direct hdone hdirect).1
    rw [if_pos hdirect, if_pos (hflags.1 ▸ hdirect), ← hprogress, hnone]
    rfl
  · have hdirect' : ¬s.direct := by rw [← hflags.1]; exact hdirect
    rw [if_neg hdirect, if_neg hdirect', ← hflags.2, ← hprogress]
    cases hp' : s₁.progress with
    | none => exact (zero_add _).symm
    | some p' =>
      have htotal := (h.sound p' hp').1
      dsimp only [Option.elim_some]
      omega

/-- One call, whatever its attempts come to. -/
theorem Consistent.advance (h : Consistent t m z c value inp fmt auto s) {k : Int8Kernels}
    (hk : m.q8 = k.phases) (hz : z.Inverse) (hc : c.Decodes inp)
    (hhonest : Honest t m z c x value icp)
    (hcal : auto → m.bundle.toList = autoBundle ∧ m.inferenceSteps = 32)
    (hone : ∀ v, (InEngine t m (fmt = .int8) fun e =>
      e.Logits inp.tokenInput m.inferenceSteps v) → v.length = inp.markers.length)
    {r : Except Failure (Progress Logit)} (hadvance : advance x z icp s = (r, s')) :
    Consistent t m z c value inp fmt auto s' ∧ (∃ ws, Call s s' ws) ∧
      (∀ p, r = .ok p → s'.progress = some p ∧ p.total = m.inferenceSteps ∧
        p.completed = s.count + s.grownBy s'.steps p.total) ∧
      ∀ e, r = .error e → Reason x icp s s' e := by
  by_cases hdone : ∃ p ∈ s.progress, p.isDone
  · rw [QuerySession.advance, Method.bind_of_error (request_done hdone)] at hadvance
    cases hadvance
    exact ⟨h, ⟨[], Nat.zero_le _, .inl ⟨rfl, rfl⟩⟩, fun _ he => (nomatch he), fun _ _ => .inl hdone⟩
  rcases hrequest : request x icp s with ⟨r₁, s₁⟩
  have htrying := request_trying hrequest
  obtain ⟨hs₁, hcall, hreason, hended⟩ := h.requested (fun ha => (hcal ha).2) hdone hrequest
  cases r₁ with
  | error e =>
    rw [QuerySession.advance, Method.bind_of_error hrequest] at hadvance
    cases hadvance
    refine ⟨hs₁, hcall, fun _ he => (nomatch he), fun e' he' => ?_⟩
    cases he'
    exact hreason e rfl
  | ok answer =>
    obtain ⟨bytes, text⟩ := answer
    rw [QuerySession.advance, Method.bind_of_ok hrequest] at hadvance
    change receive x z bytes text s₁ = (r, s') at hadvance
    have hlast := hended bytes text rfl
    obtain ⟨n, request, hlength, hgetLast, hmethod, hbytes, hpayload, hicp⟩ := hlast
    obtain ⟨counter, hreply⟩ := hhonest n request text hicp
    have hrequest' : request = ⟨s₁.method, bytes⟩ := by
      rw [htrying.method, ← hmethod, ← hpayload]
    rw [hrequest'] at hreply hgetLast
    have hdone₁ : ¬∃ p ∈ s₁.progress, p.isDone := by
      rw [htrying.kept.1]
      exact hdone
    have hmem := List.mem_of_getLast? hgetLast
    obtain ⟨hreceive, hno⟩ | ⟨p, s₂, hreceive, hs₂, hp, hsent, hsteps, htotal, hexpected⟩ :=
      hs₁.replied hk hz hc hcal hone hdone₁ hbytes hmem hreply
    · rw [hreceive] at hadvance
      cases hadvance
      refine ⟨hs₁, hcall, fun _ he => (nomatch he), fun e' he' => ?_⟩
      cases he'
      exact .inr (.inr (.inr ⟨⟨bytes, hended bytes text rfl⟩, hno⟩))
    · rw [hreceive] at hadvance
      cases hadvance
      obtain ⟨ws, hws⟩ := hcall
      refine ⟨hs₂, ⟨ws, hws.congr hsent hsteps⟩, fun p' hp' => ?_, fun _ he => (nomatch he)⟩
      cases hp'
      refine ⟨hp, htotal, ?_⟩
      rw [← hexpected, hsteps]
      exact hs₁.expected_eq hdone₁ htrying htotal

/-- A session that calls lead to, whatever they come to. -/
inductive Reached (x : Texts Logit) (z : Zlib) (icp : ℕ → Request → Attempt)
    (s₀ : QuerySession Logit) : QuerySession Logit → Prop
  | new : Reached x z icp s₀ s₀
  | advanced {s s' : QuerySession Logit} {r : Except Failure (Progress Logit)}
      (hs : Reached x z icp s₀ s) (h : advance x z icp s = (r, s')) : Reached x z icp s₀ s'

theorem Consistent.new {steps : Option ℤ} {retries : ℕ} {compression : Bool}
    (h : QuerySession.new inp steps retries fmt compression = .ok s) :
    Consistent t m z c value inp fmt steps.isNone s := by
  simp only [QuerySession.new, bind_eq_ok, rejectIf_eq_ok, pure_eq_ok] at h
  obtain ⟨_, hsteps, rfl⟩ := h
  have hnone : ∀ p, p ∉ (none : Option (Progress Logit)) := by
    intro p hp
    cases hp
  refine ⟨rfl, rfl, rfl, rfl, rfl, ?_, ⟨by norm_num, by norm_num⟩, fun _ => rfl,
    fun p hp => absurd hp (hnone p), fun p hp => absurd hp (hnone p), .nil 0⟩
  cases steps with
  | none => exact ⟨by norm_num, by norm_num⟩
  | some n =>
    by_contra hn
    exact hsteps ⟨n, rfl, hn⟩

/-- The loop of `finish` ends with a session that is done. -/
theorem Consistent.advances (h : Consistent t m z c value inp fmt auto s) {k : Int8Kernels}
    (hk : m.q8 = k.phases) (hz : z.Inverse) (hc : c.Decodes inp)
    (hhonest : Honest t m z c x value icp)
    (hcal : auto → m.bundle.toList = autoBundle ∧ m.inferenceSteps = 32)
    (hone : ∀ v, (InEngine t m (fmt = .int8) fun e =>
      e.Logits inp.tokenInput m.inferenceSteps v) → v.length = inp.markers.length)
    {fuel : ℕ} (hloop : QuerySession.advances x z icp fuel s = (.ok (some ()), s')) :
    Consistent t m z c value inp fmt auto s' ∧ ∃ p ∈ s'.progress, p.isDone := by
  induction fuel generalizing s with
  | zero => cases hloop
  | succ fuel ih =>
    rw [QuerySession.advances, Method.bind_of_ok Method.self_apply] at hloop
    by_cases hdone : ∃ p ∈ s.progress, p.isDone
    · rw [if_pos hdone] at hloop
      cases hloop
      exact ⟨h, hdone⟩
    · rw [if_neg hdone] at hloop
      obtain ⟨p, s₁, hadvance, hrest⟩ := Method.bind_eq_ok.mp hloop
      exact ih (h.advance hk hz hc hhonest hcal hone hadvance).1 hrest

end Service

end QuerySession

/-- A model that was loaded part by part gives one logit for each marker on signed bytes. -/
theorem one_logit_each {F : Type} [Doubles F]
    {f : Singles F} {p : Int8Parts F} {m : LayaModel F Digest32} (h : p.Drives f m) {t : Target}
    {input : TokenInput} {v : List UInt32}
    (hv : InEngine t m true fun e => e.Logits input m.inferenceSteps v) :
    v.length = input.markers.length := by
  obtain ⟨s₀, s, hbegin, hrun⟩ := hv
  have hinput : s₀.input = input := by
    obtain ⟨-, -, heq⟩ := LayaModel.start_eq_ok.mp hbegin
    rw [heq]
  rw [← hinput]
  exact h.length_logits (h.begun hbegin) (fun _ hnone => by cases hnone) hrun rfl

open QuerySession in
/-- With a canister that answers every attempt it does not fail honestly: a call makes at most
`1 + retries + 4` attempts, all of one input or one state, with widths that only halve; a call that
returns has added its last width or what was left, nothing on an unfused begin, and all the phases on
a direct query; a call is refused for no other reason than those of `Reason`; and a session that is
finished has run every phase in exactly one accepted call and reports the logits of the whole run. -/
theorem session_progress {F Logit : Type} [Doubles F] (t : Target) (m : LayaModel F Digest32)
    {k : Int8Kernels} (hk : m.q8 = k.phases) {z : Zlib} (hz : z.Inverse) (x : Texts Logit)
    (value : UInt32 → Logit) {c : CandidArgs} {inp : QueryInput} (hc : c.Decodes inp)
    {icp : ℕ → Request → Attempt} (hhonest : Honest t m z c x value icp) {steps : Option ℤ}
    {retries : ℕ} {fmt : ActivationFormat} {compression : Bool}
    (hcal : steps = none → m.bundle.toList = autoBundle ∧ m.inferenceSteps = 32)
    (hone : ∀ v, (InEngine t m (fmt = .int8) fun e =>
      e.Logits inp.tokenInput m.inferenceSteps v) → v.length = inp.markers.length)
    {s₀ s : QuerySession Logit} (hnew : QuerySession.new inp steps retries fmt compression = .ok s₀)
    (hs : Reached x z icp s₀ s) :
    (∀ r s', advance x z icp s = (r, s') →
      (∃ ws, Call s s' ws) ∧
      (∀ p, r = .ok p → s'.progress = some p ∧ p.total = m.inferenceSteps ∧
        p.completed = s.count + s.grownBy s'.steps p.total) ∧
      ∀ e, r = .error e → Reason x icp s s' e) ∧
    ∀ fuel f s', finish x z icp fuel s = (.ok (some f), s') →
      AcceptedCalls t m z c inp fmt s'.sent 0 m.inferenceSteps f.queryCalls ∧
      callPhases 0 f.queryCalls = List.range m.inferenceSteps ∧
      ∃ v, f.logits = v.map value ∧
        if fmt = .int8 then ∃ s₀ s, m.beginQuantized inp.tokenInput = .ok s₀ ∧
          times (fun x => m.stepQuantized x.1) m.inferenceSteps (s₀, none) = .ok (s, some v)
        else m.infer inp.tokenInput = .ok v := by
  have hcal' : steps.isNone → m.bundle.toList = autoBundle ∧ m.inferenceSteps = 32 :=
    fun hnone => hcal (Option.isNone_iff_eq_none.mp hnone)
  have hconsistent : Consistent t m z c value inp fmt steps.isNone s := by
    induction hs with
    | new => exact Consistent.new hnew
    | advanced hs h ih => exact (ih.advance hk hz hc hhonest hcal' hone h).1
  constructor
  · intro r s' hadvance
    exact (hconsistent.advance hk hz hc hhonest hcal' hone hadvance).2
  · intro fuel f s' hfinish
    obtain ⟨done, s₁, hloop, hrest⟩ := Method.bind_eq_ok.mp hfinish
    cases done with
    | none => cases hrest
    | some u =>
      obtain ⟨hs₁, p, hp, hdone⟩ := hconsistent.advances hk hz hc hhonest hcal' hone hloop
      cases p with
      | «continue» state size bundle format completed total instructions => cases hdone
      | done logits completed total instructions =>
        have hprogress : s₁.progress = some (.done logits completed total instructions) := hp
        change (Method.self >>= _) s₁ = _ at hrest
        rw [Method.bind_of_ok Method.self_apply, hprogress] at hrest
        cases hrest
        obtain ⟨-, rfl, v, rfl, hv⟩ := hs₁.sound _ hp
        have haccepted := hs₁.accepted
        rw [hprogress] at haccepted
        refine ⟨haccepted, ?_, v, rfl, ?_⟩
        · have hphases := haccepted.phases.2
          rw [Nat.sub_zero, ← List.range_eq_range'] at hphases
          exact hphases
        · cases fmt with
          | f32 => exact LayaModel.infer_of_logits hv
          | int8 => exact hv

namespace QuerySession.Served

/-- The decoder of a LEB128 number. -/
def readUleb : List UInt8 → Option (ℕ × List UInt8)
  | [] => none
  | b :: bs =>
    if b.toNat < 128 then some (b.toNat, bs)
    else (readUleb bs).map fun (high, rest) => (b.toNat - 128 + 128 * high, rest)

theorem readUleb_uleb (n : ℕ) (rest : List UInt8) : readUleb (uleb n ++ rest) = some (n, rest) := by
  induction n using Nat.strong_induction_on with
  | _ n ih =>
    rw [uleb]
    by_cases hn : n < 128
    · have hb : (UInt8.ofNat n).toNat = n := by
        rw [UInt8.toNat_ofNat']
        omega
      rw [if_pos hn, List.singleton_append, readUleb, hb, if_pos hn]
    · have hb : (UInt8.ofNat (n % 128 + 128)).toNat = n % 128 + 128 := by
        rw [UInt8.toNat_ofNat']
        omega
      rw [if_neg hn, List.cons_append, readUleb, hb, if_neg (by omega), ih (n / 128) (by omega)]
      simp only [Option.map_some, Option.some.injEq, Prod.mk.injEq, and_true]
      omega

def input : QueryInput := ⟨[4, 4], [0, 1], 0⟩

/-- A decoder of the bytes that a client of this input sends. -/
def candid : CandidArgs where
  beginArgs := fun _ => some input.tokenInput
  batchArgs := fun bytes =>
    some (input.tokenInput, (ofLe32 (bytes.drop (bytes.length - 4))).toNat)
  continueArgs := fun bytes => (readUleb (bytes.drop 10)).map fun (size, rest) =>
    (rest.take size, (ofLe32 (rest.drop size)).toNat)

theorem packU32_width {w : ℤ} (h : 1 ≤ w ∧ w ≤ 16) : (ofLe32 (packU32 w)).toNat = w.toNat := by
  rw [packU32, ofLe32_le32, UInt32.toNat_ofNat']
  omega

theorem drop_width (bytes : List UInt8) (w : ℤ) :
    (bytes ++ packU32 w).drop ((bytes ++ packU32 w).length - 4) = packU32 w := by
  have hlength : (packU32 w).length = 4 := length_le32 _
  rw [List.length_append, hlength, Nat.add_sub_cancel, List.drop_left]

theorem candid_decodes : candid.Decodes input where
  beginArgs := fun _ => rfl
  batchArgs := by
    intro bytes w h
    simp only [encodeInput, bind_eq_ok, rejectIf_eq_ok, pure_eq_ok, not_not] at h
    obtain ⟨_, -, _, -, _, hw, rfl⟩ := h
    rw [candid]
    dsimp only
    rw [drop_width, packU32_width hw]
  continueArgs := by
    intro state bytes w hstate h
    simp only [encodeContinue, bind_eq_ok, rejectIf_eq_ok, pure_eq_ok, not_not] at h
    obtain ⟨_, hw, rfl⟩ := h
    rw [candid]
    dsimp only
    rw [List.append_assoc, List.append_assoc]
    show (readUleb (uleb state.length ++ (state ++ packU32 w))).map _ = _
    rw [readUleb_uleb, Option.map_some, List.take_left, List.drop_left, packU32_width hw]

def single (v : UInt32) : ℚ := v.toNat

/-- Texts named by what they render. -/
def texts : Texts ℚ where
  lower := id
  statuses := fun _ => []
  okVariant := fun _ => true
  doneVariant := fun text => text = "done"
  continueVariant := fun _ => true
  field := fun key text => some (.ok
    (if key = "instructions" ∨ key = "completed" ∧ text = "begun" then 0 else 4))
  blobs := fun _ => .ok [Zlib.Sample.state]
  logits := fun _ => .ok [0, 0]

def beginRequest : Request := ⟨.token true false false false, (encodeInput input none).toOption.getD []⟩

def continueRequest : Request :=
  ⟨.token false false false false, (encodeContinue Zlib.Sample.state 16).toOption.getD []⟩

/-- The two replies of the model of zeros, and then only time-outs. -/
def icp (n : ℕ) (request : Request) : Attempt :=
  if n = 0 ∧ request = beginRequest then .reply "begun"
  else if n = 1 ∧ request = continueRequest then .reply "done"
  else .raises true "timed out"

open Int8Kernels Zlib.Sample in
theorem icp_honest : Honest .bits32 peakedModel zlib candid texts single icp := by
  have hbegun : queryAnswer .bits32 peakedModel zlib candid beginRequest .zero =
      .ok (.progress (.continue state 0 4 0)) := by decide +kernel
  have hdone : queryAnswer .bits32 peakedModel zlib candid continueRequest .zero =
      .ok (.progress (.done [0, 0] 4 4 0)) := by decide +kernel
  intro n request reply hreply
  unfold icp at hreply
  refine ⟨.zero, ?_⟩
  by_cases hfirst : n = 0 ∧ request = beginRequest
  · rw [if_pos hfirst] at hreply
    cases hreply
    rw [hfirst.2, hbegun]
    exact ⟨rfl, by decide, rfl, ⟨by decide, by decide, by decide⟩, rfl⟩
  · rw [if_neg hfirst] at hreply
    by_cases hsecond : n = 1 ∧ request = continueRequest
    · rw [if_pos hsecond] at hreply
      cases hreply
      rw [hsecond.2, hdone]
      exact ⟨rfl, by decide, ⟨by decide, by decide, by decide⟩, by decide⟩
    · rw [if_neg hsecond] at hreply
      cases hreply

def session : QuerySession ℚ :=
  ⟨input, 16, false, 16, false, false, false, none, [], none, 2, [], .f32, []⟩

end QuerySession.Served

open QuerySession QuerySession.Served Int8Kernels Zlib.Sample in
/-- A call, and a session that is finished after two calls. -/
theorem session_progress_sample : (∃ s', advance texts zlib icp session =
      (.ok (.continue state 92 peakedModel.bundle.toList .f32 0 4 0), s') ∧
      ∃ ws, Call session s' ws) ∧
    ∃ f s', finish texts zlib icp 3 session = (.ok (some f), s') ∧
      AcceptedCalls .bits32 peakedModel zlib candid input .f32 s'.sent 0 4 f.queryCalls ∧
      ∃ v, f.logits = v.map single ∧ peakedModel.infer input.tokenInput = .ok v := by
  have hinfer : peakedModel.infer input.tokenInput = .ok [0, 0] := by decide +kernel
  have hone : ∀ v, (InEngine .bits32 peakedModel (decide (ActivationFormat.f32 = .int8)) fun e =>
      e.Logits input.tokenInput peakedModel.inferenceSteps v) → v.length = input.markers.length := by
    intro v hv
    rw [Engine.Logits.unique hv (LayaModel.logits_of_infer hinfer)]
    rfl
  have hnew : QuerySession.new input (some 16) 2 .f32 false = .ok session := by decide +kernel
  have hcal : some (16 : ℤ) = none → peakedModel.bundle.toList = autoBundle ∧
      peakedModel.inferenceSteps = 32 := fun hnone => by cases hnone
  have hall := session_progress .bits32 peakedModel (k := peaked) rfl Zlib.Sample.inverse texts single
    candid_decodes icp_honest hcal hone hnew .new
  have hadvance : (advance texts zlib icp session).1 =
      .ok (.continue state 92 peakedModel.bundle.toList .f32 0 4 0) := by decide +kernel
  have hfinish : ((finish texts zlib icp 3 session).1.toOption.join.map fun f => f.logits) =
      some [0, 0] := by decide +kernel
  constructor
  · rcases hcall : advance texts zlib icp session with ⟨r, s'⟩
    rw [hcall] at hadvance
    cases hadvance
    exact ⟨s', rfl, (hall.1 _ s' hcall).1⟩
  · rcases hloop : finish texts zlib icp 3 session with ⟨e | done, s'⟩
    · rw [hloop] at hfinish
      cases hfinish
    · cases done with
      | none =>
        rw [hloop] at hfinish
        cases hfinish
      | some f =>
        obtain ⟨haccepted, -, v, hv, hrun⟩ := hall.2 3 f s' hloop
        exact ⟨f, s', rfl, haccepted, v, hv, hrun⟩

namespace QuerySession.Direct
open LayaModel Served

/-- A model of zeros with the bundle and the phases of the calibrated pack. -/
def model : LayaModel ℚ Digest32 where
  config := { Zeros.config with layers := 28, decisionLayers := 2 }
  bundle := ⟨autoBundle.toArray, rfl⟩
  backendKind := .syntheticFixture
  f32 :=
    { Zeros.phases Zeros.tensor (fun x => x.dims.headD 0) with
      layers := List.replicate 28 fun x => .ok x
      decision := List.replicate 2 fun x markers =>
        .ok (markers.elim x fun ms => Zeros.tensor ms.length) }
  q8 :=
    { Zeros.phases Zeros.qtensor QTensor.rows with
      layers := List.replicate 28 fun x => .ok x
      decision := List.replicate 2 fun x markers =>
        .ok (markers.elim x fun ms => Zeros.qtensor ms.length) }
  valid := by decide +kernel
  f32_layers := rfl
  f32_decision := rfl
  q8_layers := rfl
  q8_decision := rfl

def tokensRequest : Request := ⟨.inferTokens, beginRequest.payload⟩

/-- The reply of the model to the query that runs all its phases. -/
def tokensIcp (n : ℕ) (request : Request) : Attempt :=
  if n = 0 ∧ request = tokensRequest then .reply "done" else .raises true "timed out"

theorem tokensIcp_honest : Honest .bits32 model Zlib.Sample.zlib candid texts single tokensIcp := by
  have htokens : queryAnswer .bits32 model Zlib.Sample.zlib candid tokensRequest .zero =
      .ok (.tokens [0, 0] 0) := by decide +kernel
  intro n request reply hreply
  unfold tokensIcp at hreply
  refine ⟨.zero, ?_⟩
  by_cases hfirst : n = 0 ∧ request = tokensRequest
  · rw [if_pos hfirst] at hreply
    cases hreply
    rw [hfirst.2, htokens]
    exact ⟨rfl, by decide, rfl⟩
  · rw [if_neg hfirst] at hreply
    cases hreply

/-- A new automatic session of a short input. -/
def tokensSession : QuerySession ℚ :=
  ⟨input, 1, true, 16, false, true, false, none, [], none, 2, [], .f32, []⟩

end QuerySession.Direct

open QuerySession QuerySession.Direct QuerySession.Served in
/-- The first call of a new session of a short input is no fused begin and has no width, and it
completes all the phases. -/
theorem direct_query_completes :
    Honest .bits32 model Zlib.Sample.zlib candid texts single tokensIcp ∧
    model.bundle.toList = autoBundle ∧ model.inferenceSteps = 32 ∧
    QuerySession.new input none 2 .f32 false = .ok tokensSession ∧
    tokensSession.progress = none ∧ tokensSession.fusedBegin = false ∧
    ∃ s', advance texts Zlib.Sample.zlib tokensIcp tokensSession =
        (.ok (.done [0, 0] 32 32 0), s') ∧
      ∃ request, encodeInput input none = .ok request.payload ∧ s'.sent = [request] := by
  have hadvance : (advance texts Zlib.Sample.zlib tokensIcp tokensSession).1 =
      .ok (.done [0, 0] 32 32 0) := by decide +kernel
  have hsent : (advance texts Zlib.Sample.zlib tokensIcp tokensSession).2.sent =
      [tokensRequest] := by decide +kernel
  refine ⟨tokensIcp_honest, rfl, rfl, rfl, rfl, rfl, _, Prod.ext hadvance rfl, tokensRequest, ?_,
    hsent⟩
  rfl
end IcLaya
