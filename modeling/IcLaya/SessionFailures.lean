import IcLaya.QuerySession

/-!
# What a failed call leaves of a session

The attempts of a call change widths and records of failures only. A reply that is refused changes
nothing, but for one check that comes after the pin of the pack: the first continuation of an
automatic session whose pack is not the calibrated one.
-/
namespace IcLaya
open Fallible RaisingMethods WordStreams

namespace QuerySession
variable {Logit : Type} {x : Texts Logit} {z : Zlib} {icp : ℕ → Request → Attempt}
  {s s' s₁ s₂ : QuerySession Logit}

/-- Only widths, failed attempts and what was sent differ. -/
def Trying (s s' : QuerySession Logit) : Prop :=
  s' = { s with
    steps := s'.steps
    autoCap := s'.autoCap
    failedAttempts := s'.failedAttempts
    sent := s'.sent }

theorem Trying.refl (s : QuerySession Logit) : Trying s s := rfl

theorem Trying.trans (h : Trying s s₁) (h' : Trying s₁ s₂) : Trying s s₂ := by
  unfold Trying at *
  rw [h', h]

theorem widened_trying (s : QuerySession Logit) : Trying s s.widened := by
  unfold widened
  dsimp only
  split <;> rfl

theorem Trying.method (h : Trying s s') : s'.method = s.method := by
  unfold Trying at h
  rw [h]
  rfl

theorem Trying.payload (h : Trying s s') : s'.payload = s.payload := by
  unfold Trying at h
  rw [h]
  rfl

variable (x icp) in
theorem attemptLoop_trying (method : QueryMethod) (s : QuerySession Logit) (bytes : List UInt8)
    (attempts : ℕ) : Trying s (attemptLoop x icp method s bytes attempts).2 := by
  fun_induction attemptLoop x icp method s bytes attempts with
  | case1 => rfl
  | case2 => rfl
  | case3 => rfl
  | case4 s bytes attempts request timeout error hicp s' hlimit bytes' hpayload ih =>
    have hfirst : Trying s s'.halved := rfl
    exact hfirst.trans ih
  | case5 => rfl
  | case6 s bytes attempts request timeout error hicp s' hlimit hretry ih =>
    have hfirst : Trying s s' := rfl
    exact hfirst.trans ih

theorem request_eq (hdone : ¬∃ p ∈ s.progress, p.isDone) : request x icp s =
    match s.widened.payload s.widened.steps with
    | .error e => (.error e, s.widened)
    | .ok bytes => attemptLoop x icp s.widened.method s.widened bytes 0 := by
  rw [request, Method.bind_of_ok Method.self_apply, Method.raiseIf_bind hdone,
    Method.bind_of_ok Method.assign_apply, Method.bind_of_ok Method.self_apply]
  cases s.widened.payload s.widened.steps with
  | error e => exact Method.eval_bind_error rfl
  | ok bytes => exact Method.eval_bind_ok rfl

theorem request_done (hdone : ∃ p ∈ s.progress, p.isDone) :
    request x icp s = (.error "query inference is already complete", s) := by
  rw [request, Method.bind_of_ok Method.self_apply]
  exact Method.bind_of_error (Method.raiseIf_eq_error.mpr ⟨hdone, rfl, rfl⟩)

theorem request_trying {r : Except Failure (List UInt8 × String)}
    (h : request x icp s = (r, s')) : Trying s s' := by
  by_cases hdone : ∃ p ∈ s.progress, p.isDone
  · rw [request_done hdone] at h
    cases h
    exact .refl s
  · rw [request_eq hdone] at h
    cases hpayload : s.widened.payload s.widened.steps with
    | error e =>
      rw [hpayload] at h
      cases h
      exact widened_trying s
    | ok bytes =>
      rw [hpayload] at h
      dsimp only at h
      have hloop := attemptLoop_trying x icp s.widened.method s.widened bytes 0
      rw [h] at hloop
      exact (widened_trying s).trans hloop

/-- What `receive` decodes. -/
def decoded (x : Texts Logit) (z : Zlib) (s : QuerySession Logit) (reply : String) :
    Except Failure (Progress Logit) :=
  if s.direct then decodeDirect x reply else decodeProgress x z reply

/-- The session while a continuation is checked. -/
def pinned (s : QuerySession Logit) : QuerySession Logit :=
  if s.direct then { s with bundle := some autoBundle } else s

theorem receive_eq {bytes : List UInt8} {reply : String} : receive x z bytes reply s =
    match decoded x z s reply with
    | .error e => (.error e, s)
    | .ok next =>
      match s.checkProgress next with
      | .error e => (.error e, s)
      | .ok () =>
        match checkContinuation next s.pinned with
        | (.error e, s') => (.error e, s')
        | (.ok (), s') => (.ok next, s'.recorded bytes next) := by
  rw [receive, Method.bind_of_ok Method.self_apply]
  cases hdecoded : decoded x z s reply with
  | error e => exact Method.eval_bind_error hdecoded
  | ok next =>
    refine (Method.eval_bind_ok hdecoded).trans ?_
    dsimp only
    cases s.checkProgress next with
    | error e => exact Method.eval_bind_error rfl
    | ok u =>
      refine (Method.eval_bind_ok rfl).trans ?_
      rw [Method.bind_of_ok Method.assign_apply]
      dsimp only
      rcases hcontinue : checkContinuation next s.pinned with ⟨e | u', s'⟩
      · exact Method.bind_of_error hcontinue
      · exact Method.bind_of_ok hcontinue

/-- A continuation of another pack, consistent with the counts of the session. -/
def OtherPack (x : Texts Logit) (z : Zlib) (s : QuerySession Logit) (reply : String) : Prop :=
  ∃ state size bundle completed total instructions,
    decodeProgress x z reply = .ok
      (.continue state size bundle s.activationFormat completed total instructions) ∧
    s.checkProgress (.continue state size bundle s.activationFormat completed total instructions) =
      .ok () ∧
    bundle ≠ autoBundle

/-- Progress, recorded calls and the pinned pack are as they were. -/
def Kept (s s' : QuerySession Logit) : Prop :=
  s'.progress = s.progress ∧ s'.calls = s.calls ∧ s'.bundle = s.bundle

theorem Trying.kept (h : Trying s s') : Kept s s' := by
  unfold Trying at h
  refine ⟨?_, ?_, ?_⟩ <;> rw [h]

section Continuation
variable {state bundle bytes : List UInt8} {size completed total instructions : ℕ}
  {activationFormat : ActivationFormat} {next : Progress Logit} {e : Failure} {reply : String}

/-- What the checks of a continuation do, by the first that fails. -/
theorem checkContinuation_eq :
    checkContinuation (.continue state size bundle activationFormat completed total instructions) s =
      if activationFormat ≠ s.activationFormat then
        (.error "query activation format changed", s)
      else if ∃ b ∈ s.bundle, b ≠ bundle then (.error "query model changed", s)
      else
        (if s.auto ∧ (bundle ≠ autoBundle ∨ total ≠ 32) then
          .error "automatic query grouping requires the calibrated pack and 32 phases"
        else .ok (), { s with bundle := some bundle }) := by
  rw [checkContinuation, Method.bind_of_ok Method.self_apply]
  by_cases hformat : activationFormat ≠ s.activationFormat
  · rw [if_pos hformat]
    exact Method.bind_of_error (Method.raiseIf_eq_error.mpr ⟨hformat, rfl, rfl⟩)
  rw [if_neg hformat, Method.raiseIf_bind hformat]
  by_cases hmodel : ∃ b ∈ s.bundle, b ≠ bundle
  · rw [if_pos hmodel]
    exact Method.bind_of_error (Method.raiseIf_eq_error.mpr ⟨hmodel, rfl, rfl⟩)
  rw [if_neg hmodel, Method.raiseIf_bind hmodel, Method.bind_of_ok Method.assign_apply]
  by_cases hpack : s.auto ∧ (bundle ≠ autoBundle ∨ total ≠ 32)
  · rw [if_pos hpack]
    exact Method.raiseIf_eq_error.mpr ⟨hpack, rfl, rfl⟩
  · rw [if_neg hpack]
    exact Method.raiseIf_eq_ok.mpr ⟨hpack, rfl⟩

theorem checkProgress_total (h : s.checkProgress next = .ok ()) (hauto : s.auto) :
    next.total = 32 := by
  by_contra hne
  have hlast : rejectIf (s.auto ∧ next.total ≠ 32)
      "automatic query grouping requires 32 phases" ≠ .ok () :=
    fun hok => rejectIf_eq_ok.mp hok ⟨hauto, hne⟩
  obtain ⟨_, -, h⟩ := bind_eq_ok.mp h
  obtain ⟨_, -, h⟩ := bind_eq_ok.mp h
  obtain ⟨_, -, h⟩ := bind_eq_ok.mp h
  cases next with
  | done logits completed total instructions =>
    obtain ⟨_, -, h⟩ := bind_eq_ok.mp h
    exact hlast h
  | «continue» state size bundle activationFormat completed total instructions => exact hlast h

/-- A refused reply changes nothing, or it is the first of an automatic session and from another
pack. -/
theorem receive_error (h : receive x z bytes reply s = (.error e, s')) :
    s' = s ∨ s.auto ∧ ¬s.direct ∧ s.bundle = none ∧ OtherPack x z s reply := by
  rw [receive_eq] at h
  cases hdecoded : decoded x z s reply with
  | error e' =>
    rw [hdecoded] at h
    exact .inl (Prod.mk.inj h).2.symm
  | ok next =>
    rw [hdecoded] at h
    dsimp only at h
    cases hcheck : s.checkProgress next with
    | error e' =>
      rw [hcheck] at h
      exact .inl (Prod.mk.inj h).2.symm
    | ok u =>
      rw [hcheck] at h
      dsimp only at h
      cases next with
      | done logits completed total instructions => cases h
      | «continue» state size bundle activationFormat completed total instructions =>
        have hdirect : ¬s.direct := by
          intro hdirect
          rw [decoded, if_pos hdirect] at hdecoded
          simp only [decodeDirect, bind_eq_ok, pure_eq_ok] at hdecoded
          obtain ⟨_, -, _, -, _, -, _, -, hnext⟩ := hdecoded
          cases hnext
        have hpinned : s.pinned = s := if_neg hdirect
        rw [decoded, if_neg hdirect] at hdecoded
        rw [hpinned, checkContinuation_eq] at h
        by_cases hformat : activationFormat ≠ s.activationFormat
        · rw [if_pos hformat] at h
          exact .inl (Prod.mk.inj h).2.symm
        rw [if_neg hformat] at h
        by_cases hmodel : ∃ b ∈ s.bundle, b ≠ bundle
        · rw [if_pos hmodel] at h
          exact .inl (Prod.mk.inj h).2.symm
        rw [if_neg hmodel] at h
        by_cases hpack : s.auto ∧ (bundle ≠ autoBundle ∨ total ≠ 32)
        · rw [if_pos hpack] at h
          have htotal := checkProgress_total hcheck hpack.1
          have hbundle : bundle ≠ autoBundle := hpack.2.resolve_right fun hne => hne htotal
          cases hnone : s.bundle with
          | none =>
            obtain rfl := not_not.mp hformat
            exact .inr ⟨hpack.1, hdirect, rfl, _, _, _, _, _, _, hdecoded, hcheck, hbundle⟩
          | some b =>
            -- the pin was this pack already
            have hsame : b = bundle := by
              by_contra hne
              exact hmodel ⟨b, hnone, hne⟩
            rw [hsame] at hnone
            refine .inl ((Prod.mk.inj h).2.symm.trans ?_)
            rw [← hnone]
        · rw [if_neg hpack] at h
          cases h

theorem receive_otherPack (bytes : List UInt8) (hauto : s.auto) (hdirect : ¬s.direct) (hbundle : s.bundle = none)
    (h : OtherPack x z s reply) : ∃ e bundle, receive x z bytes reply s =
      (.error e, { s with bundle := some bundle }) := by
  obtain ⟨state, size, bundle, completed, total, instructions, hdecoded, hcheck, hother⟩ := h
  have hpinned : s.pinned = s := if_neg hdirect
  have hmodel : ¬∃ b ∈ s.bundle, b ≠ bundle := by rw [hbundle]; simp
  refine ⟨"automatic query grouping requires the calibrated pack and 32 phases", bundle, ?_⟩
  rw [receive_eq, decoded, if_neg hdirect, hdecoded]
  dsimp only
  rw [hcheck]
  dsimp only
  rw [hpinned, checkContinuation_eq, if_neg (not_not.mpr rfl), if_neg hmodel,
    if_pos ⟨hauto, .inl hother⟩]

end Continuation

end QuerySession

open QuerySession in
/-- A raise leaves progress, calls and pin as they were, unless the call is one of an automatic
session without a pin and is answered by a continuation of another pack. -/
theorem failed_advance_keeps {Logit : Type} (x : Texts Logit) (z : Zlib)
    (icp : ℕ → Request → Attempt) (s : QuerySession Logit) :
    (∀ e s', advance x z icp s = (.error e, s') → Kept s s') ↔
      ¬(s.auto ∧ ¬s.direct ∧ s.bundle = none ∧ ∃ bytes reply s₁,
        request x icp s = (.ok (bytes, reply), s₁) ∧ OtherPack x z s₁ reply) := by
  constructor
  · rintro hkept ⟨hauto, hdirect, hbundle, bytes, reply, s₁, hrequest, hother⟩
    have ht := request_trying hrequest
    unfold Trying at ht
    have hauto₁ : s₁.auto := by rw [ht]; exact hauto
    have hdirect₁ : ¬s₁.direct := by rw [ht]; exact hdirect
    have hbundle₁ : s₁.bundle = none := by rw [ht]; exact hbundle
    obtain ⟨e, bundle, hreceive⟩ := receive_otherPack bytes hauto₁ hdirect₁ hbundle₁ hother
    have hraise := hkept e _ ((Method.bind_of_ok hrequest).trans hreceive)
    have hpin := hraise.2.2
    rw [hbundle] at hpin
    cases hpin
  · intro hno e s' hadvance
    rcases Method.bind_eq_error.mp hadvance with hrequest | ⟨⟨bytes, reply⟩, s₁, hrequest, hreceive⟩
    · exact (request_trying hrequest).kept
    · have ht := request_trying hrequest
      rcases receive_error hreceive with rfl | ⟨hauto, hdirect, hbundle, hother⟩
      · exact ht.kept
      · unfold Trying at ht
        rw [ht] at hauto hdirect hbundle
        exact absurd ⟨hauto, hdirect, hbundle, bytes, reply, s₁, hrequest, hother⟩ hno

namespace QuerySession.Sample

/-- A state of some pack after sixteen phases. -/
def state (bundle : List UInt8) : List UInt8 :=
  layi ++ le32s [1, 2] ++ bundle ++ le32s [16, 0, 1, 2] ++ List.replicate 12 0

def other : List UInt8 := List.replicate 32 0

/-- Texts that are read as continuations: the one of another pack, any other of the calibrated. -/
def texts : Texts ℚ where
  lower := id
  statuses := fun _ => []
  okVariant := fun _ => true
  doneVariant := fun _ => false
  continueVariant := fun _ => true
  field := fun key _ => some (.ok (if key = "completed" then 16 else 32))
  blobs := fun text => .ok [state (if text = "other" then other else autoBundle)]
  logits := fun _ => .error "missing query logits"

def input : QueryInput := ⟨[4], [0, 1], 0⟩

/-- A new automatic session of the INT8 engine. -/
def session : QuerySession ℚ := ⟨input, 1, true, 16, false, false, true, none, [], none, 2, [], .int8, []⟩

/-- A call that is answered by a text. -/
def answered (text : String) (s : QuerySession ℚ) : Except Failure (Progress ℚ) × QuerySession ℚ :=
  advance texts Zlib.Sample.zlib (fun _ _ => .reply text) s

end QuerySession.Sample

open QuerySession QuerySession.Sample in
/-- After a refused reply of another pack a new session refuses the calibrated pack, which it would
have accepted. -/
theorem refused_pack_stays_pinned : QuerySession.new input none 2 .int8 false = .ok session ∧
    (answered "other" session).1 =
      .error "automatic query grouping requires the calibrated pack and 32 phases" ∧
    session.bundle = none ∧ (answered "other" session).2.bundle = some other ∧
    (answered "calibrated" (answered "other" session).2).1 = .error "query model changed" ∧
    (answered "calibrated" session).1.isOk := by
  decide +kernel

end IcLaya
