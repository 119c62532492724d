import IcLaya.CachedEvaluations
import IcLaya.SlotExchanges
import IcLaya.TransferComposition
import IcLaya.VettedDispatches

/-!
# The executor and the decision engine

The messages between the two canisters (`executor/src/lib.rs`, `decision-engine/src/lib.rs`). A slot
is asked for in one step of `advance`, executed by the engine at most once at any later step, and
answered at most once at any step, by the engine's reply or by a transport failure. A callback that
traps is one that is never answered. Anything else can happen in between on either side.
-/
namespace IcLaya
open CheckedWords Fallible ListUpdates OrderedMaps TransitionSystems CanisterCommon

/-- The call with what the engine did; an execution that trapped is `some none`. -/
structure EngineMessage (Digest : Type) extends Exchange Digest where
  executed : Option (Option (Result (Receipt Digest)))

/-- `asked` lists the evaluations for which the backend was asked, where the canister kept what came
of it, and `submitted` the callers and nonces of the submissions. -/
structure EvaluationSystem (F Digest : Type) [Doubles F] [Hashing Digest] where
  executor : ExecutorState Digest
  engine : Canister F Digest
  calls : List (EngineMessage Digest)
  asked : List (Principal × Digest)
  submitted : List (Principal × UInt64)

inductive EvaluationEvent (F Digest : Type) [Ord Digest]
  | call (op : Op Digest)
  | advance (caller : Principal) (id : Digest) (now : UInt64)
  | execute (i : ℕ) (msg : CallContext)
  | deliver (i : ℕ) (d : Delivery) (now : UInt64)
  | engine (msg : CallContext) (call : UpdateCall F Digest)

def Op.submission {Digest : Type} [Ord Digest] : Op Digest → Option (Principal × UInt64)
  | .submit caller nonce .. => some (caller, nonce)
  | _ => none

def EvaluationEvent.submission {F Digest : Type} [Ord Digest] :
    EvaluationEvent F Digest → Option (Principal × UInt64)
  | .call op => op.submission
  | _ => none

/-- What `advance` hands to the executor once its call returned: the reply, or nothing. -/
def advanceOutcome {Digest : Type} (executed : Option (Option (Result (Receipt Digest)))) :
    Delivery → Option (Option (Result (Receipt Digest)))
  | .reply =>
    match executed with
    | some (some r) => some (some r)
    | _ => none
  | .undecodable | .failed => some none

variable {F Digest : Type} [Doubles F] [ByteDigest Digest]

namespace EvaluationSystem

def new (self owner engine : Principal) (c : Canister F Digest) : EvaluationSystem F Digest :=
  ⟨.new self owner engine, c, [], [], []⟩

/-- The engine knows the executor by its own principal. -/
abbrev self (w : EvaluationSystem F Digest) : Principal := w.executor.instancePrincipal

abbrev cache (w : EvaluationSystem F Digest) :
    Std.ExtTreeMap (Principal × Digest) (Cached Digest) := w.engine.persistent.engine.cache

def execute (l : Linked F Digest) (w : EvaluationSystem F Digest) (i : ℕ) (m : EngineMessage Digest)
    (msg : CallContext) : EvaluationSystem F Digest :=
  let msg := { msg with caller := w.self }
  match w.engine.evaluate l msg m.req with
  | some (r, c) =>
    { w with
      engine := c
      calls := w.calls.set i { m with executed := some (some r) }
      asked := w.asked ++ (w.engine.asked l msg (.evaluate m.req)).toList }
  | none => { w with calls := w.calls.set i { m with executed := some none } }

/-- The state after an event; an event that cannot happen changes nothing. -/
def step (l : Linked F Digest) (w : EvaluationSystem F Digest) :
    EvaluationEvent F Digest → EvaluationSystem F Digest
  | .call op =>
    if op.evaluates then w
    else
      { w with
        executor := w.executor.step op
        submitted := w.submitted ++ op.submission.toList }
  | .advance caller id now =>
    match w.executor.admitted caller, w.executor.beginEvaluation caller id now with
    | .ok _, .ok (s, .ok req) =>
      { w with executor := s, calls := w.calls ++ [⟨⟨id, req, none⟩, none⟩] }
    | .ok _, .ok (s, .error _) => { w with executor := s }
    | _, _ => w
  | .execute i msg =>
    match w.calls[i]? with
    | some m => if m.executed.isSome then w else w.execute l i m msg
    | none => w
  | .deliver i d now =>
    match w.calls[i]? with
    | some m =>
      match m.answer, advanceOutcome m.executed d with
      | none, some outcome =>
        { w with
          executor := w.executor.step (m.toExchange.callback now outcome)
          calls := w.calls.set i { m with answer := some outcome } }
      | _, _ => w
    | none => w
  | .engine msg call =>
    -- the executor canister itself calls the engine by the events above only
    if msg.caller = w.self then w
    else
      match w.engine.perform l msg call with
      | some (_, c) =>
        { w with engine := c, asked := w.asked ++ (w.engine.asked l msg call).toList }
      | none => w

end EvaluationSystem

open ExecutorState (slotId)

/-- The hash tells the submissions to the executor `p` apart. -/
def Distinct (Digest : Type) [Hashing Digest] (p : Principal) (xs : List (Principal × UInt64)) :
    Prop :=
  ∀ x ∈ xs, ∀ y ∈ xs, ((ExecutorState.requestCanonical p x.1 x.2).finish : Digest) =
    (ExecutorState.requestCanonical p y.1 y.2).finish → x = y

/-- The executor `p`, what was submitted to it and its calls. -/
structure Asks (p : Principal) (s : ExecutorState Digest) (submitted : List (Principal × UInt64))
    (log : List (Exchange Digest)) : Prop where
  principal : s.instancePrincipal = p
  valid : s.Valid
  evidenced : s.Evidenced
  vetted : s.Vetted
  tracked : Tracked s log
  known : ∀ (k : Digest) r, s.requests[k]? = some r → (r.caller, r.nonce) ∈ submitted

/-- The engine, the calls it served for `caller` and what it asked the backend for. -/
structure Serves (caller : Principal) (c : Canister F Digest) (calls : List (EngineMessage Digest))
    (asked : List (Principal × Digest)) : Prop where
  quotas : c.persistent.engine.Quotas
  executed : ∀ m ∈ calls, ∀ v, m.executed = some (some (.ok v)) →
    c.persistent.engine.cache[(caller, m.req.evaluationId)]? = some ⟨m.req.digest, .ok v⟩
  answered : ∀ m ∈ calls, ∀ r, m.answer = some (some r) → m.executed = some (some r)
  listed : ∀ k, c.persistent.engine.cache.contains k = true ↔ k ∈ asked
  once : asked.Nodup
  sent : ∀ k ∈ asked, k.1 = caller → ∃ m ∈ calls, m.req.evaluationId = k.2

section Sides
variable {p caller : Principal} {s : ExecutorState Digest} {op : Op Digest}
  {submitted submitted' : List (Principal × UInt64)} {log log' : List (Exchange Digest)}
  {c c' : Canister F Digest} {calls : List (EngineMessage Digest)}
  {asked : List (Principal × Digest)}

theorem Distinct.mono (h : Distinct Digest p submitted') (hsub : submitted ⊆ submitted') :
    Distinct Digest p submitted :=
  fun x hx y hy => h x (hsub hx) y (hsub hy)

/-- A new submission has an id of its own. -/
theorem Asks.fresh (h : Asks p s submitted log) (hsub : submitted ⊆ submitted')
    (hop : ∀ x ∈ op.submission, x ∈ submitted') (hd : Distinct Digest p submitted') :
    s.FreshFor op := by
  cases op with
  | submit caller nonce operation grant now =>
    intro hn
    apply Option.eq_none_iff_forall_ne_some.mpr
    intro r hr
    have hc := h.valid.coherent.request _ r hr
    have hid : s.requestId caller nonce = s.requestId r.caller r.nonce := by
      rw [← hc.derived, hc.id_eq]
    unfold ExecutorState.requestId at hid
    rw [h.principal] at hid
    obtain ⟨rfl, rfl⟩ := Prod.mk.inj
      (hd (caller, nonce) (hop _ rfl) (r.caller, r.nonce) (hsub (h.known _ r hr)) hid)
    exact absurd hc.numbered (UInt64.not_lt.mpr hn)
  | _ => trivial

theorem Asks.step (h : Asks p s submitted log) (hf : s.FreshFor op)
    (hsub : submitted ⊆ submitted') (hop : ∀ x ∈ op.submission, x ∈ submitted')
    (ht : Tracked (s.step op) log') : Asks p (s.step op) submitted' log' := by
  have hch := ExecutorState.change_of_fresh h.valid.coherent op hf
  refine ⟨hch.extends.instancePrincipal.trans h.principal, h.valid.change hch,
    h.evidenced.change h.valid.coherent h.valid.lifecycle hch, h.vetted.change h.valid h.evidenced hch,
    ht, fun k r' hr' => ?_⟩
  cases hr : s.requests[k]? with
  | some r =>
    obtain ⟨r₁, hr₁, hticket⟩ := hch.extends.requests k r hr
    cases hr'.symm.trans hr₁
    rw [hticket]
    exact hsub (h.known k r hr)
  | none =>
    obtain ⟨caller, nonce, _, _, _, _, _, _, _, rfl, _, _, _, _, _, rfl, _⟩ := hch.born hr hr'
    exact hop (caller, nonce) rfl

theorem Asks.quiet (h : Asks p s submitted log) (hf : s.FreshFor op)
    (hsub : submitted ⊆ submitted') (hop : ∀ x ∈ op.submission, x ∈ submitted')
    (hq : s.Quiet (s.step op)) : Asks p (s.step op) submitted' log := by
  have hch := ExecutorState.change_of_fresh h.valid.coherent op hf
  exact h.step hf hsub hop (h.tracked.quiet h.valid h.evidenced (h.valid.change hch) hch hq)

theorem Serves.send (h : Serves caller c calls asked) (k : Digest) (req : DecisionRequest Digest) :
    Serves caller c (calls ++ [⟨⟨k, req, none⟩, none⟩]) asked := by
  refine ⟨h.quotas, forall_mem_concat h.executed fun v hv => ?_,
    forall_mem_concat h.answered fun r hr => ?_, h.listed, h.once, fun a ha hc => ?_⟩
  · cases hv
  · cases hr
  · obtain ⟨m, hm, he⟩ := h.sent a ha hc
    exact ⟨m, List.mem_append_left _ hm, he⟩

/-- What is sent for a call does not change. -/
theorem Serves.sent_set (h : Serves caller c calls asked) {i : ℕ} {m m' : EngineMessage Digest}
    (hm : calls[i]? = some m) (hreq : m'.req = m.req) :
    ∀ k ∈ asked, k.1 = caller → ∃ x ∈ calls.set i m', x.req.evaluationId = k.2 := by
  intro k hk hc
  obtain ⟨x, hx, he⟩ := h.sent k hk hc
  rcases mem_set_of_mem hx hm with rfl | hx
  · exact ⟨m', mem_set_self hm, by rw [hreq, he]⟩
  · exact ⟨x, hx, he⟩

theorem Serves.answer (h : Serves caller c calls asked) {i : ℕ} {m : EngineMessage Digest}
    (hm : calls[i]? = some m) {outcome : Option (Result (Receipt Digest))}
    (ho : ∀ r, outcome = some r → m.executed = some (some r)) :
    Serves caller c (calls.set i { m with answer := some outcome }) asked := by
  refine ⟨h.quotas, forall_mem_set h.executed (h.executed m (List.mem_of_getElem? hm)),
    forall_mem_set h.answered fun r hr => ?_, h.listed, h.once, h.sent_set hm rfl⟩
  exact ho r (Option.some.inj hr)

/-- The engine was called. -/
theorem Serves.keeps (h : Serves caller c calls asked) {a : Option (Principal × Digest)}
    (hk : Canister.Keeps c c' a)
    (ha : ∀ k ∈ a, k.1 = caller → ∃ m ∈ calls, m.req.evaluationId = k.2) :
    Serves caller c' calls (asked ++ a.toList) := by
  refine ⟨hk.quotas, fun m hm v hv => ?_, h.answered, fun k => ?_, ?_, fun k hk' => ?_⟩
  · exact hk.kept _ _ (h.executed m hm v hv)
  · rw [hk.origin, h.listed, List.mem_append, Option.mem_toList, Option.mem_def]
  · refine List.Nodup.append h.once ?_ fun k hk' ha => ?_
    · cases a <;> simp
    · have hnew := hk.fresh k (Option.mem_toList.mp ha)
      rw [(h.listed k).mpr hk'] at hnew
      cases hnew
  · rcases List.mem_append.mp hk' with hk' | hk'
    · exact h.sent k hk'
    · exact ha k (Option.mem_toList.mp hk')

/-- The engine did a call, or trapped on it. -/
theorem Serves.execute (h : Serves caller c calls asked) {i : ℕ} {m : EngineMessage Digest}
    (hm : calls[i]? = some m) (hn : m.executed = none) {result : Option (Result (Receipt Digest))}
    (hv : ∀ v, result = some (.ok v) →
      c.persistent.engine.cache[(caller, m.req.evaluationId)]? = some ⟨m.req.digest, .ok v⟩) :
    Serves caller c (calls.set i { m with executed := some result }) asked := by
  refine ⟨h.quotas, forall_mem_set h.executed fun v hr => ?_,
    forall_mem_set h.answered fun r hr => ?_, h.listed, h.once, h.sent_set hm rfl⟩
  · exact hv v (Option.some.inj hr)
  · have := h.answered m (List.mem_of_getElem? hm) r hr
    rw [hn] at this
    cases this

end Sides

namespace EvaluationSystem
variable {l : Linked F Digest} {p : Principal} {w : EvaluationSystem F Digest}

/-- The invariant of the two canisters. -/
structure Sound (p : Principal) (w : EvaluationSystem F Digest) : Prop where
  asks : Asks p w.executor w.submitted (w.calls.map EngineMessage.toExchange)
  serves : Serves p w.engine w.calls w.asked

theorem Sound.new {msg : CallContext} {owner' : Principal} {c : Canister F Digest}
    (self owner engine : Principal) (hc : Canister.init l msg owner' = some c) :
    (EvaluationSystem.new self owner engine c).Sound self := by
  refine ⟨⟨rfl, ExecutorState.valid_new .., ExecutorState.evidenced_new self owner engine,
    ExecutorState.vetted_new self owner engine, .empty .., fun k r hr => ?_⟩, ?_⟩
  · simp [EvaluationSystem.new, ExecutorState.new] at hr
  unfold Canister.init at hc
  split at hc
  · cases hc
  · dsimp only at hc
    split at hc
    · cases hc
      refine ⟨fun p q hp => ?_, fun m hm => absurd hm List.not_mem_nil,
        fun m hm => absurd hm List.not_mem_nil, fun k => ?_, List.nodup_nil,
        fun k hk => absurd hk List.not_mem_nil⟩
      · simp [EngineState.new, EvaluationSystem.new] at hp
      · simp [EngineState.new, EvaluationSystem.new]
    · cases hc

theorem Sound.call (h : w.Sound p) {op : Op Digest} (hop : op.evaluates = false)
    (hd : Distinct Digest p (w.submitted ++ op.submission.toList)) :
    Sound p { w with
      executor := w.executor.step op
      submitted := w.submitted ++ op.submission.toList } := by
  have hsub := List.subset_append_left w.submitted op.submission.toList
  have hnew : ∀ x ∈ op.submission, x ∈ w.submitted ++ op.submission.toList :=
    fun x hx => List.mem_append_right _ (Option.mem_toList.mpr hx)
  have hf := h.asks.fresh hsub hnew hd
  exact ⟨h.asks.quiet hf hsub hnew (ExecutorState.quiet_step h.asks.valid hf hop), h.serves⟩

theorem Sound.advance (h : w.Sound p) {caller : Principal} {id : Digest} {now : UInt64}
    {s : ExecutorState Digest} {res : Result (DecisionRequest Digest)}
    (hb : w.executor.beginEvaluation caller id now = .ok (s, res)) :
    (∀ req, res = .ok req →
      Sound p { w with executor := s, calls := w.calls ++ [⟨⟨id, req, none⟩, none⟩] }) ∧
    (∀ e, res = .error e → Sound p { w with executor := s }) := by
  have hs : w.executor.step (.beginEvaluation caller id now) = s := by
    simp only [ExecutorState.step, hb, ExecutorState.commit_ok]
  have hnone : ∀ x ∈ (Op.beginEvaluation caller id now : Op Digest).submission, x ∈ w.submitted :=
    fun x hx => by cases hx
  have hf : w.executor.FreshFor (.beginEvaluation caller id now) := trivial
  constructor
  · rintro req rfl
    have ht := h.asks.tracked.begun h.asks.valid h.asks.evidenced hb
    refine ⟨?_, h.serves.send id req⟩
    rw [List.map_append]
    exact hs ▸ h.asks.step hf (List.Subset.refl _) hnone (hs.symm ▸ ht)
  · rintro e rfl
    exact ⟨hs ▸ h.asks.quiet hf (List.Subset.refl _) hnone (hs.symm ▸ quiet_begun hb), h.serves⟩

theorem Sound.execute (h : w.Sound p) {i : ℕ} {m : EngineMessage Digest} {msg : CallContext}
    (hm : w.calls[i]? = some m) (hn : m.executed = none) : (w.execute l i m msg).Sound p := by
  have hsame : ∀ result : Option (Result (Receipt Digest)),
      (w.calls.set i { m with executed := some result }).map EngineMessage.toExchange =
        w.calls.map EngineMessage.toExchange := fun _ => map_set_same _ hm rfl
  unfold EvaluationSystem.execute
  rw [EvaluationSystem.self, h.asks.principal]
  dsimp only
  split
  · next r c he =>
    refine ⟨(hsame _).symm ▸ h.asks, ?_⟩
    refine (h.serves.keeps (Canister.evaluate_keeps h.serves.quotas he) fun k hk _ => ?_).execute hm hn
      fun v hv => Canister.evaluate_cached h.serves.quotas (Option.some.inj hv ▸ he)
    obtain ⟨-, req, heq, hid⟩ := Canister.asked_caller hk
    cases heq
    exact ⟨m, List.mem_of_getElem? hm, hid.symm⟩
  · exact ⟨(hsame _).symm ▸ h.asks, h.serves.execute hm hn fun v hv => by cases hv⟩

theorem Sound.deliver (h : w.Sound p) {i : ℕ} {m : EngineMessage Digest} {d : Delivery}
    {now : UInt64} {outcome : Option (Result (Receipt Digest))} (hm : w.calls[i]? = some m)
    (hn : m.answer = none) (ho : advanceOutcome m.executed d = some outcome) :
    Sound p { w with
      executor := w.executor.step (m.toExchange.callback now outcome)
      calls := w.calls.set i { m with answer := some outcome } } := by
  have hlog : (w.calls.map EngineMessage.toExchange)[i]? = some m.toExchange := by
    rw [List.getElem?_map, hm]
    rfl
  refine ⟨?_, h.serves.answer hm fun r hr => ?_⟩
  · rw [List.map_set]
    refine h.asks.step (fresh_callback _ m.toExchange now outcome) (List.Subset.refl _)
      (fun x hx => ?_) (h.asks.tracked.delivered h.asks.valid h.asks.evidenced hlog hn now outcome)
    cases outcome <;> cases hx
  · subst hr
    unfold advanceOutcome at ho
    split at ho
    · split at ho
      · next r' he =>
        cases ho
        exact he
      · cases ho
    · cases ho
    · cases ho

/-- Only a submission is recorded as one. -/
theorem submitted_step (w : EvaluationSystem F Digest) (e : EvaluationEvent F Digest) :
    (w.step l e).submitted = w.submitted ++ e.submission.toList := by
  have hsame : w.submitted = w.submitted ++ (none : Option (Principal × UInt64)).toList :=
    (List.append_nil _).symm
  cases e with
  | call op =>
    dsimp only [EvaluationSystem.step]
    split
    · next hop => cases op <;> first | exact hsame | cases hop
    · rfl
  | advance caller id now =>
    dsimp only [EvaluationSystem.step]
    split <;> exact hsame
  | execute i msg =>
    unfold EvaluationSystem.step EvaluationSystem.execute
    dsimp only
    split
    · split
      · exact hsame
      · split <;> exact hsame
    · exact hsame
  | deliver i d now =>
    dsimp only [EvaluationSystem.step]
    split
    · split <;> exact hsame
    · exact hsame
  | engine msg call =>
    dsimp only [EvaluationSystem.step]
    split
    · exact hsame
    · split <;> exact hsame

theorem submitted_run (w : EvaluationSystem F Digest) (es : List (EvaluationEvent F Digest)) :
    (run (EvaluationSystem.step l) w es).submitted = w.submitted ++
      es.filterMap EvaluationEvent.submission := by
  induction es generalizing w with
  | nil => exact (List.append_nil _).symm
  | cons e es ih =>
    rw [run_cons, ih, submitted_step, List.append_assoc]
    cases he : e.submission <;> simp [he]

theorem Sound.step (h : w.Sound p) (hb : l.bincode.Inverts) (e : EvaluationEvent F Digest)
    (hd : Distinct Digest p (w.step l e).submitted) : (w.step l e).Sound p := by
  cases e with
  | call op =>
    dsimp only [EvaluationSystem.step] at hd ⊢
    split
    · exact h
    · next hop =>
      rw [if_neg hop] at hd
      exact h.call (Bool.not_eq_true _ ▸ hop) hd
  | advance caller id now =>
    dsimp only [EvaluationSystem.step]
    split
    · next req _ hbegin => exact (h.advance hbegin).1 req rfl
    · next e _ hbegin => exact (h.advance hbegin).2 e rfl
    · exact h
  | execute i msg =>
    dsimp only [EvaluationSystem.step]
    split
    · next m hm =>
      split
      · exact h
      · next hn => exact h.execute hm (Option.not_isSome_iff_eq_none.mp hn)
    · exact h
  | deliver i d now =>
    dsimp only [EvaluationSystem.step]
    split
    · next m hm =>
      split
      · next outcome hn ho => exact h.deliver hm hn ho
      · exact h
    · exact h
  | engine msg call =>
    dsimp only [EvaluationSystem.step]
    split
    · exact h
    · next hcaller =>
      rw [EvaluationSystem.self, h.asks.principal] at hcaller
      split
      · next c hc =>
        refine ⟨h.asks, h.serves.keeps (Canister.perform_keeps hb h.serves.quotas hc) fun k hk he => ?_⟩
        exact absurd ((Canister.asked_caller hk).1.symm.trans he) hcaller
      · exact h

/-- A joint state that some finite sequence of events reaches from the newly installed executor `p`
and a newly installed engine. -/
def Reachable (l : Linked F Digest) (p : Principal) (w : EvaluationSystem F Digest) : Prop :=
  ∃ owner engine msg owner' c es, Canister.init l msg owner' = some c ∧
    w = run (step l) (new p owner engine c) es

theorem sound_of_reachable (hb : l.bincode.Inverts) (h : Reachable l p w)
    (hd : Distinct Digest p w.submitted) : w.Sound p := by
  obtain ⟨owner, engine, msg, owner', c, es, hc, rfl⟩ := h
  refine run_invariant (fun w : EvaluationSystem F Digest => Distinct Digest p w.submitted → w.Sound p)
    (fun w e hs hd => (hs (hd.mono (submitted_step w e ▸ List.subset_append_left ..))).step hb e hd) (fun _ => ?_) es hd
  exact .new p owner engine hc

/-- What a record holds of slot `i`: a call for the slot was answered with it, the engine keeps it as
the result of what was sent, and for that evaluation the backend was asked once. -/
structure Obtained (p : Principal) (w : EvaluationSystem F Digest) (k : Digest) (i : ℕ)
    (r : RequestRecord Digest) (v : Receipt Digest) : Prop where
  id : v.stamp.evaluationId = slotId k i r.snapshot
  asked : w.asked.count (p, v.stamp.evaluationId) = 1
  answered : ∃ m ∈ w.calls, m.request = k ∧ m.Shows w.executor r i ∧
    m.answer = some (some (.ok v)) ∧
    w.cache[(p, v.stamp.evaluationId)]? = some ⟨m.req.digest, .ok v⟩

theorem Sound.obtained (h : w.Sound p) {k : Digest} {r : RequestRecord Digest} {i : ℕ}
    {v : Receipt Digest} (hr : w.executor.requests[k]? = some r) (hv : r.receipts[i]? = some v) :
    Obtained p w k i r v := by
  obtain ⟨o, g, p', -, -, -, ha, -⟩ := h.asks.evidenced k r hr
  obtain ⟨signal, -, hfit⟩ := ha.receipts i v hv
  have hid : v.stamp.evaluationId = slotId k i r.snapshot := by
    rw [hfit.evaluationId, (h.asks.valid.coherent.request k r hr).id_eq]
    rfl
  obtain ⟨x, hx, rfl, hbind, hans⟩ := (h.asks.tracked.record k r hr).stored i v hv
  obtain ⟨m, hm, rfl⟩ := List.mem_map.mp hx
  -- the call is for this slot: there are too few slots for a byte to wrap around
  obtain ⟨r', j, hr', hj, hshows⟩ := h.asks.tracked.slot _ hx
  cases hr.symm.trans hr'
  have hi := (List.getElem?_eq_some_iff.mp hv).1
  have hlt := h.asks.evidenced.length_lt h.asks.valid hr
  obtain ⟨-, rfl⟩ := ExecutorState.slotBinding_inj (by omega) (by omega)
    (Option.some.inj (hbind.symm.trans hshows.slot.1))
  have hkept := h.serves.executed m hm v (h.serves.answered m hm _ hans)
  rw [hshows.slot.2, ← hid] at hkept
  refine ⟨hid, List.count_eq_one_of_mem h.serves.once ?_, m, hm, rfl, hshows, hans, hkept⟩
  exact (h.serves.listed _).mp ((contains_iff_get _ _).mpr ⟨_, hkept⟩)

/-- In every reachable state of the two canisters, whatever was lost, delayed, repeated or
upgraded, as long as no two submissions have one id: a request waits for one call at most; a call is
for a slot of its record; a slot is sent twice at most, with the same content; for an evaluation the
backend is asked once at most, and for the executor's own only where it was sent; and each stored
receipt was obtained by the evaluation of its slot. -/
theorem slots_evaluated_once (hb : l.bincode.Inverts) (h : Reachable l p w)
    (hd : Distinct Digest p w.submitted) :
    (∀ k, awaited (w.calls.map EngineMessage.toExchange) k ≤ 1) ∧
    (∀ m ∈ w.calls, m.toExchange.ForSlot w.executor) ∧
    (∀ b, sends (w.calls.map EngineMessage.toExchange) b ≤ 2) ∧
    (∀ m ∈ w.calls, ∀ m' ∈ w.calls, m.req.binding = m'.req.binding →
      m.request = m'.request ∧ m.req = m'.req) ∧
    w.asked.Nodup ∧
    (∀ k ∈ w.asked, k.1 = p → ∃ m ∈ w.calls, m.req.evaluationId = k.2) ∧
    ∀ (k : Digest) r i v, w.executor.requests[k]? = some r → r.receipts[i]? = some v →
      Obtained p w k i r v := by
  have hw := sound_of_reachable hb h hd
  have hslot : ∀ m ∈ w.calls, m.toExchange.ForSlot w.executor :=
    fun m hm => hw.asks.tracked.slot _ (List.mem_map_of_mem hm)
  refine ⟨hw.asks.tracked.awaiting, hslot, hw.asks.tracked.twice, fun m hm m' hm' he => ⟨?_, ?_⟩,
    hw.serves.once, hw.serves.sent, fun k r i v => hw.obtained⟩
  · obtain ⟨r, i, -, -, hshows⟩ := hslot m hm
    obtain ⟨r', i', -, -, hshows'⟩ := hslot m' hm'
    have hsame := Option.some.inj (hshows.slot.1.symm.trans (he.trans hshows'.slot.1))
    exact (Binding.mk.inj hsame).1
  · exact hw.asks.tracked.alike _ (List.mem_map_of_mem hm) _ (List.mem_map_of_mem hm') he

/-! A deployment whose engine answers from its fixtures: the invoice of the sample is judged. -/
namespace Sample
open Sha256 (Checksum)
open Canister.Sample (linked)
open IcLaya.Sample (owner delegate ledger schema recipient proposal)

def named (n : UInt8) : Checksum := Vector.replicate 32 n

def registered : CompiledSchema Checksum :=
  (compile schema Demo.fixtureTokenizer 1).toOption.getD
    ⟨schema, named 0, named 0, [], [], ⟨0, 0, 0, 0, []⟩, 0⟩

def calibration : Calibration ℚ Checksum :=
  ⟨named 3, Demo.fixtureBundle, registered.schemaHash, registered.tokenizerHash, 1, 1000000000000,
    named 4, 100, true⟩

def vetting : Plan Checksum :=
  ⟨named 20, 1, Demo.fixtureBundle, [⟨registered, calibration.id, .noulTrue 800000⟩]⟩

def invoice : Operation Checksum := ⟨named 21, 1, "invoice 7 is approved", proposal, .available⟩

def allowance : Grant Checksum :=
  { id := named 22, revision := 1, delegate, plan := vetting.id, ledger,
    fromSubaccount := Vector.replicate 32 0, recipients := [recipient], maxAmount := 500,
    maxFee := 10, totalCap := 1000, windowCap := 500, windowNs := 1000,
    expiresAtNs := 1000000000000, revoked := false, total := default, windows := ∅ }

def payment : Checksum := (ExecutorState.requestCanonical IcLaya.Sample.self delegate 0).finish

def context (time : UInt64) : CallContext := ⟨owner, time, 100000000000, fun _ => true, 0, 7⟩

def installing : List (Op Checksum) :=
  [.setMode owner .mock, .addMockLedger owner ledger, .installPlan owner vetting,
    .installOperation owner invoice, .installGrant owner allowance]

/-- The first call of the engine fails on its way, and the second one is answered. -/
def judging : List (EvaluationEvent ℚ Checksum) :=
  [.engine (context 1000) .enableSyntheticFixture,
    .engine (context 1000) (.allowCaller IcLaya.Sample.self 10),
    .engine (context 1000) (.registerSchema schema 1),
    .engine (context 1000) (.registerCalibration calibration)] ++
  installing.map .call ++
  [.call (.submit delegate 0 invoice.id allowance.id 5000), .advance delegate payment 6000,
    .deliver 0 .failed 6200, .advance delegate payment 6400, .execute 1 (context 6500),
    .deliver 1 .reply 7000]

def judged (c : Canister ℚ Checksum) : EvaluationSystem ℚ Checksum :=
  run (step linked) (new IcLaya.Sample.self owner IcLaya.Sample.engine c) judging

def dispatch : Op Checksum := .prepareDispatch ⟨payment, snapshot invoice allowance vetting⟩ 8000

/-- The record holds a receipt, and the transfer can be dispatched. -/
theorem judged_stores : ∃ c r v cmd, Canister.init linked (context 1) owner = some c ∧
    (judged c).executor.requests[payment]? = some r ∧ r.receipts[0]? = some v ∧
    (judged c).executor.command dispatch = some cmd := by
  have h : ((Canister.init linked (context 1) owner).bind fun c =>
      ((judged c).executor.requests[payment]?).bind fun r => r.receipts[0]?.bind fun _ =>
        (judged c).executor.command dispatch).isSome = true := by
    decide +kernel
  obtain ⟨cmd, hcmd⟩ := Option.isSome_iff_exists.mp h
  obtain ⟨c, hinit, hcmd⟩ := Option.bind_eq_some_iff.mp hcmd
  obtain ⟨r, hr, hcmd⟩ := Option.bind_eq_some_iff.mp hcmd
  obtain ⟨v, hv, hcmd⟩ := Option.bind_eq_some_iff.mp hcmd
  exact ⟨c, r, v, cmd, hinit, hr, hv, hcmd⟩

theorem judged_distinct (p : Principal) (c : Canister ℚ Checksum) :
    Distinct Checksum p (judged c).submitted := by
  intro x hx y hy _
  rw [judged, submitted_run] at hx hy
  exact (List.mem_singleton.mp hx).trans (List.mem_singleton.mp hy).symm

theorem judged_reachable {c : Canister ℚ Checksum}
    (h : Canister.init linked (context 1) owner = some c) :
    Reachable linked IcLaya.Sample.self (judged c) :=
  ⟨owner, IcLaya.Sample.engine, context 1, owner, c, judging, h, rfl⟩

end Sample

open EvaluationSystem.Sample in
/-- The receipt of the invoice was obtained by the second call for its slot. -/
theorem slots_evaluated_once_judged : ∃ c r v,
    Canister.init Canister.Sample.linked (context 1) IcLaya.Sample.owner = some c ∧
    (judged c).executor.requests[payment]? = some r ∧ r.receipts[0]? = some v ∧
    (judged c).asked.Nodup ∧ Obtained IcLaya.Sample.self (judged c) payment 0 r v := by
  obtain ⟨c, r, v, -, hinit, hr, hv, -⟩ := judged_stores
  obtain ⟨-, -, -, -, honce, -, hobtained⟩ := slots_evaluated_once Canister.Sample.inverts
    (judged_reachable hinit) (judged_distinct IcLaya.Sample.self c)
  exact ⟨c, r, v, hinit, hr, hv, honce, hobtained payment r 0 v hr hv⟩

end EvaluationSystem
end IcLaya
