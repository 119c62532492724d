import IcLaya.ReconciliationLockstep

/-!
# When reconciling is neutral

A run with reconciliations of an outstanding sole attempt ends like the run without them unless
a lookup that found nothing came back before the ledger's definitive rejection. That lookup
marks the outcome as unknown for good, and the rejection releases nothing any more.
-/
namespace IcLaya
open CheckedWords Fallible ListUpdates OrderedMaps TransitionSystems MockLedger

variable {Digest : Type} [Hashing Digest]

def Status.withoutText : Status → Status
  | .needsReview _ => .needsReview ""
  | .outcomeUnknown _ => .outcomeUnknown ""
  | .succeeded _ => .succeeded ""
  | .failedDefinitive _ => .failedDefinitive ""
  | s => s

namespace TransferSystem

/-- The callback of message `i` learned nothing from the ledger. -/
def ReplyLost (w : TransferSystem Digest) (i : ℕ) : Prop :=
  ∃ m why, w.transfers[i]? = some m ∧ m.answer = some (some (.unknown why))

/-- The run that ended in `x` left the request `k` as the run that ended in `y` did, or a lookup
made up for a lost reply. -/
def Alike (k : Digest) (i n : ℕ) (x y : TransferSystem Digest) : Prop :=
  ∃ r r', x.executor.requests[k]? = some r ∧ y.executor.requests[k]? = some r' ∧
    (r.status.withoutText = r'.status.withoutText ∧ x.executor.grants = y.executor.grants ∧
      x.executor.operations = y.executor.operations ∨
    r.status.isSucceeded = true ∧ r'.status.isOutcomeUnknown = true ∧ x.ReplyLost i ∧
      x.FoundRecord n)

/-- Somewhere in the run a definitive rejection of message `i` comes back after a lookup that
found nothing. -/
def Blinded (debug : TransferError → String) (i n : ℕ) (w : TransferSystem Digest)
    (es : List (TransferEvent Digest)) : Prop :=
  ∃ pre d post m why, es = pre ++ .deliver i d :: post ∧
    (run (step debug) w pre).transfers[i]? = some m ∧ m.answer = none ∧
    sendOutcome debug m.executed d = some (.definitiveError why) ∧
    (run (step debug) w pre).NotFound n

section Runs
variable {debug : TransferError → String} {s : ExecutorState Digest} {r : RequestRecord Digest}
  {f : FrozenTransfer Digest} {i n : ℕ} {x y : TransferSystem Digest} {v v' : Verdict}
  {m : TransferMessage Digest}

/-- A property of the verdict that lookups keep, along a run in which message `i` is not
answered. -/
theorem Tracks.run (hcf : CollisionFree Digest) (hp : s.Awaiting r f)
    (C : TransferSystem Digest → Verdict → Prop)
    (hC : ∀ x y x' v v₁, Tracks s r f i n x y v v' → C x v → LookupEffect f n x x' v v₁ →
      Kept i x x' → C x' v₁)
    (h : Tracks s r f i n x y v v') (hc : C x v) (es : List (TransferEvent Digest))
    (hes : ∀ e ∈ es, e.interleaves r.id i n = true)
    (hq : ∀ pre e post, es = pre ++ e :: post → (run (step debug) x pre).Answered i ∨
      ¬(run (step debug) x (pre ++ [e])).Answered i) :
    ∃ v₁, Tracks s r f i n (run (step debug) x es)
      (run (step debug) y (es.filter fun e => !e.isReconcile)) v₁ v' ∧
      C (run (step debug) x es) v₁ := by
  induction es generalizing x y v with
  | nil => exact ⟨v, h, hc⟩
  | cons e es ih =>
    have he := hes e (List.mem_cons_self ..)
    have hes' := fun e' he' => hes e' (List.mem_cons_of_mem _ he')
    have hq' : ∀ pre e' post, es = pre ++ e' :: post →
        (TransitionSystems.run (step debug) (x.step debug e) pre).Answered i ∨
        ¬(TransitionSystems.run (step debug) (x.step debug e) (pre ++ [e'])).Answered i := by
      rintro pre e' post rfl
      exact hq (e :: pre) e' post rfl
    cases hrec : e.isReconcile with
    | true =>
      obtain ⟨v₁, h₁, heff, hk⟩ := h.reconcile hcf hp he hrec
      rw [List.filter_cons_of_neg (by simp [hrec])]
      exact ih h₁ (hC x y _ v v₁ h hc heff hk) hes' hq'
    | false =>
      obtain ⟨v₁, h₁, heff, hk⟩ := h.shared hcf hp he hrec (hq [] e es rfl)
      rw [List.filter_cons_of_pos (by simp [hrec])]
      exact ih h₁ (hC x y _ v v₁ h hc heff hk) hes' hq'

theorem answered_by {e : TransferEvent Digest} (hm : x.transfers[i]? = some m)
    (hn : m.answer = none) (h : (x.step debug e).Answered i)
    (he : e.interleaves r.id i n = true) :
    ∃ d outcome, e = .deliver i d ∧ sendOutcome debug m.executed d = some outcome := by
  have hlt := (List.getElem?_eq_some_iff.mp hm).1
  have hnot : ∀ z : TransferSystem Digest, z.transfers = x.transfers → ¬z.Answered i := by
    rintro z hz ⟨m₀, a, hm₀, ha⟩
    rw [hz] at hm₀
    cases hm.symm.trans hm₀
    rw [hn] at ha
    cases ha
  cases e with
  | call | dispatch | retryMockTransfer => cases he
  | execute i' now =>
    obtain rfl : i' = i := by simpa [TransferEvent.interleaves] using he
    exfalso
    simp only [step, hm] at h
    split at h
    · obtain ⟨m₀, a, hm₀, ha⟩ := h
      have hm₀ : (x.transfers.set i' { m with executed := _ })[i']? = some m₀ := hm₀
      rw [List.getElem?_set_self hlt] at hm₀
      cases hm₀
      rw [hn] at ha
      cases ha
    · exact hnot x rfl h
  | deliver i' d =>
    obtain rfl : i' = i := by simpa [TransferEvent.interleaves] using he
    cases ho : sendOutcome debug m.executed d with
    | some outcome => exact ⟨d, outcome, rfl, ho⟩
    | none =>
      simp only [step, hm, hn, ho] at h
      exact absurd h (hnot x rfl)
  | reconcileMock | executeLookup | deliverLookup | setFault | foreignTransfer =>
    refine absurd h (hnot _ ?_)
    simp only [step]
    repeat' split
    all_goals rfl

/-- Before its answer the request waits, or a lookup has settled it. -/
def Undecided (r : RequestRecord Digest) (n : ℕ) (x : TransferSystem Digest) (v : Verdict) : Prop :=
  (∃ status u, v = .waiting status u ∧ (u = true ↔ r.everUnknown = true ∨ x.NotFound n)) ∨
    (∃ index u, v = .settled true index u) ∧ x.FoundRecord n

theorem Undecided.lookup {x' : TransferSystem Digest} {v₁ : Verdict} (h : Undecided r n x v)
    (he : LookupEffect f n x x' v v₁) : Undecided r n x' v₁ := by
  rcases h with ⟨status, u, rfl, hu⟩ | ⟨⟨index, u, rfl⟩, hf⟩
  · cases he with
    | idle hn hf => exact .inl ⟨status, u, rfl, hu.trans (or_congr .rfl hn.symm)⟩
    | notFound why hn hf => exact .inl ⟨_, true, rfl, iff_of_true rfl (.inr hn)⟩
    | found index hrec hn hf => exact .inr ⟨⟨index, u, rfl⟩, hf⟩
  · cases he with
    | idle hn hf' => exact .inr ⟨⟨index, u, rfl⟩, hf'.mpr hf⟩
    | notFound why hn hf' => exact .inr ⟨⟨index, u, rfl⟩, hf' hf⟩
    | found index' hrec hn hf' => exact .inr ⟨⟨index, u, rfl⟩, hf'⟩

theorem Tracks.before (hcf : CollisionFree Digest) (hp : s.Awaiting r f)
    (h : Tracks s r f i n x y v v') (hu : Undecided r n x v) (es : List (TransferEvent Digest))
    (hes : ∀ e ∈ es, e.interleaves r.id i n = true)
    (hn : ¬(TransitionSystems.run (step debug) x es).Answered i) :
    ∃ v₁, Tracks s r f i n (TransitionSystems.run (step debug) x es)
      (TransitionSystems.run (step debug) y (es.filter fun e => !e.isReconcile)) v₁ v' ∧
      Undecided r n (TransitionSystems.run (step debug) x es) v₁ := by
  refine h.run hcf hp (Undecided r n) (fun _ _ _ _ _ _ hu he _ => hu.lookup he) hu es hes ?_
  rintro pre e post rfl
  refine .inr fun ha => hn ?_
  rw [List.append_cons, run_append]
  exact ha.run post

theorem Tracks.unrecorded (hcf : CollisionFree Digest) (hp : s.Awaiting r f)
    (h : Tracks s r f i n x y v v') {e : TransferError} (hm : x.transfers[i]? = some m)
    (he : m.executed = some (some (.error e))) : ¬x.Recorded f := by
  rintro ⟨record, hrec⟩
  have hmem := List.mem_of_getElem? hm
  obtain ⟨m₀, hm₀, hcmd⟩ := h.message
  cases hm.symm.trans hm₀
  obtain ⟨m₁, hm₁, r₁, f₁, hr₁, hf₁, hmemo, _, hfp, hc⟩ := h.exact.committed hrec
  cases FrozenTransfer.digest_inj hcf hfp
  have hmemo' := (h.exact.transfer_ok hmem).1
  rw [hcmd] at hmemo'
  have hk : m₁.cmd.request = r.id := hmemo.symm.trans hmemo'
  obtain ⟨h0, r₂, hr₂, _, hle⟩ := h.exact.sent m₁ hm₁
  rw [hk, h.executor, hp.request_after v] at hr₂
  cases hr₂
  have h1 : m₁.cmd.attempt = 1 := by
    refine eq_one_of_le h0 (UInt8.le_trans hle (UInt8.le_of_eq ?_))
    cases v <;> exact hp.attempt
  cases h.exact.sole hmem hm₁ (by rw [hcmd, hk]) (by rw [hcmd, h1])
  exact hc.not_refused he

/-- What the answer `outcome` comes to, once `u` says whether the outcome was unknown before it. -/
def Ending (i n : ℕ) (u : Prop) (x : TransferSystem Digest) (v : Verdict) :
    LedgerOutcome → Prop
  | .success _ | .duplicate _ => ∃ index u, v = .settled true index u
  | .unknown why =>
    (∃ m, x.transfers[i]? = some m ∧ m.answer = some (some (.unknown why))) ∧
      ((∃ why, v = .waiting (.outcomeUnknown why) true) ∨
        (∃ index u, v = .settled true index u) ∧ x.FoundRecord n)
  | .definitiveError _ =>
    (¬u → ∃ text u, v = .settled false text u) ∧
      (u → (∃ why, v = .waiting (.outcomeUnknown why) true) ∧
        ∃ m e, x.transfers[i]? = some m ∧ m.executed = some (some (.error e)))

theorem Ending.lookup (hcf : CollisionFree Digest) (hp : s.Awaiting r f) {u : Prop}
    {x' : TransferSystem Digest} {v₁ : Verdict} {outcome : LedgerOutcome}
    (ht : Tracks s r f i n x y v v') (h : Ending i n u x v outcome)
    (he : LookupEffect f n x x' v v₁) (hk : Kept i x x') : Ending i n u x' v₁ outcome := by
  have hsettled : ∀ success index u, v = .settled success index u → v₁ = v := by
    rintro success index u rfl
    cases he <;> rfl
  have hpaid : (∃ index u, v = .settled true index u) → ∃ index u, v₁ = .settled true index u := by
    rintro ⟨index, u, hv⟩
    exact ⟨index, u, (hsettled _ _ _ hv).trans hv⟩
  cases outcome with
  | success => exact hpaid h
  | duplicate => exact hpaid h
  | unknown why =>
    obtain ⟨⟨m, hm, ha⟩, h⟩ := h
    obtain ⟨m', hm', ha', _⟩ := hk m hm
    refine ⟨⟨m', hm', ha'.trans ha⟩, ?_⟩
    rcases h with ⟨why', rfl⟩ | ⟨hv, hf⟩
    · cases he with
      | idle => exact .inl ⟨why', rfl⟩
      | notFound why'' => exact .inl ⟨why'', rfl⟩
      | found index _ _ hf => exact .inr ⟨⟨index, true, rfl⟩, hf⟩
    · refine .inr ⟨hpaid hv, ?_⟩
      cases he with
      | idle _ hf' => exact hf'.mpr hf
      | notFound _ _ hf' => exact hf' hf
      | found _ _ _ hf' => exact hf'
  | definitiveError why =>
    refine ⟨fun hu => ?_, fun hu => ?_⟩
    · obtain ⟨text, w, hv⟩ := h.1 hu
      exact ⟨text, w, (hsettled _ _ _ hv).trans hv⟩
    · obtain ⟨⟨why', rfl⟩, m, e, hm, hex⟩ := h.2 hu
      obtain ⟨m', hm', _, hex'⟩ := hk m hm
      refine ⟨?_, m', e, hm', (hex' (by simp [hex])).trans hex⟩
      cases he with
      | idle => exact ⟨why', rfl⟩
      | notFound why'' => exact ⟨why'', rfl⟩
      | found index hrec => exact absurd hrec (ht.unrecorded hcf hp hm hex)

theorem Tracks.atAnswer (hcf : CollisionFree Digest) (hp : s.Awaiting r f)
    (h : Tracks s r f i n x y v v') (hu : Undecided r n x v) (hv' : v'.Ok)
    (hm : x.transfers[i]? = some m) (hn : m.answer = none) {d : Delivery}
    {outcome : LedgerOutcome} (ho : sendOutcome debug m.executed d = some outcome) :
    Tracks s r f i n (x.step debug (.deliver i d)) (y.step debug (.deliver i d))
        (v.next outcome) (v'.next outcome) ∧
      Ending i n (r.everUnknown = true ∨ x.NotFound n) (x.step debug (.deliver i d))
        (v.next outcome) outcome := by
  obtain ⟨ht, hm', hls⟩ := h.answer hcf hp hv' hm hn ho
  refine ⟨ht, ?_⟩
  have hfound : x.FoundRecord n → (x.step debug (.deliver i d)).FoundRecord n := by
    unfold FoundRecord
    rw [hls]
    exact id
  rcases hu with ⟨status, u, rfl, hu⟩ | ⟨⟨index, u, rfl⟩, hf⟩
  · cases outcome with
    | success index => exact ⟨index, u, rfl⟩
    | duplicate index => exact ⟨index, u, rfl⟩
    | unknown why => exact ⟨⟨_, hm', rfl⟩, .inl ⟨why, rfl⟩⟩
    | definitiveError why =>
      obtain ⟨e, he⟩ := refused_of_outcome ho
      constructor
      · intro hno
        rw [← hu, Bool.not_eq_true] at hno
        subst hno
        exact ⟨why, false, rfl⟩
      · intro hyes
        rw [← hu] at hyes
        subst hyes
        exact ⟨⟨why, rfl⟩, _, e, hm', he⟩
  · cases outcome with
    | success => exact ⟨index, u, rfl⟩
    | duplicate => exact ⟨index, u, rfl⟩
    | unknown why => exact ⟨⟨_, hm', rfl⟩, .inr ⟨⟨index, u, rfl⟩, hfound hf⟩⟩
    | definitiveError why =>
      -- a settled request has a record, so the ledger did not refuse its transfer
      obtain ⟨e, he⟩ := refused_of_outcome ho
      refine absurd ?_ (h.unrecorded hcf hp hm he)
      refine h.exact.succeeded r.id (ExecutorState.recordAfter r (.settled true index u)) f ?_ rfl
        hp.frozen
      · rw [h.executor]
        exact hp.request_after (.settled true index u)

/-- A whole run, split at the answer. -/
theorem Tracks.throughout (hcf : CollisionFree Digest) (hp : s.Awaiting r f)
    (h : Tracks s r f i n x y v v') (hu : Undecided r n x v) (hv' : v'.Ok)
    {pre post : List (TransferEvent Digest)} {d : Delivery}
    (hes : ∀ e ∈ pre ++ .deliver i d :: post, e.interleaves r.id i n = true)
    (hm : (TransitionSystems.run (step debug) x pre).transfers[i]? = some m)
    (hn : m.answer = none) {outcome : LedgerOutcome}
    (ho : sendOutcome debug m.executed d = some outcome) :
    ∃ v₁, Tracks s r f i n (TransitionSystems.run (step debug) x (pre ++ .deliver i d :: post))
        (TransitionSystems.run (step debug) y
          ((pre ++ .deliver i d :: post).filter fun e => !e.isReconcile)) v₁ (v'.next outcome) ∧
      Ending i n (r.everUnknown = true ∨
          (TransitionSystems.run (step debug) x pre).NotFound n)
        (TransitionSystems.run (step debug) x (pre ++ .deliver i d :: post)) v₁ outcome := by
  have hpre : ¬(TransitionSystems.run (step debug) x pre).Answered i := by
    rintro ⟨m₀, a, hm₀, ha⟩
    cases hm.symm.trans hm₀
    rw [hn] at ha
    cases ha
  obtain ⟨v₁, h₁, hu₁⟩ := h.before hcf hp hu pre
    (fun e he => hes e (List.mem_append_left _ he)) hpre
  obtain ⟨h₂, hend⟩ := h₁.atAnswer hcf hp hu₁ hv' hm hn ho
  rw [run_append, run_cons, List.filter_append, List.filter_cons_of_pos rfl, run_append, run_cons]
  have hans : (TransferSystem.step debug (TransitionSystems.run (step debug) x pre)
      (.deliver i d)).Answered i := ⟨_, _, (h₁.answer hcf hp hv' hm hn ho).2.1, rfl⟩
  refine h₂.run hcf hp (fun x v => Ending i n _ x v outcome)
    (fun _ _ _ _ _ ht hc he hk => hc.lookup hcf hp ht he hk) hend post
    (fun e he => hes e (List.mem_append_right _ (List.mem_cons_of_mem _ he))) ?_
  rintro pre' e post' rfl
  exact .inl (hans.run pre')

theorem Tracks.alike_of_waiting {why why' : String} {u u' : Bool}
    (h : Tracks s r f i n x y (.waiting (.outcomeUnknown why) u)
      (.waiting (.outcomeUnknown why') u')) : Alike r.id i n x y := by
  refine ⟨ExecutorState.recordAfter r (.waiting (.outcomeUnknown why) u),
    ExecutorState.recordAfter r (.waiting (.outcomeUnknown why') u'), ?_, ?_, .inl ⟨rfl, ?_, ?_⟩⟩
  · rw [h.executor]; exact get_insert_self ..
  · rw [h.filtered]; exact get_insert_self ..
  · rw [h.executor, h.filtered]; rfl
  · rw [h.executor, h.filtered]; rfl

theorem Tracks.alike_of_settled (hp : s.Awaiting r f) {success : Bool} {text text' : String}
    {u u' : Bool}
    (h : Tracks s r f i n x y (.settled success text u) (.settled success text' u')) :
    Alike r.id i n x y := by
  obtain ⟨grants, operations, hs⟩ := hp.after_settled success
  refine ⟨ExecutorState.recordAfter r (.settled success text u),
    ExecutorState.recordAfter r (.settled success text' u'), ?_, ?_, .inl ⟨?_, ?_, ?_⟩⟩
  · rw [h.executor]; exact hp.request_after _
  · rw [h.filtered]; exact hp.request_after _
  · cases success <;> rfl
  · rw [h.executor, h.filtered, hs, hs]
  · rw [h.executor, h.filtered, hs, hs]

/-- The outcome of the attempt decides how the two runs compare. -/
theorem Ending.alike_iff (hp : s.Awaiting r f) {u : Prop} {outcome : LedgerOutcome}
    {status : Status}
    (ht : Tracks s r f i n x y v ((Verdict.waiting status r.everUnknown).next outcome))
    (h : Ending i n (r.everUnknown = true ∨ u) x v outcome) :
    Alike r.id i n x y ↔
      ¬(r.everUnknown = false ∧ (∃ why, outcome = .definitiveError why) ∧ u) := by
  cases outcome with
  | success index =>
    obtain ⟨index', u', rfl⟩ := h
    exact iff_of_true (ht.alike_of_settled hp) (by simp)
  | duplicate index =>
    obtain ⟨index', u', rfl⟩ := h
    exact iff_of_true (ht.alike_of_settled hp) (by simp)
  | unknown why =>
    rw [Verdict.next_unknown] at ht
    refine iff_of_true ?_ (by simp)
    obtain ⟨⟨m, hm, ha⟩, ⟨why', rfl⟩ | ⟨⟨index, u', rfl⟩, hf⟩⟩ := h
    · exact ht.alike_of_waiting
    · refine ⟨ExecutorState.recordAfter r (.settled true index u'),
        ExecutorState.recordAfter r (.waiting (.outcomeUnknown why) true), ?_, ?_,
        .inr ⟨rfl, rfl, ⟨m, why, hm, ha⟩, hf⟩⟩
      · rw [ht.executor]; exact hp.request_after _
      · rw [ht.filtered]; exact hp.request_after _
  | definitiveError why =>
    cases hu : r.everUnknown with
    | true =>
      obtain ⟨⟨why', rfl⟩, _⟩ := h.2 (.inl hu)
      rw [hu] at ht
      exact iff_of_true ht.alike_of_waiting (by simp)
    | false =>
      rw [hu] at ht
      by_cases hblind : u
      · obtain ⟨⟨why', rfl⟩, _⟩ := h.2 (.inr hblind)
        refine iff_of_false ?_ (by simp [hblind])
        rintro ⟨r₁, r₂, hr₁, hr₂, hends⟩
        rw [ht.executor] at hr₁
        rw [ht.filtered] at hr₂
        cases (hp.request_after _).symm.trans hr₁
        cases (hp.request_after (.settled false why false)).symm.trans hr₂
        rcases hends with ⟨hst, _⟩ | ⟨hst, _⟩ <;> cases hst
      · obtain ⟨text, u', rfl⟩ := h.1 (by simp [hu, hblind])
        exact iff_of_true (ht.alike_of_settled hp) (by simp [hblind])

theorem Exact.tracks (h : x.Exact) (hp : x.executor.Awaiting r f) (hm : x.transfers[i]? = some m)
    (hcmd : m.cmd = ⟨r.id, 1, f⟩) :
    Tracks x.executor r f i x.lookups.length x x (.waiting r.status r.everUnknown)
      (.waiting r.status r.everUnknown) := by
  have hexec : x.executor = x.executor.after r (.waiting r.status r.everUnknown) := by
    show _ = { x.executor with requests := x.executor.requests.insert r.id r }
    rw [insert_get _ hp.request]
  refine ⟨h, hexec, hexec, rfl, rfl, ⟨m, hm, hcmd⟩, fun j m' hj hm' => ?_, le_rfl, hp.outstanding⟩
  exact absurd (List.getElem?_eq_some_iff.mp hm').1 (Nat.not_lt.mpr hj)

/-- The sole attempt of an outstanding request is the message that carries it. -/
theorem Exact.awaiting (h : x.Exact) {k : Digest} (hr : x.executor.requests[k]? = some r)
    (hout : r.status.outstanding = true) (ha : r.ledgerAttempt = 1) (hmem : m ∈ x.transfers)
    (hk : m.cmd.request = k) :
    r.id = k ∧ x.executor.Awaiting r m.cmd.transfer ∧ m.cmd = ⟨r.id, 1, m.cmd.transfer⟩ := by
  have hid := (h.executor.coherent.request k r hr).id_eq
  obtain ⟨h0, r₁, hr₁, hf, hle⟩ := h.sent m hmem
  rw [hk, hr] at hr₁
  cases hr₁
  refine ⟨hid, ⟨h.executor, hid ▸ hr, hout, hf, ha⟩, ?_⟩
  rw [ha] at hle
  have h1 := eq_one_of_le h0 hle
  cases hm : m.cmd
  simp_all

/-- From any reachable joint state, whatever the interleaving: once the reply to the sole attempt
of a request has been processed, the run with reconciliations and the run without them are alike
exactly when no definitive rejection, the first thing that was unknown, came after a lookup that
found nothing. -/
theorem reconciliation_neutral_iff (hcf : CollisionFree Digest) {w : TransferSystem Digest}
    (h : w.Reachable debug) {k : Digest} (hr : w.executor.requests[k]? = some r)
    (hout : r.status.outstanding = true) (ha : r.ledgerAttempt = 1)
    (hm : w.transfers[i]? = some m) (hk : m.cmd.request = k) (hn : m.answer = none)
    (es : List (TransferEvent Digest))
    (hes : ∀ e ∈ es, e.interleaves k i w.lookups.length = true)
    (hdone : (TransitionSystems.run (step debug) w es).Answered i) :
    Alike k i w.lookups.length (TransitionSystems.run (step debug) w es)
        (TransitionSystems.run (step debug) w (es.filter fun e => !e.isReconcile)) ↔
      ¬(r.everUnknown = false ∧ Blinded debug i w.lookups.length w es) := by
  have hw := exact_of_reachable hcf h
  obtain ⟨rfl, hp, hcmd⟩ := hw.awaiting hr hout ha (List.mem_of_getElem? hm) hk
  have hstart := hw.tracks hp hm hcmd
  have hnone : ∀ P, ¬AnsweredWith w.lookups w.lookups.length P := by
    rintro P ⟨j, m', _, hj, hm', _⟩
    exact absurd (List.getElem?_eq_some_iff.mp hm').1 (Nat.not_lt.mpr hj)
  have hu : Undecided r w.lookups.length w (.waiting r.status r.everUnknown) :=
    .inl ⟨_, _, rfl, (or_iff_left (hnone _)).symm⟩
  have hopen : ¬w.Answered i := by
    rintro ⟨m', a, hm', ha'⟩
    cases hm.symm.trans hm'
    rw [hn] at ha'
    cases ha'
  constructor
  · rintro halike ⟨hunknown, pre, d, post, m₀, why, rfl, hm₀, hn₀, ho, hnf⟩
    obtain ⟨v₁, ht, hend⟩ := hstart.throughout hcf hp hu hout hes hm₀ hn₀ ho
    exact (hend.alike_iff hp ht).mp halike ⟨hunknown, ⟨why, rfl⟩, hnf⟩
  · intro hblind
    obtain ⟨pre, e, post, rfl, hpre, hpost⟩ := run_begins (Answered · i) hopen hdone
    obtain ⟨v₀, h₀, _⟩ := hstart.before hcf hp hu pre
      (fun e he => hes e (List.mem_append_left _ he)) hpre
    obtain ⟨m₀, hm₀, _⟩ := h₀.message
    have hn₀ : m₀.answer = none := by
      by_contra hno
      obtain ⟨a, ha'⟩ := Option.ne_none_iff_exists'.mp hno
      exact hpre ⟨m₀, a, hm₀, ha'⟩
    rw [run_concat] at hpost
    obtain ⟨d, outcome, rfl, ho⟩ := answered_by hm₀ hn₀ hpost
      (hes e (List.mem_append_right _ (List.mem_cons_self ..)))
    obtain ⟨v₁, ht, hend⟩ := hstart.throughout hcf hp hu hout hes hm₀ hn₀ ho
    refine (hend.alike_iff hp ht).mpr ?_
    rintro ⟨hunknown, ⟨why, rfl⟩, hnf⟩
    exact hblind ⟨hunknown, pre, d, post, m₀, why, rfl, hm₀, hn₀, ho, hnf⟩

end Runs

end TransferSystem

namespace Sample

def dispatchedOnce : TransferSystem SymbolicDigest :=
  run (TransferSystem.step fun _ => "") transfers sent

/-- The lookup is answered before the attempt is executed; then the ledger refuses the fee. -/
def lookupFirst : List (TransferEvent SymbolicDigest) :=
  [.reconcileMock delegate request, .executeLookup 0, .deliverLookup 0 .reply,
    .setFault ledger owner .badFee, .execute 0 8500, .deliver 0 .reply]

end Sample

namespace TransferSystem

/-- Without the lookup the reservation is released; with it the outcome stays unknown. -/
theorem lookup_before_rejection :
    (∀ e ∈ Sample.lookupFirst, e.interleaves Sample.request 0 0 = true) ∧
    (run (step fun _ => "") Sample.dispatchedOnce Sample.lookupFirst).Answered 0 ∧
    ¬Alike Sample.request 0 0 (run (step fun _ => "") Sample.dispatchedOnce Sample.lookupFirst)
      (run (step fun _ => "") Sample.dispatchedOnce
        (Sample.lookupFirst.filter fun e => !e.isReconcile)) := by
  refine ⟨List.all_eq_true.mp (by decide +kernel), ?_, ?_⟩
  · have h : ((run (step fun _ => "") Sample.dispatchedOnce Sample.lookupFirst).transfers[0]?).map
        Message.answer = some (some (some (.definitiveError ""))) := by decide +kernel
    obtain ⟨m, hm, ha⟩ := Option.map_eq_some_iff.mp h
    exact ⟨m, _, hm, ha⟩
  · rintro ⟨r, r', hr, hr', h⟩
    have hs : ((run (step fun _ => "") Sample.dispatchedOnce
        Sample.lookupFirst).executor.requests[Sample.request]?).map RequestRecord.status =
        some (.outcomeUnknown "") := by decide +kernel
    have hs' : ((run (step fun _ => "") Sample.dispatchedOnce (Sample.lookupFirst.filter
        fun e => !e.isReconcile)).executor.requests[Sample.request]?).map RequestRecord.status =
        some (.failedDefinitive "") := by decide +kernel
    rw [hr, Option.map_some, Option.some_inj] at hs
    rw [hr', Option.map_some, Option.some_inj] at hs'
    rw [hs, hs'] at h
    rcases h with ⟨hst, _⟩ | ⟨hst, _⟩ <;> cases hst

theorem reconciliation_neutral_iff_lookupFirst :
    ∃ r, Sample.dispatchedOnce.executor.requests[Sample.request]? = some r ∧
      (Alike Sample.request 0 0 (run (step fun _ => "") Sample.dispatchedOnce Sample.lookupFirst)
        (run (step fun _ => "") Sample.dispatchedOnce
          (Sample.lookupFirst.filter fun e => !e.isReconcile)) ↔
      ¬(r.everUnknown = false ∧
        Blinded (fun _ => "") 0 0 Sample.dispatchedOnce Sample.lookupFirst)) := by
  have hreach : Reachable (fun _ => "") Sample.dispatchedOnce :=
    ⟨Sample.self, Sample.owner, Sample.engine, fun _ => Sample.owner, Sample.sent, rfl⟩
  have hr : (Sample.dispatchedOnce.executor.requests[Sample.request]?).map
      (fun r => (r.status, r.ledgerAttempt)) = some (.submitted, 1) := by decide +kernel
  have hm : (Sample.dispatchedOnce.transfers[0]?).map (fun m => (m.cmd.request, m.answer)) =
      some (Sample.request, none) := by decide +kernel
  have hn : Sample.dispatchedOnce.lookups.length = 0 := by decide +kernel
  obtain ⟨r, hr, he⟩ := Option.map_eq_some_iff.mp hr
  obtain ⟨m, hm, hem⟩ := Option.map_eq_some_iff.mp hm
  have hst : r.status = .submitted := congrArg Prod.fst he
  have hout : r.status.outstanding = true := by rw [hst]; rfl
  have hdone : ((run (step fun _ => "") Sample.dispatchedOnce Sample.lookupFirst).transfers[0]?).map
      Message.answer = some (some (some (.definitiveError ""))) := by decide +kernel
  obtain ⟨m', hm', ha'⟩ := Option.map_eq_some_iff.mp hdone
  refine ⟨r, hr, ?_⟩
  have h := reconciliation_neutral_iff SymbolicDigest.collisionFree hreach hr hout
    (congrArg Prod.snd he) hm (congrArg Prod.fst hem) (congrArg Prod.snd hem) Sample.lookupFirst
    (by rw [hn]; exact List.all_eq_true.mp (by decide +kernel)) ⟨m', _, hm', ha'⟩
  rw [hn] at h
  exact h

end TransferSystem

end IcLaya
