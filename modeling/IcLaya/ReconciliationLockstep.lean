import IcLaya.AttemptVerdicts
import IcLaya.ExactlyOnceTransfer

/-!
# A run with reconciliations next to the run without them

While the sole attempt of a request is outstanding, the two runs are taken in lockstep. Their
messages and ledgers stay equal, and their executors differ in the verdict on the attempt only.
-/
namespace IcLaya
open CheckedWords Fallible ListUpdates OrderedMaps TransitionSystems MockLedger

variable {Digest : Type} [Hashing Digest]

namespace TransferEvent

/-- The call of `reconcile_mock`, its lookup and its callback. -/
def isReconcile : TransferEvent Digest → Bool
  | .reconcileMock .. | .executeLookup .. | .deliverLookup .. => true
  | _ => false

/-- The execution and the reply of message `i`, the reconciliation of its request `k` by lookups
from number `n` on, and whatever befalls the ledgers. -/
def interleaves (k : Digest) (i n : ℕ) : TransferEvent Digest → Bool
  | .execute i' _ | .deliver i' _ => i' = i
  | .reconcileMock _ id => id = k
  | .executeLookup j | .deliverLookup j _ => n ≤ j
  | .setFault .. | .foreignTransfer .. => true
  | _ => false

end TransferEvent

/-- What a lookup reports, if anything. -/
theorem lookupOutcome_cases {expected : Digest} {ex : Option (Option (Lookup Digest))}
    {d : Delivery} {outcome : LedgerOutcome}
    (h : lookupOutcome expected ex d = some (some outcome)) :
    (∃ why, outcome = .unknown why) ∨ ∃ v, ex = some (some v) ∧ outcome = .success v.blockIndex := by
  unfold lookupOutcome at h
  split at h
  · split at h
    · next v =>
      split at h
      · cases h; exact .inr ⟨v, rfl, rfl⟩
      · cases h
    · cases h; exact .inl ⟨_, rfl⟩
    · cases h
  all_goals cases h

/-- A reported block is the number in the reply. -/
theorem blockIndex_of_outcome {debug : TransferError → String}
    {ex : Option (Option TransferResult)} {d : Delivery} {outcome : LedgerOutcome} {text : String}
    (h : sendOutcome debug ex d = some outcome)
    (ho : outcome = .success text ∨ outcome = .duplicate text) :
    ∃ n, text = toString n ∧
      (ex = some (some (.ok n)) ∨ ex = some (some (.error (.duplicate n)))) := by
  unfold sendOutcome at h
  split at h
  · split at h
    · next result =>
      cases h
      cases result with
      | ok n =>
        simp only [replyOutcome, LedgerOutcome.success.injEq, reduceCtorEq, or_false] at ho
        exact ⟨n, ho.symm, .inl rfl⟩
      | error e =>
        cases e with
        | duplicate n =>
          simp only [replyOutcome, reduceCtorEq, LedgerOutcome.duplicate.injEq, false_or] at ho
          exact ⟨n, ho.symm, .inr rfl⟩
        | _ => simp [replyOutcome] at ho
    · cases h
  all_goals
    cases h
    simp at ho

/-- Some lookup from number `n` on was answered with such an outcome. -/
def AnsweredWith (ls : List (LookupMessage Digest)) (n : ℕ) (P : LedgerOutcome → Prop) : Prop :=
  ∃ (j : ℕ) (m : LookupMessage Digest) (outcome : LedgerOutcome), n ≤ j ∧ ls[j]? = some m ∧
    m.answer = some (some outcome) ∧ P outcome

section Lookups
omit [Hashing Digest]
variable {ls : List (LookupMessage Digest)} {n j : ℕ} {m m' : LookupMessage Digest}
  {P : LedgerOutcome → Prop}

theorem answeredWith_set_same (hm : ls[j]? = some m) (ha : m'.answer = m.answer) :
    AnsweredWith (ls.set j m') n P ↔ AnsweredWith ls n P := by
  have hlt := (List.getElem?_eq_some_iff.mp hm).1
  constructor
  · rintro ⟨a, x, o, hna, hx, ho, hP⟩
    by_cases hja : j = a
    · subst hja
      rw [List.getElem?_set_self hlt] at hx
      cases hx
      exact ⟨j, m, o, hna, hm, ha ▸ ho, hP⟩
    · rw [List.getElem?_set_ne hja] at hx
      exact ⟨a, x, o, hna, hx, ho, hP⟩
  · rintro ⟨a, x, o, hna, hx, ho, hP⟩
    by_cases hja : j = a
    · subst hja
      cases hm.symm.trans hx
      exact ⟨j, m', o, hna, List.getElem?_set_self hlt, ha.trans ho, hP⟩
    · exact ⟨a, x, o, hna, (List.getElem?_set_ne hja).trans hx, ho, hP⟩

theorem answeredWith_set_new (hm : ls[j]? = some m) (hj : n ≤ j) (hn : m.answer = none) :
    AnsweredWith (ls.set j m') n P ↔
      AnsweredWith ls n P ∨ ∃ outcome, m'.answer = some (some outcome) ∧ P outcome := by
  have hlt := (List.getElem?_eq_some_iff.mp hm).1
  constructor
  · rintro ⟨a, x, o, hna, hx, ho, hP⟩
    by_cases hja : j = a
    · subst hja
      rw [List.getElem?_set_self hlt] at hx
      cases hx
      exact .inr ⟨o, ho, hP⟩
    · rw [List.getElem?_set_ne hja] at hx
      exact .inl ⟨a, x, o, hna, hx, ho, hP⟩
  · rintro (⟨a, x, o, hna, hx, ho, hP⟩ | ⟨o, ho, hP⟩)
    · have hja : j ≠ a := by
        rintro rfl
        cases hm.symm.trans hx
        rw [hn] at ho
        cases ho
      exact ⟨a, x, o, hna, (List.getElem?_set_ne hja).trans hx, ho, hP⟩
    · exact ⟨j, m', o, hj, List.getElem?_set_self hlt, ho, hP⟩

theorem answeredWith_concat (hn : m.answer = none) :
    AnsweredWith (ls ++ [m]) n P ↔ AnsweredWith ls n P := by
  constructor
  · rintro ⟨a, x, o, hna, hx, ho, hP⟩
    rw [List.getElem?_append] at hx
    split at hx
    · exact ⟨a, x, o, hna, hx, ho, hP⟩
    · have hmem := List.mem_of_getElem? hx
      rw [List.mem_singleton] at hmem
      rw [hmem, hn] at ho
      cases ho
  · rintro ⟨a, x, o, hna, hx, ho, hP⟩
    refine ⟨a, x, o, hna, ?_, ho, hP⟩
    rw [List.getElem?_append_left (List.getElem?_eq_some_iff.mp hx).1, hx]

end Lookups

namespace TransferSystem

/-- The callback of message `i` has run. -/
def Answered (w : TransferSystem Digest) (i : ℕ) : Prop :=
  ∃ m a, w.transfers[i]? = some m ∧ m.answer = some a

/-- A lookup from number `n` on came back without a record. -/
def NotFound (w : TransferSystem Digest) (n : ℕ) : Prop :=
  AnsweredWith w.lookups n fun outcome => ∃ why, outcome = .unknown why

/-- A lookup from number `n` on came back with the record. -/
def FoundRecord (w : TransferSystem Digest) (n : ℕ) : Prop :=
  AnsweredWith w.lookups n fun outcome => ∃ index, outcome = .success index

variable {debug : TransferError → String} {w : TransferSystem Digest} {i : ℕ}

theorem Answered.change {w' : TransferSystem Digest} (h : w.Answered i) (hc : Change debug w w') :
    w'.Answered i := by
  obtain ⟨m, a, hm, ha⟩ := h
  have hset : ∀ (i' : ℕ) (m₀ m' : TransferMessage Digest), w.transfers[i']? = some m₀ →
      (∀ a, m₀.answer = some a → ∃ a', m'.answer = some a') →
      ∃ x a, (w.transfers.set i' m')[i]? = some x ∧ x.answer = some a := by
    intro i' m₀ m' hm₀ hans
    by_cases hi : i' = i
    · subst hi
      cases hm.symm.trans hm₀
      obtain ⟨a', ha'⟩ := hans a ha
      exact ⟨m', a', List.getElem?_set_self (List.getElem?_eq_some_iff.mp hm).1, ha'⟩
    · exact ⟨m, a, (List.getElem?_set_ne hi).trans hm, ha⟩
  cases hc with
  | send op cmd hcmd hop =>
    exact ⟨m, a, (List.getElem?_append_left (List.getElem?_eq_some_iff.mp hm).1).trans hm, ha⟩
  | execute i' m₀ now hm₀ hn => exact hset i' m₀ _ hm₀ fun a ha => ⟨a, ha⟩
  | deliver i' m₀ d outcome hm₀ hn ho => exact hset i' m₀ _ hm₀ fun _ _ => ⟨_, rfl⟩
  | _ => exact ⟨m, a, hm, ha⟩

theorem Answered.run (h : w.Answered i) (es : List (TransferEvent Digest)) :
    (run (step debug) w es).Answered i :=
  run_invariant (Answered · i) (fun w e h => h.change (change_of_step debug w e)) h es

/-- The two runs: their messages and ledgers are equal, and their executors differ in the verdict
on the attempt. -/
structure Tracks (s : ExecutorState Digest) (r : RequestRecord Digest) (f : FrozenTransfer Digest)
    (i n : ℕ) (x y : TransferSystem Digest) (v v' : Verdict) : Prop where
  exact : x.Exact
  executor : x.executor = s.after r v
  filtered : y.executor = s.after r v'
  ledgers : y.ledgers = x.ledgers
  transfers : y.transfers = x.transfers
  message : ∃ m, x.transfers[i]? = some m ∧ m.cmd = ⟨r.id, 1, f⟩
  lookups : ∀ j m, n ≤ j → x.lookups[j]? = some m → m.cmd = ⟨r.id, 1, f⟩
  fresh : n ≤ x.lookups.length
  ok : v.Ok

/-- What a lookup event does to the verdict. -/
inductive LookupEffect (f : FrozenTransfer Digest) (n : ℕ) (x x' : TransferSystem Digest)
    (v : Verdict) : Verdict → Prop
  | idle (hn : x'.NotFound n ↔ x.NotFound n) (hf : x'.FoundRecord n ↔ x.FoundRecord n) :
      LookupEffect f n x x' v v
  | notFound (why : String) (hn : x'.NotFound n) (hf : x.FoundRecord n → x'.FoundRecord n) :
      LookupEffect f n x x' v (v.next (.unknown why))
  | found (index : String) (hrec : x.Recorded f) (hn : x'.NotFound n ↔ x.NotFound n)
      (hf : x'.FoundRecord n) : LookupEffect f n x x' v (v.next (.success index))

section Lockstep
variable {s : ExecutorState Digest} {r : RequestRecord Digest} {f : FrozenTransfer Digest}
  {n j : ℕ} {x y : TransferSystem Digest} {v v' : Verdict} {m : TransferMessage Digest}

theorem after_instancePrincipal (hp : s.Awaiting r f) (v : Verdict) :
    (s.after r v).instancePrincipal = s.instancePrincipal := by
  cases v with
  | waiting => rfl
  | settled success text everUnknown =>
    obtain ⟨grants, operations, hs⟩ := hp.after_settled success
    rw [hs]

/-- The lookup of an outstanding request is for its frozen transfer. -/
theorem reconcileCommand_after (hp : s.Awaiting r f) {caller : Principal}
    {cmd : DispatchCommand Digest}
    (h : (s.after r v).reconcileCommand caller r.id = .ok cmd) : cmd = ⟨r.id, 1, f⟩ := by
  simp only [ExecutorState.reconcileCommand, bind_eq_ok, rejectIf_eq_ok, okOr_eq_ok, pure_eq_ok,
    ExecutorState.owned_eq_ok] at h
  obtain ⟨r₁, ⟨hr₁, _⟩, _, _, f₁, hf₁, _, _, rfl⟩ := h
  cases (hp.request_after v).symm.trans hr₁
  have hfr : (ExecutorState.recordAfter r v).frozen = some f := by cases v <;> exact hp.frozen
  have hat : (ExecutorState.recordAfter r v).ledgerAttempt = 1 := by cases v <;> exact hp.attempt
  cases hfr.symm.trans hf₁
  rw [hat]

/-- The callback of message `i`, in both runs. -/
theorem Tracks.answer (hcf : CollisionFree Digest) (hp : s.Awaiting r f)
    (h : Tracks s r f i n x y v v') (hv' : v'.Ok) (hm : x.transfers[i]? = some m)
    (hn : m.answer = none) {d : Delivery} {outcome : LedgerOutcome}
    (ho : sendOutcome debug m.executed d = some outcome) :
    Tracks s r f i n (x.step debug (.deliver i d)) (y.step debug (.deliver i d))
        (v.next outcome) (v'.next outcome) ∧
      (x.step debug (.deliver i d)).transfers[i]? =
        some { m with answer := some (some outcome) } ∧
      (x.step debug (.deliver i d)).lookups = x.lookups := by
  have hmem := List.mem_of_getElem? hm
  have hlt := (List.getElem?_eq_some_iff.mp hm).1
  obtain ⟨m₀, hm₀, hcmd⟩ := h.message
  cases hm.symm.trans hm₀
  have hblock : ∀ text, outcome = .success text ∨ outcome = .duplicate text →
      validBlockIndex text = true := by
    intro text htext
    obtain ⟨n, rfl, hres⟩ := blockIndex_of_outcome ho htext
    exact validBlockIndex_toString (h.exact.numbered m hmem n hres)
  have hx : x.step debug (.deliver i d) = { x with
      executor := s.after r (v.next outcome)
      transfers := x.transfers.set i { m with answer := some (some outcome) } } := by
    simp only [step, hm, hn, ho, finish, h.executor, hcmd, hp.step_after h.ok hblock]
  have hy : y.step debug (.deliver i d) = { y with
      executor := s.after r (v'.next outcome)
      transfers := x.transfers.set i { m with answer := some (some outcome) } } := by
    simp only [step, h.transfers, hm, hn, ho, finish, h.filtered, hcmd, hp.step_after hv' hblock]
  have hexact := h.exact.change hcf (change_of_step debug x (.deliver i d))
  rw [hx] at hexact ⊢
  rw [hy]
  refine ⟨⟨hexact, rfl, rfl, h.ledgers, rfl, ⟨_, List.getElem?_set_self hlt, hcmd⟩, h.lookups,
    h.fresh, h.ok.next outcome⟩, List.getElem?_set_self hlt, rfl⟩

/-- Message `i` is as it was, except that it may have been executed. -/
def Kept (i : ℕ) (x x' : TransferSystem Digest) : Prop :=
  ∀ m, x.transfers[i]? = some m → ∃ m', x'.transfers[i]? = some m' ∧ m'.answer = m.answer ∧
    (m.executed ≠ none → m'.executed = m.executed)

theorem Kept.refl (i : ℕ) (x : TransferSystem Digest) : Kept i x x :=
  fun m hm => ⟨m, hm, rfl, fun _ => rfl⟩

/-- An event that only reaches the ledgers and the execution of message `i`. -/
theorem Tracks.ledgerEvent (h : Tracks s r f i n x y v v') {L : Principal → MockLedger Digest}
    {T : List (TransferMessage Digest)}
    (hexact : Exact { x with ledgers := L, transfers := T })
    (hkept : Kept i x { x with ledgers := L, transfers := T })
    (hcmd : ∀ m, T[i]? = some m → m.cmd = ⟨r.id, 1, f⟩) :
    ∃ v₁, Tracks s r f i n { x with ledgers := L, transfers := T }
        { y with ledgers := L, transfers := T } v₁ v' ∧
      LookupEffect f n x { x with ledgers := L, transfers := T } v v₁ ∧
      Kept i x { x with ledgers := L, transfers := T } := by
  obtain ⟨m, hm, _⟩ := h.message
  obtain ⟨m', hm', _⟩ := hkept m hm
  exact ⟨v, ⟨hexact, h.executor, h.filtered, rfl, rfl, ⟨m', hm', hcmd m' hm'⟩, h.lookups, h.fresh,
    h.ok⟩, .idle .rfl .rfl, hkept⟩

/-- A lookup event, seen by the first run only. -/
theorem Tracks.lookupEvent (h : Tracks s r f i n x y v v') {v₁ : Verdict}
    {ls : List (LookupMessage Digest)} {t : ExecutorState Digest}
    (hexact : Exact { x with executor := t, lookups := ls }) (ht : t = s.after r v₁)
    (hls : ∀ j m, n ≤ j → ls[j]? = some m → m.cmd = ⟨r.id, 1, f⟩) (hlen : x.lookups.length ≤ ls.length)
    (hok : v₁.Ok) (he : LookupEffect f n x { x with executor := t, lookups := ls } v v₁) :
    ∃ v₁, Tracks s r f i n { x with executor := t, lookups := ls } y v₁ v' ∧
      LookupEffect f n x { x with executor := t, lookups := ls } v v₁ ∧
      Kept i x { x with executor := t, lookups := ls } :=
  ⟨v₁, ⟨hexact, ht, h.filtered, h.ledgers, h.transfers, h.message, hls, h.fresh.trans hlen, hok⟩,
    he, Kept.refl i x⟩

/-- A lookup event, seen by the executor of the first run only if its callback reports. -/
theorem Tracks.deliverLookup (hcf : CollisionFree Digest) (hp : s.Awaiting r f)
    (h : Tracks s r f i n x y v v') (hj : n ≤ j) (d : Delivery) :
    ∃ v₁, Tracks s r f i n (x.step debug (.deliverLookup j d)) y v₁ v' ∧
      LookupEffect f n x (x.step debug (.deliverLookup j d)) v v₁ ∧
      Kept i x (x.step debug (.deliverLookup j d)) := by
  have hexact := h.exact.change hcf (change_of_step debug x (.deliverLookup j d))
  simp only [step] at hexact ⊢
  split at hexact
  · next m hm =>
    split at hexact
    · next outcome hn ho =>
      have hcmd := h.lookups j m hj hm
      have hset : ∀ j' m', n ≤ j' →
          (x.lookups.set j { m with answer := some outcome })[j']? = some m' →
          m'.cmd = ⟨r.id, 1, f⟩ := by
        intro j' m' hj' hm'
        rw [List.getElem?_set] at hm'
        split at hm'
        · split at hm'
          · cases hm'; exact hcmd
          · cases hm'
        · exact h.lookups j' m' hj' hm'
      have hnew : ∀ P, AnsweredWith (x.lookups.set j { m with answer := some outcome }) n P ↔
          AnsweredWith x.lookups n P ∨ ∃ o, some outcome = some (some o) ∧ P o := fun P =>
        answeredWith_set_new hm hj hn
      cases outcome with
      | none =>
        refine h.lookupEvent hexact h.executor hset (by simp) h.ok (.idle ?_ ?_) <;>
        · refine (hnew _).trans (or_iff_left ?_)
          rintro ⟨o, ho, _⟩
          cases ho
      | some outcome =>
        have hblock : ∀ text, outcome = .success text ∨ outcome = .duplicate text →
            validBlockIndex text = true := by
          intro text htext
          obtain ⟨_, rfl⟩ | ⟨found, hfound, rfl⟩ := lookupOutcome_cases ho
          · simp at htext
          · obtain ⟨_, ⟨b, hb⟩, _⟩ := h.exact.found m (List.mem_of_getElem? hm) found hfound
            rcases htext with htext | htext
            · cases htext
              rw [hb]
              exact validBlockIndex_toString b.toNat_lt
            · cases htext
        have hexec : x.finish m.cmd (some outcome) = s.after r (v.next outcome) := by
          rw [finish, h.executor, hcmd, hp.step_after h.ok hblock]
        refine h.lookupEvent hexact hexec hset (by simp) (h.ok.next outcome) ?_
        obtain ⟨why, rfl⟩ | ⟨found, hfound, rfl⟩ := lookupOutcome_cases ho
        · exact .notFound why ((hnew _).mpr (.inr ⟨_, rfl, why, rfl⟩))
            fun hf => (hnew _).mpr (.inl hf)
        · refine .found found.blockIndex ?_ ?_ ((hnew _).mpr (.inr ⟨_, rfl, _, rfl⟩))
          · have := (h.exact.found m (List.mem_of_getElem? hm) found hfound).2.2
            rwa [hcmd] at this
          · refine (hnew _).trans (or_iff_left ?_)
            rintro ⟨o, ho, why, rfl⟩
            cases ho
    · exact ⟨v, h, .idle .rfl .rfl, Kept.refl i x⟩
  · exact ⟨v, h, .idle .rfl .rfl, Kept.refl i x⟩

/-- An event of the interleaving that both runs see, and that does not answer message `i`. -/
theorem Tracks.shared (hcf : CollisionFree Digest) (hp : s.Awaiting r f)
    (h : Tracks s r f i n x y v v') {e : TransferEvent Digest}
    (he : e.interleaves r.id i n = true) (hrec : e.isReconcile = false)
    (hq : x.Answered i ∨ ¬(x.step debug e).Answered i) :
    ∃ v₁, Tracks s r f i n (x.step debug e) (y.step debug e) v₁ v' ∧
      LookupEffect f n x (x.step debug e) v v₁ ∧ Kept i x (x.step debug e) := by
  have hexact := h.exact.change hcf (change_of_step debug x e)
  obtain ⟨m, hm, hcmd⟩ := h.message
  have hlt := (List.getElem?_eq_some_iff.mp hm).1
  have hself : y.executor.instancePrincipal = x.executor.instancePrincipal := by
    rw [h.executor, h.filtered, after_instancePrincipal hp, after_instancePrincipal hp]
  have hy : y = { y with ledgers := x.ledgers, transfers := x.transfers } := by
    rw [← h.ledgers, ← h.transfers]
  -- only the ledgers change
  have hledger : ∀ L, x.step debug e = { x with ledgers := L } →
      y.step debug e = { y with ledgers := L, transfers := x.transfers } →
      ∃ v₁, Tracks s r f i n (x.step debug e) (y.step debug e) v₁ v' ∧
        LookupEffect f n x (x.step debug e) v v₁ ∧ Kept i x (x.step debug e) := by
    intro L hx hy
    rw [hx] at hexact
    have := h.ledgerEvent (L := L) (T := x.transfers) hexact (Kept.refl i x) fun m' hm' => by
      cases hm.symm.trans hm'
      exact hcmd
    rw [hx, hy]
    exact this
  cases e with
  | call | dispatch | retryMockTransfer => cases he
  | reconcileMock | executeLookup | deliverLookup => cases hrec
  | execute i' now =>
    obtain rfl : i' = i := by simpa [TransferEvent.interleaves] using he
    by_cases hn : m.executed = none
    · have hx : x.step debug (.execute i' now) = x.execute i' m now := by simp [step, hm, hn]
      have hy : y.step debug (.execute i' now) = y.execute i' m now := by
        simp [step, h.transfers, hm, hn]
      rw [hx] at hexact ⊢
      rw [hy]
      have := h.ledgerEvent hexact (fun m₀ hm₀ => ?_) fun m' hm' => ?_
      · simpa only [execute, putExecution, putLedger, h.ledgers, h.transfers, hself] using this
      · cases hm.symm.trans hm₀
        exact ⟨_, List.getElem?_set_self hlt, rfl, fun hne => absurd hn hne⟩
      · rw [List.getElem?_set_self hlt] at hm'
        cases hm'
        exact hcmd
    · refine hledger x.ledgers ?_ ?_
      · simp only [step, hm, if_neg hn]
      · simp only [step, h.transfers, hm, if_neg hn]
        exact hy
  | deliver i' d =>
    obtain rfl : i' = i := by simpa [TransferEvent.interleaves] using he
    -- either the callback has run, or this delivery brings nothing
    have hidle : m.answer ≠ none ∨ sendOutcome debug m.executed d = none := by
      rcases hq with ⟨m₀, a, hm₀, ha⟩ | hq
      · cases hm.symm.trans hm₀
        exact .inl (by rw [ha]; exact Option.some_ne_none _)
      · by_contra hno
        rw [not_or, not_not] at hno
        obtain ⟨outcome, ho⟩ := Option.ne_none_iff_exists'.mp hno.2
        refine hq ⟨{ m with answer := some (some outcome) }, _, ?_, rfl⟩
        simp only [step, hm, hno.1, ho]
        exact List.getElem?_set_self hlt
    have hsame : ∀ z : TransferSystem Digest, z.transfers[i']? = some m →
        z.step debug (.deliver i' d) = z := by
      intro z hz
      simp only [step, hz]
      split
      · next outcome hn ho =>
        rcases hidle with hi | hi
        · exact absurd hn hi
        · rw [hi] at ho; cases ho
      · rfl
    exact hledger x.ledgers (hsame x hm) ((hsame y (h.transfers ▸ hm)).trans hy)
  | setFault ledger caller fault =>
    cases hf : (x.ledgers ledger).setFault caller fault with
    | ok l =>
      refine hledger (Function.update x.ledgers ledger l) ?_ ?_
      · simp only [step, hf, putLedger]
      · simp only [step, h.ledgers, hf, putLedger, h.transfers]
    | error e =>
      refine hledger x.ledgers ?_ ?_
      · simp only [step, hf]
      · simp only [step, h.ledgers, hf]
        exact hy
  | foreignTransfer ledger caller arg now =>
    by_cases hc : caller = x.executor.instancePrincipal
    · refine hledger x.ledgers ?_ ?_
      · simp only [step, if_pos hc]
      · simp only [step, hself, if_pos hc]
        exact hy
    · refine hledger (Function.update x.ledgers ledger
        ((x.ledgers ledger).icrc1Transfer ledger caller arg now).1) ?_ ?_
      · simp only [step, if_neg hc, putLedger]
      · simp only [step, hself, if_neg hc, putLedger, h.ledgers, h.transfers]

/-- An event of a reconciliation, seen by the first run only. -/
theorem Tracks.reconcile (hcf : CollisionFree Digest) (hp : s.Awaiting r f)
    (h : Tracks s r f i n x y v v') {e : TransferEvent Digest}
    (he : e.interleaves r.id i n = true) (hrec : e.isReconcile = true) :
    ∃ v₁, Tracks s r f i n (x.step debug e) y v₁ v' ∧
      LookupEffect f n x (x.step debug e) v v₁ ∧ Kept i x (x.step debug e) := by
  have hexact := h.exact.change hcf (change_of_step debug x e)
  cases e with
  | reconcileMock caller id =>
    obtain rfl : id = r.id := by simpa [TransferEvent.interleaves] using he
    simp only [step] at hexact ⊢
    split at hexact
    · next cmd hc =>
      rw [h.executor] at hc
      refine h.lookupEvent hexact h.executor (fun j m' _ hm' => ?_) (by simp) h.ok
        (.idle (answeredWith_concat rfl) (answeredWith_concat rfl))
      rw [List.getElem?_append] at hm'
      split at hm'
      · exact h.lookups j m' ‹_› hm'
      · have hmem := List.mem_of_getElem? hm'
        rw [List.mem_singleton] at hmem
        rw [hmem]
        exact reconcileCommand_after hp hc
    · exact ⟨v, h, .idle .rfl .rfl, Kept.refl i x⟩
  | executeLookup j =>
    have hj : n ≤ j := by simpa [TransferEvent.interleaves] using he
    simp only [step] at hexact ⊢
    split at hexact
    · next ml hml =>
      by_cases hn : ml.executed = none
      · rw [if_pos hn] at hexact ⊢
        refine h.lookupEvent hexact h.executor (fun j' m' hj' hm' => ?_) (by simp) h.ok
          (.idle (answeredWith_set_same hml rfl) (answeredWith_set_same hml rfl))
        rw [List.getElem?_set] at hm'
        split at hm'
        · split at hm'
          · cases hm'; exact h.lookups j ml hj hml
          · cases hm'
        · exact h.lookups j' m' hj' hm'
      · rw [if_neg hn]
        exact ⟨v, h, .idle .rfl .rfl, Kept.refl i x⟩
    · exact ⟨v, h, .idle .rfl .rfl, Kept.refl i x⟩
  | deliverLookup j d =>
    exact h.deliverLookup hcf hp (by simpa [TransferEvent.interleaves] using he) d
  | _ => cases hrec

end Lockstep

end TransferSystem

end IcLaya
