import IcLaya.LifecycleInvariant

/-!
# The budget books are exact

For every grant and every epoch the amounts in the books are the sums over the requests of
the grant. A call moves a request between the two sums or leaves both alone; from the exact
books the executor's own `check_invariants` follows.
-/
namespace IcLaya
open CheckedWords Fallible OrderedMaps TransitionSystems

variable {Digest : Type} [Hashing Digest]

namespace RequestRecord

/-- The charge a request holds. -/
def held (r : RequestRecord Digest) : ℕ := r.reservation.elim 0 fun v => v.charge.toNat

/-- What a succeeded request has spent. -/
def paid (r : RequestRecord Digest) : ℕ :=
  if r.status.isSucceeded then
    r.frozen.elim 0 fun f => f.proposal.amount.toNat + f.proposal.fee.toNat
  else 0

/-- The epoch of a grant in which the transfer of a request was prepared. -/
def epoch (g : Grant Digest) (r : RequestRecord Digest) : Option UInt64 :=
  r.frozen.map fun f => f.createdAtTimeNs / g.windowNs

/-- A request counts for its grant, and for its epoch if one is asked for. -/
def counts (g : Grant Digest) (e : Option UInt64) (r : RequestRecord Digest) : Bool :=
  r.grant == g.id && e.all fun e => r.epoch g == some e

def weight (g : Grant Digest) (e : Option UInt64) (amount : RequestRecord Digest → ℕ)
    (r : RequestRecord Digest) : ℕ := if counts g e r then amount r else 0

end RequestRecord

open RequestRecord

namespace ExecutorState

/-- The sum of an amount over the requests of a grant, in one epoch if one is given. -/
def booked (s : ExecutorState Digest) (g : Grant Digest) (e : Option UInt64)
    (amount : RequestRecord Digest → ℕ) : ℕ := sumValues s.requests (weight g e amount)

/-- The entry of an epoch; without one nothing is spent or reserved in it. -/
def window (g : Grant Digest) (e : UInt64) : Usage := g.windows[e]?.getD default

/-- The books of a grant are the sums over its requests and keep to the caps. -/
structure GrantBooks (s : ExecutorState Digest) (g : Grant Digest) : Prop where
  reserved : g.total.reserved.toNat = s.booked g none held
  spent : g.total.spent.toNat = s.booked g none paid
  windowReserved : ∀ e, (window g e).reserved.toNat = s.booked g (some e) held
  windowSpent : ∀ e, (window g e).spent.toNat = s.booked g (some e) paid
  entry : ∀ (k : Digest) r e, s.requests[k]? = some r → r.grant = g.id → r.epoch g = some e →
    ∃ u, g.windows[e]? = some u
  cap : g.total.spent.toNat + g.total.reserved.toNat ≤ g.totalCap.toNat
  windowCap : ∀ (e : UInt64) u, g.windows[e]? = some u →
    u.spent.toNat + u.reserved.toNat ≤ g.windowCap.toNat

def Books (s : ExecutorState Digest) : Prop :=
  ∀ (k : Digest) g, s.grants[k]? = some g → s.GrantBooks g

section Steps
variable {s s' : ExecutorState Digest} {k : Digest} {o : Operation Digest} {g g' : Grant Digest}
  {r r' : RequestRecord Digest} {e : Option UInt64} {amount : RequestRecord Digest → ℕ}

theorem weight_terms (h : SameTerms g g') (r : RequestRecord Digest) :
    weight g' e amount r = weight g e amount r := by
  unfold weight counts epoch
  rw [h]

theorem booked_terms (h : SameTerms g g') : s.booked g' e amount = s.booked g e amount :=
  sumValues_congr fun _ r _ => weight_terms h r

theorem weight_other (h : r.grant ≠ g.id) : weight g e amount r = 0 := by
  simp [weight, counts, h]

/-- A replaced record leaves a sum with its old weight and enters it with the new one. -/
theorem booked_replace (hr : s.requests[k]? = some r) (hs : s'.requests = s.requests.insert k r') :
    s'.booked g e amount + weight g e amount r = s.booked g e amount + weight g e amount r' := by
  unfold booked
  rw [hs]
  exact sumValues_replace hr r' _

theorem booked_replace_same (hr : s.requests[k]? = some r)
    (hs : s'.requests = s.requests.insert k r')
    (hw : weight g e amount r' = weight g e amount r) :
    s'.booked g e amount = s.booked g e amount := by
  have hb : s'.booked g e amount + weight g e amount r =
      s.booked g e amount + weight g e amount r' := booked_replace hr hs
  omega

/-- Records that count the same. -/
structure SameAccount (r r' : RequestRecord Digest) : Prop where
  grant : r'.grant = r.grant
  frozen : r'.frozen = r.frozen
  reservation : r'.reservation = r.reservation
  succeeded : r'.status.isSucceeded = r.status.isSucceeded

theorem counts_congr (hg : r'.grant = r.grant) (hf : r'.frozen = r.frozen) :
    counts g e r' = counts g e r := by
  unfold counts epoch
  rw [hg, hf]

theorem SameAccount.weight_held (h : SameAccount r r') :
    weight g e held r' = weight g e held r := by
  have hh : r'.held = r.held := by unfold held; rw [h.reservation]
  rw [weight, weight, counts_congr h.grant h.frozen, hh]

theorem SameAccount.weight_paid (h : SameAccount r r') :
    weight g e paid r' = weight g e paid r := by
  have hp : r'.paid = r.paid := by unfold paid; rw [h.frozen, h.succeeded]
  rw [weight, weight, counts_congr h.grant h.frozen, hp]

omit [Hashing Digest] in
theorem afterOutcome_account (n : ℕ) (x : Result (Receipt Digest × Bool)) :
    (afterOutcome r n x).grant = r.grant ∧ (afterOutcome r n x).frozen = r.frozen ∧
      (afterOutcome r n x).reservation = r.reservation := by
  cases x <;> exact ⟨rfl, rfl, rfl⟩

theorem RecordStep.sameAccount (h : RecordStep s k r r') (hok : RecordOk o g r) :
    SameAccount r r' := by
  have hund : r.status = .received ∨ r.status = .evaluating → r.status.isSucceeded = false := by
    rintro (hs | hs) <;> rw [hs] <;> rfl
  cases h with
  | start _ _ _ _ hs => exact ⟨rfl, rfl, rfl, (hund hs).symm⟩
  | resend q hs => exact ⟨rfl, rfl, rfl, rfl⟩
  | outdated hs => exact ⟨rfl, rfl, rfl, (hund hs).symm⟩
  | transport q hs =>
    unfold afterTransportFailure
    split
    · exact ⟨rfl, rfl, rfl, (hund (.inr hs)).symm⟩
    · exact ⟨rfl, rfl, rfl, rfl⟩
  | judged q p required result hs =>
    obtain ⟨hg, hf, hv⟩ := afterOutcome_account (r := r) p.signals.length
      (judge q.request required result)
    refine ⟨hg, hf, hv, ?_⟩
    rw [hund (.inr hs)]
    obtain ⟨_, he⟩ | he | he := afterOutcome_status r p.signals.length
      (judge q.request required result) <;> rw [he] <;> rfl
  | report hs => exact ⟨rfl, rfl, rfl, by rw [hs]; rfl⟩
  | unknown why hs =>
    refine ⟨rfl, rfl, rfl, ?_⟩
    cases hst : r.status <;> simp_all [Status.isSucceeded, Status.outstanding]
  | retry f hs =>
    refine ⟨rfl, rfl, rfl, ?_⟩
    cases hst : r.status <;> simp_all [Status.isSucceeded, Status.isOutcomeUnknown]
  | cancel hf =>
    refine ⟨rfl, rfl, rfl, ?_⟩
    have := hok.dispatched_eq
    rw [hf] at this
    cases hst : r.status <;> simp_all [Status.isSucceeded, Status.dispatched]

omit [Hashing Digest] in
theorem recover_sameAccount (r : RequestRecord Digest) : SameAccount r r.recover := by
  unfold RequestRecord.recover
  split
  · next hs => exact ⟨rfl, rfl, rfl, by rw [hs]; rfl⟩
  · next hs => exact ⟨rfl, rfl, rfl, by rw [hs]; rfl⟩
  · exact ⟨rfl, rfl, rfl, rfl⟩

/-- Books whose sums and entries did not move. -/
theorem GrantBooks.same (h : s.GrantBooks g) (ht : SameTerms g g') (htot : g'.total = g.total)
    (hwin : g'.windows = g.windows)
    (hheld : ∀ e, s'.booked g e held = s.booked g e held)
    (hpaid : ∀ e, s'.booked g e paid = s.booked g e paid)
    (hentry : ∀ (k : Digest) r e, s'.requests[k]? = some r → r.grant = g.id → r.epoch g = some e →
      ∃ u, g.windows[e]? = some u) : s'.GrantBooks g' := by
  have hcap : g'.totalCap = g.totalCap := by rw [ht]
  have hwcap : g'.windowCap = g.windowCap := by rw [ht]
  have hid : g'.id = g.id := by rw [ht]
  have hns : g'.windowNs = g.windowNs := by rw [ht]
  refine ⟨?_, ?_, ?_, ?_, ?_, ?_, ?_⟩
  · rw [htot, booked_terms ht, hheld, h.reserved]
  · rw [htot, booked_terms ht, hpaid, h.spent]
  · intro e
    rw [window, hwin, booked_terms ht, hheld]
    exact h.windowReserved e
  · intro e
    rw [window, hwin, booked_terms ht, hpaid]
    exact h.windowSpent e
  · intro k r e hr hg he
    rw [epoch, hns] at he
    rw [hwin]
    exact hentry k r e hr (hg.trans hid) he
  · rw [htot, hcap]; exact h.cap
  · rw [hwin, hwcap]; exact h.windowCap

/-- A record that counts as before leaves every book alone. -/
theorem GrantBooks.replace (h : s.GrantBooks g) (hr : s.requests[k]? = some r)
    (hs : s'.requests = s.requests.insert k r')
    (ha : r.grant = g.id → SameAccount r r') (hg : r'.grant = r.grant) : s'.GrantBooks g := by
  by_cases hgr : r.grant = g.id
  · have ha := ha hgr
    refine h.same rfl rfl rfl (fun e => booked_replace_same hr hs ha.weight_held)
      (fun e => booked_replace_same hr hs ha.weight_paid) ?_
    rw [hs]
    refine forall_insert (P := fun _ r => ∀ e, r.grant = g.id → r.epoch g = some e → _)
      (fun k r hr e => h.entry k r e hr) (fun e hg' he => ?_) |> fun hall k r e hr => hall k r hr e
    rw [epoch, ha.frozen] at he
    exact h.entry k r e hr hgr he
  · refine h.same rfl rfl rfl (fun e => booked_replace_same hr hs ?_)
      (fun e => booked_replace_same hr hs ?_) ?_
    · rw [weight_other hgr, weight_other (hg ▸ hgr)]
    · rw [weight_other hgr, weight_other (hg ▸ hgr)]
    · rw [hs]
      exact fun k' r₂ e hr₂ => forall_insert (P := fun _ r => ∀ e, r.grant = g.id → r.epoch g = some e → _)
        (fun k r hr e => h.entry k r e hr) (fun e hg' => absurd (hg ▸ hg') hgr) k' r₂ hr₂ e

/-- A record prepared in epoch `e` carries its amounts from one state to the next. -/
theorem booked_move {e₁ : UInt64} (hr : s.requests[k]? = some r)
    (hs : s'.requests = s.requests.insert k r') (hg : r.grant = g.id) (hg' : r'.grant = g.id)
    (he' : r'.epoch g = some e₁) (he : r.epoch g = some e₁ ∨ amount r = 0) :
    s'.booked g none amount + amount r = s.booked g none amount + amount r' ∧
      ∀ e, s'.booked g (some e) amount + (if e₁ = e then amount r else 0) =
        s.booked g (some e) amount + (if e₁ = e then amount r' else 0) := by
  have hnone : ∀ q : RequestRecord Digest, q.grant = g.id → weight g none amount q = amount q := by
    intro q hq
    simp [weight, counts, hq]
  have hsome : ∀ (q : RequestRecord Digest) e, q.grant = g.id →
      (q.epoch g = some e₁ ∨ amount q = 0) →
      weight g (some e) amount q = if e₁ = e then amount q else 0 := by
    rintro q e hq (he | ha)
    · simp [weight, counts, hq, he]
    · simp [weight, ha]
  refine ⟨?_, fun e => ?_⟩
  · rw [← hnone r hg, ← hnone r' hg']
    exact booked_replace hr hs
  · rw [← hsome r e hg he, ← hsome r' e hg' (.inl he')]
    exact booked_replace hr hs

/-- Books that one record of the grant changed: the amounts it carried leave and those it
carries now enter, in the totals and in its epoch. -/
theorem GrantBooks.move {e₁ : UInt64} {u : Usage} (h : s.GrantBooks g)
    (hr : s.requests[k]? = some r) (hs : s'.requests = s.requests.insert k r')
    (hg : r.grant = g.id) (hg' : r'.grant = g.id) (he' : r'.epoch g = some e₁)
    (heHeld : r.epoch g = some e₁ ∨ r.held = 0) (hePaid : r.epoch g = some e₁ ∨ r.paid = 0)
    (ht : SameTerms g g') (hwin : g'.windows = g.windows.insert e₁ u)
    (htr : g'.total.reserved.toNat + r.held = g.total.reserved.toNat + r'.held)
    (hts : g'.total.spent.toNat + r.paid = g.total.spent.toNat + r'.paid)
    (hur : u.reserved.toNat + r.held = (window g e₁).reserved.toNat + r'.held)
    (hus : u.spent.toNat + r.paid = (window g e₁).spent.toNat + r'.paid)
    (hcap : g'.total.spent.toNat + g'.total.reserved.toNat ≤ g.totalCap.toNat)
    (hwcap : u.spent.toNat + u.reserved.toNat ≤ g.windowCap.toNat) : s'.GrantBooks g' := by
  have hgw : ∀ e, window g' e = if e = e₁ then u else window g e := by
    intro e
    rw [window, hwin, get_insert]
    split <;> rfl
  have hid : g'.id = g.id := by rw [ht]
  have hns : g'.windowNs = g.windowNs := by rw [ht]
  obtain ⟨hhn, hhe⟩ := booked_move hr hs hg hg' he' heHeld
  obtain ⟨hpn, hpe⟩ := booked_move hr hs hg hg' he' hePaid
  refine ⟨?_, ?_, fun e => ?_, fun e => ?_, fun k' q e hq hqg hqe => ?_, ?_, ?_⟩
  · have := h.reserved
    rw [booked_terms ht]
    omega
  · have := h.spent
    rw [booked_terms ht]
    omega
  · have hb := hhe e
    have hw := h.windowReserved e
    rw [booked_terms ht, hgw]
    by_cases hee : e = e₁
    · subst hee
      simp only [if_true] at hb ⊢
      omega
    · simp only [if_neg hee, if_neg (Ne.symm hee)] at hb ⊢
      omega
  · have hb := hpe e
    have hw := h.windowSpent e
    rw [booked_terms ht, hgw]
    by_cases hee : e = e₁
    · subst hee
      simp only [if_true] at hb ⊢
      omega
    · simp only [if_neg hee, if_neg (Ne.symm hee)] at hb ⊢
      omega
  · rw [hid] at hqg
    rw [epoch, hns] at hqe
    rw [hwin, get_insert]
    split
    · exact ⟨u, rfl⟩
    · next hne =>
      rw [hs, get_insert] at hq
      split at hq
      · cases hq
        exact absurd (Option.some.inj (hqe.symm.trans he')) hne
      · exact h.entry k' q e hq hqg hqe
  · rw [show g'.totalCap = g.totalCap by rw [ht]]
    exact hcap
  · rw [hwin, show g'.windowCap = g.windowCap by rw [ht]]
    exact forall_insert h.windowCap hwcap

theorem books_new (self owner engine : Principal) :
    (new self owner engine : ExecutorState Digest).Books := by
  intro k g h
  simp [new] at h

theorem dispatch_books (h : s.GrantBooks g) {c : U128} {now : UInt64}
    (hr : s.requests[r.id]? = some r) (hu : Undispatched r) (hg : r.grant = g.id)
    (hv : g.reserve c (now / g.windowNs) = .ok g')
    (hs : s'.requests = s.requests.insert r.id
      (dispatched r ⟨c, now / g.windowNs⟩ ⟨o.proposal, r.id, now⟩))
    (hst : r.status.isSucceeded = false) : s'.GrantBooks g' := by
  have ht := reserve_sameTerms hv
  obtain ⟨_, tr, wr, htr, hwr, hcap, hwcap, rfl⟩ := Grant.reserve_eq_ok.mp hv
  have h₀ : r.held = 0 := by rw [held, hu.reservation]; rfl
  have h₁ : r.paid = 0 := by rw [paid, hst]; rfl
  have hd : (dispatched r ⟨c, now / g.windowNs⟩ ⟨o.proposal, r.id, now⟩).paid = 0 := rfl
  have hh : (dispatched r ⟨c, now / g.windowNs⟩ ⟨o.proposal, r.id, now⟩).held = c.toNat := rfl
  refine h.move hr hs hg hg rfl (.inr h₀) (.inr h₁) ht rfl ?_ ?_ ?_ ?_ hcap hwcap
  · rw [h₀, hh]; omega
  · rw [h₁, hd]
  · rw [h₀, hh]
    exact hwr
  · rw [h₁, hd]
    rfl

theorem settle_books (h : s.GrantBooks g) {v : Reservation} {success : Bool} {text : String}
    (hr : s.requests[r.id]? = some r) (ho : Outstanding o g r) (hg : r.grant = g.id)
    (hout : r.status.outstanding = true) (hv : r.reservation = some v)
    (hse : g.settle v.charge v.epoch success = .ok g')
    (hs : s'.requests = s.requests.insert r.id (settled r success text)) : s'.GrantBooks g' := by
  have ht := settle_sameTerms hse
  obtain ⟨old, ts, tr, ws, wr, hold, htr, hwr, hts, hws, rfl⟩ := Grant.settle_eq_ok.mp hse
  obtain ⟨now, c, hf, hc, hv'⟩ := ho.booked
  cases hv.symm.trans hv'
  rw [TransferProposal.charge_eq_ok] at hc
  have he : r.epoch g = some (now / g.windowNs) := by rw [epoch, hf]; rfl
  have h₀ : r.held = c.toNat := by rw [held, hv]; rfl
  have h₁ : r.paid = 0 := by
    unfold paid
    cases hst : r.status <;> simp_all [Status.outstanding, Status.isSucceeded]
  have hd : (settled r success text).paid = if success then c.toNat else 0 := by
    cases success with
    | true => simp [paid, settled, hf, Status.isSucceeded, hc]
    | false => rfl
  have hh : (settled r success text).held = 0 := rfl
  have hwo : window g (now / g.windowNs) = old := by rw [window, hold]; rfl
  have hb := h.cap
  have hbw := h.windowCap _ old hold
  have hmost : (if success then c.toNat else 0) ≤ c.toNat := by split <;> simp
  change g.total.reserved.toNat = tr.toNat + c.toNat at htr
  change old.reserved.toNat = wr.toNat + c.toNat at hwr
  change ts.toNat = g.total.spent.toNat + (if success then c.toNat else 0) at hts
  change ws.toNat = old.spent.toNat + (if success then c.toNat else 0) at hws
  refine h.move hr hs hg hg he (.inl he) (.inl he) ht rfl ?_ ?_ ?_ ?_ ?_ ?_
  · rw [h₀, hh]; exact htr.symm
  · rw [h₁, hd]; exact hts
  · rw [h₀, hh, hwo]; exact hwr.symm
  · rw [h₁, hd, hwo]; exact hws
  · show ts.toNat + tr.toNat ≤ _
    omega
  · show ws.toNat + wr.toNat ≤ _
    omega

/-- Every change keeps the books exact. -/
theorem Books.change {op : Op Digest} (h : s.Books) (hc : s.Coherent) (hl : s.Lifecycle)
    (hs : Change s op s') :
    s'.Books := by
  cases hs with
  | same => exact h
  | control mode paused ledgers =>
    exact fun k g hg => (h k g hg).same rfl rfl rfl (fun _ => rfl) (fun _ => rfl) (h k g hg).entry
  | plan p hv hn =>
    exact fun k g hg => (h k g hg).same rfl rfl rfl (fun _ => rfl) (fun _ => rfl) (h k g hg).entry
  | operation o =>
    exact fun k g hg => (h k g hg).same rfl rfl rfl (fun _ => rfl) (fun _ => rfl) (h k g hg).entry
  | revise o k evidence rev =>
    exact fun k g hg => (h k g hg).same rfl rfl rfl (fun _ => rfl) (fun _ => rfl) (h k g hg).entry
  | grant g hw ht he hn =>
    refine forall_insert (fun k g hg => (h k g hg).same rfl rfl rfl (fun _ => rfl) (fun _ => rfl)
      (h k g hg).entry) ?_
    -- no request can name a grant before it is installed
    have hnone : ∀ (k : Digest) r, s.requests[k]? = some r → r.grant ≠ g.id := by
      intro k r hr he
      obtain ⟨g₀, hg₀, _⟩ := (hc.request k r hr).grant
      rw [he, hn] at hg₀
      cases hg₀
    have hzero : ∀ e amount, s.booked g e amount = 0 := fun e amount =>
      sumValues_eq_zero fun k r hr => weight_other (hnone k r hr)
    have hwin : ∀ e, window g e = default := by intro e; rw [window, he]; simp
    refine ⟨?_, ?_, fun e => ?_, fun e => ?_, fun k r e hr hg => absurd hg (hnone k r hr), ?_, ?_⟩
    · rw [ht]; exact (hzero none held).symm
    · rw [ht]; exact (hzero none paid).symm
    · rw [hwin]; exact (hzero (some e) held).symm
    · rw [hwin]; exact (hzero (some e) paid).symm
    · rw [ht]; exact Nat.zero_le _
    · rw [he]; intro e u hu; simp at hu
  | revoke g k rev hg hrev =>
    exact forall_insert (fun k g hg => (h k g hg).same rfl rfl rfl (fun _ => rfl) (fun _ => rfl)
      (h k g hg).entry) ((h k g hg).same rfl rfl rfl (fun _ => rfl) (fun _ => rfl) (h k g hg).entry)
  | submit caller nonce operation grant now o g p expires next hnonce hnext ho hg hp _ _ hfresh =>
    intro k g' hg'
    have hnew : ∀ e (amount : RequestRecord Digest → ℕ),
        amount (s.newRecord caller nonce operation grant o g p expires) = 0 →
        sumValues (s.requests.insert (s.requestId caller nonce)
          (s.newRecord caller nonce operation grant o g p expires)) (weight g' e amount) =
          s.booked g' e amount := by
      intro e amount ha
      rw [sumValues_new hfresh]
      simp [booked, weight, ha]
    refine (h k g' hg').same rfl rfl rfl (fun e => hnew e held rfl) (fun e => hnew e paid rfl) ?_
    exact fun k' r e hr => forall_insert
      (P := fun _ r => ∀ e, r.grant = g'.id → r.epoch g' = some e → _)
      (fun k₂ r hr e => (h k g' hg').entry k₂ r e hr) (fun e _ he => by cases he) k' r hr e
  | record k r r' hr hrec =>
    obtain ⟨o, g₀, _, _, hok⟩ := hl.record k r hr
    exact fun k' g hg => (h k' g hg).replace hr rfl (fun _ => hrec.sameAccount hok)
      (hrec.sameAccount hok).grant
  | dispatch a b now r o g g' c hr _ _ ha _ ho _ hg hch hv =>
    obtain ⟨hst, _⟩ := ready_of_authorize hr ha ho
    obtain ⟨o₀, g₀, _, _, hok⟩ := hl.record _ r hr
    have hgid := (hc.grant _ g hg).1
    refine forall_insert_of_ne (fun k g₂ hne hg₂ => ?_)
      (dispatch_books (o := o) (h _ g hg) hr (hok.undispatched (by rw [hst]; rfl)) hgid.symm hv rfl
        (by rw [hst]; rfl))
    refine (h k g₂ hg₂).replace hr rfl (fun he => absurd ?_ hne) rfl
    rw [he, (hc.grant k g₂ hg₂).1]
  | settle cmd outcome r v o g g' success text hr hout _ _ hset _ hv ho hst hg hse =>
    obtain ⟨o₀, g₀, ho₀, hg₀, hok⟩ := hl.record _ r hr
    obtain rfl : g = g₀ := Option.some.inj (hg.symm.trans hg₀)
    have hgid := (hc.grant _ g hg).1
    refine forall_insert_of_ne (fun k g₂ hne hg₂ => ?_)
      (settle_books (h _ g hg) hr (hok.outstanding hout) hgid.symm hout hv hse rfl)
    refine (h k g₂ hg₂).replace hr rfl (fun he => absurd ?_ hne) rfl
    rw [he, (hc.grant k g₂ hg₂).1]
  | recover =>
    intro k g hg
    have hsum : ∀ e (amount : RequestRecord Digest → ℕ),
        (∀ r : RequestRecord Digest, weight g e amount r.recover = weight g e amount r) →
        s.recoverAfterUpgrade.booked g e amount = s.booked g e amount := by
      intro e amount hw
      rw [booked, recoverAfterUpgrade, sumValues_map]
      exact sumValues_congr fun _ r _ => hw r
    refine (h k g hg).same rfl rfl rfl
      (fun e => hsum _ _ fun r => (recover_sameAccount r).weight_held)
      (fun e => hsum _ _ fun r => (recover_sameAccount r).weight_paid) ?_
    intro k' r' e hr' hgr he
    have hr'' : (s.requests.map fun _ r => r.recover)[k']? = some r' := hr'
    rw [get_map, Option.map_eq_some_iff] at hr''
    obtain ⟨r, hr, rfl⟩ := hr''
    rw [epoch, (recover_sameAccount r).frozen] at he
    exact (h k g hg).entry k' r e hr ((recover_sameAccount r).grant ▸ hgr) he

end Steps

end ExecutorState

end IcLaya
