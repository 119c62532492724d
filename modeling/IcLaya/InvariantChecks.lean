import IcLaya.BudgetAccounting

/-!
# The executor's own check always passes

`check_invariants` is weaker than what is inductive: it follows from coherence, the
lifecycle and the exact books, which hold in every state that calls reach.
-/
namespace IcLaya
open CheckedWords Fallible OrderedMaps TransitionSystems RequestRecord

variable {Digest : Type} [Hashing Digest]

namespace ExecutorState

/-- The invariant of the executor. -/
structure Valid (s : ExecutorState Digest) : Prop where
  coherent : s.Coherent
  lifecycle : s.Lifecycle
  books : s.Books

variable {s s' : ExecutorState Digest} {g : Grant Digest} {r : RequestRecord Digest}

theorem valid_new (self owner engine : Principal) :
    (new self owner engine : ExecutorState Digest).Valid :=
  ⟨coherent_new .., lifecycle_new .., books_new self owner engine⟩

theorem Valid.change {op : Op Digest} (h : s.Valid) (hs : Change s op s') : s'.Valid :=
  ⟨h.coherent.change hs, h.lifecycle.change h.coherent hs,
    h.books.change h.coherent h.lifecycle hs⟩

theorem valid_step (hcf : CollisionFree Digest) (h : s.Valid) (op : Op Digest) :
    (s.step op).Valid := h.change (change_of_step hcf h.coherent op)

theorem valid_run (hcf : CollisionFree Digest) (h : s.Valid) (ops : List (Op Digest)) :
    (run step s ops).Valid := run_invariant Valid (fun _ op hs => valid_step hcf hs op) h ops

theorem valid_of_reachable (hcf : CollisionFree Digest) (h : s.Reachable) : s.Valid := by
  obtain ⟨self, owner, engine, ops, rfl⟩ := h
  exact valid_run hcf (valid_new self owner engine) ops

/-- A checked sum of charges succeeds when the exact sum fits. -/
theorem sumCharges_eq_ok (rs : List Reservation)
    (h : (rs.map fun v => v.charge.toNat).sum < 2 ^ 128) :
    ∃ c, sumCharges rs = .ok c ∧ c.toNat = (rs.map fun v => v.charge.toNat).sum := by
  suffices hfold : ∀ a : U128, a.toNat + (rs.map fun v => v.charge.toNat).sum < 2 ^ 128 →
      ∃ c, rs.foldlM (fun (a : U128) v => okOr (checkedAdd a v.charge) Error.budget) a = .ok c ∧
        c.toNat = a.toNat + (rs.map fun v => v.charge.toNat).sum by
    obtain ⟨c, hc, hn⟩ := hfold 0 (by simpa using h)
    exact ⟨c, hc, by simpa using hn⟩
  clear h
  induction rs with
  | nil => exact fun a _ => ⟨a, rfl, by simp⟩
  | cons v rs ih =>
    intro a ha
    simp only [List.map_cons, List.sum_cons] at ha ⊢
    obtain ⟨b, hb⟩ := exists_checkedAdd (a := a) (b := v.charge) (by omega)
    have hn := checkedAdd_eq_some.mp hb
    obtain ⟨c, hc, hcn⟩ := ih b (by omega)
    refine ⟨c, ?_, by omega⟩
    rw [foldlM_cons_eq_ok]
    exact ⟨b, by rw [hb]; rfl, hc⟩

/-- A wrapping sum whose exact value fits is exact. -/
theorem toNat_sum {xs : List U128} (h : (xs.map BitVec.toNat).sum < 2 ^ 128) :
    xs.sum.toNat = (xs.map BitVec.toNat).sum := by
  induction xs with
  | nil => rfl
  | cons x xs ih =>
    simp only [List.map_cons, List.sum_cons] at h ⊢
    rw [BitVec.toNat_add, ih (by omega), Nat.mod_eq_of_lt h]

theorem reservations_sum (s : ExecutorState Digest) (g : Grant Digest) :
    ((s.reservationsOf g.id).map fun v => v.charge.toNat).sum = s.booked g none held := by
  rw [reservationsOf, List.filterMap_filter, sum_filterMap_values]
  refine sumValues_congr fun _ r _ => ?_
  by_cases hg : r.grant = g.id <;> simp [weight, counts, held, hg]

omit [Hashing Digest] in
/-- The epoch that was recorded with a reservation is the one its transfer was prepared in. -/
theorem epoch_of_reservation {o : Operation Digest} (h : RecordOk o g r) {v : Reservation}
    (hv : r.reservation = some v) : r.epoch g = some v.epoch := by
  obtain ⟨now, c, hf, _, hv'⟩ := (h.outstanding (h.outstanding_of_reservation hv)).booked
  cases hv.symm.trans hv'
  rw [epoch, hf]
  rfl

/-- The reservations of one epoch, counted by the epoch that was recorded with them. -/
theorem reservations_epoch_sum (h : s.Valid) {k : Digest} (hg : s.grants[k]? = some g)
    (e : UInt64) :
    (((s.reservationsOf g.id).filter fun v => v.epoch = e).map fun v => v.charge.toNat).sum =
      s.booked g (some e) held := by
  rw [reservationsOf, List.filterMap_filter, List.filter_filterMap, sum_filterMap_values]
  refine sumValues_congr fun k' r hr => ?_
  by_cases hgr : r.grant = g.id
  · obtain ⟨o, g₀, _, hg₀, hok⟩ := h.lifecycle.record k' r hr
    rw [hgr, (h.coherent.grant k g hg).1, hg] at hg₀
    cases hg₀
    cases hv : r.reservation with
    | none => simp [weight, counts, held, hgr, hv]
    | some v =>
      have he := epoch_of_reservation hok hv
      by_cases hve : v.epoch = e <;>
        simp [weight, counts, held, hgr, hv, he, hve, Option.filter_some]
  · simp [weight, counts, hgr]

theorem checkGrant_eq_ok (h : s.Valid) {k : Digest} (hg : s.grants[k]? = some g) :
    s.checkGrant g = .ok () := by
  have hb := h.books k g hg
  obtain ⟨c, hc, hcn⟩ := sumCharges_eq_ok (s.reservationsOf g.id) (by
    rw [reservations_sum, ← hb.reserved]
    exact g.total.reserved.isLt)
  rw [reservations_sum, ← hb.reserved, BitVec.toNat_inj] at hcn
  have hT := g.totalCap.isLt
  have hcap := hb.cap
  obtain ⟨used, hused⟩ := exists_checkedAdd (a := g.total.spent) (b := g.total.reserved) (by omega)
  have hn := checkedAdd_eq_some.mp hused
  simp only [checkGrant, bind_eq_ok, rejectIf_eq_ok, okOr_eq_ok, forM_eq_ok, not_not,
    BitVec.not_lt, BitVec.le_def]
  refine ⟨c, hc, (), hcn, used, hused, (), by omega, ?_⟩
  rintro ⟨e, u⟩ hu
  rw [Std.ExtTreeMap.mem_toList_iff_getElem?_eq_some] at hu
  have hW := g.windowCap.isLt
  have hwcap := hb.windowCap e u hu
  have hsum := hb.windowReserved e
  rw [window, hu, Option.getD_some, ← reservations_epoch_sum h hg e] at hsum
  obtain ⟨used, hused⟩ := exists_checkedAdd (a := u.spent) (b := u.reserved) (by omega)
  have hn := checkedAdd_eq_some.mp hused
  simp only [checkWindow, bind_eq_ok, rejectIf_eq_ok, okOr_eq_ok, not_not, BitVec.not_lt,
    BitVec.le_def]
  refine ⟨(), ?_, used, hused, by omega⟩
  have hmap : (((s.reservationsOf g.id).filter fun v => v.epoch = e).map
      fun v => v.charge.toNat) = (((s.reservationsOf g.id).filter fun v => v.epoch = e).map
      Reservation.charge).map BitVec.toNat := by rw [List.map_map]; rfl
  rw [hmap] at hsum
  rw [← BitVec.toNat_inj, toNat_sum (by rw [← hsum]; exact u.reserved.isLt), hsum]

theorem checkRequest_eq_ok (h : s.Valid) {k : Digest} (hr : s.requests[k]? = some r) :
    s.checkRequest r = .ok () := by
  obtain ⟨o, g, ho, _, hok⟩ := h.lifecycle.record k r hr
  simp only [checkRequest, bind_eq_ok, rejectIf_eq_ok, okOr_eq_ok]
  refine ⟨o, ho, (), ?_, (), ?_, UInt64.not_le.mpr (h.coherent.request k r hr).numbered⟩
  · rintro ⟨hv, hbad⟩
    obtain ⟨v, hv⟩ := Option.isSome_iff_exists.mp hv
    have hout := hok.outstanding_of_reservation hv
    exact hbad.elim (fun hb => hb (hok.outstanding hout).operation) (fun hb => hb hout)
  · rintro ⟨hs, hbad⟩
    obtain ⟨_, hv, hop, _⟩ := hok.succeeded hs
    rw [hv] at hbad
    exact hbad.elim (by simp) (fun hb => hb hop)

theorem Valid.checkInvariants (h : s.Valid) : s.checkInvariants = .ok () := by
  simp only [ExecutorState.checkInvariants, bind_eq_ok, forM_eq_ok, mem_values]
  refine ⟨(), ?_, ?_⟩
  · rintro g ⟨k, hg⟩
    exact checkGrant_eq_ok h hg
  · rintro r ⟨k, hr⟩
    exact checkRequest_eq_ok h hr

/-- After any calls the executor's check passes and the books of every grant are exact. -/
theorem budget_books_exact (hcf : CollisionFree Digest) (self owner engine : Principal)
    (ops : List (Op Digest)) :
    (run step (new self owner engine) ops).checkInvariants = .ok () ∧
      ∀ (k : Digest) g, (run step (new self owner engine) ops).grants[k]? = some g →
        (run step (new self owner engine) ops).GrantBooks g :=
  have h := valid_run hcf (valid_new self owner engine) ops
  ⟨h.checkInvariants, h.books⟩

theorem budget_books_exact_paid :
    ∃ g, (run step Sample.start Sample.paid).grants[Sample.grant.id]? = some g ∧
      g.total = ⟨110, 0⟩ ∧ (run step Sample.start Sample.paid).GrantBooks g := by
  obtain ⟨g, hg, ht⟩ : ∃ g, (run step Sample.start Sample.paid).grants[Sample.grant.id]? = some g ∧
      g.total = ⟨110, 0⟩ := Option.map_eq_some_iff.mp (by decide +kernel)
  exact ⟨g, hg, ht, (budget_books_exact SymbolicDigest.collisionFree Sample.self Sample.owner
    Sample.engine Sample.paid).2 _ g hg⟩

end ExecutorState

end IcLaya
