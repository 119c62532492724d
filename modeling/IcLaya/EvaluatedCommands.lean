import IcLaya.SlotEvaluations

/-!
# A transfer is only dispatched on evaluations by the engine

Executor and engine together: the records are complete when a command is produced, and what they hold
was obtained from the engine.
-/
namespace IcLaya
open CheckedWords Fallible ListUpdates OrderedMaps TransitionSystems CanisterCommon

variable {F Digest : Type} [Doubles F] [ByteDigest Digest]

open ExecutorState (slotId slotRequest)

namespace EvaluationSystem
variable {l : Linked F Digest} {p : Principal} {w : EvaluationSystem F Digest}

/-- Slot `i` of a request was evaluated on the evidence of its operation: the engine was shown it,
asked its backend once, keeps the result, and answered with it; the result passes. -/
structure Evaluated (p : Principal) (w : EvaluationSystem F Digest) (r : RequestRecord Digest)
    (o : Operation Digest) (plan : Plan Digest) (i : ℕ) (signal : RequiredSignal Digest)
    (v : Receipt Digest) (m : EngineMessage Digest) : Prop where
  stored : r.receipts[i]? = some v
  passes : Passes signal v
  sent : m ∈ w.calls
  request : m.request = r.id
  req : m.req = slotRequest r.id r plan o i signal
  answer : m.answer = some (some (.ok v))
  asked : w.asked.count (p, m.req.evaluationId) = 1
  cached : w.cache[(p, m.req.evaluationId)]? = some ⟨m.req.digest, .ok v⟩

theorem Sound.evaluated (h : w.Sound p) {k : Digest} {r : RequestRecord Digest}
    {o : Operation Digest} {plan : Plan Digest} {i : ℕ} {signal : RequiredSignal Digest}
    (hr : w.executor.requests[k]? = some r) (ho : w.executor.operations[r.operation]? = some o)
    (hp : w.executor.plans[r.plan]? = some plan) (hrev : o.revision = r.operationRevision)
    (hc : r.Complete plan) (hs : plan.signals[i]? = some signal) :
    ∃ v m, Evaluated p w r o plan i signal v m := by
  obtain ⟨v, hv, hpass⟩ := hc.receipt hs
  obtain ⟨hid, hasked, m, hm, rfl, hshows, hans, hcached⟩ := h.obtained hr hv
  have hk := (h.asks.valid.coherent.request _ r hr).id_eq
  rw [hid, ← hshows.slot.2] at hasked hcached
  obtain ⟨plan', signal', hp', hs', -, hcur⟩ := hshows
  cases hp.symm.trans hp'
  cases hs.symm.trans hs'
  exact ⟨v, m, hv, hpass, hm, hk.symm, hk ▸ hcur o ho hrev, hans, hasked, hcached⟩

/-- In every reachable state of the two canisters, as long as no two submissions have one id: a
dispatch and a retry produce a command only for a request with all its slots evaluated, on the
evidence that its operation still has. -/
theorem commands_evaluated (hb : l.bincode.Inverts) (h : Reachable l p w)
    (hd : Distinct Digest p w.submitted) {op : Op Digest} {cmd : DispatchCommand Digest}
    (hc : w.executor.command op = some cmd) :
    ∃ r o plan, w.executor.requests[cmd.request]? = some r ∧
      w.executor.operations[r.operation]? = some o ∧ w.executor.plans[r.plan]? = some plan ∧
      cmd.transfer.proposal = o.proposal ∧ cmd.transfer.memo = cmd.request ∧
      r.receipts.length = plan.signals.length ∧
      ∀ (i : ℕ) signal, plan.signals[i]? = some signal →
        ∃ v m, Evaluated p w r o plan i signal v m := by
  have hw := sound_of_reachable hb h hd
  obtain ⟨r, o, plan, hr, ho, hp, hrev, hprop, hmemo, hcomp⟩ :=
    ExecutorState.complete_of_command hw.asks.valid hw.asks.evidenced hw.asks.vetted hc
  exact ⟨r, o, plan, hr, ho, hp, hprop, hmemo, hcomp.1, fun i signal hs =>
    hw.evaluated hr ho hp hrev hcomp hs⟩

open EvaluationSystem.Sample in
/-- The dispatch of the judged invoice. -/
theorem commands_evaluated_judged : ∃ c cmd r o plan,
    Canister.init Canister.Sample.linked (context 1) IcLaya.Sample.owner = some c ∧
      (judged c).executor.command dispatch = some cmd ∧
      r.receipts.length = plan.signals.length ∧
      ∀ (i : ℕ) signal, plan.signals[i]? = some signal →
        ∃ v m, Evaluated IcLaya.Sample.self (judged c) r o plan i signal v m := by
  obtain ⟨c, -, -, cmd, hinit, -, -, hcmd⟩ := judged_stores
  obtain ⟨r, o, plan, -, -, -, -, -, hlen, hall⟩ := commands_evaluated Canister.Sample.inverts
    (judged_reachable hinit) (judged_distinct IcLaya.Sample.self c) hcmd
  exact ⟨c, cmd, r, o, plan, hinit, hcmd, hlen, hall⟩

end EvaluationSystem
end IcLaya
