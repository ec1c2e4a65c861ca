import SkyboxSimx.LsuInvariant
import Mathlib.Algebra.BigOperators.Fin
import Mathlib.Algebra.Order.BigOperators.Group.Finset
import Mathlib.Algebra.Order.Group.Int

/-!
# The outstanding-load counter

`pending_loads_` grows by the lanes of each load sent and shrinks by the lanes
of each response absorbed, while a parked load's mask loses only the lanes not
already cleared. The two agree while no lane is answered twice: then the
counter is the number of lanes still outstanding over all blocks, and never
goes below zero. A response that repeats a lane breaks the agreement, and the
counter of such a run falls below zero.
-/

namespace LsuCounter

open SimxTypes PendingTable LsuModel LsuRuns

variable {cfg : Config}

/-- The memory side answers only lanes still outstanding: a non-empty part of the remaining
mask of the load it addresses. -/
def RspExact (state : LsuState) (rsp : LsuRsp) : Prop :=
  match state.pendingRdReqs.at rsp.slot with
  | some entry => rsp.mask.Nonempty ∧ rsp.mask ⊆ entry.mask
  | none => False

instance (state : LsuState) (rsp : LsuRsp) : Decidable (RspExact state rsp) :=
  match h : state.pendingRdReqs.at rsp.slot with
  | some entry =>
    decidable_of_iff (rsp.mask.Nonempty ∧ rsp.mask ⊆ entry.mask) (by rw [RspExact, h])
  | none => isFalse (by rw [RspExact, h]; exact id)

/-- The lanes still outstanding in a block. -/
def remaining (st : LsuState) : Int :=
  (st.pendingRdReqs.held.map fun e => (e.mask.card : Int)).sum

/-- The lanes still outstanding in the whole unit. -/
def outstanding (u : LsuUnit cfg) : Int := ∑ b, remaining (u.states b)

theorem remaining_nonneg (st : LsuState) : 0 ≤ remaining st := by
  unfold remaining
  apply Multiset.sum_nonneg
  intro x hx
  obtain ⟨e, -, rfl⟩ := Multiset.mem_map.mp hx
  exact Int.natCast_nonneg _

theorem served_remaining {u u' : LsuUnit cfg} {iw : Fin cfg.issueWidth} {evs : List Event}
    (s : u.Served iw u' evs) (b : Fin cfg.numLsuBlocks) :
    remaining (u'.states b) = remaining (u.states b) +
      if blockOf cfg iw = b then u'.pendingLoads - u.pendingLoads else 0 := by
  cases s with
  | load _ _ _ _ ha =>
    by_cases hb : b = blockOf cfg iw
    · subst hb
      simp [remaining, HashTable.allocate_held ha, add_comm]
    · simp [hb, Ne.symm hb]
  | latch _ _ =>
    by_cases hb : b = blockOf cfg iw
    · subst hb; simp [remaining]
    · simp [hb, Ne.symm hb]
  | _ => simp

theorem step_remaining {u u' : LsuUnit cfg} {s : LsuStep cfg} {evs : List Event}
    (exact : Admissible RspExact u s) (h : u.step s = some (u', evs)) (b : Fin cfg.numLsuBlocks) :
    remaining (u'.states b) = remaining (u.states b) +
      if stepBlock s = some b then u'.pendingLoads - u.pendingLoads else 0 := by
  cases s with
  | latency => cases h; simp [stepBlock]
  | absorb b₀ rsp =>
    by_cases hb : b = b₀
    · subst hb
      cases LsuUnit.absorbed_of_absorb h with
      | @remaining entry hat _ _ =>
        simp only [Admissible, RspExact, hat] at exact
        have hsum := congrArg (fun m => (m.map fun e : PendingReq => (e.mask.card : Int)).sum)
          (HashTable.write_held hat { entry with mask := entry.mask \ rsp.mask })
        simp only [Multiset.map_add, Multiset.sum_add, Multiset.map_singleton,
          Multiset.sum_singleton] at hsum
        have hcard := Finset.card_sdiff exact.2
        have hle := Finset.card_le_card exact.2
        simp only [stepBlock, remaining, LsuUnit.setState_states, if_true,
          LsuUnit.setState_pendingLoads] at hsum ⊢
        omega
      | @complete entry table hat _ hdone hrel =>
        simp only [Admissible, RspExact, hat] at exact
        have heq : entry.mask = rsp.mask :=
          Finset.Subset.antisymm (Finset.sdiff_eq_empty_iff_subset.mp hdone) exact.2
        simp [stepBlock, remaining, HashTable.write_release_held hat hrel, heq]
    · cases LsuUnit.absorbed_of_absorb h <;> simp [stepBlock, hb, Ne.symm hb]
  | issue iw =>
    cases LsuUnit.issued_of_issue h with
    | wait _ _ => simp
    | unlock _ _ _ served =>
      have hs := served_remaining served b
      by_cases hb : b = blockOf cfg iw
      · subst hb; simpa [stepBlock, remaining] using hs
      · simpa [stepBlock, hb, Ne.symm hb] using hs
    | serve _ served => simpa [stepBlock] using served_remaining served b

theorem step_outstanding {u u' : LsuUnit cfg} {s : LsuStep cfg} {evs : List Event}
    (exact : Admissible RspExact u s) (h : u.step s = some (u', evs)) :
    outstanding u' = outstanding u + (u'.pendingLoads - u.pendingLoads) := by
  unfold outstanding
  rw [Finset.sum_congr rfl fun b _ => step_remaining exact h b, Finset.sum_add_distrib]
  congr 1
  cases s with
  | latency => cases h; simp
  | absorb b₀ rsp => simp [stepBlock]
  | issue iw => simp [stepBlock]

/-- At every state of every interleaving, so also right after each decrement inside a tick,
the counter is the number of lanes still outstanding. -/
theorem reachable_pending_loads {u : LsuUnit cfg} {L : List Event}
    (reach : Reachable cfg RspExact u L) : u.pendingLoads = outstanding u := by
  induction reach with
  | init => simp [outstanding, remaining, LsuUnit.init, LsuState.clear]
  | enqueue _ _ _ ih => simpa [outstanding] using ih
  | step _ exact h ih => rw [step_outstanding exact h, ← ih]; omega

/-- While no lane is answered twice, `pending_loads_` at every step of every interleaving from
reset, so after every tick and right after each decrement inside one, is the sum over blocks and
parked loads of the lanes still outstanding, and it never goes below zero. -/
theorem pending_loads_count {u : LsuUnit cfg} {L : List Event}
    (reach : Reachable cfg RspExact u L) : u.pendingLoads = outstanding u ∧ 0 ≤ u.pendingLoads := by
  have hcount := reachable_pending_loads reach
  exact ⟨hcount, hcount ▸ Finset.sum_nonneg fun b _ => remaining_nonneg (u.states b)⟩

/-- The load is sent, then answered on lane 0 only. -/
def halfAnswerScript : List (Action scenarioConfig) :=
  [.enqueue ⟨0, by decide⟩ twoLaneLoad, .tick fun _ => none, .tick fun _ => some ⟨{0}, 0, 0, 0⟩]

theorem pending_loads_count_half_answered :
    ∃ u L, Reachable scenarioConfig RspExact u L ∧
      (u.states ⟨0, by decide⟩).pendingRdReqs.held = {⟨twoLaneLoad, {1}⟩} ∧
      u.pendingLoads = outstanding u ∧ 0 ≤ u.pendingLoads := by
  have h : (replay RspExact (LsuUnit.init scenarioConfig, []) halfAnswerScript).map
      (fun r => (r.1.states ⟨0, by decide⟩).pendingRdReqs.held) = some {⟨twoLaneLoad, {1}⟩} := by
    decide
  obtain ⟨⟨u, L⟩, hr, hheld⟩ := Option.map_eq_some'.mp h
  have reach := (Run.of_replay _ .init hr).reachable
  exact ⟨u, L, reach, hheld, pending_loads_count reach⟩

/-- The load is sent, then answered on lane 0, on lane 0 again, and on lane 1. -/
def repeatedLaneScript : List (Action scenarioConfig) :=
  [.enqueue ⟨0, by decide⟩ twoLaneLoad, .tick fun _ => none,
    .tick fun _ => some ⟨{0}, 0, 0, 0⟩, .tick fun _ => some ⟨{0}, 0, 0, 0⟩,
    .tick fun _ => some ⟨{1}, 0, 0, 0⟩]

/-- Under the spec's promise, which lets responses to one tag overlap, a run ends with no lane
outstanding and the counter at `-1`: it has underflowed. -/
theorem pending_loads_underflow :
    ∃ u L, Run scenarioConfig (RspOk scenarioConfig) u L ∧ u.pendingLoads = -1 ∧
      outstanding u = 0 := by
  have h : (replay (RspOk scenarioConfig) (LsuUnit.init scenarioConfig, []) repeatedLaneScript).map
      (fun r => (r.1.pendingLoads, outstanding r.1)) = some (-1, 0) := by decide
  obtain ⟨⟨u, L⟩, hr, he⟩ := Option.map_eq_some'.mp h
  exact ⟨u, L, Run.of_replay _ .init hr, (Prod.mk.inj he).1, (Prod.mk.inj he).2⟩

end LsuCounter
