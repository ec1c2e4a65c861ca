import SkyboxSimx.LsuInvariant
import Mathlib.Algebra.BigOperators.Fin
import Mathlib.Tactic.Abel
import Mathlib.Data.Multiset.OrderedMonoid

/-!
# Conservation of traces in the load/store unit

Every trace the unit pops from an input lane is, at every later instant, either
pushed to an output port or held by the unit: a load parked in its block's
pending table, or a fence latched by its block. Each step keeps the balance
block by block, which gives the statement for whole runs; pushes carry no
block, so per block the balance is an inequality and over all blocks an equation.
-/

namespace LsuConservation

open SimxTypes PendingTable LsuModel LsuRuns LsuInvariant

variable {cfg : Config}

/-- The fence a block holds: the latched one while `fence_lock` is set. -/
def latched (st : LsuState) : Multiset Trace :=
  if st.fenceLock then ↑st.fenceTrace.toList else 0

/-- The traces a block holds: its parked loads and its latched fence. -/
def holding (st : LsuState) : Multiset Trace :=
  st.pendingRdReqs.held.map PendingReq.trace + latched st

/-- The traces the whole unit holds. -/
def totalHolding (u : LsuUnit cfg) : Multiset Trace :=
  ∑ b, holding (u.states b)

/-- The block of a lane given as a number. -/
def laneBlock (cfg : Config) (iw : Nat) : Fin cfg.numLsuBlocks :=
  ⟨iw % cfg.numLsuBlocks, Nat.mod_lt _ cfg.numLsuBlocks_pos⟩

/-- The trace an event pops from a lane of block `b`. -/
def poppedAt (cfg : Config) (b : Fin cfg.numLsuBlocks) : Event → Option Trace
  | .pop iw t => if laneBlock cfg iw = b then some t else none
  | _ => none

/-- Traces popped from the lanes of block `b` along a log. -/
def poppedOn (cfg : Config) (b : Fin cfg.numLsuBlocks) (log : List Event) : Multiset Trace :=
  ↑(log.filterMap (poppedAt cfg b))

@[simp] theorem poppedOn_nil (b : Fin cfg.numLsuBlocks) : poppedOn cfg b [] = 0 := rfl

@[simp] theorem poppedOn_append (b : Fin cfg.numLsuBlocks) (l l' : List Event) :
    poppedOn cfg b (l ++ l') = poppedOn cfg b l + poppedOn cfg b l' := by
  simp [poppedOn]

@[simp] theorem poppedOn_cons (b : Fin cfg.numLsuBlocks) (e : Event) (l : List Event) :
    poppedOn cfg b (e :: l) = ↑(poppedAt cfg b e).toList + poppedOn cfg b l := by
  cases h : poppedAt cfg b e <;> simp [poppedOn, List.filterMap_cons, h, ← Multiset.cons_coe,
    ← Multiset.singleton_add]

@[simp] theorem blockOf_eq_laneBlock (iw : Fin cfg.issueWidth) :
    laneBlock cfg iw.val = blockOf cfg iw := rfl

theorem sum_poppedOn (log : List Event) : ∑ b, poppedOn cfg b log = poppedOf log := by
  induction log with
  | nil => exact Finset.sum_const_zero
  | cons e log ih =>
    simp only [poppedOn_cons, Finset.sum_add_distrib, ih, poppedOf_cons]
    congr 1
    cases e <;> simp only [poppedAt, Event.popped, apply_ite, Option.toList_some,
      Option.toList_none, Multiset.coe_nil, Finset.sum_ite_eq, Finset.mem_univ, if_true,
      Finset.sum_const_zero]

@[simp] theorem latched_unlocked (st : LsuState) (h : st.fenceLock = false) : latched st = 0 := by
  simp [latched, h]

/-- Serving a lane whose block is not fence-locked keeps every block's balance; only the
served block's pushes count for it. -/
theorem served_balance {u u' : LsuUnit cfg} {iw : Fin cfg.issueWidth} {evs : List Event}
    (s : u.Served iw u' evs) (unlocked : (u.states (blockOf cfg iw)).fenceLock = false)
    (b : Fin cfg.numLsuBlocks) :
    holding (u.states b) + poppedOn cfg b evs =
      holding (u'.states b) + if blockOf cfg iw = b then pushedOf evs else 0 := by
  cases s with
  | idle _ => simp
  | latch _ _ =>
    by_cases hb : b = blockOf cfg iw
    · subst hb; simp [poppedAt, Event.pushed, holding, latched, unlocked]
    · simp [poppedAt, hb, Ne.symm hb]
  | store _ _ _ =>
    by_cases hb : b = blockOf cfg iw
    · subst hb; simp [poppedAt, Event.popped, Event.pushed, add_comm]
    · simp [poppedAt, Event.popped, Event.pushed, hb, Ne.symm hb]
  | stall _ _ _ => simp
  | load _ _ _ _ ha =>
    by_cases hb : b = blockOf cfg iw
    · subst hb
      simp [poppedAt, Event.pushed, holding, latched, HashTable.allocate_held ha, add_comm,
        add_left_comm]
    · simp [poppedAt, hb, Ne.symm hb]

theorem holding_of_locked {st : LsuState} {f : Trace} (locked : st.fenceLock = true)
    (hf : st.fenceTrace = some f) : holding st = holding { st with fenceLock := false } + {f} := by
  simp [holding, latched, hf, locked]

theorem issued_balance {u u' : LsuUnit cfg} {iw : Fin cfg.issueWidth} {evs : List Event}
    (s : u.Issued iw u' evs) (b : Fin cfg.numLsuBlocks) :
    holding (u.states b) + poppedOn cfg b evs =
      holding (u'.states b) + if blockOf cfg iw = b then pushedOf evs else 0 := by
  cases s with
  | wait _ _ => simp
  | unlock locked _ hf served =>
    have hs := served_balance served (by simp) b
    by_cases hb : b = blockOf cfg iw
    · subst hb
      simp only [LsuUnit.setState_states, if_true] at hs
      rw [holding_of_locked locked hf]
      simp only [poppedOn_cons, poppedAt, Option.toList_none, Multiset.coe_nil, zero_add,
        pushedOf_cons, Event.pushed, Option.toList_some, if_true, Multiset.coe_singleton] at hs ⊢
      rw [add_right_comm, hs]
      abel
    · simpa [hb, Ne.symm hb, poppedAt] using hs
  | serve unlocked served => exact served_balance served unlocked b

theorem absorbed_balance {u u' : LsuUnit cfg} {b : Fin cfg.numLsuBlocks} {rsp : LsuRsp}
    {evs : List Event} (s : u.Absorbed b rsp u' evs) (b' : Fin cfg.numLsuBlocks) :
    holding (u.states b') + poppedOn cfg b' evs =
      holding (u'.states b') + if b = b' then pushedOf evs else 0 := by
  by_cases hb : b' = b
  · subst hb
    cases s with
    | remaining hat _ _ =>
      have hsum := congrArg (Multiset.map PendingReq.trace)
        (HashTable.write_held hat { ‹PendingReq› with mask := ‹PendingReq›.mask \ rsp.mask })
      simp only [Multiset.map_add, Multiset.map_singleton, add_left_inj] at hsum
      simp [poppedAt, Event.pushed, holding, latched, hsum]
    | complete hat _ _ hrel =>
      simp [poppedAt, Event.pushed, holding, latched, HashTable.write_release_held hat hrel,
        add_comm, add_left_comm]
  · cases s <;> simp [hb, Ne.symm hb, poppedAt]

theorem step_balance {u u' : LsuUnit cfg} {s : LsuStep cfg} {evs : List Event}
    (h : u.step s = some (u', evs)) (b : Fin cfg.numLsuBlocks) :
    holding (u.states b) + poppedOn cfg b evs =
      holding (u'.states b) + if stepBlock s = some b then pushedOf evs else 0 := by
  cases s with
  | latency => cases h; simp [stepBlock]
  | absorb b₀ rsp => simpa [stepBlock] using absorbed_balance (LsuUnit.absorbed_of_absorb h) b
  | issue iw => simpa [stepBlock] using issued_balance (LsuUnit.issued_of_issue h) b

theorem sum_step_pushes {u u' : LsuUnit cfg} {s : LsuStep cfg} {evs : List Event}
    (h : u.step s = some (u', evs)) :
    (∑ b, if stepBlock s = some b then pushedOf evs else 0) = pushedOf evs := by
  cases s with
  | latency => cases h; simp only [stepBlock, reduceCtorEq, if_false, Finset.sum_const_zero]; rfl
  | absorb | issue => simp only [stepBlock, Option.some.injEq, Finset.sum_ite_eq, Finset.mem_univ,
      if_true]

@[simp] theorem init_holding (b : Fin cfg.numLsuBlocks) :
    holding ((LsuUnit.init cfg).states b) = 0 := by
  simp [holding, latched, LsuUnit.init, LsuState.clear]

/-- Conservation along every interleaving of steps: the pops equal the pushes plus what the
unit holds, and what a block's lanes popped is pushed or held by that block. -/
theorem reachable_conservation {ok : LsuState → LsuRsp → Prop} {u : LsuUnit cfg}
    {L : List Event} (reach : Reachable cfg ok u L) :
    poppedOf L = pushedOf L + totalHolding u ∧
      ∀ b, poppedOn cfg b L ≤ pushedOf L + holding (u.states b) := by
  induction reach with
  | init => simp [totalHolding]
  | enqueue iw trace _ ih => simpa [totalHolding] using ih
  | @step u L s u' evs _ _ h ih =>
    obtain ⟨global, perBlock⟩ := ih
    have balance := step_balance h
    refine ⟨?_, fun b => ?_⟩
    · have hsum := Finset.sum_congr rfl fun b (_ : b ∈ Finset.univ) => balance b
      rw [Finset.sum_add_distrib, Finset.sum_add_distrib, sum_poppedOn, sum_step_pushes h] at hsum
      simp only [totalHolding] at global ⊢
      rw [poppedOf_append, pushedOf_append, global, add_assoc, hsum]
      abel
    · have pushes : (if stepBlock s = some b then pushedOf evs else 0) ≤ pushedOf evs := by
        split
        · exact le_rfl
        · exact Multiset.zero_le _
      calc poppedOn cfg b (L ++ evs)
          ≤ pushedOf L + holding (u.states b) + poppedOn cfg b evs := by
            rw [poppedOn_append]
            exact add_le_add_right (perBlock b) _
        _ = pushedOf L + holding (u'.states b) +
              if stepBlock s = some b then pushedOf evs else 0 := by
            rw [add_assoc, balance b, add_assoc]
        _ ≤ pushedOf L + holding (u'.states b) + pushedOf evs := add_le_add_left pushes _
        _ = pushedOf (L ++ evs) + holding (u'.states b) := by
            rw [pushedOf_append]
            abel

/-- The loads among the traces pushed along a log. -/
def loadsPushed (log : List Event) : Multiset Trace :=
  (pushedOf log).filter (·.lsuType = .load)

/-- The stores among the traces popped along a log. -/
def storesPopped (log : List Event) : Multiset Trace :=
  (poppedOf log).filter (·.lsuType = .store)

/-- The parked load a response completes: the one it answers, if it covers the remaining lanes. -/
def completedBy (st : LsuState) (rsp : LsuRsp) : Multiset Trace :=
  match st.pendingRdReqs.at rsp.slot with
  | some e => if e.mask \ rsp.mask = ∅ then {e.trace} else 0
  | none => 0

/-- What one step contributes to the loads pushed. -/
def stepLoads (u : LsuUnit cfg) : LsuStep cfg → Multiset Trace
  | .absorb b rsp => completedBy (u.states b) rsp
  | _ => 0

theorem served_stores {u u' : LsuUnit cfg} {iw : Fin cfg.issueWidth} {evs : List Event}
    (s : u.Served iw u' evs) : storesPopped evs ≤ pushedOf evs := by
  cases s with
  | latch _ hfence => simp [storesPopped, Event.popped, Event.pushed, Multiset.filter_singleton, hfence]
  | store _ hstore _ => simp [storesPopped, Event.popped, Event.pushed, Multiset.filter_singleton, hstore]
  | load _ hload _ _ _ => simp [storesPopped, Event.popped, Event.pushed, Multiset.filter_singleton, hload]
  | _ => simp [storesPopped, Event.popped]

theorem step_stores {u u' : LsuUnit cfg} {s : LsuStep cfg} {evs : List Event}
    (h : u.step s = some (u', evs)) : storesPopped evs ≤ pushedOf evs := by
  cases s with
  | latency => cases h; simp [storesPopped]
  | absorb b rsp =>
    cases LsuUnit.absorbed_of_absorb h <;> simp [storesPopped, Event.popped, Event.pushed]
  | issue iw =>
    cases LsuUnit.issued_of_issue h with
    | wait _ _ => simp [storesPopped]
    | unlock _ _ _ served =>
      simpa [storesPopped, Event.popped, Event.pushed] using
        (served_stores served).trans (Multiset.le_cons_self _ _)
    | serve _ served => exact served_stores served

theorem steps_stores {u u' : LsuUnit cfg} {ss : List (LsuStep cfg)} {evs : List Event}
    (h : u.steps ss = some (u', evs)) : storesPopped evs ≤ pushedOf evs := by
  induction ss generalizing u evs with
  | nil => cases h; simp [storesPopped]
  | cons s ss ih =>
    obtain ⟨u₁, e₁, e₂, h₁, h₂, rfl⟩ := LsuUnit.steps_cons h
    simpa [storesPopped, Multiset.filter_add] using add_le_add (step_stores h₁) (ih h₂)

theorem served_loads {u u' : LsuUnit cfg} {iw : Fin cfg.issueWidth} {evs : List Event}
    (s : u.Served iw u' evs) : loadsPushed evs = 0 := by
  cases s with
  | store _ hstore _ => simp [loadsPushed, Event.pushed, Multiset.filter_singleton, hstore]
  | _ => simp [loadsPushed, Event.pushed]

theorem step_loads {u u' : LsuUnit cfg} {s : LsuStep cfg} {evs : List Event} (inv : Inv u)
    (h : u.step s = some (u', evs)) : loadsPushed evs = stepLoads u s := by
  cases s with
  | latency => cases h; simp [loadsPushed, stepLoads]
  | absorb b rsp =>
    cases LsuUnit.absorbed_of_absorb h with
    | remaining hat _ hrest => simp [loadsPushed, Event.pushed, stepLoads, completedBy, hat, hrest]
    | complete hat _ hdone _ =>
      have hload := ((inv b).slot _ (HashTable.mem_held_of_at hat)).1
      simp [loadsPushed, Event.pushed, Multiset.filter_singleton, stepLoads, completedBy, hat, hdone,
        hload]
  | issue iw =>
    cases LsuUnit.issued_of_issue h with
    | wait _ _ => simp [loadsPushed, stepLoads]
    | unlock locked _ hf served =>
      obtain ⟨f, hf', hfence⟩ := (inv (blockOf cfg iw)).latch locked
      obtain rfl := Option.some.inj (hf.symm.trans hf')
      have := served_loads served
      simp only [loadsPushed] at this
      simp [loadsPushed, Event.pushed, Multiset.filter_singleton, stepLoads, hfence, this]
    | serve _ served => simpa [stepLoads] using served_loads served

theorem steps_inv {u u' : LsuUnit cfg} {ss : List (LsuStep cfg)} {evs : List Event} (inv : Inv u)
    (h : u.steps ss = some (u', evs)) : Inv u' := by
  induction ss generalizing u evs with
  | nil => cases h; exact inv
  | cons s ss ih =>
    obtain ⟨u₁, e₁, e₂, h₁, h₂, rfl⟩ := LsuUnit.steps_cons h
    exact ih (step_inv inv h₁) h₂

theorem issues_loads {u u' : LsuUnit cfg} {evs : List Event} (inv : Inv u)
    (lanes : List (Fin cfg.issueWidth)) (h : u.steps (lanes.map .issue) = some (u', evs)) :
    loadsPushed evs = 0 := by
  induction lanes generalizing u evs with
  | nil => cases h; simp [loadsPushed]
  | cons iw lanes ih =>
    obtain ⟨u₁, e₁, e₂, h₁, h₂, rfl⟩ := LsuUnit.steps_cons h
    have h₀ := step_loads inv h₁
    simp only [loadsPushed, pushedOf_append, Multiset.filter_add] at h₀ ih ⊢
    rw [h₀, ih (step_inv inv h₁) h₂]
    rfl

theorem absorbs_loads {u u' : LsuUnit cfg} {evs : List Event} (inv : Inv u)
    (rsps : Fin cfg.numLsuBlocks → Option LsuRsp) (blocks : List (Fin cfg.numLsuBlocks))
    (nodup : blocks.Nodup)
    (h : u.steps (blocks.filterMap fun b => (rsps b).map (.absorb b)) = some (u', evs)) :
    loadsPushed evs = (blocks.map fun b => ((rsps b).map (completedBy (u.states b))).getD 0).sum := by
  induction blocks generalizing u evs with
  | nil => cases h; simp [loadsPushed]
  | cons b blocks ih =>
    obtain ⟨hb, nodup⟩ := List.nodup_cons.mp nodup
    cases hr : rsps b with
    | none => simpa [hr] using ih inv nodup (by simpa [hr] using h)
    | some rsp =>
      simp only [List.filterMap_cons, hr, Option.map_some'] at h
      obtain ⟨u₁, e₁, e₂, h₁, h₂, rfl⟩ := LsuUnit.steps_cons h
      have frame : ∀ b' ∈ blocks, u₁.states b' = u.states b' := fun b' hb' =>
        LsuUnit.absorb_states_ne h₁ (fun he => hb (he ▸ hb'))
      have h₀ := step_loads inv h₁
      simp only [loadsPushed, pushedOf_append, Multiset.filter_add] at h₀ ih ⊢
      rw [h₀, ih (step_inv inv h₁) nodup h₂, List.map_congr_left fun b' hb' => by rw [frame b' hb']]
      simp [stepLoads, hr]

/-- What one tick retires: every store it pops, and exactly the loads whose last lanes the
tick's responses answer. -/
theorem tick_retires {u u' : LsuUnit cfg} {rsps : Fin cfg.numLsuBlocks → Option LsuRsp}
    {evs : List Event} (inv : Inv u) (h : u.tick rsps = some (u', evs)) :
    storesPopped evs ≤ pushedOf evs ∧
      loadsPushed evs = ∑ b, ((rsps b).map (completedBy (u.states b))).getD 0 := by
  refine ⟨steps_stores h, ?_⟩
  obtain ⟨u₁, e₁, e₂, h₁, h₂, rfl⟩ := LsuUnit.steps_cons h
  obtain ⟨u₂, e₃, e₄, h₃, h₄, rfl⟩ := LsuUnit.steps_append h₂
  have hlat := step_loads inv h₁
  have inv₁ := step_inv inv h₁
  have habs := absorbs_loads inv₁ rsps _ (List.nodup_finRange _) h₃
  have hiss := issues_loads (steps_inv inv₁ h₃) _ h₄
  simp only [LsuUnit.step, Option.some.injEq, Prod.mk.injEq] at h₁
  obtain ⟨rfl, rfl⟩ := h₁
  simp only [loadsPushed, pushedOf_append, Multiset.filter_add] at hlat habs hiss ⊢
  rw [hlat, habs, hiss, Fin.sum_univ_def]
  simp [stepLoads]

/-- Trace conservation in the load/store unit, along every run of ticks from reset whatever
the memory side answers: the traces popped from the input lanes are those pushed to the
outputs plus those the unit holds, and a block's lanes popped nothing it neither pushed nor
holds; a held trace is a load parked in a pending table or a fence latched by a set
`fence_lock`; each tick pushes the stores it pops and exactly the loads its responses
complete. -/
theorem lsu_trace_conservation {ok : LsuState → LsuRsp → Prop} {u : LsuUnit cfg}
    {L : List Event} (run : Run cfg ok u L) :
    poppedOf L = pushedOf L + totalHolding u ∧
    (∀ b, poppedOn cfg b L ≤ pushedOf L + holding (u.states b)) ∧
    (∀ b, ∀ e ∈ (u.states b).pendingRdReqs.held, e.trace.lsuType = .load) ∧
    (∀ b, (u.states b).fenceLock = true →
      ∃ f, (u.states b).fenceTrace = some f ∧ f.lsuType = .fence) ∧
    ∀ rsps u' evs, u.tick rsps = some (u', evs) →
      storesPopped evs ≤ pushedOf evs ∧
      loadsPushed evs = ∑ b, ((rsps b).map (completedBy (u.states b))).getD 0 := by
  have reach := run.reachable
  have inv := reachable_inv reach
  obtain ⟨global, perBlock⟩ := reachable_conservation reach
  exact ⟨global, perBlock, fun b e he => ((inv b).slot e he).1, fun b => (inv b).latch,
    fun _ _ _ h => tick_retires inv h⟩

/-- The two-lane load is sent, then answered on lane 0 and on lane 1 in two responses. -/
def splitAnswerScript : List (Action scenarioConfig) :=
  [.enqueue ⟨0, by decide⟩ twoLaneLoad, .tick fun _ => none, .tick fun _ => some ⟨{0}, 0, 0, 0⟩,
    .tick fun _ => some ⟨{1}, 0, 0, 0⟩]

theorem lsu_trace_conservation_split_answer :
    ∃ u L, Run scenarioConfig (RspOk scenarioConfig) u L ∧ pushedOf L = {twoLaneLoad} ∧
      totalHolding u = 0 ∧ poppedOf L = pushedOf L + totalHolding u := by
  have h : (replay (RspOk scenarioConfig) (LsuUnit.init scenarioConfig, []) splitAnswerScript).map
      (fun r => (pushedOf r.2, totalHolding r.1)) = some ({twoLaneLoad}, 0) := by decide
  obtain ⟨⟨u, L⟩, hr, he⟩ := Option.map_eq_some'.mp h
  have run := Run.of_replay _ .init hr
  exact ⟨u, L, run, (Prod.mk.inj he).1, (Prod.mk.inj he).2, (lsu_trace_conservation run).1⟩

end LsuConservation
