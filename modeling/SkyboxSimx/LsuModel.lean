import SkyboxSimx.SimxTypes
import SkyboxSimx.PendingTable
import Mathlib.Data.List.FinRange

/-!
# The load/store unit

`LsuUnit::tick` of `func_unit.cpp` as a fixed sequence of steps: charge
`load_latency`, absorb at most one response per block, then serve each issue
lane. A latched fence waits for its block's table to drain; a fence latches; a
store is sent and retired at once; a load is sent and parked in its block's
pending table until every lane it asked for is answered. Between ticks the
front end enqueues traces and the memory side answers parked loads.
-/

namespace LsuModel

open SimxTypes PendingTable

/-- `pending_req_t`: a parked load and its lanes not yet answered. -/
structure PendingReq where
  trace : Trace
  mask : Finset Nat
  deriving DecidableEq

instance : Inhabited PendingReq := ⟨⟨default, ∅⟩⟩

/-- `lsu_state_t`, one per LSU block; `fenceTrace = none` is `nullptr`. -/
structure LsuState where
  pendingRdReqs : HashTable PendingReq
  fenceLock : Bool
  fenceTrace : Option Trace

/-- Modelled from the spec: `lsu_state_t::clear` is declared in `func_unit.h`, which is not
among the sources. It empties the pending table and drops the fence latch. -/
def LsuState.clear (s : LsuState) : LsuState :=
  ⟨s.pendingRdReqs.clear, false, none⟩

/-- The counters of `core_->perf_stats_` the unit updates. -/
structure PerfStats where
  loadLatency : Int
  loads : Nat
  stores : Nat

/-- The members of `LsuUnit` and the input queues it owns. `pendingLoads` is an integer so
that an underflow of the unsigned counter shows as a negative value. -/
structure LsuUnit (cfg : Config) where
  states : Fin cfg.numLsuBlocks → LsuState
  pendingLoads : Int
  inputs : Fin cfg.issueWidth → List Trace
  perf : PerfStats

variable {cfg : Config}

/-- The block that serves issue lane `iw`: `iw % NUM_LSU_BLOCKS`. -/
def blockOf (cfg : Config) (iw : Fin cfg.issueWidth) : Fin cfg.numLsuBlocks :=
  ⟨iw.val % cfg.numLsuBlocks, Nat.mod_lt _ cfg.numLsuBlocks_pos⟩

/-- `tmask.test(pos)`: `std::bitset::test` throws past `MAX_NUM_THREADS`. -/
def threadTest (tmask pos : Nat) : Option Bool :=
  if pos < maxNumThreads then some (tmask.testBit pos) else none

/-- `trace_data->mem_addrs.at(pos).addr`; a failed `dynamic_pointer_cast` gives `none`. -/
def laneAddr (data : TraceData) (pos : Nat) : Option Nat :=
  match data with
  | .lsu memAddrs => memAddrs[pos]?.map (·.addr)
  | _ => none

/-- The lane loop that fills `lsu_req.mask` and `lsu_req.addrs` from `t0 = pid * NUM_LSU_LANES`. -/
def buildLanes (numLanes : Nat) (trace : Trace) : Option (Finset Nat × List Nat) :=
  (List.range numLanes).foldlM (fun acc i =>
    (threadTest trace.tmask (trace.pid * numLanes + i)).bind fun active =>
      if active then
        (laneAddr trace.data (trace.pid * numLanes + i)).map fun addr =>
          (insert i acc.1, acc.2.set i addr)
      else some acc) (∅, List.replicate numLanes 0)

/-- The lanes of a partial issue that are active: `tmask[pid * L + i]` for `i < L`. -/
def requestMask (numLanes : Nat) (trace : Trace) : Finset Nat :=
  (Finset.range numLanes).filter fun i => trace.tmask.testBit (trace.pid * numLanes + i)

theorem foldlM_lanes_mem (numLanes : Nat) (trace : Trace) :
    ∀ (lanes : List Nat) (acc r : Finset Nat × List Nat),
      lanes.foldlM (fun acc i =>
        (threadTest trace.tmask (trace.pid * numLanes + i)).bind fun active =>
          if active then
            (laneAddr trace.data (trace.pid * numLanes + i)).map fun addr =>
              (insert i acc.1, acc.2.set i addr)
          else some acc) acc = some r →
      ∀ i, i ∈ r.1 ↔ i ∈ acc.1 ∨ (i ∈ lanes ∧ trace.tmask.testBit (trace.pid * numLanes + i))
  | [], acc, r, h, i => by cases h; simp
  | j :: lanes, acc, r, h, i => by
    simp only [List.foldlM_cons, Option.bind_eq_bind, Option.bind_eq_some] at h
    obtain ⟨acc', hstep, hrest⟩ := h
    rw [foldlM_lanes_mem numLanes trace lanes acc' r hrest i]
    simp only [threadTest, Option.bind_eq_some] at hstep
    split at hstep
    · obtain ⟨active, hactive, hstep⟩ := hstep
      cases hactive
      split at hstep
      · obtain ⟨addr, -, rfl⟩ := Option.map_eq_some'.mp hstep
        by_cases hij : i = j
        · subst hij; simp_all
        · simp [hij]
      · cases hstep
        by_cases hij : i = j
        · subst hij; simp_all
        · simp [hij]
    · simp at hstep

/-- The mask `buildLanes` sends is the partial issue's active lanes. -/
theorem buildLanes_mask {numLanes : Nat} {trace : Trace} {mask : Finset Nat} {addrs : List Nat}
    (h : buildLanes numLanes trace = some (mask, addrs)) :
    mask = requestMask numLanes trace := by
  ext i
  simpa [requestMask] using foldlM_lanes_mem numLanes trace _ _ _ h i

namespace LsuUnit

/-- The unit after its constructor and `reset()`. -/
def init (cfg : Config) : LsuUnit cfg where
  states _ := (⟨HashTable.new cfg.lsuQueueSize, false, none⟩ : LsuState).clear
  pendingLoads := 0
  inputs _ := []
  perf := ⟨0, 0, 0⟩

/-- `LsuUnit::reset`. -/
def reset (u : LsuUnit cfg) : LsuUnit cfg :=
  { u with states := fun b => (u.states b).clear, pendingLoads := 0 }

/-- The front end's `Inputs.at(iw).push(trace)`, once it is visible. -/
def enqueue (u : LsuUnit cfg) (iw : Fin cfg.issueWidth) (trace : Trace) : LsuUnit cfg :=
  { u with inputs := Function.update u.inputs iw (u.inputs iw ++ [trace]) }

def setState (u : LsuUnit cfg) (b : Fin cfg.numLsuBlocks) (s : LsuState) : LsuUnit cfg :=
  { u with states := Function.update u.states b s }

/-- `input.pop()` on lane `iw`. -/
def pop (u : LsuUnit cfg) (iw : Fin cfg.issueWidth) : LsuUnit cfg :=
  { u with inputs := Function.update u.inputs iw (u.inputs iw).tail }

/-- The response loop body for block `b` with `rsp` at the front of its port. The table is
read and released at `rsp.slot`, the tag cut to the `uint32_t` that `at` and `release` take. -/
def absorb (u : LsuUnit cfg) (b : Fin cfg.numLsuBlocks) (rsp : LsuRsp) :
    Option (LsuUnit cfg × List Event) :=
  let state := u.states b
  match state.pendingRdReqs.at rsp.slot with
  | none => none
  | some entry =>
    if entry.mask = ∅ then none else
    let table := state.pendingRdReqs.write rsp.slot { entry with mask := entry.mask \ rsp.mask }
    let u' := { u with pendingLoads := u.pendingLoads - (rsp.mask.card : Int) }
    if entry.mask \ rsp.mask = ∅ then
      (table.release rsp.slot).map fun table =>
        (u'.setState b { state with pendingRdReqs := table },
          [.push (entry.trace.wid % cfg.issueWidth) entry.trace 1, .response b rsp])
    else some (u'.setState b { state with pendingRdReqs := table }, [.response b rsp])

/-- The lane loop body after the fence check: serve the front of `Inputs.at(iw)`. -/
def serve (u : LsuUnit cfg) (iw : Fin cfg.issueWidth) : Option (LsuUnit cfg × List Event) :=
  let b := blockOf cfg iw
  let state := u.states b
  match u.inputs iw with
  | [] => some (u, [])
  | trace :: _ =>
    match trace.lsuType with
    | .fence =>
      some ((u.pop iw).setState b { state with fenceTrace := some trace, fenceLock := true },
        [.pop iw trace])
    | .store =>
      (buildLanes cfg.numLsuLanes trace).map fun (mask, addrs) =>
        ({ u.pop iw with perf := { u.perf with stores := u.perf.stores + mask.card } },
          [.request b ⟨mask, addrs, true, 0, trace.cid, trace.uuid⟩, .push iw trace 1,
            .pop iw trace])
    | .load =>
      if state.pendingRdReqs.full then some (u, []) else
      (buildLanes cfg.numLsuLanes trace).bind fun (mask, addrs) =>
        (state.pendingRdReqs.allocate ⟨trace, mask⟩).map fun (tag, table) =>
          ({ (u.pop iw).setState b { state with pendingRdReqs := table } with
              pendingLoads := u.pendingLoads + (mask.card : Int),
              perf := { u.perf with loads := u.perf.loads + mask.card } },
            [.request b ⟨mask, addrs, false, tag, trace.cid, trace.uuid⟩, .pop iw trace])

/-- The lane loop body for lane `iw`. A null `fence_trace` would be pushed as a null pointer;
that is `none` here, and no run reaches it. -/
def issue (u : LsuUnit cfg) (iw : Fin cfg.issueWidth) : Option (LsuUnit cfg × List Event) :=
  let b := blockOf cfg iw
  let state := u.states b
  if state.fenceLock then
    if state.pendingRdReqs.empty then
      match state.fenceTrace with
      | none => none
      | some fence =>
        ((u.setState b { state with fenceLock := false }).serve iw).map fun r =>
          (r.1, .push iw fence 1 :: r.2)
    else some (u, [])
  else u.serve iw

end LsuUnit

/-- The steps a tick is made of. -/
inductive LsuStep (cfg : Config)
  | latency
  | absorb (b : Fin cfg.numLsuBlocks) (rsp : LsuRsp)
  | issue (iw : Fin cfg.issueWidth)

namespace LsuUnit

def step (u : LsuUnit cfg) : LsuStep cfg → Option (LsuUnit cfg × List Event)
  | .latency =>
    some ({ u with perf := { u.perf with loadLatency := u.perf.loadLatency + u.pendingLoads } }, [])
  | .absorb b rsp => u.absorb b rsp
  | .issue iw => u.issue iw

def steps : LsuUnit cfg → List (LsuStep cfg) → Option (LsuUnit cfg × List Event)
  | u, [] => some (u, [])
  | u, s :: ss => (u.step s).bind fun r => (r.1.steps ss).map fun r' => (r'.1, r.2 ++ r'.2)

end LsuUnit

/-- The steps of one tick, given the front of each block's response port. -/
def tickSteps (cfg : Config) (rsps : Fin cfg.numLsuBlocks → Option LsuRsp) : List (LsuStep cfg) :=
  .latency :: ((List.finRange cfg.numLsuBlocks).filterMap fun b => (rsps b).map (.absorb b)) ++
    (List.finRange cfg.issueWidth).map .issue

/-- `LsuUnit::tick`; `none` where the code throws, asserts or aborts. -/
def LsuUnit.tick (u : LsuUnit cfg) (rsps : Fin cfg.numLsuBlocks → Option LsuRsp) :
    Option (LsuUnit cfg × List Event) :=
  u.steps (tickSteps cfg rsps)

namespace LsuUnit

@[simp] theorem setState_states (u : LsuUnit cfg) (b : Fin cfg.numLsuBlocks) (s : LsuState)
    (b' : Fin cfg.numLsuBlocks) : (u.setState b s).states b' = if b' = b then s else u.states b' :=
  Function.update_apply _ _ _ _

@[simp] theorem setState_inputs (u : LsuUnit cfg) (b : Fin cfg.numLsuBlocks) (s : LsuState) :
    (u.setState b s).inputs = u.inputs := rfl

@[simp] theorem setState_pendingLoads (u : LsuUnit cfg) (b : Fin cfg.numLsuBlocks) (s : LsuState) :
    (u.setState b s).pendingLoads = u.pendingLoads := rfl

@[simp] theorem pop_states (u : LsuUnit cfg) (iw : Fin cfg.issueWidth) :
    (u.pop iw).states = u.states := rfl

@[simp] theorem pop_pendingLoads (u : LsuUnit cfg) (iw : Fin cfg.issueWidth) :
    (u.pop iw).pendingLoads = u.pendingLoads := rfl

@[simp] theorem enqueue_states (u : LsuUnit cfg) (iw : Fin cfg.issueWidth) (t : Trace) :
    (u.enqueue iw t).states = u.states := rfl

@[simp] theorem enqueue_pendingLoads (u : LsuUnit cfg) (iw : Fin cfg.issueWidth) (t : Trace) :
    (u.enqueue iw t).pendingLoads = u.pendingLoads := rfl

/-- Everything serving lane `iw` can do. -/
inductive Served (u : LsuUnit cfg) (iw : Fin cfg.issueWidth) : LsuUnit cfg → List Event → Prop
  | idle : u.inputs iw = [] → Served u iw u []
  | latch {trace rest} : u.inputs iw = trace :: rest → trace.lsuType = .fence →
      Served u iw ((u.pop iw).setState (blockOf cfg iw)
        { u.states (blockOf cfg iw) with fenceTrace := some trace, fenceLock := true })
        [.pop iw trace]
  | store {trace rest mask addrs} : u.inputs iw = trace :: rest → trace.lsuType = .store →
      buildLanes cfg.numLsuLanes trace = some (mask, addrs) →
      Served u iw { u.pop iw with perf := { u.perf with stores := u.perf.stores + mask.card } }
        [.request (blockOf cfg iw) ⟨mask, addrs, true, 0, trace.cid, trace.uuid⟩,
          .push iw trace 1, .pop iw trace]
  | stall {trace rest} : u.inputs iw = trace :: rest → trace.lsuType = .load →
      (u.states (blockOf cfg iw)).pendingRdReqs.full = true → Served u iw u []
  | load {trace rest mask addrs tag table} : u.inputs iw = trace :: rest →
      trace.lsuType = .load → (u.states (blockOf cfg iw)).pendingRdReqs.full = false →
      buildLanes cfg.numLsuLanes trace = some (mask, addrs) →
      (u.states (blockOf cfg iw)).pendingRdReqs.allocate ⟨trace, mask⟩ = some (tag, table) →
      Served u iw
        { (u.pop iw).setState (blockOf cfg iw)
            { u.states (blockOf cfg iw) with pendingRdReqs := table } with
          pendingLoads := u.pendingLoads + (mask.card : Int),
          perf := { u.perf with loads := u.perf.loads + mask.card } }
        [.request (blockOf cfg iw) ⟨mask, addrs, false, tag, trace.cid, trace.uuid⟩,
          .pop iw trace]

theorem served_of_serve {u u' : LsuUnit cfg} {iw : Fin cfg.issueWidth} {evs : List Event}
    (h : u.serve iw = some (u', evs)) : Served u iw u' evs := by
  unfold serve at h
  dsimp only at h
  split at h
  · cases h; exact .idle ‹_›
  · rename_i trace rest hin
    split at h
    · cases h; exact .latch hin ‹_›
    · obtain ⟨⟨mask, addrs⟩, hb, he⟩ := Option.map_eq_some'.mp h
      cases he; exact .store hin ‹_› hb
    · split at h
      · cases h; exact .stall hin ‹_› ‹_›
      · rename_i hfull
        obtain ⟨⟨mask, addrs⟩, hb, he⟩ := Option.bind_eq_some.mp h
        obtain ⟨⟨tag, table⟩, ha, he⟩ := Option.map_eq_some'.mp he
        cases he; exact .load hin ‹_› (by simpa using hfull) hb ha

/-- Everything the response step of block `b` can do. -/
inductive Absorbed (u : LsuUnit cfg) (b : Fin cfg.numLsuBlocks) (rsp : LsuRsp) :
    LsuUnit cfg → List Event → Prop
  | remaining {entry} : (u.states b).pendingRdReqs.at rsp.slot = some entry → entry.mask ≠ ∅ →
      entry.mask \ rsp.mask ≠ ∅ →
      Absorbed u b rsp
        ({ u with pendingLoads := u.pendingLoads - (rsp.mask.card : Int) }.setState b
          { u.states b with pendingRdReqs := ((u.states b).pendingRdReqs.write rsp.slot
              { entry with mask := entry.mask \ rsp.mask }) })
        [.response b rsp]
  | complete {entry table} : (u.states b).pendingRdReqs.at rsp.slot = some entry →
      entry.mask ≠ ∅ → entry.mask \ rsp.mask = ∅ →
      ((u.states b).pendingRdReqs.write rsp.slot { entry with mask := entry.mask \ rsp.mask }).release
        rsp.slot = some table →
      Absorbed u b rsp
        ({ u with pendingLoads := u.pendingLoads - (rsp.mask.card : Int) }.setState b
          { u.states b with pendingRdReqs := table })
        [.push (entry.trace.wid % cfg.issueWidth) entry.trace 1, .response b rsp]

theorem absorbed_of_absorb {u u' : LsuUnit cfg} {b : Fin cfg.numLsuBlocks} {rsp : LsuRsp}
    {evs : List Event} (h : u.absorb b rsp = some (u', evs)) : Absorbed u b rsp u' evs := by
  unfold absorb at h
  dsimp only at h
  split at h
  · cases h
  · rename_i entry hat
    split at h
    · cases h
    · split at h
      · obtain ⟨table, hr, he⟩ := Option.map_eq_some'.mp h
        cases he; exact .complete hat ‹_› ‹_› hr
      · cases h; exact .remaining hat ‹_› ‹_›

/-- Everything the lane step of lane `iw` can do. -/
inductive Issued (u : LsuUnit cfg) (iw : Fin cfg.issueWidth) : LsuUnit cfg → List Event → Prop
  | wait : (u.states (blockOf cfg iw)).fenceLock = true →
      (u.states (blockOf cfg iw)).pendingRdReqs.empty = false → Issued u iw u []
  | unlock {fence u' evs} : (u.states (blockOf cfg iw)).fenceLock = true →
      (u.states (blockOf cfg iw)).pendingRdReqs.empty = true →
      (u.states (blockOf cfg iw)).fenceTrace = some fence →
      Served (u.setState (blockOf cfg iw) { u.states (blockOf cfg iw) with fenceLock := false })
        iw u' evs →
      Issued u iw u' (.push iw fence 1 :: evs)
  | serve {u' evs} : (u.states (blockOf cfg iw)).fenceLock = false → Served u iw u' evs →
      Issued u iw u' evs

theorem issued_of_issue {u u' : LsuUnit cfg} {iw : Fin cfg.issueWidth} {evs : List Event}
    (h : u.issue iw = some (u', evs)) : Issued u iw u' evs := by
  unfold issue at h
  dsimp only at h
  split at h
  · split at h
    · split at h
      · cases h
      · obtain ⟨⟨u'', evs'⟩, hs, he⟩ := Option.map_eq_some'.mp h
        cases he; exact .unlock ‹_› ‹_› ‹_› (served_of_serve hs)
    · rename_i hempty
      cases h; exact .wait ‹_› (by simpa using hempty)
  · rename_i hlock
    exact .serve (by simpa using hlock) (served_of_serve h)


theorem steps_cons {u u'' : LsuUnit cfg} {s : LsuStep cfg} {ss : List (LsuStep cfg)}
    {evs : List Event} (h : u.steps (s :: ss) = some (u'', evs)) :
    ∃ u' e₁ e₂, u.step s = some (u', e₁) ∧ u'.steps ss = some (u'', e₂) ∧ evs = e₁ ++ e₂ := by
  simp only [LsuUnit.steps, Option.bind_eq_some, Option.map_eq_some'] at h
  obtain ⟨⟨u', e₁⟩, h₁, ⟨u₂, e₂⟩, h₂, he⟩ := h
  cases he
  exact ⟨u', e₁, e₂, h₁, h₂, rfl⟩

theorem steps_append {u u'' : LsuUnit cfg} {ss ss' : List (LsuStep cfg)} {evs : List Event}
    (h : u.steps (ss ++ ss') = some (u'', evs)) :
    ∃ u' e₁ e₂, u.steps ss = some (u', e₁) ∧ u'.steps ss' = some (u'', e₂) ∧ evs = e₁ ++ e₂ := by
  induction ss generalizing u evs with
  | nil => exact ⟨u, [], evs, rfl, h, rfl⟩
  | cons s ss ih =>
    obtain ⟨u₁, e₁, e₂, h₁, h₂, rfl⟩ := steps_cons h
    obtain ⟨u₂, e₃, e₄, h₃, h₄, rfl⟩ := ih h₂
    exact ⟨u₂, e₁ ++ e₃, e₄, by simp [LsuUnit.steps, h₁, h₃], h₄, by simp⟩

theorem absorb_states_ne {u u' : LsuUnit cfg} {b b' : Fin cfg.numLsuBlocks} {rsp : LsuRsp}
    {evs : List Event} (h : u.absorb b rsp = some (u', evs)) (hne : b' ≠ b) :
    u'.states b' = u.states b' := by
  cases absorbed_of_absorb h <;> simp [hne]

end LsuUnit

end LsuModel
