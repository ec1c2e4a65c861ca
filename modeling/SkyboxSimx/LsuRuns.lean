import SkyboxSimx.LsuModel

/-!
# Runs of the load/store unit

A run starts from reset and interleaves the front end's enqueues with ticks.
The memory side is free in what it answers and when, under one promise per
response, given as a parameter `ok`: the spec's promise `RspOk` answers a parked
load with a non-empty mask inside the lanes it asked for. Invariants are proved
over the finer relation `Reachable`, which takes the steps of a tick one at a
time in any order; every state met inside a tick of a run is reachable.
-/

namespace LsuRuns

open SimxTypes PendingTable LsuModel

variable {cfg : Config}

/-- The memory side's promise for a response on a block: it answers a parked load, with a
non-empty mask inside the lanes that load requested. -/
def RspOk (cfg : Config) (state : LsuState) (rsp : LsuRsp) : Prop :=
  match state.pendingRdReqs.at rsp.slot with
  | some entry => rsp.mask.Nonempty ∧ rsp.mask ⊆ requestMask cfg.numLsuLanes entry.trace
  | none => False

instance (cfg : Config) (state : LsuState) (rsp : LsuRsp) : Decidable (RspOk cfg state rsp) :=
  match h : state.pendingRdReqs.at rsp.slot with
  | some entry =>
    decidable_of_iff (rsp.mask.Nonempty ∧ rsp.mask ⊆ requestMask cfg.numLsuLanes entry.trace)
      (by rw [RspOk, h])
  | none => isFalse (by rw [RspOk, h]; exact id)

theorem rspOk_iff {state : LsuState} {rsp : LsuRsp} :
    RspOk cfg state rsp ↔ ∃ entry, state.pendingRdReqs.at rsp.slot = some entry ∧
      rsp.mask.Nonempty ∧ rsp.mask ⊆ requestMask cfg.numLsuLanes entry.trace := by
  unfold RspOk
  split <;> simp_all

/-- The block whose state a step may change. -/
def stepBlock : LsuStep cfg → Option (Fin cfg.numLsuBlocks)
  | .latency => none
  | .absorb b _ => some b
  | .issue iw => some (blockOf cfg iw)

/-- Only response steps need the memory side's promise. -/
def Admissible (ok : LsuState → LsuRsp → Prop) (u : LsuUnit cfg) : LsuStep cfg → Prop
  | .absorb b rsp => ok (u.states b) rsp
  | _ => True

/-- The states and logs met along any interleaving of enqueues and unit steps from reset. -/
inductive Reachable (cfg : Config) (ok : LsuState → LsuRsp → Prop) :
    LsuUnit cfg → List Event → Prop
  | init : Reachable cfg ok (LsuUnit.init cfg) []
  | enqueue {u L} (iw : Fin cfg.issueWidth) (trace : Trace) :
      Reachable cfg ok u L → Reachable cfg ok (u.enqueue iw trace) L
  | step {u L s u' evs} : Reachable cfg ok u L → Admissible ok u s →
      u.step s = some (u', evs) → Reachable cfg ok u' (L ++ evs)

/-- Runs of whole ticks from reset, with the front of each block's response port chosen by
the memory side under its promise. -/
inductive Run (cfg : Config) (ok : LsuState → LsuRsp → Prop) : LsuUnit cfg → List Event → Prop
  | init : Run cfg ok (LsuUnit.init cfg) []
  | enqueue {u L} (iw : Fin cfg.issueWidth) (trace : Trace) :
      Run cfg ok u L → Run cfg ok (u.enqueue iw trace) L
  | tick {u L rsps u' evs} : Run cfg ok u L →
      (∀ b rsp, rsps b = some rsp → ok (u.states b) rsp) →
      u.tick rsps = some (u', evs) → Run cfg ok u' (L ++ evs)

namespace Reachable

variable {ok : LsuState → LsuRsp → Prop}

theorem issues {u u' : LsuUnit cfg} {L evs : List Event} (reach : Reachable cfg ok u L)
    (lanes : List (Fin cfg.issueWidth)) (h : u.steps (lanes.map .issue) = some (u', evs)) :
    Reachable cfg ok u' (L ++ evs) := by
  induction lanes generalizing u L evs with
  | nil => simp_all [LsuUnit.steps]
  | cons iw lanes ih =>
    obtain ⟨u₁, e₁, e₂, h₁, h₂, rfl⟩ := LsuUnit.steps_cons h
    simpa using ih (reach.step (by exact trivial) h₁) h₂

/-- The response steps of a tick, blocks in increasing order: each block is answered once, so
the promise made at the start of the tick still covers it when its turn comes. -/
theorem absorbs {u u' : LsuUnit cfg} {L evs : List Event} (reach : Reachable cfg ok u L)
    (rsps : Fin cfg.numLsuBlocks → Option LsuRsp) (blocks : List (Fin cfg.numLsuBlocks))
    (nodup : blocks.Nodup) (promise : ∀ b ∈ blocks, ∀ rsp, rsps b = some rsp → ok (u.states b) rsp)
    (h : u.steps (blocks.filterMap fun b => (rsps b).map (.absorb b)) = some (u', evs)) :
    Reachable cfg ok u' (L ++ evs) := by
  induction blocks generalizing u L evs with
  | nil => simp_all [LsuUnit.steps]
  | cons b blocks ih =>
    obtain ⟨hb, nodup⟩ := List.nodup_cons.mp nodup
    cases hr : rsps b with
    | none => exact ih reach nodup (fun b' hb' => promise b' (.tail _ hb')) (by simpa [hr] using h)
    | some rsp =>
      simp only [List.filterMap_cons, hr, Option.map_some'] at h
      obtain ⟨u₁, e₁, e₂, h₁, h₂, rfl⟩ := LsuUnit.steps_cons h
      have frame : ∀ b' ∈ blocks, u₁.states b' = u.states b' := fun b' hb' =>
        LsuUnit.absorb_states_ne h₁ (fun he => hb (he ▸ hb'))
      have next := reach.step (by exact promise b (.head _) rsp hr) h₁
      simpa using ih next nodup
        (fun b' hb' rsp' hr' => frame b' hb' ▸ promise b' (.tail _ hb') rsp' hr') h₂

/-- A tick from a reachable state, under the promise at its start, is a sequence of
admissible steps. -/
theorem tick {u u' : LsuUnit cfg} {L evs : List Event} (reach : Reachable cfg ok u L)
    {rsps : Fin cfg.numLsuBlocks → Option LsuRsp}
    (promise : ∀ b rsp, rsps b = some rsp → ok (u.states b) rsp)
    (h : u.tick rsps = some (u', evs)) : Reachable cfg ok u' (L ++ evs) := by
  obtain ⟨u₁, e₁, e₂, h₁, h₂, rfl⟩ := LsuUnit.steps_cons h
  obtain ⟨u₂, e₃, e₄, h₃, h₄, rfl⟩ := LsuUnit.steps_append h₂
  have r₁ := reach.step (by exact trivial) h₁
  simp only [LsuUnit.step, Option.some.injEq, Prod.mk.injEq] at h₁
  obtain ⟨rfl, rfl⟩ := h₁
  have r₂ := r₁.absorbs rsps _ (List.nodup_finRange _) (fun b _ rsp hr => promise b rsp hr) h₃
  simpa [List.append_assoc] using r₂.issues _ h₄

end Reachable

/-- One move of a scripted run: the front end enqueues, or the unit ticks. -/
inductive Action (cfg : Config)
  | enqueue (iw : Fin cfg.issueWidth) (trace : Trace)
  | tick (rsps : Fin cfg.numLsuBlocks → Option LsuRsp)

/-- Whether the promise covers every response at the front of a port. -/
def promised (ok : LsuState → LsuRsp → Prop) [∀ st rsp, Decidable (ok st rsp)] (u : LsuUnit cfg)
    (rsps : Fin cfg.numLsuBlocks → Option LsuRsp) : Bool :=
  (List.finRange cfg.numLsuBlocks).all fun b => (rsps b).all fun rsp => decide (ok (u.states b) rsp)

/-- Replays a script from a state and log; `none` if a tick fails or breaks the promise. -/
def replay (ok : LsuState → LsuRsp → Prop) [∀ st rsp, Decidable (ok st rsp)] :
    LsuUnit cfg × List Event → List (Action cfg) → Option (LsuUnit cfg × List Event)
  | r, [] => some r
  | (u, L), .enqueue iw t :: rest => replay ok (u.enqueue iw t, L) rest
  | (u, L), .tick rsps :: rest =>
    if promised ok u rsps then
      (u.tick rsps).bind fun r => replay ok (r.1, L ++ r.2) rest
    else none

theorem Run.of_replay {ok : LsuState → LsuRsp → Prop} [∀ st rsp, Decidable (ok st rsp)] :
    ∀ (script : List (Action cfg)) {u u' : LsuUnit cfg} {L L' : List Event},
      Run cfg ok u L → replay ok (u, L) script = some (u', L') → Run cfg ok u' L'
  | [], _, _, _, _, run, h => by cases h; exact run
  | .enqueue iw t :: rest, _, _, _, _, run, h => Run.of_replay rest (run.enqueue iw t) h
  | .tick rsps :: rest, u, _, L, _, run, h => by
    simp only [replay] at h
    split at h
    · rename_i hp
      obtain ⟨⟨u₁, evs⟩, ht, hr⟩ := Option.bind_eq_some.mp h
      refine Run.of_replay rest (run.tick (fun b rsp hb => ?_) ht) hr
      have hb' := List.all_eq_true.mp hp b (List.mem_finRange b)
      rw [hb] at hb'
      exact of_decide_eq_true hb'
    · cases h

/-- A load of lanes 0 and 1 of a warp's first partial issue. -/
def twoLaneLoad : Trace where
  uuid := 1
  tmask := 3
  lsuType := .load
  data := .lsu [⟨256, 4⟩, ⟨260, 4⟩]

theorem Run.reachable {ok : LsuState → LsuRsp → Prop} {u : LsuUnit cfg} {L : List Event}
    (run : Run cfg ok u L) : Reachable cfg ok u L := by
  induction run with
  | init => exact .init
  | enqueue iw trace _ ih => exact ih.enqueue iw trace
  | tick _ promise h ih => exact ih.tick promise h

end LsuRuns
