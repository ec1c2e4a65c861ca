import SkyboxSimx.SimxTypes
import Mathlib.Data.List.FinRange

/-!
# The ALU, FPU and SFU

`AluUnit::tick`, `FpuUnit::tick` and `SfuUnit::tick` of `func_unit.cpp` share one
lane loop: a lane with a trace at the front of its input runs the unit's body on
it and pops it. The ALU and FPU bodies push on the lane's own output with a
latency from a table, and only the ALU's resumes a fetch-stalled warp. The SFU
first drains what its raster, tex and om units return, then pushes, calls the
core's `wspawn` or `barrier`, or hands the trace to one of those units. What the
core answers to `wspawn` and `barrier` is an input of the tick, one answer per lane.
-/

namespace ExecUnits

open SimxTypes

variable {cfg : Config}

/-- What serving lane `iw` adds to the log: the body's events on its front trace, then the pop. -/
def laneEvents (body : Fin cfg.issueWidth → Trace → Option (List Event))
    (inputs : Fin cfg.issueWidth → List Trace) (iw : Fin cfg.issueWidth) : Option (List Event) :=
  match inputs iw with
  | [] => some []
  | trace :: _ => (body iw trace).map (· ++ [.pop iw trace])

/-- The loop `for (iw = 0; iw < ISSUE_WIDTH; ++iw)` over `lanes`: an empty lane is skipped, a
lane with a trace runs the body on its front and pops it; `none` where the body aborts. -/
def laneLoop (body : Fin cfg.issueWidth → Trace → Option (List Event)) :
    (Fin cfg.issueWidth → List Trace) → List (Fin cfg.issueWidth) →
      Option ((Fin cfg.issueWidth → List Trace) × List Event)
  | inputs, [] => some (inputs, [])
  | inputs, iw :: lanes =>
    match inputs iw with
    | [] => laneLoop body inputs lanes
    | trace :: rest =>
      (body iw trace).bind fun evs =>
        (laneLoop body (Function.update inputs iw rest) lanes).map fun r =>
          (r.1, evs ++ .pop iw trace :: r.2)

/-! ## The three units -/

/-- The latency `AluUnit::tick` pushes with, its `delay = 2` included. -/
def aluDelay (cfg : Config) : AluType → Nat
  | .arith | .branch | .syscall => 2 + 2
  | .imul => cfg.latencyImul + 2
  | .idiv => cfg.xlen + 2

/-- The lane body of `AluUnit::tick`: the push on the lane's output, and `core_->resume(wid)` at
the end of a fetch-stalling instruction. The `default: std::abort()` arm is dead: the switch
covers every `AluType`. -/
def AluUnit.serve (cfg : Config) (iw : Fin cfg.issueWidth) (trace : Trace) : List Event :=
  .push iw trace (aluDelay cfg trace.aluType) ::
    if trace.eop && trace.fetchStall then [.resume trace.wid] else []

/-- `AluUnit::tick` on the unit's input lanes. -/
def AluUnit.tick (cfg : Config) (inputs : Fin cfg.issueWidth → List Trace) :
    Option ((Fin cfg.issueWidth → List Trace) × List Event) :=
  laneLoop (fun iw trace => some (AluUnit.serve cfg iw trace)) inputs (List.finRange _)

/-- The latency `FpuUnit::tick` pushes with, its `delay = 2` included. -/
def fpuDelay (cfg : Config) : FpuType → Nat
  | .fncp => 2 + 2
  | .fma => cfg.latencyFma + 2
  | .fdiv => cfg.latencyFdiv + 2
  | .fsqrt => cfg.latencyFsqrt + 2
  | .fcvt => cfg.latencyFcvt + 2

/-- The lane body of `FpuUnit::tick`: the push on the lane's output. Unlike the ALU's, it has no
resume branch. -/
def FpuUnit.serve (cfg : Config) (iw : Fin cfg.issueWidth) (trace : Trace) : List Event :=
  [.push iw trace (fpuDelay cfg trace.fpuType)]

/-- `FpuUnit::tick` on the unit's input lanes. -/
def FpuUnit.tick (cfg : Config) (inputs : Fin cfg.issueWidth → List Trace) :
    Option ((Fin cfg.issueWidth → List Trace) × List Event) :=
  laneLoop (fun iw trace => some (FpuUnit.serve cfg iw trace)) inputs (List.finRange _)

/-- The members of `SfuUnit` a tick reads and writes. -/
structure SfuUnit (cfg : Config) where
  /-- `core_->id()`. -/
  coreId : Nat
  /-- The sizes of `raster_units_`, `tex_units_` and `om_units_`. -/
  numUnits : Coproc → Nat
  inputs : Fin cfg.issueWidth → List Trace
  /-- The ports of `pending_rsps_`: the `Output` of every raster unit, then of every tex unit,
  then of every om unit. -/
  pendingRsps : List (List Trace)

/-- The position in `pending_rsps_` of the `Output` port of unit `idx` of family `c`. -/
def portIndex (numUnits : Coproc → Nat) : Coproc → Nat → Nat
  | .raster, idx => idx
  | .tex, idx => numUnits .raster + idx
  | .om, idx => numUnits .raster + numUnits .tex + idx

/-- The constructor: one pending port per coprocessor unit, all empty. -/
def SfuUnit.new (cfg : Config) (coreId : Nat) (numUnits : Coproc → Nat) : SfuUnit cfg where
  coreId := coreId
  numUnits := numUnits
  inputs _ := []
  pendingRsps := List.replicate (numUnits .raster + numUnits .tex + numUnits .om) []

/-- The body of the pending-response loop for the port at position `p`: a front addressed to
this core is pushed on `Outputs.at(wid % ISSUE_WIDTH)` with delay 1 and popped; any other front
is left in place. -/
def drainPort (cfg : Config) (coreId p : Nat) : List Trace → List Trace × List Event
  | [] => ([], [])
  | trace :: rest =>
    if trace.cid ≠ coreId then (trace :: rest, [])
    else (rest, [.push (trace.wid % cfg.issueWidth) trace 1, .collect p trace])

/-- The loop over `pending_rsps_` from position `p` on. -/
def drainFrom (cfg : Config) (coreId : Nat) : Nat → List (List Trace) → List (List Trace) × List Event
  | _, [] => ([], [])
  | p, port :: ports =>
    let r := drainPort cfg coreId p port
    let rs := drainFrom cfg coreId (p + 1) ports
    (r.1 :: rs.1, r.2 ++ rs.2)

/-- The unit a coprocessor trace names in its payload: `raster_idx`, `tex_idx` or `om_idx`. A
payload of another kind fails its `dynamic_pointer_cast`. -/
def unitIndex : Coproc → TraceData → Option Nat
  | .raster, .raster idx => some idx
  | .tex, .tex idx => some idx
  | .om, .om idx => some idx
  | _, _ => none

namespace SfuUnit

/-- `raster_units_/tex_units_/om_units_.at(idx)->Input.push(trace, delay)`; `at` throws past
the last unit. -/
def forward (u : SfuUnit cfg) (c : Coproc) (trace : Trace) (delay : Nat) : Option Event :=
  (unitIndex c trace.data).bind fun idx =>
    if idx < u.numUnits c then some (.forward c idx trace delay) else none

/-- The lane body of `SfuUnit::tick`; `released` is what `core_->wspawn` or `core_->barrier`
returns if the trace calls one. A `WSPAWN` or `BAR` without an `SFUTraceData` payload
dereferences a null pointer, and `CMOV` reaches `default: std::abort()`. -/
def serve (u : SfuUnit cfg) (released : Bool) (iw : Fin cfg.issueWidth) (trace : Trace) :
    Option (List Event) :=
  let delay := 2
  let retire := fun releaseWarp : Bool =>
    if trace.eop && releaseWarp then [Event.resume trace.wid] else []
  match trace.sfuType with
  | .wspawn =>
    if trace.eop then
      match trace.data with
      | .sfu arg1 arg2 => some (.push iw trace (2 + delay) :: .wspawn arg1 arg2 :: retire released)
      | _ => none
    else some (.push iw trace (2 + delay) :: retire trace.fetchStall)
  | .tmc | .split | .join | .pred | .csrrw | .csrrs | .csrrc =>
    some (.push iw trace (2 + delay) :: retire trace.fetchStall)
  | .bar =>
    if trace.eop then
      match trace.data with
      | .sfu arg1 arg2 =>
        some (.push iw trace (2 + delay) :: .barrier arg1 arg2 trace.wid :: retire released)
      | _ => none
    else some (.push iw trace (2 + delay) :: retire trace.fetchStall)
  | .raster => (u.forward .raster trace delay).map (· :: retire trace.fetchStall)
  | .om => (u.forward .om trace delay).map (· :: retire trace.fetchStall)
  | .tex => (u.forward .tex trace delay).map (· :: retire trace.fetchStall)
  | .cmov => none

/-- `SfuUnit::tick`: drain the pending responses, then serve the lanes; `released iw` answers the
core call lane `iw` makes, if it makes one. -/
def tick (u : SfuUnit cfg) (released : Fin cfg.issueWidth → Bool) :
    Option (SfuUnit cfg × List Event) :=
  let drained := drainFrom cfg u.coreId 0 u.pendingRsps
  (laneLoop (fun iw => u.serve (released iw) iw) u.inputs (List.finRange _)).map fun r =>
    ({ u with inputs := r.1, pendingRsps := drained.1 }, drained.2 ++ r.2)

/-- The front end's `Inputs.at(iw).push(trace)`, once it is visible. -/
def enqueue (u : SfuUnit cfg) (iw : Fin cfg.issueWidth) (trace : Trace) : SfuUnit cfg :=
  { u with inputs := Function.update u.inputs iw (u.inputs iw ++ [trace]) }

end SfuUnit

/-! ## The lane loop -/

section LaneLoop

variable {body : Fin cfg.issueWidth → Trace → Option (List Event)}

theorem laneEvents_update {inputs : Fin cfg.issueWidth → List Trace} {iw j : Fin cfg.issueWidth}
    (xs : List Trace) (hne : j ≠ iw) :
    laneEvents body (Function.update inputs iw xs) j = laneEvents body inputs j := by
  simp only [laneEvents, Function.update_noteq hne]

/-- What the lane loop does: each lane of `lanes` loses its front, and the log is the lanes'
events in loop order. -/
theorem laneLoop_eq_some {inputs inputs' : Fin cfg.issueWidth → List Trace} {evs : List Event}
    {lanes : List (Fin cfg.issueWidth)} (nodup : lanes.Nodup)
    (h : laneLoop body inputs lanes = some (inputs', evs)) :
    (∀ iw, inputs' iw = if iw ∈ lanes then (inputs iw).tail else inputs iw) ∧
    (∀ iw ∈ lanes, (laneEvents body inputs iw).isSome) ∧
    evs = lanes.flatMap fun iw => (laneEvents body inputs iw).getD [] := by
  induction lanes generalizing inputs evs with
  | nil =>
    simp only [laneLoop, Option.some.injEq, Prod.mk.injEq] at h
    obtain ⟨rfl, rfl⟩ := h
    simp
  | cons iw lanes ih =>
    obtain ⟨hout, nodup⟩ := List.nodup_cons.mp nodup
    have frame : ∀ xs, ∀ j ∈ lanes, laneEvents body (Function.update inputs iw xs) j =
        laneEvents body inputs j := fun xs j hj => laneEvents_update xs fun he => hout (he ▸ hj)
    simp only [laneLoop] at h
    split at h
    · rename_i hnil
      obtain ⟨h₁, h₂, rfl⟩ := ih nodup h
      refine ⟨fun j => ?_, ?_, by simp [laneEvents, hnil]⟩
      · by_cases hj : j = iw
        · subst hj; simp [h₁, hout, hnil]
        · simp [h₁, hj]
      · simpa [laneEvents, hnil] using h₂
    · rename_i trace rest hcons
      obtain ⟨es, hb, h⟩ := Option.bind_eq_some.mp h
      obtain ⟨⟨inputs₁, evs₁⟩, hr, he⟩ := Option.map_eq_some'.mp h
      simp only [Prod.mk.injEq] at he
      obtain ⟨rfl, rfl⟩ := he
      obtain ⟨h₁, h₂, rfl⟩ := ih nodup hr
      refine ⟨fun j => ?_, ?_, ?_⟩
      · by_cases hj : j = iw
        · subst hj; simp [h₁, hout, hcons]
        · simp [h₁, hj]
      · simp only [List.mem_cons, forall_eq_or_imp]
        exact ⟨by simp [laneEvents, hcons, hb], fun j hj => frame rest j hj ▸ h₂ j hj⟩
      · rw [List.flatMap_congr fun j hj => by rw [frame rest j hj]]
        simp [laneEvents, hcons, hb]

/-- The lane loop goes through when every lane's body does. -/
theorem laneLoop_isSome {inputs : Fin cfg.issueWidth → List Trace}
    {lanes : List (Fin cfg.issueWidth)} (nodup : lanes.Nodup)
    (ok : ∀ iw ∈ lanes, (laneEvents body inputs iw).isSome) :
    (laneLoop body inputs lanes).isSome := by
  induction lanes generalizing inputs with
  | nil => rfl
  | cons iw lanes ih =>
    obtain ⟨hout, nodup⟩ := List.nodup_cons.mp nodup
    have rest_ok : ∀ xs, ∀ j ∈ lanes, (laneEvents body (Function.update inputs iw xs) j).isSome :=
      fun xs j hj => by
        rw [laneEvents_update xs fun (he : j = iw) => hout (he ▸ hj)]
        exact ok j (.tail _ hj)
    have here := ok iw (.head _)
    simp only [laneLoop]
    split
    · exact ih nodup fun j hj => ok j (.tail _ hj)
    · rename_i trace rest hcons
      simp only [laneEvents, hcons, Option.isSome_map'] at here
      obtain ⟨es, hb⟩ := Option.isSome_iff_exists.mp here
      simpa [hb] using @ih (Function.update inputs iw rest) nodup (rest_ok rest)

/-- The trace an event pushes on output lane `iw`. -/
def pushOn (iw : Nat) : Event → Option Trace
  | .push iw' trace _ => if iw' = iw then some trace else none
  | _ => none

/-- The trace an event pops from input lane `iw`. -/
def popOn (iw : Nat) : Event → Option Trace
  | .pop iw' trace => if iw' = iw then some trace else none
  | _ => none

/-- A lane body that never aborts, pushes its trace once on its own lane, and pops nothing. -/
def OwnLane (body : Fin cfg.issueWidth → Trace → Option (List Event)) : Prop :=
  ∀ iw trace, ∃ es, body iw trace = some es ∧ ∀ j : Nat,
    es.filterMap (pushOn j) = (if iw.val = j then [trace] else []) ∧ es.filterMap (popOn j) = []

theorem flatMap_single {α β : Type} [DecidableEq α] {a : α} (x : List β) :
    ∀ {l : List α}, l.Nodup → a ∈ l → l.flatMap (fun b => if b = a then x else []) = x
  | b :: l, nodup, ha => by
    obtain ⟨hb, nodup⟩ := List.nodup_cons.mp nodup
    by_cases hab : b = a
    · subst hab
      rw [List.flatMap_cons, if_pos rfl,
        List.flatMap_eq_nil_iff.mpr fun c hc => if_neg fun (h : c = b) => hb (h ▸ hc),
        List.append_nil]
    · simp [hab, flatMap_single x nodup (List.mem_of_ne_of_mem (Ne.symm hab) ha)]

/-- The log of a tick, filtered, is each lane's part of it filtered, in lane order. -/
theorem laneLoop_filterMap {α : Type} (f : Event → Option α) {inputs inputs' : Fin cfg.issueWidth → List Trace}
    {evs : List Event} (h : laneLoop body inputs (List.finRange _) = some (inputs', evs)) :
    evs.filterMap f =
      (List.finRange _).flatMap fun iw => ((laneEvents body inputs iw).getD []).filterMap f := by
  rw [(laneLoop_eq_some (List.nodup_finRange _) h).2.2, List.filterMap_flatMap]

/-- A tick of a lane loop whose body keeps to its lane: it never aborts, every lane loses its
front, and on each lane it pushes and pops exactly that front. -/
theorem laneLoop_own (own : OwnLane body) (inputs : Fin cfg.issueWidth → List Trace) :
    ∃ evs, laneLoop body inputs (List.finRange _) = some (fun iw => (inputs iw).tail, evs) ∧
      ∀ iw : Fin cfg.issueWidth, evs.filterMap (pushOn iw) = (inputs iw).head?.toList ∧
        evs.filterMap (popOn iw) = (inputs iw).head?.toList := by
  have lane : ∀ iw (j : Fin cfg.issueWidth),
      ((laneEvents body inputs iw).getD []).filterMap (pushOn j) =
        (if iw = j then (inputs iw).head?.toList else []) ∧
      ((laneEvents body inputs iw).getD []).filterMap (popOn j) =
        (if iw = j then (inputs iw).head?.toList else []) := by
    intro iw j
    unfold laneEvents
    split
    · rename_i hnil
      simp [hnil]
    · rename_i trace rest hcons
      obtain ⟨es, hb, hes⟩ := own iw trace
      by_cases hij : iw = j
      · subst hij
        simp [hb, hcons, (hes iw).1, (hes iw).2, List.filterMap_cons, popOn, pushOn]
      · simp [hb, (hes j).1, (hes j).2, List.filterMap_cons, popOn, pushOn, Fin.val_inj, hij]
  obtain ⟨⟨inputs', evs⟩, h⟩ := Option.isSome_iff_exists.mp (@laneLoop_isSome _ body inputs _
    (List.nodup_finRange _) fun iw _ => by
      unfold laneEvents
      split
      · rfl
      · obtain ⟨es, hb, -⟩ := own iw ‹_›
        simp [hb])
  obtain ⟨h₁, -, -⟩ := laneLoop_eq_some (List.nodup_finRange _) h
  have tails : inputs' = fun iw => (inputs iw).tail := funext fun iw => by simp [h₁]
  subst tails
  refine ⟨evs, h, fun j => ?_⟩
  rw [laneLoop_filterMap _ h, laneLoop_filterMap _ h,
    List.flatMap_congr fun iw _ => (lane iw j).1, List.flatMap_congr fun iw _ => (lane iw j).2]
  constructor <;>
  · rw [← flatMap_single ((inputs j).head?.toList) (List.nodup_finRange _) (List.mem_finRange j)]
    exact List.flatMap_congr fun iw _ => by by_cases h : iw = j <;> simp [h]

/-- Every event of a lane loop's log comes from serving the front of some lane. -/
theorem mem_laneLoop {inputs inputs' : Fin cfg.issueWidth → List Trace} {evs : List Event}
    (h : laneLoop body inputs (List.finRange _) = some (inputs', evs)) {e : Event} (he : e ∈ evs) :
    ∃ iw trace es, (inputs iw).head? = some trace ∧ body iw trace = some es ∧
      (e ∈ es ∨ e = .pop iw trace) := by
  rw [(laneLoop_eq_some (List.nodup_finRange _) h).2.2, List.mem_flatMap] at he
  obtain ⟨iw, -, he⟩ := he
  unfold laneEvents at he
  split at he
  · simp at he
  · rename_i trace rest hcons
    cases hb : body iw trace with
    | none => simp [hb] at he
    | some es => exact ⟨iw, trace, es, by simp [hcons], hb, by simpa [hb] using he⟩

/-- A lane with a trace at its front pops it. -/
theorem pop_mem_laneLoop {inputs inputs' : Fin cfg.issueWidth → List Trace} {evs : List Event}
    (h : laneLoop body inputs (List.finRange _) = some (inputs', evs)) {iw : Fin cfg.issueWidth}
    {trace : Trace} (hhead : (inputs iw).head? = some trace) : Event.pop iw trace ∈ evs := by
  obtain ⟨-, hsome, rfl⟩ := laneLoop_eq_some (List.nodup_finRange _) h
  have hlane := hsome iw (List.mem_finRange iw)
  refine List.mem_flatMap.mpr ⟨iw, List.mem_finRange iw, ?_⟩
  unfold laneEvents at hlane ⊢
  split at hlane
  · simp_all
  · rename_i t rest hcons
    obtain rfl : t = trace := by simpa [hcons] using hhead
    cases hb : body iw t <;> simp_all

end LaneLoop

end ExecUnits
