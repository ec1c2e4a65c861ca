import SkyboxSimx.ExecUnits

/-!
# Runs of the ALU and FPU

Both units keep to their lanes: a tick pops the front of every non-empty lane and
pushes it on the same lane's output, so along any run each lane's output is the
sequence the front end put on that lane, in order, and nothing stalls. The two
differ in the latency table and in the resume branch only the ALU has: the ALU
resumes exactly the warps of the fetch-stalling traces it pushes, the FPU none.
-/

namespace ExecRuns

open SimxTypes ExecUnits

variable {cfg : Config}

/-- The warp an event resumes. -/
def resumeOf : Event → Option Nat
  | .resume wid => some wid
  | _ => none

/-- The warp to resume when `trace` is pushed: the end of a fetch-stalling instruction. -/
def stallWid (trace : Trace) : Option Nat :=
  if trace.eop && trace.fetchStall then some trace.wid else none

/-- Runs of a unit whose state is its input lanes, from empty lanes: the front end enqueues or
the unit ticks. `entered iw` is what the front end put on lane `iw`, in order. -/
inductive LaneRun (tick : (Fin cfg.issueWidth → List Trace) →
      Option ((Fin cfg.issueWidth → List Trace) × List Event)) :
    (Fin cfg.issueWidth → List Trace) → (Fin cfg.issueWidth → List Trace) → List Event → Prop
  | init : LaneRun tick (fun _ => []) (fun _ => []) []
  | enqueue {entered inputs L} (iw : Fin cfg.issueWidth) (trace : Trace) :
      LaneRun tick entered inputs L →
      LaneRun tick (Function.update entered iw (entered iw ++ [trace]))
        (Function.update inputs iw (inputs iw ++ [trace])) L
  | tick {entered inputs L inputs' evs} : LaneRun tick entered inputs L →
      tick inputs = some (inputs', evs) → LaneRun tick entered inputs' (L ++ evs)

section OwnLane

variable {body : Fin cfg.issueWidth → Trace → Option (List Event)}

/-- The latency and resume behaviour of a lane body: each push has delay `delay` of its trace, and
the warps it resumes are `g` of the traces it pushes, in order. -/
structure Timed (body : Fin cfg.issueWidth → Trace → Option (List Event)) (delay : Trace → Nat)
    (g : Trace → Option Nat) : Prop where
  push_delay : ∀ iw trace es, body iw trace = some es →
    ∀ iw' t d, Event.push iw' t d ∈ es → d = delay t
  resumes : ∀ iw trace es, body iw trace = some es →
    es.filterMap resumeOf = (es.filterMap Event.pushed).filterMap g

/-- A tick of a timed lane loop pushes with the body's delays and resumes what the body would. -/
theorem laneLoop_timed {delay : Trace → Nat} {g : Trace → Option Nat} (timed : Timed body delay g)
    {inputs inputs' : Fin cfg.issueWidth → List Trace} {evs : List Event}
    (h : laneLoop body inputs (List.finRange _) = some (inputs', evs)) :
    (∀ iw t d, Event.push iw t d ∈ evs → d = delay t) ∧
      evs.filterMap resumeOf = (evs.filterMap Event.pushed).filterMap g := by
  refine ⟨fun iw t d he => ?_, ?_⟩
  · obtain ⟨iw', trace, es, -, hb, hin | heq⟩ := mem_laneLoop h he
    · exact timed.push_delay iw' trace es hb iw t d hin
    · cases heq
  · rw [List.filterMap_filterMap, laneLoop_filterMap _ h, laneLoop_filterMap _ h]
    refine List.flatMap_congr fun iw _ => ?_
    unfold laneEvents
    split
    · rfl
    · rename_i trace rest _
      cases hb : body iw trace with
      | none => rfl
      | some es =>
        simp [timed.resumes iw trace es hb, List.filterMap_filterMap, resumeOf, Event.pushed]

/-- Along a run of a unit whose body keeps to its lane, each lane pushes what it popped, and what
it popped followed by what it still holds is what entered it. -/
theorem own_lane_fifo (own : OwnLane body) {entered inputs : Fin cfg.issueWidth → List Trace}
    {L : List Event} (run : LaneRun (fun inputs => laneLoop body inputs (List.finRange _))
      entered inputs L) (iw : Fin cfg.issueWidth) :
    L.filterMap (popOn iw) = L.filterMap (pushOn iw) ∧
      L.filterMap (pushOn iw) ++ inputs iw = entered iw := by
  induction run with
  | init => simp
  | enqueue j trace _ ih =>
    by_cases hj : iw = j
    · subst hj; simp [← ih.2, ih.1]
    · simpa [Function.update_noteq hj] using ih
  | @tick entered inputs L inputs' evs _ h ih =>
    obtain ⟨evs₀, h₀, lanes⟩ := laneLoop_own own inputs
    rw [h₀, Option.some.injEq, Prod.mk.injEq] at h
    obtain ⟨rfl, rfl⟩ := h
    obtain ⟨hpush, hpop⟩ := lanes iw
    refine ⟨by simp [List.filterMap_append, ih.1, hpush, hpop], ?_⟩
    rw [List.filterMap_append, hpush, List.append_assoc, ← ih.2]
    cases h : inputs iw <;> simp [h]

/-- Everything a run of a timed unit that keeps to its lanes does: each lane's output is what
entered it, in order, less what it still holds; every push has its table delay; the warps
resumed are `g` of the traces pushed, in push order; and the next tick pops every lane. -/
theorem lane_run_spec {delay : Trace → Nat} {g : Trace → Option Nat} (own : OwnLane body)
    (timed : Timed body delay g) {entered inputs : Fin cfg.issueWidth → List Trace}
    {L : List Event} (run : LaneRun (fun inputs => laneLoop body inputs (List.finRange _))
      entered inputs L) :
    (∀ iw : Fin cfg.issueWidth, L.filterMap (pushOn iw) ++ inputs iw = entered iw ∧
      L.filterMap (popOn iw) = L.filterMap (pushOn iw)) ∧
    (∀ iw t d, Event.push iw t d ∈ L → d = delay t) ∧
    L.filterMap resumeOf = (L.filterMap Event.pushed).filterMap g ∧
    ∃ evs, laneLoop body inputs (List.finRange _) = some (fun iw => (inputs iw).tail, evs) := by
  have timing : (∀ iw t d, Event.push iw t d ∈ L → d = delay t) ∧
      L.filterMap resumeOf = (L.filterMap Event.pushed).filterMap g := by
    induction run with
    | init => simp
    | enqueue _ _ _ ih => exact ih
    | tick _ h ih =>
      obtain ⟨hd, hr⟩ := laneLoop_timed timed h
      refine ⟨fun iw t d he => ?_, by simp [List.filterMap_append, ih.2, hr]⟩
      rcases List.mem_append.mp he with he | he
      · exact ih.1 iw t d he
      · exact hd iw t d he
  exact ⟨fun iw => ⟨(own_lane_fifo own run iw).2, (own_lane_fifo own run iw).1⟩, timing.1, timing.2,
    (laneLoop_own own inputs).imp fun _ h => h.1⟩

end OwnLane

theorem aluServe_own :
    OwnLane fun (iw : Fin cfg.issueWidth) trace => some (AluUnit.serve cfg iw trace) :=
  fun iw trace => ⟨_, rfl, fun j => by
    unfold AluUnit.serve
    split <;> by_cases hj : iw.val = j <;> simp [List.filterMap_cons, pushOn, popOn, hj]⟩

theorem fpuServe_own :
    OwnLane fun (iw : Fin cfg.issueWidth) trace => some (FpuUnit.serve cfg iw trace) :=
  fun iw trace => ⟨_, rfl, fun j => by
    by_cases hj : iw.val = j <;> simp [FpuUnit.serve, List.filterMap_cons, pushOn, popOn, hj]⟩


theorem aluServe_timed :
    Timed (fun (iw : Fin cfg.issueWidth) trace => some (AluUnit.serve cfg iw trace))
      (fun t => aluDelay cfg t.aluType) stallWid where
  push_delay iw trace es h iw' t d he := by
    cases h
    unfold AluUnit.serve at he
    split at he <;> simp at he <;> obtain ⟨-, rfl, rfl⟩ := he <;> rfl
  resumes iw trace es h := by
    cases h
    unfold AluUnit.serve
    split <;> simp_all [List.filterMap_cons, resumeOf, Event.pushed, stallWid]

theorem fpuServe_timed :
    Timed (fun (iw : Fin cfg.issueWidth) trace => some (FpuUnit.serve cfg iw trace))
      (fun t => fpuDelay cfg t.fpuType) fun _ => none where
  push_delay iw trace es h iw' t d he := by
    cases h
    simp only [FpuUnit.serve, List.mem_singleton, Event.push.injEq] at he
    obtain ⟨-, rfl, rfl⟩ := he
    rfl
  resumes iw trace es h := by
    cases h
    simp [FpuUnit.serve, resumeOf, Event.pushed]

/-- `AluUnit::tick` along any run from empty lanes: each lane pushes exactly the traces that
entered it, in order, each popped as it is pushed; a trace's delay is its row of the latency
table; the warps resumed are those of the pushed traces that end a fetch-stalling instruction,
one resume per such push, in push order; and no lane ever stalls. -/
theorem alu_lane_discipline {entered inputs : Fin cfg.issueWidth → List Trace} {L : List Event}
    (run : LaneRun (AluUnit.tick cfg) entered inputs L) :
    (∀ iw : Fin cfg.issueWidth, L.filterMap (pushOn iw) ++ inputs iw = entered iw ∧
      L.filterMap (popOn iw) = L.filterMap (pushOn iw)) ∧
    (∀ iw t d, Event.push iw t d ∈ L → d = aluDelay cfg t.aluType) ∧
    L.filterMap resumeOf = (L.filterMap Event.pushed).filterMap stallWid ∧
    ∃ evs, AluUnit.tick cfg inputs = some (fun iw => (inputs iw).tail, evs) :=
  lane_run_spec aluServe_own aluServe_timed run

/-- A branch of warp 3 that stalled fetch and ends its instruction. -/
def stalledBranch : Trace where
  wid := 3
  fetchStall := true
  aluType := .branch

theorem alu_lane_discipline_stalled_branch :
    ∃ entered inputs L, LaneRun (AluUnit.tick scenarioConfig) entered inputs L ∧
      entered ⟨1, by decide⟩ = [stalledBranch] ∧ L.filterMap resumeOf = [3] := by
  have he : (AluUnit.tick scenarioConfig (Function.update (fun _ => []) ⟨1, by decide⟩
      ([] ++ [stalledBranch]))).map (·.2.filterMap Event.pushed) = some [stalledBranch] := by
    decide
  obtain ⟨⟨inputs, evs⟩, h, hpushed⟩ := Option.map_eq_some'.mp he
  have run := LaneRun.tick (LaneRun.enqueue ⟨1, by decide⟩ stalledBranch LaneRun.init) h
  refine ⟨_, _, _, run, rfl, ?_⟩
  rw [(alu_lane_discipline run).2.2.1, List.nil_append, hpushed]
  rfl

/-- `FpuUnit::tick` along any run from empty lanes: the same lane discipline as the ALU, with the
FPU's latency table, and no warp is ever resumed, whatever the pushed traces' `eop` and
`fetch_stall`. -/
theorem fpu_lane_discipline {entered inputs : Fin cfg.issueWidth → List Trace} {L : List Event}
    (run : LaneRun (FpuUnit.tick cfg) entered inputs L) :
    (∀ iw : Fin cfg.issueWidth, L.filterMap (pushOn iw) ++ inputs iw = entered iw ∧
      L.filterMap (popOn iw) = L.filterMap (pushOn iw)) ∧
    (∀ iw t d, Event.push iw t d ∈ L → d = fpuDelay cfg t.fpuType) ∧
    L.filterMap resumeOf = [] ∧
    ∃ evs, FpuUnit.tick cfg inputs = some (fun iw => (inputs iw).tail, evs) := by
  obtain ⟨lanes, delays, resumes, next⟩ := lane_run_spec fpuServe_own fpuServe_timed run
  exact ⟨lanes, delays, resumes.trans (List.filterMap_eq_nil_iff.mpr fun _ _ => rfl), next⟩

/-- A fused multiply-add of warp 2 marked as stalling fetch. -/
def stalledFma : Trace where
  wid := 2
  fetchStall := true
  fpuType := .fma

theorem fpu_lane_discipline_stalled_fma :
    ∃ entered inputs L, LaneRun (FpuUnit.tick scenarioConfig) entered inputs L ∧
      L.filterMap Event.pushed = [stalledFma] ∧ L.filterMap resumeOf = [] := by
  have he : (FpuUnit.tick scenarioConfig (Function.update (fun _ => []) ⟨0, by decide⟩
      ([] ++ [stalledFma]))).map (·.2.filterMap Event.pushed) = some [stalledFma] := by
    decide
  obtain ⟨⟨inputs, evs⟩, h, hpushed⟩ := Option.map_eq_some'.mp he
  have run := LaneRun.tick (LaneRun.enqueue ⟨0, by decide⟩ stalledFma LaneRun.init) h
  exact ⟨_, _, _, run, by simpa using hpushed, (fpu_lane_discipline run).2.2.1⟩

end ExecRuns
