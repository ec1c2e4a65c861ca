import SkyboxSimx.ExecRuns

/-!
# The SFU and its coprocessors

`SfuUnit::tick` with the raster, tex and om units it feeds. Those units are
not among the sources: a unit holds each trace it is handed and returns it, at
any time and in any order, on its `Output` port, which is one of the SFU's
`pending_rsps_`. Along every run, each trace the SFU pops is pushed on an
output, held by a unit, or waiting on a pending port. Only this SFU reads the
ports here; `SfuCluster` adds the SFUs of the other cores that share the units,
and a run here is a run of the cluster of one core.
-/

namespace SfuRuns

open SimxTypes ExecUnits ExecRuns

variable {cfg : Config}

/-- The unit family an `SfuType` hands its trace to. -/
def coprocOf : SfuType → Option Coproc
  | .raster => some .raster
  | .tex => some .tex
  | .om => some .om
  | _ => none

/-- A `WSPAWN` or `BAR` at the end of its instruction: it calls the core, and `release_warp` is
the core's answer. -/
def callsCore (trace : Trace) : Bool :=
  trace.eop && (trace.sfuType == .wspawn || trace.sfuType == .bar)

/-- The unit and trace an event hands to a coprocessor. -/
def handedOf : Event → Option (Coproc × Nat × Trace)
  | .forward c idx trace _ => some (c, idx, trace)
  | _ => none

/-- Everything the SFU lane body can do with the front `trace` of lane `iw`. -/
inductive Served (u : SfuUnit cfg) (released : Bool) (iw : Fin cfg.issueWidth) (trace : Trace) :
    List Event → Prop
  | retire : coprocOf trace.sfuType = none → trace.sfuType ≠ .cmov → callsCore trace = false →
      Served u released iw trace
        (.push iw trace 4 :: if trace.eop && trace.fetchStall then [.resume trace.wid] else [])
  | wspawn {arg1 arg2} : trace.sfuType = .wspawn → trace.eop = true →
      trace.data = .sfu arg1 arg2 →
      Served u released iw trace
        (.push iw trace 4 :: .wspawn arg1 arg2 :: if released then [.resume trace.wid] else [])
  | barrier {arg1 arg2} : trace.sfuType = .bar → trace.eop = true → trace.data = .sfu arg1 arg2 →
      Served u released iw trace (.push iw trace 4 :: .barrier arg1 arg2 trace.wid ::
        if released then [.resume trace.wid] else [])
  | forward {c idx} : coprocOf trace.sfuType = some c → unitIndex c trace.data = some idx →
      idx < u.numUnits c →
      Served u released iw trace
        (.forward c idx trace 2 :: if trace.eop && trace.fetchStall then [.resume trace.wid] else [])

theorem served_of_serve {u : SfuUnit cfg} {released : Bool} {iw : Fin cfg.issueWidth}
    {trace : Trace} {es : List Event} (h : u.serve released iw trace = some es) :
    Served u released iw trace es := by
  unfold SfuUnit.serve SfuUnit.forward at h
  cases ht : trace.sfuType <;> simp only [ht] at h
  case tmc | split | join | pred | csrrw | csrrs | csrrc =>
    cases h
    exact .retire (by simp [coprocOf, ht]) (by simp [ht]) (by simp [callsCore, ht])
  case wspawn | bar =>
    cases he : trace.eop <;> simp only [he, if_false, if_true, Bool.false_eq_true] at h
    · cases h
      simpa [he] using @Served.retire _ u released iw trace
        (by simp [coprocOf, ht]) (by simp [ht]) (by simp [callsCore, he])
    · split at h
      · cases h
        first
        | simpa [he] using @Served.wspawn _ u released iw trace _ _ ht he ‹_›
        | simpa [he] using @Served.barrier _ u released iw trace _ _ ht he ‹_›
      · cases h
  case raster | tex | om =>
    obtain ⟨e, he, rfl⟩ := Option.map_eq_some'.mp h
    obtain ⟨idx, hidx, he⟩ := Option.bind_eq_some.mp he
    split at he
    · cases he
      exact @Served.forward _ u released iw trace _ _ (by simp [coprocOf, ht]) hidx ‹_›
    · cases he
  case cmov => cases h

section Served

variable {u : SfuUnit cfg} {released : Bool} {iw : Fin cfg.issueWidth} {trace : Trace}
  {es : List Event}

/-- The lane body either pushes its trace or hands it to a unit, never both, and pops nothing. -/
theorem Served.balance (hs : Served u released iw trace es) :
    es.filterMap Event.popped = [] ∧
      es.filterMap Event.pushed ++ (es.filterMap handedOf).map (·.2.2) = [trace] := by
  cases hs <;> split <;> simp [Event.popped, Event.pushed, handedOf]

/-- A push of the lane body is its trace, on its own lane. -/
theorem Served.push_lane (hs : Served u released iw trace es) {iw' : Nat} {t : Trace} {d : Nat}
    (he : Event.push iw' t d ∈ es) : iw' = iw ∧ t = trace := by
  cases hs <;> split at he <;> simp at he <;> exact ⟨he.1, he.2.1⟩

/-- A unit the lane body hands its trace to exists. -/
theorem Served.handed_unit (hs : Served u released iw trace es) {j : Coproc × Nat × Trace}
    (hj : j ∈ es.filterMap handedOf) : j.2.1 < u.numUnits j.1 := by
  cases hs <;> split at hj <;> simp_all [handedOf]

end Served

/-- The lane body goes through unless the trace is a `CMOV`, a `WSPAWN` or `BAR` that calls the
core without an `SFUTraceData` payload, or a coprocessor op whose payload names no unit. -/
def Serviceable (u : SfuUnit cfg) (trace : Trace) : Prop :=
  trace.sfuType ≠ .cmov ∧ (callsCore trace = true → ∃ arg1 arg2, trace.data = .sfu arg1 arg2) ∧
    ∀ c, coprocOf trace.sfuType = some c → ∃ idx, unitIndex c trace.data = some idx ∧ idx < u.numUnits c

theorem serve_isSome_iff {u : SfuUnit cfg} {released : Bool} {iw : Fin cfg.issueWidth}
    {trace : Trace} : (u.serve released iw trace).isSome ↔ Serviceable u trace := by
  constructor
  · intro h
    obtain ⟨es, hes⟩ := Option.isSome_iff_exists.mp h
    cases served_of_serve hes with
    | retire hc hcmov hcall => exact ⟨hcmov, by simp [hcall], by simp [hc]⟩
    | wspawn ht _ hd => exact ⟨by simp [ht], fun _ => ⟨_, _, hd⟩, by simp [coprocOf, ht]⟩
    | barrier ht _ hd => exact ⟨by simp [ht], fun _ => ⟨_, _, hd⟩, by simp [coprocOf, ht]⟩
    | forward hc hidx hlt =>
      refine ⟨fun h => by simp [h, coprocOf] at hc, fun h => ?_, fun c hc' => ?_⟩
      · unfold coprocOf at hc; unfold callsCore at h
        split at hc <;> simp_all
      · rw [hc, Option.some.injEq] at hc'
        exact hc' ▸ ⟨_, hidx, hlt⟩
  · rintro ⟨hcmov, hcall, hcop⟩
    unfold SfuUnit.serve SfuUnit.forward
    cases ht : trace.sfuType <;> simp only [ht] at hcmov hcall hcop ⊢
    case wspawn | bar =>
      cases he : trace.eop
      · simp
      · obtain ⟨arg1, arg2, hd⟩ := hcall (by simp [callsCore, he, ht])
        simp [he, hd]
    case raster | tex | om =>
      obtain ⟨idx, hidx, hlt⟩ := hcop _ rfl
      simp [hidx, hlt]
    case cmov => exact absurd rfl hcmov
    all_goals rfl

/-! ## One tick -/

/-- The traces a log hands to coprocessor units. -/
def handedTraces (log : List Event) : Multiset Trace := ↑((log.filterMap handedOf).map (·.2.2))

@[simp] theorem handedTraces_nil : handedTraces [] = 0 := rfl

@[simp] theorem handedTraces_append (l l' : List Event) :
    handedTraces (l ++ l') = handedTraces l + handedTraces l' := by
  simp [handedTraces]

/-- What the pending-response loop does to the ports `ports`, leaving `ports'` and the log `evs`:
each event pushes a trace on the lane its `wid` names or pops a pending port, and the traces
pushed are those the ports lost. -/
structure Drained (cfg : Config) (ports ports' : List (List Trace)) (evs : List Event) : Prop where
  length : ports'.length = ports.length
  events : ∀ e ∈ evs, (∃ t, e = .push (t.wid % cfg.issueWidth) t 1) ∨ ∃ p t, e = .collect p t
  balance : (↑ports.flatten : Multiset Trace) = ↑ports'.flatten + pushedOf evs

theorem Drained.append {ps ps' qs qs' : List (List Trace)} {e f : List Event}
    (hp : Drained cfg ps ps' e) (hq : Drained cfg qs qs' f) :
    Drained cfg (ps ++ qs) (ps' ++ qs') (e ++ f) where
  length := by simp [hp.length, hq.length]
  events x hx := (List.mem_append.mp hx).elim (hp.events x) (hq.events x)
  balance := by
    simp only [List.flatten_append, ← Multiset.coe_add, hp.balance, hq.balance, pushedOf_append]
    exact add_add_add_comm _ _ _ _

theorem drainFrom_drained (coreId : Nat) :
    ∀ (p : Nat) (ports : List (List Trace)),
      Drained cfg ports (drainFrom cfg coreId p ports).1 (drainFrom cfg coreId p ports).2
  | _, [] => ⟨rfl, by simp [drainFrom], by simp [drainFrom]⟩
  | p, port :: ports => by
    have hport : Drained cfg [port] [(drainPort cfg coreId p port).1] (drainPort cfg coreId p port).2 := by
      unfold drainPort
      split
      · exact ⟨rfl, by simp, by simp⟩
      · split
        · exact ⟨rfl, by simp, by simp⟩
        · refine ⟨rfl, by simp, ?_⟩
          simp [Event.pushed, ← Multiset.cons_coe, ← Multiset.singleton_add, add_comm]
    exact hport.append (drainFrom_drained coreId (p + 1) ports)

/-- A tick drains the pending ports, then runs the lane loop; the wiring is unchanged. -/
theorem tick_eq_some {u u' : SfuUnit cfg} {released : Fin cfg.issueWidth → Bool}
    {evs : List Event} (h : u.tick released = some (u', evs)) :
    ∃ evsD evsL, Drained cfg u.pendingRsps u'.pendingRsps evsD ∧
      laneLoop (fun iw => u.serve (released iw) iw) u.inputs (List.finRange _) =
        some (u'.inputs, evsL) ∧
      evs = evsD ++ evsL ∧ u'.coreId = u.coreId ∧ u'.numUnits = u.numUnits := by
  obtain ⟨⟨inputs', evsL⟩, hl, he⟩ := Option.map_eq_some'.mp h
  cases he
  exact ⟨_, _, drainFrom_drained u.coreId 0 u.pendingRsps, hl, rfl, rfl, rfl⟩

section Lanes

variable {u : SfuUnit cfg} {released : Fin cfg.issueWidth → Bool}
  {inputs inputs' : Fin cfg.issueWidth → List Trace} {evs : List Event}

/-- Every event of the lane loop comes from a lane body or is its pop. -/
theorem mem_lanes (h : laneLoop (fun iw => u.serve (released iw) iw) inputs (List.finRange _) =
      some (inputs', evs)) {e : Event} (he : e ∈ evs) :
    ∃ iw trace es, (inputs iw).head? = some trace ∧ Served u (released iw) iw trace es ∧
      (e ∈ es ∨ e = .pop iw trace) := by
  obtain ⟨iw, trace, es, hhead, hb, hin⟩ := mem_laneLoop h he
  exact ⟨iw, trace, es, hhead, served_of_serve hb, hin⟩

/-- Serving one lane pops its front and pushes it or hands it to a unit. -/
theorem lane_balance {iw : Fin cfg.issueWidth}
    (hlane : (laneEvents (fun iw => u.serve (released iw) iw) inputs iw).isSome) :
    poppedOf ((laneEvents (fun iw => u.serve (released iw) iw) inputs iw).getD []) =
      pushedOf ((laneEvents (fun iw => u.serve (released iw) iw) inputs iw).getD []) +
        handedTraces ((laneEvents (fun iw => u.serve (released iw) iw) inputs iw).getD []) := by
  unfold laneEvents at hlane ⊢
  split
  · simp
  · rename_i trace rest _
    dsimp only at hlane ⊢
    cases hb : u.serve (released iw) iw trace with
    | none => simp_all
    | some es =>
      obtain ⟨hpop, hrest⟩ := (served_of_serve hb).balance
      have hsplit : pushedOf es + handedTraces es = {trace} := by
        simpa [pushedOf, handedTraces] using
          congrArg (fun l : List Trace => (l : Multiset Trace)) hrest
      simp [poppedOf, hpop, Event.popped, Event.pushed, handedOf, ← hsplit, pushedOf,
        handedTraces]

/-- In the lane loop every popped trace is pushed or handed to a unit. -/
theorem lanes_balance (h : laneLoop (fun iw => u.serve (released iw) iw) inputs
      (List.finRange _) = some (inputs', evs)) :
    poppedOf evs = pushedOf evs + handedTraces evs := by
  obtain ⟨-, hsome, rfl⟩ := laneLoop_eq_some (List.nodup_finRange _) h
  clear h
  generalize List.finRange cfg.issueWidth = lanes at hsome ⊢
  induction lanes with
  | nil => simp
  | cons iw lanes ih =>
    simp only [List.flatMap_cons, poppedOf_append, pushedOf_append, handedTraces_append]
    rw [ih fun j hj => hsome j (.tail _ hj), lane_balance (hsome iw (.head _))]
    exact add_add_add_comm _ _ _ _

end Lanes

section Tick

variable {u u' : SfuUnit cfg} {released : Fin cfg.issueWidth → Bool} {evs : List Event}

/-- Drain events push on the lane the trace's `wid` names, or pop a pending port. -/
theorem Drained.filterMap_eq_nil {ports ports' : List (List Trace)} {evsD : List Event}
    (hd : Drained cfg ports ports' evsD) {α : Type} {f : Event → Option α}
    (hpush : ∀ iw t d, f (.push iw t d) = none) (hcollect : ∀ p t, f (.collect p t) = none) :
    evsD.filterMap f = [] :=
  List.filterMap_eq_nil_iff.mpr fun e he => by
    rcases hd.events e he with ⟨t, rfl⟩ | ⟨p, t, rfl⟩
    · exact hpush _ _ _
    · exact hcollect _ _

/-- A tick's balance: what it pops and what the pending ports held is what it pushes, what it
hands to units, and what the ports still hold. -/
theorem tick_balance (h : u.tick released = some (u', evs)) :
    poppedOf evs + ↑u.pendingRsps.flatten =
      pushedOf evs + handedTraces evs + ↑u'.pendingRsps.flatten := by
  obtain ⟨evsD, evsL, hd, hl, rfl, -, -⟩ := tick_eq_some h
  have hpop : poppedOf evsD = 0 := by
    simp [poppedOf, hd.filterMap_eq_nil (f := Event.popped) (fun _ _ _ => rfl) fun _ _ => rfl]
  have hhand : handedTraces evsD = 0 := by
    simp [handedTraces, hd.filterMap_eq_nil (f := handedOf) (fun _ _ _ => rfl) fun _ _ => rfl]
  rw [poppedOf_append, pushedOf_append, handedTraces_append, hpop, hhand, lanes_balance hl,
    hd.balance, zero_add, zero_add]
  ac_rfl

/-- A tick pushes a trace on the lane its `wid` names, or on the lane it pops it from. -/
theorem tick_push_lane (h : u.tick released = some (u', evs)) {iw : Nat} {t : Trace} {d : Nat}
    (he : Event.push iw t d ∈ evs) : iw = t.wid % cfg.issueWidth ∨ Event.pop iw t ∈ evs := by
  obtain ⟨evsD, evsL, hd, hl, rfl, -, -⟩ := tick_eq_some h
  rcases List.mem_append.mp he with he | he
  · rcases hd.events _ he with ⟨t', ht'⟩ | ⟨p, t', ht'⟩
    · simp only [Event.push.injEq] at ht'
      exact .inl (ht'.2.1 ▸ ht'.1)
    · cases ht'
  · obtain ⟨lane, trace, es, hhead, hs, hin | hpop⟩ := mem_lanes hl he
    · obtain ⟨rfl, rfl⟩ := hs.push_lane hin
      exact .inr (List.mem_append_right _ (pop_mem_laneLoop hl hhead))
    · cases hpop

/-- Every unit a tick hands a trace to exists. -/
theorem tick_handed_unit (h : u.tick released = some (u', evs)) {j : Coproc × Nat × Trace}
    (hj : j ∈ evs.filterMap handedOf) : j.2.1 < u.numUnits j.1 := by
  obtain ⟨evsD, evsL, hd, hl, rfl, -, -⟩ := tick_eq_some h
  obtain ⟨e, he, hej⟩ := List.mem_filterMap.mp hj
  rcases List.mem_append.mp he with he | he
  · rcases hd.events _ he with ⟨t, rfl⟩ | ⟨p, t, rfl⟩ <;> cases hej
  · obtain ⟨lane, trace, es, -, hs, hin | rfl⟩ := mem_lanes hl he
    · exact hs.handed_unit (List.mem_filterMap.mpr ⟨e, hin, hej⟩)
    · cases hej

end Tick

/-! ## Runs with the coprocessors -/

/-- The SFU with its raster, tex and om units: a job is a trace handed to unit `(c, idx)` and
not yet returned, and a unit returns its jobs in any order. -/
structure SfuSystem (cfg : Config) where
  sfu : SfuUnit cfg
  jobs : Multiset (Coproc × Nat × Trace)

namespace SfuSystem

/-- Unit `(c, idx)` returns `trace` on its `Output` port. -/
def complete (s : SfuSystem cfg) (c : Coproc) (idx : Nat) (trace : Trace) : SfuSystem cfg :=
  ⟨{ s.sfu with pendingRsps :=
      s.sfu.pendingRsps.modify (· ++ [trace]) (portIndex s.sfu.numUnits c idx) },
    s.jobs.erase (c, idx, trace)⟩

/-- The traces the units hold, and those they returned that the SFU has not collected. -/
def inFlight (s : SfuSystem cfg) : Multiset Trace :=
  s.jobs.map (·.2.2) + ↑s.sfu.pendingRsps.flatten

end SfuSystem

/-- Runs of the SFU and its units from the constructor: the front end enqueues, the SFU ticks
with any answers from the core, or a unit returns one of its jobs. -/
inductive SfuRun (cfg : Config) (coreId : Nat) (numUnits : Coproc → Nat) :
    SfuSystem cfg → List Event → Prop
  | init : SfuRun cfg coreId numUnits ⟨SfuUnit.new cfg coreId numUnits, 0⟩ []
  | enqueue {s L} (iw : Fin cfg.issueWidth) (trace : Trace) : SfuRun cfg coreId numUnits s L →
      SfuRun cfg coreId numUnits ⟨s.sfu.enqueue iw trace, s.jobs⟩ L
  | tick {s L u' evs} (released : Fin cfg.issueWidth → Bool) : SfuRun cfg coreId numUnits s L →
      s.sfu.tick released = some (u', evs) →
      SfuRun cfg coreId numUnits ⟨u', s.jobs + ↑(evs.filterMap handedOf)⟩ (L ++ evs)
  | complete {s L c idx trace} : SfuRun cfg coreId numUnits s L → (c, idx, trace) ∈ s.jobs →
      SfuRun cfg coreId numUnits (s.complete c idx trace) L

/-- The wiring the constructor fixes, and every job at an existing unit. -/
structure Wired (coreId : Nat) (numUnits : Coproc → Nat) (s : SfuSystem cfg) : Prop where
  core : s.sfu.coreId = coreId
  units : s.sfu.numUnits = numUnits
  ports : s.sfu.pendingRsps.length = numUnits .raster + numUnits .tex + numUnits .om
  jobs : ∀ j ∈ s.jobs, j.2.1 < numUnits j.1

theorem portIndex_lt {numUnits : Coproc → Nat} {c : Coproc} {idx : Nat} (h : idx < numUnits c) :
    portIndex numUnits c idx < numUnits .raster + numUnits .tex + numUnits .om := by
  cases c <;> simp only [portIndex] <;> omega

theorem flatten_modify_append (t : Trace) :
    ∀ (ports : List (List Trace)) (i : Nat), i < ports.length →
      (↑(ports.modify (· ++ [t]) i).flatten : Multiset Trace) = ↑ports.flatten + {t}
  | port :: ports, 0, _ => by
    simp only [List.modify_zero_cons, List.flatten_cons, ← Multiset.coe_add,
      Multiset.coe_singleton]
    exact add_right_comm _ _ _
  | port :: ports, i + 1, h => by
    rw [List.modify_succ_cons, List.flatten_cons, List.flatten_cons, ← Multiset.coe_add,
      flatten_modify_append t ports i (by simpa using h), ← Multiset.coe_add, add_assoc]

/-- The wiring the constructor fixes holds along every run, and every job sits at a unit that
exists. -/
theorem SfuRun.wired {coreId : Nat} {numUnits : Coproc → Nat} {s : SfuSystem cfg}
    {L : List Event} (run : SfuRun cfg coreId numUnits s L) : Wired coreId numUnits s := by
  induction run with
  | init => exact ⟨rfl, rfl, by simp [SfuUnit.new], by simp⟩
  | enqueue iw trace _ ih => exact ⟨ih.core, ih.units, ih.ports, ih.jobs⟩
  | tick released _ h ih =>
    obtain ⟨evsD, evsL, hd, -, -, hcore, hunits⟩ := tick_eq_some h
    refine ⟨hcore.trans ih.core, hunits.trans ih.units, hd.length.trans ih.ports,
      fun j hj => ?_⟩
    rcases Multiset.mem_add.mp hj with hj | hj
    · exact ih.jobs j hj
    · exact ih.units ▸ tick_handed_unit h (Multiset.mem_coe.mp hj)
  | complete _ _ ih =>
    exact ⟨ih.core, ih.units, by simp [SfuSystem.complete, ih.ports],
      fun j hj' => ih.jobs j (Multiset.mem_of_mem_erase hj')⟩

/-- A tick's balance over what is in flight: what it pops, with the jobs and ports before it, is
what it pushes, with the jobs and ports after it. -/
theorem tick_inFlight {u u' : SfuUnit cfg} {released : Fin cfg.issueWidth → Bool}
    {evs : List Event} (h : u.tick released = some (u', evs))
    (jobs : Multiset (Coproc × Nat × Trace)) :
    poppedOf evs + (jobs.map (·.2.2) + ↑u.pendingRsps.flatten) =
      pushedOf evs + ((jobs + ↑(evs.filterMap handedOf)).map (·.2.2) + ↑u'.pendingRsps.flatten) := by
  calc poppedOf evs + (jobs.map (·.2.2) + ↑u.pendingRsps.flatten)
      = jobs.map (·.2.2) + (poppedOf evs + ↑u.pendingRsps.flatten) := by ac_rfl
    _ = _ := by
      rw [tick_balance h, Multiset.map_add, Multiset.map_coe, handedTraces]
      ac_rfl

/-- A unit returning a job moves its trace from the jobs to its port. -/
theorem complete_inFlight {ports : List (List Trace)} {jobs : Multiset (Coproc × Nat × Trace)}
    {c : Coproc} {idx i : Nat} {trace : Trace} (hlt : i < ports.length) (hj : (c, idx, trace) ∈ jobs) :
    (jobs.erase (c, idx, trace)).map (·.2.2) + ↑(ports.modify (· ++ [trace]) i).flatten =
      jobs.map (·.2.2) + ↑ports.flatten := by
  rw [flatten_modify_append trace _ _ hlt]
  conv_rhs => rw [← Multiset.cons_erase hj, Multiset.map_cons, ← Multiset.singleton_add]
  ac_rfl

/-- The traces popped along a run are those pushed plus those in flight. -/
theorem SfuRun.conserved {coreId : Nat} {numUnits : Coproc → Nat} {s : SfuSystem cfg}
    {L : List Event} (run : SfuRun cfg coreId numUnits s L) :
    poppedOf L = pushedOf L + s.inFlight := by
  induction run with
  | init => simp [SfuSystem.inFlight, SfuUnit.new]
  | enqueue iw trace _ ih => exact ih
  | @tick s L u' evs released _ h ih =>
    rw [poppedOf_append, pushedOf_append, ih, add_assoc, add_comm _ (poppedOf evs),
      add_assoc (pushedOf L)]
    exact congrArg _ (tick_inFlight h s.jobs)
  | @complete s L c idx trace r hj ih =>
    have wired := r.wired
    have hlt : portIndex s.sfu.numUnits c idx < s.sfu.pendingRsps.length := by
      rw [wired.ports, wired.units]; exact portIndex_lt (wired.jobs _ hj)
    rw [ih]
    exact congrArg _ (complete_inFlight hlt hj).symm

/-- Trace conservation through the SFU and its coprocessors, along every run from the
constructor whatever the core answers and whenever the units return their jobs: the traces
popped from the input lanes are those pushed on the outputs plus those held by a unit or waiting
on a pending port, and every job sits at a unit that exists. -/
theorem sfu_trace_conservation {coreId : Nat} {numUnits : Coproc → Nat} {s : SfuSystem cfg}
    {L : List Event} (run : SfuRun cfg coreId numUnits s L) :
    Wired coreId numUnits s ∧ poppedOf L = pushedOf L + s.inFlight :=
  ⟨run.wired, run.conserved⟩

/-- Along a run, the SFU pushes a trace on the lane its `wid` names or on a lane it popped it
from. -/
theorem SfuRun.push_lane {coreId : Nat} {numUnits : Coproc → Nat} {s : SfuSystem cfg}
    {L : List Event} (run : SfuRun cfg coreId numUnits s L) {iw : Nat} {t : Trace} {d : Nat}
    (he : Event.push iw t d ∈ L) : iw = t.wid % cfg.issueWidth ∨ Event.pop iw t ∈ L := by
  induction run with
  | init => cases he
  | enqueue _ _ _ ih => exact ih he
  | complete _ _ ih => exact ih he
  | tick _ _ h ih =>
    rcases List.mem_append.mp he with he | he
    · exact (ih he).imp_right (List.mem_append_left _)
    · exact (tick_push_lane h he).imp_right (List.mem_append_right _)

/-- A tex op of warp 1, for the first tex unit. -/
def texTrace : Trace where
  wid := 1
  sfuType := .tex
  data := .tex 0

theorem sfu_trace_conservation_tex :
    ∃ s L, SfuRun scenarioConfig 0 (fun _ => 1) s L ∧ s.jobs = {(.tex, 0, texTrace)} ∧
      poppedOf L = pushedOf L + s.inFlight := by
  have he : (((SfuUnit.new scenarioConfig 0 fun _ => 1).enqueue ⟨1, by decide⟩ texTrace).tick
      fun _ => false).map (·.2.filterMap handedOf) = some [(.tex, 0, texTrace)] := by decide
  obtain ⟨⟨u', evs⟩, h, hj⟩ := Option.map_eq_some'.mp he
  have run := SfuRun.tick _ (SfuRun.enqueue ⟨1, by decide⟩ texTrace SfuRun.init) h
  exact ⟨_, _, run, by simp [hj], (sfu_trace_conservation run).2⟩

end SfuRuns
