import SkyboxSimx.SfuProgress

/-!
# Several cores' SFUs on one set of coprocessor units

`SfuUnit` takes `raster_units_`, `tex_units_` and `om_units_` from its core, and its
`pending_rsps_` are those units' `Output` ports. Where cores share their units, every core's SFU
reads the same ports, and the check `trace->cid != core_->id()` is what keeps a core from taking
another core's answer. A cluster here is `n` cores, core `c` with `core_->id() = c`, each with its
own input lanes, over one set of units and ports; the cores tick one after another, in any order.

The front of a port waits for the core it names: ticks of the other cores, the front end and the
units leave it in place and collect nothing behind it, and the first tick of its own core
collects it and pushes it on that core's `Outputs.at(wid % ISSUE_WIDTH)`. An answer for a core
outside the cluster blocks its port for good. Along every run nothing is lost, and each core
collects only its own answers. A single SFU with its units is the cluster of one core.
-/

namespace SfuCluster

open SimxTypes ExecUnits ExecRuns SfuRuns SfuProgress

variable {cfg : Config} {n : Nat}

/-- The SFUs of `n` cores over shared units: each core's input lanes, the `Output` ports of the
units, which every core reads, and the jobs the units hold. -/
structure Cluster (cfg : Config) (n : Nat) where
  numUnits : Coproc → Nat
  inputs : Fin n → Fin cfg.issueWidth → List Trace
  pendingRsps : List (List Trace)
  jobs : Multiset (Coproc × Nat × Trace)

namespace Cluster

/-- Every core's SFU built over the same units: empty lanes and ports. -/
def new (cfg : Config) (n : Nat) (numUnits : Coproc → Nat) : Cluster cfg n where
  numUnits := numUnits
  inputs _ _ := []
  pendingRsps := List.replicate (numUnits .raster + numUnits .tex + numUnits .om) []
  jobs := 0

/-- The SFU of core `c`: its own lanes, and the ports every core reads. -/
def sfu (k : Cluster cfg n) (c : Fin n) : SfuUnit cfg :=
  ⟨c.val, k.numUnits, k.inputs c, k.pendingRsps⟩

/-- The front end's push on lane `iw` of core `c`. -/
def enqueue (k : Cluster cfg n) (c : Fin n) (iw : Fin cfg.issueWidth) (trace : Trace) :
    Cluster cfg n :=
  { k with inputs := Function.update k.inputs c ((k.sfu c).enqueue iw trace).inputs }

/-- `SfuUnit::tick` of core `c`: its lanes and the shared ports become what the tick leaves, and
the units take what it hands them. -/
def tick (k : Cluster cfg n) (c : Fin n) (released : Fin cfg.issueWidth → Bool) :
    Option (Cluster cfg n × List Event) :=
  ((k.sfu c).tick released).map fun r =>
    ({ k with
        inputs := Function.update k.inputs c r.1.inputs
        pendingRsps := r.1.pendingRsps
        jobs := k.jobs + ↑(r.2.filterMap handedOf) }, r.2)

/-- Unit `(c, idx)` returns `trace` on its `Output` port. -/
def complete (k : Cluster cfg n) (c : Coproc) (idx : Nat) (trace : Trace) : Cluster cfg n :=
  { k with
    pendingRsps := k.pendingRsps.modify (· ++ [trace]) (portIndex k.numUnits c idx)
    jobs := k.jobs.erase (c, idx, trace) }

/-- The traces the units hold, and those they returned that no core has collected. -/
def inFlight (k : Cluster cfg n) : Multiset Trace :=
  k.jobs.map (·.2.2) + ↑k.pendingRsps.flatten

/-- What a tick of core `c` does: the tick of its SFU over the shared ports. -/
theorem tick_eq_some {k k' : Cluster cfg n} {c : Fin n} {released : Fin cfg.issueWidth → Bool}
    {evs : List Event} (h : k.tick c released = some (k', evs)) :
    ∃ u', (k.sfu c).tick released = some (u', evs) ∧ k'.numUnits = k.numUnits ∧
      k'.pendingRsps = u'.pendingRsps ∧ k'.jobs = k.jobs + ↑(evs.filterMap handedOf) := by
  obtain ⟨⟨u', e⟩, h₁, he⟩ := Option.map_eq_some'.mp h
  cases he
  exact ⟨u', h₁, rfl, rfl, rfl⟩

end Cluster

open Cluster

/-- Runs of the cluster from the constructor: the front end enqueues on some core, some core's
SFU ticks with any answers from its core, or a unit returns one of its jobs. Each event of the
log carries the core that made it. -/
inductive ClusterRun (cfg : Config) (n : Nat) (numUnits : Coproc → Nat) :
    Cluster cfg n → List (Fin n × Event) → Prop
  | init : ClusterRun cfg n numUnits (Cluster.new cfg n numUnits) []
  | enqueue {k L} (c : Fin n) (iw : Fin cfg.issueWidth) (trace : Trace) :
      ClusterRun cfg n numUnits k L → ClusterRun cfg n numUnits (k.enqueue c iw trace) L
  | tick {k L k' evs} (c : Fin n) (released : Fin cfg.issueWidth → Bool) :
      ClusterRun cfg n numUnits k L → k.tick c released = some (k', evs) →
      ClusterRun cfg n numUnits k' (L ++ evs.map (c, ·))
  | complete {k L c idx trace} : ClusterRun cfg n numUnits k L → (c, idx, trace) ∈ k.jobs →
      ClusterRun cfg n numUnits (k.complete c idx trace) L

/-- What the cluster can do from a state on. -/
inductive ClusterMoves : Cluster cfg n → Cluster cfg n → List (Fin n × Event) → Prop
  | refl (k : Cluster cfg n) : ClusterMoves k k []
  | enqueue {k k' L} (c : Fin n) (iw : Fin cfg.issueWidth) (trace : Trace) :
      ClusterMoves (k.enqueue c iw trace) k' L → ClusterMoves k k' L
  | tick {k k' k₁ evs L} (c : Fin n) (released : Fin cfg.issueWidth → Bool) :
      k.tick c released = some (k₁, evs) → ClusterMoves k₁ k' L →
      ClusterMoves k k' (evs.map (c, ·) ++ L)
  | complete {k k' L c idx trace} : (c, idx, trace) ∈ k.jobs →
      ClusterMoves (k.complete c idx trace) k' L → ClusterMoves k k' L

/-! ## The pending-response loop of one core -/

/-- The loop collects a front for its core, and pushes it on the lane its `wid` names. -/
theorem drainFrom_collects (coreId : Nat) :
    ∀ (q : Nat) (ports : List (List Trace)) {p : Nat} {t : Trace} {rest : List Trace},
      q ≤ p → ports[p - q]? = some (t :: rest) → t.cid = coreId →
      Event.push (t.wid % cfg.issueWidth) t 1 ∈ (drainFrom cfg coreId q ports).2 ∧
        Event.collect p t ∈ (drainFrom cfg coreId q ports).2
  | _, [], _, _, _, _, h, _ => by simp at h
  | q, port :: ports, p, t, rest, hle, h, hcid => by
    simp only [drainFrom, List.mem_append]
    rcases Nat.eq_or_lt_of_le hle with rfl | hlt
    · obtain rfl : port = t :: rest := by simpa using h
      simp [drainPort, hcid]
    · rw [show p - q = p - (q + 1) + 1 by omega, List.getElem?_cons_succ] at h
      obtain ⟨hpush, hcollect⟩ := drainFrom_collects coreId (q + 1) ports (by omega) h hcid
      exact ⟨.inr hpush, .inr hcollect⟩

/-- A tick collects only traces for its own core. -/
theorem tick_collect_own {u u' : SfuUnit cfg} {released : Fin cfg.issueWidth → Bool}
    {evs : List Event} (h : u.tick released = some (u', evs)) {p : Nat} {t : Trace}
    (he : Event.collect p t ∈ evs) : t.cid = u.coreId := by
  obtain ⟨⟨inputs', evsL⟩, hl, he'⟩ := Option.map_eq_some'.mp h
  cases he'
  rcases List.mem_append.mp he with hd | hl'
  · exact (mem_drainFrom_collect u.coreId 0 u.pendingRsps hd).1
  · obtain ⟨iw, trace, es, -, hs, hin | hpop⟩ := mem_lanes hl hl'
    · exact absurd hin (served_not_collect hs)
    · cases hpop

/-- A tick collects a front for its own core, pushes it on the lane its `wid` names, and leaves
the rest of the port. -/
theorem tick_own_front {u u' : SfuUnit cfg} {released : Fin cfg.issueWidth → Bool}
    {evs : List Event} (h : u.tick released = some (u', evs)) {p : Nat} {t : Trace}
    {rest : List Trace} (hp : u.pendingRsps[p]? = some (t :: rest)) (hcid : t.cid = u.coreId) :
    Event.collect p t ∈ evs ∧ Event.push (t.wid % cfg.issueWidth) t 1 ∈ evs ∧
      u'.pendingRsps[p]? = some rest := by
  obtain ⟨⟨inputs', evsL⟩, hl, he⟩ := Option.map_eq_some'.mp h
  cases he
  obtain ⟨hpush, hcollect⟩ := @drainFrom_collects cfg u.coreId 0 u.pendingRsps p t rest
    (Nat.zero_le p) (by simpa using hp) hcid
  exact ⟨List.mem_append_left _ hcollect, List.mem_append_left _ hpush,
    by simp [drainFrom_getElem?, hp, drainPort, hcid]⟩

/-! ## The front of a shared port -/

/-- A move of another core, of the front end or of a unit keeps `t` at the front of port `p`,
and none collects from `p`. -/
theorem moves_keep_front {k k' : Cluster cfg n} {L : List (Fin n × Event)}
    (moves : ClusterMoves k k' L) {p : Nat} {t : Trace} {rest : List Trace}
    (hp : k.pendingRsps[p]? = some (t :: rest)) (others : ∀ c e, (c, e) ∈ L → c.val ≠ t.cid) :
    (∃ rest', k'.pendingRsps[p]? = some (t :: rest')) ∧ ∀ c t', (c, Event.collect p t') ∉ L := by
  induction moves generalizing rest with
  | refl => exact ⟨⟨rest, hp⟩, fun _ _ => List.not_mem_nil _⟩
  | enqueue c iw trace _ ih => exact ih hp others
  | @tick k k' k₁ evs L c released h _ ih =>
    obtain ⟨u', hu, -, hports, -⟩ := tick_eq_some h
    have hcid : t.cid ≠ c.val := fun hc => by
      obtain ⟨hcollect, -⟩ := tick_own_front hu hp hc
      exact others c _ (List.mem_append_left _ (List.mem_map_of_mem _ hcollect)) hc.symm
    obtain ⟨hp₁, -, hno⟩ := tick_foreign_front hu hp hcid
    obtain ⟨hstay, hno'⟩ := ih (hports ▸ hp₁) fun c' e he => others c' e (List.mem_append_right _ he)
    refine ⟨hstay, fun c' t' ht' => ?_⟩
    rcases List.mem_append.mp ht' with ht' | ht'
    · obtain ⟨e, he, hce⟩ := List.mem_map.mp ht'
      simp only [Prod.mk.injEq] at hce
      exact hno t' (hce.2 ▸ he)
    · exact hno' c' t' ht'
  | @complete k k' L c idx trace hj _ ih =>
    have hget : (k.complete c idx trace).pendingRsps[p]? =
        some (t :: if portIndex k.numUnits c idx = p then rest ++ [trace] else rest) := by
      by_cases hn : portIndex k.numUnits c idx = p <;>
        simp [Cluster.complete, List.getElem?_modify, hp, hn]
    exact ih hget others

/-- The front of a shared port is served by the core it names and by no other. From any state,
whatever the front end and the units do: while core `t.cid` does not tick, `t` stays at the front
of its port and nothing is collected from that port; a tick of core `t.cid` collects `t` and
pushes it on that core's `Outputs.at(wid % ISSUE_WIDTH)`; and a trace for a core outside the
cluster stays at the front for good, blocking what is queued behind it. -/
theorem front_response_served_by_its_core {k : Cluster cfg n} {p : Nat} {t : Trace}
    {rest : List Trace} (hp : k.pendingRsps[p]? = some (t :: rest)) :
    (∀ k' L, ClusterMoves k k' L → (∀ c e, (c, e) ∈ L → c.val ≠ t.cid) →
      (∃ rest', k'.pendingRsps[p]? = some (t :: rest')) ∧ ∀ c t', (c, Event.collect p t') ∉ L) ∧
    (∀ (c : Fin n) released k' evs, c.val = t.cid → k.tick c released = some (k', evs) →
      Event.collect p t ∈ evs ∧ Event.push (t.wid % cfg.issueWidth) t 1 ∈ evs ∧
        k'.pendingRsps[p]? = some rest) ∧
    (n ≤ t.cid → ∀ k' L, ClusterMoves k k' L →
      (∃ rest', k'.pendingRsps[p]? = some (t :: rest')) ∧ ∀ c t', (c, Event.collect p t') ∉ L) := by
  refine ⟨fun k' L moves others => moves_keep_front moves hp others,
    fun c released k' evs hc h => ?_,
    fun outside k' L moves => moves_keep_front moves hp fun c _ _ => by have := c.isLt; omega⟩
  obtain ⟨u', hu, -, hports, -⟩ := tick_eq_some h
  rw [hports]
  exact tick_own_front hu hp (by exact hc.symm)

/-- A tex op of warp 1 from core 1, for the first tex unit. -/
def coreOneTexTrace : Trace where
  wid := 1
  cid := 1
  sfuType := .tex
  data := .tex 0

/-- Two cores share one unit of each family. Core 1 hands a tex op to the tex unit, which returns
it on port 1: a tick of core 0 leaves it there, and a tick of core 1 collects it and pushes it on
lane 1. -/
theorem front_response_served_by_core_one :
    ∃ (k : Cluster scenarioConfig 2) (L : List (Fin 2 × Event)) (k₀ k₁ : Cluster scenarioConfig 2)
      (e₀ e₁ : List Event), ClusterRun scenarioConfig 2 (fun _ => 1) k L ∧
      k.pendingRsps[1]? = some [coreOneTexTrace] ∧
      k.tick 0 (fun _ => false) = some (k₀, e₀) ∧
      (∃ rest', k₀.pendingRsps[1]? = some (coreOneTexTrace :: rest')) ∧
      k.tick 1 (fun _ => false) = some (k₁, e₁) ∧ Event.collect 1 coreOneTexTrace ∈ e₁ ∧
      Event.push 1 coreOneTexTrace 1 ∈ e₁ ∧ k₁.pendingRsps[1]? = some [] := by
  have h : (((Cluster.new scenarioConfig 2 fun _ => 1).enqueue 1 ⟨1, by decide⟩
      coreOneTexTrace).tick 1 fun _ => false).bind (fun r =>
        ((r.1.complete .tex 0 coreOneTexTrace).tick 0 fun _ => false).bind fun _ =>
          ((r.1.complete .tex 0 coreOneTexTrace).tick 1 fun _ => false).map fun _ =>
            (decide ((Coproc.tex, 0, coreOneTexTrace) ∈ r.1.jobs),
              (r.1.complete .tex 0 coreOneTexTrace).pendingRsps[1]?)) =
      some (true, some [coreOneTexTrace]) := by
    decide
  obtain ⟨⟨k₁, e₁⟩, hr, h⟩ := Option.bind_eq_some.mp h
  obtain ⟨⟨k₀, e₀⟩, h₀, h⟩ := Option.bind_eq_some.mp h
  obtain ⟨⟨k₂, e₂⟩, h₂, he⟩ := Option.map_eq_some'.mp h
  simp only [Prod.mk.injEq, decide_eq_true_eq] at he
  obtain ⟨hj, hp⟩ := he
  have run := (ClusterRun.tick 1 _ (.enqueue 1 ⟨1, by decide⟩ coreOneTexTrace .init) hr).complete hj
  obtain ⟨stays, collects, -⟩ := front_response_served_by_its_core hp
  obtain ⟨hstay, -⟩ := stays _ _ (.tick 0 _ h₀ (.refl _)) fun c e he => by
    rw [List.append_nil] at he
    obtain ⟨x, -, hx⟩ := List.mem_map.mp he
    cases hx
    decide
  obtain ⟨hc, hpush, hrest⟩ := collects 1 _ _ _ rfl h₂
  exact ⟨_, _, _, _, _, _, run, hp, h₀, hstay, h₂, hc, hpush, hrest⟩

/-! ## Runs of the cluster -/

/-- What the constructor fixes, and every job at an existing unit. -/
structure Wired (numUnits : Coproc → Nat) (k : Cluster cfg n) : Prop where
  units : k.numUnits = numUnits
  ports : k.pendingRsps.length = numUnits .raster + numUnits .tex + numUnits .om
  jobs : ∀ j ∈ k.jobs, j.2.1 < numUnits j.1

theorem ClusterRun.wired {numUnits : Coproc → Nat} {k : Cluster cfg n} {L : List (Fin n × Event)}
    (run : ClusterRun cfg n numUnits k L) : Wired numUnits k := by
  induction run with
  | init => exact ⟨rfl, by simp [Cluster.new], by simp [Cluster.new]⟩
  | enqueue c iw trace _ ih => exact ⟨ih.units, ih.ports, ih.jobs⟩
  | tick c released _ h ih =>
    obtain ⟨u', hu, hunits, hports, hjobs⟩ := tick_eq_some h
    obtain ⟨evsD, evsL, hd, -, -, -, -⟩ := SfuRuns.tick_eq_some hu
    refine ⟨hunits.trans ih.units, hports ▸ hd.length.trans ih.ports, fun j hj => ?_⟩
    rw [hjobs] at hj
    rcases Multiset.mem_add.mp hj with hj | hj
    · exact ih.jobs j hj
    · exact ih.units ▸ tick_handed_unit hu (Multiset.mem_coe.mp hj)
  | complete _ _ ih =>
    exact ⟨ih.units, by simp [Cluster.complete, ih.ports],
      fun j hj => ih.jobs j (Multiset.mem_of_mem_erase hj)⟩

theorem ClusterRun.conserved {numUnits : Coproc → Nat} {k : Cluster cfg n}
    {L : List (Fin n × Event)} (run : ClusterRun cfg n numUnits k L) :
    poppedOf (L.map (·.2)) = pushedOf (L.map (·.2)) + k.inFlight := by
  induction run with
  | init => simp [Cluster.inFlight, Cluster.new]
  | enqueue c iw trace _ ih => exact ih
  | @tick k L k' evs c released _ h ih =>
    obtain ⟨u', hu, -, hports, hjobs⟩ := tick_eq_some h
    rw [List.map_append, List.map_map, Function.comp_def, List.map_id', poppedOf_append,
      pushedOf_append, ih, add_assoc, add_comm _ (poppedOf evs), add_assoc (pushedOf _)]
    refine congrArg _ ?_
    rw [Cluster.inFlight, Cluster.inFlight, hports, hjobs]
    exact tick_inFlight hu k.jobs
  | @complete k L c idx trace r hj ih =>
    have wired := r.wired
    have hlt : portIndex k.numUnits c idx < k.pendingRsps.length := by
      rw [wired.ports, wired.units]; exact portIndex_lt (wired.jobs _ hj)
    rw [ih]
    exact congrArg _ (complete_inFlight hlt hj).symm

theorem ClusterRun.collect_own {numUnits : Coproc → Nat} {k : Cluster cfg n}
    {L : List (Fin n × Event)} (run : ClusterRun cfg n numUnits k L) {c : Fin n} {p : Nat}
    {t : Trace} (he : (c, Event.collect p t) ∈ L) : t.cid = c.val := by
  induction run with
  | init => cases he
  | enqueue _ _ _ _ ih => exact ih he
  | complete _ _ ih => exact ih he
  | @tick k L k' evs c' released _ h ih =>
    rcases List.mem_append.mp he with he | he
    · exact ih he
    · obtain ⟨e, he, hce⟩ := List.mem_map.mp he
      simp only [Prod.mk.injEq] at hce
      obtain ⟨rfl, rfl⟩ := hce
      obtain ⟨u', hu, -⟩ := tick_eq_some h
      exact tick_collect_own hu he

/-- Trace conservation through every core's SFU and the units they share, along every run of
the cluster from the constructor, whatever the cores answer and whenever the units return their
jobs: the traces popped from all the cores' input lanes are those pushed on their outputs plus
those held by a unit or waiting on a shared port; and every trace a core collects from a port is
one for that core. -/
theorem cluster_trace_conservation {numUnits : Coproc → Nat} {k : Cluster cfg n}
    {L : List (Fin n × Event)} (run : ClusterRun cfg n numUnits k L) :
    poppedOf (L.map (·.2)) = pushedOf (L.map (·.2)) + k.inFlight ∧
      ∀ c p t, (c, Event.collect p t) ∈ L → t.cid = c.val :=
  ⟨run.conserved, fun _ _ _ he => run.collect_own he⟩

/-- Core 1 hands its tex op to the shared tex unit, the unit returns it, and core 1 collects it:
the op was popped and pushed, and nothing is in flight. -/
theorem cluster_trace_conservation_collected :
    ∃ (k : Cluster scenarioConfig 2) (L : List (Fin 2 × Event)),
      ClusterRun scenarioConfig 2 (fun _ => 1) k L ∧ k.inFlight = 0 ∧
      (1, Event.collect 1 coreOneTexTrace) ∈ L ∧
      poppedOf (L.map (·.2)) = pushedOf (L.map (·.2)) + k.inFlight ∧
      ∀ c p t, (c, Event.collect p t) ∈ L → t.cid = c.val := by
  have h : (((Cluster.new scenarioConfig 2 fun _ => 1).enqueue 1 ⟨1, by decide⟩
      coreOneTexTrace).tick 1 fun _ => false).bind (fun r =>
        ((r.1.complete .tex 0 coreOneTexTrace).tick 1 fun _ => false).map fun r' =>
          (decide ((Coproc.tex, 0, coreOneTexTrace) ∈ r.1.jobs), r'.1.inFlight,
            decide ((1, Event.collect 1 coreOneTexTrace) ∈ r'.2.map ((1 : Fin 2), ·)))) =
      some (true, 0, true) := by
    decide
  obtain ⟨⟨k₁, e₁⟩, hr, h⟩ := Option.bind_eq_some.mp h
  obtain ⟨⟨k₂, e₂⟩, h₂, he⟩ := Option.map_eq_some'.mp h
  simp only [Prod.mk.injEq, decide_eq_true_eq] at he
  obtain ⟨hj, hflight, hcollect⟩ := he
  have run := ((ClusterRun.tick 1 _ (.enqueue 1 ⟨1, by decide⟩ coreOneTexTrace .init)
    hr).complete hj).tick 1 _ h₂
  exact ⟨_, _, run, hflight, List.mem_append_right _ hcollect, cluster_trace_conservation run⟩

/-! ## One core -/

/-- The single SFU and its units as a cluster of one core. -/
def ofSystem (s : SfuSystem cfg) : Cluster cfg 1 :=
  ⟨s.sfu.numUnits, fun _ => s.sfu.inputs, s.sfu.pendingRsps, s.jobs⟩

theorem update_fin_one {α : Type} (f : Fin 1 → α) (v : α) : Function.update f 0 v = fun _ => v :=
  funext fun c => by rw [Subsingleton.elim c 0, Function.update_same]

/-- A run of one SFU with core id 0 is a run of the cluster of one core: the single-SFU model is
the case in which no other core reads the ports. -/
theorem SfuRun.cluster {numUnits : Coproc → Nat} {s : SfuSystem cfg} {L : List Event}
    (run : SfuRun cfg 0 numUnits s L) :
    ClusterRun cfg 1 numUnits (ofSystem s) (L.map ((0 : Fin 1), ·)) := by
  induction run with
  | init => exact .init
  | @enqueue s L iw trace _ ih =>
    have h : ofSystem ⟨s.sfu.enqueue iw trace, s.jobs⟩ = (ofSystem s).enqueue 0 iw trace := by
      simp only [ofSystem, Cluster.enqueue, update_fin_one]; rfl
    exact h ▸ ih.enqueue 0 iw trace
  | @tick s L u' evs released r h ih =>
    have hsfu : (ofSystem s).sfu 0 = s.sfu := by
      show (⟨0, s.sfu.numUnits, s.sfu.inputs, s.sfu.pendingRsps⟩ : SfuUnit cfg) = s.sfu
      rw [← r.wired.core]
    obtain ⟨-, -, -, -, -, -, hunits⟩ := SfuRuns.tick_eq_some h
    have ht : (ofSystem s).tick 0 released =
        some (ofSystem ⟨u', s.jobs + ↑(evs.filterMap handedOf)⟩, evs) := by
      rw [Cluster.tick, hsfu, h]
      simp only [Option.map_some', ofSystem, update_fin_one, hunits]
    simpa using ih.tick 0 released ht
  | complete _ hj ih => exact ih.complete hj

end SfuCluster
