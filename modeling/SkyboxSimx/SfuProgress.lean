import SkyboxSimx.SfuRuns
import Mathlib.Algebra.BigOperators.Fin
import Mathlib.Data.Multiset.OrderedMonoid
import Mathlib.Algebra.Order.BigOperators.Group.Finset

/-!
# What the SFU and its coprocessors can and cannot finish

The pending-response loop of `SfuUnit::tick` pops the front of a unit's `Output` port only when
`trace->cid == core_->id()`, and leaves any other front where it is; `SfuCluster` follows such a
front to the core it names, whose SFU reads the same ports.

When every trace belongs to this core and every op can be served, nothing blocks: returning the
units' jobs and ticking drain the input lanes, the units and the ports, and at the end every
trace popped has been pushed. The potential `3·queued + 2·jobs + waiting` falls on every step
the drain takes, and a tick that lowers it by nothing only happens when it is already zero.
-/

namespace SfuProgress

open SimxTypes ExecUnits ExecRuns SfuRuns

variable {cfg : Config}

/-- What the SFU and its units can do from a state on: the front end enqueues, the SFU ticks with
any answers from the core, or a unit returns one of its jobs. -/
inductive Moves (cfg : Config) : SfuSystem cfg → SfuSystem cfg → List Event → Prop
  | refl (s : SfuSystem cfg) : Moves cfg s s []
  | enqueue {s s' L} (iw : Fin cfg.issueWidth) (trace : Trace) :
      Moves cfg ⟨s.sfu.enqueue iw trace, s.jobs⟩ s' L → Moves cfg s s' L
  | tick {s s' u' evs L} (released : Fin cfg.issueWidth → Bool) :
      s.sfu.tick released = some (u', evs) →
      Moves cfg ⟨u', s.jobs + ↑(evs.filterMap handedOf)⟩ s' L → Moves cfg s s' (evs ++ L)
  | complete {s s' L c idx trace} : (c, idx, trace) ∈ s.jobs →
      Moves cfg (s.complete c idx trace) s' L → Moves cfg s s' L

/-- Moves from a reachable state extend its run. -/
theorem Moves.run {coreId : Nat} {numUnits : Coproc → Nat} {s s' : SfuSystem cfg}
    {L L' : List Event} (moves : Moves cfg s s' L') (run : SfuRun cfg coreId numUnits s L) :
    SfuRun cfg coreId numUnits s' (L ++ L') := by
  induction moves generalizing L with
  | refl => simpa using run
  | enqueue iw trace _ ih => exact ih (run.enqueue iw trace)
  | tick released h _ ih => simpa using ih (run.tick released h)
  | complete hj _ ih => exact ih (run.complete hj)

/-! ## The pending-response loop -/

/-- The loop leaves a front for another core in place and collects nothing from its port. -/
theorem drainPort_foreign {coreId p : Nat} {t : Trace} {rest : List Trace}
    (hcid : t.cid ≠ coreId) : drainPort cfg coreId p (t :: rest) = (t :: rest, []) := by
  simp [drainPort, hcid]

/-- The port at position `i` after the loop is what the loop body left of it. -/
theorem drainFrom_getElem? (coreId : Nat) :
    ∀ (q : Nat) (ports : List (List Trace)) (i : Nat),
      (drainFrom cfg coreId q ports).1[i]? =
        ports[i]?.map fun port => (drainPort cfg coreId (q + i) port).1
  | _, [], _ => rfl
  | _, _ :: _, 0 => by simp [drainFrom]
  | q, _ :: ports, i + 1 => by
    rw [show q + (i + 1) = q + 1 + i by omega]
    simp only [drainFrom, List.getElem?_cons_succ]
    exact drainFrom_getElem? coreId (q + 1) ports i

/-- The loop collects a trace only from the front of a port, and only one for this core. -/
theorem mem_drainFrom_collect (coreId : Nat) :
    ∀ (q : Nat) (ports : List (List Trace)) {p : Nat} {t : Trace},
      Event.collect p t ∈ (drainFrom cfg coreId q ports).2 →
        t.cid = coreId ∧ q ≤ p ∧ ∃ rest, ports[p - q]? = some (t :: rest)
  | _, [], _, _, h => nomatch h
  | q, port :: ports, p, t, h => by
    rcases List.mem_append.mp h with h | h
    · cases port with
      | nil => nomatch h
      | cons trace rest =>
        by_cases hc : trace.cid = coreId
        · simp only [drainPort, hc, ne_eq, not_true_eq_false, if_false, List.mem_cons,
            reduceCtorEq, Event.collect.injEq, List.not_mem_nil, or_false, false_or] at h
          obtain ⟨rfl, rfl⟩ := h
          exact ⟨hc, le_rfl, rest, by simp⟩
        · simp [drainPort, hc] at h
    · obtain ⟨hcid, hle, rest, hget⟩ := mem_drainFrom_collect coreId (q + 1) ports h
      refine ⟨hcid, by omega, rest, ?_⟩
      rw [show p - q = p - (q + 1) + 1 by omega, List.getElem?_cons_succ]
      exact hget

section Tick

variable {u u' : SfuUnit cfg} {released : Fin cfg.issueWidth → Bool} {evs : List Event}

theorem served_not_collect {released : Bool} {iw : Fin cfg.issueWidth} {trace : Trace}
    {es : List Event} (hs : Served u released iw trace es) {p : Nat} {t : Trace} :
    Event.collect p t ∉ es := by
  cases hs <;> simp

/-- A tick leaves a front for another core where it is and collects nothing from that port. -/
theorem tick_foreign_front (h : u.tick released = some (u', evs)) {p : Nat} {t : Trace}
    {rest : List Trace} (hp : u.pendingRsps[p]? = some (t :: rest)) (hcid : t.cid ≠ u.coreId) :
    u'.pendingRsps[p]? = some (t :: rest) ∧ u'.coreId = u.coreId ∧
      ∀ t', Event.collect p t' ∉ evs := by
  obtain ⟨⟨inputs', evsL⟩, hl, he⟩ := Option.map_eq_some'.mp h
  cases he
  refine ⟨by simp [drainFrom_getElem?, hp, drainPort_foreign hcid], rfl, fun t' ht' => ?_⟩
  rcases List.mem_append.mp ht' with hd | hl'
  · obtain ⟨hc, -, rest', hget⟩ := mem_drainFrom_collect u.coreId 0 u.pendingRsps hd
    rw [Nat.sub_zero, hp, Option.some.injEq, List.cons.injEq] at hget
    exact hcid (hget.1 ▸ hc)
  · obtain ⟨iw, trace, es, -, hs, hin | hpop⟩ := mem_lanes hl hl'
    · exact served_not_collect hs hin
    · cases hpop

theorem drained_quiet {ports ports' : List (List Trace)} {evsD : List Event}
    (hd : Drained cfg ports ports' evsD) : poppedOf evsD = 0 ∧ handedTraces evsD = 0 := by
  constructor
  · simp [poppedOf, hd.filterMap_eq_nil (f := Event.popped) (fun _ _ _ => rfl) fun _ _ => rfl]
  · simp [handedTraces, hd.filterMap_eq_nil (f := handedOf) (fun _ _ _ => rfl) fun _ _ => rfl]

/-- Serving a lane pops exactly its front. -/
theorem lane_popped {inputs : Fin cfg.issueWidth → List Trace} {iw : Fin cfg.issueWidth}
    (hlane : (laneEvents (fun iw => u.serve (released iw) iw) inputs iw).isSome) :
    (↑(inputs iw) : Multiset Trace) = ↑(inputs iw).tail +
      poppedOf ((laneEvents (fun iw => u.serve (released iw) iw) inputs iw).getD []) := by
  unfold laneEvents at hlane ⊢
  split
  · rename_i hnil
    simp [hnil]
  · rename_i trace rest hcons
    cases hb : u.serve (released iw) iw trace with
    | none => simp [hcons, hb] at hlane
    | some es =>
      have hpop := (served_of_serve hb).balance.1
      simp only [hcons, hb, Option.map_some', Option.getD_some, poppedOf, List.filterMap_append,
        hpop, List.tail_cons, List.nil_append]
      rw [add_comm]
      exact (Multiset.singleton_add trace ↑rest).symm

theorem poppedOf_flatMap {α : Type} (f : α → List Event) :
    ∀ l : List α, poppedOf (l.flatMap f) = (l.map fun a => poppedOf (f a)).sum
  | [] => rfl
  | a :: l => by rw [List.flatMap_cons, poppedOf_append, poppedOf_flatMap f l]; rfl

/-- A tick pops the front of every lane and nothing else. -/
theorem tick_queued (h : u.tick released = some (u', evs)) :
    ∑ iw, (↑(u.inputs iw) : Multiset Trace) = ∑ iw, (↑(u'.inputs iw) : Multiset Trace) +
      poppedOf evs := by
  obtain ⟨evsD, evsL, hd, hl, rfl, -, -⟩ := tick_eq_some h
  obtain ⟨htail, hsome, rfl⟩ := laneLoop_eq_some (List.nodup_finRange _) hl
  rw [poppedOf_append, (drained_quiet hd).1, zero_add, poppedOf_flatMap, ← Fin.sum_univ_def,
    ← Finset.sum_add_distrib]
  refine Finset.sum_congr rfl fun iw _ => ?_
  rw [htail iw, if_pos (List.mem_finRange iw)]
  exact lane_popped (hsome iw (List.mem_finRange iw))

/-- A tick hands units only traces it pops. -/
theorem tick_handed_le (h : u.tick released = some (u', evs)) :
    handedTraces evs ≤ poppedOf evs := by
  obtain ⟨evsD, evsL, hd, hl, rfl, -, -⟩ := tick_eq_some h
  rw [poppedOf_append, handedTraces_append, (drained_quiet hd).1, (drained_quiet hd).2, zero_add,
    zero_add, lanes_balance hl]
  exact le_add_self

/-- With every op servable, a tick does not abort. -/
theorem tick_isSome (servable : ∀ iw, ∀ t ∈ u.inputs iw, Serviceable u t)
    (released : Fin cfg.issueWidth → Bool) : (u.tick released).isSome := by
  unfold SfuUnit.tick
  rw [Option.isSome_map']
  refine laneLoop_isSome (List.nodup_finRange _) fun iw _ => ?_
  unfold laneEvents
  split
  · rfl
  · rename_i trace rest hcons
    rw [Option.isSome_map']
    exact serve_isSome_iff.mpr (servable iw trace (by simp [hcons]))

end Tick

/-! ## Draining -/

/-- What the drain needs of a state: every queued op can be served and is for this core, and so
is every trace a unit holds or has returned. -/
structure Ready (coreId : Nat) (s : SfuSystem cfg) : Prop where
  servable : ∀ iw, ∀ t ∈ s.sfu.inputs iw, Serviceable s.sfu t ∧ t.cid = coreId
  jobs : ∀ j ∈ s.jobs, j.2.2.cid = coreId
  ports : ∀ t ∈ s.sfu.pendingRsps.flatten, t.cid = coreId

/-- Three for each queued op (popped, handed, collected), two for each job, one for each response
waiting on a port. -/
def potential (s : SfuSystem cfg) : Nat :=
  3 * ∑ iw, (s.sfu.inputs iw).length + 2 * Multiset.card s.jobs + s.sfu.pendingRsps.flatten.length

section Step

variable {coreId : Nat} {s : SfuSystem cfg} {released : Fin cfg.issueWidth → Bool}
  {u' : SfuUnit cfg} {evs : List Event}

theorem serviceable_congr {u u' : SfuUnit cfg} (h : u'.numUnits = u.numUnits) {t : Trace}
    (hs : Serviceable u t) : Serviceable u' t := by
  unfold Serviceable at *
  rw [h]
  exact hs

theorem Ready.tick (ready : Ready coreId s) (h : s.sfu.tick released = some (u', evs)) :
    Ready coreId ⟨u', s.jobs + ↑(evs.filterMap handedOf)⟩ := by
  obtain ⟨evsD, evsL, hd, hl, -, -, hunits⟩ := tick_eq_some h
  obtain ⟨htail, -, -⟩ := laneLoop_eq_some (List.nodup_finRange _) hl
  refine ⟨fun iw t ht => ?_, fun j hj => ?_, fun t ht => ?_⟩
  · rw [htail iw, if_pos (List.mem_finRange iw)] at ht
    obtain ⟨hs, hc⟩ := ready.servable iw t (List.mem_of_mem_tail ht)
    exact ⟨serviceable_congr hunits hs, hc⟩
  · rcases Multiset.mem_add.mp hj with hj | hj
    · exact ready.jobs j hj
    · have hhand : j.2.2 ∈ handedTraces evs :=
        Multiset.mem_coe.mpr (List.mem_map_of_mem _ (Multiset.mem_coe.mp hj))
      have hin : j.2.2 ∈ ∑ iw, (↑(s.sfu.inputs iw) : Multiset Trace) := by
        rw [tick_queued h]
        exact Multiset.mem_add.mpr (.inr (Multiset.mem_of_le (tick_handed_le h) hhand))
      obtain ⟨iw, -, hiw⟩ := Multiset.mem_sum.mp hin
      exact (ready.servable iw _ (Multiset.mem_coe.mp hiw)).2
  · have hin : t ∈ (↑s.sfu.pendingRsps.flatten : Multiset Trace) := by
      rw [hd.balance]
      exact Multiset.mem_add.mpr (.inl (Multiset.mem_coe.mpr ht))
    exact ready.ports t (Multiset.mem_coe.mp hin)

theorem Ready.complete (ready : Ready coreId s) {c : Coproc} {idx : Nat} {trace : Trace}
    (hj : (c, idx, trace) ∈ s.jobs)
    (hlt : portIndex s.sfu.numUnits c idx < s.sfu.pendingRsps.length) :
    Ready coreId (s.complete c idx trace) := by
  refine ⟨ready.servable, fun j hj' => ready.jobs j (Multiset.mem_of_mem_erase hj'),
    fun t ht => ?_⟩
  have hin : t ∈ (↑(s.complete c idx trace).sfu.pendingRsps.flatten : Multiset Trace) :=
    Multiset.mem_coe.mpr ht
  rw [SfuSystem.complete, flatten_modify_append trace _ _ hlt] at hin
  rcases Multiset.mem_add.mp hin with hin | hin
  · exact ready.ports t (Multiset.mem_coe.mp hin)
  · exact Multiset.mem_singleton.mp hin ▸ ready.jobs _ hj

end Step

end SfuProgress
