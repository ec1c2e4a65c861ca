import SkyboxSimx.LsuMemory

/-!
# Progress of the load/store unit

Whole ticks of `LsuUnit::tick` with the front end quiet and a memory side that
answers, on each block, the load in the lowest occupied slot with all the lanes
it still waits for. Each tick lowers a potential, twice the traces queued plus
the loads parked and the fences latched, unless the unit has nothing left to do.
The last case is the heart of the argument: a tick whose lane steps all leave
the unit as it was starts from a unit with every queue empty, every table
empty and no fence latched. Two conditions are needed and used: each queued
load or store has lanes `buildLanes` can read, and each load asks for a lane
(a load that asks for none is never answered); and `LSU_QUEUE_SIZE` is positive,
or every load stalls.
-/

namespace LsuProgress

open SimxTypes PendingTable LsuModel LsuRuns LsuInvariant LsuConservation LsuCounter LsuFence

variable {cfg : Config}

/-- A trace the unit can serve: a fence, or a load or store whose lanes `buildLanes` reads, a
load asking for at least one lane. -/
def Servable (cfg : Config) (trace : Trace) : Prop :=
  trace.lsuType = .fence ∨
    (buildLanes cfg.numLsuLanes trace).isSome ∧
      (trace.lsuType = .load → (requestMask cfg.numLsuLanes trace).Nonempty)

instance (cfg : Config) (trace : Trace) : Decidable (Servable cfg trace) :=
  inferInstanceAs (Decidable (_ ∨ _ ∧ (_ → _)))

theorem Servable.lanes {trace : Trace} (h : Servable cfg trace) (hf : trace.lsuType ≠ .fence) :
    ∃ mask addrs, buildLanes cfg.numLsuLanes trace = some (mask, addrs) := by
  obtain ⟨⟨mask, addrs⟩, hb⟩ := Option.isSome_iff_exists.mp (h.resolve_left hf).1
  exact ⟨mask, addrs, hb⟩

theorem Servable.mask_ne {trace : Trace} (h : Servable cfg trace) (hload : trace.lsuType = .load)
    {mask : Finset Nat} {addrs : List Nat}
    (hb : buildLanes cfg.numLsuLanes trace = some (mask, addrs)) : mask ≠ ∅ := by
  rw [buildLanes_mask hb]
  exact ((h.resolve_left (by simp [hload])).2 hload).ne_empty

/-- A unit that can finish its work: every queued trace can be served and every parked load
still waits for a lane. -/
structure Ready (u : LsuUnit cfg) : Prop where
  servable : ∀ iw, ∀ t ∈ u.inputs iw, Servable cfg t
  parked : ∀ b, ∀ e ∈ (u.states b).pendingRdReqs.held, e.mask ≠ ∅

theorem Ready.congr {u u' : LsuUnit cfg} (ready : Ready u) (hi : u'.inputs = u.inputs)
    (hs : u'.states = u.states) : Ready u' :=
  ⟨hi ▸ ready.servable, hs ▸ ready.parked⟩

theorem mem_pop_inputs {u : LsuUnit cfg} {iw j : Fin cfg.issueWidth} {t : Trace}
    (h : t ∈ (u.pop iw).inputs j) : t ∈ u.inputs j := by
  by_cases hj : j = iw
  · subst hj
    exact List.mem_of_mem_tail (by simpa [LsuUnit.pop] using h)
  · simpa [LsuUnit.pop, hj] using h

theorem Ready.pop {u : LsuUnit cfg} (ready : Ready u) (iw : Fin cfg.issueWidth) :
    Ready (u.pop iw) :=
  ⟨fun j t ht => ready.servable j t (mem_pop_inputs ht), ready.parked⟩

theorem Ready.setState {u : LsuUnit cfg} (ready : Ready u) {b : Fin cfg.numLsuBlocks}
    {st : LsuState} (hst : ∀ e ∈ st.pendingRdReqs.held, e.mask ≠ ∅) :
    Ready (u.setState b st) := by
  refine ⟨ready.servable, fun b' e he => ?_⟩
  by_cases hb : b' = b
  · subst hb
    exact hst e (by simpa using he)
  · exact ready.parked b' e (by simpa [hb] using he)

/-! ## The potential -/

/-- The traces waiting in the input queues. -/
def queued (u : LsuUnit cfg) : Nat := ∑ iw, (u.inputs iw).length

/-- What a block has yet to finish: its parked loads and its latched fence. -/
def blockWork (st : LsuState) : Nat :=
  Multiset.card st.pendingRdReqs.held + if st.fenceLock then 1 else 0

def potential (u : LsuUnit cfg) : Nat := 2 * queued u + ∑ b, blockWork (u.states b)

/-- A sum over a finite type after changing one term. -/
theorem sum_frame {ι : Type} [Fintype ι] [DecidableEq ι] {f g : ι → Nat} (i : ι)
    (h : ∀ j, j ≠ i → f j = g j) : ∑ j, f j + g i = ∑ j, g j + f i := by
  have hf := Finset.add_sum_erase Finset.univ f (Finset.mem_univ i)
  have hg := Finset.add_sum_erase Finset.univ g (Finset.mem_univ i)
  have rest : ∑ j ∈ Finset.univ.erase i, f j = ∑ j ∈ Finset.univ.erase i, g j :=
    Finset.sum_congr rfl fun j hj => h j (Finset.ne_of_mem_erase hj)
  omega

theorem potential_pop {u : LsuUnit cfg} {iw : Fin cfg.issueWidth} {trace : Trace}
    {rest : List Trace} (hin : u.inputs iw = trace :: rest) :
    potential (u.pop iw) + 2 = potential u := by
  have h := sum_frame iw (f := fun j => ((u.pop iw).inputs j).length)
    (g := fun j => (u.inputs j).length) fun j hj => by simp [LsuUnit.pop, hj]
  have hlen : ((u.pop iw).inputs iw).length + 1 = (u.inputs iw).length := by
    simp [LsuUnit.pop, hin]
  dsimp only at h
  simp only [potential, queued, LsuUnit.pop_states]
  omega

theorem potential_setState (u : LsuUnit cfg) (b : Fin cfg.numLsuBlocks) (st : LsuState) :
    potential (u.setState b st) + blockWork (u.states b) = potential u + blockWork st := by
  have h := sum_frame b (f := fun j => blockWork ((u.setState b st).states j))
    (g := fun j => blockWork (u.states j)) fun j hj => by simp [hj]
  have hb : blockWork ((u.setState b st).states b) = blockWork st := by simp
  dsimp only at h
  simp only [potential, queued, LsuUnit.setState_inputs]
  omega

theorem potential_eq_zero_iff {u : LsuUnit cfg} :
    potential u = 0 ↔ (∀ iw, u.inputs iw = []) ∧
      ∀ b, (u.states b).pendingRdReqs.held = 0 ∧ (u.states b).fenceLock = false := by
  simp only [potential, queued, blockWork, Nat.add_eq_zero, Nat.mul_eq_zero, OfNat.ofNat_ne_zero,
    false_or, Finset.sum_eq_zero_iff, Finset.mem_univ, true_implies, List.length_eq_zero,
    Multiset.card_eq_zero, ite_eq_right_iff, one_ne_zero, imp_false, Bool.not_eq_true]

/-! ## One step -/

section Step

variable {u u' : LsuUnit cfg} {iw : Fin cfg.issueWidth} {evs : List Event}

theorem served_ready (ready : Ready u) (s : u.Served iw u' evs) : Ready u' := by
  cases s with
  | idle _ | stall _ _ _ => exact ready
  | latch _ _ => exact (ready.pop iw).setState (ready.parked (blockOf cfg iw))
  | store _ _ _ => exact (ready.pop iw).congr rfl rfl
  | @load trace _ mask _ _ _ hin hload _ hb ha =>
    refine ((ready.pop iw).setState fun e he => ?_).congr rfl rfl
    rw [HashTable.allocate_held ha, Multiset.mem_cons] at he
    rcases he with rfl | he
    · exact (ready.servable iw trace (by simp [hin])).mask_ne hload hb
    · exact ready.parked _ e he

/-- Serving a lane leaves the unit as it was, with no event, or lowers the potential: a pop lowers
it by two and adds at most one parked load or latched fence. -/
theorem served_potential (s : u.Served iw u' evs) :
    potential u' < potential u ∨ u' = u ∧ evs = [] := by
  cases s with
  | idle _ | stall _ _ _ => exact .inr ⟨rfl, rfl⟩
  | @latch trace _ hin _ =>
    have h₁ := potential_pop hin
    have h₂ := potential_setState (u.pop iw) (blockOf cfg iw)
      { u.states (blockOf cfg iw) with fenceTrace := some trace, fenceLock := true }
    simp only [blockWork, LsuUnit.pop_states, if_true] at h₂
    exact .inl (by dsimp only; omega)
  | store hin _ _ =>
    have h₁ := potential_pop hin
    exact .inl (show potential (u.pop iw) < potential u by omega)
  | @load _ _ _ _ _ table hin _ _ _ ha =>
    have h₁ := potential_pop hin
    have h₂ := potential_setState (u.pop iw) (blockOf cfg iw)
      { u.states (blockOf cfg iw) with pendingRdReqs := table }
    simp only [blockWork, LsuUnit.pop_states, HashTable.allocate_held ha,
      Multiset.card_cons] at h₂
    refine .inl ?_
    change potential ((u.pop iw).setState (blockOf cfg iw)
      { u.states (blockOf cfg iw) with pendingRdReqs := table }) < potential u
    dsimp only
    omega

theorem issued_ready (ready : Ready u) (hi : u.Issued iw u' evs) : Ready u' := by
  cases hi with
  | wait _ _ => exact ready
  | unlock _ _ _ served =>
    have unlocked : Ready (u.setState (blockOf cfg iw)
        { u.states (blockOf cfg iw) with fenceLock := false }) :=
      ready.setState (ready.parked _)
    exact served_ready unlocked served
  | serve _ served => exact served_ready ready served

theorem issued_potential (hi : u.Issued iw u' evs) :
    potential u' < potential u ∨ u' = u ∧ evs = [] := by
  cases hi with
  | wait _ _ => exact .inr ⟨rfl, rfl⟩
  | unlock hlock _ _ served =>
    have h := potential_setState u (blockOf cfg iw)
      { u.states (blockOf cfg iw) with fenceLock := false }
    simp only [blockWork, hlock, if_true, Bool.false_eq_true, if_false, add_zero] at h
    refine .inl ?_
    rcases served_potential served with hlt | ⟨rfl, -⟩
    · dsimp only at hlt; omega
    · dsimp only; omega
  | serve _ served => exact served_potential served

theorem serve_isSome (servable : ∀ t ∈ u.inputs iw, Servable cfg t)
    (counted : (u.states (blockOf cfg iw)).pendingRdReqs.Counted) : (u.serve iw).isSome := by
  unfold LsuUnit.serve
  dsimp only
  split
  · rfl
  · rename_i trace rest hin
    have hs := servable trace (by simp [hin])
    split
    · rfl
    · rename_i hstore
      obtain ⟨mask, addrs, hb⟩ := hs.lanes (by simp [hstore])
      simp [hb]
    · rename_i hload
      split
      · rfl
      · rename_i hfull
        obtain ⟨mask, addrs, hb⟩ := hs.lanes (by simp [hload])
        simp [hb, HashTable.allocate_isSome counted (by simpa using hfull)]

theorem issue_isSome (inv : Inv u) (ready : Ready u) (iw : Fin cfg.issueWidth) :
    (u.issue iw).isSome := by
  have blk := inv (blockOf cfg iw)
  have counted := blk.table.counted.1
  unfold LsuUnit.issue
  dsimp only
  cases hlock : (u.states (blockOf cfg iw)).fenceLock
  · simpa only [Bool.false_eq_true, if_false] using serve_isSome (ready.servable iw) counted
  · obtain ⟨f, hf, -⟩ := blk.latch hlock
    cases (u.states (blockOf cfg iw)).pendingRdReqs.empty
    · rfl
    · simp only [reduceIte, hf, Option.isSome_map']
      exact serve_isSome (by simpa using ready.servable iw) (by simpa using counted)

/-- A lane step from a ready unit never aborts; it keeps the unit ready and either lowers the
potential or leaves the unit as it was, with no event. -/
theorem issue_progress (inv : Inv u) (ready : Ready u) (iw : Fin cfg.issueWidth) :
    ∃ u' evs, u.issue iw = some (u', evs) ∧ Ready u' ∧
      (potential u' < potential u ∨ u' = u ∧ evs = []) := by
  obtain ⟨⟨u', evs⟩, h⟩ := Option.isSome_iff_exists.mp (issue_isSome inv ready iw)
  have hi := LsuUnit.issued_of_issue h
  exact ⟨u', evs, h, issued_ready ready hi, issued_potential hi⟩

/-- A lane step that leaves no event found its block fence-locked with a non-empty table, or its
block unlocked and either its queue empty or a load at the front and the table full. -/
theorem issue_silent (h : u.issue iw = some (u', [])) :
    (u.states (blockOf cfg iw)).fenceLock = true ∧
        (u.states (blockOf cfg iw)).pendingRdReqs.empty = false ∨
      (u.states (blockOf cfg iw)).fenceLock = false ∧
        (u.inputs iw = [] ∨ (u.states (blockOf cfg iw)).pendingRdReqs.full = true) := by
  cases LsuUnit.issued_of_issue h with
  | wait hlock hempty => exact .inl ⟨hlock, hempty⟩
  | serve hlock served =>
    refine .inr ⟨hlock, ?_⟩
    cases served with
    | idle hin => exact .inl hin
    | stall _ _ hfull => exact .inr hfull

end Step

/-! ## The memory side -/

/-- The memory side that answers, on a block, the load parked in the lowest occupied slot, with all
the lanes that load still waits for. -/
def answerLowest (st : LsuState) : Option LsuRsp :=
  (List.range st.pendingRdReqs.entries.length).findSome? fun tag =>
    (st.pendingRdReqs.at tag).map fun e => ⟨e.mask, tag, 0, 0⟩

/-- A table of a reachable state has `LSU_QUEUE_SIZE` slots, fewer than `2 ^ 32`. -/
theorem small_of_reachable {ok : LsuState → LsuRsp → Prop} {u : LsuUnit cfg} {L : List Event}
    (reach : Reachable cfg ok u L) (b : Fin cfg.numLsuBlocks) :
    (u.states b).pendingRdReqs.entries.length ≤ 2 ^ 32 :=
  (reachable_tables reach b).counted.2 ▸ cfg.lsuQueueSize_lt.le

theorem answerLowest_some {st : LsuState} (small : st.pendingRdReqs.entries.length ≤ 2 ^ 32)
    {rsp : LsuRsp} (h : answerLowest st = some rsp) :
    ∃ e, st.pendingRdReqs.at rsp.slot = some e ∧ rsp.mask = e.mask := by
  obtain ⟨tag, hlt, htag⟩ := List.exists_of_findSome?_eq_some h
  obtain ⟨e, he, rfl⟩ := Option.map_eq_some'.mp htag
  refine ⟨e, ?_, rfl⟩
  show st.pendingRdReqs.at (tag % 2 ^ 32) = some e
  rwa [Nat.mod_eq_of_lt ((List.mem_range.mp hlt).trans_le small)]

theorem answerLowest_eq_none {st : LsuState} :
    answerLowest st = none ↔ st.pendingRdReqs.held = 0 := by
  rw [answerLowest, List.findSome?_eq_none_iff, ← Multiset.card_eq_zero,
    HashTable.card_held_eq_zero_iff]
  refine ⟨fun h i => ?_, fun h i _ => by simp [h i]⟩
  rcases hat : st.pendingRdReqs.at i with _ | e
  · rfl
  · simpa [hat] using h i (List.mem_range.mpr (HashTable.lt_length_of_at hat))

theorem answerLowest_exact {st : LsuState} (small : st.pendingRdReqs.entries.length ≤ 2 ^ 32)
    (parked : ∀ e ∈ st.pendingRdReqs.held, e.mask ≠ ∅)
    {rsp : LsuRsp} (h : answerLowest st = some rsp) : RspExact st rsp := by
  obtain ⟨e, hat, hmask⟩ := answerLowest_some small h
  simp only [RspExact, hat, hmask]
  exact ⟨Finset.nonempty_iff_ne_empty.mpr (parked e (HashTable.mem_held_of_at hat)), subset_rfl⟩

section Ticks

variable {u : LsuUnit cfg} {L : List Event}

theorem steps_cons_of {u₁ u₂ : LsuUnit cfg} {s : LsuStep cfg} {ss : List (LsuStep cfg)}
    {e₁ e₂ : List Event} (h₁ : u.step s = some (u₁, e₁))
    (h₂ : u₁.steps ss = some (u₂, e₂)) :
    u.steps (s :: ss) = some (u₂, e₁ ++ e₂) := by
  simp [LsuUnit.steps, h₁, h₂]

theorem steps_append_of {u₁ u₂ : LsuUnit cfg} {ss ss' : List (LsuStep cfg)}
    {e₁ e₂ : List Event}
    (h₁ : u.steps ss = some (u₁, e₁)) (h₂ : u₁.steps ss' = some (u₂, e₂)) :
    u.steps (ss ++ ss') = some (u₂, e₁ ++ e₂) := by
  induction ss generalizing u e₁ with
  | nil =>
    simp only [LsuUnit.steps, Option.some.injEq, Prod.mk.injEq] at h₁
    obtain ⟨rfl, rfl⟩ := h₁
    exact h₂
  | cons s ss ih =>
    obtain ⟨u', e, e', hs, hss, rfl⟩ := LsuUnit.steps_cons h₁
    simpa using steps_cons_of hs (ih hss)

/-- Answering the lowest parked load of a block completes it: the load is released and the
potential falls by one. -/
theorem absorb_lowest (reach : Reachable cfg RspExact u L) (ready : Ready u)
    {b : Fin cfg.numLsuBlocks} {rsp : LsuRsp} (h : answerLowest (u.states b) = some rsp) :
    ∃ u' evs, u.absorb b rsp = some (u', evs) ∧ Ready u' ∧ potential u' < potential u := by
  have owes := LsuMemory.reachable_owes reach
  obtain ⟨⟨u', evs⟩, ha⟩ := Option.isSome_iff_exists.mp (LsuMemory.absorb_isSome owes
    ((LsuMemory.answers_iff owes _).mpr
      (answerLowest_exact (small_of_reachable reach b) (ready.parked b) h)))
  obtain ⟨e, hat, hmask⟩ := answerLowest_some (small_of_reachable reach b) h
  refine ⟨u', evs, ha, ?_⟩
  cases LsuUnit.absorbed_of_absorb ha with
  | remaining hat' _ hrest =>
    obtain rfl := Option.some.inj (hat'.symm.trans hat)
    exact absurd (by rw [hmask, Finset.sdiff_self]) hrest
  | @complete entry table hat' _ _ hrel =>
    obtain rfl := Option.some.inj (hat'.symm.trans hat)
    have hheld := HashTable.write_release_held hat hrel
    have ready' : Ready { u with pendingLoads := u.pendingLoads - (rsp.mask.card : Int) } :=
      ready.congr rfl rfl
    refine ⟨ready'.setState fun e' he' => ?_, ?_⟩
    · exact ready.parked b e' (by rw [hheld]; exact Multiset.mem_cons_of_mem he')
    have hpot := potential_setState
      { u with pendingLoads := u.pendingLoads - (rsp.mask.card : Int) } b
      { u.states b with pendingRdReqs := table }
    have hsame : potential { u with pendingLoads := u.pendingLoads - (rsp.mask.card : Int) } =
      potential u := rfl
    simp only [blockWork, hheld, Multiset.card_cons] at hpot
    dsimp only
    omega

/-- The response steps of a tick under `answerLowest`: every block with a parked load has one
completed, so the potential falls, unless no block had a parked load. -/
theorem absorbs_progress (reach : Reachable cfg RspExact u L) (ready : Ready u)
    (rsps : Fin cfg.numLsuBlocks → Option LsuRsp) (blocks : List (Fin cfg.numLsuBlocks))
    (nodup : blocks.Nodup) (hr : ∀ b ∈ blocks, rsps b = answerLowest (u.states b)) :
    ∃ u' evs, u.steps (blocks.filterMap fun b => (rsps b).map (.absorb b)) = some (u', evs) ∧
      Reachable cfg RspExact u' (L ++ evs) ∧ Ready u' ∧
      (potential u' < potential u ∨
        u' = u ∧ ∀ b ∈ blocks, (u.states b).pendingRdReqs.held = 0) := by
  induction blocks generalizing u L with
  | nil => exact ⟨u, [], rfl, by simpa using reach, ready, .inr ⟨rfl, by simp⟩⟩
  | cons b blocks ih =>
    obtain ⟨hb, nodup⟩ := List.nodup_cons.mp nodup
    cases hrb : rsps b with
    | none =>
      have hempty := answerLowest_eq_none.mp ((hr b (.head _)).symm.trans hrb)
      obtain ⟨u', evs, h, reach', ready', prog⟩ :=
        ih reach ready nodup fun b' hb' => hr b' (.tail _ hb')
      refine ⟨u', evs, by simpa [hrb] using h, reach', ready', ?_⟩
      rcases prog with hlt | ⟨rfl, hall⟩
      · exact .inl hlt
      · exact .inr ⟨rfl, List.forall_mem_cons.mpr ⟨hempty, hall⟩⟩
    | some rsp =>
      obtain ⟨u₁, e₁, h₁, ready₁, hlt⟩ :=
        absorb_lowest reach ready ((hr b (.head _)).symm.trans hrb)
      have hexact := answerLowest_exact (small_of_reachable reach b) (ready.parked b)
        ((hr b (.head _)).symm.trans hrb)
      have reach₁ := reach.step (s := .absorb b rsp) hexact h₁
      obtain ⟨u', evs, h, reach', ready', prog⟩ := ih reach₁ ready₁ nodup fun b' hb' =>
        (hr b' (.tail _ hb')).trans (by
          rw [LsuUnit.absorb_states_ne h₁ fun he => hb (he ▸ hb')])
      refine ⟨u', e₁ ++ evs, ?_, by simpa using reach', ready', .inl ?_⟩
      · simpa [hrb] using steps_cons_of (s := .absorb b rsp) h₁ h
      · rcases prog with hlt' | ⟨rfl, -⟩ <;> omega

/-- The lane steps of a tick: each keeps the unit ready, and together they lower the potential
unless every lane left the unit as it was. -/
theorem issues_progress (reach : Reachable cfg RspExact u L) (ready : Ready u)
    (lanes : List (Fin cfg.issueWidth)) :
    ∃ u' evs, u.steps (lanes.map .issue) = some (u', evs) ∧
      Reachable cfg RspExact u' (L ++ evs) ∧ Ready u' ∧
      (potential u' < potential u ∨ u' = u ∧ ∀ iw ∈ lanes, u.issue iw = some (u, [])) := by
  induction lanes generalizing u L with
  | nil => exact ⟨u, [], rfl, by simpa using reach, ready, .inr ⟨rfl, by simp⟩⟩
  | cons iw lanes ih =>
    obtain ⟨u₁, e₁, h₁, ready₁, prog₁⟩ :=
      issue_progress (reachable_inv reach) ready iw
    obtain ⟨u', evs, h, reach', ready', prog⟩ :=
      ih (reach.step (by exact trivial) (show u.step (.issue iw) = _ from h₁)) ready₁
    refine ⟨u', e₁ ++ evs, steps_cons_of h₁ h, by simpa using reach', ready', ?_⟩
    rcases prog₁ with hlt₁ | ⟨rfl, rfl⟩
    · rcases prog with hlt | ⟨rfl, -⟩
      · exact .inl (hlt.trans hlt₁)
      · exact .inl hlt₁
    · rcases prog with hlt | ⟨rfl, hall⟩
      · exact .inl hlt
      · exact .inr ⟨rfl, List.forall_mem_cons.mpr ⟨h₁, hall⟩⟩

/-- A block is fence-locked only if some lane issues to it. -/
theorem step_lock_lane {u' : LsuUnit cfg} {s : LsuStep cfg} {evs : List Event} (inv : Inv u)
    (h : u.step s = some (u', evs)) (b : Fin cfg.numLsuBlocks) :
    (u'.states b).fenceLock = (u.states b).fenceLock ∨ ∃ iw, blockOf cfg iw = b := by
  cases s with
  | latency => cases h; exact .inl rfl
  | absorb b' rsp => exact .inl (absorbed_quiet inv (LsuUnit.absorbed_of_absorb h) b).lock
  | issue iw =>
    by_cases hb : blockOf cfg iw = b
    · exact .inr ⟨iw, hb⟩
    · refine .inl ?_
      cases LsuUnit.issued_of_issue h with
      | wait _ _ => rfl
      | unlock _ _ _ served => simpa [Ne.symm hb] using (served_quiet served hb).lock
      | serve _ served => exact (served_quiet served hb).lock

theorem reachable_lock_lane {ok : LsuState → LsuRsp → Prop} (reach : Reachable cfg ok u L)
    (b : Fin cfg.numLsuBlocks) (hl : (u.states b).fenceLock = true) :
    ∃ iw, blockOf cfg iw = b := by
  induction reach with
  | init => simp [LsuUnit.init, LsuState.clear] at hl
  | enqueue _ _ _ ih => exact ih hl
  | step reach _ h ih =>
    exact (step_lock_lane (reachable_inv reach) h b).elim (fun he => ih (he ▸ hl)) id

/-- A tick whose lane steps all leave the unit as it was, after no response, starts from a unit
with nothing left to do. -/
theorem stuck_drained (hq : 0 < cfg.lsuQueueSize) (reach : Reachable cfg RspExact u L)
    (drained : ∀ b, (u.states b).pendingRdReqs.held = 0)
    (stuck : ∀ iw, u.issue iw = some (u, [])) : potential u = 0 := by
  have counted b := (reachable_tables reach b).counted
  have size b : (u.states b).pendingRdReqs.size = 0 :=
    ((counted b).1 : _ = Multiset.card _).trans (by rw [drained b]; rfl)
  have empty b : (u.states b).pendingRdReqs.empty = true := by
    simp [HashTable.empty, size b]
  have notFull b : (u.states b).pendingRdReqs.full = false := by
    simp [HashTable.full, size b, (counted b).2, hq.ne]
  have unlocked b : (u.states b).fenceLock = false := by
    cases hl : (u.states b).fenceLock
    · rfl
    · obtain ⟨iw, rfl⟩ := reachable_lock_lane reach b hl
      rcases issue_silent (stuck iw) with ⟨-, h⟩ | ⟨h, -⟩
      · simp [empty] at h
      · simp [hl] at h
  refine potential_eq_zero_iff.mpr ⟨fun iw => ?_, fun b => ⟨drained b, unlocked b⟩⟩
  rcases issue_silent (stuck iw) with ⟨h, -⟩ | ⟨-, hin | hfull⟩
  · simp [unlocked] at h
  · exact hin
  · simp [notFull] at hfull

/-- One tick under `answerLowest` from a ready unit with work left: it completes, keeps the unit
ready and lowers the potential. -/
theorem tick_progress (hq : 0 < cfg.lsuQueueSize) (run : Run cfg RspExact u L) (ready : Ready u)
    (busy : 0 < potential u) :
    ∃ u' evs, u.tick (fun b => answerLowest (u.states b)) = some (u', evs) ∧
      Run cfg RspExact u' (L ++ evs) ∧ Ready u' ∧ potential u' < potential u := by
  have h₀ : u.step .latency = some (_, []) := rfl
  have reach₀ := run.reachable.step (by exact trivial) h₀
  obtain ⟨u₁, e₁, h₁, reach₁, ready₁, prog₁⟩ :=
    absorbs_progress reach₀ (ready.congr rfl rfl) _
    (List.finRange cfg.numLsuBlocks) (List.nodup_finRange _) fun _ _ => rfl
  obtain ⟨u', e₂, h₂, -, ready', prog⟩ := issues_progress reach₁ ready₁
    (List.finRange cfg.issueWidth)
  have ht : u.tick (fun b => answerLowest (u.states b)) = some (u', e₁ ++ e₂) := by
    have h := steps_cons_of h₀ (steps_append_of h₁ h₂)
    rw [List.nil_append] at h
    exact h
  refine ⟨u', e₁ ++ e₂, ht, run.tick (fun b _ => answerLowest_exact
    (small_of_reachable run.reachable b) (ready.parked b)) ht, ready', ?_⟩
  rcases prog with hlt | ⟨rfl, stuck⟩
  · rcases prog₁ with hlt₁ | ⟨rfl, -⟩
    · exact hlt.trans hlt₁
    · exact hlt
  · rcases prog₁ with hlt₁ | ⟨rfl, drained⟩
    · exact hlt₁
    · exact absurd (stuck_drained hq reach₀ (fun b => drained b (List.mem_finRange b))
        fun iw => stuck iw (List.mem_finRange iw)) busy.ne'

end Ticks

/-- Whole ticks of the unit, the front end enqueuing nothing, with the front of each block's
response port chosen by the memory side under its promise. -/
inductive TickRun (cfg : Config) (ok : LsuState → LsuRsp → Prop) :
    LsuUnit cfg → LsuUnit cfg → List Event → Prop
  | refl (u : LsuUnit cfg) : TickRun cfg ok u u []
  | tick {u u₁ u' : LsuUnit cfg} {rsps : Fin cfg.numLsuBlocks → Option LsuRsp}
      {evs L' : List Event} : (∀ b rsp, rsps b = some rsp → ok (u.states b) rsp) →
      u.tick rsps = some (u₁, evs) → TickRun cfg ok u₁ u' L' →
      TickRun cfg ok u u' (evs ++ L')

theorem drain_ticks (hq : 0 < cfg.lsuQueueSize) {u : LsuUnit cfg} {L : List Event}
    (run : Run cfg RspExact u L) (ready : Ready u) :
    ∃ u' L', TickRun cfg RspExact u u' L' ∧ Run cfg RspExact u' (L ++ L') ∧
      potential u' = 0 := by
  obtain ⟨n, hn⟩ : ∃ n, potential u = n := ⟨_, rfl⟩
  induction n using Nat.strong_induction_on generalizing u L with
  | _ n ih =>
    rcases Nat.eq_zero_or_pos n with rfl | hpos
    · exact ⟨u, [], .refl u, by simpa using run, hn⟩
    · obtain ⟨u₁, e₁, ht, run₁, ready₁, hlt⟩ :=
        tick_progress hq run ready (hn ▸ hpos)
      obtain ⟨u', L', tr, run', h0⟩ := ih _ (hn ▸ hlt) run₁ ready₁ rfl
      exact ⟨u', e₁ ++ L', .tick (fun b _ => answerLowest_exact
        (small_of_reachable run.reachable b) (ready.parked b)) ht tr, by simpa using run', h0⟩

/-- The load/store unit never deadlocks. From any state of a run under `RspExact`, with a positive
`LSU_QUEUE_SIZE`, every queued load or store reading lanes `buildLanes` can read, and every queued
or parked load asking for a lane, some whole ticks with nothing enqueued and with the memory side
keeping its promise leave every input queue empty, every pending table empty and no fence latched,
and by then every trace ever popped has been pushed. -/
theorem lsu_drains (hq : 0 < cfg.lsuQueueSize) {u : LsuUnit cfg} {L : List Event}
    (run : Run cfg RspExact u L) (servable : ∀ iw, ∀ t ∈ u.inputs iw, Servable cfg t)
    (parked : ∀ b, ∀ e ∈ (u.states b).pendingRdReqs.held,
      (requestMask cfg.numLsuLanes e.trace).Nonempty) :
    ∃ u' L', TickRun cfg RspExact u u' L' ∧ (∀ iw, u'.inputs iw = []) ∧
      (∀ b, (u'.states b).pendingRdReqs.held = 0 ∧ (u'.states b).fenceLock = false) ∧
      poppedOf (L ++ L') = pushedOf (L ++ L') := by
  have ready : Ready u := ⟨servable, fun b e he =>
    (parked_mask_nonempty run.reachable he (parked b e he)).ne_empty⟩
  obtain ⟨u', L', tr, run', h0⟩ := drain_ticks hq run ready
  obtain ⟨hin, hdone⟩ := potential_eq_zero_iff.mp h0
  refine ⟨u', L', tr, hin, hdone, ?_⟩
  have hold : totalHolding u' = 0 := Finset.sum_eq_zero fun b _ => by
    simp [holding, latched, (hdone b).1, (hdone b).2]
  simpa [hold] using (reachable_conservation run'.reachable).1

theorem lsu_drains_fenced_load :
    ∃ (u : LsuUnit scenarioConfig) (L : List Event), Run scenarioConfig RspExact u L ∧
      (u.states ⟨0, by decide⟩).fenceLock = true ∧
      (u.states ⟨0, by decide⟩).pendingRdReqs.held = {⟨twoLaneLoad, {1, 0}⟩} ∧
      ∃ u' L', TickRun scenarioConfig RspExact u u' L' ∧ (∀ iw, u'.inputs iw = []) ∧
        (∀ b, (u'.states b).pendingRdReqs.held = 0 ∧ (u'.states b).fenceLock = false) ∧
        poppedOf (L ++ L') = pushedOf (L ++ L') := by
  have h : (((((LsuUnit.init scenarioConfig).enqueue ⟨0, by decide⟩ twoLaneLoad).enqueue
      ⟨0, by decide⟩ laneZeroFence).tick fun _ => none).bind
        fun r => r.1.tick fun _ => none).map
      (fun r => ((r.1.states ⟨0, by decide⟩).fenceLock,
        (r.1.states ⟨0, by decide⟩).pendingRdReqs.held, decide (∀ iw, r.1.inputs iw = []),
        decide (∀ b, ∀ e ∈ (r.1.states b).pendingRdReqs.held,
          (requestMask scenarioConfig.numLsuLanes e.trace).Nonempty))) =
      some (true, {⟨twoLaneLoad, {1, 0}⟩}, true, true) := by
    decide
  obtain ⟨⟨u, e₂⟩, h₁₂, hu⟩ := Option.map_eq_some'.mp h
  obtain ⟨⟨u₁, e₁⟩, h₁, h₂⟩ := Option.bind_eq_some.mp h₁₂
  simp only [Prod.mk.injEq] at hu
  obtain ⟨hlock, hheld, hin, hparked⟩ := hu
  have run : Run scenarioConfig RspExact u _ :=
    (((Run.init.enqueue _ _).enqueue _ _).tick (fun _ _ h => by cases h) h₁).tick
      (fun _ _ h => by cases h) h₂
  refine ⟨u, _, run, hlock, hheld, lsu_drains (by decide) run (fun iw t ht => ?_)
    (of_decide_eq_true hparked)⟩
  rw [of_decide_eq_true hin iw] at ht
  cases ht

end LsuProgress
