import SkyboxSimx.LsuRuns

/-!
# The block invariant of the load/store unit

Every block's pending table is one that allowed calls reach from
`HashTable(capacity)`, so its counter is exact; every parked entry is a load
whose remaining lanes lie inside the lanes it requested; a set `fence_lock`
latches a fence. No step needs the memory side's promise for this: a response
that breaks it makes the step fail instead. `LsuUnit::reset` clears every table
and latch, so the invariant holds across resets as well.
-/

namespace LsuInvariant

open SimxTypes PendingTable LsuModel LsuRuns

variable {cfg : Config}

/-- A parked load: its remaining lanes are among those it requested, and are empty only if it
requested none. -/
def SlotOk (cfg : Config) (e : PendingReq) : Prop :=
  e.trace.lsuType = .load ∧ e.mask ⊆ requestMask cfg.numLsuLanes e.trace ∧
    (e.mask = ∅ → requestMask cfg.numLsuLanes e.trace = ∅)

structure BlockInv (cfg : Config) (st : LsuState) : Prop where
  table : st.pendingRdReqs.Reachable cfg.lsuQueueSize
  slot : ∀ e ∈ st.pendingRdReqs.held, SlotOk cfg e
  latch : st.fenceLock = true → ∃ f, st.fenceTrace = some f ∧ f.lsuType = .fence

/-- What every reachable state satisfies, block by block. -/
def Inv (u : LsuUnit cfg) : Prop := ∀ b, BlockInv cfg (u.states b)

theorem Inv.setState {u : LsuUnit cfg} (inv : Inv u) {b : Fin cfg.numLsuBlocks} {st : LsuState}
    (hst : BlockInv cfg st) : Inv (u.setState b st) := by
  intro b'
  by_cases hb : b' = b
  · simpa [hb] using hst
  · simpa [hb] using inv b'

theorem Inv.of_states {u u' : LsuUnit cfg} (inv : Inv u) (h : u'.states = u.states) : Inv u' :=
  fun b => h ▸ inv b

theorem served_inv {u u' : LsuUnit cfg} {iw : Fin cfg.issueWidth} {evs : List Event}
    (inv : Inv u) (s : u.Served iw u' evs) : Inv u' := by
  have blk := inv (blockOf cfg iw)
  cases s with
  | idle _ => exact inv
  | latch _ hfence =>
    exact (inv.of_states rfl).setState ⟨blk.table, blk.slot, fun _ => ⟨_, rfl, hfence⟩⟩
  | store _ _ _ => exact inv.of_states rfl
  | stall _ _ _ => exact inv
  | @load trace _ mask _ _ _ _ hload hfull hb ha =>
    refine (inv.of_states rfl).setState
      ⟨.apply (o := .allocate ⟨trace, mask⟩) blk.table hfull (by simp [HashTable.apply, ha]),
      fun e he => ?_, blk.latch⟩
    rw [HashTable.allocate_held ha, Multiset.mem_cons] at he
    rcases he with rfl | he
    · exact ⟨hload, by simp [buildLanes_mask hb], fun h => (buildLanes_mask hb).symm.trans h⟩
    · exact blk.slot e he

theorem issued_inv {u u' : LsuUnit cfg} {iw : Fin cfg.issueWidth} {evs : List Event}
    (inv : Inv u) (s : u.Issued iw u' evs) : Inv u' := by
  cases s with
  | wait _ _ => exact inv
  | unlock _ _ _ served =>
    have blk := inv (blockOf cfg iw)
    have unlocked : BlockInv cfg { u.states (blockOf cfg iw) with fenceLock := false } :=
      ⟨blk.table, blk.slot, fun h => absurd h Bool.false_ne_true⟩
    exact served_inv (inv.setState unlocked) served
  | serve _ served => exact served_inv inv served

theorem absorbed_inv {u u' : LsuUnit cfg} {b : Fin cfg.numLsuBlocks} {rsp : LsuRsp}
    {evs : List Event} (inv : Inv u) (s : u.Absorbed b rsp u' evs) : Inv u' := by
  have blk := inv b
  cases s with
  | @remaining entry hat _ hrest =>
    have hw : ((u.states b).pendingRdReqs.apply
        (.atRef rsp.slot fun e => { e with mask := e.mask \ rsp.mask })) =
        some ((u.states b).pendingRdReqs.write rsp.slot { entry with mask := entry.mask \ rsp.mask }) := by
      simp [HashTable.apply, hat]
    refine Inv.setState (fun b' => inv b') ⟨.apply blk.table (by simp [HashTable.Allowed, hat]) hw,
      fun e he => ?_, blk.latch⟩
    have hmem : e ∈ (u.states b).pendingRdReqs.held + {{ entry with mask := entry.mask \ rsp.mask }} := by
      rw [← HashTable.write_held hat]
      exact Multiset.mem_add.mpr (.inl he)
    rcases Multiset.mem_add.mp hmem with he | he
    · exact blk.slot e he
    · obtain rfl := Multiset.mem_singleton.mp he
      obtain ⟨hload, hsub, -⟩ := blk.slot entry (HashTable.mem_held_of_at hat)
      exact ⟨hload, Finset.sdiff_subset.trans hsub, fun h => absurd h hrest⟩
  | @complete entry table hat _ _ hrel =>
    have hw : ((u.states b).pendingRdReqs.apply
        (.atRef rsp.slot fun e => { e with mask := e.mask \ rsp.mask })) =
        some ((u.states b).pendingRdReqs.write rsp.slot { entry with mask := entry.mask \ rsp.mask }) := by
      simp [HashTable.apply, hat]
    have hwat : ((u.states b).pendingRdReqs.write rsp.slot
        { entry with mask := entry.mask \ rsp.mask }).at rsp.slot = some { entry with mask := entry.mask \ rsp.mask } := by
      simpa using HashTable.write_at (Option.isSome_iff_exists.mpr ⟨entry, hat⟩) _ rsp.slot
    refine Inv.setState (fun b' => inv b')
      ⟨.apply (o := .release rsp.slot) (.apply blk.table (by simp [HashTable.Allowed, hat]) hw)
        (by simp [HashTable.Allowed, hwat]) hrel, fun e he => ?_, blk.latch⟩
    exact blk.slot e (by
      rw [HashTable.write_release_held hat hrel]
      exact Multiset.mem_cons_of_mem he)

theorem step_inv {u u' : LsuUnit cfg} {s : LsuStep cfg} {evs : List Event} (inv : Inv u)
    (h : u.step s = some (u', evs)) : Inv u' := by
  cases s with
  | latency => cases h; exact inv.of_states rfl
  | absorb b rsp => exact absorbed_inv inv (LsuUnit.absorbed_of_absorb h)
  | issue iw => exact issued_inv inv (LsuUnit.issued_of_issue h)

theorem init_inv : Inv (LsuUnit.init cfg) := fun _ =>
  ⟨.apply .new (o := .clear) trivial rfl, by simp [LsuUnit.init, LsuState.clear], by
    simp [LsuUnit.init, LsuState.clear]⟩

theorem reachable_inv {ok : LsuState → LsuRsp → Prop} {u : LsuUnit cfg} {L : List Event}
    (reach : Reachable cfg ok u L) : Inv u := by
  induction reach with
  | init => exact init_inv
  | enqueue _ _ _ ih => exact ih.of_states rfl
  | step _ _ h ih => exact step_inv ih h

theorem reachable_tables {ok : LsuState → LsuRsp → Prop} {u : LsuUnit cfg} {L : List Event}
    (reach : Reachable cfg ok u L) (b : Fin cfg.numLsuBlocks) :
    (u.states b).pendingRdReqs.Reachable cfg.lsuQueueSize :=
  (reachable_inv reach b).table

/-- The states met along any interleaving of enqueues, unit steps and calls of `LsuUnit::reset`
from the constructor. -/
inductive ResetReachable (cfg : Config) (ok : LsuState → LsuRsp → Prop) : LsuUnit cfg → Prop
  | init : ResetReachable cfg ok (LsuUnit.init cfg)
  | enqueue {u} (iw : Fin cfg.issueWidth) (trace : Trace) :
      ResetReachable cfg ok u → ResetReachable cfg ok (u.enqueue iw trace)
  | step {u s u' evs} : ResetReachable cfg ok u → Admissible ok u s →
      u.step s = some (u', evs) → ResetReachable cfg ok u'
  | reset {u} : ResetReachable cfg ok u → ResetReachable cfg ok u.reset

theorem ResetReachable.of_reachable {ok : LsuState → LsuRsp → Prop} {u : LsuUnit cfg}
    {L : List Event} (reach : Reachable cfg ok u L) : ResetReachable cfg ok u := by
  induction reach with
  | init => exact .init
  | enqueue iw trace _ ih => exact ih.enqueue iw trace
  | step _ hadm h ih => exact ih.step hadm h

/-- `reset()` clears every block: its table by `clear`, its latch dropped. -/
theorem reset_inv {u : LsuUnit cfg} (inv : Inv u) : Inv u.reset := fun b =>
  ⟨.apply (o := .clear) (inv b).table trivial rfl, by simp [LsuUnit.reset, LsuState.clear],
    by simp [LsuUnit.reset, LsuState.clear]⟩

theorem resetReachable_inv {ok : LsuState → LsuRsp → Prop} {u : LsuUnit cfg}
    (reach : ResetReachable cfg ok u) : Inv u := by
  induction reach with
  | init => exact init_inv
  | enqueue _ _ _ ih => exact ih.of_states rfl
  | step _ _ h ih => exact step_inv ih h
  | reset _ ih => exact reset_inv ih

/-- The pending-table invariant, for every table reached by allowed calls and so for every
block's `pending_rd_reqs` at every step of the unit, across `LsuUnit::reset` and whatever the
memory side answers: `size_` counts the occupied slots, `empty()` and `full()` are exact,
`allocate` takes the least free slot and never reaches `assert(false)`, `release(i)` frees only
slot `i`, `clear` frees all, and the occupied slots, the tags of the outstanding loads, are below
the capacity. -/
theorem pending_table_invariant :
    (∀ {T : Type} [Inhabited T] {n : Nat} {t : HashTable T}, t.Reachable n → t.Sound n) ∧
    ∀ {ok : LsuState → LsuRsp → Prop} {u : LsuUnit cfg}, ResetReachable cfg ok u →
      ∀ b, (u.states b).pendingRdReqs.Sound cfg.lsuQueueSize :=
  ⟨fun reach => reach.sound, fun reach b => (resetReachable_inv reach b).table.sound⟩

/-- Two loads, parked in slots 0 and 1 of the one block; the first is answered in full, and its
slot released. -/
def releaseScript : List (Action scenarioConfig) :=
  [.enqueue ⟨0, by decide⟩ twoLaneLoad, .enqueue ⟨1, by decide⟩ twoLaneLoad, .tick fun _ => none,
    .tick fun _ => some ⟨{0, 1}, 0, 0, 0⟩]

theorem pending_table_invariant_after_release :
    ∃ u L, Run scenarioConfig (RspOk scenarioConfig) u L ∧
      (u.states ⟨0, by decide⟩).pendingRdReqs.at 0 = none ∧
      (u.states ⟨0, by decide⟩).pendingRdReqs.at 1 = some ⟨twoLaneLoad, {1, 0}⟩ ∧
      (u.states ⟨0, by decide⟩).pendingRdReqs.Sound scenarioConfig.lsuQueueSize ∧
      (u.reset.states ⟨0, by decide⟩).pendingRdReqs.Sound scenarioConfig.lsuQueueSize := by
  have h : (replay (RspOk scenarioConfig) (LsuUnit.init scenarioConfig, []) releaseScript).map
      (fun r => ((r.1.states ⟨0, by decide⟩).pendingRdReqs.at 0,
        (r.1.states ⟨0, by decide⟩).pendingRdReqs.at 1)) =
      some (none, some ⟨twoLaneLoad, {1, 0}⟩) := by
    decide
  obtain ⟨⟨u, L⟩, hr, he⟩ := Option.map_eq_some'.mp h
  have run := Run.of_replay _ .init hr
  exact ⟨u, L, run, (Prod.mk.inj he).1, (Prod.mk.inj he).2,
    pending_table_invariant.2 (.of_reachable run.reachable) _,
    pending_table_invariant.2 (ResetReachable.of_reachable run.reachable).reset _⟩

/-- A parked load keeps a non-empty mask while its partial issue has an active lane. -/
theorem parked_mask_nonempty {ok : LsuState → LsuRsp → Prop} {u : LsuUnit cfg} {L : List Event}
    (reach : Reachable cfg ok u L) {b : Fin cfg.numLsuBlocks} {e : PendingReq}
    (he : e ∈ (u.states b).pendingRdReqs.held)
    (active : (requestMask cfg.numLsuLanes e.trace).Nonempty) : e.mask.Nonempty :=
  Finset.nonempty_iff_ne_empty.mpr fun h =>
    Finset.nonempty_iff_ne_empty.mp active (((reachable_inv reach b).slot e he).2.2 h)

/-- The second partial issue of an eight-thread warp whose upper four threads are inactive. -/
def idlePartialLoad : Trace where
  uuid := 2
  pid := 1
  tmask := 15
  lsuType := .load
  data := .lsu (List.replicate 8 ⟨512, 4⟩)

/-- A load whose partial issue has no active lane is parked with an empty mask, and no response
the memory side may send can ever answer it. -/
theorem idle_partial_load_parked :
    ∃ u L, Run scenarioConfig (RspOk scenarioConfig) u L ∧
      (u.states ⟨0, by decide⟩).pendingRdReqs.at 0 = some ⟨idlePartialLoad, ∅⟩ ∧
      ∀ rsp : LsuRsp, rsp.slot = 0 → ¬ RspOk scenarioConfig (u.states ⟨0, by decide⟩) rsp := by
  have h : (replay (RspOk scenarioConfig) (LsuUnit.init scenarioConfig, [])
      [.enqueue ⟨0, by decide⟩ idlePartialLoad, .tick fun _ => none]).map
      (fun r => (r.1.states ⟨0, by decide⟩).pendingRdReqs.at 0) =
      some (some ⟨idlePartialLoad, ∅⟩) := by decide
  obtain ⟨⟨u, L⟩, hr, hat⟩ := Option.map_eq_some'.mp h
  refine ⟨u, L, Run.of_replay _ .init hr, hat, fun rsp htag hok => ?_⟩
  obtain ⟨e, he, hne, hsub⟩ := rspOk_iff.mp hok
  rw [htag, hat, Option.some.injEq] at he
  subst he
  have hempty : requestMask scenarioConfig.numLsuLanes idlePartialLoad = ∅ := by decide
  rw [hempty, Finset.subset_empty] at hsub
  exact Finset.nonempty_iff_ne_empty.mp hne hsub

end LsuInvariant
