import SkyboxSimx.LsuConservation

/-!
# Fences in the load/store unit

A fence latched by a block shuts the block: until its pending table has drained,
no lane of the block pops a trace, the block sends no request, and the latch
keeps its fence. The fence leaves with the first step of a lane of the block
that finds the table empty, as that step's first event; every load the block's
lanes popped before has been pushed by then. The lane that pushes it is that
lane, which need not be the lane the fence came in on.
-/

namespace LsuFence

open SimxTypes PendingTable LsuModel LsuRuns LsuInvariant LsuConservation

variable {cfg : Config}

theorem held_eq_zero_of_empty {T : Type} {t : HashTable T} (c : t.Counted)
    (h : t.empty = true) : t.held = 0 := by
  rw [← Multiset.card_eq_zero, ← c]
  exact (beq_iff_eq.mp h).symm

/-- A step pushes no fence. -/
def NoFence (evs : List Event) : Prop := ∀ n t d, Event.push n t d ∈ evs → t.lsuType ≠ .fence

/-- A step that leaves block `b` shut as it was: the latch and its fence unchanged, no trace
popped from a lane of `b`, no request sent on `b`, and no copy of `b`'s fence pushed: a fence the
step pushes is the one latched by the block of the lane that pushes it, a block other than `b`. -/
structure Quiet (b : Fin cfg.numLsuBlocks) (u u' : LsuUnit cfg) (evs : List Event) : Prop where
  lock : (u'.states b).fenceLock = (u.states b).fenceLock
  fence : (u'.states b).fenceTrace = (u.states b).fenceTrace
  noPop : poppedOn cfg b evs = 0
  noRequest : ∀ req, Event.request b req ∉ evs
  noFence : ∀ n t d, Event.push n t d ∈ evs → t.lsuType = .fence →
    ∃ iw : Fin cfg.issueWidth, n = iw ∧ blockOf cfg iw ≠ b ∧
      (u.states (blockOf cfg iw)).fenceTrace = some t

theorem Quiet.of_states {b : Fin cfg.numLsuBlocks} {u u' : LsuUnit cfg} {evs : List Event}
    (h : u'.states b = u.states b) (noPop : poppedOn cfg b evs = 0)
    (noRequest : ∀ req, Event.request b req ∉ evs) (noFence : NoFence evs) : Quiet b u u' evs :=
  ⟨by rw [h], by rw [h], noPop, noRequest, fun n t d hp hf => absurd hf (noFence n t d hp)⟩

/-- Serving a lane pushes only the store it sends. -/
theorem served_noFence {u u' : LsuUnit cfg} {iw : Fin cfg.issueWidth} {evs : List Event}
    (s : u.Served iw u' evs) : NoFence evs := by
  intro n t d hp
  cases s with
  | store _ hstore _ =>
    obtain ⟨-, rfl, -⟩ : n = iw ∧ t = _ ∧ d = 1 := by simpa using hp
    simp [hstore]
  | _ => simp at hp

/-- Serving a lane of another block leaves `b` alone. -/
theorem served_quiet {u u' : LsuUnit cfg} {iw : Fin cfg.issueWidth} {evs : List Event}
    {b : Fin cfg.numLsuBlocks} (s : u.Served iw u' evs) (hb : blockOf cfg iw ≠ b) :
    Quiet b u u' evs := by
  have hval : (blockOf cfg iw).val ≠ b.val := Fin.val_ne_of_ne hb
  have noFence := served_noFence s
  cases s <;>
    exact .of_states (by simp [Ne.symm hb]) (by simp [poppedAt, hb])
      (by simp [hval, Ne.symm hval]) noFence

/-- A response changes only its block's table, and what it pushes is a parked load. -/
theorem absorbed_quiet {u u' : LsuUnit cfg} {b' : Fin cfg.numLsuBlocks} {rsp : LsuRsp}
    {evs : List Event} (inv : Inv u) (s : u.Absorbed b' rsp u' evs) (b : Fin cfg.numLsuBlocks) :
    Quiet b u u' evs := by
  have noFence : NoFence evs := by
    intro n t d hp
    cases s with
    | remaining => simp at hp
    | complete hat =>
      obtain ⟨-, rfl, -⟩ : _ ∧ t = _ ∧ _ := by simpa using hp
      simp [((inv b').slot _ (HashTable.mem_held_of_at hat)).1]
  by_cases hb : b = b'
  · subst hb
    cases s <;> exact ⟨by simp, by simp, by simp [poppedAt], by simp,
      fun n t d hp hf => absurd hf (noFence n t d hp)⟩
  · cases s <;> exact .of_states (by simp [hb]) (by simp [poppedAt]) (by simp) noFence

/-- What a step can do to a fence-locked block: leave it shut, or release its fence from a lane
of the block that finds the table empty, pushing the fence first. -/
theorem step_locked {u u' : LsuUnit cfg} {s : LsuStep cfg} {evs : List Event}
    {b : Fin cfg.numLsuBlocks} (inv : Inv u) (h : u.step s = some (u', evs))
    (locked : (u.states b).fenceLock = true) :
    Quiet b u u' evs ∨ ∃ iw f rest, s = .issue iw ∧ blockOf cfg iw = b ∧
      (u.states b).pendingRdReqs.empty = true ∧ (u.states b).fenceTrace = some f ∧
      evs = .push iw f 1 :: rest := by
  cases s with
  | latency =>
    cases h
    exact .inl (.of_states rfl (by simp [poppedAt]) (by simp) (by simp [NoFence]))
  | absorb b' rsp => exact .inl (absorbed_quiet inv (LsuUnit.absorbed_of_absorb h) b)
  | issue iw =>
    by_cases hb : blockOf cfg iw = b
    · subst hb
      cases LsuUnit.issued_of_issue h with
      | wait _ _ => exact .inl (.of_states rfl (by simp) (by simp) (by simp [NoFence]))
      | unlock _ hempty hf _ => exact .inr ⟨iw, _, _, rfl, rfl, hempty, hf, rfl⟩
      | serve hlock _ => exact absurd (hlock.symm.trans locked) Bool.false_ne_true
    · refine .inl ?_
      cases LsuUnit.issued_of_issue h with
      | wait _ _ => exact .of_states rfl (by simp) (by simp) (by simp [NoFence])
      | @unlock fence _ _ _ _ hf served =>
        have q := served_quiet served hb
        refine ⟨by simpa [Ne.symm hb] using q.lock, by simpa [Ne.symm hb] using q.fence,
          by simpa [poppedAt] using q.noPop, fun req hr => ?_, fun n t d hp hfence => ?_⟩
        · simp only [List.mem_cons, reduceCtorEq, false_or] at hr
          exact q.noRequest req hr
        · rcases List.mem_cons.mp hp with he | hp
          · obtain ⟨rfl, rfl, -⟩ := Event.push.inj he
            exact ⟨iw, rfl, hb, hf⟩
          · exact absurd hfence (served_noFence served n t d hp)
      | serve _ served => exact served_quiet served hb

/-- Fence ordering in the load/store unit, at every step of every interleaving from reset
whatever the memory side answers. While block `b` is fence-locked, a step either leaves it shut
(its latch and fence as they were, nothing popped from its lanes, no request sent on it, and each
fence it pushes latched by another block), or is the step of a lane of `b` that finds the table
empty and pushes the latched fence as its first event; by then every load popped from a lane of
`b` has been pushed. -/
theorem fence_holds_block {ok : LsuState → LsuRsp → Prop} {u u' : LsuUnit cfg}
    {L evs : List Event} {s : LsuStep cfg} (reach : Reachable cfg ok u L)
    (h : u.step s = some (u', evs)) {b : Fin cfg.numLsuBlocks}
    (locked : (u.states b).fenceLock = true) :
    ∃ f, (u.states b).fenceTrace = some f ∧ f.lsuType = .fence ∧
      (Quiet b u u' evs ∨ ∃ iw rest, s = .issue iw ∧ blockOf cfg iw = b ∧
        (u.states b).pendingRdReqs.empty = true ∧ evs = .push iw f 1 :: rest ∧
        (poppedOn cfg b L).filter (·.lsuType = .load) ≤ pushedOf L) := by
  obtain ⟨f, hf, hfence⟩ := (reachable_inv reach b).latch locked
  refine ⟨f, hf, hfence, ?_⟩
  rcases step_locked (reachable_inv reach) h locked with
    q | ⟨iw, f', rest, rfl, hb, hempty, hf', rfl⟩
  · exact .inl q
  · obtain rfl : f = f' := Option.some.inj (hf.symm.trans hf')
    refine .inr ⟨iw, rest, rfl, hb, hempty, rfl, ?_⟩
    have drained : holding (u.states b) = {f} := by
      simp [holding, latched, locked, hf,
        held_eq_zero_of_empty (reachable_inv reach b).table.counted.1 hempty]
    have perBlock := (reachable_conservation reach).2 b
    rw [drained] at perBlock
    calc (poppedOn cfg b L).filter (·.lsuType = .load)
        ≤ (pushedOf L + {f}).filter (·.lsuType = .load) := Multiset.filter_le_filter _ perBlock
      _ = (pushedOf L).filter (·.lsuType = .load) := by
          simp [Multiset.filter_add, Multiset.filter_singleton, hfence]
      _ ≤ pushedOf L := Multiset.filter_le _ _

/-- A fence of warp 0, entering on lane 0. -/
def laneZeroFence : Trace where
  uuid := 1
  lsuType := .fence

theorem fence_holds_block_at_second_lane :
    ∃ (u u' : LsuUnit scenarioConfig) (L evs : List Event),
      Reachable scenarioConfig (RspOk scenarioConfig) u L ∧
      u.step (.issue ⟨1, by decide⟩) = some (u', evs) ∧
      (u.states ⟨0, by decide⟩).fenceLock = true ∧
      ∃ f, (u.states ⟨0, by decide⟩).fenceTrace = some f ∧ f.lsuType = .fence := by
  have h : (((LsuUnit.init scenarioConfig).enqueue ⟨0, by decide⟩ laneZeroFence).step
      (.issue ⟨0, by decide⟩)).map (fun r => ((r.1.step (.issue ⟨1, by decide⟩)).isSome,
        (r.1.states ⟨0, by decide⟩).fenceLock)) = some (true, true) := by decide
  obtain ⟨⟨u, e₁⟩, h₁, hu⟩ := Option.map_eq_some'.mp h
  obtain ⟨hsome, locked⟩ := Prod.mk.inj hu
  obtain ⟨⟨u', evs⟩, h₂⟩ := Option.isSome_iff_exists.mp hsome
  have reach : Reachable scenarioConfig (RspOk scenarioConfig) u _ :=
    (Reachable.init.enqueue _ _).step (by exact trivial) h₁
  obtain ⟨f, hf, hfence, -⟩ := fence_holds_block reach h₂ locked
  exact ⟨u, u', _, evs, reach, h₂, locked, f, hf, hfence⟩

end LsuFence
