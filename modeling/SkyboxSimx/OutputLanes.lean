import SkyboxSimx.LsuFence
import SkyboxSimx.SfuRuns

/-!
# Output lanes

The front end enqueues a trace on lane `wid % ISSUE_WIDTH`. The ALU, FPU and
SFU push every trace they pop on that lane: on the lane they popped it from, or,
for what the SFU's coprocessors return and the LSU's completed loads, on the
lane the `wid` names. The LSU pushes a store on the lane that pops it, but a
fence on the lane that finds its block drained, which may be another lane of the
block. With at least as many LSU blocks as issue lanes, a block has one lane and
all four units keep the discipline.
-/

namespace OutputLanes

open SimxTypes LsuModel LsuRuns ExecUnits ExecRuns SfuRuns

variable {cfg : Config}

section Lsu

variable {u u' : LsuUnit cfg} {evs : List Event}

/-- Serving a lane latches a new fence only on its own block, and pops it there. -/
theorem served_fenceTrace {iw : Fin cfg.issueWidth} (hs : u.Served iw u' evs)
    (b : Fin cfg.numLsuBlocks) :
    (u'.states b).fenceTrace = (u.states b).fenceTrace ∨
      blockOf cfg iw = b ∧ ∃ t, (u'.states b).fenceTrace = some t ∧ Event.pop iw t ∈ evs := by
  by_cases hb : b = blockOf cfg iw
  · subst hb
    cases hs <;> simp
  · cases hs <;> simp [hb]

/-- A step changes a block's latched fence only to a trace a lane of the block pops. -/
theorem step_fenceTrace {s : LsuStep cfg} (h : u.step s = some (u', evs))
    (b : Fin cfg.numLsuBlocks) :
    (u'.states b).fenceTrace = (u.states b).fenceTrace ∨
      ∃ iw t, blockOf cfg iw = b ∧ (u'.states b).fenceTrace = some t ∧ Event.pop iw t ∈ evs := by
  cases s with
  | latency => cases h; exact .inl rfl
  | absorb b' rsp =>
    refine .inl ?_
    by_cases hb : b = b' <;> cases LsuUnit.absorbed_of_absorb h <;> simp [hb]
  | issue iw =>
    cases LsuUnit.issued_of_issue h with
    | wait _ _ => exact .inl rfl
    | unlock _ _ _ hs =>
      rcases served_fenceTrace hs b with h' | ⟨hb, t, ht, hpop⟩
      · refine .inl (h'.trans ?_)
        by_cases hb : b = blockOf cfg iw <;> simp [hb]
      · exact .inr ⟨iw, t, hb, ht, List.mem_cons_of_mem _ hpop⟩
    | serve _ hs =>
      exact (served_fenceTrace hs b).imp_right fun ⟨hb, t, ht, hpop⟩ => ⟨iw, t, hb, ht, hpop⟩

/-- What a served lane pushes is a store it pops. -/
theorem served_push {iw : Fin cfg.issueWidth} (hs : u.Served iw u' evs) {iw' : Nat} {t : Trace}
    {d : Nat} (he : Event.push iw' t d ∈ evs) : iw' = iw ∧ Event.pop iw t ∈ evs := by
  cases hs <;> simp at he
  obtain ⟨rfl, rfl, -⟩ := he
  simp

/-- A step pushes a load on the lane its `wid` names, a store on the lane that pops it, and a
fence on a lane of the block that latched it. -/
theorem step_push {s : LsuStep cfg} (h : u.step s = some (u', evs)) {iw : Nat} {t : Trace}
    {d : Nat} (he : Event.push iw t d ∈ evs) :
    iw = t.wid % cfg.issueWidth ∨ ∃ lane : Fin cfg.issueWidth, lane.val = iw ∧
      (Event.pop lane t ∈ evs ∨ (u.states (blockOf cfg lane)).fenceTrace = some t) := by
  cases s with
  | latency => cases h; cases he
  | absorb b rsp =>
    cases LsuUnit.absorbed_of_absorb h <;> simp at he
    exact .inl (by rw [he.2.1]; exact he.1)
  | issue lane =>
    cases LsuUnit.issued_of_issue h with
    | wait _ _ => cases he
    | unlock _ _ hf hs =>
      rcases List.mem_cons.mp he with he | he
      · simp only [Event.push.injEq] at he
        obtain ⟨rfl, rfl, -⟩ := he
        exact .inr ⟨lane, rfl, .inr hf⟩
      · obtain ⟨rfl, hpop⟩ := served_push hs he
        exact .inr ⟨lane, rfl, .inl (List.mem_cons_of_mem _ hpop)⟩
    | serve _ hs =>
      obtain ⟨rfl, hpop⟩ := served_push hs he
      exact .inr ⟨lane, rfl, .inl hpop⟩

end Lsu

/-- Along any interleaving from reset, a block's latched fence was popped by a lane of the
block, and the LSU pushes a trace on the lane its `wid` names or on a lane of the block of a
lane that popped it. -/
theorem Reachable.push_lane {ok : LsuState → LsuRsp → Prop} {u : LsuUnit cfg} {L : List Event}
    (reach : Reachable cfg ok u L) :
    (∀ b f, (u.states b).fenceTrace = some f → ∃ iw, blockOf cfg iw = b ∧ Event.pop iw f ∈ L) ∧
    ∀ iw t d, Event.push iw t d ∈ L → iw = t.wid % cfg.issueWidth ∨
      ∃ lane lane' : Fin cfg.issueWidth, lane.val = iw ∧ blockOf cfg lane' = blockOf cfg lane ∧
        Event.pop lane' t ∈ L := by
  induction reach with
  | init => exact ⟨fun b f h => by simp [LsuUnit.init, LsuState.clear] at h, fun _ _ _ h => by cases h⟩
  | enqueue _ _ _ ih => exact ⟨fun b f h => ih.1 b f (by simpa using h), ih.2⟩
  | @step u L s u' evs _ _ h ih =>
    refine ⟨fun b f hf => ?_, fun iw t d he => ?_⟩
    · rcases step_fenceTrace h b with h' | ⟨iw, t, hb, ht, hpop⟩
      · obtain ⟨iw, hb, hpop⟩ := ih.1 b f (h' ▸ hf)
        exact ⟨iw, hb, List.mem_append_left _ hpop⟩
      · obtain rfl : t = f := Option.some.inj (ht.symm.trans hf)
        exact ⟨iw, hb, List.mem_append_right _ hpop⟩
    · rcases List.mem_append.mp he with he | he
      · exact (ih.2 iw t d he).imp_right fun ⟨lane, lane', hl, hb, hpop⟩ =>
          ⟨lane, lane', hl, hb, List.mem_append_left _ hpop⟩
      · rcases step_push h he with hw | ⟨lane, hl, hpop | hf⟩
        · exact .inl hw
        · exact .inr ⟨lane, lane, hl, rfl, List.mem_append_right _ hpop⟩
        · obtain ⟨lane', hb, hpop⟩ := ih.1 _ t hf
          exact .inr ⟨lane, lane', hl, hb, List.mem_append_left _ hpop⟩

end OutputLanes
