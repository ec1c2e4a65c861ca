import SkyboxSimx.FabricFifo

/-!
# The priority arbiter starves

`update_cursor` moves a cursor only under `ArbiterType::RoundRobin`. Under
`ArbiterType::Priority` every cursor stays where the constructor or `reset` put it, at 0,
and from cursor 0 the scan of output `o` looks at group index 0 first. So input `o * R` wins
output `o` whenever it has a request. Along every run of a priority `Mux` or `Switch`, while that
input stays busy, no other input of its group is ever forwarded: round robin bounds the wait,
priority does not bound it at all.

The response path of a `Switch` does not arbitrate and is not concerned here.
-/

namespace PriorityArbiter

open SimxTypes Arbiter Fabric FabricFifo

variable {T : Type} {I O : Nat}

/-! ## One output -/

/-- Under priority, serving an output leaves every cursor where it was. -/
theorem serve_priority_cursors (p : Ports T I O) (R : Nat) (o : Fin O) :
    (p.serve .priority R o).1.cursors = p.cursors := by
  unfold Ports.serve
  split
  · rfl
  · split
    · rfl
    · exact Function.update_eq_self o p.cursors

/-- From cursor 0 the scan of output `o` stops at its first step on input `o * R`, if ready. -/
theorem pick_first {R : Nat} (hR : 0 < R) {o : Nat} {ready : Fin I → Bool} {j₀ : Fin I}
    (hj : j₀.val = o * R) (busy : ready j₀ = true) : pick R o 0 ready = some (0, j₀) := by
  obtain ⟨R', rfl⟩ : ∃ R', R = R' + 1 := ⟨R - 1, by omega⟩
  have hlt : o * (R' + 1) + ((0 + 0) &&& (R' + 1 - 1)) < I := by
    simp [Nat.zero_and, ← hj]
  have hj₀ : (⟨_, hlt⟩ : Fin I) = j₀ := Fin.ext (by simp [Nat.zero_and, hj])
  rw [pick, List.range_succ_eq_map, List.findSome?_cons, scanStep, dif_pos hlt, hj₀, busy]
  simp [Nat.zero_and]

/-- From cursor 0, an output grants the first input of its group whenever that input has a
request, under either arbiter. -/
theorem serve_first (p : Ports T I O) (type : ArbiterType) {R : Nat} (hR : 0 < R) {o : Fin O}
    (hc : p.cursors o = 0) {j₀ : Fin I} (hj : j₀.val = o * R) (busy : p.ready j₀ = true) :
    ∃ req, (p.serve type R o).2 = some (0, j₀, req) := by
  have hpick : pick R o (p.cursors o) p.ready = some (0, j₀) := by
    rw [hc]
    exact pick_first hR hj busy
  obtain ⟨⟨i, j, req⟩, hg, he⟩ :=
    Option.map_eq_some'.mp ((p.serve_grant type R o).1.trans hpick)
  simp only [Prod.mk.injEq] at he
  obtain ⟨rfl, rfl⟩ := he
  exact ⟨req, hg⟩

/-! ## The `Mux` -/

section Mux

variable {m : Mux T I O} {A : List (Fin I × T)} {L : List (MuxEvent T I O)}

/-- Along every run a `Mux` puts at least one input in each group, and under priority all its
cursors stay at 0. -/
theorem muxRun_priority (run : MuxRun m A L) :
    0 < m.numReqs ∧ (m.type = .priority → ∀ o, m.ports.cursors o = 0) := by
  induction run with
  | init h =>
    unfold Mux.new at h
    split at h
    · cases h
      rename_i hacc
      simp only [accepts, Bool.and_eq_true, bne_iff_ne, ne_eq, decide_eq_true_eq] at hacc
      exact ⟨Nat.div_pos hacc.1.2 (Nat.pos_of_ne_zero hacc.2), fun _ _ => rfl⟩
    · cases h
  | push j req _ ih => unfold Mux.push; split <;> exact ih
  | reset _ ih => exact ⟨ih.1, fun _ _ => rfl⟩
  | @tick m A L _ ih =>
    refine ⟨by rw [Mux.tick_numReqs]; exact ih.1, fun hp o => ?_⟩
    rw [Mux.tick_type] at hp
    by_cases unbound : I = O
    · rw [Mux.tick, if_pos unbound]
      exact ih.2 hp o
    · rw [(Mux.tick_spec m unbound).1 o, hp, serve_priority_cursors]
      exact ih.2 hp o

/-- From any state of a priority run, a tick forwards on output `o` a request of input `o * R`
whenever that input has one, and nothing from another input. -/
theorem mux_tick_priority (run : MuxRun m A L) (hp : m.type = .priority) (unbound : I ≠ O)
    {o : Fin O} {j₀ : Fin I} (hj : j₀.val = o * m.numReqs) (busy : m.ports.ready j₀ = true) :
    (∃ req, MuxEvent.forward j₀ o req m.delay ∈ m.tick.2) ∧
      ∀ j req d, MuxEvent.forward j o req d ∈ m.tick.2 → j = j₀ := by
  obtain ⟨hR, hc⟩ := muxRun_priority run
  obtain ⟨req, hg⟩ := serve_first m.ports m.type hR (hc hp o) hj busy
  have hspec := (Mux.tick_spec m unbound).2
  refine ⟨⟨req, (hspec _ _ _ _).mpr ⟨rfl, 0, hg⟩⟩, fun j req' d he => ?_⟩
  obtain ⟨-, i, hg'⟩ := (hspec _ _ _ _).mp he
  rw [hg, Option.some.injEq, Prod.mk.injEq, Prod.mk.injEq] at hg'
  exact hg'.2.1.symm

theorem muxRun_foldl_push (batch : List (Fin I × T)) :
    ∀ {A : List (Fin I × T)} (r : Mux T I O × List (MuxEvent T I O)), MuxRun r.1 A (L ++ r.2) →
      let r' := batch.foldl (fun r p => ((r.1.push p.1 p.2).1, r.2 ++ (r.1.push p.1 p.2).2)) r
      MuxRun r'.1 (A ++ batch) (L ++ r'.2) := by
  induction batch with
  | nil => intro A r run; simpa using run
  | cons p batch ih =>
    intro A r run
    simpa using ih (A := A ++ [p]) _ (by simpa using run.push p.1 p.2)

/-- A batch of pushes extends a run. -/
theorem muxRun_pushAll (run : MuxRun m A L) (batch : List (Fin I × T)) :
    MuxRun (m.pushAll batch).1 (A ++ batch) (L ++ (m.pushAll batch).2) :=
  muxRun_foldl_push batch (m, []) (by simpa using run)

/-- Every state a tick of `rounds` starts from is reachable. -/
theorem muxRun_rounds (batches : List (List (Fin I × T))) :
    ∀ {m : Mux T I O} {A L}, MuxRun m A L →
      ∀ x ∈ m.rounds batches, ∃ A' L', MuxRun x.1 A' L' := by
  induction batches with
  | nil => intro m A L _ x hx; cases hx
  | cons batch rest ih =>
    intro m A L run x hx
    have run' := muxRun_pushAll run batch
    simp only [Mux.rounds, List.mem_cons] at hx
    rcases hx with rfl | hx
    · exact ⟨_, _, run'⟩
    · exact ih run'.tick x hx

/-- Under the priority arbiter the first input of a group starves the others. From any state of a
run of a priority `Mux`, whatever the front end pushes between ticks: at every tick before which
input `o * R` has a request, output `o` forwards a request of that input and of no other, so while
it stays busy the other inputs of its group wait forever. -/
theorem mux_priority_starves (run : MuxRun m A L) (hp : m.type = .priority) (unbound : I ≠ O)
    {o : Fin O} {j₀ : Fin I} (hj : j₀.val = o * m.numReqs) (batches : List (List (Fin I × T)))
    (busy : ∀ x ∈ m.rounds batches, x.1.ports.ready j₀ = true) :
    ∀ x ∈ m.rounds batches, (∃ req, MuxEvent.forward j₀ o req m.delay ∈ x.2) ∧
      ∀ j req d, MuxEvent.forward j o req d ∈ x.2 → j = j₀ := by
  intro x hx
  obtain ⟨ty, nr, de, hev⟩ := (Mux.rounds_spec m batches).2.1 x hx
  obtain ⟨A', L', run'⟩ := muxRun_rounds batches run x hx
  rw [hev unbound, ← de]
  exact mux_tick_priority run' (ty.trans hp) unbound (by rw [nr]; exact hj) (busy x hx)

end Mux

/-- Input 0 of a two-input priority `Mux` is busy at both ticks: input 1 is never served. -/
theorem mux_priority_starves_pair :
    ∃ m : Mux Nat 2 1, MuxRun m [] [] ∧
      ∀ x ∈ m.rounds [[(0, 7), (1, 8)], [(0, 9)]],
        (∃ req, MuxEvent.forward 0 0 req m.delay ∈ x.2) ∧
          ∀ j req d, MuxEvent.forward j 0 req d ∈ x.2 → j = 0 := by
  have h₀ : Mux.new .priority 2 1 1 =
      some (⟨.priority, 1, 2, ⟨fun _ => [], fun _ => 0⟩⟩ : Mux Nat 2 1) := rfl
  exact ⟨_, .init h₀,
    mux_priority_starves (.init h₀) rfl (by decide) (by decide) _ (by decide)⟩

/-! ## The `Switch` -/

section Switch

variable {s : Switch I O} {A : List (Switch.Arrival I O)} {L : List (SwitchEvent I O)}

/-- Along every run of a priority `Switch`, all its cursors stay at 0. -/
theorem switchFeed_priority (feed : SwitchFeed s A L) :
    s.type = .priority → ∀ o, s.ports.cursors o = 0 := by
  induction feed with
  | init h =>
    intro _ o
    unfold Switch.new at h
    split at h
    · cases h
      rfl
    · cases h
  | receive a _ ih => rw [(Switch.receive_keeps _ a).1, (Switch.receive_keeps _ a).2.2.2]; exact ih
  | reset _ _ => exact fun _ _ => rfl
  | @tick s A L s' evs _ h ih =>
    intro hp o
    by_cases unbound : I = O
    · rw [Switch.tick, if_pos unbound, Option.some.injEq, Prod.mk.injEq] at h
      obtain ⟨rfl, rfl⟩ := h
      exact ih hp o
    · obtain ⟨ty, -⟩ := Switch.tick_some unbound h
      rw [ty] at hp
      rw [(Switch.tick_spec unbound h).1 o, hp, serve_priority_cursors]
      exact ih hp o

/-- From any state of a priority run, a tick sends on output `o` a request of input `o * R`
whenever that input has one, and nothing from another input. -/
theorem switch_tick_priority (feed : SwitchFeed s A L) (hp : s.type = .priority)
    (unbound : I ≠ O) {s' : Switch I O} {evs : List (SwitchEvent I O)}
    (h : s.tick = some (s', evs)) {o : Fin O} {j₀ : Fin I} (hj : j₀.val = o * s.numReqs)
    (busy : s.ports.ready j₀ = true) :
    (∃ req, SwitchEvent.request j₀ o req s.delay ∈ evs) ∧
      ∀ j req d, SwitchEvent.request j o req d ∈ evs → j = j₀ := by
  obtain ⟨req, hg⟩ := serve_first s.ports s.type (R := s.numReqs) (Nat.two_pow_pos _)
    (switchFeed_priority feed hp o) hj busy
  have hspec := (Switch.tick_spec unbound h).2
  refine ⟨⟨_, (hspec _ _ _ _).mpr ⟨rfl, 0, req, hg, rfl⟩⟩, fun j req' d he => ?_⟩
  obtain ⟨-, i, req₀, hg', -⟩ := (hspec _ _ _ _).mp he
  rw [hg, Option.some.injEq, Prod.mk.injEq, Prod.mk.injEq] at hg'
  exact hg'.2.1.symm

theorem switchFeed_foldl_receive (batch : List (Switch.Arrival I O)) :
    ∀ {A : List (Switch.Arrival I O)} (r : Switch I O × List (SwitchEvent I O)),
      SwitchFeed r.1 A (L ++ r.2) →
      let r' := batch.foldl (fun r a => ((r.1.receive a).1, r.2 ++ (r.1.receive a).2)) r
      SwitchFeed r'.1 (A ++ batch) (L ++ r'.2) := by
  induction batch with
  | nil => intro A r feed; simpa using feed
  | cons a batch ih =>
    intro A r feed
    simpa using ih (A := A ++ [a]) _ (by simpa using feed.receive a)

/-- A batch of arrivals extends a run. -/
theorem switchFeed_receiveAll (feed : SwitchFeed s A L) (batch : List (Switch.Arrival I O)) :
    SwitchFeed (s.receiveAll batch).1 (A ++ batch) (L ++ (s.receiveAll batch).2) :=
  switchFeed_foldl_receive batch (s, []) (by simpa using feed)

/-- Every state a tick of `rounds` starts from is reachable. -/
theorem switchFeed_rounds (batches : List (List (Switch.Arrival I O))) :
    ∀ {s : Switch I O} {A L xs}, SwitchFeed s A L → s.rounds batches = some xs →
      ∀ x ∈ xs, ∃ A' L', SwitchFeed x.1 A' L' := by
  induction batches with
  | nil =>
    intro s A L xs _ h x hx
    cases h
    cases hx
  | cons batch rest ih =>
    intro s A L xs feed h x hx
    have feed' := switchFeed_receiveAll feed batch
    simp only [Switch.rounds, Option.bind_eq_some, Option.map_eq_some'] at h
    obtain ⟨⟨s₁, evs⟩, ht, ys, hys, rfl⟩ := h
    rcases List.mem_cons.mp hx with rfl | hx
    · exact ⟨_, _, feed'⟩
    · exact ih (feed'.tick ht) hys x hx

/-- Under the priority arbiter the first input of a group starves the others. From any state of a
run of a priority `Switch`, whatever its neighbours send between ticks: at every tick before which
`ReqIn.at(o * R)` has a request, output `o` sends a request of that input and of no other, so
while it stays busy the other inputs of its group wait forever. -/
theorem switch_priority_starves (feed : SwitchFeed s A L) (hp : s.type = .priority)
    (unbound : I ≠ O) {o : Fin O} {j₀ : Fin I} (hj : j₀.val = o * s.numReqs)
    {batches : List (List (Switch.Arrival I O))} {xs : List (Switch I O × List (SwitchEvent I O))}
    (h : s.rounds batches = some xs) (busy : ∀ x ∈ xs, x.1.ports.ready j₀ = true) :
    ∀ x ∈ xs, (∃ req, SwitchEvent.request j₀ o req s.delay ∈ x.2) ∧
      ∀ j req d, SwitchEvent.request j o req d ∈ x.2 → j = j₀ := by
  intro x hx
  obtain ⟨ty, de, lg, s', ht⟩ := (Switch.rounds_spec unbound s batches xs h).2.1 x hx
  obtain ⟨A', L', feed'⟩ := switchFeed_rounds batches feed h x hx
  rw [← de]
  exact switch_tick_priority feed' (ty.trans hp) unbound ht
    (by rw [Switch.numReqs, lg]; exact hj) (busy x hx)

end Switch

/-- Input 0 of a two-input priority `Switch` is busy at both ticks: input 1 is never served. -/
theorem switch_priority_starves_pair :
    ∃ (s : Switch 2 1) (xs : List (Switch 2 1 × List (SwitchEvent 2 1))),
      SwitchFeed s [] [] ∧
      s.rounds [[.request 0 { tag := 5 }, .request 1 { tag := 6 }], [.request 0 { tag := 7 }]] =
        some xs ∧
      ∀ x ∈ xs, (∃ req, SwitchEvent.request 0 0 req s.delay ∈ x.2) ∧
        ∀ j req d, SwitchEvent.request j 0 req d ∈ x.2 → j = 0 := by
  have h₀ : Switch.new .priority 2 1 1 =
      some (⟨.priority, 1, 1, ⟨fun _ => [], fun _ => 0⟩, fun _ => []⟩ : Switch 2 1) := rfl
  have h := Option.eq_some_of_isSome (show ((⟨.priority, 1, 1, ⟨fun _ => [], fun _ => 0⟩,
    fun _ => []⟩ : Switch 2 1).rounds [[.request 0 { tag := 5 }, .request 1 { tag := 6 }],
      [.request 0 { tag := 7 }]]).isSome by decide)
  exact ⟨_, _, .init h₀, h, switch_priority_starves (.init h₀) rfl (by decide) (by decide) h
    (by decide)⟩

end PriorityArbiter
